import Beast.Http.Read
import Beast.Http.Segments

/-! What the parts of a read do to the stream and to the buffer, and that a read comes to its end. -/

namespace Beast.Http

variable {d : Derived} {R : DirectReader} {B : DynamicBuffer} {s t : ReadState d R B}

@[simp] theorem run_onParser {α : Type} (m : ParserStep d α) (s : ReadState d R B) :
    Step.run (onParser m) s = ((Step.run m s.toBasicParser).1,
      { s with toBasicParser := (Step.run m s.toBasicParser).2 }) := rfl

@[simp] theorem data_consume (s : ReadState d R B) (n : Nat) :
    (s.consume n).data = s.data.drop n :=
  B.consume_data s.buffer n

/-- The octets that arrive at a stream before it reports anything. -/
def SyncReadStream.left (stream : SyncReadStream) : Octets := stream.input.flatten

/-- Octets that are read are the front of those that arrive, and fit into their room. -/
theorem read_some_ok {stream stream' : SyncReadStream} {n : Nat} {o : Octets}
    (read : stream.read_some n = (o, none, stream')) :
    o ≠ [] ∧ o.length ≤ n ∧ o ++ stream'.left = stream.left ∧ stream'.ending = stream.ending := by
  have size := takeSome_length n stream.input
  have front := takeSome_append n stream.input
  unfold SyncReadStream.read_some at read
  rcases taken : takeSome n stream.input with ⟨_ | ⟨c, o'⟩, input⟩
  · rw [taken] at read
    cases read
  · rw [taken] at read size front
    cases read
    exact ⟨by simp, size, front, rfl⟩

/-- Something else is reported where no octets are left, if any were asked for. -/
theorem read_some_error {stream stream' : SyncReadStream} {n : Nat} {o : Octets} {ec : ErrorCode}
    (asked : n ≠ 0) (read : stream.read_some n = (o, some ec, stream')) :
    stream.left = [] ∧ stream'.left = [] ∧ ec = stream.ending := by
  unfold SyncReadStream.read_some at read
  split at read
  · rename_i some_
    cases read
    exact ⟨takeSome_nil asked (congrArg Prod.fst some_), rfl, rfl⟩
  · cases read

/-- A step of the parser leaves the buffer and the stream alone. -/
theorem wlp_onParser_bind {α β : Type} {m : ParserStep d α} {f : α → ReadStep d R B β}
    {Q : β → ReadState d R B → Prop}
    (goes : ∀ a p, Step.run m s.toBasicParser = (.ok a, p) →
      Step.wlp (f a) Q { s with toBasicParser := p }) : Step.wlp (onParser m >>= f) Q s := by
  refine Step.wlp_bind fun a t ran => ?_
  rcases result : Step.run m s.toBasicParser with ⟨r, p⟩
  rw [run_onParser, result] at ran
  cases ran
  exact goes a p result

/-- The reader prepares a buffer that holds an octet and no more than was asked for. -/
theorem wlp_onPrepare_bind {β : Type} {n : Nat} {f : Nat → ReadStep d R B β}
    {Q : β → ReadState d R B → Prop} (some_ : 0 < n)
    (goes : ∀ k r_, 1 ≤ k → k ≤ n → (R.prepare s.r_ n).2 = some k →
      Step.wlp (f k) Q { s with r_ }) :
    Step.wlp (onPrepare n >>= f) Q s := by
  refine Step.wlp_bind fun k t ran => ?_
  have bounds := R.bounded s.r_ n
  unfold Step.run onPrepare at ran
  split at ran
  · rename_i prepared
    cases ran
    obtain ⟨first, last⟩ := bounds _ some_ (congrArg Prod.snd prepared)
    exact goes _ _ first last (congrArg Prod.snd prepared)
  · cases ran

/-- A read that prepares room does so in the buffer alone. -/
theorem prepareBuffer_ok {n : Nat} (ran : Step.run prepareBuffer s = (.ok n, t)) :
    0 < n ∧ B.prepare s.buffer n = some t.buffer ∧ t = { s with buffer := t.buffer } := by
  unfold prepareBuffer at ran
  rw [Step.run_get_bind] at ran
  dsimp only at ran
  split at ran
  · cases ran
  · rename_i prepared
    cases ran
    exact ⟨B.read_size_pos _ _ (by omega), prepared, rfl⟩

/-- Making room stops only with an exception, and changes nothing then. -/
theorem prepareBuffer_error {halt : Halt} (ran : Step.run prepareBuffer s = (.error halt, t)) :
    halt = .length_error ∧ t = s ∧
      B.prepare s.buffer (B.read_size_helper s.buffer 65536) = none := by
  unfold prepareBuffer at ran
  rw [Step.run_get_bind] at ran
  dsimp only at ran
  split at ran
  · rename_i none
    cases ran
    exact ⟨rfl, rfl, none⟩
  · cases ran

/-- Where an exception is caught, what stops is that exception, or what stopped before. -/
theorem caught_error {α : Type} {m : ReadStep d R B α} {halt : Halt}
    (ran : Step.run (caught m) s = (.error halt, t)) :
    (halt = .ec .buffer_overflow ∧ Step.run m s = (.error .length_error, t)) ∨
      (halt ≠ .length_error ∧ Step.run m s = (.error halt, t)) := by
  unfold Step.run caught at ran
  split at ran
  · rename_i threw
    cases ran
    exact .inl ⟨rfl, threw⟩
  · rename_i other
    refine .inr ⟨?_, ran⟩
    rintro rfl
    exact other _ ran

/-- Where an exception is caught, a success is that of what may throw it. -/
theorem caught_ok {α : Type} {m : ReadStep d R B α} {a : α}
    (ran : Step.run (caught m) s = (.ok a, t)) : Step.run m s = (.ok a, t) := by
  unfold Step.run caught at ran
  split at ran
  · cases ran
  · exact ran

/-- What a parser becomes when octets of the body were passed on: they are counted off. -/
def passed (p : BasicParser d) (o : Octets) : BasicParser d :=
  let m := p.toMessage.take o
  match p.state_ with
  | .body =>
    { p with toMessage := if m.len_ = 0 then (Step.run doComplete m).2 else m }
  | .chunk_body =>
    { p with toMessage := if m.len_ = 0 then { m with state_ := .chunk_header } else m }
  | _ => { p with impl := m.impl }

/-- The octets of a body that ends with the stream are not counted. -/
theorem passed_toEof {p : BasicParser d} (state : p.state_ = .body_to_eof) (o : Octets) :
    passed p o = { p with impl := (d.call p.impl (.on_data o)).1 } := by
  unfold passed
  rw [state]
  rfl

/-- Committing octets of the body passes them on, and leaves the buffer and the stream alone. -/
theorem commitBody_ok {o : Octets} {r : Except Halt Unit}
    (ran : Step.run (commitBody o) s = (r, t)) :
    r = .ok () ∧ t.buffer = s.buffer ∧ t.stream = s.stream ∧ t.buf_ = s.buf_ ∧
      t.toBasicParser = passed s.toBasicParser o := by
  unfold commitBody onCommit at ran
  rw [Step.run_modify_bind, Step.run_get_bind] at ran
  dsimp only at ran
  split at ran
  · rename_i state
    rw [Step.run_set_bind] at ran
    split at ran
    · rename_i done
      have all : s.len_ - o.length = 0 := by simpa using done
      cases ran
      refine ⟨rfl, rfl, rfl, rfl, ?_⟩
      simp only [passed, state, Message.take, all, ↓reduceIte]
      rfl
    · rename_i more
      have some_ : s.len_ - o.length ≠ 0 := by simpa using more
      cases ran
      refine ⟨rfl, rfl, rfl, rfl, ?_⟩
      simp only [passed, state, Message.take, some_, ↓reduceIte]
  · rename_i state
    split at ran
    · rename_i done
      have all : s.len_ - o.length = 0 := by simpa using done
      cases ran
      refine ⟨rfl, rfl, rfl, rfl, ?_⟩
      simp only [passed, state, Message.take, all, ↓reduceIte]
    · rename_i more
      have some_ : s.len_ - o.length ≠ 0 := by simpa using more
      cases ran
      refine ⟨rfl, rfl, rfl, rfl, ?_⟩
      simp only [passed, state, Message.take, some_, ↓reduceIte]
  · rename_i notBody notChunk
    cases ran
    refine ⟨rfl, rfl, rfl, rfl, ?_⟩
    unfold passed
    split
    · exact absurd ‹_› notBody
    · exact absurd ‹_› notChunk
    · rfl

/-- A call without an error code that is not refused is a call with one. -/
theorem tell_ok {c : Callback} {m m' : Message d} (told : Step.run (tell c) m = (.ok (), m')) :
    Step.run (invoke c) m = (.ok (), m') := by
  unfold Step.run tell at told
  unfold Step.run invoke
  dsimp only at told ⊢
  cases accepted : (d.call m.impl c).2 with
  | none =>
    rw [accepted] at told
    exact told
  | some ec =>
    rw [accepted] at told
    cases told

/-- The body of a direct parser is announced as that of an indirect one, unless it is refused. -/
theorem maybeDoBodyDirect_ok {m m' : Message d}
    (begun : Step.run maybeDoBodyDirect m = (.ok (), m')) :
    Step.run maybeDoBodyIndirect m = (.ok (), m') := by
  unfold maybeDoBodyDirect setFlags at begun
  unfold maybeDoBodyIndirect setFlags
  rw [Step.run_get_bind] at begun ⊢
  split at begun
  · rename_i announced
    rw [if_pos announced]
    exact begun
  · rename_i fresh
    rw [if_neg fresh]
    rw [Step.run_modify_bind] at begun ⊢
    split at begun
    · rename_i sized
      rw [if_pos sized]
      exact tell_ok begun
    · rename_i unsized
      rw [if_neg unsized]
      exact tell_ok begun

/-- The body was announced. -/
def Announces (p q : BasicParser d) : Prop :=
  Step.run maybeDoBodyIndirect p.toMessage = (.ok (), q.toMessage) ∧
    q = { p with toMessage := q.toMessage }

/-- Announcing the body keeps the state, and what is left of the body. -/
theorem Announces.same {p q : BasicParser d} (announced : Announces p q) :
    q.state_ = p.state_ ∧ q.len_ = p.len_ := by
  have same := maybeDoBody_spec announced.1
  rw [same]
  exact ⟨rfl, rfl⟩

/-- A body is announced in front of what a direct parser does with it. -/
theorem wlp_announces {β : Type} {f : Unit → ReadStep d R B β} {Q : β → ReadState d R B → Prop}
    (goes : ∀ p, Announces s.toBasicParser p → Step.wlp (f ()) Q { s with toBasicParser := p }) :
    Step.wlp (onParser (onMessage maybeDoBodyDirect) >>= f) Q s := by
  refine wlp_onParser_bind fun _ p ran => goes p ?_
  rw [onMessage, Step.run_zoom, Prod.mk.injEq] at ran
  obtain ⟨begun, rfl⟩ := ran
  exact ⟨maybeDoBodyDirect_ok (Step.run_snd begun), rfl⟩

/-- What copying octets of the body does: some of those in the buffer are passed on. -/
structure Copies (s : ReadState d R B) (n : Nat) (t : ReadState d R B) : Prop where
  inBody : inBody s.state_ = true
  some_ : 1 ≤ n
  within : n ≤ s.data.length
  stream : t.stream = s.stream
  kept : t.buf_ = s.buf_
  parser : ∃ p, Announces s.toBasicParser p ∧ t.toBasicParser = passed p (s.data.take n)
  -- Only where the body ends with the stream, the octets are gone from the buffer.
  data : t.data = if s.state_ = .body_to_eof then s.data.drop n else s.data
  size : s.state_ = .body_to_eof ∨ n ≤ s.len_
  asked : s.state_ = .body_to_eof →
    ∃ k, (R.prepare s.r_ s.data.length).2 = some k ∧ n = min k s.data.length

/-- Copying octets of the body passes some of them on. -/
theorem copyBody_spec (waits : s.data ≠ []) : Step.wlp copyBody (Copies s) s := by
  have size : 0 < s.data.length := List.length_pos_iff.mpr waits
  have least : ∀ {k : Nat}, 1 ≤ k → 1 ≤ (s.data.take k).length := by
    intro k first
    rw [List.length_take]
    omega
  have same : ∀ k, s.data.take (s.data.take k).length = s.data.take k := by
    intro k
    rw [List.length_take]
    rcases Nat.le_total k s.data.length with short | long
    · rw [Nat.min_eq_left short]
    · rw [Nat.min_eq_right long, List.take_length, List.take_of_length_le long]
  unfold copyBody
  refine Step.wlp_get_bind (Step.wlp_ite (fun _ => Step.wlp_stop) fun body => ?_)
  have inside : Beast.Http.inBody s.state_ = true := by simpa using body
  refine wlp_announces fun p announced => ?_
  refine Step.wlp_get_bind (Step.wlp_ite (fun toEof => ?_) fun sized => ?_)
  · have state : s.state_ = .body_to_eof := announced.same.1 ▸ by simpa using toEof
    refine wlp_onPrepare_bind size fun k r_ first _ prepared => ?_
    refine Step.wlp_modify_bind (Step.wlp_modify_bind (Step.wlp_pure ?_))
    refine ⟨inside, least first, List.length_take_le' .., rfl, rfl, ⟨p, announced, ?_⟩, ?_,
      .inl state, fun _ => ⟨k, prepared, List.length_take⟩⟩
    · rw [passed_toEof (announced.same.1.trans state)]
      change { p with impl := (d.call p.impl (.on_data (s.data.take k))).1 } =
        { p with impl := (d.call p.impl (.on_data (s.data.take (s.data.take k).length))).1 }
      rw [same]
    · rw [if_pos state]
      exact data_consume _ _
  · have state : s.state_ ≠ .body_to_eof := announced.same.1 ▸ by simpa using sized
    refine Step.wlp_ite (fun _ => Step.wlp_stop) fun more => ?_
    have left : 0 < p.len_ := by simpa [Nat.pos_iff_ne_zero] using more
    refine wlp_onPrepare_bind left fun k r_ first last _ => ?_
    refine Step.wlp_bind fun _ t ran => Step.wlp_pure ?_
    obtain ⟨_, buffer, stream, kept, parser⟩ := commitBody_ok ran
    refine ⟨inside, least first, List.length_take_le' .., stream, kept, ⟨p, announced, ?_⟩, ?_,
      .inr ?_, fun toEof => absurd toEof state⟩
    · exact parser.trans (congrArg (passed p) (same k).symm)
    · rw [if_neg state]
      exact congrArg (fun b => (B.data b).flatten) buffer
    · rw [← announced.same.2, List.length_take]
      exact Nat.le_trans (Nat.min_le_left _ _) last

/-- What preparing a buffer for octets of the body does. -/
structure Prepares (s : ReadState d R B) (n : Nat) (t : ReadState d R B) : Prop where
  inBody : inBody s.state_ = true
  some_ : 0 < n
  stream : t.stream = s.stream
  buffer : t.buffer = s.buffer
  kept : t.buf_ = s.buf_
  parser : Announces s.toBasicParser t.toBasicParser
  size : s.state_ = .body_to_eof ∨ n ≤ s.len_

/-- A buffer for octets of the body holds no more than what is left of it. -/
theorem prepareBody_spec {limit : Nat} (some_ : 0 < limit) :
    Step.wlp (prepareBody limit) (Prepares s) s := by
  have prepared : ∀ {p : BasicParser d} {n : Nat}, Beast.Http.inBody s.state_ = true →
      Announces s.toBasicParser p → 0 < n → (s.state_ = .body_to_eof ∨ n ≤ s.len_) →
      Step.wlp (onPrepare n) (Prepares s) { s with toBasicParser := p } := by
    intro p n inside announced more size
    have done := wlp_onPrepare_bind (f := pure) (Q := Prepares s)
      (s := { s with toBasicParser := p }) more fun k r_ first last _ => Step.wlp_pure
        ⟨inside, first, rfl, rfl, rfl, announced, size.imp_right (Nat.le_trans last)⟩
    intro k t ran
    exact done k t (by rw [Step.run_bind, ran]; rfl)
  unfold prepareBody
  refine Step.wlp_get_bind (Step.wlp_ite (fun _ => Step.wlp_stop) fun body => ?_)
  have inside : Beast.Http.inBody s.state_ = true := by simpa using body
  refine wlp_announces fun p announced => ?_
  refine Step.wlp_get_bind (Step.wlp_ite (fun toEof => ?_) fun sized => ?_)
  · have state : s.state_ = .body_to_eof := announced.same.1 ▸ by simpa using toEof
    exact prepared inside announced some_ (.inl state)
  · refine Step.wlp_ite (fun _ => Step.wlp_stop) fun more => ?_
    have left : 0 < p.len_ := by simpa [Nat.pos_iff_ne_zero] using more
    refine prepared inside announced (Nat.lt_min.mpr ⟨left, some_⟩) (.inr ?_)
    rw [← announced.same.2]
    exact Nat.min_le_left _ _

/-- What is told of a stream that has ended: nothing, the end of the octets, or an error code. -/
inductive Ending (s : ReadState d R B) : Except Halt Unit → ReadState d R B → Prop
  | eof {t : ReadState d R B} {r : Except Halt Unit} (reported : s.stream.ending = .eof)
      (got : gotSome s.toBasicParser = true)
      (ended : Step.run writeEof s.toBasicParser = (r, t.toBasicParser)) : Ending s r t
  | nothing {t : ReadState d R B} (reported : s.stream.ending = .eof)
      (got : gotSome s.toBasicParser = false) (same : t.toBasicParser = s.toBasicParser) :
      Ending s (.error (.ec .end_of_stream)) t
  | error {t : ReadState d R B} (reported : s.stream.ending ≠ .eof)
      (same : t.toBasicParser = s.toBasicParser) : Ending s (.error (.ec s.stream.ending)) t

/-- What a read into the buffer comes to. -/
def DoesRead (s : ReadState d R B) : Except Halt Bool → ReadState d R B → Prop
  | .ok true, t => ∃ o, o ≠ [] ∧ o ++ t.stream.left = s.stream.left ∧ t.data = s.data ++ o ∧
      t.stream.ending = s.stream.ending ∧ t.toFlatParser = s.toFlatParser
  | .ok false, t => s.stream.left = [] ∧ t.stream.left = [] ∧ t.data = s.data ∧ Ending s (.ok ()) t
  | .error halt, t => halt = .ec .buffer_overflow ∧
      B.prepare s.buffer (B.read_size_helper s.buffer 65536) = none ∨
      s.stream.left = [] ∧ t.stream.left = [] ∧ t.data = s.data ∧ Ending s (.error halt) t

/-- A step behind a read from the stream goes on with what was read. -/
theorem run_readStream_bind {β : Type} {n : Nat} {f : Octets × Option ErrorCode → ReadStep d R B β}
    {o : Octets} {ec : Option ErrorCode} {stream : SyncReadStream}
    (read : s.stream.read_some n = (o, ec, stream)) :
    Step.run (readStream n >>= f) s = Step.run (f (o, ec)) { s with stream } := by
  have ran : Step.run (readStream n) s = (.ok (o, ec), { s with stream }) := by
    unfold Step.run readStream
    rw [read]
  rw [Step.run_bind_ok ran]

/-- A read into the buffer appends some octets to it, or comes to the end of the stream. -/
theorem doRead_spec : DoesRead s (Step.run doRead s).1 (Step.run doRead s).2 := by
  unfold doRead
  rw [Step.run_bind]
  rcases room : Step.run (caught prepareBuffer) s with ⟨r, u⟩
  cases r with
  | error halt =>
    -- The only thing that making room throws is caught.
    rcases caught_error room with ⟨overflow, threw⟩ | ⟨other, threw⟩
    · exact .inl ⟨overflow, (prepareBuffer_error threw).2.2⟩
    · exact absurd (prepareBuffer_error threw).1 other
  | ok size =>
    obtain ⟨some_, prepared, only⟩ := prepareBuffer_ok (caught_ok room)
    have data : u.data = s.data := B.prepare_data _ _ _ prepared
    have stream : u.stream = s.stream := by rw [only]
    have parser : u.toFlatParser = s.toFlatParser := by rw [only]
    have same : u.toBasicParser = s.toBasicParser := congrArg FlatParser.toBasicParser parser
    dsimp only
    rcases read : u.stream.read_some size with ⟨o, ec, later⟩
    rw [run_readStream_bind read]
    dsimp only
    split
    · obtain ⟨nothing, nor, reported⟩ := read_some_error (Nat.pos_iff_ne_zero.mp some_) read
      rw [stream] at nothing reported
      rw [Step.run_get_bind]
      dsimp only
      split
      · rename_i got
        rw [Step.run_bind, run_onParser]
        rcases ended : Step.run writeEof u.toBasicParser with ⟨r, p⟩
        rw [same] at got ended
        cases r with
        | ok _ => exact ⟨nothing, nor, data, .eof reported.symm got ended⟩
        | error halt => exact .inr ⟨nothing, nor, data, .eof reported.symm got ended⟩
      · rename_i got
        rw [same] at got
        exact .inr ⟨nothing, nor, data, .nothing reported.symm (by simpa using got) same⟩
    · rename_i ec notEof
      obtain ⟨nothing, nor, reported⟩ := read_some_error (Nat.pos_iff_ne_zero.mp some_) read
      rw [stream] at nothing reported
      subst reported
      exact .inr ⟨nothing, nor, data, .error (fun eof => notEof (by rw [eof])) same⟩
    · obtain ⟨more, fits, front, ending⟩ := read_some_ok read
      rw [stream] at front ending
      exact ⟨o, more, front, B.commit_data _ _ _ _ prepared fits, ending, parser⟩

/-- The end of the octets either is refused or completes the message. -/
theorem writeEof_complete {p q : BasicParser d}
    (ran : Step.run writeEof p = (.ok (), q)) : q.state_ = .complete := by
  unfold writeEof at ran
  rw [Step.run_get_bind] at ran
  split at ran
  · cases ran
  · split at ran
    · split at ran
      · cases ran
      · rename_i complete
        cases ran
        simpa using complete
    · rw [onMessage, Step.run_zoom, Prod.mk.injEq] at ran
      obtain ⟨done, rfl⟩ := ran
      exact doComplete_state (Step.run_snd done)

/-- What a call goes on with: the octets that were used are removed, and the message is not complete. -/
def After.Fair (after : After d R B) : Prop :=
  ∀ n s t, after n s = .inl t → t = s.consume n ∧ s.state_ ≠ .complete

theorem afterReadSome_fair : (afterReadSome (d := d) (R := R) (B := B)).Fair := by
  intro n s t goes
  cases goes

theorem afterRead_fair : (afterRead (d := d) (R := R) (B := B)).Fair := by
  intro n s t goes
  unfold afterRead at goes
  dsimp only at goes
  split at goes
  · cases goes
  · rename_i open_
    cases goes
    exact ⟨rfl, fun complete => open_ (by simp [isComplete, ReadState.consume, complete])⟩

/-- A call that starts again has removed the octets that were used, and has no whole message. -/
theorem startOver_inl {after : After d R B} (fair : after.Fair) {n : Nat}
    {x : ReadPoint × ReadState d R B} (again : startOver after n s = .inl x) :
    x = (.read_some, s.consume n) ∧ s.state_ ≠ .complete := by
  unfold startOver at again
  cases goes : after n s with
  | inr r =>
    rw [goes] at again
    cases again
  | inl t =>
    rw [goes] at again
    obtain ⟨rfl, open_⟩ := fair n s t goes
    cases again
    exact ⟨rfl, open_⟩

/-- How many labels of its loops a call may pass before it reads or presents octets. -/
def ReadPoint.rank : ReadPoint → Nat
  | .read_some => 2
  | .write => 1
  | .do_read => 0

/-- How far a call is from its end: by what arrives, by what waits, and by where it stands. -/
def remaining (x : ReadPoint × ReadState d R B) : Nat × Nat × Nat :=
  (x.2.stream.left.length, x.2.data.length, x.1.rank)

/-- What a call has come nearer to its end by. -/
def Nearer : Nat × Nat × Nat → Nat × Nat × Nat → Prop :=
  Prod.Lex (· < ·) (Prod.Lex (· < ·) (· < ·))

theorem nearer_wellFounded : WellFounded Nearer :=
  (Prod.lex Nat.lt_wfRel (Prod.lex Nat.lt_wfRel Nat.lt_wfRel)).wf

/-- Octets are presented to the parser only where there are some. -/
def Presents (x : ReadPoint × ReadState d R B) : Prop :=
  x.1 = .write → x.2.data ≠ []

/-- A call comes nearer to its end where fewer octets wait, and no fewer arrive. -/
theorem nearer_data {point point' : ReadPoint} (stream : t.stream.left = s.stream.left)
    (less : t.data.length < s.data.length) : Nearer (remaining (point', t)) (remaining (point, s)) := by
  unfold remaining
  rw [stream]
  exact .right _ (.left _ _ less)

/-- A call comes nearer to its end where it passes a label. -/
theorem nearer_point {point point' : ReadPoint} (stream : t.stream.left = s.stream.left)
    (data : t.data = s.data) (less : point'.rank < point.rank) :
    Nearer (remaining (point', t)) (remaining (point, s)) := by
  unfold remaining
  rw [stream, data]
  exact .right _ (.right _ less)

/-- Octets of a body come from the buffer, or else from the stream, and the end completes it. -/
theorem readSomeBody_spec : Step.wlp readSomeBody (fun n t => t.state_ = .complete ∨
    (t.stream = s.stream ∧ (t.data.drop n).length < s.data.length) ∨
    t.stream.left.length < s.stream.left.length) s := by
  unfold readSomeBody
  refine Step.wlp_get_bind (Step.wlp_ite (fun waits => ?_) fun _ => ?_)
  · refine Step.wlp_mono (copyBody_spec (List.length_pos_iff.mp waits)) fun n t copied => ?_
    refine .inr (.inl ⟨copied.stream, ?_⟩)
    have some_ := copied.some_
    rw [copied.data]
    split
    · rw [List.length_drop, List.length_drop]
      omega
    · rw [List.length_drop]
      omega
  · refine Step.wlp_bind fun size u room => ?_
    have prepared := prepareBody_spec (by omega) _ _ (caught_ok room)
    rcases read : u.stream.read_some size with ⟨o, ec, later⟩
    intro n t ran
    rw [run_readStream_bind read] at ran
    dsimp only at ran
    split at ran
    · obtain ⟨_, v, ended, rest⟩ := Step.bind_ok ran
      cases rest
      rw [run_onParser, Prod.mk.injEq] at ended
      obtain ⟨ended, rfl⟩ := ended
      exact .inl (writeEof_complete (Step.run_snd ended))
    · cases ran
    · obtain ⟨more, _, front, _⟩ := read_some_ok read
      obtain ⟨_, v, committed, rest⟩ := Step.bind_ok ran
      cases rest
      obtain ⟨_, _, same, _⟩ := commitBody_ok committed
      have some_ := List.length_pos_iff.mpr more
      refine .inr (.inr ?_)
      rw [same, ← prepared.stream, ← front, List.length_append]
      dsimp only
      omega

/-- Each step of a call comes nearer to its end. -/
theorem readStep_nearer {isRequest isDirect : Bool} {after : After d R B} (fair : after.Fair)
    {x y : ReadPoint × ReadState d R B} (presents : Presents x)
    (stepped : readStep isRequest isDirect after x = .inl y) :
    Presents y ∧ Nearer (remaining y) (remaining x) := by
  obtain ⟨point, s⟩ := x
  cases point with
  | read_some =>
    unfold readStep at stepped
    dsimp only at stepped
    split at stepped
    · rcases ran : Step.run readSomeBody s with ⟨r, t⟩
      rw [ran] at stepped
      cases r with
      | error halt => cases stepped
      | ok n =>
        obtain ⟨rfl, open_⟩ := startOver_inl fair stepped
        refine ⟨fun write => (nomatch write), ?_⟩
        rcases readSomeBody_spec n t ran with complete | ⟨stream, less⟩ | less
        · exact absurd complete open_
        · exact nearer_data (congrArg SyncReadStream.left stream) (by rw [data_consume]; exact less)
        · exact .left _ _ less
    · split at stepped
      · cases stepped
        exact ⟨fun write => (nomatch write), nearer_point rfl rfl Nat.two_pos⟩
      · rename_i some_
        cases stepped
        exact ⟨fun _ nothing => some_ (by rw [nothing]; rfl), nearer_point rfl rfl Nat.one_lt_two⟩
  | write =>
    unfold readStep at stepped
    dsimp only at stepped
    rcases ran : Step.run (writeData isRequest isDirect) s with ⟨r, t⟩
    rw [ran] at stepped
    obtain rfl : _ = t := congrArg Prod.snd ran
    cases r with
    | error halt => cases stepped
    | ok n =>
      simp only [followed] at stepped
      split at stepped
      · rename_i took
        obtain ⟨rfl, _⟩ := startOver_inl fair stepped
        have some_ : 0 < s.data.length := List.length_pos_iff.mpr (presents rfl)
        refine ⟨fun write => (nomatch write), nearer_data rfl ?_⟩
        rw [data_consume, List.length_drop]
        change s.data.length - n < s.data.length
        omega
      · cases stepped
        exact ⟨fun write => (nomatch write), nearer_point rfl rfl Nat.one_pos⟩
  | do_read =>
    unfold readStep at stepped
    dsimp only at stepped
    have spec := doRead_spec (s := s)
    rcases ran : Step.run doRead s with ⟨r, t⟩
    rw [ran] at stepped spec
    cases r with
    | error halt => cases stepped
    | ok more =>
      cases more with
      | true =>
        cases stepped
        obtain ⟨o, some_, front, data, _⟩ := spec
        have size := List.length_pos_iff.mpr some_
        refine ⟨fun _ nothing => ?_, .left _ _ ?_⟩
        · rw [data] at nothing
          exact some_ (List.append_eq_nil_iff.mp nothing).2
        · change t.stream.left.length < s.stream.left.length
          rw [← front, List.length_append]
          exact Nat.lt_add_of_pos_left size
      | false =>
        obtain ⟨rfl, open_⟩ := startOver_inl fair stepped
        obtain ⟨_, _, _, ending⟩ := spec
        refine absurd ?_ open_
        cases ending with
        | eof _ _ ended => exact writeEof_complete ended

/-- A call comes to its end, whatever the parser, the buffer and the stream are. -/
theorem readStep_ends {isRequest isDirect : Bool} {after : After d R B} (fair : after.Fair)
    (s : ReadState d R B) :
    ∃ r, Machine.Ends (readStep isRequest isDirect after) (.inl (.read_some, s)) r :=
  Machine.ends_of_decreasing nearer_wellFounded remaining
    (fun _ _ presents stepped => readStep_nearer fair presents stepped) _ (nofun)

end Beast.Http
