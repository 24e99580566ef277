import Beast.Http.DirectLaws
import Mathlib

/-! A call that reads a message does with its octets what the parser does with them at once. -/

namespace Beast.Http

variable {d : Derived} {R : DirectReader} {B : DynamicBuffer} {isRequest isDirect : Bool}
  {full : Prop} {s t : ReadState d R B}

/--
Where a call loses octets, or misreads them.

A body that ends with the stream loses those that a short buffer of the reader has no place for.
A sequence of buffers is misread behind a longer one.
-/
def Loses (isDirect : Bool) : ReadPoint × ReadState d R B → Prop
  | (.read_some, s) => isDirect = true ∧ s.state_ = .body_to_eof ∧ s.data ≠ [] ∧
      ∃ k, (R.prepare s.r_ s.data.length).2 = some k ∧ k < s.data.length
  | (.write, s) => 1 < (B.data s.buffer).length ∧ s.data.length < s.buf_.length
  | (.do_read, _) => False

/-- What holds where a call stands. -/
structure Standing (isRequest isDirect : Bool) (x : ReadPoint × ReadState d R B) : Prop where
  open_ : x.2.state_ ≠ .complete
  remembers : Remembers x.2.toBasicParser x.2.data
  awaits : Awaits x.2.toMessage
  begun : Begun x.2.toMessage
  presents : Presents x
  point : x.1 ≠ .read_some → bypasses isDirect x.2.state_ = false
  waits : x.1 = .do_read → x.2.data = [] ∨
    Step.run (rescan isRequest x.2.data) x.2.toMessage = (.ok 0, x.2.toMessage)

/-- Where a call finds no room: in the buffer for octets to come, or in the reader for the body. -/
def Starves (isDirect : Bool) : ReadPoint × ReadState d R B → Prop
  | (.read_some, s) => isDirect = true ∧ ∃ n, 0 < n ∧ (R.prepare s.r_ n).2 = none
  | (.write, _) => False
  | (.do_read, s) => B.prepare s.buffer (B.read_size_helper s.buffer 65536) = none

/-- A direct parser may have announced a body of which no octet came. -/
def Ahead (u v : Message d) : Prop :=
  v = u ∨ (Storing d ∧ inBody u.state_ = true ∧ Step.run maybeDoBodyIndirect u = (.ok (), v))

/--
What a call comes to from a state, in terms of its octets and of those that arrive.

It may find no room only where that is possible.
-/
inductive Outcome (isRequest : Bool) (full : Prop) (s : ReadState d R B) :
    Except Halt Nat × ReadState d R B → Prop
  /-- The message is complete, and what is left of its octets waits in the buffer. -/
  | whole {t : ReadState d R B} {l : Octets} (left : s.stream.left = l ++ t.stream.left)
      (ended : t.state_ = .complete)
      (leaves : ∀ more, Leaves isRequest (s.data ++ l ++ more) s.toMessage (.ok ())
        (t.data ++ more) t.toMessage) : Outcome isRequest full s (.ok 0, t)
  /-- The parser refuses the octets. -/
  | stops {t : ReadState d R B} {l : Octets} {halt : Halt}
      (left : s.stream.left = l ++ t.stream.left)
      (leaves : ∀ more, Leaves isRequest (s.data ++ l ++ more) s.toMessage (.error halt) []
        t.toMessage) : Outcome isRequest full s (.error halt, t)
  /-- The stream has ended. -/
  | ended {t v : ReadState d R B} {u : Message d} {r : Except Halt Unit}
      (left : t.stream.left = []) (open_ : u.state_ ≠ .complete)
      (leaves : Leaves isRequest (s.data ++ s.stream.left) s.toMessage (.ok ()) t.data u)
      (ahead : Ahead u v.toMessage) (reported : v.stream.ending = s.stream.ending)
      (ending : Ending v r t) : Outcome isRequest full s (r.map fun _ => 0, t)
  /-- There is no room in the buffer, or none in the reader. -/
  | overflow {t : ReadState d R B} (short : full) :
      Outcome isRequest full s (.error (.ec .buffer_overflow), t)
  | thrown {t : ReadState d R B} (short : full) :
      Outcome isRequest full s (.error .length_error, t)

/-- What a call comes to behind octets that were presented is what it comes to before them. -/
theorem Outcome.presented (stream : Seamless d) {v : ReadState d R B} {o g w : Octets}
    {n : Nat} {r : Except Halt Nat × ReadState d R B} (open_ : s.state_ ≠ .complete)
    (awaits : Awaits s.toMessage) (some_ : o ≠ [])
    (ran : Step.run (rescan isRequest o) s.toMessage = (.ok n, v.toMessage))
    (arrived : s.stream.left = g ++ v.stream.left) (presents : s.data ++ g = o ++ w)
    (data : v.data = o.drop n ++ w) (ending : v.stream.ending = s.stream.ending)
    (outcome : Outcome isRequest full v r) : Outcome isRequest full s r := by
  have join : ∀ {more left : Octets} {r : Except Halt Unit} {u : Message d},
      Leaves isRequest (v.data ++ more) v.toMessage r left u →
      Leaves isRequest (s.data ++ g ++ more) s.toMessage r left u := by
    intro more left r u leaves
    rw [data, List.append_assoc] at leaves
    rw [presents, List.append_assoc]
    exact leaves.join stream awaits open_ some_ ran
  -- What arrives later is put behind what arrived here.
  cases outcome with
  | @whole t later left ended leaves =>
    refine .whole (l := g ++ later) ?_ ended fun more => ?_
    · rw [arrived, left, List.append_assoc]
    · have behind := leaves more
      rw [List.append_assoc] at behind
      simpa only [List.append_assoc] using join behind
  | @stops t later halt left leaves =>
    refine .stops (l := g ++ later) ?_ fun more => ?_
    · rw [arrived, left, List.append_assoc]
    · have behind := leaves more
      rw [List.append_assoc] at behind
      simpa only [List.append_assoc] using join behind
  | ended left open_ leaves ahead reported ended =>
    refine .ended left open_ ?_ ahead (reported.trans ending) ended
    rw [arrived, ← List.append_assoc]
    exact join leaves
  | overflow short => exact .overflow short
  | thrown short => exact .thrown short

/-- What a call comes to behind octets that were read into the buffer is what it comes to before. -/
theorem Outcome.arrived {s' : ReadState d R B} {o : Octets}
    {r : Except Halt Nat × ReadState d R B} (front : o ++ s'.stream.left = s.stream.left)
    (data : s'.data = s.data ++ o) (same : s'.toMessage = s.toMessage)
    (ending : s'.stream.ending = s.stream.ending) (outcome : Outcome isRequest full s' r) :
    Outcome isRequest full s r := by
  -- What arrives later is put behind what was read into the buffer.
  cases outcome with
  | @whole t later left ended leaves =>
    refine .whole (l := o ++ later) ?_ ended fun more => ?_
    · rw [← front, left, List.append_assoc]
    · have behind := leaves more
      rwa [data, same, List.append_assoc s.data] at behind
  | @stops t later halt left leaves =>
    refine .stops (l := o ++ later) ?_ fun more => ?_
    · rw [← front, left, List.append_assoc]
    · have behind := leaves more
      rwa [data, same, List.append_assoc s.data] at behind
  | ended left open_ leaves ahead reported ended =>
    refine .ended left open_ ?_ ahead (reported.trans ending) ended
    rwa [data, same, List.append_assoc, front] at leaves
  | overflow short => exact .overflow short
  | thrown short => exact .thrown short

/-- A step that waits for more does so again. -/
theorem rescan_waits (stream : Seamless d) {text : Octets} {m m' : Message d}
    (open_ : m.state_ ≠ .complete) (awaits : Awaits m) (some_ : text ≠ [])
    (ran : Step.run (rescan isRequest text) m = (.ok 0, m')) :
    Step.run (rescan isRequest text) m' = (.ok 0, m') ∧ m'.state_ ≠ .complete := by
  have size := List.length_pos_iff.mpr some_
  -- The step took nothing, so that it waited.
  rcases rescan_more stream awaits open_ some_ ran [] with
    ⟨took, _⟩ | ⟨_, closed, same⟩ | ⟨took, _⟩
  · exact absurd took (by simp)
  · rw [List.append_nil] at same
    exact ⟨same.trans ran, closed⟩
  · omega

/-- A step that waits for more leaves the state. -/
theorem rescan_pauses (stream : Seamless d) {text : Octets} {m m' : Message d}
    (open_ : m.state_ ≠ .complete) (awaits : Awaits m)
    (ran : Step.run (rescan isRequest text) m = (.ok 0, m')) : m'.state_ = m.state_ := by
  unfold rescan at ran
  rw [Step.run_get_bind] at ran
  obtain ⟨_, v, begun, ran⟩ := Step.bind_ok ran
  obtain ⟨state, len⟩ := beginStep_spec begun
  rw [← state] at ran open_
  -- A step that waits keeps the state, and so does one that takes data.
  rcases bufferStep_goes stream (awaits.congr state len) open_ ran with goes | flows
  · rcases goes with ⟨took, _⟩ | ⟨pauses, _⟩
    · exact absurd took (Nat.lt_irrefl 0)
    · exact pauses.state.trans state
  · exact flows.pauses.state.trans state

/-- What presenting the buffer comes to, where the sequence is not misread. -/
theorem writeData_spec (store : isDirect = true → Storing d)
    (standing : Standing isRequest isDirect (.write, s)) (fine : ¬Loses isDirect (.write, s)) :
    Step.run (writeData isRequest isDirect) s =
        ((Step.run (write isRequest s.data) s.toBasicParser).1,
          (Step.run (writeData isRequest isDirect) s).2) ∧
      (Step.run (writeData isRequest isDirect) s).2.toBasicParser =
        (Step.run (write isRequest s.data) s.toBasicParser).2 := by
  have octets : (maybeFlatten s.buf_ (B.data s.buffer)).1 = s.data := by
    rw [maybeFlatten_fst]
    split
    · rfl
    · rename_i several
      have enough : s.buf_.length ≤ (B.data s.buffer).flatten.length := by
        by_contra short
        exact fine ⟨by omega, Nat.lt_of_not_le short⟩
      rw [List.drop_eq_nil_of_le enough, List.append_nil]
      rfl
  -- A direct parser is presented octets only in front of a header or of a chunk.
  have same : Step.run (if isDirect then writeDirect isRequest s.data else write isRequest s.data)
      s.toBasicParser = Step.run (write isRequest s.data) s.toBasicParser := by
    split
    · rename_i direct
      refine writeDirect_eq (store direct) ?_
      have point := standing.point (by simp)
      unfold bypasses at point
      rw [direct] at point
      by_cases header : s.state_ = .header
      · exact .inl header
      · exact .inr (by simpa [header] using point)
    · rfl
  unfold writeData Step.run
  dsimp only
  rw [octets]
  unfold Step.run at same
  rw [same]
  exact ⟨rfl, rfl⟩

/-- Passing octets on moves no search. -/
theorem remembers_passed {p q : BasicParser d} {o pending : Octets}
    (inside : inBody p.state_ = true) (remembers : Remembers p pending) (announced : Announces p q)
    (rest : Octets) : Remembers (passed q o) rest := by
  have whole := remembers []
  -- Within a body nothing is searched.
  have fresh : p.skip_ = 0 ∧ p.f_.flagFinalChunk = false := by
    unfold Searched at whole
    cases state : p.state_ <;> simp_all [inBody]
  have final : q.f_.flagFinalChunk = false := by
    rw [maybeDoBody_spec announced.1]
    exact fresh.2
  have front : q.skip_ = 0 := by
    rw [announced.2]
    exact fresh.1
  have completed := doComplete_keeps (q.toMessage.take o)
  refine fun more => searched_fresh ?_ ?_ _
  · unfold passed
    dsimp only
    split <;> exact front
  · unfold passed
    dsimp only
    split
    · split
      · exact completed.trans final
      · exact final
    · split
      · exact final
      · exact final
    · exact final

/-- A body is announced to a class with a direct reader, which takes it. -/
theorem announces_run (store : Storing d) (s : ReadState d R B) :
    ∃ p, Announces s.toBasicParser p ∧ Step.run (onParser (onMessage maybeDoBodyDirect)) s =
      (.ok (), { s with toBasicParser := p }) := by
  -- A class that stores the body does not refuse it.
  have taken : (Step.run maybeDoBodyIndirect s.toMessage).1 = .ok () := by
    have begins := fun state n => store.begins state n
    unfold maybeDoBodyIndirect setFlags
    rw [Step.run_get_bind]
    split
    · rfl
    · rw [Step.run_modify_bind]
      split <;> simp [invoke, Step.run, begins]
  refine ⟨{ s.toBasicParser with toMessage := (Step.run maybeDoBodyIndirect s.toMessage).2 },
    ⟨Step.run_snd taken, rfl⟩, ?_⟩
  rw [run_onParser, onMessage, Step.run_zoom, maybeDoBodyDirect_eq store, taken]

/-- Only the reader stops a step that prepares its buffer. -/
theorem onPrepare_error {n : Nat} {halt : Halt}
    (ran : Step.run (onPrepare n) s = (.error halt, t)) :
    halt = .length_error ∧ (R.prepare s.r_ n).2 = none := by
  unfold Step.run onPrepare at ran
  split at ran
  · cases ran
  · rename_i threw
    cases ran
    exact ⟨rfl, congrArg Prod.snd threw⟩

/-- Within a body, octets are awaited. -/
theorem awaits_len {m : Message d} (awaits : Awaits m) (inside : inBody m.state_ = true)
    (sized : m.state_ ≠ .body_to_eof) : m.len_ ≠ 0 := by
  refine Nat.pos_iff_ne_zero.mp (awaits ?_)
  cases state : m.state_ <;> simp_all [inBody]

/-- Only the reader stops a step that prepares a buffer for octets of the body. -/
theorem prepareBody_error (store : Storing d) {limit : Nat} {halt : Halt}
    (some_ : 0 < limit) (inside : inBody s.state_ = true) (awaits : Awaits s.toMessage)
    (ran : Step.run (prepareBody limit) s = (.error halt, t)) :
    halt = .length_error ∧ ∃ n, 0 < n ∧ (R.prepare s.r_ n).2 = none := by
  obtain ⟨p, announced, told⟩ := announces_run store s
  unfold prepareBody at ran
  rw [Step.run_get_bind, if_neg (by simp [inside]), Step.run_bind_ok told,
    Step.run_get_bind] at ran
  split at ran
  · exact (onPrepare_error ran).imp_right fun threw => ⟨limit, some_, threw⟩
  · rename_i sized
    -- Within a body of known size, some of it is left.
    have more : p.len_ ≠ 0 := by
      rw [announced.same.2]
      refine awaits_len awaits inside fun toEof => sized ?_
      simp [announced.same.1, toEof]
    rw [if_neg (by simpa using more)] at ran
    refine (onPrepare_error ran).imp_right fun threw => ⟨_, Nat.lt_min.mpr ⟨?_, some_⟩, threw⟩
    exact Nat.pos_of_ne_zero more

/-- Only the reader stops a step that copies octets of the body. -/
theorem copyBody_error (store : Storing d) {halt : Halt}
    (waits : s.data ≠ []) (inside : inBody s.state_ = true) (awaits : Awaits s.toMessage)
    (ran : Step.run copyBody s = (.error halt, t)) :
    halt = .length_error ∧ ∃ n, 0 < n ∧ (R.prepare s.r_ n).2 = none := by
  obtain ⟨p, announced, told⟩ := announces_run store s
  -- Behind the buffer that was prepared, nothing stops the step.
  have prepared : ∀ {n : Nat} {f : Nat → ReadStep d R B Nat},
      Step.run (onPrepare n >>= f) { s with toBasicParser := p } = (.error halt, t) → 0 < n →
      (∀ k v, (Step.run (f k) v).1 ≠ .error halt) →
      halt = .length_error ∧ ∃ n, 0 < n ∧ (R.prepare s.r_ n).2 = none := by
    intro n f ran some_ goes
    rw [Step.run_bind] at ran
    rcases room : Step.run (onPrepare n) { s with toBasicParser := p } with ⟨_ | k, v⟩
    · rw [room] at ran
      cases ran
      exact (onPrepare_error room).imp_right fun threw => ⟨n, some_, threw⟩
    · rw [room] at ran
      exact absurd (congrArg Prod.fst ran) (goes k v)
  unfold copyBody at ran
  rw [Step.run_get_bind, if_neg (by simp [inside]), Step.run_bind_ok told,
    Step.run_get_bind] at ran
  split at ran
  · exact prepared ran (List.length_pos_iff.mpr waits) fun k v => by simp [onCommit]
  · rename_i sized
    have more : p.len_ ≠ 0 := by
      rw [announced.same.2]
      refine awaits_len awaits inside fun toEof => sized ?_
      simp [announced.same.1, toEof]
    rw [if_neg (by simpa using more)] at ran
    refine prepared ran (Nat.pos_of_ne_zero more) fun k v => ?_
    rcases done : Step.run (commitBody (List.take k { s with toBasicParser := p }.data)) v
      with ⟨r, u⟩
    obtain ⟨rfl, _⟩ := commitBody_ok done
    rw [Step.run_bind_ok done]
    simp

/-- What is asked of the rest of a call: that it is the result, or comes to it from where it stands. -/
def Rest (isRequest isDirect : Bool) (full : Prop) :
    (ReadPoint × ReadState d R B) ⊕ (Except Halt Nat × ReadState d R B) →
      Except Halt Nat × ReadState d R B → Prop
  | .inl x, r => Standing isRequest isDirect x → Outcome isRequest full x.2 r
  | .inr r', r => r' = r

/-- A call that presented octets starts over behind them, unless the message is complete. -/
theorem outcome_startOver (stream : Seamless d) {o g w : Octets} {n k : Nat}
    {r : Except Halt Nat × ReadState d R B} (open_ : s.state_ ≠ .complete)
    (awaits : Awaits s.toMessage) (begun : Begun s.toMessage) (some_ : o ≠ [])
    (ran : Step.run (rescan isRequest o) s.toMessage = (.ok n, t.toMessage))
    (arrived : s.stream.left = g ++ t.stream.left) (presents : s.data ++ g = o ++ w)
    (data : t.data.drop k = o.drop n ++ w) (ending : t.stream.ending = s.stream.ending)
    (remembers : Remembers t.toBasicParser (t.data.drop k))
    (goes : Rest isRequest isDirect full (startOver afterRead k t) r) : Outcome isRequest full s r := by
  have behind : (t.consume k).data = o.drop n ++ w := (data_consume t k).trans data
  refine Outcome.presented stream (v := t.consume k) open_ awaits some_ ran arrived presents behind
    ending ?_
  unfold startOver afterRead isComplete at goes
  dsimp only at goes
  split at goes
  · rename_i complete
    have ended : (t.consume k).state_ = .complete := by simpa using complete
    cases goes
    refine .whole (l := []) rfl ended fun more => ?_
    rw [List.append_nil]
    exact .complete ended
  · rename_i waits
    have closed : (t.consume k).state_ ≠ .complete := by simpa using waits
    refine goes ⟨closed, ?_, rescan_awaits ran, rescan_begun some_ begun ran, nofun,
      fun other => absurd rfl other, nofun⟩
    change Remembers t.toBasicParser (t.consume k).data
    rwa [data_consume]

/-- A call whose stream has ended behind what waits has come to its end. -/
theorem outcome_ended {v : ReadState d R B} {u : Message d} {r : Except Halt Unit}
    {r' : Except Halt Nat × ReadState d R B} (left : s.stream.left = []) (nor : t.stream.left = [])
    (open_ : u.state_ ≠ .complete) (leaves : Leaves isRequest s.data s.toMessage (.ok ()) t.data u)
    (ahead : Ahead u v.toMessage) (reported : v.stream.ending = s.stream.ending)
    (ending : Ending v r t)
    (goes : Rest isRequest isDirect full (followed (startOver afterRead) (r.map fun _ => 0, t)) r') :
    Outcome isRequest full s r' := by
  cases r with
  | error halt =>
    cases goes
    refine .ended (r := .error halt) nor open_ ?_ ahead reported ending
    rwa [left, List.append_nil]
  | ok _ =>
    have complete : t.state_ = .complete := by
      cases ending with
      | eof _ _ ended => exact writeEof_complete ended
    have stopped : followed (startOver afterRead) ((.ok 0 : Except Halt Nat), t) =
        .inr ((.ok 0), t.consume 0) := by
      unfold followed startOver afterRead isComplete ReadState.consume
      simp [complete]
    rw [show (Except.map (fun _ => 0) (.ok ()) : Except Halt Nat) = .ok 0 from rfl, stopped] at goes
    cases goes
    refine .ended (r := .ok ()) (v := v) (u := u) nor open_ ?_ ahead reported ?_
    · rw [left, List.append_nil, data_consume, List.drop_zero]
      exact leaves
    · cases ending with
      | eof reported got ended => exact .eof reported got ended

/-- Copying octets of the body out of the buffer keeps the account of them. -/
theorem copyBody_outcome (store : Storing d) {r : Except Halt Nat × ReadState d R B}
    (standing : Standing isRequest true (.read_some, s)) (fine : ¬Loses true (.read_some, s))
    (short : Starves true (.read_some, s) → full)
    (inside : inBody s.state_ = true) (waits : s.data ≠ [])
    (goes : Rest isRequest true full (followed (startOver afterRead) (Step.run copyBody s)) r) :
    Outcome isRequest full s r := by
  rcases ran : Step.run copyBody s with ⟨r', t⟩
  rw [ran] at goes
  cases r' with
  | error halt =>
    cases goes
    obtain ⟨rfl, n, some_, threw⟩ := copyBody_error store waits inside standing.awaits ran
    exact .thrown (short ⟨rfl, n, some_, threw⟩)
  | ok n =>
    have copied := copyBody_spec waits n t ran
    obtain ⟨p, announced, parser⟩ := copied.parser
    have size : (s.data.take n).length = n := List.length_take_of_le copied.within
    have took := @rescan_passed d store isRequest _ _ _ standing.begun announced inside
      (size.symm ▸ copied.size)
    rw [size] at took
    -- What is left in the buffer are the octets that were not copied.
    have behind : t.data.drop n = (s.data.take n).drop n ++ s.data.drop n := by
      rw [List.drop_eq_nil_of_le (Nat.le_of_eq size), List.nil_append, copied.data]
      split
      · -- A buffer of the reader that is long enough leaves nothing to be removed again.
        rename_i toEof
        obtain ⟨k, prepared, least⟩ := copied.asked toEof
        have enough : s.data.length ≤ k := by
          by_contra short
          exact fine ⟨rfl, toEof, waits, k, prepared, Nat.lt_of_not_le short⟩
        rw [List.drop_eq_nil_of_le (show s.data.length ≤ n by omega), List.drop_nil]
      · rfl
    refine outcome_startOver (o := s.data.take n) (g := []) (w := s.data.drop n)
      store.toSeamless standing.open_ standing.awaits standing.begun ?_ ?_ ?_ ?_ behind ?_ ?_ goes
    · intro nothing
      rw [nothing] at size
      have first := copied.some_
      simp only [List.length_nil] at size
      omega
    · rw [took, congrArg BasicParser.toMessage parser]
    · rw [copied.stream, List.nil_append]
    · rw [List.append_nil, List.take_append_drop]
    · rw [copied.stream]
    · rw [parser]
      exact remembers_passed inside standing.remembers announced _

/-- Octets have come where a body is read. -/
theorem Begun.gotSome {p q : BasicParser d} (begun : Begun p.toMessage)
    (inside : inBody p.state_ = true) (announced : Announces p q) : gotSome q = true := by
  have got := begun.got (by intro header; simp [inBody, header] at inside)
  unfold Beast.Http.gotSome
  rw [maybeDoBody_spec announced.1]
  exact got

/-- Reading octets of the body from the stream keeps the account of them. -/
theorem streamBody_outcome (store : Storing d) {r : Except Halt Nat × ReadState d R B}
    (standing : Standing isRequest true (.read_some, s))
    (short : Starves true (.read_some, s) → full) (inside : inBody s.state_ = true)
    (nothing : s.data = [])
    (goes : Rest isRequest true full (followed (startOver afterRead) (Step.run readSomeBody s)) r) :
    Outcome isRequest full s r := by
  unfold readSomeBody at goes
  rw [Step.run_get_bind, if_neg (by rw [nothing]; exact Nat.lt_irrefl 0), Step.run_bind] at goes
  rcases room : Step.run (caught (prepareBody 65536)) s with ⟨_ | size, u⟩
  · rw [room] at goes
    cases goes
    have stopped := fun halt (threw : Step.run (prepareBody 65536) s = (.error halt, u)) =>
      prepareBody_error store (by omega) inside standing.awaits threw
    rcases caught_error room with ⟨rfl, threw⟩ | ⟨other, threw⟩
    · exact .overflow (short ⟨rfl, (stopped _ threw).2⟩)
    · exact absurd (stopped _ threw).1 other
  rw [room] at goes
  have prepared := prepareBody_spec (by omega) _ _ (caught_ok room)
  have data : u.data = [] := (congrArg (fun b => (B.data b).flatten) prepared.buffer).trans nothing
  rcases read : u.stream.read_some size with ⟨o, ec, later⟩
  dsimp only at goes
  rw [run_readStream_bind read] at goes
  dsimp only at goes
  -- Nothing was in the buffer, so the end of the stream is that of the octets.
  have empty : ∀ {r' : Except Halt Unit} {t : ReadState d R B}, u.stream.left = [] →
      t.stream.left = [] → t.data = [] → Ending u r' t →
      Rest isRequest true full (followed (startOver afterRead) (r'.map fun _ => 0, t)) r →
      Outcome isRequest full s r := by
    intro r' t left nor data ending goes
    refine outcome_ended (u := s.toMessage) ?_ nor standing.open_ ?_
      (.inr ⟨store, inside, prepared.parser.1⟩) (congrArg SyncReadStream.ending prepared.stream)
      ending goes
    · rw [← prepared.stream]
      exact left
    · rw [nothing, data]
      exact .empty
  -- The stream has ended, or failed, or octets have come.
  split at goes
  · obtain ⟨left, nor, reported⟩ := read_some_error (Nat.pos_iff_ne_zero.mp prepared.some_) read
    rw [Step.run_bind, run_onParser] at goes
    rcases ended : Step.run writeEof u.toBasicParser with ⟨r', p⟩
    have same : Step.run writeEof { u with stream := later }.toBasicParser = (r', p) := ended
    rw [same] at goes
    refine @empty r' { u with toBasicParser := p, stream := later } left nor data
      (.eof reported.symm (standing.begun.gotSome inside prepared.parser) ended) ?_
    cases r' <;> exact goes
  · rename_i ec notEof
    obtain ⟨left, nor, reported⟩ := read_some_error (Nat.pos_iff_ne_zero.mp prepared.some_) read
    subst reported
    exact @empty (.error (.ec u.stream.ending)) { u with stream := later } left nor data
      (.error (fun eof => notEof (by rw [eof])) rfl) goes
  · obtain ⟨more, fits, front, ending⟩ := read_some_ok read
    rw [Step.run_bind] at goes
    rcases committed : Step.run (commitBody o) { u with stream := later } with ⟨r', t⟩
    obtain ⟨rfl, buffer, stream, _, parser⟩ := commitBody_ok committed
    rw [committed] at goes
    have took := @rescan_passed d store isRequest o _ _ standing.begun
      prepared.parser inside (prepared.size.imp_right (Nat.le_trans fits))
    have left : t.data = [] := (congrArg (fun b => (B.data b).flatten) buffer).trans data
    -- The reader has all of the octets, and none of them were in the buffer.
    refine outcome_startOver (o := o) (g := o) (w := []) (n := o.length) (k := 0) (t := t)
      store.toSeamless standing.open_ standing.awaits standing.begun more
      (by rw [took, parser]) (by rw [stream, front, prepared.stream])
      (by rw [nothing, List.append_nil, List.nil_append]) (by simp [left])
      (by rw [stream, ending, prepared.stream]) ?_ goes
    rw [parser]
    exact remembers_passed inside standing.remembers prepared.parser _

/-- Presenting the buffer to the parser keeps the account of its octets. -/
theorem write_outcome (stream : Seamless d) (store : isDirect = true → Storing d)
    {r : Except Halt Nat × ReadState d R B}
    (standing : Standing isRequest isDirect (.write, s)) (fine : ¬Loses isDirect (.write, s))
    (goes : Rest isRequest isDirect full (readStep isRequest isDirect afterRead (.write, s)) r) :
    Outcome isRequest full s r := by
  have some_ : s.data ≠ [] := standing.presents rfl
  obtain ⟨outcome, parser⟩ := writeData_spec store standing fine
  unfold readStep at goes
  dsimp only at goes
  rcases wrote : Step.run (writeData isRequest isDirect) s with ⟨r', t⟩
  have buffer : t.buffer = s.buffer := (congrArg (fun x => x.2.buffer) wrote).symm
  have arrives : t.stream = s.stream := (congrArg (fun x => x.2.stream) wrote).symm
  rw [wrote] at goes outcome parser
  have ran : Step.run (write isRequest s.data) s.toBasicParser = (r', t.toBasicParser) :=
    Prod.ext (congrArg Prod.fst outcome).symm parser.symm
  have data : t.data = s.data := congrArg (fun b => (B.data b).flatten) buffer
  have took := rescan_of_write standing.remembers ran
  -- The parser refuses the octets, takes some, or waits for more.
  cases r' with
  | error halt =>
    cases goes
    refine .stops (l := []) (by rw [arrives, List.nil_append]) fun more => ?_
    rw [List.append_nil]
    exact .stop standing.open_ (by simp [some_])
      (rescan_stops stream standing.awaits standing.open_ some_ took more)
  | ok n =>
    have behind := remembers_write standing.remembers ran
    unfold followed at goes
    dsimp only at goes
    split at goes
    · refine outcome_startOver (o := s.data) (g := []) (w := []) (n := n) (k := n) (t := t)
        stream standing.open_ standing.awaits standing.begun some_ took ?_ ?_ ?_ ?_ ?_ goes
      · rw [arrives, List.nil_append]
      · rfl
      · rw [data, List.append_nil]
      · rw [arrives]
      · rw [data]
        exact behind
    · rename_i none
      obtain rfl : n = 0 := Nat.eq_zero_of_not_pos none
      obtain ⟨again, closed⟩ := rescan_waits stream standing.open_ standing.awaits some_ took
      refine Outcome.presented (v := t) (o := s.data) (g := []) (w := []) stream
        standing.open_ standing.awaits some_ took ?_ rfl ?_ (by rw [arrives]) (goes ?_)
      · rw [arrives, List.nil_append]
      · rw [data, List.drop_zero, List.append_nil]
      · refine ⟨closed, ?_, rescan_awaits took, rescan_begun some_ standing.begun took, nofun,
          fun _ => ?_, fun _ => .inr ?_⟩
        · rw [data]
          exact behind
        · change bypasses isDirect t.state_ = false
          rw [rescan_pauses stream standing.open_ standing.awaits took]
          exact standing.point (by simp)
        · change Step.run (rescan isRequest t.data) t.toMessage = (.ok 0, t.toMessage)
          rw [data]
          exact again

/-- Reading into the buffer keeps the account of its octets. -/
theorem doRead_outcome {r : Except Halt Nat × ReadState d R B}
    (standing : Standing isRequest isDirect (.do_read, s))
    (short : Starves isDirect (.do_read, s) → full)
    (goes : Rest isRequest isDirect full (readStep isRequest isDirect afterRead (.do_read, s)) r) :
    Outcome isRequest full s r := by
  have waits := standing.waits rfl
  have spec := doRead_spec (s := s)
  -- The octets in the buffer are too few, and no more will come.
  have stopped : ∀ {r' : Except Halt Unit} {t : ReadState d R B}, s.stream.left = [] →
      t.stream.left = [] → t.data = s.data → Ending s r' t →
      Rest isRequest isDirect full (followed (startOver afterRead) (r'.map fun _ => 0, t)) r →
      Outcome isRequest full s r := by
    intro r' t left nor data ending goes
    refine outcome_ended (u := s.toMessage) (v := s) left nor standing.open_ ?_ (.inl rfl) rfl
      ending goes
    rw [data]
    rcases waits with empty | again
    · rw [empty]
      exact .empty
    · by_cases empty : s.data = []
      · rw [empty]
        exact .empty
      · exact .wait standing.open_ empty again
  unfold readStep at goes
  dsimp only at goes
  rcases ran : Step.run doRead s with ⟨r', t⟩
  rw [ran] at goes spec
  cases r' with
  | error halt =>
    rcases spec with ⟨rfl, none⟩ | ⟨left, nor, data, ending⟩
    · cases goes
      exact .overflow (short none)
    · exact @stopped (.error halt) t left nor data ending goes
  | ok more =>
    cases more with
    | false =>
      obtain ⟨left, nor, data, ending⟩ := spec
      exact @stopped (.ok ()) t left nor data ending goes
    | true =>
      obtain ⟨o, some_, front, data, ending, parser⟩ := spec
      have same : t.toBasicParser = s.toBasicParser := congrArg FlatParser.toBasicParser parser
      refine Outcome.arrived front data (congrArg BasicParser.toMessage same) ending (goes ?_)
      refine ⟨?_, ?_, ?_, ?_, fun _ => ?_, fun _ => ?_, nofun⟩
      · change t.state_ ≠ .complete
        rw [congrArg BasicParser.toMessage same]
        exact standing.open_
      · change Remembers t.toBasicParser t.data
        rw [same, data]
        exact standing.remembers.append o
      · change Awaits t.toMessage
        rw [congrArg BasicParser.toMessage same]
        exact standing.awaits
      · change Begun t.toMessage
        rw [congrArg BasicParser.toMessage same]
        exact standing.begun
      · change t.data ≠ []
        rw [data]
        simp [some_]
      · change bypasses isDirect t.state_ = false
        rw [congrArg BasicParser.toMessage same]
        exact standing.point (by simp)

/-- Each step of a call keeps the account of the octets. -/
theorem readStep_outcome (stream : Seamless d) (store : isDirect = true → Storing d)
    (x : ReadPoint × ReadState d R B) (r : Except Halt Nat × ReadState d R B)
    (fine : ¬Loses isDirect x ∧ (Starves isDirect x → full))
    (goes : Rest isRequest isDirect full (readStep isRequest isDirect afterRead x) r) :
    Rest isRequest isDirect full (.inl x) r := by
  obtain ⟨point, s⟩ := x
  intro standing
  -- Each point of the call has its own account.
  cases point with
  | write => exact write_outcome stream store standing fine.1 goes
  | do_read => exact doRead_outcome standing fine.2 goes
  | read_some =>
    unfold readStep at goes
    dsimp only at goes
    split at goes
    · rename_i body
      unfold bypasses at body
      obtain ⟨direct, notHeader⟩ := Bool.and_eq_true_iff.mp body
      subst direct
      have closed := standing.open_
      have inside : inBody s.state_ = true := by
        cases state : s.state_ <;> simp_all [inBody]
      -- Octets in the buffer are copied before any are read from the stream.
      by_cases nothing : s.data = []
      · exact streamBody_outcome (store rfl) standing fine.2 inside nothing goes
      · refine copyBody_outcome (store rfl) standing fine.1 fine.2 inside nothing ?_
        unfold readSomeBody at goes
        rwa [Step.run_get_bind, if_pos (List.length_pos_iff.mpr nothing)] at goes
    · rename_i header
      have point : bypasses isDirect s.state_ = false := by simpa using header
      split at goes
      · rename_i nothing
        refine goes ⟨standing.open_, standing.remembers, standing.awaits, standing.begun,
          (fun other => by cases other), fun _ => point, fun _ => .inl (List.eq_nil_of_length_eq_zero nothing)⟩
      · rename_i waits
        refine goes ⟨standing.open_, standing.remembers, standing.awaits, standing.begun,
          fun _ nothing => waits (congrArg List.length nothing), fun _ => point,
          (fun other => by cases other)⟩

/-- A call that reads a message keeps the account of its octets, where it loses none. -/
theorem read_outcome (stream : Seamless d) (store : isDirect = true → Storing d)
    {r : Except Halt Nat × ReadState d R B} (standing : Standing isRequest isDirect (.read_some, s))
    (ended : Machine.Ends (readStep isRequest isDirect afterRead) (.inl (.read_some, s)) r)
    (fine : ∀ x, Machine.Visits (readStep isRequest isDirect afterRead) (.inl (.read_some, s)) x →
      ¬Loses isDirect x ∧ (Starves isDirect x → full)) : Outcome isRequest full s r :=
  ended.backward (P := Rest isRequest isDirect full) fine (fun _ => rfl)
    (fun x r meets goes => readStep_outcome stream store x r meets goes) standing

end Beast.Http
