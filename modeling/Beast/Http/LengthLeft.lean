import Beast.Http.BodyCalls
import Beast.Http.ChunkHeads
import Beast.Http.Conservation
import Beast.Http.NumberLaws
import Beast.Http.TakenHeader

/-! What a parser says of the length of a body, while octets of it are taken. -/

namespace Beast.Http

variable {d : Derived} {R : DirectReader} {B : DynamicBuffer}

/-- The length of the body, where it is known. -/
def contentLength (p : BasicParser d) : Option Nat :=
  if p.f_.flagContentLength then some p.len_ else none

/-- What a caller may do with a parser. -/
inductive Entry
  | write (text : Octets)
  | write_eof
  | body (call : BodyCall)
  deriving DecidableEq, Repr

/-- A call that succeeded: what it was made on, how many octets it used, and what it left. -/
structure Entered (d : Derived) (R : DirectReader) (B : DynamicBuffer) where
  before : ReadState d R B
  entry : Entry
  n : Nat
  after : ReadState d R B

/--
A caller goes on with a parser, while its reader and the buffer may have changed.

A write is presented the octets that were left with further ones, of which a body may leave any.
-/
def EntryStep (isRequest isDirect : Bool) (s : BasicParser d × Octets) (e : Entered d R B)
    (t : BasicParser d × Octets) : Prop :=
  e.before.toBasicParser = s.1 ∧ e.after.toBasicParser = t.1 ∧
    match e.entry with
    | .write text => allowed isDirect s.1 (.write text) ∧ (∃ more, text = s.2 ++ more) ∧
      Step.run (writeAny isRequest isDirect text) s.1 = (.ok e.n, t.1) ∧ t.2 = text.drop e.n
    | .write_eof => allowed isDirect s.1 .write_eof ∧ e.n = 0 ∧
      Step.run writeEof s.1 = (.ok (), t.1) ∧ t.2 = s.2
    | .body call => call.ready isDirect e.before ∧ Step.run call.run e.before = (.ok e.n, e.after)

/-- The calls that were made on a new parser. -/
def EntryRun (isRequest isDirect skipsBody : Bool) (len x : Nat) (impl : d.State)
    (l : List (Entered d R B)) (s : BasicParser d × Octets) : Prop :=
  Run.History (EntryStep isRequest isDirect) (opened skipsBody len x impl, []) l s

/-- The number of octets of the body that a call took. -/
def Entered.bodyOctets (e : Entered d R B) : Nat :=
  match e.entry with
  | .write _ => if inBody e.before.state_ then e.n else 0
  | .write_eof | .body _ => e.n

/-- A call that took the header, with the lines of its fields. -/
def Entered.Header (e : Entered d R B) (lines : List Octets) : Prop :=
  ∃ text line, e.entry = .write text ∧ e.before.state_ = .header ∧ 0 < e.n ∧ PlainLine line ∧
    PlainLines lines ∧ text.take e.n = line ++ crlf ++ writeLines lines ++ crlf

/-- A body of known size, of which so many octets were taken. -/
structure Sized (v k : Nat) (p : BasicParser d) : Prop where
  flag : p.f_.flagContentLength = true
  state : p.state_ = .body ∨ p.state_ = .complete
  len : p.len_ + k = v

/-- Where the size is known, the length is what is left of the body. -/
theorem Sized.contentLength {v k : Nat} {p : BasicParser d} (sized : Sized v k p) :
    contentLength p = some (v - k) := by
  have len := sized.len
  rw [Http.contentLength, if_pos sized.flag, ← len, Nat.add_sub_cancel]

section Header

/-- The end of a header is told, and nothing else. -/
theorem finishHeader_same {m t : Message d} {r : Except Halt Unit}
    (ran : Step.run finishHeader m = (r, t)) : t = { m with impl := t.impl } := by
  have kept : Step.Preserves (fun t : Message d => t = { m with impl := t.impl }) finishHeader := by
    -- A call touches the derived class alone.
    have called : ∀ c, Step.Preserves (fun t : Message d => t = { m with impl := t.impl }) (invoke c) := by
      intro c u same
      rw [Step.wp, invoke_spec]
      rw [same]
    unfold finishHeader
    refine Step.preserves_bind (called _) fun _ => Step.preserves_bind Step.preserves_get fun self => ?_
    split
    · exact called _
    · exact Step.preserves_pure _
  have behind := kept m rfl
  rwa [Step.wp, ran] at behind

/-- A decision on the body leaves the header, and the size where that is known. -/
theorem doHeader_sized {isRequest : Bool} {status : Nat} {m t : Message d}
    (ran : Step.run (doHeader isRequest status) m = (.ok (), t)) :
    t.state_ ≠ .header ∧ (m.f_.flagContentLength = true →
      t.f_.flagContentLength = true ∧ (t.state_ = .body ∨ t.state_ = .complete) ∧ t.len_ = m.len_) := by
  -- A length in the header decides for a body of that size or for none, whatever else is decided.
  cases isRequest with
  | true =>
    simp only [doHeader, doHeaderRequest, ↓reduceIte, Step.run_get_bind] at ran
    repeat' split at ran
    all_goals
      cases ran
      simp_all
  | false =>
    simp only [doHeader, doHeaderResponse, Bool.false_eq_true, ↓reduceIte, Step.run_get_bind] at ran
    repeat' split at ran
    all_goals
      cases ran
      simp_all

/-- A header that says the size of the body leaves it known, and nothing of the body is taken. -/
theorem Taken.sized {isRequest : Bool} {lines : List Octets} {start : StartLine} {version : Nat}
    {q : BasicParser d} {m told noted decided : Message d}
    (taken : Taken isRequest lines start version m told noted decided q.toMessage)
    (fresh : m.f_.flagContentLength = false ∧ m.f_.flagChunked = false) :
    q.state_ ≠ .header ∧ ∀ field ∈ (readFields lines).1, isLength field.1 = true →
      Sized (decimalValue field.2) 0 q := by
  have same := finishHeader_same taken.finishes
  obtain ⟨leaves, keeps⟩ := doHeader_sized taken.decides
  have state : q.state_ = decided.state_ := (congrArg Message.state_ same).trans rfl
  refine ⟨fun header => leaves (state.symm.trans header), fun field there named => ?_⟩
  -- The fields left the framing that they describe.
  have framed := taken.framed
  rw [Message.framing, fresh.1, fresh.2] at framed
  obtain ⟨v, read, known⟩ := fields_length framed there named
  have flag : noted.f_.flagContentLength = true := congrArg Framing.sized known
  have len : noted.len_ = v := congrArg Framing.len known
  obtain ⟨flag, within, kept⟩ := keeps flag
  -- The number was read without a fault, so it is the value of the digits.
  have value : decimalValue field.2 = v := by
    rw [parseDec_eq] at read
    split at read
    · exact Option.some.inj read
    · cases read
  refine ⟨?_, ?_, ?_⟩
  · exact (congrArg (fun m : Message d => m.f_.flagContentLength) same).trans flag
  · rw [state]
    exact within
  · rw [value, ← len, ← kept]
    exact (congrArg Message.len_ same).trans rfl

end Header

section Body

variable {isRequest isDirect : Bool} {w : Wrote d}

/-- A write within a body of known size counts off what it takes. -/
theorem Wrote.Ran.countedOff (ran : w.Ran isRequest false) (body : w.before.state_ = .body) :
    CountedOff w.n w.before w.after := by
  obtain ⟨m, begun, data⟩ := ran.body (by rw [body]; rfl)
  rw [body] at data
  obtain ⟨size, finished⟩ := dataStep_ok data
  -- The announcement of the body counts nothing off.
  obtain ⟨flag, len, state⟩ : m.f_.flagContentLength = w.before.f_.flagContentLength ∧
      m.len_ = w.before.len_ ∧ m.state_ = w.before.state_ := by
    rcases begun with rfl | announced
    · exact ⟨rfl, rfl, rfl⟩
    · rw [announced.same]
      exact ⟨rfl, rfl, rfl⟩
  have taken : (w.text.take w.n).length = w.n := by
    rw [List.length_take]
    omega
  -- The write may have reached the end of the body, and told of it.
  rcases finished with ⟨_, completed⟩ | ⟨_, left⟩
  · obtain ⟨only, _⟩ := doComplete_run (m.take (w.text.take w.n))
    rw [completed] at only
    dsimp only at only
    refine ⟨?_, .inr (doComplete_state completed), ?_⟩
    · rw [only]
      exact flag
    · rw [only]
      dsimp only [Message.take]
      omega
  · refine ⟨?_, .inl ?_, ?_⟩
    · rw [left]
      exact flag
    · rw [left]
      exact state.trans body
    · rw [left]
      dsimp only [Message.take]
      omega

/-- A write behind the header does not lead back to it. -/
theorem Wrote.Ran.leaves (ran : w.Ran isRequest isDirect) (other : w.before.state_ ≠ .header) :
    w.after.state_ ≠ .header := by
  -- A chunk leads on to its data, or to the end of the message.
  by_cases chunk : w.before.state_ = .chunk_header
  · obtain ⟨m, announced, step⟩ := ran.chunk chunk
    have state : m.state_ ≠ .header := by
      rw [announced.same]
      exact other
    rcases step with ⟨_, same | same⟩ | ⟨_, head⟩
    · rw [same]
      exact state
    · rw [same]
      exact state
    · cases head with
      | opens _ _ _ _ _ left =>
        rw [left]
        simp [Message.inChunk]
      | ends _ _ _ _ trailed =>
        rw [doComplete_state trailed.completes]
        simp
  -- A direct parser is not written to within a body.
  cases isDirect with
  | true => exact absurd ran.ready (by simp [allowed, other, chunk])
  | false =>
    have inside : inBody w.before.state_ = true := by
      have open_ : w.before.state_ ≠ .complete := ran.ready
      cases state : w.before.state_ <;> simp_all [inBody]
    obtain ⟨m, begun, data⟩ := ran.body inside
    have same : m.state_ ≠ .header := by
      rcases begun with rfl | announced
      · exact other
      · rw [announced.same]
        exact other
    cases state : w.before.state_ with
    | body =>
      rw [state] at data
      obtain ⟨_, ⟨_, finished⟩ | ⟨_, left⟩⟩ := dataStep_ok data
      · rw [doComplete_state finished]
        simp
      · rw [left]
        exact same
    | chunk_body =>
      rw [state] at data
      obtain ⟨_, ⟨_, finished⟩ | ⟨_, left⟩⟩ := dataStep_ok data
      · rw [← (Prod.mk.inj finished).2]
        simp
      · rw [left]
        exact same
    | body_to_eof =>
      rw [state] at data
      obtain ⟨_, t, called, rest⟩ := Step.bind_ok data
      have only := invoke_spec (.on_data w.text) m
      rw [called] at only
      dsimp only at only
      rw [← (Prod.mk.inj rest).2, only]
      exact same
    | header | chunk_header | complete => simp [inBody, state] at inside

end Body

section Entries

variable {isRequest isDirect : Bool} {s t : BasicParser d × Octets} {e : Entered d R B} {v k : Nat}

/-- A write among the calls of a run is one of a run of writes. -/
theorem EntryStep.ran {text : Octets} (stepped : EntryStep isRequest isDirect s e t)
    (remembers : Remembers s.1 s.2) (wrote : e.entry = .write text) :
    Wrote.Ran isRequest isDirect ⟨s.1, text, e.n, t.1⟩ ∧ t.2 = text.drop e.n := by
  obtain ⟨_, _, called⟩ := stepped
  rw [wrote] at called
  obtain ⟨ready, ⟨more, rfl⟩, ran, left⟩ := called
  exact ⟨⟨ready, remembers.append more, ran⟩, left⟩

/-- A call for a body takes octets off the parser. -/
theorem EntryStep.taken {call : BodyCall} (stepped : EntryStep isRequest isDirect s e t)
    (called : e.entry = .body call) : Relation.TransGen BodyTaken s.1 t.1 := by
  obtain ⟨before, after, did⟩ := stepped
  rw [called] at did
  rw [← before, ← after]
  exact BodyCall.taken did.1 did.2

/-- Every call keeps the memory of the parser right. -/
theorem EntryStep.remembers (stepped : EntryStep isRequest isDirect s e t)
    (remembers : Remembers s.1 s.2) : Remembers t.1 t.2 := by
  cases entry : e.entry with
  | write text =>
    obtain ⟨ran, left⟩ := stepped.ran remembers entry
    rw [left]
    exact ran.left
  | write_eof =>
    obtain ⟨_, _, did⟩ := stepped
    rw [entry] at did
    intro more
    rw [Searched, writeEof_complete did.2.2.1]
    trivial
  | body call =>
    -- Within a body nothing is searched, and nothing has to be remembered.
    have free := bodyTaken_unsearched (remembers []) (stepped.taken entry)
    exact fun more => searched_fresh free.1 free.2 _

/-- Calls for a body start within it, and do not lead back to the header. -/
theorem bodyTaken_states {p q : BasicParser d} (taken : Relation.TransGen BodyTaken p q) :
    inBody p.state_ = true ∧ q.state_ ≠ .header := by
  obtain ⟨_, first, _⟩ := Relation.TransGen.head'_iff.mp taken
  obtain ⟨u, _, last⟩ := Relation.TransGen.tail'_iff.mp taken
  refine ⟨first.within, ?_⟩
  rcases last.state with same | ⟨_, complete⟩ | ⟨_, chunk⟩
  · rw [same]
    intro header
    have within := last.within
    simp [inBody, header] at within
  · simp [complete]
  · simp [chunk]

/-- No call behind the header leads back to it. -/
theorem EntryStep.leaves (stepped : EntryStep isRequest isDirect s e t) (remembers : Remembers s.1 s.2)
    (other : s.1.state_ ≠ .header) : t.1.state_ ≠ .header := by
  cases entry : e.entry with
  | write text => exact (stepped.ran remembers entry).1.leaves other
  | write_eof =>
    obtain ⟨_, _, did⟩ := stepped
    rw [entry] at did
    simp [writeEof_complete did.2.2.1]
  | body call => exact (bodyTaken_states (stepped.taken entry)).2

/-- Every call counts off the octets that it takes of a body of known size. -/
theorem EntryStep.sized (stepped : EntryStep isRequest isDirect s e t) (remembers : Remembers s.1 s.2)
    (sized : Sized v k s.1) : Sized v (k + e.bodyOctets) t.1 := by
  have counted : ∀ {n : Nat}, CountedOff n s.1 t.1 → Sized v (k + n) t.1 := by
    intro n counted
    refine ⟨counted.sized.trans sized.flag, counted.state, ?_⟩
    have len := sized.len
    have left := counted.len
    omega
  have ⟨before, after, did⟩ := stepped
  have inside : s.1.state_ = .body → inBody e.before.state_ = true := by
    intro body
    rw [before, body]
    rfl
  cases entry : e.entry with
  | write text =>
    have ran := (stepped.ran remembers entry).1
    have ready := ran.ready
    -- A direct parser counts off through other calls.
    cases isDirect with
    | true => rcases sized.state with state | state <;> simp [allowed, state] at ready
    | false =>
      have body : s.1.state_ = .body := sized.state.resolve_right ready
      rw [Entered.bodyOctets, entry]
      dsimp only
      rw [if_pos (inside body)]
      exact counted (ran.countedOff body)
  | write_eof =>
    -- The end of the octets is refused in a body of known size, and passed over behind it.
    rw [entry] at did
    obtain ⟨_, none_, ended, _⟩ := did
    have same : t.1 = s.1 := by
      unfold writeEof at ended
      rw [Step.run_get_bind] at ended
      split at ended
      · cases ended
      · rw [if_pos (by simp [sized.flag])] at ended
        split at ended
        · cases ended
        · exact (Prod.mk.inj ended).2.symm
    rw [Entered.bodyOctets, entry, same]
    dsimp only
    rw [none_]
    exact sized
  | body call =>
    -- A call for a body is made within it, so the message is not complete.
    have within := (bodyTaken_states (stepped.taken entry)).1
    have body : s.1.state_ = .body := by
      refine sized.state.resolve_right fun complete => ?_
      simp [inBody, complete] at within
    rw [entry] at did
    rw [Entered.bodyOctets, entry]
    refine counted ?_
    have off := BodyCall.countedOff did.1 (by rw [before]; exact body) did.2
    rwa [before, after] at off

/-- Before the header was taken nothing is known of the body, and only writes may be called. -/
theorem EntryStep.header (stepped : EntryStep isRequest isDirect s e t) (remembers : Remembers s.1 s.2)
    (header : s.1.state_ = .header)
    (fresh : s.1.f_.flagContentLength = false ∧ s.1.f_.flagChunked = false) :
    e.bodyOctets = 0 ∧
      (e.n = 0 ∧ t.1.state_ = .header ∧ t.1.f_.flagContentLength = false ∧ t.1.f_.flagChunked = false ∨
        t.1.state_ ≠ .header ∧ ∃ lines, e.Header lines ∧ ∀ field ∈ (readFields lines).1,
          isLength field.1 = true → Sized (decimalValue field.2) 0 t.1) := by
  have ⟨before, after, did⟩ := stepped
  cases entry : e.entry with
  | write text =>
    have ran := (stepped.ran remembers entry).1
    refine ⟨?_, ?_⟩
    · rw [Entered.bodyOctets, entry]
      dsimp only
      rw [if_neg]
      rw [before, header]
      decide
    · -- A write takes the header as a whole, or nothing of it.
      by_cases some_ : 0 < e.n
      · have wrote := (writeAny_header header text).symm.trans ran.ran
        obtain ⟨line, lines, start, version, told, noted, decided, plain, plains, cut, taken⟩ :=
          write_taken header ran.searched wrote some_
        obtain ⟨leaves, sized⟩ := taken.sized fresh
        refine .inr ⟨leaves, lines, ⟨text, line, entry, ?_, some_, plain, plains, cut⟩, sized⟩
        rw [before]
        exact header
      · have none_ := Nat.eq_zero_of_not_pos some_
        obtain ⟨_, same⟩ := ran.waits header none_
        refine .inl ⟨none_, ?_, ?_, ?_⟩
        · exact (congrArg Message.state_ same).trans header
        · exact (congrArg (fun m : Message d => m.f_.flagContentLength) same).trans fresh.1
        · exact (congrArg (fun m : Message d => m.f_.flagChunked) same).trans fresh.2
  | write_eof =>
    rw [entry] at did
    obtain ⟨_, _, ended, _⟩ := did
    -- The octets may not end before the header does.
    simp [writeEof, header, fail] at ended
  | body call =>
    have within := (bodyTaken_states (stepped.taken entry)).1
    simp [inBody, header] at within

end Entries

section Runs

variable {isRequest isDirect skipsBody : Bool} {len x : Nat} {impl : d.State} {l : List (Entered d R B)}
  {s t : BasicParser d × Octets}

/-- What is known in a run: before the header was taken nothing, and behind it what is left of the body. -/
structure KnowsLength (l : List (Entered d R B)) (s : BasicParser d × Octets) : Prop where
  remembers : Remembers s.1 s.2
  fresh : s.1.state_ = .header →
    (s.1.f_.flagContentLength = false ∧ s.1.f_.flagChunked = false) ∧
      ∀ e ∈ l, e.n = 0 ∧ e.bodyOctets = 0
  sized : ∀ e ∈ l, e.before.state_ = .header → 0 < e.n → ∃ lines, e.Header lines ∧
    ∀ field ∈ (readFields lines).1, isLength field.1 = true →
      Sized (decimalValue field.2) (l.map Entered.bodyOctets).sum s.1

/-- A new parser knows nothing of a body. -/
theorem knowsLength_opened : KnowsLength (R := R) (B := B) [] (opened skipsBody len x impl, []) := by
  refine ⟨opened_remembers skipsBody len x impl, fun _ => ⟨?_, ?_⟩, ?_⟩
  · cases skipsBody <;> exact ⟨rfl, rfl⟩
  · exact fun e there => absurd there List.not_mem_nil
  · exact fun e there => absurd there List.not_mem_nil

/-- Every call keeps what is known of the body. -/
theorem KnowsLength.step {e : Entered d R B} (knows : KnowsLength l s)
    (stepped : EntryStep isRequest isDirect s e t) : KnowsLength (l ++ [e]) t := by
  have before : e.before.toBasicParser = s.1 := stepped.1
  have total : ((l ++ [e]).map Entered.bodyOctets).sum = (l.map Entered.bodyOctets).sum + e.bodyOctets := by
    simp
  have either : ∀ {c}, c ∈ l ++ [e] → c ∈ l ∨ c = e := by
    intro c there
    exact (List.mem_append.mp there).imp_right List.mem_singleton.mp
  -- Up to here the header has not been taken, or it has.
  by_cases header : s.1.state_ = .header
  · obtain ⟨fresh, none_⟩ := knows.fresh header
    obtain ⟨nothing, waits⟩ := stepped.header knows.remembers header fresh
    have zero : (l.map Entered.bodyOctets).sum = 0 := by
      refine List.sum_eq_zero_iff_forall_eq_nat.mpr fun k there => ?_
      obtain ⟨c, within, rfl⟩ := List.mem_map.mp there
      exact (none_ c within).2
    refine ⟨stepped.remembers knows.remembers, fun still => ?_, fun c there start some_ => ?_⟩
    · rcases waits with ⟨none', _, flags⟩ | ⟨leaves, _⟩
      · refine ⟨flags, fun c there => ?_⟩
        rcases either there with early | rfl
        · exact none_ c early
        · exact ⟨none', nothing⟩
      · exact absurd still leaves
    · -- Only this call can have taken the header.
      rcases either there with early | rfl
      · have none' := (none_ c early).1
        omega
      · rcases waits with ⟨none', _⟩ | ⟨_, lines, taken, sized⟩
        · omega
        · rw [total, zero, nothing]
          exact ⟨lines, taken, sized⟩
  · refine ⟨stepped.remembers knows.remembers, fun still => ?_, fun c there start some_ => ?_⟩
    · exact absurd still (stepped.leaves knows.remembers header)
    · rcases either there with early | rfl
      · -- The header was taken by an earlier call, and this one counts off what it takes.
        obtain ⟨lines, taken, sized⟩ := knows.sized c early start some_
        refine ⟨lines, taken, fun field within named => ?_⟩
        rw [total]
        exact stepped.sized knows.remembers (sized field within named)
      · -- This call was made behind the header.
        rw [before] at start
        exact absurd start header

/-- In every run it is known what is left of the body. -/
theorem EntryRun.knows (run : EntryRun isRequest isDirect skipsBody len x impl l s) : KnowsLength l s :=
  Run.History.invariant run knowsLength_opened fun _ _ _ _ knows stepped => knows.step stepped

/--
In every run behind the header, the length that is given is the number in the field that says it.

This holds just where no octet of the body was taken.
-/
theorem content_length_iff (run : EntryRun isRequest isDirect skipsBody len x impl l s)
    {e : Entered d R B} (there : e ∈ l) (header : e.before.state_ = .header) (some_ : 0 < e.n) :
    ∃ lines, e.Header lines ∧ ∀ field ∈ (readFields lines).1, isLength field.1 = true →
      (contentLength s.1 = some (decimalValue field.2) ↔ ∀ c ∈ l, c.bodyOctets = 0) := by
  obtain ⟨lines, taken, sized⟩ := run.knows.sized e there header some_
  refine ⟨lines, taken, fun field within named => ?_⟩
  have left := sized field within named
  have len := left.len
  -- No octet was taken in all just where none was in any call.
  have zero : (l.map Entered.bodyOctets).sum = 0 ↔ ∀ c ∈ l, c.bodyOctets = 0 := by
    simp [List.sum_eq_zero_iff_forall_eq_nat]
  rw [left.contentLength, Option.some.injEq, ← zero]
  omega

/-- A write as a call of a parser, whose reader and buffer stay as they are. -/
def Wrote.entered (reader : ReadState d R B) (w : Wrote d) : Entered d R B where
  before := { reader with toBasicParser := w.before }
  entry := .write w.text
  n := w.n
  after := { reader with toBasicParser := w.after }

/-- Writes alone are calls of a parser. -/
theorem WriteRun.entries {l : List (Wrote d)} (reader : ReadState d R B)
    (writes : WriteRun isRequest false skipsBody len x impl l s) :
    EntryRun isRequest false skipsBody len x impl (l.map (Wrote.entered reader)) s := by
  refine Run.History.invariant (P := fun l s => EntryRun isRequest false skipsBody len x impl
    (l.map (Wrote.entered reader)) s) writes Run.History.start fun l s w t run stepped => ?_
  rw [List.map_append]
  obtain ⟨ready, ⟨before, more⟩ | ⟨direct, _⟩, ran, rfl⟩ := stepped
  · rw [before] at ready ran
    exact Run.History.next run ⟨before, rfl, ready, more, ran, rfl⟩
  · cases direct

/-- A call that is a write, as one of a run of writes. -/
def Entered.wrote (e : Entered d R B) : Option (Wrote d) :=
  match e.entry with
  | .write text => some ⟨e.before.toBasicParser, text, e.n, e.after.toBasicParser⟩
  | .write_eof | .body _ => none

/-- The writes among the calls of a direct parser are a run of writes, before the end of the octets. -/
theorem EntryRun.writes (run : EntryRun isRequest true skipsBody len x impl l s)
    (noEnd : ∀ e ∈ l, e.entry ≠ .write_eof) :
    ∃ last : BasicParser d × Octets,
      WriteRun isRequest true skipsBody len x impl (l.filterMap Entered.wrote) last ∧
        (s = last ∨ Relation.TransGen BodyTaken last.1 s.1) := by
  revert noEnd
  refine Run.History.invariant (P := fun (l : List (Entered d R B)) s => (∀ e ∈ l, e.entry ≠ .write_eof) →
    ∃ last : BasicParser d × Octets,
      WriteRun isRequest true skipsBody len x impl (l.filterMap Entered.wrote) last ∧
        (s = last ∨ Relation.TransGen BodyTaken last.1 s.1)) run ?_ ?_
  · exact fun _ => ⟨_, Run.History.start, .inl rfl⟩
  · intro l s e t before stepped noEnd
    obtain ⟨last, writes, since⟩ := before fun c there => noEnd c (List.mem_append_left _ there)
    rw [List.filterMap_append]
    cases entry : e.entry with
    | write text =>
      obtain ⟨start, after, did⟩ := stepped
      rw [entry] at did
      obtain ⟨ready, more, ran, left⟩ := did
      have one : [e].filterMap Entered.wrote = [⟨s.1, text, e.n, t.1⟩] := by
        simp [Entered.wrote, entry, start, after]
      rw [one]
      refine ⟨t, Run.History.next writes ⟨ready, ?_, ran, Prod.ext rfl left⟩, .inl rfl⟩
      rcases since with rfl | taken
      · exact .inl ⟨rfl, more⟩
      · exact .inr ⟨rfl, taken⟩
    | write_eof => exact absurd entry (noEnd e (List.mem_append_right _ List.mem_cons_self))
    | body call =>
      -- Such a call takes octets between two writes.
      have taken := stepped.taken entry
      have one : [e].filterMap Entered.wrote = [] := by
        simp [Entered.wrote, entry]
      rw [one, List.append_nil]
      refine ⟨last, writes, .inr ?_⟩
      rcases since with rfl | before
      · exact taken
      · exact before.trans taken

end Runs

/-- A parser with a reader that has room, and with an empty buffer. -/
def idle : ReadState accepting roomyReader flatBuffer where
  toBasicParser := opened false 0 0 ()
  r_ := ()
  buffer := { max_ := 65536 }
  stream := { input := [], ending := .eof }

/-- The header of a request with a body of two octets. -/
def twoOctets : Octets := octets "GET / HTTP/1.1\r\nContent-Length:2\r\n\r\n"

/-- The header is taken as a whole, and leaves the length known. -/
theorem twoOctets_taken :
    (Step.run (write true (twoOctets ++ octets "a")) (opened (d := accepting) false 0 0 ())).1 = .ok 36 := by
  decide +kernel

/-- Behind the header, the length of the body is given. -/
theorem content_length_header : ∃ (l : List (Entered accepting roomyReader flatBuffer))
    (s : BasicParser accepting × Octets) (e : Entered accepting roomyReader flatBuffer),
    EntryRun true false false 0 0 () l s ∧ e ∈ l ∧ contentLength s.1 = some 2 ∧
      ∃ lines, e.Header lines ∧ ∀ field ∈ (readFields lines).1, isLength field.1 = true →
        (contentLength s.1 = some (decimalValue field.2) ↔ ∀ c ∈ l, c.bodyOctets = 0) := by
  obtain ⟨w, writes, before, text, n, after⟩ := writes_first twoOctets_taken
  have run := writes.entries idle
  have header : w.before.state_ = .header := by
    rw [before]
    exact (opened_spec false 0 0 _).1
  have some_ : 0 < w.n := by
    rw [n]
    decide
  have known : contentLength w.after = some 2 := by
    rw [after]
    decide +kernel
  exact ⟨_, _, _, run, List.mem_cons_self, known,
    content_length_iff run List.mem_cons_self header some_⟩

/-- Behind an octet of the body, what is given is what is left of it. -/
theorem content_length_less : ¬∀ (isRequest isDirect skipsBody : Bool) (len x : Nat)
    (l : List (Entered accepting roomyReader flatBuffer)) (s : BasicParser accepting × Octets),
    EntryRun isRequest isDirect skipsBody len x () l s → ∀ e ∈ l, ∀ lines, e.Header lines →
      ∀ field ∈ (readFields lines).1, isLength field.1 = true →
        contentLength s.1 = some (decimalValue field.2) := by
  intro stable
  obtain ⟨w, writes, before, text, n, after⟩ := writes_first twoOctets_taken
  have open_ : w.after.state_ ≠ .complete := by
    rw [after]
    decide +kernel
  have taken : (Step.run (write true ((twoOctets ++ octets "a").drop 36 ++ [])) w.after).1 = .ok 1 := by
    rw [after]
    decide +kernel
  have run := (writes.next [] open_ (Step.run_snd taken)).entries idle
  obtain ⟨lines, only⟩ : ∃ lines, lines = [octets "Content-Length:2"] := ⟨_, rfl⟩
  have header : w.before.state_ = .header := by
    rw [before]
    exact (opened_spec false 0 0 _).1
  have some_ : 0 < w.n := by
    rw [n]
    decide
  have cut : w.text.take w.n = octets "GET / HTTP/1.1" ++ crlf ++ writeLines lines ++ crlf := by
    rw [text, n, only]
    decide +kernel
  have plain : PlainLine (octets "GET / HTTP/1.1") ∧ PlainLines lines := by
    rw [only]
    unfold PlainLines PlainLine
    decide +kernel
  have field : (octets "Content-Length", octets "2") ∈ (readFields lines).1 := by
    rw [only, readFields]
    decide +kernel
  have same := stable _ _ _ _ _ _ _ run _ List.mem_cons_self lines
    ⟨w.text, octets "GET / HTTP/1.1", rfl, header, some_, plain.1, plain.2, cut⟩
    _ field (by decide +kernel)
  have left : contentLength (Step.run (write true ((twoOctets ++ octets "a").drop 36 ++ [])) w.after).2 =
      some 1 := by
    rw [after]
    decide +kernel
  have value : decimalValue (octets "2") = 2 := by decide +kernel
  rw [value] at same
  cases left.symm.trans same

end Beast.Http
