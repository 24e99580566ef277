import Beast.Lib.Run
import Beast.Http.Bounds
import Beast.Http.FramingLaws
import Beast.Http.ProtocolLaws

/-! Runs in which a parser is written to, with what each write took. -/

namespace Beast.Http

variable {d : Derived}

/-- A write that succeeded: what it was made on, the octets that it took, and what it left. -/
structure Wrote (d : Derived) where
  before : BasicParser d
  text : Octets
  n : Nat
  after : BasicParser d

/-- The octets that a write took. -/
def Wrote.taken (w : Wrote d) : Octets := w.text.take w.n

/-- Writes to a parser of either kind. -/
def writeAny (isRequest isDirect : Bool) (text : Octets) : ParserStep d Nat :=
  if isDirect then writeDirect isRequest text else write isRequest text

/-- What the other entry points do to a direct parser within a body: they take octets without a search. -/
structure BodyTaken (p q : BasicParser d) : Prop where
  within : inBody p.state_ = true
  skip : q.skip_ = p.skip_
  flags : q.f_ = { p.f_ with flagOnBody := q.f_.flagOnBody }
  ext : q.ext_ = p.ext_
  state : q.state_ = p.state_ ∨ p.state_ = .body ∧ q.state_ = .complete ∨
    p.state_ = .chunk_body ∧ q.state_ = .chunk_header
  calls : ∃ calls : List Callback, (∀ c ∈ calls, ¬IsField c ∧ ∀ n ext, c ≠ .on_chunk n ext) ∧
    q.impl = tells d p.impl calls

/--
A write goes on where the one before it ended, with the octets that it left and further ones.

On a direct parser octets of a body may be taken in between.
-/
def WriteRunStep (isRequest isDirect : Bool) (s : BasicParser d × Octets) (w : Wrote d)
    (t : BasicParser d × Octets) : Prop :=
  allowed isDirect w.before (.write w.text) ∧
    (w.before = s.1 ∧ (∃ more, w.text = s.2 ++ more) ∨
      isDirect = true ∧ Relation.TransGen BodyTaken s.1 w.before) ∧
    Step.run (writeAny isRequest isDirect w.text) w.before = (.ok w.n, w.after) ∧
    t = (w.after, w.text.drop w.n)

/-- The writes that were made on a new parser. -/
def WriteRun (isRequest isDirect skipsBody : Bool) (len x : Nat) (impl : d.State) (l : List (Wrote d))
    (s : BasicParser d × Octets) : Prop :=
  Run.History (WriteRunStep isRequest isDirect) (opened skipsBody len x impl, []) l s

/-- Nothing was searched by a new parser. -/
theorem opened_remembers (skipsBody : Bool) (len x : Nat) (impl : d.State) :
    Remembers (opened skipsBody len x impl) [] := by
  obtain ⟨_, skip, final⟩ := opened_spec skipsBody len x impl
  exact fun more => searched_fresh skip final _

/-- Octets of a body are taken while nothing is searched. -/
theorem bodyTaken_unsearched {p q : BasicParser d} {text : Octets} (searched : Searched p text)
    (taken : Relation.TransGen BodyTaken p q) : q.skip_ = 0 ∧ q.f_.flagFinalChunk = false := by
  -- Each of them keeps the offset and the flag.
  have one : ∀ {p q : BasicParser d}, BodyTaken p q → p.skip_ = 0 ∧ p.f_.flagFinalChunk = false →
      q.skip_ = 0 ∧ q.f_.flagFinalChunk = false := by
    intro p q taken free
    exact ⟨taken.skip.trans free.1, (congrArg Flags.flagFinalChunk taken.flags).trans free.2⟩
  -- Within a body nothing was searched to begin with.
  induction taken with
  | single first => exact one first (unsearched first.within searched)
  | tail _ last ih => exact one last ih

/-- A write of a run: the parser was ready for it, and it succeeded. -/
structure Wrote.Ran (isRequest isDirect : Bool) (w : Wrote d) : Prop where
  ready : allowed isDirect w.before (.write w.text)
  remembers : Remembers w.before w.text
  ran : Step.run (writeAny isRequest isDirect w.text) w.before = (.ok w.n, w.after)

/-- A parser that is to be written to in front of a header, or of the head of a chunk. -/
theorem Wrote.Ran.searched {isRequest isDirect : Bool} {w : Wrote d} (ran : w.Ran isRequest isDirect) :
    Searched w.before w.text := by
  have whole := ran.remembers []
  rwa [List.append_nil] at whole

/-- A write keeps the memory of the parser right. -/
theorem Wrote.Ran.left {isRequest isDirect : Bool} {w : Wrote d} (ran : w.Ran isRequest isDirect) :
    Remembers w.after (w.text.drop w.n) := by
  have wrote := ran.ran
  have ready := ran.ready
  -- A direct parser is written to only in front of a header or of a chunk.
  cases isDirect with
  | false => exact left_write ran.remembers wrote
  | true => exact left_writeDirect ready ran.remembers wrote

/-- A write finds the memory of the parser right, and keeps it so. -/
theorem writeRunStep_ran {isRequest isDirect : Bool} {s t : BasicParser d × Octets} {w : Wrote d}
    (remembers : Remembers s.1 s.2) (stepped : WriteRunStep isRequest isDirect s w t) :
    w.Ran isRequest isDirect := by
  obtain ⟨ready, ⟨before, more, text⟩ | ⟨_, taken⟩, wrote, _⟩ := stepped
  · refine ⟨ready, ?_, wrote⟩
    rw [before, text]
    exact remembers.append more
  · -- Behind octets of a body, no text was searched before.
    have free := bodyTaken_unsearched (remembers []) taken
    exact ⟨ready, fun more => searched_fresh free.1 free.2 _, wrote⟩

/-- Every write of a run found the memory of its parser right. -/
theorem WriteRun.ran {isRequest isDirect skipsBody : Bool} {len x : Nat} {impl : d.State}
    {l : List (Wrote d)} {s : BasicParser d × Octets}
    (writes : WriteRun isRequest isDirect skipsBody len x impl l s) :
    ∀ w ∈ l, w.Ran isRequest isDirect := by
  -- The invariant is that the parser remembers right what it searched of the octets left.
  refine Run.History.each (P := fun s => Remembers s.1 s.2) writes
    (opened_remembers skipsBody len x impl) fun s w t remembers stepped => ?_
  have ran := writeRunStep_ran remembers stepped
  obtain ⟨_, _, _, rfl⟩ := stepped
  exact ⟨ran.left, ran⟩

/-- A run of a parser that is not direct goes on with a write that succeeds. -/
theorem WriteRun.next {isRequest skipsBody : Bool} {len x : Nat} {impl : d.State} {l : List (Wrote d)}
    {p q : BasicParser d} {pending : Octets}
    (writes : WriteRun isRequest false skipsBody len x impl l (p, pending)) (more : Octets) {n : Nat}
    (open_ : p.state_ ≠ .complete)
    (taken : Step.run (write isRequest (pending ++ more)) p = (.ok n, q)) :
    WriteRun isRequest false skipsBody len x impl (l ++ [⟨p, pending ++ more, n, q⟩])
      (q, (pending ++ more).drop n) :=
  Run.History.next writes ⟨open_, .inl ⟨rfl, more, rfl⟩, taken, rfl⟩

/-- The first write of a run. -/
theorem writes_first {isRequest : Bool} {impl : d.State} {text : Octets} {n : Nat}
    (taken : (Step.run (write isRequest text) (opened false 0 0 impl)).1 = .ok n) :
    ∃ w : Wrote d, WriteRun isRequest false false 0 0 impl [w] (w.after, text.drop n) ∧
      w.before = opened false 0 0 impl ∧ w.text = text ∧ w.n = n ∧
      w.after = (Step.run (write isRequest text) (opened false 0 0 impl)).2 := by
  have none_ : WriteRun isRequest false false 0 0 impl [] (opened false 0 0 impl, []) := Run.History.start
  have open_ : (opened false 0 0 impl).state_ ≠ .complete := by simp [opened_spec]
  exact ⟨_, none_.next text open_ (Step.run_snd taken), rfl, rfl, rfl, rfl⟩

/-- Writes of pieces, each behind what was left before it, up to the first one that cannot be made. -/
def writeAll (isRequest : Bool) (p : BasicParser d) (pending : Octets) :
    List Octets → List (Wrote d) × (BasicParser d × Octets)
  | [] => ([], p, pending)
  | more :: pieces =>
    match p.state_, Step.run (write isRequest (pending ++ more)) p with
    | .complete, _ | _, (.error _, _) => ([], p, pending)
    | _, (.ok n, q) =>
      let (l, s) := writeAll isRequest q ((pending ++ more).drop n) pieces
      (⟨p, pending ++ more, n, q⟩ :: l, s)

/-- Writes that are made one after another are a run. -/
theorem writeAll_writes {isRequest skipsBody : Bool} {len x : Nat} {impl : d.State} {l : List (Wrote d)}
    {p : BasicParser d} {pending : Octets}
    (writes : WriteRun isRequest false skipsBody len x impl l (p, pending)) (pieces : List Octets) :
    WriteRun isRequest false skipsBody len x impl (l ++ (writeAll isRequest p pending pieces).1)
      (writeAll isRequest p pending pieces).2 := by
  -- The induction is on the pieces, each of which goes on with what was left.
  induction pieces generalizing l p pending with
  | nil => simpa [writeAll] using writes
  | cons more pieces ih =>
    by_cases open_ : p.state_ = .complete
    · simpa [writeAll, open_] using writes
    · cases taken : Step.run (write isRequest (pending ++ more)) p with
      | mk r q =>
        cases r with
        | error e => simpa [writeAll, taken] using writes
        | ok n =>
          have rest := ih (writes.next more open_ taken)
          rw [List.append_assoc] at rest
          have one : writeAll isRequest p pending (more :: pieces) =
              (⟨p, pending ++ more, n, q⟩ :: (writeAll isRequest q ((pending ++ more).drop n) pieces).1,
                (writeAll isRequest q ((pending ++ more).drop n) pieces).2) := by
            rw [writeAll, taken]
            cases state : p.state_ <;> first | rfl | exact absurd state open_
          rw [one]
          exact rest

/-- The writes of pieces to a new parser are a run. -/
theorem writes_all (isRequest : Bool) (impl : d.State) (pieces : List Octets) :
    WriteRun isRequest false false 0 0 impl (writeAll isRequest (opened false 0 0 impl) [] pieces).1
      (writeAll isRequest (opened false 0 0 impl) [] pieces).2 := by
  have none_ : WriteRun isRequest false false 0 0 impl [] (opened false 0 0 impl, []) := Run.History.start
  exact writeAll_writes none_ pieces

/-- In front of a header, parsers of both kinds are written to alike. -/
theorem writeAny_header {isRequest isDirect : Bool} {p : BasicParser d} (header : p.state_ = .header)
    (text : Octets) :
    Step.run (writeAny isRequest isDirect text) p = Step.run (write isRequest text) p := by
  cases isDirect with
  | false => rfl
  | true =>
    unfold writeAny write writeDirect
    simp [header]

/-- A write that takes nothing of a header is only noted. -/
theorem Wrote.Ran.waits {isRequest isDirect : Bool} {w : Wrote d} (ran : w.Ran isRequest isDirect)
    (header : w.before.state_ = .header) (none_ : w.n = 0) :
    ∃ some_, w.after.toMessage =
      { w.before.toMessage with f_ := { w.before.f_ with flagGotSome := some_ } } := by
  have wrote := (writeAny_header header w.text).symm.trans ran.ran
  have seen := rescan_of_write ran.remembers wrote
  unfold rescan beginStep bufferStep headerStep setFlags at seen
  rw [Step.run_get_bind, header] at seen
  dsimp only at seen
  rw [Step.run_modify_bind] at seen
  split at seen
  · exact ⟨_, (Prod.mk.inj seen).2.symm⟩
  · -- Only a search that wants more leaves the write with nothing.
    cases found : findEom w.text with
    | bad => simp [found, fail] at seen
    | need =>
      rw [found] at seen
      exact ⟨_, (Prod.mk.inj seen).2.symm⟩
    | found k =>
      -- A header that is there as a whole is taken, which is some octets.
      rw [found] at seen
      obtain ⟨_, t, _, rest⟩ := Step.bind_ok seen
      have bounds := findEom_bounds found
      have size := Except.ok.inj (Prod.mk.inj rest).1
      omega

/-- What announcing a body does: a flag is set, and it is told of at most once. -/
structure AnnouncesBody (m t : Message d) : Prop where
  same : t = { m with f_ := { m.f_ with flagOnBody := true }, impl := t.impl }
  calls : t.impl = m.impl ∨ ∃ n, t.impl = (d.call m.impl (.on_body n)).1

/-- A body that was announced before is not announced again. -/
theorem announces_again {m : Message d} (announced : m.f_.flagOnBody = true) : AnnouncesBody m m := by
  refine ⟨?_, .inl rfl⟩
  rw [← announced]

/-- An indirect parser announces the body by a call that may be refused. -/
theorem announces_indirect {m t : Message d}
    (ran : Step.run maybeDoBodyIndirect m = (.ok (), t)) : AnnouncesBody m t := by
  -- The call is the same with and without a known length.
  have one : ∀ n, Step.run (invoke (.on_body n)) { m with f_ := { m.f_ with flagOnBody := true } } =
      (.ok (), t) → AnnouncesBody m t := by
    intro n called
    have only := invoke_spec (.on_body n) { m with f_ := { m.f_ with flagOnBody := true } }
    rw [called] at only
    dsimp only at only
    subst only
    exact ⟨rfl, .inr ⟨n, rfl⟩⟩
  unfold maybeDoBodyIndirect at ran
  rw [Step.run_get_bind] at ran
  split at ran
  · rename_i announced
    cases ran
    exact announces_again announced
  · rw [setFlags, Step.run_modify_bind] at ran
    split at ran
    · exact one _ ran
    · exact one _ ran

/-- A direct parser announces the body by a call that reports no error. -/
theorem announces_direct {m t : Message d}
    (ran : Step.run maybeDoBodyDirect m = (.ok (), t)) : AnnouncesBody m t := by
  -- A call that reports no error changes the derived class alone.
  have one : ∀ n, Step.run (tell (.on_body n)) { m with f_ := { m.f_ with flagOnBody := true } } =
      (.ok (), t) → AnnouncesBody m t := by
    intro n called
    unfold tell Step.run at called
    dsimp only at called
    split at called
    · cases called
      exact ⟨rfl, .inr ⟨n, rfl⟩⟩
    · cases called
  unfold maybeDoBodyDirect at ran
  rw [Step.run_get_bind] at ran
  split at ran
  · rename_i announced
    cases ran
    exact announces_again announced
  · rw [setFlags, Step.run_modify_bind] at ran
    split at ran
    · exact one _ ran
    · exact one _ ran

/-- A write in front of a chunk announces the body, and looks at the octets from their start. -/
theorem Wrote.Ran.head {isRequest isDirect : Bool} {w : Wrote d} (ran : w.Ran isRequest isDirect)
    (chunk : w.before.state_ = .chunk_header) :
    ∃ m, AnnouncesBody w.before.toMessage m ∧
      Step.run (chunkStep w.text) m = (.ok w.n, w.after.toMessage) := by
  -- Both kinds of parsers announce the body first, each in its way.
  have wrote : ∃ announce : MessageStep d Unit,
      (∀ m t, Step.run announce m = (.ok (), t) → AnnouncesBody m t) ∧
      Step.run (do onMessage announce; parseChunkHeader w.text) w.before = (.ok w.n, w.after) := by
    have wrote := ran.ran
    cases isDirect with
    | false =>
      refine ⟨maybeDoBodyIndirect, fun _ _ => announces_indirect, ?_⟩
      simpa only [writeAny, write, Step.run_get_bind, chunk, Bool.false_eq_true, ↓reduceIte] using wrote
    | true =>
      refine ⟨maybeDoBodyDirect, fun _ _ => announces_direct, ?_⟩
      simpa [writeAny, writeDirect, chunk] using wrote
  obtain ⟨announce, announces, wrote⟩ := wrote
  obtain ⟨_, m, told, parsed⟩ := onMessage_bind_ok wrote
  have begun := announces _ _ told
  -- The announcement touches nothing that the memory of the parser depends on.
  have searched : Searched { w.before with toMessage := m } w.text := by
    refine ran.searched.congr ?_ ?_ ?_ rfl rfl <;> rw [begun.same]
  have state : m.state_ = .chunk_header := by
    rw [begun.same]
    exact chunk
  have seen := view_parseChunkHeader (p := { w.before with toMessage := m }) state searched
  rw [parsed] at seen
  exact ⟨m, begun, seen.symm⟩

/-- A write to a parser that is not direct takes octets of a body, which may be announced before. -/
theorem Wrote.Ran.body {isRequest : Bool} {w : Wrote d} (ran : w.Ran isRequest false)
    (inside : inBody w.before.state_ = true) :
    ∃ m, (m = w.before.toMessage ∨ AnnouncesBody w.before.toMessage m) ∧
      Step.run (bufferStep isRequest w.text w.before.state_) m = (.ok w.n, w.after.toMessage) := by
  have seen := rescan_of_write ran.remembers ran.ran
  unfold rescan at seen
  rw [Step.run_get_bind] at seen
  obtain ⟨_, m, begun, data⟩ := Step.bind_ok seen
  refine ⟨m, ?_, data⟩
  -- Within a chunk, the body was announced in front of it.
  cases state : w.before.state_ with
  | body | body_to_eof =>
    rw [state] at begun
    exact .inr (announces_indirect begun)
  | chunk_body =>
    rw [state] at begun
    cases begun
    exact .inl rfl
  | header | chunk_header | complete => simp [inBody, state] at inside

section Logs

variable {P : Callback → Prop} {log : List Callback}

/-- The calls that are made are added to the log. -/
theorem tells_logged (state : (logged d).State) (calls : List Callback) :
    (tells (logged d) state calls).2 = state.2 ++ calls := by
  induction calls generalizing state with
  | nil => exact (List.append_nil _).symm
  | cons c calls ih =>
    refine (ih ((logged d).call state c).1).trans ?_
    exact List.append_assoc ..

/-- The calls made since a point in the log are all of a kind. -/
def Logs (P : Callback → Prop) (log : List Callback) (m : Message (logged d)) : Prop :=
  ∃ calls, m.impl.2 = log ++ calls ∧ ∀ c ∈ calls, P c

/-- At the point itself no call was made. -/
theorem logs_nothing (m : Message (logged d)) : Logs P m.impl.2 m :=
  ⟨[], (List.append_nil _).symm, nofun⟩

/-- A call of the kind is one more. -/
theorem Logs.call {m t : Message (logged d)} {c : Callback} (logs : Logs P log m) (kind : P c)
    (called : t.impl = ((logged d).call m.impl c).1) : Logs P log t := by
  -- The call is put behind those made so far.
  obtain ⟨calls, made, all⟩ := logs
  refine ⟨calls ++ [c], ?_, fun b there => ?_⟩
  · rw [called, ← List.append_assoc, ← made]
    rfl
  · rcases List.mem_append.mp there with early | late
    · exact all b early
    · rw [List.mem_singleton.mp late]
      exact kind

/-- The announcement of a body is one call at most. -/
theorem AnnouncesBody.logs {m t : Message (logged d)} (announces : AnnouncesBody m t) (logs : Logs P log m)
    (kind : ∀ n, P (.on_body n)) : Logs P log t := by
  -- Where no call was made, the log is as it was.
  rcases announces.calls with none_ | ⟨n, called⟩
  · obtain ⟨calls, made, all⟩ := logs
    exact ⟨calls, by rw [none_]; exact made, all⟩
  · exact logs.call (kind n) called

/-- A call of the kind keeps the calls to it. -/
theorem invoke_logs {c : Callback} (kind : P c) :
    Step.Preserves (Logs P log) (invoke (d := logged d) c) := by
  intro m logs
  rw [Step.wp, invoke_spec]
  exact logs.call kind rfl

/-- The end of the message is one call. -/
theorem doComplete_logs (kind : P .on_complete) :
    Step.Preserves (Logs P log) (doComplete (d := logged d)) :=
  Step.preserves_bind (invoke_logs kind) fun _ => Step.preserves_modify fun _ same => same

/-- What a step preserves holds behind it. -/
theorem Logs.behind {α : Type} {step : MessageStep (logged d) α} {m t : Message (logged d)}
    {r : Except Halt α} (preserves : Step.Preserves (Logs P log) step) (logs : Logs P log m)
    (ran : Step.run step m = (r, t)) : Logs P log t := by
  have holds := preserves m logs
  rw [Step.wp, ran] at holds
  exact holds

end Logs

end Beast.Http
