import Mathlib.Algebra.Order.BigOperators.Group.List
import Beast.Http.WriteRuns

/-! What a parser reports of the body between two writes, and what it took of it. -/

namespace Beast.Http

variable {d : Derived}

/-- The body data that was parsed in the last write. -/
def body (p : BasicParser d) : Octets := p.body_

/-- The octets of the body that a write took. -/
def Wrote.bodyOctets (w : Wrote d) : Octets := if inBody w.before.state_ then w.taken else []

/-- Whether a write reaches the end of a chunk. -/
def Wrote.EndsChunk (w : Wrote d) : Prop :=
  w.before.state_ = .chunk_body ∧ w.before.len_ ≤ w.text.length

/-- Data of which some parts are left out is not longer. -/
theorem length_flatMap_le {α β : Type} {f g : α → List β} {l : List α}
    (parts : ∀ a ∈ l, (f a).length ≤ (g a).length) : (l.flatMap f).length ≤ (l.flatMap g).length := by
  rw [List.length_flatMap, List.length_flatMap]
  exact List.sum_le_sum parts

/-- Data of which some parts may be left out is as it was just where none is. -/
theorem flatMap_eq_iff {α β : Type} {f g : α → List β} {l : List α}
    (parts : ∀ a ∈ l, f a = g a ∨ (f a).length < (g a).length) :
    l.flatMap f = l.flatMap g ↔ ∀ a ∈ l, f a = g a := by
  refine ⟨fun same => ?_, fun same => List.flatMap_congr same⟩
  -- The induction is on the parts, and a part that is too short cannot be made up for by the rest.
  induction l with
  | nil => nofun
  | cons a l ih =>
    have tail := fun b there => parts b (List.mem_cons_of_mem a there)
    have rest : (l.flatMap f).length ≤ (l.flatMap g).length := by
      refine length_flatMap_le fun b there => ?_
      rcases tail b there with kept | less
      · rw [kept]
      · exact Nat.le_of_lt less
    rw [List.flatMap_cons, List.flatMap_cons] at same
    have sizes := congrArg List.length same
    rw [List.length_append, List.length_append] at sizes
    have first : f a = g a := by
      rcases parts a List.mem_cons_self with kept | less
      · exact kept
      · omega
    rw [first] at same
    exact List.forall_mem_cons.mpr ⟨first, ih tail (List.append_cancel_left same)⟩

section Reported

/-- A step on the message leaves what is reported of the body. -/
theorem onMessage_body {α : Type} (m : MessageStep d α) : Step.Keeps body (onMessage m) := fun _ => rfl

/-- The header reports no body. -/
theorem parseHeader_body (isRequest : Bool) (text : Octets) :
    Step.Keeps body (parseHeader (d := d) isRequest text) := by
  unfold parseHeader
  intro p
  rw [Step.run_get_bind]
  -- The header is waited for, refused or taken.
  split
  · rfl
  · split
    · rfl
    · rfl
    · exact Step.keeps_bind (onMessage_body _) (fun _ => Step.keeps_pure _) _

/-- The last chunk reports no body. -/
theorem parseLastChunk_body (first : Octets) (n offset : Nat) :
    Step.Keeps body (parseLastChunk (d := d) first n offset) := by
  unfold parseLastChunk
  intro p
  rw [Step.run_get_bind]
  split
  · rfl
  · split <;> rfl
  · exact Step.keeps_bind (onMessage_body _) (fun _ => Step.keeps_pure _) _

/-- The head of a chunk reports no body. -/
theorem parseChunkHeader_body (first : Octets) :
    Step.Keeps body (parseChunkHeader (d := d) first) := by
  have size : ∀ p term, Step.Keeps body (parseChunkSize (d := d) first p term) := by
    intro p term
    unfold parseChunkSize
    repeat' first
      | with_reducible first
        | exact Step.keeps_lift _
        | exact Step.keeps_pure _
        | exact onMessage_body _
        | exact parseLastChunk_body _ _ _
        | exact Step.keeps_modify fun _ => rfl
      | refine Step.keeps_bind ?_ fun _ => ?_
      | split
      | exact Step.keeps_stop _
  have line : ∀ p, Step.Keeps body (parseChunkLine (d := d) first p) := by
    intro p self
    unfold parseChunkLine
    rw [Step.run_get_bind]
    split
    · split
      · rfl
      · split
        · rfl
        · rfl
        · exact size _ _ _
    · refine Step.keeps_bind (Step.keeps_lift _) (fun _ => ?_) _
      split
      · exact parseLastChunk_body _ _ _
      · exact Step.keeps_stop _
  -- The end of the chunk before may have to be taken first.
  intro p
  unfold parseChunkHeader
  rw [Step.run_get_bind]
  split
  · split
    · rfl
    · refine Step.keeps_bind (Step.keeps_lift _) (fun _ => ?_) _
      split
      · exact line _
      · exact Step.keeps_stop _
  · exact line _ _

/-- Octets of a body are reported as far as they were taken. -/
theorem parseBody_body {text : Octets} {p q : BasicParser d} {n : Nat}
    (ran : Step.run (parseBody text) p = (.ok n, q)) : body q = text.take (min p.len_ text.length) := by
  unfold parseBody at ran
  rw [Step.run_get_bind] at ran
  dsimp only at ran
  rw [Step.run_set_bind] at ran
  -- What is done behind the report leaves it.
  have kept : Step.Keeps body (do
      onMessage (passData (text.take (min p.len_ text.length)))
      if (← get).len_ == 0 then do
        onMessage doComplete
        return min p.len_ text.length
      else return min p.len_ text.length : ParserStep d Nat) := by
    refine Step.keeps_bind (onMessage_body _) fun _ => Step.keeps_bind Step.keeps_get fun self => ?_
    split
    · exact Step.keeps_bind (onMessage_body _) fun _ => Step.keeps_pure _
    · exact Step.keeps_pure _
  have same := kept { p with body_ := text.take (min p.len_ text.length) }
  rw [ran] at same
  exact same

/-- Octets of a chunk are reported as far as they were taken, but for those that end it. -/
theorem parseChunkBody_body {text : Octets} {p q : BasicParser d} {n : Nat}
    (ran : Step.run (parseChunkBody text) p = (.ok n, q)) :
    body q = if p.len_ ≤ text.length then [] else text.take (min p.len_ text.length) := by
  unfold parseChunkBody at ran
  rw [Step.run_get_bind] at ran
  dsimp only at ran
  rw [Step.run_set_bind] at ran
  obtain ⟨_, m, passed, ran⟩ := onMessage_bind_ok ran
  obtain ⟨_, v, called, counted⟩ := Step.bind_ok passed
  -- Telling of the data touches the derived class alone.
  have only := invoke_spec (.on_data (text.take (min p.len_ text.length))) p.toMessage
  rw [called] at only
  cases counted
  dsimp only at only
  subst only
  rw [Step.run_get_bind] at ran
  simp only [List.length_take, beq_iff_eq] at ran
  -- Where the chunk is taken to its end, the report is cleared.
  split at ran
  · cases ran
    exact (if_pos (by omega)).symm
  · cases ran
    exact (if_neg (by omega)).symm

/-- Between writes, nothing of the body is reported in front of a header or chunk, and open data awaited. -/
structure Reports (p : BasicParser d) : Prop where
  blank : p.state_ = .header ∨ p.state_ = .chunk_header → body p = []
  awaits : Awaits p.toMessage

/-- What a write reports is what it took of the body, unless it ended a chunk. -/
structure ReportsTaken (w : Wrote d) : Prop where
  kept : ¬w.EndsChunk → body w.after = w.bodyOctets
  lost : w.EndsChunk → body w.after = [] ∧ w.bodyOctets ≠ []

/-- A write that takes nothing of the body reports nothing. -/
theorem reports_outside {w : Wrote d} (outside : inBody w.before.state_ = false)
    (nothing : body w.after = []) (awaits : Awaits w.after.toMessage) :
    Reports w.after ∧ ReportsTaken w := by
  have open_ : ¬w.EndsChunk := by
    intro ends
    rw [ends.1] at outside
    cases outside
  refine ⟨⟨fun _ => nothing, awaits⟩, fun _ => ?_, fun ends => absurd ends open_⟩
  rw [nothing, Wrote.bodyOctets, outside]
  rfl

/-- A write that reports what it took of the body, and stays in it or completes it. -/
theorem reports_inside {w : Wrote d} (inside : inBody w.before.state_ = true) (open_ : ¬w.EndsChunk)
    (told : body w.after = w.taken) (behind : inBody w.after.state_ = true ∨ w.after.state_ = .complete)
    (awaits : Awaits w.after.toMessage) : Reports w.after ∧ ReportsTaken w := by
  refine ⟨⟨fun headed => ?_, awaits⟩, fun _ => ?_, fun ends => absurd ends open_⟩
  · rcases headed with state | state <;> simp [state, inBody] at behind
  · rw [told, Wrote.bodyOctets, inside]
    rfl

/-- Each write reports what it should, unless it ends a chunk. -/
theorem reports_step {isRequest : Bool} {w : Wrote d} (ran : w.Ran isRequest false)
    (before : Reports w.before) : Reports w.after ∧ ReportsTaken w := by
  have wrote : Step.run (write isRequest w.text) w.before = (.ok w.n, w.after) := ran.ran
  have seen := rescan_of_write ran.remembers wrote
  -- A body or chunk that is left open still has octets to come.
  have awaits := rescan_awaits seen
  unfold write at wrote
  rw [Step.run_get_bind] at wrote
  unfold rescan at seen
  rw [Step.run_get_bind] at seen
  cases state : w.before.state_ with
  | header =>
    rw [state] at wrote
    obtain ⟨_, s, _, rest⟩ := onMessage_bind_ok wrote
    have kept := parseHeader_body isRequest w.text { w.before with toMessage := s }
    rw [rest] at kept
    exact reports_outside (by rw [state]; rfl) (kept.trans (before.blank (.inl state))) awaits
  | chunk_header =>
    rw [state] at wrote
    obtain ⟨_, s, _, rest⟩ := onMessage_bind_ok wrote
    have kept := parseChunkHeader_body w.text { w.before with toMessage := s }
    rw [rest] at kept
    exact reports_outside (by rw [state]; rfl) (kept.trans (before.blank (.inr state))) awaits
  | body =>
    rw [state] at wrote seen
    obtain ⟨_, s, begun, rest⟩ := onMessage_bind_ok wrote
    obtain ⟨_, s', begun', data⟩ := Step.bind_ok seen
    cases begun.symm.trans begun'
    -- The report and the count of the octets come from two views of one write.
    have told := parseBody_body rest
    obtain ⟨size, finished⟩ := dataStep_ok data
    refine reports_inside (by rw [state]; rfl) (fun ends => ?_) ?_ ?_ awaits
    · rw [ends.1] at state
      cases state
    · rw [Wrote.taken, size]
      exact told
    · rcases finished with ⟨_, ended⟩ | ⟨_, left⟩
      · exact .inr (doComplete_state ended)
      · refine .inl ?_
        rw [left, maybeDoBody_spec begun, Message.take, state]
        rfl
  | body_to_eof =>
    rw [state] at wrote seen
    obtain ⟨_, s, begun, rest⟩ := onMessage_bind_ok wrote
    unfold parseBodyToEof at rest
    rw [Step.run_modify_bind] at rest
    obtain ⟨_, t, called, rest⟩ := onMessage_bind_ok rest
    have only := invoke_spec (.on_data w.text) s
    rw [called] at only
    dsimp only at only
    rw [Step.run_pure, Prod.mk.injEq, Except.ok.injEq] at rest
    obtain ⟨size, after⟩ := rest
    refine reports_inside (by rw [state]; rfl) (fun ends => ?_) ?_ ?_ awaits
    · rw [ends.1] at state
      cases state
    · rw [Wrote.taken, ← size, List.take_length, ← after]
      rfl
    · refine .inl ?_
      rw [← after]
      dsimp only
      rw [only, maybeDoBody_spec begun, state]
      rfl
  | chunk_body =>
    rw [state] at wrote seen
    have told := parseChunkBody_body wrote
    obtain ⟨_, _, begun, data⟩ := Step.bind_ok seen
    cases begun
    obtain ⟨size, finished⟩ := dataStep_ok data
    by_cases ends : w.before.len_ ≤ w.text.length
    · -- What ends the chunk is not reported, and it is an octet at least.
      rw [if_pos ends] at told
      -- A chunk that is open has some octets left.
      have some_ := before.awaits (.inr state)
      refine ⟨⟨fun _ => told, awaits⟩, fun open_ => absurd ⟨state, ends⟩ open_, fun _ => ⟨told, ?_⟩⟩
      have length : w.bodyOctets.length = w.before.len_ := by
        have inside : inBody w.before.state_ = true := by
          rw [state]
          rfl
        rw [Wrote.bodyOctets, if_pos inside, Wrote.taken, List.length_take, size]
        omega
      exact List.ne_nil_of_length_pos (by omega)
    · rw [if_neg ends] at told
      refine reports_inside (by rw [state]; rfl) (fun ended => ends ended.2) ?_ ?_ awaits
      · rw [Wrote.taken, size]
        exact told
      · rcases finished with ⟨less, _⟩ | ⟨_, left⟩
        · exact absurd less ends
        · refine .inl ?_
          rw [left, Message.take, state]
          rfl
  | complete => exact absurd state ran.ready

/-- A new parser has nothing to report. -/
theorem reports_opened (skipsBody : Bool) (len x : Nat) (impl : d.State) :
    Reports (opened skipsBody len x impl) := by
  cases skipsBody <;> exact ⟨fun _ => rfl, awaits_other nofun nofun⟩

/--
In every run, the octets that are reported after each write are those that were taken of the body.

This holds just where no write reaches the end of a chunk.
-/
theorem body_reported_iff {isRequest skipsBody : Bool} {len x : Nat} {impl : d.State}
    {l : List (Wrote d)} {s : BasicParser d × Octets}
    (writes : WriteRun isRequest false skipsBody len x impl l s) :
    l.flatMap (fun w => body w.after) = l.flatMap Wrote.bodyOctets ↔ ∀ w ∈ l, ¬w.EndsChunk := by
  -- Along the run, the parser reports nothing in front of a header or chunk.
  have each : ∀ w ∈ l, ReportsTaken w := by
    refine Run.History.each (P := fun s => Remembers s.1 s.2 ∧ Reports s.1) writes
      ⟨opened_remembers skipsBody len x impl, reports_opened skipsBody len x impl⟩ ?_
    rintro s w t ⟨remembers, reports⟩ stepped
    have ran := writeRunStep_ran remembers stepped
    obtain ⟨_, ⟨before, _⟩ | ⟨direct, _⟩, _, rfl⟩ := stepped
    · obtain ⟨after, taken⟩ := reports_step ran (before ▸ reports)
      exact ⟨⟨ran.left, after⟩, taken⟩
    · cases direct
  -- Each write reports what it took or less.
  rw [flatMap_eq_iff fun w there => ?_]
  · refine forall₂_congr fun w there => ⟨fun same ends => ?_, (each w there).kept⟩
    obtain ⟨nothing, some_⟩ := (each w there).lost ends
    exact some_ (same.symm.trans nothing)
  · by_cases ends : w.EndsChunk
    · obtain ⟨nothing, some_⟩ := (each w there).lost ends
      refine .inr ?_
      rw [nothing]
      exact List.length_pos_iff.mpr some_
    · exact .inl ((each w there).kept ends)

end Reported

/-- The header of a request with a body of two octets, and the first one of them. -/
def halfBody : Octets := octets "GET / HTTP/1.1\r\nContent-Length:2\r\n\r\na"

/-- Of a body that comes in two pieces, both are reported. -/
theorem body_reported_halves : ∃ (l : List (Wrote accepting)) (s : BasicParser accepting × Octets),
    WriteRun true false false 0 0 () l s ∧ s.1.state_ = .complete ∧
      (l.flatMap (fun w => body w.after) = l.flatMap Wrote.bodyOctets ↔ ∀ w ∈ l, ¬w.EndsChunk) := by
  obtain ⟨run, made⟩ : ∃ run, run = writeAll true (opened (d := accepting) false 0 0 ()) []
    [halfBody, [], octets "b"] := ⟨_, rfl⟩
  have writes := writes_all (d := accepting) true () [halfBody, [], octets "b"]
  rw [← made] at writes
  refine ⟨run.1, run.2, writes, ?_, body_reported_iff writes⟩
  rw [made]
  decide +kernel

/-- The head of a chunk of one octet behind a header, and the octet. -/
def oneChunk : Octets := chunkedHeader ++ octets "1\r\na"

/-- What ends a chunk is not reported. -/
theorem body_unreported : ¬∀ (isRequest skipsBody : Bool) (len x : Nat) (impl : accepting.State)
    (l : List (Wrote accepting)) (s : BasicParser accepting × Octets),
    WriteRun isRequest false skipsBody len x impl l s →
      l.flatMap (fun w => body w.after) = l.flatMap Wrote.bodyOctets := by
  intro reported
  obtain ⟨run, made⟩ : ∃ run, run = writeAll false (opened (d := accepting) false 0 0 ()) []
    [oneChunk, [], []] := ⟨_, rfl⟩
  have writes := writes_all (d := accepting) false () [oneChunk, [], []]
  rw [← made] at writes
  have same := reported _ _ _ _ _ _ _ writes
  -- The third write takes the only octet of the body.
  have taken : run.1.flatMap Wrote.bodyOctets = octets "a" ∧ run.1.flatMap (fun w => body w.after) = [] := by
    rw [made]
    decide +kernel
  rw [taken.1, taken.2] at same
  cases same

end Beast.Http
