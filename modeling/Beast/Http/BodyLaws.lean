import Beast.Http.ChunkLaws
import Beast.Http.FieldLaws
import Beast.Http.MessageParser

/-! Where the octets of a body lead, by the way the header says that it ends. -/

namespace Beast.Http

section Octets

variable {d : Derived} {m : Message d} {isRequest : Bool}

/-- An announcement leaves what is known of the body. -/
theorem begun_framing (m : Message d) : m.begun.framing = m.framing := by
  unfold Message.begun
  split <;> rfl

/-- A body of a length that was said is passed on, and nothing of what follows it. -/
theorem body_leaves (obliging : Obliging d) (body : m.state_ = .body) {data : Octets}
    (size : m.len_ = data.length) (some_ : data ≠ []) (it : Octets) :
    ∃ u, Leaves isRequest (data ++ it) m (.ok ()) it u ∧ u.state_ = .complete ∧
      u.impl = tells d m.begun.impl [.on_data data, .on_complete] := by
  have begun : Step.run (beginStep (data ++ it) .body) m = (.ok (), m.begun) :=
    run_maybeDoBody obliging m
  have length : m.begun.len_ = data.length := (congrArg Framing.len (begun_framing m)).trans size
  have all : min m.begun.len_ (data ++ it).length = data.length := by
    rw [length, List.length_append]
    omega
  have passed : Step.run (passData data) m.begun = (.ok (),
      { m.begun with len_ := 0, impl := (d.call m.begun.impl (.on_data data)).1 }) := by
    unfold passData
    rw [Step.run_bind_ok (run_invoke obliging _ _), Step.run_modify]
    dsimp only
    rw [length, Nat.sub_self]
  have step : ∃ u, Step.run (rescan isRequest (data ++ it)) m = (.ok data.length, u) ∧
      u.state_ = .complete ∧ u.impl = tells d m.begun.impl [.on_data data, .on_complete] := by
    refine ⟨{ m.begun with
      len_ := 0
      state_ := .complete
      impl := tells d m.begun.impl [.on_data data, .on_complete] }, ?_, rfl, rfl⟩
    unfold rescan
    rw [Step.run_get_bind, body, Step.run_bind_ok begun]
    unfold bufferStep dataStep
    rw [Step.run_get_bind, all]
    dsimp only
    rw [List.take_left, Step.run_bind_ok passed, Step.run_get_bind]
    dsimp only
    rw [if_pos (beq_self_eq_true 0), Step.run_bind_ok (run_doComplete obliging _)]
    rfl
  obtain ⟨u, taken, complete, calls⟩ := step
  refine ⟨u, .step (by simp [body]) (by simp [some_]) (List.length_pos_iff.mpr some_) taken ?_,
    complete, calls⟩
  rw [List.drop_left]
  exact .complete complete

/-- A body that ends with the stream is passed on as a whole. -/
theorem toEof_leaves (obliging : Obliging d) (toEof : m.state_ = .body_to_eof) (data : Octets) :
    ∃ u, Leaves isRequest data m (.ok ()) [] u ∧ u.state_ = .body_to_eof ∧
      u.framing = m.framing ∧
      u.impl = if data = [] then m.impl else tells d m.begun.impl [.on_data data] := by
  by_cases none : data = []
  · subst none
    exact ⟨m, .empty, toEof, rfl, by rw [if_pos rfl]⟩
  have begun : Step.run (beginStep data .body_to_eof) m = (.ok (), m.begun) :=
    run_maybeDoBody obliging m
  have step : ∃ u, Step.run (rescan isRequest data) m = (.ok data.length, u) ∧
      u.state_ = .body_to_eof ∧ u.framing = m.framing ∧
      u.impl = tells d m.begun.impl [.on_data data] := by
    refine ⟨{ m.begun with impl := tells d m.begun.impl [.on_data data] }, ?_,
      (begun_same m).1.trans toEof, begun_framing m, rfl⟩
    unfold rescan
    rw [Step.run_get_bind, toEof, Step.run_bind_ok begun]
    unfold bufferStep toEofStep
    rw [Step.run_bind_ok (run_invoke obliging _ _)]
    rfl
  obtain ⟨u, taken, state, framing, calls⟩ := step
  refine ⟨u, .step (by simp [toEof]) none (List.length_pos_iff.mpr none) taken ?_, state, framing, ?_⟩
  · rw [List.drop_length]
    exact .empty
  · rw [if_neg none, calls]

end Octets

section Chunks

variable {body : Octets} {m u : Message messageParser} {isRequest : Bool}

/-- A message in front of a chunk, or behind the last one, with a body so far. -/
def ChunksTold (body : Octets) (m : Message messageParser) : Prop :=
  (m.state_ = .chunk_header ∨ m.state_ = .chunk_body ∨ m.state_ = .complete) ∧
    m.f_.flagChunked = true ∧ Parsed.body m.impl = body

/-- A call that passes on no data adds nothing to the body. -/
theorem invoke_chunksTold {c : Callback} (other : ∀ s, c ≠ .on_data s) :
    Step.Preserves (ChunksTold body) (invoke (d := messageParser) c) := by
  rintro m ⟨state, chunked, told⟩
  refine ⟨state, chunked, ?_⟩
  rw [← told]
  cases c with
  | on_data s => exact absurd rfl (other s)
  | _ => rfl

/-- The fields of a trailer add nothing to the body. -/
theorem parseFields_chunksTold (fuel : Nat) (it : Octets) :
    Step.Preserves (ChunksTold body) (parseFields (d := messageParser) fuel it) :=
  parseFields_preserves (fun _ _ _ framed told => ⟨told.1, framed.chunked told.2.1, told.2.2⟩)
    (fun _ _ => invoke_chunksTold fun _ same => by cases same) fuel it

theorem setFlags_chunksTold {f : Flags → Flags} (same : ∀ g, (f g).flagChunked = g.flagChunked) :
    Step.Preserves (ChunksTold body) (setFlags (d := messageParser) f) :=
  Step.preserves_modify fun m told => ⟨told.1, (same m.f_).trans told.2.1, told.2.2⟩

/-- The end of the message adds nothing to the body. -/
theorem doComplete_chunksTold : Step.Preserves (ChunksTold body) (doComplete (d := messageParser)) :=
  Step.preserves_bind (invoke_chunksTold fun _ same => by cases same) fun _ =>
    Step.preserves_modify fun _ told => ⟨.inr (.inr rfl), told.2⟩

/-- The line of a chunk adds nothing to the body. -/
theorem openChunk_chunksTold (p it : Octets) (v term : Nat) :
    Step.Preserves (ChunksTold body) (openChunk (d := messageParser) p it v term) := by
  unfold openChunk
  repeat' first
    | with_reducible first
      | exact Step.preserves_pure _
      | exact lift_preserves _
      | exact fail_preserves _
      | exact invoke_chunksTold fun _ same => by cases same
    | exact Step.preserves_modify fun _ told => ⟨told.1, told.2⟩
    | exact Step.preserves_modify fun _ told => ⟨.inr (.inl rfl), told.2⟩
    | refine Step.preserves_bind ?_ fun _ => ?_
    | split

/-- The trailer adds nothing to the body. -/
theorem parseTrailer_chunksTold (block : Octets) (offset x : Nat) :
    Step.Preserves (ChunksTold body) (parseTrailer (d := messageParser) block offset x) := by
  unfold parseTrailer
  repeat' first
    | with_reducible first
      | exact Step.preserves_pure _
      | exact lift_preserves _
      | exact fail_preserves _
      | exact invoke_chunksTold fun _ same => by cases same
      | exact parseFields_chunksTold _ _
      | exact doComplete_chunksTold
    | exact Step.preserves_modify fun _ told => ⟨told.1, told.2⟩
    | refine Step.preserves_bind ?_ fun _ => ?_
    | split

/-- What stands between the octets of two chunks adds nothing to the body. -/
theorem chunkStep_chunksTold (text : Octets) :
    Step.Preserves (ChunksTold body) (chunkStep (d := messageParser) text) := by
  unfold chunkStep chunkLineStep chunkSizeStep lastChunkStep
  repeat' first
    | with_reducible first
      | exact Step.preserves_pure _
      | exact Step.preserves_get
      | exact lift_preserves _
      | exact fail_preserves _
      | exact openChunk_chunksTold _ _ _ _
      | exact parseTrailer_chunksTold _ _ _
      | exact setFlags_chunksTold fun _ => rfl
    | refine Step.preserves_bind ?_ fun _ => ?_
    | split

/-- The announcement of the body adds nothing to it. -/
theorem maybeDoBody_chunksTold :
    Step.Preserves (ChunksTold body) (maybeDoBodyIndirect (d := messageParser)) := by
  unfold maybeDoBodyIndirect
  repeat' first
    | with_reducible first
      | exact Step.preserves_pure _
      | exact Step.preserves_get
      | exact invoke_chunksTold fun _ same => by cases same
      | exact setFlags_chunksTold fun _ => rfl
    | refine Step.preserves_bind ?_ fun _ => ?_
    | split

/-- The octets of a chunk are added to the body, and the message goes on behind them. -/
theorem dataStep_chunksTold {text : Octets} {n : Nat} (told : ChunksTold body m)
    (ran : Step.run (dataStep (modify fun self => { self with state_ := .chunk_header }) text) m =
      (.ok n, u)) (inside : m.state_ = .chunk_body) :
    u.state_ ≠ .complete ∧ n ≤ text.length ∧ ∃ more, more.length = n ∧ ChunksTold (body ++ more) u := by
  have passed : Step.run (passData (text.take (min m.len_ text.length))) m = (.ok (),
      { m with
        len_ := m.len_ - (text.take (min m.len_ text.length)).length
        impl := (messageParser.call m.impl (.on_data (text.take (min m.len_ text.length)))).1 }) := by
    unfold passData
    rw [Step.run_bind_ok (run_invoke messageParser_obliging _ _), Step.run_modify]
  have size : (text.take (min m.len_ text.length)).length = min m.len_ text.length := by
    rw [List.length_take]
    omega
  have grown : Parsed.body (messageParser.call m.impl
      (.on_data (text.take (min m.len_ text.length)))).1 =
      body ++ text.take (min m.len_ text.length) := by
    rw [← told.2.2]
    rfl
  unfold dataStep at ran
  rw [Step.run_get_bind, Step.run_bind_ok passed, Step.run_get_bind] at ran
  split at ran
  · cases ran
    exact ⟨nofun, Nat.min_le_right _ _, _, size, .inl rfl, told.2.1, grown⟩
  · cases ran
    exact ⟨by simp [inside], Nat.min_le_right _ _, _, size, told.1, told.2.1, grown⟩

/-- Chunks that are told to the end leave less of a body than there were octets. -/
theorem chunks_short {text left : Octets} {r : Except Halt Unit}
    (leaves : Leaves isRequest text m r left u) (ok : r = .ok ()) (all : left = [])
    (told : ChunksTold body m) (open_ : m.state_ ≠ .complete) : ∃ body', ChunksTold body' u ∧
      (u.state_ = .complete → body'.length < body.length + text.length) := by
  induction leaves generalizing body with
  | complete ended => exact absurd ended open_
  | empty => exact ⟨body, told, fun ended => absurd ended open_⟩
  | stop => cases ok
  | wait _ some_ => exact absurd all some_
  | @step text left s t u n r _ some_ took ran rest ih =>
    have size : 0 < text.length := List.length_pos_iff.mpr some_
    have shorter : (text.drop n).length = text.length - n := List.length_drop
    unfold rescan at ran
    rw [Step.run_get_bind] at ran
    rcases told.1 with header | inside | ended
    · -- In front of a chunk some octets go, and none of them to the body.
      rw [header] at ran
      have kept : ChunksTold body t := (Step.wp_run ran).mp (Step.preserves_bind maybeDoBody_chunksTold
        (fun _ => chunkStep_chunksTold text) s told)
      by_cases ended : t.state_ = .complete
      · obtain ⟨-, -, rfl⟩ := rest.unique (.complete ended)
        exact ⟨body, kept, fun _ => by omega⟩
      · obtain ⟨body', told', less⟩ := ih ok all kept ended
        exact ⟨body', told', fun complete => by have := less complete; omega⟩
    · rw [inside] at ran
      obtain ⟨goes, within, more, length, kept⟩ := dataStep_chunksTold told ran inside
      obtain ⟨body', told', less⟩ := ih ok all kept goes
      refine ⟨body', told', fun complete => ?_⟩
      have below := less complete
      rw [List.length_append] at below
      omega
    · exact absurd ended open_

end Chunks

end Beast.Http
