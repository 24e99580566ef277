import Beast.Http.ChunkLaws
import Beast.Http.Write

/-! What a call and an operation to write a message send, for a writer with a list of pieces. -/

namespace Beast.Http

variable {W : BodyWriter} {s : WritePreparation W} {pieces : List (List Octets)} {last : Bool}

/--
The pieces that a writer provides, and whether it says with the last of them that it is the last.

It may say so afterwards, when it is asked once more.
-/
inductive Yields (W : BodyWriter) : W.State → List (List Octets) → Bool → Prop
  | with_last {w w' : W.State} {sequence : List Octets}
      (provides : W.write w = (w', .buffers sequence true)) : Yields W w [sequence] true
  | after {w w' : W.State} (provides : W.write w = (w', .nothing)) : Yields W w [] false
  | more {w w' : W.State} {sequence : List Octets} {pieces : List (List Octets)} {last : Bool}
      (provides : W.write w = (w', .buffers sequence false)) (rest : Yields W w' pieces last) :
      Yields W w (sequence :: pieces) last

/-- What a piece is sent as. -/
def sentAs (chunked : Bool) (sequence : List Octets) : Octets :=
  if chunked then chunkOf sequence else sequence.flatten

/-- What pieces are sent as, one after another. -/
def sentPieces (chunked : Bool) (pieces : List (List Octets)) : Octets :=
  pieces.flatMap (sentAs chunked)

/-- What is sent behind the last piece. -/
def sentLast (chunked : Bool) : Octets := if chunked then chunkEncodeFinal else []

/-- A message behind octets that were sent. -/
def WritePreparation.sending (self : WritePreparation W) (o : Octets) : WritePreparation W :=
  { self with stream := { self.stream with written := self.stream.written ++ o } }

/-- A stream without a limit takes all octets. -/
theorem run_send (unlimited : s.stream.limit = none) (o : Octets) :
    Step.run (send o) s = (.ok (), s.sending o) := by
  obtain ⟨msg, w, b, chunked, close, ⟨written, limit⟩⟩ := s
  obtain rfl : limit = none := unlimited
  rfl

/-- What a writer provides is what the step returns. -/
theorem run_onWrite {s : WritePreparation W} {w : W.State} {provides : Provides} (asked : W.write s.w = (w, provides)) :
    Step.run onWrite s = (.ok provides, { s with w }) := by
  unfold Step.run onWrite
  rw [asked]

/-- A piece is sent behind what is left of the header. -/
theorem run_encoded {sequence : List Octets} (fits : sequence.flatten.length < 2 ^ 64) :
    Step.run (encoded sequence) s = (.ok (s.b ++ sentAs s.chunked sequence), s) := by
  unfold encoded sentAs
  rw [Step.run_get_bind]
  split
  · rw [(chunkEncode_ok fits).1]
    rfl
  · rfl

/-- A piece that is provided is sent behind what is left of the header. -/
theorem run_sendPiece {α : Type} {f : Unit → WriteStep W α} {sequence : List Octets}
    (fits : sequence.flatten.length < 2 ^ 64) (unlimited : s.stream.limit = none) :
    Step.run (encoded sequence >>= fun o => send o >>= f) s =
      Step.run (f ()) (s.sending (s.b ++ sentAs s.chunked sequence)) := by
  rw [Step.run_bind_ok (run_encoded fits), Step.run_bind_ok (run_send unlimited _)]

/-- What is reported once all is sent. -/
def closing (close : Bool) : Except Halt Unit := if close then .error (.ec .eof) else .ok ()

/-- Where a message stands in front of the rest of its body. -/
structure HeaderSent (s : WritePreparation W) : Prop where
  unlimited : s.stream.limit = none
  header : s.b = []

/-- Where a call is done with the pieces, it sends what comes behind them. -/
theorem writes_final (unlimited : s.stream.limit = none) :
    ∃ t, Machine.Ends (stepOf writeMessage) (.inl (.final, s)) (closing s.close, t) ∧
      t.stream.written = s.stream.written ++ sentLast s.chunked := by
  have ends : ∀ t : WritePreparation W, Machine.Ends (stepOf writeMessage) (.inl (.close, t))
      (closing t.close, t) := by
    intro t
    refine .step ?_
    have closed : stepOf writeMessage (.close, t) = .inr (closing t.close, t) := by
      unfold stepOf writeMessage finish closing
      cases close : t.close <;> simp [close, Step.run_bind]
    rw [closed]
    exact .result _
  by_cases chunked : s.chunked = true
  · refine ⟨s.sending chunkEncodeFinal, .step ?_, ?_⟩
    · have stepped : stepOf writeMessage (.final, s) =
          .inl (.close, s.sending chunkEncodeFinal) := by
        unfold stepOf writeMessage
        rw [Step.run_get_bind, if_pos chunked, Step.run_bind_ok (run_send unlimited _)]
        rfl
      rw [stepped]
      exact ends _
    · rw [sentLast, if_pos chunked]
      rfl
  · refine ⟨s, .step ?_, ?_⟩
    · have stepped : stepOf writeMessage (.final, s) = .inl (.close, s) := by
        unfold stepOf writeMessage
        rw [Step.run_get_bind, if_neg chunked]
        rfl
      rw [stepped]
      exact ends _
    · rw [sentLast, if_neg chunked, List.append_nil]

/-- A call sends the rest of the pieces, whenever the writer says which one is the last. -/
theorem writes_body {w : W.State} (yields : Yields W w pieces last)
    (fits : ∀ b ∈ pieces, b.flatten.length < 2 ^ 64) (same : s.w = w) (sent : HeaderSent s) :
    ∃ t, Machine.Ends (stepOf writeMessage) (.inl (.body, s)) (closing s.close, t) ∧
      t.stream.written =
        s.stream.written ++ (sentPieces s.chunked pieces ++ sentLast s.chunked) := by
  induction yields generalizing s with
  | @with_last w w' sequence provides =>
    have stepped : stepOf writeMessage (.body, s) =
        .inl (.final, { s with w := w' }.sending (sentAs s.chunked sequence)) := by
      have asked := run_onWrite (same ▸ provides)
      have fit := fits sequence List.mem_cons_self
      unfold stepOf writeMessage
      rw [Step.run_bind_ok asked]
      dsimp only
      rw [run_sendPiece (s := { s with w := w' }) fit sent.unlimited]
      simp only [sent.header, List.nil_append]
      rfl
    obtain ⟨t, ends, written⟩ := writes_final
      (s := { s with w := w' }.sending (sentAs s.chunked sequence)) sent.unlimited
    refine ⟨t, .step (by rw [stepped]; exact ends), ?_⟩
    rw [written]
    simp only [WritePreparation.sending, sentPieces, List.flatMap_cons, List.flatMap_nil,
      List.append_nil, List.append_assoc]
  | @after w w' provides =>
    have stepped : stepOf writeMessage (.body, s) = .inl (.final, { s with w := w' }) := by
      have asked := run_onWrite (same ▸ provides)
      unfold stepOf writeMessage
      rw [Step.run_bind_ok asked]
      rfl
    obtain ⟨t, ends, written⟩ := writes_final (s := { s with w := w' }) sent.unlimited
    exact ⟨t, .step (by rw [stepped]; exact ends), written⟩
  | @more w w' sequence pieces last provides rest ih =>
    have stepped : stepOf writeMessage (.body, s) =
        .inl (.body, { s with w := w' }.sending (sentAs s.chunked sequence)) := by
      have asked := run_onWrite (same ▸ provides)
      have fit := fits sequence List.mem_cons_self
      unfold stepOf writeMessage
      rw [Step.run_bind_ok asked]
      dsimp only
      rw [run_sendPiece (s := { s with w := w' }) fit sent.unlimited]
      simp only [sent.header, List.nil_append]
      rfl
    obtain ⟨t, ends, written⟩ := ih (fun b there => fits b (List.mem_cons_of_mem _ there))
      (s := { s with w := w' }.sending (sentAs s.chunked sequence)) rfl
      ⟨sent.unlimited, sent.header⟩
    refine ⟨t, .step (by rw [stepped]; exact ends), ?_⟩
    rw [written]
    simp only [WritePreparation.sending, sentPieces, List.flatMap_cons, List.append_assoc]

/-- A message whose writer is initialized, in front of its header. -/
def initialized (msg : Header) (w₀ w : W.State) : WritePreparation W :=
  { writePreparation msg w₀ {} with w, b := writeHeader msg }

/--
A call sends the header, the pieces and what comes behind them.

The header goes out with the first piece, and is lost where there is none.
-/
theorem writes_message {msg : Header} {w₀ w : W.State} (init : W.init w₀ = (w, none))
    (yields : Yields W w pieces last) (fits : ∀ b ∈ pieces, b.flatten.length < 2 ^ 64) :
    ∃ t, Writes (writePreparation msg w₀ {})
        (closing (initialized msg w₀ w).close, t) ∧
      t.stream.written = (if pieces = [] then [] else writeHeader msg) ++
        (sentPieces (initialized msg w₀ w).chunked pieces ++
          sentLast (initialized msg w₀ w).chunked) := by
  have begun : stepOf writeMessage (.init, writePreparation msg w₀ {}) =
      .inl (.first, initialized msg w₀ w) := by
    have first : Step.run WritePreparation.init (writePreparation msg w₀ {}) =
        (.ok (), initialized msg w₀ w) := by
      unfold WritePreparation.init
      rw [Step.run_get_bind]
      dsimp only [writePreparation]
      rw [init]
      rfl
    unfold stepOf writeMessage
    rw [Step.run_bind_ok first]
    rfl
  have started : ∀ {r : Except Halt Unit × WritePreparation W},
      Machine.Ends (stepOf writeMessage) (stepOf writeMessage (.first, initialized msg w₀ w)) r →
      Writes (writePreparation msg w₀ {}) r := by
    intro r ends
    exact .step (by rw [begun]; exact .step ends)
  cases yields with
  | @with_last _ w' sequence provides =>
    have asked := run_onWrite (s := initialized msg w₀ w) provides
    have fit := fits sequence List.mem_cons_self
    have stepped : stepOf writeMessage (.first, initialized msg w₀ w) = .inl (.final,
        { initialized msg w₀ w with
          w := w'
          b := []
          stream := { written := writeHeader msg ++ sentAs (initialized msg w₀ w).chunked sequence } }) := by
      unfold stepOf writeMessage
      rw [Step.run_bind_ok asked]
      dsimp only
      rw [run_sendPiece (s := { initialized msg w₀ w with w := w' }) fit rfl]
      rfl
    obtain ⟨t, ends, written⟩ := @writes_final W { initialized msg w₀ w with
      w := w'
      b := []
      stream := { written := writeHeader msg ++ sentAs (initialized msg w₀ w).chunked sequence } } rfl
    refine ⟨t, started (by rw [stepped]; exact ends), ?_⟩
    rw [written, if_neg (by simp)]
    simp only [sentPieces, List.flatMap_cons, List.flatMap_nil, List.append_nil, List.append_assoc]
  | @after _ w' provides =>
    have asked := run_onWrite (s := initialized msg w₀ w) provides
    have stepped : stepOf writeMessage (.first, initialized msg w₀ w) = .inl (.final,
        { initialized msg w₀ w with w := w', b := [] }) := by
      unfold stepOf writeMessage
      rw [Step.run_bind_ok asked]
      rfl
    obtain ⟨t, ends, written⟩ := @writes_final W { initialized msg w₀ w with w := w', b := [] } rfl
    refine ⟨t, started (by rw [stepped]; exact ends), ?_⟩
    rw [written, if_pos rfl]
    rfl
  | @more _ w' sequence pieces _ provides rest =>
    have asked := run_onWrite (s := initialized msg w₀ w) provides
    have fit := fits sequence List.mem_cons_self
    have stepped : stepOf writeMessage (.first, initialized msg w₀ w) = .inl (.body,
        { initialized msg w₀ w with
          w := w'
          b := []
          stream := { written := writeHeader msg ++ sentAs (initialized msg w₀ w).chunked sequence } }) := by
      unfold stepOf writeMessage
      rw [Step.run_bind_ok asked]
      dsimp only
      rw [run_sendPiece (s := { initialized msg w₀ w with w := w' }) fit rfl]
      rfl
    obtain ⟨t, ends, written⟩ := @writes_body W { initialized msg w₀ w with
      w := w'
      b := []
      stream := { written := writeHeader msg ++ sentAs (initialized msg w₀ w).chunked sequence } } _ _ _
        rest (fun b there => fits b (List.mem_cons_of_mem _ there)) rfl ⟨rfl, rfl⟩
    refine ⟨t, started (by rw [stepped]; exact ends), ?_⟩
    rw [written, if_neg (by simp)]
    simp only [sentPieces, List.flatMap_cons, List.append_assoc]

/-- Where an operation is done with the pieces, it sends what comes behind them, and reports. -/
theorem op_final (unlimited : s.stream.limit = none) :
    ∃ t, Machine.Ends opStepWrite
        (.inl (.goes (if s.chunked then .final else .close), s)) (some (closing s.close), t) ∧
      t.stream.written = s.stream.written ++ sentLast s.chunked := by
  have ends : ∀ t : WritePreparation W, Machine.Ends opStepWrite (.inl (.goes .close, t))
      (some (closing t.close), t) := by
    intro t
    cases close : t.close with
    | true =>
      have closed : opStepWrite (.goes .close, t) = .inr (some (closing true), t) := by
        unfold opStepWrite writeOp finish
        simp [close, Step.run_bind, closing]
      exact .step (by rw [closed]; exact .result _)
    | false =>
      have closed : opStepWrite (.goes .close, t) = .inl (.calls, t) := by
        unfold opStepWrite writeOp finish
        simp [close, Step.run_bind]
      exact .step (by rw [closed]; exact .step (.result _))
  by_cases chunked : s.chunked = true
  · refine ⟨s.sending chunkEncodeFinal, ?_, ?_⟩
    · rw [if_pos chunked]
      refine .step (.step ?_)
      have sent : opStepWrite (.awaits chunkEncodeFinal .close, s) =
          .inl (.goes .close, s.sending chunkEncodeFinal) := by
        unfold opStepWrite
        dsimp only
        rw [run_send unlimited]
      rw [show opStepWrite (.awaits chunkEncodeFinal .close, s) = _ from sent]
      exact ends _
    · rw [sentLast, if_pos chunked]
      rfl
  · refine ⟨s, ?_, ?_⟩
    · rw [if_neg chunked]
      exact ends s
    · rw [sentLast, if_neg chunked, List.append_nil]

/-- What an operation comes to with its pieces: it is only resumed behind one that is the last. -/
def OpSends (s : WritePreparation W) (pieces : List (List Octets)) (last : Bool)
    (r : OpResult W) : Prop :=
  if last = true then r.1 = some (closing s.close) ∧ r.2.stream.written =
    s.stream.written ++ (s.b ++ (sentPieces s.chunked pieces ++ sentLast s.chunked))
  else r.1 = none

/-- An operation sends the pieces behind what is left of the header. -/
theorem op_pieces {w : W.State} {point : OpPoint} (asks : point = .first ∨ point = .body)
    (yields : Yields W w pieces last) (fits : ∀ b ∈ pieces, b.flatten.length < 2 ^ 64)
    (same : s.w = w) (unlimited : s.stream.limit = none) :
    ∃ r, Machine.Ends opStepWrite (.inl (.goes point, s)) r ∧ OpSends s pieces last r := by
  have writes : ∀ {s t : WritePreparation W} {next : Next}, Step.run opWrite s = (.ok next, t) →
      opStepWrite (.goes point, s) = .inl (next, t) := by
    intro s t next ran
    unfold opStepWrite
    rcases asks with rfl | rfl
    · simp only [writeOp, ran]
    · simp only [writeOp, ran]
  have sends : ∀ (u : WritePreparation W) (o : Octets) (next : OpPoint), u.stream.limit = none →
      opStepWrite (.awaits o next, u) = .inl (.goes next, u.sending o) := by
    intro u o next unlimited
    unfold opStepWrite
    dsimp only
    rw [run_send unlimited]
  induction yields generalizing s point with
  | @with_last w w' sequence provides =>
    have asked := run_onWrite (same ▸ provides)
    have encodes := run_encoded (s := { s with w := w' }) (fits sequence List.mem_cons_self)
    have stepped : opStepWrite (.goes point, s) = .inl (.awaits (s.b ++ sentAs s.chunked sequence)
        (if s.chunked then .final else .close), { s with w := w' }) := by
      apply writes
      unfold opWrite
      rw [Step.run_bind_ok asked]
      dsimp only
      rw [Step.run_bind_ok encodes]
      rfl
    obtain ⟨t, ends, written⟩ := op_final
      (s := { s with w := w' }.sending (s.b ++ sentAs s.chunked sequence)) unlimited
    have resumed := sends { s with w := w' } (s.b ++ sentAs s.chunked sequence)
      (if s.chunked then .final else .close) unlimited
    refine ⟨_, .step (by rw [stepped]; exact .step (by rw [resumed]; exact ends)), ?_⟩
    rw [OpSends, if_pos rfl]
    refine ⟨rfl, ?_⟩
    rw [written]
    simp only [WritePreparation.sending, sentPieces, List.flatMap_cons, List.flatMap_nil,
      List.append_nil, List.append_assoc]
  | @after w w' provides =>
    have asked := run_onWrite (same ▸ provides)
    have stepped : opStepWrite (.goes point, s) = .inl (.suspends, { s with w := w' }) := by
      apply writes
      unfold opWrite
      rw [Step.run_bind_ok asked]
      rfl
    -- Nothing was started that would resume the operation.
    exact ⟨_, .step (by rw [stepped]; exact .step (.result _)), by simp [OpSends]⟩
  | @more w w' sequence pieces last provides rest ih =>
    have asked := run_onWrite (same ▸ provides)
    have encodes := run_encoded (s := { s with w := w' }) (fits sequence List.mem_cons_self)
    have stepped : opStepWrite (.goes point, s) =
        .inl (.awaits (s.b ++ sentAs s.chunked sequence) .sent, { s with w := w' }) := by
      apply writes
      unfold opWrite
      rw [Step.run_bind_ok asked]
      dsimp only
      rw [Step.run_bind_ok encodes]
      rfl
    obtain ⟨r, ends, sent⟩ := @ih
      { { s with w := w' }.sending (s.b ++ sentAs s.chunked sequence) with b := [] } .body (.inr rfl)
      (fun b there => fits b (List.mem_cons_of_mem _ there)) rfl unlimited
      (fun ran => by simp only [opStepWrite, writeOp, ran])
    have resumed := sends { s with w := w' } (s.b ++ sentAs s.chunked sequence) .sent unlimited
    refine ⟨r, .step ?_, ?_⟩
    · rw [stepped]
      refine .step ?_
      rw [resumed]
      exact .step ends
    · unfold OpSends at sent ⊢
      split at sent
      · rename_i ending
        rw [if_pos ending]
        refine ⟨sent.1, ?_⟩
        rw [sent.2]
        simp only [WritePreparation.sending, sentPieces, List.flatMap_cons, List.append_assoc,
          List.nil_append]
      · rename_i ending
        rw [if_neg ending]
        exact sent

/-- An operation sends the header, the pieces and what comes behind them, if it is resumed. -/
theorem asyncWrites_message {msg : Header} {w₀ w : W.State} (init : W.init w₀ = (w, none))
    (yields : Yields W w pieces last) (fits : ∀ b ∈ pieces, b.flatten.length < 2 ^ 64) :
    ∃ r, AsyncWrites (writePreparation msg w₀ {}) r ∧
      OpSends (initialized msg w₀ w) pieces last r := by
  have begun : opStepWrite (.goes .init, writePreparation msg w₀ {}) =
      .inl (.goes .first, initialized msg w₀ w) := by
    have first : Step.run WritePreparation.init (writePreparation msg w₀ {}) =
        (.ok (), initialized msg w₀ w) := by
      unfold WritePreparation.init
      rw [Step.run_get_bind]
      dsimp only [writePreparation]
      rw [init]
      rfl
    unfold opStepWrite writeOp
    dsimp only
    rw [Step.run_bind_ok first]
    rfl
  obtain ⟨r, ends, sent⟩ := op_pieces (s := initialized msg w₀ w) (.inl rfl) yields fits rfl rfl
  exact ⟨r, .step (by rw [begun]; exact ends), sent⟩

end Beast.Http
