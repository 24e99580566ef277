import Beast.Websocket.Frame
import Mathlib.Tactic.Ring

/-! What the two parts of a frame header do to the stream that reads them. -/

namespace Beast.Websocket

variable {lib : Lib}

namespace StreamBase

/-- An opcode that is not reserved is that of a data frame or of a control frame. -/
theorem control_of_not_reserved {op : Opcode} (open_ : isReserved op = false) (ne : op ≠ .cont)
    (neText : op ≠ .text) (neBinary : op ≠ .binary) : op = .close ∨ op = .ping ∨ op = .pong := by
  cases op <;> first | contradiction | simp [isReserved, Opcode.nibble] at open_ ⊢

/-- The fixed part of a header changes nothing but whether the message is compressed. -/
theorem readFh1_keeps {ws ws' : StreamBase lib} {fh₀ fh : FrameHeader} {b0 b1 : UInt8} {n : Nat}
    {code : CloseCode} (read : ws.readFh1 fh₀ b0 b1 = (fh, n, code, ws')) :
    fh = (fh₀.readFixed b0 b1).1 ∧
      (ws' = ws ∨ (ws.rd_.cont = false ∧ (fh.op = .text ∨ fh.op = .binary) ∧
        ws' = { ws with pmd_ := ws.pmd_.map fun pmd => { pmd with rd_set := fh.rsv1 } })) := by
  simp only [readFh1] at read
  generalize fh₀.readFixed b0 b1 = parts at read ⊢
  rcases parts with ⟨fixed, need⟩
  dsimp only at read ⊢
  -- Only the frames that start a message say whether it is compressed.
  split at read
  case h_1 named | h_2 named =>
    split at read
    · cases read; exact ⟨rfl, .inl rfl⟩
    rename_i fresh
    split at read
    · cases read; exact ⟨rfl, .inl rfl⟩
    repeat' split at read
    all_goals
      cases read
      exact ⟨rfl, .inr ⟨by simpa using fresh, by simp [named], rfl⟩⟩
  case h_3 | h_4 =>
    repeat' split at read
    all_goals
      cases read
      exact ⟨rfl, .inl rfl⟩

/-- The fixed part of a header is accepted where it fits the message. -/
theorem readFh1_accepts {ws ws' : StreamBase lib} {fh₀ fh : FrameHeader} {b0 b1 : UInt8} {n : Nat}
    (read : ws.readFh1 fh₀ b0 b1 = (fh, n, .none, ws')) :
    ((fh.op = .close ∨ fh.op = .ping ∨ fh.op = .pong) ∧ ws' = ws) ∨
      (fh.op = .cont ∧ ws.rd_.cont = true ∧ ws' = ws) ∨
      ((fh.op = .text ∨ fh.op = .binary) ∧ ws.rd_.cont = false) := by
  simp only [readFh1] at read
  rcases fh₀.readFixed b0 b1 with ⟨fixed, need⟩
  split at read
  case h_1 named | h_2 named =>
    split at read
    · cases read
    rename_i fresh
    repeat' split at read
    all_goals
      cases read
    exact .inr (.inr ⟨by simp [named], by simpa using fresh⟩)
  case h_3 named =>
    split at read
    · cases read
    rename_i running
    repeat' split at read
    all_goals
      cases read
    exact .inr (.inl ⟨named, by simpa using running, rfl⟩)
  case h_4 neBinary neText neCont =>
    split at read
    · cases read
    rename_i known
    repeat' split at read
    all_goals
      cases read
    exact .inl ⟨control_of_not_reserved (by simpa using known) neCont neText neBinary, rfl⟩

/-- The length that follows the fixed part leaves the rest of the header as it is. -/
theorem readLength_keeps {fh fh' : FrameHeader} {db rest : Octets} {code : CloseCode}
    (read : readLength fh db = (fh', rest, code)) :
    fh'.op = fh.op ∧ fh'.fin = fh.fin ∧ fh'.mask = fh.mask ∧
      (code = .none → fh'.len = 0 → fh.len = 0) := by
  simp only [readLength] at read
  repeat' split at read
  all_goals
    simp only [Prod.mk.injEq] at read
    obtain ⟨rfl, rfl, rfl⟩ := read
    refine ⟨rfl, rfl, rfl, fun accepted empty => ?_⟩
  · simp at accepted
  · -- An extended length that is accepted is not zero.
    rename_i canonical
    rw [show UInt64.ofNat (bigToNative (db.take 2)) = 0 from empty] at canonical
    simp at canonical
  · simp at accepted
  · rename_i canonical
    rw [show UInt64.ofNat (bigToNative (db.take 8)) = 0 from empty] at canonical
    simp at canonical
  · exact empty

/-- The variable part of a header takes note of a data frame, and of nothing else. -/
theorem readFh2_keeps {ws ws' : StreamBase lib} {fh fh' : FrameHeader} {db rest : Octets}
    {code : CloseCode} (read : ws.readFh2 fh db = (fh', rest, code, ws')) :
    fh'.op = fh.op ∧ fh'.fin = fh.fin ∧ fh'.mask = fh.mask ∧
      (code = .none → fh'.len = 0 → fh.len = 0) ∧
      ((code ≠ .none ∨ isControl fh.op = true) ∧ ws' = ws ∨
        code = .none ∧ isControl fh.op = false ∧ fh.op ≠ .cont ∧
          ws' = { ws with rd_ := { ws.rd_ with size := 0, op := fh.op, cont := !fh.fin } } ∨
        code = .none ∧ isControl fh.op = false ∧ fh.op = .cont ∧
          ws.rd_.size.toNat + fh'.len.toNat < 2 ^ 64 ∧
          ws' = { ws with rd_ := { ws.rd_ with cont := !fh.fin } }) := by
  rcases length : readLength fh db with ⟨fh₁, db₁, code₁⟩
  obtain ⟨op, fin, mask, len⟩ := readLength_keeps length
  simp only [readFh2, length] at read
  split at read
  · rename_i bad
    simp only [Prod.mk.injEq] at read
    obtain ⟨rfl, rfl, rfl, rfl⟩ := read
    exact ⟨op, fin, mask, len, .inl ⟨.inl (by simpa using bad), rfl⟩⟩
  · rename_i good
    have accepted : code₁ = .none := by simpa using good
    have zero := len accepted
    -- The key is of no concern here, so both ways of finding it are the same.
    obtain ⟨fh₂, db₂, keyed, same⟩ : ∃ fh₂ db₂,
        (if fh₁.mask = true then
          ({ fh₁ with key := UInt32.ofNat (littleToNative (db₁.take 4)) }, db₁.drop 4)
        else ({ fh₁ with key := 0 }, db₁)) = (fh₂, db₂) ∧
        fh₂.op = fh.op ∧ fh₂.fin = fh.fin ∧ fh₂.mask = fh.mask ∧ fh₂.len = fh₁.len := by
      split
      · exact ⟨_, _, rfl, op, fin, mask, rfl⟩
      · exact ⟨_, _, rfl, op, fin, mask, rfl⟩
    obtain ⟨op₂, fin₂, mask₂, len₂⟩ := same
    simp only [keyed, op₂, fin₂] at read
    split at read
    · rename_i control
      simp only [Prod.mk.injEq] at read
      obtain ⟨rfl, rfl, rfl, rfl⟩ := read
      exact ⟨op₂, fin₂, mask₂, fun _ empty => zero (len₂ ▸ empty), .inl ⟨.inr control, rfl⟩⟩
    split at read
    · rename_i data first
      simp only [Prod.mk.injEq] at read
      obtain ⟨rfl, rfl, rfl, rfl⟩ := read
      exact ⟨op₂, fin₂, mask₂, fun _ empty => zero (len₂ ▸ empty),
        .inr (.inl ⟨rfl, by simpa using data, by simpa using first, rfl⟩)⟩
    split at read
    · rename_i data more beyond
      simp only [Prod.mk.injEq] at read
      obtain ⟨rfl, rfl, rfl, rfl⟩ := read
      exact ⟨op₂, fin₂, mask₂, fun absurd_ => by simp at absurd_, .inl ⟨.inl (by simp), rfl⟩⟩
    · rename_i data more room
      simp only [Prod.mk.injEq] at read
      obtain ⟨rfl, rfl, rfl, rfl⟩ := read
      refine ⟨op₂, fin₂, mask₂, fun _ empty => zero (len₂ ▸ empty),
        .inr (.inr ⟨rfl, by simpa using data, by simpa using more, ?_, rfl⟩)⟩
      -- The size that is compared against does not wrap, as no length is above the largest one.
      have bound := fh₂.len.toNat_lt
      rw [UInt64.not_lt, UInt64.le_iff_toNat_le, UInt64.toNat_sub_of_le] at room
      · simp only [UInt64.reduceToNat] at room
        omega
      · rw [UInt64.le_iff_toNat_le]
        simp only [UInt64.reduceToNat]
        omega

end StreamBase

end Beast.Websocket
