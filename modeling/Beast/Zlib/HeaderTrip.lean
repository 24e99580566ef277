import Beast.Zlib.BlTree

/-! The header of a dynamic block: what it is sent as, and what the decoder reads from that. -/

namespace Beast.Zlib

open Step

namespace DeflateBlock

variable {s : DeflateBlock} {m : Nat}

/-! ## Sending -/

theorem foldl_send_bits (g : Nat → Nat) (symbols : List Nat) (sink : Sink) :
    symbols.foldl (fun (sink : Sink) x => sink.send_bits (g x) 3) sink =
      sink.send (symbols.map fun x => (g x, 3)) := by
  rw [Sink.send, List.foldl_map]

/-- Sending the header sends its numbers, one after another, and no assertion fails. -/
theorem Ready.send_all_trees (ready : s.Ready m) (sink : Sink) :
    s.send_all_trees (s.l_max_code + 1).toNat (s.d_max_code + 1).toNat (m + 1) sink =
      some (sink.send (s.headerFields m)) := by
  have l_low := ready.vectors.l_low
  have l_high := ready.vectors.l_high
  have d_low := ready.vectors.d_low
  have d_high := ready.vectors.d_high
  have low := ready.low
  have high := ready.high
  rw [END_BLOCK] at l_low
  have l_last : (((s.l_max_code + 1).toNat : Int) - 1) = s.l_max_code := by omega
  have d_last : (((s.d_max_code + 1).toNat : Int) - 1) = s.d_max_code := by omega
  rw [DeflateBlock.send_all_trees, if_pos (by omega), l_last, d_last]
  dsimp only [bind, Option.bind]
  rw [foldl_send_bits (fun x => (s.bl_tree_ x).dl),
    send_tree_eq fun i inside => Nat.lt_succ_of_le (ready.vectors.l_short i inside)]
  dsimp only
  rw [send_tree_eq fun i inside => Nat.lt_succ_of_le (ready.vectors.d_short i inside), headerFields,
    headerItems, List.flatMap_append, Sink.send_cons, Sink.send_cons, Sink.send_cons, Sink.send_append,
    Sink.send_append]

/-- The numbers of a header have no more bits than are sent of them. -/
theorem Ready.fit (ready : s.Ready m) :
    BitField.Fit (s.headerFields m) ∧ ∀ f ∈ s.headerFields m, f.2 ≤ Sink.Buf_size := by
  have l_high := ready.vectors.l_high
  have d_high := ready.vectors.d_high
  have high := ready.high
  rw [lCodes] at l_high
  rw [dCodes] at d_high
  rw [blCodes] at high
  have both : ∀ f ∈ s.headerFields m, f.1 < 2 ^ f.2 ∧ f.2 ≤ Sink.Buf_size := by
    intro f member
    rw [headerFields] at member
    simp only [List.mem_cons, List.mem_append, List.mem_map, List.mem_flatMap] at member
    rcases member with rfl | rfl | rfl | ⟨x, among, rfl⟩ | ⟨it, among, field⟩
    · exact ⟨by dsimp only; omega, (by decide : 5 ≤ Sink.Buf_size)⟩
    · exact ⟨by dsimp only; omega, (by decide : 5 ≤ Sink.Buf_size)⟩
    · exact ⟨by dsimp only; omega, (by decide : 4 ≤ Sink.Buf_size)⟩
    · have inside : x < blCodes := (by decide : ∀ x ∈ bl_order, x < blCodes) x (List.mem_of_mem_take among)
      exact ⟨Nat.lt_succ_of_le (ready.short x inside), (by decide : 3 ≤ Sink.Buf_size)⟩
    · obtain ⟨symbol, extra⟩ := ready.expands.symbols it among
      obtain ⟨-, code⟩ := ready.coded it among
      have short := ready.short it.1 (Nat.lt_succ_of_le symbol)
      have own : (s.bl_tree_ it.1).dl ≤ Sink.Buf_size :=
        Nat.le_trans short (by decide : maxBlBits ≤ Sink.Buf_size)
      rw [itemFields] at field
      split at field
      · rw [List.mem_singleton.mp field]
        exact ⟨code, own⟩
      · rcases List.mem_cons.mp field with rfl | last
        · exact ⟨code, own⟩
        · rw [List.mem_singleton.mp last]
          exact ⟨extra, (by decide : ∀ x ≤ REPZ_11_138, bl_desc.xbits x ≤ Sink.Buf_size) it.1 symbol⟩
  exact ⟨fun f member => (both f member).1, fun f member => (both f member).2⟩

/-! ## Reading -/

variable {b : BitString} {input : Octets} {first pos : Nat} {w : TreeWork}

/-- Lengths that were read are those at their places. -/
theorem lensOf_reads {all : List Nat} (reads : TreeWork.Reads w all) {i k : Nat} (inside : i + k ≤ all.length) :
    w.lensOf i k = (all.drop i).take k := by
  refine List.ext_getElem ?_ fun j low high => ?_
  · rw [TreeWork.lensOf, List.length_map, List.length_range', List.length_take, List.length_drop]
    omega
  · rw [TreeWork.lensOf, List.length_map, List.length_range'] at low
    simp only [TreeWork.lensOf, List.getElem_map, List.getElem_range', List.getElem_take, List.getElem_drop]
    rw [Nat.one_mul, reads.own (i + j) (by omega), List.getD_eq_getElem _ _ (by omega : i + j < all.length)]

/-- The decoder has read the header of a block, so that its tables can be made. -/
structure HasRead (s : DeflateBlock) (w : TreeWork) : Prop where
  nlen : w.nlen_ = s.litLens.length
  ndist : w.ndist_ = s.distLens.length
  lit : w.lensOf 0 w.nlen_ = s.litLens
  dist : w.lensOf w.nlen_ w.ndist_ = s.distLens

/-- The decoder reads the lengths from what they were sent as, and makes the tables from them. -/
theorem Ready.run_doTrees (ready : s.Ready m) (on : Source.On b input first pos w.source)
    (held : BitField.Held b pos (s.headerFields m))
    (enough : pos + BitField.width (s.headerFields m) + 7 ≤ b.length) :
    ∃ w', run TreeWork.doTrees w = run TreeWork.makeTables w' ∧ s.HasRead w' ∧
      Source.On b input first (pos + BitField.width (s.headerFields m)) w'.source := by
  have l_low := ready.vectors.l_low
  have l_high := ready.vectors.l_high
  have d_low := ready.vectors.d_low
  have d_high := ready.vectors.d_high
  have high := ready.high
  have low := ready.low
  rw [END_BLOCK] at l_low
  rw [lCodes] at l_high
  rw [dCodes] at d_high
  rw [headerFields] at held enough ⊢
  simp only [BitField.width_cons, BitField.width_append, s.width_lengths high] at enough ⊢
  have l_length : s.litLens.length = (s.l_max_code + 1).toNat := length_lensFrom _ _ _
  have d_length : s.distLens.length = (s.d_max_code + 1).toNat := length_lensFrom _ _ _
  have total : (s.litLens ++ s.distLens).length = s.litLens.length + s.distLens.length := List.length_append
  rw [← l_length, ← d_length] at held
  obtain ⟨s₁, ran₁, on₁⟩ := TreeWork.run_doTABLE on held (by omega)
    (by rw [l_length, d_length]; omega)
  obtain ⟨first_held, symbols_held⟩ := BitField.held_append.mp held.2.2.2
  rw [s.width_lengths high] at symbols_held
  obtain ⟨t, used, made, book⟩ := ready.book w.codes_ w.work_
  obtain ⟨w₁, after₁⟩ : ∃ w₁ : TreeWork, { w with
      source := s₁, nlen_ := s.litLens.length, ndist_ := s.distLens.length, ncode_ := m + 1, have_ := 0
      mode_ := .LENLENS } = w₁ := ⟨_, rfl⟩
  rw [after₁] at ran₁
  obtain ⟨s₂, lens₂, ran₂, on₂⟩ := TreeWork.run_doLENLENS (w := w₁) (fun x => (s.bl_tree_ x).dl)
    (by rw [← after₁]) (by rw [← after₁]; exact high) (by rw [← after₁]; exact on₁)
    (by rw [← after₁]; exact first_held) (by rw [← after₁]; exact ready.none) (by rw [← after₁]; exact made)
  obtain ⟨w₂, after₂⟩ : ∃ w₂ : TreeWork, { w₁ with
      source := s₂, lens_ := lens₂, lencode_ := t, have_ := 0, mode_ := .CODELENS } = w₂ := ⟨_, rfl⟩
  have nlen₂ : w₂.nlen_ = s.litLens.length := by rw [← after₂, ← after₁]
  have ndist₂ : w₂.ndist_ = s.distLens.length := by rw [← after₂, ← after₁]
  have start₂ : w₂.have_ = 0 := by rw [← after₂]
  rw [after₂] at ran₂
  rw [(by rw [← after₁] : w₁.ncode_ = m + 1)] at on₂
  obtain ⟨s₃, have₃, lens₃, ran₃, on₃, reads⟩ := TreeWork.run_readSymbols (w := w₂) (by rw [← after₂]; exact book)
    (⟨by rw [← after₂]; rfl, fun i inside => absurd inside (Nat.not_lt_zero i)⟩ : TreeWork.Reads w₂ [])
    (by rw [← after₂]; exact on₂)
    ready.expands symbols_held (fun it member => (ready.coded it member).1) (by omega)
    (by rw [List.length_nil]; omega : _ ≤ w₂.nlen_ + w₂.ndist_ - w₂.have_) (by omega)
  obtain ⟨w₃, after₃⟩ : ∃ w₃ : TreeWork, { w₂ with source := s₃, have_ := have₃, lens_ := lens₃ } = w₃ :=
    ⟨_, rfl⟩
  rw [after₃] at ran₃ reads
  have nlen₃ : w₃.nlen_ = s.litLens.length := by rw [← after₃, nlen₂]
  have ndist₃ : w₃.ndist_ = s.distLens.length := by rw [← after₃, ndist₂]
  have eob : w₃.lens_ 256 ≠ 0 := by
    have inside : 256 < s.litLens.length := by omega
    rw [reads.own 256 (by omega), List.getD_append _ _ _ _ inside, List.getD_eq_getElem _ _ inside]
    simp only [litLens, lensFrom, List.getElem_map, List.getElem_range']
    exact ready.vectors.eob
  refine ⟨w₃, ?_, ⟨nlen₃, ndist₃, ?_, ?_⟩, ?_⟩
  · rw [TreeWork.doTrees, run_bind_ok ran₁, run_bind_ok ran₂, TreeWork.doCODELENS, run_get_bind, run_get_bind,
      run_get_bind, run_bind_ok ran₃, run_get_bind, if_neg eob]
  · rw [lensOf_reads reads (by omega), nlen₃, List.drop_zero, List.take_left]
  · rw [lensOf_reads reads (by omega), nlen₃, ndist₃, List.drop_left, List.take_length]
  · rw [← after₃]
    dsimp only
    rw [(by omega : pos + (5 + (5 + (4 + (3 * (m + 1) +
      BitField.width (s.headerItems.flatMap (itemFields s.bl_tree_)))))) =
        pos + 14 + 3 * (m + 1) + BitField.width (s.headerItems.flatMap (itemFields s.bl_tree_)))]
    exact on₃

end DeflateBlock

end Beast.Zlib
