import Beast.Lib.Histogram
import Beast.Zlib.TreeModesLaws

/-! The tree of the bit length codes: it has a code for each symbol that is sent, and no other is sent. -/

namespace Beast.Zlib

open CanonicalCode BitReversal

/-! ## The table of the bit length codes -/

section Table

variable {start b : Builder}

/-- The lengths of all bit length codes are those up to the last one, with zeros behind them. -/
theorem ValidTree.allLengths (valid : ValidTree bl_desc start b) :
    ((List.range blCodes).map fun x => (b.tree x).dl) =
      b.lengths ++ List.replicate (blCodes - b.lengths.length) 0 := by
  have last := valid.last
  have few : b.lengths.length ≤ blCodes := by
    rw [Builder.lengths, List.length_map, List.length_range]
    change b.max_code < (blCodes : Nat) at last
    omega
  refine List.ext_getElem (by simp [Nat.add_sub_cancel' few]) fun x inside inside' => ?_
  have low : x < blCodes := by simpa using inside
  have own := valid.dl x low
  rw [← len_append_zeros b.lengths (blCodes - b.lengths.length) x, len,
    List.getD_eq_getElem _ _ inside'] at own
  simpa using own

/-- The table that is made from the lengths of a valid tree finds the symbols of its codes. -/
theorem ValidTree.codebook (valid : ValidTree bl_desc start b) (entries : Nat → Code) (work : Nat → Nat) :
    ∃ t used, inflate_table .codes ((List.range blCodes).map fun x => (b.tree x).dl) entries 7 work =
        .table t used ∧
      TreeWork.Codebook b.tree t := by
  have all := valid.allLengths
  have own_bounded : ∀ l ∈ b.lengths, l ≤ 7 := valid.bounded
  have bounded : ∀ l ∈ (List.range blCodes).map fun x => (b.tree x).dl, l ≤ 7 := by
    intro l member
    rw [all, List.mem_append] at member
    rcases member with own | behind
    · exact own_bounded l own
    · rw [List.eq_of_mem_replicate behind]
      exact Nat.zero_le 7
  have full : kraft ((List.range blCodes).map fun x => (b.tree x).dl) = 1 := by
    rw [all, kraft_append_zeros]
    exact valid.complete
  obtain ⟨t, used, made, bits, direct⟩ := inflate_table_direct bounded (by decide)
    (by rw [List.length_map, List.length_range]; decide) full entries work
  refine ⟨t, used, made, bits, fun s pos x low coded field => ?_⟩
  have own := valid.dl x (Nat.lt_succ_of_le low)
  rw [own] at coded
  rw [own, valid.canonical x coded] at field
  have length : len ((List.range blCodes).map fun x => (b.tree x).dl) x = len b.lengths x := by
    rw [all, len_append_zeros]
  have fits : filled b.lengths 7 ≤ 2 ^ 7 := ((kraft_eq_one own_bounded).mp valid.complete).le
  -- The bits that are there are the code with its first bit first.
  have begins : Begins ((List.range blCodes).map fun x => (b.tree x).dl) (TreeWork.bitsAt s pos) x := by
    have code_eq : code ((List.range blCodes).map fun x => (b.tree x).dl) x = code b.lengths x := by
      rw [all, code_append_zeros _ coded]
    rw [← TreeWork.lsb_bitsAt, lsb_eq_rev] at field
    have same := rev_inj field
    have below := CanonicalCode.code_lt fits coded (len_le own_bounded x)
    rw [Nat.mod_eq_of_lt (msb_lt _ _), Nat.mod_eq_of_lt below] at same
    rw [Begins, length, code_eq]
    exact ⟨coded, same⟩
  obtain ⟨found, short⟩ := direct _ x begins
  rw [TreeWork.lsb_bitsAt, length] at found
  rw [length] at short
  rw [own]
  exact ⟨found, short⟩

end Table

/-! ## The symbols of a header -/

theorem lastIndex_spec (bl_tree : Tree) (more : Nat) :
    2 ≤ DeflateBlock.lastIndex bl_tree more ∧ DeflateBlock.lastIndex bl_tree more ≤ more + 2 ∧
      ∀ i, DeflateBlock.lastIndex bl_tree more < i → i ≤ more + 2 → (bl_tree (bl_order.getD i 0)).dl = 0 := by
  induction more with
  | zero => exact ⟨Nat.le_refl 2, Nat.le_refl 2, fun i low high => absurd low (Nat.not_lt.mpr high)⟩
  | succ more ih =>
    rw [DeflateBlock.lastIndex]
    split
    · exact ⟨by omega, by omega, fun i low high => by omega⟩
    · rename_i none
      refine ⟨ih.1, by omega, fun i low high => ?_⟩
      rcases Nat.lt_or_ge (more + 2) i with last | before
      · rw [(by omega : i = more + 3)]
        exact not_not.mp none
      · exact ih.2.2 i low before

theorem width_itemFields (bl_tree : Tree) (it : Item) :
    BitField.width (itemFields bl_tree it) = (bl_tree it.1).dl + bl_desc.xbits it.1 := by
  rw [itemFields]
  split
  · rename_i literal
    rw [(by decide : ∀ x < REP_3_6, bl_desc.xbits x = 0) it.1 literal]
    rfl
  · rfl

namespace DeflateBlock

/-- The bit length symbols of a header: those of both trees, one after another. -/
def headerItems (s : DeflateBlock) : List Item :=
  treeItems s.dyn_ltree_ s.l_max_code ++ treeItems s.dyn_dtree_ s.d_max_code

/-- The lengths of the literal and length codes, up to the last one. -/
def litLens (s : DeflateBlock) : List Nat := lensFrom s.dyn_ltree_ 0 (s.l_max_code + 1).toNat

/-- The lengths of the distance codes, up to the last one. -/
def distLens (s : DeflateBlock) : List Nat := lensFrom s.dyn_dtree_ 0 (s.d_max_code + 1).toNat

/-- The lengths of the literal and of the distance codes are such as trees may have. -/
structure Vectors (s : DeflateBlock) : Prop where
  l_low : END_BLOCK ≤ s.l_max_code
  l_high : s.l_max_code < lCodes
  d_low : 0 ≤ s.d_max_code
  d_high : s.d_max_code < dCodes
  l_short : ∀ i < (s.l_max_code + 1).toNat, (s.dyn_ltree_ i).dl ≤ maxBits
  d_short : ∀ i < (s.d_max_code + 1).toNat, (s.dyn_dtree_ i).dl ≤ maxBits
  /-- There is a code for the end of the block. -/
  eob : (s.dyn_ltree_ END_BLOCK).dl ≠ 0

/-- What the header is sent as: three counts, the lengths of the bit length codes, and the symbols. -/
def headerFields (s : DeflateBlock) (max_blindex : Nat) : List BitField :=
  ((s.l_max_code + 1).toNat - 257, 5) :: ((s.d_max_code + 1).toNat - 1, 5) :: (max_blindex + 1 - 4, 4) ::
    (((bl_order.take (max_blindex + 1)).map fun x => ((s.bl_tree_ x).dl, 3)) ++
      s.headerItems.flatMap (itemFields s.bl_tree_))

/-- The trees of a block are ready to be sent: there are codes for the symbols of their lengths. -/
structure Ready (s : DeflateBlock) (max_blindex : Nat) : Prop where
  vectors : s.Vectors
  expands : Expands [] s.headerItems (s.litLens ++ s.distLens)
  book : ∀ entries work, ∃ t used,
    inflate_table .codes ((List.range blCodes).map fun x => (s.bl_tree_ x).dl) entries 7 work = .table t used ∧
      TreeWork.Codebook s.bl_tree_ t
  coded : ∀ it ∈ s.headerItems, 0 < (s.bl_tree_ it.1).dl ∧ (s.bl_tree_ it.1).fc < 2 ^ (s.bl_tree_ it.1).dl
  short : ∀ x < blCodes, (s.bl_tree_ x).dl ≤ maxBlBits
  low : 3 ≤ max_blindex
  high : max_blindex < blCodes
  none : ∀ x ∈ bl_order.drop (max_blindex + 1), (s.bl_tree_ x).dl = 0

/-- What `build_bl_tree` comes to. -/
structure Builds (s t : DeflateBlock) (max_blindex : Nat) : Prop where
  ready : t.Ready max_blindex
  ltree : t.dyn_ltree_ = s.dyn_ltree_.setDl (s.l_max_code + 1).toNat 0xffff
  dtree : t.dyn_dtree_ = s.dyn_dtree_.setDl (s.d_max_code + 1).toNat 0xffff
  others : t = { s with
    dyn_ltree_ := t.dyn_ltree_, dyn_dtree_ := t.dyn_dtree_, bl_tree_ := t.bl_tree_, builder := t.builder }
  opt_len : t.builder.opt_len_ =
    (s.builder.opt_len_ + BitField.width (t.headerFields max_blindex)) % 2 ^ 32
  static_len : t.builder.static_len_ = s.builder.static_len_

variable {s : DeflateBlock}

theorem setDl_guard (tree : Tree) (n v : Nat) : (tree.setDl n v n).dl = v := by
  rw [Tree.setDl, if_pos rfl]

/-- Between the guards there are the lengths of both trees. -/
theorem Vectors.expands (vectors : s.Vectors) {t : DeflateBlock}
    (ltree : t.dyn_ltree_ = s.dyn_ltree_.setDl (s.l_max_code + 1).toNat 0xffff)
    (dtree : t.dyn_dtree_ = s.dyn_dtree_.setDl (s.d_max_code + 1).toNat 0xffff)
    (l_max_code : t.l_max_code = s.l_max_code) (d_max_code : t.d_max_code = s.d_max_code) :
    t.Vectors ∧ t.litLens = s.litLens ∧ t.distLens = s.distLens ∧
      Expands [] t.headerItems (t.litLens ++ t.distLens) := by
  have l_low := vectors.l_low
  have l_own : ∀ i < (s.l_max_code + 1).toNat, t.dyn_ltree_ i = s.dyn_ltree_ i := fun i inside => by
    rw [ltree, Tree.setDl, if_neg (by omega)]
  have d_own : ∀ i < (s.d_max_code + 1).toNat, t.dyn_dtree_ i = s.dyn_dtree_ i := fun i inside => by
    rw [dtree, Tree.setDl, if_neg (by omega)]
  have vectors' : t.Vectors := by
    refine ⟨?_, ?_, ?_, ?_, ?_, ?_, ?_⟩
    · rw [l_max_code]
      exact vectors.l_low
    · rw [l_max_code]
      exact vectors.l_high
    · rw [d_max_code]
      exact vectors.d_low
    · rw [d_max_code]
      exact vectors.d_high
    · intro i inside
      rw [l_max_code] at inside
      rw [l_own i inside]
      exact vectors.l_short i inside
    · intro i inside
      rw [d_max_code] at inside
      rw [d_own i inside]
      exact vectors.d_short i inside
    · rw [l_own END_BLOCK (by omega)]
      exact vectors.eob
  refine ⟨vectors', ?_, ?_, ?_⟩
  · rw [litLens, litLens, l_max_code, ltree, lensFrom_guard]
  · rw [distLens, distLens, d_max_code, dtree, lensFrom_guard]
  · have first := @expands_tree t.dyn_ltree_ t.l_max_code
      (fun i inside => Nat.lt_succ_of_le (vectors'.l_short i inside))
      (by rw [ltree, l_max_code, setDl_guard]) []
    have second := @expands_tree t.dyn_dtree_ t.d_max_code
      (fun i inside => Nat.lt_succ_of_le (vectors'.d_short i inside))
      (by rw [dtree, d_max_code, setDl_guard]) ([] ++ t.litLens)
    exact first.append second

/-- There are no more symbols than lengths. -/
theorem Vectors.few (vectors : s.Vectors) (expands : Expands [] s.headerItems (s.litLens ++ s.distLens)) :
    s.headerItems.length ≤ lCodes + dCodes := by
  have few := expands.length_le
  have l_high := vectors.l_high
  have d_high := vectors.d_high
  rw [List.length_append, litLens, distLens, length_lensFrom, length_lensFrom, List.length_nil] at few
  omega

/-- There is a symbol for a length itself, since not all lengths are zero. -/
theorem Vectors.literal (vectors : s.Vectors)
    (expands : Expands [] s.headerItems (s.litLens ++ s.distLens)) : ∃ it ∈ s.headerItems, it.1 < REP_3_6 := by
  by_contra none
  simp only [not_exists, not_and, Nat.not_lt] at none
  have zeros := expands.zeros none fun l member => absurd member List.not_mem_nil
  have l_low := vectors.l_low
  refine vectors.eob (zeros _ (List.mem_append_left _ (List.mem_map.mpr ⟨END_BLOCK, ?_, rfl⟩)))
  exact List.mem_range'_1.mpr ⟨Nat.zero_le _, by omega⟩

theorem width_lengths (s : DeflateBlock) {m : Nat} (high : m < blCodes) :
    BitField.width ((bl_order.take (m + 1)).map fun x => ((s.bl_tree_ x).dl, 3)) = 3 * (m + 1) := by
  rw [BitField.width, List.map_map, List.map_congr_left fun x _ => (rfl : (Prod.snd ∘ _) x = 3),
    List.map_const', List.sum_replicate, List.length_take, Nat.nsmul_eq_mul,
    Nat.min_eq_left (show m + 1 ≤ bl_order.length from high), Nat.mul_comm]

theorem width_headerFields (s : DeflateBlock) {m : Nat} (high : m < blCodes) :
    BitField.width (s.headerFields m) =
      (s.headerItems.map fun it => (s.bl_tree_ it.1).dl + bl_desc.xbits it.1).sum +
        (3 * (m + 1) + 5 + 5 + 4) := by
  have symbols : BitField.width (s.headerItems.flatMap (itemFields s.bl_tree_)) =
      (s.headerItems.map fun it => (s.bl_tree_ it.1).dl + bl_desc.xbits it.1).sum := by
    induction s.headerItems with
    | nil => rfl
    | cons it items ih =>
      rw [List.flatMap_cons, BitField.width_append, ih, width_itemFields, List.map_cons, List.sum_cons]
  rw [headerFields, BitField.width_cons, BitField.width_cons, BitField.width_cons, BitField.width_append,
    s.width_lengths high, symbols]
  omega

/-- Each symbol of the header is counted as often as it is there. -/
theorem Vectors.counts (vectors : s.Vectors) (expands : Expands [] s.headerItems (s.litLens ++ s.distLens))
    {bl_tree : Tree} (clear : ∀ x < blCodes, (bl_tree x).fc = 0) :
    ∀ x < blCodes, ((s.headerItems.foldl (fun t it => t.addFc it.1 1) bl_tree) x).fc =
      s.headerItems.countP fun it => it.1 = x := by
  intro x inside
  have few := vectors.few expands
  have some_ : (s.headerItems.countP fun it => it.1 = x) ≤ s.headerItems.length := List.countP_le_length
  have bound : lCodes + dCodes < 2 ^ 16 := by decide
  rw [fc_foldl_addFc Prod.fst _ _ _ (by rw [clear x inside]; decide), clear x inside, Nat.zero_add]
  exact Nat.mod_eq_of_lt (Nat.lt_of_le_of_lt some_ (by omega))

/-- The tree of the bit length codes is made, and the trees are ready to be sent. -/
theorem build_bl_tree_spec (vectors : s.Vectors) (clear : ∀ x < blCodes, (s.bl_tree_ x).fc = 0)
    (small : s.builder.opt_len_ < 2 ^ 32 ∧ s.builder.static_len_ < 2 ^ 32) :
    ∃ m t, s.build_bl_tree = some (m, t) ∧ s.Builds t m := by
  obtain ⟨b, made, valid⟩ := @Builder.build_tree_spec bl_desc { s.builder with
    tree := (scan_tree s.dyn_dtree_ s.d_max_code (scan_tree s.dyn_ltree_ s.l_max_code s.bl_tree_).2).2 }
    (sound_of_alphabet (by simp)) small
  obtain ⟨m, index⟩ : ∃ m, lastIndex b.tree (blCodes - 3) = m := ⟨_, rfl⟩
  obtain ⟨t, built⟩ : ∃ t : DeflateBlock, { s with
      dyn_ltree_ := s.dyn_ltree_.setDl (s.l_max_code + 1).toNat 0xffff
      dyn_dtree_ := s.dyn_dtree_.setDl (s.d_max_code + 1).toNat 0xffff
      bl_tree_ := b.tree
      builder := { b with opt_len_ := (b.opt_len_ + (3 * (m + 1) + 5 + 5 + 4)) % 2 ^ 32 } } = t := ⟨_, rfl⟩
  have ltree : t.dyn_ltree_ = s.dyn_ltree_.setDl (s.l_max_code + 1).toNat 0xffff := by rw [← built]
  have dtree : t.dyn_dtree_ = s.dyn_dtree_.setDl (s.d_max_code + 1).toNat 0xffff := by rw [← built]
  have bl_tree : t.bl_tree_ = b.tree := by rw [← built]
  obtain ⟨vectors', -, -, expands⟩ := vectors.expands ltree dtree (by rw [← built]) (by rw [← built])
  have counts : ∀ x < blCodes,
      ((scan_tree s.dyn_dtree_ s.d_max_code (scan_tree s.dyn_ltree_ s.l_max_code s.bl_tree_).2).2 x).fc =
        t.headerItems.countP fun it => it.1 = x := by
    have both := vectors'.counts expands clear
    rw [headerItems, List.foldl_append, ltree, dtree, (by rw [← built] : t.l_max_code = s.l_max_code),
      (by rw [← built] : t.d_max_code = s.d_max_code), ← scan_tree_eq, ← scan_tree_eq] at both
    rw [headerItems, ltree, dtree, (by rw [← built] : t.l_max_code = s.l_max_code),
      (by rw [← built] : t.d_max_code = s.d_max_code)]
    exact both
  obtain ⟨m_low, m_high, behind⟩ := lastIndex_spec b.tree (blCodes - 3)
  rw [index] at m_low m_high behind
  have high : m < blCodes := Nat.lt_succ_of_le m_high
  have coded : ∀ it ∈ t.headerItems, 0 < (b.tree it.1).dl ∧ (b.tree it.1).fc < 2 ^ (b.tree it.1).dl := by
    intro it member
    have inside : it.1 < blCodes := Nat.lt_succ_of_le (expands.symbols it member).1
    have some_ : 0 < t.headerItems.countP fun it' => it'.1 = it.1 :=
      List.countP_pos_iff.mpr ⟨it, member, by simp⟩
    have positive := (valid.coded it.1 inside (by rw [counts it.1 inside]; exact some_.ne')).2.1
    refine ⟨positive, ?_⟩
    rw [valid.dl it.1 inside] at positive ⊢
    rw [valid.canonical it.1 positive]
    exact rev_lt _ _
  refine ⟨m, t, ?_, ⟨⟨vectors', expands, ?_, ?_, ?_, ?_, high, ?_⟩, ltree, dtree, by rw [← built], ?_, ?_⟩⟩
  · rw [build_bl_tree]
    dsimp only [scan_tree] at made ⊢
    rw [made]
    dsimp only [bind, Option.bind]
    rw [index, ← built]
    rfl
  · rw [bl_tree]
    exact valid.codebook
  · rw [bl_tree]
    exact coded
  · intro x inside
    rw [bl_tree, valid.dl x inside]
    exact len_le valid.bounded x
  · -- A symbol for a length itself is behind the first three.
    obtain ⟨it, member, literal⟩ := vectors'.literal expands
    obtain ⟨i, inside, later, own⟩ :=
      (by decide : ∀ x < REP_3_6, ∃ i < blCodes, 2 < i ∧ bl_order.getD i 0 = x) it.1 literal
    by_contra less
    have none := behind i (by omega) (Nat.le_of_lt_succ inside)
    rw [own] at none
    exact absurd (coded it member).1 (by omega)
  · intro x member
    obtain ⟨i, inside, own⟩ := List.mem_drop_iff_getElem.mp member
    have none := behind (i + (m + 1)) (by omega) (by
      rw [show bl_order.length = blCodes from rfl] at inside
      exact Nat.le_of_lt_succ inside)
    rw [List.getD_eq_getElem _ _ inside, getElem_congr_idx (Nat.add_comm i (m + 1)), own] at none
    rw [bl_tree]
    exact none
  · have total := valid.opt_len
    have cost : dynamicCost bl_desc (scan_tree s.dyn_dtree_ s.d_max_code
        (scan_tree s.dyn_ltree_ s.l_max_code s.bl_tree_).2).2 b.tree =
          (t.headerItems.map fun it => (b.tree it.1).dl + bl_desc.xbits it.1).sum :=
      Histogram.sum_counted Prod.fst _ (fun it member => Nat.lt_succ_of_le (expands.symbols it member).1) counts
    have own : t.builder.opt_len_ = (b.opt_len_ + (3 * (m + 1) + 5 + 5 + 4)) % 2 ^ 32 := by rw [← built]
    dsimp only at total
    rw [own, t.width_headerFields high, bl_tree, total, ← cost, Nat.mod_add_mod, Nat.add_assoc]
  · have total := valid.static_len
    have none : staticCost bl_desc (scan_tree s.dyn_dtree_ s.d_max_code
        (scan_tree s.dyn_ltree_ s.l_max_code s.bl_tree_).2).2 = 0 := by
      rw [staticCost]
      simp [StaticDesc.staticBits, bl_desc]
    rw [none, Nat.add_zero, Nat.mod_eq_of_lt small.2] at total
    rw [← built]
    exact total

end DeflateBlock

end Beast.Zlib
