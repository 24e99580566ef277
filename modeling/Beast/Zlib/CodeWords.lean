import Beast.Zlib.BlockSize
import Beast.Zlib.CheckedLaws
import Beast.Zlib.TableBound
import Beast.Zlib.TableValid

/-! The codes that a block is sent with, as they are looked up in the tables that it is read with. -/

namespace Beast.Zlib

open CanonicalCode BitReversal

/-- The code of a symbol in a tree leads to the symbol in a table, wherever it stands. -/
structure Table.Speaks (t : Table) (type : Build) (tree : Tree) (x : Nat) : Prop where
  some_ : 0 < (tree x).dl
  short : (tree x).dl ≤ 15
  fits : (tree x).fc < 2 ^ (tree x).dl
  decode : ∀ (b : BitString) (pos : Nat), b.slice pos (tree x).dl = (tree x).fc → pos + 15 ≤ b.length →
    ∃ bits, t.decode b pos = some (type.here (fun _ => 0) x bits, (tree x).dl)

section Lookup

variable {t : Table} {type : Build} {IsLeaf : Code → Prop} {b : BitString} {pos : Nat}

/-- In a valid table the code that is decoded is the one that is found. -/
theorem Table.Valid.decode_find (valid : t.Valid IsLeaf) (apart : ∀ cp, IsLeaf cp → ¬cp.IsLink)
    (tells : Tells type.isLink IsLeaf) (enough : pos + 15 ≤ b.length) :
    t.decode b pos = some (t.find type.isLink (TreeWork.bitsAt b pos)) := by
  have root := valid.bits
  unfold Table.find
  dsimp only
  rw [TreeWork.lsb_bitsAt]
  rcases valid.entry _ (b.slice_lt pos t.bits) with final | linked
  · have leaf := (tells _).1 final.leaf
    rw [Table.decode_final (by omega) rfl (apart _ final.leaf), leaf]
    rfl
  · have link := (tells _).2 linked.link
    have bits := linked.bits
    rw [Table.decode_linked (by omega) rfl linked.link (by omega), link]
    -- The index in the sub-table is what comes behind the bits of the link.
    rw [if_pos rfl, TreeWork.lsb_bitsAt, Nat.shiftRight_eq_div_pow, BitString.slice_div (by omega),
      Nat.add_sub_cancel_left]
    rfl

variable {desc : StaticDesc} {start built : Builder} {entries : Nat → Code} {bits used x : Nat} {work : Nat → Nat}

/-- What is made from the lengths of a valid tree is a table that decodes its codes. -/
theorem ValidTree.table_made (valid : ValidTree desc start built) (limit : desc.max_length ≤ 15)
    (few : built.lengths.length ≤ type.limit)
    (fits : inflate_table type built.lengths entries bits work ≠ .throws) :
    ∃ t used, inflate_table type built.lengths entries bits work = .table t used ∧
      t.Decodes type work built.lengths := by
  have bounded : ∀ l ∈ built.lengths, l ≤ 15 := fun l member => Nat.le_trans (valid.bounded l member) limit
  obtain ⟨throws, makes⟩ := inflate_table_made bounded few (.inl valid.complete) entries bits work
  cases short : type.tooMany (tableSize built.lengths (rootBits built.lengths bits)) with
  | true => exact absurd (throws short) fits
  | false => exact makes short

/-- The codes of a valid tree lead to their symbols in the table that is made from its lengths. -/
theorem ValidTree.speaks (valid : ValidTree desc start built) (limit : desc.max_length ≤ 15)
    (table : t.Valid IsLeaf) (apart : ∀ cp, IsLeaf cp → ¬cp.IsLink) (tells : Tells type.isLink IsLeaf)
    (decodes : t.Decodes type work built.lengths) (few : desc.elems ≤ type.limit) (inside : x < desc.elems)
    (coded : 0 < (built.tree x).dl) : t.Speaks type built.tree x := by
  have bounded : ∀ l ∈ built.lengths, l ≤ 15 := fun l member => Nat.le_trans (valid.bounded l member) limit
  have own := valid.dl x inside
  have short := len_le bounded x
  rw [own] at coded
  have canonical := valid.canonical x coded
  have fits : filled built.lengths 15 ≤ 2 ^ 15 := ((kraft_eq_one bounded).mp valid.complete).le
  have below := CanonicalCode.code_lt fits coded short
  refine ⟨by omega, by omega, ?_, fun b pos field enough => ?_⟩
  · rw [canonical, own]
    exact rev_lt _ _
  · -- The bits that are there are the code, with its first bit first.
    have begins : Begins built.lengths (TreeWork.bitsAt b pos) x := by
      rw [own, canonical, ← TreeWork.lsb_bitsAt, lsb_eq_rev] at field
      have same := rev_inj field
      rw [Nat.mod_eq_of_lt (msb_lt _ _), Nat.mod_eq_of_lt below] at same
      exact ⟨coded, same⟩
    obtain ⟨bits, found⟩ := decodes.word _ x begins
    refine ⟨bits, ?_⟩
    rw [table.decode_find apart tells enough, found, own,
      Build.here_work (Nat.lt_of_lt_of_le inside few) work (fun _ => 0)]

end Lookup

/-! ## Lengths and distances -/

/-- In runs of equal numbers, one behind another, each place is in the run of the number that it has. -/
theorem runs_getD (width : Nat → Nat) {first n i : Nat} (inside : i < ((List.range' first n).map width).sum) :
    ∃ k < n, ((List.range' first n).flatMap fun code => List.replicate (width code) code).getD i 0 = first + k ∧
      ((List.range' first k).map width).sum ≤ i ∧
      i < ((List.range' first k).map width).sum + width (first + k) := by
  -- The induction is on the runs, of which the first one is looked at.
  induction n generalizing first i with
  | zero => simp at inside
  | succ n ih =>
    rw [List.range'_succ, List.map_cons, List.sum_cons] at inside
    rw [List.range'_succ, List.flatMap_cons]
    by_cases here : i < width first
    · refine ⟨0, Nat.succ_pos n, ?_, Nat.zero_le _, by simpa using here⟩
      rw [List.getD_append _ _ _ _ (by simpa using here), List.getD_replicate _ here, Nat.add_zero]
    · obtain ⟨k, few, own, low, high⟩ := @ih (first + 1) (i - width first) (by omega)
      refine ⟨k + 1, by omega, ?_, ?_, ?_⟩
      · rw [List.getD_append_right _ _ _ _ (by simpa using here), List.length_replicate, own]
        omega
      · rw [List.range'_succ, List.map_cons, List.sum_cons]
        omega
      · rw [List.range'_succ, List.map_cons, List.sum_cons, (by omega : first + (k + 1) = first + 1 + k)]
        omega

/-- The bases of the length codes, where the one for the longest match has no extra bits. -/
theorem length_bases : ∀ code < 29, lext.getD code 0 = 16 + extra_lbits.getD code 0 ∧ extra_lbits.getD code 0 ≤ 5 ∧
    (code < 28 → base_length code = ((List.range' 0 code).map fun k => 2 ^ extra_lbits.getD k 0).sum ∧
      lbase.getD code 0 = base_length code + 3) := by decide

/-- A length is among those of its code. -/
theorem length_code_range {lc : Nat} (small : lc < 256) :
    lbase.getD (length_code.getD lc 0) 0 ≤ lc + 3 ∧
      lc + 3 < lbase.getD (length_code.getD lc 0) 0 + 2 ^ extra_lbits.getD (length_code.getD lc 0) 0 := by
  by_cases longest : lc = 255
  · -- The longest match has a code of its own.
    have own : length_code.getD 255 0 = 28 := by decide +kernel
    rw [longest, own]
    decide
  · have all : ((List.range' 0 28).map fun k => 2 ^ extra_lbits.getD k 0).sum = 256 := by decide
    obtain ⟨k, few, own, low, high⟩ := runs_getD (fun k => 2 ^ extra_lbits.getD k 0) (all ▸ small)
    have code : length_code.getD lc 0 = k := by
      rw [Nat.zero_add, ← List.range_eq_range'] at own
      rw [← own, length_code, List.getD_eq_getElem?_getD, List.getElem?_set_ne (Ne.symm longest),
        ← List.getD_eq_getElem?_getD]
      rfl
    obtain ⟨-, -, bases⟩ := length_bases k (by omega)
    obtain ⟨sum, base⟩ := bases few
    rw [Nat.zero_add] at high
    rw [code, base, sum]
    omega

/-- The code of a length, its extra bits and its base are those that are read. -/
theorem length_code_spec {lc : Nat} (small : lc < 256) :
    lext.getD (length_code.getD lc 0) 0 = 16 + extra_lbits.getD (length_code.getD lc 0) 0 ∧
      extra_lbits.getD (length_code.getD lc 0) 0 ≤ 5 ∧
      ∃ v < 2 ^ extra_lbits.getD (length_code.getD lc 0) 0,
        (extra_lbits.getD (length_code.getD lc 0) 0 ≠ 0 → lc - base_length (length_code.getD lc 0) = v) ∧
        lbase.getD (length_code.getD lc 0) 0 + v = lc + 3 := by
  have inside := length_code_lt lc
  obtain ⟨op, few, bases⟩ := length_bases _ inside
  obtain ⟨low, high⟩ := length_code_range small
  refine ⟨op, few, lc + 3 - lbase.getD (length_code.getD lc 0) 0, by omega, fun some_ => ?_, by omega⟩
  have other : length_code.getD lc 0 ≠ 28 := by
    intro same
    rw [same] at some_
    exact some_ rfl
  rw [lengthCodes] at inside
  have same := (bases (by omega)).2
  omega

/-- The bases of the distance codes. -/
theorem dist_bases : ∀ code < 30, dext.getD code 0 = 16 + extra_dbits.getD code 0 ∧
    extra_dbits.getD code 0 ≤ 13 ∧ dbase.getD code 0 = base_dist code + 1 ∧
    (code < 16 → base_dist code = ((List.range' 0 code).map fun k => 2 ^ extra_dbits.getD k 0).sum) ∧
    (16 ≤ code → 7 ≤ extra_dbits.getD code 0 ∧ base_dist code =
      128 * (2 + ((List.range' 16 (code - 16)).map fun k => 2 ^ (extra_dbits.getD k 0 - 7)).sum)) := by
  decide

/-- A distance is among those of its code. -/
theorem d_code_range {dist : Nat} (small : dist < 32768) :
    base_dist (d_code dist) ≤ dist ∧ dist < base_dist (d_code dist) + 2 ^ extra_dbits.getD (d_code dist) 0 := by
  have front : ((List.range 16).flatMap fun code => List.replicate (2 ^ extra_dbits.getD code 0) code).length = 256 := by
    decide +kernel
  unfold d_code
  split
  · rename_i low
    have all : ((List.range' 0 16).map fun k => 2 ^ extra_dbits.getD k 0).sum = 256 := by decide
    obtain ⟨k, few, own, first, last⟩ := runs_getD (fun k => 2 ^ extra_dbits.getD k 0) (all ▸ low)
    have code : dist_code.getD dist 0 = k := by
      rw [Nat.zero_add, ← List.range_eq_range'] at own
      rw [← own, dist_code, List.append_assoc, List.getD_append _ _ _ _ (by omega)]
    obtain ⟨-, -, -, base, -⟩ := dist_bases k (by omega)
    rw [Nat.zero_add] at last
    rw [code, base few]
    exact ⟨first, last⟩
  · rename_i high
    -- From 256 on the code only depends on the distance without its last seven bits.
    have cut : dist >>> 7 = dist / 128 := Nat.shiftRight_eq_div_pow dist 7
    have all : ((List.range' 16 14).map fun k => 2 ^ (extra_dbits.getD k 0 - 7)).sum = 254 := by decide
    obtain ⟨k, few, own, first, last⟩ := @runs_getD (fun k => 2 ^ (extra_dbits.getD k 0 - 7)) 16 14
      (dist / 128 - 2) (by omega)
    have code : dist_code.getD (256 + dist >>> 7) 0 = 16 + k := by
      have two : (List.replicate (256 >>> 7) 0).length = 2 := rfl
      rw [← own, dist_code, cut, List.getD_append_right _ _ _ _ (by rw [List.length_append, front, two]; omega),
        List.length_append, front, two, (by omega : 256 + dist / 128 - (256 + 2) = dist / 128 - 2)]
      rfl
    obtain ⟨-, -, -, -, bases⟩ := dist_bases (16 + k) (by omega)
    obtain ⟨some_, base⟩ := bases (by omega)
    have power : 2 ^ extra_dbits.getD (16 + k) 0 = 128 * 2 ^ (extra_dbits.getD (16 + k) 0 - 7) := by
      rw [(by decide : 128 = 2 ^ 7), ← Nat.pow_add, Nat.add_sub_cancel' some_]
    rw [code, base, power, Nat.add_sub_cancel_left]
    omega

/-- The code of a distance, its extra bits and its base are those that are read. -/
theorem d_code_spec {dist : Nat} (small : dist < 32768) :
    dext.getD (d_code dist) 0 = 16 + extra_dbits.getD (d_code dist) 0 ∧ extra_dbits.getD (d_code dist) 0 ≤ 13 ∧
      dist - base_dist (d_code dist) < 2 ^ extra_dbits.getD (d_code dist) 0 ∧
      dbase.getD (d_code dist) 0 + (dist - base_dist (d_code dist)) = dist + 1 := by
  have inside := d_code_lt dist
  obtain ⟨op, few, base, -⟩ := dist_bases (d_code dist) inside
  obtain ⟨low, high⟩ := d_code_range small
  exact ⟨op, few, by omega, by omega⟩

end Beast.Zlib
