import Beast.Zlib.DecoderLaws
import Beast.Zlib.TableResults
import Mathlib

/-! The tables that are made are such as a decoder asks for: every string of bits ends at one of their entries. -/

namespace Beast.Zlib

open CanonicalCode BitReversal

variable {lens : List Nat} {type : Build} {IsLeaf : Code → Prop}

/-! ## What stands for a symbol -/

theorem Build.here_literal {s : Nat} (literal : s < 256) (work : Nat → Nat) (bits : Nat) :
    Build.lens.here work s bits = ⟨0, bits, s⟩ :=
  if_pos (show (s : Int) < 256 by exact_mod_cast literal)

theorem Build.here_eob (work : Nat → Nat) (bits : Nat) : Build.lens.here work 256 bits = ⟨96, bits, 0⟩ := rfl

theorem Build.here_length (code : Nat) (work : Nat → Nat) (bits : Nat) :
    Build.lens.here work (code + 257) bits = ⟨lext.getD code 0, bits, lbase.getD code 0⟩ := by
  have high : ¬((code + 257 : Nat) : Int) < 256 := by omega
  have above : (256 : Int) < (code + 257 : Nat) := by omega
  have here : Build.lens.here work (code + 257) bits =
      ⟨lext.getD (code + 257 - 257) 0, bits, lbase.getD (code + 257 - 257) 0⟩ :=
    (if_neg high).trans (if_pos above)
  rw [here, Nat.add_sub_cancel]

theorem Build.here_distance (s : Nat) (work : Nat → Nat) (bits : Nat) :
    Build.dists.here work s bits = ⟨dext.getD s 0, bits, dbase.getD s 0⟩ := by
  have high : ¬(s : Int) < -1 := by omega
  have above : (-1 : Int) < s := by omega
  exact (if_neg high).trans (if_pos above)

/-- A symbol of the literals and lengths is a literal, the end of the block, or a length. -/
theorem Build.lens_cases {s : Nat} (inside : s < Build.lens.limit) :
    s < 256 ∨ s = 256 ∨ ∃ code < 29, s = code + 257 := by
  simp only [limit] at inside
  by_cases literal : s < 256
  · exact .inl literal
  · by_cases last : s = 256
    · exact .inr (.inl last)
    · exact .inr (.inr ⟨s - 257, by omega, by omega⟩)

/-- No two symbols have the same entry. -/
theorem Build.here_inj {s t : Nat} (inside : s < type.limit) (inside' : t < type.limit) {work : Nat → Nat}
    {bits : Nat} (same : type.here work s bits = type.here work t bits) : s = t := by
  cases type with
  | codes =>
    simp only [limit] at inside inside'
    rw [here, here, if_pos (by simp only [end_]; omega), if_pos (by simp only [end_]; omega)] at same
    injection same
  | lens =>
    have bases : ∀ i < 29, ∀ j < 29, lbase.getD i 0 = lbase.getD j 0 → i = j := by decide
    have ops : ∀ i < 29, lext.getD i 0 ≠ 0 ∧ lext.getD i 0 ≠ 96 := by decide
    -- Literals, lengths and the end of the block are told apart by their operations.
    rcases lens_cases inside with literal | rfl | ⟨code, few, rfl⟩
    · rw [here_literal literal] at same
      rcases lens_cases inside' with literal' | rfl | ⟨code', few', rfl⟩
      · rw [here_literal literal'] at same
        injection same
      · rw [here_eob] at same
        injection same with op
        cases op
      · rw [here_length] at same
        injection same with op
        exact absurd op.symm (ops code' few').1
    · rw [here_eob] at same
      rcases lens_cases inside' with literal' | rfl | ⟨code', few', rfl⟩
      · rw [here_literal literal'] at same
        injection same with op
        cases op
      · rfl
      · rw [here_length] at same
        injection same with op
        exact absurd op.symm (ops code' few').2
    · rw [here_length] at same
      rcases lens_cases inside' with literal' | rfl | ⟨code', few', rfl⟩
      · rw [here_literal literal'] at same
        injection same with op
        exact absurd op (ops code few).1
      · rw [here_eob] at same
        injection same with op
        exact absurd op (ops code few).2
      · rw [here_length] at same
        injection same with _ _ val
        rw [bases code few code' few' val]
  | dists =>
    have bases : ∀ i < 30, ∀ j < 30, dbase.getD i 0 = dbase.getD j 0 → i = j := by decide
    rw [here_distance, here_distance] at same
    injection same with _ _ val
    exact bases s inside t inside' val

/-- What stands for a symbol of the literals and lengths is what a decoder knows. -/
theorem Build.lens_leaf {s : Nat} (inside : s < Build.lens.limit) (work : Nat → Nat) (bits : Nat) :
    (Build.lens.here work s bits).LenLeaf := by
  have lengths : ∀ i < 29, ∃ e ≤ 5, lext.getD i 0 = 16 + e ∧ lbase.getD i 0 + 2 ^ e ≤ 259 := by decide
  rcases lens_cases inside with literal | rfl | ⟨code, few, rfl⟩
  · rw [here_literal literal]
    exact .inl rfl
  · exact .inr (.inr (.inl rfl))
  · rw [here_length]
    exact .inr (.inl (lengths code few))

/-- What stands for a symbol of the distances is what a decoder knows. -/
theorem Build.dists_leaf {s : Nat} (inside : s < Build.dists.limit) (work : Nat → Nat) (bits : Nat) :
    (Build.dists.here work s bits).DistLeaf := by
  have distances : ∀ i < 30, ∃ e ≤ 13, dext.getD i 0 = 16 + e ∧ 1 ≤ dbase.getD i 0 ∧
      dbase.getD i 0 + 2 ^ e ≤ 32769 := by decide
  rw [here_distance]
  exact .inl (distances s inside)

/-- Which leaves the tables of a type have: all that stands for its symbols, and what stands for no code. -/
structure Build.Leaves (type : Build) (IsLeaf : Code → Prop) : Prop where
  symbol : ∀ s < type.limit, ∀ work bits, IsLeaf (type.here work s bits)
  invalid : ∀ bits, IsLeaf ⟨64, bits, 0⟩

theorem lens_leaves : Build.lens.Leaves Code.LenLeaf :=
  ⟨fun _ inside => Build.lens_leaf inside, fun _ => .inr (.inr (.inr (.inl rfl)))⟩

theorem dists_leaves : Build.dists.Leaves Code.DistLeaf :=
  ⟨fun _ inside => Build.dists_leaf inside, fun _ => .inr rfl⟩

/-! ## Texts with the same first bits -/

/-- Where a code is longer than some first bits, another text with these does not begin with it. -/
theorem exists_other {V s m : Nat} (small : V < 2 ^ 15) (starts : Starts lens V s) (long : m < len lens s)
    (short : len lens s ≤ 15) :
    ∃ U < 2 ^ 15, rev 15 U % 2 ^ m = rev 15 V % 2 ^ m ∧ ¬Starts lens U s := by
  -- The last bit of the code is the other one.
  have bit : 2 ^ (15 - len lens s) < 2 ^ 15 := Nat.pow_lt_pow_right (by decide) (by omega)
  refine ⟨V ^^^ 2 ^ (15 - len lens s), Nat.xor_lt_two_pow small bit, ?_, ?_⟩
  · rw [rev_mod (by omega), rev_mod (by omega)]
    congr 1
    have above : 2 ^ (15 - len lens s) < 2 ^ (15 - m) := Nat.pow_lt_pow_right (by decide) (by omega)
    rw [← Nat.shiftRight_eq_div_pow, Nat.shiftRight_xor_distrib, Nat.shiftRight_eq_div_pow (2 ^ (15 - len lens s)),
      Nat.div_eq_of_lt above, Nat.xor_zero, Nat.shiftRight_eq_div_pow]
  · intro other
    unfold Starts at starts other
    rw [← starts, ← Nat.shiftRight_eq_div_pow, Nat.shiftRight_xor_distrib,
      Nat.shiftRight_eq_div_pow (2 ^ (15 - len lens s)), Nat.div_self (Nat.two_pow_pos _),
      Nat.shiftRight_eq_div_pow] at other
    have parity := congrArg (· % 2) other
    simp only [Nat.xor_mod_two_eq] at parity
    omega

/-! ## Complete codes -/

/-- An entry for a symbol is not one that links to a sub-table. -/
theorem TableJob.entry_apart {j : TableJob} {s bits root start : Nat} {cp : Code} (inside : s < j.type.limit)
    (entry : cp = j.entry s (j.len s)) (link : cp = ⟨bits, root, start⟩) (positive : 0 < bits)
    (small : bits < 16) : False := by
  have symbol := Build.here_isLink inside j.work (j.len s)
  have linked := @Build.link_isLink j.type _ root start positive small
  unfold TableJob.entry at entry
  rw [← entry, link, linked] at symbol
  cases symbol

namespace Filling

variable {j : TableJob} {g : Filling}

/-- The entries of all symbols are there, and every text begins with the code of one. -/
structure Covers (j : TableJob) (entries : Nat → Code) (bound : Nat) : Prop where
  found : ∀ s ∈ j.order, ∀ V < 2 ^ 15, Starts j.lens V s → j.Finds entries bound V s
  all : ∀ V < 2 ^ 15, ∃ s ∈ j.order, Starts j.lens V s

variable {entries : Nat → Code} {bound V s : Nat}

/-- A symbol whose entry is in the table of the first bits has no more bits than these. -/
theorem Covers.root_short (covers : Covers j entries bound) (sound : j.Sound) (among : s ∈ j.order)
    (small : V < 2 ^ 15) (starts : Starts j.lens V s)
    (found : entries (rev 15 V % 2 ^ j.root) = j.entry s (j.len s)) : j.len s ≤ j.root := by
  by_contra long
  have symbol := mem_order.mp among
  have inside : s < j.type.limit := Nat.lt_of_lt_of_le (lt_length_of_len symbol.1) sound.few
  -- Another text with the same first bits begins with another code, whose entry is the same.
  obtain ⟨U, small', bits, apart⟩ := exists_other small starts (Nat.not_le.mp long) symbol.2
  obtain ⟨t, among', starts'⟩ := covers.all U small'
  have inside' : t < j.type.limit :=
    Nat.lt_of_lt_of_le (lt_length_of_len (mem_order.mp among').1) sound.few
  cases covers.found t among' U small' starts' with
  | root other =>
    rw [bits, found] at other
    have length := congrArg Code.bits other
    simp only [TableJob.entry, Build.here_bits] at length
    unfold TableJob.entry at other
    rw [length] at other
    exact apart (Build.here_inj inside inside' other ▸ starts')
  | sub link positive narrow =>
    rw [bits] at link
    exact TableJob.entry_apart inside found link positive (by omega)

/-- A symbol whose entry is in a sub-table has no more bits than that looks at. -/
theorem Covers.sub_short (covers : Covers j entries bound) (sound : j.Sound) (among : s ∈ j.order)
    (small : V < 2 ^ 15) (starts : Starts j.lens V s) {bits start : Nat}
    (link : entries (rev 15 V % 2 ^ j.root) = ⟨bits, j.root, start⟩) (positive : 0 < bits)
    (narrow : j.root + bits ≤ 15)
    (found : entries (start + rev 15 V / 2 ^ j.root % 2 ^ bits) = j.entry s (j.len s - j.root)) :
    j.len s - j.root ≤ bits := by
  by_contra long
  have symbol := mem_order.mp among
  have inside : s < j.type.limit := Nat.lt_of_lt_of_le (lt_length_of_len symbol.1) sound.few
  have longer : j.root + bits < CanonicalCode.len j.lens s := by
    change j.root + bits < j.len s
    omega
  obtain ⟨U, small', same, apart⟩ := exists_other small starts longer symbol.2
  obtain ⟨t, among', starts'⟩ := covers.all U small'
  have inside' : t < j.type.limit :=
    Nat.lt_of_lt_of_le (lt_length_of_len (mem_order.mp among').1) sound.few
  -- The other text has the same bits in both tables.
  have first : rev 15 U % 2 ^ j.root = rev 15 V % 2 ^ j.root := by
    have cut := congrArg (· % 2 ^ j.root) same
    simpa only [Nat.mod_mod_of_dvd _ (Nat.pow_dvd_pow 2 (Nat.le_add_right j.root bits))] using cut
  have second : rev 15 U / 2 ^ j.root % 2 ^ bits = rev 15 V / 2 ^ j.root % 2 ^ bits := by
    have cut := congrArg (· / 2 ^ j.root) same
    simpa only [Nat.pow_add, Nat.mod_mul_right_div_self] using cut
  cases covers.found t among' U small' starts' with
  | root other =>
    rw [first] at other
    exact TableJob.entry_apart inside' other link positive (by omega)
  | @sub bits' start' link' positive' narrow' long' first' room' other =>
    rw [first, link] at link'
    injection link' with width _ place
    rw [← width, ← place, second, found] at other
    have length := congrArg Code.bits other
    simp only [TableJob.entry, Build.here_bits] at length
    unfold TableJob.entry at other
    rw [length] at other
    exact apart (Build.here_inj inside inside' other ▸ starts')

/-- The tables of a complete code are valid. -/
theorem Covers.valid (covers : Covers j entries bound) (sound : j.Sound) (leaves : j.type.Leaves IsLeaf) :
    (Table.mk entries j.root).Valid IsLeaf := by
  have root_le : j.root ≤ 15 := Nat.le_trans sound.below sound.most
  refine ⟨root_le, fun i inside => ?_⟩
  dsimp only at inside ⊢
  obtain ⟨V, small, index⟩ := exists_rev (Nat.lt_of_lt_of_le inside (Nat.pow_le_pow_right (by decide) root_le))
  obtain ⟨s, among, starts⟩ := covers.all V small
  have symbol := mem_order.mp among
  have among_all : s < j.type.limit := Nat.lt_of_lt_of_le (lt_length_of_len symbol.1) sound.few
  have place : rev 15 V % 2 ^ j.root = i := by rw [index, Nat.mod_eq_of_lt inside]
  cases covers.found s among V small starts with
  | root found =>
    have short := covers.root_short sound among small starts found
    rw [place] at found
    rw [found]
    refine .inl ⟨leaves.symbol s among_all _ _, ?_, ?_⟩
    · unfold TableJob.entry
      rw [Build.here_bits]
      exact symbol.1
    · unfold TableJob.entry
      rw [Build.here_bits]
      exact short
  | @sub bits start link positive narrow long first room found =>
    rw [place] at link
    rw [link]
    refine .inr ⟨⟨positive, by dsimp only; omega⟩, sound.positive, narrow, fun k below => ?_⟩
    dsimp only at below ⊢
    -- Each index of the sub-table comes from a text with these first bits.
    have both : i + 2 ^ j.root * k < 2 ^ 15 := by
      calc i + 2 ^ j.root * k
        _ < 2 ^ j.root * 1 + 2 ^ j.root * k := by omega
        _ = 2 ^ j.root * (k + 1) := by ring
        _ ≤ 2 ^ j.root * 2 ^ bits := Nat.mul_le_mul_left _ below
        _ = 2 ^ (j.root + bits) := by rw [Nat.pow_add]
        _ ≤ 2 ^ 15 := Nat.pow_le_pow_right (by decide) narrow
    obtain ⟨U, small', index'⟩ := exists_rev both
    have low : rev 15 U % 2 ^ j.root = i := by
      rw [index', Nat.add_mul_mod_self_left, Nat.mod_eq_of_lt inside]
    have high : rev 15 U / 2 ^ j.root % 2 ^ bits = k := by
      rw [index', Nat.add_mul_div_left _ _ (Nat.two_pow_pos _), Nat.div_eq_of_lt inside, Nat.zero_add,
        Nat.mod_eq_of_lt below]
    obtain ⟨t, among', starts'⟩ := covers.all U small'
    have symbol' := mem_order.mp among'
    have among_all' : t < j.type.limit := Nat.lt_of_lt_of_le (lt_length_of_len symbol'.1) sound.few
    cases covers.found t among' U small' starts' with
    | root other =>
      rw [low] at other
      exact (TableJob.entry_apart among_all' other link positive (by omega)).elim
    | @sub bits' start' link' positive' narrow' long' first' room' other =>
      have own := link'
      rw [low, link] at own
      injection own with width _ from_
      subst width from_
      have short := covers.sub_short sound among' small' starts' link' positive' narrow' other
      rw [high] at other
      rw [other]
      refine ⟨leaves.symbol t among_all' _ _, ?_, ?_⟩
      · unfold TableJob.entry
        rw [Build.here_bits]
        omega
      · unfold TableJob.entry
        rw [Build.here_bits]
        exact short

/-- A complete code covers all texts with its entries. -/
theorem Complete.covers (complete : Complete j g) (all : filled j.lens 15 = 2 ^ 15) :
    Covers j g.finish g.used := by
  -- No entry remains that would have to be filled in.
  have huff : g.huff = 0 := by
    have zero : rev 15 (2 ^ 15) = 0 := by decide
    have total : j.weight j.order = 2 ^ 15 := by
      rw [← all]
      exact weight_all j.lens 15
    rw [complete.huff, total, zero]
  have same : g.finish = g.entries := if_neg (not_not.mpr huff)
  rw [same]
  refine ⟨complete.found, fun V small => ?_⟩
  rw [← all] at small
  exact exists_begins small

/-- Where there is a single code of one bit, the other bit leads to the entry for no code. -/
theorem Complete.lone (complete : Complete j g) (sound : j.Sound) (less : filled j.lens 15 < 2 ^ 15) :
    j.root = 1 ∧ g.finish 1 = ⟨64, 1, 0⟩ ∧ ∃ s < j.type.limit, g.finish 0 = j.entry s 1 := by
  have longest : j.max = 1 := sound.complete.resolve_left less.ne
  have root : j.root = 1 := by
    have positive := sound.positive
    have below := sound.below
    omega
  have ones : ∀ s ∈ j.order, CanonicalCode.len j.lens s = 1 := by
    intro s member
    have coded := (mem_order.mp member).1
    have short : CanonicalCode.len j.lens s ≤ j.max := sound.longest s member
    omega
  have size : j.order.length * 2 ^ 14 = filled j.lens 15 := by
    have total : CanonicalCode.weight j.lens 15 j.order = filled j.lens 15 := weight_all j.lens 15
    rw [← total, weight_of_len ones]
  have some_ : 0 < j.order.length := by
    obtain ⟨t, among, -⟩ := List.mem_map.mp (List.count_pos_iff.mp sound.last)
    exact List.length_pos_of_mem among
  obtain ⟨s, single⟩ := List.length_eq_one_iff.mp (by omega : j.order.length = 1)
  obtain ⟨next, drop, own⟩ := complete.single (by omega)
  have huff : g.huff = 1 := by
    have half : rev 15 (2 ^ 14) = 1 := by decide
    have total : j.weight j.order = 2 ^ 14 := by
      rw [single] at size
      rw [← Nat.one_mul (2 ^ 14)]
      exact (weight_all j.lens 15).trans size.symm
    rw [complete.huff, total, half]
  have finished : g.finish = Function.update g.entries 1 ⟨64, 1, 0⟩ := by
    rw [finish, huff, if_pos (by decide), next, drop, own, longest]
  have among : s ∈ j.order := single ▸ List.mem_singleton_self s
  have coded : CanonicalCode.len j.lens s = 1 := ones s among
  -- The text of zeros begins with the code.
  have starts : Starts j.lens 0 s := by
    have alone : CanonicalCode.order j.lens 15 = [] ++ s :: [] := single
    have first := code_mul alone
    rw [coded, CanonicalCode.weight_nil] at first
    rw [Starts, coded, Nat.zero_div]
    omega
  refine ⟨root, by rw [finished, Function.update_self], s,
    Nat.lt_of_lt_of_le (lt_length_of_len (by omega)) sound.few, ?_⟩
  rw [finished, Function.update_of_ne (by decide)]
  cases complete.found s among 0 (by decide) starts with
  | root found =>
    rw [root, (by decide : rev 15 0 % 2 ^ 1 = 0)] at found
    rw [found, TableJob.len, coded]
  | sub _ _ _ long =>
    rw [root, TableJob.len, coded] at long
    exact absurd long (Nat.lt_irrefl 1)

/-- The tables of all codes that are right are valid, with the remaining entry filled in. -/
theorem Complete.valid (complete : Complete j g) (sound : j.Sound) (leaves : j.type.Leaves IsLeaf) :
    (Table.mk g.finish j.root).Valid IsLeaf := by
  rcases Nat.eq_or_lt_of_le sound.fits with all | less
  · exact (complete.covers all).valid sound leaves
  · obtain ⟨root, one, s, inside, zero⟩ := complete.lone sound less
    rw [root]
    refine ⟨(by decide : 1 ≤ 15), fun i below => .inl ?_⟩
    dsimp only at below ⊢
    rcases (by omega : i = 0 ∨ i = 1) with rfl | rfl
    · rw [zero]
      refine ⟨leaves.symbol s inside _ _, ?_, ?_⟩ <;> simp [TableJob.entry]
    · rw [one]
      exact ⟨leaves.invalid 1, Nat.le_refl 1, Nat.le_refl 1⟩

end Filling

/-! ## Tables that are made -/

/-- Where the lengths are right, the table that is made is valid. -/
theorem Checked.made_valid (checked : Checked type lens) {bits : Nat} {work : Nat → Nat} {entries : Nat → Code}
    {t : Table} {used : Nat} (leaves : type.Leaves IsLeaf)
    (made : makeTable (tableJob type lens bits work)
      (minLength lens.count (maxLength lens.count 15) (maxLength lens.count 15 - 1)) entries = .table t used) :
    t.Valid IsLeaf := by
  obtain ⟨j, job⟩ : ∃ j, tableJob type lens bits work = j := ⟨_, rfl⟩
  have sound : j.Sound := job ▸ checked.sound bits work
  by_cases excess : type.tooMany (2 ^ rootBits lens bits) = true
  · have throws := (if_pos excess).symm.trans made
    cases throws
  · have fits : type.tooMany (2 ^ rootBits lens bits) = false := by simpa using excess
    obtain ⟨s, rest, awaits, phase⟩ := checked.awaits bits work entries fits
    rw [job] at awaits phase made
    have lens_eq : j.lens = lens := by rw [← job]; rfl
    have enough : rest.length < lens.length := by
      have all := length_order_le lens 15
      have ordered : order lens 15 = s :: rest := by
        rw [← lens_eq]
        exact awaits.order
      rw [ordered] at all
      exact all
    have fits' : j.type.tooMany (2 ^ j.root) = false := by rw [← job]; exact fits
    have most : maxLength lens.count 15 = j.max := by rw [← job]; rfl
    rw [most] at made
    rw [← lens_eq] at enough made awaits phase
    rcases awaits.run phase sound enough with ⟨g, ran, complete⟩ | ⟨ran, -⟩
    · rw [Zlib.makeTable_all fits' ran] at made
      injection made with same
      rw [← same]
      exact complete.valid sound (by rw [← job]; exact leaves)
    · rw [Zlib.makeTable_none fits' ran] at made
      cases made

/-- Every table that is made from lengths of at most 15 bits is valid. -/
theorem inflate_table_valid (leaves : type.Leaves IsLeaf) (bounded : ∀ l ∈ lens, l ≤ 15)
    (few : lens.length ≤ type.limit) {entries : Nat → Code} {bits : Nat} {work : Nat → Nat} {t : Table} {used : Nat}
    (made : inflate_table type lens entries bits work = .table t used) : t.Valid IsLeaf := by
  by_cases none : maxLength lens.count 15 = 0
  · -- Without codes both entries are for no code.
    rw [inflate_table] at made
    dsimp only at made
    rw [if_pos none] at made
    injection made with same
    rw [← same]
    refine ⟨(by decide : 1 ≤ 15), fun i below => .inl ?_⟩
    have entry : Function.update (Function.update entries 0 ⟨64, 1, 0⟩) 1 ⟨64, 1, 0⟩ i = (⟨64, 1, 0⟩ : Code) := by
      dsimp only at below
      rcases (by omega : i = 0 ∨ i = 1) with rfl | rfl
      · rw [Function.update_of_ne (by decide), Function.update_self]
      · rw [Function.update_self]
    dsimp only
    rw [entry]
    exact ⟨leaves.invalid 1, Nat.le_refl 1, Nat.le_refl 1⟩
  · have right := right_of_accepted bounded fun e failed => by cases made.symm.trans failed
    obtain ⟨checked, eq⟩ := inflate_table_checked bounded few right none entries bits work
    rw [eq] at made
    exact checked.made_valid leaves made

end Beast.Zlib
