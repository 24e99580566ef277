import Beast.Zlib.TableDecodes
import Mathlib.Tactic.Linarith
import Mathlib.Tactic.NormNum

/-! What the making of a table comes to, for all lengths of codes. -/

namespace Beast.Zlib

open CanonicalCode BitReversal

/-- The code of a symbol is in front of a string of bits. -/
def Begins (lens : List Nat) (b : Nat → Bool) (s : Nat) : Prop :=
  0 < len lens s ∧ msb b (len lens s) = code lens s

/-- The entry that a string of bits is looked up to, behind a link at most, and how many bits are
dropped. -/
def Table.find (t : Table) (isLink : Code → Bool) (b : Nat → Bool) : Code × Nat :=
  let cp := t.entries (lsb b 0 t.bits)
  if isLink cp then
    let sub := t.entries (cp.val + lsb b 0 (cp.bits + cp.op) >>> cp.bits)
    (sub, cp.bits + sub.bits)
  else (cp, cp.bits)

/-- A table leads every string of bits to the symbol whose code is in front of it, or to an invalid code. -/
structure Table.Decodes (t : Table) (type : Build) (work : Nat → Nat) (lens : List Nat) : Prop where
  word : ∀ b s, Begins lens b s →
    ∃ bits, t.find type.isLink b = (type.here work s bits, len lens s)
  invalid : ∀ b, (∀ s, ¬Begins lens b s) → (t.find type.isLink b).1.op = 64

/-- A code that need not be complete: one without words, or with a single one of one bit. -/
def Permitted (type : Build) (lens : List Nat) : Prop :=
  (∀ l ∈ lens, l = 0) ∨ type ≠ .codes ∧ lens.filter (· ≠ 0) = [1]

/-- How many bits are looked up first: as many as are asked for, between the shortest code and the
longest one. -/
def rootBits (lens : List Nat) (bits : Nat) : Nat :=
  let longest := maxLength lens.count 15
  max (minLength lens.count longest (longest - 1)) (min bits longest)

variable {lens : List Nat} {type : Build} {b : Nat → Bool} {s t : Nat}

/-! ## Strings of bits -/

/-- Fewer bits of a string are what is left of more of them. -/
theorem lsb_mod (b : Nat → Bool) {n k : Nat} (le : k ≤ n) : lsb b 0 n % 2 ^ k = lsb b 0 k := by
  obtain ⟨m, rfl⟩ := Nat.exists_eq_add_of_le le
  rw [lsb_add, Nat.add_mul_mod_self_right, Nat.mod_eq_of_lt (lsb_lt b 0 k)]

/-- A string begins with a code where its first 15 bits do. -/
theorem begins_iff_starts (short : len lens s ≤ 15) (coded : 0 < len lens s) :
    Begins lens b s ↔ Starts lens (msb b 15) s := by
  have front := msb_div b (len lens s) (15 - len lens s)
  rw [Nat.add_sub_cancel' short] at front
  rw [Begins, Starts, front, and_iff_right coded]

/-- No string of bits begins with the codes of two symbols. -/
theorem Begins.unique (bounded : ∀ l ∈ lens, l ≤ 15) (first : Begins lens b s)
    (second : Begins lens b t) : s = t := by
  have short := len_le bounded
  have one := (begins_iff_starts (short s) first.1).mp first
  have other := (begins_iff_starts (short t) second.1).mp second
  exact begins_unique (mem_order.mpr ⟨first.1, short s⟩) (mem_order.mpr ⟨second.1, short t⟩) one other

/-! ## Lookups -/

/-- What is found for the first 15 bits is found for the string. -/
theorem TableJob.Finds.find {j : TableJob} {entries : Nat → Code} {bound : Nat}
    (finds : j.Finds entries bound (msb b 15) s) (inside : s < j.type.limit) (root_le : j.root ≤ 15) :
    ∃ bits, (Table.mk entries j.root).find j.type.isLink b = (j.entry s bits, j.len s) := by
  have index : lsb b 0 j.root = rev 15 (msb b 15) % 2 ^ j.root := by
    rw [← lsb_eq_rev, lsb_mod b root_le]
  unfold Table.find
  dsimp only
  cases finds with
  | root found =>
    refine ⟨j.len s, ?_⟩
    rw [index, found, entry, Build.here_isLink inside, Build.here_bits]
    rfl
  | @sub bits start link positive small long first before found =>
    refine ⟨j.len s - j.root, ?_⟩
    have place : lsb b 0 (j.root + bits) >>> j.root = rev 15 (msb b 15) / 2 ^ j.root % 2 ^ bits := by
      rw [← lsb_mod b small, lsb_eq_rev, Nat.shiftRight_eq_div_pow, Nat.pow_add,
        Nat.mod_mul_right_div_self]
    rw [index, link, Build.link_isLink _ positive (by omega)]
    dsimp only
    rw [place, found, if_pos rfl, entry, Build.here_bits, Nat.add_sub_cancel' long.le]

/-- A table without links in which the bits lead to an invalid code. -/
theorem Table.find_invalid {t : Table} {bits : Nat} (found : t.entries (lsb b 0 t.bits) = ⟨64, bits, 0⟩) :
    (t.find type.isLink b).1.op = 64 := by
  unfold Table.find
  dsimp only
  rw [found, Build.invalid_isLink]
  rfl

/-- What stands for a symbol does not depend on the work area. -/
theorem Build.here_work (inside : s < type.limit) (work work' : Nat → Nat) (bits : Nat) :
    type.here work s bits = type.here work' s bits := by
  cases type with
  | codes =>
    have below : (s : Int) < Build.codes.end_ := by
      simp only [end_]
      exact_mod_cast inside
    rw [here, here, if_pos below, if_pos below]
  | lens => rfl
  | dists => rfl

/-! ## The first turn -/

/-- The lengths of a code that has words, not too many of them, and not too few. -/
structure Checked (type : Build) (lens : List Nat) : Prop where
  few : lens.length ≤ type.limit
  bounded : ∀ l ∈ lens, l ≤ 15
  some_ : maxLength lens.count 15 ≠ 0
  fits : filled lens 15 ≤ 2 ^ 15
  complete : filled lens 15 = 2 ^ 15 ∨ maxLength lens.count 15 = 1

/-- What the loop over the symbols is given. -/
def tableJob (type : Build) (lens : List Nat) (bits : Nat) (work : Nat → Nat) : TableJob :=
  ⟨type, lens, sortSymbols 0 lens (offsets lens.count) work, maxLength lens.count 15, rootBits lens bits⟩

theorem count_longer {l : Nat} (longer : maxLength lens.count 15 < l) (short : l ≤ 15) :
    lens.count l = 0 :=
  @count_above lens.count 15 l longer short

theorem mem_of_count {l : Nat} (some_ : lens.count l ≠ 0) (positive : 0 < l) (short : l ≤ 15) :
    ∃ s ∈ order lens 15, len lens s = l := by
  rw [← count_order positive short] at some_
  exact List.mem_map.mp (List.count_pos_iff.mp (Nat.pos_of_ne_zero some_))

theorem Checked.sound (checked : Checked type lens) (bits : Nat) (work : Nat → Nat) :
    (tableJob type lens bits work).Sound := by
  have longest := maxLength_le lens.count 15
  have some_ := checked.some_
  have shortest := minLength_le lens.count (maxLength lens.count 15) (maxLength lens.count 15 - 1)
  have first := le_minLength lens.count (Nat.sub_le (maxLength lens.count 15) 1)
  refine ⟨checked.few, checked.fits, checked.complete, fun ordered => sortSymbols_order work ordered,
    ?_, ?_, longest, ?_, ?_⟩
  · change 0 < max _ _
    omega
  · change max _ _ ≤ maxLength lens.count 15
    omega
  · intro s member
    obtain ⟨coded, short⟩ := mem_order.mp member
    by_contra longer
    have none : lens.count (len lens s) = 0 := count_longer (Nat.not_le.mp longer) short
    have counted : ((order lens 15).map (len lens)).count (len lens s) = lens.count (len lens s) :=
      count_order coded short
    rw [none] at counted
    exact List.count_eq_zero.mp counted (List.mem_map_of_mem member)
  · change 0 < ((order lens 15).map (len lens)).count (maxLength lens.count 15)
    rw [count_order (Nat.pos_of_ne_zero some_) longest]
    exact Nat.pos_of_ne_zero (count_maxLength some_)

/-- The loop starts with the first of the symbols. -/
theorem Checked.awaits (checked : Checked type lens) (bits : Nat) (work : Nat → Nat)
    (entries : Nat → Code) (fits : type.tooMany (2 ^ rootBits lens bits) = false) :
    let j := tableJob type lens bits work
    let first := Filling.first j (minLength lens.count j.max (j.max - 1)) entries
    ∃ s rest, Filling.Awaits j [] s rest first ∧ Filling.Phase j [] s rest first := by
  intro j first
  have longest := maxLength_le lens.count 15
  have some_ := checked.some_
  have below := minLength_le lens.count (maxLength lens.count 15) (maxLength lens.count 15 - 1)
  have above := le_minLength lens.count (Nat.sub_le (maxLength lens.count 15) 1)
  have start : first.len =
      minLength lens.count (maxLength lens.count 15) (maxLength lens.count 15 - 1) := rfl
  have counted : lens.count first.len ≠ 0 := count_minLength (count_maxLength some_)
  obtain ⟨u, member, shortest⟩ := mem_of_count counted (by omega) (by omega)
  obtain ⟨s, rest, ordered⟩ : ∃ s rest, order lens 15 = s :: rest :=
    List.exists_cons_of_ne_nil (List.ne_nil_of_mem member)
  -- No code is shorter than the first one.
  have own : first.len = len lens s := by
    have sorted := pairwise_order lens 15
    obtain ⟨coded, short⟩ := mem_order.mp (ordered ▸ List.mem_cons_self : s ∈ order lens 15)
    have present : lens.count (len lens s) ≠ 0 := by
      rw [← count_order coded short, ordered]
      simp
    refine Nat.le_antisymm ?_ ?_
    · by_contra longer
      rw [start, Nat.not_le] at longer
      exact present (@count_below lens.count _ _ _ (Nat.sub_le _ 1) (by omega) longer)
    · rw [ordered] at sorted member
      rcases List.mem_cons.mp member with rfl | behind
      · exact shortest.le
      · exact ((List.pairwise_cons.mp sorted).1 u behind).trans shortest.le
  refine ⟨s, rest, ⟨ordered, rfl, own, ?_, ?_, fits⟩, .root ?_ ?_⟩
  · have zero : rev 15 0 = 0 := by decide
    exact zero.symm
  · intro l positive
    change lens.count l = ((s :: rest).map (len lens)).count l
    rw [← ordered]
    rcases Nat.lt_or_ge 15 l with long | short
    · rw [List.count_eq_zero.mpr fun member => by have := checked.bounded l member; omega,
        List.count_eq_zero.mpr fun member => ?_]
      obtain ⟨t, among, rfl⟩ := List.mem_map.mp member
      have less := (mem_order.mp among).2
      omega
    · rw [count_order positive short]
  · exact ⟨rfl, rfl, rfl, rfl, rfl, nofun, nofun⟩
  · change len lens s ≤ max _ _
    rw [← own]
    exact Nat.le_max_left _ _

/-! ## The last entry -/

/-- A code has a single word of one bit where its words are no longer, and not enough. -/
theorem lone_iff (bounded : ∀ l ∈ lens, l ≤ 15) :
    maxLength lens.count 15 = 1 ∧ kraft lens < 1 ↔ lens.filter (· ≠ 0) = [1] := by
  constructor
  · rintro ⟨longest, less⟩
    have ones : ∀ l ∈ lens.filter (· ≠ 0), l = 1 := by
      intro l member
      obtain ⟨among, some_⟩ := List.mem_filter.mp member
      rw [decide_eq_true_eq] at some_
      by_contra other
      exact List.count_eq_zero.mp (count_longer (by omega) (bounded l among)) among
    have all := List.eq_replicate_of_mem ones
    obtain ⟨k, size⟩ : ∃ k, (lens.filter (· ≠ 0)).length = k := ⟨_, rfl⟩
    rw [size] at all
    have present : lens.count 1 ≠ 0 := by
      have some_ := @count_maxLength lens.count 15 (by omega)
      rwa [longest] at some_
    have member : 1 ∈ lens.filter (· ≠ 0) := by
      refine List.mem_filter.mpr ⟨List.count_pos_iff.mp (Nat.pos_of_ne_zero present), by decide⟩
    have positive : 0 < k := size ▸ List.length_pos_of_mem member
    rw [kraft, all, List.map_replicate, List.sum_replicate, nsmul_eq_mul] at less
    have few : (k : ℚ) < 2 := by linarith
    have one : k < 2 := by exact_mod_cast few
    rw [all, (by omega : k = 1)]
    rfl
  · intro lone
    have mem : ∀ l, l ∈ lens ∧ l ≠ 0 ↔ l = 1 := fun l => by
      have among : l ∈ lens.filter (· ≠ 0) ↔ l ∈ [1] := by rw [lone]
      simpa using among
    have present := ((mem 1).mpr rfl).1
    have some_ : maxLength lens.count 15 ≠ 0 := fun none =>
      List.count_eq_zero.mp (count_longer (by omega) (by decide)) present
    have counted : lens.count (maxLength lens.count 15) ≠ 0 := count_maxLength some_
    refine ⟨(mem _).mp ⟨List.count_pos_iff.mp (Nat.pos_of_ne_zero counted), some_⟩, ?_⟩
    rw [kraft, lone]
    norm_num

/-- A table in which all codes are found leads the strings of bits to their symbols. -/
theorem word_of_finds {j : TableJob} {entries : Nat → Code} {bound : Nat} (sound : j.Sound)
    (bounded : ∀ l ∈ j.lens, l ≤ 15)
    (found : ∀ s ∈ j.order, ∀ V < 2 ^ 15, Starts j.lens V s → j.Finds entries bound V s)
    (work : Nat → Nat) (begins : Begins j.lens b s) :
    ∃ bits, (Table.mk entries j.root).find j.type.isLink b =
      (j.type.here work s bits, len j.lens s) := by
  have short := len_le bounded s
  have inside : s < j.type.limit :=
    Nat.lt_of_lt_of_le (lt_length_of_len begins.1) sound.few
  have finds := found s (mem_order.mpr ⟨begins.1, short⟩) (msb b 15) (msb_lt b 15)
    ((begins_iff_starts short begins.1).mp begins)
  obtain ⟨bits, same⟩ := finds.find (b := b) inside (Nat.le_trans sound.below sound.most)
  refine ⟨bits, same.trans ?_⟩
  rw [TableJob.entry, Build.here_work inside j.work work]
  rfl

/-- Codes with no more bits than are looked up first are found without a link. -/
def Table.Direct (t : Table) (type : Build) (work : Nat → Nat) (lens : List Nat) : Prop :=
  ∀ b s, Begins lens b s → len lens s ≤ t.bits →
    t.entries (lsb b 0 t.bits) = type.here work s (len lens s)

theorem direct_of_finds {j : TableJob} {entries : Nat → Code} {bound : Nat} (sound : j.Sound)
    (bounded : ∀ l ∈ j.lens, l ≤ 15)
    (found : ∀ s ∈ j.order, ∀ V < 2 ^ 15, Starts j.lens V s → j.Finds entries bound V s)
    (work : Nat → Nat) : (Table.mk entries j.root).Direct j.type work j.lens := by
  intro b s begins low
  have short := len_le bounded s
  have inside : s < j.type.limit := Nat.lt_of_lt_of_le (lt_length_of_len begins.1) sound.few
  have index : lsb b 0 j.root = rev 15 (msb b 15) % 2 ^ j.root := by
    rw [← lsb_eq_rev, lsb_mod b (Nat.le_trans sound.below sound.most)]
  have finds := found s (mem_order.mpr ⟨begins.1, short⟩) (msb b 15) (msb_lt b 15)
    ((begins_iff_starts short begins.1).mp begins)
  cases finds with
  | root found =>
    dsimp only
    rw [index, found, TableJob.entry, Build.here_work inside j.work work]
    rfl
  | sub link positive small long first before found =>
    exact absurd low (Nat.not_le.mpr long)

/-- A string of bits that begins with no code is behind all codes. -/
theorem filled_le (bounded : ∀ l ∈ lens, l ≤ 15) (none : ∀ s, ¬Begins lens b s) :
    filled lens 15 ≤ msb b 15 := by
  by_contra inside
  obtain ⟨s, member, starts⟩ := exists_begins (Nat.not_le.mp inside)
  obtain ⟨coded, -⟩ := mem_order.mp member
  exact none s ((begins_iff_starts (len_le bounded s) coded).mpr starts)

/-- The tables with entries for all codes decode every string of bits, with the remaining entry filled
in. -/
theorem Filling.Complete.decodes {j : TableJob} {g : Filling} (complete : Complete j g)
    (sound : j.Sound) (bounded : ∀ l ∈ j.lens, l ≤ 15) (work : Nat → Nat) :
    (Table.mk g.finish j.root).Decodes j.type work j.lens ∧
      (Table.mk g.finish j.root).Direct j.type work j.lens := by
  have total : j.weight j.order = filled j.lens 15 := weight_all j.lens 15
  rcases Nat.eq_or_lt_of_le sound.fits with all | less
  · -- All strings of bits begin with codes.
    have huff : g.huff = 0 := by
      have zero : rev 15 (2 ^ 15) = 0 := by decide
      rw [complete.huff, total, all, zero]
    rw [finish, if_neg (by simpa using huff)]
    refine ⟨⟨fun b s begins => word_of_finds sound bounded complete.found work begins, ?_⟩,
      direct_of_finds sound bounded complete.found work⟩
    intro b none
    have behind := filled_le bounded none
    have inside := msb_lt b 15
    omega
  · -- There is one code, of one bit, and the other bit leads to the remaining entry.
    have longest : j.max = 1 := sound.complete.resolve_left less.ne
    have root : j.root = 1 := by
      have positive := sound.positive
      have below := sound.below
      omega
    have ones : ∀ s ∈ j.order, CanonicalCode.len j.lens s = 1 := by
      intro s member
      have coded := (mem_order.mp member).1
      have short : CanonicalCode.len j.lens s ≤ j.max := sound.longest s member
      omega
    have size : filled j.lens 15 = j.order.length * 2 ^ 14 := by
      rw [← total, TableJob.weight, weight_of_len ones]
    have some_ : 0 < j.order.length := by
      have member := List.count_pos_iff.mp sound.last
      simpa using List.length_pos_of_mem member
    have one : j.order.length = 1 := by omega
    obtain ⟨lone, single⟩ := List.length_eq_one_iff.mp one
    rw [one, Nat.one_mul] at size
    obtain ⟨next, drop, own⟩ := complete.single (by omega)
    have huff : g.huff = 1 := by
      have half : rev 15 (2 ^ 14) = 1 := by decide
      rw [complete.huff, total, size, half]
    have finished : g.finish = Function.update g.entries 1 ⟨64, 1, 0⟩ := by
      rw [finish, huff, if_pos (by decide), next, drop, own, longest]
    have first : 2 ^ j.root ≤ g.used := by
      rw [complete.used, ← sizeUpTo_zero j.lens]
      exact sizeUpTo_mono (Nat.zero_le _)
    have index : ∀ V, rev 15 V % 2 ^ j.root = rev 1 (V / 2 ^ 14) := fun V => by
      rw [root, rev_mod (by decide)]
    have found : ∀ s ∈ j.order, ∀ V < 2 ^ 15, Starts j.lens V s →
        j.Finds (Function.update g.entries 1 ⟨64, 1, 0⟩) g.used V s := by
      intro s member V small starts
      have front : V / 2 ^ 14 = 0 := by
        have before := starts
        have none : code j.lens lone * 2 ^ (15 - CanonicalCode.len j.lens lone) = 0 :=
          code_mul (by rw [← List.nil_append [lone]] at single; exact single)
        rw [single, List.mem_singleton] at member
        rw [Starts, member, ones lone (single ▸ List.mem_singleton_self lone)] at before
        rw [ones lone (single ▸ List.mem_singleton_self lone)] at none
        omega
      refine (complete.found s member V small starts).frame first fun p _ own => ?_
      rw [Function.update_of_ne]
      rintro rfl
      have same := own (by rw [root]; decide)
      rw [index, front] at same
      revert same
      decide
    rw [finished]
    refine ⟨⟨fun b s begins => word_of_finds sound bounded found work begins, fun b none => ?_⟩,
      direct_of_finds sound bounded found work⟩
    have behind := filled_le bounded none
    have inside := msb_lt b 15
    rw [size] at behind
    have front : msb b 15 / 2 ^ 14 = 1 := by omega
    have place : lsb b 0 j.root = 1 := by
      rw [← lsb_mod b (by omega : j.root ≤ 15), lsb_eq_rev, index, front]
      decide
    refine @Table.find_invalid _ _ _ 1 ?_
    dsimp only
    rw [place, Function.update_self]

/-! ## The results -/

theorem makeTable_all {j : TableJob} {min : Nat} {entries : Nat → Code} {g : Filling}
    (fits : j.type.tooMany (2 ^ j.root) = false)
    (ran : Machine.iterate (Filling.turn j) j.lens.length (.inl (.first j min entries)) =
      .inr (.all g)) : makeTable j min entries = .table ⟨g.finish, j.root⟩ g.used := by
  rw [makeTable, if_neg (by rw [fits]; decide), ran]

theorem makeTable_none {j : TableJob} {min : Nat} {entries : Nat → Code}
    (fits : j.type.tooMany (2 ^ j.root) = false)
    (ran : Machine.iterate (Filling.turn j) j.lens.length (.inl (.first j min entries)) =
      .inr .not_enough) : makeTable j min entries = .throws := by
  rw [makeTable, if_neg (by rw [fits]; decide), ran]

/-- Where the lengths are right, the tables are made, unless there is no space for them. -/
theorem Checked.made (checked : Checked type lens) (bits : Nat) (work : Nat → Nat)
    (entries : Nat → Code) :
    let j := tableJob type lens bits work
    let made := makeTable j (minLength lens.count j.max (j.max - 1)) entries
    (type.tooMany (tableSize lens j.root) = true → made = .throws) ∧
      (type.tooMany (tableSize lens j.root) = false →
        ∃ t, made = .table t (tableSize lens j.root) ∧ t.bits = j.root ∧
          t.Decodes type work lens ∧ t.Direct type work lens) := by
  intro j made
  have sound := checked.sound bits work
  have least : 2 ^ j.root ≤ tableSize lens j.root := by
    rw [← sizeUpTo_zero lens]
    exact sizeUpTo_mono (Nat.zero_le _)
  by_cases excess : type.tooMany (2 ^ j.root) = true
  · have none : made = .throws := if_pos excess
    refine ⟨fun _ => none, fun enough => ?_⟩
    rw [Build.tooMany_mono least excess] at enough
    cases enough
  · have fits : type.tooMany (2 ^ j.root) = false := by simpa using excess
    obtain ⟨s, rest, awaits, phase⟩ := checked.awaits bits work entries fits
    have enough : rest.length < lens.length := by
      have all := length_order_le lens 15
      have ordered : order lens 15 = s :: rest := awaits.order
      rw [ordered] at all
      exact all
    rcases awaits.run phase sound enough with ⟨g, ran, complete⟩ | ⟨ran, none⟩
    · have table : made = .table ⟨g.finish, j.root⟩ g.used := makeTable_all fits ran
      have size : g.used = tableSize lens j.root := complete.used
      have fits' : type.tooMany (tableSize lens j.root) = false := size ▸ complete.fits
      refine ⟨fun excess' => ?_, fun _ => ?_⟩
      · rw [fits'] at excess'
        cases excess'
      · exact ⟨_, size ▸ table, rfl, complete.decodes sound checked.bounded work⟩
    · refine ⟨fun _ => makeTable_none fits ran, fun enough' => ?_⟩
      have excess' : type.tooMany (tableSize lens j.root) = true := none
      rw [excess'] at enough'
      cases enough'

/-- What is done where there are codes. -/
theorem inflate_table_some (some_ : maxLength lens.count 15 ≠ 0) (entries : Nat → Code) (bits : Nat)
    (work : Nat → Nat) :
    inflate_table type lens entries bits work =
      match codesLeft lens.count 15 with
      | .error e => .fails e
      | .ok left =>
        if 0 < left ∧ (type = .codes ∨ maxLength lens.count 15 ≠ 1) then .fails .incomplete_length_set
        else
          makeTable (tableJob type lens bits work)
            (minLength lens.count (maxLength lens.count 15) (maxLength lens.count 15 - 1)) entries := by
  have root : (if (if maxLength lens.count 15 < bits then maxLength lens.count 15 else bits) <
        minLength lens.count (maxLength lens.count 15) (maxLength lens.count 15 - 1) then
      minLength lens.count (maxLength lens.count 15) (maxLength lens.count 15 - 1)
      else if maxLength lens.count 15 < bits then maxLength lens.count 15 else bits) =
        rootBits lens bits := by
    change _ = max _ (min bits (maxLength lens.count 15))
    split <;> split at * <;> omega
  rw [inflate_table, if_neg some_]
  dsimp only
  rw [root]
  rfl

theorem none_iff (bounded : ∀ l ∈ lens, l ≤ 15) :
    maxLength lens.count 15 = 0 ↔ ∀ l ∈ lens, l = 0 := by
  constructor
  · intro none l member
    by_contra some_
    exact List.count_eq_zero.mp (count_longer (by omega) (bounded l member)) member
  · intro all
    by_contra some_
    have counted : lens.count (maxLength lens.count 15) ≠ 0 := count_maxLength some_
    exact some_ (all _ (List.count_pos_iff.mp (Nat.pos_of_ne_zero counted)))

/-- Too many codes are reported. -/
theorem inflate_table_over (bounded : ∀ l ∈ lens, l ≤ 15) (excess : 1 < kraft lens)
    (entries : Nat → Code) (bits : Nat) (work : Nat → Nat) :
    inflate_table type lens entries bits work = .fails .over_subscribed_length := by
  have some_ : maxLength lens.count 15 ≠ 0 := by
    intro none
    have all := (none_iff bounded).mp none
    rw [kraft, List.filter_eq_nil_iff.mpr fun l member => by simpa using all l member] at excess
    norm_num at excess
  rw [inflate_table_some some_, codesLeft_over ((one_lt_kraft bounded).mp excess)]

/-- Too few codes are reported, unless they are permitted. -/
theorem inflate_table_incomplete (bounded : ∀ l ∈ lens, l ≤ 15) (less : kraft lens < 1)
    (strict : ¬Permitted type lens) (entries : Nat → Code) (bits : Nat) (work : Nat → Nat) :
    inflate_table type lens entries bits work = .fails .incomplete_length_set := by
  rw [Permitted, not_or, ← none_iff bounded, ← lone_iff bounded] at strict
  have few := (kraft_lt_one bounded).mp less
  rw [inflate_table_some strict.1, codesLeft_eq few.le]
  dsimp only
  rw [if_pos]
  refine ⟨by omega, ?_⟩
  by_contra lone
  rw [not_or, not_ne_iff] at lone
  exact strict.2 ⟨lone.1, lone.2, less⟩

/-- Where the codes are right, and there are some, the tables are what is made. -/
theorem inflate_table_checked (bounded : ∀ l ∈ lens, l ≤ 15) (few : lens.length ≤ type.limit)
    (right : kraft lens = 1 ∨ kraft lens < 1 ∧ Permitted type lens)
    (some_ : maxLength lens.count 15 ≠ 0) (entries : Nat → Code) (bits : Nat) (work : Nat → Nat) :
    Checked type lens ∧ inflate_table type lens entries bits work =
      makeTable (tableJob type lens bits work)
        (minLength lens.count (maxLength lens.count 15) (maxLength lens.count 15 - 1)) entries := by
  have fits : filled lens 15 ≤ 2 ^ 15 := by
    refine Nat.not_lt.mp fun excess => ?_
    have more := (one_lt_kraft bounded).mpr excess
    rcases right with same | ⟨less, -⟩
    · exact absurd same more.ne'
    · exact absurd less more.not_gt
  have complete : filled lens 15 = 2 ^ 15 ∨ maxLength lens.count 15 = 1 := by
    rcases right with same | ⟨less, without | ⟨-, lone⟩⟩
    · refine .inl (Nat.le_antisymm fits (Nat.not_lt.mp fun less => ?_))
      exact absurd same ((kraft_lt_one bounded).mpr less).ne
    · exact absurd ((none_iff bounded).mpr without) some_
    · exact .inr ((lone_iff bounded).mpr lone).1
  refine ⟨⟨few, bounded, some_, fits, complete⟩, ?_⟩
  rw [inflate_table_some some_, codesLeft_eq fits]
  dsimp only
  rw [if_neg]
  rintro ⟨left, strict⟩
  rcases right with same | ⟨less, without | ⟨other, lone⟩⟩
  · have few' : filled lens 15 < 2 ^ 15 := by omega
    exact absurd same ((kraft_lt_one bounded).mpr few').ne
  · exact some_ ((none_iff bounded).mpr without)
  · exact strict.elim other fun long => long ((lone_iff bounded).mpr lone).1

/-- Where the codes are right, the tables are made, unless there is no space for them. -/
theorem inflate_table_made (bounded : ∀ l ∈ lens, l ≤ 15) (few : lens.length ≤ type.limit)
    (right : kraft lens = 1 ∨ kraft lens < 1 ∧ Permitted type lens) (entries : Nat → Code)
    (bits : Nat) (work : Nat → Nat) :
    let built := inflate_table type lens entries bits work
    let size := tableSize lens (rootBits lens bits)
    (type.tooMany size = true → built = .throws) ∧
      (type.tooMany size = false → ∃ t used, built = .table t used ∧ t.Decodes type work lens) := by
  intro built size
  by_cases none : maxLength lens.count 15 = 0
  · -- Without codes both entries are invalid ones.
    have all := (none_iff bounded).mp none
    have uncoded : ∀ s, len lens s ≤ 0 := len_le fun l member => (all l member).le
    have empty : ∀ p, behindRoot lens 0 p = [] := fun p =>
      List.filter_eq_nil_iff.mpr fun s _ => by
        have short := uncoded s
        simp
        omega
    have small : size = 1 := by
      have root : rootBits lens bits = 0 := by
        rw [rootBits, none]
        simp [minLength]
      change tableSize lens (rootBits lens bits) = 1
      rw [root, tableSize, sizeUpTo_none (Nat.zero_le _) fun r _ _ => empty r, sizeUpTo_zero,
        Nat.pow_zero]
    have made : built = .table ⟨Function.update (Function.update entries 0 ⟨64, 1, 0⟩) 1 ⟨64, 1, 0⟩, 1⟩
        2 := if_pos none
    refine ⟨fun excess => ?_, fun _ => ⟨_, _, made, fun b s begins => ?_, fun b _ => ?_⟩⟩
    · have fits : type.tooMany 1 = false := by cases type <;> decide
      rw [small, fits] at excess
      cases excess
    · exact absurd begins.1 (Nat.not_lt.mpr (uncoded s))
    · refine @Table.find_invalid _ _ _ 1 ?_
      have index := lsb_lt b 0 1
      dsimp only
      rcases (by omega : lsb b 0 1 = 0 ∨ lsb b 0 1 = 1) with zero | one
      · rw [zero]
        rfl
      · rw [one]
        rfl
  · obtain ⟨checked, made⟩ := inflate_table_checked bounded few right none entries bits work
    obtain ⟨throws, table⟩ := checked.made bits work entries
    refine ⟨fun excess => made.trans (throws excess), fun enough => ?_⟩
    obtain ⟨t, same, -, decodes, -⟩ := table enough
    exact ⟨t, _, made.trans same, decodes⟩

/-- A complete code of no more bits than are asked for is found without links. -/
theorem inflate_table_direct {bits : Nat} (bounded : ∀ l ∈ lens, l ≤ bits) (most : bits ≤ 15)
    (few : lens.length ≤ Build.codes.limit) (full : kraft lens = 1) (entries : Nat → Code)
    (work : Nat → Nat) :
    ∃ t used, inflate_table .codes lens entries bits work = .table t used ∧ t.bits ≤ bits ∧
      ∀ b s, Begins lens b s → t.entries (lsb b 0 t.bits) = ⟨0, len lens s, s⟩ ∧ len lens s ≤ t.bits := by
  have bounded' : ∀ l ∈ lens, l ≤ 15 := fun l member => Nat.le_trans (bounded l member) most
  have some_ : maxLength lens.count 15 ≠ 0 := by
    intro none
    have all := (none_iff bounded').mp none
    rw [kraft, List.filter_eq_nil_iff.mpr fun l member => by simpa using all l member] at full
    norm_num at full
  obtain ⟨checked, made⟩ := inflate_table_checked bounded' few (.inl full) some_ entries bits work
  obtain ⟨t, same, root, -, direct⟩ := (checked.made bits work entries).2 rfl
  -- All bits of the longest code are looked up.
  have longest : maxLength lens.count 15 ≤ bits :=
    bounded _ (List.count_pos_iff.mp (Nat.pos_of_ne_zero (count_maxLength some_)))
  have shortest := minLength_le lens.count (maxLength lens.count 15) (maxLength lens.count 15 - 1)
  have root_eq : t.bits = maxLength lens.count 15 := by
    rw [root]
    change max _ (min bits (maxLength lens.count 15)) = _
    omega
  refine ⟨t, _, made.trans same, root_eq.le.trans longest, fun b s begins => ?_⟩
  have short : len lens s ≤ t.bits := root_eq ▸ (checked.sound bits work).longest s
    (mem_order.mpr ⟨begins.1, len_le bounded' s⟩)
  have below : (s : Int) < Build.codes.end_ := by
    have inside := Nat.lt_of_lt_of_le (lt_length_of_len begins.1) few
    simp only [Build.end_]
    exact_mod_cast inside
  refine ⟨?_, short⟩
  rw [direct b s begins short, Build.here, if_pos below]

/-- Where no lengths are reported, their code is complete, or permitted not to be. -/
theorem right_of_accepted (bounded : ∀ l ∈ lens, l ≤ 15) {entries : Nat → Code} {bits : Nat} {work : Nat → Nat}
    (accepted : ∀ e, inflate_table type lens entries bits work ≠ .fails e) :
    kraft lens = 1 ∨ kraft lens < 1 ∧ Permitted type lens := by
  rcases lt_trichotomy (kraft lens) 1 with less | same | more
  · refine .inr ⟨less, ?_⟩
    by_contra strict
    exact accepted _ (inflate_table_incomplete bounded less strict entries bits work)
  · exact .inl same
  · exact absurd (inflate_table_over bounded more entries bits work) (accepted _)

/-- Making a table reports codes that are too many, and those that are too few and not permitted, and
throws where the codes need more entries than there is space for. Otherwise the table decodes the
canonical code of the lengths. -/
theorem inflate_table_decodes (bounded : ∀ l ∈ lens, l ≤ 15) (few : lens.length ≤ type.limit)
    (entries : Nat → Code) (bits : Nat) (work : Nat → Nat) :
    let built := inflate_table type lens entries bits work
    let right := kraft lens = 1 ∨ kraft lens < 1 ∧ Permitted type lens
    let enough := type.tooMany (tableSize lens (rootBits lens bits)) = false
    (built = .fails .over_subscribed_length ↔ 1 < kraft lens) ∧
      (built = .fails .incomplete_length_set ↔ kraft lens < 1 ∧ ¬Permitted type lens) ∧
      (built = .throws ↔ right ∧ ¬enough) ∧
      (right → enough → ∃ t used, built = .table t used ∧ t.Decodes type work lens) ∧
      ∀ b s t, Begins lens b s → Begins lens b t → s = t := by
  intro built right enough
  have unique : ∀ b s t, Begins lens b s → Begins lens b t → s = t := fun b s t first second =>
    first.unique bounded second
  by_cases excess : 1 < kraft lens
  · have fails : built = .fails .over_subscribed_length := inflate_table_over bounded excess entries bits work
    have wrong : ¬right := by
      rintro (same | ⟨less, -⟩)
      · exact absurd same excess.ne'
      · exact absurd less excess.not_gt
    rw [fails]
    refine ⟨by simpa using excess, ?_, by simpa using fun r => absurd r wrong, fun r => absurd r wrong, unique⟩
    simpa using fun less => absurd less excess.not_gt
  · by_cases strict : kraft lens < 1 ∧ ¬Permitted type lens
    · have fails : built = .fails .incomplete_length_set :=
        inflate_table_incomplete bounded strict.1 strict.2 entries bits work
      have wrong : ¬right := by
        rintro (same | ⟨-, permitted⟩)
        · exact absurd same strict.1.ne
        · exact strict.2 permitted
      rw [fails]
      exact ⟨by simpa using excess, by simpa using strict, by simpa using fun r => absurd r wrong,
        fun r => absurd r wrong, unique⟩
    · have fine : right := by
        rcases lt_or_eq_of_le (not_lt.mp excess) with less | same
        · exact .inr ⟨less, not_not.mp fun not => strict ⟨less, not⟩⟩
        · exact .inl same
      obtain ⟨throws, made⟩ := inflate_table_made bounded few fine entries bits work
      by_cases fits : enough
      · obtain ⟨t, used, table, decodes⟩ := made fits
        have made' : built = .table t used := table
        rw [made']
        exact ⟨by simpa using excess, by simpa using strict, by simp [fits],
          fun _ _ => ⟨t, used, rfl, decodes⟩, unique⟩
      · have thrown : built = .throws := throws (by simpa [enough] using fits)
        rw [thrown]
        exact ⟨by simpa using excess, by simpa using strict, by simp [fine, fits],
          fun _ yes => absurd yes fits, unique⟩

theorem inflate_table_decodes_three :
    ∃ t used, inflate_table .lens [2, 1, 2] (fun _ => ⟨0, 0, 0⟩) 9 (fun _ => 0) = .table t used ∧
      t.Decodes .lens (fun _ => 0) [2, 1, 2] := by
  have right : kraft [2, 1, 2] = 1 := by
    rw [kraft]
    norm_num [List.filter]
  exact (@inflate_table_decodes [2, 1, 2] .lens (by decide) (by decide) (fun _ => ⟨0, 0, 0⟩) 9
    fun _ => 0).2.2.2.1 (.inl right) (by decide)

/-- More bits than the callers ask for take more entries than there is space for. -/
theorem inflate_table_throws :
    ¬∀ (type : Build) (lens : List Nat), (∀ l ∈ lens, l ≤ 15) → lens.length ≤ type.limit →
      ∀ (entries : Nat → Code) (bits : Nat) (work : Nat → Nat),
        (∀ e, inflate_table type lens entries bits work ≠ .fails e) →
          ∃ t used, inflate_table type lens entries bits work = .table t used ∧
            t.Decodes type work lens := by
  intro claimed
  have thrown : inflate_table .lens [1, 2, 3, 4, 5, 6, 7, 8, 9, 10, 10] (fun _ => ⟨0, 0, 0⟩) 10
      (fun _ => 0) = .throws := rfl
  obtain ⟨t, used, made, -⟩ := claimed .lens [1, 2, 3, 4, 5, 6, 7, 8, 9, 10, 10] (by decide)
    (by decide) (fun _ => ⟨0, 0, 0⟩) 10 (fun _ => 0) (fun e => by rw [thrown]; nofun)
  rw [thrown] at made
  cases made

end Beast.Zlib
