import Beast.Lib.CanonicalCode
import Beast.Zlib.InflateTable
import Mathlib.Tactic.Zify

/-! The loops in which the tables are made: the lengths, the symbols in their order, and the entries. -/

namespace Beast.Zlib

open CanonicalCode BitReversal

variable {lens : List Nat} {count : Nat → Nat}

/-! ## The lengths of the codes -/

theorem maxLength_le (count : Nat → Nat) (n : Nat) : maxLength count n ≤ n := by
  induction n with
  | zero => exact Nat.le_refl 0
  | succ n ih =>
    unfold maxLength
    split
    · exact Nat.le_refl _
    · omega

theorem count_maxLength {n : Nat} (some_ : maxLength count n ≠ 0) :
    count (maxLength count n) ≠ 0 := by
  induction n with
  | zero => exact absurd rfl some_
  | succ n ih =>
    unfold maxLength at some_ ⊢
    split
    · assumption
    · rw [if_neg ‹_›] at some_
      exact ih some_

/-- There are no codes that are longer. -/
theorem count_above {n l : Nat} (longer : maxLength count n < l) (bounded : l ≤ n) : count l = 0 := by
  induction n with
  | zero => omega
  | succ n ih =>
    unfold maxLength at longer
    split at longer
    · omega
    · rename_i none
      rcases Nat.eq_or_lt_of_le bounded with rfl | less
      · exact not_ne_iff.mp none
      · exact ih longer (by omega)

theorem minLength_le (count : Nat → Nat) (max n : Nat) : minLength count max n ≤ max := by
  induction n with
  | zero => exact Nat.le_refl max
  | succ n ih =>
    unfold minLength
    split
    · exact Nat.sub_le max (n + 1)
    · exact ih

theorem le_minLength (count : Nat → Nat) {max n : Nat} (few : n ≤ max) :
    max - n ≤ minLength count max n := by
  induction n with
  | zero => exact Nat.le_refl max
  | succ n ih =>
    unfold minLength
    split
    · exact Nat.le_refl _
    · have more := ih (by omega)
      omega

theorem count_minLength {max n : Nat} (some_ : count max ≠ 0) :
    count (minLength count max n) ≠ 0 := by
  induction n with
  | zero => exact some_
  | succ n ih =>
    unfold minLength
    split
    · assumption
    · exact ih

/-- There are no codes that are shorter. -/
theorem count_below {max n l : Nat} (few : n ≤ max) (from_ : max - n ≤ l)
    (shorter : l < minLength count max n) : count l = 0 := by
  induction n with
  | zero =>
    rw [minLength] at shorter
    omega
  | succ n ih =>
    unfold minLength at shorter
    split at shorter
    · omega
    · rename_i none
      rcases Nat.eq_or_lt_of_le from_ with rfl | more
      · exact not_ne_iff.mp none
      · exact ih (by omega) (by omega) shorter

/-- The codes that are left, where there are not too many of a length or a shorter one. -/
theorem codesLeft_eq {l : Nat} (fits : filled lens l ≤ 2 ^ l) :
    codesLeft lens.count l = .ok (2 ^ l - filled lens l : Int) := by
  induction l with
  | zero => rfl
  | succ l ih =>
    rw [filled, Nat.pow_succ] at fits
    have left : ¬2 * (2 ^ l - filled lens l : Int) - (lens.count (l + 1) : Int) < 0 := by
      zify at fits
      omega
    simp only [codesLeft, ih (by omega), Except.bind, bind]
    rw [if_neg left, filled, pow_succ]
    push_cast
    congr 1
    ring

theorem codesLeft_over {l : Nat} (excess : 2 ^ l < filled lens l) :
    codesLeft lens.count l = .error .over_subscribed_length := by
  induction l with
  | zero => exact absurd excess (Nat.not_lt_zero 1)
  | succ l ih =>
    rcases Nat.lt_or_ge (2 ^ l) (filled lens l) with before | fits
    · simp only [codesLeft, ih before, Except.bind, bind]
    · rw [filled, Nat.pow_succ] at excess
      have left : 2 * (2 ^ l - filled lens l : Int) - (lens.count (l + 1) : Int) < 0 := by
        zify at excess
        omega
      simp only [codesLeft, codesLeft_eq fits, Except.bind, bind, if_pos left]

/-! ## The symbols in their order -/

theorem offsets_eq (lens : List Nat) (l : Nat) :
    offsets lens.count (l + 1) = (order lens l).length := by
  induction l with
  | zero => rfl
  | succ l ih => rw [offsets, ih, order, List.length_append, length_members]

/-- Each symbol has a place of its own. -/
theorem place_inj {s t : Nat} (one : 0 < len lens s) (other : 0 < len lens t)
    (same : place lens s = place lens t) : s = t := by
  obtain ⟨M, long, long'⟩ : ∃ M, len lens s ≤ M ∧ len lens t ≤ M :=
    ⟨max (len lens s) (len lens t), by omega, by omega⟩
  obtain ⟨front, back, ordered⟩ := List.append_of_mem (mem_order.mpr ⟨one, long⟩)
  obtain ⟨front', back', placed⟩ := List.append_of_mem (mem_order.mpr ⟨other, long'⟩)
  have at_s : (order lens M)[place lens s]? = some s := by
    rw [ordered, ← length_front ordered]
    simp
  have at_t : (order lens M)[place lens t]? = some t := by
    rw [placed, ← length_front placed]
    simp
  rw [same, at_t] at at_s
  exact (Option.some.inj at_s).symm

/-- The symbols are put where they stand in their order. -/
theorem sortSymbols_place {front rest : List Nat} {offs work : Nat → Nat} {t : Nat}
    (all : lens = front ++ rest)
    (next : ∀ l, 0 < l → offs l = offsets lens.count l + front.count l)
    (done : ∀ s < front.length, 0 < len lens s → work (place lens s) = s)
    (coded : 0 < len lens t) : sortSymbols front.length rest offs work (place lens t) = t := by
  -- The induction is on the symbols that are not sorted yet.
  induction rest generalizing front offs work with
  | nil =>
    rw [List.append_nil] at all
    exact done t (all ▸ lt_length_of_len coded) coded
  | cons x rest ih =>
    have own : len lens front.length = x := by simp [len, all]
    have longer : lens = (front ++ [x]) ++ rest := by simp [all]
    have size : front.length + 1 = (front ++ [x]).length := by simp
    rw [sortSymbols, size]
    split
    · rename_i some_
      have here : offs x = place lens front.length := by
        rw [next x (Nat.pos_of_ne_zero some_), place, own,
          (by omega : x = x - 1 + 1), offsets_eq, Nat.add_sub_cancel, all, List.take_left]
      refine ih longer (fun l positive => ?_) (fun s before coded' => ?_)
      · rw [Function.update_apply, List.count_append, List.count_singleton]
        have old := next l positive
        by_cases same : l = x
        · subst same
          simp [old]
          omega
        · simp [same, old, Ne.symm same]
      · rw [here, Function.update_apply]
        split
        · rename_i same
          exact (place_inj coded' (by omega) same).symm
        · rename_i other
          refine done s ?_ coded'
          rw [List.length_append, List.length_singleton] at before
          have distinct : s ≠ front.length := fun equal => other (by rw [equal])
          omega
    · rename_i none
      have zero : x = 0 := not_ne_iff.mp none
      refine ih longer (fun l positive => ?_) (fun s before coded' => done s ?_ coded')
      · rw [next l positive, List.count_append, zero]
        simp [positive.ne]
      · rw [List.length_append, List.length_singleton] at before
        have distinct : s ≠ front.length := fun equal => by
          rw [equal, own, zero] at coded'
          exact Nat.lt_irrefl 0 coded'
        omega

/-- The work area holds the symbols in the order of their codes. -/
theorem sortSymbols_order {M s : Nat} {front back : List Nat} (work : Nat → Nat)
    (ordered : order lens M = front ++ s :: back) :
    sortSymbols 0 lens (offsets lens.count) work front.length = s := by
  have inside := mem_order.mp (ordered ▸ List.mem_append_right front List.mem_cons_self)
  rw [length_front ordered]
  exact @sortSymbols_place lens [] lens _ work s rfl (fun l _ => by simp) (fun s before => by simp at before)
    inside.1

/-! ## The entries of a table -/

theorem replicate_apply (here : Code) (place incr n : Nat) (entries : Nat → Code) (p : Nat) :
    replicate here place incr n entries p =
      if ∃ k < n, p = place + k * incr then here else entries p := by
  induction n generalizing entries with
  | zero => simp [replicate]
  | succ n ih =>
    rw [replicate, ih, Function.update_apply]
    by_cases earlier : ∃ k < n, p = place + k * incr
    · obtain ⟨k, less, same⟩ := earlier
      rw [if_pos ⟨k, less, same⟩, if_pos ⟨k, by omega, same⟩]
    · rw [if_neg earlier]
      by_cases last : p = place + n * incr
      · rw [if_pos last, if_pos ⟨n, Nat.lt_succ_self n, last⟩]
      · rw [if_neg last, if_neg]
        rintro ⟨k, less, same⟩
        rcases Nat.lt_succ_iff_lt_or_eq.mp less with before | rfl
        · exact earlier ⟨k, before, same⟩
        · exact last same

/-- An entry is put at the indexes of a table that end with the bits of a code. -/
theorem replicate_index {next d curr h i : Nat} (here : Code) (entries : Nat → Code) (low : h < 2 ^ d)
    (fits : d ≤ curr) (inside : i < 2 ^ curr) :
    replicate here (next + h) (2 ^ d) (2 ^ curr / 2 ^ d) entries (next + i) =
      if i % 2 ^ d = h then here else entries (next + i) := by
  rw [replicate_apply]
  congr 1
  refine propext ⟨?_, fun same => ⟨i / 2 ^ d, ?_, ?_⟩⟩
  · rintro ⟨k, -, same⟩
    rw [(by omega : i = h + k * 2 ^ d), Nat.add_mul_mod_self_right, Nat.mod_eq_of_lt low]
  · rw [Nat.pow_div fits (by decide)]
    apply Nat.div_lt_of_lt_mul
    rwa [← Nat.pow_add, Nat.add_sub_cancel' fits]
  · have parts := Nat.mod_add_div i (2 ^ d)
    rw [same, Nat.mul_comm] at parts
    omega

/-- Outside of a table no entry is put. -/
theorem replicate_outside {next d curr h p : Nat} (here : Code) (entries : Nat → Code)
    (low : h < 2 ^ d) (fits : d ≤ curr) (outside : p < next ∨ next + 2 ^ curr ≤ p) :
    replicate here (next + h) (2 ^ d) (2 ^ curr / 2 ^ d) entries p = entries p := by
  rw [replicate_apply, if_neg]
  rintro ⟨k, less, same⟩
  -- The last place that an entry is put at is in the table.
  have last : (k + 1) * 2 ^ d ≤ 2 ^ curr := by
    rw [Nat.pow_div fits (by decide)] at less
    calc (k + 1) * 2 ^ d
      _ ≤ 2 ^ (curr - d) * 2 ^ d := Nat.mul_le_mul_right _ less
      _ = 2 ^ curr := by rw [← Nat.pow_add, Nat.sub_add_cancel fits]
  rw [Nat.succ_mul] at last
  omega

theorem incrementBackwards_eq (len huff : Nat) : incrementBackwards len huff = bump len huff := by
  induction len with
  | zero => rfl
  | succ len ih => rw [incrementBackwards, bump, ih, Nat.and_two_pow_sub_one_eq_mod]

end Beast.Zlib
