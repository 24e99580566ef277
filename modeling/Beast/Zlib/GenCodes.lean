import Beast.Lib.BitReversal
import Beast.Lib.CanonicalCode
import Beast.Zlib.HeapLaws
import Mathlib.Tactic.Ring

/-! The codes that are given to symbols by their bit lengths: the canonical ones, reversed. -/

namespace Beast.Zlib

open CanonicalCode BitReversal

/-- The loop turns the bits of a code around, behind those that it has so far. -/
theorem reverseLoop_eq (n code r : Nat) : reverseLoop n code (2 * r) = 2 * (r * 2 ^ n + rev n code) := by
  induction n generalizing code r with
  | zero => simp [reverseLoop, rev]
  | succ n ih =>
    have low : code &&& 1 = code % 2 := Nat.and_one_is_mod code
    have joined : 2 * r ||| code % 2 = 2 * r + code % 2 :=
      (Nat.two_pow_add_eq_or_of_lt (i := 1) (Nat.mod_lt code (by decide)) r).symm
    rw [reverseLoop, low, joined, Nat.shiftLeft_eq, Nat.shiftRight_one, Nat.pow_one, Nat.mul_comm,
      ih, rev, Nat.pow_succ]
    ring

theorem bi_reverse_eq {code l : Nat} (positive : 0 < l) : bi_reverse code l = rev l code := by
  have turned := reverseLoop_eq l code 0
  rw [Nat.mul_zero, Nat.zero_mul, Nat.zero_add] at turned
  rw [bi_reverse, Nat.max_eq_left positive, turned, Nat.shiftRight_one,
    Nat.mul_div_cancel_left _ (by decide)]

/-- A tree whose bit lengths make a complete code, and how many symbols have which. -/
structure Complete (lens : List Nat) (tree : Tree) (bl_count : Nat → Nat) : Prop where
  dl : ∀ x < lens.length, (tree x).dl = len lens x
  bounded : ∀ l ∈ lens, l ≤ maxBits
  zero : bl_count 0 = 0
  counts : ∀ l, 0 < l → bl_count l = lens.count l
  full : filled lens maxBits = 2 ^ maxBits

variable {lens : List Nat} {tree : Tree} {bl_count : Nat → Nat}

/-- Giving codes to symbols leaves their bit lengths as they are. -/
theorem assignCodes_dl (n more : Nat) (next_code : Nat → Nat) (tree : Tree) (x : Nat) :
    (assignCodes n more next_code tree x).dl = (tree x).dl := by
  induction more generalizing n next_code tree with
  | zero => rfl
  | succ more ih =>
    rw [assignCodes]
    split
    · exact ih _ _ _
    · rw [ih, Tree.setFc_dl]

theorem Complete.filled_le (complete : Complete lens tree bl_count) {l : Nat} (short : l ≤ maxBits) :
    filled lens l ≤ 2 ^ l :=
  CanonicalCode.filled_le complete.full.le short

theorem Complete.firstCode (complete : Complete lens tree bl_count) {l : Nat} (short : l ≤ maxBits) :
    firstCode bl_count l = nextCode lens l := by
  rcases Nat.eq_zero_or_pos l with rfl | positive
  · rfl
  obtain ⟨k, rfl⟩ := Nat.exists_eq_add_of_le' positive
  induction k with
  | zero =>
    rw [Beast.Zlib.firstCode, Beast.Zlib.firstCode, complete.zero]
    rfl
  | succ k ih =>
    rw [Beast.Zlib.firstCode, ih (by omega) (by omega), complete.counts _ (by omega)]
    have fits := complete.filled_le (l := k + 1) (by omega)
    have wide : 2 ^ (k + 1) ≤ 2 ^ 14 := Nat.pow_le_pow_right (by decide) (by rw [maxBits] at short; omega)
    rw [nextCode, Nat.mul_comm, Nat.mod_eq_of_lt]
    rw [nextCode_succ]
    rw [filled] at fits
    omega

/-- The loop over the symbols gives each one that has a bit length its code. -/
theorem Complete.assignCodes (complete : Complete lens tree bl_count) {n more : Nat}
    (left : n + more = lens.length) (next_code : Nat → Nat)
    (next : ∀ l, 0 < l → l ≤ maxBits → next_code l = nextCode lens l + (lens.take n).count l) (x : Nat) :
    (assignCodes n more next_code tree x).dl = (tree x).dl ∧
      (assignCodes n more next_code tree x).fc =
        if n ≤ x ∧ 0 < len lens x then rev (len lens x) (code lens x) else (tree x).fc := by
  induction more generalizing n tree next_code with
  | zero =>
    have none : ¬(n ≤ x ∧ 0 < len lens x) := fun both => by
      have inside := lt_length_of_len both.2
      omega
    rw [Beast.Zlib.assignCodes, if_neg none]
    exact ⟨rfl, rfl⟩
  | succ more ih =>
    have inside : n < lens.length := by omega
    have own := complete.dl n inside
    have member : len lens n ∈ lens := by
      rw [len, List.getD_eq_getElem?_getD, List.getElem?_eq_getElem inside, Option.getD_some]
      exact List.getElem_mem inside
    have short := complete.bounded _ member
    have grown : lens.take (n + 1) = lens.take n ++ [len lens n] := by
      rw [len, List.getD_eq_getElem?_getD, List.getElem?_eq_getElem inside, Option.getD_some,
        List.take_append_getElem]
    rw [Beast.Zlib.assignCodes, own]
    split
    · -- A symbol without a code does not count for any length.
      rename_i none
      have later := ih complete (n := n + 1) (by omega) next_code fun l positive l_le => by
        rw [next l positive l_le, grown, List.count_append, none,
          List.count_singleton, if_neg (by simp; omega), Nat.add_zero]
      rw [later.1, later.2]
      refine ⟨rfl, ?_⟩
      by_cases same : x = n
      · rw [same, if_neg (by omega), if_neg (by omega)]
      · exact if_congr (by omega) rfl rfl
    · rename_i coded
      have fits := code_lt complete.full.le (Nat.pos_of_ne_zero coded) short
      have wide : 2 ^ len lens n ≤ 2 ^ 15 := Nat.pow_le_pow_right (by decide) short
      have at_n := next (len lens n) (Nat.pos_of_ne_zero coded) short
      rw [code] at fits
      have tree_dl : ∀ y, (tree.setFc n (bi_reverse (next_code (len lens n)) (len lens n)) y).dl =
          (tree y).dl := fun y => Tree.setFc_dl _ _ _ _
      have later := ih ⟨fun y y_lt => (tree_dl y).trans (complete.dl y y_lt), complete.bounded,
          complete.zero, complete.counts, complete.full⟩ (n := n + 1) (by omega)
        (Function.update next_code (len lens n) ((next_code (len lens n) + 1) % 2 ^ 16))
        fun l positive l_le => by
          rw [grown, List.count_append, List.count_singleton, Function.update_apply]
          by_cases same : l = len lens n
          · rw [if_pos same, if_pos (by simp [same]), at_n, ← same]
            rw [← same] at fits wide
            omega
          · rw [if_neg same, if_neg (by simpa using Ne.symm same), next l positive l_le, Nat.add_zero]
      rw [later.1, later.2, tree_dl, Tree.setFc_fc]
      refine ⟨rfl, ?_⟩
      by_cases same : x = n
      · rw [same, if_neg (by omega), if_pos rfl, if_pos ⟨Nat.le_refl n, Nat.pos_of_ne_zero coded⟩,
          bi_reverse_eq (Nat.pos_of_ne_zero coded), at_n, code]
      · rw [if_neg same]
        exact if_congr (by omega) rfl rfl

/-- A complete code passes the assertion, and its symbols get the canonical codes, reversed. -/
theorem Complete.gen_codes (complete : Complete lens tree bl_count) {max_code : Int}
    (last : (max_code + 1).toNat = lens.length) :
    ∃ tree', gen_codes tree max_code bl_count = some tree' ∧ ∀ x, (tree' x).dl = (tree x).dl ∧
      (tree' x).fc = if 0 < len lens x then rev (len lens x) (code lens x) else (tree x).fc := by
  have first := complete.firstCode (Nat.le_refl maxBits)
  have count := complete.counts maxBits (by decide)
  have full : nextCode lens maxBits + lens.count maxBits = 2 ^ maxBits := complete.full
  refine ⟨_, if_pos ?_, fun x => ?_⟩
  · rw [first, count]
    rw [← Nat.cast_inj (R := Int)] at full
    push_cast at full
    rw [full]
  · have made := complete.assignCodes (n := 0) (Nat.zero_add _) (Beast.Zlib.firstCode bl_count)
      (fun l positive short => by rw [complete.firstCode short]; rfl) x
    rw [last]
    simpa using made

end Beast.Zlib
