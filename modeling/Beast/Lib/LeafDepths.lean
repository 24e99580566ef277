import Mathlib.Algebra.BigOperators.Group.List.Basic
import Mathlib.Algebra.BigOperators.Ring.List
import Mathlib.Data.List.Basic
import Mathlib.Tactic.Common
import Mathlib.Tactic.Ring

/-! Complete binary trees, by the depths of their leaves: those that are deep have many leaves. -/

namespace LeafDepths

/-- How many nodes at the bottom there would be below leaves at some depths. -/
def weigh (bottom : Nat) (depths : List Nat) : Nat := (depths.map fun x => 2 ^ (bottom - x)).sum

variable {bottom a d k : Nat} {depths : List Nat}

@[simp] theorem weigh_nil (bottom : Nat) : weigh bottom [] = 0 := rfl

@[simp] theorem weigh_cons (bottom x : Nat) (depths : List Nat) :
    weigh bottom (x :: depths) = 2 ^ (bottom - x) + weigh bottom depths := rfl

/-- The leaves at one depth weigh the same each, and the others are left. -/
theorem weigh_split (bottom a : Nat) (depths : List Nat) :
    weigh bottom depths = depths.count a * 2 ^ (bottom - a) + weigh bottom (depths.filter (· ≠ a)) ∧
      depths.length = depths.count a + (depths.filter (· ≠ a)).length := by
  induction depths with
  | nil => exact ⟨by simp, rfl⟩
  | cons x depths ih =>
    by_cases same : x = a
    · rw [same, List.count_cons_self, List.filter_cons_of_neg (by simp), weigh_cons, ih.1, List.length_cons, ih.2]
      exact ⟨by ring, by omega⟩
    · rw [List.count_cons_of_ne same, List.filter_cons_of_pos (by simpa using same), weigh_cons, weigh_cons, ih.1,
        List.length_cons, List.length_cons, ih.2]
      exact ⟨by ring, by omega⟩

/-- Below some nodes at one depth there are at least as many leaves, and another one for each level down to any leaf. -/
theorem leaves_le (full : weigh bottom depths = k * 2 ^ (bottom - a)) (low : ∀ x ∈ depths, a ≤ x)
    (high : ∀ x ∈ depths, x ≤ bottom) (leaf : d ∈ depths) : k + (d - a) ≤ depths.length := by
  -- The induction is on the levels below the nodes: what is no leaf at their depth has two nodes below it.
  obtain ⟨n, levels⟩ : ∃ n, bottom - a = n := ⟨_, rfl⟩
  induction n generalizing a d k depths with
  | zero =>
    have all : ∀ x ∈ depths, 2 ^ (bottom - x) = 1 := fun x member => by
      have first := low x member
      rw [(by omega : bottom - x = 0), Nat.pow_zero]
    have count : weigh bottom depths = depths.length := by
      rw [weigh, List.map_congr_left all, List.map_const', List.sum_replicate, Nat.nsmul_eq_mul, Nat.mul_one]
    rw [count, levels, Nat.pow_zero, Nat.mul_one] at full
    have deep := high d leaf
    omega
  | succ n ih =>
    obtain ⟨weight, length⟩ := weigh_split bottom a depths
    obtain ⟨rest, left⟩ : ∃ rest, depths.filter (· ≠ a) = rest := ⟨_, rfl⟩
    have members : ∀ x, x ∈ rest ↔ x ∈ depths ∧ x ≠ a := fun x => by
      rw [← left, List.mem_filter]
      simp
    have some_ := Nat.two_pow_pos (bottom - a)
    rw [left] at weight length
    rw [weight] at full
    by_cases none : rest = []
    · -- All nodes are leaves.
      rw [none, weigh_nil, Nat.add_zero] at full
      have same := Nat.eq_of_mul_eq_mul_right some_ full
      have here : d = a := by
        by_contra below
        exact absurd ((members d).mpr ⟨leaf, below⟩) (none ▸ List.not_mem_nil)
      omega
    · obtain ⟨e, first⟩ := List.exists_mem_of_ne_nil rest none
      have positive : 0 < weigh bottom rest := by
        obtain ⟨front, back, cut⟩ := List.append_of_mem first
        rw [cut, weigh, List.map_append, List.sum_append, List.map_cons, List.sum_cons]
        have deep := Nat.two_pow_pos (bottom - e)
        omega
      have fewer : depths.count a < k := by
        refine Nat.lt_of_mul_lt_mul_right (a := 2 ^ (bottom - a)) ?_
        omega
      have double : 2 ^ (bottom - a) = 2 * 2 ^ (bottom - (a + 1)) := by
        rw [← Nat.pow_succ']
        congr 1
        omega
      have below : weigh bottom rest = 2 * (k - depths.count a) * 2 ^ (bottom - (a + 1)) := by
        obtain ⟨inner, split⟩ := Nat.exists_eq_add_of_lt fewer
        rw [split, Nat.add_assoc, Nat.add_mul] at full
        rw [split, (by omega : depths.count a + inner + 1 - depths.count a = inner + 1), Nat.mul_assoc,
          Nat.mul_comm (inner + 1), ← Nat.mul_assoc, ← double, Nat.mul_comm]
        omega
      have more : ∀ e ∈ rest, 2 * (k - depths.count a) + (e - (a + 1)) ≤ rest.length := fun e member =>
        ih below (fun x inside => by
          have apart := (members x).mp inside
          have least := low x apart.1
          omega) (fun x inside => high x ((members x).mp inside).1) member (by omega)
      by_cases here : d = a
      · have enough := more e first
        omega
      · have enough := more d ((members d).mpr ⟨leaf, here⟩)
        have least := low d leaf
        omega

/-- Leaves that leave room leave as much as the last of them takes where each one is a level below the one before. -/
theorem room_le (room : weigh bottom depths < 2 ^ bottom) :
    weigh bottom depths + 2 ^ (bottom - depths.length) ≤ 2 ^ bottom := by
  -- The induction is on the number of leaves: one that is deeper than this is taken away.
  obtain ⟨n, length⟩ : ∃ n, depths.length = n := ⟨_, rfl⟩
  rw [length]
  induction n generalizing depths with
  | zero =>
    rw [List.length_eq_zero_iff.mp length, weigh_nil, Nat.zero_add]
    exact Nat.le_refl _
  | succ n ih =>
    rcases Nat.lt_or_ge n bottom with few | many
    · by_cases high : ∀ x ∈ depths, x ≤ n + 1
      · -- All of them are multiples of the least one.
        have whole : 2 ^ (bottom - (n + 1)) ∣ weigh bottom depths := by
          refine List.dvd_sum fun w member => ?_
          obtain ⟨x, among, rfl⟩ := List.mem_map.mp member
          exact Nat.pow_dvd_pow 2 (Nat.sub_le_sub_left (high x among) bottom)
        have all : 2 ^ (bottom - (n + 1)) ∣ 2 ^ bottom := Nat.pow_dvd_pow 2 (Nat.sub_le _ _)
        have left := Nat.le_of_dvd (Nat.sub_pos_of_lt room) (Nat.dvd_sub all whole)
        omega
      · simp only [not_forall, Nat.not_le] at high
        obtain ⟨x, among, deep⟩ := high
        have split := (List.perm_cons_erase among).map fun x => 2 ^ (bottom - x)
        have taken : weigh bottom depths = 2 ^ (bottom - x) + weigh bottom (depths.erase x) := split.sum_eq
        have fewer : (depths.erase x).length = n := by rw [List.length_erase_of_mem among, length, Nat.add_sub_cancel]
        have own := Nat.two_pow_pos (bottom - x)
        have before := ih (by omega) fewer
        have half : 2 ^ (bottom - n) = 2 * 2 ^ (bottom - (n + 1)) := by
          rw [← Nat.pow_succ']
          congr 1
          omega
        have less : 2 ^ (bottom - x) ≤ 2 ^ (bottom - (n + 1)) :=
          Nat.pow_le_pow_right (by decide) (Nat.sub_le_sub_left (Nat.le_of_lt deep) bottom)
        omega
    · rw [Nat.sub_eq_zero_of_le (by omega), Nat.pow_zero]
      exact room

end LeafDepths
