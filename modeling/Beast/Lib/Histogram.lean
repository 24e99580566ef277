import Mathlib.Algebra.BigOperators.Intervals
import Mathlib.Algebra.BigOperators.Ring.Finset
import Mathlib.Algebra.Order.BigOperators.Group.Finset
import Mathlib.Tactic.Ring

/-! How often values of a bounded kind are found, and what they weigh together. -/

namespace Histogram

/-- What the values up to a bound weigh, each as often as it is found. -/
def weigh (top : Nat) (g c : Nat → Nat) : Nat := ∑ l ∈ Finset.range (top + 1), c l * g l

variable {top i k : Nat} {g c : Nat → Nat}

theorem weigh_list (top : Nat) (g c : Nat → Nat) :
    weigh top g c = ((List.range (top + 1)).map fun l => c l * g l).sum := rfl

theorem weigh_succ (top : Nat) (g c : Nat → Nat) :
    weigh (top + 1) g c = weigh top g c + c (top + 1) * g (top + 1) :=
  Finset.sum_range_succ _ _

theorem weigh_congr {c' : Nat → Nat} (same : ∀ l ≤ top, c l = c' l) : weigh top g c = weigh top g c' := by
  refine Finset.sum_congr rfl fun l member => ?_
  rw [same l (Nat.lt_succ_iff.mp (Finset.mem_range.mp member))]

/-- A single value is found more often, or less. -/
theorem weigh_update (inside : i ≤ top) (v : Nat) :
    weigh top g (Function.update c i v) + c i * g i = weigh top g c + v * g i := by
  have member : i ∈ Finset.range (top + 1) := Finset.mem_range.mpr (by omega)
  rw [weigh, weigh, ← Finset.add_sum_erase _ _ member, ← Finset.add_sum_erase _ _ member,
    Function.update_self]
  have others : ∑ l ∈ (Finset.range (top + 1)).erase i, Function.update c i v l * g l =
      ∑ l ∈ (Finset.range (top + 1)).erase i, c l * g l :=
    Finset.sum_congr rfl fun l other => by
      rw [Function.update_of_ne (Finset.ne_of_mem_erase other)]
  rw [others]
  ring

theorem weigh_more (inside : i ≤ top) (k : Nat) :
    weigh top g (Function.update c i (c i + k)) = weigh top g c + k * g i := by
  have changed := weigh_update (g := g) (c := c) inside (c i + k)
  rw [Nat.add_mul] at changed
  omega

theorem weigh_less (inside : i ≤ top) (enough : k ≤ c i) :
    weigh top g (Function.update c i (c i - k)) + k * g i = weigh top g c := by
  have changed := weigh_update (g := g) (c := c) inside (c i - k)
  obtain ⟨rest, split⟩ := Nat.exists_eq_add_of_le enough
  rw [split, Nat.add_sub_cancel_left, Nat.add_mul] at changed
  rw [split, Nat.add_sub_cancel_left]
  omega

/-- Where no other value is found, the last one weighs all. -/
theorem weigh_last (none : ∀ l < top, c l = 0) : weigh top g c = c top * g top := by
  rw [weigh, Finset.sum_range_succ, Finset.sum_eq_zero, Nat.zero_add]
  intro l member
  rw [none l (Finset.mem_range.mp member), Nat.zero_mul]

theorem le_weigh (inside : i ≤ top) (c : Nat → Nat) : c i ≤ weigh top (fun _ => 1) c := by
  have single : c i * 1 ≤ weigh top (fun _ => 1) c :=
    Finset.single_le_sum (f := fun l => c l * 1) (fun l _ => Nat.zero_le _)
      (Finset.mem_range.mpr (by omega))
  omega

/-- The values of some things weigh what the things do. -/
theorem weigh_countP {α : Type*} (f : α → Nat) (things : List α) (bounded : ∀ x ∈ things, f x ≤ top) :
    weigh top g (fun l => things.countP fun x => f x = l) = (things.map fun x => g (f x)).sum := by
  induction things with
  | nil => simp [weigh]
  | cons x things ih =>
    have grown : (fun l => (x :: things).countP fun y => f y = l) =
        Function.update (fun l => things.countP fun y => f y = l) (f x)
          ((things.countP fun y => f y = f x) + 1) := by
      funext l
      rw [Function.update_apply, List.countP_cons]
      by_cases same : l = f x
      · simp [same]
      · rw [if_neg same, if_neg (by simpa using Ne.symm same), Nat.add_zero]
    rw [grown, weigh_more (bounded x List.mem_cons_self),
      ih fun y member => bounded y (List.mem_cons_of_mem x member), List.map_cons, List.sum_cons]
    ring

theorem weigh_one {α : Type*} (f : α → Nat) (things : List α) (bounded : ∀ x ∈ things, f x ≤ top) :
    weigh top (fun _ => 1) (fun l => things.countP fun x => f x = l) = things.length := by
  rw [weigh_countP f things bounded, List.map_const', List.sum_replicate, Nat.nsmul_eq_mul, Nat.mul_one]

/-- What values below a bound weigh, each as often as it is found among some things. -/
theorem sum_counted {α : Type*} (f : α → Nat) (things : List α) {n : Nat} (low : ∀ x ∈ things, f x < n)
    (counted : ∀ l < n, c l = things.countP fun x => f x = l) :
    ((List.range n).map fun l => c l * g l).sum = (things.map fun x => g (f x)).sum := by
  cases n with
  | zero =>
    have none : things = [] := List.eq_nil_iff_forall_not_mem.mpr fun x member =>
      absurd (low x member) (Nat.not_lt_zero _)
    rw [none]
    rfl
  | succ top =>
    calc ((List.range (top + 1)).map fun l => c l * g l).sum
      _ = weigh top g c := (weigh_list top g c).symm
      _ = weigh top g fun l => things.countP fun x => f x = l :=
        weigh_congr fun l inside => counted l (Nat.lt_succ_of_le inside)
      _ = (things.map fun x => g (f x)).sum :=
        weigh_countP f things fun x member => Nat.le_of_lt_succ (low x member)

end Histogram
