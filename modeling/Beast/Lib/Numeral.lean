import Mathlib.Algebra.Order.Ring.Nat
import Mathlib.Tactic.Common

/-! Numerals in a base, and what an accumulator of limited width makes of their digits. -/

namespace Numeral

variable {base size : Nat}

/-- What digits denote behind a number, the most significant one first. -/
def denotes (base v : Nat) (digits : List Nat) : Nat :=
  digits.foldl (fun v d => base * v + d) v

/-- What an accumulator holds that drops what exceeds its size at every digit. -/
def wraps (base size v : Nat) (digits : List Nat) : Nat :=
  digits.foldl (fun v d => (base * v + d) % size) v

/-- Whether an accumulator of limited size grows with every digit. -/
def Climbs (base size : Nat) : Nat → List Nat → Prop
  | _, [] => True
  | v, d :: ds => v < (base * v + d) % size ∧ Climbs base size ((base * v + d) % size) ds

instance decidableClimbs : ∀ (v : Nat) (ds : List Nat), Decidable (Climbs base size v ds)
  | _, [] => .isTrue trivial
  | v, d :: ds =>
    have := decidableClimbs ((base * v + d) % size) ds
    inferInstanceAs (Decidable (_ ∧ _))

@[simp] theorem denotes_nil (v : Nat) : denotes base v [] = v := rfl

@[simp] theorem denotes_cons (v d : Nat) (ds : List Nat) :
    denotes base v (d :: ds) = denotes base (base * v + d) ds := rfl

@[simp] theorem wraps_nil (v : Nat) : wraps base size v [] = v := rfl

@[simp] theorem wraps_cons (v d : Nat) (ds : List Nat) :
    wraps base size v (d :: ds) = wraps base size ((base * v + d) % size) ds := rfl

/-- Further digits make a numeral no smaller. -/
theorem le_denotes (positive : 0 < base) (v : Nat) (ds : List Nat) : v ≤ denotes base v ds := by
  induction ds generalizing v with
  | nil => exact Nat.le_refl v
  | cons d ds ih =>
    -- One digit multiplies what is there before it adds to it.
    have grown : v ≤ base * v + d := Nat.le_add_right_of_le (Nat.le_mul_of_pos_left v positive)
    exact Nat.le_trans grown (ih _)

/-- A numeral that fits is what the accumulator holds behind its digits. -/
theorem wraps_of_fits (positive : 0 < base) {v : Nat} {ds : List Nat}
    (fits : denotes base v ds < size) : wraps base size v ds = denotes base v ds := by
  induction ds generalizing v with
  | nil => rfl
  | cons d ds ih =>
    -- The value so far is no larger than the whole, so nothing of it is dropped.
    have within : base * v + d < size := Nat.lt_of_le_of_lt (le_denotes positive _ ds) fits
    rw [wraps_cons, Nat.mod_eq_of_lt within, denotes_cons]
    exact ih fits

/-- An accumulator behind some digits holds no more than its size admits. -/
theorem wraps_lt {v : Nat} {ds : List Nat} (within : v < size) : wraps base size v ds < size := by
  induction ds generalizing v with
  | nil => exact within
  | cons d ds ih => exact ih (Nat.mod_lt _ (Nat.zero_lt_of_lt within))

/-- Behind a number other than zero, the accumulator grows with every digit that fits. -/
theorem climbs_of_fits (large : 1 < base) {v : Nat} {ds : List Nat} (some_ : v ≠ 0)
    (fits : denotes base v ds < size) : Climbs base size v ds := by
  induction ds generalizing v with
  | nil => trivial
  | cons d ds ih =>
    have within : base * v + d < size :=
      Nat.lt_of_le_of_lt (le_denotes (Nat.zero_lt_of_lt large) _ ds) fits
    have doubled : 2 * v ≤ base * v := Nat.mul_le_mul_right v large
    rw [Climbs, Nat.mod_eq_of_lt within]
    exact ⟨by omega, ih (by omega) fits⟩

/-- Behind a zero, it grows just where no second zero follows. -/
theorem climbs_zero_iff (large : 1 < base) {d : Nat} {ds : List Nat}
    (fits : denotes base 0 (d :: ds) < size) : Climbs base size 0 (d :: ds) ↔ d ≠ 0 := by
  have first : base * 0 + d = d := by omega
  rw [denotes_cons, first] at fits
  have within : d < size := Nat.lt_of_le_of_lt (le_denotes (Nat.zero_lt_of_lt large) _ ds) fits
  rw [Climbs, first, Nat.mod_eq_of_lt within]
  constructor
  · rintro ⟨grown, _⟩
    omega
  · intro some_
    exact ⟨by omega, climbs_of_fits large some_ fits⟩

end Numeral
