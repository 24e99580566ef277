import Beast.Lib.BitString
import Mathlib.Algebra.BigOperators.Group.List.Basic
import Mathlib.Tactic.Ring

/-! Numbers of so many bits each, one behind another in a string of bits. -/

/-- A number, and how many bits it has. -/
abbrev BitField := Nat × Nat

namespace BitField

variable {b : BitString} {pos : Nat} {fs gs : List BitField}

/-- How many bits some numbers have together. -/
def width (fs : List BitField) : Nat := (fs.map Prod.snd).sum

/-- The number that some numbers make, with the first one as its lowest bits. -/
def pack : List BitField → Nat
  | [] => 0
  | (v, n) :: fs => v + 2 ^ n * pack fs

/-- No number has more bits than it is said to have. -/
def Fit (fs : List BitField) : Prop := ∀ f ∈ fs, f.1 < 2 ^ f.2

@[simp] theorem width_nil : width [] = 0 := rfl

@[simp] theorem width_cons (f : BitField) (fs : List BitField) : width (f :: fs) = f.2 + width fs := by
  simp [width]

@[simp] theorem width_append (fs gs : List BitField) : width (fs ++ gs) = width fs + width gs := by
  simp [width]

theorem pack_append (fs gs : List BitField) : pack (fs ++ gs) = pack fs + 2 ^ width fs * pack gs := by
  induction fs with
  | nil => simp [pack]
  | cons f fs ih =>
    obtain ⟨v, n⟩ := f
    rw [List.cons_append, pack, ih, pack, width_cons, Nat.pow_add]
    ring

theorem fit_append : Fit (fs ++ gs) ↔ Fit fs ∧ Fit gs := by
  simp only [Fit, List.mem_append, or_imp, forall_and]

theorem pack_lt (fit : Fit fs) : pack fs < 2 ^ width fs := by
  induction fs with
  | nil => exact Nat.one_pos
  | cons f fs ih =>
    obtain ⟨v, n⟩ := f
    have first := fit (v, n) List.mem_cons_self
    have rest := ih fun g member => fit g (List.mem_cons_of_mem _ member)
    rw [pack, width_cons, Nat.pow_add]
    calc v + 2 ^ n * pack fs
      _ < 2 ^ n * 1 + 2 ^ n * pack fs := by
        dsimp only at first
        omega
      _ = 2 ^ n * (pack fs + 1) := by ring
      _ ≤ 2 ^ n * 2 ^ width fs := Nat.mul_le_mul_left _ rest

/-- A string of bits has some numbers from a place on. -/
def Held (b : BitString) : Nat → List BitField → Prop
  | pos, [] => pos ≤ b.length
  | pos, (v, n) :: fs => b.slice pos n = v ∧ Held b (pos + n) fs

theorem Held.inside (held : Held b pos fs) : pos + width fs ≤ b.length := by
  induction fs generalizing pos with
  | nil => exact held
  | cons f fs ih =>
    have rest := ih held.2
    rw [width_cons]
    omega

theorem held_append : Held b pos (fs ++ gs) ↔ Held b pos fs ∧ Held b (pos + width fs) gs := by
  induction fs generalizing pos with
  | nil =>
    rw [List.nil_append, width_nil, Nat.add_zero]
    refine ⟨fun held => ⟨?_, held⟩, And.right⟩
    have inside := held.inside
    change pos ≤ b.length
    omega
  | cons f fs ih =>
    rw [List.cons_append, Held, Held, ih, width_cons, Nat.add_assoc, and_assoc]

/-- A string of bits has the numbers that it was made of. -/
theorem held_of_pack (fit : Fit fs) (enough : pos + width fs ≤ b.length)
    (packed : b.slice pos (width fs) = pack fs) : Held b pos fs := by
  induction fs generalizing pos with
  | nil =>
    rw [width_nil] at enough
    exact enough
  | cons f fs ih =>
    obtain ⟨v, n⟩ := f
    have first := fit (v, n) List.mem_cons_self
    dsimp only at first
    rw [width_cons] at enough packed
    dsimp only at enough packed
    rw [pack] at packed
    refine ⟨?_, ih (fun g member => fit g (List.mem_cons_of_mem _ member)) (by omega) ?_⟩
    · rw [← BitString.slice_mod (Nat.le_add_right n (width fs)), packed, Nat.add_mul_mod_self_left,
        Nat.mod_eq_of_lt first]
    · have behind := @BitString.slice_div b pos (n + width fs) n (Nat.le_add_right n (width fs))
      rw [packed, Nat.add_mul_div_left _ _ (Nat.two_pow_pos n), Nat.div_eq_of_lt first, Nat.zero_add,
        Nat.add_sub_cancel_left] at behind
      exact behind.symm

end BitField
