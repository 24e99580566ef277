import Mathlib.Data.List.Basic
import Mathlib.Tactic.Common

/-! Rings of places that keep the last elements of a list, each of them so far in front of an end. -/

namespace Ring

/-- The place that is so far in front of another one. -/
def before (cap i back : Nat) : Nat := if back ≤ i then i - back else i + cap - back

/-- The place that is so far behind another one. -/
def behind (cap i n : Nat) : Nat := if i + n < cap then i + n else i + n - cap

variable {α : Type*} {p p' : Nat → α} {cap i k n pos : Nat} {h xs : List α}

theorem before_lt (inside : i < cap) {back : Nat} (some_ : 1 ≤ back) (most : back ≤ cap) : before cap i back < cap := by
  rw [before]
  split <;> omega

theorem behind_lt (inside : i < cap) (most : n ≤ cap) : behind cap i n < cap := by
  rw [behind]
  split <;> omega

theorem before_mod (inside : i < cap) {back : Nat} (some_ : 1 ≤ back) (most : back ≤ cap) :
    (i + cap - back) % cap = before cap i back := by
  rw [before]
  split
  · rw [(by omega : i + cap - back = i - back + cap), Nat.add_mod_right, Nat.mod_eq_of_lt (by omega)]
  · exact Nat.mod_eq_of_lt (by omega)

theorem behind_mod (inside : i < cap) (most : n ≤ cap) : (i + n) % cap = behind cap i n := by
  rw [behind]
  split
  · rename_i low
    exact Nat.mod_eq_of_lt low
  · rw [Nat.mod_eq_sub_mod (by omega), Nat.mod_eq_of_lt (by omega)]

/-- The last elements of a list, so many of them, are in front of a place. -/
structure Holds (p : Nat → α) (cap i : Nat) (h : List α) (k : Nat) : Prop where
  inside : i < cap
  most : k ≤ cap
  some_ : k ≤ h.length
  own : ∀ back, 1 ≤ back → back ≤ k → h[h.length - back]? = some (p (before cap i back))

/-- Elements are put at a place and behind it, and nothing else changes. -/
structure Put (p p' : Nat → α) (cap i : Nat) (xs : List α) : Prop where
  own : ∀ j < xs.length, xs[j]? = some (p' (behind cap i j))
  others : ∀ q < cap, (∀ j < xs.length, behind cap i j ≠ q) → p' q = p q

theorem holds_nil (p : Nat → α) (inside : i < cap) : Holds p cap i [] 0 :=
  ⟨inside, Nat.zero_le _, Nat.le_refl _, fun _ some_ none => by omega⟩

/-- What is put behind the last elements is behind them in the list. -/
theorem Holds.put (holds : Holds p cap i h k) (put : Put p p' cap i xs) (few : xs.length < cap) :
    Holds p' cap (behind cap i xs.length) (h ++ xs) (min (k + xs.length) cap) := by
  have inside := holds.inside
  have most := holds.most
  have some_ := holds.some_
  refine ⟨behind_lt inside (Nat.le_of_lt few), Nat.min_le_right _ _, ?_, fun back first last => ?_⟩
  · rw [List.length_append]
    omega
  rw [List.length_append]
  rcases Nat.lt_or_ge xs.length back with old | new
  · -- An element from before is still at its place, since less than a whole ring was put.
    have kept := holds.own (back - xs.length) (by omega) (by omega)
    have place : before cap (behind cap i xs.length) back = before cap i (back - xs.length) := by
      unfold before behind
      split <;> split <;> split <;> omega
    have apart : ∀ j < xs.length, behind cap i j ≠ before cap i (back - xs.length) := by
      intro j less
      unfold before behind
      split <;> split <;> omega
    rw [place, put.others _ (before_lt inside (by omega) (by omega)) apart, ← kept,
      List.getElem?_append_left (by omega)]
    congr 1
    omega
  · have own := put.own (xs.length - back) (by omega)
    have place : before cap (behind cap i xs.length) back = behind cap i (xs.length - back) := by
      unfold before behind
      split <;> split <;> split <;> omega
    rw [place, ← own, List.getElem?_append_right (by omega)]
    congr 1
    omega

/-- A whole ring of elements is put. -/
theorem holds_all (positive : 0 < cap) (h : List α) (enough : cap ≤ xs.length)
    (own : ∀ j < cap, xs[xs.length - cap + j]? = some (p (j))) : Holds p cap 0 (h ++ xs) cap := by
  refine ⟨positive, Nat.le_refl _, by rw [List.length_append]; omega, fun back first last => ?_⟩
  have place := own (cap - back) (by omega)
  rw [before, if_neg (by omega), Nat.zero_add, ← place, List.length_append, List.getElem?_append_right (by omega)]
  congr 1
  omega

/-- The elements from so far in front of the end are those at the places from there on. -/
theorem Holds.slice (holds : Holds p cap i h k) (few : n ≤ pos) (last : pos ≤ k) :
    (List.range n).map (fun j => p (behind cap (before cap i pos) j)) = (h.drop (h.length - pos)).take n := by
  have inside := holds.inside
  have most := holds.most
  have some_ := holds.some_
  refine List.ext_getElem? fun j => ?_
  rcases Nat.lt_or_ge j n with low | high
  · have own := holds.own (pos - j) (by omega) (by omega)
    have place : behind cap (before cap i pos) j = before cap i (pos - j) := by
      unfold before behind
      split <;> split <;> split <;> omega
    rw [List.getElem?_map, List.getElem?_range low, List.getElem?_take_of_lt low, List.getElem?_drop,
      Option.map_some, place, ← own]
    congr 1
    omega
  · rw [List.getElem?_eq_none (by simpa using high), List.getElem?_eq_none (by
      rw [List.length_take]
      omega)]

end Ring
