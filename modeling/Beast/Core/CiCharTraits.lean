import Mathlib.Tactic.Common

/-! Octet strings, and their comparison without regard to ASCII case. -/

namespace Beast

/-- A string of octets, as the source holds text. -/
abbrev Octets := List UInt8

/-- There are finitely many octets, but what holds along a string is decided along that string. -/
instance (priority := 1100) decidableAlong (p : UInt8 → Prop) [DecidablePred p] (s : Octets) :
    Decidable (∀ c ∈ s, p c) :=
  List.decidableBAll p s

/-- The octet of a character of the source's own literals. -/
def octet (c : Char) : UInt8 := UInt8.ofNat c.toNat

/-- The octets of a string literal of the source. -/
def octets (s : String) : Octets := s.toList.map octet

/-- The lower case of an octet, which only changes the letters of ASCII. -/
def tolower (c : UInt8) : UInt8 :=
  if octet 'A' ≤ c && c ≤ octet 'Z' then c + 32 else c

/-- Equality of strings without regard to ASCII case. -/
def ciEqual (s1 s2 : Octets) : Bool :=
  s1.map tolower == s2.map tolower

/-- Every string equals itself without regard to case. -/
@[simp] theorem ciEqual_refl (s : Octets) : ciEqual s s = true := by
  simp [ciEqual]

/-- Whether two strings agree up to case does not depend on their order. -/
theorem ciEqual_comm (s1 s2 : Octets) : ciEqual s1 s2 = ciEqual s2 s1 := by
  simp only [ciEqual]
  exact Bool.beq_comm

/-- A string agrees with the same strings up to case as any string it agrees with. -/
theorem ciEqual_congr {s1 s2 : Octets} (same : ciEqual s1 s2 = true) (s : Octets) :
    ciEqual s1 s = ciEqual s2 s := by
  simp only [ciEqual, beq_iff_eq] at same
  simp only [ciEqual, same]

end Beast
