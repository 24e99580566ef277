import Beast.Http.BasicParserBase
import Beast.Lib.Numeral
import Mathlib.Tactic.Ring

/-! How the parser reads numbers: the length of a body, and the size of a chunk. -/

namespace Beast.Http

open Numeral

section Decimal

/-- The value of a decimal digit. -/
def digitValue (c : UInt8) : Nat := c.toNat - (octet '0').toNat

/-- The number that a string of decimal digits denotes. -/
def decimalValue (s : Octets) : Nat := denotes 10 0 (s.map digitValue)

/-- A decimal digit is one of ten. -/
theorem digitValue_lt {c : UInt8} (digit : isDigit c = true) : digitValue c < 10 := by
  obtain ⟨c⟩ := c
  revert c
  decide +kernel

/-- The loop over further digits reads them to the end, as long as it stays below its bound. -/
theorem parseDecLoop_eq (v : Nat) (bounded : v ≤ 18446744073709551609) (s : Octets) :
    parseDecLoop v s =
      if s.all isDigit = true ∧ denotes 10 v (s.map digitValue) ≤ 18446744073709551609 then
        some (denotes 10 v (s.map digitValue))
      else none := by
  -- The induction carries the bound from one digit to the next.
  induction s generalizing v with
  | nil => simp [parseDecLoop, bounded]
  | cons c s ih =>
    rw [parseDecLoop, List.map_cons, denotes_cons, List.all_cons]
    by_cases digit : isDigit c = true
    · have small := digitValue_lt digit
      rw [if_neg (by simp [digit]), digit, Bool.true_and]
      by_cases large : v > ((2 ^ 64 - 1) - 10) / 10
      · -- Ten times such a value is beyond the bound, whatever digits follow.
        have grown := le_denotes (show 0 < 10 by omega) (10 * v + digitValue c) (s.map digitValue)
        rw [if_pos large, if_neg]
        rintro ⟨_, within⟩
        omega
      · rw [if_neg large]
        exact ih (10 * v + digitValue c) (by omega)
    · -- Any other octet ends the number in front of the end of the value.
      rw [if_pos (by simpa using digit), if_neg]
      rintro ⟨all, _⟩
      simp [digit] at all

/-- A length is read where the value is a number of digits that is below the bound. -/
theorem parseDec_eq (s : Octets) :
    parseDec s =
      if s ≠ [] ∧ s.all isDigit = true ∧ decimalValue s ≤ 18446744073709551609 then
        some (decimalValue s)
      else none := by
  unfold decimalValue
  cases s with
  | nil => simp [parseDec]
  | cons c s =>
    rw [parseDec, List.map_cons, denotes_cons, List.all_cons]
    by_cases digit : isDigit c = true
    · have small := digitValue_lt digit
      have first : 10 * 0 + digitValue c = digitValue c := by omega
      have read := parseDecLoop_eq (digitValue c) (by omega) s
      rw [if_neg (by simp [digit]), digit, Bool.true_and, first]
      simp only [ne_eq, reduceCtorEq, not_false_eq_true, true_and]
      exact read
    · rw [if_pos (by simpa using digit), if_neg]
      rintro ⟨_, all, _⟩
      simp [digit] at all

end Decimal

end Beast.Http
