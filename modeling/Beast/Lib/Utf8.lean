import Beast.Lib.PrefixCode
import Mathlib.Tactic.Common

/-! Well-formed UTF-8 of RFC 3629: scalar values, their octets, and the prefix-code laws. -/

namespace Utf8

/-- A trailing octet of a multi-octet form. -/
def isTail (b : UInt8) : Bool :=
  0x80 ≤ b && b ≤ 0xBF

/-- One character of the RFC 3629 grammar, with one alternative for each width. -/
def isChar : List UInt8 → Bool
  | [a] => a ≤ 0x7F
  | [a, b] => 0xC2 ≤ a && a ≤ 0xDF && isTail b
  | [a, b, c] =>
    -- The second octet is narrowed to keep out overlong forms and the surrogates.
    ((a == 0xE0 && 0xA0 ≤ b && b ≤ 0xBF) || (0xE1 ≤ a && a ≤ 0xEC && isTail b) ||
      (a == 0xED && 0x80 ≤ b && b ≤ 0x9F) || (0xEE ≤ a && a ≤ 0xEF && isTail b)) && isTail c
  | [a, b, c, d] =>
    -- The second octet is narrowed to keep out overlong forms and values above U+10FFFF.
    ((a == 0xF0 && 0x90 ≤ b && b ≤ 0xBF) || (0xF1 ≤ a && a ≤ 0xF3 && isTail b) ||
      (a == 0xF4 && 0x80 ≤ b && b ≤ 0x8F)) && isTail c && isTail d
  | _ => false

/-- Octets that spell some sequence of Unicode scalar values. -/
def WellFormed (bs : List UInt8) : Prop :=
  ∃ cs : List Char, cs.flatMap String.utf8EncodeChar = bs

/-- A scalar value lies outside the surrogates and below the top of the code space. -/
theorem char_range (c : Char) :
    c.val.toNat < 0xD800 ∨ (0xDFFF < c.val.toNat ∧ c.val.toNat < 0x110000) := by
  simpa [UInt32.isValidChar, Nat.isValidChar] using c.valid

/-- The octets of every scalar value match the grammar. -/
theorem isChar_encode (c : Char) : isChar (String.utf8EncodeChar c) = true := by
  have range := char_range c
  unfold String.utf8EncodeChar
  generalize c.val.toNat = v at range
  -- The four widths split the code space, and each octet is a digit of the value.
  dsimp only
  split
  · simp [isChar, UInt8.le_iff_toNat_le]; omega
  split
  · simp [isChar, isTail, UInt8.le_iff_toNat_le]; omega
  split
  · simp [isChar, isTail, UInt8.le_iff_toNat_le, ← UInt8.toNat_inj]; omega
  · simp [isChar, isTail, UInt8.le_iff_toNat_le, ← UInt8.toNat_inj]; omega

/-- A value in the scalar range is the value of a character. -/
theorem exists_char {v : Nat} (range : v < 0xD800 ∨ (0xDFFF < v ∧ v < 0x110000)) :
    ∃ c : Char, c.val.toNat = v := by
  have valid : Nat.isValidChar v := by simpa [Nat.isValidChar] using range
  exact ⟨Char.ofNatAux v valid, rfl⟩

/-- Every sequence of octets in the grammar is the spelling of a scalar value. -/
theorem exists_encode {u : List UInt8} (named : isChar u = true) :
    ∃ c : Char, String.utf8EncodeChar c = u := by
  -- The value is read off the octets, and its range follows from the bounds on the lead octets.
  match u with
  | [] => simp [isChar] at named
  | [a] =>
    simp [isChar, UInt8.le_iff_toNat_le] at named
    obtain ⟨c, value⟩ := exists_char (v := a.toNat) (by omega)
    refine ⟨c, ?_⟩
    simp [String.utf8EncodeChar, value, named]
  | [a, b] =>
    simp [isChar, isTail, UInt8.le_iff_toNat_le] at named
    obtain ⟨c, value⟩ := exists_char (v := (a.toNat - 192) * 64 + (b.toNat - 128)) (by omega)
    refine ⟨c, ?_⟩
    simp only [String.utf8EncodeChar, value]
    rw [if_neg (by omega), if_pos (by omega)]
    simp [← UInt8.toNat_inj]
    omega
  | [a, b, c] =>
    simp [isChar, isTail, UInt8.le_iff_toNat_le, ← UInt8.toNat_inj] at named
    obtain ⟨v, made⟩ : ∃ v, v =
      (a.toNat - 224) * 4096 + (b.toNat - 128) * 64 + (c.toNat - 128) := ⟨_, rfl⟩
    have digits : (224 ≤ a.toNat ∧ a.toNat < 240) ∧ (128 ≤ b.toNat ∧ b.toNat < 192) ∧
        128 ≤ c.toNat ∧ c.toNat < 192 := by omega
    have range : 0x7FF < v ∧ v ≤ 0xFFFF ∧ (v < 0xD800 ∨ 0xDFFF < v) := by omega
    -- From here on only the range of each octet and of the value matters.
    clear named
    obtain ⟨ch, value⟩ := exists_char (v := v) (by omega)
    refine ⟨ch, ?_⟩
    simp only [String.utf8EncodeChar, value]
    rw [if_neg (by omega), if_neg (by omega), if_pos range.2.1]
    clear value range
    simp [← UInt8.toNat_inj]
    omega
  | [a, b, c, d] =>
    simp [isChar, isTail, UInt8.le_iff_toNat_le, ← UInt8.toNat_inj] at named
    obtain ⟨v, made⟩ : ∃ v, v = (a.toNat - 240) * 262144 + (b.toNat - 128) * 4096 +
      (c.toNat - 128) * 64 + (d.toNat - 128) := ⟨_, rfl⟩
    have digits : (240 ≤ a.toNat ∧ a.toNat < 245) ∧ (128 ≤ b.toNat ∧ b.toNat < 192) ∧
        (128 ≤ c.toNat ∧ c.toNat < 192) ∧ 128 ≤ d.toNat ∧ d.toNat < 192 := by omega
    have range : 0xFFFF < v ∧ v < 0x110000 := by omega
    clear named
    obtain ⟨ch, value⟩ := exists_char (v := v) (by omega)
    refine ⟨ch, ?_⟩
    simp only [String.utf8EncodeChar, value]
    rw [if_neg (by omega), if_neg (by omega), if_neg (by omega)]
    clear value range
    simp [← UInt8.toNat_inj]
    omega
  | _ :: _ :: _ :: _ :: _ :: _ => simp [isChar] at named

/-- The width a lead octet announces. -/
def width (a : UInt8) : Nat :=
  if a < 0x80 then 1 else if a < 0xE0 then 2 else if a < 0xF0 then 3 else 4

/-- The lead octet of a character tells how many octets the character has. -/
theorem isChar_headed : PrefixCode.HeadedBy (isChar · = true) width := by
  intro u named
  match u with
  | [] => simp [isChar] at named
  | [a] =>
    simp [isChar, UInt8.le_iff_toNat_le] at named
    refine ⟨a, [], rfl, ?_⟩
    rw [width, if_pos (by simp [UInt8.lt_iff_toNat_lt]; omega)]
    rfl
  | [a, b] =>
    simp [isChar, isTail, UInt8.le_iff_toNat_le] at named
    refine ⟨a, [b], rfl, ?_⟩
    rw [width, if_neg (by simp [UInt8.le_iff_toNat_le]; omega),
      if_pos (by simp [UInt8.lt_iff_toNat_lt]; omega)]
    rfl
  | [a, b, c] =>
    simp [isChar, isTail, UInt8.le_iff_toNat_le, ← UInt8.toNat_inj] at named
    refine ⟨a, [b, c], rfl, ?_⟩
    rw [width, if_neg (by simp [UInt8.le_iff_toNat_le]; omega),
      if_neg (by simp [UInt8.le_iff_toNat_le]; omega),
      if_pos (by simp [UInt8.lt_iff_toNat_lt]; omega)]
    rfl
  | [a, b, c, d] =>
    simp [isChar, isTail, UInt8.le_iff_toNat_le, ← UInt8.toNat_inj] at named
    refine ⟨a, [b, c, d], rfl, ?_⟩
    rw [width, if_neg (by simp [UInt8.le_iff_toNat_le]; omega),
      if_neg (by simp [UInt8.le_iff_toNat_le]; omega),
      if_neg (by simp [UInt8.le_iff_toNat_le]; omega)]
    rfl
  | _ :: _ :: _ :: _ :: _ :: _ => simp [isChar] at named

/-- Being well formed is being a concatenation of characters of the grammar. -/
theorem wellFormed_iff {bs : List UInt8} :
    WellFormed bs ↔ PrefixCode.Spelled (isChar · = true) bs := by
  constructor
  · rintro ⟨cs, rfl⟩
    refine ⟨cs.map String.utf8EncodeChar, by simp [List.flatMap_def], ?_⟩
    intro u member
    obtain ⟨c, _, rfl⟩ := List.mem_map.mp member
    exact isChar_encode c
  · rintro ⟨us, rfl, named⟩
    -- The characters are chosen one at a time from the front.
    induction us with
    | nil => exact ⟨[], rfl⟩
    | cons u us ih =>
      obtain ⟨c, spelled⟩ := exists_encode (named u (by simp))
      obtain ⟨cs, rest⟩ := ih (fun u member => named u (by simp [member]))
      exact ⟨c :: cs, by simp [spelled, rest]⟩

end Utf8
