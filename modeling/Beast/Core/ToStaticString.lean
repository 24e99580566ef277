import Beast.Core.CiCharTraits
import Beast.Core.StaticStringLaws
import Beast.Lib.Numeral
import Mathlib

/-! Numbers as decimal strings, for which there is room by the width of their type. -/

namespace Beast

open StaticString (Halt StringStep)

/-- The number of digits of a binary number, by its octets. -/
def max_digits (bytes : Nat) : Nat :=
  -- The product with 2.41 is one of floating point, of which the fraction is dropped.
  bytes * 241 / 100 + 1

/-- A number of an integral type, of one to eight octets. -/
structure Integer where
  bytes : Nat
  signed : Bool
  val : Int
  positive : 0 < bytes
  narrow : bytes ≤ 8
  least : (if signed then -2 ^ (8 * bytes - 1) else 0) ≤ val
  most : val < if signed then 2 ^ (8 * bytes - 1) else 2 ^ (8 * bytes)

namespace Integer

/-- The most negative number of a signed type. -/
def lowest (x : Integer) : Int := -2 ^ (8 * x.bytes - 1)

/-- The number with the other sign, as its type holds it. -/
def negate (x : Integer) : Except Halt Int :=
  if x.val = x.lowest then
    -- Narrow types are computed with as `int`, and are converted back.
    if x.bytes < 4 then .ok x.lowest else .error .overflow
  else .ok (-x.val)

end Integer

/-- The character of a digit. -/
def digitChar (d : Nat) : UInt8 := UInt8.ofNat (48 + d)

/-- The digits of a number, the least significant one first, in a buffer with so much room. -/
def writeDigits : Nat → Nat → Except Halt (List UInt8)
  | _, 0 => .ok []
  | 0, _ + 1 => .error .fault
  | room + 1, x + 1 => do
    let rest ← writeDigits room ((x + 1) / 10)
    return digitChar ((x + 1) % 10) :: rest

section

variable {N : Nat}

/-- Writes the digits of a number, if it is one, behind what is in front of them. -/
def writeNumber (bytes : Nat) (front : List UInt8) (x : Int) : StringStep N UInt8 Unit := do
  let buf ← Step.lift (writeDigits (max_digits bytes) x.toNat)
  StaticString.resize (front.length + buf.length)
  StaticString.place 0 front
  StaticString.place front.length buf.reverse

/-- What is written of a number of a signed type. -/
def to_static_string_signed (x : Integer) : StringStep N UInt8 Unit := do
  if x.val = 0 then StaticString.assignRange [digitChar 0]
  else if x.val < 0 then
    let v ← Step.lift x.negate
    writeNumber x.bytes [octet '-'] v
  else writeNumber x.bytes [] x.val

/-- What is written of a number of an unsigned type. -/
def to_static_string_unsigned (x : Integer) : StringStep N UInt8 Unit := do
  if x.val = 0 then StaticString.assignRange [digitChar 0]
  else writeNumber x.bytes [] x.val

end

/-- The decimal string of a number. -/
def to_static_string (mem : Nat → UInt8) (x : Integer) :
    Except Halt (StaticString (max_digits x.bytes) UInt8) :=
  if x.signed then
    -- There is room for the sign, but not in the string that is returned.
    match Step.run (to_static_string_signed x)
        (.construct mem : StaticString (1 + max_digits x.bytes) UInt8) with
    | (.error e, _) => .error e
    | (.ok _, s) =>
      match Step.run (StaticString.assignString s) (.construct mem) with
      | (.error e, _) => .error e
      | (.ok _, s) => .ok s
  else
    match Step.run (to_static_string_unsigned x)
        (.construct mem : StaticString (max_digits x.bytes) UInt8) with
    | (.error e, _) => .error e
    | (.ok _, s) => .ok s

/-! ## Decimal representations -/

/-- A string is the decimal representation of a number, with no zero more than it needs. -/
def Decimal (s : List UInt8) (x : Int) : Prop :=
  ∃ ds : List Nat, ds ≠ [] ∧ (∀ d ∈ ds, d < 10) ∧ (ds.head? = some 0 → ds = [0] ∧ x = 0) ∧
    Numeral.denotes 10 0 ds = x.natAbs ∧
    s = (if x < 0 then [octet '-'] else []) ++ ds.map digitChar

/-- Digits denote the same from either end on. -/
theorem denotes_reverse (ds : List Nat) : Numeral.denotes 10 0 ds.reverse = Nat.ofDigits 10 ds := by
  unfold Numeral.denotes
  rw [List.foldl_reverse]
  induction ds with
  | nil => rfl
  | cons d ds ih =>
    rw [List.foldr_cons, ih, Nat.ofDigits_cons]
    exact Nat.add_comm _ _

/-- The digits of a number are written where there is room for them. -/
theorem writeDigits_ok {room x : Nat} (fits : x < 10 ^ room) :
    writeDigits room x = .ok ((Nat.digits 10 x).map digitChar) := by
  -- The induction is on the number, of which each digit leaves a tenth.
  induction room generalizing x with
  | zero =>
    obtain rfl : x = 0 := by omega
    rfl
  | succ room ih =>
    cases x with
    | zero => rfl
    | succ x =>
      have tenth : (x + 1) / 10 < 10 ^ room := by
        rw [Nat.pow_succ] at fits
        exact Nat.div_lt_of_lt_mul (by omega)
      rw [writeDigits, ih tenth, Nat.digits_def' (by decide) (Nat.succ_pos x)]
      rfl

/-- The octets of the digits and of the sign are those of the decimal representation. -/
theorem decimal_digits {x : Int} (some_ : x ≠ 0) :
    Decimal ((if x < 0 then [octet '-'] else []) ++
      ((Nat.digits 10 x.natAbs).map digitChar).reverse) x := by
  have nonzero : x.natAbs ≠ 0 := Int.natAbs_ne_zero.mpr some_
  refine ⟨(Nat.digits 10 x.natAbs).reverse, ?_, ?_, ?_, ?_, ?_⟩
  · rw [Ne, List.reverse_eq_nil_iff]
    exact Nat.digits_ne_nil_iff_ne_zero.mpr nonzero
  · intro d there
    exact Nat.digits_lt_base (by decide) (List.mem_reverse.mp there)
  · -- The first digit is the last one that was written, and is not zero.
    intro zero
    exfalso
    rw [List.head?_reverse, List.getLast?_eq_getLast_of_ne_nil
      (Nat.digits_ne_nil_iff_ne_zero.mpr nonzero)] at zero
    exact Nat.getLast_digit_ne_zero 10 nonzero (Option.some.inj zero)
  · rw [denotes_reverse, Nat.ofDigits_digits]
  · rw [List.map_reverse]

/-- A number is written behind what is in front of it, where there is room for both. -/
theorem run_writeNumber {N b n : Nat} {x : Int} (front : List UInt8) (value : x.toNat = n)
    (small : n < 10 ^ max_digits b) (fits : front.length + (Nat.digits 10 n).length ≤ N)
    (s : StaticString N UInt8) :
    ∃ s', Step.run (writeNumber b front x) s = (.ok (), s') ∧ s'.Valid ∧
      s'.content = front ++ ((Nat.digits 10 n).map digitChar).reverse := by
  have size := s.fixed
  have digits := writeDigits_ok small
  have length : ((Nat.digits 10 n).map digitChar).length = (Nat.digits 10 n).length :=
    List.length_map _
  obtain ⟨buf, same⟩ : ∃ buf, buf = (Nat.digits 10 n).map digitChar := ⟨_, rfl⟩
  rw [← same] at digits length ⊢
  -- The string is made as long as it will be, and is then written over.
  obtain ⟨t, resized, valid, made⟩ :=
    StaticString.run_resize (s := s) (n := front.length + buf.length) (by omega)
  have long : t.n_ = front.length + buf.length := by
    rw [← StaticString.length_content valid, made, List.length_take]
    omega
  obtain ⟨u, placed, valid', long', text⟩ :=
    StaticString.run_place_content valid (i := 0) (l := front) (by omega)
  obtain ⟨s', placed', valid'', -, text'⟩ :=
    StaticString.run_place_content valid' (i := front.length) (l := buf.reverse)
      (by rw [List.length_reverse]; omega)
  refine ⟨s', ?_, valid'', ?_⟩
  · rw [writeNumber, value, digits, Step.run_lift_ok_bind, Step.run_bind_ok resized,
      Step.run_bind_ok placed, placed']
  · have all := StaticString.length_content valid'
    rw [text', List.drop_eq_nil_of_le (by rw [List.length_reverse]; omega), List.append_nil, text,
      List.take_zero, List.nil_append, List.take_left' rfl]

/-! ## Every number of every type -/

/-- The digits of a number fit into as many characters as its type has room for. -/
theorem Integer.natAbs_lt (x : Integer) : x.val.natAbs < 10 ^ max_digits x.bytes := by
  have least := x.least
  have most := x.most
  -- One to eight octets are each looked at.
  have powers : 2 ^ (8 * x.bytes) ≤ 10 ^ max_digits x.bytes ∧
      2 ^ (8 * x.bytes - 1) < 10 ^ max_digits x.bytes := by
    have positive := x.positive
    have narrow := x.narrow
    generalize x.bytes = bytes at positive narrow ⊢
    interval_cases bytes <;> decide
  obtain ⟨whole, half⟩ := powers
  split at least
  · rw [if_pos ‹_›] at most
    zify at half ⊢
    rw [abs_lt]
    constructor <;> linarith
  · rw [if_neg ‹_›] at most
    zify at whole ⊢
    rw [abs_of_nonneg least]
    linarith

/-- The decimal string of a number is returned. -/
def Exact (mem : Nat → UInt8) (x : Integer) : Prop :=
  ∃ s, to_static_string mem x = .ok s ∧ s.Valid ∧ Decimal s.content x.val

/-- A number that is not negative, or neither the lowest one nor too long with its sign. -/
def Integer.Fits (x : Integer) : Prop :=
  0 ≤ x.val ∨ x.lowest < x.val ∧ -x.val < 10 ^ (max_digits x.bytes - 1)

instance (x : Integer) : Decidable x.Fits := inferInstanceAs (Decidable (_ ∨ _ ∧ _))

/-- Zero is written as one digit, in a string of any positive size. -/
theorem run_zero {N : Nat} (some_ : 0 < N) (s : StaticString N UInt8) :
    ∃ s', Step.run (StaticString.assignRange [digitChar 0]) s = (.ok (), s') ∧ s'.Valid ∧
      s'.n_ = 1 ∧ Decimal s'.content 0 := by
  obtain ⟨s', ran, valid, made⟩ := (StaticString.does_assign s [digitChar 0]).short some_
  refine ⟨s', ran, valid, ?_, [0], by decide, by decide, fun _ => ⟨rfl, rfl⟩, rfl, ?_⟩
  · rw [← StaticString.length_content valid, made, List.length_singleton]
  · rw [made]
    rfl

/-- A positive number is written by its digits, in a string of the width of its type. -/
theorem run_positive {N : Nat} (x : Integer) (some_ : 0 < x.val) (wide : max_digits x.bytes ≤ N)
    (s : StaticString N UInt8) :
    ∃ s', Step.run (writeNumber x.bytes [] x.val) s = (.ok (), s') ∧ s'.Valid ∧
      s'.n_ ≤ max_digits x.bytes ∧ Decimal s'.content x.val := by
  have small := x.natAbs_lt
  have few := (Nat.digits_length_le_iff (by decide) _).mpr small
  obtain ⟨s', ran, valid, made⟩ :=
    run_writeNumber [] (by omega : x.val.toNat = x.val.natAbs) small (by simpa using by omega) s
  have decimal := decimal_digits (by omega : x.val ≠ 0)
  rw [if_neg (by omega), ← made] at decimal
  refine ⟨s', ran, valid, ?_, decimal⟩
  rw [← StaticString.length_content valid, made, List.length_append, List.length_reverse,
    List.length_map]
  simpa using few

/-- A number of an unsigned type is written in full. -/
theorem unsigned_exact (mem : Nat → UInt8) (x : Integer) (unsigned : x.signed = false) :
    Exact mem x := by
  have least := x.least
  have room : 0 < max_digits x.bytes := Nat.succ_pos _
  rw [unsigned] at least
  have nonneg : 0 ≤ x.val := least
  have written : ∃ s', Step.run (to_static_string_unsigned x)
      (.construct mem : StaticString (max_digits x.bytes) UInt8) = (.ok (), s') ∧ s'.Valid ∧
      Decimal s'.content x.val := by
    unfold to_static_string_unsigned
    by_cases zero : x.val = 0
    · obtain ⟨s', ran, valid, -, decimal⟩ := run_zero room (.construct mem)
      rw [if_pos zero, zero]
      exact ⟨s', ran, valid, decimal⟩
    · rw [if_neg zero]
      obtain ⟨s', ran, valid, -, decimal⟩ :=
        run_positive x (by omega) (Nat.le_refl _) (.construct mem)
      exact ⟨s', ran, valid, decimal⟩
  obtain ⟨s', ran, valid, decimal⟩ := written
  refine ⟨s', ?_, valid, decimal⟩
  rw [to_static_string, unsigned, ran]
  rfl

/-- What is written of a number of a signed type, in a string with room for the sign. -/
def signedText (mem : Nat → UInt8) (x : Integer) :
    Except Halt Unit × StaticString (1 + max_digits x.bytes) UInt8 :=
  Step.run (to_static_string_signed x) (.construct mem)

/-- The string of a number of a signed type is returned where the text is short enough. -/
theorem to_static_string_of_text {mem : Nat → UInt8} {x : Integer} (signed : x.signed = true)
    {s : StaticString (1 + max_digits x.bytes) UInt8} (written : signedText mem x = (.ok (), s))
    (valid : s.Valid) :
    Exact mem x ↔ s.n_ ≤ max_digits x.bytes ∧ Decimal s.content x.val := by
  have does := StaticString.does_assignString (N := max_digits x.bytes) (.construct mem) valid
  have length := StaticString.length_content valid
  unfold signedText at written
  constructor
  · rintro ⟨t, returned, -, decimal⟩
    rw [to_static_string, if_pos signed, written] at returned
    dsimp only at returned
    by_cases large : max_digits x.bytes < s.content.length
    · rw [does.long large] at returned
      cases returned
    · obtain ⟨t', ran, -, same⟩ := does.short (Nat.not_lt.mp large)
      rw [ran] at returned
      cases returned
      exact ⟨by omega, same ▸ decimal⟩
  · rintro ⟨short, decimal⟩
    obtain ⟨t, ran, valid', same⟩ := does.short (by omega)
    refine ⟨t, ?_, valid', same ▸ decimal⟩
    rw [to_static_string, if_pos signed, written]
    dsimp only
    rw [ran]

/-- A number of a signed type that is not negative is written in full. -/
theorem signed_exact (mem : Nat → UInt8) (x : Integer) (signed : x.signed = true)
    (nonneg : 0 ≤ x.val) : Exact mem x := by
  by_cases zero : x.val = 0
  · obtain ⟨s', ran, valid, single, decimal⟩ :=
      run_zero (N := 1 + max_digits x.bytes) (by omega) (.construct mem)
    have written : signedText mem x = (.ok (), s') := by
      rw [signedText, to_static_string_signed, if_pos zero, ran]
    have room : 0 < max_digits x.bytes := Nat.succ_pos _
    exact (to_static_string_of_text signed written valid).mpr ⟨by omega, zero ▸ decimal⟩
  · obtain ⟨s', ran, valid, short, decimal⟩ :=
      run_positive (N := 1 + max_digits x.bytes) x (by omega) (by omega) (.construct mem)
    have written : signedText mem x = (.ok (), s') := by
      rw [signedText, to_static_string_signed, if_neg zero, if_neg (by omega), ran]
    exact (to_static_string_of_text signed written valid).mpr ⟨short, decimal⟩

/-- A negative number that is not the lowest one is written in full, if it is short enough. -/
theorem negative_exact_iff (mem : Nat → UInt8) (x : Integer) (signed : x.signed = true)
    (negative : x.val < 0) (above : x.lowest ≠ x.val) :
    Exact mem x ↔ -x.val < 10 ^ (max_digits x.bytes - 1) := by
  have small := x.natAbs_lt
  have few := (Nat.digits_length_le_iff (by decide) _).mpr small
  obtain ⟨s', ran, valid, made⟩ := run_writeNumber (N := 1 + max_digits x.bytes) [octet '-']
    (by omega : (-x.val).toNat = x.val.natAbs) small (by rw [List.length_singleton]; omega)
    (.construct mem)
  have written : signedText mem x = (.ok (), s') := by
    rw [signedText, to_static_string_signed, if_neg (by omega), if_pos negative, Integer.negate,
      if_neg above.symm, Step.run_lift_ok_bind, ran]
  have decimal := decimal_digits (by omega : x.val ≠ 0)
  rw [if_pos negative, ← made] at decimal
  have length : s'.n_ = 1 + (Nat.digits 10 x.val.natAbs).length := by
    rw [← StaticString.length_content valid, made, List.length_append, List.length_reverse,
      List.length_map, List.length_singleton]
  rw [to_static_string_of_text signed written valid, and_iff_left decimal, length]
  -- The digits are as many as the power of ten above them tells.
  have digits := Nat.digits_length_le_iff (b := 10) (k := max_digits x.bytes - 1) (by decide)
    x.val.natAbs
  have some_ : 0 < max_digits x.bytes := Nat.succ_pos _
  have cast : -x.val < 10 ^ (max_digits x.bytes - 1) ↔
      x.val.natAbs < 10 ^ (max_digits x.bytes - 1) := by
    zify
    rw [abs_of_neg negative]
  rw [cast, ← digits]
  omega

/-- The lowest number is never written in full. -/
theorem lowest_not_exact (mem : Nat → UInt8) (x : Integer) (signed : x.signed = true)
    (lowest : x.val = x.lowest) : ¬Exact mem x := by
  have negative : x.val < 0 := by
    rw [lowest, Integer.lowest]
    exact Int.neg_neg_of_pos (by positivity)
  by_cases narrow : x.bytes < 4
  · -- The number stays negative, and has no digits at all.
    obtain ⟨s', ran, valid, made⟩ := run_writeNumber (N := 1 + max_digits x.bytes) (n := 0)
      (b := x.bytes) (x := x.val) [octet '-'] (by omega) (by positivity) (by simp)
      (.construct mem)
    have written : signedText mem x = (.ok (), s') := by
      rw [signedText, to_static_string_signed, if_neg (by omega), if_pos negative, Integer.negate,
        if_pos lowest, if_pos narrow, Step.run_lift_ok_bind, ← lowest, ran]
    rw [to_static_string_of_text signed written valid]
    rintro ⟨-, ds, nonempty, -, -, -, same⟩
    rw [made, if_pos negative] at same
    exact nonempty (by simpa using same)
  · have stopped : (signedText mem x).1 = .error .overflow := by
      rw [signedText, to_static_string_signed, if_neg (by omega), if_pos negative, Integer.negate,
        if_pos lowest, if_neg narrow]
      rfl
    rintro ⟨s, returned, -⟩
    rw [to_static_string, if_pos signed] at returned
    unfold signedText at stopped
    split at returned
    · cases returned
    · rename_i went
      rw [went] at stopped
      cases stopped

/-- A number is written in full just where its type has room for it and for its negative. -/
theorem to_static_string_exact_iff (mem : Nat → UInt8) (x : Integer) : Exact mem x ↔ x.Fits := by
  have least := x.least
  cases sign : x.signed with
  | false =>
    rw [sign] at least
    exact iff_of_true (unsigned_exact mem x sign) (.inl least)
  | true =>
    rw [sign, if_pos rfl] at least
    by_cases nonneg : 0 ≤ x.val
    · exact iff_of_true (signed_exact mem x sign nonneg) (.inl nonneg)
    · by_cases lowest : x.lowest = x.val
      · refine iff_of_false (lowest_not_exact mem x sign lowest.symm) ?_
        rintro (up | ⟨above, -⟩)
        · exact nonneg up
        · omega
      · rw [negative_exact_iff mem x sign (by omega) lowest]
        have above : x.lowest < x.val := lt_of_le_of_ne least lowest
        constructor
        · intro short
          exact .inr ⟨above, short⟩
        · rintro (up | ⟨-, short⟩)
          · exact absurd up nonneg
          · exact short

/-- Three digits and a sign are too long for a number of eight bits. -/
theorem hundred_not_exact :
    ¬Exact (fun _ => 0) ⟨1, true, -100, by decide, by decide, by decide, by decide⟩ := by
  have thrown : to_static_string (fun _ => 0)
      ⟨1, true, -100, by decide, by decide, by decide, by decide⟩ = .error .length_error := rfl
  rintro ⟨s, returned, -⟩
  rw [thrown] at returned
  cases returned

end Beast
