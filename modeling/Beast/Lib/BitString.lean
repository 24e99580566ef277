import Mathlib.Data.Nat.Digits.Defs
import Mathlib.Tactic.Common

/-! Strings of bits, and the reading of one through a reservoir that octets are put into. -/

/-- A string of bits, as the number whose lowest bit is the first one, with its length. -/
structure BitString where
  value : Nat
  length : Nat

namespace BitString

variable {b : BitString} {pos v n k : Nat} {rest : List UInt8}

/-- So many bits of a string from a place on, as a number. -/
def slice (b : BitString) (pos n : Nat) : Nat := b.value / 2 ^ pos % 2 ^ n

theorem slice_lt (b : BitString) (pos n : Nat) : b.slice pos n < 2 ^ n :=
  Nat.mod_lt _ (Nat.two_pow_pos n)

@[simp] theorem slice_zero (b : BitString) (pos : Nat) : b.slice pos 0 = 0 := by
  simp [slice, Nat.mod_one]

/-- The first bits of a slice are the slice of so many bits. -/
theorem slice_mod (le : k ≤ n) : b.slice pos n % 2 ^ k = b.slice pos k := by
  -- The smaller power divides the larger one.
  exact Nat.mod_mod_of_dvd _ (Nat.pow_dvd_pow 2 le)

/-- A slice without its first bits is the slice behind them. -/
theorem slice_div (le : k ≤ n) : b.slice pos n / 2 ^ k = b.slice (pos + k) (n - k) := by
  -- The length is split, so that the division takes one of the two factors away.
  obtain ⟨m, rfl⟩ := Nat.exists_eq_add_of_le le
  rw [slice, slice, Nat.pow_add, Nat.mod_mul_right_div_self, Nat.div_div_eq_div_mul,
    ← Nat.pow_add, Nat.add_sub_cancel_left]

/-- Two slices that follow each other are one. -/
theorem slice_append (b : BitString) (pos n k : Nat) :
    b.slice pos n + 2 ^ n * b.slice (pos + n) k = b.slice pos (n + k) := by
  rw [slice, slice, slice, Nat.pow_add, Nat.pow_add, ← Nat.div_div_eq_div_mul, Nat.mod_mul]

/-- The number that octets denote, with the first one as the lowest. -/
def ofOctets (octets : List UInt8) : Nat := Nat.ofDigits 256 (octets.map UInt8.toNat)

@[simp] theorem ofOctets_nil : ofOctets [] = 0 := rfl

@[simp] theorem ofOctets_cons (c : UInt8) (rest : List UInt8) :
    ofOctets (c :: rest) = c.toNat + 2 ^ 8 * ofOctets rest :=
  Nat.ofDigits_cons

/-- Octets without the first ones denote what is left of the number without its lowest bits. -/
theorem ofOctets_drop (octets : List UInt8) (k : Nat) :
    ofOctets (octets.drop k) = ofOctets octets / 2 ^ (8 * k) := by
  have digits : ∀ d ∈ octets.map UInt8.toNat, d < 256 := by
    intro d among
    obtain ⟨c, -, rfl⟩ := List.mem_map.mp among
    exact c.toNat_lt
  rw [Nat.pow_mul, ofOctets, ofOctets, List.map_drop]
  exact (Nat.ofDigits_div_pow_eq_ofDigits_drop k (by omega) _ digits).symm

/-- What a reader has before it: the bits of its reservoir, and those of the octets not taken. -/
def ahead (v n : Nat) (rest : List UInt8) : BitString :=
  ⟨v + 2 ^ n * ofOctets rest, n + 8 * rest.length⟩

/--
A reader is at a place of a string of bits.

Its reservoir holds the bits that come next, and the octets that it has not taken the others.
-/
structure At (b : BitString) (pos v n : Nat) (rest : List UInt8) : Prop where
  reservoir : v = b.slice pos n
  octets : ofOctets rest = b.value / 2 ^ (pos + n)
  length : pos + n + 8 * rest.length = b.length

/-- A reader is at the first bit of what it has before it. -/
theorem at_ahead (small : v < 2 ^ n) (rest : List UInt8) : At (ahead v n rest) 0 v n rest where
  reservoir := by
    rw [slice, ahead, Nat.pow_zero, Nat.div_one, Nat.add_mul_mod_self_left, Nat.mod_eq_of_lt small]
  octets := by
    rw [ahead, Nat.zero_add, Nat.add_mul_div_left _ _ (Nat.two_pow_pos n), Nat.div_eq_of_lt small,
      Nat.zero_add]
  length := by rw [ahead, Nat.zero_add]

/-- The first bits of the reservoir are the next ones of the string. -/
theorem At.peek (at' : At b pos v n rest) (le : k ≤ n) : v % 2 ^ k = b.slice pos k := by
  rw [at'.reservoir, slice_mod le]

/-- A reader drops bits of its reservoir to go on behind them. -/
theorem At.drop (at' : At b pos v n rest) (le : k ≤ n) :
    At b (pos + k) (v / 2 ^ k) (n - k) rest where
  reservoir := by rw [at'.reservoir, slice_div le]
  octets := by
    rw [at'.octets, Nat.add_assoc, Nat.add_sub_cancel' le]
  length := by
    have whole := at'.length
    omega

/-- A reader takes an octet, and stays where it is. -/
theorem At.take {c : UInt8} (at' : At b pos v n (c :: rest)) :
    At b pos (v + c.toNat * 2 ^ n) (n + 8) rest := by
  -- The octet is the lowest digit of what lies behind the reservoir.
  have behind : c.toNat + 2 ^ 8 * ofOctets rest = b.value / 2 ^ (pos + n) := by
    rw [← ofOctets_cons]
    exact at'.octets
  have lowest : c.toNat = b.slice (pos + n) 8 := by
    rw [slice, ← behind, Nat.add_mul_mod_self_left, Nat.mod_eq_of_lt c.toNat_lt]
  refine ⟨?_, ?_, ?_⟩
  · rw [at'.reservoir, lowest, Nat.mul_comm, slice_append]
  · rw [← Nat.add_assoc, Nat.pow_add, ← Nat.div_div_eq_div_mul, ← behind,
      Nat.add_mul_div_left _ _ (Nat.two_pow_pos 8), Nat.div_eq_of_lt c.toNat_lt, Nat.zero_add]
  · have whole := at'.length
    rw [List.length_cons] at whole
    omega

/-- A reservoir with enough bits lies inside of the string. -/
theorem At.enough (at' : At b pos v n rest) (le : k ≤ n) : pos + k ≤ b.length := by
  have whole := at'.length
  omega

/--
A reader that started with less than an octet gives whole octets back, and stays where it is.

The octets that it gives back are some that it has taken since it started.
-/
theorem At.rewind {input : List UInt8} {first next v' n' : Nat}
    (start : At b 0 v' n' (input.drop first)) (few : n' < 8)
    (at' : At b pos v n (input.drop next)) (since : first ≤ next) (inside : next ≤ input.length) :
    first + n / 8 ≤ next ∧
      At b pos (v % 2 ^ (n % 8)) (n % 8) (input.drop (next - n / 8)) := by
  have whole := start.length
  have left := at'.length
  rw [List.length_drop] at whole left
  -- Both lengths are the one of the string, so the octets between the two places are known.
  have taken : pos + n = n' + 8 * (next - first) := by omega
  have back : first + n / 8 ≤ next := by omega
  refine ⟨back, ?_, ?_, ?_⟩
  · exact at'.peek (Nat.mod_le n 8)
  · -- The octets given back, with those not taken, are those that the start had but for the first.
    have since' : input.drop (next - n / 8) =
        (input.drop first).drop (next - n / 8 - first) := by
      rw [List.drop_drop]
      congr 1
      omega
    rw [since', ofOctets_drop, start.octets, Nat.div_div_eq_div_mul, ← Nat.pow_add]
    congr 2
    omega
  · rw [List.length_drop]
    omega

end BitString
