import Mathlib.Algebra.Order.Ring.Nat
import Mathlib.Data.Fintype.EquivFin
import Mathlib.Data.Nat.Bitwise
import Mathlib.Tactic.Common
import Mathlib.Tactic.Ring

/-! Numbers of so many bits, read from either end. -/

namespace BitReversal

/-- The first bits of a number, in the other order. -/
def rev : Nat → Nat → Nat
  | 0, _ => 0
  | n + 1, x => x % 2 * 2 ^ n + rev n (x / 2)

theorem rev_lt (n x : Nat) : rev n x < 2 ^ n := by
  induction n generalizing x with
  | zero => exact Nat.one_pos
  | succ n ih =>
    have rest := ih (x / 2)
    have first : x % 2 * 2 ^ n ≤ 2 ^ n := by
      rcases Nat.mod_two_eq_zero_or_one x with even | odd
      · simp [even]
      · simp [odd]
    rw [rev, Nat.pow_succ]
    omega

/-- The last bits of a number that was turned round are those of its front. -/
theorem rev_mod {n k : Nat} (fewer : k ≤ n) (x : Nat) :
    rev n x % 2 ^ k = rev k (x / 2 ^ (n - k)) := by
  induction n generalizing x with
  | zero =>
    obtain rfl : k = 0 := by omega
    rfl
  | succ n ih =>
    rcases Nat.lt_or_ge n k with all | some_
    · obtain rfl : k = n + 1 := by omega
      rw [Nat.sub_self, Nat.pow_zero, Nat.div_one, Nat.mod_eq_of_lt (rev_lt _ _)]
    · -- The bit that comes first is above those that are looked at.
      have above : x % 2 * 2 ^ n % 2 ^ k = 0 := by
        rw [(by omega : n = k + (n - k)), Nat.pow_add, ← Nat.mul_assoc, Nat.mul_comm _ (2 ^ k),
          Nat.mul_assoc]
        exact Nat.mul_mod_right _ _
      rw [rev, Nat.add_mod, above, Nat.zero_add, Nat.mod_mod, ih some_, Nat.div_div_eq_div_mul,
        ← Nat.pow_succ', (by omega : n + 1 - k = n - k + 1)]

/-- Zeros behind a number are in front of it when it is turned round. -/
theorem rev_shift (n k x : Nat) : rev (n + k) (x * 2 ^ k) = rev n x := by
  induction k with
  | zero => rw [Nat.add_zero, Nat.pow_zero, Nat.mul_one]
  | succ k ih =>
    have even : x * 2 ^ (k + 1) = 2 * (x * 2 ^ k) := by
      rw [Nat.pow_succ]
      ring
    rw [← Nat.add_assoc, rev, even, Nat.mul_mod_right, Nat.zero_mul, Nat.zero_add,
      Nat.mul_div_cancel_left _ (by decide), ih]

/-- Numbers that are the same when they are turned round are the same, as far as they were turned. -/
theorem rev_inj {n a b : Nat} (same : rev n a = rev n b) : a % 2 ^ n = b % 2 ^ n := by
  induction n generalizing a b with
  | zero => rw [Nat.pow_zero, Nat.mod_one, Nat.mod_one]
  | succ n ih =>
    have above := congrArg (· / 2 ^ n) same
    have below := congrArg (· % 2 ^ n) same
    simp only [rev, Nat.mul_comm _ (2 ^ n), Nat.mul_add_div (Nat.two_pow_pos n),
      Nat.div_eq_of_lt (rev_lt n _), Nat.add_zero] at above
    simp only [rev, Nat.mul_comm _ (2 ^ n), Nat.mul_add_mod, Nat.mod_eq_of_lt (rev_lt n _)] at below
    have halves := ih below
    rw [Nat.pow_succ', Nat.mod_mul, Nat.mod_mul, halves, above]

/-- Every number of so many bits is another one, turned round. -/
theorem exists_rev {n i : Nat} (small : i < 2 ^ n) : ∃ x < 2 ^ n, rev n x = i := by
  -- Of as many numbers no two are turned round to the same one.
  have onto : Function.Surjective fun x : Fin (2 ^ n) => (⟨rev n x, rev_lt n x⟩ : Fin (2 ^ n)) := by
    apply Finite.injective_iff_surjective.mp
    intro x y same
    have equal := rev_inj (Fin.mk.inj same)
    rw [Nat.mod_eq_of_lt x.isLt, Nat.mod_eq_of_lt y.isLt] at equal
    exact Fin.ext equal
  obtain ⟨x, same⟩ := onto ⟨i, small⟩
  exact ⟨x, x.isLt, Fin.mk.inj same⟩

/-- The least significant one of the bits that are turned round comes first. -/
theorem rev_mod_two_pow (n x : Nat) : rev n (x % 2 ^ n) = rev n x := by
  induction n generalizing x with
  | zero => rfl
  | succ n ih =>
    have half : x % 2 ^ (n + 1) / 2 = x / 2 % 2 ^ n := by
      rw [Nat.pow_succ', Nat.mod_mul_right_div_self]
    have first : x % 2 ^ (n + 1) % 2 = x % 2 := by
      rw [Nat.pow_succ', Nat.mod_mul_right_mod]
    rw [rev, rev, first, half, ih]

/-! ## Strings of bits -/

/-- The first bits of a string as a number, the most significant one first. -/
def msb (b : Nat → Bool) : Nat → Nat
  | 0 => 0
  | n + 1 => 2 * msb b n + (b n).toNat

/-- So many bits of a string from a place on as a number, the least significant one first. -/
def lsb (b : Nat → Bool) (i : Nat) : Nat → Nat
  | 0 => 0
  | n + 1 => lsb b i n + (b (i + n)).toNat * 2 ^ n

theorem msb_lt (b : Nat → Bool) (n : Nat) : msb b n < 2 ^ n := by
  induction n with
  | zero => exact Nat.one_pos
  | succ n ih =>
    have bit := Bool.toNat_lt (b n)
    rw [msb, Nat.pow_succ]
    omega

theorem lsb_lt (b : Nat → Bool) (i n : Nat) : lsb b i n < 2 ^ n := by
  induction n with
  | zero => exact Nat.one_pos
  | succ n ih =>
    have bit : (b (i + n)).toNat * 2 ^ n ≤ 2 ^ n := by
      cases b (i + n) <;> simp
    rw [lsb, Nat.pow_succ]
    omega

/-- Fewer bits of a string are a front of its number. -/
theorem msb_div (b : Nat → Bool) (n k : Nat) : msb b (n + k) / 2 ^ k = msb b n := by
  induction k with
  | zero => rw [Nat.add_zero, Nat.pow_zero, Nat.div_one]
  | succ k ih =>
    have bit := Bool.toNat_lt (b (n + k))
    have half : msb b (n + k + 1) / 2 = msb b (n + k) := by
      rw [msb]
      omega
    rw [← Nat.add_assoc, Nat.pow_succ', ← Nat.div_div_eq_div_mul, half, ih]

/-- Both numbers of a string have the same bits. -/
theorem lsb_eq_rev (b : Nat → Bool) (n : Nat) : lsb b 0 n = rev n (msb b n) := by
  induction n with
  | zero => rfl
  | succ n ih =>
    have first : msb b (n + 1) % 2 = (b n).toNat := by
      have bit := Bool.toNat_lt (b n)
      rw [msb]
      omega
    have rest : msb b (n + 1) / 2 = msb b n := by
      have bit := Bool.toNat_lt (b n)
      rw [msb]
      omega
    rw [lsb, rev, first, rest, ih, Nat.zero_add, Nat.add_comm]

/-- Bits of a string are its first ones, without those in front of them. -/
theorem lsb_add (b : Nat → Bool) (i n : Nat) : lsb b 0 (i + n) = lsb b 0 i + lsb b i n * 2 ^ i := by
  induction n with
  | zero => rw [lsb, Nat.zero_mul, Nat.add_zero, Nat.add_zero]
  | succ n ih =>
    rw [← Nat.add_assoc, lsb, lsb, ih, Nat.zero_add, Nat.pow_add]
    ring

/-! ## The next number -/

/-- The number that is next to one that was turned round, where it has so many bits: the last zero of
those that were turned becomes a one, and what is behind it is dropped. -/
def bump : Nat → Nat → Nat
  | 0, _ => 0
  | i + 1, x => if x &&& 2 ^ i ≠ 0 then bump i x else x % 2 ^ i + 2 ^ i

/-- Only the bits that are looked at matter. -/
theorem bump_mod (i x y : Nat) (same : x % 2 ^ i = y % 2 ^ i) : bump i x = bump i y := by
  induction i with
  | zero => rfl
  | succ i ih =>
    have below : x % 2 ^ i = y % 2 ^ i := by
      have halves := congrArg (· % 2 ^ i) same
      simpa only [Nat.mod_mod_of_dvd _ (Nat.pow_dvd_pow 2 (Nat.le_succ i))] using halves
    have bit : x.testBit i = y.testBit i := by
      have bits := congrArg (Nat.testBit · i) same
      simpa only [Nat.testBit_mod_two_pow, Nat.lt_succ_self, decide_true, Bool.true_and] using bits
    rw [bump, bump, Nat.and_two_pow, Nat.and_two_pow, bit, ih below, below]

/-- The number that is next is the next one, turned round. -/
theorem bump_rev (n c : Nat) : bump n (rev n c) = rev n (c + 1) := by
  -- The induction is on the bits, of which the last one of the number is looked at first.
  induction n generalizing c with
  | zero => rfl
  | succ n ih =>
    have below : rev (n + 1) c % 2 ^ n = rev n (c / 2) % 2 ^ n := by
      rw [rev, Nat.mul_comm, Nat.mul_add_mod]
    have bit : rev (n + 1) c &&& 2 ^ n = c % 2 * 2 ^ n := by
      rw [Nat.and_two_pow, rev, Nat.mul_comm (c % 2), Nat.testBit_two_pow_mul_add _ (rev_lt n _),
        if_neg (Nat.lt_irrefl n), Nat.sub_self, Nat.mul_comm]
      rcases Nat.mod_two_eq_zero_or_one c with even | odd
      · simp [even]
      · simp [odd]
    rw [bump, bit]
    rcases Nat.mod_two_eq_zero_or_one c with even | odd
    · have next : (c + 1) % 2 = 1 ∧ (c + 1) / 2 = c / 2 := by omega
      rw [even, Nat.zero_mul, if_neg (by simp), below, Nat.mod_eq_of_lt (rev_lt n _), rev, next.1,
        next.2, Nat.one_mul, Nat.add_comm]
    · -- The one becomes a zero, and is carried.
      have next : (c + 1) % 2 = 0 ∧ (c + 1) / 2 = c / 2 + 1 := by omega
      rw [odd, Nat.one_mul, if_pos (Nat.two_pow_pos n).ne', bump_mod n _ _ below, ih, rev, next.1,
        next.2, Nat.zero_mul, Nat.zero_add]

end BitReversal
