import Mathlib.Tactic.Common
import Mathlib.Tactic.Ring

/-! The secure hash algorithm with digests of 160 bits, as its standard defines it. -/

namespace SecureHash

/-- Five words: a hash value, or the working variables. -/
structure Vars where
  a : UInt32
  b : UInt32
  c : UInt32
  d : UInt32
  e : UInt32
  deriving DecidableEq, Repr

/-- Turns a word to the left. -/
def rotl (n x : UInt32) : UInt32 := (x <<< n) ||| (x >>> (32 - n))

/-- The function of a round: a choice, a parity, a majority and a parity again. -/
def f (t : Nat) (x y z : UInt32) : UInt32 :=
  if t < 20 then (x &&& y) ^^^ (~~~x &&& z)
  else if t < 40 then x ^^^ y ^^^ z
  else if t < 60 then (x &&& y) ^^^ (x &&& z) ^^^ (y &&& z)
  else x ^^^ y ^^^ z

/-- The constant of a round. -/
def k (t : Nat) : UInt32 :=
  if t < 20 then 0x5a827999
  else if t < 40 then 0x6ed9eba1
  else if t < 60 then 0x8f1bbcdc
  else 0xca62c1d6

/-- A word of a block, of four octets with the most significant one first. -/
def word (block : List UInt8) (t : Nat) : UInt32 :=
  ((block.getD (4 * t) 0).toUInt32 <<< 24) ||| ((block.getD (4 * t + 1) 0).toUInt32 <<< 16) |||
    ((block.getD (4 * t + 2) 0).toUInt32 <<< 8) ||| (block.getD (4 * t + 3) 0).toUInt32

/-- The message schedule of a block of words. -/
def w (m : Nat → UInt32) (t : Nat) : UInt32 :=
  if t < 16 then m t
  else rotl 1 (w m (t - 3) ^^^ w m (t - 8) ^^^ w m (t - 14) ^^^ w m (t - 16))
termination_by t

/-- One round. -/
def round (m : Nat → UInt32) (t : Nat) (v : Vars) : Vars :=
  ⟨rotl 5 v.a + f t v.b v.c v.d + v.e + k t + w m t, v.a, rotl 30 v.b, v.c, v.d⟩

/-- The first rounds, one after another. -/
def rounds (m : Nat → UInt32) (v : Vars) : Nat → Vars
  | 0 => v
  | t + 1 => round m t (rounds m v t)

/-- The hash value behind a block of words. -/
def compress (h : Vars) (m : Nat → UInt32) : Vars :=
  let v := rounds m h 80
  ⟨v.a + h.a, v.b + h.b, v.c + h.c, v.d + h.d, v.e + h.e⟩

/-- The first hash value. -/
def initial : Vars := ⟨0x67452301, 0xefcdab89, 0x98badcfe, 0x10325476, 0xc3d2e1f0⟩

/-- The hash value behind the blocks of some octets, without those that fill no block. -/
def absorb (h : Vars) (s : List UInt8) : Vars :=
  if s.length < 64 then h else absorb (compress h (word (s.take 64))) (s.drop 64)
termination_by s.length
decreasing_by
  rw [List.length_drop]
  omega

/-- A number as eight octets, the most significant one first. -/
def be64 (n : Nat) : List UInt8 :=
  (List.range 8).map fun i => UInt8.ofNat (n / 2 ^ (8 * (7 - i)))

/-- Zeros that bring a message and its marker to eight octets before the end of a block. -/
def zeros (n : Nat) : Nat := (119 - n % 64) % 64

/-- A message with the marker of its end, zeros, and its length in bits. -/
def pad (m : List UInt8) : List UInt8 :=
  m ++ 0x80 :: (List.replicate (zeros m.length) 0 ++ be64 (8 * m.length))

/-- A word as four octets, the most significant one first. -/
def be32 (x : UInt32) : List UInt8 :=
  [(x >>> 24).toUInt8, (x >>> 16).toUInt8, (x >>> 8).toUInt8, x.toUInt8]

/-- The octets of a hash value. -/
def Vars.octets (v : Vars) : List UInt8 :=
  be32 v.a ++ be32 v.b ++ be32 v.c ++ be32 v.d ++ be32 v.e

/-- The digest of a message, which is to be shorter than two to the power of 64 bits. -/
def digest (m : List UInt8) : List UInt8 := (absorb initial (pad m)).octets

@[simp] theorem be64_length (n : Nat) : (be64 n).length = 8 := by simp [be64]

/-- Octets that fill no block are not taken. -/
theorem absorb_short {s : List UInt8} (short : s.length < 64) (h : Vars) : absorb h s = h := by
  rw [absorb, if_pos short]

/-- A block is taken in front of what follows it. -/
theorem absorb_block {s : List UInt8} (full : s.length = 64) (h : Vars) (t : List UInt8) :
    absorb h (s ++ t) = absorb (compress h (word s)) t := by
  rw [absorb, if_neg (by rw [List.length_append]; omega), List.take_left' full, List.drop_left' full]

/-- One block is taken. -/
theorem absorb_one {s : List UInt8} (full : s.length = 64) (h : Vars) :
    absorb h s = compress h (word s) := by
  have taken := absorb_block full h []
  rw [List.append_nil, absorb_short (s := []) (by decide)] at taken
  exact taken

/-- Blocks are taken one after another, and what fills no block is left for later. -/
theorem absorb_append (h : Vars) (s t : List UInt8) :
    absorb h (s ++ t) = absorb (absorb h s) (s.drop (s.length / 64 * 64) ++ t) := by
  -- The induction is on the blocks of the first part.
  induction h, s using absorb.induct with
  | case1 h s short =>
    rw [absorb_short short, Nat.div_eq_of_lt short, Nat.zero_mul, List.drop_zero]
  | case2 h s long ih =>
    have full : (s.take 64).length = 64 := by
      rw [List.length_take]
      omega
    have rest : s.length / 64 * 64 = 64 + (s.drop 64).length / 64 * 64 := by
      rw [List.length_drop]
      omega
    rw [show absorb h s = absorb (compress h (word (s.take 64))) (s.drop 64) by
      rw [absorb, if_neg long]]
    rw [rest, ← List.drop_drop, ← ih]
    conv_lhs => rw [← List.take_append_drop 64 s, List.append_assoc]
    exact absorb_block full h _

end SecureHash
