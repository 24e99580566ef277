import Beast.Core.CiCharTraits
import Beast.Lib.Step
import Mathlib.Tactic.Ring

/-! The reservoir of bits between the octets of the input and what is decoded from them. -/

namespace Beast.Zlib

/-- What a step does that it must not do. -/
inductive Fault
  /-- It takes an octet behind the input, or gives one back before it. -/
  | input
  /-- It writes behind the room for output, or reads output that is not there. -/
  | output
  /-- An assertion of the bitstream does not hold. -/
  | assertion
  /-- It puts more bits into the reservoir than that holds. -/
  | reservoir
  /-- It goes round without taking bits. -/
  | idle
  deriving DecidableEq, Repr

/-- Where the loop over the modes of a compressed block is left. -/
inductive Halt
  /-- Through `done`. -/
  | done
  /-- Without it, with an error. -/
  | returns
  /-- For a mode that is none of a compressed block. -/
  | elsewhere
  | fault (f : Fault)
  deriving DecidableEq, Repr

/-- An assertion of the source. -/
def asserted {σ : Type} (holds : Prop) [Decidable holds] : Step Halt σ Unit :=
  if holds then pure () else Step.stop (.fault .assertion)

/-- The bits of the reservoir, as a number of 32 bits, and how many there are. -/
structure Bitstream where
  v_ : Nat := 0
  n_ : Nat := 0
  small : v_ < 2 ^ n_ := by decide

namespace Bitstream

/-- Bits of a number that has no more than so many. -/
theorem shiftRight_lt {v n : Nat} (small : v < 2 ^ n) (k : Nat) : v >>> k < 2 ^ (n - k) := by
  rw [Nat.shiftRight_eq_div_pow]
  apply Nat.div_lt_of_lt_mul
  rw [← Nat.pow_add]
  exact Nat.lt_of_lt_of_le small (Nat.pow_le_pow_right (by omega) (by omega))

/-- An octet above a number of so many bits. -/
theorem add_shiftLeft_lt {v n : Nat} (small : v < 2 ^ n) (c : UInt8) :
    v + c.toNat <<< n < 2 ^ (n + 8) := by
  have octet : c.toNat + 1 ≤ 2 ^ 8 := c.toNat_lt
  calc v + c.toNat <<< n
    _ = v + c.toNat * 2 ^ n := by rw [Nat.shiftLeft_eq]
    _ < (c.toNat + 1) * 2 ^ n := by
      rw [Nat.succ_mul]
      omega
    _ ≤ 2 ^ 8 * 2 ^ n := Nat.mul_le_mul_right _ octet
    _ = 2 ^ (n + 8) := by rw [Nat.pow_add, Nat.mul_comm]

theorem empty_small : (0 : Nat) < 2 ^ 0 := Nat.one_pos

/-- The reservoir without any bits. -/
def empty : Bitstream := ⟨0, 0, empty_small⟩

/-- The reservoir without its first bits. -/
def without (b : Bitstream) (n : Nat) : Bitstream :=
  ⟨b.v_ >>> n, b.n_ - n, shiftRight_lt b.small n⟩

/-- The reservoir with another octet behind its bits. -/
def push (b : Bitstream) (c : UInt8) : Bitstream :=
  ⟨(b.v_ + c.toNat <<< b.n_) % 2 ^ 32, b.n_ + 8,
    Nat.lt_of_le_of_lt (Nat.mod_le _ _) (add_shiftLeft_lt b.small c)⟩

/-- The bits of the reservoir that make no whole octet. -/
def partOctet (b : Bitstream) : Bitstream :=
  ⟨b.v_ % 2 ^ (b.n_ % 8), b.n_ % 8, Nat.mod_lt _ (Nat.two_pow_pos _)⟩

end Bitstream

/-- The reservoir, with the input of a write and the place where it goes on. -/
structure Source where
  bi_ : Bitstream
  input : Octets
  next : Nat

/-- How many octets there are left. -/
def Source.avail (s : Source) : Nat := s.input.length - s.next

abbrev SourceStep := Step Halt Source

namespace Source

/-- Discards bits. -/
def drop (n : Nat) : SourceStep Unit := do
  asserted (n ≤ (← get).bi_.n_)
  modify fun s => { s with bi_ := s.bi_.without n }

/-- Discards everything. -/
def flush : SourceStep Unit := modify fun s => { s with bi_ := .empty }

/-- Discards bits up to the next octet. -/
def flush_byte : SourceStep Unit := do drop ((← get).bi_.n_ % 8)

/-- Takes an octet without looking whether there is one. -/
def fill_8 : SourceStep Unit := do
  let s ← get
  match s.input[s.next]? with
  | none => Step.stop (.fault .input)
  | some c =>
    if 32 < s.bi_.n_ + 8 then Step.stop (.fault .reservoir)
    else set { s with bi_ := s.bi_.push c, next := s.next + 1 }

/-- Takes two octets without looking whether there are any. -/
def fill_16 : SourceStep Unit := do
  fill_8
  fill_8

/-- Takes octets until there are so many bits, while so many octets are left. -/
def fillFrom (n : Nat) : Nat → SourceStep Bool
  | 0 => do return decide (n ≤ (← get).bi_.n_)
  | avail + 1 => do
    if (← get).bi_.n_ < n then
      fill_8
      fillFrom n avail
    else return true

/-- Ensures that there are so many bits, or tells that there are not. -/
def fill (n : Nat) : SourceStep Bool := do
  fillFrom n (← get).avail

/-- The first bits, as a number of so many bits. -/
def peek (width n : Nat) : SourceStep Nat := do
  asserted (n ≤ width)
  asserted (n ≤ (← get).bi_.n_)
  return (← get).bi_.v_ % 2 ^ n % 2 ^ width

/-- The first bits, as a number of so many bits, which are discarded. -/
def read (width n : Nat) : SourceStep Nat := do
  asserted (n < 32)
  asserted (n ≤ (← get).bi_.n_)
  let value := (← get).bi_.v_ % 2 ^ n % 2 ^ width
  modify fun s => { s with bi_ := s.bi_.without n }
  return value

/-- Everything in the reservoir. -/
def peek_fast : SourceStep Nat := do return (← get).bi_.v_

/-- Gives whole octets back, without looking whether they are of this input. -/
def rewind : SourceStep Unit := do
  let s ← get
  let len := s.bi_.n_ >>> 3
  if s.next < len then Step.stop (.fault .input)
  else set { s with bi_ := s.bi_.partOctet, next := s.next - len }

end Source

end Beast.Zlib
