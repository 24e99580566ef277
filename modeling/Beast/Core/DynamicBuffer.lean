import Beast.Core.CiCharTraits
import Mathlib.Tactic.Ring

/-! Dynamic buffers, and the one that keeps its octets in one piece. -/

namespace Beast

/-- A kind of dynamic buffer: octets that can be looked at and consumed, and room for more. -/
structure DynamicBuffer where
  State : Type
  /-- The readable octets, in the buffers that hold them. -/
  data : State → List Octets
  /-- The number of octets that a read is given room for, with a limit. -/
  read_size_helper : State → Nat → Nat
  /-- Makes room for so many octets, or throws `std::length_error`. -/
  prepare : State → Nat → Option State
  /-- Appends octets that were placed in the room. -/
  commit : State → Octets → State
  consume : State → Nat → State
  read_size_pos : ∀ b max, 0 < max → 0 < read_size_helper b max
  prepare_data : ∀ b n b', prepare b n = some b' → (data b').flatten = (data b).flatten
  commit_data : ∀ b n b' s, prepare b n = some b' → s.length ≤ n →
    (data (commit b' s)).flatten = (data b).flatten ++ s
  consume_data : ∀ b n, (data (consume b n)).flatten = (data b).flatten.drop n

/--
A buffer that keeps its octets in one piece, by the sizes of its parts.

In front of the readable octets lie octets that were consumed, and behind them the room.
-/
structure FlatBuffer where
  front : Nat := 0
  data : Octets := []
  /-- How many octets of the room may be committed. -/
  room : Nat := 0
  capacity : Nat := 0
  max_ : Nat

namespace FlatBuffer

def min_size : Nat := 512

/-- The power of two that is greater than a size. -/
def next_pow2 (x : Nat) : Nat := if x = 0 then 1 else 2 ^ (Nat.log2 x + 1)

/-- Makes room, by moving the octets to the front where it helps, or by allocating more. -/
def prepare (self : FlatBuffer) (n : Nat) : Option FlatBuffer :=
  let len := self.data.length
  if n ≤ self.capacity - (self.front + len) then some { self with room := n }
  else if n ≤ self.capacity - len then some { self with front := 0, room := n }
  else if n > self.max_ - len then none
  else
    let new_size := min self.max_ (max (next_pow2 (len + n)) min_size)
    some { self with front := 0, room := n, capacity := new_size }

/-- Appends octets that were placed in the room, as far as it goes. -/
def commit (self : FlatBuffer) (s : Octets) : FlatBuffer :=
  { self with data := self.data ++ s.take self.room, room := self.room - min s.length self.room }

/-- Removes octets from the front. -/
def consume (self : FlatBuffer) (n : Nat) : FlatBuffer :=
  if n ≥ self.data.length then { self with front := 0, data := [] }
  else { self with front := self.front + n, data := self.data.drop n }

/-- The number of octets that a read is given room for. -/
def read_size_helper (self : FlatBuffer) (max_size : Nat) : Nat :=
  let len := self.data.length
  let avail := self.capacity - len
  if avail > 0 then min avail max_size
  else
    let size := min (self.capacity * 2) self.max_ - len
    min (if size = 0 then 1 else size) max_size

/-- Room is made without a change of the octets, and as much of it as was asked for. -/
theorem prepare_some {b b' : FlatBuffer} {n : Nat} (prepared : b.prepare n = some b') :
    b'.data = b.data ∧ b'.room = n := by
  unfold prepare at prepared
  dsimp only at prepared
  split at prepared
  · cases prepared
    exact ⟨rfl, rfl⟩
  · split at prepared
    · cases prepared
      exact ⟨rfl, rfl⟩
    · split at prepared
      · cases prepared
      · cases prepared
        exact ⟨rfl, rfl⟩

/-- A read is given some room, unless it may take none. -/
theorem read_size_pos (b : FlatBuffer) (max : Nat) (some_ : 0 < max) :
    0 < b.read_size_helper max := by
  unfold read_size_helper
  dsimp only
  split
  · exact Nat.lt_min.mpr ⟨‹_›, some_⟩
  · split
    · exact Nat.lt_min.mpr ⟨Nat.one_pos, some_⟩
    · exact Nat.lt_min.mpr ⟨Nat.pos_of_ne_zero ‹_›, some_⟩

/-- The octets behind those that are removed are what is left. -/
theorem data_consume (b : FlatBuffer) (n : Nat) : (b.consume n).data = b.data.drop n := by
  unfold consume
  split
  · rename_i all
    exact (List.drop_eq_nil_of_le all).symm
  · rfl

end FlatBuffer

/-- Buffers that keep their octets in one piece. -/
def flatBuffer : DynamicBuffer where
  State := FlatBuffer
  data b := [b.data]
  read_size_helper := FlatBuffer.read_size_helper
  prepare := FlatBuffer.prepare
  commit := FlatBuffer.commit
  consume := FlatBuffer.consume
  read_size_pos := FlatBuffer.read_size_pos
  prepare_data b n b' prepared := by
    rw [(FlatBuffer.prepare_some prepared).1]
  commit_data b n b' s prepared fits := by
    obtain ⟨data, room⟩ := FlatBuffer.prepare_some prepared
    simp [FlatBuffer.commit, data, room, List.take_of_length_le fits]
  consume_data b n := by
    simp [FlatBuffer.data_consume]

end Beast
