import Beast.Core.CiCharTraits
import Beast.Lib.Heap
import Beast.Lib.Run
import Mathlib.Data.Nat.Size
import Mathlib.Tactic.Ring

/-! Buffers that hold their octets in one block of memory, by the pointers into it. -/

namespace Beast

open Function (update)

/-- What the language does not define: a shift by a whole word, an access outside of a block, and a
block taken back that is not out. -/
inductive Fault
  | shift
  | access
  | free
  deriving DecidableEq, Repr

/-- Why an operation on a buffer does not return. -/
inductive FlatHalt
  | length_error
  | bad_alloc
  | fault (f : Fault)
  deriving DecidableEq, Repr

/-- A difference of words. -/
@[irreducible] def wordSub (a b : Nat) : Nat := (a + 2 ^ 64 - b) % 2 ^ 64

/-- Goes on with what is there. -/
def need {α : Type} (halt : FlatHalt) : Option α → Except FlatHalt α
  | none => .error halt
  | some a => .ok a

/--
A buffer by its pointers, with the allocator that it holds.

A null pointer is zero.
-/
structure BasicFlatBuffer where
  p_ : Nat := 0
  in_ : Nat := 0
  out_ : Nat := 0
  last_ : Nat := 0
  end_ : Nat := 0
  max_ : Nat
  member : Nat
  deriving DecidableEq, Repr

namespace BasicFlatBuffer

def min_size : Nat := 512

/-- The loop of `next_pow2`: how many times a size can be halved. -/
def halvings (x n : Nat) : Nat :=
  if x > 0 then halvings (x / 2) (n + 1) else n
termination_by x

/-- The power of two that is greater than a size, where it is no greater than a word holds. -/
def next_pow2 (x : Nat) : Option Nat :=
  let n := halvings x 0
  if n < 64 then some (2 ^ n) else none

def size (self : BasicFlatBuffer) : Nat := wordSub self.out_ self.in_

def capacity (self : BasicFlatBuffer) : Nat := wordSub self.end_ self.p_

/-- The block that the buffer lies in. -/
def block (self : BasicFlatBuffer) : Block := ⟨self.p_, self.capacity, self.member⟩

/-- The readable octets. -/
def data (self : BasicFlatBuffer) (h : Heap) : Octets := h.octetsAt self.in_ self.size

section Operations

variable (self : BasicFlatBuffer) (h : Heap) (owner : Nat)

/-- Takes the octets to a new block, and gives the old one back where there are any. -/
def reallocate (new_size : Nat) (place : Option Nat) : Except FlatHalt (BasicFlatBuffer × Heap) := do
  let (p, h) ← need .bad_alloc (h.allocate owner self.member new_size place)
  let len := self.size
  let h ←
    if len > 0 then do
      let h ← need (.fault .access) (h.memcpy p self.in_ len)
      need (.fault .free) (h.free self.block)
    else pure h
  return ({ self with p_ := p, in_ := p, out_ := p + len, last_ := p + len, end_ := p + new_size }, h)

/-- Makes room, and returns where it is and how much. Where it throws, nothing was changed. -/
def prepare (n : Nat) (place : Option Nat) :
    Except FlatHalt (BasicFlatBuffer × Heap × Nat × Nat) :=
  if n ≤ wordSub self.end_ self.out_ then
    .ok ({ self with last_ := self.out_ + n }, h, self.out_, n)
  else
    let len := self.size
    if n ≤ wordSub self.capacity len then do
      let h ← if len > 0 then need (.fault .access) (h.memmove self.p_ self.in_ len) else pure h
      let out := self.p_ + len
      return ({ self with in_ := self.p_, out_ := out, last_ := out + n }, h, out, n)
    else if n > wordSub self.max_ len then .error .length_error
    else do
      let pow ← need (.fault .shift) (next_pow2 ((len + n) % 2 ^ 64))
      let new_size := min self.max_ (max pow min_size)
      let (self, h) ← self.reallocate h owner new_size place
      return ({ self with last_ := self.out_ + n }, h, self.out_, n)

/-- Moves octets from the room to those that can be read. -/
def commit (n : Nat) : BasicFlatBuffer :=
  { self with out_ := self.out_ + min n (wordSub self.last_ self.out_) }

/-- Removes octets from the front. -/
def consume (n : Nat) : BasicFlatBuffer :=
  if n ≥ wordSub self.out_ self.in_ then { self with in_ := self.p_, out_ := self.p_ }
  else { self with in_ := self.in_ + n }

/-- Makes the block as large as is asked for. Where it throws, nothing was changed. -/
def reserve (n : Nat) (place : Option Nat) : Except FlatHalt (BasicFlatBuffer × Heap) :=
  if n ≤ self.capacity then .ok (self, h)
  else if n > self.max_ then .error .length_error
  else do
    let pow ← need (.fault .shift) (next_pow2 n)
    let new_size := min self.max_ (max pow min_size)
    self.reallocate h owner new_size place

/-- Makes the block as small as its octets. Where it throws, nothing was changed. -/
def shrink_to_fit (place : Option Nat) : Except FlatHalt (BasicFlatBuffer × Heap) :=
  let len := self.size
  if len = self.capacity then .ok (self, h)
  else do
    let (p, h) ←
      if len > 0 then do
        let (p, h) ← need .bad_alloc (h.allocate owner self.member len place)
        let h ← need (.fault .access) (h.memcpy p self.in_ len)
        pure (p, h)
      else pure (0, h)
    let h ← need (.fault .free) (h.free self.block)
    return ({ self with p_ := p, in_ := p, out_ := p + len, last_ := p + len, end_ := p + len }, h)

/-- Makes a buffer with the octets of this one. Where it throws, nothing was changed. -/
def copy_from (member : Nat) (place : Option Nat) : Except FlatHalt (BasicFlatBuffer × Heap) :=
  let n := self.size
  if n > 0 then do
    let (p, h) ← need .bad_alloc (h.allocate owner member n place)
    let h ← need (.fault .access) (h.memcpy p self.in_ n)
    return (⟨p, p, p + n, p + n, p + n, self.max_, member⟩, h)
  else .ok ({ max_ := self.max_, member := member }, h)

/-- A buffer that takes over from this one, and what it leaves. -/
def move_from (member : Nat) : BasicFlatBuffer × BasicFlatBuffer :=
  ({ self with last_ := self.out_, member := member },
    { self with p_ := 0, in_ := 0, out_ := 0, last_ := 0, end_ := 0 })

/-- Gives the block back, if there is one. -/
def destroy : Except FlatHalt Heap :=
  if self.p_ ≠ 0 then need (.fault .free) (h.free self.block) else .ok h

end Operations

end BasicFlatBuffer

/-- Memory, and the buffers in it by their names. -/
structure FlatBuffers where
  heap : Heap
  objects : Nat → Option BasicFlatBuffer

/-- An operation of a program on its buffers; an allocator finds a place for a block, or none. -/
inductive FlatAct
  | construct (i : Nat) (limit : UInt64) (member : Nat)
  /-- A buffer is made from another one, with some allocator. -/
  | copy (i j member : Nat) (place : Option Nat)
  | move (i j member : Nat) (place : Option Nat)
  | destroy (i : Nat)
  | prepare (i : Nat) (n : UInt64) (place : Option Nat)
  /-- The program writes octets into the room. -/
  | fill (i : Nat) (s : Octets)
  | commit (i : Nat) (n : UInt64)
  | consume (i : Nat) (n : UInt64)
  | reserve (i : Nat) (n : UInt64) (place : Option Nat)
  | shrink_to_fit (i : Nat) (place : Option Nat)

/-- The buffer that an operation works on, or makes another one from. -/
def FlatAct.subject : FlatAct → Nat
  | .construct i _ _ | .copy _ i _ _ | .move _ i _ _ | .destroy i | .prepare i _ _ | .fill i _
  | .commit i _ | .consume i _ | .reserve i _ _ | .shrink_to_fit i _ => i

namespace FlatBuffers

/-- No buffers yet. -/
def start (mem : Nat → UInt8) : FlatBuffers := ⟨.empty mem, fun _ => none⟩

/-- Puts a buffer under a name. -/
def put (s : FlatBuffers) (i : Nat) (o : BasicFlatBuffer) (h : Heap) : FlatBuffers :=
  ⟨h, update s.objects i (some o)⟩

/-- What is there behind an operation on a buffer: where one throws, what was there before. -/
def settle (s : FlatBuffers) (i : Nat) :
    Except FlatHalt (BasicFlatBuffer × Heap) → Except Fault FlatBuffers
  | .ok (o, h) => .ok (s.put i o h)
  | .error (.fault f) => .error f
  | .error _ => .ok s

/-- What an operation on a buffer that is there does. -/
def perform (s : FlatBuffers) (o : BasicFlatBuffer) : FlatAct → Except Fault FlatBuffers
  | .construct _ _ _ => .ok s
  | .copy i _ member place =>
    if (s.objects i).isSome then .ok s else s.settle i (o.copy_from s.heap i member place)
  | .move i j member place =>
    if (s.objects i).isSome then .ok s
    else if member ≠ o.member then s.settle i (o.copy_from s.heap i member place)
    else
      let (new, other) := o.move_from member
      .ok ((s.put j other s.heap).put i new (s.heap.give j i))
  | .destroy i =>
    match o.destroy s.heap with
    | .ok h => .ok ⟨h, update s.objects i none⟩
    | .error (.fault f) => .error f
    | .error _ => .ok s
  | .prepare i n place =>
    s.settle i ((o.prepare s.heap i n.toNat place).map fun r => (r.1, r.2.1))
  | .fill i s' =>
    if s'.length ≤ wordSub o.last_ o.out_ then
      match s.heap.store o.out_ s' with
      | some h => .ok (s.put i o h)
      | none => .error .access
    else .ok s
  | .commit i n => .ok (s.put i (o.commit n.toNat) s.heap)
  | .consume i n => .ok (s.put i (o.consume n.toNat) s.heap)
  | .reserve i n place => s.settle i (o.reserve s.heap i n.toNat place)
  | .shrink_to_fit i place => s.settle i (o.shrink_to_fit s.heap i place)

/-- What an operation does, which does nothing where there is no buffer to do it to. -/
def step (s : FlatBuffers) : FlatAct → Except Fault FlatBuffers
  | .construct i limit member =>
    if (s.objects i).isSome then .ok s
    else .ok (s.put i { max_ := limit.toNat, member := member } s.heap)
  | a =>
    match s.objects a.subject with
    | none => .ok s
    | some o => s.perform o a

end FlatBuffers

end Beast
