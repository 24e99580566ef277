import Mathlib.Data.List.FinRange
import Beast.Lib.Traversal

/-! Buffer sequences made from others: without their front, cut off, and one after another. -/

namespace Beast

open Traversal (Sequence)

/-- A buffer by the address of its first octet and its size. -/
structure ConstBuffer where
  data : Nat
  size : Nat
  deriving DecidableEq, Repr

namespace ConstBuffer

/-- A buffer without its first octets, or without all of them if it has fewer. -/
def advance (b : ConstBuffer) (n : Nat) : ConstBuffer := ⟨b.data + min n b.size, b.size - n⟩

/-- The first octets of a buffer, or all of them if it has fewer. -/
def bufferPrefix (n : Nat) (b : ConstBuffer) : ConstBuffer := ⟨b.data, min n b.size⟩

/-- The addresses of the octets of a buffer. -/
def octets (b : ConstBuffer) : List Nat := List.range' b.data b.size

end ConstBuffer

/-- A buffer sequence, of any type. -/
abbrev Buffers := Sequence ConstBuffer

/-- The addresses of the octets of some buffers. -/
def addresses (l : List ConstBuffer) : List Nat := l.flatMap ConstBuffer.octets

/-! ## Without the octets that were consumed -/

/-- The place in a sequence up to which it was consumed. -/
structure ConsumingBuffers (bs : Buffers) where
  begin_ : bs.Iter
  skip_ : Nat := 0

namespace ConsumingBuffers

variable {bs : Buffers}

/-- A sequence of which nothing was consumed. -/
def construct (bs : Buffers) : ConsumingBuffers bs := { begin_ := bs.begin_ }

/-- The sequence that is left. -/
def view (self : ConsumingBuffers bs) : Buffers :=
  bs.between self.begin_ bs.end_ fun it b =>
    if it = self.begin_ then b.advance self.skip_ else b

/-- Removes octets from the front; the loop is given a number of rounds. -/
def consume : Nat → Nat → ConsumingBuffers bs → Option (ConsumingBuffers bs)
  | 0, _, _ => none
  | fuel + 1, n, self =>
    if 0 < n ∧ self.begin_ ≠ bs.end_ then
      (bs.deref self.begin_).bind fun b =>
        let len := b.size - self.skip_
        if n < len then some { self with skip_ := self.skip_ + n }
        else (bs.next self.begin_).bind fun it =>
          consume fuel (n - len) { begin_ := it, skip_ := 0 }
    else some self

/-- Several calls of `consume`. -/
def consumeAll (fuel : Nat) : List Nat → ConsumingBuffers bs → Option (ConsumingBuffers bs)
  | [], self => some self
  | n :: ns, self => (consume fuel n self).bind (consumeAll fuel ns)

end ConsumingBuffers

/-! ## Cut off behind some octets -/

/-- The last buffer of a sequence that is cut off, where that ends, and what is left of it. -/
structure BufferPrefixHelper (bs : Buffers) where
  back_ : bs.Iter
  end_ : bs.Iter
  size_ : Nat

namespace BufferPrefixHelper

variable {bs : Buffers}

/-- Looks for the place of the cut; the loop is given a number of rounds. -/
def setup : Nat → Nat → bs.Iter → Option (BufferPrefixHelper bs)
  | 0, _, _ => none
  | fuel + 1, n, end_ =>
    if end_ ≠ bs.end_ then
      (bs.deref end_).bind fun b =>
        let len := b.size
        (bs.next end_).bind fun it =>
          if n ≤ len then some { back_ := end_, end_ := it, size_ := n }
          else setup fuel (n - len) it
    else some { back_ := end_, end_, size_ := 0 }

/-- A sequence that is cut off behind so many octets. -/
def construct (bs : Buffers) (fuel n : Nat) : Option (BufferPrefixHelper bs) :=
  setup fuel n bs.begin_

/-- The sequence up to the cut. -/
def view (self : BufferPrefixHelper bs) : Buffers :=
  bs.between bs.begin_ self.end_ fun it b =>
    if it = self.back_ then b.bufferPrefix self.size_ else b

end BufferPrefixHelper

/-! ## One after another -/

/-- An iterator of the sequence that has its number, or none behind all of them. -/
inductive CatIter {N : Nat} (bn : Fin N → Buffers)
  | within (n : Fin N) (it : (bn n).Iter)
  | past

namespace CatIter

variable {N : Nat} {bn : Fin N → Buffers}

instance : DecidableEq (CatIter bn)
  | within n it, within n' it' =>
    if same : n = n' then
      if here : same ▸ it = it' then isTrue (by subst same here; rfl)
      else isFalse (by rintro ⟨⟩; exact here rfl)
    else isFalse (by rintro ⟨⟩; exact same rfl)
  | within _ _, past => isFalse nofun
  | past, within _ _ => isFalse nofun
  | past, past => isTrue rfl

/-- The front of the first sequence that has a buffer. -/
def construct : List (Fin N) → CatIter bn
  | [] => past
  | i :: rest => if (bn i).begin_ ≠ (bn i).end_ then within i (bn i).begin_ else construct rest

/-- The sequences behind the first ones. -/
def behind (i : Nat) : List (Fin N) := (List.finRange N).drop i

/-- The next buffer, or `std::logic_error`. -/
def increment : CatIter bn → Option (CatIter bn)
  | past => none
  | within i it => ((bn i).next it).bind fun it =>
    if it ≠ (bn i).end_ then some (within i it) else some (construct (behind (i + 1)))

/-- The last buffer in front of a sequence, or `std::logic_error`. -/
def stepDown : (i : Nat) → i ≤ N → Option (CatIter bn)
  | 0, _ => none
  | i + 1, inside =>
    let it := (bn ⟨i, inside⟩).end_
    if it ≠ (bn ⟨i, inside⟩).begin_ then ((bn ⟨i, inside⟩).prev it).map (within ⟨i, inside⟩)
    else stepDown i (Nat.le_of_succ_le inside)

/-- The buffer before, or `std::logic_error`. -/
def decrement : CatIter bn → Option (CatIter bn)
  | past => stepDown N (Nat.le_refl N)
  | within i it =>
    if it ≠ (bn i).begin_ then ((bn i).prev it).map (within i)
    else stepDown i (Nat.le_of_lt i.isLt)

/-- The buffer at an iterator, or `std::logic_error`. -/
def dereference : CatIter bn → Option ConstBuffer
  | past => none
  | within i it => (bn i).deref it

end CatIter

/-- Sequences one after another. -/
def bufferCat {N : Nat} (bn : Fin N → Buffers) : Buffers where
  Iter := CatIter bn
  decEq := inferInstance
  begin_ := .construct (List.finRange N)
  end_ := .past
  next := CatIter.increment
  prev := CatIter.decrement
  deref := CatIter.dereference

/-! ## What they are for -/

/-- A sequence has so many octets, and iteration over it ends either way. -/
def Views (view : Buffers) (octets : List Nat) : Prop :=
  ∃ l, Traversal.Presents view l ∧ addresses l = octets ∧
    ∀ fuel, l.length ≤ fuel →
      view.forward fuel view.begin_ = some l ∧ view.backward fuel view.end_ = some l.reverse

end Beast
