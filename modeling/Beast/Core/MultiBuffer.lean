import Beast.Core.CiCharTraits
import Beast.Lib.Step
import Mathlib.Tactic.Ring

/-! The dynamic buffer that keeps its octets in a list of elements. -/

namespace Beast

/-- The octets of an `element` in front of those that it holds, where pointers have 64 bits. -/
def sizeofElement : Nat := 24

/-- An element of the list, with the octets of its block behind the element itself. -/
structure Element where
  size : Nat
  data : Octets
  deriving DecidableEq, Repr

/-- Puts octets into the block of an element, from some position on. -/
def Element.write (self : Element) (pos : Nat) (s : Octets) : Element :=
  { self with data := self.data.take pos ++ s ++ self.data.drop (pos + s.length) }

/-- A buffer of a sequence: which element of the list it lies in, and what part of its block it is. -/
structure Buffer where
  element : Nat
  data : Octets
  pos : Nat
  size : Nat

/-- A buffer without its first octets, or without all of them if it has fewer. -/
def Buffer.advance (self : Buffer) (n : Nat) : Buffer :=
  { self with pos := self.pos + min n self.size, size := self.size - n }

/-- The octets of a buffer. -/
def Buffer.octets (self : Buffer) : Octets := (self.data.drop self.pos).take self.size

/-- The size of a sequence of buffers. -/
def buffer_size (buffers : List Buffer) : Nat := (buffers.map Buffer.size).sum

/-- The octets of a sequence of buffers. -/
def bufferOctets (buffers : List Buffer) : Octets := buffers.flatMap Buffer.octets

/-- What an operation stops for. -/
inductive MultiHalt
  /-- The first or last element of an empty list was looked at. -/
  | emptyList
  /-- An assertion does not hold. -/
  | assertion
  | bad_alloc
  | invalid_argument
  deriving DecidableEq, Repr

/--
The members of a buffer, with its list cut in two at the iterator `out_`.

The iterator points to the first element of the second part, and is the end of the list if that is
empty.
-/
structure MultiBuffer where
  before_ : List Element := []
  outs_ : List Element := []
  /-- The least size that is allocated. -/
  alloc_size_ : Nat
  in_size_ : Nat := 0
  /-- Where the input starts in the first element. -/
  in_pos_ : Nat := 0
  /-- Where the output starts in the element of `out_`. -/
  out_pos_ : Nat := 0
  /-- Where the output ends in the last element. -/
  out_end_ : Nat := 0
  deriving DecidableEq, Repr

abbrev MultiStep := Step MultiHalt MultiBuffer

namespace MultiBuffer

/-- The whole list. -/
def list_ (self : MultiBuffer) : List Element := self.before_ ++ self.outs_

/-- The size of the input. -/
def size (self : MultiBuffer) : Nat := self.in_size_

/-- How much the elements hold from the start of the input on. -/
def capacity (self : MultiBuffer) : Nat :=
  match self.outs_ with
  | [] => self.in_size_
  | out :: more => self.in_size_ + (out.size - self.out_pos_ + (more.map Element.size).sum)

/-- The input within an element of the list. -/
def inputOf (self : MultiBuffer) (i : Nat) (e : Element) : Buffer :=
  let stop := if self.outs_.isEmpty || i != self.before_.length then e.size else self.out_pos_
  Buffer.advance ⟨i, e.data, 0, stop⟩ (if i = 0 then self.in_pos_ else 0)

/-- The buffers that hold the input: those of the elements up to that of `out_`. -/
def data (self : MultiBuffer) : List Buffer :=
  (self.before_ ++ self.outs_.take 1).zipIdx.map fun (e, i) => self.inputOf i e

/-- The output within an element of the list. -/
def outputOf (self : MultiBuffer) (i : Nat) (e : Element) : Buffer :=
  let stop := if i + 1 = self.list_.length then self.out_end_ else e.size
  Buffer.advance ⟨i, e.data, 0, stop⟩ (if i = self.before_.length then self.out_pos_ else 0)

/-- The buffers that hold the output: those of the elements from that of `out_` on. -/
def output (self : MultiBuffer) : List Buffer :=
  (self.outs_.zipIdx self.before_.length).map fun (e, i) => self.outputOf i e

/-- What must hold of the members between operations. -/
def debug_check (self : MultiBuffer) : Bool :=
  buffer_size self.data == self.in_size_ &&
    match self.list_.head?, self.list_.getLast? with
    | some front, some back =>
      decide (self.in_pos_ < front.size) &&
        match self.outs_ with
        | [] => self.out_pos_ == 0 && self.out_end_ == 0
        | out :: more =>
          decide (self.out_end_ ≤ back.size) && decide (self.out_pos_ < out.size) &&
            (!self.before_.isEmpty || decide (self.in_pos_ ≤ self.out_pos_)) &&
            (!self.before_.isEmpty || self.out_pos_ - self.in_pos_ == self.in_size_) &&
            (!more.isEmpty || decide (self.out_pos_ ≤ self.out_end_))
    | _, _ =>
      self.in_pos_ == 0 && self.in_size_ == 0 && self.out_pos_ == 0 && self.out_end_ == 0

/-- Stops where the members are not as they must be. -/
def check : MultiStep Unit := do
  if !(← get).debug_check then Step.stop .assertion

/-- Looks at the last element, and says whether `out_` points to it. -/
def outIsBack : MultiStep Bool := do
  let self ← get
  if self.list_.isEmpty then Step.stop .emptyList
  else return self.outs_.length == 1

/-- Takes the elements behind that of `out_` off the list. -/
def spliceReuse (out : Element) : MultiStep Unit := do
  if !(← outIsBack) then
    modify fun self => { self with out_end_ := out.size, outs_ := [out] }
    check

/-- Takes room of the element of `out_`, and says how much is still needed. -/
def prepareOut (out : Element) (n : Nat) : MultiStep Nat := do
  let avail := out.size - (← get).out_pos_
  if n > avail then
    modify fun self => { self with out_end_ := out.size }
    check
    return n - avail
  else
    modify fun self => { self with out_end_ := self.out_pos_ + n }
    check
    return 0

/-- Takes room of the elements that were taken off the list, and puts them on it again. -/
def prepareReuse : List Element → Nat → MultiStep Nat
  | [], n => return n
  | e :: reuse, n => do
    if n > 0 then
      modify fun self => { self with outs_ := self.outs_ ++ [e] }
      if n > e.size then
        modify fun self => { self with out_end_ := e.size }
        check
        prepareReuse reuse (n - e.size)
      else
        modify fun self => { self with out_end_ := n }
        check
        return 0
    else return n

/-- The octets of the block of an element; their number has 64 bits. -/
def blockSize (size : Nat) : Nat := (sizeofElement + size) % 2 ^ 64

/-- An element in a block with something in it. -/
def makeElement (size : Nat) (memory : Nat → UInt8) : Element :=
  ⟨size, (List.range (blockSize size - sizeofElement)).map memory⟩

/-- What an allocator makes of a number of octets: a block with something in it, or nothing. -/
abbrev Allocate := Nat → Option (Nat → UInt8)

/-- Takes room of elements that are allocated. -/
def prepareNew (allocate : Allocate) : Nat → Nat → MultiStep Unit
  | 0, _ => return
  | fuel + 1, n => do
    if n > 0 then
      let size := max (← get).alloc_size_ n
      match allocate (blockSize size) with
      | none => Step.stop .bad_alloc
      | some memory =>
        let e := makeElement size memory
        modify fun self => { self with outs_ := self.outs_ ++ [e] }
        if n ≥ e.size then
          modify fun self => { self with out_end_ := e.size }
          check
          prepareNew allocate fuel (n - e.size)
        else
          modify fun self => { self with out_end_ := n }
          check

/-- Makes room for so many octets behind the input. -/
def prepare (allocate : Allocate) (n : Nat) : MultiStep Unit := do
  match (← get).outs_ with
  | [] => prepareNew allocate n n
  | out :: reuse =>
    spliceReuse out
    let n ← prepareOut out n
    let n ← prepareReuse reuse n
    -- No element is smaller than what is left, so that one round is enough.
    prepareNew allocate n n

/-- Moves octets of the output to the input, over the elements from that of `out_` on. -/
def commitLoop : List Element → Nat → MultiStep Unit
  | [], _ => return
  | [out], n => do
    let n := min n ((← get).out_end_ - (← get).out_pos_)
    modify fun self => { self with out_pos_ := self.out_pos_ + n, in_size_ := self.in_size_ + n }
    if (← get).out_pos_ = out.size then
      modify fun self =>
        { self with before_ := self.before_ ++ [out], outs_ := [], out_pos_ := 0, out_end_ := 0 }
    check
  | out :: next :: more, n => do
    let avail := out.size - (← get).out_pos_
    if n < avail then
      modify fun self => { self with out_pos_ := self.out_pos_ + n, in_size_ := self.in_size_ + n }
      check
    else
      modify fun self =>
        { self with
          before_ := self.before_ ++ [out]
          outs_ := next :: more
          out_pos_ := 0
          in_size_ := self.in_size_ + avail }
      check
      commitLoop (next :: more) (n - avail)

/-- Moves octets of the output to the input. -/
def commit (n : Nat) : MultiStep Unit := do
  let self ← get
  if self.list_.isEmpty then return
  if self.outs_.isEmpty then return
  let _ ← outIsBack
  commitLoop self.outs_ n

/-- Removes octets of the input, over the elements in front of that of `out_`. -/
def consumeLoop : List Element → Nat → MultiStep Unit
  | e :: before, n => do
    let avail := e.size - (← get).in_pos_
    if n < avail then
      modify fun self => { self with in_size_ := self.in_size_ - n, in_pos_ := self.in_pos_ + n }
      check
    else
      modify fun self =>
        { self with in_size_ := self.in_size_ - avail, in_pos_ := 0, before_ := before }
      check
      consumeLoop before (n - avail)
  | [], n => do
    let self ← get
    let avail := self.out_pos_ - self.in_pos_
    if n < avail then
      modify fun self => { self with in_size_ := self.in_size_ - n, in_pos_ := self.in_pos_ + n }
    else
      modify fun self => { self with in_size_ := 0 }
      if !(← outIsBack) || self.out_pos_ != self.out_end_ then
        modify fun self => { self with in_pos_ := self.out_pos_ }
      else
        -- The input and the output are empty, and the element is used again.
        modify fun self => { self with in_pos_ := 0, out_pos_ := 0, out_end_ := 0 }
    check

/-- Removes octets of the input. -/
def consume (n : Nat) : MultiStep Unit := do
  let self ← get
  if self.list_.isEmpty then return
  consumeLoop self.before_ n

/-- A buffer without elements, which keeps its size of allocations. -/
def clear (self : MultiBuffer) : MultiBuffer := { alloc_size_ := self.alloc_size_ }

/-- Puts octets into elements whose output ends there in the last one. -/
def fillElements (out_end_ : Nat) : List Element → Nat → Octets → List Element
  | [], _, _ => []
  | [e], pos, s => [e.write pos (s.take (out_end_ - pos))]
  | e :: next :: more, pos, s =>
    e.write pos (s.take (e.size - pos)) ::
      fillElements out_end_ (next :: more) 0 (s.drop (e.size - pos))

/-- Copies octets into the output as far as it goes, and says how many. -/
def fill (s : Octets) : MultiStep Nat := do
  modify fun self => { self with outs_ := fillElements self.out_end_ self.outs_ self.out_pos_ s }
  return min s.length (buffer_size (← get).output)

/-- Appends the input of another buffer. -/
def copyFrom (allocate : Allocate) (other : MultiBuffer) : MultiStep Unit := do
  prepare allocate other.size
  commit (← fill (bufferOctets other.data))

end MultiBuffer

end Beast
