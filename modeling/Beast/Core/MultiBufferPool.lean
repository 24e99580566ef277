import Mathlib.Logic.Function.Basic
import Beast.Core.MultiBuffer

/-! Several buffers of elements, which are written, read, copied and moved, and what they are for. -/

namespace Beast

open Function (update)

/-- What the traits of an allocator say of copies and moves. -/
structure AllocTraits (A : Type) where
  select_on_container_copy_construction : A → A
  propagate_on_container_copy_assignment : Bool
  propagate_on_container_move_assignment : Bool

/-- A buffer with the allocator that it holds. -/
structure Held (A : Type) where
  member : A
  buffer : MultiBuffer

/-- The buffers of a program, by their names. -/
abbrev World (A : Type) := Nat → Held A

/-- An operation of a program on its buffers; memory is given by what an allocator makes of it. -/
inductive BufferOp (A : Type)
  | construct (i alloc_size : Nat) (alloc : A)
  | alloc_size (i n : Nat)
  | prepare (i n : Nat) (allocate : MultiBuffer.Allocate)
  /-- The program writes octets where the output starts. -/
  | fill (i : Nat) (s : Octets)
  | commit (i n : Nat)
  | consume (i n : Nat)
  /-- A buffer is made from another one, with an allocator or without. -/
  | copyConstruct (i j : Nat) (alloc : Option A) (allocate : MultiBuffer.Allocate)
  | copyAssign (i j : Nat) (allocate : MultiBuffer.Allocate)
  | moveConstruct (i j : Nat) (alloc : Option A) (allocate : MultiBuffer.Allocate)
  | moveAssign (i j : Nat) (allocate : MultiBuffer.Allocate)

abbrev WorldStep (A : Type) := Step MultiHalt (World A)

section Steps

variable {A : Type}

/-- Works on one buffer. -/
def onBuffer {α : Type} (i : Nat) (m : MultiStep α) : WorldStep A α :=
  Step.zoom (fun w => (w i).buffer) (fun w b => update w i { w i with buffer := b }) m

/-- What is made of a new buffer, unless its constructor throws. -/
def build (m : MultiStep Unit) (fresh : MultiBuffer) : Except MultiHalt MultiBuffer :=
  match Step.run m fresh with
  | (.ok _, b) => .ok b
  | (.error halt, _) => .error halt

/-- Takes the list and the allocator of another buffer, which is left without elements. -/
def takeOver (i j : Nat) : WorldStep A Unit :=
  modify fun w =>
    update (update w j { w j with buffer := (w j).buffer.clear }) i
      ⟨(w j).member, { (w j).buffer with alloc_size_ := (w i).buffer.alloc_size_ }⟩

variable [DecidableEq A] (traits : AllocTraits A)

/-- Makes a buffer with some allocator from another buffer, by a copy or by a move. -/
def moveConstructWith (i j : Nat) (alloc : A) (allocate : MultiBuffer.Allocate) :
    WorldStep A Unit := do
  let other := (← get) j
  if other.buffer.alloc_size_ = 0 then Step.stop .invalid_argument
  else if alloc != other.member then
    let b ← Step.lift (build (MultiBuffer.copyFrom allocate other.buffer) other.buffer.clear)
    modify fun w => update w i ⟨alloc, b⟩
  else
    modify fun w => update w i ⟨alloc, other.buffer.clear⟩
    takeOver i j

/-- What an operation does to the buffers. -/
def perform : BufferOp A → WorldStep A Unit
  | .construct i alloc_size alloc =>
    if alloc_size = 0 then Step.stop .invalid_argument
    else modify fun w => update w i ⟨alloc, { alloc_size_ := alloc_size }⟩
  | .alloc_size i n => onBuffer i (modify fun self => { self with alloc_size_ := n })
  | .prepare i n allocate => onBuffer i (MultiBuffer.prepare allocate n)
  | .fill i s => do
    let _ ← onBuffer i (MultiBuffer.fill s)
  | .commit i n => onBuffer i (MultiBuffer.commit n)
  | .consume i n => onBuffer i (MultiBuffer.consume n)
  | .copyConstruct i j alloc allocate => do
    let other := (← get) j
    if i = j then return
    else if other.buffer.alloc_size_ = 0 then Step.stop .invalid_argument
    else
      let b ← Step.lift (build (MultiBuffer.copyFrom allocate other.buffer) other.buffer.clear)
      modify fun w => update w i
        ⟨alloc.getD (traits.select_on_container_copy_construction other.member), b⟩
  | .copyAssign i j allocate => do
    let other := (← get) j
    if i = j then return
    else
      modify fun w => update w i
        ⟨if traits.propagate_on_container_copy_assignment then other.member else (w i).member,
          (w i).buffer.clear⟩
      onBuffer i (MultiBuffer.copyFrom allocate other.buffer)
  | .moveConstruct i j alloc allocate => do
    let other := (← get) j
    if i = j then return
    else match alloc with
      | none =>
        modify fun w => update w i ⟨other.member, other.buffer.clear⟩
        takeOver i j
      | some alloc => moveConstructWith i j alloc allocate
  | .moveAssign i j allocate => do
    let other := (← get) j
    if i = j then return
    else
      modify fun w => update w i ⟨(w i).member, other.buffer.clear⟩
      if traits.propagate_on_container_move_assignment then takeOver i j
      else if ((← get) i).member != other.member then
        onBuffer i (MultiBuffer.copyFrom allocate other.buffer)
        onBuffer j (modify fun self => self.clear)
      else takeOver i j

end Steps

/-- A queue of octets, and the octets that are about to follow them. -/
structure ByteQueue where
  data : Octets
  room : Octets

/-- Queues by their names. -/
abbrev Queues := Nat → ByteQueue

/-- What an operation may do to queues, where it is done and where it threw. -/
def Allowed {A : Type} : BufferOp A → Bool → Queues → Queues → Prop
  | .construct i _ _, false, q, q' => q' = update q i ⟨[], []⟩
  | .alloc_size _ _, false, q, q' => q' = q
  | .prepare i n _, false, q, q' => ∃ room, room.length = n ∧ q' = update q i ⟨(q i).data, room⟩
  | .prepare i _ _, true, q, q' => ∃ room, q' = update q i ⟨(q i).data, room⟩
  | .fill i s, false, q, q' =>
    q' = update q i ⟨(q i).data, s.take (q i).room.length ++ (q i).room.drop s.length⟩
  | .commit i n, false, q, q' =>
    q' = update q i ⟨(q i).data ++ (q i).room.take n, (q i).room.drop n⟩
  | .consume i n, false, q, q' => q' = update q i ⟨(q i).data.drop n, (q i).room⟩
  | .copyConstruct i j _ _, false, q, q' | .copyAssign i j _, false, q, q' =>
    q' = if i = j then q else update q i ⟨(q j).data, []⟩
  -- A buffer that is moved from is empty then, or as it was where its octets had to be copied.
  | .moveConstruct i j _ _, false, q, q' | .moveAssign i j _, false, q, q' =>
    q' = q ∧ i = j ∨
      i ≠ j ∧ ((∃ room, q' = update (update q j ⟨[], []⟩) i ⟨(q j).data, room⟩) ∨
        q' = update q i ⟨(q j).data, []⟩)
  | .copyAssign i _ _, true, q, q' | .moveAssign i _ _, true, q, q' =>
    ∃ room, q' = update q i ⟨[], room⟩
  | .construct .., true, q, q' | .copyConstruct .., true, q, q' | .moveConstruct .., true, q, q' =>
    q' = q
  | _, true, _, _ => False

/-- What queues may come to by operations that are done or throw, one after another. -/
inductive QueueRuns {A : Type} : List (BufferOp A × Bool) → Queues → Prop
  | new : QueueRuns [] fun _ => ⟨[], []⟩
  | op {trace : List (BufferOp A × Bool)} {q q' : Queues} {op : BufferOp A} {threw : Bool}
      (run : QueueRuns trace q) (allowed : Allowed op threw q q') :
      QueueRuns (trace ++ [(op, threw)]) q'

end Beast
