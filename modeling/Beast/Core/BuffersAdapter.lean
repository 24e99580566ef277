import Beast.Core.CiCharTraits
import Beast.Lib.Chunks

/-! A sequence of buffers that is filled at one place and read at another, and what it is for. -/

namespace Beast

/-! ## The adapter -/

/-- A sequence of buffers with the memory of each, and the places that were reached in it. An
iterator is the number of buffers in front of it. -/
structure BuffersAdapter where
  bs_ : List Octets
  begin_ : Nat := 0
  out_ : Nat := 0
  end_ : Nat := 0
  max_size_ : Nat
  in_pos_ : Nat := 0
  in_size_ : Nat := 0
  out_pos_ : Nat := 0
  out_end_ : Nat := 0
  deriving DecidableEq, Repr

namespace BuffersAdapter

/-- An adapter of which nothing was written yet. -/
def construct (bs : List Octets) : BuffersAdapter := { bs_ := bs, max_size_ := bs.flatten.length }

variable (self : BuffersAdapter)

/-- A part of a buffer: its number, where it starts, and its size. -/
structure View where
  buffer : Nat
  pos : Nat
  size : Nat
  deriving DecidableEq, Repr

/-- A part without its first octets, or without all of them if it has fewer. -/
def View.advance (v : View) (n : Nat) : View :=
  { v with pos := v.pos + min n v.size, size := v.size - n }

/-- The places of the octets of a part. -/
def View.places (v : View) : List (Nat × Nat) :=
  (List.range' v.pos v.size).map fun j => (v.buffer, j)

/-- What an iterator of `data()` gives. -/
def constBuffer (it : Nat) : View :=
  let size := Chunks.width self.bs_ it
  View.advance ⟨it, 0, if self.out_ = self.bs_.length ∨ it ≠ self.out_ then size else self.out_pos_⟩
    (if it = self.begin_ then self.in_pos_ else 0)

/-- The buffers of the octets that can be read. -/
def data : List View :=
  let last := if self.out_ = self.end_ then self.end_ else self.out_ + 1
  (List.range' self.begin_ (last - self.begin_)).map self.constBuffer

/-- What an iterator over the buffers of `prepare` gives. -/
def mutableBuffer (it : Nat) : View :=
  let size := Chunks.width self.bs_ it
  View.advance ⟨it, 0, if it = self.end_ - 1 then self.out_end_ else size⟩
    (if it = self.out_ then self.out_pos_ else 0)

/-- The buffers of the octets that can be written. -/
def output : List View :=
  (List.range' self.out_ (self.end_ - self.out_)).map self.mutableBuffer

/-- The walk of `prepare` over the buffers behind `end_`, and the octets still to be found. -/
def prepareWalk : List Octets → Nat → BuffersAdapter → BuffersAdapter × Nat
  | [], n, self => (self, n)
  | buffer :: rest, n, self =>
    if n < buffer.length then ({ self with out_end_ := n, end_ := self.end_ + 1 }, 0)
    else prepareWalk rest (n - buffer.length)
      { self with out_end_ := buffer.length, end_ := self.end_ + 1 }

/-- Looks for so many octets to write, and says whether they were found: `std::length_error` is
thrown otherwise. -/
def prepare (n : Nat) : BuffersAdapter × Bool :=
  let self := { self with end_ := self.out_ }
  let (self, n) := match self.bs_.drop self.end_ with
    | [] => (self, n)
    | buffer :: rest =>
      let size := buffer.length - self.out_pos_
      if n > size then prepareWalk rest (n - size) { self with end_ := self.end_ + 1 }
      else ({ self with end_ := self.end_ + 1, out_end_ := self.out_pos_ + n }, 0)
  (self, n = 0)

/-- The walk of `commit` over the buffers from `out_` to `end_`. -/
def commitWalk : List Octets → Nat → BuffersAdapter → BuffersAdapter
  | [], _, self => self
  | [last], n, self =>
    let n := min n (self.out_end_ - self.out_pos_)
    let self := { self with
      out_pos_ := self.out_pos_ + n
      in_size_ := self.in_size_ + n
      max_size_ := self.max_size_ - n }
    if self.out_pos_ = last.length then
      { self with out_ := self.out_ + 1, out_pos_ := 0, out_end_ := 0 }
    else self
  | buffer :: rest, n, self =>
    let avail := buffer.length - self.out_pos_
    if n < avail then
      { self with
        out_pos_ := self.out_pos_ + n
        in_size_ := self.in_size_ + n
        max_size_ := self.max_size_ - n }
    else commitWalk rest (n - avail) { self with
      out_ := self.out_ + 1
      out_pos_ := 0
      in_size_ := self.in_size_ + avail
      max_size_ := self.max_size_ - avail }

/-- Moves octets that were written to those that can be read. -/
def commit (n : Nat) : BuffersAdapter :=
  commitWalk ((self.bs_.drop self.out_).take (self.end_ - self.out_)) n self

/-- The walk of `consume` over the buffers from `begin_` to `out_`. -/
def consumeWalk : List Octets → Nat → BuffersAdapter → BuffersAdapter
  | [], n, self =>
    let avail := self.out_pos_ - self.in_pos_
    if n < avail then
      { self with in_size_ := self.in_size_ - n, in_pos_ := self.in_pos_ + n }
    else { self with in_size_ := self.in_size_ - avail, in_pos_ := self.out_pos_ }
  | buffer :: rest, n, self =>
    let avail := buffer.length - self.in_pos_
    if n < avail then
      { self with in_size_ := self.in_size_ - n, in_pos_ := self.in_pos_ + n }
    else consumeWalk rest (n - avail) { self with
      in_size_ := self.in_size_ - avail
      in_pos_ := 0
      begin_ := self.begin_ + 1 }

/-- Removes octets from the front of those that can be read. -/
def consume (n : Nat) : BuffersAdapter :=
  consumeWalk ((self.bs_.drop self.begin_).take (self.out_ - self.begin_)) n self

/-- The octets at some places. -/
def read (places : List (Nat × Nat)) : Octets := places.filterMap (Chunks.get self.bs_)

/-- The places that can be read. -/
def dataPlaces : List (Nat × Nat) := self.data.flatMap View.places

/-- The places that can be written. -/
def outputPlaces : List (Nat × Nat) := self.output.flatMap View.places

end BuffersAdapter

/-! ## Its use -/

/-- An adapter, and the places that a program was given to write to and has not committed. -/
structure AdapterUse where
  adapter : BuffersAdapter
  given : List (Nat × Nat) := []
  deriving DecidableEq, Repr

/-- What a program does with an adapter. -/
inductive AdapterAct
  | prepare (n : Nat)
  /-- An octet is written to one of the places that were given. -/
  | write (j : Nat) (c : UInt8)
  | commit (n : Nat)
  | consume (n : Nat)
  | data

/-- What a program gets. -/
inductive AdapterReport
  | done
  | no_space
  /-- Places to write to, by what they hold. -/
  | prepared (room : Octets)
  | data (s : Octets)
  deriving DecidableEq, Repr

namespace AdapterUse

/-- A program with an adapter that nothing was done with. -/
def start (bs : List Octets) : AdapterUse := { adapter := .construct bs }

/-- What an act of a program does, and what the program gets. -/
def perform (w : AdapterUse) : AdapterAct → AdapterUse × AdapterReport
  | .prepare n =>
    match w.adapter.prepare n with
    | (adapter, true) =>
      let given := adapter.outputPlaces
      ({ adapter, given }, .prepared (adapter.read given))
    -- The program keeps what it was given before.
    | (adapter, false) => ({ w with adapter }, .no_space)
  | .write j c =>
    match w.given[j]? with
    | some place =>
      let bs := Chunks.set w.adapter.bs_ place c
      ({ w with adapter := { w.adapter with bs_ := bs } }, .done)
    | none => (w, .done)
  | .commit n => ({ adapter := w.adapter.commit n, given := w.given.drop n }, .done)
  | .consume n => ({ w with adapter := w.adapter.consume n }, .done)
  | .data => (w, .data (w.adapter.read w.adapter.dataPlaces))

/-- What a program does, and what it gets for each act. -/
def performAll (w : AdapterUse) : List AdapterAct → AdapterUse × List AdapterReport
  | [] => (w, [])
  | act :: acts =>
    let (w, report) := w.perform act
    let (w, reports) := w.performAll acts
    (w, report :: reports)

/-- Preparing too many octets in front of the last buffer, with octets left that are not prepared. -/
def Spoils (w : AdapterUse) : AdapterAct → Prop
  | .prepare n => w.adapter.max_size_ < n ∧ w.adapter.out_ + 1 < w.adapter.bs_.length ∧
      w.given.length < w.adapter.max_size_
  | _ => False

/-- A program none of whose acts spoils the adapter. -/
def Careful (w : AdapterUse) : List AdapterAct → Prop
  | [] => True
  | act :: acts => ¬w.Spoils act ∧ (w.perform act).1.Careful acts

end AdapterUse

/-! ## What it is for -/

/-- Octets that can be read, those prepared behind them, and those behind these. -/
structure OctetFifo where
  data : Octets
  room : Octets
  rest : Octets
  deriving DecidableEq, Repr

namespace OctetFifo

/-- What an act of a program does to octets, and what the program gets. -/
def perform (q : OctetFifo) : AdapterAct → OctetFifo × AdapterReport
  | .prepare n =>
    let left := q.room ++ q.rest
    if n ≤ left.length then
      ({ q with room := left.take n, rest := left.drop n }, .prepared (left.take n))
    else (q, .no_space)
  | .write j c => ({ q with room := q.room.set j c }, .done)
  | .commit n => ({ q with data := q.data ++ q.room.take n, room := q.room.drop n }, .done)
  | .consume n => ({ q with data := q.data.drop n }, .done)
  | .data => (q, .data q.data)

/-- What a program does to octets, and what it gets for each act. -/
def performAll (q : OctetFifo) : List AdapterAct → OctetFifo × List AdapterReport
  | [] => (q, [])
  | act :: acts =>
    let (q, report) := q.perform act
    let (q, reports) := q.performAll acts
    (q, report :: reports)

end OctetFifo

end Beast
