import Beast.Core.DynamicBuffer

/-! A stream that reads through a buffer, at once or with an operation that is resumed. -/

namespace Beast

variable {B : DynamicBuffer} {ε : Type}

/-- What the next layer does when it is asked to read: octets that fit, and perhaps an error. -/
structure NextLayer (ε : Type) where
  read_some : Nat → Octets × Option ε
  fits : ∀ n, (read_some n).1.length ≤ n

/-- Writes octets to a sequence of buffers, as far as there is room. -/
def scatter : List Octets → Octets → List Octets
  | [], _ => []
  | b :: bs, s => (s.take b.length ++ b.drop s.length) :: scatter bs (s.drop b.length)

/-- The room of a sequence of buffers. -/
def BufferedReadStream.buffer_size (bs : List Octets) : Nat := bs.flatten.length

/-- Copies octets to a sequence of buffers, and counts them. -/
def buffer_copy (bs : List Octets) (s : Octets) : List Octets × Nat :=
  (scatter bs s, min s.length (BufferedReadStream.buffer_size bs))

structure BufferedReadStream (B : DynamicBuffer) where
  sb_ : B.State
  capacity_ : Nat

/-- How a call ends: with `std::length_error`, or with what is reported and the buffers. -/
inductive ReadEnd (ε : Type)
  | throws
  | reports (ec : Option ε) (bytes_transferred : Nat) (bs : List Octets)

/-- The octets that a call has delivered to its buffers, as far as it says so. -/
def ReadEnd.delivered : ReadEnd ε → Octets
  | throws => []
  | reports _ n bs => bs.flatten.take n

namespace BufferedReadStream

/-- The octets that were read and not delivered yet. -/
def octets (self : BufferedReadStream B) : Octets := (B.data self.sb_).flatten

def capacity (self : BufferedReadStream B) (size : Nat) : BufferedReadStream B :=
  { self with capacity_ := size }

/-- What a call leaves: the stream, how it ends, and the octets that the next layer gave, if it was
asked. -/
structure Read (B : DynamicBuffer) (ε : Type) where
  self : BufferedReadStream B
  ends : ReadEnd ε
  got : Option Octets

/-- Delivers what is in the buffer. -/
def deliver (self : BufferedReadStream B) (bs : List Octets) :
    BufferedReadStream B × Nat × List Octets :=
  let (bs, n) := buffer_copy bs self.octets
  ({ self with sb_ := B.consume self.sb_ n }, n, bs)

/-- Reads at once. The error code is the caller's, and it may hold an error from before. -/
def read_some (next_layer_ : NextLayer ε) (self : BufferedReadStream B) (bs : List Octets)
    (ec : Option ε) : Read B ε :=
  if self.octets.length = 0 then
    if self.capacity_ = 0 then
      let (s, ec) := next_layer_.read_some (buffer_size bs)
      ⟨self, .reports ec s.length (scatter bs s), some s⟩
    else
      match B.prepare self.sb_ self.capacity_ with
      | none => ⟨self, .throws, none⟩
      | some sb =>
        let (s, ec) := next_layer_.read_some self.capacity_
        let self := { self with sb_ := B.commit sb s }
        if ec.isSome then ⟨self, .reports ec 0 bs, some s⟩
        else
          let (self, n, bs) := self.deliver bs
          ⟨self, .reports ec n bs, some s⟩
  else
    let (self, n, bs) := self.deliver bs
    ⟨self, .reports ec n bs, none⟩

/-! ## The operation -/

/-- Where an operation is left. -/
inductive Left (ε : Type)
  | throws
  | posts
  /-- It reads to the buffers of the caller. -/
  | reads
  /-- It reads to the room that was made in the buffer. -/
  | readsBuffer (n : Nat)
  | invokes (ec : Option ε) (bytes_transferred : Nat)

/-- An operation with the stream, the buffers of the caller and its state. -/
structure ReadSomeOp (B : DynamicBuffer) where
  srs : BufferedReadStream B
  bs : List Octets
  state : Nat

/-- Resumes an operation with what was read and with an error, for so many rounds of its loop. -/
def ReadSomeOp.resume (d : ReadSomeOp B) (ec : Option ε) (s : Octets) (bytes_transferred : Nat) :
    Nat → ReadSomeOp B × Left ε
  | 0 => (d, .invokes ec bytes_transferred)
  | rounds + 1 =>
    if ec.isSome ∨ d.state = 99 then (d, .invokes ec bytes_transferred)
    else
      match d.state with
      | 0 =>
        if d.srs.octets.length = 0 then
          resume { d with state := if d.srs.capacity_ > 0 then 2 else 1 } ec s bytes_transferred
            rounds
        else ({ d with state := 4 }, .posts)
      | 1 => ({ d with state := 99 }, .reads)
      | 2 =>
        match B.prepare d.srs.sb_ d.srs.capacity_ with
        | none => ({ d with state := 3 }, .throws)
        | some sb =>
          ({ d with state := 3, srs := { d.srs with sb_ := sb } }, .readsBuffer d.srs.capacity_)
      | 3 =>
        resume { d with state := 4, srs := { d.srs with sb_ := B.commit d.srs.sb_ s } } ec s
          bytes_transferred rounds
      | 4 =>
        let (srs, n, bs) := d.srs.deliver d.bs
        resume { d with state := 99, srs, bs } ec s n rounds
      | _ => (d, .invokes ec bytes_transferred)

/-- The operation has no more than four rounds to do before it is left. -/
def ReadSomeOp.call (d : ReadSomeOp B) (ec : Option ε) (s : Octets) : ReadSomeOp B × Left ε :=
  d.resume ec s s.length 4

/-- How an operation ends that is left for the last time. -/
def finish (got : Option Octets) : ReadSomeOp B × Left ε → Read B ε
  | (d, .invokes ec n) => ⟨d.srs, .reports ec n d.bs, got⟩
  | (d, _) => ⟨d.srs, .throws, got⟩

/-- Reads with an operation, which is resumed when the next layer has read or when it was posted. -/
def async_read_some (next_layer_ : NextLayer ε) (self : BufferedReadStream B) (bs : List Octets) :
    Read B ε :=
  match ReadSomeOp.call ⟨self, bs, 0⟩ (none : Option ε) [] with
  | (d, .posts) => finish none (d.call none [])
  | (d, .reads) =>
    let (s, ec) := next_layer_.read_some (buffer_size d.bs)
    finish (some s) (ReadSomeOp.call { d with bs := scatter d.bs s } ec s)
  | (d, .readsBuffer n) =>
    let (s, ec) := next_layer_.read_some n
    finish (some s) (d.call ec s)
  | left => finish none left

end BufferedReadStream

/-! ## Sequences of calls -/

/-- What a program does with a stream. -/
inductive ReadAct (ε : Type)
  | read_some (bs : List Octets) (ec : Option ε)
  | async_read_some (bs : List Octets)
  | capacity (size : Nat)

/-- A stream with what its next layer will do, and what was read and delivered so far. -/
structure ReadHistory (B : DynamicBuffer) (ε : Type) where
  srs : BufferedReadStream B
  /-- What the next layer does at each call of it. -/
  layers : Nat → NextLayer ε
  calls : Nat := 0
  got : Octets := []
  delivered : Octets := []

namespace ReadHistory

/-- What the next layer does when it is called next. -/
def next_layer_ (w : ReadHistory B ε) : NextLayer ε := w.layers w.calls

/-- Goes on behind a call. -/
def behind (w : ReadHistory B ε) (r : BufferedReadStream.Read B ε) : ReadHistory B ε :=
  { w with
    srs := r.self
    calls := if r.got.isSome then w.calls + 1 else w.calls
    got := w.got ++ r.got.getD []
    delivered := w.delivered ++ r.ends.delivered }

def perform (w : ReadHistory B ε) : ReadAct ε → ReadHistory B ε
  | .read_some bs ec => w.behind (w.srs.read_some w.next_layer_ bs ec)
  | .async_read_some bs => w.behind (w.srs.async_read_some w.next_layer_ bs)
  | .capacity size => { w with srs := w.srs.capacity size }

def performAll (w : ReadHistory B ε) (acts : List (ReadAct ε)) : ReadHistory B ε :=
  acts.foldl perform w

/-- A read into the buffer gives octets and an error at once. -/
def Mixed (w : ReadHistory B ε) : Prop :=
  w.srs.octets.length = 0 ∧ w.srs.capacity_ ≠ 0 ∧
    (w.next_layer_.read_some w.srs.capacity_).1 ≠ [] ∧
    (w.next_layer_.read_some w.srs.capacity_).2.isSome

/-- Neither are octets read into the buffer together with an error, nor are octets delivered from
the buffer to a caller whose error code holds an error already. -/
def Clean (w : ReadHistory B ε) : ReadAct ε → Prop
  | .read_some _ ec => ¬w.Mixed ∧ (w.srs.octets.length ≠ 0 → ec = none)
  | .async_read_some _ => ¬w.Mixed
  | .capacity _ => True

/-- All acts are clean, each of them in the state that it comes to. -/
def AllClean (w : ReadHistory B ε) : List (ReadAct ε) → Prop
  | [] => True
  | act :: acts => w.Clean act ∧ (w.perform act).AllClean acts

end ReadHistory

end Beast
