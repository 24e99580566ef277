import Beast.Http.Read

/-! Reading a message with composed operations, which return to the executor while they wait. -/

namespace Beast.Http

variable {d : Derived} {R : DirectReader} {B : DynamicBuffer}

/-- A composed operation that reads into the buffer or into the body, with where it stands. -/
structure ReadOp where
  body : Bool
  state : Nat := 0
  bytes_used : Nat := 0
  deriving DecidableEq, Repr

/-- What an operation does before it returns. -/
inductive Act
  | async_read_some (n : Nat)
  | post (ec : Option ErrorCode)
  | upcall (ec : Option ErrorCode)
  deriving DecidableEq, Repr

/-- What an operation waits for, if it was started. -/
inductive Wait
  | starts
  | reads (n : Nat)
  | posted (ec : Option ErrorCode)
  deriving DecidableEq, Repr

/-- A part of an operation, which an exception escapes from. -/
abbrev OpStep (d : Derived) (R : DirectReader) (B : DynamicBuffer) :=
  ReadStep d R B (ReadOp × Act)

/-- Does a step, and goes on with the error code that it reports. -/
def reported {α : Type} (m : ReadStep d R B α) : ReadStep d R B (Except ErrorCode α) := fun self =>
  match Step.run m self with
  | (.ok a, self) => (.ok (.ok a), self)
  | (.error (.ec ec), self) => (.ok (.error ec), self)
  | (.error halt, self) => (.error halt, self)

/-- Catches `std::length_error`, which is told from a success. -/
def orLengthError {α : Type} (m : ReadStep d R B α) : ReadStep d R B (Option α) := fun self =>
  match Step.run m self with
  | (.ok a, self) => (.ok (some a), self)
  | (.error .length_error, self) => (.ok none, self)
  | (.error halt, self) => (.error halt, self)

namespace ReadOp

/-- Where an operation is to stand. -/
def moves (op : ReadOp) (state : Nat) : ReadOp := { op with state }

/-- Keeps how many octets were used. -/
def uses (op : ReadOp) (bytes_used : Nat) : ReadOp := { op with bytes_used }

/-- Posts the call of the handler. -/
def posts (op : ReadOp) (ec : Option ErrorCode) : ReadOp × Act :=
  (op.moves 99, .post ec)

/-- Makes room in the buffer, and starts to read. -/
def readsBuffer (op : ReadOp) (ec : Option ErrorCode) : OpStep d R B := do
  match ← orLengthError prepareBuffer with
  | none =>
    if op.state == 3 then return (op, .upcall ec)
    else return op.posts (some .buffer_overflow)
  | some size => return (op.moves 4, .async_read_some size)

/-- Presents the buffer to the parser. -/
def writesBuffer (op : ReadOp) (isRequest isDirect : Bool) (ec : Option ErrorCode) :
    OpStep d R B := do
  match ← reported (writeData isRequest isDirect) with
  | .error ec =>
    let op := op.uses 0
    if op.state == 1 then return (op, .upcall (some ec))
    else return op.posts (some ec)
  | .ok n =>
    let op := op.uses n
    if n > 0 then
      if op.state == 1 then return (op, .upcall ec)
      else return op.posts ec
    else op.readsBuffer ec

/-- Tells the parser that the stream has ended. -/
def ends (op : ReadOp) : OpStep d R B := do
  match ← reported (onParser writeEof) with
  | .error ec => return (op, .upcall (some ec))
  | .ok () => return (op, .upcall none)

/-- The operation that reads into the buffer, from where it stands. -/
def bufferOp (op : ReadOp) (isRequest isDirect : Bool) (s : Octets) (ec : Option ErrorCode) :
    OpStep d R B := do
  match op.state with
  | 0 => do
    if (← get).data.length = 0 then (op.moves 2).readsBuffer ec
    else op.writesBuffer isRequest isDirect ec
  | 1 => op.writesBuffer isRequest isDirect ec
  | 2 | 3 => op.readsBuffer ec
  | 4 =>
    let op' := op.uses 0
    match ec with
    | some .eof => do
      if gotSome (← get).toBasicParser then op'.ends
      else return (op', .upcall (some .end_of_stream))
    | some ec => return (op', .upcall (some ec))
    | none => do
      commitBuffer s
      (op.moves 1).writesBuffer isRequest isDirect none
  | _ => return (op, .upcall ec)

/-- The operation that reads into the body, from where it stands. -/
def bodyOp (op : ReadOp) (s : Octets) (ec : Option ErrorCode) : OpStep d R B := do
  match op.state with
  | 0 => do
    if (← get).data.length > 0 then do
      let n ← copyBody
      return (op.uses n).posts ec
    else do
      let size ← prepareBody 65536
      return (op.moves 1, .async_read_some size)
  | 1 =>
    let op := op.uses 0
    match ec with
    | some .eof => op.ends
    | some ec => return (op, .upcall (some ec))
    | none => do
      commitBody s
      return (op, .upcall none)
  | _ => return (op, .upcall ec)

/-- Calls an operation with octets that were read, or with an error code. -/
def resume (op : ReadOp) (isRequest isDirect : Bool) (s : Octets) (ec : Option ErrorCode) :
    OpStep d R B :=
  if op.body then op.bodyOp s ec else op.bufferOp isRequest isDirect s ec

/-- The operation that reads some octets for a parser. -/
def new (isDirect : Bool) (self : ReadState d R B) : ReadOp :=
  { body := bypasses isDirect self.state_ }

end ReadOp

/-- An operation between two calls: where it stands, and what it waits for. -/
abbrev OpState (d : Derived) (R : DirectReader) (B : DynamicBuffer) :=
  (ReadOp × Wait) × ReadState d R B

/-- What follows what an operation did: the handler is called at its end. -/
def opActs (isDirect : Bool) (after : After d R B) :
    ReadOp × Act → ReadState d R B → OpState d R B ⊕ (Except Halt Nat × ReadState d R B)
  | (op, .async_read_some n), self => .inl ((op, .reads n), self)
  | (op, .post ec), self => .inl ((op, .posted ec), self)
  | (_, .upcall (some ec)), self => .inr (.error (.ec ec), self)
  | (op, .upcall none), self =>
    (after op.bytes_used self).map (fun self => ((.new isDirect self, .starts), self)) id

/-- An operation from one call of it to the next. -/
def opStep (isRequest isDirect : Bool) (after : After d R B) :
    OpState d R B → OpState d R B ⊕ (Except Halt Nat × ReadState d R B)
  | ((op, .starts), self) =>
    followed (opActs isDirect after) (Step.run (op.resume isRequest isDirect [] none) self)
  | ((op, .reads n), self) =>
    followed (opActs isDirect after)
      (Step.run (do
        let (s, ec) ← readStream n
        op.resume isRequest isDirect s ec) self)
  | ((op, .posted ec), self) =>
    followed (opActs isDirect after) (Step.run (op.resume isRequest isDirect [] ec) self)

/-- What an operation that is started comes from. -/
def opStart (isDirect : Bool) (self : ReadState d R B) :
    OpState d R B ⊕ (Except Halt Nat × ReadState d R B) :=
  .inl ((.new isDirect self, .starts), self)

end Beast.Http
