import Beast.Core.DynamicBuffer
import Beast.Core.Pieces
import Beast.Http.BufferSequence
import Beast.Http.Members
import Beast.Lib.Machine

/-! Reading a message from a stream, while octets that come too early wait in a buffer. -/

namespace Beast.Http

/--
A kind of reader that a direct parser stores the body with, as far as its buffers are concerned.

The octets that are placed in them are told to the derived class as data when they are committed.
-/
structure DirectReader where
  State : Type
  /-- The size of the buffer for at most so many octets, or that `std::length_error` is thrown. -/
  prepare : State → Nat → State × Option Nat
  commit : State → Nat → State
  /-- The buffer holds an octet at least, and no more than was asked for. -/
  bounded : ∀ reader n k, 0 < n → (prepare reader n).2 = some k → 1 ≤ k ∧ k ≤ n

/-- A stream: the octets still to arrive, in their pieces, and what is reported behind them. -/
structure SyncReadStream where
  input : List Octets
  ending : ErrorCode

/-- Reads at most so many octets, and at least one, or comes to what is reported behind them. -/
def SyncReadStream.read_some (stream : SyncReadStream) (n : Nat) :
    Octets × Option ErrorCode × SyncReadStream :=
  match takeSome n stream.input with
  | ([], _) => ([], some stream.ending, { stream with input := [] })
  | (s, input) => (s, none, { stream with input })

/-- A parser that reads from a stream, with its reader and the octets that came too early. -/
structure ReadState (d : Derived) (R : DirectReader) (B : DynamicBuffer) extends FlatParser d where
  r_ : R.State
  buffer : B.State
  stream : SyncReadStream

variable {d : Derived} {R : DirectReader} {B : DynamicBuffer}

/-- The octets in the buffer. -/
def ReadState.data (self : ReadState d R B) : Octets := (B.data self.buffer).flatten

/-- Removes octets from the front of the buffer. -/
def ReadState.consume (self : ReadState d R B) (n : Nat) : ReadState d R B :=
  { self with buffer := B.consume self.buffer n }

/-- A step of a parser that reads from a stream. -/
abbrev ReadStep (d : Derived) (R : DirectReader) (B : DynamicBuffer) := Step Halt (ReadState d R B)

/-- A step of the parser alone. -/
def onParser {α : Type} (m : ParserStep d α) : ReadStep d R B α :=
  Step.zoom (fun self => self.toBasicParser) (fun self p => { self with toBasicParser := p }) m

/-- Presents the octets of the buffer to the parser. -/
def writeData (isRequest isDirect : Bool) : ReadStep d R B Nat := fun self =>
  let flat := maybeFlatten self.buf_ (B.data self.buffer)
  let wrote := Step.run (if isDirect then writeDirect isRequest flat.1 else write isRequest flat.1)
    self.toBasicParser
  (wrote.1, { self with toBasicParser := wrote.2, buf_ := flat.2 })

/-- Makes room in the buffer for a read. -/
def prepareBuffer : ReadStep d R B Nat := do
  let self ← get
  let size := B.read_size_helper self.buffer 65536
  match B.prepare self.buffer size with
  | none => Step.stop .length_error
  | some buffer => do
    set { self with buffer }
    return size

/-- Reads some octets from the stream, or learns what is reported instead. -/
def readStream (n : Nat) : ReadStep d R B (Octets × Option ErrorCode) := fun self =>
  let (s, ec, stream) := self.stream.read_some n
  (.ok (s, ec), { self with stream })

/-- Appends octets that were read to the buffer. -/
def commitBuffer (s : Octets) : ReadStep d R B Unit :=
  modify fun self => { self with buffer := B.commit self.buffer s }

/-- Catches `std::length_error`, which is reported by an error code. -/
def caught {α : Type} (m : ReadStep d R B α) : ReadStep d R B α := fun self =>
  match Step.run m self with
  | (.error .length_error, self) => (.error (.ec .buffer_overflow), self)
  | outcome => outcome

/-- Whether the parser stands within a body or a chunk. -/
def inBody (st : ParseState) : Bool :=
  st == .body || st == .body_to_eof || st == .chunk_body

/-- Has the reader prepare a buffer, and returns its size. -/
def onPrepare (n : Nat) : ReadStep d R B Nat := fun self =>
  match R.prepare self.r_ n with
  | (r_, some k) => (.ok k, { self with r_ })
  | (r_, none) => (.error .length_error, { self with r_ })

/-- Has the reader keep the octets that were placed in its buffer, which are told as data. -/
def onCommit (s : Octets) : ReadStep d R B Unit :=
  modify fun self =>
    { self with impl := (d.call self.impl (.on_data s)).1, r_ := R.commit self.r_ s.length }

/-- Does a step of the message, and throws its error code out. -/
def ignoring (m : MessageStep d Unit) : MessageStep d Unit := fun self =>
  (.ok (), (Step.run m self).2)

/-- Counts octets that were placed in the reader's buffer off the body or chunk. -/
def commitBody (s : Octets) : ReadStep d R B Unit := do
  onCommit s
  let self ← get
  match self.state_ with
  | .body => do
    set { self with len_ := self.len_ - s.length }
    if self.len_ - s.length == 0 then onParser (onMessage (ignoring doComplete))
  | .chunk_body =>
    if self.len_ - s.length == 0 then
      set { self with len_ := self.len_ - s.length, state_ := ParseState.chunk_header }
    else set { self with len_ := self.len_ - s.length }
  | _ => return

/-- Copies octets of the body from the buffer to the reader, and returns their number. -/
def copyBody : ReadStep d R B Nat := do
  if !inBody (← get).state_ then Step.stop .assertion
  else do
    onParser (onMessage maybeDoBodyDirect)
    let self ← get
    if self.state_ == .body_to_eof then do
      let k ← onPrepare self.data.length
      let s := self.data.take k
      modify fun self => self.consume s.length
      onCommit s
      return s.length
    else if self.len_ == 0 then Step.stop .assertion
    else do
      let k ← onPrepare self.len_
      let s := self.data.take k
      commitBody s
      return s.length

/-- Has the reader prepare a buffer of limited size for octets of the body. -/
def prepareBody (limit : Nat) : ReadStep d R B Nat := do
  if !inBody (← get).state_ then Step.stop .assertion
  else do
    onParser (onMessage maybeDoBodyDirect)
    let self ← get
    if self.state_ == .body_to_eof then onPrepare limit
    else if self.len_ == 0 then Step.stop .assertion
    else onPrepare (min self.len_ limit)

/-- Reads some octets into the buffer; returns `false` where the stream has come to its end. -/
def doRead : ReadStep d R B Bool := do
  let size ← caught prepareBuffer
  let (s, ec) ← readStream size
  match ec with
  | some .eof => do
    if gotSome (← get).toBasicParser then do
      onParser writeEof
      return false
    else fail .end_of_stream
  | some ec => fail ec
  | none => do
    commitBuffer s
    return true

/-- Reads some octets of the body, and returns how many of them are to be removed. -/
def readSomeBody : ReadStep d R B Nat := do
  if (← get).data.length > 0 then copyBody
  else do
    let size ← caught (prepareBody 65536)
    let (s, ec) ← readStream size
    match ec with
    | some .eof => do
      onParser writeEof
      return 0
    | some ec => fail ec
    | none => do
      commitBody s
      return 0

/-- Where a call to read stands: at its start, or at a label of the loop over the buffer. -/
inductive ReadPoint
  | read_some | write | do_read
  deriving DecidableEq, Repr

/-- Whether octets of a body go to a reader without passing through the buffer. -/
def bypasses (isDirect : Bool) (st : ParseState) : Bool :=
  isDirect && !(st == .header || st == .chunk_header)

/-- What a call goes on with when octets were used, or comes to. -/
abbrev After (d : Derived) (R : DirectReader) (B : DynamicBuffer) :=
  Nat → ReadState d R B → ReadState d R B ⊕ (Except Halt Nat × ReadState d R B)

/-- A call to read some octets returns how many were used. -/
def afterReadSome : After d R B := fun n self => .inr (.ok n, self)

/-- A call to read a message removes the octets that were used, until the message is complete. -/
def afterRead : After d R B := fun n self =>
  let self := self.consume n
  if isComplete self.toBasicParser then .inr (.ok 0, self) else .inl self

/-- A part of a call is followed by another one, unless it stopped. -/
def followed {α ρ σ τ : Type} (next : α → σ → τ ⊕ (Except Halt ρ × σ)) :
    Except Halt α × σ → τ ⊕ (Except Halt ρ × σ)
  | (.ok a, self) => next a self
  | (.error halt, self) => .inr (.error halt, self)

/-- A call that goes on starts over. -/
def startOver (after : After d R B) (n : Nat) (self : ReadState d R B) :
    (ReadPoint × ReadState d R B) ⊕ (Except Halt Nat × ReadState d R B) :=
  (after n self).map (fun self => (.read_some, self)) id

/-- A call to read some octets, or a message, from one label of its loops to the next. -/
def readStep (isRequest isDirect : Bool) (after : After d R B) :
    ReadPoint × ReadState d R B →
      (ReadPoint × ReadState d R B) ⊕ (Except Halt Nat × ReadState d R B)
  | (.read_some, self) =>
    if bypasses isDirect self.state_ then
      followed (startOver after) (Step.run readSomeBody self)
    else if self.data.length = 0 then .inl (.do_read, self)
    else .inl (.write, self)
  | (.write, self) =>
    followed (fun n self => if n > 0 then startOver after n self else .inl (.do_read, self))
      (Step.run (writeData isRequest isDirect) self)
  | (.do_read, self) =>
    followed (fun more self => if more then .inl (.write, self) else startOver after 0 self)
      (Step.run doRead self)

end Beast.Http
