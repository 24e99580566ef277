import Beast.Http.ChunkEncode
import Beast.Http.Header
import Beast.Lib.Machine
import Beast.Lib.Step

/-! Writing a message to a stream, by a call that blocks and by an operation. -/

namespace Beast.Http

/-- What a writer does when it is asked for more of the body. -/
inductive Provides
  /-- It passes on a sequence of buffers, and says whether that was the last one. -/
  | buffers (sequence : List Octets) (last : Bool)
  /-- It says that there is no more, and passes nothing on. -/
  | nothing
  | fails (code : ErrorCode)
  deriving DecidableEq, Repr

/-- A kind of writer that provides the body of a message in pieces. -/
structure BodyWriter where
  State : Type
  init : State → State × Option ErrorCode
  write : State → State × Provides

/-- A stream: what was written to it, and how much more it takes before it reports something. -/
structure WriteStream where
  written : Octets := []
  limit : Option (Nat × ErrorCode) := none
  deriving DecidableEq, Repr

/-- Writes all of some octets, unless the stream reports something on the way. -/
def WriteStream.write (stream : WriteStream) (s : Octets) : Option ErrorCode × WriteStream :=
  match stream.limit with
  | none => (none, { stream with written := stream.written ++ s })
  | some (n, ec) =>
    let written := stream.written ++ s.take n
    let stream := { written, limit := some (n - s.length, ec) }
    if s.length ≤ n then (none, stream) else (some ec, stream)

/-- A message that is written: what was decided about it, its writer, and the stream. -/
structure WritePreparation (W : BodyWriter) where
  msg : Header
  w : W.State
  /-- The octets of the header, until they are written. -/
  b : Octets := []
  chunked : Bool
  close : Bool
  stream : WriteStream := {}

variable {W : BodyWriter}

/-- A message in front of a stream, before its writer is initialized. -/
def writePreparation (msg : Header) (w : W.State) (stream : WriteStream) : WritePreparation W where
  msg
  w
  chunked := tokenExists (msg.fields.value (octets "Transfer-Encoding")) (octets "chunked")
  close := tokenExists (msg.fields.value (octets "Connection")) (octets "close") ||
    msg.version < 11 && !msg.fields.fieldExists (octets "Content-Length")
  stream

/-- A step of writing a message. -/
abbrev WriteStep (W : BodyWriter) := Step Halt (WritePreparation W)

/-- Initializes the writer, and writes the header into the buffer. -/
def WritePreparation.init : WriteStep W Unit := do
  let self ← get
  match W.init self.w with
  | (w, some ec) => do
    set { self with w }
    Step.stop (.ec ec)
  | (w, none) => set { self with w, b := writeHeader self.msg }

/-- Asks the writer for more of the body. -/
def onWrite : WriteStep W Provides := fun self =>
  let (w, provides) := W.write self.w
  (.ok provides, { self with w })

/-- The octets that a sequence of buffers is sent as, behind what is left of the header. -/
def encoded (sequence : List Octets) : WriteStep W Octets := do
  let self ← get
  if self.chunked then do
    let chunk ← Step.lift (chunkEncode false sequence)
    return self.b ++ chunk
  else return self.b ++ sequence.flatten

/-- Sends octets to the stream. -/
def send (s : Octets) : WriteStep W Unit := fun self =>
  let (ec, stream) := self.stream.write s
  let self := { self with stream }
  match ec with
  | none => (.ok (), self)
  | some ec => (.error (.ec ec), self)

/-- Reports the end of the stream where the connection is to be closed. -/
def finish : WriteStep W Unit := do
  if (← get).close then Step.stop (.ec .eof)

/-- Where a call to write a message stands. -/
inductive WritePoint
  | init | first | body | final | close
  deriving DecidableEq, Repr

/-- A call to write a message, from one place where it may write to the next. -/
def writeMessage : WritePoint → WriteStep W (Option WritePoint)
  | .init => do
    WritePreparation.init
    return some .first
  | .first => do
    match ← onWrite with
    | .fails ec => Step.stop (.ec ec)
    | .nothing => do
      modify fun self => { self with b := [] }
      return some .final
    | .buffers sequence last => do
      send (← encoded sequence)
      modify fun self => { self with b := [] }
      return some (if last then .final else .body)
  | .body => do
    match ← onWrite with
    | .fails ec => Step.stop (.ec ec)
    | .nothing => return some .final
    | .buffers sequence last => do
      send (← encoded sequence)
      return some (if last then .final else .body)
  | .final => do
    if (← get).chunked then do
      send chunkEncodeFinal
      return some .close
    else return some .close
  | .close => do
    finish
    return none

/-- A step of a machine that ends with what its last step returns or stops with. -/
def stepOf {π σ : Type} (step : π → Step Halt σ (Option π)) (x : π × σ) :
    (π × σ) ⊕ (Except Halt Unit × σ) :=
  match Step.run (step x.1) x.2 with
  | (.ok (some point), self) => .inl (point, self)
  | (.ok none, self) => .inr (.ok (), self)
  | (.error halt, self) => .inr (.error halt, self)

/-- What a call to write a message comes to. -/
def Writes (self : WritePreparation W) (r : Except Halt Unit × WritePreparation W) : Prop :=
  Machine.Ends (stepOf writeMessage) (.inl (.init, self)) r

/-- Where an operation to write a message stands, or goes on when octets were sent. -/
inductive OpPoint
  | init | first | sent | body | final | close
  deriving DecidableEq, Repr

/-- What an operation does next. -/
inductive Next
  /-- It goes on at once. -/
  | goes (point : OpPoint)
  /-- It goes on when the stream has taken some octets. -/
  | awaits (s : Octets) (point : OpPoint)
  /-- It waits for nothing, and is never resumed. -/
  | suspends
  /-- It calls its handler. -/
  | calls
  deriving DecidableEq, Repr

/-- The buffers that a writer provides are sent, and the writer says how the operation goes on. -/
def opWrite : WriteStep W Next := do
  match ← onWrite with
  | .fails ec => Step.stop (.ec ec)
  | .nothing => return .suspends
  | .buffers sequence last => do
    let s ← encoded sequence
    let self ← get
    if last then return .awaits s (if self.chunked then .final else .close)
    else return .awaits s .sent

/-- The cases of an operation to write a message. -/
def writeOp : OpPoint → WriteStep W Next
  | .init => do
    WritePreparation.init
    return .goes .first
  | .first => opWrite
  | .sent => do
    modify fun self => { self with b := [] }
    return .goes .body
  | .body => opWrite
  | .final => return .awaits chunkEncodeFinal .close
  | .close => do
    finish
    return .calls

/-- What an operation comes to: an outcome for its handler, or none where it is never resumed. -/
abbrev OpResult (W : BodyWriter) := Option (Except Halt Unit) × WritePreparation W

/-- An operation from one case to the next, or to the end of its sending. -/
def opStepWrite (x : Next × WritePreparation W) :
    (Next × WritePreparation W) ⊕ OpResult W :=
  match x with
  | (.goes point, self) =>
    match Step.run (writeOp point) self with
    | (.ok next, self) => .inl (next, self)
    | (.error halt, self) => .inr (some (.error halt), self)
  | (.awaits s point, self) =>
    match Step.run (send s) self with
    | (.ok _, self) => .inl (.goes point, self)
    | (.error halt, self) => .inr (some (.error halt), self)
  | (.suspends, self) => .inr (none, self)
  | (.calls, self) => .inr (some (.ok ()), self)

/-- What an operation to write a message comes to. -/
def AsyncWrites (self : WritePreparation W) (r : OpResult W) : Prop :=
  Machine.Ends opStepWrite (.inl (.goes .init, self)) r

end Beast.Http
