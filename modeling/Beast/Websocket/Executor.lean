import Beast.Websocket.ReadFrameOp
import Beast.Websocket.WriteFrameOp

/-! The runs of the asynchronous operations of one stream, in any order of their completions. -/

namespace Beast.Websocket

/-- What may happen next to a stream: an operation is started, or what one waits for happens. -/
inductive Event
  | startRead (db : Octets)
  | startWrite (fin : Bool) (bs : Octets)
  | startClose (cr : CloseReason)
  | startPing (op : Opcode) (payload : Octets)
  | endRead (ec : Option ErrorCode) (octets : Octets)
  | endWrite (ec : Option ErrorCode)
  | endPing (ec : Option ErrorCode)
  deriving DecidableEq, Repr

/-- Whether an operation that waits for something may get this from it. -/
def Wait.reports (w : Wait) (ec : Option ErrorCode) (octets : Octets) : Prop :=
  match w with
  | .read n => if ec.isSome then octets.length ≤ n else octets.length = n
  | .read_some n =>
    if ec.isSome then octets.length ≤ n else octets.length ≤ n ∧ (0 < n → octets ≠ [])
  | .write | .teardown => octets = []
  | .post e => ec = e ∧ octets = []

variable {lib : Lib}

namespace Async

/-- Whether no read operation is under way. -/
def readIdle (s : Async lib) : Prop := s.reading = none ∧ s.rd_op_ = none

/-- Whether no write or close operation is under way. -/
def writeIdle (s : Async lib) : Prop := s.writing = none ∧ s.wr_op_ = none

/-- Whether no ping operation is under way. -/
def pingIdle (s : Async lib) : Prop := s.pinging = none ∧ s.ping_op_ = none

/-- Whether an event may happen. -/
def enabled (s : Async lib) : Event → Prop
  | .startRead _ => s.readIdle
  | .startWrite _ _ | .startClose _ => s.writeIdle
  | .startPing op _ => s.pingIdle ∧ (op = .ping ∨ op = .pong)
  | .endRead ec octets => ∃ d w, s.reading = some (d, w) ∧ w.reports ec octets
  | .endWrite ec => ∃ d w, s.writing = some (d, w) ∧ w.reports ec []
  | .endPing ec => ∃ d w, s.pinging = some (d, w) ∧ w.reports ec []

/-- Starts a read operation. -/
def startRead (db : Octets) : OpStep lib Unit := do
  modify fun s => { s with db }
  ReadFrameOp.call {} none []

/-- Calls the read operation with what it waited for. -/
def endRead (ec : Option ErrorCode) (octets : Octets) : OpStep lib Unit := do
  match (← get).reading with
  | none => return
  | some (d, w) =>
    modify fun s => { s with reading := none }
    -- The end of a teardown says nothing about the connection.
    if w == .teardown then d.call ec octets else d.complete ec octets

/-- Calls the write or close operation with what it waited for. -/
def endWrite (ec : Option ErrorCode) : OpStep lib Unit := do
  match (← get).writing with
  | none => return
  | some (d, w) =>
    modify fun s => { s with writing := none }
    match d with
    | .write d => if w == .write then d.complete ec else d.call ec
    | .close d => if w == .write then d.complete ec else d.call ec

/-- Calls the ping operation with what it waited for. -/
def endPing (ec : Option ErrorCode) : OpStep lib Unit := do
  match (← get).pinging with
  | none => return
  | some (d, w) =>
    modify fun s => { s with pinging := none }
    if w == .write then d.complete ec else d.call ec

/-- What an event does. -/
def step : Event → OpStep lib Unit
  | .startRead db => startRead db
  | .startWrite fin bs => WriteFrameOp.start fin bs
  | .startClose cr => CloseOp.start cr
  | .startPing op payload => PingOp.start op payload
  | .endRead ec octets => endRead ec octets
  | .endWrite ec => endWrite ec
  | .endPing ec => endPing ec

end Async

end Beast.Websocket
