import Beast.Lib.Step
import Beast.Websocket.ReadFrame

/-! What the asynchronous operations of one stream share: its state, its lock, its slots. -/

namespace Beast.Websocket

/-- Where a read operation goes on when it is called again. -/
inductive ReadState
  | do_start
  | do_read_payload_2
  | do_inflate_payload_2
  | do_read_fh_1 | do_read_fh_2
  | do_control_payload
  | do_pong_resume | do_pong_resume_1
  | do_pong_1
  | do_close_resume | do_close_resume_1
  | do_teardown | do_teardown_1
  | do_fail_2 | do_fail_3 | do_fail_4 | do_fail_5
  | do_call_handler
  deriving DecidableEq, Repr

/-- An operation that reads a frame, and answers control frames in front of it. -/
structure ReadFrameOp where
  state : ReadState := .do_start
  fh : FrameHeader := {}
  fb : Octets := []
  remain : Nat := 0
  key : PreparedKey 8 := 0
  fi : FrameInfo := {}
  deriving DecidableEq, Repr

/-- How a write operation sends its data. -/
inductive EntryState
  | do_nomask_nofrag | do_nomask_frag | do_mask_nofrag | do_mask_frag | do_deflate
  deriving DecidableEq, Repr

/-- Where a write operation goes on when it is called again. -/
inductive WriteState
  | do_nomask_frag_2 | do_mask_nofrag_2 | do_mask_frag_2 | do_deflate_2 | do_deflate_3
  | do_maybe_suspend | do_maybe_suspend_1 | do_maybe_suspend_2
  | do_upcall
  deriving DecidableEq, Repr

/-- An operation that writes the data of one frame, in one frame or several. -/
structure WriteFrameOp where
  state : WriteState := .do_maybe_suspend
  /-- The data still to be sent. -/
  cb : Octets
  fin : Bool
  fh : FrameHeader := {}
  /-- The size of the frame header that was sent last. -/
  fh_buf : Nat := 0
  key : PreparedKey 8 := 0
  remain : Nat := 0
  entry_state : EntryState := .do_nomask_nofrag
  deriving DecidableEq, Repr

/-- Where an operation that sends one control frame goes on when it is called again. -/
inductive ControlState
  | state_0 | state_2 | state_3 | state_99
  deriving DecidableEq, Repr

/-- An operation that sends a ping or pong frame. -/
structure PingOp where
  state : ControlState := .state_0
  op : Opcode
  fb : Octets
  deriving DecidableEq, Repr

/-- An operation that sends a close frame. -/
structure CloseOp where
  state : ControlState := .state_0
  fb : Octets
  deriving DecidableEq, Repr

/-- The operations of which only one may be active at a time, as they share a slot. -/
inductive WriterOp
  | write (d : WriteFrameOp)
  | close (d : CloseOp)
  deriving DecidableEq, Repr

/-- What an operation that returned waits for. -/
inductive Wait
  /-- So many octets from the stream below. -/
  | read (n : Nat)
  /-- Some octets from the stream below, at most so many. -/
  | read_some (n : Nat)
  /-- The end of a write to the stream below. -/
  | write
  | teardown
  /-- To be called again through the queue of the service. -/
  | post (ec : Option ErrorCode)
  deriving DecidableEq, Repr

/-- A write to the stream below: the opcode where a frame starts, and the octets. -/
structure Sent where
  frame : Option Opcode
  octets : Octets
  deriving DecidableEq, Repr

/-- A handler that was called: for which operation, and with what. -/
inductive Called
  | read (ec : Option ErrorCode) (fi : FrameInfo)
  | write (ec : Option ErrorCode)
  | close (ec : Option ErrorCode)
  | ping (ec : Option ErrorCode)
  deriving DecidableEq, Repr

/-- A stream with its asynchronous operations. -/
structure Async (lib : Lib) where
  ws : StreamBase lib
  /-- The buffer that the caller of the read operation handed to it. -/
  db : Octets := []
  /-- The parked operations. -/
  rd_op_ : Option ReadFrameOp := none
  wr_op_ : Option WriterOp := none
  ping_op_ : Option PingOp := none
  /-- The operations under way that are not parked, and what they wait for. -/
  reading : Option (ReadFrameOp × Wait) := none
  writing : Option (WriterOp × Wait) := none
  pinging : Option (PingOp × Wait) := none
  /-- What was written, and the handlers that were called. -/
  sent : List Sent := []
  called : List Called := []

/-- The assertions of the operations that concern the lock and the slots. -/
inductive Fault
  | wr_block | emplace
  deriving DecidableEq, Repr

/-- A step of an operation, which an assertion that fails stops. -/
abbrev OpStep (lib : Lib) := Step Fault (Async lib)

variable {lib : Lib}

/-- Stops where an assertion fails. -/
def assert (cond : Bool) (fault : Fault) : OpStep lib Unit :=
  if cond then pure () else Step.stop fault

/-- Changes the stream. -/
def change (f : StreamBase lib → StreamBase lib) : OpStep lib Unit :=
  modify fun s => { s with ws := f s.ws }

/-- Makes an operation the one that writes. -/
def claim (op : Op) : OpStep lib Unit :=
  change fun ws => { ws with wr_block_ := some op }

/-- Ends the writing of an operation, if it is the one that writes. -/
def release (op : Op) : OpStep lib Unit :=
  change fun ws => if ws.wr_block_ = some op then { ws with wr_block_ := none } else ws

/-- Asserts that no operation writes. -/
def assertFree : OpStep lib Unit := do
  assert (← get).ws.wr_block_.isNone .wr_block

/-- Asserts that an operation is the one that writes. -/
def assertHeld (op : Op) : OpStep lib Unit := do
  assert ((← get).ws.wr_block_ == some op) .wr_block

/-- Starts a write to the stream below. -/
def startWrite (frame : Option Opcode) (octets : Octets) : OpStep lib Unit :=
  modify fun s => { s with sent := s.sent ++ [{ frame, octets }] }

namespace ReadFrameOp

/-- Returns, to be called again. -/
def wait (d : ReadFrameOp) (w : Wait) : OpStep lib Unit :=
  modify fun s => { s with reading := some (d, w) }

/-- Parks the operation. -/
def park (d : ReadFrameOp) : OpStep lib Unit := do
  assert (← get).rd_op_.isNone .emplace
  modify fun s => { s with rd_op_ := some d }

/-- Goes on where the operation was parked. -/
def resume (d : ReadFrameOp) : OpStep lib Unit :=
  match d.state with
  | .do_pong_resume => do
    assertFree
    claim .read
    wait { d with state := .do_pong_resume_1 } (.post none)
  | .do_close_resume => do
    assertFree
    claim .read
    wait { d with state := .do_close_resume_1 } (.post none)
  | .do_fail_2 => wait { d with state := .do_fail_3 } (.post none)
  -- No operation is parked in any other state.
  | _ => pure ()

end ReadFrameOp

namespace WriterOp

/-- Returns, to be called again. -/
def wait (d : WriterOp) (w : Wait) : OpStep lib Unit :=
  modify fun s => { s with writing := some (d, w) }

/-- Parks the operation. -/
def park (d : WriterOp) : OpStep lib Unit := do
  assert (← get).wr_op_.isNone .emplace
  modify fun s => { s with wr_op_ := some d }

/-- The operation, as the stream names the one that writes. -/
def op : WriterOp → Op
  | .write _ => .write
  | .close _ => .close

/-- Goes on where the operation was parked. -/
def resume (d : WriterOp) : OpStep lib Unit := do
  assertFree
  claim d.op
  match d with
  | .write d => wait (.write { d with state := .do_maybe_suspend_2 }) (.post none)
  | .close d => wait (.close { d with state := .state_3 }) (.post none)

end WriterOp

namespace PingOp

/-- Returns, to be called again. -/
def wait (d : PingOp) (w : Wait) : OpStep lib Unit :=
  modify fun s => { s with pinging := some (d, w) }

/-- Parks the operation. -/
def park (d : PingOp) : OpStep lib Unit := do
  assert (← get).ping_op_.isNone .emplace
  modify fun s => { s with ping_op_ := some d }

/-- Goes on where the operation was parked. -/
def resume (d : PingOp) : OpStep lib Unit := do
  assertFree
  claim .ping
  wait { d with state := .state_3 } (.post none)

end PingOp

/-- Calls the parked read operation, if there is one. -/
def maybeInvokeRd : OpStep lib Bool := do
  match (← get).rd_op_ with
  | none => return false
  | some d =>
    modify fun s => { s with rd_op_ := none }
    d.resume
    return true

/-- Calls the parked write or close operation, if there is one. -/
def maybeInvokeWr : OpStep lib Bool := do
  match (← get).wr_op_ with
  | none => return false
  | some d =>
    modify fun s => { s with wr_op_ := none }
    d.resume
    return true

/-- Calls the parked ping operation, if there is one. -/
def maybeInvokePing : OpStep lib Bool := do
  match (← get).ping_op_ with
  | none => return false
  | some d =>
    modify fun s => { s with ping_op_ := none }
    d.resume
    return true

/-- Calls one parked operation out of two, the second only where the first slot is empty. -/
def orElse (first second : OpStep lib Bool) : OpStep lib Bool := do
  if ← first then return true else second

/-- Calls a handler. -/
def invoke (handler : Called) : OpStep lib Unit :=
  modify fun s => { s with called := s.called ++ [handler] }

end Beast.Websocket
