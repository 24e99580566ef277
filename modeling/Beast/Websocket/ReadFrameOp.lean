import Beast.Websocket.Operations

/-! The asynchronous operation that reads a frame, state by state. -/

namespace Beast.Websocket

namespace ReadFrameOp

variable {lib : Lib}

/-- The operation, to go on in another state. -/
def goto (d : ReadFrameOp) (state : ReadState) : ReadFrameOp := { d with state }

/-- Lets go of the lock, calls the next operation, and then the handler. -/
def upcall (d : ReadFrameOp) (ec : Option ErrorCode) : OpStep lib Unit := do
  release .read
  let _ ← orElse maybeInvokePing maybeInvokeWr
  invoke (.read ec d.fi)

/-- Ends the operation with what the frame tells its reader. -/
def frameDone (d : ReadFrameOp) : OpStep lib Unit := do
  let d := { d with fi := { op := (← get).ws.rd_.op, fin := d.fh.fin } }
  d.upcall none

/-- Reads the next frame header. -/
def readFh (d : ReadFrameOp) : OpStep lib Unit :=
  (d.goto .do_read_fh_1).wait (.read 2)

/-- Closes the connection behind the answer to a close frame. -/
def teardown (d : ReadFrameOp) : OpStep lib Unit :=
  (d.goto .do_teardown_1).wait .teardown

/-- Closes the connection that was failed. -/
def fail4 (d : ReadFrameOp) : OpStep lib Unit :=
  (d.goto .do_fail_5).wait .teardown

/-- Sends the close frame that fails the connection. -/
def fail1 (d : ReadFrameOp) : OpStep lib Unit := do
  change fun ws => { ws with failed_ := true, wr_close_ := true }
  assertFree
  claim .read
  startWrite (some .close) d.fb
  (d.goto .do_fail_4).wait .write

/-- Fails the connection with a code. -/
def fail (d : ReadFrameOp) (code : CloseCode) : OpStep lib Unit := do
  if (← get).ws.wr_close_ then d.fail4
  else
    let (fb, ws) := (← get).ws.writeClose { code := code.toUInt16 }
    change fun _ => ws
    let d := { d with fb }
    if (← get).ws.wr_block_.isSome then (d.goto .do_fail_2).park
    else d.fail1

/-- Becomes the operation that writes, which it may be already. -/
def claimOrHeld : OpStep lib Unit := do
  if (← get).ws.wr_block_.isNone then claim .read else assertHeld .read

/-- Sends the answer to a close frame. -/
def close (d : ReadFrameOp) : OpStep lib Unit := do
  claimOrHeld
  change fun ws => { ws with wr_close_ := true }
  startWrite (some .close) d.fb
  (d.goto .do_teardown).wait .write

/-- Sends the answer to a ping, or ignores the ping when closing. -/
def pong (d : ReadFrameOp) : OpStep lib Unit := do
  if (← get).ws.wr_close_ then
    if (← get).ws.wr_block_.isSome then
      assertHeld .read
      change fun ws => { ws with wr_block_ := none }
    let d := { d with fb := [] }
    d.readFh
  else
    claimOrHeld
    startWrite (some .pong) d.fb
    (d.goto .do_pong_1).wait .write

/-- Processes a control frame. -/
def control (d : ReadFrameOp) : OpStep lib Unit := do
  if d.fh.op == .ping then
    let payload := d.fb
    let d := { d with fb := [] }
    if (← get).ws.wr_close_ then d.readFh
    else
      let (fb, ws) := (← get).ws.writePing .pong payload
      change fun _ => ws
      let d := { d with fb }
      if (← get).ws.wr_block_.isSome then
        assert ((← get).ws.wr_block_ != some .read) .wr_block
        (d.goto .do_pong_resume).park
      else d.pong
  else if d.fh.op == .pong then
    let d := { d with fb := [] }
    d.readFh
  else
    let (cr, code) := readClose lib (← get).ws.cr_ d.fb
    change fun ws => { ws with cr_ := cr }
    if code != .none then d.fail code
    else if !(← get).ws.wr_close_ then
      let (fb, ws) := (← get).ws.replyClose
      change fun _ => ws
      let d := { d with fb }
      if (← get).ws.wr_block_.isSome then (d.goto .do_close_resume).park
      else d.close
    else d.teardown

/-- Reads the next piece of a payload. -/
def readPayload1 (d : ReadFrameOp) : OpStep lib Unit :=
  (d.goto .do_read_payload_2).wait (.read_some d.remain)

/-- Takes a piece of a payload. -/
def readPayload2 (d : ReadFrameOp) (pb : Octets) : OpStep lib Unit := do
  let d := { d with remain := d.remain - pb.length }
  let (pb, key) := unmask d.fh d.key pb
  let d := { d with key }
  let (valid, ws) := (← get).ws.checkText pb (d.remain == 0 && d.fh.fin)
  change fun _ => ws
  if !valid then d.fail .bad_payload
  else
    modify fun s => { s with db := s.db ++ pb }
    if d.remain > 0 then d.readPayload1 else d.frameDone

/-- Starts to read the payload of a frame that is not compressed. -/
def readPayload (d : ReadFrameOp) : OpStep lib Unit := do
  if d.fh.len == 0 then d.frameDone
  else if (← get).ws.exceeds d.fh.len then d.fail .too_big
  else
    change fun ws => ws.grow d.fh.len
    let d := { d with remain := d.fh.len.toNat, key := prepareKey64 d.fh.key }
    d.readPayload1

/-- Reads the next piece of a compressed payload. -/
def inflatePayload1 (d : ReadFrameOp) : OpStep lib Unit := do
  let n := min d.remain (← get).ws.rd_.buf_size
  (d.goto .do_inflate_payload_2).wait (.read_some n)

/-- Takes a piece of a compressed payload. -/
def inflatePayload2 (d : ReadFrameOp) (input : Octets) : OpStep lib Unit := do
  let d := { d with remain := d.remain - input.length }
  let (input, key) := unmask d.fh d.key input
  let d := { d with key }
  let s ← get
  let (out, ec, ws) := s.ws.inflateFrame s.db input (d.remain == 0 && d.fh.fin)
  set { s with ws, db := s.db ++ out }
  match ec with
  | some ec => d.upcall (some ec)
  | none =>
    let (valid, ws) := (← get).ws.checkText out (d.remain == 0 && d.fh.fin)
    change fun _ => ws
    if !valid then d.fail .bad_payload
    else if d.remain > 0 then d.inflatePayload1
    else
      change fun ws => ws.endInflate d.fh.fin
      d.frameDone

/-- Starts to read the compressed payload of a frame, which is inflated even if it is empty. -/
def inflatePayload (d : ReadFrameOp) : OpStep lib Unit :=
  let d := { d with remain := d.fh.len.toNat }
  if d.fh.len == 0 then d.inflatePayload2 []
  else
    let d := { d with key := prepareKey64 d.fh.key }
    d.inflatePayload1

/-- Takes the variable part of a frame header. -/
def readFh2 (d : ReadFrameOp) (more : Octets) : OpStep lib Unit := do
  let (fh, fb, code, ws) := (← get).ws.readFh2 d.fh (d.fb ++ more)
  change fun _ => ws
  let d : ReadFrameOp := { d with fh, fb }
  if code != .none then d.fail code
  else if isControl d.fh.op then
    if d.fh.len > 0 then (d.goto .do_control_payload).wait (.read d.fh.len.toNat)
    else d.control
  else
    if d.fh.op == .text || d.fh.op == .binary then change StreamBase.rdBegin
    if d.fh.len == 0 && !d.fh.fin then d.frameDone
    else if !(← get).ws.compressed then d.readPayload
    else d.inflatePayload

/-- Takes the fixed part of a frame header. -/
def readFh1 (d : ReadFrameOp) (b : Octets) : OpStep lib Unit := do
  let b := d.fb ++ b
  let (fh, n, code, ws) := (← get).ws.readFh1 d.fh (b.getD 0 0) (b.getD 1 0)
  change fun _ => ws
  let d := { d with fh, fb := b.drop 2 }
  if code != .none then d.fail code
  else if n = 0 then d.readFh2 []
  else (d.goto .do_read_fh_2).wait (.read n)

/-- Takes the payload of a control frame. -/
def controlPayload (d : ReadFrameOp) (mb : Octets) : OpStep lib Unit :=
  let (mb, key) := if d.fh.mask then maskInplace (prepareKey64 d.fh.key) mb else (mb, d.key)
  let d := { d with key, fb := d.fb ++ mb }
  d.control

/-- Starts the operation. -/
def start (d : ReadFrameOp) : OpStep lib Unit := do
  if (← get).ws.failed_ then
    (d.goto .do_call_handler).wait (.post (some .operation_aborted))
  else d.readFh

/-- Goes on where the operation was suspended and then called through the queue. -/
def posted (d : ReadFrameOp) : OpStep lib Unit := do
  match d.state with
  | .do_pong_resume_1 =>
    if (← get).ws.failed_ then d.upcall (some .operation_aborted) else d.pong
  | .do_close_resume_1 =>
    assertHeld .read
    if (← get).ws.failed_ then d.upcall (some .operation_aborted)
    else if (← get).ws.wr_close_ then d.upcall (some .closed)
    else d.close
  | .do_fail_3 =>
    if (← get).ws.failed_ then d.upcall (some .failed) else d.fail1
  | _ => d.upcall none

/-- Goes on where the operation was left, with what it waited for. -/
def call (d : ReadFrameOp) (ec : Option ErrorCode) (octets : Octets) : OpStep lib Unit :=
  let ec := if d.state = .do_teardown_1 ∧ ec = some .eof then none else ec
  match ec with
  | some ec => d.upcall (some ec)
  | none =>
    match d.state with
    | .do_start => d.start
    | .do_read_payload_2 => d.readPayload2 octets
    | .do_inflate_payload_2 => d.inflatePayload2 octets
    | .do_read_fh_1 => d.readFh1 octets
    | .do_read_fh_2 => d.readFh2 octets
    | .do_control_payload => d.controlPayload octets
    | .do_pong_resume | .do_close_resume | .do_fail_2 => d.resume
    | .do_pong_resume_1 | .do_close_resume_1 | .do_fail_3 | .do_call_handler => d.posted
    | .do_pong_1 => do
      change fun ws => { ws with wr_block_ := none }
      let d := { d with fb := [] }
      d.readFh
    | .do_teardown => d.teardown
    | .do_teardown_1 => d.upcall (some .closed)
    | .do_fail_4 => d.fail4
    | .do_fail_5 => d.upcall (some .failed)

/-- Goes on with what a read, a write or the queue reports. -/
def complete (d : ReadFrameOp) (ec : Option ErrorCode) (octets : Octets) : OpStep lib Unit := do
  if ec.isSome then change fun ws => { ws with failed_ := true }
  d.call ec octets

end ReadFrameOp

end Beast.Websocket
