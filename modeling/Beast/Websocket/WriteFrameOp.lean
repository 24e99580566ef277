import Beast.Websocket.Operations
import Beast.Websocket.WriteFrame

/-! The asynchronous operations that write: data, close frames, and pings. -/

namespace Beast.Websocket

variable {lib : Lib}

namespace WriteFrameOp

/-- The operation, to go on in another state. -/
def goto (d : WriteFrameOp) (state : WriteState) : WriteFrameOp := { d with state }

/-- Returns, to be called again. -/
def wait (d : WriteFrameOp) (w : Wait) : OpStep lib Unit :=
  WriterOp.wait (.write d) w

/-- Lets go of the lock, calls the next operation, and then the handler. -/
def upcall (_ : WriteFrameOp) (ec : Option ErrorCode) : OpStep lib Unit := do
  release .write
  let _ ← orElse maybeInvokeRd maybeInvokePing
  invoke (.write ec)

/-- Takes note of whether the message goes on. -/
def setCont (d : WriteFrameOp) : OpStep lib Unit :=
  change fun ws => ws.setCont !d.fin

/-- Draws a mask key. -/
def drawKey : OpStep lib UInt32 := do
  let (key, ws) := (← get).ws.maskgen
  change fun _ => ws
  return key

/-- Sends all data in one frame. -/
def nomaskNofrag1 (d : WriteFrameOp) : OpStep lib Unit := do
  let fh := { d.fh with fin := d.fin, len := d.cb.length.toUInt64 }
  d.setCont
  startWrite (some fh.op) (fh.write ++ d.cb)
  let d := { d with fh, fh_buf := fh.write.length }
  (d.goto .do_upcall).wait .write

/-- Sends as much data as the write buffer is large in one frame. -/
def nomaskFrag1 (d : WriteFrameOp) : OpStep lib Unit := do
  let n := min d.remain (← get).ws.wr_.buf_size
  let remain := d.remain - n
  let fh := { d.fh with len := n.toUInt64, fin := d.fin && remain == 0 }
  d.setCont
  startWrite (some fh.op) (fh.write ++ d.cb.take n)
  let d := { d with fh, fh_buf := fh.write.length, remain }
  (d.goto (if remain == 0 then .do_upcall else .do_nomask_frag_2)).wait .write

/-- Sends the front of the data in one masked frame that is to hold all of it. -/
def maskNofrag1 (d : WriteFrameOp) : OpStep lib Unit := do
  let fhKey ← drawKey
  let fh := { d.fh with fin := d.fin, len := d.cb.length.toUInt64, key := fhKey }
  let n := min d.cb.length (← get).ws.wr_.buf_size
  let (b, key) := maskInplace (prepareKey64 fhKey) (d.cb.take n)
  let remain := d.cb.length - n
  d.setCont
  startWrite (some fh.op) (fh.write ++ b)
  let d := { d with fh, fh_buf := fh.write.length, remain, key }
  (d.goto (if remain == 0 then .do_upcall else .do_mask_nofrag_2)).wait .write

/-- Sends the next piece of the data of a masked frame. -/
def maskNofrag2 (d : WriteFrameOp) : OpStep lib Unit := do
  let size := (← get).ws.wr_.buf_size
  let cb := d.cb.drop size
  let n := min d.remain size
  let (b, key) := maskInplace d.key (cb.take n)
  let remain := d.remain - n
  startWrite none b
  let d := { d with cb, remain, key }
  (d.goto (if remain == 0 then .do_upcall else .do_mask_nofrag_2)).wait .write

/-- Sends as much data as the write buffer is large in one masked frame. -/
def maskFrag1 (d : WriteFrameOp) : OpStep lib Unit := do
  let n := min d.remain (← get).ws.wr_.buf_size
  let remain := d.remain - n
  let fhKey ← drawKey
  let fh := { d.fh with len := n.toUInt64, key := fhKey, fin := d.fin && remain == 0 }
  let (b, key) := maskInplace (prepareKey64 fhKey) (d.cb.take n)
  d.setCont
  startWrite (some fh.op) (fh.write ++ b)
  let d := { d with fh, fh_buf := fh.write.length, remain, key }
  (d.goto (if remain == 0 then .do_upcall else .do_mask_frag_2)).wait .write

/-- Compresses data, and sends what that yields in one frame. -/
def deflate1 (d : WriteFrameOp) : OpStep lib Unit := do
  let (b, cb, more, ec, ws) := (← get).ws.deflate d.cb d.fin
  change fun _ => ws
  let d := { d with cb }
  if ec.isSome then d.upcall ec
  else if b.isEmpty then
    -- The data was taken, but there is no output yet.
    (d.goto .do_upcall).wait (.post none)
  else
    let (b, key) ←
      if d.fh.mask then do
        let key ← drawKey
        pure ((maskInplace (prepareKey64 key) b).1, key)
      else pure (b, d.fh.key)
    let fh := { d.fh with key, fin := !more, len := b.length.toUInt64 }
    d.setCont
    startWrite (some fh.op) (fh.write ++ b)
    let d := { d with fh }
    (d.goto (if more then .do_deflate_2 else .do_deflate_3)).wait .write

/-- Sends data, as the operation that writes. -/
def entry1 (d : WriteFrameOp) : OpStep lib Unit := do
  assertHeld .write
  match d.entry_state with
  | .do_nomask_nofrag => d.nomaskNofrag1
  | .do_nomask_frag => d.nomaskFrag1
  | .do_mask_nofrag => d.maskNofrag1
  | .do_mask_frag => d.maskFrag1
  | .do_deflate => d.deflate1

/-- Becomes the operation that writes, and sends data. -/
def entry (d : WriteFrameOp) : OpStep lib Unit := do
  assertFree
  claim .write
  d.entry1

/-- Lets control frames go first, where one is waiting, or sends the next frame. -/
def between (d : WriteFrameOp) : OpStep lib Unit := do
  if ← orElse maybeInvokeRd maybeInvokePing then
    (d.goto .do_maybe_suspend).wait (.post none)
  else d.entry

/-- Behind a frame that was sent and is not the last. -/
def frag2 (d : WriteFrameOp) : OpStep lib Unit := do
  -- What was written is the frame header and the data behind it.
  let d := { d with cb := d.cb.drop d.fh.len.toNat, fh_buf := 0, fh := { d.fh with op := .cont } }
  match d.state with
  | .do_nomask_frag_2 => release .write
  | _ =>
    assertHeld .write
    change fun ws => { ws with wr_block_ := none }
  d.between

/-- Behind a compressed frame that was sent and is not the last. -/
def deflate2 (d : WriteFrameOp) : OpStep lib Unit := do
  let d := { d with fh := { d.fh with op := .cont, rsv1 := false } }
  assertHeld .write
  change fun ws => { ws with wr_block_ := none }
  d.between

/-- Waits for the lock, or gives up, or sends data. -/
def maybeSuspend (d : WriteFrameOp) : OpStep lib Unit := do
  let ws := (← get).ws
  if ws.wr_block_.isSome then WriterOp.park (.write (d.goto .do_maybe_suspend_1))
  else if ws.failed_ || ws.wr_close_ then
    (d.goto .do_upcall).wait (.post (some .operation_aborted))
  else d.entry

/-- How the data of a frame is to be sent. -/
def chooseEntry (ws : StreamBase lib) (mask : Bool) (size : Nat) : EntryState :=
  if ws.wr_.compress then .do_deflate
  else if !mask then
    if ws.wr_.autofrag && size > ws.wr_.buf_size then .do_nomask_frag else .do_nomask_nofrag
  else if ws.wr_.autofrag && size > ws.wr_.buf_size then .do_mask_frag else .do_mask_nofrag

/-- Starts the operation. -/
def start (fin : Bool) (bs : Octets) : OpStep lib Unit := do
  let (fh, ws) := (← get).ws.beginFrame
  change fun _ => ws
  let d : WriteFrameOp :=
    { cb := bs, fin, fh, remain := bs.length
      entry_state := chooseEntry ws fh.mask bs.length }
  d.maybeSuspend

/-- Goes on where the operation was left, with what a write or the queue reports. -/
def call (d : WriteFrameOp) (ec : Option ErrorCode) : OpStep lib Unit := do
  if ec.isSome then d.upcall ec
  else match d.state with
    | .do_nomask_frag_2 | .do_mask_frag_2 => d.frag2
    | .do_mask_nofrag_2 => d.maskNofrag2
    | .do_deflate_2 => d.deflate2
    | .do_deflate_3 =>
      change fun ws => ws.endDeflate d.fh.fin
      d.upcall none
    | .do_maybe_suspend => d.maybeSuspend
    | .do_maybe_suspend_1 => WriterOp.resume (.write d)
    | .do_maybe_suspend_2 =>
      assertHeld .write
      let ws := (← get).ws
      if ws.failed_ || ws.wr_close_ then d.upcall (some .operation_aborted) else d.entry1
    | .do_upcall => d.upcall none

/-- Goes on with what a write reports. -/
def complete (d : WriteFrameOp) (ec : Option ErrorCode) : OpStep lib Unit := do
  if ec.isSome then change fun ws => { ws with failed_ := true }
  d.call ec

end WriteFrameOp

namespace CloseOp

/-- Returns, to be called again. -/
def wait (d : CloseOp) (w : Wait) : OpStep lib Unit :=
  WriterOp.wait (.close d) w

/-- Lets go of the lock, calls the next operation, and then the handler. -/
def upcall (_ : CloseOp) (ec : Option ErrorCode) : OpStep lib Unit := do
  release .close
  let _ ← orElse maybeInvokeRd maybeInvokePing
  invoke (.close ec)

/-- Sends the close frame, as the operation that writes. -/
def sendFrame (d : CloseOp) : OpStep lib Unit := do
  assertHeld .close
  change fun ws => { ws with wr_close_ := true }
  startWrite (some .close) d.fb
  wait { d with state := .state_99 } .write

/-- Waits for the lock, or gives up, or sends the close frame. -/
def begin_ (d : CloseOp) : OpStep lib Unit := do
  let ws := (← get).ws
  if ws.wr_block_.isSome then WriterOp.park (.close { d with state := .state_2 })
  else if ws.failed_ || ws.wr_close_ then d.wait (.post (some .operation_aborted))
  else
    claim .close
    d.sendFrame

/-- Starts the operation. -/
def start (cr : CloseReason) : OpStep lib Unit := do
  let (fb, ws) := (← get).ws.writeClose cr
  change fun _ => ws
  let d : CloseOp := { fb }
  d.begin_

/-- Goes on where the operation was left, with what a write or the queue reports. -/
def call (d : CloseOp) (ec : Option ErrorCode) : OpStep lib Unit := do
  if ec.isSome then d.upcall ec
  else match d.state with
    | .state_0 => d.begin_
    | .state_2 => WriterOp.resume (.close d)
    | .state_3 =>
      assertHeld .close
      let ws := (← get).ws
      if ws.failed_ || ws.wr_close_ then d.upcall (some .operation_aborted) else d.sendFrame
    | .state_99 => d.upcall none

/-- Goes on with what a write reports. -/
def complete (d : CloseOp) (ec : Option ErrorCode) : OpStep lib Unit := do
  if ec.isSome then change fun ws => { ws with failed_ := true }
  d.call ec

end CloseOp

namespace PingOp

/-- Lets go of the lock, calls the next operation, and then the handler. -/
def upcall (_ : PingOp) (ec : Option ErrorCode) : OpStep lib Unit := do
  release .ping
  let _ ← orElse maybeInvokeRd maybeInvokeWr
  invoke (.ping ec)

/-- Sends the frame, as the operation that writes. -/
def sendFrame (d : PingOp) : OpStep lib Unit := do
  assertHeld .ping
  startWrite (some d.op) d.fb
  wait { d with state := .state_99 } .write

/-- Waits for the lock, or gives up, or sends the frame. -/
def begin_ (d : PingOp) : OpStep lib Unit := do
  let ws := (← get).ws
  if ws.wr_block_.isSome then park { d with state := .state_2 }
  else if ws.failed_ || ws.wr_close_ then
    wait { d with state := .state_99 } (.post (some .operation_aborted))
  else
    claim .ping
    d.sendFrame

/-- Starts the operation, for a ping or a pong. -/
def start (op : Opcode) (payload : Octets) : OpStep lib Unit := do
  let (fb, ws) := (← get).ws.writePing op payload
  change fun _ => ws
  let d : PingOp := { op, fb }
  d.begin_

/-- Goes on where the operation was left, with what a write or the queue reports. -/
def call (d : PingOp) (ec : Option ErrorCode) : OpStep lib Unit := do
  if ec.isSome then d.upcall ec
  else match d.state with
    | .state_0 => d.begin_
    | .state_2 => d.resume
    | .state_3 =>
      assertHeld .ping
      let ws := (← get).ws
      if ws.failed_ || ws.wr_close_ then d.upcall (some .operation_aborted) else d.sendFrame
    | .state_99 => d.upcall none

/-- Goes on with what a write reports. -/
def complete (d : PingOp) (ec : Option ErrorCode) : OpStep lib Unit := do
  if ec.isSome then change fun ws => { ws with failed_ := true }
  d.call ec

end PingOp

end Beast.Websocket
