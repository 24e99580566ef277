import Beast.Lib.Step
import Beast.Websocket.Frame
import Beast.Websocket.NextLayer

/-! Reading frames and messages, each call waiting for the stream below. -/

namespace Beast.Websocket

/-- What a frame that was read tells its reader. -/
structure FrameInfo where
  op : Opcode := .cont
  fin : Bool := false
  deriving DecidableEq, Repr

variable {lib : Lib}

namespace StreamBase

/-- Checks a piece of a text message, and that the message is whole where this is the last. -/
def checkText (ws : StreamBase lib) (pb : Octets) (last : Bool) : Bool × StreamBase lib :=
  if ws.rd_.op != .text then (true, ws)
  else match lib.utf8_write ws.rd_.utf8 pb with
    | (false, utf8) => (false, { ws with rd_ := { ws.rd_ with utf8 } })
    | (true, utf8) =>
      if last then
        let (whole, utf8) := lib.utf8_finish utf8
        (whole, { ws with rd_ := { ws.rd_ with utf8 } })
      else (true, { ws with rd_ := { ws.rd_ with utf8 } })

/-- Decompresses a piece of a message: the octets it yields, and what the decompressor reports. -/
def inflate (ws : StreamBase lib) (db : Octets) (input : Octets) :
    Octets × Option ErrorCode × StreamBase lib :=
  match ws.pmd_ with
  | none => ([], none, ws)
  | some pmd =>
    let (state, out, ec) := lib.inflate pmd.zi.windowBits pmd.zi.state db input
    (out, ec, { ws with
      pmd_ := some { pmd with zi := { pmd.zi with state } }
      failed_ := ec.isSome })

/-- Decompresses a piece of a message, and the end of it where this is the last. -/
def inflateFrame (ws : StreamBase lib) (db : Octets) (input : Octets) (last : Bool) :
    Octets × Option ErrorCode × StreamBase lib :=
  match ws.inflate db input with
  | (out, some ec, ws) => (out, some ec, ws)
  | (out, none, ws) =>
    if last then
      let (more, ec, ws) := ws.inflate (db ++ out) [0x00, 0x00, 0xff, 0xff]
      (out ++ more, ec, ws)
    else (out, none, ws)

/-- Forgets the window of the decompressor behind a message, where that was agreed on. -/
def endInflate (ws : StreamBase lib) (fin : Bool) : StreamBase lib :=
  if fin && ((ws.role_ == .client && ws.pmd_config_.server_no_context_takeover) ||
      (ws.role_ == .server && ws.pmd_config_.client_no_context_takeover)) then
    { ws with pmd_ := ws.pmd_.map fun pmd => { pmd with zi := .reset lib pmd.zi.windowBits } }
  else ws

/-- Whether the message being read is compressed. -/
def compressed (ws : StreamBase lib) : Bool :=
  match ws.pmd_ with
  | none => false
  | some pmd => pmd.rd_set

/-- Whether a frame would bring the message over the size limit. -/
def exceeds (ws : StreamBase lib) (len : UInt64) : Bool :=
  ws.rd_msg_max_ != 0 && len > ws.rd_msg_max_ - ws.rd_.size

/-- Adds a frame to the size of the message. -/
def grow (ws : StreamBase lib) (len : UInt64) : StreamBase lib :=
  { ws with rd_ := { ws.rd_ with size := ws.rd_.size + len } }

/-- The close frame that answers one that was received. -/
def replyClose (ws : StreamBase lib) : Octets × StreamBase lib :=
  ws.writeClose { code := if ws.cr_.code == 0 then 1000 else ws.cr_.code }

end StreamBase

/-- A mask key that a payload is taken off with, piece by piece. -/
def unmask (fh : FrameHeader) (key : PreparedKey 8) (pb : Octets) : Octets × PreparedKey 8 :=
  if fh.mask then maskInplace key pb else (pb, key)

/-- A stream with the one below it, and the buffer of its reader. -/
structure Conn (lib : Lib) where
  ws : StreamBase lib
  layer : NextLayer
  db : Octets := []

/-- Why reading a frame is left before its end. -/
inductive Leave
  | done (ec : ErrorCode)
  /-- The connection is to be closed, or failed with a code. -/
  | doClose (code : CloseCode)
  deriving DecidableEq, Repr

/-- A step in reading a frame. -/
abbrev ReadStep (lib : Lib) := Step Leave (Conn lib)

/-- Changes the stream. -/
def onStream (f : StreamBase lib → StreamBase lib) : ReadStep lib Unit :=
  modify fun c => { c with ws := f c.ws }

/-- Goes on with what the stream below reports, or leaves. -/
def report {α : Type} (a : α) (ec : Option ErrorCode) : ReadStep lib α := do
  onStream fun ws => { ws with failed_ := ec.isSome }
  match ec with
  | none => return a
  | some ec => Step.stop (.done ec)

/-- Reads so many octets. -/
def readAll (n : Nat) : ReadStep lib Octets := do
  let (s, ec, layer) := (← get).layer.read n
  modify fun c => { c with layer }
  report s ec

/-- Reads some octets. -/
def readSome (n : Nat) : ReadStep lib Octets := do
  let (s, ec, layer) := (← get).layer.readSome n
  modify fun c => { c with layer }
  report s ec

/-- Writes octets. -/
def writeAll (s : Octets) : ReadStep lib Unit := do
  let (ec, layer) := (← get).layer.write s
  modify fun c => { c with layer }
  report () ec

/-- Leaves with a code, if there is one. -/
def closeOn (code : CloseCode) : ReadStep lib Unit :=
  if code != .none then Step.stop (.doClose code) else pure ()

/-- Reads a frame header. -/
def readHeader : ReadStep lib (FrameHeader × Octets) := do
  let b ← readAll 2
  let (fh, n, code, ws) := (← get).ws.readFh1 {} (b.getD 0 0) (b.getD 1 0)
  onStream fun _ => ws
  closeOn code
  let fb ← if n > 0 then readAll n else pure []
  let (fh, fb, code, ws) := (← get).ws.readFh2 fh fb
  onStream fun _ => { ws with failed_ := false }
  closeOn code
  return (fh, fb)

/-- Reads the payload of a control frame. -/
def readControl (fh : FrameHeader) (fb : Octets) : ReadStep lib Octets :=
  if fh.len > 0 then do
    let mb ← readAll fh.len.toNat
    return fb ++ (unmask fh (prepareKey64 fh.key) mb).1
  else return fb

/-- Processes a control frame. -/
def processControl (fh : FrameHeader) (fb : Octets) : ReadStep lib Unit := do
  if fh.op == .ping then
    let (pong, ws) := (← get).ws.writePing .pong fb
    onStream fun _ => ws
    writeAll pong
  else if fh.op == .pong then return
  else
    let (cr, code) := readClose lib (← get).ws.cr_ fb
    onStream fun ws => { ws with cr_ := cr }
    closeOn code
    if !(← get).ws.wr_close_ then
      onStream fun ws => { ws with wr_close_ := true }
      let (frame, ws) := (← get).ws.replyClose
      onStream fun _ => ws
      writeAll frame
    Step.stop (.doClose .none)

/-- Leaves where a piece of a text message is not one. -/
def checkPiece (pb : Octets) (last : Bool) : ReadStep lib Unit := do
  let (valid, ws) := (← get).ws.checkText pb last
  onStream fun _ => ws
  if !valid then Step.stop (.doClose .bad_payload)

/-- The loop over the payload of a frame, which takes at least one octet each time. -/
def payloadLoop (fh : FrameHeader) : Nat → Nat → PreparedKey 8 → ReadStep lib Unit
  | 0, _, _ => return
  | fuel + 1, remain, key =>
    if remain = 0 then return
    else do
      let pb ← readSome remain
      let remain := remain - pb.length
      let (pb, key) := unmask fh key pb
      checkPiece pb (remain == 0 && fh.fin)
      modify fun c => { c with db := c.db ++ pb }
      payloadLoop fh fuel remain key

/-- The loop over the compressed payload of a frame, which takes at least one octet each time. -/
def inflateLoop (fh : FrameHeader) : Nat → Nat → PreparedKey 8 → ReadStep lib Unit
  | 0, _, _ => Step.stop (.done .eof)
  | fuel + 1, remain, key => do
    let input ← readSome (min remain (← get).ws.rd_.buf_size)
    let remain := remain - input.length
    let (input, key) := unmask fh key input
    let c ← get
    let (out, ec, ws) := c.ws.inflateFrame c.db input (remain == 0 && fh.fin)
    set { c with ws, db := c.db ++ out }
    match ec with
    | some ec => Step.stop (.done ec)
    | none =>
      checkPiece out (remain == 0 && fh.fin)
      if remain = 0 then return
      else inflateLoop fh fuel remain key

/-- Reads the payload of a frame that is not compressed. -/
def readPayload (fh : FrameHeader) : ReadStep lib Unit := do
  if (← get).ws.exceeds fh.len then Step.stop (.doClose .too_big)
  onStream fun ws => ws.grow fh.len
  payloadLoop fh fh.len.toNat fh.len.toNat (prepareKey64 fh.key)

/-- Reads the compressed payload of a frame. -/
def readInflated (fh : FrameHeader) : ReadStep lib Unit := do
  inflateLoop fh (fh.len.toNat + 1) fh.len.toNat (prepareKey64 fh.key)
  onStream fun ws => ws.endInflate fh.fin

/-- Takes a data frame, and tells of it unless it is an empty one that is not the last. -/
def processData (fh : FrameHeader) : ReadStep lib (Option FrameInfo) := do
  if fh.op != .cont then onStream StreamBase.rdBegin
  if fh.len == 0 && !fh.fin then return none
  else
    if (← get).ws.compressed then readInflated fh else readPayload fh
    return some { op := (← get).ws.rd_.op, fin := fh.fin }

/-- One turn of the loop over frames, which tells of a frame that carries data. -/
def frameStep : ReadStep lib (Option FrameInfo) := do
  let (fh, fb) ← readHeader
  if isControl fh.op then
    let fb ← readControl fh fb
    processControl fh fb
    return none
  else processData fh

/-- The loop over frames, up to the first that carries data, which takes at least two octets. -/
def frameLoop : Nat → ReadStep lib FrameInfo
  | 0 => Step.stop (.done .eof)
  | fuel + 1 => do
    match ← frameStep with
    | none => frameLoop fuel
    | some fi => return fi

/-- Closes the connection, and takes the end of the stream for success. -/
def callTeardown (layer : NextLayer) : Option ErrorCode :=
  if layer.teardown = some .eof then none else layer.teardown

/-- Fails the connection with a code, or closes it. -/
def doClose (code : CloseCode) (c : Conn lib) : ErrorCode × Conn lib :=
  if code != .none then
    let wrote : Option ErrorCode × Conn lib :=
      if !c.ws.wr_close_ then
        let (frame, ws) := { c.ws with wr_close_ := true }.writeClose { code := code.toUInt16 }
        let (ec, layer) := c.layer.write frame
        (ec, { c with ws := { ws with failed_ := ec.isSome }, layer })
      else (none, c)
    match wrote with
    | (some ec, c) => (ec, c)
    | (none, c) =>
      let c := { c with ws := { c.ws with failed_ := true } }
      match callTeardown c.layer with
      | some ec => (ec, c)
      | none => (.failed, c)
  else
    let c := { c with ws := { c.ws with failed_ := true } }
    match callTeardown c.layer with
    | some ec => (ec, c)
    | none => (.closed, c)

/-- Reads the next frame that carries data, and answers control frames in front of it. -/
def readFrame (c : Conn lib) : Except ErrorCode FrameInfo × Conn lib :=
  match Step.run (frameLoop (c.layer.left + 1)) c with
  | (.ok fi, c) => (.ok fi, c)
  | (.error (.done ec), c) => (.error ec, c)
  | (.error (.doClose code), c) =>
    let (ec, c) := doClose code c
    (.error ec, c)

/-- The loop over the frames of a message. -/
def messageLoop : Nat → Conn lib → Except ErrorCode Opcode × Conn lib
  | 0, c => (.error .eof, c)
  | fuel + 1, c =>
    match readFrame c with
    | (.error ec, c) => (.error ec, c)
    | (.ok fi, c) => if fi.fin then (.ok fi.op, c) else messageLoop fuel c

/-- Reads a message as a whole. -/
def readMessage (c : Conn lib) : Except ErrorCode Opcode × Conn lib :=
  messageLoop (c.layer.left + 1) c

end Beast.Websocket
