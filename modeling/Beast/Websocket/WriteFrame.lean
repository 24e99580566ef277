import Beast.Websocket.ReadFrame

/-! Writing the data of one frame, each call waiting for the stream below. -/

namespace Beast.Websocket

variable {lib : Lib}

namespace StreamBase

/-- Starts the data of a message, or goes on with it: what its frame headers have in common. -/
def beginFrame (ws : StreamBase lib) : FrameHeader × StreamBase lib :=
  let ws' := if ws.wr_.cont then ws else ws.wrBegin
  ({ op := if ws'.wr_.cont then .cont else ws'.wr_opcode_
     rsv1 := !ws.wr_.cont && ws'.wr_.compress
     mask := ws'.role_ == .client }, ws')

/-- Takes note of whether the message goes on. -/
def setCont (ws : StreamBase lib) (cont : Bool) : StreamBase lib :=
  { ws with wr_ := { ws.wr_ with cont } }

/-- Compresses data: the octets, the data left, and whether there is more to come. -/
def deflate (ws : StreamBase lib) (cb : Octets) (fin : Bool) :
    Octets × Octets × Bool × Option ErrorCode × StreamBase lib :=
  match ws.pmd_ with
  | none => ([], cb, false, none, ws)
  | some pmd =>
    let (state, out, cb, more, ec) := lib.deflate pmd.zo.level_ pmd.zo.w_bits_ pmd.zo.memLevel
      pmd.zo.state ws.wr_.buf_size cb fin
    (out, cb, more, ec, { ws with
      pmd_ := some { pmd with zo := { pmd.zo with state } }
      failed_ := ec.isSome })

/-- Forgets the window of the compressor behind a message, where that was agreed on. -/
def endDeflate (ws : StreamBase lib) (fin : Bool) : StreamBase lib :=
  if fin && ((ws.role_ == .client && ws.pmd_config_.client_no_context_takeover) ||
      (ws.role_ == .server && ws.pmd_config_.server_no_context_takeover)) then
    { ws with pmd_ := ws.pmd_.map fun pmd =>
        { pmd with zo := { pmd.zo with state := lib.deflate_init } } }
  else ws

end StreamBase

/-- A step in writing a frame. -/
abbrev WriteStep (lib : Lib) := Step ErrorCode (Conn lib)

/-- Changes the stream. -/
def onSender (f : StreamBase lib → StreamBase lib) : WriteStep lib Unit :=
  modify fun c => { c with ws := f c.ws }

/-- Draws a mask key. -/
def drawKey : WriteStep lib UInt32 := do
  let (key, ws) := (← get).ws.maskgen
  onSender fun _ => ws
  return key

/-- Writes octets, and stops where that fails. -/
def send (s : Octets) : WriteStep lib Unit := do
  let (ec, layer) := (← get).layer.write s
  modify fun c => { c with layer, ws := { c.ws with failed_ := ec.isSome } }
  match ec with
  | none => return
  | some ec => Step.stop ec

/-- Sends compressed data, frame by frame. -/
def deflateLoop (fin : Bool) : Nat → FrameHeader → Octets → WriteStep lib FrameHeader
  | 0, fh, _ => return fh
  | fuel + 1, fh, cb => do
    let (b, cb, more, ec, ws) := (← get).ws.deflate cb fin
    onSender fun _ => ws
    if let some ec := ec then Step.stop ec
    if b.isEmpty then
      -- The data was taken, but there is no output yet.
      return { fh with fin := false }
    let (b, key) ←
      if fh.mask then do
        let key ← drawKey
        pure ((maskInplace (prepareKey64 key) b).1, key)
      else pure (b, fh.key)
    let fh := { fh with key, fin := !more, len := b.length.toUInt64 }
    onSender fun ws => ws.setCont !fin
    send (fh.write ++ b)
    if !more then return fh
    deflateLoop fin fuel { fh with op := .cont, rsv1 := false } cb

/-- Sends data that is not masked, in frames of the size of the write buffer. -/
def nomaskFragLoop (fin : Bool) : Nat → FrameHeader → Octets → WriteStep lib Unit
  | 0, _, _ => return
  | fuel + 1, fh, cb => do
    let n := min cb.length (← get).ws.wr_.buf_size
    let rest := cb.drop n
    let fh := { fh with len := n.toUInt64, fin := fin && rest.isEmpty }
    onSender fun ws => ws.setCont !fin
    send (fh.write ++ cb.take n)
    if rest.isEmpty then return
    nomaskFragLoop fin fuel { fh with op := .cont } rest

/-- Sends the rest of a masked frame, in pieces of the size of the write buffer. -/
def maskRestLoop : Nat → PreparedKey 8 → Octets → WriteStep lib Unit
  | 0, _, _ => return
  | fuel + 1, key, cb => do
    if cb.isEmpty then return
    let n := min cb.length (← get).ws.wr_.buf_size
    let (b, key) := maskInplace key (cb.take n)
    send b
    maskRestLoop fuel key (cb.drop n)

/-- Sends masked data, in frames of the size of the write buffer. -/
def maskFragLoop (fin : Bool) : Nat → FrameHeader → Octets → WriteStep lib Unit
  | 0, _, _ => return
  | fuel + 1, fh, cb => do
    let key ← drawKey
    let n := min cb.length (← get).ws.wr_.buf_size
    let b := (maskInplace (prepareKey64 key) (cb.take n)).1
    let rest := cb.drop n
    let fh := { fh with key, len := n.toUInt64, fin := fin && rest.isEmpty }
    onSender fun ws => ws.setCont !fh.fin
    send (fh.write ++ b)
    if rest.isEmpty then return
    maskFragLoop fin fuel { fh with op := .cont } rest

/-- Writes the data of one frame, which may end its message. -/
def writeFrame (fin : Bool) (buffers : Octets) : WriteStep lib Unit := do
  let (fh, ws) := (← get).ws.beginFrame
  onSender fun _ => ws
  if ws.wr_.compress then
    let fh ← deflateLoop fin (buffers.length + ws.wr_.buf_size + 1) fh buffers
    onSender fun ws => ws.endDeflate fh.fin
  else if !fh.mask then
    if !ws.wr_.autofrag then
      let fh := { fh with fin, len := buffers.length.toUInt64 }
      onSender fun ws => ws.setCont !fin
      send (fh.write ++ buffers)
    else nomaskFragLoop fin (buffers.length + 1) fh buffers
  else if !ws.wr_.autofrag then
    let key ← drawKey
    let fh := { fh with key, fin, len := buffers.length.toUInt64 }
    let n := min buffers.length ws.wr_.buf_size
    let (b, key) := maskInplace (prepareKey64 key) (buffers.take n)
    onSender fun ws => ws.setCont !fin
    send (fh.write ++ b)
    maskRestLoop buffers.length key (buffers.drop n)
  else maskFragLoop fin (buffers.length + 1) fh buffers

end Beast.Websocket
