import Beast.Websocket.Mask
import Beast.Websocket.StreamBase

/-! Frame headers, and the control frames that a stream reads and writes. -/

namespace Beast.Websocket

/-- What a frame header says. -/
structure FrameHeader where
  op : Opcode := .cont
  fin : Bool := false
  mask : Bool := false
  rsv1 : Bool := false
  rsv2 : Bool := false
  rsv3 : Bool := false
  len : UInt64 := 0
  key : UInt32 := 0
  deriving DecidableEq, Repr

/-- Whether an opcode is reserved. -/
def isReserved (op : Opcode) : Bool :=
  (3 ≤ op.nibble && op.nibble ≤ 7) || (11 ≤ op.nibble && op.nibble ≤ 15)

/-- Whether an opcode is that of a control frame. -/
def isControl (op : Opcode) : Bool :=
  8 ≤ op.nibble

/-- Whether a close frame may carry a status code. -/
def isValidCloseCode (v : UInt16) : Bool :=
  if v ∈ [1000, 1001, 1002, 1003, 1007, 1008, 1009, 1010, 1011, 1012, 1013] then true
  else if v ∈ [1004, 1005, 1006, 1014, 1015] then false
  else if 1016 ≤ v && v ≤ 2999 then false
  else if v ≤ 999 then false
  else true

/-- A number in so many octets, the most significant one first. -/
def nativeToBig : Nat → Nat → Octets
  | 0, _ => []
  | n + 1, v => nativeToBig n (v / 256) ++ [UInt8.ofNat v]

/-- The number that octets stand for, the most significant one first. -/
def bigToNative (b : Octets) : Nat :=
  b.foldl (fun v c => 256 * v + c.toNat) 0

/-- A number in so many octets, the least significant one first. -/
def nativeToLittle : Nat → Nat → Octets
  | 0, _ => []
  | n + 1, v => UInt8.ofNat v :: nativeToLittle n (v / 256)

/-- The number that octets stand for, the least significant one first. -/
def littleToNative : Octets → Nat
  | [] => 0
  | c :: b => c.toNat + 256 * littleToNative b

/-- The octets of a frame header. -/
def FrameHeader.write (fh : FrameHeader) : Octets :=
  let b0 := (if fh.fin then 0x80 else 0x00) ||| UInt8.ofNat fh.op.nibble
  let b0 := if fh.rsv1 then b0 ||| 0x40 else b0
  let b0 := if fh.rsv2 then b0 ||| 0x20 else b0
  let b0 := if fh.rsv3 then b0 ||| 0x10 else b0
  let b1 : UInt8 := if fh.mask then 0x80 else 0x00
  let b :=
    if fh.len ≤ 125 then [b0, b1 ||| fh.len.toUInt8]
    else if fh.len ≤ 65535 then [b0, b1 ||| 126] ++ nativeToBig 2 fh.len.toNat
    else [b0, b1 ||| 127] ++ nativeToBig 8 fh.len.toNat
  if fh.mask then b ++ nativeToLittle 4 fh.key.toNat else b

/-- Masks a part of a payload, and turns the key to the part behind it. -/
def maskInplace (key : PreparedKey 8) (text : Octets) : Octets × PreparedKey 8 :=
  -- Where the text lies in memory makes no difference.
  maskInplaceFast 0 key text

/-- Masks the parts of a payload one after another. -/
def maskBuffers (key : PreparedKey 8) : List Octets → Octets
  | [] => []
  | b :: bs => (maskInplace key b).1 ++ maskBuffers (maskInplace key b).2 bs

variable {lib : Lib}

/-- Whether a text is a whole one for the checker. -/
def Lib.checkUtf8 (lib : Lib) (text : Octets) : Bool :=
  match lib.utf8_write lib.utf8_init text with
  | (false, _) => false
  | (true, utf8) => (lib.utf8_finish utf8).1

/-- Reads the payload of a close frame, and finds fault with it or not. -/
def readClose (lib : Lib) (cr : CloseReason) (bs : Octets) : CloseReason × CloseCode :=
  match bs with
  | [] => ({}, .none)
  | [_] => (cr, .protocol_error)
  | b0 :: b1 :: rest =>
    let cr := { cr with code := UInt16.ofNat (bigToNative [b0, b1]) }
    if !isValidCloseCode cr.code then (cr, .protocol_error)
    else if rest.length > 0 then
      let cr := { cr with reason := rest }
      if !lib.checkUtf8 rest then (cr, .protocol_error) else (cr, .none)
    else ({ cr with reason := [] }, .none)

/-- Takes the fixed part of a header apart, and tells how many octets belong to the rest. -/
def FrameHeader.readFixed (fh : FrameHeader) (b0 b1 : UInt8) : FrameHeader × Nat :=
  let len := b1 &&& 0x7f
  let need := if len == 126 then 2 else if len == 127 then 8 else 0
  let mask := b1 &&& 0x80 != 0
  let need := if mask then need + 4 else need
  ({ fh with
    len := len.toUInt64
    mask
    op := .ofNibble (b0 &&& 0x0f).toNat
    fin := b0 &&& 0x80 != 0
    rsv1 := b0 &&& 0x40 != 0
    rsv2 := b0 &&& 0x20 != 0
    rsv3 := b0 &&& 0x10 != 0 }, need)

namespace StreamBase

/-- Draws a mask key. -/
def maskgen (ws : StreamBase lib) : UInt32 × StreamBase lib :=
  (ws.maskgen_ 0, { ws with maskgen_ := fun n => ws.maskgen_ (n + 1) })

/-- Reads the fixed part of a frame header: what is still needed of it, or the fault with it. -/
def readFh1 (ws : StreamBase lib) (fh : FrameHeader) (b0 b1 : UInt8) :
    FrameHeader × Nat × CloseCode × StreamBase lib :=
  let (fh, need) := fh.readFixed b0 b1
  let err := (fh, 0, CloseCode.protocol_error, ws)
  let masking (ws : StreamBase lib) :=
    -- Frames are masked from a client, and only those.
    if ws.role_ == .server && !fh.mask then (fh, 0, CloseCode.protocol_error, ws)
    else if ws.role_ == .client && fh.mask then (fh, 0, CloseCode.protocol_error, ws)
    else (fh, need, CloseCode.none, ws)
  match fh.op with
  | .binary | .text =>
    -- A new data frame comes when no continuation is expected.
    if ws.rd_.cont then err
    else if (fh.rsv1 && ws.pmd_.isNone) || fh.rsv2 || fh.rsv3 then err
    else masking { ws with pmd_ := ws.pmd_.map fun pmd => { pmd with rd_set := fh.rsv1 } }
  | .cont =>
    if !ws.rd_.cont then err
    else if fh.rsv1 || fh.rsv2 || fh.rsv3 then err
    else masking ws
  | _ =>
    if isReserved fh.op then err
    else if !fh.fin then err
    else if fh.len > 125 then err
    else if fh.rsv1 || fh.rsv2 || fh.rsv3 then err
    else masking ws

/-- Reads the length that follows the fixed part, or finds it longer than it need be. -/
def readLength (fh : FrameHeader) (db : Octets) : FrameHeader × Octets × CloseCode :=
  if fh.len == 126 then
    let len := UInt64.ofNat (bigToNative (db.take 2))
    ({ fh with len }, db.drop 2, if len < 126 then .protocol_error else .none)
  else if fh.len == 127 then
    let len := UInt64.ofNat (bigToNative (db.take 8))
    ({ fh with len }, db.drop 8, if len < 65536 then .protocol_error else .none)
  else (fh, db, .none)

/-- Reads the variable part of a frame header, and takes note of a data frame. -/
def readFh2 (ws : StreamBase lib) (fh : FrameHeader) (db : Octets) :
    FrameHeader × Octets × CloseCode × StreamBase lib :=
  let (fh, db, code) := readLength fh db
  if code != .none then (fh, db, code, ws)
  else
    let (fh, db) :=
      if fh.mask then ({ fh with key := UInt32.ofNat (littleToNative (db.take 4)) }, db.drop 4)
      else ({ fh with key := 0 }, db)
    if isControl fh.op then (fh, db, .none, ws)
    else if fh.op != .cont then
      let rd := { ws.rd_ with size := 0, op := fh.op, cont := !fh.fin }
      (fh, db, .none, { ws with rd_ := rd })
    else if ws.rd_.size > 0xffffffffffffffff - fh.len then (fh, db, .too_big, ws)
    else (fh, db, .none, { ws with rd_ := { ws.rd_ with cont := !fh.fin } })

/-- Called before receiving the first frame of each message. -/
def rdBegin (ws : StreamBase lib) : StreamBase lib :=
  if ws.pmd_.isSome && (!ws.rd_.buf || ws.rd_.buf_size != ws.rd_buf_size_) then
    { ws with rd_ := { ws.rd_ with buf_size := ws.rd_buf_size_, buf := true } }
  else ws

/-- Called before sending the first frame of each message. -/
def wrBegin (ws : StreamBase lib) : StreamBase lib :=
  let wr := { ws.wr_ with autofrag := ws.wr_autofrag_, compress := ws.pmd_.isSome }
  let wr :=
    if wr.compress || ws.role_ == .client then
      if !wr.buf || wr.buf_size != ws.wr_buf_size_ then
        { wr with buf_size := ws.wr_buf_size_, buf := true }
      else wr
    else { wr with buf_size := ws.wr_buf_size_, buf := false }
  { ws with wr_ := wr }

/-- A whole control frame, with a payload in parts, masked in the role of a client. -/
def writeControl (ws : StreamBase lib) (op : Opcode) (payload : List Octets) :
    Octets × StreamBase lib :=
  let fh : FrameHeader :=
    { op, fin := true, len := payload.flatten.length.toUInt64, mask := ws.role_ == .client }
  if fh.mask then
    let (key, ws) := ws.maskgen
    let fh := { fh with key }
    (fh.write ++ maskBuffers (prepareKey64 key) payload, ws)
  else (fh.write ++ payload.flatten, ws)

/-- A close frame, which is empty where no status code is given. -/
def writeClose (ws : StreamBase lib) (cr : CloseReason) : Octets × StreamBase lib :=
  ws.writeControl .close (if cr.code == 0 then [] else [nativeToBig 2 cr.code.toNat, cr.reason])

/-- A ping or pong frame. -/
def writePing (ws : StreamBase lib) (op : Opcode) (data : Octets) : Octets × StreamBase lib :=
  ws.writeControl op [data]

end StreamBase

end Beast.Websocket
