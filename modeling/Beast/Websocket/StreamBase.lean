import Beast.Websocket.PmdExtension
import Beast.Websocket.Rfc6455

/-! The state that the operations of one stream share. -/

namespace Beast.Websocket

/-- The code that a stream passes message data through. -/
structure Lib where
  /-- The state of a checker for UTF-8 text. -/
  Utf8 : Type
  utf8_init : Utf8
  utf8_reset : Utf8 → Utf8
  utf8_write : Utf8 → Octets → Bool × Utf8
  utf8_finish : Utf8 → Bool × Utf8
  /-- The state of a decompressor, its window size apart. -/
  Inflate : Type
  inflate_init : Inflate
  /-- Appends to the octets already there, from a piece of compressed input. -/
  inflate : Int → Inflate → Octets → Octets → Inflate × Octets × Option ErrorCode
  /-- The state of a compressor, its settings apart. -/
  Deflate : Type
  deflate_init : Deflate
  /--
  Takes data into a buffer of some capacity, and flushes where the data ends the message.

  What comes back: the compressed octets, the data left, and whether there is more to come.
  -/
  deflate : Int → Int → Int → Deflate → Nat → Octets → Bool →
    Deflate × Octets × Octets × Bool × Option ErrorCode

/-- A decompressor with the window it was reset to. -/
structure InflateStream (lib : Lib) where
  windowBits : Int
  state : lib.Inflate

/-- Puts a decompressor into its first state, with a given window. -/
def InflateStream.reset (lib : Lib) (windowBits : Int) : InflateStream lib :=
  { windowBits, state := lib.inflate_init }

/-- A compressor with the settings it was reset to. -/
structure DeflateStream (lib : Lib) where
  level_ : Int
  w_bits_ : Int
  memLevel : Int
  state : lib.Deflate

/-- Puts a compressor into its first state, where a window of 8 bits becomes one of 9. -/
def DeflateStream.reset (lib : Lib) (level windowBits memLevel : Int) : DeflateStream lib :=
  { level_ := level
    w_bits_ := if windowBits == 8 then 9 else windowBits
    memLevel
    state := lib.deflate_init }

/-- The compression of a session. -/
structure Pmd (lib : Lib) where
  /-- Whether the message being read is compressed. -/
  rd_set : Bool
  zo : DeflateStream lib
  zi : InflateStream lib

/-- The message being received. -/
structure Rd (lib : Lib) where
  op : Opcode := .text
  /-- Whether the next frame is a continuation. -/
  cont : Bool := false
  utf8 : lib.Utf8 := lib.utf8_init
  /-- The size of the message so far. -/
  size : UInt64 := 0
  buf_size : Nat := 0
  /-- Whether the read buffer is allocated. -/
  buf : Bool := false

/-- The message being sent. -/
structure Wr where
  /-- Whether the next frame is a continuation. -/
  cont : Bool := false
  autofrag : Bool := true
  compress : Bool := false
  buf_size : Nat := 0
  /-- Whether the write buffer is allocated. -/
  buf : Bool := false
  deriving DecidableEq, Repr

/-- The operations that may hold the right to write. -/
inductive Op
  | read | write | close | ping
  deriving DecidableEq, Repr

/-- The state of one stream, its options included. -/
structure StreamBase (lib : Lib) where
  /-- The mask keys still to be drawn. -/
  maskgen_ : Nat → UInt32 := fun _ => 1
  rd_msg_max_ : UInt64 := 16 * 1024 * 1024
  wr_autofrag_ : Bool := true
  wr_buf_size_ : Nat := 4096
  rd_buf_size_ : Nat := 4096
  wr_opcode_ : Opcode := .text
  role_ : RoleType := .server
  failed_ : Bool := false
  /-- Whether a close frame was sent. -/
  wr_close_ : Bool := false
  /-- The operation that is writing. -/
  wr_block_ : Option Op := none
  /-- What the last close frame received said. -/
  cr_ : CloseReason := {}
  rd_ : Rd lib := {}
  wr_ : Wr := {}
  pmd_ : Option (Pmd lib) := none
  pmd_opts_ : PermessageDeflate := {}
  /-- The offer of a client, or what a server negotiated. -/
  pmd_config_ : PmdOffer := {}

variable {lib : Lib}

namespace StreamBase

/-- Returns the stream to its state between sessions. -/
def reset (ws : StreamBase lib) : StreamBase lib :=
  { ws with
    failed_ := false
    rd_ := { ws.rd_ with cont := false }
    wr_close_ := false
    wr_ := { ws.wr_ with cont := false }
    wr_block_ := none }

/-- Opens a session, with compression where the options and the negotiation ask for it. -/
def open_ (ws : StreamBase lib) (role : RoleType) : StreamBase lib :=
  let ws := { ws with
    role_ := role
    failed_ := false
    rd_ := { ws.rd_ with cont := false }
    wr_close_ := false
    wr_block_ := none
    wr_ := { ws.wr_ with cont := false, buf_size := 0 } }
  if ((role == .client && ws.pmd_opts_.client_enable) ||
      (role == .server && ws.pmd_opts_.server_enable)) && ws.pmd_config_.accept then
    let config := pmdNormalize ws.pmd_config_
    let opts := ws.pmd_opts_
    let pmd : Pmd lib :=
      match role with
      | .client =>
        { rd_set := false
          zi := .reset lib config.server_max_window_bits
          zo := .reset lib opts.compLevel config.client_max_window_bits opts.memLevel }
      | .server =>
        { rd_set := false
          zi := .reset lib config.client_max_window_bits
          zo := .reset lib opts.compLevel config.server_max_window_bits opts.memLevel }
    { ws with pmd_config_ := config, pmd_ := some pmd }
  else ws

end StreamBase

end Beast.Websocket
