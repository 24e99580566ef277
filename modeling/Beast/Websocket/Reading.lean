import Beast.Lib.Run
import Beast.Websocket.ReadFrame
import Mathlib.Tactic.Ring

/-! The reading of messages, as both readers do it: what they agree on from frame to frame. -/

namespace Beast.Websocket

/-- How far the reading of a frame has come. -/
inductive Phase
  /-- No frame is being read. -/
  | idle
  /-- A frame header is awaited, or a control frame is being answered. -/
  | header
  /-- The fixed part of the header of a data frame was accepted. -/
  | rest (fh : FrameHeader)
  /-- The whole header of a data frame was accepted. -/
  | data (fh : FrameHeader)
  | payload (fh : FrameHeader) (remain : Nat)
  | inflate (fh : FrameHeader) (remain : Nat)
  /-- The frame was read, and it may have been the last of its message. -/
  | done (fin : Bool)
  /-- The reading of the frame can only end with an error. -/
  | leaving
  deriving DecidableEq, Repr

/-- What reading depends on and changes. -/
structure Reading (lib : Lib) where
  phase : Phase
  op : Opcode
  /-- Whether the next frame is a continuation. -/
  cont : Bool
  utf8 : lib.Utf8
  size : UInt64
  max : UInt64
  compressed : Bool
  /-- What was delivered of the message. -/
  payload : Octets
  /-- Whether the last frame was not read to its end, or the session is a new one. -/
  interrupted : Bool

variable {lib : Lib}

namespace Reading

/-- Checks a piece of a text message, and that the message is whole where this is the last. -/
def check (a : Reading lib) (pb : Octets) (last : Bool) : Bool × lib.Utf8 :=
  if a.op != .text then (true, a.utf8)
  else match lib.utf8_write a.utf8 pb with
    | (false, utf8) => (false, utf8)
    | (true, utf8) => if last then lib.utf8_finish utf8 else (true, utf8)

/-- Whether a frame would bring the message over the size limit. -/
def exceeds (a : Reading lib) (len : UInt64) : Bool :=
  a.max != 0 && len > a.max - a.size

/-- The phase behind a piece of a payload. -/
def behind (fin : Bool) (remain : Nat) (phase : Nat → Phase) : Phase :=
  if remain = 0 then .done fin else phase remain

/-- Forgets a message that came to its end. -/
def turn (a : Reading lib) : Reading lib :=
  { a with payload := if a.cont then a.payload else [] }

/-- A condition on the fixed parts of the headers of data frames. -/
abbrev Guard (lib : Lib) := Reading lib → FrameHeader → Bool → Prop

/-- What may happen in reading, where the headers of data frames meet a condition. -/
inductive Move (ok : Guard lib) : Reading lib → Reading lib → Prop
  /-- The fixed part of a header is accepted: a first frame, or a continuation of a message. -/
  | fixed {a : Reading lib} {fh : FrameHeader} {compressed : Bool} :
      a.phase = .header → isControl fh.op = false → (fh.op ≠ .cont → a.cont = false) →
      (fh.op = .cont → a.cont = true ∧ compressed = a.compressed) → ok a fh compressed →
      Move ok a { a with phase := .rest fh, compressed }
  /-- The header of a first frame is refused behind its reserved bits. -/
  | unmasked {a : Reading lib} {compressed : Bool} : a.phase = .header → a.cont = false →
      Move ok a { a with phase := .leaving, compressed }
  | first {a : Reading lib} {fh fh' : FrameHeader} : a.phase = .rest fh → fh'.op = fh.op →
      fh'.fin = fh.fin → (fh'.len = 0 → fh.len = 0) → fh.op ≠ .cont →
      Move ok a { a with phase := .data fh', op := fh.op, cont := !fh.fin, size := 0 }
  | more {a : Reading lib} {fh fh' : FrameHeader} : a.phase = .rest fh → fh'.op = fh.op →
      fh'.fin = fh.fin → (fh'.len = 0 → fh.len = 0) → fh.op = .cont →
      a.size.toNat + fh'.len.toNat < 2 ^ 64 →
      Move ok a { a with phase := .data fh', cont := !fh.fin }
  /-- An empty frame is passed over, the last one too where the message is not compressed. -/
  | empty {a : Reading lib} {fh : FrameHeader} : a.phase = .data fh → fh.len = 0 →
      (fh.fin = true → a.compressed = false) → Move ok a { a with phase := .done fh.fin }
  | grow {a : Reading lib} {fh : FrameHeader} : a.phase = .data fh → a.compressed = false →
      fh.len ≠ 0 → a.exceeds fh.len = false →
      Move ok a { a with phase := .payload fh fh.len.toNat, size := a.size + fh.len }
  | inflating {a : Reading lib} {fh : FrameHeader} : a.phase = .data fh → a.compressed = true →
      Move ok a { a with phase := .inflate fh fh.len.toNat }
  | piece {a : Reading lib} {fh : FrameHeader} {remain : Nat} {pb : Octets} {utf8 : lib.Utf8} :
      a.phase = .payload fh remain → pb.length ≤ remain →
      a.check pb (remain - pb.length == 0 && fh.fin) = (true, utf8) →
      Move ok a { a with
        phase := behind fh.fin (remain - pb.length) (.payload fh)
        utf8
        payload := a.payload ++ pb }
  | inflated {a : Reading lib} {fh : FrameHeader} {remain left : Nat} {out : Octets}
      {utf8 : lib.Utf8} : a.phase = .inflate fh remain →
      a.check out (left == 0 && fh.fin) = (true, utf8) →
      Move ok a { a with
        phase := behind fh.fin left (.inflate fh)
        utf8
        payload := a.payload ++ out }
  /-- A piece of text is refused. -/
  | refuse {a : Reading lib} {fh : FrameHeader} {remain : Nat} {pb : Octets} {last : Bool}
      {utf8 : lib.Utf8} : a.phase = .payload fh remain → a.check pb last = (false, utf8) →
      Move ok a { a with phase := .leaving, utf8 }
  | refuseInflated {a : Reading lib} {fh : FrameHeader} {remain : Nat} {pb : Octets} {last : Bool}
      {utf8 : lib.Utf8} : a.phase = .inflate fh remain → a.check pb last = (false, utf8) →
      Move ok a { a with phase := .leaving, utf8, payload := a.payload ++ pb }
  /-- The decompressor fails behind some output. -/
  | spoil {a : Reading lib} {fh : FrameHeader} {remain : Nat} {out : Octets} :
      a.phase = .inflate fh remain →
      Move ok a { a with phase := .leaving, payload := a.payload ++ out }
  /-- A frame that is not the last of its message may be passed over without a report. -/
  | again {a : Reading lib} : a.phase = .done false → Move ok a { a with phase := .header }
  | leave {a : Reading lib} : a.phase ≠ .idle → Move ok a { a with phase := .leaving }
  /-- The reading of a frame starts. -/
  | start {a : Reading lib} : a.phase = .idle → Move ok a { a.turn with phase := .header }
  /-- The reading of a frame ends well. -/
  | finish {a : Reading lib} {fin : Bool} : a.phase = .done fin →
      Move ok a { a with phase := .idle, interrupted := false }
  /-- The reading of a frame ends with an error. -/
  | broken {a : Reading lib} : a.phase = .leaving →
      Move ok a { a with phase := .idle, interrupted := true }

/-- What may happen in reading, one thing after another. -/
abbrev Path (ok : Guard lib) : Reading lib → Reading lib → Prop :=
  Relation.ReflTransGen (Move ok)

/-- What every move keeps holds at the end of a path. -/
theorem Path.invariant {ok : Guard lib} {P : Reading lib → Prop} {a b : Reading lib}
    (path : Path ok a b) (kept : ∀ a b, P a → Move ok a b → P b) (first : P a) : P b := by
  induction path with
  | refl => exact first
  | tail _ last ih => exact kept _ _ ih last

end Reading

namespace StreamBase

/-- What a stream says about the reading of its messages. -/
def reading (ws : StreamBase lib) (phase : Phase) (payload : Octets) (interrupted : Bool) :
    Reading lib :=
  { phase
    op := ws.rd_.op
    cont := ws.rd_.cont
    utf8 := ws.rd_.utf8
    size := ws.rd_.size
    max := ws.rd_msg_max_
    compressed := ws.compressed
    payload
    interrupted }

/-- Two streams that say the same of the reading at one moment do so at every other. -/
theorem reading_congr {ws ws' : StreamBase lib}
    (same : ws'.reading .idle [] false = ws.reading .idle [] false) (phase : Phase)
    (payload : Octets) (interrupted : Bool) :
    ws'.reading phase payload interrupted = ws.reading phase payload interrupted :=
  congrArg (fun a : Reading lib => { a with phase, payload, interrupted }) same

/-- Writing a control frame draws a mask key, and changes nothing else. -/
theorem reading_writeControl (ws : StreamBase lib) (op : Opcode) (payload : List Octets) :
    (ws.writeControl op payload).2.reading .idle [] false = ws.reading .idle [] false := by
  unfold writeControl
  dsimp only
  split <;> rfl

/-- The stream checks a piece of text with the checker of the message. -/
theorem checkText_eq (ws : StreamBase lib) (pb : Octets) (last : Bool) (phase : Phase)
    (payload : Octets) (interrupted : Bool) :
    ws.checkText pb last =
      (((ws.reading phase payload interrupted).check pb last).1,
        { ws with rd_ := { ws.rd_ with
          utf8 := ((ws.reading phase payload interrupted).check pb last).2 } }) := by
  unfold checkText Reading.check reading
  dsimp only
  split
  · rfl
  · rcases lib.utf8_write ws.rd_.utf8 pb with ⟨valid, utf8⟩
    cases valid with
    | false => rfl
    | true => cases last <;> rfl

end StreamBase

/-- What is known of the delivered octets apart from the stream and the buffer of its reader. -/
structure Tally where
  /-- What earlier frames delivered of the message. -/
  before : Octets := []
  /-- The size of the buffer when the reading of the frame started. -/
  start : Nat := 0
  interrupted : Bool := false
  deriving DecidableEq, Repr

namespace Tally

/-- The state of reading, with what was delivered in the buffer since the frame was started. -/
def reading (t : Tally) (ws : StreamBase lib) (db : Octets) (phase : Phase) : Reading lib :=
  ws.reading phase (t.before ++ db.drop t.start) t.interrupted

/-- What is appended to the buffer is appended to what was delivered. -/
theorem reading_append (t : Tally) (ws : StreamBase lib) {db : Octets} (started : t.start ≤ db.length)
    (out : Octets) (phase : Phase) :
    t.reading ws (db ++ out) phase =
      { t.reading ws db phase with payload := (t.reading ws db phase).payload ++ out } := by
  simp only [reading, StreamBase.reading, List.drop_append_of_le_length started,
    List.append_assoc]

end Tally

/-- A condition on the fixed part of a frame header, where it is that of a data frame. -/
def Reading.Admits (ok : Reading.Guard lib) (a : Reading lib) (ws : StreamBase lib) (b0 b1 : UInt8) :
    Prop :=
  ∀ fh₀ fh n ws', ws.readFh1 fh₀ b0 b1 = (fh, n, .none, ws') → isControl fh.op = false →
    ok a fh ws'.compressed

end Beast.Websocket
