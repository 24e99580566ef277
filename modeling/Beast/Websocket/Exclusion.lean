import Beast.Lib.Run
import Beast.Websocket.Executor
import Beast.Websocket.FrameLaws

/-! Who has the right to write to the stream below: what holds of it between two events. -/

namespace Beast.Websocket

variable {lib : Lib}

/-! ## What an operation waits for -/

namespace ReadFrameOp

@[simp] theorem goto_state (d : ReadFrameOp) (state : ReadState) : (d.goto state).state = state := rfl

/-- What a read operation that is under way waits for. -/
def Waits (d : ReadFrameOp) (w : Wait) : Prop :=
  match d.state with
  | .do_read_fh_1 | .do_read_fh_2 | .do_control_payload => ∃ n, w = .read n
  | .do_read_payload_2 | .do_inflate_payload_2 => ∃ n, w = .read_some n
  | .do_pong_1 | .do_teardown | .do_fail_4 => w = .write
  | .do_pong_resume_1 | .do_close_resume_1 | .do_fail_3 => w = .post none
  | .do_call_handler => w = .post (some .operation_aborted)
  | .do_teardown_1 | .do_fail_5 => w = .teardown
  | .do_start | .do_pong_resume | .do_close_resume | .do_fail_2 => False

/-- Where a read operation goes on that was parked. -/
def Parks (d : ReadFrameOp) : Prop :=
  d.state = .do_pong_resume ∨ d.state = .do_close_resume ∨ d.state = .do_fail_2

/-- A read operation that is under way has the right to write. -/
def Holds (d : ReadFrameOp) : Prop :=
  d.state ∈ [.do_pong_1, .do_teardown, .do_fail_4, .do_pong_resume_1, ReadState.do_close_resume_1]

/-- A read operation closes the connection, or has failed it, and may still have the right to write. -/
def Closes (d : ReadFrameOp) : Prop := d.state = .do_teardown_1 ∨ d.state = .do_fail_5

/-- A read operation reads no more and answers no more. -/
def Over (d : ReadFrameOp) : Prop :=
  d.state ∈ [.do_fail_4, .do_fail_5, ReadState.do_call_handler]

end ReadFrameOp

@[simp] theorem WriteFrameOp.goto_state (d : WriteFrameOp) (state : WriteState) :
    (d.goto state).state = state := rfl

@[simp] theorem WriteFrameOp.goto_fh (d : WriteFrameOp) (state : WriteState) :
    (d.goto state).fh = d.fh := rfl

/-- What a write operation that is under way waits for. -/
def WriteFrameOp.Waits (d : WriteFrameOp) (w : Wait) : Prop :=
  match d.state with
  | .do_nomask_frag_2 | .do_mask_nofrag_2 | .do_mask_frag_2 | .do_deflate_2 | .do_deflate_3 => w = .write
  | .do_maybe_suspend | .do_maybe_suspend_2 => w = .post none
  | .do_upcall => w = .write ∨ w = .post none ∨ w = .post (some .operation_aborted)
  | .do_maybe_suspend_1 => False

/-- What a close operation that is under way waits for. -/
def CloseOp.Waits (d : CloseOp) (w : Wait) : Prop :=
  match d.state with
  | .state_99 => w = .write
  | .state_3 => w = .post none
  | .state_0 => w = .post (some .operation_aborted)
  | .state_2 => False

/-- What a ping operation that is under way waits for. -/
def PingOp.Waits (d : PingOp) (w : Wait) : Prop :=
  match d.state with
  | .state_99 => w = .write ∨ w = .post (some .operation_aborted)
  | .state_3 => w = .post none
  | .state_0 | .state_2 => False

/-- A ping operation that is under way has the right to write. -/
def PingOp.Holds (d : PingOp) (w : Wait) : Prop := d.state = .state_3 ∨ w = .write

namespace WriterOp

def Waits (d : WriterOp) (w : Wait) : Prop :=
  match d with
  | .write d => d.Waits w
  | .close d => d.Waits w

/-- A write or close operation that is under way has the right to write. -/
def Holds (d : WriterOp) (w : Wait) : Prop :=
  match d with
  | .write d => d.state ≠ .do_maybe_suspend ∧ w ≠ .post (some .operation_aborted)
  | .close d => d.state ≠ .state_0

/-- An operation is sending data, frame by frame. -/
def Sends (d : WriterOp) (w : Wait) : Prop :=
  match d with
  | .write e => d.Holds w ∧ e.state ≠ .do_maybe_suspend_2
  | .close _ => False

/-- The frames of an operation that sends data are no close frames. -/
def Plain (d : WriterOp) : Prop :=
  match d with
  | .write d => d.fh.op ≠ .close
  | .close _ => True

/-- Where a write or close operation goes on that was parked. -/
def Parks (d : WriterOp) : Prop :=
  match d with
  | .write d => d.state = .do_maybe_suspend_1
  | .close d => d.state = .state_2

end WriterOp

/-! ## What holds between two events -/

/-- The right to write, as far as the read operation is concerned. -/
structure ReaderFits (reading : Option (ReadFrameOp × Wait)) (parked : Option ReadFrameOp)
    (block : Option Op) : Prop where
  apart : parked ≠ none → reading = none
  waits : ∀ d w, reading = some (d, w) → d.Waits w ∧ (d.Holds → block = some .read)
  parks : ∀ d, parked = some d → d.Parks
  held : block = some .read → ∃ d w, reading = some (d, w) ∧ (d.Holds ∨ d.Closes)

/-- The right to write, as far as the write or close operation is concerned. -/
structure WriterFits (writing : Option (WriterOp × Wait)) (parked : Option WriterOp)
    (block : Option Op) (closed : Bool) : Prop where
  apart : parked ≠ none → writing = none
  waits : ∀ d w, writing = some (d, w) → d.Waits w ∧ d.Plain ∧ (d.Holds w → block = some d.op)
  parks : ∀ d, parked = some d → d.Parks ∧ d.Plain
  held : ∀ d : WriterOp, block = some d.op → ∃ e w, writing = some (e, w) ∧ e.op = d.op ∧ e.Holds w
  sends : ∀ d w, writing = some (d, w) → d.Sends w → closed = false

/-- The right to write, as far as the ping operation is concerned. -/
structure PingerFits (pinging : Option (PingOp × Wait)) (parked : Option PingOp)
    (block : Option Op) : Prop where
  apart : parked ≠ none → pinging = none
  waits : ∀ d w, pinging = some (d, w) → d.Waits w ∧ d.op ≠ .close ∧ (d.Holds w → block = some .ping)
  parks : ∀ d, parked = some d → d.state = .state_2 ∧ d.op ≠ .close
  held : block = some .ping → ∃ d w, pinging = some (d, w) ∧ d.Holds w

/-- So many close frames were sent, and nothing behind the first of them but the others. -/
def Ended (sent : List Sent) (n : Nat) : Prop :=
  ∃ before closes, sent = before ++ closes ∧ (∀ x ∈ before, x.frame ≠ some .close) ∧
    (∀ x ∈ closes, x.frame = some .close) ∧ closes.length = n

/-- The kind of operation whose handler was called. -/
def Called.op : Called → Op
  | .read _ _ => .read
  | .write _ => .write
  | .close _ => .close
  | .ping _ => .ping

namespace Async

/-- Whether an operation is parked. -/
def Parked (s : Async lib) : Prop := s.rd_op_ ≠ none ∨ s.wr_op_ ≠ none ∨ s.ping_op_ ≠ none

/-- Whether an operation is under way that is not parked. -/
def Active (s : Async lib) : Prop := s.reading ≠ none ∨ s.writing ≠ none ∨ s.pinging ≠ none

/-- The operations of a kind that are under way, parked or not. -/
def pending (s : Async lib) (o : Op) : Nat :=
  (s.reading.any fun _ => Op.read == o).toNat + (s.rd_op_.any fun _ => Op.read == o).toNat +
    (s.writing.any fun x => x.1.op == o).toNat + (s.wr_op_.any fun d => d.op == o).toNat +
    (s.pinging.any fun _ => Op.ping == o).toNat + (s.ping_op_.any fun _ => Op.ping == o).toNat

/-- The operations of a kind that were started: those whose handlers were called, and those under way. -/
def load (s : Async lib) (o : Op) : Nat :=
  s.called.countP (fun h => h.op == o) + s.pending o

/-- At most so many close frames were sent, and the first of them is noted. Behind a second one no
frames are read any more. -/
def Tape (most : Nat) (s : Async lib) : Prop :=
  ∃ n ≤ most, Ended s.sent n ∧ (s.ws.wr_close_ = true ↔ 0 < n) ∧
    (1 < n → s.ws.failed_ = true ∧ s.rd_op_ = none ∧ ∀ d w, s.reading = some (d, w) → d.Over)

/-- What holds of the right to write, where at most so many close frames are sent. -/
structure Fits (most : Nat) (s : Async lib) : Prop where
  reader : ReaderFits s.reading s.rd_op_ s.ws.wr_block_
  writer : WriterFits s.writing s.wr_op_ s.ws.wr_block_ s.ws.wr_close_
  pinger : PingerFits s.pinging s.ping_op_ s.ws.wr_block_
  tape : s.Tape most
  opcode : s.ws.wr_opcode_ ≠ .close

/-- What holds between two events: no operation is parked for good. -/
structure Orderly (most : Nat) (s : Async lib) : Prop extends Fits most s where
  awake : s.Parked → s.Active

end Async

/-! ## What the right to write is changed to -/

section Changes

variable {block block' : Option Op}

theorem ReaderFits.idle (free : block ≠ some .read) : ReaderFits none none block where
  apart := fun _ => rfl
  waits := fun d w same => by cases same
  parks := fun d same => by cases same
  held := fun held => absurd held free

/-- What else the right to write changes to is of no concern to the read operation. -/
theorem ReaderFits.congr {reading : Option (ReadFrameOp × Wait)} {parked : Option ReadFrameOp}
    (fits : ReaderFits reading parked block) (same : block' = some .read ↔ block = some .read) :
    ReaderFits reading parked block' where
  apart := fits.apart
  waits := fun d w under => ⟨(fits.waits d w under).1, fun holds => same.mpr ((fits.waits d w under).2 holds)⟩
  parks := fits.parks
  held := fun held => fits.held (same.mp held)

/-- A read operation waits that was called before. -/
theorem ReaderFits.wait {d : ReadFrameOp} {w : Wait} (waits : d.Waits w)
    (holds : d.Holds → block = some .read) (held : block = some .read → d.Holds ∨ d.Closes) :
    ReaderFits (some (d, w)) none block where
  apart := fun some_ => absurd rfl some_
  waits := by
    intro e v same
    cases same
    exact ⟨waits, holds⟩
  parks := fun d same => by cases same
  held := fun mine => ⟨d, w, rfl, held mine⟩

/-- A read operation is parked that was called before. -/
theorem ReaderFits.park {d : ReadFrameOp} (parks : d.Parks) (free : block ≠ some .read) :
    ReaderFits none (some d) block where
  apart := fun _ => rfl
  waits := fun d w same => by cases same
  parks := by
    intro e same
    cases same
    exact parks
  held := fun mine => absurd mine free

theorem WriterFits.idle {closed : Bool} (free : ∀ d : WriterOp, block ≠ some d.op) :
    WriterFits none none block closed where
  apart := fun _ => rfl
  waits := fun d w same => by cases same
  parks := fun d same => by cases same
  held := fun d held => absurd held (free d)
  sends := fun d w same => by cases same

/-- What else the right to write changes to is of no concern to the write or close operation. -/
theorem WriterFits.congr {writing : Option (WriterOp × Wait)} {parked : Option WriterOp}
    {closed closed' : Bool} (fits : WriterFits writing parked block closed)
    (same : ∀ d : WriterOp, block' = some d.op ↔ block = some d.op)
    (close : block = some .write → closed' = closed) : WriterFits writing parked block' closed' where
  apart := fits.apart
  waits := fun d w under => by
    obtain ⟨waits, plain, holds⟩ := fits.waits d w under
    exact ⟨waits, plain, fun mine => (same d).mpr (holds mine)⟩
  parks := fits.parks
  held := fun d mine => fits.held d ((same d).mp mine)
  sends := by
    intro d w under sends
    -- Data is sent by the operation that has the right to write.
    cases d with
    | close d => exact absurd sends id
    | write d =>
      rw [close ((fits.waits _ w under).2.2 sends.1)]
      exact fits.sends _ w under sends

/-- A write or close operation waits that was called before. -/
theorem WriterFits.wait {d : WriterOp} {w : Wait} {closed : Bool} (waits : d.Waits w) (plain : d.Plain)
    (holds : d.Holds w → block = some d.op)
    (held : ∀ e : WriterOp, block = some e.op → e.op = d.op ∧ d.Holds w)
    (sends : d.Sends w → closed = false) : WriterFits (some (d, w)) none block closed where
  apart := fun some_ => absurd rfl some_
  waits := by
    intro e v same
    cases same
    exact ⟨waits, plain, holds⟩
  parks := fun d same => by cases same
  held := fun e mine => ⟨d, w, rfl, (held e mine).1.symm, (held e mine).2⟩
  sends := by
    intro e v same
    cases same
    exact sends

/-- A write or close operation is parked that was called before. -/
theorem WriterFits.park {d : WriterOp} {closed : Bool} (parks : d.Parks) (plain : d.Plain)
    (free : ∀ d : WriterOp, block ≠ some d.op) : WriterFits none (some d) block closed where
  apart := fun _ => rfl
  waits := fun d w same => by cases same
  parks := by
    intro e same
    cases same
    exact ⟨parks, plain⟩
  held := fun d mine => absurd mine (free d)
  sends := fun d w same => by cases same

theorem PingerFits.idle (free : block ≠ some .ping) : PingerFits none none block where
  apart := fun _ => rfl
  waits := fun d w same => by cases same
  parks := fun d same => by cases same
  held := fun held => absurd held free

/-- What else the right to write changes to is of no concern to the ping operation. -/
theorem PingerFits.congr {pinging : Option (PingOp × Wait)} {parked : Option PingOp}
    (fits : PingerFits pinging parked block) (same : block' = some .ping ↔ block = some .ping) :
    PingerFits pinging parked block' where
  apart := fits.apart
  waits := fun d w under => by
    obtain ⟨waits, plain, holds⟩ := fits.waits d w under
    exact ⟨waits, plain, fun mine => same.mpr (holds mine)⟩
  parks := fits.parks
  held := fun held => fits.held (same.mp held)

/-- A ping operation waits that was called before. -/
theorem PingerFits.wait {d : PingOp} {w : Wait} (waits : d.Waits w) (plain : d.op ≠ .close)
    (holds : d.Holds w → block = some .ping) (held : block = some .ping → d.Holds w) :
    PingerFits (some (d, w)) none block where
  apart := fun some_ => absurd rfl some_
  waits := by
    intro e v same
    cases same
    exact ⟨waits, plain, holds⟩
  parks := fun d same => by cases same
  held := fun mine => ⟨d, w, rfl, held mine⟩

/-- A ping operation is parked that was called before. -/
theorem PingerFits.park {d : PingOp} (parks : d.state = .state_2) (plain : d.op ≠ .close)
    (free : block ≠ some .ping) : PingerFits none (some d) block where
  apart := fun _ => rfl
  waits := fun d w same => by cases same
  parks := by
    intro e same
    cases same
    exact ⟨parks, plain⟩
  held := fun mine => absurd mine free

end Changes

/-! ## What was sent -/

/-- What is no close frame is sent in front of all close frames. -/
theorem Ended.plain {sent : List Sent} (ended : Ended sent 0) {x : Sent} (plain : x.frame ≠ some .close) :
    Ended (sent ++ [x]) 0 := by
  obtain ⟨before, closes, rfl, other, all, size⟩ := ended
  obtain rfl := List.eq_nil_of_length_eq_zero size
  refine ⟨before ++ [x], [], by simp, ?_, List.forall_mem_nil _, rfl⟩
  intro y there
  rcases List.mem_append.mp there with early | late
  · exact other y early
  · rw [List.mem_singleton.mp late]
    exact plain

/-- One more close frame is sent. -/
theorem Ended.close {sent : List Sent} {n : Nat} (ended : Ended sent n) {x : Sent}
    (close : x.frame = some .close) : Ended (sent ++ [x]) (n + 1) := by
  obtain ⟨before, closes, rfl, other, all, rfl⟩ := ended
  refine ⟨before, closes ++ [x], by simp, other, ?_, by simp⟩
  intro y there
  rcases List.mem_append.mp there with early | late
  · exact all y early
  · rw [List.mem_singleton.mp late]
    exact close

namespace Async

variable {s t : Async lib} {n most : Nat}

/-- A note of a close frame that was sent is kept by all that does not send one. -/
theorem Tape.congr (tape : s.Tape n) (within : n ≤ most) (sent : t.sent = s.sent)
    (close : t.ws.wr_close_ = s.ws.wr_close_)
    (behind : 1 < n → (s.ws.failed_ = true → t.ws.failed_ = true) ∧ (s.rd_op_ = none → t.rd_op_ = none) ∧
      ((∀ d w, s.reading = some (d, w) → d.Over) → ∀ d w, t.reading = some (d, w) → d.Over)) :
    t.Tape most := by
  obtain ⟨k, few, ended, noted, over_⟩ := tape
  refine ⟨k, Nat.le_trans few within, by rw [sent]; exact ended, by rw [close]; exact noted, ?_⟩
  intro two
  obtain ⟨failed, parked, reading⟩ := over_ two
  obtain ⟨failed', parked', reading'⟩ := behind (by omega)
  exact ⟨failed' failed, parked' parked, reading' reading⟩

/-- Before the first close frame was sent, other frames are. -/
theorem Tape.plain (tape : s.Tape n) (fresh : s.ws.wr_close_ = false) (within : 1 ≤ most)
    {x : Sent} (plain : x.frame ≠ some .close) (sent : t.sent = s.sent ++ [x])
    (close : t.ws.wr_close_ = s.ws.wr_close_) : t.Tape most := by
  obtain ⟨k, few, ended, noted, -⟩ := tape
  have none_ : k = 0 := by
    by_contra some_
    rw [noted.mpr (by omega)] at fresh
    cases fresh
  subst none_
  refine ⟨0, by omega, by rw [sent]; exact ended.plain plain, ?_, fun two => by omega⟩
  rw [close, fresh]
  simp

/-- The first close frame is sent. -/
theorem Tape.close (tape : s.Tape n) (fresh : s.ws.wr_close_ = false) {x : Sent}
    (close : x.frame = some .close) (sent : t.sent = s.sent ++ [x]) (noted : t.ws.wr_close_ = true) :
    t.Tape 1 := by
  obtain ⟨k, few, ended, before, -⟩ := tape
  have none_ : k = 0 := by
    by_contra some_
    rw [before.mpr (by omega)] at fresh
    cases fresh
  subst none_
  refine ⟨1, Nat.le_refl 1, by rw [sent]; exact ended.close close, ?_, fun two => by omega⟩
  rw [noted]
  simp

/-- A stream that has not failed has sent no second close frame. -/
theorem Tape.fresh (tape : s.Tape n) (fine : s.ws.failed_ = false) : s.Tape 1 := by
  obtain ⟨k, few, ended, noted, over_⟩ := tape
  have single : k ≤ 1 := by
    by_contra two
    rw [(over_ (by omega)).1] at fine
    cases fine
  exact ⟨k, single, ended, noted, fun two => by omega⟩

/-- Behind a second close frame no read operation is parked that could be called again. -/
theorem Tape.woken (tape : s.Tape n) (parked : s.rd_op_ ≠ none) (sent : t.sent = s.sent)
    (close : t.ws.wr_close_ = s.ws.wr_close_) : t.Tape n := by
  obtain ⟨k, few, ended, noted, over_⟩ := tape
  refine ⟨k, few, by rw [sent]; exact ended, by rw [close]; exact noted, ?_⟩
  intro two
  exact absurd (over_ two).2.1 parked

/-- No operation is parked where none can be called again. -/
theorem Fits.orderly (fits : s.Fits n) (within : n ≤ most) (awake : s.Parked → s.Active) :
    s.Orderly most where
  reader := fits.reader
  writer := fits.writer
  pinger := fits.pinger
  tape := fits.tape.congr within rfl rfl fun _ => ⟨id, id, id⟩
  opcode := fits.opcode
  awake := awake

/-! ## Where an operation that was started is -/

section Load

variable (o : Op)

theorem load_reading (idle : s.reading = none) (x : ReadFrameOp × Wait) :
    load { s with reading := some x } o = s.load o + (Op.read == o).toNat := by
  simp only [load, pending, idle, Option.any_some, Option.any_none, Bool.toNat_false]
  omega

theorem load_rd_op (empty : s.rd_op_ = none) (d : ReadFrameOp) :
    load { s with rd_op_ := some d } o = s.load o + (Op.read == o).toNat := by
  simp only [load, pending, empty, Option.any_some, Option.any_none, Bool.toNat_false]
  omega

theorem load_writing (idle : s.writing = none) (x : WriterOp × Wait) :
    load { s with writing := some x } o = s.load o + (x.1.op == o).toNat := by
  simp only [load, pending, idle, Option.any_some, Option.any_none, Bool.toNat_false]
  omega

theorem load_wr_op (empty : s.wr_op_ = none) (d : WriterOp) :
    load { s with wr_op_ := some d } o = s.load o + (d.op == o).toNat := by
  simp only [load, pending, empty, Option.any_some, Option.any_none, Bool.toNat_false]
  omega

theorem load_pinging (idle : s.pinging = none) (x : PingOp × Wait) :
    load { s with pinging := some x } o = s.load o + (Op.ping == o).toNat := by
  simp only [load, pending, idle, Option.any_some, Option.any_none, Bool.toNat_false]
  omega

theorem load_ping_op (empty : s.ping_op_ = none) (d : PingOp) :
    load { s with ping_op_ := some d } o = s.load o + (Op.ping == o).toNat := by
  simp only [load, pending, empty, Option.any_some, Option.any_none, Bool.toNat_false]
  omega

theorem load_called (handler : Called) :
    load { s with called := s.called ++ [handler] } o = s.load o + (handler.op == o).toNat := by
  simp only [load, pending, List.countP_append, List.countP_singleton]
  cases handler.op == o with
  | false => simp
  | true =>
    simp
    omega

/-- A parked operation that is called again is under way. -/
theorem load_invoke_rd (idle : s.reading = none) {d : ReadFrameOp} (parked : s.rd_op_ = some d)
    (x : ReadFrameOp × Wait) : load { s with rd_op_ := none, reading := some x } o = s.load o := by
  simp only [load, pending, idle, parked, Option.any_some, Option.any_none, Bool.toNat_false]
  omega

theorem load_invoke_wr (idle : s.writing = none) {d : WriterOp} (parked : s.wr_op_ = some d)
    {x : WriterOp × Wait} (same : x.1.op = d.op) :
    load { s with wr_op_ := none, writing := some x } o = s.load o := by
  simp only [load, pending, idle, parked, same, Option.any_some, Option.any_none, Bool.toNat_false]
  omega

theorem load_invoke_ping (idle : s.pinging = none) {d : PingOp} (parked : s.ping_op_ = some d)
    (x : PingOp × Wait) : load { s with ping_op_ := none, pinging := some x } o = s.load o := by
  simp only [load, pending, idle, parked, Option.any_some, Option.any_none, Bool.toNat_false]
  omega

end Load

end Async

end Beast.Websocket
