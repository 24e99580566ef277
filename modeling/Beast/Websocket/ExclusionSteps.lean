import Beast.Websocket.Exclusion

/-! What an operation that is called does to the right to write, up to where it returns. -/

namespace Beast.Websocket

variable {lib : Lib}

/-- What a step may come to: why an assertion on the right to write may fail, and how many operations of
each kind were started. -/
structure Aim where
  why : Prop
  load : Op → Nat

variable {n most : Nat} {aim : Aim}

namespace StreamBase

/-- What changes of a stream has nothing to do with the right to write, or with close frames. -/
structure Aside (a b : StreamBase lib) : Prop where
  block : b.wr_block_ = a.wr_block_
  close : b.wr_close_ = a.wr_close_
  opcode : b.wr_opcode_ = a.wr_opcode_

namespace Aside

variable {a b c : StreamBase lib}

theorem refl : Aside a a := ⟨rfl, rfl, rfl⟩

theorem trans (first : Aside a b) (second : Aside b c) : Aside a c :=
  ⟨second.block.trans first.block, second.close.trans first.close, second.opcode.trans first.opcode⟩

theorem maskgen (ws : StreamBase lib) : Aside ws ws.maskgen.2 := ⟨rfl, rfl, rfl⟩

theorem writeControl (ws : StreamBase lib) (op : Opcode) (payload : List Octets) :
    Aside ws (ws.writeControl op payload).2 := by
  unfold StreamBase.writeControl
  dsimp only
  split
  · exact maskgen ws
  · exact refl

theorem writePing (ws : StreamBase lib) (op : Opcode) (data : Octets) : Aside ws (ws.writePing op data).2 :=
  writeControl ws op [data]

theorem writeClose (ws : StreamBase lib) (cr : CloseReason) : Aside ws (ws.writeClose cr).2 :=
  writeControl ws .close _

theorem replyClose (ws : StreamBase lib) : Aside ws ws.replyClose.2 := writeClose ws _

theorem checkText (ws : StreamBase lib) (pb : Octets) (last : Bool) : Aside ws (ws.checkText pb last).2 := by
  unfold StreamBase.checkText
  repeat' split
  all_goals exact ⟨rfl, rfl, rfl⟩

theorem inflate (ws : StreamBase lib) (db input : Octets) : Aside ws (ws.inflate db input).2.2 := by
  unfold StreamBase.inflate
  split
  · exact refl
  · exact ⟨rfl, rfl, rfl⟩

theorem inflateFrame (ws : StreamBase lib) (db input : Octets) (last : Bool) :
    Aside ws (ws.inflateFrame db input last).2.2 := by
  have first := inflate ws db input
  unfold StreamBase.inflateFrame
  split
  · rename_i inflated
    rw [inflated] at first
    exact first
  · rename_i inflated
    rw [inflated] at first
    split
    · exact first.trans (inflate ..)
    · exact first

theorem readFh1 (ws : StreamBase lib) (fh : FrameHeader) (b0 b1 : UInt8) :
    Aside ws (ws.readFh1 fh b0 b1).2.2.2 := by
  rcases read : ws.readFh1 fh b0 b1 with ⟨fh', n, code, ws'⟩
  obtain ⟨-, rfl | ⟨-, -, rfl⟩⟩ := readFh1_keeps read
  · exact refl
  · exact ⟨rfl, rfl, rfl⟩

theorem readFh2 (ws : StreamBase lib) (fh : FrameHeader) (db : Octets) :
    Aside ws (ws.readFh2 fh db).2.2.2 := by
  rcases read : ws.readFh2 fh db with ⟨fh', rest, code, ws'⟩
  obtain ⟨-, -, -, -, ⟨-, rfl⟩ | ⟨-, -, -, rfl⟩ | ⟨-, -, -, -, rfl⟩⟩ := readFh2_keeps read
  · exact refl
  · exact ⟨rfl, rfl, rfl⟩
  · exact ⟨rfl, rfl, rfl⟩

theorem rdBegin (ws : StreamBase lib) : Aside ws ws.rdBegin := by
  unfold StreamBase.rdBegin
  split
  · exact ⟨rfl, rfl, rfl⟩
  · exact refl

theorem endInflate (ws : StreamBase lib) (fin : Bool) : Aside ws (ws.endInflate fin) := by
  unfold StreamBase.endInflate
  split
  · exact ⟨rfl, rfl, rfl⟩
  · exact refl

theorem deflate (ws : StreamBase lib) (cb : Octets) (fin : Bool) :
    Aside ws (ws.deflate cb fin).2.2.2.2 := by
  unfold StreamBase.deflate
  split
  · exact refl
  · exact ⟨rfl, rfl, rfl⟩

end Aside

end StreamBase

/-! ## Steps that operations are made of -/

namespace Async

/-- What holds behind a step: the state is orderly and no operation is lost, or an assertion on the
right to write failed for a reason. -/
def Comes (most : Nat) (aim : Aim) {α : Type} : Except Fault α → Async lib → Prop
  | .ok _, s => s.Orderly most ∧ ∀ o, s.load o = aim.load o
  | .error f, _ => f = .wr_block ∧ aim.why

/-- Whether an operation was called that was parked, or none was there. A write operation that was
not parked stays where it is. -/
def Woken (n : Nat) (why : Prop) (s : Async lib) (empty : Prop) : Except Fault Bool → Async lib → Prop
  | .ok true, t =>
    t.Fits n ∧ t.Active ∧ (∀ o, t.load o = s.load o) ∧
      (s.wr_op_ = none → t.writing = s.writing ∧ t.wr_op_ = none)
  | .ok false, t => t = s ∧ empty
  | .error f, _ => f = .wr_block ∧ why

end Async

section Rules

variable {α : Type} {s : Async lib} {Q : Except Fault α → Async lib → Prop} {m : Unit → OpStep lib α}

theorem wp_change_bind {f : StreamBase lib → StreamBase lib} :
    Step.wp (change f >>= m) Q s ↔ Step.wp (m ()) Q { s with ws := f s.ws } := Iff.rfl

theorem wp_claim_bind {op : Op} :
    Step.wp (claim op >>= m) Q s ↔
      Step.wp (m ()) Q { s with ws := { s.ws with wr_block_ := some op } } := Iff.rfl

theorem wp_startWrite_bind {frame : Option Opcode} {octets : Octets} :
    Step.wp (startWrite frame octets >>= m) Q s ↔
      Step.wp (m ()) Q { s with sent := s.sent ++ [{ frame, octets }] } := Iff.rfl

theorem wp_assert_bind {cond : Bool} {fault : Fault} (holds : cond = true) (next : Step.wp (m ()) Q s) :
    Step.wp (assert cond fault >>= m) Q s := by
  subst holds
  exact next

theorem wp_assertFree_bind (free : s.ws.wr_block_ = none → Step.wp (m ()) Q s)
    (busy : s.ws.wr_block_ ≠ none → Q (.error .wr_block) s) : Step.wp (assertFree >>= m) Q s := by
  unfold assertFree assert
  rw [Step.bind_assoc, Step.wp_get_bind]
  cases block : s.ws.wr_block_ with
  | none => exact free block
  | some op =>
    refine busy ?_
    rw [block]
    exact Option.some_ne_none op

theorem wp_assertHeld_bind {op : Op} (held : s.ws.wr_block_ = some op) (next : Step.wp (m ()) Q s) :
    Step.wp (assertHeld op >>= m) Q s := by
  unfold assertHeld assert
  rw [Step.bind_assoc, Step.wp_get_bind, held, beq_self_eq_true]
  exact next

end Rules

namespace Async

variable {s : Async lib} {why : Prop}

/-- The right to write that was free is claimed. -/
theorem Fits.claimed {op : Op} {block : Option Op} (free : block = none ∨ block = some op) {other : Op}
    (apart : other ≠ op) : some op = some other ↔ block = some other := by
  rcases free with rfl | rfl
  · simp [apart.symm]
  · simp

/-- A read operation that is parked is called again. -/
theorem wp_maybeInvokeRd (fits : s.Fits n) (blame : s.ws.wr_block_ ≠ none → s.rd_op_ ≠ none → why) :
    Step.wp maybeInvokeRd (Woken n why s (s.rd_op_ = none)) s := by
  unfold maybeInvokeRd
  rw [Step.wp_get_bind]
  rcases parked : s.rd_op_ with - | d
  · exact ⟨rfl, rfl⟩
  have some_ : s.rd_op_ ≠ none := by simp [parked]
  have idle := fits.reader.apart some_
  -- An operation that claims the right to write goes on from there.
  have claims : ∀ state : ReadState, state = .do_pong_resume_1 ∨ state = .do_close_resume_1 →
      s.ws.wr_block_ = none → Fits n { s with
        rd_op_ := none, ws := { s.ws with wr_block_ := some .read },
        reading := some ({ d with state }, .post none) } := by
    intro state goes free
    refine ⟨ReaderFits.wait ?_ (fun _ => rfl) (fun _ => .inl ?_), ?_, ?_,
      fits.tape.woken some_ rfl rfl, fits.opcode⟩
    · rcases goes with rfl | rfl <;> exact rfl
    · rcases goes with rfl | rfl <;> simp [ReadFrameOp.Holds]
    · refine fits.writer.congr (fun d => Fits.claimed (.inl free) ?_) fun _ => rfl
      cases d <;> simp [WriterOp.op]
    · exact fits.pinger.congr (Fits.claimed (.inl free) (by simp))
  dsimp only
  rw [Step.wp_modify_bind]
  unfold ReadFrameOp.resume
  rcases fits.reader.parks d parked with state | state | state
  · simp only [state]
    rw [Step.bind_assoc]
    apply wp_assertFree_bind
    · exact fun free => ⟨claims _ (.inl rfl) free, .inl (Option.some_ne_none _),
        fun o => load_invoke_rd o idle parked _, fun kept => ⟨rfl, kept⟩⟩
    · exact fun busy => ⟨rfl, blame busy some_⟩
  · simp only [state]
    rw [Step.bind_assoc]
    apply wp_assertFree_bind
    · exact fun free => ⟨claims _ (.inr rfl) free, .inl (Option.some_ne_none _),
        fun o => load_invoke_rd o idle parked _, fun kept => ⟨rfl, kept⟩⟩
    · exact fun busy => ⟨rfl, blame busy some_⟩
  · -- A connection that is to be failed is not claimed before the operation is called.
    simp only [state]
    refine ⟨⟨ReaderFits.wait rfl ?_ ?_, fits.writer, fits.pinger, fits.tape.woken some_ rfl rfl,
      fits.opcode⟩, .inl (Option.some_ne_none _),
        fun o => load_invoke_rd o idle parked _, fun kept => ⟨rfl, kept⟩⟩
    · simp [ReadFrameOp.Holds]
    · intro held
      obtain ⟨e, w, under, -⟩ := fits.reader.held held
      rw [idle] at under
      cases under

/-- A write or close operation that is parked is called again. -/
theorem wp_maybeInvokeWr (fits : s.Fits n) (blame : s.ws.wr_block_ ≠ none → s.wr_op_ ≠ none → why) :
    Step.wp maybeInvokeWr (Woken n why s (s.wr_op_ = none)) s := by
  unfold maybeInvokeWr
  rw [Step.wp_get_bind]
  rcases parked : s.wr_op_ with - | d
  · exact ⟨rfl, rfl⟩
  have some_ : s.wr_op_ ≠ none := by simp [parked]
  have idle := fits.writer.apart some_
  obtain ⟨parks, plain⟩ := fits.writer.parks d parked
  dsimp only
  rw [Step.wp_modify_bind]
  unfold WriterOp.resume
  rw [Step.bind_assoc]
  apply wp_assertFree_bind
  · intro free
    rw [Step.bind_assoc, wp_claim_bind]
    have reader : ReaderFits s.reading s.rd_op_ (some d.op) := by
      refine fits.reader.congr (Fits.claimed (.inl free) ?_)
      cases d <;> simp [WriterOp.op]
    have pinger : PingerFits s.pinging s.ping_op_ (some d.op) := by
      refine fits.pinger.congr (Fits.claimed (.inl free) ?_)
      cases d <;> simp [WriterOp.op]
    have tape := fits.tape
    cases d with
    | write d =>
      refine ⟨⟨reader, WriterFits.wait rfl plain (fun _ => rfl) ?_ ?_, pinger, tape, fits.opcode⟩,
        .inr (.inl (Option.some_ne_none _)), fun o => load_invoke_wr o idle parked rfl,
        fun kept => absurd kept some_⟩
      · intro e mine
        exact ⟨(Option.some.inj mine).symm, by simp [WriterOp.Holds]⟩
      · simp [WriterOp.Sends]
    | close d =>
      refine ⟨⟨reader, WriterFits.wait rfl plain (fun _ => rfl) ?_ ?_, pinger, tape, fits.opcode⟩,
        .inr (.inl (Option.some_ne_none _)), fun o => load_invoke_wr o idle parked rfl,
        fun kept => absurd kept some_⟩
      · intro e mine
        exact ⟨(Option.some.inj mine).symm, by simp [WriterOp.Holds]⟩
      · simp [WriterOp.Sends]
  · exact fun busy => ⟨rfl, blame busy some_⟩

/-- A ping operation that is parked is called again. -/
theorem wp_maybeInvokePing (fits : s.Fits n) (blame : s.ws.wr_block_ ≠ none → s.ping_op_ ≠ none → why) :
    Step.wp maybeInvokePing (Woken n why s (s.ping_op_ = none)) s := by
  unfold maybeInvokePing
  rw [Step.wp_get_bind]
  rcases parked : s.ping_op_ with - | d
  · exact ⟨rfl, rfl⟩
  have some_ : s.ping_op_ ≠ none := by simp [parked]
  have idle := fits.pinger.apart some_
  obtain ⟨parks, plain⟩ := fits.pinger.parks d parked
  dsimp only
  rw [Step.wp_modify_bind]
  unfold PingOp.resume
  rw [Step.bind_assoc]
  apply wp_assertFree_bind
  · intro free
    refine ⟨⟨fits.reader.congr (Fits.claimed (.inl free) (by simp)), ?_,
      PingerFits.wait rfl plain (fun _ => rfl) (fun _ => .inl rfl), fits.tape, fits.opcode⟩,
      .inr (.inr (Option.some_ne_none _)), fun o => load_invoke_ping o idle parked _, fun kept => ⟨rfl, kept⟩⟩
    refine fits.writer.congr (fun d => Fits.claimed (.inl free) ?_) fun _ => rfl
    cases d <;> simp [WriterOp.op]
  · exact fun busy => ⟨rfl, blame busy some_⟩

/-- The second of two operations is called where the first is not there. -/
theorem wp_orElse {first second : OpStep lib Bool} {p q : Prop}
    (one : Step.wp first (Woken n why s p) s) (other : Step.wp second (Woken n why s q) s) :
    Step.wp (orElse first second) (Woken n why s (p ∧ q)) s := by
  unfold orElse
  rw [Step.wp_bind]
  refine Step.wp_mono one fun r t woken => ?_
  rcases r with f | b
  · exact woken
  · cases b with
    | true => exact woken
    | false =>
      obtain ⟨rfl, empty⟩ := woken
      refine Step.wp_mono other fun r u woken => ?_
      rcases r with f | b
      · exact woken
      · cases b with
        | true => exact woken
        | false => exact ⟨woken.1, empty, woken.2⟩

/-- What follows a call of parked operations goes on from either outcome. -/
theorem wp_woken_bind {α : Type} {Q : Except Fault α → Async lib → Prop} {calls : OpStep lib Bool}
    {next : Bool → OpStep lib α} {empty : Prop} (called : Step.wp calls (Woken n why s empty) s)
    (awake : ∀ t : Async lib, t.Fits n → t.Active → (∀ o, t.load o = s.load o) →
      (s.wr_op_ = none → t.writing = s.writing ∧ t.wr_op_ = none) → Step.wp (next true) Q t)
    (asleep : empty → Step.wp (next false) Q s) (stops : why → ∀ t, Q (.error .wr_block) t) :
    Step.wp (calls >>= next) Q s := by
  rw [Step.wp_bind]
  refine Step.wp_mono called fun r t woken => ?_
  rcases r with f | b
  · obtain ⟨rfl, blamed⟩ := woken
    exact stops blamed t
  · cases b with
    | true => exact awake t woken.1 woken.2.1 woken.2.2.1 woken.2.2.2
    | false =>
      obtain ⟨rfl, none_⟩ := woken
      exact asleep none_

/-- An operation that is done calls those that are parked, and then its handler. -/
theorem wp_done (fits : s.Fits n) (within : n ≤ most) {calls : OpStep lib Bool} {empty : Prop}
    (called : Step.wp calls (Woken n aim.why s empty) s) (all : empty → ¬s.Parked) {handler : Called}
    (owes : ∀ o, s.load o + (handler.op == o).toNat = aim.load o) :
    Step.wp (calls >>= fun _ => invoke handler) (Comes most aim) s := by
  refine wp_woken_bind called (fun t fits active same _ => ?_) (fun none_ => ?_) fun blamed t => ⟨rfl, blamed⟩
  · have done : t.Orderly most := fits.orderly within fun _ => active
    refine ⟨⟨⟨done.reader, done.writer, done.pinger, done.tape, done.opcode⟩, fun _ => active⟩, fun o => ?_⟩
    exact (load_called o handler).trans (by rw [same o, owes o])
  · have done : s.Orderly most := fits.orderly within fun parked => absurd parked (all none_)
    refine ⟨⟨⟨done.reader, done.writer, done.pinger, done.tape, done.opcode⟩, done.awake⟩, fun o => ?_⟩
    exact (load_called o handler).trans (owes o)

end Async

/-! ## The read operation -/

/-- What holds while the read operation is called: it is neither parked nor waits. -/
structure ReadRuns (n : Nat) (aim : Aim) (s : Async lib) : Prop where
  apart : s.reading = none ∧ s.rd_op_ = none
  writer : WriterFits s.writing s.wr_op_ s.ws.wr_block_ s.ws.wr_close_
  pinger : PingerFits s.pinging s.ping_op_ s.ws.wr_block_
  tape : s.Tape n
  opcode : s.ws.wr_opcode_ ≠ .close
  blame : ∀ o, s.ws.wr_block_ = some o → o ≠ .read → s.wr_op_ ≠ none ∨ s.ping_op_ ≠ none → aim.why
  owes : ∀ o, s.load o + (Op.read == o).toNat = aim.load o

namespace ReadRuns

open Async

variable {s : Async lib}

/-- What a step does aside is of no concern. -/
theorem change (runs : ReadRuns 1 aim s) {ws : StreamBase lib} (aside : s.ws.Aside ws) :
    ReadRuns 1 aim { s with ws } where
  apart := runs.apart
  writer := by
    show WriterFits s.writing s.wr_op_ ws.wr_block_ ws.wr_close_
    rw [aside.block, aside.close]
    exact runs.writer
  pinger := by
    show PingerFits s.pinging s.ping_op_ ws.wr_block_
    rw [aside.block]
    exact runs.pinger
  tape := runs.tape.congr (Nat.le_refl 1) rfl aside.close fun two => absurd two (Nat.lt_irrefl 1)
  opcode := by
    show ws.wr_opcode_ ≠ .close
    rw [aside.opcode]
    exact runs.opcode
  blame := by
    show ∀ o, ws.wr_block_ = some o → _
    rw [aside.block]
    exact runs.blame
  owes := runs.owes

/-- The buffer of the caller is of no concern. -/
theorem fill (runs : ReadRuns n aim s) (db : Octets) : ReadRuns n aim { s with db } :=
  ⟨runs.apart, runs.writer, runs.pinger, runs.tape, runs.opcode, runs.blame, runs.owes⟩

/-- The connection has failed. -/
theorem failed (runs : ReadRuns n aim s) :
    ReadRuns n aim { s with ws := { s.ws with failed_ := true } } :=
  ⟨runs.apart, runs.writer, runs.pinger,
    runs.tape.congr (Nat.le_refl n) rfl rfl fun _ => ⟨fun _ => rfl, id, id⟩, runs.opcode, runs.blame, runs.owes⟩

/-- No second close frame was sent where the connection has not failed. -/
theorem fresh (runs : ReadRuns n aim s) (fine : s.ws.failed_ = false) : ReadRuns 1 aim s :=
  ⟨runs.apart, runs.writer, runs.pinger, runs.tape.fresh fine, runs.opcode, runs.blame, runs.owes⟩

/-- The operation has the right to write that no other operation has. -/
theorem claimed (runs : ReadRuns n aim s) (mine : s.ws.wr_block_ = none ∨ s.ws.wr_block_ = some .read)
    (closed : Bool) :
    WriterFits s.writing s.wr_op_ (some .read) closed ∧ PingerFits s.pinging s.ping_op_ (some .read) := by
  constructor
  · refine runs.writer.congr (fun d => Fits.claimed mine ?_) fun write => ?_
    · cases d <;> simp [WriterOp.op]
    · rcases mine with free | held
      · rw [free] at write
        cases write
      · rw [held] at write
        cases write
  · exact runs.pinger.congr (Fits.claimed mine (by simp))

/-- The operation gives the right to write back. -/
theorem released (runs : ReadRuns n aim s) (mine : s.ws.wr_block_ = none ∨ s.ws.wr_block_ = some .read) :
    ReadRuns n aim { s with ws := { s.ws with wr_block_ := none } } where
  apart := runs.apart
  writer := by
    refine runs.writer.congr (fun d => ?_) fun _ => rfl
    rcases mine with free | held
    · rw [free]
    · rw [held]
      cases d <;> simp [WriterOp.op]
  pinger := by
    refine runs.pinger.congr ?_
    rcases mine with free | held
    · rw [free]
    · rw [held]
      simp
  tape := runs.tape
  opcode := runs.opcode
  blame := fun o held => by cases held
  owes := runs.owes

variable {d : ReadFrameOp}

/-- An operation that waits or is parked is not lost. -/
theorem waiting (runs : ReadRuns n aim s) (o : Op) (x : ReadFrameOp × Wait) :
    load { s with reading := some x } o = aim.load o :=
  (load_reading o runs.apart.1 x).trans (runs.owes o)

/-- The operation returns, to be called again. -/
theorem wp_wait (runs : ReadRuns n aim s) (within : n ≤ most) {w : Wait} (waits : d.Waits w)
    (holds : d.Holds → s.ws.wr_block_ = some .read) (held : s.ws.wr_block_ = some .read → d.Holds ∨ d.Closes)
    (behind : 1 < n → d.Over) : Step.wp (d.wait w) (Comes most aim) s := by
  refine ⟨⟨⟨?_, runs.writer, runs.pinger, ?_, runs.opcode⟩, fun _ => .inl (Option.some_ne_none _)⟩,
    fun o => runs.waiting o _⟩
  · show ReaderFits (some (d, w)) s.rd_op_ s.ws.wr_block_
    rw [runs.apart.2]
    exact ReaderFits.wait waits holds held
  · refine runs.tape.congr within rfl rfl fun two => ⟨id, id, fun _ e v same => ?_⟩
    cases same
    exact behind two

/-- The operation is parked behind another one that has the right to write. -/
theorem wp_park (runs : ReadRuns 1 aim s) (parks : d.Parks) (busy : s.ws.wr_block_ ≠ none)
    (free : s.ws.wr_block_ ≠ some .read) : Step.wp d.park (Comes (most + 1) aim) s := by
  unfold ReadFrameOp.park assert
  rw [Step.wp_get_bind, runs.apart.2, Option.isNone_none]
  refine ⟨⟨⟨?_, runs.writer, runs.pinger, ?_, runs.opcode⟩, fun _ => ?_⟩,
    fun o => (load_rd_op o runs.apart.2 d).trans (runs.owes o)⟩
  · show ReaderFits s.reading (some d) s.ws.wr_block_
    rw [runs.apart.1]
    exact ReaderFits.park parks free
  · exact runs.tape.congr (Nat.le_add_left 1 most) rfl rfl fun two => absurd two (Nat.lt_irrefl 1)
  · -- The operation that has the right to write is under way.
    cases held : s.ws.wr_block_ with
    | none => exact absurd held busy
    | some op =>
      have other : ∀ e : WriterOp, op = e.op → s.writing ≠ none := by
        rintro e rfl
        obtain ⟨e', w, under, -⟩ := runs.writer.held e held
        simp [under]
      cases op with
      | read => exact absurd held free
      | write => exact .inr (.inl (other (.write { cb := [], fin := true }) rfl))
      | close => exact .inr (.inl (other (.close { fb := [] }) rfl))
      | ping =>
        obtain ⟨e, w, under, -⟩ := runs.pinger.held held
        exact .inr (.inr (by simp [under]))

/-- The operation is done: it gives the right to write back if it has it. -/
theorem wp_upcall (runs : ReadRuns n aim s) (within : n ≤ most) (ec : Option ErrorCode) :
    Step.wp (d.upcall ec) (Comes most aim) s := by
  unfold ReadFrameOp.upcall release
  rw [wp_change_bind]
  by_cases mine : s.ws.wr_block_ = some .read
  · rw [if_pos mine]
    have given := runs.released (.inr mine)
    have fits : Async.Fits n { s with ws := { s.ws with wr_block_ := none } } := by
      refine ⟨?_, given.writer, given.pinger, given.tape, given.opcode⟩
      show ReaderFits s.reading s.rd_op_ none
      rw [runs.apart.1, runs.apart.2]
      exact ReaderFits.idle (by simp)
    refine wp_done fits within (wp_orElse (wp_maybeInvokePing fits fun held => absurd rfl held)
      (wp_maybeInvokeWr fits fun held => absurd rfl held)) ?_ given.owes
    rintro ⟨noPing, noWr⟩ parked
    exact parked.elim (absurd runs.apart.2) fun parked => parked.elim (absurd noWr) (absurd noPing)
  · rw [if_neg mine]
    have fits : Async.Fits n s := by
      refine ⟨?_, runs.writer, runs.pinger, runs.tape, runs.opcode⟩
      rw [runs.apart.1, runs.apart.2]
      exact ReaderFits.idle mine
    have blamed : s.ws.wr_block_ ≠ none → s.wr_op_ ≠ none ∨ s.ping_op_ ≠ none → aim.why := by
      intro busy slots
      obtain ⟨o, held⟩ := Option.ne_none_iff_exists'.mp busy
      exact runs.blame o held (fun same => mine (same ▸ held)) slots
    refine wp_done fits within (wp_orElse (wp_maybeInvokePing fits fun busy some_ => blamed busy (.inr some_))
      (wp_maybeInvokeWr fits fun busy some_ => blamed busy (.inl some_))) ?_ runs.owes
    rintro ⟨noPing, noWr⟩ parked
    exact parked.elim (absurd runs.apart.2) fun parked => parked.elim (absurd noWr) (absurd noPing)

/-- The connection is closed behind a close frame, or behind one that failed it. -/
theorem wp_closing (runs : ReadRuns n aim s) (within : n ≤ most)
    {state : ReadState} (closes : state = .do_teardown_1 ∧ n ≤ 1 ∨ state = .do_fail_5) :
    Step.wp ((d.goto state).wait .teardown) (Comes most aim) s := by
  rcases closes with ⟨rfl, single⟩ | rfl
  · exact runs.wp_wait within rfl (by simp [ReadFrameOp.Holds])
      (fun _ => .inr (.inl rfl)) fun two => absurd two (Nat.not_lt.mpr single)
  · exact runs.wp_wait within rfl (by simp [ReadFrameOp.Holds])
      (fun _ => .inr (.inr rfl)) fun _ => by simp [ReadFrameOp.Over]

/-- The close frame that fails the connection is sent, where no other operation has the right to write. -/
theorem wp_fail1 (runs : ReadRuns 1 aim s) (busy : s.ws.wr_block_ ≠ none → aim.why)
    (late : s.ws.wr_close_ = true → 1 ≤ most) : Step.wp d.fail1 (Comes (most + 1) aim) s := by
  unfold ReadFrameOp.fail1
  rw [wp_change_bind]
  apply wp_assertFree_bind
  · intro free
    rw [wp_claim_bind, wp_startWrite_bind]
    have free : s.ws.wr_block_ = none := free
    obtain ⟨writer, pinger⟩ := runs.claimed (.inl free) true
    refine ⟨⟨⟨?_, writer, pinger, ?_, runs.opcode⟩, fun _ => .inl (Option.some_ne_none _)⟩,
      fun o => runs.waiting o _⟩
    · show ReaderFits _ s.rd_op_ _
      rw [runs.apart.2]
      exact ReaderFits.wait rfl (fun _ => rfl) fun _ => .inl (by simp [ReadFrameOp.Holds])
    · -- The frame is the first one, or the second behind that of a close operation.
      obtain ⟨k, few, ended, noted, -⟩ := runs.tape
      refine ⟨k + 1, ?_, ended.close rfl, ⟨fun _ => Nat.succ_pos k, fun _ => rfl⟩,
        fun _ => ⟨rfl, runs.apart.2, ?_⟩⟩
      · by_cases first : k = 0
        · omega
        · have := late (noted.mpr (by omega))
          omega
      · intro e w same
        cases same
        simp [ReadFrameOp.Over]
  · exact fun held => ⟨rfl, busy held⟩

/-- The right to write is claimed, unless the operation has it. -/
theorem wp_claimOrHeld_bind {α : Type} {Q : Except Fault α → Async lib → Prop} {m : Unit → OpStep lib α}
    (mine : s.ws.wr_block_ = none ∨ s.ws.wr_block_ = some .read)
    (next : Step.wp (m ()) Q { s with ws := { s.ws with wr_block_ := some .read } }) :
    Step.wp (ReadFrameOp.claimOrHeld >>= m) Q s := by
  unfold ReadFrameOp.claimOrHeld
  rw [Step.bind_assoc, Step.wp_get_bind]
  rcases mine with free | held
  · rw [free, Option.isNone_none, if_pos rfl, wp_claim_bind]
    exact next
  · rw [held, Option.isNone_some, if_neg Bool.false_ne_true]
    refine wp_assertHeld_bind held ?_
    rw [← held] at next
    exact next

/-- The answer to a close frame is the first close frame that is sent. -/
theorem wp_close (runs : ReadRuns 1 aim s) (mine : s.ws.wr_block_ = none ∨ s.ws.wr_block_ = some .read)
    (fresh : s.ws.wr_close_ = false) : Step.wp d.close (Comes (most + 1) aim) s := by
  unfold ReadFrameOp.close
  apply wp_claimOrHeld_bind mine
  rw [wp_change_bind, wp_startWrite_bind]
  obtain ⟨writer, pinger⟩ := runs.claimed mine true
  refine ⟨⟨⟨?_, writer, pinger, ?_, runs.opcode⟩, fun _ => .inl (Option.some_ne_none _)⟩,
    fun o => runs.waiting o _⟩
  · show ReaderFits _ s.rd_op_ _
    rw [runs.apart.2]
    exact ReaderFits.wait rfl (fun _ => rfl) fun _ => .inl (by simp [ReadFrameOp.Holds])
  · have once := runs.tape.close (t := { s with
      ws := { s.ws with wr_close_ := true }, sent := s.sent ++ [⟨some .close, d.fb⟩] }) fresh rfl rfl rfl
    exact once.congr (Nat.le_add_left 1 most) rfl rfl fun two => absurd two (Nat.lt_irrefl 1)

end ReadRuns

/-- What holds while the read operation goes on reading: it does not have the right to write. -/
structure ReadsOn (aim : Aim) (s : Async lib) : Prop extends ReadRuns 1 aim s where
  free : s.ws.wr_block_ ≠ some .read

namespace ReadsOn

open Async

variable {s : Async lib} {d : ReadFrameOp}

theorem change (runs : ReadsOn aim s) {ws : StreamBase lib} (aside : s.ws.Aside ws) :
    ReadsOn aim { s with ws } where
  toReadRuns := runs.toReadRuns.change aside
  free := by
    show ws.wr_block_ ≠ some .read
    rw [aside.block]
    exact runs.free

theorem fill (runs : ReadsOn aim s) (db : Octets) : ReadsOn aim { s with db } :=
  ⟨runs.toReadRuns.fill db, runs.free⟩

/-- The operation waits for the stream below without the right to write. -/
theorem wp_wait (runs : ReadsOn aim s) {w : Wait} (waits : d.Waits w) (free : ¬d.Holds) :
    Step.wp (d.wait w) (Comes (most + 1) aim) s :=
  runs.toReadRuns.wp_wait (Nat.le_add_left 1 most) waits (fun holds => absurd holds free)
    (fun held => absurd held runs.free) fun two => absurd two (Nat.lt_irrefl 1)

theorem wp_readFh (runs : ReadsOn aim s) : Step.wp d.readFh (Comes (most + 1) aim) s :=
  runs.wp_wait (Exists.intro 2 rfl) (by simp [ReadFrameOp.Holds])

theorem wp_readPayload1 (runs : ReadsOn aim s) : Step.wp d.readPayload1 (Comes (most + 1) aim) s :=
  runs.wp_wait (Exists.intro _ rfl) (by simp [ReadFrameOp.Holds])

theorem wp_inflatePayload1 (runs : ReadsOn aim s) : Step.wp d.inflatePayload1 (Comes (most + 1) aim) s := by
  unfold ReadFrameOp.inflatePayload1
  rw [Step.wp_get_bind]
  exact runs.wp_wait (Exists.intro _ rfl) (by simp [ReadFrameOp.Holds])

theorem wp_frameDone (runs : ReadsOn aim s) : Step.wp d.frameDone (Comes (most + 1) aim) s := by
  unfold ReadFrameOp.frameDone
  rw [Step.wp_get_bind]
  exact runs.toReadRuns.wp_upcall (Nat.le_add_left 1 most) none

/-- The connection is failed: a close frame is sent now or later, or was sent. -/
theorem wp_fail (runs : ReadsOn aim s) (code : CloseCode) : Step.wp (d.fail code) (Comes (most + 1) aim) s := by
  unfold ReadFrameOp.fail
  rw [Step.wp_get_bind]
  apply Step.wp_ite
  · exact fun _ => runs.toReadRuns.wp_closing (Nat.le_add_left 1 most) (.inr rfl)
  · intro fresh
    rw [Step.wp_get_bind]
    have aside := StreamBase.Aside.writeClose s.ws { code := code.toUInt16 }
    have runs := runs.change aside
    apply Step.wp_ite
    · intro busy
      exact runs.toReadRuns.wp_park (.inr (.inr rfl)) (Option.isSome_iff_ne_none.mp busy) runs.free
    · intro free
      refine runs.toReadRuns.wp_fail1 (fun busy => absurd (Option.isSome_iff_ne_none.mpr busy) free) fun closed => ?_
      exact absurd (aside.close.symm.trans closed) fresh

end ReadsOn

/-- The answer to a ping is sent, or the ping is ignored behind a close frame. -/
theorem ReadRuns.wp_pong {s : Async lib} {d : ReadFrameOp} (runs : ReadRuns 1 aim s)
    (mine : s.ws.wr_block_ = none ∨ s.ws.wr_block_ = some .read) :
    Step.wp d.pong (Async.Comes (most + 1) aim) s := by
  unfold ReadFrameOp.pong
  rw [Step.wp_get_bind]
  apply Step.wp_ite
  · -- Behind a close frame, the right to write is given back and reading goes on.
    intro closed
    rw [Step.wp_get_bind]
    apply Step.wp_ite
    · intro busy
      have held : s.ws.wr_block_ = some .read := mine.resolve_left (Option.isSome_iff_ne_none.mp busy)
      refine wp_assertHeld_bind held ?_
      rw [wp_change_bind]
      exact ReadsOn.wp_readFh ⟨runs.released mine, by simp⟩
    · intro free
      have none_ : s.ws.wr_block_ = none := by simpa using free
      exact ReadsOn.wp_readFh ⟨runs, by simp [none_]⟩
  · intro fresh
    apply wp_claimOrHeld_bind mine
    rw [wp_startWrite_bind]
    obtain ⟨writer, pinger⟩ := runs.claimed mine s.ws.wr_close_
    refine ⟨⟨⟨?_, writer, pinger, ?_, runs.opcode⟩, fun _ => .inl (Option.some_ne_none _)⟩,
      fun o => runs.waiting o _⟩
    · show ReaderFits _ s.rd_op_ _
      rw [runs.apart.2]
      exact ReaderFits.wait rfl (fun _ => rfl) fun _ => .inl (by simp [ReadFrameOp.Holds])
    · exact runs.tape.plain (by simpa using fresh) (Nat.le_add_left 1 most)
        (x := ⟨some .pong, d.fb⟩) (by simp) rfl rfl

namespace ReadsOn

open Async

variable {s : Async lib} {d : ReadFrameOp}

/-- A control frame is processed. -/
theorem wp_control (runs : ReadsOn aim s) : Step.wp d.control (Comes (most + 1) aim) s := by
  unfold ReadFrameOp.control
  apply Step.wp_ite
  · -- A ping is answered now or later.
    intro ping
    dsimp only
    rw [Step.wp_get_bind]
    apply Step.wp_ite
    · exact fun closed => runs.wp_readFh
    · intro fresh
      rw [Step.wp_get_bind]
      have runs := runs.change (StreamBase.Aside.writePing s.ws .pong d.fb)
      apply Step.wp_ite
      · intro busy
        rw [Step.wp_get_bind]
        refine wp_assert_bind (bne_iff_ne.mpr runs.free) ?_
        exact runs.toReadRuns.wp_park (.inl rfl) (Option.isSome_iff_ne_none.mp busy) runs.free
      · exact fun free => runs.toReadRuns.wp_pong (.inl (Option.not_isSome_iff_eq_none.mp free))
  · intro noPing
    apply Step.wp_ite
    · exact fun pong => runs.wp_readFh
    · -- A close frame fails the connection, is answered now or later, or was answered before.
      intro noPong
      rw [Step.wp_get_bind]
      rcases readClose lib s.ws.cr_ d.fb with ⟨cr, code⟩
      dsimp only
      rw [wp_change_bind]
      have runs : ReadsOn aim { s with ws := { s.ws with cr_ := cr } } := runs.change ⟨rfl, rfl, rfl⟩
      apply Step.wp_ite
      · exact fun bad => runs.wp_fail code
      · intro good
        rw [Step.wp_get_bind]
        apply Step.wp_ite
        · intro fresh
          rw [Step.wp_get_bind]
          have aside := StreamBase.Aside.replyClose { s.ws with cr_ := cr }
          have runs := runs.change aside
          apply Step.wp_ite
          · intro busy
            exact runs.toReadRuns.wp_park (.inr (.inl rfl)) (Option.isSome_iff_ne_none.mp busy) runs.free
          · intro free
            refine runs.toReadRuns.wp_close (.inl (Option.not_isSome_iff_eq_none.mp free)) ?_
            exact aside.close.trans (by simpa using fresh)
        · exact fun closed => runs.toReadRuns.wp_closing (Nat.le_add_left 1 most) (.inl ⟨rfl, Nat.le_refl 1⟩)

/-- A piece of a payload is taken. -/
theorem wp_readPayload2 (runs : ReadsOn aim s) (pb : Octets) :
    Step.wp (d.readPayload2 pb) (Comes (most + 1) aim) s := by
  unfold ReadFrameOp.readPayload2
  dsimp only
  rcases unmask d.fh d.key pb with ⟨text, key⟩
  dsimp only
  rw [Step.wp_get_bind]
  have aside := StreamBase.Aside.checkText s.ws text (d.remain - pb.length == 0 && d.fh.fin)
  generalize s.ws.checkText text (d.remain - pb.length == 0 && d.fh.fin) = read at aside ⊢
  obtain ⟨valid, ws⟩ := read
  dsimp only
  rw [wp_change_bind]
  apply Step.wp_ite
  · exact fun wrong => (runs.change aside).wp_fail .bad_payload
  · intro right
    rw [Step.wp_modify_bind]
    have runs := (runs.change aside).fill (s.db ++ text)
    apply Step.wp_ite
    · exact fun more => runs.wp_readPayload1
    · exact fun last => runs.wp_frameDone

/-- A payload is read, piece by piece. -/
theorem wp_readPayload (runs : ReadsOn aim s) : Step.wp d.readPayload (Comes (most + 1) aim) s := by
  unfold ReadFrameOp.readPayload
  apply Step.wp_ite
  · exact fun nothing => runs.wp_frameDone
  · intro some_
    rw [Step.wp_get_bind]
    apply Step.wp_ite
    · exact fun large => runs.wp_fail .too_big
    · intro small
      rw [wp_change_bind]
      have runs : ReadsOn aim { s with ws := s.ws.grow d.fh.len } := runs.change ⟨rfl, rfl, rfl⟩
      exact runs.wp_readPayload1

/-- A piece of a compressed payload is taken. -/
theorem wp_inflatePayload2 (runs : ReadsOn aim s) (input : Octets) :
    Step.wp (d.inflatePayload2 input) (Comes (most + 1) aim) s := by
  unfold ReadFrameOp.inflatePayload2
  dsimp only
  rcases unmask d.fh d.key input with ⟨text, key⟩
  dsimp only
  rw [Step.wp_get_bind]
  have aside := StreamBase.Aside.inflateFrame s.ws s.db text (d.remain - input.length == 0 && d.fh.fin)
  generalize s.ws.inflateFrame s.db text (d.remain - input.length == 0 && d.fh.fin) = read at aside ⊢
  obtain ⟨out, ec, ws⟩ := read
  dsimp only
  rw [Step.wp_set_bind]
  have runs := (runs.change aside).fill (s.db ++ out)
  cases ec with
  | some ec => exact runs.toReadRuns.wp_upcall (Nat.le_add_left 1 most) (some ec)
  | none =>
    dsimp only
    rw [Step.wp_get_bind]
    have aside := StreamBase.Aside.checkText ws out (d.remain - input.length == 0 && d.fh.fin)
    generalize ws.checkText out (d.remain - input.length == 0 && d.fh.fin) = read at aside ⊢
    obtain ⟨valid, ws'⟩ := read
    dsimp only
    rw [wp_change_bind]
    have runs := runs.change aside
    apply Step.wp_ite
    · exact fun wrong => runs.wp_fail .bad_payload
    · intro right
      apply Step.wp_ite
      · exact fun more => runs.wp_inflatePayload1
      · intro last
        rw [wp_change_bind]
        exact (runs.change (StreamBase.Aside.endInflate ws' d.fh.fin)).wp_frameDone

/-- A compressed payload is read, even if it is empty. -/
theorem wp_inflatePayload (runs : ReadsOn aim s) : Step.wp d.inflatePayload (Comes (most + 1) aim) s := by
  unfold ReadFrameOp.inflatePayload
  apply Step.wp_ite
  · exact fun nothing => runs.wp_inflatePayload2 []
  · exact fun some_ => runs.wp_inflatePayload1

/-- The variable part of a frame header is taken. -/
theorem wp_readFh2 (runs : ReadsOn aim s) (more : Octets) :
    Step.wp (d.readFh2 more) (Comes (most + 1) aim) s := by
  unfold ReadFrameOp.readFh2
  rw [Step.wp_get_bind]
  have aside := StreamBase.Aside.readFh2 s.ws d.fh (d.fb ++ more)
  generalize s.ws.readFh2 d.fh (d.fb ++ more) = read at aside ⊢
  obtain ⟨fh, fb, code, ws⟩ := read
  dsimp only
  rw [wp_change_bind]
  have runs := runs.change aside
  apply Step.wp_ite
  · exact fun bad => runs.wp_fail code
  · intro good
    apply Step.wp_ite
    · -- A control frame is processed behind its payload.
      intro control
      apply Step.wp_ite
      · exact fun payload => runs.wp_wait (Exists.intro _ rfl) (by simp [ReadFrameOp.Holds])
      · exact fun nothing => runs.wp_control
    · intro data
      -- Whether a message begins or goes on, its payload is read.
      have payload : ∀ t : Async lib, ReadsOn aim t → Step.wp (if (fh.len == 0 && !fh.fin) = true
          then ReadFrameOp.frameDone { d with fh, fb }
          else do
            if (!(← get).ws.compressed) = true then ReadFrameOp.readPayload { d with fh, fb }
            else ReadFrameOp.inflatePayload { d with fh, fb }) (Comes (most + 1) aim) t := by
        intro t runs
        apply Step.wp_ite
        · exact fun nothing => runs.wp_frameDone
        · intro some_
          rw [Step.wp_get_bind]
          apply Step.wp_ite
          · exact fun plain => runs.wp_readPayload
          · exact fun compressed => runs.wp_inflatePayload
      apply Step.wp_ite
      · intro first
        rw [wp_change_bind]
        exact payload _ (runs.change (StreamBase.Aside.rdBegin ws))
      · intro next
        exact payload _ runs

/-- The fixed part of a frame header is taken. -/
theorem wp_readFh1 (runs : ReadsOn aim s) (b : Octets) : Step.wp (d.readFh1 b) (Comes (most + 1) aim) s := by
  unfold ReadFrameOp.readFh1
  dsimp only
  rw [Step.wp_get_bind]
  have aside := StreamBase.Aside.readFh1 s.ws d.fh ((d.fb ++ b).getD 0 0) ((d.fb ++ b).getD 1 0)
  generalize s.ws.readFh1 d.fh ((d.fb ++ b).getD 0 0) ((d.fb ++ b).getD 1 0) = read at aside ⊢
  obtain ⟨fh, k, code, ws⟩ := read
  dsimp only
  rw [wp_change_bind]
  have runs := runs.change aside
  apply Step.wp_ite
  · exact fun bad => runs.wp_fail code
  · intro good
    apply Step.wp_ite
    · exact fun nothing => runs.wp_readFh2 []
    · exact fun more => runs.wp_wait (Exists.intro _ rfl) (by simp [ReadFrameOp.Holds])

/-- The payload of a control frame is taken. -/
theorem wp_controlPayload (runs : ReadsOn aim s) (mb : Octets) :
    Step.wp (d.controlPayload mb) (Comes (most + 1) aim) s := by
  unfold ReadFrameOp.controlPayload
  split
  exact runs.wp_control

end ReadsOn

/-- What holds when the read operation is called again with what it waited for. -/
structure ReadCalled (most : Nat) (aim : Aim) (d : ReadFrameOp) (s : Async lib) : Prop extends
    ReadRuns (most + 1) aim s where
  waits : ∃ w, d.Waits w
  holds : d.Holds → s.ws.wr_block_ = some .read
  held : s.ws.wr_block_ = some .read → d.Holds ∨ d.Closes
  single : ¬d.Over → ReadRuns 1 aim s

namespace ReadCalled

open Async

variable {s : Async lib} {d : ReadFrameOp}

/-- An operation that reads does not have the right to write. -/
theorem readsOn (called : ReadCalled most aim d s) (reads : ¬d.Over ∧ ¬d.Holds ∧ ¬d.Closes) :
    ReadsOn aim s where
  toReadRuns := called.single reads.1
  free := fun held => (called.held held).elim reads.2.1 reads.2.2

/-- The operation goes on that was called through the queue. -/
theorem wp_posted (called : ReadCalled most aim d s)
    (fails : d.state = .do_fail_3 → (s.ws.wr_block_ ≠ none → aim.why) ∧
      (s.ws.failed_ = false → s.ws.wr_close_ = true → 1 ≤ most)) :
    Step.wp d.posted (Comes (most + 1) aim) s := by
  have upcall : ∀ ec, Step.wp (d.upcall ec) (Comes (most + 1) aim) s :=
    called.toReadRuns.wp_upcall (Nat.le_refl _)
  unfold ReadFrameOp.posted
  cases state : d.state with
  | do_pong_resume_1 =>
    have held := called.holds (by simp [ReadFrameOp.Holds, state])
    have runs := called.single (by simp [ReadFrameOp.Over, state])
    rw [Step.wp_get_bind]
    apply Step.wp_ite
    · exact fun failed => upcall _
    · exact fun fine => runs.wp_pong (.inr held)
  | do_close_resume_1 =>
    have held := called.holds (by simp [ReadFrameOp.Holds, state])
    have runs := called.single (by simp [ReadFrameOp.Over, state])
    refine wp_assertHeld_bind held ?_
    rw [Step.wp_get_bind]
    apply Step.wp_ite
    · exact fun failed => upcall _
    · intro fine
      rw [Step.wp_get_bind]
      apply Step.wp_ite
      · exact fun closed => upcall _
      · exact fun fresh => runs.wp_close (.inr held) (by simpa using fresh)
  | do_fail_3 =>
    have runs := called.single (by simp [ReadFrameOp.Over, state])
    obtain ⟨busy, late⟩ := fails state
    rw [Step.wp_get_bind]
    apply Step.wp_ite
    · exact fun failed => upcall _
    · exact fun fine => runs.wp_fail1 busy (late (by simpa using fine))
  | _ => exact upcall none

/-- The operation goes on with what it waited for. -/
theorem wp_call (called : ReadCalled most aim d s) (ec : Option ErrorCode) (octets : Octets)
    (fails : d.state = .do_fail_3 → (s.ws.wr_block_ ≠ none → aim.why) ∧
      (s.ws.failed_ = false → s.ws.wr_close_ = true → 1 ≤ most)) :
    Step.wp (d.call ec octets) (Comes (most + 1) aim) s := by
  have upcall : ∀ ec, Step.wp (d.upcall ec) (Comes (most + 1) aim) s :=
    called.toReadRuns.wp_upcall (Nat.le_refl _)
  obtain ⟨w, waits⟩ := called.waits
  have reads : ∀ state : ReadState, d.state = state → state ∈ [.do_read_payload_2,
      .do_inflate_payload_2, .do_read_fh_1, .do_read_fh_2, ReadState.do_control_payload] →
      ReadsOn aim s := by
    rintro state same among
    apply called.readsOn
    simp only [ReadFrameOp.Over, ReadFrameOp.Holds, ReadFrameOp.Closes, same]
    revert among
    cases state <;> simp
  unfold ReadFrameOp.call
  dsimp only
  generalize (if d.state = .do_teardown_1 ∧ ec = some .eof then none else ec) = ec
  cases ec with
  | some ec => exact upcall _
  | none =>
    dsimp only
    cases state : d.state with
    | do_read_payload_2 => exact (reads _ state (by simp)).wp_readPayload2 octets
    | do_inflate_payload_2 => exact (reads _ state (by simp)).wp_inflatePayload2 octets
    | do_read_fh_1 => exact (reads _ state (by simp)).wp_readFh1 octets
    | do_read_fh_2 => exact (reads _ state (by simp)).wp_readFh2 octets
    | do_control_payload => exact (reads _ state (by simp)).wp_controlPayload octets
    | do_pong_resume_1 | do_close_resume_1 | do_fail_3 | do_call_handler => exact called.wp_posted fails
    | do_pong_1 =>
      -- Behind a pong the right to write is given back, and reading goes on.
      have held := called.holds (by simp [ReadFrameOp.Holds, state])
      have runs := called.single (by simp [ReadFrameOp.Over, state])
      dsimp only
      rw [wp_change_bind]
      exact ReadsOn.wp_readFh ⟨runs.released (.inr held), by simp⟩
    | do_teardown =>
      have runs := called.single (by simp [ReadFrameOp.Over, state])
      exact runs.wp_closing (Nat.le_add_left 1 most) (.inl ⟨rfl, Nat.le_refl 1⟩)
    | do_fail_4 => exact called.toReadRuns.wp_closing (Nat.le_refl _) (.inr rfl)
    | do_teardown_1 | do_fail_5 => exact upcall _
    | do_start | do_pong_resume | do_close_resume | do_fail_2 =>
      simp only [ReadFrameOp.Waits, state] at waits

/-- A failure of the connection is noted before the operation is called. -/
theorem failed (called : ReadCalled most aim d s) :
    ReadCalled most aim d { s with ws := { s.ws with failed_ := true } } :=
  ⟨called.toReadRuns.failed, called.waits, called.holds, called.held, fun on => (called.single on).failed⟩

/-- The operation goes on with what a read, a write or the queue reports. -/
theorem wp_complete (called : ReadCalled most aim d s) (ec : Option ErrorCode) (octets : Octets)
    (fails : d.state = .do_fail_3 → (s.ws.wr_block_ ≠ none → aim.why) ∧
      (s.ws.failed_ = false → s.ws.wr_close_ = true → 1 ≤ most)) :
    Step.wp (d.complete ec octets) (Comes (most + 1) aim) s := by
  unfold ReadFrameOp.complete
  cases ec with
  | none =>
    rw [Option.isSome_none, if_neg Bool.false_ne_true]
    exact called.wp_call none octets fails
  | some ec =>
    rw [Option.isSome_some, if_pos rfl, wp_change_bind]
    exact called.failed.wp_call (some ec) octets fun state => ⟨(fails state).1, fun fine => by cases fine⟩

end ReadCalled

end Beast.Websocket
