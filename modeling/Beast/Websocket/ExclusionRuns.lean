import Beast.Websocket.ExclusionWrites
import Beast.Websocket.Stored

/-! The operations of one stream in any order: who writes, what is sent last, and that none is lost. -/

namespace Beast.Websocket

open Async

variable {lib : Lib}

/-- The operation that an event starts, if it starts one. -/
def Event.starts : Event → Option Op
  | .startRead _ => some .read
  | .startWrite _ _ => some .write
  | .startClose _ => some .close
  | .startPing _ _ => some .ping
  | .endRead _ _ | .endWrite _ | .endPing _ => none

namespace Async

/-- The operation that runs when an event happens. -/
def runs (s : Async lib) : Event → Option Op
  | .startRead _ | .endRead _ _ => some .read
  | .startWrite _ _ => some .write
  | .startClose _ => some .close
  | .startPing _ _ | .endPing _ => some .ping
  | .endWrite _ => s.writing.map fun x => x.1.op

/-- Why an assertion on the right to write may fail: another operation has the right while one is parked,
or while the read operation fails the connection that was parked for that. -/
def Blamed (s : Async lib) (e : Event) : Prop :=
  ∃ own o, s.runs e = some own ∧ s.ws.wr_block_ = some o ∧ o ≠ own ∧
    (s.Parked ∨ own = .read ∧ ∃ d w, s.reading = some (d, w) ∧ d.state = .do_fail_3)

/-- The read operation is called that was parked to fail the connection, and meanwhile a close frame was sent. -/
def Late (s : Async lib) (e : Event) : Prop :=
  ∃ d w octets, e = .endRead none octets ∧ s.reading = some (d, w) ∧ d.state = .do_fail_3 ∧
    s.ws.failed_ = false ∧ s.ws.wr_close_ = true

/-- What an event is to come to. -/
def aim (s : Async lib) (e : Event) : Aim where
  why := s.Blamed e
  load := fun o => s.load o + (e.starts.any fun op => op == o).toNat

variable {s : Async lib} {most : Nat}

/-- A read operation is started. -/
theorem wp_startRead (orderly : s.Orderly (most + 1)) (idle : s.readIdle) (db : Octets) :
    Step.wp (startRead db) (Comes (most + 1) (s.aim (.startRead db))) s := by
  have runs : ReadRuns (most + 1) (s.aim (.startRead db)) { s with db } :=
    ⟨idle, orderly.writer, orderly.pinger, orderly.tape, orderly.opcode,
      fun o held other slots => ⟨.read, o, rfl, held, other, .inl (.inr slots)⟩, fun o => rfl⟩
  unfold startRead
  rw [Step.wp_modify_bind]
  show Step.wp (ReadFrameOp.start {}) _ _
  unfold ReadFrameOp.start
  rw [Step.wp_get_bind]
  have free : s.ws.wr_block_ ≠ some .read := by
    intro held
    obtain ⟨d, w, under, -⟩ := orderly.reader.held held
    rw [idle.1] at under
    cases under
  apply Step.wp_ite
  · intro failed
    exact runs.wp_wait (Nat.le_refl _) rfl (by simp [ReadFrameOp.Holds]) (fun held => absurd held free)
      fun _ => by simp [ReadFrameOp.Over]
  · intro fine
    exact ReadsOn.wp_readFh ⟨runs.fresh (by simpa using fine), free⟩

/-- The read operation is called again. -/
theorem wp_endRead (orderly : s.Orderly (most + 1)) {ec : Option ErrorCode} {octets : Octets}
    (may : s.enabled (.endRead ec octets)) (late : s.Late (.endRead ec octets) → 1 ≤ most) :
    Step.wp (endRead ec octets) (Comes (most + 1) (s.aim (.endRead ec octets))) s := by
  obtain ⟨d, w, under, reports⟩ := may
  have unparked : s.rd_op_ = none := by
    by_contra parked
    rw [orderly.reader.apart parked] at under
    cases under
  obtain ⟨waits, holds⟩ := orderly.reader.waits d w under
  -- The operation is called from a state in which it no longer waits.
  have called : ReadCalled most (s.aim (.endRead ec octets)) d { s with reading := none } := by
    have runs : ReadRuns (most + 1) (s.aim (.endRead ec octets)) { s with reading := none } := by
      refine ⟨⟨rfl, unparked⟩, orderly.writer, orderly.pinger, ?_, orderly.opcode, ?_, ?_⟩
      · exact orderly.tape.congr (Nat.le_refl _) rfl rfl fun _ => ⟨id, id, fun _ d w same => by cases same⟩
      · exact fun o held other slots => ⟨.read, o, rfl, held, other, .inl (.inr slots)⟩
      · intro o
        have all := load_reading (s := { s with reading := none }) o rfl (d, w)
        have same : load { s with reading := some (d, w) } o = s.load o := by rw [← under]
        show _ = s.load o + 0
        rw [Nat.add_zero, ← same]
        exact all.symm
    refine ⟨runs, ⟨w, waits⟩, holds, ?_, ?_⟩
    · intro held
      obtain ⟨d', w', under', mine⟩ := orderly.reader.held held
      rw [under] at under'
      cases under'
      exact mine
    · intro reads
      obtain ⟨k, few, ended, noted, over_⟩ := orderly.tape
      have single : k ≤ 1 := by
        by_contra two
        exact reads ((over_ (by omega)).2.2 d w under)
      exact ⟨runs.apart, runs.writer, runs.pinger,
        ⟨k, single, ended, noted, fun two => absurd two (Nat.not_lt.mpr single)⟩, runs.opcode, runs.blame, runs.owes⟩
  unfold endRead
  rw [Step.wp_get_bind, under]
  dsimp only
  rw [Step.wp_modify_bind]
  -- Where the connection is to be failed, another operation may have the right to write.
  have busy : d.state = .do_fail_3 → s.ws.wr_block_ ≠ none → s.Blamed (.endRead ec octets) := by
    intro state held
    obtain ⟨o, held⟩ := Option.ne_none_iff_exists'.mp held
    refine ⟨.read, o, rfl, held, ?_, .inr ⟨rfl, d, w, under, state⟩⟩
    rintro rfl
    obtain mine | closes := called.held held
    · simp [ReadFrameOp.Holds, state] at mine
    · simp [ReadFrameOp.Closes, state] at closes
  apply Step.wp_ite
  · -- The end of a teardown is no failure of the connection.
    intro torn
    refine called.wp_call ec octets fun state => ?_
    rw [ReadFrameOp.Waits, state] at waits
    rw [waits] at torn
    cases torn
  · intro other
    cases ec with
    | some ec =>
      unfold ReadFrameOp.complete
      rw [Option.isSome_some, if_pos rfl, wp_change_bind]
      exact called.failed.wp_call (some ec) octets fun state => ⟨busy state, fun fine => by cases fine⟩
    | none =>
      refine called.wp_complete none octets fun state => ⟨busy state, fun fine closed => late ?_⟩
      exact ⟨d, w, octets, rfl, under, state, fine, closed⟩

/-- A write or close operation is started where none is under way. -/
theorem writeRuns {op : Op} {e : Event} (orderly : s.Orderly (most + 1)) (idle : s.writeIdle)
    (starts : e.starts = some op) (runs : s.runs e = some op) :
    WriteRuns (most + 1) (s.aim e) op s ∧ s.ws.wr_block_ ≠ some .write ∧ s.ws.wr_block_ ≠ some .close := by
  have free : ∀ d : WriterOp, s.ws.wr_block_ ≠ some d.op := by
    intro d held
    obtain ⟨e, w, under, -⟩ := orderly.writer.held d held
    rw [idle.1] at under
    cases under
  refine ⟨⟨idle, fun d held => absurd held (free d), orderly.reader, orderly.pinger, orderly.tape,
    orderly.opcode, fun o held other slots => ⟨op, o, runs, held, other, .inl ?_⟩, fun o => ?_⟩,
    free (.write { cb := [], fin := true }), free (.close { fb := [] })⟩
  · exact slots.imp id .inr
  · show _ = s.load o + (e.starts.any fun op => op == o).toNat
    rw [starts]
    rfl

/-- A write operation is started. -/
theorem wp_startWrite (orderly : s.Orderly (most + 1)) (idle : s.writeIdle) (fin : Bool) (bs : Octets) :
    Step.wp (WriteFrameOp.start fin bs) (Comes (most + 1) (s.aim (.startWrite fin bs))) s := by
  obtain ⟨runs, free, -⟩ := writeRuns (e := .startWrite fin bs) orderly idle rfl rfl
  unfold WriteFrameOp.start
  rw [Step.wp_get_bind]
  have begun : s.ws.Aside s.ws.beginFrame.2 ∧ s.ws.beginFrame.2.failed_ = s.ws.failed_ := by
    unfold StreamBase.beginFrame
    dsimp only
    split
    · exact ⟨StreamBase.Aside.refl, rfl⟩
    · exact ⟨⟨rfl, rfl, rfl⟩, rfl⟩
  -- The opcode of the frame is that of the stream, or that of a continuation.
  have plain : s.ws.beginFrame.1.op ≠ .close := by
    have opcode := begun.1.opcode
    show (if s.ws.beginFrame.2.wr_.cont = true then Opcode.cont else s.ws.beginFrame.2.wr_opcode_) ≠ .close
    rw [opcode]
    split
    · simp
    · exact orderly.opcode
  generalize s.ws.beginFrame = begin_ at begun plain ⊢
  obtain ⟨fh, ws⟩ := begin_
  obtain ⟨aside, failed⟩ := begun
  dsimp only
  rw [wp_change_bind]
  refine (runs.change aside fun _ known => failed.trans known).wp_maybeSuspend (Nat.le_refl _) ?_ plain
  show ws.wr_block_ ≠ some .write
  rw [aside.block]
  exact free

/-- A close operation is started. -/
theorem wp_startClose (orderly : s.Orderly (most + 1)) (idle : s.writeIdle) (cr : CloseReason) :
    Step.wp (CloseOp.start cr) (Comes (most + 1) (s.aim (.startClose cr))) s := by
  obtain ⟨runs, -, free⟩ := writeRuns (e := .startClose cr) orderly idle rfl rfl
  unfold CloseOp.start
  rw [Step.wp_get_bind]
  have aside := StreamBase.Aside.writeClose s.ws cr
  have failed : (s.ws.writeClose cr).2.failed_ = s.ws.failed_ := by
    unfold StreamBase.writeClose StreamBase.writeControl
    dsimp only
    split <;> rfl
  generalize s.ws.writeClose cr = frame at aside failed ⊢
  obtain ⟨fb, ws⟩ := frame
  dsimp only
  rw [wp_change_bind]
  refine (runs.change aside fun _ known => failed.trans known).wp_begin (Nat.le_refl _) ?_ rfl
  show ws.wr_block_ ≠ some .close
  rw [aside.block]
  exact free

/-- The write or close operation is called again. -/
theorem wp_endWrite (orderly : s.Orderly (most + 1)) {ec : Option ErrorCode}
    (may : s.enabled (.endWrite ec)) :
    Step.wp (endWrite ec) (Comes (most + 1) (s.aim (.endWrite ec))) s := by
  obtain ⟨d, w, under, reports⟩ := may
  have unparked : s.wr_op_ = none := by
    by_contra parked
    rw [orderly.writer.apart parked] at under
    cases under
  obtain ⟨waits, plain, holds⟩ := orderly.writer.waits d w under
  have mine : ∀ e : WriterOp, s.ws.wr_block_ = some e.op → e.op = d.op ∧ d.Holds w := by
    intro e held
    obtain ⟨d', w', under', same, mine⟩ := orderly.writer.held e held
    rw [under] at under'
    cases under'
    exact ⟨same.symm, mine⟩
  have runs : s.runs (.endWrite ec) = some d.op := by simp [Async.runs, under]
  have called : WriteCalled (most + 1) (s.aim (.endWrite ec)) d w { s with writing := none } := by
    refine ⟨⟨⟨rfl, unparked⟩, fun e held => (mine e held).1, orderly.reader, orderly.pinger, ?_, orderly.opcode,
      ?_, ?_⟩, waits, plain, ⟨holds, fun held => (mine d held).2⟩, orderly.writer.sends d w under⟩
    · exact orderly.tape.congr (Nat.le_refl _) rfl rfl fun _ => ⟨id, id, id⟩
    · exact fun o held other slots => ⟨d.op, o, runs, held, other, .inl (slots.imp id .inr)⟩
    · intro o
      have all := load_writing (s := { s with writing := none }) o rfl (d, w)
      have same : load { s with writing := some (d, w) } o = s.load o := by rw [← under]
      show _ = s.load o + 0
      rw [Nat.add_zero, ← same]
      exact all.symm
  unfold endWrite
  rw [Step.wp_get_bind, under]
  dsimp only
  rw [Step.wp_modify_bind]
  cases d with
  | write d =>
    apply Step.wp_ite
    · exact fun written => called.wp_complete (Nat.le_refl _) ec
    · exact fun other => called.wp_call (Nat.le_refl _) ec
  | close d =>
    apply Step.wp_ite
    · exact fun written => called.wp_completeClose (Nat.le_refl _) ec
    · exact fun other => called.wp_close (Nat.le_refl _) ec

/-- A ping operation is started. -/
theorem wp_startPing (orderly : s.Orderly (most + 1)) {op : Opcode} {payload : Octets}
    (may : s.enabled (.startPing op payload)) :
    Step.wp (PingOp.start op payload) (Comes (most + 1) (s.aim (.startPing op payload))) s := by
  obtain ⟨idle, named⟩ := may
  have plain : op ≠ .close := by
    rcases named with rfl | rfl <;> simp
  have free : s.ws.wr_block_ ≠ some .ping := by
    intro held
    obtain ⟨d, w, under, -⟩ := orderly.pinger.held held
    rw [idle.1] at under
    cases under
  unfold PingOp.start
  rw [Step.wp_get_bind]
  have aside := StreamBase.Aside.writePing s.ws op payload
  have failed : (s.ws.writePing op payload).2.failed_ = s.ws.failed_ := by
    unfold StreamBase.writePing StreamBase.writeControl
    dsimp only
    split <;> rfl
  generalize s.ws.writePing op payload = frame at aside failed ⊢
  obtain ⟨fb, ws⟩ := frame
  dsimp only
  rw [wp_change_bind]
  have runs : PingRuns (most + 1) (s.aim (.startPing op payload)) { s with ws } := by
    obtain ⟨block, close, opcode⟩ := aside
    dsimp only at block close opcode failed
    refine ⟨idle, ?_, ?_, ?_, by rw [opcode]; exact orderly.opcode, ?_, fun o => rfl⟩
    · rw [block]
      exact orderly.reader
    · rw [block, close]
      exact orderly.writer
    · exact orderly.tape.congr (Nat.le_refl _) rfl close fun _ => ⟨fun known => failed.trans known, id, id⟩
    · rw [block]
      exact fun o held other slots => ⟨.ping, o, rfl, held, other, .inl (slots.imp id .inl)⟩
  refine runs.wp_begin (Nat.le_refl _) ?_ plain
  show ws.wr_block_ ≠ some .ping
  rw [aside.block]
  exact free

/-- The ping operation is called again. -/
theorem wp_endPing (orderly : s.Orderly (most + 1)) {ec : Option ErrorCode} (may : s.enabled (.endPing ec)) :
    Step.wp (endPing ec) (Comes (most + 1) (s.aim (.endPing ec))) s := by
  obtain ⟨d, w, under, reports⟩ := may
  have unparked : s.ping_op_ = none := by
    by_contra parked
    rw [orderly.pinger.apart parked] at under
    cases under
  obtain ⟨waits, plain, holds⟩ := orderly.pinger.waits d w under
  have mine : s.ws.wr_block_ = some .ping → d.Holds w := by
    intro held
    obtain ⟨d', w', under', mine⟩ := orderly.pinger.held held
    rw [under] at under'
    cases under'
    exact mine
  have runs : PingRuns (most + 1) (s.aim (.endPing ec)) { s with pinging := none } := by
    refine ⟨⟨rfl, unparked⟩, orderly.reader, orderly.writer, ?_, orderly.opcode, ?_, ?_⟩
    · exact orderly.tape.congr (Nat.le_refl _) rfl rfl fun _ => ⟨id, id, id⟩
    · exact fun o held other slots => ⟨.ping, o, rfl, held, other, .inl (slots.imp id .inl)⟩
    · intro o
      have all := load_pinging (s := { s with pinging := none }) o rfl (d, w)
      have same : load { s with pinging := some (d, w) } o = s.load o := by rw [← under]
      show _ = s.load o + 0
      rw [Nat.add_zero, ← same]
      exact all.symm
  unfold endPing
  rw [Step.wp_get_bind, under]
  dsimp only
  rw [Step.wp_modify_bind]
  apply Step.wp_ite
  · exact fun written => runs.wp_complete (Nat.le_refl _) waits plain ⟨holds, mine⟩ ec
  · exact fun other => runs.wp_call (Nat.le_refl _) waits plain ⟨holds, mine⟩ ec

/-- Every event that may happen keeps the order, and loses no operation. -/
theorem wp_step (orderly : s.Orderly (most + 1)) {e : Event} (may : s.enabled e) (late : s.Late e → 1 ≤ most) :
    Step.wp (step e) (Comes (most + 1) (s.aim e)) s := by
  cases e with
  | startRead db => exact wp_startRead orderly may db
  | startWrite fin bs => exact wp_startWrite orderly may fin bs
  | startClose cr => exact wp_startClose orderly may cr
  | startPing op payload => exact wp_startPing orderly may
  | endRead ec octets => exact wp_endRead orderly may late
  | endWrite ec => exact wp_endWrite orderly may
  | endPing ec => exact wp_endPing orderly may

/-! ## Runs -/

/-- A stream of which no operation was started, and which has sent nothing. -/
structure Begun (s : Async lib) : Prop where
  idle : s.readIdle ∧ s.writeIdle ∧ s.pingIdle
  free : s.ws.wr_block_ = none
  fresh : s.ws.wr_close_ = false
  opcode : s.ws.wr_opcode_ ≠ .close
  silent : s.sent = [] ∧ s.called = []

/-- An event happens, and no assertion fails. -/
def Stepped (s : Async lib) (e : Event) (t : Async lib) : Prop := Step.run (step e) s = (.ok (), t)

/-- The state behind an event. -/
def next (s : Async lib) (e : Event) : Async lib := (Step.run (step e) s).2

/-- A client of which no operation was started. -/
def quiet : Async storedLib :=
  { ws :=
      { role_ := .client
        pmd_opts_ :=
          { server_window := fifteen_window, client_window := fifteen_window, level := eight_level
            memory := four_memory } } }

theorem quiet_begun : quiet.Begun :=
  ⟨⟨⟨rfl, rfl⟩, ⟨rfl, rfl⟩, rfl, rfl⟩, rfl, rfl, by simp [quiet], rfl, rfl⟩

variable {t : Async lib}

/-- A run goes on with an event that may happen. -/
theorem happens (reached : Run.Reaches Stepped enabled s t) (e : Event) (may : t.enabled e)
    (ran : (Step.run (step e) t).1 = .ok ()) : Run.Reaches Stepped enabled s (t.next e) :=
  reached.snoc may (Step.run_snd ran)

/-- An event happens that may happen. -/
def Happens (s : Async lib) (e : Event) (t : Async lib) : Prop := s.enabled e ∧ Stepped s e t

/-- The history of a run goes on with an event that may happen. -/
theorem recorded {l : List Event} (run : Run.History Happens s l t) (e : Event) (may : t.enabled e)
    (ran : (Step.run (step e) t).1 = .ok ()) : Run.History Happens s (l ++ [e]) (t.next e) :=
  run.next ⟨may, Step.run_snd ran⟩

theorem Begun.orderly (begun : s.Begun) : s.Orderly most where
  reader := by
    rw [begun.idle.1.1, begun.idle.1.2, begun.free]
    exact ReaderFits.idle (by simp)
  writer := by
    rw [begun.idle.2.1.1, begun.idle.2.1.2, begun.free]
    exact WriterFits.idle (by simp)
  pinger := by
    rw [begun.idle.2.2.1, begun.idle.2.2.2, begun.free]
    exact PingerFits.idle (by simp)
  tape := by
    refine ⟨0, Nat.zero_le _, ⟨[], [], ?_, List.forall_mem_nil _, List.forall_mem_nil _, rfl⟩, ?_, fun two => ?_⟩
    · rw [begun.silent.1]
      rfl
    · simp [begun.fresh]
    · omega
  opcode := begun.opcode
  awake := by
    rintro (parked | parked | parked)
    · exact absurd begun.idle.1.2 parked
    · exact absurd begun.idle.2.1.2 parked
    · exact absurd begun.idle.2.2.2 parked

/-- An event keeps the order, and no operation is lost with it. -/
theorem Stepped.comes (orderly : s.Orderly (most + 1)) {e : Event} (may : s.enabled e)
    (late : s.Late e → 1 ≤ most) (stepped : Stepped s e t) :
    t.Orderly (most + 1) ∧ ∀ o, t.load o = s.load o + (e.starts.any fun op => op == o).toNat :=
  (Step.wp_run stepped).mp (wp_step orderly may late)

/-- The order holds in every run. -/
theorem Begun.reaches (begun : s.Begun) (reached : Run.Reaches Stepped enabled s t) : t.Orderly 2 :=
  reached.invariant (P := fun s => s.Orderly 2)
    (fun _ _ _ orderly may stepped => (stepped.comes orderly may fun _ => Nat.le_refl 1).1) begun.orderly

/-- An operation waits for something. -/
def WaitsFor (s : Async lib) (o : Op) (w : Wait) : Prop :=
  (o = .read ∧ ∃ d, s.reading = some (d, w)) ∨ (∃ d, s.writing = some (d, w) ∧ d.op = o) ∨
    (o = .ping ∧ ∃ d, s.pinging = some (d, w))

/-- The operation that waits for a write to the stream below has the right to write. -/
theorem Orderly.writes (orderly : s.Orderly most) {o : Op} (writes : s.WaitsFor o .write) :
    s.ws.wr_block_ = some o := by
  rcases writes with ⟨rfl, d, under⟩ | ⟨d, under, rfl⟩ | ⟨rfl, d, under⟩
  · obtain ⟨waits, holds⟩ := orderly.reader.waits d .write under
    apply holds
    unfold ReadFrameOp.Waits at waits
    unfold ReadFrameOp.Holds
    revert waits
    cases d.state <;> simp
  · obtain ⟨waits, -, holds⟩ := orderly.writer.waits d .write under
    apply holds
    cases d with
    | write d =>
      simp only [WriterOp.Waits, WriteFrameOp.Waits] at waits
      refine ⟨fun state => ?_, by simp⟩
      simp [state] at waits
    | close d =>
      simp only [WriterOp.Waits, CloseOp.Waits] at waits
      intro state
      simp [state] at waits
  · exact (orderly.pinger.waits d .write under).2.2 (.inr rfl)

/-- In every state that is reached, only the operation with the right to write waits for a write, and an
assertion fails only where an operation runs while another one has that right. -/
theorem writers_exclude (begun : s.Begun) (reached : Run.Reaches Stepped enabled s t) :
    (∀ o, t.WaitsFor o .write → t.ws.wr_block_ = some o) ∧
      ∀ e f u, t.enabled e → Step.run (step e) t = (.error f, u) → f = .wr_block ∧ t.Blamed e := by
  have orderly := begun.reaches reached
  refine ⟨fun o writes => orderly.writes writes, fun e f u may ran => ?_⟩
  exact (Step.wp_run ran).mp (@wp_step _ _ 1 orderly e may fun _ => Nat.le_refl 1)

/-- Where the read operation ends while a write operation writes and a ping operation is parked, the ping
operation is called without the right to write. -/
theorem writers_exclude_blamed : ∃ t : Async storedLib, Run.Reaches Stepped enabled quiet t ∧
    t.ping_op_.isSome = true ∧ t.ws.wr_block_ = some .write ∧
      ∃ e u, t.enabled e ∧ Step.run (step e) t = (.error .wr_block, u) ∧ t.Blamed e := by
  have reached := happens (happens (happens (Relation.ReflTransGen.refl (a := quiet))
    (.startRead []) ⟨rfl, rfl⟩ rfl) (.startWrite true [1]) ⟨rfl, rfl⟩ rfl)
    (.startPing .ping []) ⟨⟨rfl, rfl⟩, .inl rfl⟩ rfl
  obtain ⟨held, fails⟩ := writers_exclude quiet_begun reached
  have may : (((quiet.next (.startRead [])).next (.startWrite true [1])).next
      (.startPing .ping [])).enabled (.endRead (some .eof) []) := ⟨_, _, rfl, Nat.zero_le 2⟩
  have ran := Step.run_snd (m := step (.endRead (some .eof) [])) (r := .error .wr_block)
    (s := ((quiet.next (.startRead [])).next (.startWrite true [1])).next (.startPing .ping [])) rfl
  exact ⟨_, reached, rfl, held .write (.inr (.inl ⟨_, rfl, rfl⟩)), _, _, may, ran, (fails _ _ _ may ran).2⟩

/-- All close frames are sent behind all other frames, and there are at most two of them. -/
theorem nothing_behind_close (begun : s.Begun) (reached : Run.Reaches Stepped enabled s t) :
    ∃ before closes, t.sent = before ++ closes ∧ (∀ x ∈ before, x.frame ≠ some .close) ∧
      (∀ x ∈ closes, x.frame = some .close) ∧ closes.length ≤ 2 ∧
      (t.ws.wr_close_ = true ↔ closes ≠ []) := by
  obtain ⟨n, few, ⟨before, closes, sent, other, all, rfl⟩, noted, -⟩ := (begun.reaches reached).tape
  exact ⟨before, closes, sent, other, all, few, noted.trans List.length_pos_iff⟩

/-- A close operation and a read operation that fails the connection may send a close frame each. -/
theorem nothing_behind_close_twice : ∃ t : Async storedLib, Run.Reaches Stepped enabled quiet t ∧
    ∃ before closes, t.sent = before ++ closes ∧ (∀ x ∈ before, x.frame ≠ some .close) ∧
      (∀ x ∈ closes, x.frame = some .close) ∧ closes.length = 2 := by
  have reached := happens (happens (happens (happens (happens (happens (happens (happens
    (Relation.ReflTransGen.refl (a := quiet))
    (.startRead []) ⟨rfl, rfl⟩ rfl) (.startPing .ping []) ⟨⟨rfl, rfl⟩, .inl rfl⟩ rfl)
    (.startClose { code := 1000 }) ⟨rfl, rfl⟩ rfl) (.endPing none) ⟨_, _, rfl, rfl⟩ rfl)
    (.endRead none [0xff, 0xff]) ⟨_, _, rfl, rfl⟩ rfl) (.endWrite none) ⟨_, _, rfl, rfl, rfl⟩ rfl)
    (.endWrite none) ⟨_, _, rfl, rfl⟩ rfl) (.endRead none []) ⟨_, _, rfl, rfl, rfl⟩ rfl
  obtain ⟨before, closes, sent, other, all, few, -⟩ := nothing_behind_close quiet_begun reached
  refine ⟨_, reached, before, closes, sent, other, all, Nat.le_antisymm few ?_⟩
  -- What was sent is a ping and two close frames.
  have frames := congrArg (List.countP fun x : Sent => x.frame == some .close) sent
  have none_ : before.countP (fun x : Sent => x.frame == some .close) = 0 :=
    List.countP_eq_zero.mpr fun x there => by simpa using other x there
  rw [List.countP_append, none_, Nat.zero_add] at frames
  exact Nat.le_trans (Nat.le_of_eq (Eq.trans (by decide) frames)) List.countP_le_length

/-- One close frame is sent at most, where no read operation fails the connection late. -/
theorem closes_once (begun : s.Begun)
    (reached : Run.Reaches Stepped (fun s e => s.enabled e ∧ ¬s.Late e) s t) :
    ∃ before closes, t.sent = before ++ closes ∧ (∀ x ∈ before, x.frame ≠ some .close) ∧
      (∀ x ∈ closes, x.frame = some .close) ∧ closes.length ≤ 1 := by
  have orderly : t.Orderly 1 := reached.invariant (P := fun s => s.Orderly 1)
    (fun _ _ _ orderly may stepped =>
      (@Stepped.comes _ _ 0 _ orderly _ may.1 (fun late => absurd late may.2) stepped).1) begun.orderly
  obtain ⟨n, few, ⟨before, closes, sent, other, all, rfl⟩, -⟩ := orderly.tape
  exact ⟨before, closes, sent, other, all, few⟩

/-- A close operation alone sends one close frame. -/
theorem closes_once_alone : ∃ t : Async storedLib,
    Run.Reaches Stepped (fun s e => s.enabled e ∧ ¬s.Late e) quiet t ∧ t.sent.length = 1 ∧
      ∃ before closes, t.sent = before ++ closes ∧ (∀ x ∈ before, x.frame ≠ some .close) ∧
        (∀ x ∈ closes, x.frame = some .close) ∧ closes.length ≤ 1 := by
  have early : ¬quiet.Late (.startClose { code := 1000 }) := by
    rintro ⟨d, w, octets, same, -⟩
    cases same
  have reached : Run.Reaches Stepped (fun s e => s.enabled e ∧ ¬s.Late e) quiet
      (quiet.next (.startClose { code := 1000 })) :=
    Run.Reaches.snoc (a := .startClose { code := 1000 }) .refl ⟨⟨rfl, rfl⟩, early⟩ (Step.run_snd rfl)
  exact ⟨_, reached, rfl, closes_once quiet_begun reached⟩

/-- Whatever an operation waits for may happen. -/
theorem Orderly.goes (orderly : s.Orderly most) {o : Op} {w : Wait} (waits : s.WaitsFor o w) :
    ∃ e, s.runs e = some o ∧ e.starts = none ∧ s.enabled e := by
  -- What is asked of the stream below may come, and so may what was queued.
  have queued : w = .write ∨ (∃ ec, w = .post ec) → ∃ ec, w.reports ec [] := by
    rintro (rfl | ⟨ec, rfl⟩)
    · exact ⟨none, rfl⟩
    · exact ⟨ec, rfl, rfl⟩
  rcases waits with ⟨rfl, d, under⟩ | ⟨d, under, rfl⟩ | ⟨rfl, d, under⟩
  · have comes : ∃ ec octets, w.reports ec octets := by
      cases w with
      | read n => exact ⟨none, List.replicate n 0, by simp [Wait.reports]⟩
      | read_some n =>
        refine ⟨none, List.replicate n 0, ?_⟩
        simp only [Wait.reports, Option.isSome_none, Bool.false_eq_true, if_false, List.length_replicate]
        refine ⟨Nat.le_refl n, fun some_ nothing => ?_⟩
        have := congrArg List.length nothing
        simp at this
        omega
      | write => exact ⟨none, [], rfl⟩
      | teardown => exact ⟨none, [], rfl⟩
      | post ec => exact ⟨ec, [], rfl, rfl⟩
    obtain ⟨ec, octets, reports⟩ := comes
    exact ⟨.endRead ec octets, rfl, rfl, d, w, under, reports⟩
  · have waits := (orderly.writer.waits d w under).1
    obtain ⟨ec, reports⟩ := queued (by
      cases d with
      | write d =>
        simp only [WriterOp.Waits, WriteFrameOp.Waits] at waits
        revert waits
        cases d.state <;> simp <;> rintro (rfl | rfl | rfl) <;> simp
      | close d =>
        simp only [WriterOp.Waits, CloseOp.Waits] at waits
        revert waits
        cases d.state <;> simp <;> rintro rfl <;> simp)
    exact ⟨.endWrite ec, by simp [runs, under], rfl, d, w, under, reports⟩
  · have waits := (orderly.pinger.waits d w under).1
    obtain ⟨ec, reports⟩ := queued (by
      simp only [PingOp.Waits] at waits
      revert waits
      cases d.state <;> simp <;> rintro (rfl | rfl) <;> simp)
    exact ⟨.endPing ec, rfl, rfl, d, w, under, reports⟩

/-- Where an operation is parked, another one is under way: the one that has the right to write, or one that
waits for something else than a write. What it waits for may happen. -/
theorem parked_goes_on (begun : s.Begun) (reached : Run.Reaches Stepped enabled s t) (parked : t.Parked) :
    ∃ o w e, t.WaitsFor o w ∧ (t.ws.wr_block_ = some o ∨ t.ws.wr_block_ = none ∧ w ≠ .write) ∧
      t.runs e = some o ∧ e.starts = none ∧ t.enabled e := by
  have orderly := begun.reaches reached
  have goes : ∀ o w, t.WaitsFor o w → (t.ws.wr_block_ = some o ∨ t.ws.wr_block_ = none ∧ w ≠ .write) →
      ∃ o w e, t.WaitsFor o w ∧ (t.ws.wr_block_ = some o ∨ t.ws.wr_block_ = none ∧ w ≠ .write) ∧
        t.runs e = some o ∧ e.starts = none ∧ t.enabled e := by
    intro o w waits holder
    obtain ⟨e, runs, starts, may⟩ := orderly.goes waits
    exact ⟨o, w, e, waits, holder, runs, starts, may⟩
  cases held : t.ws.wr_block_ with
  | none =>
    rw [held] at goes
    -- No operation waits for a write.
    have free : ∀ o w, t.WaitsFor o w → w ≠ .write := by
      rintro o w waits rfl
      have mine := orderly.writes waits
      rw [held] at mine
      cases mine
    rcases orderly.awake parked with active | active | active
    · obtain ⟨⟨d, w⟩, under⟩ := Option.ne_none_iff_exists'.mp active
      have waits : t.WaitsFor .read w := .inl ⟨rfl, d, under⟩
      exact goes _ _ waits (.inr ⟨rfl, free _ _ waits⟩)
    · obtain ⟨⟨d, w⟩, under⟩ := Option.ne_none_iff_exists'.mp active
      have waits : t.WaitsFor d.op w := .inr (.inl ⟨d, under, rfl⟩)
      exact goes _ _ waits (.inr ⟨rfl, free _ _ waits⟩)
    · obtain ⟨⟨d, w⟩, under⟩ := Option.ne_none_iff_exists'.mp active
      have waits : t.WaitsFor .ping w := .inr (.inr ⟨rfl, d, under⟩)
      exact goes _ _ waits (.inr ⟨rfl, free _ _ waits⟩)
  | some o =>
    rw [held] at goes
    have writer : ∀ d : WriterOp, o = d.op → ∃ w, t.WaitsFor o w := by
      rintro d rfl
      obtain ⟨e, w, under, same, -⟩ := orderly.writer.held d held
      exact ⟨w, .inr (.inl ⟨e, under, same⟩)⟩
    have holder : ∃ w, t.WaitsFor o w := by
      cases o with
      | read =>
        obtain ⟨d, w, under, -⟩ := orderly.reader.held held
        exact ⟨w, .inl ⟨rfl, d, under⟩⟩
      | write => exact writer (.write { cb := [], fin := true }) rfl
      | close => exact writer (.close { fb := [] }) rfl
      | ping =>
        obtain ⟨d, w, under, -⟩ := orderly.pinger.held held
        exact ⟨w, .inr (.inr ⟨rfl, d, under⟩)⟩
    obtain ⟨w, waits⟩ := holder
    exact goes _ _ waits (.inl rfl)

/-- A ping operation is parked while a write operation writes. -/
theorem parked_goes_on_ping : ∃ t : Async storedLib, Run.Reaches Stepped enabled quiet t ∧
    t.ping_op_.isSome = true ∧
      ∃ o w e, t.WaitsFor o w ∧ (t.ws.wr_block_ = some o ∨ t.ws.wr_block_ = none ∧ w ≠ .write) ∧
        t.runs e = some o ∧ e.starts = none ∧ t.enabled e := by
  have reached := happens (happens (Relation.ReflTransGen.refl (a := quiet))
    (.startWrite true [1]) ⟨rfl, rfl⟩ rfl) (.startPing .ping []) ⟨⟨rfl, rfl⟩, .inl rfl⟩ rfl
  exact ⟨_, reached, rfl, parked_goes_on quiet_begun reached (.inr (.inr (Option.some_ne_none _)))⟩

/-- An operation is not under way and parked at once. -/
theorem Orderly.pending_le (orderly : s.Orderly most) (o : Op) : s.pending o ≤ 1 := by
  -- A slot that is taken excludes an operation under way, and each operation has its own slot but the last two.
  have reader : (s.reading.any fun _ => Op.read == o).toNat + (s.rd_op_.any fun _ => Op.read == o).toNat ≤
      (Op.read == o).toNat := by
    cases parked : s.rd_op_ with
    | none => cases s.reading <;> simp
    | some d => simp [orderly.reader.apart (by simp [parked])]
  have pinger : (s.pinging.any fun _ => Op.ping == o).toNat + (s.ping_op_.any fun _ => Op.ping == o).toNat ≤
      (Op.ping == o).toNat := by
    cases parked : s.ping_op_ with
    | none => cases s.pinging <;> simp
    | some d => simp [orderly.pinger.apart (by simp [parked])]
  have writer : (s.writing.any fun x => x.1.op == o).toNat + (s.wr_op_.any fun d => d.op == o).toNat ≤
      (o == .write || o == .close).toNat := by
    have known : ∀ d : WriterOp, (d.op == o).toNat ≤ (o == .write || o == .close).toNat := by
      intro d
      cases d <;> cases o <;> simp only [WriterOp.op] <;> decide
    cases parked : s.wr_op_ with
    | none =>
      cases under : s.writing with
      | none => simp
      | some x => simpa using known x.1
    | some d => simpa [orderly.writer.apart (by simp [parked])] using known d
  have kinds : (Op.read == o).toNat + (Op.ping == o).toNat + (o == .write || o == .close).toNat ≤ 1 := by
    cases o <;> decide
  unfold pending
  omega

/-- The operations of each kind that were started are those whose handlers were called, and at most one that is
still under way. -/
theorem each_completes (begun : s.Begun) {l : List Event}
    (run : Run.History Happens s l t) (o : Op) :
    l.countP (fun e => e.starts == some o) = t.called.countP (fun h => h.op == o) + t.pending o ∧
      t.pending o ≤ 1 := by
  have both : t.Orderly 2 ∧ ∀ o, l.countP (fun e => e.starts == some o) = t.load o := by
    refine run.invariant (P := fun l s => s.Orderly 2 ∧ ∀ o, l.countP (fun e => e.starts == some o) = s.load o)
      ⟨begun.orderly, fun o => ?_⟩ ?_
    · simp [load, pending, begun.silent.2, begun.idle.1.1, begun.idle.1.2, begun.idle.2.1.1,
        begun.idle.2.1.2, begun.idle.2.2.1, begun.idle.2.2.2]
    · intro l s e t held stepped
      obtain ⟨orderly, counted⟩ := held
      obtain ⟨orderly', more⟩ := @Stepped.comes _ _ 1 _ orderly _ stepped.1 (fun _ => Nat.le_refl 1) stepped.2
      refine ⟨orderly', fun o => ?_⟩
      rw [List.countP_append, counted o, more o, List.countP_singleton]
      cases e <;> cases o <;> rfl
  exact ⟨both.2 o, both.1.pending_le o⟩

/-- A ping operation that was started is completed while a read operation is under way. -/
theorem each_completes_ping : ∃ (l : List Event) (t : Async storedLib),
    Run.History Happens quiet l t ∧ t.called = [.ping none] ∧
      l.countP (fun e => e.starts == some .read) = 0 + t.pending .read := by
  have run := recorded (recorded (recorded (.start : Run.History Happens quiet [] quiet) (.startRead []) ⟨rfl, rfl⟩ rfl)
    (.startPing .ping []) ⟨⟨rfl, rfl⟩, .inl rfl⟩ rfl) (.endPing none) ⟨_, _, rfl, rfl⟩ rfl
  exact ⟨_, _, run, rfl, (each_completes quiet_begun run .read).1⟩

end Async

end Beast.Websocket
