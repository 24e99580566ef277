import Beast.Websocket.ExclusionSteps

/-! What the operations that write do to the right to write, up to where they return. -/

namespace Beast.Websocket

open Async

variable {lib : Lib} {n most : Nat} {aim : Aim}

/-- What holds while a write or close operation is called: it is neither parked nor waits. -/
structure WriteRuns (n : Nat) (aim : Aim) (op : Op) (s : Async lib) : Prop where
  apart : s.writing = none ∧ s.wr_op_ = none
  own : ∀ d : WriterOp, s.ws.wr_block_ = some d.op → d.op = op
  reader : ReaderFits s.reading s.rd_op_ s.ws.wr_block_
  pinger : PingerFits s.pinging s.ping_op_ s.ws.wr_block_
  tape : s.Tape n
  opcode : s.ws.wr_opcode_ ≠ .close
  blame : ∀ o, s.ws.wr_block_ = some o → o ≠ op → s.rd_op_ ≠ none ∨ s.ping_op_ ≠ none → aim.why
  owes : ∀ o, s.load o + (op == o).toNat = aim.load o

namespace WriteRuns

variable {s : Async lib} {d : WriterOp} {op : Op}

/-- What a step does aside is of no concern, where it does not forget that the connection failed. -/
theorem change (runs : WriteRuns n aim op s) {ws : StreamBase lib} (aside : s.ws.Aside ws)
    (failed : 1 < n → s.ws.failed_ = true → ws.failed_ = true) : WriteRuns n aim op { s with ws } where
  apart := runs.apart
  own := by
    show ∀ d : WriterOp, ws.wr_block_ = some d.op → _
    rw [aside.block]
    exact runs.own
  reader := by
    show ReaderFits s.reading s.rd_op_ ws.wr_block_
    rw [aside.block]
    exact runs.reader
  pinger := by
    show PingerFits s.pinging s.ping_op_ ws.wr_block_
    rw [aside.block]
    exact runs.pinger
  tape := runs.tape.congr (Nat.le_refl n) rfl aside.close fun two => ⟨failed two, id, id⟩
  opcode := by
    show ws.wr_opcode_ ≠ .close
    rw [aside.opcode]
    exact runs.opcode
  blame := by
    show ∀ o, ws.wr_block_ = some o → _
    rw [aside.block]
    exact runs.blame
  owes := runs.owes

/-- The connection has failed. -/
theorem failed (runs : WriteRuns n aim op s) :
    WriteRuns n aim op { s with ws := { s.ws with failed_ := true } } :=
  runs.change ⟨rfl, rfl, rfl⟩ fun _ _ => rfl

/-- Where no close frame was sent, there is at most one of them. -/
theorem single (runs : WriteRuns n aim op s) (fresh : s.ws.wr_close_ = false) : WriteRuns 1 aim op s := by
  obtain ⟨k, few, ended, noted, over_⟩ := runs.tape
  have none_ : k = 0 := by
    by_contra some_
    rw [noted.mpr (by omega)] at fresh
    cases fresh
  exact ⟨runs.apart, runs.own, runs.reader, runs.pinger, ⟨k, by omega, ended, noted, over_⟩, runs.opcode,
    runs.blame, runs.owes⟩

/-- The operation claims the right to write. -/
theorem claim (runs : WriteRuns n aim d.op s) (mine : s.ws.wr_block_ = none ∨ s.ws.wr_block_ = some d.op) :
    WriteRuns n aim d.op { s with ws := { s.ws with wr_block_ := some d.op } } where
  apart := runs.apart
  own := fun e same => (Option.some.inj same).symm
  reader := by
    refine runs.reader.congr (Fits.claimed mine ?_)
    cases d <;> simp [WriterOp.op]
  pinger := by
    refine runs.pinger.congr (Fits.claimed mine ?_)
    cases d <;> simp [WriterOp.op]
  tape := runs.tape
  opcode := runs.opcode
  blame := fun o same other => absurd (Option.some.inj same).symm other
  owes := runs.owes

/-- The operation gives the right to write back. -/
theorem released (runs : WriteRuns n aim d.op s) (mine : s.ws.wr_block_ = some d.op) :
    WriteRuns n aim d.op { s with ws := { s.ws with wr_block_ := none } } where
  apart := runs.apart
  own := fun e same => by cases same
  reader := by
    refine runs.reader.congr ?_
    rw [mine]
    cases d <;> simp [WriterOp.op]
  pinger := by
    refine runs.pinger.congr ?_
    rw [mine]
    cases d <;> simp [WriterOp.op]
  tape := runs.tape
  opcode := runs.opcode
  blame := fun o same => by cases same
  owes := runs.owes

/-- Without the right to write, the operation leaves the state as the others know it. -/
theorem fits (runs : WriteRuns n aim op s) (free : s.ws.wr_block_ ≠ some op) : Async.Fits n s where
  reader := runs.reader
  writer := by
    rw [runs.apart.1, runs.apart.2]
    exact WriterFits.idle fun e held => free (runs.own e held ▸ held)
  pinger := runs.pinger
  tape := runs.tape
  opcode := runs.opcode

/-- The operation returns, to be called again. -/
theorem wp_wait (runs : WriteRuns n aim d.op s) (within : n ≤ most) {w : Wait} (waits : d.Waits w)
    (plain : d.Plain) (holds : d.Holds w ↔ s.ws.wr_block_ = some d.op)
    (sends : d.Sends w → s.ws.wr_close_ = false) : Step.wp (d.wait w) (Comes most aim) s := by
  refine ⟨⟨⟨runs.reader, ?_, runs.pinger, ?_, runs.opcode⟩, fun _ => .inr (.inl (Option.some_ne_none _))⟩,
    fun o => (load_writing o runs.apart.1 _).trans (runs.owes o)⟩
  · show WriterFits (some (d, w)) s.wr_op_ s.ws.wr_block_ s.ws.wr_close_
    rw [runs.apart.2]
    refine WriterFits.wait waits plain holds.mp (fun e held => ?_) sends
    have own := runs.own e held
    exact ⟨own, holds.mpr (own ▸ held)⟩
  · exact runs.tape.congr within rfl rfl fun _ => ⟨id, id, id⟩

/-- The operation is parked behind another one that has the right to write. -/
theorem wp_park (runs : WriteRuns n aim d.op s) (within : n ≤ most) (parks : d.Parks) (plain : d.Plain)
    (busy : s.ws.wr_block_ ≠ none) (free : s.ws.wr_block_ ≠ some d.op) :
    Step.wp d.park (Comes most aim) s := by
  unfold WriterOp.park
  rw [Step.wp_get_bind]
  refine wp_assert_bind (by rw [runs.apart.2]; rfl) ?_
  have none_ : ∀ e : WriterOp, s.ws.wr_block_ ≠ some e.op := fun e held => free (runs.own e held ▸ held)
  refine ⟨⟨⟨runs.reader, ?_, runs.pinger, ?_, runs.opcode⟩, fun _ => ?_⟩,
    fun o => (load_wr_op o runs.apart.2 d).trans (runs.owes o)⟩
  · show WriterFits s.writing (some d) s.ws.wr_block_ s.ws.wr_close_
    rw [runs.apart.1]
    exact WriterFits.park parks plain none_
  · exact runs.tape.congr within rfl rfl fun _ => ⟨id, id, id⟩
  · -- The operation that has the right to write is under way.
    cases held : s.ws.wr_block_ with
    | none => exact absurd held busy
    | some op =>
      cases op with
      | read =>
        obtain ⟨e, w, under, -⟩ := runs.reader.held held
        exact .inl (by simp [under])
      | write => exact absurd held (none_ (.write { cb := [], fin := true }))
      | close => exact absurd held (none_ (.close { fb := [] }))
      | ping =>
        obtain ⟨e, w, under, -⟩ := runs.pinger.held held
        exact .inr (.inr (by simp [under]))

/-- The operation is done: it gives the right to write back if it has it. -/
theorem wp_upcall (runs : WriteRuns n aim d.op s) (within : n ≤ most) {handler : Called}
    (same : handler.op = d.op) :
    Step.wp (do
      release d.op
      let _ ← orElse maybeInvokeRd maybeInvokePing
      invoke handler) (Comes most aim) s := by
  unfold release
  rw [wp_change_bind]
  by_cases mine : s.ws.wr_block_ = some d.op
  · rw [if_pos mine]
    have given := runs.released mine
    have fits := given.fits (by simp)
    refine wp_done fits within (wp_orElse (wp_maybeInvokeRd fits fun held => absurd rfl held)
      (wp_maybeInvokePing fits fun held => absurd rfl held)) ?_ fun o => by rw [same]; exact given.owes o
    rintro ⟨noRd, noPing⟩ parked
    exact parked.elim (absurd noRd) fun parked => parked.elim (absurd runs.apart.2) (absurd noPing)
  · rw [if_neg mine]
    have fits := runs.fits mine
    have blamed : s.ws.wr_block_ ≠ none → s.rd_op_ ≠ none ∨ s.ping_op_ ≠ none → aim.why := by
      intro busy slots
      obtain ⟨o, held⟩ := Option.ne_none_iff_exists'.mp busy
      exact runs.blame o held (fun same => mine (same ▸ held)) slots
    refine wp_done fits within (wp_orElse (wp_maybeInvokeRd fits fun busy some_ => blamed busy (.inl some_))
      (wp_maybeInvokePing fits fun busy some_ => blamed busy (.inr some_))) ?_ fun o => by
        rw [same]
        exact runs.owes o
    rintro ⟨noRd, noPing⟩ parked
    exact parked.elim (absurd noRd) fun parked => parked.elim (absurd runs.apart.2) (absurd noPing)

end WriteRuns

/-- What holds while a write operation sends data: it has the right to write, and no close frame was sent. -/
structure SendsOn (aim : Aim) (s : Async lib) : Prop extends WriteRuns 1 aim .write s where
  held : s.ws.wr_block_ = some .write
  fresh : s.ws.wr_close_ = false

namespace SendsOn

variable {s : Async lib} {d : WriteFrameOp}

theorem change (runs : SendsOn aim s) {ws : StreamBase lib} (aside : s.ws.Aside ws) :
    SendsOn aim { s with ws } where
  toWriteRuns := runs.toWriteRuns.change aside fun two => absurd two (Nat.lt_irrefl 1)
  held := aside.block.trans runs.held
  fresh := aside.close.trans runs.fresh

theorem setCont (runs : SendsOn aim s) (cont : Bool) : SendsOn aim { s with ws := s.ws.setCont cont } :=
  runs.change ⟨rfl, rfl, rfl⟩

/-- A frame, or more of one, is sent in front of all close frames. -/
theorem sent (runs : SendsOn aim s) {frame : Option Opcode} (plain : frame ≠ some .close) (octets : Octets) :
    SendsOn aim { s with sent := s.sent ++ [{ frame, octets }] } :=
  ⟨⟨runs.apart, runs.own, runs.reader, runs.pinger,
    runs.tape.plain runs.fresh (Nat.le_refl 1) (x := ⟨frame, octets⟩) plain rfl rfl, runs.opcode, runs.blame, runs.owes⟩,
    runs.held, runs.fresh⟩

/-- The operation returns between two pieces of its data, or behind the last of them. -/
theorem wp_wait (runs : SendsOn aim s) {state : WriteState} {w : Wait}
    (waits : state = .do_upcall ∧ w = .post none ∨ w = .write ∧ state ∈ [.do_upcall,
      .do_nomask_frag_2, .do_mask_nofrag_2, .do_mask_frag_2, .do_deflate_2, WriteState.do_deflate_3])
    (plain : d.fh.op ≠ .close) : Step.wp ((d.goto state).wait w) (Comes (most + 1) aim) s := by
  have holds : (WriterOp.write (d.goto state)).Holds w := by
    rcases waits with ⟨rfl, rfl⟩ | ⟨rfl, among⟩
    · simp [WriterOp.Holds]
    · revert among
      cases state <;> simp [WriterOp.Holds]
  refine WriteRuns.wp_wait (d := .write (d.goto state)) runs.toWriteRuns (Nat.le_add_left 1 most) ?_ plain
    ⟨fun _ => runs.held, fun _ => holds⟩ fun _ => runs.fresh
  rcases waits with ⟨rfl, rfl⟩ | ⟨rfl, among⟩
  · exact .inr (.inl rfl)
  · revert among
    cases state <;> simp [WriterOp.Waits, WriteFrameOp.Waits]

/-- The operation is done while it has the right to write. -/
theorem wp_upcall (runs : SendsOn aim s) (ec : Option ErrorCode) :
    Step.wp (d.upcall ec) (Comes (most + 1) aim) s :=
  WriteRuns.wp_upcall (d := .write d) runs.toWriteRuns (Nat.le_add_left 1 most) rfl

/-- A mask key is drawn. -/
theorem wp_drawKey_bind (runs : SendsOn aim s) {α : Type} {Q : Except Fault α → Async lib → Prop}
    {m : UInt32 → OpStep lib α} (next : ∀ t : Async lib, SendsOn aim t → t.ws.wr_ = s.ws.wr_ →
      Step.wp (m s.ws.maskgen.1) Q t) : Step.wp (WriteFrameOp.drawKey >>= m) Q s :=
  next _ (runs.change (StreamBase.Aside.maskgen s.ws)) rfl

theorem wp_nomaskNofrag1 (runs : SendsOn aim s) (plain : d.fh.op ≠ .close) :
    Step.wp d.nomaskNofrag1 (Comes (most + 1) aim) s := by
  unfold WriteFrameOp.nomaskNofrag1 WriteFrameOp.setCont
  rw [wp_change_bind, wp_startWrite_bind]
  exact ((runs.setCont _).sent (by simpa using plain) _).wp_wait (.inr ⟨rfl, by simp⟩) plain

theorem wp_nomaskFrag1 (runs : SendsOn aim s) (plain : d.fh.op ≠ .close) :
    Step.wp d.nomaskFrag1 (Comes (most + 1) aim) s := by
  unfold WriteFrameOp.nomaskFrag1 WriteFrameOp.setCont
  rw [Step.wp_get_bind]
  dsimp only
  rw [wp_change_bind, wp_startWrite_bind]
  refine ((runs.setCont _).sent (by simpa using plain) _).wp_wait (.inr ⟨rfl, ?_⟩) plain
  split <;> simp

theorem wp_maskNofrag1 (runs : SendsOn aim s) (plain : d.fh.op ≠ .close) :
    Step.wp d.maskNofrag1 (Comes (most + 1) aim) s := by
  unfold WriteFrameOp.maskNofrag1 WriteFrameOp.setCont
  apply runs.wp_drawKey_bind
  intro t runs _
  rw [Step.wp_get_bind]
  dsimp only
  rw [wp_change_bind, wp_startWrite_bind]
  refine ((runs.setCont _).sent (by simpa using plain) _).wp_wait (.inr ⟨rfl, ?_⟩) plain
  split <;> simp

/-- More of a frame is sent, whose header was sent before. -/
theorem wp_maskNofrag2 (runs : SendsOn aim s) (plain : d.fh.op ≠ .close) :
    Step.wp d.maskNofrag2 (Comes (most + 1) aim) s := by
  unfold WriteFrameOp.maskNofrag2
  rw [Step.wp_get_bind]
  dsimp only
  rw [wp_startWrite_bind]
  refine (@sent _ _ _ runs none (by simp) _).wp_wait (.inr ⟨rfl, ?_⟩) plain
  split <;> simp

theorem wp_maskFrag1 (runs : SendsOn aim s) (plain : d.fh.op ≠ .close) :
    Step.wp d.maskFrag1 (Comes (most + 1) aim) s := by
  unfold WriteFrameOp.maskFrag1 WriteFrameOp.setCont
  rw [Step.wp_get_bind]
  dsimp only
  apply runs.wp_drawKey_bind
  intro t runs _
  rw [wp_change_bind, wp_startWrite_bind]
  refine ((runs.setCont _).sent (by simpa using plain) _).wp_wait (.inr ⟨rfl, ?_⟩) plain
  split <;> simp

theorem wp_deflate1 (runs : SendsOn aim s) (plain : d.fh.op ≠ .close) :
    Step.wp d.deflate1 (Comes (most + 1) aim) s := by
  unfold WriteFrameOp.deflate1 WriteFrameOp.setCont
  rw [Step.wp_get_bind]
  have aside := StreamBase.Aside.deflate s.ws d.cb d.fin
  generalize s.ws.deflate d.cb d.fin = deflated at aside ⊢
  obtain ⟨b, cb, more, ec, ws⟩ := deflated
  dsimp only
  rw [wp_change_bind]
  have runs := runs.change aside
  apply Step.wp_ite
  · exact fun failed => runs.wp_upcall ec
  · intro fine
    apply Step.wp_ite
    · exact fun nothing => runs.wp_wait (.inl ⟨rfl, rfl⟩) plain
    · intro some_
      -- What was compressed is sent, masked or not.
      have sends : ∀ (t : Async lib) (b : Octets) (key : UInt32), SendsOn aim t → Step.wp (do
          Websocket.change fun ws => ws.setCont !d.fin
          startWrite (some d.fh.op)
            (FrameHeader.write { d.fh with key, fin := !more, len := b.length.toUInt64 } ++ b)
          (WriteFrameOp.goto { d with cb, fh := { d.fh with key, fin := !more, len := b.length.toUInt64 } }
            (if more = true then .do_deflate_2 else .do_deflate_3)).wait .write)
          (Comes (most + 1) aim) t := by
        intro t b key runs
        rw [wp_change_bind, wp_startWrite_bind]
        refine ((runs.setCont _).sent (by simpa using plain) _).wp_wait (.inr ⟨rfl, ?_⟩) plain
        split <;> simp
      by_cases mask : d.fh.mask = true
      · rw [if_pos mask]
        apply runs.wp_drawKey_bind
        exact fun t runs _ => sends t _ _ runs
      · rw [if_neg mask, Step.wp_pure_bind]
        exact sends _ _ _ runs

/-- The operation sends data that has the right to write. -/
theorem wp_entry1 (runs : SendsOn aim s) (plain : d.fh.op ≠ .close) :
    Step.wp d.entry1 (Comes (most + 1) aim) s := by
  unfold WriteFrameOp.entry1
  refine wp_assertHeld_bind runs.held ?_
  cases d.entry_state with
  | do_nomask_nofrag => exact runs.wp_nomaskNofrag1 plain
  | do_nomask_frag => exact runs.wp_nomaskFrag1 plain
  | do_mask_nofrag => exact runs.wp_maskNofrag1 plain
  | do_mask_frag => exact runs.wp_maskFrag1 plain
  | do_deflate => exact runs.wp_deflate1 plain

end SendsOn

namespace WriteRuns

variable {s : Async lib} {d : WriteFrameOp}

/-- The operation takes the right to write where it is free, and sends data. -/
theorem wp_entry (runs : WriteRuns n aim .write s) (free : s.ws.wr_block_ = none)
    (fresh : s.ws.wr_close_ = false) (plain : d.fh.op ≠ .close) :
    Step.wp d.entry (Comes (most + 1) aim) s := by
  unfold WriteFrameOp.entry
  apply wp_assertFree_bind
  · intro _
    rw [wp_claim_bind]
    have claimed := WriteRuns.claim (d := .write d) (runs.single fresh) (.inl free)
    exact SendsOn.wp_entry1 ⟨claimed, rfl, fresh⟩ plain
  · exact fun busy => absurd free busy

/-- Between two frames, control frames go first. -/
theorem wp_between (runs : WriteRuns n aim .write s) (within : n ≤ most + 1) (free : s.ws.wr_block_ = none)
    (fresh : s.ws.wr_close_ = false) (plain : d.fh.op ≠ .close) :
    Step.wp d.between (Comes (most + 1) aim) s := by
  unfold WriteFrameOp.between
  have fits := runs.fits (by simp [free])
  refine wp_woken_bind (wp_orElse (wp_maybeInvokeRd fits fun busy => absurd free busy)
    (wp_maybeInvokePing fits fun busy => absurd free busy)) ?_ (fun _ => ?_) fun blamed t => ⟨rfl, blamed⟩
  · intro t fits active same kept
    obtain ⟨writing, parked⟩ := kept runs.apart.2
    rw [runs.apart.1] at writing
    rw [if_pos rfl]
    refine ⟨⟨⟨fits.reader, ?_, fits.pinger, ?_, fits.opcode⟩, fun _ => .inr (.inl (Option.some_ne_none _))⟩,
      fun o => (load_writing o writing _).trans (by rw [same o]; exact runs.owes o)⟩
    · -- The operation does not have the right to write while it is called through the queue.
      have none_ : ∀ e : WriterOp, t.ws.wr_block_ ≠ some e.op := by
        intro e held
        obtain ⟨e', w, under, -⟩ := fits.writer.held e held
        rw [writing] at under
        cases under
      show WriterFits _ t.wr_op_ _ _
      rw [parked]
      exact WriterFits.wait (d := .write (d.goto .do_maybe_suspend)) rfl plain
        (fun holds => absurd rfl holds.1) (fun e held => absurd held (none_ e)) fun sends => absurd rfl sends.1.1
    · exact fits.tape.congr within rfl rfl fun _ => ⟨id, id, id⟩
  · rw [if_neg Bool.false_ne_true]
    exact runs.wp_entry free fresh plain

/-- The operation is parked, gives up, or sends data. -/
theorem wp_maybeSuspend (runs : WriteRuns n aim .write s) (within : n ≤ most + 1)
    (free : s.ws.wr_block_ ≠ some .write) (plain : d.fh.op ≠ .close) :
    Step.wp d.maybeSuspend (Comes (most + 1) aim) s := by
  unfold WriteFrameOp.maybeSuspend
  rw [Step.wp_get_bind]
  apply Step.wp_ite
  · intro busy
    exact WriteRuns.wp_park (d := .write (d.goto .do_maybe_suspend_1)) runs within rfl plain
      (Option.isSome_iff_ne_none.mp busy) free
  · intro idle
    apply Step.wp_ite
    · intro given
      refine WriteRuns.wp_wait (d := .write (d.goto .do_upcall)) runs within (.inr (.inr rfl)) plain
        ⟨fun holds => absurd rfl holds.2, fun held => absurd held free⟩ fun sends => absurd rfl sends.1.2
    · intro going
      simp only [Bool.or_eq_true, not_or, Bool.not_eq_true] at going
      exact runs.wp_entry (Option.not_isSome_iff_eq_none.mp idle) going.2 plain

end WriteRuns

/-- What holds when a write or close operation is called again with what it waited for. -/
structure WriteCalled (n : Nat) (aim : Aim) (d : WriterOp) (w : Wait) (s : Async lib) : Prop extends
    WriteRuns n aim d.op s where
  waits : d.Waits w
  plain : d.Plain
  holds : d.Holds w ↔ s.ws.wr_block_ = some d.op
  sends : d.Sends w → s.ws.wr_close_ = false

namespace WriteCalled

variable {s : Async lib} {w : Wait}

/-- A failure of the connection is noted before the operation is called. -/
theorem failed {d : WriterOp} (called : WriteCalled n aim d w s) :
    WriteCalled n aim d w { s with ws := { s.ws with failed_ := true } } :=
  ⟨called.toWriteRuns.failed, called.waits, called.plain, called.holds, called.sends⟩

section Write

variable {d : WriteFrameOp}

/-- An operation sends data in all states but those in which it starts, starts again or is done. -/
theorem sendsOn (called : WriteCalled n aim (.write d) w s) (written : w = .write) : SendsOn aim s := by
  have holds : (WriterOp.write d).Holds w := by
    have waits := called.waits
    subst written
    refine ⟨fun state => ?_, by simp⟩
    simp [WriterOp.Waits, WriteFrameOp.Waits, state] at waits
  have sends : (WriterOp.write d).Sends w := by
    have waits := called.waits
    subst written
    refine ⟨holds, fun state => ?_⟩
    simp [WriterOp.Waits, WriteFrameOp.Waits, state] at waits
  have fresh := called.sends sends
  exact ⟨called.toWriteRuns.single fresh, called.holds.mp holds, fresh⟩

/-- The operation goes on with what it waited for. -/
theorem wp_call (called : WriteCalled n aim (.write d) w s) (within : n ≤ most + 1) (ec : Option ErrorCode) :
    Step.wp (d.call ec) (Comes (most + 1) aim) s := by
  have upcall : ∀ ec, Step.wp (d.upcall ec) (Comes (most + 1) aim) s := fun ec =>
    WriteRuns.wp_upcall (d := .write d) called.toWriteRuns within rfl
  have waits := called.waits
  have plain : d.fh.op ≠ .close := called.plain
  unfold WriteFrameOp.call
  apply Step.wp_ite
  · exact fun failed => upcall ec
  · intro fine
    -- Behind a frame that is not the last, the right to write is given back.
    have given : ∀ d' : WriteFrameOp, d'.fh.op ≠ .close → w = .write → Step.wp d'.between
        (Comes (most + 1) aim) { s with ws := { s.ws with wr_block_ := none } } := by
      intro d' plain written
      have runs := called.sendsOn written
      exact WriteRuns.wp_between (called.toWriteRuns.released runs.held) within rfl runs.fresh plain
    have held : w = .write → s.ws.wr_block_ = some .write := fun written => (called.sendsOn written).held
    cases state : d.state with
    | do_nomask_frag_2 =>
      have written : w = .write := by simpa [WriterOp.Waits, WriteFrameOp.Waits, state] using waits
      unfold WriteFrameOp.frag2 release
      simp only [state]
      rw [wp_change_bind, if_pos (held written)]
      exact given _ (by simp) written
    | do_mask_frag_2 =>
      have written : w = .write := by simpa [WriterOp.Waits, WriteFrameOp.Waits, state] using waits
      unfold WriteFrameOp.frag2
      simp only [state]
      refine wp_assertHeld_bind (held written) ?_
      rw [wp_change_bind]
      exact given _ (by simp) written
    | do_mask_nofrag_2 =>
      have written : w = .write := by simpa [WriterOp.Waits, WriteFrameOp.Waits, state] using waits
      exact (called.sendsOn written).wp_maskNofrag2 plain
    | do_deflate_2 =>
      have written : w = .write := by simpa [WriterOp.Waits, WriteFrameOp.Waits, state] using waits
      unfold WriteFrameOp.deflate2
      refine wp_assertHeld_bind (held written) ?_
      rw [wp_change_bind]
      exact given _ (by simp) written
    | do_deflate_3 =>
      have written : w = .write := by simpa [WriterOp.Waits, WriteFrameOp.Waits, state] using waits
      dsimp only
      rw [wp_change_bind]
      have aside : s.ws.Aside (s.ws.endDeflate d.fh.fin) := by
        unfold StreamBase.endDeflate
        split
        · exact ⟨rfl, rfl, rfl⟩
        · exact StreamBase.Aside.refl
      exact ((called.sendsOn written).change aside).wp_upcall none
    | do_maybe_suspend =>
      have free : s.ws.wr_block_ ≠ some .write := fun held => (called.holds.mpr held).1 state
      exact called.toWriteRuns.wp_maybeSuspend within free plain
    | do_maybe_suspend_1 => simp [WriterOp.Waits, WriteFrameOp.Waits, state] at waits
    | do_maybe_suspend_2 =>
      -- The operation was called again with the right to write.
      have queued : w = .post none := by simpa [WriterOp.Waits, WriteFrameOp.Waits, state] using waits
      have held : s.ws.wr_block_ = some .write := called.holds.mp ⟨by simp [state], by simp [queued]⟩
      refine wp_assertHeld_bind held ?_
      rw [Step.wp_get_bind]
      apply Step.wp_ite
      · exact fun over_ => upcall _
      · intro going
        simp only [Bool.or_eq_true, not_or, Bool.not_eq_true] at going
        exact SendsOn.wp_entry1 ⟨called.toWriteRuns.single going.2, held, going.2⟩ plain
    | do_upcall => exact upcall none

/-- The operation goes on with what a write reports. -/
theorem wp_complete (called : WriteCalled n aim (.write d) w s) (within : n ≤ most + 1)
    (ec : Option ErrorCode) : Step.wp (d.complete ec) (Comes (most + 1) aim) s := by
  unfold WriteFrameOp.complete
  cases ec with
  | none =>
    rw [Option.isSome_none, if_neg Bool.false_ne_true]
    exact called.wp_call within none
  | some ec =>
    rw [Option.isSome_some, if_pos rfl, wp_change_bind]
    exact called.failed.wp_call within (some ec)

end Write

end WriteCalled

/-! ## The close operation -/

section Close

variable {s : Async lib} {d : CloseOp}

/-- The close frame is the first one that is sent. -/
theorem WriteRuns.wp_sendFrame (runs : WriteRuns n aim .close s) (held : s.ws.wr_block_ = some .close)
    (fresh : s.ws.wr_close_ = false) : Step.wp d.sendFrame (Comes (most + 1) aim) s := by
  unfold CloseOp.sendFrame
  refine wp_assertHeld_bind held ?_
  rw [wp_change_bind, wp_startWrite_bind]
  have sent : WriteRuns 1 aim .close { s with
      ws := { s.ws with wr_close_ := true }, sent := s.sent ++ [⟨some .close, d.fb⟩] } :=
    ⟨runs.apart, runs.own, runs.reader, runs.pinger, runs.tape.close fresh rfl rfl rfl, runs.opcode, runs.blame, runs.owes⟩
  exact WriteRuns.wp_wait (d := .close { d with state := .state_99 }) sent (Nat.le_add_left 1 most) rfl trivial
    ⟨fun _ => held, fun _ => by simp [WriterOp.Holds]⟩ fun sends => absurd sends id

/-- The operation is parked, gives up, or sends the close frame. -/
theorem WriteRuns.wp_begin (runs : WriteRuns n aim .close s) (within : n ≤ most + 1)
    (free : s.ws.wr_block_ ≠ some .close) (first : d.state = .state_0) :
    Step.wp d.begin_ (Comes (most + 1) aim) s := by
  unfold CloseOp.begin_
  rw [Step.wp_get_bind]
  apply Step.wp_ite
  · intro busy
    exact WriteRuns.wp_park (d := .close { d with state := .state_2 }) runs within rfl trivial
      (Option.isSome_iff_ne_none.mp busy) free
  · intro idle
    apply Step.wp_ite
    · intro given
      refine WriteRuns.wp_wait (d := .close d) runs within ?_ trivial
        ⟨fun holds => absurd first holds, fun held => absurd held free⟩ fun sends => absurd sends id
      simp [WriterOp.Waits, CloseOp.Waits, first]
    · intro going
      simp only [Bool.or_eq_true, not_or, Bool.not_eq_true] at going
      rw [wp_claim_bind]
      have free : s.ws.wr_block_ = none := Option.not_isSome_iff_eq_none.mp idle
      exact WriteRuns.wp_sendFrame (WriteRuns.claim (d := .close d) runs (.inl free)) rfl going.2

namespace WriteCalled

variable {w : Wait}

/-- The operation goes on with what it waited for. -/
theorem wp_close (called : WriteCalled n aim (.close d) w s) (within : n ≤ most + 1) (ec : Option ErrorCode) :
    Step.wp (d.call ec) (Comes (most + 1) aim) s := by
  have upcall : ∀ ec, Step.wp (d.upcall ec) (Comes (most + 1) aim) s := fun ec =>
    WriteRuns.wp_upcall (d := .close d) called.toWriteRuns within rfl
  have waits := called.waits
  unfold CloseOp.call
  apply Step.wp_ite
  · exact fun failed => upcall ec
  · intro fine
    cases state : d.state with
    | state_0 =>
      have free : s.ws.wr_block_ ≠ some .close := fun held => called.holds.mpr held state
      exact called.toWriteRuns.wp_begin within free state
    | state_2 => simp [WriterOp.Waits, CloseOp.Waits, state] at waits
    | state_3 =>
      have held : s.ws.wr_block_ = some .close := called.holds.mp (by simp [WriterOp.Holds, state])
      refine wp_assertHeld_bind held ?_
      rw [Step.wp_get_bind]
      apply Step.wp_ite
      · exact fun over_ => upcall _
      · intro going
        simp only [Bool.or_eq_true, not_or, Bool.not_eq_true] at going
        exact called.toWriteRuns.wp_sendFrame held going.2
    | state_99 => exact upcall none

/-- The operation goes on with what a write reports. -/
theorem wp_completeClose (called : WriteCalled n aim (.close d) w s) (within : n ≤ most + 1)
    (ec : Option ErrorCode) : Step.wp (d.complete ec) (Comes (most + 1) aim) s := by
  unfold CloseOp.complete
  cases ec with
  | none =>
    rw [Option.isSome_none, if_neg Bool.false_ne_true]
    exact called.wp_close within none
  | some ec =>
    rw [Option.isSome_some, if_pos rfl, wp_change_bind]
    exact called.failed.wp_close within (some ec)

end WriteCalled

end Close

/-! ## The ping operation -/

/-- What holds while the ping operation is called: it is neither parked nor waits. -/
structure PingRuns (n : Nat) (aim : Aim) (s : Async lib) : Prop where
  apart : s.pinging = none ∧ s.ping_op_ = none
  reader : ReaderFits s.reading s.rd_op_ s.ws.wr_block_
  writer : WriterFits s.writing s.wr_op_ s.ws.wr_block_ s.ws.wr_close_
  tape : s.Tape n
  opcode : s.ws.wr_opcode_ ≠ .close
  blame : ∀ o, s.ws.wr_block_ = some o → o ≠ .ping → s.rd_op_ ≠ none ∨ s.wr_op_ ≠ none → aim.why
  owes : ∀ o, s.load o + (Op.ping == o).toNat = aim.load o

namespace PingRuns

variable {s : Async lib} {d : PingOp}

/-- The connection has failed. -/
theorem failed (runs : PingRuns n aim s) :
    PingRuns n aim { s with ws := { s.ws with failed_ := true } } :=
  ⟨runs.apart, runs.reader, runs.writer,
    runs.tape.congr (Nat.le_refl n) rfl rfl fun _ => ⟨fun _ => rfl, id, id⟩, runs.opcode, runs.blame, runs.owes⟩

/-- The right to write belongs to the operation, or changes from it to none. -/
theorem block (runs : PingRuns n aim s) (block : Option Op)
    (mine : ∀ o, o ≠ .ping → (block = some o ↔ s.ws.wr_block_ = some o)) :
    PingRuns n aim { s with ws := { s.ws with wr_block_ := block } } where
  apart := runs.apart
  reader := runs.reader.congr (mine .read (by simp))
  writer := by
    refine runs.writer.congr (fun e => mine e.op ?_) fun _ => rfl
    cases e <;> simp [WriterOp.op]
  tape := runs.tape
  opcode := runs.opcode
  blame := fun o same other => runs.blame o ((mine o other).mp same) other
  owes := runs.owes

/-- Without the right to write, the operation leaves the state as the others know it. -/
theorem fits (runs : PingRuns n aim s) (free : s.ws.wr_block_ ≠ some .ping) : Async.Fits n s where
  reader := runs.reader
  writer := runs.writer
  pinger := by
    rw [runs.apart.1, runs.apart.2]
    exact PingerFits.idle free
  tape := runs.tape
  opcode := runs.opcode

/-- The operation returns, to be called again. -/
theorem wp_wait (runs : PingRuns n aim s) (within : n ≤ most) {w : Wait} (waits : d.Waits w)
    (plain : d.op ≠ .close) (holds : d.Holds w ↔ s.ws.wr_block_ = some .ping) :
    Step.wp (d.wait w) (Comes most aim) s := by
  refine ⟨⟨⟨runs.reader, runs.writer, ?_, ?_, runs.opcode⟩, fun _ => .inr (.inr (Option.some_ne_none _))⟩,
    fun o => (load_pinging o runs.apart.1 _).trans (runs.owes o)⟩
  · show PingerFits (some (d, w)) s.ping_op_ s.ws.wr_block_
    rw [runs.apart.2]
    exact PingerFits.wait waits plain holds.mp holds.mpr
  · exact runs.tape.congr within rfl rfl fun _ => ⟨id, id, id⟩

/-- The operation is done: it gives the right to write back if it has it. -/
theorem wp_upcall (runs : PingRuns n aim s) (within : n ≤ most) (ec : Option ErrorCode) :
    Step.wp (d.upcall ec) (Comes most aim) s := by
  unfold PingOp.upcall release
  rw [wp_change_bind]
  by_cases mine : s.ws.wr_block_ = some .ping
  · rw [if_pos mine]
    have given := runs.block none (fun o other => by simp [mine, other.symm])
    have fits := given.fits (by simp)
    refine wp_done fits within (wp_orElse (wp_maybeInvokeRd fits fun held => absurd rfl held)
      (wp_maybeInvokeWr fits fun held => absurd rfl held)) ?_ given.owes
    rintro ⟨noRd, noWr⟩ parked
    exact parked.elim (absurd noRd) fun parked => parked.elim (absurd noWr) (absurd runs.apart.2)
  · rw [if_neg mine]
    have fits := runs.fits mine
    have blamed : s.ws.wr_block_ ≠ none → s.rd_op_ ≠ none ∨ s.wr_op_ ≠ none → aim.why := by
      intro busy slots
      obtain ⟨o, held⟩ := Option.ne_none_iff_exists'.mp busy
      exact runs.blame o held (fun same => mine (same ▸ held)) slots
    refine wp_done fits within (wp_orElse (wp_maybeInvokeRd fits fun busy some_ => blamed busy (.inl some_))
      (wp_maybeInvokeWr fits fun busy some_ => blamed busy (.inr some_))) ?_ runs.owes
    rintro ⟨noRd, noWr⟩ parked
    exact parked.elim (absurd noRd) fun parked => parked.elim (absurd noWr) (absurd runs.apart.2)

/-- A ping or pong frame is sent in front of all close frames. -/
theorem wp_sendFrame (runs : PingRuns n aim s) (held : s.ws.wr_block_ = some .ping)
    (fresh : s.ws.wr_close_ = false) (plain : d.op ≠ .close) :
    Step.wp d.sendFrame (Comes (most + 1) aim) s := by
  unfold PingOp.sendFrame
  refine wp_assertHeld_bind held ?_
  rw [wp_startWrite_bind]
  have sent : PingRuns 1 aim { s with sent := s.sent ++ [⟨some d.op, d.fb⟩] } :=
    ⟨runs.apart, runs.reader, runs.writer,
      runs.tape.plain fresh (Nat.le_refl 1) (x := ⟨some d.op, d.fb⟩) (by simpa using plain) rfl rfl,
      runs.opcode, runs.blame, runs.owes⟩
  exact sent.wp_wait (Nat.le_add_left 1 most) (.inl rfl) plain ⟨fun _ => held, fun _ => .inr rfl⟩

/-- The operation is parked, gives up, or sends its frame. -/
theorem wp_begin (runs : PingRuns n aim s) (within : n ≤ most + 1) (free : s.ws.wr_block_ ≠ some .ping)
    (plain : d.op ≠ .close) : Step.wp d.begin_ (Comes (most + 1) aim) s := by
  unfold PingOp.begin_
  rw [Step.wp_get_bind]
  apply Step.wp_ite
  · intro busy
    unfold PingOp.park
    rw [Step.wp_get_bind]
    refine wp_assert_bind (by rw [runs.apart.2]; rfl) ?_
    refine ⟨⟨⟨runs.reader, runs.writer, ?_, ?_, runs.opcode⟩, fun _ => ?_⟩,
      fun o => (load_ping_op o runs.apart.2 _).trans (runs.owes o)⟩
    · show PingerFits s.pinging (some { d with state := .state_2 }) s.ws.wr_block_
      rw [runs.apart.1]
      exact PingerFits.park rfl plain free
    · exact runs.tape.congr within rfl rfl fun _ => ⟨id, id, id⟩
    · -- The operation that has the right to write is under way.
      obtain ⟨op, held⟩ := Option.isSome_iff_exists.mp busy
      have other : ∀ e : WriterOp, op = e.op → s.writing ≠ none := by
        rintro e rfl
        obtain ⟨e', w, under, -⟩ := runs.writer.held e held
        simp [under]
      cases op with
      | read =>
        obtain ⟨e, w, under, -⟩ := runs.reader.held held
        exact .inl (by simp [under])
      | write => exact .inr (.inl (other (.write { cb := [], fin := true }) rfl))
      | close => exact .inr (.inl (other (.close { fb := [] }) rfl))
      | ping => exact absurd held free
  · intro idle
    have none_ : s.ws.wr_block_ = none := Option.not_isSome_iff_eq_none.mp idle
    apply Step.wp_ite
    · intro given
      refine runs.wp_wait within (.inr rfl) plain ⟨?_, fun held => absurd held free⟩
      rintro (state | written)
      · cases state
      · cases written
    · intro going
      simp only [Bool.or_eq_true, not_or, Bool.not_eq_true] at going
      rw [wp_claim_bind]
      have claimed := runs.block (some .ping) (fun o other => by simp [none_, other.symm])
      exact claimed.wp_sendFrame rfl going.2 plain

/-- The operation goes on with what it waited for. -/
theorem wp_call (runs : PingRuns n aim s) (within : n ≤ most + 1) {w : Wait} (waits : d.Waits w)
    (plain : d.op ≠ .close) (holds : d.Holds w ↔ s.ws.wr_block_ = some .ping) (ec : Option ErrorCode) :
    Step.wp (d.call ec) (Comes (most + 1) aim) s := by
  unfold PingOp.call
  apply Step.wp_ite
  · exact fun failed => runs.wp_upcall within ec
  · intro fine
    cases state : d.state with
    | state_0 | state_2 => simp [PingOp.Waits, state] at waits
    | state_3 =>
      have held : s.ws.wr_block_ = some .ping := holds.mp (.inl state)
      refine wp_assertHeld_bind held ?_
      rw [Step.wp_get_bind]
      apply Step.wp_ite
      · exact fun over_ => runs.wp_upcall within _
      · intro going
        simp only [Bool.or_eq_true, not_or, Bool.not_eq_true] at going
        exact runs.wp_sendFrame held going.2 plain
    | state_99 => exact runs.wp_upcall within none

/-- The operation goes on with what a write reports. -/
theorem wp_complete (runs : PingRuns n aim s) (within : n ≤ most + 1) {w : Wait} (waits : d.Waits w)
    (plain : d.op ≠ .close) (holds : d.Holds w ↔ s.ws.wr_block_ = some .ping) (ec : Option ErrorCode) :
    Step.wp (d.complete ec) (Comes (most + 1) aim) s := by
  unfold PingOp.complete
  cases ec with
  | none =>
    rw [Option.isSome_none, if_neg Bool.false_ne_true]
    exact runs.wp_call within waits plain holds none
  | some ec =>
    rw [Option.isSome_some, if_pos rfl, wp_change_bind]
    exact runs.failed.wp_call within waits plain holds (some ec)

end PingRuns

end Beast.Websocket
