import Beast.Lib.Twin
import Beast.Websocket.Executor
import Beast.Websocket.Remains

/-! Asynchronous operations on two streams that differ in hidden remains alone. -/

namespace Beast.Websocket

variable {lib : Lib}

/-- How far a session went that reads and writes no frame at the moment. -/
def stage (rd wr : Bool) : Progress := { headed := rd, buffered := rd, written := wr }

/-- Whether a read operation goes on without the header of an earlier data frame. -/
def ReadFrameOp.Calm (d : ReadFrameOp) : Prop :=
  d.state ≠ .do_read_payload_2 ∧ d.state ≠ .do_inflate_payload_2 ∧
    (d.state = .do_read_fh_2 → d.fh.op ≠ .cont)

/-- Before a first data frame no operation is under way that goes on with one. -/
structure Unstarted (rd wr : Bool) (s : Async lib) : Prop where
  reading : rd = false → ∀ d w, s.reading = some (d, w) → d.Calm
  rd_op_ : rd = false → ∀ d, s.rd_op_ = some d → d.Calm
  writing : wr = false → ∀ d w, s.writing ≠ some (.write d, w)
  wr_op_ : wr = false → ∀ d, s.wr_op_ ≠ some (.write d)

/-- Two streams with the same operations that differ in hidden remains alone. -/
def Async.Like (rd wr : Bool) (s t : Async lib) : Prop :=
  ∃ ws, s.ws.Like (stage rd wr) ws ∧ Unstarted rd wr s ∧ t = { s with ws }

variable {rd wr : Bool}

namespace Async.Like

/-- The streams of the two are alike. -/
theorem ws {s t : Async lib} (same : Like rd wr s t) : s.ws.Like (stage rd wr) t.ws := by
  obtain ⟨ws, like, -, rfl⟩ := same
  exact like

/-- What is done to both streams alike leaves them alike. -/
theorem put {s t : Async lib} (same : Like rd wr s t) {a b : StreamBase lib}
    (like : a.Like (stage rd wr) b) : Like rd wr { s with ws := a } { t with ws := b } := by
  obtain ⟨ws, -, idle, rfl⟩ := same
  exact ⟨b, like, ⟨idle.reading, idle.rd_op_, idle.writing, idle.wr_op_⟩, rfl⟩

end Async.Like

section Parts

/-- What a stream shows of itself, apart from remains, is the same in both. -/
theorem sees_over {γ : Type} {f : Async lib → γ} (blind : ∀ s x, f { s with ws := s.ws.overlay x } = f s)
    {s t : Async lib} (same : s.Like rd wr t) : f t = f s := by
  obtain ⟨_, ⟨x, -, rfl⟩, -, rfl⟩ := same
  exact blind s x

/-- A change of the stream that touches no remains is made in both alike. -/
theorem change_twins {f : StreamBase lib → StreamBase lib}
    (keeps : ∀ a b, a.Like (stage rd wr) b → (f a).Like (stage rd wr) (f b)) :
    Step.Twins (Async.Like rd wr) (change f) :=
  Step.twins_modify fun _ _ same => same.put (keeps _ _ same.ws)

theorem assert_twins (cond : Bool) (fault : Fault) :
    Step.Twins (@Async.Like lib rd wr) (assert cond fault) := by
  unfold assert
  split
  · exact Step.twins_pure _
  · exact Step.twins_stop _

/-- What a step looks at is the same in both, also where more is the same. -/
theorem see_more_twins {α : Type} {f : Async lib → OpStep lib α} {R : Async lib → Async lib → Prop}
    {S : Except Fault α → Async lib → Async lib → Prop}
    (same : ∀ s t, R s t → Async.Like rd wr s t)
    (blind : ∀ s x, f { s with ws := s.ws.overlay x } = f s)
    (goes : ∀ s, Step.Agrees R (f s) S) : Step.Agrees R (get >>= f) S :=
  Step.agrees_see (fun s t more => sees_over blind (same s t more)) goes

/-- What a step looks at is the same in both, and so is what it goes on to. -/
theorem see_twins {α : Type} {f : Async lib → OpStep lib α}
    {S : Except Fault α → Async lib → Async lib → Prop}
    (blind : ∀ s x, f { s with ws := s.ws.overlay x } = f s)
    (goes : ∀ s, Step.Agrees (Async.Like rd wr) (f s) S) :
    Step.Agrees (Async.Like rd wr) (get >>= f) S :=
  see_more_twins (fun _ _ same => same) blind goes

theorem claim_twins (op : Op) : Step.Twins (@Async.Like lib rd wr) (claim op) :=
  change_twins fun _ _ ⟨x, hidden, eq⟩ => ⟨x, hidden, by rw [eq]; rfl⟩

theorem release_twins (op : Op) : Step.Twins (@Async.Like lib rd wr) (release op) := by
  refine change_twins fun a b ⟨x, hidden, eq⟩ => ?_
  subst eq
  dsimp only [StreamBase.overlay]
  split
  · rename_i held
    exact ⟨x, hidden, if_pos held⟩
  · rename_i free
    exact ⟨x, hidden, if_neg free⟩

theorem assertFree_twins : Step.Twins (@Async.Like lib rd wr) assertFree :=
  see_twins (fun _ _ => rfl) fun _ => assert_twins _ _

theorem assertHeld_twins (op : Op) : Step.Twins (@Async.Like lib rd wr) (assertHeld op) :=
  see_twins (fun _ _ => rfl) fun _ => assert_twins _ _

/-- What is noted beside the streams is noted in both alike. -/
theorem note_twins {f : Async lib → Async lib}
    (beside : ∀ s ws, f { s with ws } = { f s with ws })
    (keeps : ∀ s, Unstarted rd wr s → Unstarted rd wr (f s) ∧ (f s).ws = s.ws) :
    Step.Twins (Async.Like rd wr) (modify f : OpStep lib PUnit) := by
  refine Step.twins_modify fun s t ⟨ws, like, idle, eq⟩ => ?_
  obtain ⟨idle', same⟩ := keeps s idle
  exact ⟨ws, by rw [same]; exact like, idle', by rw [eq, beside]⟩

theorem startWrite_twins (frame : Option Opcode) (octets : Octets) :
    Step.Twins (@Async.Like lib rd wr) (startWrite frame octets) :=
  note_twins (fun _ _ => rfl) fun _ idle =>
    ⟨⟨idle.reading, idle.rd_op_, idle.writing, idle.wr_op_⟩, rfl⟩

theorem invoke_twins (handler : Called) :
    Step.Twins (@Async.Like lib rd wr) (invoke handler) :=
  note_twins (fun _ _ => rfl) fun _ idle =>
    ⟨⟨idle.reading, idle.rd_op_, idle.writing, idle.wr_op_⟩, rfl⟩

end Parts

section Slots

/-- A read operation is calm in all states but those in which it goes on with a data frame. -/
theorem ReadFrameOp.calm_goto (d : ReadFrameOp) {state : ReadState}
    (other : state ∉ [.do_read_payload_2, .do_inflate_payload_2, ReadState.do_read_fh_2]) :
    (d.goto state).Calm := by
  simp only [List.mem_cons, List.not_mem_nil, or_false, not_or] at other
  exact ⟨other.1, other.2.1, fun header => absurd header other.2.2⟩

namespace ReadFrameOp

theorem wait_twins {d : ReadFrameOp} (w : Wait) (calm : rd = false → d.Calm) :
    Step.Twins (@Async.Like lib rd wr) (d.wait w) := by
  refine note_twins (fun _ _ => rfl) fun s idle =>
    ⟨⟨fun fresh d' w' waits => ?_, idle.rd_op_, idle.writing, idle.wr_op_⟩, rfl⟩
  cases waits
  exact calm fresh

theorem park_twins {d : ReadFrameOp} (calm : rd = false → d.Calm) :
    Step.Twins (@Async.Like lib rd wr) d.park := by
  refine see_twins (fun _ _ => rfl) fun s => Step.twins_bind (assert_twins _ _) fun _ => ?_
  refine note_twins (fun _ _ => rfl) fun s idle =>
    ⟨⟨idle.reading, fun fresh d' parks => ?_, idle.writing, idle.wr_op_⟩, rfl⟩
  cases parks
  exact calm fresh

theorem resume_twins (d : ReadFrameOp) :
    Step.Twins (@Async.Like lib rd wr) d.resume := by
  have calm : ∀ state, state ∉ [.do_read_payload_2, .do_inflate_payload_2, ReadState.do_read_fh_2] →
      rd = false → (d.goto state).Calm := fun _ other _ => d.calm_goto other
  unfold resume
  split
  · exact Step.twins_bind assertFree_twins fun _ => Step.twins_bind (claim_twins _) fun _ =>
      wait_twins _ (calm _ (by decide))
  · exact Step.twins_bind assertFree_twins fun _ => Step.twins_bind (claim_twins _) fun _ =>
      wait_twins _ (calm _ (by decide))
  · exact wait_twins _ (calm _ (by decide))
  · exact Step.twins_pure _

end ReadFrameOp

namespace WriterOp

theorem wait_twins {d : WriterOp} (w : Wait) (begun : wr = false → ∀ e, d ≠ .write e) :
    Step.Twins (@Async.Like lib rd wr) (d.wait w) := by
  refine note_twins (fun _ _ => rfl) fun s idle =>
    ⟨⟨idle.reading, idle.rd_op_, fun fresh e w' waits => ?_, idle.wr_op_⟩, rfl⟩
  cases waits
  exact begun fresh e rfl

theorem park_twins {d : WriterOp} (begun : wr = false → ∀ e, d ≠ .write e) :
    Step.Twins (@Async.Like lib rd wr) d.park := by
  refine see_twins (fun _ _ => rfl) fun s => Step.twins_bind (assert_twins _ _) fun _ => ?_
  refine note_twins (fun _ _ => rfl) fun s idle =>
    ⟨⟨idle.reading, idle.rd_op_, idle.writing, fun fresh e parks => ?_⟩, rfl⟩
  cases parks
  exact begun fresh e rfl

theorem resume_twins {d : WriterOp} (begun : wr = false → ∀ e, d ≠ .write e) :
    Step.Twins (@Async.Like lib rd wr) d.resume := by
  refine Step.twins_bind assertFree_twins fun _ => Step.twins_bind (claim_twins _) fun _ => ?_
  cases d with
  | write d => exact wait_twins _ fun fresh => absurd rfl (begun fresh d)
  | close d => exact wait_twins _ fun _ _ other => by cases other

end WriterOp

namespace PingOp

theorem wait_twins (d : PingOp) (w : Wait) :
    Step.Twins (@Async.Like lib rd wr) (d.wait w) :=
  note_twins (fun _ _ => rfl) fun _ idle =>
    ⟨⟨idle.reading, idle.rd_op_, idle.writing, idle.wr_op_⟩, rfl⟩

theorem park_twins (d : PingOp) : Step.Twins (@Async.Like lib rd wr) d.park :=
  see_twins (fun _ _ => rfl) fun _ => Step.twins_bind (assert_twins _ _) fun _ =>
    note_twins (fun _ _ => rfl) fun _ idle =>
      ⟨⟨idle.reading, idle.rd_op_, idle.writing, idle.wr_op_⟩, rfl⟩

theorem resume_twins (d : PingOp) : Step.Twins (@Async.Like lib rd wr) d.resume :=
  Step.twins_bind assertFree_twins fun _ => Step.twins_bind (claim_twins _) fun _ =>
    wait_twins _ _

end PingOp

theorem maybeInvokeRd_twins : Step.Twins (@Async.Like lib rd wr) maybeInvokeRd := by
  refine see_twins (fun _ _ => rfl) fun s => ?_
  cases s.rd_op_ with
  | none => exact Step.twins_pure _
  | some d =>
    refine Step.twins_bind ?_ fun _ => Step.twins_bind d.resume_twins fun _ => Step.twins_pure _
    exact note_twins (fun _ _ => rfl) fun _ idle =>
      ⟨⟨idle.reading, fun _ _ parked => (by cases parked), idle.writing, idle.wr_op_⟩, rfl⟩

theorem maybeInvokePing_twins : Step.Twins (@Async.Like lib rd wr) maybeInvokePing := by
  refine see_twins (fun _ _ => rfl) fun s => ?_
  cases s.ping_op_ with
  | none => exact Step.twins_pure _
  | some d =>
    refine Step.twins_bind ?_ fun _ => Step.twins_bind d.resume_twins fun _ => Step.twins_pure _
    exact note_twins (fun _ _ => rfl) fun _ idle =>
      ⟨⟨idle.reading, idle.rd_op_, idle.writing, idle.wr_op_⟩, rfl⟩

theorem maybeInvokeWr_twins : Step.Twins (@Async.Like lib rd wr) maybeInvokeWr := by
  refine Step.agrees_get fun s t same => ?_
  have shown : t.wr_op_ = s.wr_op_ := sees_over (fun _ _ => rfl) same
  rw [shown]
  cases parked : s.wr_op_ with
  | none => exact Step.twins_pure false s t same
  | some d =>
    -- A parked operation that writes data was started in this session.
    have begun : wr = false → ∀ e, d ≠ .write e := by
      rintro fresh e rfl
      obtain ⟨_, -, idle, -⟩ := same
      exact idle.wr_op_ fresh e parked
    refine Step.twins_bind ?_ (fun _ => Step.twins_bind (WriterOp.resume_twins begun) fun _ =>
      Step.twins_pure _) s t same
    exact note_twins (fun _ _ => rfl) fun _ idle =>
      ⟨⟨idle.reading, idle.rd_op_, idle.writing, fun _ _ parked => by cases parked⟩, rfl⟩

theorem orElse_twins {first second : OpStep lib Bool}
    (one : Step.Twins (Async.Like rd wr) first) (other : Step.Twins (Async.Like rd wr) second) :
    Step.Twins (Async.Like rd wr) (orElse first second) := by
  refine Step.twins_bind one fun called => ?_
  cases called with
  | true => exact Step.twins_pure _
  | false => exact other

/-- Both streams are changed, and then more is done. -/
theorem changed_twins {α : Type} {R : Async lib → Async lib → Prop} {s t : Async lib}
    {f g : StreamBase lib → StreamBase lib} {m : OpStep lib α}
    {S : Except Fault α → Async lib → Async lib → Prop}
    (same : R { s with ws := f s.ws } { t with ws := g t.ws }) (goes : Step.Agrees R m S) :
    Step.AgreesAt (change f >>= fun _ => m) (change g >>= fun _ => m) s t S :=
  goes _ _ same

/-- What was computed of both streams alike is put into them, and more is done. -/
theorem put_twins {α : Type} {s t : Async lib} {a b : StreamBase lib} {m : OpStep lib α}
    {S : Except Fault α → Async lib → Async lib → Prop} (same : s.Like rd wr t)
    (like : a.Like (stage rd wr) b) (goes : Step.Agrees (Async.Like rd wr) m S) :
    Step.AgreesAt (change (fun _ => a) >>= fun _ => m) (change (fun _ => b) >>= fun _ => m) s t S :=
  goes _ _ (same.put like)

end Slots

namespace ReadFrameOp

theorem upcall_twins (d : ReadFrameOp) (ec : Option ErrorCode) :
    Step.Twins (@Async.Like lib rd wr) (d.upcall ec) :=
  Step.twins_bind (release_twins _) fun _ =>
    Step.twins_bind (orElse_twins maybeInvokePing_twins maybeInvokeWr_twins) fun _ =>
      invoke_twins _

theorem readFh_twins (d : ReadFrameOp) : Step.Twins (@Async.Like lib rd wr) d.readFh :=
  wait_twins _ fun _ => d.calm_goto (by decide)

theorem teardown_twins (d : ReadFrameOp) : Step.Twins (@Async.Like lib rd wr) d.teardown :=
  wait_twins _ fun _ => d.calm_goto (by decide)

theorem fail4_twins (d : ReadFrameOp) : Step.Twins (@Async.Like lib rd wr) d.fail4 :=
  wait_twins _ fun _ => d.calm_goto (by decide)

theorem fail1_twins (d : ReadFrameOp) : Step.Twins (@Async.Like lib rd wr) d.fail1 := by
  refine Step.twins_bind (change_twins fun _ _ ⟨x, hidden, eq⟩ => ⟨x, hidden, by rw [eq]; rfl⟩)
    fun _ => ?_
  exact Step.twins_bind assertFree_twins fun _ => Step.twins_bind (claim_twins _) fun _ =>
    Step.twins_bind (startWrite_twins _ _) fun _ => wait_twins _ fun _ => d.calm_goto (by decide)

theorem fail_twins (d : ReadFrameOp) (code : CloseCode) :
    Step.Twins (@Async.Like lib rd wr) (d.fail code) := by
  refine see_twins (fun _ _ => rfl) fun s => ?_
  refine Step.agrees_ite (fun _ => d.fail4_twins) fun _ => ?_
  refine Step.agrees_get fun s t same => ?_
  rcases writes : s.ws.writeClose { code := code.toUInt16 } with ⟨fb, ws⟩
  obtain ⟨ws', writes', like⟩ := same.ws.writeControl writes
  rw [show t.ws.writeClose { code := code.toUInt16 } = (fb, ws') from writes']
  refine put_twins same like ?_
  refine see_twins (fun _ _ => rfl) fun s => ?_
  exact Step.agrees_ite (fun _ => park_twins fun _ => calm_goto _ (by decide)) fun _ =>
    fail1_twins _

theorem claimOrHeld_twins : Step.Twins (@Async.Like lib rd wr) claimOrHeld :=
  see_twins (fun _ _ => rfl) fun _ =>
    Step.agrees_ite (fun _ => claim_twins _) fun _ => assertHeld_twins _

theorem close_twins (d : ReadFrameOp) : Step.Twins (@Async.Like lib rd wr) d.close :=
  Step.twins_bind claimOrHeld_twins fun _ =>
    Step.twins_bind (change_twins fun _ _ ⟨x, hidden, eq⟩ => ⟨x, hidden, by rw [eq]; rfl⟩) fun _ =>
      Step.twins_bind (startWrite_twins _ _) fun _ => wait_twins _ fun _ => d.calm_goto (by decide)

theorem pong_twins (d : ReadFrameOp) : Step.Twins (@Async.Like lib rd wr) d.pong := by
  refine see_twins (fun _ _ => rfl) fun s => Step.agrees_ite (fun _ => ?_) fun _ => ?_
  · refine see_twins (fun _ _ => rfl) fun s => Step.agrees_ite (fun _ => ?_) fun _ => ?_
    · exact Step.twins_bind (assertHeld_twins _) fun _ =>
        Step.twins_bind (change_twins fun _ _ ⟨x, hidden, eq⟩ => ⟨x, hidden, by rw [eq]; rfl⟩)
          fun _ => readFh_twins _
    · exact readFh_twins _
  · exact Step.twins_bind claimOrHeld_twins fun _ => Step.twins_bind (startWrite_twins _ _) fun _ =>
      wait_twins _ fun _ => d.calm_goto (by decide)

/-- The close frame that was received is read alike, whatever the last one said. -/
theorem readClose_eq (cr cr' : CloseReason) (bs : Octets) :
    (readClose lib cr' bs).2 = (readClose lib cr bs).2 ∧
      ((readClose lib cr bs).2 = .none → readClose lib cr' bs = readClose lib cr bs) := by
  match bs with
  | [] => exact ⟨rfl, fun _ => rfl⟩
  | [_] => exact ⟨rfl, fun fault => by cases fault⟩
  | b0 :: b1 :: rest =>
    simp only [readClose]
    split
    · exact ⟨rfl, fun fault => by cases fault⟩
    · split
      · split
        · exact ⟨rfl, fun fault => by cases fault⟩
        · exact ⟨rfl, fun _ => rfl⟩
      · exact ⟨rfl, fun _ => rfl⟩

theorem control_twins (d : ReadFrameOp) : Step.Twins (@Async.Like lib rd wr) d.control := by
  refine Step.agrees_ite (fun _ => ?_) fun _ => Step.agrees_ite (fun _ => readFh_twins _) fun _ => ?_
  · refine see_twins (fun _ _ => rfl) fun s => Step.agrees_ite (fun _ => readFh_twins _) fun _ => ?_
    refine Step.agrees_get fun s t same => ?_
    rcases writes : s.ws.writePing .pong d.fb with ⟨fb, ws⟩
    obtain ⟨ws', writes', like⟩ := same.ws.writeControl writes
    rw [show t.ws.writePing .pong d.fb = (fb, ws') from writes']
    refine put_twins same like ?_
    refine see_twins (fun _ _ => rfl) fun s => Step.agrees_ite (fun _ => ?_) fun _ => pong_twins _
    exact see_twins (fun _ _ => rfl) fun s => Step.twins_bind (assert_twins _ _) fun _ =>
      park_twins fun _ => calm_goto _ (by decide)
  · refine Step.agrees_get fun s t same => ?_
    obtain ⟨code, whole⟩ := @readClose_eq lib s.ws.cr_ t.ws.cr_ d.fb
    -- What a close frame said shows only where the frame was accepted.
    have noted : ∀ cr cr', { s.ws with cr_ := cr }.Like (stage rd wr) { t.ws with cr_ := cr' } := by
      intro cr cr'
      obtain ⟨x, hidden, eq⟩ := same.ws
      exact ⟨{ x with cr := cr' }, { hidden with }, by rw [eq]; rfl⟩
    rcases one : readClose lib s.ws.cr_ d.fb with ⟨cr, fault⟩
    rcases other : readClose lib t.ws.cr_ d.fb with ⟨cr', fault'⟩
    rw [one, other] at code whole
    obtain rfl : fault' = fault := code
    cases refused : fault' != .none with
    | true =>
      simp only [refused, if_true]
      exact changed_twins (same.put (noted cr cr')) (fail_twins _ _)
    | false =>
      obtain rfl : fault' = .none := by simpa using refused
      obtain rfl : cr' = cr := congrArg Prod.fst (whole rfl)
      refine changed_twins (R := fun s t => Async.Like rd wr s t ∧ t.ws.cr_ = s.ws.cr_)
        ⟨same.put (noted cr' cr'), rfl⟩ ?_
      refine see_more_twins (fun _ _ more => more.1) (fun _ _ => rfl) fun _ => ?_
      refine Step.agrees_ite (fun _ => ?_) fun _ s t same => teardown_twins _ s t same.1
      refine Step.agrees_get fun s t same => ?_
      rcases replies : s.ws.replyClose with ⟨fb, ws⟩
      obtain ⟨ws', replies', like⟩ := same.1.ws.replyClose same.2 replies
      rw [replies']
      refine put_twins same.1 like ?_
      exact see_twins (fun _ _ => rfl) fun s =>
        Step.agrees_ite (fun _ => park_twins fun _ => calm_goto _ (by decide)) fun _ =>
          close_twins _

end ReadFrameOp

end Beast.Websocket
