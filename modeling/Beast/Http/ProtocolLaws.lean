import Beast.Http.Delivery
import Beast.Http.FieldLaws
import Beast.Http.Protocol

/-! Every entry point of the parser makes its calls in the order of the protocol. -/

namespace Beast.Http

variable {d : Derived}

section Stages

/-- A derived class that also keeps the calls made to it, in their order. -/
def logged (d : Derived) : Derived where
  State := d.State × List Callback
  call state c := (((d.call state.1 c).1, state.2 ++ [c]), (d.call state.1 c).2)

/-- Where the calls of a message have led. -/
def Message.stage (m : Message (logged d)) : Option Stage :=
  stageOf m.f_.flagChunked m.impl.2

/-- Calls that may be made, of which the last one completes the message where it is complete. -/
def Sound (m : Message (logged d)) : Prop :=
  ∃ stage, m.stage = some stage ∧ (stage = .complete ↔ m.state_ = .complete)

/-- The stage behind the header, which tells whether the body was announced. -/
def bodyStage (f : Flags) : Stage :=
  if f.flagOnBody then .body else .header

/-- Where the calls of a message have led between two calls of the parser that succeed. -/
def Steady (m : Message (logged d)) : Prop :=
  match m.state_ with
  | .header => m.stage = some .start ∧ m.f_.flagOnBody = false
  | .body | .body_to_eof => m.stage = some (bodyStage m.f_)
  | .chunk_header => m.f_.flagChunked = true ∧ m.stage = some (bodyStage m.f_)
  | .chunk_body => m.f_.flagChunked = true ∧ m.f_.flagOnBody = true ∧ m.stage = some .body
  | .complete => m.stage = some .complete

/-- The stage behind the header is not the last one. -/
theorem bodyStage_ne (f : Flags) : bodyStage f ≠ .complete := by
  unfold bodyStage
  split <;> simp

/-- Between two calls the message is sound. -/
theorem Steady.sound {m : Message (logged d)} (steady : Steady m) : Sound m := by
  unfold Steady at steady
  -- Only the state of a complete message has the last stage.
  split at steady
  · exact ⟨_, steady.1, by simp [*]⟩
  · exact ⟨_, steady, by simp [bodyStage_ne, *]⟩
  · exact ⟨_, steady, by simp [bodyStage_ne, *]⟩
  · exact ⟨_, steady.2, by simp [bodyStage_ne, *]⟩
  · exact ⟨_, steady.2.2, by simp [*]⟩
  · exact ⟨_, steady, by simp [*]⟩

/-- Behind the header and in front of the data of a chunk, the announced body tells the stage. -/
theorem steady_of_bodyStage {m : Message (logged d)} (led : m.stage = some (bodyStage m.f_))
    (notHeader : m.state_ ≠ .header) (notChunk : m.state_ ≠ .chunk_body)
    (open_ : m.state_ ≠ .complete) (coded : m.state_ = .chunk_header → m.f_.flagChunked = true) :
    Steady m := by
  unfold Steady
  split
  · exact absurd ‹_› notHeader
  · exact led
  · exact led
  · exact ⟨coded ‹_›, led⟩
  · exact absurd ‹_› notChunk
  · exact absurd ‹_› open_

/-- A call that may be made leads to the next stage, whether it is refused or not. -/
theorem wp_invoke {c : Callback} {m : Message (logged d)} {stage : Stage} (next : Stage)
    {Q : Except Halt Unit → Message (logged d) → Prop} (led : m.stage = some stage)
    (allowed : stage.next m.f_.flagChunked c = some next)
    (taken : ∀ impl, Message.stage { m with impl } = some next → Q (.ok ()) { m with impl })
    (refused : ∀ impl e, (d.call m.impl.1 c).2 = some e →
      Message.stage { m with impl } = some next → Q (.error (.ec e)) { m with impl }) :
    Step.wp (invoke c) Q m := by
  -- The call is in the log, whatever it reports.
  have leads : Message.stage { m with impl := ((logged d).call m.impl c).1 } = some next := by
    have before : stageOf m.f_.flagChunked m.impl.2 = some stage := led
    show stageOf m.f_.flagChunked (m.impl.2 ++ [c]) = some next
    rw [stageOf_snoc, before, Option.bind_some, allowed]
  unfold Step.wp invoke Step.run
  dsimp only
  cases called : ((logged d).call m.impl c).2 with
  | none => exact taken _ leads
  | some e => exact refused _ e called leads

/-- A call without an error code leads there as well. -/
theorem wp_tell {c : Callback} {m : Message (logged d)} {stage : Stage} (next : Stage)
    {Q : Except Halt Unit → Message (logged d) → Prop} (led : m.stage = some stage)
    (allowed : stage.next m.f_.flagChunked c = some next)
    (taken : ∀ impl, Message.stage { m with impl } = some next → Q (.ok ()) { m with impl })
    (thrown : ∀ impl, Message.stage { m with impl } = some next →
      Q (.error .length_error) { m with impl }) :
    Step.wp (tell c) Q m := by
  -- What the call leaves is what a call with an error code leaves.
  have invoked := wp_invoke (Q := fun r m => match r with
    | .ok () => Q (.ok ()) m
    | .error _ => Q (.error .length_error) m) next led allowed taken fun impl e _ leads => thrown impl leads
  unfold Step.wp invoke Step.run at invoked
  unfold Step.wp tell Step.run
  dsimp only at invoked ⊢
  cases called : ((logged d).call m.impl c).2 with
  | none => simpa only [called] using invoked
  | some e => simpa only [called] using invoked

/-- A step that fails at once leaves the message as it is. -/
theorem wp_fail {α σ : Type} {code : ErrorCode} {m : σ} {Q : Except Halt α → σ → Prop}
    (failed : Q (.error (.ec code)) m) : Step.wp (fail code) Q m :=
  failed

theorem wp_fail_bind {α β σ : Type} {code : ErrorCode} {f : β → Step Halt σ α} {m : σ}
    {Q : Except Halt α → σ → Prop} (failed : Q (.error (.ec code)) m) :
    Step.wp (fail code >>= f) Q m :=
  failed

/-- The state in front of a header. -/
def AtStart (m : Message (logged d)) : Prop :=
  m.state_ = .header ∧ m.stage = some .start ∧ m.f_.flagOnBody = false

/-- The state between the fields of a header. -/
def AtFields (m : Message (logged d)) : Prop :=
  m.state_ = .header ∧ m.stage = some .fields ∧ m.f_.flagOnBody = false

theorem AtStart.sound {m : Message (logged d)} (start : AtStart m) : Sound m :=
  ⟨_, start.2.1, by simp [start.1]⟩

theorem AtFields.sound {m : Message (logged d)} (fields : AtFields m) : Sound m :=
  ⟨_, fields.2.1, by simp [fields.1]⟩

/-- The start line is told first. -/
theorem wp_startline {isRequest : Bool} {it : Octets} {m : Message (logged d)} (start : AtStart m) :
    Step.wp (parseStartline isRequest it)
      (Step.orStop AtFields Sound) m := by
  have sound := start.sound
  obtain ⟨state, led, fresh⟩ := start
  -- Reading the line ends in one call that starts the message, of either kind.
  have told : ∀ {α : Type} {c : Callback} {a : α}, IsStart c →
      Step.wp (do invoke c; return a) (Step.orStop AtFields Sound) m := by
    intro α c a named
    have allowed : Stage.start.next m.f_.flagChunked c = some .fields := by
      cases c <;> first | rfl | cases named
    exact Step.wp_bind.mpr (wp_invoke _ led allowed (fun impl leads => ⟨state, leads, fresh⟩)
      fun impl e _ leads => ⟨_, leads, by simp [state]⟩)
  -- The octets are read before the call, and reading them leaves the message as it is.
  unfold parseStartline
  split
  · have line : Step.wp (parseRequestLine it) (Step.orStop AtFields Sound) m := by
      unfold parseRequestLine
      repeat' first
        | exact told (by trivial)
        | exact wp_fail sound
        | exact wp_fail_bind sound
        | refine Step.wp_lift_bind (fun _ _ => ?_) (fun _ _ => sound)
        | split
    refine Step.wp_bind.mpr (Step.wp_mono line fun r m behind => ?_)
    cases r <;> exact behind
  · unfold parseStatusLine
    repeat' first
      | exact told (by trivial)
      | exact wp_fail sound
      | refine Step.wp_lift_bind (fun _ _ => ?_) (fun _ _ => sound)
      | split

/-- More flags allow what was allowed before. -/
theorem stage_grows {m : Message (logged d)} {f : Flags} {stage : Stage}
    (chunked : m.f_.flagChunked = true → f.flagChunked = true) (led : m.stage = some stage) :
    stageOf f.flagChunked m.impl.2 = some stage := by
  -- A stage of a message that is not chunked may be one of a chunked message as well.
  cases new : f.flagChunked with
  | true => exact stageOf_chunked led
  | false =>
    have old : m.f_.flagChunked = false := by
      by_contra set_
      rw [chunked (by simpa using set_)] at new
      cases new
    rw [Message.stage, old] at led
    exact led

/-- Fields are told one after another. -/
theorem atFields_preserved (fuel : Nat) (it : Octets) :
    Step.Preserves AtFields (parseFields (d := logged d) fuel it) := by
  -- Noting a field may set flags, and telling of it leads from fields to fields.
  refine parseFields_preserves ?_ ?_ fuel it
  · rintro m len f framed ⟨state, led, fresh⟩
    exact ⟨state, stage_grows (m := m) framed.chunked led, framed.onBody.trans fresh⟩
  · rintro name value m ⟨state, led, fresh⟩
    exact wp_invoke .fields led rfl (fun impl leads => ⟨state, leads, fresh⟩)
      fun impl e _ leads => ⟨state, leads, fresh⟩

/-- The header decides how the message goes on, and calls nothing. -/
theorem wp_doHeader {isRequest : Bool} {status : Nat} {m : Message (logged d)}
    (fields : AtFields m) {Q : Except Halt Unit → Message (logged d) → Prop}
    (decided : ∀ m' : Message (logged d), m'.impl = m.impl → m'.f_.flagOnBody = false →
      m'.f_.flagChunked = m.f_.flagChunked → m'.state_ ≠ .header → m'.state_ ≠ .chunk_body →
      (m'.state_ = .chunk_header → m.f_.flagChunked = true) → Q (.ok ()) m') :
    Step.wp (doHeader isRequest status) Q m := by
  obtain ⟨state, led, fresh⟩ := fields
  -- Each branch sets the state and flags of the framing, and none makes a call.
  cases isRequest with
  | true =>
    simp only [doHeader, doHeaderRequest, ↓reduceIte, Step.wp_get_bind, setFlags]
    repeat' split
    all_goals exact decided _ rfl fresh rfl (by simp) (by simp) (by simp [*])
  | false =>
    simp only [doHeader, doHeaderResponse, Bool.false_eq_true, ↓reduceIte, Step.wp_get_bind,
      setFlags]
    repeat' split
    all_goals exact decided _ rfl fresh rfl (by simp) (by simp) (by simp [*])

/-- A derived class that reports no error from the end of a header or of a message. -/
def Calm (d : Derived) : Prop :=
  ∀ state, (d.call state .on_header).2 = none ∧ (d.call state .on_complete).2 = none

/-- A message that is complete is told to be. -/
theorem wp_complete (calm : Calm d) {m : Message (logged d)} {stage : Stage}
    (led : m.stage = some stage)
    (allowed : stage.next m.f_.flagChunked .on_complete = some .complete)
    {Q : Except Halt Unit → Message (logged d) → Prop}
    (told : ∀ impl, Message.stage { m with impl } = some .complete → Q (.ok ()) { m with impl }) :
    Step.wp (invoke .on_complete) Q m := by
  refine wp_invoke _ led allowed told fun impl e refused _ => ?_
  rw [(calm m.impl.1).2] at refused
  cases refused

/-- A header is told from its start line to its end, and further where nothing follows. -/
theorem wp_headerBlock (calm : Calm d) {isRequest : Bool} {block : Octets}
    {m : Message (logged d)} (start : AtStart m) :
    Step.wp (parseHeaderBlock isRequest block) (Step.orStop Steady Sound) m := by
  -- Behind the start line come the fields, the decision on the body, and the end of the header.
  have behind : ∀ {status : Nat} {it : Octets} {m : Message (logged d)}, AtFields m →
      Step.wp (do
        let _ ← parseFields (it.length + 1) it
        doHeader isRequest status
        invoke .on_header
        if (← get).state_ == .complete then
          invoke .on_complete) (Step.orStop Steady Sound) m := by
    intro status it m fields
    refine Step.wp_preserves_bind (atFields_preserved _ _) fields (fun _ m fields => ?_)
      fun _ _ fields => fields.sound
    refine Step.wp_bind.mpr (wp_doHeader fields
      fun m' impl onBody chunked notHeader notChunk coded => ?_)
    have led : m'.stage = some .fields := by
      rw [Message.stage, impl, chunked]
      exact fields.2.1
    refine Step.wp_bind.mpr (wp_invoke .header led rfl (fun impl leads => ?_)
      fun impl e refused _ => ?_)
    · rw [Step.wp_get_bind]
      refine Step.wp_ite (fun complete => ?_) fun open_ => ?_
      · have state : m'.state_ = .complete := by simpa using complete
        refine wp_complete calm leads rfl fun impl told => ?_
        simpa only [Step.orStop, Steady, state] using told
      · have body : bodyStage m'.f_ = .header := by simp [bodyStage, onBody]
        exact steady_of_bodyStage (leads.trans (congrArg some body.symm)) notHeader notChunk
          (by simpa using open_) fun state => chunked.trans (coded state)
    · rw [(calm m'.impl.1).1] at refused
      cases refused
  unfold parseHeaderBlock
  refine Step.wp_bind.mpr (Step.wp_mono (wp_startline start) fun r m fields => ?_)
  cases r with
  | error e => exact fields
  | ok line =>
    dsimp only
    refine Step.wp_ite (fun _ => ?_) fun _ => ?_
    · -- A flag of the version is none that the stages depend on.
      obtain ⟨state, led, fresh⟩ := fields
      exact Step.wp_bind.mpr (behind ⟨state, led, fresh⟩)
    · exact behind fields

/-- The state behind the announcement of a body, in one of the states of a body. -/
def Announced (st : ParseState) (m : Message (logged d)) : Prop :=
  m.state_ = st ∧ m.f_.flagOnBody = true ∧ m.stage = some .body ∧
    (st = .chunk_header ∨ st = .chunk_body → m.f_.flagChunked = true)

/-- Whether a state is that of a body, or of a part of it. -/
def InBody (st : ParseState) : Prop := st ≠ .header ∧ st ≠ .complete

theorem Announced.steady {st : ParseState} {m : Message (logged d)} (announced : Announced st m)
    (inBody : InBody st) : Steady m := by
  obtain ⟨rfl, onBody, led, coded⟩ := announced
  unfold Steady
  split
  · exact absurd ‹_› inBody.1
  · exact led.trans (by simp [bodyStage, onBody])
  · exact led.trans (by simp [bodyStage, onBody])
  · exact ⟨coded (.inl ‹_›), led.trans (by simp [bodyStage, onBody])⟩
  · exact ⟨coded (.inr ‹_›), onBody, led⟩
  · exact absurd ‹_› inBody.2

/-- Data and chunks are told one after another. -/
theorem told_preserves (st : ParseState) {c : Callback} (told : IsData c) :
    Step.Preserves (Announced st) (invoke (d := logged d) c) := by
  rintro m ⟨state, onBody, led, coded⟩
  have allowed : Stage.body.next m.f_.flagChunked c = some .body := by
    cases c <;> first | rfl | cases told
  exact wp_invoke _ led allowed (fun impl leads => ⟨state, onBody, leads, coded⟩)
    fun impl e _ leads => ⟨state, onBody, leads, coded⟩

/-- Between two calls, a body that was announced tells the stage behind the header. -/
theorem Steady.inBody {m : Message (logged d)} (steady : Steady m) (inBody : InBody m.state_) :
    m.stage = some (bodyStage m.f_) ∧
      (m.state_ = .chunk_header ∨ m.state_ = .chunk_body → m.f_.flagChunked = true) := by
  unfold Steady at steady
  split at steady
  · exact absurd ‹_› inBody.1
  · exact ⟨steady, by simp [*]⟩
  · exact ⟨steady, by simp [*]⟩
  · exact ⟨steady.2, fun _ => steady.1⟩
  · exact ⟨steady.2.2.trans (by simp [bodyStage, steady.2.1]), fun _ => steady.1⟩
  · exact absurd ‹_› inBody.2

/-- The body is announced once. -/
theorem wp_maybeDoBody {m : Message (logged d)} (inBody : InBody m.state_) (steady : Steady m) :
    Step.wp maybeDoBodyIndirect (Step.orStop (Announced m.state_) Sound) m := by
  obtain ⟨led, coded⟩ := steady.inBody inBody
  unfold maybeDoBodyIndirect
  rw [Step.wp_get_bind]
  refine Step.wp_ite (fun onBody => ?_) fun onBody => ?_
  · exact ⟨rfl, onBody, led.trans (by simp [bodyStage, onBody]), coded⟩
  · -- A body that was not announced is in front of its data.
    have header : m.stage = some .header := led.trans (by simp [bodyStage, onBody])
    have told : ∀ n, Step.wp (invoke (.on_body n)) (Step.orStop (Announced m.state_) Sound)
        { m with f_ := { m.f_ with flagOnBody := true } } := fun n =>
      wp_invoke .body header rfl (fun impl leads => ⟨rfl, rfl, leads, coded⟩)
        fun impl e _ leads => ⟨_, leads, by simp [inBody.2]⟩
    refine Step.wp_ite (fun _ => ?_) fun _ => ?_
    · exact told _
    · exact told _

/-- The body of a direct parser is announced once. -/
theorem wp_maybeDoBodyDirect {m : Message (logged d)} (inBody : InBody m.state_)
    (steady : Steady m) :
    Step.wp maybeDoBodyDirect (Step.orStop (Announced m.state_) Sound) m := by
  obtain ⟨led, coded⟩ := steady.inBody inBody
  unfold maybeDoBodyDirect
  rw [Step.wp_get_bind]
  refine Step.wp_ite (fun onBody => ?_) fun onBody => ?_
  · exact ⟨rfl, onBody, led.trans (by simp [bodyStage, onBody]), coded⟩
  · -- A body that was not announced is in front of its data.
    have header : m.stage = some .header := led.trans (by simp [bodyStage, onBody])
    have told : ∀ n, Step.wp (tell (.on_body n)) (Step.orStop (Announced m.state_) Sound)
        { m with f_ := { m.f_ with flagOnBody := true } } := fun n =>
      wp_tell .body header rfl (fun impl leads => ⟨rfl, rfl, leads, coded⟩)
        fun impl leads => ⟨_, leads, by simp [inBody.2]⟩
    refine Step.wp_ite (fun _ => ?_) fun _ => ?_
    · exact told _
    · exact told _

/-- The end of a message is told, and marked. -/
theorem wp_doComplete (calm : Calm d) {m : Message (logged d)} {stage : Stage}
    (led : m.stage = some stage)
    (allowed : stage.next m.f_.flagChunked .on_complete = some .complete)
    {Q : Except Halt Unit → Message (logged d) → Prop} (told : ∀ m, Steady m → Q (.ok ()) m) :
    Step.wp doComplete Q m :=
  Step.wp_bind.mpr (wp_complete calm led allowed fun _ complete => told _ complete)

/-- The state between the fields of a trailer. -/
def AtTrailer (m : Message (logged d)) : Prop :=
  m.state_ = .chunk_header ∧ m.f_.flagChunked = true ∧
    (m.stage = some .body ∨ m.stage = some .trailer)

theorem AtTrailer.sound {m : Message (logged d)} (trailer : AtTrailer m) : Sound m := by
  obtain ⟨state, -, led | led⟩ := trailer
  · exact ⟨_, led, by simp [state]⟩
  · exact ⟨_, led, by simp [state]⟩

theorem Announced.sound {st : ParseState} {m : Message (logged d)} (announced : Announced st m)
    (inBody : InBody st) : Sound m :=
  (announced.steady inBody).sound

/-- The fields of a trailer are told one after another. -/
theorem atTrailer_preserved (fuel : Nat) (it : Octets) :
    Step.Preserves AtTrailer (parseFields (d := logged d) fuel it) := by
  refine parseFields_preserves ?_ ?_ fuel it
  · rintro m len f framed ⟨state, coded, led⟩
    exact ⟨state, framed.chunked coded,
      led.imp (stage_grows (m := m) framed.chunked) (stage_grows (m := m) framed.chunked)⟩
  · rintro name value m ⟨state, coded, led⟩
    have told : Step.wp (invoke (.on_field name value)) (fun _ => AtTrailer) m := by
      -- The first field of the trailer ends the data, and the others follow it.
      rcases led with led | led
      · exact wp_invoke .trailer led (by rw [coded]; rfl)
          (fun impl leads => ⟨state, coded, .inr leads⟩) fun impl e _ leads => ⟨state, coded, .inr leads⟩
      · exact wp_invoke .trailer led (by rw [coded]; rfl)
          (fun impl leads => ⟨state, coded, .inr leads⟩) fun impl e _ leads => ⟨state, coded, .inr leads⟩
    exact told

/-- The last chunk is told with its trailer, and then the end of the message. -/
theorem wp_parseTrailer (calm : Calm d) {block : Octets} {offset x : Nat}
    {m : Message (logged d)} (chunk : Announced .chunk_header m) :
    Step.wp (parseTrailer block offset x) (Step.orStop Steady Sound) m := by
  have inBody : InBody .chunk_header := ⟨by simp, by simp⟩
  -- Behind the extension come the fields, and then the end of the message.
  have behind : ∀ {p : Octets} {m : Message (logged d)}, Announced .chunk_header m →
      Step.wp (parseTrailerBehind p) (Step.orStop Steady Sound) m := by
    intro p m chunk
    unfold parseTrailerBehind
    refine Step.wp_lift_bind (fun ended _ => ?_) fun _ _ => chunk.sound inBody
    split
    · obtain ⟨state, onBody, led, coded⟩ := chunk
      refine Step.wp_preserves_bind (atTrailer_preserved _ _) ⟨state, coded (.inl rfl), .inl led⟩
        (fun _ m trailer => ?_) fun _ _ trailer => trailer.sound
      -- A trailer may be without fields.
      obtain ⟨-, -, led | led⟩ := trailer
      · exact wp_doComplete calm led rfl fun _ steady => steady
      · exact wp_doComplete calm led rfl fun _ steady => steady
    · exact wp_fail (chunk.sound inBody)
  unfold parseTrailer
  refine Step.wp_lift_bind (fun c _ => ?_) fun _ _ => chunk.sound inBody
  dsimp only
  refine Step.wp_ite (fun _ => ?_) fun _ => ?_
  · obtain ⟨state, onBody, led, coded⟩ := chunk
    refine Step.wp_modify_bind .. |>.mpr ?_
    exact Step.wp_preserves_bind (told_preserves .chunk_header trivial)
      ⟨state, onBody, led, coded⟩ (fun _ m chunk => behind chunk) fun _ _ chunk => chunk.sound inBody
  · exact behind chunk

/-- A chunk is told where it has an extension, and its data is awaited. -/
theorem wp_openChunk {p it : Octets} {v term : Nat} {m : Message (logged d)}
    (chunk : Announced .chunk_header m) :
    Step.wp (openChunk p it v term) (Step.orStop Steady Sound) m := by
  have inBody : InBody .chunk_header := ⟨by simp, by simp⟩
  -- With an extension or without, the data is awaited then.
  have opened : ∀ {m : Message (logged d)}, Announced .chunk_header m →
      Step.wp (modify fun self : Message (logged d) =>
        { self with
          len_ := v
          f_ := { self.f_ with flagExpectCRLF := true }
          state_ := .chunk_body } : MessageStep (logged d) Unit) (Step.orStop Steady Sound) m := by
    intro m chunk
    obtain ⟨state, onBody, led, coded⟩ := chunk
    exact ⟨coded (.inl rfl), onBody, led⟩
  unfold openChunk
  refine Step.wp_lift_bind (fun c _ => ?_) fun _ _ => chunk.sound inBody
  dsimp only
  refine Step.wp_ite (fun _ => ?_) fun _ => ?_
  · obtain ⟨state, onBody, led, coded⟩ := chunk
    refine Step.wp_modify_bind .. |>.mpr ?_
    exact Step.wp_preserves_bind (told_preserves .chunk_header trivial)
      ⟨state, onBody, led, coded⟩ (fun _ m chunk => opened chunk) fun _ _ chunk => chunk.sound inBody
  · refine Step.wp_ite (fun _ => ?_) fun _ => ?_
    · exact wp_fail_bind (chunk.sound inBody)
    · exact opened chunk

end Stages

section Parser

/-- What an entry point of the parser leaves: a steady message, or a sound one where it fails. -/
def Kept {α : Type} : Except Halt α → BasicParser (logged d) → Prop :=
  Step.orStop (fun p => Steady p.toMessage) (fun p => Sound p.toMessage)

/-- A step on the message goes on in the parser with the message that it leaves. -/
theorem wp_onMessage_bind {α β : Type} {m : MessageStep d α} {f : α → ParserStep d β}
    {p : BasicParser d} {A B : Message d → Prop} {Q : Except Halt β → BasicParser d → Prop}
    (first : Step.wp m (Step.orStop A B) p.toMessage)
    (second : ∀ a message, A message → Step.wp (f a) Q { p with toMessage := message })
    (stops : ∀ e message, B message → Q (.error e) { p with toMessage := message }) :
    Step.wp (onMessage m >>= f) Q p := by
  refine Step.wp_bind.mpr ?_
  unfold onMessage
  unfold Step.wp at first ⊢
  rw [Step.run_zoom]
  rcases ran : Step.run m p.toMessage with ⟨r, message⟩
  rw [ran] at first
  cases r with
  | ok a => exact second a message first
  | error e => exact stops e message first

variable {p : BasicParser (logged d)}

theorem kept_parseHeader (calm : Calm d) {isRequest : Bool} {text : Octets}
    (start : AtStart p.toMessage) : Step.wp (parseHeader isRequest text) Kept p := by
  obtain ⟨state, led, fresh⟩ := start
  have steady : Steady p.toMessage := by
    unfold Steady
    rw [state]
    exact ⟨led, fresh⟩
  unfold parseHeader
  rw [Step.wp_get_bind]
  refine Step.wp_ite (fun _ => steady) fun _ => ?_
  -- The header is malformed, awaited or taken.
  split
  · exact wp_fail steady.sound
  · exact steady
  · rw [Step.wp_set_bind]
    exact wp_onMessage_bind (wp_headerBlock calm ⟨state, led, fresh⟩) (fun _ _ behind => behind)
      fun _ _ behind => behind

theorem kept_parseLastChunk (calm : Calm d) {first : Octets} {n offset : Nat}
    (chunk : Announced .chunk_header p.toMessage) :
    Step.wp (parseLastChunk first n offset) Kept p := by
  have inBody : InBody .chunk_header := ⟨by simp, by simp⟩
  unfold parseLastChunk
  rw [Step.wp_get_bind]
  split
  · exact wp_fail (chunk.sound inBody)
  · exact Step.wp_ite (fun _ => chunk.steady inBody) fun _ => chunk.steady inBody
  · exact wp_onMessage_bind (wp_parseTrailer calm chunk) (fun _ _ behind => behind)
      fun _ _ behind => behind

theorem kept_parseChunkSize (calm : Calm d) {first text : Octets} {term : Nat}
    (chunk : Announced .chunk_header p.toMessage) :
    Step.wp (parseChunkSize first text term) Kept p := by
  have inBody : InBody .chunk_header := ⟨by simp, by simp⟩
  unfold parseChunkSize
  refine Step.wp_lift_bind (fun size _ => ?_) fun _ _ => chunk.sound inBody
  split
  · dsimp only
    refine Step.wp_ite (fun _ => ?_) fun _ => ?_
    · exact wp_onMessage_bind (wp_openChunk chunk) (fun _ _ behind => behind) fun _ _ behind => behind
    · -- The mark of the last chunk is no flag that the stages depend on.
      obtain ⟨state, onBody, led, coded⟩ := chunk
      rw [Step.wp_modify_bind]
      exact wp_onMessage_bind (A := Announced .chunk_header) (B := Sound)
        (m := setFlags fun f => { f with flagFinalChunk := true }) ⟨state, onBody, led, coded⟩
        (fun _ _ chunk => kept_parseLastChunk calm chunk) fun _ _ behind => behind
  · exact wp_fail (chunk.sound inBody)

theorem kept_parseChunkLine (calm : Calm d) {first text : Octets}
    (chunk : Announced .chunk_header p.toMessage) :
    Step.wp (parseChunkLine first text) Kept p := by
  have inBody : InBody .chunk_header := ⟨by simp, by simp⟩
  unfold parseChunkLine
  rw [Step.wp_get_bind]
  -- The size is read for the first time, or again for the last chunk.
  refine Step.wp_ite (fun _ => ?_) fun _ => ?_
  · refine Step.wp_ite (fun _ => chunk.steady inBody) fun _ => ?_
    split
    · exact wp_fail (chunk.sound inBody)
    · exact chunk.steady inBody
    · exact kept_parseChunkSize calm chunk
  · refine Step.wp_lift_bind (fun size _ => ?_) fun _ _ => chunk.sound inBody
    split
    · exact kept_parseLastChunk calm chunk
    · exact chunk.sound inBody

theorem kept_parseChunkHeader (calm : Calm d) {first : Octets}
    (chunk : Announced .chunk_header p.toMessage) :
    Step.wp (parseChunkHeader first) Kept p := by
  have inBody : InBody .chunk_header := ⟨by simp, by simp⟩
  unfold parseChunkHeader
  rw [Step.wp_get_bind]
  refine Step.wp_ite (fun _ => ?_) fun _ => kept_parseChunkLine calm chunk
  refine Step.wp_ite (fun _ => chunk.steady inBody) fun _ => ?_
  refine Step.wp_lift_bind (fun ended _ => ?_) fun _ _ => chunk.sound inBody
  split
  · exact kept_parseChunkLine calm chunk
  · exact wp_fail (chunk.sound inBody)

/-- Data is told, and counted off. -/
theorem wp_passData {st : ParseState} (inBody : InBody st) {body : Octets}
    {m : Message (logged d)} (announced : Announced st m) :
    Step.wp (passData body) (Step.orStop (Announced st) Sound) m :=
  Step.wp_preserves_bind (told_preserves _ trivial) announced (fun _ _ behind => behind)
    fun _ _ behind => behind.sound inBody

theorem kept_parseBody (calm : Calm d) {text : Octets} (body : Announced .body p.toMessage) :
    Step.wp (parseBody text) Kept p := by
  have inBody : InBody .body := ⟨by simp, by simp⟩
  unfold parseBody
  rw [Step.wp_get_bind]
  dsimp only
  rw [Step.wp_set_bind]
  refine wp_onMessage_bind (wp_passData inBody body) (fun _ message body => ?_)
    fun _ _ behind => behind
  rw [Step.wp_get_bind]
  -- The last octets of the body end the message.
  refine Step.wp_ite (fun _ => ?_) fun _ => body.steady inBody
  exact wp_onMessage_bind (A := Steady) (B := Sound)
    (wp_doComplete calm body.2.2.1 rfl fun _ steady => steady) (fun _ _ behind => behind)
    fun _ _ behind => behind

theorem kept_parseBodyToEof {text : Octets} (body : Announced .body_to_eof p.toMessage) :
    Step.wp (parseBodyToEof text) Kept p := by
  have inBody : InBody .body_to_eof := ⟨by simp, by simp⟩
  unfold parseBodyToEof
  rw [Step.wp_modify_bind]
  refine wp_onMessage_bind (A := Announced .body_to_eof) (B := Announced .body_to_eof)
    (Step.wp_mono (told_preserves _ (c := .on_data text) trivial _ body) fun r m behind => ?_)
    (fun _ _ behind => behind.steady inBody) fun _ _ behind => behind.sound inBody
  cases r <;> exact behind

theorem kept_parseChunkBody {text : Octets} (chunk : Announced .chunk_body p.toMessage) :
    Step.wp (parseChunkBody text) Kept p := by
  have inBody : InBody .chunk_body := ⟨by simp, by simp⟩
  unfold parseChunkBody
  rw [Step.wp_get_bind]
  dsimp only
  rw [Step.wp_set_bind]
  refine wp_onMessage_bind (wp_passData inBody chunk) (fun _ message chunk => ?_)
    fun _ _ behind => behind
  rw [Step.wp_get_bind]
  refine Step.wp_ite (fun _ => ?_) fun _ => chunk.steady inBody
  -- The end of a chunk is told of by no call.
  obtain ⟨state, onBody, led, coded⟩ := chunk
  exact ⟨coded (.inr rfl), led.trans (by simp [bodyStage, onBody])⟩

/-- A parser for octets makes its calls in the order of the protocol. -/
theorem kept_write (calm : Calm d) {isRequest : Bool} {buffer : Octets}
    (steady : Steady p.toMessage) : Step.wp (write isRequest buffer) Kept p := by
  -- Within a body, the announcement comes before the octets.
  have announces : ∀ {α : Type} {f : Unit → ParserStep (logged d) α}, InBody p.state_ →
      (∀ message, Announced p.state_ message →
        Step.wp (f ()) Kept { p with toMessage := message }) →
      Step.wp (onMessage maybeDoBodyIndirect >>= f) Kept p := by
    intro α f inBody behind
    exact wp_onMessage_bind (wp_maybeDoBody inBody steady) (fun _ => behind) fun _ _ behind => behind
  unfold write
  rw [Step.wp_get_bind]
  cases state : p.state_ with
  | header =>
    unfold Steady at steady
    rw [state] at steady
    exact wp_onMessage_bind (A := AtStart) (B := Sound)
      (m := setFlags fun f => { f with flagGotSome := f.flagGotSome || buffer.length > 0 })
      ⟨state, steady⟩ (fun _ _ start => kept_parseHeader calm start) fun _ _ behind => behind
  | body =>
    rw [state] at announces
    exact announces ⟨by simp, by simp⟩ fun _ body => kept_parseBody calm body
  | body_to_eof =>
    rw [state] at announces
    exact announces ⟨by simp, by simp⟩ fun _ body => kept_parseBodyToEof body
  | chunk_header =>
    rw [state] at announces
    exact announces ⟨by simp, by simp⟩ fun _ chunk => kept_parseChunkHeader calm chunk
  | chunk_body =>
    unfold Steady at steady
    rw [state] at steady
    exact kept_parseChunkBody ⟨state, steady.2.1, steady.2.2, fun _ => steady.1⟩
  | complete => exact steady

/-- A direct parser for headers makes its calls in the order of the protocol. -/
theorem kept_writeDirect (calm : Calm d) {isRequest : Bool} {buffer : Octets}
    (steady : Steady p.toMessage) (header : p.state_ = .header ∨ p.state_ = .chunk_header) :
    Step.wp (writeDirect isRequest buffer) Kept p := by
  unfold writeDirect
  rw [Step.wp_get_bind]
  rcases header with state | state
  · simp only [state, beq_self_eq_true, ↓reduceIte]
    unfold Steady at steady
    rw [state] at steady
    exact wp_onMessage_bind (A := AtStart) (B := Sound)
      (m := setFlags fun f => { f with flagGotSome := f.flagGotSome || buffer.length > 0 })
      ⟨state, steady⟩ (fun _ _ start => kept_parseHeader calm start) fun _ _ behind => behind
  · have inBody : InBody p.state_ := by rw [state]; exact ⟨by simp, by simp⟩
    have announced := wp_maybeDoBodyDirect inBody steady
    rw [state] at announced
    simp only [state, reduceCtorEq, beq_iff_eq, ↓reduceIte]
    exact wp_onMessage_bind announced (fun _ _ chunk => kept_parseChunkHeader calm chunk)
      fun _ _ behind => behind

/-- The end of the octets completes a message at most once, and is refused without a call. -/
theorem steady_writeEof (calm : Calm d) (steady : Steady p.toMessage)
    (open_ : p.state_ = .complete → p.f_.flagContentLength = true ∨ p.f_.flagChunked = true) :
    Step.wp writeEof (fun _ p => Steady p.toMessage) p := by
  unfold writeEof
  rw [Step.wp_get_bind]
  refine Step.wp_ite (fun _ => steady) fun begun => ?_
  refine Step.wp_ite (fun _ => ?_) fun unframed => ?_
  · exact Step.wp_ite (fun _ => steady) fun _ => steady
  · -- A complete message has a size or chunks, which was ruled out, so a body is under way.
    have inBody : InBody p.state_ := by
      refine ⟨by simpa using begun, fun complete => unframed ?_⟩
      rcases open_ complete with length | chunked
      · simp [length]
      · simp [chunked]
    have led := (steady.inBody inBody).1
    have allowed : (bodyStage p.f_).next p.f_.flagChunked .on_complete = some .complete := by
      unfold bodyStage
      split <;> rfl
    have completed : Step.wp doComplete (fun _ => Steady) p.toMessage :=
      wp_doComplete calm led allowed fun _ steady => steady
    exact completed

/-- Consuming octets elsewhere calls nothing, where it does not come to the end of the body. -/
theorem steady_consume {n : Nat} (steady : Steady p.toMessage)
    (inBody : p.state_ = .body ∨ p.state_ = .chunk_body)
    (some_ : p.state_ = .body → n < p.len_) :
    Step.wp (consume n) (fun _ p => Steady p.toMessage) p := by
  unfold consume
  rw [Step.wp_modify]
  dsimp only
  by_cases all : p.len_ - n = 0
  · rw [if_pos all]
    rcases inBody with state | state
    · have more := some_ state
      omega
    · -- The end of a chunk is followed by the header of the next one.
      unfold Steady at steady
      rw [state] at steady
      obtain ⟨coded, onBody, led⟩ := steady
      rw [if_neg (by simp [state])]
      exact ⟨coded, led.trans (by simp [bodyStage, onBody])⟩
  · rw [if_neg all]
    exact steady

end Parser

section Runs

/-- What the user of a parser may call. -/
inductive Call
  | write (buffer : Octets)
  | write_eof
  | consume (n : Nat)
  deriving DecidableEq, Repr

/-- The parser, and whether writing to it failed. -/
abbrev Session (d : Derived) := BasicParser (logged d) × Bool

/-- The asserted preconditions of a call. -/
def allowed (isDirect : Bool) (p : BasicParser d) : Call → Prop
  | .write _ =>
    if isDirect then p.state_ = .header ∨ p.state_ = .chunk_header else p.state_ ≠ .complete
  | .write_eof => gotSome p = true
  | .consume n => n ≤ p.len_ ∧ (p.state_ = .body ∨ p.state_ = .chunk_body)

/-- What writing to a parser does, which remembers whether it failed. -/
def does (isRequest isDirect : Bool) (s : Session d) : Call → Session d
  | .write buffer =>
    let wrote := Step.run (if isDirect then writeDirect isRequest buffer
      else write isRequest buffer) s.1
    (wrote.2, s.2 || !wrote.1.isOk)
  | .write_eof => ((Step.run writeEof s.1).2, s.2)
  | .consume n => ((Step.run (consume n) s.1).2, s.2)

/-- A step of the user of a parser. -/
def CallStep (isRequest isDirect : Bool) (s : Session d) (c : Call) (t : Session d) : Prop :=
  allowed isDirect s.1 c ∧ t = does isRequest isDirect s c

/-- The calls that keep the order of the protocol. -/
def Orderly (s : Session d) (c : Call) : Prop :=
  -- Nothing is called behind a failure, and no end is told twice or passed over.
  s.2 = false ∧
    (c = .write_eof → s.1.state_ = .complete →
      s.1.f_.flagContentLength = true ∨ s.1.f_.flagChunked = true) ∧
    ∀ n, c = .consume n → s.1.state_ = .body → n < s.1.len_

/-- The calls made are the first ones of a message, which is complete once its end was told. -/
def InOrder (p : BasicParser (logged d)) : Prop :=
  (∃ rest, MessageCalls p.f_.flagChunked (p.impl.2 ++ rest) ∧ (p.state_ = .complete → rest = [])) ∧
    p.impl.2.count .on_complete = if p.state_ = .complete then 1 else 0

/-- The end of a message is told once, as the last call. -/
theorem count_complete {chunked : Bool} {calls : List Callback} {stage : Stage}
    (leads : stageOf chunked calls = some stage) :
    calls.count .on_complete = if stage = .complete then 1 else 0 := by
  induction calls using List.reverseRecOn generalizing stage with
  | nil =>
    obtain rfl : Stage.start = stage := Option.some.inj leads
    rfl
  | append_singleton calls c ih =>
    rw [stageOf_snoc] at leads
    obtain ⟨before, led, allowed⟩ := Option.bind_eq_some_iff.mp leads
    rw [List.count_append, ih led]
    unfold Stage.next at allowed
    split at allowed
    all_goals
      first
      | (obtain rfl := Option.some.inj allowed; simp)
      | (obtain ⟨_, allowed⟩ := Option.ite_none_right_eq_some.mp allowed
         obtain rfl := Option.some.inj allowed; simp)
      | cases allowed

/-- Sound calls are in order. -/
theorem Sound.inOrder {p : BasicParser (logged d)} (sound : Sound p.toMessage) : InOrder p := by
  obtain ⟨stage, led, complete⟩ := sound
  obtain ⟨rest, whole, last⟩ := messageCalls_of_stage led
  refine ⟨⟨rest, whole, fun state => last (complete.mpr state)⟩, ?_⟩
  rw [count_complete led]
  simp only [complete]

/-- What a session is between two calls: steady, or sound behind a failure. -/
def Orders (s : Session d) : Prop :=
  Sound s.1.toMessage ∧ (s.2 = false → Steady s.1.toMessage)

/-- What writing leaves is what a session is between two calls. -/
theorem Kept.orders {α : Type} {r : Except Halt α} {p : BasicParser (logged d)} (kept : Kept r p) :
    Sound p.toMessage ∧ (r.isOk = true → Steady p.toMessage) := by
  cases r with
  | ok a => exact ⟨Steady.sound kept, fun _ => kept⟩
  | error e => exact ⟨kept, fun wrote => by cases wrote⟩

/-- A call that keeps the order leaves a parser that is in order. -/
theorem orders_step (calm : Calm d) {isRequest isDirect : Bool} {s t : Session d} {c : Call}
    (orders : Orders s) (orderly : Orderly s c) (stepped : CallStep isRequest isDirect s c t) :
    Orders t := by
  obtain ⟨fine, once, within⟩ := orderly
  obtain ⟨allowed, rfl⟩ := stepped
  -- No write failed before, so the message is steady.
  have steady := orders.2 fine
  cases c with
  | write buffer =>
    have kept : Step.wp (if isDirect then writeDirect isRequest buffer else write isRequest buffer)
        Kept s.1 := by
      cases isDirect with
      | true => exact kept_writeDirect calm steady allowed
      | false => exact kept_write calm steady
    obtain ⟨sound, wrote⟩ := Kept.orders kept
    refine ⟨sound, fun unfailed => wrote ?_⟩
    simpa [does, fine] using unfailed
  | write_eof =>
    have kept : Steady ((Step.run writeEof s.1).2).toMessage :=
      steady_writeEof calm steady (once rfl)
    exact ⟨kept.sound, fun _ => kept⟩
  | consume n =>
    have kept : Steady ((Step.run (consume n) s.1).2).toMessage :=
      steady_consume steady allowed.2 (within n rfl)
    exact ⟨kept.sound, fun _ => kept⟩

/-- A parser in front of its first octet, which has called nothing. -/
def atFirst (skipsBody : Bool) (len x : Nat) (impl : d.State) : Session d :=
  (opened (d := logged d) skipsBody len x (impl, []), false)

/-- A parser is steady in front of its first octet. -/
theorem orders_first (skipsBody : Bool) (len x : Nat) (impl : d.State) :
    Orders (atFirst skipsBody len x impl) := by
  have steady : Steady (atFirst skipsBody len x impl).1.toMessage := by
    cases skipsBody <;> exact ⟨rfl, rfl⟩
  exact ⟨steady.sound, fun _ => steady⟩

/-- In every run that keeps the order, the calls are in the order of the protocol. -/
theorem callbacks_in_order (calm : Calm d) {isRequest isDirect skipsBody : Bool} {len x : Nat}
    {impl : d.State} {s : Session d}
    (reached : Run.Reaches (CallStep isRequest isDirect) Orderly (atFirst skipsBody len x impl) s) :
    InOrder s.1 :=
  -- The invariant speaks of failures, too, which end a run.
  have orders : Orders s := reached.invariant
    (fun _ _ _ orders orderly stepped => orders_step calm orders orderly stepped)
    (orders_first skipsBody len x impl)
  orders.1.inOrder

/-- A request without fields. -/
def bare : Octets := octets "GET / HTTP/1.0\r\n\r\n"

/-- A session behind the request without fields, which is a whole message. -/
def told : Session accepting :=
  does true false (atFirst false 0 0 ()) (.write bare)

theorem told_complete : told.1.state_ = .complete := by decide +kernel

/-- The request without fields keeps the order. -/
theorem told_reached : Run.Reaches (CallStep true false) Orderly (atFirst false 0 0 ()) told := by
  have stepped : CallStep true false (atFirst (d := accepting) false 0 0 ()) (.write bare) told :=
    ⟨by simp [allowed, atFirst, opened], rfl⟩
  have orderly : Orderly (atFirst (d := accepting) false 0 0 ()) (.write bare) :=
    ⟨rfl, by simp, by simp⟩
  exact Run.Reaches.snoc .refl orderly stepped

/-- A request is told in the order of the protocol. -/
theorem callbacks_in_order_request : told.1.state_ = .complete ∧ InOrder told.1 :=
  ⟨told_complete, callbacks_in_order (fun _ => ⟨rfl, rfl⟩) told_reached⟩

/-- An end of octets behind a message without a size tells the end of the message again. -/
theorem complete_told_twice :
    ¬∀ (isRequest : Bool) (s : Session accepting),
      Run.Reaches (CallStep isRequest false) (fun _ _ => True) (atFirst false 0 0 ()) s →
        InOrder s.1 := by
  intro orders
  have reached : Run.Reaches (CallStep true false) (fun _ _ => True) (atFirst false 0 0 ())
      (does true false told .write_eof) := by
    refine Run.Reaches.snoc (Run.Reaches.snoc .refl (a := .write bare) trivial ⟨?_, rfl⟩) trivial
      ⟨?_, rfl⟩
    · simp [allowed, atFirst, opened]
    · have got : gotSome told.1 = true := by decide +kernel
      exact got
  have once := (orders true _ reached).2
  have twice : (does true false told .write_eof).1.impl.2.count .on_complete = 2 := by
    decide +kernel
  rw [twice] at once
  split at once <;> omega

end Runs

end Beast.Http
