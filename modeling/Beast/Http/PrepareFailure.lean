import Beast.Http.PrepareLaws
import Beast.Lib.Step

/-! What is left of a message that could not be prepared. -/

namespace Beast.Http

section

variable (W : BodyWriter) (sized : Option (W.State → UInt64)) (w : W.State)
  (options : List Connection)

/-- Prepares a message in its place, which is left as it is where something is thrown. -/
def prepareInPlace : Step PrepareError Header Unit := do
  let content_length ← Step.lift (prepareContentLength W w sized)
  let pi := prepareOptions { content_length } options
  if (← get).fields.fieldExists (octets "Connection") then
    Step.stop (.invalid_argument "prepare called with Connection field set")
  else if (← get).fields.fieldExists (octets "Content-Length") then
    Step.stop (.invalid_argument "prepare called with Content-Length field set")
  else if tokenExists ((← get).fields.value (octets "Transfer-Encoding")) (octets "chunked") then
    Step.stop (.invalid_argument "prepare called with Transfer-Encoding: chunked set")
  else
    modify (setFraming pi)
    modify (prepareConnection pi)
    let msg ← get
    if msg.version < 11 && tokenExists (msg.fields.value (octets "Connection")) (octets "upgrade") then
      Step.stop (.invalid_argument "invalid version for Connection: upgrade")

/-- A message keeps its fields where it could not be prepared. -/
def FailsUnchanged (msg : Header) : Prop :=
  ∀ e msg', Step.run (prepareInPlace W sized w options) msg = (.error e, msg') →
    msg'.fields = msg.fields

/-- The message is one that `prepare` does not refuse at once, but it asks for an upgrade that its
version does not have. -/
def UpgradesTooOld (msg : Header) : Prop :=
  (sized.isSome → (W.init w).2 = none) ∧
    msg.fields.fieldExists (octets "Connection") = false ∧
    msg.fields.fieldExists (octets "Content-Length") = false ∧
    tokenExists (msg.fields.value (octets "Transfer-Encoding")) (octets "chunked") = false ∧
    options.getLast? = some .upgrade ∧ msg.version < 11

variable {W sized w options} {msg : Header}

/-- The last check finds a message of an old version that asks for an upgrade. -/
theorem upgrade_refused (pi : PrepareInfo)
    (noConnection : msg.fields.fieldExists (octets "Connection") = false) :
    ((prepareConnection pi (setFraming pi msg)).version < 11 &&
      tokenExists ((prepareConnection pi (setFraming pi msg)).fields.value (octets "Connection"))
        (octets "upgrade")) = true ↔ pi.connection_value = some .upgrade ∧ msg.version < 11 := by
  have version : (prepareConnection pi (setFraming pi msg)).version = msg.version := by
    rw [prepareConnection_fields, setFraming_fields]
  -- The field that is looked at is the one that was added, if any.
  have length_other : ciEqual (octets "Content-Length") (octets "Connection") = false := by
    decide +kernel
  have coding_other : ciEqual (octets "Transfer-Encoding") (octets "Connection") = false := by
    decide +kernel
  have bodyOther : Fields.fieldExists (bodyFields pi msg) (octets "Connection") = false := by
    rw [fieldExists_false]
    intro f there
    rcases bodyFields_cases pi msg with none | ⟨n, sized⟩ | coded
    · rw [none] at there
      cases there
    · rw [sized, List.mem_singleton] at there
      rw [there, length_other]
    · rw [coded, List.mem_singleton] at there
      rw [there, coding_other]
  have value : (prepareConnection pi (setFraming pi msg)).fields.value (octets "Connection") =
      Fields.value (connectionFields pi (setFraming pi msg)) (octets "Connection") := by
    rw [prepareConnection_fields, setFraming_fields]
    dsimp only
    rw [value_append, fieldExists_append, noConnection, bodyOther, Bool.false_or,
      if_neg Bool.false_ne_true]
  have none_asks : tokenExists (Fields.value [] (octets "Connection")) (octets "upgrade") = false := by
    decide +kernel
  have keep_alive_asks : tokenExists (Fields.value [(octets "Connection", octets "keep-alive")]
      (octets "Connection")) (octets "upgrade") = false := by
    decide +kernel
  have close_asks : tokenExists (Fields.value [(octets "Connection", octets "close")]
      (octets "Connection")) (octets "upgrade") = false := by
    decide +kernel
  have upgrade_asks : tokenExists (Fields.value [(octets "Connection", octets "upgrade")]
      (octets "Connection")) (octets "upgrade") = true := by
    decide +kernel
  rw [Bool.and_eq_true, decide_eq_true_eq, version, value, connectionFields]
  cases pi.connection_value with
  | none => simp [none_asks]
  | some value =>
    cases value with
    | upgrade => simp [upgrade_asks]
    | keep_alive =>
      dsimp only
      split
      · simp [keep_alive_asks]
      · simp [none_asks]
    | close =>
      dsimp only
      split
      · simp [close_asks]
      · simp [none_asks]

/-- What becomes of a message that is prepared in its place. -/
theorem prepareInPlace_eq : Step.run (prepareInPlace W sized w options) msg =
    match prepareContentLength W w sized with
    | .error e => (.error e, msg)
    | .ok content_length =>
      let pi := prepareOptions { content_length } options
      if msg.fields.fieldExists (octets "Connection") then
        (.error (.invalid_argument "prepare called with Connection field set"), msg)
      else if msg.fields.fieldExists (octets "Content-Length") then
        (.error (.invalid_argument "prepare called with Content-Length field set"), msg)
      else if tokenExists (msg.fields.value (octets "Transfer-Encoding")) (octets "chunked") then
        (.error (.invalid_argument "prepare called with Transfer-Encoding: chunked set"), msg)
      else
        let msg := prepareConnection pi (setFraming pi msg)
        if msg.version < 11 && tokenExists (msg.fields.value (octets "Connection")) (octets "upgrade")
        then (.error (.invalid_argument "invalid version for Connection: upgrade"), msg)
        else (.ok (), msg) := by
  -- The checks come one after another, and only behind the first three is anything changed.
  unfold prepareInPlace
  cases prepareContentLength W w sized with
  | error e => rfl
  | ok n =>
    rw [Step.run_lift_ok_bind, Step.run_get_bind]
    dsimp only
    split
    · rfl
    · rw [Step.run_get_bind]
      split
      · rfl
      · rw [Step.run_get_bind]
        split
        · rfl
        · rw [Step.run_modify_bind, Step.run_modify_bind, Step.run_get_bind]
          split <;> rfl

/-- The message in its place becomes what is prepared of it, or is refused for the same reason. -/
theorem prepareInPlace_refines : (Step.run (prepareInPlace W sized w options) msg).1 =
      (prepareMessage W sized w options msg).map (fun _ => ()) ∧
    ∀ msg', prepareMessage W sized w options msg = .ok msg' →
      (Step.run (prepareInPlace W sized w options) msg).2 = msg' := by
  rw [prepareInPlace_eq]
  -- Both make the same checks in the same order.
  unfold prepareMessage
  cases prepareContentLength W w sized with
  | error e => exact ⟨rfl, nofun⟩
  | ok n =>
    simp only [bind, Except.bind, throw, throwThe, MonadExceptOf.throw, pure, Except.pure]
    split
    · exact ⟨rfl, nofun⟩
    · split
      · exact ⟨rfl, nofun⟩
      · split
        · exact ⟨rfl, nofun⟩
        · split
          · exact ⟨rfl, nofun⟩
          · exact ⟨rfl, fun msg' same => Except.ok.inj same⟩

/-- The length of the body is asked for in vain only where the writer reports something. -/
theorem prepareContentLength_ok : (∃ n, prepareContentLength W w sized = .ok n) ↔
    (sized.isSome → (W.init w).2 = none) := by
  cases sized with
  | none => exact ⟨fun _ there => (nomatch there), fun _ => ⟨none, rfl⟩⟩
  | some content_length =>
    unfold prepareContentLength
    rcases init : W.init w with ⟨w', ec⟩
    cases ec with
    | none => exact ⟨fun _ _ => rfl, fun _ => ⟨_, rfl⟩⟩
    | some ec =>
      refine ⟨fun ⟨n, done⟩ => ?_, fun fine => ?_⟩
      · cases done
      · cases fine rfl

/-- A message that could not be prepared keeps its fields, exactly where it was not the last check
that refused it. -/
theorem failsUnchanged_iff :
    FailsUnchanged W sized w options msg ↔ ¬UpgradesTooOld W sized w options msg := by
  unfold FailsUnchanged UpgradesTooOld
  rw [prepareInPlace_eq, ← prepareContentLength_ok]
  -- What is refused by an early check is as it was.
  have early {e : PrepareError} : ∀ e' msg',
      (Except.error (α := Unit) e, msg) = (.error e', msg') → msg'.fields = msg.fields := by
    rintro _ _ ⟨⟩
    rfl
  cases content : prepareContentLength W w sized with
  | error e =>
    refine ⟨fun _ late => ?_, fun _ => early⟩
    obtain ⟨n, done⟩ := late.1
    cases done
  | ok n =>
    dsimp only
    by_cases connection : msg.fields.fieldExists (octets "Connection") = true
    · rw [if_pos connection]
      refine ⟨fun _ late => ?_, fun _ => early⟩
      exact absurd (late.2.1) (by simp [connection])
    rw [if_neg connection]
    by_cases length : msg.fields.fieldExists (octets "Content-Length") = true
    · rw [if_pos length]
      refine ⟨fun _ late => ?_, fun _ => early⟩
      exact absurd (late.2.2.1) (by simp [length])
    rw [if_neg length]
    by_cases chunked :
        tokenExists (msg.fields.value (octets "Transfer-Encoding")) (octets "chunked") = true
    · rw [if_pos chunked]
      refine ⟨fun _ late => ?_, fun _ => early⟩
      exact absurd (late.2.2.2.1) (by simp [chunked])
    rw [if_neg chunked]
    simp only [Bool.not_eq_true] at connection length chunked
    obtain ⟨-, last⟩ := prepareOptions_last { content_length := n } options
    rw [Option.or_none] at last
    generalize prepareOptions { content_length := n } options = pi at last
    have refused := upgrade_refused pi connection
    by_cases late : pi.connection_value = some .upgrade ∧ msg.version < 11
    · -- The field that asks for the upgrade is there when it is refused.
      rw [if_pos (refused.mpr late)]
      refine ⟨fun unchanged => absurd (unchanged _ _ rfl) ?_, fun early => absurd ?_ early⟩
      · have asked : connectionFields pi (setFraming pi msg) =
            [(octets "Connection", octets "upgrade")] := by
          rw [connectionFields, late.1]
        rw [prepareConnection_fields, asked, setFraming_fields, bodyFields, if_pos late.1]
        simp
      · exact ⟨⟨n, rfl⟩, connection, length, chunked, last ▸ late.1, late.2⟩
    · rw [if_neg fun asks => late (refused.mp asks)]
      refine ⟨fun _ tooOld => late ⟨last.trans tooOld.2.2.2.2.1, tooOld.2.2.2.2.2⟩, fun _ => ?_⟩
      rintro e msg' ⟨⟩

end

/-- A request of HTTP/1.0. -/
def oldRequest : Header where
  version := 10
  start := .request (octets "GET") (octets "/")
  fields := [(octets "Host", octets "a")]

/-- A request of an old version that is prepared for an upgrade has the field when it is refused. -/
theorem upgrade_left_behind :
    Step.run (prepareInPlace listWriter none [] [.upgrade]) oldRequest =
      (.error (.invalid_argument "invalid version for Connection: upgrade"),
        { oldRequest with
          fields := [(octets "Host", octets "a"), (octets "Connection", octets "upgrade")] }) ∧
    ¬FailsUnchanged listWriter none [] [.upgrade] oldRequest := by
  have left : Step.run (prepareInPlace listWriter none [] [.upgrade]) oldRequest =
      (.error (.invalid_argument "invalid version for Connection: upgrade"),
        { oldRequest with
          fields := [(octets "Host", octets "a"), (octets "Connection", octets "upgrade")] }) := by
    rfl
  -- The fields are not those of the request, so the refusal did not leave it unchanged.
  refine ⟨left, fun unchanged => ?_⟩
  have same := unchanged _ _ left
  cases same

end Beast.Http
