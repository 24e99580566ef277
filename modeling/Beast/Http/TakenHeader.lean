import Beast.Http.HeaderLines
import Beast.Http.TakenFields
import Mathlib

/-! A header that was accepted, taken apart: its first line, its fields, and what they lead to. -/

namespace Beast.Http

variable {d : Derived}

/-- What a step that told the end of the header does behind its decision. -/
def finishHeader : MessageStep d Unit := do
  invoke .on_header
  if (← get).state_ == .complete then
    invoke .on_complete

/-- How a header is taken: told, noted, and decided on. -/
structure Taken (isRequest : Bool) (lines : List Octets) (start : StartLine) (version : Nat)
    (m told noted decided t : Message d) : Prop where
  readable : ReadableStart start
  kind : start.is_request = isRequest
  whole : (readFields lines).2 = false
  tells : Step.run (invoke (start.callback version)) m = (.ok (), told)
  takes : Step.run (takeFields (readFields lines).1)
    { told with f_ := noteVersion version told.f_ } = (.ok (), noted)
  decides : Step.run (doHeader isRequest start.status) noted = (.ok (), decided)
  finishes : Step.run finishHeader decided = (.ok (), t)

/-- A header block that was accepted was taken part by part. -/
theorem parseHeaderBlock_taken {line : Octets} {lines : List Octets} (plain : PlainLine line)
    (plains : PlainLines lines) {isRequest : Bool} {m t : Message d}
    (ran : Step.run (parseHeaderBlock isRequest (line ++ crlf ++ writeLines lines ++ crlf)) m =
      (.ok (), t)) :
    ∃ start version told noted decided,
      Taken isRequest lines start version m told noted decided t := by
  have room := length_lines lines
  unfold parseHeaderBlock at ran
  rw [List.append_assoc (line ++ crlf)] at ran
  obtain ⟨a, told, first, ran⟩ := Step.bind_ok ran
  rcases parseStartline_line (d := d) plain isRequest (writeLines lines ++ crlf) with
    ⟨code, refused⟩ | ⟨start, version, readable, kind, read⟩
  · rw [refused] at first
    cases first
  · rw [read] at first
    obtain ⟨_, u, tells, rest⟩ := Step.bind_ok first
    cases rest
    -- The version is noted, or was not worth a note.
    have behind : ∃ noted, Step.run (takeFields (readFields lines).1)
          { told with f_ := noteVersion version told.f_ } = (.ok (), noted) ∧
        (readFields lines).2 = false ∧ Step.run (do
          doHeader isRequest start.status
          finishHeader) noted = (.ok (), t) := by
      have fields : Step.run (do
          let _ ← parseFields ((writeLines lines ++ crlf).length + 1) (writeLines lines ++ crlf)
          doHeader isRequest start.status
          finishHeader) { told with f_ := noteVersion version told.f_ } = (.ok (), t) := by
        unfold noteVersion
        dsimp only at ran
        split at ran
        · rename_i new
          rw [if_pos new]
          exact ran
        · rename_i old
          rw [if_neg old]
          exact ran
      obtain ⟨it, noted, parsed, fields⟩ := Step.bind_ok fields
      rw [parseFields_lines plains (Nat.lt_succ_of_le room)] at parsed
      obtain ⟨_, v, takes, ended⟩ := Step.bind_ok parsed
      unfold endFields at ended
      split at ended
      · cases ended
      · rename_i whole
        cases ended
        exact ⟨noted, takes, by simpa using whole, fields⟩
    obtain ⟨noted, takes, whole, rest⟩ := behind
    obtain ⟨_, decided, decides, finishes⟩ := Step.bind_ok rest
    exact ⟨start, version, told, noted, decided, readable, kind, whole, tells, takes, decides,
      finishes⟩

/-- A parser that accepted a header took it part by part from the lines in front of what it left. -/
theorem write_taken {isRequest : Bool} {p q : BasicParser d} {text : Octets} {n : Nat}
    (header : p.state_ = .header) (searched : Searched p text)
    (ran : Step.run (write isRequest text) p = (.ok n, q)) (some_ : 0 < n) :
    ∃ line lines start version told noted decided, PlainLine line ∧ PlainLines lines ∧
      text.take n = line ++ crlf ++ writeLines lines ++ crlf ∧
      Taken isRequest lines start version
        { p.toMessage with f_ := { p.f_ with flagGotSome := true } } told noted decided
        q.toMessage := by
  have seen := @view_write d isRequest p text searched
  rw [ran] at seen
  unfold rescan beginStep bufferStep headerStep setFlags at seen
  rw [Step.run_get_bind, header] at seen
  dsimp only [view] at seen
  rw [Step.run_modify_bind] at seen
  split at seen
  · -- Nothing is taken from less than four octets.
    simp only [Step.run_pure, Prod.mk.injEq, Except.ok.injEq] at seen
    omega
  · cases found : findEom text with
    | bad => simp [found, fail] at seen
    | need =>
      simp only [found, Step.run_pure, Prod.mk.injEq, Except.ok.injEq] at seen
      omega
    | found k =>
      obtain ⟨line, lines, cut, plain, plains⟩ := findEom_split found
      have filled : (p.f_.flagGotSome || decide (text.length > 0)) = true := by
        have bounds := findEom_bounds found
        simp only [Bool.or_eq_true, decide_eq_true_eq]
        omega
      rw [found, filled] at seen
      obtain ⟨_, t, block, rest⟩ := Step.bind_ok seen.symm
      cases rest
      rw [cut] at block
      obtain ⟨start, version, told, noted, decided, taken⟩ :=
        parseHeaderBlock_taken plain plains block
      exact ⟨line, lines, start, version, told, noted, decided, plain, plains, cut, taken⟩

/-- The octets of a field name are those of a token. -/
theorem tchar_of_field {c : UInt8} (letter : (toFieldChar c != 0) = true) : isTchar c = true := by
  unfold toFieldChar at letter
  by_contra other
  simp [other] at letter

/-- The names that are read are tokens, whatever the lines are. -/
theorem readFields_named (lines : List Octets) :
    ∀ field ∈ (readFields lines).1, IsToken field.1 := by
  induction size : lines.length using Nat.strong_induction_on generalizing lines with
  | _ size ih =>
    cases lines with
    | nil =>
      rw [readFields]
      exact List.forall_mem_nil _
    | cons line lines =>
      rw [readFields]
      split
      · exact List.forall_mem_nil _
      · rename_i named
        intro field there
        rcases List.mem_cons.mp there with rfl | there
        · refine ⟨fun none_ => named ?_, fun c inside => tchar_of_field ?_⟩
          · dsimp only at none_
            rw [none_]
            rfl
          · exact List.mem_takeWhile_imp (p := (toFieldChar · != 0)) inside
        · have shorter := (List.dropWhile_suffix isFoldLine (l := lines)).length_le
          refine ih _ ?_ (lines.dropWhile isFoldLine) rfl field there
          simp only [List.length_cons] at size
          omega

/-- A field that is taken is text, or a list without a fault where the name asks for one. -/
theorem doField_taken {name value : Octets} {m u : Message d}
    (taken : Step.run (doField name value) m = (.ok (), u)) :
    (value.all isText = true ∨ (optTokenList value).isSome = true) ∧
      (strieq "connection" name = true ∨ strieq "proxy-connection" name = true →
        (optTokenList value).isSome = true) := by
  unfold doField at taken
  rw [Step.run_get_bind] at taken
  by_cases connection : (strieq "connection" name || strieq "proxy-connection" name) = true
  · rw [if_pos connection] at taken
    cases tokens : optTokenList value with
    | none => simp [tokens, fail] at taken
    | some list => exact ⟨.inr rfl, fun _ => rfl⟩
  · rw [if_neg connection] at taken
    by_cases text : value.all isText = true
    · exact ⟨.inl text, fun named => absurd (Bool.or_eq_true_iff.mpr named) connection⟩
    · simp [text, fail] at taken

/-- Taking a field does not call the derived class. -/
theorem doField_impl (name value : Octets) :
    Step.Keeps (fun m : Message d => m.impl) (doField name value) := by
  unfold doField
  repeat' first
    | with_reducible first
      | exact Step.keeps_pure _
      | exact Step.keeps_get
      | exact fail_keeps _
      | exact setFlags_keeps fun _ => rfl
      | exact Step.keeps_modify fun _ => rfl
    | refine Step.keeps_bind ?_ fun _ => ?_
    | split

/-- Fields that are taken are told, and each of them may be taken. -/
theorem takeFields_told {fields : Fields} {m u : Message d}
    (taken : Step.run (takeFields fields) m = (.ok (), u)) :
    u.impl = tells d m.impl (fieldCallbacks fields) ∧
      ∀ f ∈ fields, ∃ v w : Message d, Step.run (doField f.1 f.2) v = (.ok (), w) := by
  induction fields generalizing m with
  | nil =>
    cases taken
    exact ⟨rfl, nofun⟩
  | cons field fields ih =>
    obtain ⟨name, value⟩ := field
    rw [takeFields] at taken
    obtain ⟨_, v, first, taken⟩ := Step.bind_ok taken
    obtain ⟨_, w, told, taken⟩ := Step.bind_ok taken
    obtain ⟨impl, others⟩ := ih taken
    have same := doField_impl name value m
    rw [first] at same
    have only := invoke_spec (.on_field name value) v
    rw [told] at only
    dsimp only at same only
    refine ⟨?_, fun f there => ?_⟩
    · rw [impl, only, same]
      rfl
    · rcases List.mem_cons.mp there with rfl | there
      · exact ⟨m, v, first⟩
      · exact others f there

/-- The decision on the body is made without a call, and leaves what fields said of it. -/
theorem doHeader_kept (isRequest : Bool) (status : Nat) :
    Step.Keeps (fun m : Message d => (m.impl, m.f_.flagContentLength, m.f_.flagChunked))
      (doHeader isRequest status) := by
  unfold doHeader doHeaderRequest doHeaderResponse
  repeat' first
    | with_reducible first
      | exact Step.keeps_get
      | exact setFlags_keeps fun _ => rfl
      | exact Step.keeps_modify fun _ => rfl
    | refine Step.keeps_bind ?_ fun _ => ?_
    | split

/-- The end of the header is told without a change of what fields said of the body. -/
theorem finishHeader_kept :
    Step.Keeps (fun m : Message d => (m.f_.flagContentLength, m.f_.flagChunked)) finishHeader := by
  have called : ∀ c, Step.Keeps (fun m : Message d => (m.f_.flagContentLength, m.f_.flagChunked))
      (invoke c) := by
    intro c m
    rw [invoke_spec]
  unfold finishHeader
  refine Step.keeps_bind (called _) fun _ => Step.keeps_bind Step.keeps_get fun self => ?_
  split
  · exact called _
  · exact Step.keeps_pure _

/-- What was known of the body before the fields, and what they said of it. -/
theorem Taken.framed {isRequest : Bool} {lines : List Octets} {start : StartLine} {version : Nat}
    {m told noted decided t : Message d}
    (taken : Taken isRequest lines start version m told noted decided t) :
    m.framing.fields (readFields lines).1 = some noted.framing := by
  have only := invoke_spec (start.callback version) m
  rw [taken.tells] at only
  dsimp only at only
  have same : ({ told with f_ := noteVersion version told.f_ } : Message d).framing = m.framing := by
    rw [only]
    unfold noteVersion
    split <;> rfl
  rw [← same]
  exact takeFields_framing taken.takes

/-- What the fields said of the body is what is known of it in the end. -/
theorem Taken.settled {isRequest : Bool} {lines : List Octets} {start : StartLine} {version : Nat}
    {m told noted decided t : Message d}
    (taken : Taken isRequest lines start version m told noted decided t) :
    t.f_.flagContentLength = noted.framing.sized ∧ t.f_.flagChunked = noted.framing.chunked := by
  have kept := doHeader_kept isRequest start.status noted
  rw [taken.decides] at kept
  have finished := finishHeader_kept decided
  rw [taken.finishes] at finished
  have flags := finished.trans (congrArg Prod.snd kept)
  exact ⟨congrArg Prod.fst flags, congrArg Prod.snd flags⟩

end Beast.Http
