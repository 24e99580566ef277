import Beast.Http.HeaderLaws

/-! What the fields of a header that was written say about the body. -/

namespace Beast.Http

variable {d : Derived} {m u : Message d}

/-- The name of the field that says the length of the body. -/
def isLength (name : Octets) : Bool := strieq "content-length" name

/-- The name of the field that says how the body is coded. -/
def isCoding (name : Octets) : Bool := strieq "transfer-encoding" name

/-- What is known of the body: its length, whether that was said, and whether it is chunked. -/
structure Framing where
  len : Nat
  sized : Bool
  chunked : Bool
  deriving DecidableEq, Repr

/-- What a message knows of its body. -/
def Message.framing (m : Message d) : Framing :=
  ⟨m.len_, m.f_.flagContentLength, m.f_.flagChunked⟩

/-- What no field of a message changes. -/
structure Untouched (m u : Message d) : Prop where
  state : u.state_ = m.state_
  skipBody : u.f_.flagSkipBody = m.f_.flagSkipBody
  onBody : u.f_.flagOnBody = m.f_.flagOnBody
  expectCRLF : u.f_.flagExpectCRLF = m.f_.flagExpectCRLF

theorem Untouched.refl : Untouched m m := ⟨rfl, rfl, rfl, rfl⟩

theorem Untouched.trans {v : Message d} (first : Untouched m u) (second : Untouched u v) :
    Untouched m v :=
  ⟨second.state.trans first.state, second.skipBody.trans first.skipBody,
    second.onBody.trans first.onBody, second.expectCRLF.trans first.expectCRLF⟩

/-- The tokens of a connection field say nothing of the body. -/
theorem connectionTokens_same (list : List Octets) (f : Flags) :
    (list.foldl connectionToken f).flagSkipBody = f.flagSkipBody ∧
      (list.foldl connectionToken f).flagOnBody = f.flagOnBody ∧
      (list.foldl connectionToken f).flagExpectCRLF = f.flagExpectCRLF ∧
      (list.foldl connectionToken f).flagContentLength = f.flagContentLength ∧
      (list.foldl connectionToken f).flagChunked = f.flagChunked := by
  induction list generalizing f with
  | nil => exact ⟨rfl, rfl, rfl, rfl, rfl⟩
  | cons s list ih =>
    have first : (connectionToken f s).flagSkipBody = f.flagSkipBody ∧
        (connectionToken f s).flagOnBody = f.flagOnBody ∧
        (connectionToken f s).flagExpectCRLF = f.flagExpectCRLF ∧
        (connectionToken f s).flagContentLength = f.flagContentLength ∧
        (connectionToken f s).flagChunked = f.flagChunked := by
      unfold connectionToken
      repeat' split
      all_goals exact ⟨rfl, rfl, rfl, rfl, rfl⟩
    obtain ⟨a, b, c, e, g⟩ := ih (connectionToken f s)
    exact ⟨a.trans first.1, b.trans first.2.1, c.trans first.2.2.1, e.trans first.2.2.2.1,
      g.trans first.2.2.2.2⟩

/-- A name is that of one field only. -/
theorem strieq_other {a b : String} {name : Octets} (differ : octets a ≠ octets b)
    (same : strieq a name = true) : strieq b name = false := by
  unfold strieq at same ⊢
  rw [beq_iff_eq] at same
  rw [← same]
  simpa using Ne.symm differ

/-- A field that says neither the length nor the coding says nothing of the body. -/
theorem doField_other {name value : Octets} (formed : WellFormedField name value)
    (noLength : isLength name = false) (noCoding : isCoding name = false) (m : Message d) :
    ∃ u, Step.run (doField name value) m = (.ok (), u) ∧ Untouched m u ∧ u.framing = m.framing ∧
      u.impl = m.impl := by
  unfold doField
  rw [Step.run_get_bind]
  split
  · rename_i connection
    obtain ⟨list, tokens⟩ := Option.isSome_iff_exists.mp (formed.list (by simpa using connection))
    rw [tokens]
    obtain ⟨a, b, c, e, g⟩ := connectionTokens_same list m.f_
    refine ⟨_, rfl, ⟨rfl, a, b, c⟩, ?_, rfl⟩
    unfold Message.framing
    rw [e, g]
  · rw [formed.text]
    unfold isLength at noLength
    unfold isCoding at noCoding
    rw [noLength, noCoding]
    simp only [Bool.not_true, Bool.false_eq_true, ↓reduceIte]
    split
    · exact ⟨_, rfl, ⟨rfl, rfl, rfl, rfl⟩, rfl, rfl⟩
    · exact ⟨_, rfl, .refl, rfl, rfl⟩

/-- A field that says the length does so where nothing was said before. -/
theorem doField_length {name value : Octets} (formed : WellFormedField name value)
    (length : isLength name = true) (m : Message d) :
    Step.run (doField name value) m =
      if m.f_.flagContentLength = true ∨ m.f_.flagChunked = true then
        (.error (.ec .bad_content_length), m)
      else match parseDec value with
        | none => (.error (.ec .bad_content_length), m)
        | some v => (.ok (), { m with len_ := v, f_ := { m.f_ with flagContentLength := true } }) := by
  have noConnection : (strieq "connection" name || strieq "proxy-connection" name) = false := by
    rw [strieq_other (by decide) length, strieq_other (by decide) length]
    rfl
  unfold isLength at length
  unfold doField
  rw [Step.run_get_bind, noConnection, formed.text, length]
  simp only [Bool.not_true, Bool.false_eq_true, ↓reduceIte]
  by_cases sized : m.f_.flagContentLength = true
  · rw [if_pos sized, if_pos (.inl sized)]
    rfl
  · by_cases chunked : m.f_.flagChunked = true
    · rw [if_neg sized, if_pos chunked, if_pos (.inr chunked)]
      rfl
    · rw [if_neg sized, if_neg chunked, if_neg (not_or.mpr ⟨sized, chunked⟩)]
      cases parseDec value <;> rfl

/-- A field that says that the body is chunked does so where nothing was said before. -/
theorem doField_coding {name value : Octets} (formed : WellFormedField name value)
    (coding : isCoding name = true) (m : Message d) :
    Step.run (doField name value) m =
      if m.f_.flagContentLength = true ∨ m.f_.flagChunked = true then
        (.error (.ec .bad_transfer_encoding), m)
      else match (tokenList value).dropWhile (fun s => !strieq "chunked" s) with
        | [_] => (.ok (), { m with len_ := 0, f_ := { m.f_ with flagChunked := true } })
        | _ => (.ok (), m) := by
  have noConnection : (strieq "connection" name || strieq "proxy-connection" name) = false := by
    rw [strieq_other (by decide) coding, strieq_other (by decide) coding]
    rfl
  have noLength : strieq "content-length" name = false := strieq_other (by decide) coding
  unfold isCoding at coding
  unfold doField
  rw [Step.run_get_bind, noConnection, formed.text, noLength, coding]
  simp only [Bool.not_true, Bool.false_eq_true, ↓reduceIte]
  by_cases chunked : m.f_.flagChunked = true
  · rw [if_pos chunked, if_pos (.inr chunked)]
    rfl
  · by_cases sized : m.f_.flagContentLength = true
    · rw [if_neg chunked, if_pos sized, if_pos (.inl sized)]
      rfl
    · rw [if_neg chunked, if_neg sized, if_neg (not_or.mpr ⟨sized, chunked⟩)]
      rcases (tokenList value).dropWhile _ with _ | ⟨_, _ | ⟨_, _⟩⟩ <;> rfl

/-- A derived class behind some calls. -/
def tells (d : Derived) (state : d.State) (calls : List Callback) : d.State :=
  calls.foldl (fun state c => (d.call state c).1) state

/-- Calls are told one part behind another. -/
theorem tells_append (state : d.State) (front back : List Callback) :
    tells d state (front ++ back) = tells d (tells d state front) back :=
  List.foldl_append

/-- The calls that fields are told by. -/
def fieldCallbacks (fields : Fields) : List Callback :=
  fields.map fun field => .on_field field.1 field.2

/-- Fields are taken one part behind another. -/
theorem takeFields_append (front back : Fields) (m : Message d) :
    Step.run (takeFields (front ++ back)) m =
      Step.run (do takeFields front; takeFields back) m := by
  induction front generalizing m with
  | nil => rfl
  | cons field front ih =>
    obtain ⟨name, value⟩ := field
    simp only [List.cons_append, takeFields, Step.run_bind]
    rcases Step.run (doField name value) m with ⟨_ | _, u⟩
    · rfl
    · dsimp only
      rcases Step.run (invoke (.on_field name value)) u with ⟨_ | _, v⟩
      · rfl
      · dsimp only
        rw [ih, Step.run_bind]

/-- Fields that are taken, and lead from what is known of the body to what is known behind them. -/
def Frames (d : Derived) (fields : Fields) (before after : Framing) : Prop :=
  ∀ m : Message d, m.framing = before → ∃ u, Step.run (takeFields fields) m = (.ok (), u) ∧
    Untouched m u ∧ u.framing = after ∧ u.impl = tells d m.impl (fieldCallbacks fields)

/-- Where two parts of the fields lead, they lead together. -/
theorem Frames.append {a b : Fields} {before between after : Framing}
    (first : Frames d a before between) (second : Frames d b between after) :
    Frames d (a ++ b) before after := by
  intro m known
  obtain ⟨u, taken, untouched, framing, calls⟩ := first m known
  obtain ⟨v, taken', untouched', framing', calls'⟩ := second u framing
  refine ⟨v, ?_, untouched.trans untouched', framing', ?_⟩
  · rw [takeFields_append, Step.run_bind_ok taken, taken']
  · rw [calls', calls, fieldCallbacks, fieldCallbacks, fieldCallbacks, List.map_append, tells, tells,
      tells, List.foldl_append]

/-- A field leads where it does with the call that it is told by. -/
theorem frames_one (obliging : Obliging d) {name value : Octets} {before after : Framing}
    (takes : ∀ m : Message d, m.framing = before → ∃ u, Step.run (doField name value) m =
      (.ok (), u) ∧ Untouched m u ∧ u.framing = after ∧ u.impl = m.impl) :
    Frames d [(name, value)] before after := by
  intro m known
  obtain ⟨u, taken, untouched, framing, same⟩ := takes m known
  have told := run_invoke obliging (.on_field name value) u
  refine ⟨{ u with impl := (d.call u.impl (.on_field name value)).1 }, ?_,
    ⟨untouched.state, untouched.skipBody, untouched.onBody, untouched.expectCRLF⟩, framing, ?_⟩
  · rw [takeFields, Step.run_bind_ok taken, Step.run_bind_ok told]
    rfl
  · rw [same]
    rfl

/-- Fields that say neither the length nor the coding say nothing of the body. -/
theorem frames_other (obliging : Obliging d) {fields : Fields} (framing : Framing)
    (formed : ∀ f ∈ fields, WellFormedField f.1 f.2)
    (other : ∀ f ∈ fields, isLength f.1 = false ∧ isCoding f.1 = false) :
    Frames d fields framing framing := by
  induction fields with
  | nil => exact fun m known => ⟨m, rfl, .refl, known, rfl⟩
  | cons field fields ih =>
    obtain ⟨name, value⟩ := field
    obtain ⟨noLength, noCoding⟩ := other (name, value) List.mem_cons_self
    have rest := ih (fun f there => formed f (List.mem_cons_of_mem _ there))
      fun f there => other f (List.mem_cons_of_mem _ there)
    refine Frames.append (a := [(name, value)]) (frames_one obliging fun m known => ?_) rest
    obtain ⟨u, taken, untouched, same, impl⟩ :=
      doField_other (formed (name, value) List.mem_cons_self) noLength noCoding m
    exact ⟨u, taken, untouched, same.trans known, impl⟩

/-- A field that says the length frames the body. -/
theorem frames_length (obliging : Obliging d) {name value : Octets} {len v : Nat}
    (formed : WellFormedField name value) (length : isLength name = true)
    (decimal : parseDec value = some v) :
    Frames d [(name, value)] ⟨len, false, false⟩ ⟨v, true, false⟩ := by
  refine frames_one obliging fun m known => ?_
  have sized : m.f_.flagContentLength = false := congrArg Framing.sized known
  have chunked : m.f_.flagChunked = false := congrArg Framing.chunked known
  have taken := doField_length formed length m
  rw [if_neg (by simp [sized, chunked]), decimal] at taken
  refine ⟨_, taken, ⟨rfl, rfl, rfl, rfl⟩, ?_, rfl⟩
  unfold Message.framing
  rw [chunked]

/-- A field that says that the body is chunked frames the body. -/
theorem frames_coding (obliging : Obliging d) {name value last : Octets} {len : Nat}
    (formed : WellFormedField name value) (coding : isCoding name = true)
    (tokens : (tokenList value).dropWhile (fun s => !strieq "chunked" s) = [last]) :
    Frames d [(name, value)] ⟨len, false, false⟩ ⟨0, false, true⟩ := by
  refine frames_one obliging fun m known => ?_
  have sized : m.f_.flagContentLength = false := congrArg Framing.sized known
  have chunked : m.f_.flagChunked = false := congrArg Framing.chunked known
  have taken := doField_coding formed coding m
  rw [if_neg (by simp [sized, chunked]), tokens] at taken
  refine ⟨_, taken, ⟨rfl, rfl, rfl, rfl⟩, ?_, rfl⟩
  unfold Message.framing
  rw [sized]

/-- Whether a response of some status has no body, whatever its fields say. -/
def bodiless (status : Nat) : Bool := status / 100 == 1 || status == 204 || status == 304

/-- The state that a header leads to. -/
def stateBehind (msg : Header) (framing : Framing) : ParseState :=
  if !msg.is_request && bodiless (startStatus msg) then .complete
  else if framing.sized then if framing.len > 0 then .body else .complete
  else if framing.chunked then .chunk_header
  else if msg.is_request then .complete
  else .body_to_eof

/-- The calls that a header is told by. -/
def headerCallbacks (msg : Header) (framing : Framing) : List Callback :=
  startCallback msg :: fieldCallbacks msg.fields ++ .on_header ::
    if stateBehind msg framing = .complete then [.on_complete] else []

/-- Where a header was taken, the message stands in front of its body. -/
structure BehindHeader (msg : Header) (framing : Framing) (impl : d.State) (t : Message d) : Prop where
  state : t.state_ = stateBehind msg framing
  length : t.state_ = .body → t.len_ = framing.len
  sized : t.f_.flagContentLength = framing.sized
  chunked : t.f_.flagChunked = framing.chunked
  onBody : t.f_.flagOnBody = false
  expectCRLF : t.f_.flagExpectCRLF = false
  calls : t.impl = tells d impl (headerCallbacks msg framing)

/-- The decision about the body follows from what is known of it. -/
theorem doHeader_spec {msg : Header} (skips : m.f_.flagSkipBody = false) :
    ∃ u, Step.run (doHeader msg.is_request (startStatus msg)) m = (.ok (), u) ∧
      u.state_ = stateBehind msg m.framing ∧ (u.state_ = .body → u.len_ = m.len_) ∧
      u.f_.flagContentLength = m.f_.flagContentLength ∧ u.f_.flagChunked = m.f_.flagChunked ∧
      u.f_.flagOnBody = m.f_.flagOnBody ∧ u.f_.flagExpectCRLF = m.f_.flagExpectCRLF ∧
      u.impl = m.impl := by
  unfold stateBehind Message.framing bodiless
  cases kind : msg.is_request with
  | true =>
    simp only [doHeader, doHeaderRequest, ↓reduceIte, Step.run_get_bind, skips, Bool.false_eq_true]
    repeat' split
    all_goals simp_all [setFlags]
  | false =>
    simp only [doHeader, doHeaderResponse, Bool.false_eq_true, ↓reduceIte, Step.run_get_bind, skips,
      Bool.false_or]
    repeat' split
    all_goals simp_all [setFlags]

/-- A header that was written is taken, and nothing of what follows it. -/
theorem header_taken (obliging : Obliging d) {msg : Header} (wellFormed : WellFormed msg)
    {len : Nat} {framing : Framing} (frames : Frames d msg.fields ⟨len, false, false⟩ framing)
    (impl : d.State) (it : Octets) :
    ∃ t, Step.run (rescan msg.is_request (writeHeader msg ++ it)) { len_ := len, impl := impl } =
        (.ok (writeHeader msg).length, t) ∧ BehindHeader msg framing impl t := by
  -- The message behind the first line: it was told, and its version is noted.
  have marks : ∀ f : Flags, (noteVersion msg.version f).flagContentLength = f.flagContentLength ∧
      (noteVersion msg.version f).flagChunked = f.flagChunked ∧
      (noteVersion msg.version f).flagSkipBody = f.flagSkipBody ∧
      (noteVersion msg.version f).flagOnBody = f.flagOnBody ∧
      (noteVersion msg.version f).flagExpectCRLF = f.flagExpectCRLF := by
    intro f
    unfold noteVersion
    split <;> exact ⟨rfl, rfl, rfl, rfl, rfl⟩
  obtain ⟨noLength, noChunks, skips, onBody, expectCRLF⟩ := marks { flagGotSome := true }
  obtain ⟨u, taken, untouched, known, calls⟩ := frames
    { len_ := len
      f_ := noteVersion msg.version { flagGotSome := true }
      impl := (d.call impl (startCallback msg)).1 }
    (by unfold Message.framing; rw [noLength, noChunks])
  obtain ⟨v, decided, state, length, sized, chunked, onBody', expectCRLF', same⟩ :=
    @doHeader_spec d u msg (untouched.skipBody.trans skips)
  rw [known] at state
  have told := run_invoke obliging .on_header v
  have ends : ∃ t, Step.run (do
        if (← get).state_ == .complete then
          invoke .on_complete : MessageStep d Unit)
      { v with impl := (d.call v.impl .on_header).1 } = (.ok (), t) ∧
      t = { v with impl := t.impl } ∧ t.impl = tells d v.impl
        (.on_header :: if stateBehind msg framing = .complete then [.on_complete] else []) := by
    rw [Step.run_get_bind]
    by_cases complete : stateBehind msg framing = .complete
    · rw [if_pos (by simp [state, complete]), if_pos complete]
      exact ⟨_, run_invoke obliging _ _, rfl, rfl⟩
    · rw [if_neg (by simp [state, complete]), if_neg complete]
      exact ⟨_, rfl, rfl, rfl⟩
  obtain ⟨t, ended, only, impl'⟩ := ends
  refine ⟨t, ?_, ?_⟩
  · have some_ : (writeHeader msg ++ it).length > 0 := by
      simp only [writeHeader, crlf, List.length_append, List.length_cons]
      omega
    unfold rescan
    rw [Step.run_get_bind]
    unfold beginStep bufferStep setFlags
    rw [Step.run_modify_bind]
    dsimp only
    rw [headerStep_write wellFormed]
    have header : Step.run (takeHeader msg) { len_ := len, f_ := { flagGotSome := true }, impl := impl } =
        (.ok (), t) := by
      unfold takeHeader setFlags
      rw [Step.run_bind_ok (run_invoke obliging _ _), Step.run_modify_bind, Step.run_bind_ok taken,
        Step.run_bind_ok decided, Step.run_bind_ok told, ended]
    have noted : (false || decide ((writeHeader msg ++ it).length > 0)) = true := by
      simpa using some_
    rw [noted, Step.run_bind_ok header]
    rfl
  · rw [only]
    refine ⟨state, fun body => ?_, ?_, ?_, ?_, ?_, ?_⟩
    · rw [← congrArg Framing.len known]
      exact length body
    · rw [← congrArg Framing.sized known]
      exact sized
    · rw [← congrArg Framing.chunked known]
      exact chunked
    · exact onBody'.trans (untouched.onBody.trans onBody)
    · exact expectCRLF'.trans (untouched.expectCRLF.trans expectCRLF)
    · dsimp only
      rw [impl', same, calls]
      unfold headerCallbacks tells
      simp only [List.cons_append, List.foldl_cons, List.foldl_append]

/-- A header whose fields are refused is refused. -/
theorem header_refused (obliging : Obliging d) {msg : Header} (wellFormed : WellFormed msg) {len : Nat}
    (refuses : ∀ m : Message d, m.framing = ⟨len, false, false⟩ →
      ∃ halt u, Step.run (takeFields msg.fields) m = (.error halt, u))
    (impl : d.State) (it : Octets) :
    ∃ halt t, Step.run (rescan msg.is_request (writeHeader msg ++ it)) { len_ := len, impl := impl } =
      (.error halt, t) := by
  obtain ⟨halt, u, refused⟩ := refuses
    { len_ := len
      f_ := noteVersion msg.version { flagGotSome := true }
      impl := (d.call impl (startCallback msg)).1 }
    (by unfold Message.framing noteVersion; split <;> rfl)
  have some_ : (writeHeader msg ++ it).length > 0 := by
    simp only [writeHeader, crlf, List.length_append, List.length_cons]
    omega
  have noted : (false || decide ((writeHeader msg ++ it).length > 0)) = true := by
    simpa using some_
  have header : Step.run (takeHeader msg) { len_ := len, f_ := { flagGotSome := true }, impl := impl } =
      (.error halt, u) := by
    unfold takeHeader setFlags
    rw [Step.run_bind_ok (run_invoke obliging _ _), Step.run_modify_bind, Step.run_bind_error refused]
  refine ⟨halt, u, ?_⟩
  unfold rescan
  rw [Step.run_get_bind]
  unfold beginStep bufferStep setFlags
  rw [Step.run_modify_bind]
  dsimp only
  rw [headerStep_write wellFormed, noted, Step.run_bind_error header]

/-- A second field about the body is refused behind a first one. -/
theorem takeFields_again (obliging : Obliging d) {fields : Fields}
    (formed : ∀ f ∈ fields, WellFormedField f.1 f.2)
    (again : ∃ f ∈ fields, isLength f.1 = true ∨ isCoding f.1 = true) {m : Message d}
    (known : m.framing.sized = true ∨ m.framing.chunked = true) :
    ∃ halt u, Step.run (takeFields fields) m = (.error halt, u) := by
  induction fields generalizing m with
  | nil =>
    obtain ⟨f, there, _⟩ := again
    cases there
  | cons field fields ih =>
    obtain ⟨name, value⟩ := field
    have first := formed (name, value) List.mem_cons_self
    have noted : m.f_.flagContentLength = true ∨ m.f_.flagChunked = true := known
    by_cases length : isLength name = true
    · have refused := doField_length first length m
      rw [if_pos noted] at refused
      exact ⟨_, _, by rw [takeFields, Step.run_bind_error refused]⟩
    by_cases coding : isCoding name = true
    · have refused := doField_coding first coding m
      rw [if_pos noted] at refused
      exact ⟨_, _, by rw [takeFields, Step.run_bind_error refused]⟩
    obtain ⟨u, taken, _, framing, _⟩ :=
      doField_other first (by simpa using length) (by simpa using coding) m
    have told := run_invoke obliging (.on_field name value) u
    obtain ⟨f, there, about⟩ := again
    have behind : f ∈ fields := by
      rcases List.mem_cons.mp there with rfl | there
      · exact absurd about (not_or.mpr ⟨length, coding⟩)
      · exact there
    obtain ⟨halt, v, refused⟩ := ih (fun f there => formed f (List.mem_cons_of_mem _ there))
      ⟨f, behind, about⟩ (m := { u with impl := (d.call u.impl (.on_field name value)).1 })
      (by change u.framing.sized = true ∨ u.framing.chunked = true; rw [framing]; exact known)
    exact ⟨halt, v, by rw [takeFields, Step.run_bind_ok taken, Step.run_bind_ok told, refused]⟩

/-- The last token says that the body is chunked, and no other does. -/
def SaysChunked (value : Octets) : Prop :=
  ∃ last, (tokenList value).dropWhile (fun s => !strieq "chunked" s) = [last]

/-- Fields that say both the length and that the body is chunked are refused. -/
theorem takeFields_both (obliging : Obliging d) {fields : Fields}
    (formed : ∀ f ∈ fields, WellFormedField f.1 f.2)
    (length : ∃ f ∈ fields, isLength f.1 = true) (coding : ∃ f ∈ fields, isCoding f.1 = true)
    (coded : ∀ f ∈ fields, isCoding f.1 = true → SaysChunked f.2) {m : Message d} {len : Nat}
    (known : m.framing = ⟨len, false, false⟩) :
    ∃ halt u, Step.run (takeFields fields) m = (.error halt, u) := by
  induction fields generalizing m len with
  | nil =>
    obtain ⟨f, there, _⟩ := length
    cases there
  | cons field fields ih =>
    obtain ⟨name, value⟩ := field
    have first := formed (name, value) List.mem_cons_self
    have rest := fun f there => formed f (List.mem_cons_of_mem _ there)
    have unsized : m.f_.flagContentLength = false := congrArg Framing.sized known
    have unchunked : m.f_.flagChunked = false := congrArg Framing.chunked known
    have fresh : ¬(m.f_.flagContentLength = true ∨ m.f_.flagChunked = true) := by
      simp [unsized, unchunked]
    by_cases here : isLength name = true
    · -- The coding comes behind the length.
      have behind : ∃ f ∈ fields, isLength f.1 = true ∨ isCoding f.1 = true := by
        obtain ⟨f, there, about⟩ := coding
        rcases List.mem_cons.mp there with rfl | there
        · have other : isLength name = false := strieq_other (by decide) about
          rw [here] at other
          cases other
        · exact ⟨f, there, .inr about⟩
      have taken := doField_length first here m
      rw [if_neg fresh] at taken
      cases decimal : parseDec value with
      | none =>
        rw [decimal] at taken
        exact ⟨_, _, by rw [takeFields, Step.run_bind_error taken]⟩
      | some v =>
        rw [decimal] at taken
        have told := run_invoke obliging (.on_field name value)
          { m with len_ := v, f_ := { m.f_ with flagContentLength := true } }
        obtain ⟨halt, u, refused⟩ := takeFields_again obliging rest behind (m :=
          { m with
            len_ := v
            f_ := { m.f_ with flagContentLength := true }
            impl := (d.call m.impl (.on_field name value)).1 }) (.inl rfl)
        exact ⟨halt, u, by rw [takeFields, Step.run_bind_ok taken, Step.run_bind_ok told, refused]⟩
    by_cases there : isCoding name = true
    · -- The length comes behind the coding.
      have behind : ∃ f ∈ fields, isLength f.1 = true ∨ isCoding f.1 = true := by
        obtain ⟨f, within, about⟩ := length
        rcases List.mem_cons.mp within with rfl | within
        · exact absurd about here
        · exact ⟨f, within, .inl about⟩
      obtain ⟨last, tokens⟩ := coded (name, value) List.mem_cons_self there
      have taken := doField_coding first there m
      rw [if_neg fresh, tokens] at taken
      have told := run_invoke obliging (.on_field name value)
        { m with len_ := 0, f_ := { m.f_ with flagChunked := true } }
      obtain ⟨halt, u, refused⟩ := takeFields_again obliging rest behind (m :=
        { m with
          len_ := 0
          f_ := { m.f_ with flagChunked := true }
          impl := (d.call m.impl (.on_field name value)).1 }) (.inr rfl)
      exact ⟨halt, u, by rw [takeFields, Step.run_bind_ok taken, Step.run_bind_ok told, refused]⟩
    · obtain ⟨u, taken, _, framing, _⟩ :=
        doField_other first (by simpa using here) (by simpa using there) m
      have told := run_invoke obliging (.on_field name value) u
      have behind : ∀ kind : Octets → Bool, ¬kind name = true →
          (∃ f ∈ (name, value) :: fields, kind f.1 = true) → ∃ f ∈ fields, kind f.1 = true := by
        rintro kind other ⟨f, within, about⟩
        rcases List.mem_cons.mp within with rfl | within
        · exact absurd about other
        · exact ⟨f, within, about⟩
      obtain ⟨halt, v, refused⟩ := ih rest (behind isLength here length) (behind isCoding there coding)
        (fun f within => coded f (List.mem_cons_of_mem _ within))
        (m := { u with impl := (d.call u.impl (.on_field name value)).1 }) (framing.trans known)
      exact ⟨halt, v, by rw [takeFields, Step.run_bind_ok taken, Step.run_bind_ok told, refused]⟩

/-- Whether the last token of a value says that the body is chunked, and no other does. -/
def saysChunked (value : Octets) : Bool :=
  ((tokenList value).dropWhile (fun s => !strieq "chunked" s)).length == 1

/-- What a field makes of what is known of the body, or nothing where it is refused. -/
def Framing.field (framing : Framing) (field : Octets × Octets) : Option Framing :=
  if isLength field.1 then
    if framing.sized || framing.chunked then none
    else (parseDec field.2).map fun v => { framing with len := v, sized := true }
  else if isCoding field.1 then
    if framing.sized || framing.chunked then none
    else if saysChunked field.2 then some { framing with len := 0, chunked := true }
    else some framing
  else some framing

/-- What fields make of what is known of the body, one after another. -/
def Framing.fields (framing : Framing) : Fields → Option Framing
  | [] => some framing
  | field :: fields => (framing.field field).bind fun framing => framing.fields fields

/-- Fields are looked at one part behind another. -/
theorem Framing.fields_append (framing : Framing) (front back : Fields) :
    framing.fields (front ++ back) = (framing.fields front).bind fun framing => framing.fields back := by
  induction front generalizing framing with
  | nil => rfl
  | cons field front ih =>
    simp only [List.cons_append, Framing.fields, Option.bind_assoc, ih]

/-- A field is taken or refused just by what is known of the body. -/
theorem doField_framed {name value : Octets} (formed : WellFormedField name value) (m : Message d) :
    match m.framing.field (name, value) with
    | some framing => ∃ u, Step.run (doField name value) m = (.ok (), u) ∧ Untouched m u ∧
      u.framing = framing ∧ u.impl = m.impl
    | none => ∃ halt, Step.run (doField name value) m = (.error halt, m) := by
  have known : (m.framing.sized || m.framing.chunked) = true ↔
      m.f_.flagContentLength = true ∨ m.f_.flagChunked = true := Bool.or_eq_true _ _ |>.to_iff
  unfold Framing.field
  dsimp only
  by_cases length : isLength name = true
  · have taken := doField_length formed length m
    rw [if_pos length]
    by_cases framed : m.f_.flagContentLength = true ∨ m.f_.flagChunked = true
    · rw [if_pos framed] at taken
      rw [if_pos (known.mpr framed)]
      exact ⟨_, taken⟩
    · rw [if_neg framed] at taken
      rw [if_neg (known.not.mpr framed)]
      cases decimal : parseDec value with
      | none =>
        rw [decimal] at taken
        exact ⟨_, taken⟩
      | some v =>
        rw [decimal] at taken
        exact ⟨_, taken, ⟨rfl, rfl, rfl, rfl⟩, rfl, rfl⟩
  · rw [if_neg length]
    by_cases coding : isCoding name = true
    · have taken := doField_coding formed coding m
      rw [if_pos coding]
      by_cases framed : m.f_.flagContentLength = true ∨ m.f_.flagChunked = true
      · rw [if_pos framed] at taken
        rw [if_pos (known.mpr framed)]
        exact ⟨_, taken⟩
      · rw [if_neg framed] at taken
        rw [if_neg (known.not.mpr framed)]
        unfold saysChunked
        generalize (tokenList value).dropWhile (fun s => !strieq "chunked" s) = tokens at taken ⊢
        rcases tokens with _ | ⟨_, _ | ⟨_, _⟩⟩
        · exact ⟨m, taken, .refl, rfl, rfl⟩
        · exact ⟨_, taken, ⟨rfl, rfl, rfl, rfl⟩, rfl, rfl⟩
        · exact ⟨m, taken, .refl, rfl, rfl⟩
    · rw [if_neg coding]
      exact doField_other formed (by simpa using length) (by simpa using coding) m

/-- Fields that are looked at to the end frame the body so. -/
theorem frames_of_fields (obliging : Obliging d) {fields : Fields}
    (formed : ∀ f ∈ fields, WellFormedField f.1 f.2) {before after : Framing}
    (framed : before.fields fields = some after) : Frames d fields before after := by
  induction fields generalizing before with
  | nil =>
    cases framed
    exact fun m known => ⟨m, rfl, .refl, known, rfl⟩
  | cons field fields ih =>
    obtain ⟨name, value⟩ := field
    obtain ⟨between, first, rest⟩ := Option.bind_eq_some_iff.mp framed
    refine Frames.append (frames_one obliging fun m known => ?_)
      (ih (fun f there => formed f (List.mem_cons_of_mem _ there)) rest)
    have taken := doField_framed (formed (name, value) List.mem_cons_self) m
    rw [known, first] at taken
    exact taken

/-- Fields of which one is refused are refused. -/
theorem refused_of_fields (obliging : Obliging d) {fields : Fields}
    (formed : ∀ f ∈ fields, WellFormedField f.1 f.2) {m : Message d}
    (framed : m.framing.fields fields = none) :
    ∃ halt u, Step.run (takeFields fields) m = (.error halt, u) := by
  induction fields generalizing m with
  | nil => cases framed
  | cons field fields ih =>
    obtain ⟨name, value⟩ := field
    have taken := doField_framed (formed (name, value) List.mem_cons_self) m
    rw [Framing.fields] at framed
    cases first : m.framing.field (name, value) with
    | none =>
      rw [first] at taken
      obtain ⟨halt, refused⟩ := taken
      exact ⟨halt, m, by rw [takeFields, Step.run_bind_error refused]⟩
    | some between =>
      rw [first] at taken framed
      obtain ⟨u, taken, _, framing, _⟩ := taken
      have told := run_invoke obliging (.on_field name value) u
      obtain ⟨halt, v, refused⟩ := @ih (fun f there => formed f (List.mem_cons_of_mem _ there))
        { u with impl := (d.call u.impl (.on_field name value)).1 }
        (by
          change u.framing.fields fields = none
          rw [framing]
          exact framed)
      exact ⟨halt, v, by rw [takeFields, Step.run_bind_ok taken, Step.run_bind_ok told, refused]⟩

end Beast.Http
