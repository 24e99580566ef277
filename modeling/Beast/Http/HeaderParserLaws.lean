import Beast.Http.Delivery
import Beast.Http.HeaderParser
import Beast.Http.ListLaws
import Beast.Http.TakenHeader

/-! A header that was accepted, written, and parsed again, is the header that it was. -/

namespace Beast.Http

section Trimming

/-- Text that holds no white space is left alone by trimming. -/
theorem trim_solid {s : Octets} (solid : ∀ c ∈ s, isOws c = false) : trim s = s :=
  trim_eq (fun c there => solid c (List.mem_of_mem_head? there))
    fun c there => solid c (List.mem_of_getLast? there)

/-- What was trimmed is part of what it was trimmed from. -/
theorem mem_trim {s : Octets} {c : UInt8} (there : c ∈ trim s) : c ∈ s := by
  obtain ⟨front, back, whole, _⟩ := trim_split s
  rw [whole]
  exact List.mem_append_left _ (List.mem_append_right _ there)

end Trimming

/-- A start line without white space at the ends of its words. -/
def StartLine.trimmed : StartLine → StartLine
  | .request method target => .request (trim method) (trim target)
  | .response status reason => .response status (trim reason)

/-- Fields without white space at the ends of their values. -/
def Fields.trimmed (fields : Fields) : Fields := fields.map fun field => (field.1, trim field.2)

/-- The fields that hold the words of a start line. -/
def StartLine.pseudo : StartLine → Fields
  | .request method target => [(octets ":target", trim target), (octets ":method", trim method)]
  | .response _ reason => [(octets ":reason", trim reason)]

/-- The header object behind a first line and fields. -/
def BasicHeader.holding (start : StartLine) (version : Nat) (fields : Fields) : BasicHeader where
  version
  status := start.status
  fields := start.pseudo ++ fields.trimmed

section Calls

variable {start : StartLine} {version : Nat} {fields : Fields}

theorem headerParser_obliging : Obliging headerParser := fun _ _ => rfl

/-- Fields that are told are kept behind the others, trimmed. -/
theorem headerParser_fields (self : BasicHeader) (fields : Fields) :
    tells headerParser self (fieldCallbacks fields) =
      { self with fields := self.fields ++ fields.trimmed } := by
  induction fields generalizing self with
  | nil =>
    rw [Fields.trimmed, List.map_nil, List.append_nil]
    rfl
  | cons field fields ih =>
    have rest := ih (self.call (.on_field field.1 field.2))
    simp only [BasicHeader.call, Fields.insert, List.append_assoc] at rest
    exact rest

/-- A first line that is told fills an empty header. -/
theorem headerParser_start (start : StartLine) (version : Nat) :
    ({} : BasicHeader).call (start.callback version) = .holding start version [] := by
  cases start with
  | request method target =>
    have other : ciEqual (octets ":target") (octets ":method") = false := by decide +kernel
    simp [BasicHeader.call, StartLine.callback, BasicHeader.setMethod, BasicHeader.setTarget,
      Fields.replace, Fields.erase, Fields.insert, other, BasicHeader.holding, StartLine.pseudo,
      StartLine.status, Fields.trimmed]
  | response status reason => rfl

/-- A first line and fields that are told fill an empty header. -/
theorem headerParser_told (start : StartLine) (version : Nat) (fields : Fields) :
    tells headerParser (({} : BasicHeader).call (start.callback version)) (fieldCallbacks fields) =
      .holding start version fields := by
  rw [headerParser_fields, headerParser_start]
  unfold BasicHeader.holding
  rw [show Fields.trimmed [] = [] from rfl, List.append_nil]

/-- Trimming the words and values once more changes nothing that is kept. -/
theorem holding_trimmed :
    BasicHeader.holding start.trimmed version fields.trimmed =
      .holding start version fields := by
  have twice : fields.trimmed.trimmed = fields.trimmed := by
    simp only [Fields.trimmed, List.map_map]
    exact List.map_congr_left fun field _ => by simp [trim_trim]
  unfold BasicHeader.holding
  rw [twice]
  cases start <;> simp [StartLine.trimmed, StartLine.pseudo, StartLine.status, trim_trim]

/-- The accessors give the words of the start line back, trimmed. -/
theorem holding_written :
    ((BasicHeader.holding start version fields).written start.is_request).start = start.trimmed := by
  cases start with
  | request method target =>
    have other : ciEqual (octets ":target") (octets ":method") = false := by decide +kernel
    simp [BasicHeader.written, StartLine.is_request, StartLine.trimmed, BasicHeader.holding,
      StartLine.pseudo, BasicHeader.method, BasicHeader.target, Fields.value, Fields.find, other]
  | response status reason =>
    simp [BasicHeader.written, StartLine.is_request, StartLine.trimmed, BasicHeader.holding,
      StartLine.pseudo, BasicHeader.reason, Fields.value, Fields.find, StartLine.status]

/-- The header that is written: the trimmed first line, and the trimmed fields. -/
def trimmedHeader (start : StartLine) (version : Nat) (fields : Fields) : Header where
  version
  start := start.trimmed
  fields := fields.trimmed

/-- What is told of the header that is written fills an empty header as before. -/
theorem headerParser_header (start : StartLine) (version : Nat) (fields : Fields)
    (framing : Framing) :
    tells headerParser ({} : BasicHeader)
      (headerCallbacks (trimmedHeader start version fields) framing) =
        .holding start version fields := by
  have told : startCallback (trimmedHeader start version fields) =
      start.trimmed.callback version := by
    cases start <;> rfl
  unfold headerCallbacks
  rw [told]
  refine (@tells_append headerParser ({} : BasicHeader) _ _).trans ?_
  -- The calls behind the fields change nothing.
  have ended : ∀ self : BasicHeader, tells headerParser self (.on_header ::
      if stateBehind (trimmedHeader start version fields) framing = .complete then [.on_complete]
      else []) = self := by
    intro self
    split <;> rfl
  refine (ended _).trans ?_
  rw [← holding_trimmed]
  exact headerParser_told start.trimmed version fields.trimmed

/-- The fields that hold words of the start line are not written as fields. -/
theorem writeHeader_holding :
    writeHeader ((BasicHeader.holding start version fields).written start.is_request) =
      writeHeader (trimmedHeader start version fields) := by
  have line : writeStartLine ((BasicHeader.holding start version fields).written start.is_request) =
      writeStartLine (trimmedHeader start version fields) := by
    unfold writeStartLine
    rw [holding_written]
    rfl
  have skipped : writeFields (start.pseudo ++ fields.trimmed) = writeFields fields.trimmed := by
    have colon : ∀ s ∈ [":target", ":method", ":reason"],
        ((octets s).head? == some (octet ':')) = true := by decide +kernel
    cases start <;> simp [StartLine.pseudo, writeFields, colon]
  unfold writeHeader
  rw [line]
  unfold BasicHeader.written BasicHeader.holding trimmedHeader
  dsimp only
  rw [skipped]

end Calls

section Accepted

variable {d : Derived} {isRequest : Bool} {lines : List Octets} {start : StartLine} {version : Nat}

/-- A number is made of digits alone. -/
theorem parseDec_solid {value : Octets} {v : Nat} (decimal : parseDec value = some v) :
    ∀ c ∈ value, isOws c = false := by
  have loop : ∀ {v w : Nat} {value : Octets}, parseDecLoop v value = some w →
      ∀ c ∈ value, isDigit c = true := by
    intro v w value
    induction value generalizing v with
    | nil => exact fun _ => nofun
    | cons b value ih =>
      intro decimal c there
      rw [parseDecLoop] at decimal
      by_cases digit : isDigit b = true
      · rw [if_neg (by simp [digit])] at decimal
        split at decimal
        · cases decimal
        · rcases List.mem_cons.mp there with rfl | there
          · exact digit
          · exact ih decimal c there
      · rw [if_pos (by simpa using digit)] at decimal
        cases decimal
  have digits : ∀ c ∈ value, isDigit c = true := by
    cases value with
    | nil => nofun
    | cons b value =>
      intro c there
      rw [parseDec] at decimal
      by_cases digit : isDigit b = true
      · rw [if_neg (by simp [digit])] at decimal
        rcases List.mem_cons.mp there with rfl | there
        · exact digit
        · exact loop decimal c there
      · rw [if_pos (by simpa using digit)] at decimal
        cases decimal
  intro c there
  by_contra space
  have spaced : isOws c = true := by simpa using space
  have digit := digits c there
  simp only [isOws, Bool.or_eq_true, beq_iff_eq] at spaced
  rcases spaced with rfl | rfl
  · exact absurd digit (by decide)
  · exact absurd digit (by decide)

/-- A field says of the body what it says trimmed, where it is not refused. -/
theorem field_trimmed {framing between : Framing} {name value : Octets}
    (taken : framing.field (name, value) = some between) :
    framing.field (name, trim value) = some between := by
  unfold Framing.field saysChunked at taken ⊢
  dsimp only at taken ⊢
  rw [tokenList_trim]
  by_cases length : isLength name = true
  · rw [if_pos length] at taken ⊢
    split at taken
    · cases taken
    · rename_i fresh
      rw [if_neg fresh]
      obtain ⟨v, decimal, rfl⟩ := Option.map_eq_some_iff.mp taken
      rw [trim_solid (parseDec_solid decimal), decimal]
      rfl
  · rw [if_neg length] at taken ⊢
    exact taken

/-- Fields say of the body what they say trimmed, where none is refused. -/
theorem fields_trimmed {framing after : Framing} {fields : Fields}
    (taken : framing.fields fields = some after) : framing.fields (Fields.trimmed fields) = some after := by
  induction fields generalizing framing with
  | nil => exact taken
  | cons field fields ih =>
    obtain ⟨between, first, rest⟩ := Option.bind_eq_some_iff.mp taken
    change (framing.field (field.1, trim field.2)).bind
      (fun framing => framing.fields (Fields.trimmed fields)) = some after
    rw [field_trimmed first]
    exact ih rest

/-- A field that was taken from a line is as a field should be, trimmed. -/
theorem trimmed_wellFormed {name value : Octets} {m u : Message d} (named : IsToken name)
    (taken : Step.run (doField name value) m = (.ok (), u)) : WellFormedField name (trim value) := by
  obtain ⟨either, list⟩ := doField_taken taken
  have text : value.all isText = true := by
    rcases either with text | list
    · exact text
    · exact optTokenList_text list
  refine ⟨named, ?_, trim_trim value, fun connection => ?_⟩
  · exact List.all_eq_true.mpr fun c there => List.all_eq_true.mp text c (mem_trim there)
  · rw [optTokenList_trim]
    exact list connection

/-- A first line that may be read is as it should be, trimmed, but for a status that is too small. -/
theorem trimmed_start (readable : ReadableStart start)
    (status : start.is_request = false → 100 ≤ start.status) : WellFormedStart start.trimmed := by
  cases start with
  | request method target =>
    obtain ⟨⟨some_, token⟩, target_, path⟩ := readable
    have solid : trim method = method := trim_solid fun c there => (tchar_plain (token c there)).1
    have solid' : trim target = target := by
      refine trim_solid fun c there => ?_
      have visible := path c there
      by_contra space
      have spaced : isOws c = true := by simpa using space
      simp only [isOws, Bool.or_eq_true, beq_iff_eq] at spaced
      rcases spaced with rfl | rfl
      · exact absurd visible (by decide)
      · exact absurd visible (by decide)
    change WellFormedStart (.request (trim method) (trim target))
    rw [solid, solid']
    exact ⟨⟨some_, token⟩, target_, path⟩
  | response status reason =>
    obtain ⟨most, text⟩ := readable
    exact ⟨status rfl, most, fun c there => text c (mem_trim there)⟩

/-- Behind a header that was accepted, the object holds its first line and its fields. -/
theorem Taken.holding {m told noted decided t : Message headerParser}
    (taken : Taken isRequest lines start version m told noted decided t) (empty : m.impl = ({} : BasicHeader)) :
    t.impl = BasicHeader.holding start version (readFields lines).1 := by
  have only := invoke_spec (start.callback version) m
  rw [taken.tells] at only
  have kept := congrArg Prod.fst (doHeader_kept isRequest start.status noted)
  rw [taken.decides] at kept
  have ended : t.impl = decided.impl := by
    have finished : (Step.run finishHeader decided).2.impl = decided.impl := by
      unfold finishHeader
      rw [Step.run_bind_ok (run_invoke headerParser_obliging _ _), Step.run_get_bind]
      split
      · rw [run_invoke headerParser_obliging]
        rfl
      · rfl
    rw [taken.finishes] at finished
    exact finished
  dsimp only at only kept
  rw [ended, kept, (takeFields_told taken.takes).1, only]
  dsimp only
  rw [empty]
  exact headerParser_told start version _

/-- What is known of the body at first does not decide which fields are taken. -/
theorem fields_unsized {len len' : Nat} {sized chunked : Bool} {fields : Fields} {after : Framing}
    (taken : Framing.fields ⟨len, sized, chunked⟩ fields = some after) :
    ∃ after', Framing.fields ⟨len', sized, chunked⟩ fields = some after' := by
  induction fields generalizing len len' sized chunked with
  | nil => exact ⟨_, rfl⟩
  | cons field fields ih =>
    obtain ⟨between, first, rest⟩ := Option.bind_eq_some_iff.mp taken
    have same : ∃ between', Framing.field ⟨len', sized, chunked⟩ field = some between' ∧
        between'.sized = between.sized ∧ between'.chunked = between.chunked := by
      unfold Framing.field at first ⊢
      dsimp only at first ⊢
      split at first
      · rename_i length
        rw [if_pos length]
        split at first
        · cases first
        · rename_i fresh
          rw [if_neg fresh]
          obtain ⟨v, decimal, rfl⟩ := Option.map_eq_some_iff.mp first
          exact ⟨_, by rw [decimal]; rfl, rfl, rfl⟩
      · rename_i length
        rw [if_neg length]
        split at first
        · rename_i coding
          rw [if_pos coding]
          split at first
          · cases first
          · rename_i fresh
            rw [if_neg fresh]
            split at first
            · rename_i said
              cases first
              exact ⟨_, if_pos said, rfl, rfl⟩
            · rename_i other
              cases first
              exact ⟨_, if_neg other, rfl, rfl⟩
        · rename_i coding
          cases first
          exact ⟨_, if_neg coding, rfl, rfl⟩
    obtain ⟨⟨_, _, _⟩, first', rfl, rfl⟩ := same
    obtain ⟨after', rest'⟩ := ih rest
    exact ⟨after', by rw [Framing.fields, first']; exact rest'⟩

end Accepted

/--
A header that was accepted is accepted again as it is written, and gives the same object.

The object holds the words of the start line, the version, the status, and the fields in order.
-/
theorem header_survives {isRequest skipsBody : Bool} {len x n : Nat} {text : Octets}
    {q : BasicParser headerParser}
    (accepted : Step.run (write isRequest text) (opened skipsBody len x ({} : BasicHeader)) =
      (.ok n, q))
    (some_ : 0 < n) (known : q.impl.version = 10 ∨ q.impl.version = 11)
    (sized : isRequest = false → 100 ≤ q.impl.status) (len' x' : Nat) :
    ∃ q', Step.run (write isRequest (writeHeader (q.impl.written isRequest)))
        (opened false len' x' ({} : BasicHeader)) =
          (.ok (writeHeader (q.impl.written isRequest)).length, q') ∧ q'.impl = q.impl := by
  obtain ⟨p, fresh⟩ : ∃ p : BasicParser headerParser,
      p = opened skipsBody len x ({} : BasicHeader) := ⟨_, rfl⟩
  have state : p.state_ = .header ∧ p.skip_ = 0 ∧ p.f_.flagFinalChunk = false := by
    rw [fresh]
    exact opened_spec skipsBody len x _
  have empty : p.impl = ({} : BasicHeader) := by
    rw [fresh]
    cases skipsBody <;> rfl
  have unsaid : p.toMessage.framing = ⟨len, false, false⟩ := by
    rw [fresh]
    cases skipsBody <;> rfl
  rw [← fresh] at accepted
  clear fresh
  -- The header was taken part by part, and is now held.
  obtain ⟨line, lines, start, version, told, noted, decided, _, _, _, taken⟩ :=
    write_taken state.1 (searched_fresh state.2.1 state.2.2 text) accepted some_
  have holds : q.impl = .holding start version (readFields lines).1 := taken.holding empty
  generalize held : (readFields lines).1 = fields at holds
  obtain rfl := taken.kind
  rw [holds] at known sized ⊢
  rw [writeHeader_holding]
  -- What is written is as it should be, and says of the body what was accepted.
  have wellFormed : WellFormed (trimmedHeader start version fields) := by
    refine ⟨known, trimmed_start taken.readable fun kind => ?_, fun field there => ?_⟩
    · exact sized kind
    · obtain ⟨⟨name, value⟩, inside, rfl⟩ := List.mem_map.mp there
      rw [← held] at inside
      obtain ⟨v, w, may⟩ := (takeFields_told taken.takes).2 _ inside
      exact trimmed_wellFormed (readFields_named lines (name, value) inside) may
  have framed : ∃ after, Framing.fields ⟨len', false, false⟩ fields.trimmed = some after := by
    have first : p.toMessage.framing.fields (readFields lines).1 = some noted.framing :=
      taken.framed
    rw [unsaid, held] at first
    obtain ⟨after, again⟩ : ∃ after, Framing.fields ⟨len', false, false⟩ fields = some after :=
      fields_unsized first
    exact ⟨after, fields_trimmed again⟩
  obtain ⟨framing, framed⟩ := framed
  obtain ⟨t, reread, behind⟩ := header_taken headerParser_obliging wellFormed
    (frames_of_fields headerParser_obliging wellFormed.fields framed) ({} : BasicHeader) []
  -- The fresh parser does what the step without memory does.
  have kind : (trimmedHeader start version fields).is_request = start.is_request := by
    cases start <;> rfl
  rw [kind, List.append_nil] at reread
  have seen := @view_write _ start.is_request _ _ (searched_fresh
    (p := @opened headerParser false len' x' ({} : BasicHeader)) rfl rfl
    (writeHeader (trimmedHeader start version fields)))
  rw [show (@opened headerParser false len' x' ({} : BasicHeader)).toMessage =
    { len_ := len', impl := ({} : BasicHeader) } from rfl, reread] at seen
  rcases ran : Step.run (write start.is_request (writeHeader (trimmedHeader start version fields)))
    (@opened headerParser false len' x' ({} : BasicHeader)) with ⟨r, q'⟩
  rw [ran, view] at seen
  obtain ⟨rfl, rfl⟩ := Prod.mk.inj seen
  refine ⟨q', rfl, ?_⟩
  rw [behind.calls]
  exact headerParser_header start version fields framing

/-- A request with a value on two lines and a name that comes twice. -/
def foldedRequest : Octets := octets "GET /a HTTP/1.1\r\nhost: b \r\n\tc\r\nHOST:\r\n\r\n"

/-- The value is one line where the request is written, and the request is the same. -/
theorem header_survives_folded :
    ∃ p q q' : BasicParser headerParser, p.toMessage = { len_ := 0, impl := ({} : BasicHeader) } ∧
      Step.run (write true foldedRequest) p = (.ok 40, q) ∧
      Step.run (write true (writeHeader (q.impl.written true))) p =
        (.ok (writeHeader (q.impl.written true)).length, q') ∧ q'.impl = q.impl := by
  obtain ⟨p, fresh⟩ : ∃ p : BasicParser headerParser, p = opened false 0 0 ({} : BasicHeader) :=
    ⟨_, rfl⟩
  have taken : (Step.run (write true foldedRequest) p).1 = .ok 40 := by
    rw [fresh]
    decide +kernel
  have version : @BasicHeader.version (Step.run (write true foldedRequest) p).2.impl = 11 := by
    rw [fresh]
    decide +kernel
  rcases ran : Step.run (write true foldedRequest) p with ⟨r, q⟩
  rw [ran] at taken version
  subst taken
  have accepted := ran
  rw [fresh] at accepted
  obtain ⟨q', again, same⟩ := header_survives accepted (by decide) (.inr version) nofun 0 0
  rw [← fresh] at again
  exact ⟨p, q, q', by rw [fresh]; rfl, ran, again, same⟩

end Beast.Http
