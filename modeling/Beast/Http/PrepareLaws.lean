import Beast.Http.HeaderLaws
import Beast.Http.FramingLaws
import Beast.Http.Prepare
import Beast.Http.RoundTrip

/-! What a prepared message says: which fields were added to it, and what a parser finds there. -/

namespace Beast.Http

section Decimal

/-- A number is written with a last digit behind the others. -/
theorem decimal_eq (n : Nat) : octets (toString n) =
    if n < 10 then [octet n.digitChar]
    else octets (toString (n / 10)) ++ [octet (n % 10).digitChar] := by
  have digits : ∀ n : Nat, octets (toString n) = (Nat.toDigits 10 n).map octet := by
    intro n
    simp [octets, toString, Nat.repr]
  rw [digits, Nat.toDigits_eq_if (by omega)]
  split
  · rfl
  · rw [List.map_append, digits]
    rfl

/-- A digit that was written is one. -/
theorem digitChar_spec {n : Nat} (small : n < 10) : isDigit (octet n.digitChar) = true ∧
    (octet n.digitChar).toNat - (octet '0').toNat = n := by
  -- Ten digits, each checked by evaluation.
  rcases n with _ | _ | _ | _ | _ | _ | _ | _ | _ | _ | n
  all_goals first | decide | omega

/-- A number is written with digits. -/
theorem decimal_digits (n : Nat) : octets (toString n) ≠ [] ∧
    ∀ c ∈ octets (toString n), isDigit c = true := by
  induction n using Nat.strongRecOn with
  | _ n ih =>
    rw [decimal_eq]
    split
    · rename_i small
      refine ⟨nofun, fun c there => ?_⟩
      rw [List.mem_singleton.mp there]
      exact (digitChar_spec small).1
    · obtain ⟨_, front⟩ := ih (n / 10) (by omega)
      refine ⟨by simp, fun c there => ?_⟩
      rcases List.mem_append.mp there with inside | last
      · exact front c inside
      · rw [List.mem_singleton.mp last]
        exact (digitChar_spec (by omega)).1

/-- Further digits are read behind the first ones. -/
theorem parseDecLoop_append (v : Nat) (s t : Octets) :
    parseDecLoop v (s ++ t) = (parseDecLoop v s).bind fun v => parseDecLoop v t := by
  induction s generalizing v with
  | nil => rfl
  | cons c s ih =>
    rw [List.cons_append, parseDecLoop, parseDecLoop]
    split
    · rfl
    · split
      · rfl
      · exact ih _

/-- Digits behind a number go on with it. -/
theorem parseDec_append {s : Octets} (some_ : s ≠ []) (t : Octets) :
    parseDec (s ++ t) = (parseDec s).bind fun v => parseDecLoop v t := by
  cases s with
  | nil => exact absurd rfl some_
  | cons c s =>
    rw [List.cons_append, parseDec, parseDec]
    split
    · rfl
    · exact parseDecLoop_append _ s t

/-- A number that was written is read, unless it is near the end of the 64 bits. -/
theorem parseDec_decimal (n : Nat) : parseDec (octets (toString n)) =
    if n < 18446744073709551610 then some n else none := by
  induction n using Nat.strongRecOn with
  | _ n ih =>
    rw [decimal_eq]
    by_cases small : n < 10
    · obtain ⟨digit, value⟩ := digitChar_spec small
      rw [if_pos small, if_pos (by omega), parseDec, digit, value]
      rfl
    · obtain ⟨digit, value⟩ := @digitChar_spec (n % 10) (by omega)
      rw [if_neg small, parseDec_append (decimal_digits _).1, ih (n / 10) (by omega)]
      by_cases fits : n < 18446744073709551610
      · rw [if_pos (by omega), if_pos fits, Option.bind_some, parseDecLoop, digit, value,
          if_neg (by simp), if_neg (by omega), parseDecLoop]
        congr 1
        omega
      · rw [if_neg fits]
        by_cases front : n / 10 < 18446744073709551610
        · rw [if_pos front, Option.bind_some, parseDecLoop, digit, if_neg (by simp), if_pos (by omega)]
        · rw [if_neg front]
          rfl

/-- A digit is text, and no white space. -/
theorem digit_text {c : UInt8} (digit : isDigit c = true) : isText c = true ∧ isOws c = false := by
  obtain ⟨c⟩ := c
  revert c
  decide +kernel

/-- A number that was written has no white space around it. -/
theorem trim_decimal (n : Nat) : trim (octets (toString n)) = octets (toString n) := by
  obtain ⟨_, digits⟩ := decimal_digits n
  refine trim_eq (fun c there => ?_) fun c there => ?_
  · exact (digit_text (digits c (List.mem_of_mem_head? there))).2
  · exact (digit_text (digits c (List.mem_of_mem_getLast? there))).2

end Decimal

section Codings

/-- What each field about the coding says: whether its last coding is that the body is chunked. -/
def codings (fields : Fields) : List Bool :=
  (fields.filter fun f => isCoding f.1).map fun f => saysChunked f.2

/-- A field about the coding is no field about the length. -/
theorem coding_noLength {name : Octets} (coding : isCoding name = true) : isLength name = false :=
  strieq_other (by decide) coding

/-- Behind a field that says that the body is chunked, none may say it, nor say anything else. -/
theorem fields_chunked {fields : Fields} (noLength : ∀ f ∈ fields, isLength f.1 = false) (len : Nat) :
    Framing.fields ⟨len, false, true⟩ fields =
      if codings fields = [] then some ⟨len, false, true⟩ else none := by
  induction fields with
  | nil => rfl
  | cons field fields ih =>
    have rest := ih fun f there => noLength f (List.mem_cons_of_mem _ there)
    have other := noLength field List.mem_cons_self
    unfold codings at rest ⊢
    rw [Framing.fields, Framing.field, if_neg (by simp [other]), List.filter_cons]
    by_cases coding : isCoding field.1 = true
    · rw [if_pos coding, if_pos coding]
      rfl
    · rw [if_neg coding, if_neg coding]
      exact rest

/-- What the fields say of the coding, where none says the length. -/
theorem fields_codings {fields : Fields} (noLength : ∀ f ∈ fields, isLength f.1 = false) (len : Nat) :
    Framing.fields ⟨len, false, false⟩ fields =
      if true ∈ (codings fields).dropLast then none
      else if true ∈ codings fields then some ⟨0, false, true⟩ else some ⟨len, false, false⟩ := by
  induction fields with
  | nil => rfl
  | cons field fields ih =>
    have others := fun f there => noLength f (List.mem_cons_of_mem _ there)
    have rest := ih others
    have other := noLength field List.mem_cons_self
    have here : codings (field :: fields) =
        if isCoding field.1 then saysChunked field.2 :: codings fields else codings fields := by
      unfold codings
      rw [List.filter_cons]
      split <;> rfl
    rw [Framing.fields, Framing.field, if_neg (by simp [other]), here]
    by_cases coding : isCoding field.1 = true
    · rw [if_pos coding, if_pos coding, if_neg (by simp)]
      by_cases spoken : saysChunked field.2 = true
      · -- The body is chunked, and no other field may follow.
        rw [if_pos spoken, Option.bind_some, fields_chunked others]
        cases behind : codings fields with
        | nil => simp [spoken]
        | cons b more => simp [spoken]
      · rw [if_neg spoken, Option.bind_some, rest]
        cases behind : codings fields with
        | nil => simp [spoken]
        | cons b more => simp [spoken, List.dropLast]
    · rw [if_neg coding, if_neg coding]
      exact rest

end Codings

section Fields

variable {fields front back : Fields} {name : Octets}

/-- A name is found among fields where it is found in one part of them. -/
theorem fieldExists_append :
    Fields.fieldExists (front ++ back) name = (front.fieldExists name || back.fieldExists name) := by
  simp [Fields.fieldExists, Fields.find, List.find?_append]

/-- The first part of the fields in which a name is found has its value. -/
theorem value_append : Fields.value (front ++ back) name =
    if front.fieldExists name then front.value name else back.value name := by
  unfold Fields.value Fields.fieldExists Fields.find
  rw [List.find?_append]
  cases List.find? (fun field : Octets × Octets => ciEqual field.1 name) front <;> rfl

/-- Where a name is not found, no field has it. -/
theorem fieldExists_false : fields.fieldExists name = false ↔ ∀ f ∈ fields, ciEqual f.1 name = false := by
  simp [Fields.fieldExists, Fields.find]

/-- Where a name is not found, its value is empty. -/
theorem value_none (none : fields.fieldExists name = false) : fields.value name = [] := by
  unfold Fields.value
  unfold Fields.fieldExists at none
  cases found : fields.find name with
  | none => rfl
  | some f =>
    rw [found] at none
    cases none

/-- A coding is said where the field for it is found. -/
theorem codings_nil : codings fields = [] ↔ fields.fieldExists (octets "Transfer-Encoding") = false := by
  rw [fieldExists_false]
  simp only [isCoding_ciEqual, codings, List.map_eq_nil_iff, List.filter_eq_nil_iff,
    Bool.not_eq_true]

end Fields

section Prepared

variable {W : BodyWriter} {sized : Option (W.State → UInt64)} {options : List Connection}
  {msg msg' : Header} {w₀ w : W.State}

/-- Whether a message says its length, where the length is known. -/
def announces (msg : Header) (content_length : UInt64) : Bool :=
  match msg.start with
  | .request method _ => content_length > 0 || ciEqual method (octets "POST")
  | .response status _ => !bodiless status

/-- The field that says how the body ends, if any. -/
def bodyFields (pi : PrepareInfo) (msg : Header) : Fields :=
  if pi.connection_value = some .upgrade then []
  else match pi.content_length with
    | some content_length =>
      if announces msg content_length then
        [(octets "Content-Length", octets (toString content_length.toNat))]
      else []
    | none =>
      if 11 ≤ msg.version then [(octets "Transfer-Encoding", octets "chunked")] else []

/-- The length is said where the message is to say it. -/
theorem setField_announces (msg : Header) (n : UInt64) : setField msg n =
    if announces msg n then msg.insert "Content-Length" (octets (toString n.toNat)) else msg := by
  unfold setField announces
  cases msg.start with
  | request method target => rfl
  | response status reason =>
    have same : (status / 100 != 1 && status != 204 && status != 304) = !bodiless status := by
      simp only [bodiless, bne, Bool.not_or]
    dsimp only
    rw [same]

/-- How the body ends is said behind the other fields. -/
theorem setFraming_fields (pi : PrepareInfo) (msg : Header) :
    setFraming pi msg = { msg with fields := msg.fields ++ bodyFields pi msg } := by
  have nothing : ({ msg with fields := msg.fields ++ [] } : Header) = msg := by
    rw [List.append_nil]
  unfold setFraming bodyFields
  by_cases upgrades : pi.connection_value = some .upgrade
  · rw [if_neg (by simp [upgrades]), if_pos upgrades, nothing]
  rw [if_pos (by simpa using upgrades), if_neg upgrades]
  cases pi.content_length with
  | none =>
    dsimp only
    split
    · rfl
    · exact nothing.symm
  | some n =>
    dsimp only
    rw [setField_announces]
    split
    · rw [Header.insert, Fields.insert, trim_decimal]
    · exact nothing.symm

/-- The field that says what becomes of the connection, if any. -/
def connectionFields (pi : PrepareInfo) (msg : Header) : Fields :=
  match pi.connection_value with
  | none => []
  | some .upgrade => [(octets "Connection", octets "upgrade")]
  | some .keep_alive =>
    if msg.version < 11 ∧ msg.fields.fieldExists (octets "Content-Length") = true then
      [(octets "Connection", octets "keep-alive")]
    else []
  | some .close => if 11 ≤ msg.version then [(octets "Connection", octets "close")] else []

/-- What becomes of the connection is said behind the other fields. -/
theorem prepareConnection_fields (pi : PrepareInfo) (msg : Header) :
    prepareConnection pi msg = { msg with fields := msg.fields ++ connectionFields pi msg } := by
  have nothing : ({ msg with fields := msg.fields ++ [] } : Header) = msg := by
    rw [List.append_nil]
  unfold prepareConnection connectionFields
  cases pi.connection_value with
  | none => exact nothing.symm
  | some value =>
    cases value with
    | upgrade => rfl
    | keep_alive =>
      dsimp only
      by_cases old : msg.version < 11
      · by_cases length : msg.fields.fieldExists (octets "Content-Length") = true
        · rw [if_pos old, if_pos length, if_pos ⟨old, length⟩]
          rfl
        · rw [if_pos old, if_neg length, if_neg fun both => length both.2, nothing]
      · rw [if_neg old, if_neg fun both => old both.1, nothing]
    | close =>
      dsimp only
      split
      · rfl
      · exact nothing.symm

/-- What becomes of the connection is one of three things. -/
theorem connectionFields_spec {pi : PrepareInfo} {msg : Header} {f : Octets × Octets}
    (there : f ∈ connectionFields pi msg) : f.1 = octets "Connection" ∧
      (f.2 = octets "upgrade" ∨ f.2 = octets "keep-alive" ∨ f.2 = octets "close") := by
  unfold connectionFields at there
  split at there
  · cases there
  · rw [List.mem_singleton.mp there]
    exact ⟨rfl, .inl rfl⟩
  · split at there
    · rw [List.mem_singleton.mp there]
      exact ⟨rfl, .inr (.inl rfl)⟩
    · cases there
  · split at there
    · rw [List.mem_singleton.mp there]
      exact ⟨rfl, .inr (.inr rfl)⟩
    · cases there

/-- What a message was before it was prepared, and what was added to it. -/
structure Prepared (pi : PrepareInfo) (msg msg' : Header) : Prop where
  noConnection : msg.fields.fieldExists (octets "Connection") = false
  noLength : msg.fields.fieldExists (octets "Content-Length") = false
  noChunks : tokenExists (msg.fields.value (octets "Transfer-Encoding")) (octets "chunked") = false
  result : msg' =
    { msg with
      fields := msg.fields ++ bodyFields pi msg ++ connectionFields pi (setFraming pi msg) }
  upgrades : pi.connection_value = some .upgrade → 11 ≤ msg.version

/-- The last option counts. -/
theorem prepareOptions_last (pi : PrepareInfo) (options : List Connection) :
    (prepareOptions pi options).content_length = pi.content_length ∧
      (prepareOptions pi options).connection_value = options.getLast?.or pi.connection_value := by
  induction options generalizing pi with
  | nil => exact ⟨rfl, rfl⟩
  | cons value options ih =>
    obtain ⟨length, last⟩ := ih { pi with connection_value := some value }
    refine ⟨length, last.trans ?_⟩
    cases options with
    | nil => rfl
    | cons other options =>
      rw [List.getLast?_cons_cons]
      cases found : (other :: options).getLast? with
      | none => simp at found
      | some value => rfl

/-- A message that was prepared had nothing that is added then. -/
theorem prepareMessage_spec (init : W.init w₀ = (w, none))
    (prepared : prepareMessage W sized w₀ options msg = .ok msg') :
    ∃ pi : PrepareInfo, pi.content_length = sized.map (fun content_length => content_length w) ∧
      pi.connection_value = options.getLast? ∧ Prepared pi msg msg' := by
  have length : prepareContentLength W w₀ sized =
      .ok (sized.map fun content_length => content_length w) := by
    unfold prepareContentLength
    cases sized with
    | none => rfl
    | some content_length =>
      dsimp only
      rw [init]
      rfl
  obtain ⟨content, value⟩ := prepareOptions_last
    { content_length := sized.map fun content_length => content_length w } options
  unfold prepareMessage at prepared
  rw [length] at prepared
  simp only [bind, Except.bind, throw, throwThe, MonadExceptOf.throw, pure, Except.pure] at prepared
  generalize prepareOptions { content_length := sized.map fun content_length => content_length w }
    options = pi at prepared content value
  rw [Option.or_none] at value
  have result := prepareConnection_fields pi (setFraming pi msg)
  rw [show (setFraming pi msg).fields = msg.fields ++ bodyFields pi msg from by
    rw [setFraming_fields]] at result
  split at prepared
  · cases prepared
  rename_i noConnection
  split at prepared
  · cases prepared
  rename_i noLength
  split at prepared
  · cases prepared
  rename_i noChunks
  split at prepared
  · cases prepared
  rename_i noUpgrade
  cases prepared
  simp only [Bool.not_eq_true] at noConnection noLength noChunks
  refine ⟨pi, content, value, noConnection, noLength, noChunks, ?_, fun upgrades => ?_⟩
  · rw [result, setFraming_fields]
  · -- The field that asks for an upgrade is the one that is looked at.
    by_contra old
    rw [result, setFraming_fields] at noUpgrade
    have asked : connectionFields pi (setFraming pi msg) = [(octets "Connection", octets "upgrade")] := by
      rw [connectionFields, upgrades]
    have nothing : bodyFields pi msg = [] := by
      rw [bodyFields, if_pos upgrades]
    rw [← setFraming_fields, asked, nothing, List.append_nil] at noUpgrade
    refine noUpgrade (Bool.and_eq_true_iff.mpr ⟨?_, ?_⟩)
    · rw [setFraming_fields]
      simpa using old
    · dsimp only
      rw [value_append, noConnection, if_neg Bool.false_ne_true]
      decide +kernel

/-- What is added for the body is nothing, the length or the coding. -/
theorem bodyFields_cases (pi : PrepareInfo) (msg : Header) : bodyFields pi msg = [] ∨
    (∃ n : UInt64, bodyFields pi msg = [(octets "Content-Length", octets (toString n.toNat))]) ∨
      bodyFields pi msg = [(octets "Transfer-Encoding", octets "chunked")] := by
  unfold bodyFields
  split
  · exact .inl rfl
  · split
    · rename_i n _
      split
      · exact .inr (.inl ⟨n, rfl⟩)
      · exact .inl rfl
    · split
      · exact .inr (.inr rfl)
      · exact .inl rfl

/-- A prepared message is one that the grammar allows, where it was one before. -/
theorem Prepared.wellFormed {pi : PrepareInfo} (prior : Prepared pi msg msg')
    (wellFormed : WellFormed msg) : WellFormed msg' := by
  rw [prior.result]
  refine ⟨wellFormed.version, wellFormed.start, fun f there => ?_⟩
  rcases List.mem_append.mp there with front | connection
  · rcases List.mem_append.mp front with before | body
    · exact wellFormed.fields f before
    · rcases bodyFields_cases pi msg with none | ⟨n, length⟩ | coding
      · rw [none] at body
        cases body
      · have named : IsToken (octets "Content-Length") := by decide +kernel
        have other : ¬(strieq "connection" (octets "Content-Length") = true ∨
            strieq "proxy-connection" (octets "Content-Length") = true) := by decide
        rw [length] at body
        rw [List.mem_singleton.mp body]
        refine ⟨named, List.all_eq_true.mpr fun c digit => ?_, trim_decimal _,
          fun connection => absurd connection other⟩
        exact (digit_text ((decimal_digits _).2 c digit)).1
      · rw [coding] at body
        rw [List.mem_singleton.mp body]
        exact ⟨by decide +kernel, by decide +kernel, by decide +kernel, by decide +kernel⟩
  · obtain ⟨name, value⟩ := f
    obtain ⟨rfl, value⟩ := connectionFields_spec connection
    rcases value with rfl | rfl | rfl
    · exact ⟨by decide +kernel, by decide +kernel, by decide +kernel, by decide +kernel⟩
    · exact ⟨by decide +kernel, by decide +kernel, by decide +kernel, by decide +kernel⟩
    · exact ⟨by decide +kernel, by decide +kernel, by decide +kernel, by decide +kernel⟩

/-- What becomes of the connection says nothing of the body. -/
theorem fields_connection {pi : PrepareInfo} {framing : Framing} :
    framing.fields (connectionFields pi msg) = some framing := by
  have other : ∀ fields : Fields, (∀ f ∈ fields, f.1 = octets "Connection") →
      framing.fields fields = some framing := by
    intro fields named
    induction fields with
    | nil => rfl
    | cons field fields ih =>
      have name := named field List.mem_cons_self
      have noLength : ¬isLength (octets "Connection") = true := by decide
      have noCoding : ¬isCoding (octets "Connection") = true := by decide
      rw [Framing.fields, Framing.field, name, if_neg noLength, if_neg noCoding]
      exact ih fun f there => named f (List.mem_cons_of_mem _ there)
  exact other _ fun f there => (connectionFields_spec there).1

/-- What is known of the body of a prepared message comes from its own fields and one other. -/
theorem Prepared.framed {pi : PrepareInfo} (prior : Prepared pi msg msg') (framing : Framing) :
    framing.fields msg'.fields =
      (framing.fields msg.fields).bind fun framing => framing.fields (bodyFields pi msg) := by
  rw [prior.result]
  dsimp only
  rw [Framing.fields_append, Framing.fields_append]
  cases (framing.fields msg.fields).bind fun framing => framing.fields (bodyFields pi msg) with
  | none => rfl
  | some framing => exact fields_connection

/-- A message that can be prepared does not say its length before. -/
theorem Prepared.unsized {pi : PrepareInfo} (prior : Prepared pi msg msg') :
    ∀ f ∈ msg.fields, isLength f.1 = false := by
  intro f there
  rw [← isLength_ciEqual]
  exact fieldExists_false.mp prior.noLength f there

/-- A prepared message is written in chunks where it had no coding and was given that one. -/
theorem Prepared.chunked {pi : PrepareInfo} (prior : Prepared pi msg msg') :
    (writePreparation msg' w₀ ({} : WriteStream)).chunked = true ↔ codings msg.fields = [] ∧
      (octets "Transfer-Encoding", octets "chunked") ∈ bodyFields pi msg := by
  have looked : (writePreparation msg' w₀ ({} : WriteStream)).chunked =
      tokenExists (msg'.fields.value (octets "Transfer-Encoding")) (octets "chunked") := rfl
  rw [looked, prior.result]
  dsimp only
  rw [List.append_assoc, value_append, codings_nil]
  by_cases coded : msg.fields.fieldExists (octets "Transfer-Encoding") = true
  · rw [if_pos coded, prior.noChunks, coded]
    simp
  · rw [if_neg coded, value_append]
    have none : Fields.fieldExists (connectionFields pi (setFraming pi msg))
        (octets "Transfer-Encoding") = false := by
      rw [fieldExists_false]
      intro f there
      rw [(connectionFields_spec there).1]
      decide
    simp only [Bool.not_eq_true] at coded
    have nothing := value_none none
    have silent : ¬tokenExists [] (octets "chunked") = true := by decide
    have differ : octets "Transfer-Encoding" ≠ octets "Content-Length" := by decide
    rcases bodyFields_cases pi msg with empty | ⟨n, length⟩ | coding
    · have missing : Fields.fieldExists [] (octets "Transfer-Encoding") = false := rfl
      rw [empty, missing, if_neg Bool.false_ne_true, nothing]
      simp [silent]
    · have other : ciEqual (octets "Content-Length") (octets "Transfer-Encoding") = false := by decide
      have missing : Fields.fieldExists [(octets "Content-Length", octets (toString n.toNat))]
          (octets "Transfer-Encoding") = false := by
        simp [Fields.fieldExists, Fields.find, other]
      rw [length, missing, if_neg Bool.false_ne_true, nothing]
      simp [silent, differ]
    · have given : Fields.fieldExists [(octets "Transfer-Encoding", octets "chunked")]
          (octets "Transfer-Encoding") = true := by decide
      have spoken : tokenExists (Fields.value [(octets "Transfer-Encoding", octets "chunked")]
          (octets "Transfer-Encoding")) (octets "chunked") = true := by decide +kernel
      rw [coding, given, if_pos rfl, spoken, coded]
      simp

end Prepared

end Beast.Http
