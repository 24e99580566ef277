import Beast.Http.HeaderParserLaws
import Beast.Http.TokenLists

/-! Whether a connection is kept, as the parser decides it and as the header object does. -/

namespace Beast.Http

variable {d : Derived}

namespace Message

/-- Whether the parser takes the message for one that keeps the connection. -/
def isKeepAlive (self : Message d) : Bool :=
  if self.f_.flagHTTP11 then
    if self.f_.flagConnectionClose then false else !self.f_.flagNeedEOF
  else if !self.f_.flagConnectionKeepAlive then false
  else !self.f_.flagNeedEOF

/-- Whether the parser takes the message for an upgrade. -/
def isUpgrade (self : Message d) : Bool :=
  self.f_.flagConnectionUpgrade

end Message

/-- Whether the connection field of a message keeps the connection. -/
def isKeepAlive (version : Nat) (fields : Fields) : Bool :=
  if version == 11 then !tokenExists (fields.value (octets "Connection")) (octets "close")
  else tokenExists (fields.value (octets "Connection")) (octets "keep-alive")

/-! ## What fields list -/

/-- Whether a field is about the connection. -/
def isConnection (name : Octets) : Bool :=
  ciEqual name (octets "Connection") || ciEqual name (octets "Proxy-Connection")

/-- Whether an element of a list is a token, in any case of letters. -/
def lists (value : Octets) (token : String) : Bool :=
  (segments value).any (ciEqual (octets token))

/-- Whether any field about the connection lists a token. -/
def listed (fields : Fields) (token : String) : Bool :=
  fields.any fun field => isConnection field.1 && lists field.2 token

/-- Whether the first connection field lists a token. -/
def listedFirst (fields : Fields) (token : String) : Bool :=
  lists (fields.value (octets "Connection")) token

/--
What a header lists where both deciders agree.

The first connection field must list what any of the fields about the connection lists, as far as
the version makes use of it. In a header of version 1.0, none may list an upgrade.
-/
def ListedAlike (version : Nat) (fields : Fields) : Prop :=
  if version = 11 then
    (listed fields "close" = true → listedFirst fields "close" = true) ∧
      (listed fields "upgrade" = true → listedFirst fields "upgrade" = true)
  else
    (listed fields "keep-alive" = true → listedFirst fields "keep-alive" = true) ∧
      listed fields "upgrade" = false

/-! ## The flags of the parser -/

/-- A name in small letters is compared in any case of letters. -/
theorem strieq_ciEqual {token : String} (small : (octets token).map tolower = octets token)
    (s : Octets) : strieq token s = ciEqual (octets token) s := by
  rw [strieq, ciEqual, small]

/-- A flag that a token of the fields about the connection raises. -/
structure Raises (token : String) (flag : Flags → Bool) : Prop where
  small : (octets token).map tolower = octets token
  raised (f : Flags) (s : Octets) : flag (connectionToken f s) = (flag f || strieq token s)
  length (f : Flags) : flag { f with flagContentLength := true } = flag f
  coding (f : Flags) : flag { f with flagChunked := true } = flag f
  upgrade (f : Flags) : flag { f with flagUpgrade := true } = flag f
  version (f : Flags) : flag { f with flagHTTP11 := true } = flag f
  body (f : Flags) : flag { f with flagHasBody := true } = flag f

/-- A token that closes the connection raises its flag. -/
theorem raises_close : Raises "close" Flags.flagConnectionClose where
  small := by decide
  raised f s := by
    unfold connectionToken
    -- The token is asked for first.
    by_cases close : strieq "close" s = true
    · simp [close]
    · rw [if_neg close]
      simp only [close, Bool.or_false]
      repeat' split
      all_goals rfl
  length _ := rfl
  coding _ := rfl
  upgrade _ := rfl
  version _ := rfl
  body _ := rfl

/-- A token that keeps the connection raises its flag. -/
theorem raises_keepAlive : Raises "keep-alive" Flags.flagConnectionKeepAlive where
  small := by decide
  raised f s := by
    unfold connectionToken
    by_cases close : strieq "close" s = true
    · -- The token in front of it is another one.
      have other : strieq "keep-alive" s = false := strieq_other (by decide) close
      simp [close, other]
    · rw [if_neg close]
      by_cases keep : strieq "keep-alive" s = true
      · simp [keep]
      · rw [if_neg keep]
        simp only [keep, Bool.or_false]
        split <;> rfl
  length _ := rfl
  coding _ := rfl
  upgrade _ := rfl
  version _ := rfl
  body _ := rfl

/-- A token that upgrades the connection raises its flag. -/
theorem raises_upgrade : Raises "upgrade" Flags.flagConnectionUpgrade where
  small := by decide
  raised f s := by
    unfold connectionToken
    -- A token is one of those in front at most.
    by_cases close : strieq "close" s = true
    · have other : strieq "upgrade" s = false := strieq_other (by decide) close
      simp [close, other]
    · rw [if_neg close]
      by_cases keep : strieq "keep-alive" s = true
      · have other : strieq "upgrade" s = false := strieq_other (by decide) keep
        simp [keep, other]
      · rw [if_neg keep]
        by_cases upgrade : strieq "upgrade" s = true
        · simp [upgrade]
        · simp [upgrade]
  length _ := rfl
  coding _ := rfl
  upgrade _ := rfl
  version _ := rfl
  body _ := rfl

section Flags_

variable {token : String} {flag : Flags → Bool} (raises : Raises token flag)

include raises

/-- The tokens of a list raise a flag if one of them is the one that does. -/
theorem Raises.list (l : List Octets) (f : Flags) :
    flag (l.foldl connectionToken f) = (flag f || l.any (ciEqual (octets token))) := by
  -- The induction is on the tokens, each of which raises the flag or keeps it.
  induction l generalizing f with
  | nil => simp
  | cons s l ih =>
    rw [List.foldl_cons, ih, raises.raised, strieq_ciEqual raises.small, List.any_cons, Bool.or_assoc]

/-- A field that is not about the connection raises no flag of it. -/
theorem Raises.other {name : Octets}
    (other : ¬(strieq "connection" name || strieq "proxy-connection" name) = true) (value : Octets) :
    Step.Keeps (fun m : Message d => flag m.f_) (doField name value) := by
  unfold doField
  refine Step.keeps_bind Step.keeps_get fun self => ?_
  rw [if_neg other]
  -- No other branch touches a flag of the connection.
  repeat' first
    | with_reducible first
      | exact Step.keeps_pure _
      | exact fail_keeps _
      | exact setFlags_keeps fun m => raises.length m.f_
      | exact setFlags_keeps fun m => raises.coding m.f_
      | exact setFlags_keeps fun m => raises.upgrade m.f_
      | exact Step.keeps_modify fun _ => rfl
    | refine Step.keeps_bind ?_ fun _ => ?_
    | split

/-- A field that is taken raises a flag if it is about the connection and lists the token. -/
theorem Raises.field {name value : Octets} {m u : Message d}
    (taken : Step.run (doField name value) m = (.ok (), u)) :
    flag u.f_ = (flag m.f_ || (isConnection name && lists (trim value) token)) := by
  have named : (strieq "connection" name || strieq "proxy-connection" name) = isConnection name := by
    -- The parser compares with small letters, and the fields are listed in any case.
    have first : ciEqual (octets "connection") (octets "Connection") = true := by decide
    have second : ciEqual (octets "proxy-connection") (octets "Proxy-Connection") = true := by decide
    rw [strieq_ciEqual (by decide), strieq_ciEqual (by decide), ciEqual_congr first,
      ciEqual_congr second, ciEqual_comm _ name, ciEqual_comm _ name]
    rfl
  by_cases about : isConnection name = true
  · -- A connection field that was taken is a list without a fault, so its tokens are its elements.
    have read := optTokenList_eq (trim value)
    rw [optTokenList_trim] at read
    unfold doField at taken
    rw [Step.run_get_bind, named, if_pos about] at taken
    cases tokens : optTokenList value with
    | none => simp [tokens, fail] at taken
    | some l =>
      have same : segments (trim value) = l := by
        rw [tokens] at read
        split at read
        · exact (Option.some.inj read).symm
        · cases read
      simp only [tokens, setFlags, Step.run_modify, Prod.mk.injEq] at taken
      obtain rfl := taken.2
      dsimp only
      rw [raises.list, about, lists, same, Bool.true_and]
  · -- Any other field keeps the flag.
    have kept := raises.other (d := d) (by rw [named]; exact about) value m
    rw [taken] at kept
    simpa [about] using kept

/-- Fields that are taken raise a flag if one of them lists the token. -/
theorem Raises.fields {fields : Fields} {m u : Message d}
    (taken : Step.run (takeFields fields) m = (.ok (), u)) :
    flag u.f_ = (flag m.f_ || listed fields.trimmed token) := by
  -- The induction is on the fields, each of which is noted and then told of.
  induction fields generalizing m with
  | nil =>
    cases taken
    exact (Bool.or_false _).symm
  | cons field fields ih =>
    obtain ⟨name, value⟩ := field
    rw [takeFields] at taken
    obtain ⟨_, v, first, taken⟩ := Step.bind_ok taken
    obtain ⟨_, w, told, taken⟩ := Step.bind_ok taken
    -- The call touches the derived class alone.
    have same : w.f_ = v.f_ := by
      have only := invoke_spec (.on_field name value) v
      rw [told] at only
      dsimp only at only
      rw [only]
    rw [ih taken, same, raises.field first, Bool.or_assoc]
    rfl

/-- The decision on the body of a request raises no flag of the connection. -/
theorem Raises.header (status : Nat) :
    Step.Keeps (fun m : Message d => flag m.f_) (doHeader true status) := by
  unfold doHeader doHeaderRequest
  -- Only the flag for a body is set.
  repeat' first
    | with_reducible first
      | exact Step.keeps_get
      | exact setFlags_keeps fun m => raises.body m.f_
      | exact Step.keeps_modify fun _ => rfl
    | refine Step.keeps_bind ?_ fun _ => ?_
    | split

end Flags_

/-- The end of a header is told without a change of the flags. -/
theorem finishHeader_flags : Step.Keeps (fun m : Message d => m.f_) finishHeader := by
  have called : ∀ c, Step.Keeps (fun m : Message d => m.f_) (invoke c) := by
    intro c m
    rw [invoke_spec]
  unfold finishHeader
  refine Step.keeps_bind (called _) fun _ => Step.keeps_bind Step.keeps_get fun self => ?_
  split
  · exact called _
  · exact Step.keeps_pure _

/-- What the version and the framing make of keeping a connection. -/
def lasting (m : Message d) : Bool × Bool := (m.f_.flagHTTP11, m.f_.flagNeedEOF)

/-- The tokens of a connection field leave the version. -/
theorem connectionTokens_lasting (l : List Octets) (f : Flags) :
    (l.foldl connectionToken f).flagHTTP11 = f.flagHTTP11 ∧
      (l.foldl connectionToken f).flagNeedEOF = f.flagNeedEOF := by
  induction l generalizing f with
  | nil => exact ⟨rfl, rfl⟩
  | cons s l ih =>
    -- Each token sets a flag of the connection, or none.
    have first : (connectionToken f s).flagHTTP11 = f.flagHTTP11 ∧
        (connectionToken f s).flagNeedEOF = f.flagNeedEOF := by
      unfold connectionToken
      repeat' split
      all_goals exact ⟨rfl, rfl⟩
    obtain ⟨version, needEOF⟩ := ih (connectionToken f s)
    exact ⟨version.trans first.1, needEOF.trans first.2⟩

/-- Fields leave the version. -/
theorem takeFields_lasting (fields : Fields) : Step.Keeps (lasting (d := d)) (takeFields fields) := by
  -- Each field keeps it, whatever it is about.
  have one : ∀ name value, Step.Keeps (lasting (d := d)) (doField name value) := by
    intro name value
    unfold doField
    repeat' first
      | with_reducible first
        | exact Step.keeps_pure _
        | exact Step.keeps_get
        | exact fail_keeps _
        | exact setFlags_keeps fun _ => rfl
        | exact Step.keeps_modify fun _ => rfl
      | refine Step.keeps_bind ?_ fun _ => ?_
      | split
    -- What is left are the tokens of a connection field.
    rename_i list _
    refine setFlags_keeps fun m => ?_
    obtain ⟨version, needEOF⟩ := connectionTokens_lasting list m.f_
    exact Prod.ext version needEOF
  induction fields with
  | nil => exact Step.keeps_pure _
  | cons field fields ih =>
    -- Telling of a field touches the derived class alone.
    have called : Step.Keeps (lasting (d := d)) (invoke (.on_field field.1 field.2)) := by
      intro m
      rw [invoke_spec]
      rfl
    exact Step.keeps_bind (one _ _) fun _ => Step.keeps_bind called fun _ => ih

/-- The decision on the body of a request leaves the version. -/
theorem doHeader_lasting (status : Nat) : Step.Keeps (lasting (d := d)) (doHeader true status) := by
  unfold doHeader doHeaderRequest
  repeat' first
    | with_reducible first
      | exact Step.keeps_get
      | exact setFlags_keeps fun _ => rfl
      | exact Step.keeps_modify fun _ => rfl
    | refine Step.keeps_bind ?_ fun _ => ?_
    | split

section Accepted

variable {lines : List Octets} {start : StartLine} {version : Nat} {m told noted decided t : Message d}

/-- Behind a header that was accepted, a flag says whether a field lists its token. -/
theorem Taken.raised {token : String} {flag : Flags → Bool} (raises : Raises token flag)
    (taken : Taken true lines start version m told noted decided t) :
    flag t.f_ = (flag m.f_ || listed (readFields lines).1.trimmed token) := by
  -- A header is accepted in four steps: the first line, the fields, the body and the end.
  have first := invoke_spec (start.callback version) m
  rw [taken.tells] at first
  have second := raises.fields taken.takes
  have third := raises.header start.status noted
  rw [taken.decides] at third
  have fourth := finishHeader_flags decided
  rw [taken.finishes] at fourth
  dsimp only at first second third fourth
  -- The version raises none of these flags.
  have same : flag (noteVersion version told.f_) = flag m.f_ := by
    rw [first]
    unfold noteVersion
    split
    · exact raises.version _
    · rfl
  rw [fourth, third, second, same]

/-- Behind a header that was accepted, the version is noted, and its end is known. -/
theorem Taken.lasting (taken : Taken true lines start version m told noted decided t) :
    Http.lasting t = (m.f_.flagHTTP11 || decide (version ≥ 11), m.f_.flagNeedEOF) := by
  -- The version is noted behind the first line, and kept from there on.
  have first := invoke_spec (start.callback version) m
  rw [taken.tells] at first
  have second := takeFields_lasting (readFields lines).1
    { told with f_ := noteVersion version told.f_ }
  rw [taken.takes] at second
  have third := doHeader_lasting start.status noted
  rw [taken.decides] at third
  have fourth := finishHeader_flags decided
  rw [taken.finishes] at fourth
  dsimp only at first second third fourth
  have same : Http.lasting t = Http.lasting decided := by
    unfold Http.lasting
    rw [fourth]
  rw [same, third, second, first]
  unfold Http.lasting noteVersion
  split
  · rename_i new
    simp [new]
  · rename_i old
    simp [old]

end Accepted

section Lists

variable {start : StartLine} {fields : Fields} {token : String}

/-- The words of a start line are no fields about the connection. -/
theorem listed_pseudo : listed (start.pseudo ++ fields) token = listed fields token := by
  have names : isConnection (octets ":target") = false ∧ isConnection (octets ":method") = false ∧
      isConnection (octets ":reason") = false := by decide
  cases start <;> simp [listed, StartLine.pseudo, names.1, names.2.1, names.2.2]

/-- What the first connection field lists is listed. -/
theorem listed_of_first (first : listedFirst fields token = true) : listed fields token = true := by
  unfold listedFirst Fields.value Fields.find at first
  cases found : List.find? (fun field => ciEqual field.1 (octets "Connection")) fields with
  | none =>
    -- Without a connection field, there is nothing to list.
    rw [found] at first
    exact absurd first (by simp [lists, segments, trim, skipOws])
  | some field =>
    rw [found] at first
    -- The first connection field is one of those about the connection.
    have named : ciEqual field.1 (octets "Connection") = true :=
      List.find?_some (p := fun field : Octets × Octets => ciEqual field.1 (octets "Connection"))
        found
    refine List.any_eq_true.mpr ⟨field, List.mem_of_find?_eq_some found, ?_⟩
    simp only [isConnection, named, Bool.true_or, Bool.true_and]
    exact first

/-- The header object reads the first connection field as the list that it is. -/
theorem tokenExists_first
    (formed : ∀ field ∈ fields, isConnection field.1 = true → WellFormedList field.2) :
    tokenExists (fields.value (octets "Connection")) (octets token) = listedFirst fields token := by
  -- A field that is missing is read as an empty list.
  have list : WellFormedList (fields.value (octets "Connection")) := by
    unfold Fields.value Fields.find
    cases found : List.find? (fun field => ciEqual field.1 (octets "Connection")) fields with
    | none =>
      show WellFormedList []
      decide
    | some field =>
      have named : ciEqual field.1 (octets "Connection") = true :=
        List.find?_some (p := fun field : Octets × Octets => ciEqual field.1 (octets "Connection"))
          found
      exact formed field (List.mem_of_find?_eq_some found) (by simp [isConnection, named])
  rw [tokenExists, tokenList_eq list]
  rfl

/-- The connection fields of a header that was accepted are lists without a fault. -/
theorem trimmed_lists {m u : Message d} (taken : Step.run (takeFields fields) m = (.ok (), u)) :
    ∀ field ∈ start.pseudo ++ fields.trimmed, isConnection field.1 = true →
      WellFormedList field.2 := by
  intro field there about
  have names : isConnection (octets ":target") = false ∧ isConnection (octets ":method") = false ∧
      isConnection (octets ":reason") = false := by decide
  -- The words of the first line are kept as fields too, under names of their own.
  rcases List.mem_append.mp there with word | there
  · cases start with
    | request method target =>
      rcases List.mem_cons.mp word with rfl | word
      · simp [names.1] at about
      · rw [List.mem_singleton.mp word] at about
        simp [names.2.1] at about
    | response status reason =>
      rw [List.mem_singleton.mp word] at about
      simp [names.2.2] at about
  · obtain ⟨⟨name, value⟩, inside, rfl⟩ := List.mem_map.mp there
    obtain ⟨v, w, may⟩ := (takeFields_told taken).2 _ inside
    have first : ciEqual (octets "connection") (octets "Connection") = true := by decide
    have second : ciEqual (octets "proxy-connection") (octets "Proxy-Connection") = true := by decide
    have named : strieq "connection" name = true ∨ strieq "proxy-connection" name = true := by
      rw [strieq_ciEqual (by decide), strieq_ciEqual (by decide), ciEqual_congr first,
        ciEqual_congr second, ciEqual_comm _ name, ciEqual_comm _ name]
      exact Bool.or_eq_true_iff.mp about
    -- The parser would have refused a field that is no list.
    have list := (doField_taken may).2 named
    rw [← optTokenList_trim, optTokenList_eq] at list
    by_contra malformed
    rw [if_neg malformed] at list
    cases list

end Lists

/--
The parser and the header object agree on whether the connection is kept, and whether it is
upgraded, if and only if the first connection field lists what any field about the connection does.

An upgrade that is listed in a request of version 1.0 counts for the parser alone.
-/
theorem deciders_agree_iff {skipsBody : Bool} {len x n : Nat} {text : Octets}
    {q : BasicParser headerParser}
    (accepted : Step.run (write true text) (opened skipsBody len x ({} : BasicHeader)) = (.ok n, q))
    (some_ : 0 < n) (known : q.impl.version = 10 ∨ q.impl.version = 11) :
    (q.isKeepAlive = isKeepAlive q.impl.version q.impl.fields ∧
        q.isUpgrade = isUpgrade q.impl.version q.impl.fields) ↔
      ListedAlike q.impl.version q.impl.fields := by
  -- The parser starts without a flag, and the object without a field.
  obtain ⟨p, fresh⟩ : ∃ p : BasicParser headerParser,
      p = opened skipsBody len x ({} : BasicHeader) := ⟨_, rfl⟩
  have state : p.state_ = .header ∧ p.skip_ = 0 ∧ p.f_.flagFinalChunk = false := by
    rw [fresh]
    exact opened_spec skipsBody len x _
  have empty : p.impl = ({} : BasicHeader) := by
    rw [fresh]
    cases skipsBody <;> rfl
  have unset : p.f_.flagConnectionClose = false ∧ p.f_.flagConnectionKeepAlive = false ∧
      p.f_.flagConnectionUpgrade = false ∧ p.f_.flagHTTP11 = false ∧
      p.f_.flagNeedEOF = false := by
    rw [fresh]
    cases skipsBody <;> exact ⟨rfl, rfl, rfl, rfl, rfl⟩
  rw [← fresh] at accepted
  clear fresh
  obtain ⟨noClose, noKeep, noUpgrade, noVersion, noEOF⟩ := unset
  obtain ⟨line, lines, start, version, told, noted, decided, _, _, _, taken⟩ :=
    write_taken state.1 (searched_fresh state.2.1 state.2.2 text) accepted some_
  have holds : q.impl = .holding start version (readFields lines).1 := taken.holding empty
  -- What the parser remembers of the fields, and what the object finds in them.
  have close := taken.raised raises_close
  have keep := taken.raised raises_keepAlive
  have upgrade := taken.raised raises_upgrade
  have lasts := taken.lasting
  have formed : ∀ field ∈ start.pseudo ++ (readFields lines).1.trimmed, isConnection field.1 = true →
      WellFormedList field.2 := trimmed_lists taken.takes
  have pseudo : ∀ {fields token}, listed (start.pseudo ++ fields) token = listed fields token :=
    listed_pseudo
  dsimp only [Http.lasting] at close keep upgrade lasts
  rw [noClose, Bool.false_or] at close
  rw [noKeep, Bool.false_or] at keep
  rw [noUpgrade, Bool.false_or] at upgrade
  rw [noVersion, noEOF, Bool.false_or, Prod.mk.injEq] at lasts
  have versions : q.impl.version = version := by rw [holds]; rfl
  have object : q.impl.fields = start.pseudo ++ (readFields lines).1.trimmed := by rw [holds]; rfl
  rw [versions] at known ⊢
  rw [object]
  rw [← pseudo] at close keep upgrade
  generalize start.pseudo ++ (readFields lines).1.trimmed = fields at *
  -- What the first field lists is listed anyway, so agreement is the other direction.
  have within : ∀ token : String,
      (listed fields token = listedFirst fields token ↔
        (listed fields token = true → listedFirst fields token = true)) := by
    intro token
    have implied : ∀ a b : Bool, (b = true → a = true) → (a = b ↔ (a = true → b = true)) := by
      decide
    exact implied _ _ listed_of_first
  unfold Message.isKeepAlive Message.isUpgrade isKeepAlive isUpgrade ListedAlike
  rw [lasts.1, lasts.2, close, keep, upgrade, tokenExists_first formed, tokenExists_first formed,
    tokenExists_first formed]
  rcases known with rfl | rfl
  · -- Version 1.0: the connection is kept on request, and never upgraded.
    rw [← within "keep-alive"]
    cases listed fields "keep-alive" <;> cases listedFirst fields "keep-alive" <;> simp
  · -- Version 1.1: the connection is kept unless it is to be closed.
    rw [if_pos rfl, ← within "close", ← within "upgrade"]
    cases listed fields "close" <;> cases listedFirst fields "close" <;> simp

/-- A request that keeps the connection, in a list of two. -/
def keepingRequest : Octets := octets "GET / HTTP/1.0\r\nConnection: x, Keep-Alive\r\n\r\n"

/-- The parser and the header object agree on such a request. -/
theorem deciders_agree_keeping :
    ∃ q : BasicParser headerParser,
      Step.run (write true keepingRequest) (opened false 0 0 ({} : BasicHeader)) = (.ok 45, q) ∧
        q.isKeepAlive = isKeepAlive q.impl.version q.impl.fields ∧
        q.isUpgrade = isUpgrade q.impl.version q.impl.fields := by
  have taken : (Step.run (write true keepingRequest)
      (opened (d := headerParser) false 0 0 ({} : BasicHeader))).1 = .ok 45 := by decide +kernel
  have version : @BasicHeader.version (Step.run (write true keepingRequest)
      (opened (d := headerParser) false 0 0 ({} : BasicHeader))).2.impl = 10 := by decide +kernel
  have alike : ListedAlike 10 (@BasicHeader.fields (Step.run (write true keepingRequest)
      (opened (d := headerParser) false 0 0 ({} : BasicHeader))).2.impl) := by
    unfold ListedAlike
    decide +kernel
  rcases ran : Step.run (write true keepingRequest)
    (opened (d := headerParser) false 0 0 ({} : BasicHeader)) with ⟨r, q⟩
  rw [ran] at taken version alike
  subst taken
  rw [← version] at alike
  exact ⟨q, rfl, (deciders_agree_iff ran (by decide) (.inl version)).mpr alike⟩

/-- A request whose second connection field closes the connection that the first one keeps. -/
def closingRequest : Octets :=
  octets "GET / HTTP/1.1\r\nConnection: keep-alive\r\nConnection: close\r\n\r\n"

/-- The parser closes the connection behind such a request, and the header object keeps it. -/
theorem deciders_disagree_closing :
    let q := (Step.run (write true closingRequest)
      (opened (d := headerParser) false 0 0 ({} : BasicHeader))).2
    (Step.run (write true closingRequest)
        (opened (d := headerParser) false 0 0 ({} : BasicHeader))).1 = .ok 61 ∧
      q.isKeepAlive = false ∧ isKeepAlive (@BasicHeader.version q.impl)
        (@BasicHeader.fields q.impl) = true := by
  decide +kernel

end Beast.Http
