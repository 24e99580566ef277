import Beast.Http.Arrival
import Beast.Http.PrepareLaws

/-! Whether what is written of a prepared message says by itself where the message ends. -/

namespace Beast.Http

variable {W : BodyWriter} {sized : Option (W.State → UInt64)} {options : List Connection}
  {msg msg' : Header} {w₀ w : W.State} {pieces : List (List Octets)} {last : Bool} {len x : Nat}

/--
What is written of a message arrives as that message.

The end of the stream is needed only where the call reports it.
-/
def SelfDelimits (msg : Header) (w₀ : W.State) (body : Octets) (len x : Nat) : Prop :=
  ∃ r t, Writes (writePreparation msg w₀ {}) (r, t) ∧
    Arrives msg body (r = .error (.ec .eof)) len x t.stream.written

/-- Whether the last option asks for an upgrade. -/
def Upgrades (options : List Connection) : Prop := options.getLast? = some .upgrade

instance (options : List Connection) : Decidable (Upgrades options) :=
  inferInstanceAs (Decidable (_ = _))

/--
What it takes of a message and its pieces that the prepared message delimits itself.

The writer provides something, and nothing says that the body is chunked in front of a last coding.
Where the status allows no body there is none, nor a last chunk.
Elsewhere a body is only there where its length or its chunks are said, or the stream ends.
-/
def Delimitable (isSized : Bool) (options : List Connection) (msg : Header)
    (pieces : List (List Octets)) : Prop :=
  pieces ≠ [] ∧
    if msg.is_request = false ∧ bodiless (startStatus msg) = true then
      pieces.flatten.flatten = [] ∧ true ∉ (codings msg.fields).dropLast ∧
        (isSized = false → ¬Upgrades options → 11 ≤ msg.version →
          codings msg.fields ≠ [] ∧ true ∉ codings msg.fields)
    else
      true ∉ codings msg.fields ∧
        if Upgrades options then msg.is_request = true ∧ pieces.flatten.flatten = []
        else if isSized = true then pieces.flatten.flatten.length < 18446744073709551610
        else if 11 ≤ msg.version then codings msg.fields = [] ∧ ∀ b ∈ pieces, b.flatten ≠ []
        else msg.is_request = true → pieces.flatten.flatten = []

/-- A writer that provides nothing at all sends no header. -/
theorem arrives_nothing {body : Octets} {closes : Prop} (version : msg.version = 10 ∨ msg.version = 11)
    (chunked : Bool) : ¬Arrives msg body closes len x (sentLast chunked) := by
  cases chunked with
  | false =>
    rintro ⟨o, fed, told, _⟩
    have new := @feed_nothing messageParser msg.is_request false len x
      (newMessage msg.is_request)
    rw [sentLast, if_neg Bool.false_ne_true] at fed
    have same := congrArg Prod.snd (new.symm.trans fed)
    dsimp only at same
    rw [← same] at told
    have old : (0 : Nat) = msg.version := congrArg (fun self : Parsed => self.msg.version) told
    omega
  | true =>
    rw [sentLast, if_pos rfl, arrives_iff (by decide)]
    rintro ⟨u, leaves, _⟩
    have refused : ∃ code t, Step.run (rescan (d := messageParser) msg.is_request chunkEncodeFinal)
        { len_ := len, impl := newMessage msg.is_request } = (.error (.ec code), t) := by
      cases msg.is_request with
      | false => exact ⟨.bad_version, _, rfl⟩
      | true => exact ⟨.bad_method, _, rfl⟩
    obtain ⟨code, t, ran⟩ := refused
    obtain ⟨stopped, _⟩ := leaves.unique (.stop (fun ended => by cases ended) (by decide) ran)
    cases stopped

/-- What is written of a message arrives as its header and its pieces do. -/
theorem selfDelimits_iff (wellFormed : WellFormed msg) {body : Octets} (init : W.init w₀ = (w, none))
    (yields : Yields W w pieces last) (fits : ∀ b ∈ pieces, b.flatten.length < 2 ^ 64) :
    SelfDelimits msg w₀ body len x ↔ pieces ≠ [] ∧
      Arrives msg body ((writePreparation msg w₀ ({} : WriteStream)).close = true) len x (writeHeader msg ++
        (sentPieces (writePreparation msg w₀ ({} : WriteStream)).chunked pieces ++
          sentLast (writePreparation msg w₀ ({} : WriteStream)).chunked)) := by
  obtain ⟨t, writes, written⟩ := @writes_message W pieces last msg w₀ w init yields fits
  have reports : ∀ close : Bool, closing close = .error (.ec .eof) ↔ close = true := by
    intro close
    cases close <;> simp [closing]
  have same : SelfDelimits msg w₀ body len x ↔
      Arrives msg body (closing (initialized msg w₀ w).close = .error (.ec .eof)) len x
        t.stream.written := by
    constructor
    · rintro ⟨r, t', writes', arrives⟩
      cases writes'.unique writes
      exact arrives
    · exact fun arrives => ⟨_, t, writes, arrives⟩
  rw [same, written, reports]
  by_cases none : pieces = []
  · subst none
    have nothing := @arrives_nothing msg len x body ((initialized msg w₀ w).close = true)
      wellFormed.version (initialized msg w₀ w).chunked
    simp only [ne_eq, not_true_eq_false, false_and, iff_false, ↓reduceIte]
    exact nothing
  · rw [if_neg none]
    exact ⟨fun arrives => ⟨none, arrives⟩, And.right⟩

/-- Pieces that are not sent in chunks are sent as the body. -/
theorem sent_plain (pieces : List (List Octets)) :
    sentPieces false pieces ++ sentLast false = pieces.flatten.flatten := by
  have each : sentAs false = List.flatten := rfl
  rw [sentPieces, each, sentLast, if_neg Bool.false_ne_true, List.append_nil, List.flatMap_def,
    List.flatten_flatten]

section Cases

variable {pi : PrepareInfo}

/-- Preparing a message leaves its kind and its status. -/
theorem Prepared.same (prior : Prepared pi msg msg') :
    msg'.is_request = msg.is_request ∧ startStatus msg' = startStatus msg ∧
      msg'.version = msg.version := by
  rw [prior.result]
  exact ⟨rfl, rfl, rfl⟩

/-- What is known of the body of a prepared message, from what was said of it before. -/
theorem Prepared.framed_codings (prior : Prepared pi msg msg') (len : Nat) :
    Framing.fields ⟨len, false, false⟩ msg'.fields =
      (if true ∈ (codings msg.fields).dropLast then none
        else if true ∈ codings msg.fields then some ⟨0, false, true⟩
        else some ⟨len, false, false⟩ : Option Framing).bind
          fun framing => framing.fields (bodyFields pi msg) := by
  rw [prior.framed, fields_codings prior.unsized]

/-- A message that said before that it is chunked does not arrive where a body is allowed. -/
theorem arrives_coded (wellFormed : WellFormed msg') (prior : Prepared pi msg msg')
    (coded : true ∈ codings msg.fields) {body : Octets} {closes : Prop}
    (allowed : ¬(msg'.is_request = false ∧ bodiless (startStatus msg') = true)) :
    ¬Arrives msg' body closes len x (writeHeader msg' ++ body) := by
  have framed := prior.framed_codings len
  rw [if_pos coded] at framed
  split at framed
  · exact arrives_refused wellFormed framed
  · rw [Option.bind_some] at framed
    have state : stateBehind msg' ⟨0, false, true⟩ = .chunk_header := by
      unfold stateBehind
      simp only [Bool.and_eq_true, Bool.not_eq_true']
      rw [if_neg allowed]
      rfl
    rcases bodyFields_cases pi msg with empty | ⟨n, length⟩ | coding
    · rw [empty] at framed
      exact arrives_unchunked wellFormed framed state
    · rw [length] at framed
      exact arrives_refused wellFormed framed
    · rw [coding] at framed
      exact arrives_refused wellFormed framed

/-- A message whose status allows no body ends with its header. -/
theorem stateBehind_bodiless {framing : Framing}
    (none : msg.is_request = false ∧ bodiless (startStatus msg) = true) :
    stateBehind msg framing = .complete := by
  rw [stateBehind, none.1, none.2]
  rfl

/-- Where a body is allowed, the fields decide. -/
theorem stateBehind_allowed {framing : Framing}
    (allowed : ¬(msg.is_request = false ∧ bodiless (startStatus msg) = true)) :
    stateBehind msg framing =
      if framing.sized then if framing.len > 0 then .body else .complete
      else if framing.chunked then .chunk_header
      else if msg.is_request then .complete
      else .body_to_eof := by
  unfold stateBehind
  simp only [Bool.and_eq_true, Bool.not_eq_true']
  rw [if_neg allowed]

/-- A message whose status allows no body arrives where there is none, nor a last chunk. -/
theorem arrives_bodiless (wellFormed : WellFormed msg') (prior : Prepared pi msg msg')
    (none : msg'.is_request = false ∧ bodiless (startStatus msg') = true) {closes : Prop} :
    Arrives msg' pieces.flatten.flatten closes len x (writeHeader msg' ++
        (sentPieces (writePreparation msg' w₀ ({} : WriteStream)).chunked pieces ++
          sentLast (writePreparation msg' w₀ ({} : WriteStream)).chunked)) ↔
      pieces.flatten.flatten = [] ∧ true ∉ (codings msg.fields).dropLast ∧
        (pi.content_length = Option.none → pi.connection_value ≠ some .upgrade → 11 ≤ msg.version →
          codings msg.fields ≠ [] ∧ true ∉ codings msg.fields) := by
  have framed := prior.framed_codings len
  have unannounced : ∀ n : UInt64, announces msg n = false := by
    intro n
    have response := prior.same.1.symm.trans none.1
    have status := (congrArg bodiless prior.same.2.1).symm.trans none.2
    unfold Header.is_request at response
    unfold startStatus at status
    unfold announces
    cases start : msg.start with
    | request method target =>
      rw [start] at response
      cases response
    | response code reason =>
      rw [start] at status
      dsimp only at status ⊢
      rw [status]
      rfl
  by_cases refused : true ∈ (codings msg.fields).dropLast
  · rw [if_pos refused] at framed
    exact ⟨fun arrives => absurd arrives (arrives_refused wellFormed framed),
      fun both => absurd refused both.2.1⟩
  rw [if_neg refused] at framed
  have coded := @Prepared.chunked W msg msg' w₀ pi prior
  by_cases given : pi.content_length = Option.none ∧ pi.connection_value ≠ some .upgrade ∧ 11 ≤ msg.version
  · -- The coding is added, whatever the status.
    have fields : bodyFields pi msg = [(octets "Transfer-Encoding", octets "chunked")] := by
      rw [bodyFields, if_neg given.2.1, given.1]
      dsimp only
      rw [if_pos given.2.2]
    rw [fields] at framed coded
    by_cases again : true ∈ codings msg.fields
    · rw [if_pos again, Option.bind_some] at framed
      exact ⟨fun arrives => absurd arrives (arrives_refused wellFormed framed),
        fun both => absurd again (both.2.2 given.1 given.2.1 given.2.2).2⟩
    · rw [if_neg again, Option.bind_some] at framed
      have taken : Framing.fields ⟨len, false, false⟩
          [(octets "Transfer-Encoding", octets "chunked")] = some ⟨0, false, true⟩ := by
        rfl
      rw [arrives_complete wellFormed (framed.trans taken) (stateBehind_bodiless none)]
      cases chunked : (writePreparation msg' w₀ ({} : WriteStream)).chunked with
      | true =>
        have bare := (coded.mp chunked).1
        constructor
        · rintro ⟨nothing, _⟩
          rw [sentLast, if_pos rfl] at nothing
          exact absurd (List.append_eq_nil_iff.mp nothing).2 (by decide)
        · exact fun both => absurd bare (both.2.2 given.1 given.2.1 given.2.2).1
      | false =>
        have other : codings msg.fields ≠ [] := by
          intro bare
          rw [coded.mpr ⟨bare, List.mem_singleton.mpr rfl⟩] at chunked
          cases chunked
        rw [sent_plain]
        exact ⟨fun both => ⟨both.1, refused, fun _ _ _ => ⟨other, again⟩⟩, fun both => ⟨both.1, both.1⟩⟩
  · have fields : bodyFields pi msg = [] := by
      unfold bodyFields
      split
      · rfl
      · rename_i stays
        cases length : pi.content_length with
        | some n =>
          dsimp only
          rw [unannounced, if_neg Bool.false_ne_true]
        | none =>
          dsimp only
          rw [if_neg fun recent => given ⟨length, stays, recent⟩]
    rw [fields] at framed coded
    have plain : (writePreparation msg' w₀ ({} : WriteStream)).chunked = false := by
      rw [← Bool.not_eq_true, coded]
      simp
    have taken : ∃ framing, Framing.fields ⟨len, false, false⟩ msg'.fields = some framing := by
      rw [framed]
      split <;> exact ⟨_, rfl⟩
    obtain ⟨framing, taken⟩ := taken
    rw [arrives_complete wellFormed taken (stateBehind_bodiless none), plain, sent_plain]
    exact ⟨fun both => ⟨both.1, refused, fun length stays recent =>
      absurd ⟨length, stays, recent⟩ given⟩, fun both => ⟨both.1, both.1⟩⟩

/-- Where nothing was said of the coding before, what is known comes from what is added. -/
theorem Prepared.framed_added (prior : Prepared pi msg msg') (uncoded : true ∉ codings msg.fields)
    (len : Nat) : Framing.fields ⟨len, false, false⟩ msg'.fields =
      Framing.fields ⟨len, false, false⟩ (bodyFields pi msg) := by
  rw [prior.framed_codings, if_neg fun before => uncoded (List.dropLast_subset _ before),
    if_neg uncoded]
  rfl

/-- Where nothing is added for the body, a request ends with its header, and a response with the stream. -/
theorem arrives_bare (wellFormed : WellFormed msg') (prior : Prepared pi msg msg')
    (uncoded : true ∉ codings msg.fields)
    (allowed : ¬(msg'.is_request = false ∧ bodiless (startStatus msg') = true))
    (nothing : bodyFields pi msg = []) {body : Octets} {closes : Prop} :
    Arrives msg' body closes len x (writeHeader msg' ++ body) ↔
      if msg.is_request = true then body = [] else closes := by
  have framed := prior.framed_added uncoded len
  rw [nothing] at framed
  have state := @stateBehind_allowed msg' ⟨len, false, false⟩ allowed
  rw [← prior.same.1]
  by_cases request : msg'.is_request = true
  · rw [if_pos request, arrives_complete wellFormed framed (by rw [state, if_pos request]; rfl)]
    exact and_self_iff
  · rw [if_neg request]
    exact arrives_toEof wellFormed framed (by rw [state, if_neg request]; rfl)

/-- Where the length is known and the connection stays, the message arrives if its length is read. -/
theorem arrives_length (wellFormed : WellFormed msg') (prior : Prepared pi msg msg')
    (uncoded : true ∉ codings msg.fields)
    (allowed : ¬(msg'.is_request = false ∧ bodiless (startStatus msg') = true))
    (stays : pi.connection_value ≠ some .upgrade) {n : UInt64} (length : pi.content_length = some n)
    {body : Octets} (honest : n.toNat = body.length) {closes : Prop} :
    Arrives msg' body closes len x (writeHeader msg' ++ body) ↔
      body.length < 18446744073709551610 := by
  have framed := prior.framed_added uncoded len
  by_cases announced : announces msg n = true
  · have fields : bodyFields pi msg = [(octets "Content-Length", octets (toString n.toNat))] := by
      rw [bodyFields, if_neg stays, length]
      dsimp only
      rw [if_pos announced]
    have named : isLength (octets "Content-Length") = true := by decide
    have taken : Framing.fields ⟨len, false, false⟩
        [(octets "Content-Length", octets (toString n.toNat))] =
        if n.toNat < 18446744073709551610 then some ⟨n.toNat, true, false⟩ else none := by
      rw [Framing.fields, Framing.field, if_pos named, if_neg (by simp), parseDec_decimal]
      split <;> rfl
    rw [fields, taken] at framed
    rw [← honest]
    by_cases fits : n.toNat < 18446744073709551610
    · rw [if_pos fits] at framed
      refine iff_of_true ?_ fits
      have state := @stateBehind_allowed msg' ⟨n.toNat, true, false⟩ allowed
      rw [if_pos rfl] at state
      by_cases none : body = []
      · have zero : ¬n.toNat > 0 := by
          rw [honest, none]
          exact Nat.lt_irrefl 0
        rw [if_neg zero] at state
        exact (arrives_complete wellFormed framed state).mpr ⟨none, none⟩
      · have some_ : n.toNat > 0 := by
          rw [honest]
          exact List.length_pos_iff.mpr none
        rw [if_pos some_] at state
        exact arrives_sized wellFormed framed state honest none
    · rw [if_neg fits] at framed
      exact iff_of_false (arrives_refused wellFormed framed) fits
  · -- Only a request without a body does not say its length.
    have fields : bodyFields pi msg = [] := by
      rw [bodyFields, if_neg stays, length]
      dsimp only
      rw [if_neg announced]
    have request : msg.is_request = true ∧ n.toNat = 0 := by
      rw [prior.same.1, prior.same.2.1] at allowed
      unfold announces at announced
      unfold Header.is_request startStatus at *
      cases start : msg.start with
      | request method target =>
        rw [start] at announced
        refine ⟨rfl, ?_⟩
        by_contra some_
        refine announced (Bool.or_eq_true_iff.mpr (.inl (decide_eq_true ?_)))
        exact UInt64.lt_iff_toNat_lt.mpr (Nat.pos_of_ne_zero some_)
      | response status reason =>
        rw [start] at announced allowed
        simp only [Bool.not_eq_true', Bool.not_eq_false] at announced
        exact absurd ⟨rfl, announced⟩ allowed
    rw [arrives_bare wellFormed prior uncoded allowed fields, if_pos request.1]
    have none : body = [] := List.eq_nil_of_length_eq_zero (honest.symm.trans request.2)
    rw [none]
    exact iff_of_true rfl (by decide)

/-- Where the coding is added, the message arrives if it had none, and no piece is empty. -/
theorem arrives_added (wellFormed : WellFormed msg') (prior : Prepared pi msg msg')
    (uncoded : true ∉ codings msg.fields)
    (allowed : ¬(msg'.is_request = false ∧ bodiless (startStatus msg') = true))
    (added : bodyFields pi msg = [(octets "Transfer-Encoding", octets "chunked")])
    (fits : ∀ b ∈ pieces, b.flatten.length < 2 ^ 64) {closes : Prop} :
    Arrives msg' pieces.flatten.flatten closes len x (writeHeader msg' ++
        (sentPieces (writePreparation msg' w₀ ({} : WriteStream)).chunked pieces ++
          sentLast (writePreparation msg' w₀ ({} : WriteStream)).chunked)) ↔
      codings msg.fields = [] ∧ ∀ b ∈ pieces, b.flatten ≠ [] := by
  have coded := @Prepared.chunked W msg msg' w₀ pi prior
  have framed := prior.framed_added uncoded len
  rw [added] at framed coded
  have taken : Framing.fields ⟨len, false, false⟩
      [(octets "Transfer-Encoding", octets "chunked")] = some ⟨0, false, true⟩ := by
    rfl
  have state := @stateBehind_allowed msg' ⟨0, false, true⟩ allowed
  cases chunked : (writePreparation msg' w₀ ({} : WriteStream)).chunked with
  | true =>
    have whole : writeHeader msg' ++ (sentPieces true pieces ++ sentLast true) =
        chunkedOctets msg' pieces := rfl
    rw [whole, arrives_chunks wellFormed (framed.trans taken) state fits]
    exact ⟨fun some_ => ⟨(coded.mp chunked).1, some_⟩, And.right⟩
  | false =>
    rw [sent_plain]
    refine iff_of_false (arrives_unchunked wellFormed (framed.trans taken) state) fun both => ?_
    rw [coded.mpr ⟨both.1, List.mem_singleton.mpr rfl⟩] at chunked
    cases chunked

/-- The connection is not closed behind an upgrade. -/
theorem Prepared.stays (prior : Prepared pi msg msg') (upgrades : pi.connection_value = some .upgrade) :
    (writePreparation msg' w₀ ({} : WriteStream)).close = false := by
  have nothing : bodyFields pi msg = [] := by
    rw [bodyFields, if_pos upgrades]
  have asked : connectionFields pi (setFraming pi msg) = [(octets "Connection", octets "upgrade")] := by
    rw [connectionFields, upgrades]
  have recent : ¬msg'.version < 11 := by
    rw [prior.same.2.2]
    exact Nat.not_lt.mpr (prior.upgrades upgrades)
  have value : msg'.fields.value (octets "Connection") = octets "upgrade" := by
    rw [prior.result, nothing, asked]
    dsimp only
    rw [List.append_nil, value_append, prior.noConnection, if_neg Bool.false_ne_true]
    rfl
  have other : tokenExists (octets "upgrade") (octets "close") = false := by decide +kernel
  unfold writePreparation
  dsimp only
  rw [value, other, decide_eq_false recent]
  rfl

/-- A connection of the old version is closed where no length is said. -/
theorem Prepared.closed (prior : Prepared pi msg msg') (nothing : bodyFields pi msg = [])
    (old : ¬11 ≤ msg.version) : (writePreparation msg' w₀ ({} : WriteStream)).close = true := by
  have none : Fields.fieldExists (connectionFields pi (setFraming pi msg))
      (octets "Content-Length") = false := by
    rw [fieldExists_false]
    intro f there
    rw [(connectionFields_spec there).1]
    decide
  have unsized : msg'.fields.fieldExists (octets "Content-Length") = false := by
    rw [prior.result, nothing]
    dsimp only
    rw [List.append_nil, fieldExists_append, prior.noLength, none]
    rfl
  have before : msg'.version < 11 := by
    rw [prior.same.2.2]
    omega
  unfold writePreparation
  dsimp only
  rw [unsized, decide_eq_true before]
  simp

end Cases

/-- What is written of a prepared message delimits itself just where its framing allows it. -/
theorem prepared_delimits_iff (wellFormed : WellFormed msg)
    (prepared : prepareMessage W sized w₀ options msg = .ok msg') (init : W.init w₀ = (w, none))
    (yields : Yields W w pieces last) (fits : ∀ b ∈ pieces, b.flatten.length < 2 ^ 64)
    (honest : ∀ content_length ∈ sized, (content_length w).toNat = pieces.flatten.flatten.length)
    (len x : Nat) : SelfDelimits msg' w₀ pieces.flatten.flatten len x ↔
      Delimitable sized.isSome options msg pieces := by
  obtain ⟨pi, content, value, prior⟩ := prepareMessage_spec init prepared
  have formed := prior.wellFormed wellFormed
  have coded := @Prepared.chunked W msg msg' w₀ pi prior
  obtain ⟨kind, status, version⟩ := prior.same
  have upgrading : Upgrades options ↔ pi.connection_value = some .upgrade := by
    rw [value]
    rfl
  rw [selfDelimits_iff formed init yields fits, Delimitable]
  refine and_congr_right fun _ => ?_
  by_cases none : msg.is_request = false ∧ bodiless (startStatus msg) = true
  · have unsized : sized.isSome = false ↔ pi.content_length = Option.none := by
      rw [content]
      cases sized <;> simp
    rw [if_pos none, arrives_bodiless formed prior (by rw [kind, status]; exact none), unsized,
      upgrading]
  have allowed : ¬(msg'.is_request = false ∧ bodiless (startStatus msg') = true) := by
    rw [kind, status]
    exact none
  have plain : (octets "Transfer-Encoding", octets "chunked") ∉ bodyFields pi msg →
      (writePreparation msg' w₀ ({} : WriteStream)).chunked = false := by
    intro other
    rw [← Bool.not_eq_true, coded]
    exact fun both => other both.2
  rw [if_neg none]
  by_cases before : true ∈ codings msg.fields
  · have unchunked : (writePreparation msg' w₀ ({} : WriteStream)).chunked = false := by
      rw [← Bool.not_eq_true, coded]
      intro both
      rw [both.1] at before
      cases before
    rw [unchunked, sent_plain]
    exact iff_of_false (arrives_coded formed prior before allowed) fun both => both.1 before
  rw [and_iff_right before]
  by_cases upgrades : Upgrades options
  · have nothing : bodyFields pi msg = [] := by
      rw [bodyFields, if_pos (upgrading.mp upgrades)]
    rw [if_pos upgrades, plain (by simp [nothing]), sent_plain,
      arrives_bare formed prior before allowed nothing, prior.stays (upgrading.mp upgrades)]
    by_cases request : msg.is_request = true
    · simp [request]
    · simp [request]
  have stays := upgrading.not.mp upgrades
  rw [if_neg upgrades]
  cases length : sized with
  | some content_length =>
    have known : pi.content_length = some (content_length w) := by
      rw [content, length]
      rfl
    have noChunks : (octets "Transfer-Encoding", octets "chunked") ∉ bodyFields pi msg := by
      have differ : octets "Transfer-Encoding" ≠ octets "Content-Length" := by decide
      rw [bodyFields, if_neg stays, known]
      dsimp only
      split <;> simp [differ]
    rw [plain noChunks, sent_plain, if_pos Option.isSome_some]
    exact arrives_length formed prior before allowed stays known (honest _ length)
  | none =>
    have unknown : pi.content_length = Option.none := by
      rw [content, length]
      rfl
    rw [if_neg (by simp)]
    by_cases recent : 11 ≤ msg.version
    · rw [if_pos recent]
      refine arrives_added formed prior before allowed ?_ fits
      rw [bodyFields, if_neg stays, unknown]
      dsimp only
      rw [if_pos recent]
    · have nothing : bodyFields pi msg = [] := by
        rw [bodyFields, if_neg stays, unknown]
        dsimp only
        rw [if_neg recent]
      rw [if_neg recent, plain (by simp [nothing]), sent_plain,
        arrives_bare formed prior before allowed nothing, prior.closed nothing recent]
      by_cases request : msg.is_request = true
      · simp [request]
      · simp [request]

/-- The size of what a writer with a list of pieces provides. -/
def listLength (pieces : List (List Octets)) : UInt64 := .ofNat pieces.flatten.flatten.length

/-- A request with a body, before it is prepared. -/
def posting : Header where
  version := 11
  start := .request (octets "POST") (octets "/")
  fields := [(octets "Host", octets "a")]

/-- A request whose length is known is prepared with it, and delimits itself. -/
theorem prepared_delimits_request : ∃ msg, prepareMessage listWriter (some listLength)
    [[octets "ab"], [octets "c"]] [.keep_alive] posting = .ok msg ∧
    SelfDelimits (W := listWriter) msg [[octets "ab"], [octets "c"]] (octets "abc") 0 0 := by
  have formed : WellFormed posting := by
    refine ⟨.inr rfl, ⟨by decide +kernel, by decide, by decide +kernel⟩, fun field there => ?_⟩
    obtain rfl := List.mem_singleton.mp there
    exact ⟨by decide +kernel, by decide +kernel, by decide +kernel, by decide +kernel⟩
  have provided : Yields listWriter [[octets "ab"], [octets "c"]] [[octets "ab"], [octets "c"]] true :=
    .more rfl (.with_last rfl)
  have prepared : prepareMessage listWriter (some listLength) [[octets "ab"], [octets "c"]]
      [.keep_alive] posting = .ok { posting with
        fields := posting.fields ++ [(octets "Content-Length", octets "3")] } := rfl
  refine ⟨_, prepared, ?_⟩
  exact (prepared_delimits_iff formed prepared rfl provided (by decide)
    (fun _ same => by cases same; rfl) 0 0).mpr ⟨by decide, by decide +kernel⟩

/-- A response that has no body by its status. -/
def notModified : Header where
  version := 11
  start := .response 304 (octets "Not Modified")
  fields := []

/-- A response without a body by its status is sent with chunks all the same. -/
theorem prepared_does_not_delimit :
    ¬∀ (W : BodyWriter) (sized : Option (W.State → UInt64)) (options : List Connection)
      (msg msg' : Header) (w₀ w : W.State) (pieces : List (List Octets)) (last : Bool) (len x : Nat),
      WellFormed msg → prepareMessage W sized w₀ options msg = .ok msg' → W.init w₀ = (w, none) →
      Yields W w pieces last → (∀ b ∈ pieces, b.flatten.length < 2 ^ 64) →
      (∀ content_length ∈ sized, (content_length w).toNat = pieces.flatten.flatten.length) →
      SelfDelimits msg' w₀ pieces.flatten.flatten len x := by
  intro delimits
  have formed : WellFormed notModified := ⟨.inr rfl, ⟨by decide, by decide, by decide +kernel⟩, nofun⟩
  obtain ⟨r, t, writes, o, fed, _⟩ := delimits listWriter none [] notModified
    { notModified with fields := [(octets "Transfer-Encoding", octets "chunked")] } [[octets "ab"]]
    [[octets "ab"]] [[octets "ab"]] true 0 0 formed rfl rfl (.with_last rfl) (by decide) nofun
  obtain ⟨⟨r', v⟩, ends, written⟩ := @Machine.ends_of_iterate _ _ (stepOf (writeMessage (W := listWriter)))
    10 (.inl (.init, writePreparation
      { notModified with fields := [(octets "Transfer-Encoding", octets "chunked")] } [[octets "ab"]] {}))
    (fun r => r.2.stream.written == octets
      "HTTP/1.1 304 Not Modified\r\nTransfer-Encoding: chunked\r\n\r\n2\r\nab\r\n0\r\n\r\n")
    (by decide +kernel)
  rw [congrArg (fun r => r.2.stream.written) (writes.unique ends), eq_of_beq written] at fed
  have used := congrArg Prod.fst fed
  dsimp only at used
  exact absurd used (by decide +kernel)

end Beast.Http
