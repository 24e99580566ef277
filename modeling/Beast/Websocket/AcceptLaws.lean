import Mathlib.Tactic.IntervalCases
import Beast.Http.Rfc7230Laws
import Beast.Websocket.Accept
import Beast.Websocket.Stored

/-! Whether the two sides of a handshake end up with the same compression parameters. -/

namespace Beast.Websocket

open Http

variable {lib : Lib}

/-- Compression parameters that both sides of a session must share. -/
structure PmdParams where
  server_max_window_bits : Int
  client_max_window_bits : Int
  server_no_context_takeover : Bool
  client_no_context_takeover : Bool
  deriving DecidableEq, Repr

/-- The parameters that an accepted offer stands for. -/
def PmdOffer.params (offer : PmdOffer) : PmdParams :=
  { server_max_window_bits := offer.server_max_window_bits
    client_max_window_bits := offer.client_max_window_bits
    server_no_context_takeover := offer.server_no_context_takeover
    client_no_context_takeover := offer.client_no_context_takeover }

/-- What a client obtains from the fields of a response. -/
def clientObtains (fields : Fields) : Option PmdParams :=
  let config := pmdNormalize (pmdRead fields)
  if config.accept then some config.params else none

/-- What a server runs with: the windows of its streams, and the flags its readers and writers test. -/
def runsWith (ws : StreamBase lib) : Option PmdParams :=
  ws.pmd_.map fun pmd =>
    { server_max_window_bits := pmd.zo.w_bits_
      client_max_window_bits := pmd.zi.windowBits
      server_no_context_takeover := ws.pmd_config_.server_no_context_takeover
      client_no_context_takeover := ws.pmd_config_.client_no_context_takeover }

/-- An offer whose window bits are absent or in range. -/
structure PmdOffer.InRange (offer : PmdOffer) : Prop where
  server : offer.server_max_window_bits = 0 ∨
    8 ≤ offer.server_max_window_bits ∧ offer.server_max_window_bits ≤ 15
  client : offer.client_max_window_bits = -1 ∨ offer.client_max_window_bits = 0 ∨
    8 ≤ offer.client_max_window_bits ∧ offer.client_max_window_bits ≤ 15

/-- What a parameter that is taken does to an offer. -/
theorem pmdParam_cases {offer next : PmdOffer} {param : Param}
    (taken : pmdParam offer param = .ok next) :
    (∃ bits, (8 ≤ bits ∧ bits ≤ 15) ∧ next = { offer with server_max_window_bits := bits }) ∨
    (∃ bits, (bits = -1 ∨ 8 ≤ bits ∧ bits ≤ 15) ∧
      next = { offer with client_max_window_bits := bits }) ∨
    next = { offer with server_no_context_takeover := true } ∨
    next = { offer with client_no_context_takeover := true } := by
  unfold pmdParam at taken
  dsimp only at taken
  have bounds : ∀ {bits : Int}, ¬(decide (bits < 8) || decide (bits > 15)) = true →
      8 ≤ bits ∧ bits ≤ 15 := by
    intro bits inside
    simp only [Bool.or_eq_true, decide_eq_true_eq, not_or] at inside
    omega
  -- Declining is no way to take a parameter, which leaves one branch for each name and value.
  repeat' split at taken
  all_goals cases taken
  · exact Or.inl ⟨_, bounds ‹_›, rfl⟩
  · exact Or.inr (Or.inl ⟨_, Or.inr (bounds ‹_›), rfl⟩)
  · exact Or.inr (Or.inl ⟨_, Or.inl rfl, rfl⟩)
  · exact Or.inr (Or.inr (Or.inl rfl))
  · exact Or.inr (Or.inr (Or.inr rfl))

/-- A parameter that is taken keeps an offer in range, and does not yet accept it. -/
theorem pmdParam_inRange {offer next : PmdOffer} {param : Param} (range : offer.InRange)
    (taken : pmdParam offer param = .ok next) : next.InRange ∧ next.accept = offer.accept := by
  obtain ⟨server, client⟩ := range
  rcases pmdParam_cases taken with ⟨bits, inside, rfl⟩ | ⟨bits, inside, rfl⟩ | rfl | rfl
  · exact ⟨⟨Or.inr inside, client⟩, rfl⟩
  · exact ⟨⟨server, by dsimp only; omega⟩, rfl⟩
  · exact ⟨⟨server, client⟩, rfl⟩
  · exact ⟨⟨server, client⟩, rfl⟩

/-- A parameter that makes the reader decline leaves the offer unaccepted. -/
theorem pmdParam_declines {offer next : PmdOffer} {param : Param}
    (declined : pmdParam offer param = .error next) : next.accept = offer.accept := by
  unfold pmdParam at declined
  dsimp only at declined
  -- Whatever it declines for, it leaves the mark of acceptance as it was.
  repeat' split at declined
  all_goals cases declined
  all_goals rfl

/-- Parameters that lead to acceptance lead to an offer in range. -/
theorem pmdParams_inRange {params : List Param} {offer : PmdOffer} (range : offer.InRange)
    (open_ : offer.accept = false) (accepted : (pmdParams offer params).accept = true) :
    (pmdParams offer params).InRange := by
  -- The induction is on the parameters, and carries the offer read so far.
  induction params generalizing offer with
  | nil => exact ⟨range.server, range.client⟩
  | cons param params ih =>
    simp only [pmdParams] at accepted ⊢
    cases taken : pmdParam offer param with
    | error next =>
      simp only [taken] at accepted
      -- Reading stops unaccepted at a parameter that is declined.
      rw [pmdParam_declines taken, open_] at accepted
      exact absurd accepted (by simp)
    | ok next =>
      simp only [taken] at accepted
      obtain ⟨inside, same⟩ := pmdParam_inRange range taken
      exact ih inside (same.trans open_) accepted

/-- An offer that was read and accepted is in range. -/
theorem pmdRead_inRange {fields : Fields} (accepted : (pmdRead fields).accept = true) :
    (pmdRead fields).InRange := by
  unfold pmdRead at accepted ⊢
  split at accepted
  · exact absurd accepted (by simp)
  · exact pmdParams_inRange ⟨Or.inl rfl, Or.inr (Or.inl rfl)⟩ rfl accepted

/-- A parameter without a value, where it is to be written. -/
def takeoverParam (name : String) (wanted : Bool) : List Param :=
  if wanted then [(octets name, [])] else []

/-- A parameter that limits a window, where it is to be written. -/
def bitsParam (name : String) (bits : Int) (written : Bool) : List Param :=
  if written then [(octets name, bitsText bits)] else []

/-- Numbers of window bits are written as tokens, and read back as they were. -/
theorem bitsText_spec {bits : Int} (lower : 8 ≤ bits) (upper : bits ≤ 15) :
    IsToken (bitsText bits) ∧ parseBits (bitsText bits) = bits := by
  -- There are eight numbers.
  interval_cases bits <;> decide +kernel

/-- Whether an offer is granted under the server's options. -/
def granted (offer : PmdOffer) (o : PermessageDeflate) : Bool :=
  offer.accept && o.server_enable &&
    (offer.client_max_window_bits != 0 || o.client_max_window_bits == 15)

/-- The parameters that an offer and the server's options lead to. -/
def agreed (offer : PmdOffer) (o : PermessageDeflate) : PmdParams :=
  { server_max_window_bits :=
      if offer.server_max_window_bits = 0 then o.server_max_window_bits
      else max 9 (min offer.server_max_window_bits o.server_max_window_bits)
    client_max_window_bits :=
      if offer.client_max_window_bits = 0 ∨ offer.client_max_window_bits = -1 then
        o.client_max_window_bits
      else min o.client_max_window_bits offer.client_max_window_bits
    server_no_context_takeover :=
      offer.server_no_context_takeover || o.server_no_context_takeover
    client_no_context_takeover :=
      o.client_no_context_takeover || offer.client_no_context_takeover }

/-- Whether the response names a limit for the client's window. -/
def clientWritten (offer : PmdOffer) (o : PermessageDeflate) : Bool :=
  if offer.client_max_window_bits = -1 then o.client_max_window_bits < 15
  else offer.client_max_window_bits != 0

/-- The parameters that the response spells out. -/
def grantedParams (offer : PmdOffer) (o : PermessageDeflate) : List Param :=
  let result := agreed offer o
  takeoverParam "server_no_context_takeover" result.server_no_context_takeover ++
    takeoverParam "client_no_context_takeover" result.client_no_context_takeover ++
    bitsParam "server_max_window_bits" result.server_max_window_bits
      (result.server_max_window_bits < 15) ++
    bitsParam "client_max_window_bits" result.client_max_window_bits (clientWritten offer o)

/-- The windows agreed on are in range. -/
theorem agreed_range {offer : PmdOffer} {o : PermessageDeflate} (range : offer.InRange) :
    (9 ≤ (agreed offer o).server_max_window_bits ∧
      (agreed offer o).server_max_window_bits ≤ 15) ∧
    8 ≤ (agreed offer o).client_max_window_bits ∧
      (agreed offer o).client_max_window_bits ≤ 15 := by
  obtain ⟨server, client⟩ := range
  -- The options of the server are in range by construction.
  have windows := o.server_window
  have windows' := o.client_window
  simp only [agreed]
  constructor
  · split <;> omega
  · split <;> omega

/-- The text of a parameter without a value. -/
theorem render_takeover (name : String) (wanted : Bool) :
    (takeoverParam name wanted).flatMap renderParam =
      if wanted then octets "; " ++ octets name else [] := by
  cases wanted <;> simp [takeoverParam, renderParam]

/-- The text of a parameter that limits a window. -/
theorem render_bits (name : String) {bits : Int} {written : Bool}
    (inside : written = true → 8 ≤ bits ∧ bits ≤ 15) :
    (bitsParam name bits written).flatMap renderParam =
      if written then octets "; " ++ octets name ++ octets "=" ++ bitsText bits else [] := by
  cases written with
  | false => rfl
  | true =>
    have bare : bitsText bits ≠ [] := (bitsText_spec (inside rfl).1 (inside rfl).2).1.1
    simp [bitsParam, renderParam, bare]

/-- The text of the parameters granted, as the source puts it together. -/
theorem render_granted {offer : PmdOffer} (o : PermessageDeflate) (range : offer.InRange) :
    renderExt (octets "permessage-deflate") (grantedParams offer o) =
      octets "permessage-deflate" ++
        (if (agreed offer o).server_no_context_takeover then
          octets "; server_no_context_takeover" else []) ++
        (if (agreed offer o).client_no_context_takeover then
          octets "; client_no_context_takeover" else []) ++
        (if (agreed offer o).server_max_window_bits < 15 then
          octets "; server_max_window_bits=" ++
            bitsText (agreed offer o).server_max_window_bits else []) ++
        (if clientWritten offer o then
          octets "; client_max_window_bits=" ++
            bitsText (agreed offer o).client_max_window_bits else []) := by
  obtain ⟨server, client⟩ := @agreed_range offer o range
  -- The literals of the source are the rendered names.
  have text1 : octets "; server_no_context_takeover" =
      octets "; " ++ octets "server_no_context_takeover" := by simp [octets]
  have text2 : octets "; client_no_context_takeover" =
      octets "; " ++ octets "client_no_context_takeover" := by simp [octets]
  have text3 : octets "; server_max_window_bits=" =
      octets "; " ++ octets "server_max_window_bits" ++ octets "=" := by simp [octets]
  have text4 : octets "; client_max_window_bits=" =
      octets "; " ++ octets "client_max_window_bits" ++ octets "=" := by simp [octets]
  simp only [renderExt, grantedParams, List.flatMap_append, render_takeover,
    render_bits "server_max_window_bits" (fun _ => ⟨by omega, server.2⟩),
    render_bits "client_max_window_bits" (fun _ => client), text1, text2, text3, text4,
    decide_eq_true_eq, List.append_assoc]

/-- The response to an offer in range carries what is granted, as plain parameters. -/
theorem pmdNegotiate_fields {fields : Fields} {config offer : PmdOffer} {o : PermessageDeflate}
    (range : offer.accept = true → offer.InRange) :
    (pmdNegotiate fields config offer o).1 =
      if granted offer o then
        fields.replace extensionsField
          (renderExt (octets "permessage-deflate") (grantedParams offer o))
      else fields := by
  unfold pmdNegotiate granted
  by_cases enabled : (offer.accept && o.server_enable) = true
  swap
  · simp [enabled]
  have accepted : offer.accept = true := by
    simp only [Bool.and_eq_true] at enabled
    exact enabled.1
  have windows := o.server_window
  have windows' := o.client_window
  obtain ⟨inside, inside'⟩ := range accepted
  -- The window for the server, raised from 8 to 9 as the source raises it.
  have serverBits : ∀ bits, bits = (if (offer.server_max_window_bits != 0) = true then
      min offer.server_max_window_bits o.server_max_window_bits
      else o.server_max_window_bits) →
      (if (decide (bits < 15) && decide (bits < 9)) = true then 9 else bits) =
        (agreed offer o).server_max_window_bits := by
    intro bits same
    simp only [agreed, Bool.and_eq_true, decide_eq_true_eq, bne_iff_ne] at same ⊢
    split at same <;> (repeat' split) <;> omega
  rw [render_granted o (range accepted)]
  simp only [enabled, Bool.not_true, Bool.false_eq_true, ↓reduceIte, Bool.true_and,
    serverBits _ rfl]
  -- One case for each way of naming the client's window.
  by_cases bare : offer.client_max_window_bits = -1
  · simp [bare, agreed, clientWritten]
  by_cases absent : offer.client_max_window_bits = 0
  · by_cases full : o.client_max_window_bits = 15 <;>
      simp [absent, full, agreed, clientWritten]
  · simp [bare, absent, agreed, clientWritten]

/-- Reading on from a parameter without a value that the offer does not have yet. -/
theorem pmdParams_server_takeover {offer : PmdOffer} (wanted : Bool) (rest : List Param)
    (fresh : offer.server_no_context_takeover = false) :
    pmdParams offer (takeoverParam "server_no_context_takeover" wanted ++ rest) =
      pmdParams { offer with server_no_context_takeover := wanted } rest := by
  -- No other parameter has the name.
  have names : ciEqual (octets "server_no_context_takeover") (octets "server_max_window_bits") =
        false ∧
      ciEqual (octets "server_no_context_takeover") (octets "client_max_window_bits") =
        false := by decide
  cases wanted with
  | false =>
    cases offer
    cases fresh
    rfl
  | true => simp [takeoverParam, pmdParams, pmdParam, names.1, names.2, fresh]

/-- Reading on from a parameter without a value that the offer does not have yet. -/
theorem pmdParams_client_takeover {offer : PmdOffer} (wanted : Bool) (rest : List Param)
    (fresh : offer.client_no_context_takeover = false) :
    pmdParams offer (takeoverParam "client_no_context_takeover" wanted ++ rest) =
      pmdParams { offer with client_no_context_takeover := wanted } rest := by
  -- No other parameter has the name.
  have names : ciEqual (octets "client_no_context_takeover") (octets "server_max_window_bits") =
        false ∧
      ciEqual (octets "client_no_context_takeover") (octets "client_max_window_bits") =
        false ∧
      ciEqual (octets "client_no_context_takeover") (octets "server_no_context_takeover") =
        false := by decide
  cases wanted with
  | false =>
    cases offer
    cases fresh
    rfl
  | true => simp [takeoverParam, pmdParams, pmdParam, names.1, names.2.1, names.2.2, fresh]

/-- Reading on from a limit for the server's window. -/
theorem pmdParams_server_bits {offer : PmdOffer} {bits : Int} (written : Bool)
    (rest : List Param) (fresh : offer.server_max_window_bits = 0)
    (inside : written = true → 8 ≤ bits ∧ bits ≤ 15) :
    pmdParams offer (bitsParam "server_max_window_bits" bits written ++ rest) =
      pmdParams { offer with server_max_window_bits := if written then bits else 0 } rest := by
  cases written with
  | false =>
    cases offer
    cases fresh
    rfl
  | true =>
    obtain ⟨lower, upper⟩ := inside rfl
    -- The number is read back as it was written.
    obtain ⟨token, value⟩ := bitsText_spec lower upper
    have small : ¬bits < 8 := by omega
    have large : ¬15 < bits := by omega
    simp [bitsParam, pmdParams, pmdParam, fresh, value, token.1, small, large]

/-- Reading on from a limit for the client's window. -/
theorem pmdParams_client_bits {offer : PmdOffer} {bits : Int} (written : Bool)
    (rest : List Param) (fresh : offer.client_max_window_bits = 0)
    (inside : written = true → 8 ≤ bits ∧ bits ≤ 15) :
    pmdParams offer (bitsParam "client_max_window_bits" bits written ++ rest) =
      pmdParams { offer with client_max_window_bits := if written then bits else 0 } rest := by
  -- No other parameter has the name.
  have names : ciEqual (octets "client_max_window_bits") (octets "server_max_window_bits") =
      false := by decide
  cases written with
  | false =>
    cases offer
    cases fresh
    rfl
  | true =>
    obtain ⟨lower, upper⟩ := inside rfl
    obtain ⟨token, value⟩ := bitsText_spec lower upper
    have small : ¬bits < 8 := by omega
    have large : ¬15 < bits := by omega
    simp [bitsParam, pmdParams, pmdParam, names, fresh, value, token.1, small, large]

/-- What the response spells out is what was agreed, once the rest is normalized. -/
theorem normalize_grantedParams {offer : PmdOffer} {o : PermessageDeflate}
    (range : offer.InRange)
    (kept : offer.client_max_window_bits ≠ 0 ∨ o.client_max_window_bits = 15) :
    pmdNormalize (pmdParams {} (grantedParams offer o)) =
      { accept := true
        server_max_window_bits := (agreed offer o).server_max_window_bits
        client_max_window_bits := (agreed offer o).client_max_window_bits
        server_no_context_takeover := (agreed offer o).server_no_context_takeover
        client_no_context_takeover := (agreed offer o).client_no_context_takeover } := by
  obtain ⟨server, client⟩ := @agreed_range offer o range
  have windows := o.client_window
  rw [grantedParams, List.append_assoc, List.append_assoc, pmdParams_server_takeover _ _ rfl,
    pmdParams_client_takeover _ _ rfl,
    pmdParams_server_bits _ _ rfl (fun _ => ⟨by omega, server.2⟩),
    ← List.append_nil (bitsParam _ _ _),
    pmdParams_client_bits _ _ rfl (fun _ => client)]
  -- A window that is not written is one of 15 bits.
  have default : clientWritten offer o = false →
      (agreed offer o).client_max_window_bits = 15 := by
    intro silent
    simp only [clientWritten, agreed] at silent ⊢
    split at silent
    · simp only [decide_eq_false_iff_not] at silent
      rw [if_pos (by omega)]
      omega
    · have absent : offer.client_max_window_bits = 0 := by simpa using silent
      rw [if_pos (Or.inl absent)]
      omega
  simp only [pmdParams, pmdNormalize, ↓reduceIte, PmdOffer.mk.injEq, true_and, and_true,
    decide_eq_true_eq, beq_iff_eq, Bool.or_eq_true]
  constructor
  · split <;> split at * <;> omega
  · cases written : clientWritten offer o with
    | false => simp [default written]
    | true =>
      simp only [↓reduceIte]
      rw [if_neg (by omega)]

/-- Parameters that are granted are plain ones. -/
theorem grantedParams_plain {offer : PmdOffer} {o : PermessageDeflate} (range : offer.InRange) :
    ∀ p ∈ grantedParams offer o, Plain p := by
  obtain ⟨server, client⟩ := @agreed_range offer o range
  have names : IsToken (octets "server_no_context_takeover") ∧
      IsToken (octets "client_no_context_takeover") ∧
      IsToken (octets "server_max_window_bits") ∧
      IsToken (octets "client_max_window_bits") := by decide +kernel
  -- Each of the four is a name alone, or a name and a number.
  have takeover : ∀ {name wanted}, IsToken (octets name) →
      ∀ p ∈ takeoverParam name wanted, Plain p := by
    intro name wanted token p inside
    cases wanted with
    | false => simp [takeoverParam] at inside
    | true =>
      obtain rfl : p = (octets name, []) := by simpa [takeoverParam] using inside
      exact ⟨token, Or.inl rfl⟩
  have limit : ∀ {name bits written}, IsToken (octets name) → 8 ≤ bits → bits ≤ 15 →
      ∀ p ∈ bitsParam name bits written, Plain p := by
    intro name bits written token lower upper p inside
    cases written with
    | false => simp [bitsParam] at inside
    | true =>
      obtain rfl : p = (octets name, bitsText bits) := by simpa [bitsParam] using inside
      exact ⟨token, Or.inr (bitsText_spec lower upper).1⟩
  intro p inside
  simp only [grantedParams, List.mem_append] at inside
  rcases inside with ((inside | inside) | inside) | inside
  · exact takeover names.1 p inside
  · exact takeover names.2.1 p inside
  · exact limit names.2.2.1 (by omega) server.2 p inside
  · exact limit names.2.2.2 client.1 client.2 p inside

/-- Naming the server leaves the status and the extensions of a response alone. -/
theorem decorate_default (res : ResponseMessage) :
    (decorate defaultDecorateRes res).status = res.status ∧
      (decorate defaultDecorateRes res).fields.value extensionsField =
        res.fields.value extensionsField := by
  -- The field that is set has another name.
  have other : ciEqual (octets "Server") extensionsField = false := by decide
  unfold decorate defaultDecorateRes
  dsimp only
  split
  · exact ⟨rfl, Fields.value_insert_other other⟩
  · exact ⟨rfl, rfl⟩

/-- Announcing a length leaves the status of a response alone. -/
theorem prepare_status (msg : ResponseMessage) : (prepare msg).status = msg.status := by
  unfold prepare
  dsimp only
  split <;> rfl

/-- A request is refused, or the response to it is made from what was negotiated. -/
theorem buildResponse_cases {makeSecWsAccept : Octets → Octets} {o : PermessageDeflate}
    {req : RequestHeader} {decorator : ResponseMessage → ResponseMessage} {res : ResponseMessage}
    (made : buildResponse makeSecWsAccept o req decorator = res) :
    (∃ text, errResponse req decorator text = res) ∨ versionResponse req decorator = res ∨
    ∃ key, decorate decorator
      { status := 101
        version := req.version
        fields := (((pmdNegotiate [] {} (pmdRead req.fields) o).1.insert
          (octets "Upgrade") (octets "websocket")).insert
          (octets "Connection") (octets "upgrade")).insert
          (octets "Sec-WebSocket-Accept") (makeSecWsAccept key) } = res := by
  unfold buildResponse at made
  dsimp only at made
  -- Eight checks refuse the request with a text, and the ninth tells of the version.
  iterate 8
    rcases ite_eq_iff.mp made with ⟨-, refusal⟩ | ⟨-, made⟩
    · exact .inl ⟨_, refusal⟩
  rcases ite_eq_iff.mp made with ⟨-, outdated⟩ | ⟨-, made⟩
  · exact .inr (.inl outdated)
  · exact .inr (.inr ⟨_, made⟩)

/-- A response that switches protocols carries exactly what was negotiated. -/
theorem buildResponse_value {makeSecWsAccept : Octets → Octets} {o : PermessageDeflate}
    {req : RequestHeader}
    (accepted : (buildResponse makeSecWsAccept o req defaultDecorateRes).status = 101) :
    (buildResponse makeSecWsAccept o req defaultDecorateRes).fields.value extensionsField =
      Fields.value (pmdNegotiate [] {} (pmdRead req.fields) o).1 extensionsField := by
  have others : ciEqual (octets "Upgrade") extensionsField = false ∧
      ciEqual (octets "Connection") extensionsField = false ∧
      ciEqual (octets "Sec-WebSocket-Accept") extensionsField = false := by decide +kernel
  generalize made : buildResponse makeSecWsAccept o req defaultDecorateRes = res at accepted ⊢
  -- Every refusal has another status, so only the last case is left.
  rcases buildResponse_cases made with ⟨text, rfl⟩ | rfl | ⟨key, rfl⟩
  · rw [errResponse, (decorate_default _).1, prepare_status] at accepted
    cases accepted
  · rw [versionResponse, (decorate_default _).1, prepare_status] at accepted
    cases accepted
  · rw [(decorate_default _).2]
    simp only [Fields.value_insert_other others.1, Fields.value_insert_other others.2.1,
      Fields.value_insert_other others.2.2]

/-- What a client obtains from an accepting response is what was agreed, if anything was granted. -/
theorem clientObtains_eq {makeSecWsAccept : Octets → Octets} {o : PermessageDeflate}
    {req : RequestHeader}
    (accepted : (buildResponse makeSecWsAccept o req defaultDecorateRes).status = 101) :
    pmdNormalize
        (pmdRead (buildResponse makeSecWsAccept o req defaultDecorateRes).fields) =
      if granted (pmdRead req.fields) o then
        { accept := true
          server_max_window_bits := (agreed (pmdRead req.fields) o).server_max_window_bits
          client_max_window_bits := (agreed (pmdRead req.fields) o).client_max_window_bits
          server_no_context_takeover :=
            (agreed (pmdRead req.fields) o).server_no_context_takeover
          client_no_context_takeover :=
            (agreed (pmdRead req.fields) o).client_no_context_takeover }
      else {} := by
  rw [pmdRead, buildResponse_value accepted, pmdNegotiate_fields pmdRead_inRange]
  by_cases given : granted (pmdRead req.fields) o = true
  · -- The field just set is read back parameter by parameter.
    have offered : (pmdRead req.fields).accept = true := by
      simp only [granted, Bool.and_eq_true] at given
      exact given.1.1
    have range := pmdRead_inRange offered
    have named : IsToken (octets "permessage-deflate") := by decide +kernel
    have plain := @grantedParams_plain _ o range
    have kept : (pmdRead req.fields).client_max_window_bits ≠ 0 ∨
        o.client_max_window_bits = 15 := by
      simp only [granted, Bool.and_eq_true, Bool.or_eq_true, bne_iff_ne, beq_iff_eq] at given
      exact given.2
    rw [if_pos given, if_pos given, Fields.value_replace, trim_renderExt named plain,
      extList_renderExt named plain]
    simpa using normalize_grantedParams range kept
  · rw [if_neg given, if_neg given]
    rfl

/-- The two ways in which a server accepts a request. -/
inductive AcceptPath
  | sync | async
  deriving DecidableEq, Repr

/-- Accepts a request in one of the two ways. -/
def acceptBy (path : AcceptPath) (makeSecWsAccept : Octets → Octets) (ws : StreamBase lib)
    (req : RequestHeader) (written : Option ErrorCode) :
    ResponseMessage × Option ErrorCode × StreamBase lib :=
  match path with
  | .sync => accept makeSecWsAccept ws req written
  | .async => asyncAccept makeSecWsAccept ws req written

/-- The server asks for nothing that an accepted offer does not already promise. -/
def OfferSuffices (offer : PmdOffer) (o : PermessageDeflate) : Prop :=
  (pmdNormalize offer).server_max_window_bits ≤ o.server_max_window_bits ∧
  (pmdNormalize offer).client_max_window_bits ≤ o.client_max_window_bits ∧
  (o.server_no_context_takeover = true → offer.server_no_context_takeover = true) ∧
  (o.client_no_context_takeover = true → offer.client_no_context_takeover = true)

/--
When accepting leaves both sides with the same parameters.

The asynchronous form needs a grant, or a stream without the compression of an earlier session.
The synchronous form runs with the offer itself, so the offer must already be what is granted.
-/
def Agrees (path : AcceptPath) (ws : StreamBase lib) (req : RequestHeader) : Prop :=
  let offer := pmdRead req.fields
  let o := ws.pmd_opts_
  match path with
  | .async => granted offer o = true ∨ ws.pmd_ = none
  | .sync =>
    if offer.accept = true ∧ o.server_enable = true then OfferSuffices offer o
    else ws.pmd_ = none

/-- What a server runs with once it opens a session. -/
theorem runsWith_open (ws : StreamBase lib) :
    runsWith (ws.open_ .server) =
      if ws.pmd_opts_.server_enable = true ∧ ws.pmd_config_.accept = true then
        some { (pmdNormalize ws.pmd_config_).params with
          server_max_window_bits :=
            if (pmdNormalize ws.pmd_config_).server_max_window_bits = 8 then 9
            else (pmdNormalize ws.pmd_config_).server_max_window_bits }
      else runsWith ws := by
  by_cases engaged : ws.pmd_opts_.server_enable = true ∧ ws.pmd_config_.accept = true
  · simp [runsWith, StreamBase.open_, engaged, PmdOffer.params, InflateStream.reset,
      DeflateStream.reset]
  · rw [if_neg engaged]
    simp [runsWith, StreamBase.open_, engaged]

/-- A server runs with no parameters exactly when its session has no compression. -/
theorem runsWith_eq_none {ws : StreamBase lib} : runsWith ws = none ↔ ws.pmd_ = none := by
  simp [runsWith]

/-- Normalizing neither accepts an offer nor declines it. -/
theorem pmdNormalize_accept (offer : PmdOffer) : (pmdNormalize offer).accept = offer.accept := by
  unfold pmdNormalize
  split <;> rfl

/-- A request that is accepted gets a switching response, and opens on what the path reads. -/
theorem acceptBy_accepted {path : AcceptPath} {makeSecWsAccept : Octets → Octets}
    {ws : StreamBase lib} {req : RequestHeader} {written : Option ErrorCode}
    (accepted : (acceptBy path makeSecWsAccept ws req written).2.1 = none) :
    let res := buildResponse makeSecWsAccept ws.pmd_opts_ req defaultDecorateRes
    res.status = 101 ∧ (acceptBy path makeSecWsAccept ws req written).1 = res ∧
      (acceptBy path makeSecWsAccept ws req written).2.2 =
        StreamBase.open_ { ws.reset with
          pmd_config_ := match path with
            | .sync => pmdRead req.fields
            | .async => pmdRead res.fields } .server := by
  have opts : ws.reset.pmd_opts_ = ws.pmd_opts_ := rfl
  cases path with
  | sync =>
    simp only [acceptBy, accept, doAccept, opts] at accepted ⊢
    cases written with
    | some ec => simp at accepted
    | none =>
      dsimp only at accepted ⊢
      split at accepted
      · simp at accepted
      · rename_i switching
        simp only [bne_iff_ne, ne_eq, not_not] at switching
        simp [switching]
  | async =>
    simp only [acceptBy, asyncAccept, responseOp, opts] at accepted ⊢
    cases written with
    | some ec => simp at accepted
    | none =>
      dsimp only at accepted ⊢
      split at accepted
      · simp at accepted
      · rename_i switching
        simp only [bne_iff_ne, ne_eq, not_not] at switching
        simp [switching]

/-- An offer that is granted or not, against what it was itself: when the two are the same. -/
theorem offer_agreed_iff {offer : PmdOffer} {o : PermessageDeflate} (range : offer.InRange)
    (offered : offer.accept = true) (enabled : o.server_enable = true) :
    (some { (pmdNormalize offer).params with
        server_max_window_bits :=
          if (pmdNormalize offer).server_max_window_bits = 8 then 9
          else (pmdNormalize offer).server_max_window_bits } =
      if granted offer o then some (agreed offer o) else none) ↔ OfferSuffices offer o := by
  obtain ⟨server, client⟩ := range
  have windows := o.server_window
  have windows' := o.client_window
  -- Only an absent limit for the client's window can keep the offer from being granted.
  by_cases given : granted offer o = true
  · have kept : offer.client_max_window_bits ≠ 0 ∨ o.client_max_window_bits = 15 := by
      simp only [granted, Bool.and_eq_true, Bool.or_eq_true, bne_iff_ne, beq_iff_eq] at given
      exact given.2
    have flags : ∀ a b : Bool, (a = (a || b)) ↔ (b = true → a = true) := by decide
    have flags' : ∀ a b : Bool, (a = (b || a)) ↔ (b = true → a = true) := by decide
    rw [if_pos given]
    simp only [Option.some.injEq, PmdParams.mk.injEq, OfferSuffices, agreed, PmdOffer.params,
      pmdNormalize, offered, ↓reduceIte, flags, flags', beq_iff_eq, Bool.or_eq_true]
    refine and_congr ?_ (and_congr ?_ Iff.rfl)
    · split <;> split <;> omega
    · split <;> omega
  · have absent : offer.client_max_window_bits = 0 ∧ o.client_max_window_bits ≠ 15 := by
      simpa [granted, offered, enabled] using given
    rw [if_neg given]
    simp only [reduceCtorEq, false_iff, OfferSuffices, not_and, pmdNormalize, offered,
      ↓reduceIte, absent.1, beq_self_eq_true, Bool.true_or]
    omega

/-- After an accepted request, both sides have the same parameters exactly in these cases. -/
theorem accept_agrees_iff {path : AcceptPath} {makeSecWsAccept : Octets → Octets}
    {ws : StreamBase lib} {req : RequestHeader} {written : Option ErrorCode}
    (accepted : (acceptBy path makeSecWsAccept ws req written).2.1 = none) :
    runsWith (acceptBy path makeSecWsAccept ws req written).2.2 =
        clientObtains (acceptBy path makeSecWsAccept ws req written).1.fields ↔
      Agrees path ws req := by
  obtain ⟨switching, response, opened⟩ := acceptBy_accepted accepted
  -- The client's side: what was agreed, where anything was granted.
  have client : clientObtains
      (buildResponse makeSecWsAccept ws.pmd_opts_ req defaultDecorateRes).fields =
        if granted (pmdRead req.fields) ws.pmd_opts_ then
          some (agreed (pmdRead req.fields) ws.pmd_opts_) else none := by
    rw [clientObtains, clientObtains_eq switching]
    split <;> rfl
  rw [response, opened, runsWith_open, client]
  cases path with
  | sync =>
    simp only [Agrees]
    by_cases engaged : (pmdRead req.fields).accept = true ∧ ws.pmd_opts_.server_enable = true
    · -- The server runs with the offer as it was made.
      rw [if_pos ⟨engaged.2, engaged.1⟩, if_pos engaged]
      exact offer_agreed_iff (pmdRead_inRange engaged.1) engaged.1 engaged.2
    · have refused : ¬granted (pmdRead req.fields) ws.pmd_opts_ = true := by
        simp only [granted, Bool.and_eq_true]
        exact fun given => engaged given.1
      rw [if_neg (fun both => engaged ⟨both.2, both.1⟩), if_neg engaged, if_neg refused,
        runsWith_eq_none]
      rfl
  | async =>
    simp only [Agrees]
    have read := clientObtains_eq switching
    by_cases given : granted (pmdRead req.fields) ws.pmd_opts_ = true
    · -- The server reads its own response, and so obtains what the client does.
      have both : (pmdRead req.fields).accept = true ∧ ws.pmd_opts_.server_enable = true := by
        simp only [granted, Bool.and_eq_true] at given
        exact given.1
      obtain ⟨server, _⟩ := @agreed_range _ ws.pmd_opts_ (pmdRead_inRange both.1)
      rw [if_pos given] at read
      have offered := congrArg PmdOffer.accept read
      rw [pmdNormalize_accept] at offered
      have above : ¬(agreed (pmdRead req.fields) ws.pmd_opts_).server_max_window_bits = 8 := by
        omega
      rw [if_pos ⟨both.2, offered⟩, read, if_pos given]
      simp only [if_neg above, given, true_or, iff_true]
      rfl
    · rw [if_neg given] at read
      have declined := congrArg PmdOffer.accept read
      rw [pmdNormalize_accept] at declined
      rw [if_neg (fun both => Bool.false_ne_true (declined.symm.trans both.2)), if_neg given,
        runsWith_eq_none]
      simp only [given, Bool.false_eq_true, false_or]
      rfl

/-- The header of an upgrade request that offers the given extensions. -/
def upgradeRequest (extensions : String) : RequestHeader :=
  { version := 11
    method := octets "GET"
    fields :=
      [(octets "Host", octets "localhost"),
        (octets "Upgrade", octets "websocket"),
        (octets "Connection", octets "upgrade"),
        (octets "Sec-WebSocket-Key", octets "dGhlIHNhbXBsZSBub25jZQ=="),
        (octets "Sec-WebSocket-Version", octets "13"),
        (extensionsField, octets extensions)] }

/-- What the key of that request is answered with. -/
def sampleAccept (_ : Octets) : Octets := octets "s3pPLMBiTxaQ9kYGzzhZRbK+xOo="

/-- A server that compresses with a window of at most ten bits. -/
def narrowServer : StreamBase storedLib :=
  { pmd_opts_ := { server_enable := true, server_max_window_bits := 10 } }

/-- Accepting asynchronously, a server with a narrow window agrees with a client that offers more. -/
theorem accept_agrees_narrow :
    (acceptBy .async sampleAccept narrowServer (upgradeRequest "permessage-deflate")
        none).2.1 = none ∧
      runsWith (acceptBy .async sampleAccept narrowServer
          (upgradeRequest "permessage-deflate") none).2.2 =
        clientObtains (acceptBy .async sampleAccept narrowServer
          (upgradeRequest "permessage-deflate") none).1.fields := by
  have accepted : (acceptBy .async sampleAccept narrowServer
      (upgradeRequest "permessage-deflate") none).2.1 = none := by decide +kernel
  have given : Agrees .async narrowServer (upgradeRequest "permessage-deflate") :=
    Or.inl (by decide +kernel)
  exact ⟨accepted, (accept_agrees_iff accepted).mpr given⟩

/-- Accepting the same request synchronously, the server compresses with a wider window than it said. -/
theorem accept_disagrees_narrow :
    (acceptBy .sync sampleAccept narrowServer (upgradeRequest "permessage-deflate")
        none).2.1 = none ∧
      runsWith (acceptBy .sync sampleAccept narrowServer
          (upgradeRequest "permessage-deflate") none).2.2 ≠
        clientObtains (acceptBy .sync sampleAccept narrowServer
          (upgradeRequest "permessage-deflate") none).1.fields := by
  decide +kernel

end Beast.Websocket
