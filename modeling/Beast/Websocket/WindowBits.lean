import Beast.Websocket.AcceptLaws
import Mathlib

/-! The windows of a compressed session, against what was offered and what the server allows. -/

namespace Beast.Websocket

open Http

variable {lib : Lib}

/-- The parameters of the first permessage-deflate element of the extensions field. -/
def deflateParams (fields : Fields) : Option (List Param) :=
  ((extList (fields.value extensionsField)).find?
    fun ext => ciEqual ext.1 (octets "permessage-deflate")).map Prod.snd

/-- The value of a parameter, where it is named. -/
def parameter (name : String) (params : List Param) : Option Octets :=
  (params.find? fun p => ciEqual p.1 (octets name)).map Prod.snd

/-- The digits of a number of window bits are its only text. -/
theorem bitsText_parseBits {s : Octets} {bits : Int} (parsed : parseBits s = bits)
    (lower : 8 ≤ bits) (upper : bits ≤ 15) : s = bitsText bits := by
  -- The text of a number of bits is one digit, or two of which the first is a one.
  have texts : bitsText bits = if bits < 10 then [UInt8.ofNat (48 + bits.toNat)]
      else [49, UInt8.ofNat (38 + bits.toNat)] := by
    interval_cases bits <;> decide
  have bound : ∀ c : UInt8, isDigit c = true → 48 ≤ c.toNat ∧ c.toNat ≤ 57 := by
    intro c inside
    simp only [isDigit, Bool.and_eq_true, decide_eq_true_eq, UInt8.le_iff_toNat_le] at inside
    exact inside
  have first : ∀ c : UInt8, ¬(decide (c < octet '1') || decide (c > octet '9')) = true →
      49 ≤ c.toNat := by
    intro c inside
    simp only [Bool.or_eq_true, decide_eq_true_eq, not_or, UInt8.not_lt,
      UInt8.le_iff_toNat_le] at inside
    exact inside.1
  have zero : ((octet '0').toNat : Int) = 48 := rfl
  have same : ∀ {c : UInt8} {n : Nat}, c.toNat = n → c = UInt8.ofNat n := by
    rintro c n rfl
    exact UInt8.ofNat_toNat.symm
  -- What is not a number of one or two digits was refused, and gives a number out of range.
  unfold parseBits at parsed
  rw [texts]
  split at parsed
  · omega
  split at parsed
  · omega
  split at parsed
  · omega
  rename_i none_ long lead
  split at parsed
  · rename_i digits
    match s with
    | [] => exact absurd rfl none_
    | [c] =>
      have c_first := first c lead
      have c_digit := bound c (by simpa using digits)
      simp only [List.foldl_cons, List.foldl_nil, zero] at parsed
      rw [if_pos (by omega)]
      exact congrArg (fun c => [c]) (same (by omega))
    | [c, d] =>
      have c_first := first c lead
      have both : isDigit c = true ∧ isDigit d = true := by simpa using digits
      have d_digit := bound d both.2
      simp only [List.foldl_cons, List.foldl_nil, zero] at parsed
      rw [if_neg (by omega), same (show c.toNat = 49 by omega),
        same (show d.toNat = 38 + bits.toNat by omega)]
      rfl
    | _ :: _ :: _ :: _ =>
      simp only [List.length_cons] at long
      omega
  · omega

/-- What the value of a parameter says of a window, which is minus one where there is none. -/
def Tells (v : Octets) (bits : Int) : Prop :=
  (v = [] ∧ bits = -1) ∨ (v = bitsText bits ∧ 8 ≤ bits ∧ bits ≤ 15)

/-- A parameter of a window that is taken is the first of its name, and says what the window is. -/
structure Limits (name : String) (get : PmdOffer → Int) : Prop where
  named {offer next : PmdOffer} {param : Param} (taken : pmdParam offer param = .ok next)
    (same : ciEqual param.1 (octets name) = true) : get offer = 0 ∧ Tells param.2 (get next)
  other {offer next : PmdOffer} {param : Param} (taken : pmdParam offer param = .ok next)
    (different : ciEqual param.1 (octets name) = false) : get next = get offer
  accepts (offer : PmdOffer) : get { offer with accept := true } = get offer

/-- Bits within the bounds that are checked say what they are. -/
theorem tells_parseBits {v : Octets}
    (inside : ¬(decide (parseBits v < 8) || decide (parseBits v > 15)) = true) :
    Tells v (parseBits v) := by
  simp only [Bool.or_eq_true, decide_eq_true_eq, not_or] at inside
  exact .inr ⟨bitsText_parseBits rfl (by omega) (by omega), by omega, by omega⟩

/-- The limit for the server's window. -/
theorem limits_server : Limits "server_max_window_bits" PmdOffer.server_max_window_bits where
  named {offer next param} taken same := by
    -- A second limit, and one out of range, would have been declined.
    unfold pmdParam at taken
    rw [if_pos same] at taken
    dsimp only at taken
    split at taken
    · cases taken
    rename_i fresh
    split at taken
    · cases taken
    split at taken
    · cases taken
    rename_i inside
    cases taken
    exact ⟨by simpa using fresh, tells_parseBits inside⟩
  other {offer next param} taken different := by
    unfold pmdParam at taken
    rw [if_neg (by simp [different])] at taken
    dsimp only at taken
    repeat' split at taken
    all_goals cases taken
    all_goals rfl
  accepts _ := rfl

/-- The limit for the client's window. -/
theorem limits_client : Limits "client_max_window_bits" PmdOffer.client_max_window_bits where
  named {offer next param} taken same := by
    -- The server's limit is looked for first, and has another name.
    have first : ciEqual param.1 (octets "server_max_window_bits") = false := by
      rw [ciEqual_congr same]
      decide
    unfold pmdParam at taken
    rw [if_neg (by simp [first]), if_pos same] at taken
    dsimp only at taken
    split at taken
    · cases taken
    rename_i fresh
    have unset : offer.client_max_window_bits = 0 := by simpa using fresh
    split at taken
    · split at taken
      · cases taken
      rename_i inside
      cases taken
      exact ⟨unset, tells_parseBits inside⟩
    · -- A client may leave the limit to the server.
      rename_i bare
      cases taken
      exact ⟨unset, .inl ⟨by simpa using bare, rfl⟩⟩
  other {offer next param} taken different := by
    unfold pmdParam at taken
    by_cases first : ciEqual param.1 (octets "server_max_window_bits") = true
    · rw [if_pos first] at taken
      dsimp only at taken
      repeat' split at taken
      all_goals cases taken
      all_goals rfl
    · rw [if_neg first, if_neg (by simp [different])] at taken
      repeat' split at taken
      all_goals cases taken
      all_goals rfl
  accepts _ := rfl

/-- What the parameters of an accepted offer say of a window. -/
theorem Limits.read {name : String} {get : PmdOffer → Int} (limits : Limits name get)
    {params : List Param} {offer : PmdOffer} (open_ : offer.accept = false)
    (accepted : (pmdParams offer params).accept = true) :
    match parameter name params with
    | none => get (pmdParams offer params) = get offer
    | some v => get offer = 0 ∧ Tells v (get (pmdParams offer params)) := by
  induction params generalizing offer with
  | nil => exact limits.accepts offer
  | cons param params ih =>
    cases taken : pmdParam offer param with
    | error next =>
      simp only [pmdParams, taken] at accepted
      rw [pmdParam_declines taken, open_] at accepted
      cases accepted
    | ok next =>
      simp only [pmdParams, taken] at accepted ⊢
      have closed : next.accept = false := by
        rw [← open_]
        rcases pmdParam_cases taken with ⟨_, _, rfl⟩ | ⟨_, _, rfl⟩ | rfl | rfl <;> rfl
      have later := ih closed accepted
      by_cases same : ciEqual param.1 (octets name) = true
      · -- A second parameter of the name would not have been taken.
        obtain ⟨fresh, said⟩ := limits.named taken same
        have set_ : get next ≠ 0 := by
          rcases said with ⟨-, bits⟩ | ⟨-, lower, upper⟩ <;> omega
        have here : parameter name (param :: params) = some param.2 := by
          simp [parameter, same]
        rw [here]
        cases more : parameter name params with
        | none =>
          rw [more] at later
          exact ⟨fresh, by rw [later]; exact said⟩
        | some v =>
          rw [more] at later
          exact absurd later.1 set_
      · have different : ciEqual param.1 (octets name) = false := by simpa using same
        have kept := limits.other taken different
        have there : parameter name (param :: params) = parameter name params := by
          simp [parameter, different]
        rw [there, ← kept]
        exact later

/-- What an accepted offer holds is what its parameters say. -/
theorem Limits.offered {name : String} {get : PmdOffer → Int} (limits : Limits name get)
    (absent : get {} = 0) {fields : Fields} (accepted : (pmdRead fields).accept = true) :
    ∃ params, deflateParams fields = some params ∧
      match parameter name params with
      | none => get (pmdRead fields) = 0
      | some v => Tells v (get (pmdRead fields)) := by
  unfold pmdRead at accepted ⊢
  unfold deflateParams
  cases found : (extList (fields.value extensionsField)).find?
      (fun ext => ciEqual ext.1 (octets "permessage-deflate")) with
  | none =>
    rw [found] at accepted
    cases accepted
  | some ext =>
    rw [found] at accepted
    refine ⟨ext.2, rfl, ?_⟩
    have fresh : ({} : PmdOffer).accept = false := rfl
    have read := limits.read fresh accepted
    cases named : parameter name ext.2 with
    | none =>
      rw [named] at read
      exact read.trans absent
    | some v =>
      rw [named] at read
      exact read.2

/-- The limits that the response names are those of what was agreed. -/
theorem parameter_granted (offer : PmdOffer) (o : PermessageDeflate) :
    parameter "server_max_window_bits" (grantedParams offer o) =
        (if (agreed offer o).server_max_window_bits < 15 then
          some (bitsText (agreed offer o).server_max_window_bits) else none) ∧
      parameter "client_max_window_bits" (grantedParams offer o) =
        (if clientWritten offer o then
          some (bitsText (agreed offer o).client_max_window_bits) else none) := by
  have server : ciEqual (octets "server_no_context_takeover") (octets "server_max_window_bits") =
        false ∧
      ciEqual (octets "client_no_context_takeover") (octets "server_max_window_bits") = false ∧
      ciEqual (octets "client_max_window_bits") (octets "server_max_window_bits") = false := by
    decide
  have client : ciEqual (octets "server_no_context_takeover") (octets "client_max_window_bits") =
        false ∧
      ciEqual (octets "client_no_context_takeover") (octets "client_max_window_bits") = false ∧
      ciEqual (octets "server_max_window_bits") (octets "client_max_window_bits") = false := by
    decide
  -- Of the four parameters, each of which may be left out, one has the name.
  have takeover : ∀ {a name : String} {wanted : Bool}, ciEqual (octets a) (octets name) = false →
      (takeoverParam a wanted).find? (fun p => ciEqual p.1 (octets name)) = none := by
    intro a name wanted different
    cases wanted <;> simp [takeoverParam, different]
  have limit : ∀ {a name : String} {bits : Int} {written : Bool},
      ciEqual (octets a) (octets name) = false →
      (bitsParam a bits written).find? (fun p => ciEqual p.1 (octets name)) = none := by
    intro a name bits written different
    cases written <;> simp [bitsParam, different]
  have own : ∀ {name : String} {bits : Int} {written : Bool},
      (bitsParam name bits written).find? (fun p => ciEqual p.1 (octets name)) =
        if written then some (octets name, bitsText bits) else none := by
    intro name bits written
    cases written <;> simp [bitsParam]
  simp only [parameter, grantedParams, List.find?_append, takeover server.1, takeover server.2.1,
    limit server.2.2, takeover client.1, takeover client.2.1, limit client.2.2, own,
    decide_eq_true_eq, Option.none_or, Option.or_none]
  constructor
  · split <;> rfl
  · split <;> rfl

/-- A response that switches protocols carries the parameters that are granted, and no others. -/
theorem deflateParams_response {makeSecWsAccept : Octets → Octets} {o : PermessageDeflate}
    {req : RequestHeader} {rs : List Param}
    (accepted : (buildResponse makeSecWsAccept o req defaultDecorateRes).status = 101)
    (given : deflateParams (buildResponse makeSecWsAccept o req defaultDecorateRes).fields =
      some rs) :
    granted (pmdRead req.fields) o = true ∧ rs = grantedParams (pmdRead req.fields) o := by
  rw [deflateParams, buildResponse_value accepted, pmdNegotiate_fields pmdRead_inRange] at given
  by_cases grant : granted (pmdRead req.fields) o = true
  · -- What was granted was offered, so that its numbers are in range and its text is read back.
    have offered : (pmdRead req.fields).accept = true := by
      simp only [granted, Bool.and_eq_true] at grant
      exact grant.1.1
    have named : IsToken (octets "permessage-deflate") := by decide +kernel
    have plain := @grantedParams_plain _ o (pmdRead_inRange offered)
    rw [if_pos grant, Fields.value_replace, trim_renderExt named plain,
      extList_renderExt named plain] at given
    refine ⟨grant, ?_⟩
    have same : some (grantedParams (pmdRead req.fields) o) = some rs := by simpa using given
    exact (Option.some.inj same).symm
  · rw [if_neg grant] at given
    cases given

/-- The server's window that was agreed on is at most its own, and at most the one that was offered. -/
theorem agreed_server_le (offer : PmdOffer) (o : PermessageDeflate) :
    (agreed offer o).server_max_window_bits ≤ o.server_max_window_bits ∧
      ∀ m, offer.server_max_window_bits = m → 8 ≤ m →
        (agreed offer o).server_max_window_bits ≤ max 9 m := by
  -- The server's own window is never one of 8 bits.
  have windows := o.server_window
  constructor
  · simp only [agreed]
    split <;> omega
  · intro m same lower
    simp only [agreed]
    split <;> omega

/-- The client's window that was agreed on is at most the server's option, and at most the one offered. -/
theorem agreed_client_le (offer : PmdOffer) (o : PermessageDeflate) :
    (agreed offer o).client_max_window_bits ≤ o.client_max_window_bits ∧
      (8 ≤ offer.client_max_window_bits →
        (agreed offer o).client_max_window_bits ≤ offer.client_max_window_bits) := by
  constructor
  · simp only [agreed]
    split <;> omega
  · intro lower
    simp only [agreed]
    split <;> omega

/-- The client's window is only named in the response to an offer that names it, and within both limits. -/
theorem clientWindow_granted {offer : PmdOffer} {o : PermessageDeflate} {ps : List Param} {v : Octets}
    (said : match parameter "client_max_window_bits" ps with
      | none => offer.client_max_window_bits = 0
      | some w => Tells w offer.client_max_window_bits)
    (there : parameter "client_max_window_bits" (grantedParams offer o) = some v) :
    ∃ k w, v = bitsText k ∧ k ≤ o.client_max_window_bits ∧
      parameter "client_max_window_bits" ps = some w ∧ (w = [] ∨ ∃ m, w = bitsText m ∧ k ≤ m) := by
  rw [(parameter_granted offer o).2] at there
  split at there
  · rename_i spoken
    cases there
    -- What is written was asked for.
    have asked : offer.client_max_window_bits ≠ 0 := by
      intro absent
      simp [clientWritten, absent] at spoken
    obtain ⟨own, limited⟩ := agreed_client_le offer o
    cases param : parameter "client_max_window_bits" ps with
    | none =>
      rw [param] at said
      exact absurd said asked
    | some w =>
      rw [param] at said
      refine ⟨_, w, rfl, own, rfl, ?_⟩
      rcases said with ⟨bare, -⟩ | ⟨text, lower, upper⟩
      · exact .inl bare
      · exact .inr ⟨_, text, limited lower⟩
  · cases there

/--
The windows of a session that was accepted are within what was offered and what the server allows.

The server's window is at most the one offered, where a window of 8 bits counts as one of 9. The
response names no wider one than the server's option, and a server that accepts asynchronously
runs with that one. The client's window is named only where the client named it, within both limits.
-/
theorem windows_within {path : AcceptPath} {makeSecWsAccept : Octets → Octets}
    {ws : StreamBase lib} {req : RequestHeader} {written : Option ErrorCode} {rs : List Param}
    (accepted : (acceptBy path makeSecWsAccept ws req written).2.1 = none)
    (given : deflateParams (acceptBy path makeSecWsAccept ws req written).1.fields = some rs) :
    ∃ ps run n, deflateParams req.fields = some ps ∧
      runsWith (acceptBy path makeSecWsAccept ws req written).2.2 = some run ∧
      (∀ v, parameter "server_max_window_bits" ps = some v →
        ∃ m, v = bitsText m ∧ run.server_max_window_bits ≤ max 9 m ∧ n ≤ max 9 m) ∧
      parameter "server_max_window_bits" rs = (if n < 15 then some (bitsText n) else none) ∧
      n ≤ ws.pmd_opts_.server_max_window_bits ∧
      (path = .async → run.server_max_window_bits = n) ∧
      (∀ v, parameter "client_max_window_bits" rs = some v →
        ∃ k w, v = bitsText k ∧ k ≤ ws.pmd_opts_.client_max_window_bits ∧
          parameter "client_max_window_bits" ps = some w ∧
          (w = [] ∨ ∃ m, w = bitsText m ∧ k ≤ m)) := by
  obtain ⟨switching, response, opened⟩ := acceptBy_accepted accepted
  rw [response] at given
  obtain ⟨grant, rfl⟩ := deflateParams_response switching given
  have both : (pmdRead req.fields).accept = true ∧ ws.pmd_opts_.server_enable = true := by
    simp only [granted, Bool.and_eq_true] at grant
    exact grant.1
  have range := pmdRead_inRange both.1
  obtain ⟨ps, offered, server⟩ := limits_server.offered rfl both.1
  obtain ⟨ps', offered', client⟩ := limits_client.offered rfl both.1
  obtain rfl : ps = ps' := Option.some.inj (offered.symm.trans offered')
  have named := (parameter_granted (pmdRead req.fields) ws.pmd_opts_).1
  obtain ⟨inside, inside'⟩ := @agreed_range _ ws.pmd_opts_ range
  obtain ⟨own, limited⟩ := agreed_server_le (pmdRead req.fields) ws.pmd_opts_
  -- An offered limit for the server's window is a number of bits.
  have within : ∀ v, parameter "server_max_window_bits" ps = some v →
      ∃ m, v = bitsText m ∧ 8 ≤ m ∧ m ≤ 15 ∧
        (pmdRead req.fields).server_max_window_bits = m := by
    intro v there
    rw [there] at server
    rcases server with ⟨-, bits⟩ | ⟨text, lower, upper⟩
    · have := range.server
      omega
    · exact ⟨_, text, lower, upper, rfl⟩
  have answered := fun v => @clientWindow_granted (pmdRead req.fields) ws.pmd_opts_ ps v client
  rw [opened, runsWith_open]
  cases path with
  | sync =>
    -- The server runs with the offer as it was made.
    rw [if_pos ⟨both.2, both.1⟩]
    refine ⟨ps, _, _, offered, rfl, fun v there => ?_, named, own, (fun other => by cases other), answered⟩
    obtain ⟨m, text, lower, upper, same⟩ := within v there
    refine ⟨m, text, ?_, limited m same lower⟩
    have unset : ¬m = 0 := by omega
    simp only [pmdNormalize, both.1, if_true, same, beq_iff_eq, if_neg unset]
    split <;> omega
  | async =>
    -- The server reads its own response, and so runs with what was agreed.
    have read := clientObtains_eq switching
    rw [if_pos grant] at read
    have taken := congrArg PmdOffer.accept read
    rw [pmdNormalize_accept] at taken
    have above : ¬(agreed (pmdRead req.fields) ws.pmd_opts_).server_max_window_bits = 8 := by
      omega
    rw [if_pos ⟨both.2, taken⟩, read]
    refine ⟨ps, _, _, offered, rfl, fun v there => ?_, named, own, fun _ => ?_, answered⟩
    · obtain ⟨m, text, lower, upper, same⟩ := within v there
      have limit := limited m same lower
      exact ⟨m, text, by simpa [if_neg above] using limit, limit⟩
    · simp [if_neg above]

/-- A server whose windows are not limited. -/
def wideServer : StreamBase storedLib :=
  { pmd_opts_ :=
      { server_enable := true, server_window := fifteen_window, client_window := fifteen_window,
        level := eight_level, memory := four_memory } }

/-- An offer that limits both windows is answered within its limits. -/
theorem windows_within_offer :
    ∃ ps run n, deflateParams (upgradeRequest
        "permessage-deflate; server_max_window_bits=10; client_max_window_bits=9").fields =
          some ps ∧
      runsWith (acceptBy .async sampleAccept wideServer (upgradeRequest
        "permessage-deflate; server_max_window_bits=10; client_max_window_bits=9") none).2.2 =
          some run ∧
      (∀ v, parameter "server_max_window_bits" ps = some v →
        ∃ m, v = bitsText m ∧ run.server_max_window_bits ≤ max 9 m ∧ n ≤ max 9 m) ∧
      n ≤ 15 := by
  have accepted : (acceptBy .async sampleAccept wideServer (upgradeRequest
      "permessage-deflate; server_max_window_bits=10; client_max_window_bits=9")
      none).2.1 = none := by decide +kernel
  have given : deflateParams (acceptBy .async sampleAccept wideServer (upgradeRequest
      "permessage-deflate; server_max_window_bits=10; client_max_window_bits=9") none).1.fields =
      some [(octets "server_max_window_bits", octets "10"),
        (octets "client_max_window_bits", octets "9")] := by decide +kernel
  obtain ⟨ps, run, n, offered, runs, server, -, own, -⟩ := windows_within accepted given
  exact ⟨ps, run, n, offered, runs, server, own⟩

/-- A window of 8 bits is answered with one of 9, and the server runs with one of 9. -/
theorem windows_beyond_eight :
    (acceptBy .async sampleAccept wideServer
        (upgradeRequest "permessage-deflate; server_max_window_bits=8") none).2.1 = none ∧
      (deflateParams (upgradeRequest "permessage-deflate; server_max_window_bits=8").fields).bind
        (parameter "server_max_window_bits") = some (octets "8") ∧
      (deflateParams (acceptBy .async sampleAccept wideServer
        (upgradeRequest "permessage-deflate; server_max_window_bits=8") none).1.fields).bind
        (parameter "server_max_window_bits") = some (octets "9") ∧
      (runsWith (acceptBy .async sampleAccept wideServer
        (upgradeRequest "permessage-deflate; server_max_window_bits=8") none).2.2).map
        PmdParams.server_max_window_bits = some 9 := by
  decide +kernel

end Beast.Websocket
