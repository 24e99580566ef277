import Beast.Http.Fields

/-! The permessage-deflate extension, as it is offered, negotiated and read from a field. -/

namespace Beast.Websocket

open Http

/-- The parameters of a permessage-deflate offer. -/
structure PmdOffer where
  accept : Bool := false
  /-- Zero when absent, or 8 to 15. -/
  server_max_window_bits : Int := 0
  /-- Minus one when present without a value, zero when absent, or 8 to 15. -/
  client_max_window_bits : Int := 0
  server_no_context_takeover : Bool := false
  client_no_context_takeover : Bool := false
  deriving DecidableEq, Repr

/-- The options of the extension, in the ranges that setting them enforces. -/
structure PermessageDeflate where
  server_enable : Bool := false
  client_enable : Bool := false
  server_max_window_bits : Int := 15
  client_max_window_bits : Int := 15
  server_no_context_takeover : Bool := false
  client_no_context_takeover : Bool := false
  compLevel : Int := 8
  memLevel : Int := 4
  server_window : 9 ≤ server_max_window_bits ∧ server_max_window_bits ≤ 15 := by decide
  client_window : 9 ≤ client_max_window_bits ∧ client_max_window_bits ≤ 15 := by decide
  level : 0 ≤ compLevel ∧ compLevel ≤ 9 := by decide
  memory : 1 ≤ memLevel ∧ memLevel ≤ 9 := by decide

/-- A number of one or two digits without a leading zero, or minus one. -/
def parseBits (s : Octets) : Int :=
  if s.length == 0 then -1
  else if s.length > 2 then -1
  else if s.getD 0 0 < octet '1' || s.getD 0 0 > octet '9' then -1
  else if s.all isDigit then
    s.foldl (fun i c => 10 * i + ((c.toNat : Int) - (octet '0').toNat)) 0
  else -1

/-- The field in which extensions are offered and granted. -/
def extensionsField : Octets := octets "Sec-WebSocket-Extensions"

/--
Takes one parameter of an offer.

An error is the offer as it stood when the parameter made the reader decline.
-/
def pmdParam (offer : PmdOffer) (param : Param) : Except PmdOffer PmdOffer :=
  if ciEqual param.1 (octets "server_max_window_bits") then
    if offer.server_max_window_bits != 0 then .error offer
    else if param.2.isEmpty then .error offer
    else
      let bits := parseBits param.2
      let offer := { offer with server_max_window_bits := bits }
      if bits < 8 || bits > 15 then .error offer else .ok offer
  else if ciEqual param.1 (octets "client_max_window_bits") then
    if offer.client_max_window_bits != 0 then .error offer
    else if !param.2.isEmpty then
      let bits := parseBits param.2
      let offer := { offer with client_max_window_bits := bits }
      if bits < 8 || bits > 15 then .error offer else .ok offer
    else .ok { offer with client_max_window_bits := -1 }
  else if ciEqual param.1 (octets "server_no_context_takeover") then
    if offer.server_no_context_takeover then .error offer
    else if !param.2.isEmpty then .error offer
    else .ok { offer with server_no_context_takeover := true }
  else if ciEqual param.1 (octets "client_no_context_takeover") then
    if offer.client_no_context_takeover then .error offer
    else if !param.2.isEmpty then .error offer
    else .ok { offer with client_no_context_takeover := true }
  else .error offer

/-- Takes the parameters of an offer in turn, and accepts the offer behind the last. -/
def pmdParams (offer : PmdOffer) : List Param → PmdOffer
  | [] => { offer with accept := true }
  | param :: params =>
    match pmdParam offer param with
    | .error offer => offer
    | .ok offer => pmdParams offer params

/-- Reads the first permessage-deflate element of the extensions field. -/
def pmdRead (fields : Fields) : PmdOffer :=
  match (extList (fields.value extensionsField)).find?
      (fun ext => ciEqual ext.1 (octets "permessage-deflate")) with
  | none => {}
  | some ext => pmdParams {} ext.2

/-- The text of a parameter that carries a number of window bits. -/
def bitsText (bits : Int) : Octets := octets (toString bits)

/-- Writes the extensions field of a client's offer. -/
def pmdWrite (fields : Fields) (offer : PmdOffer) : Fields :=
  let s := octets "permessage-deflate"
  let s := s ++
    if offer.server_max_window_bits != 0 then
      if offer.server_max_window_bits != -1 then
        octets "; server_max_window_bits=" ++ bitsText offer.server_max_window_bits
      else octets "; server_max_window_bits"
    else []
  let s := s ++
    if offer.client_max_window_bits != 0 then
      if offer.client_max_window_bits != -1 then
        octets "; client_max_window_bits=" ++ bitsText offer.client_max_window_bits
      else octets "; client_max_window_bits"
    else []
  let s := s ++
    if offer.server_no_context_takeover then octets "; server_no_context_takeover" else []
  let s := s ++
    if offer.client_no_context_takeover then octets "; client_no_context_takeover" else []
  fields.replace extensionsField s

/--
Negotiates a client's offer, and writes what was agreed into the response.

The configuration given is overwritten as far as the negotiation gets.
-/
def pmdNegotiate (fields : Fields) (config offer : PmdOffer) (o : PermessageDeflate) :
    Fields × PmdOffer :=
  if !(offer.accept && o.server_enable) then (fields, { config with accept := false })
  else
    let s := octets "permessage-deflate"
    let serverTakeover := offer.server_no_context_takeover || o.server_no_context_takeover
    let s := s ++ if serverTakeover then octets "; server_no_context_takeover" else []
    let clientTakeover := o.client_no_context_takeover || offer.client_no_context_takeover
    let s := s ++ if clientTakeover then octets "; client_no_context_takeover" else []
    let serverBits :=
      if offer.server_max_window_bits != 0 then
        min offer.server_max_window_bits o.server_max_window_bits
      else o.server_max_window_bits
    -- The compressor would silently take 8 for 9, so 8 is never granted.
    let serverBits := if serverBits < 15 && serverBits < 9 then 9 else serverBits
    let s := s ++
      if serverBits < 15 then octets "; server_max_window_bits=" ++ bitsText serverBits else []
    let config : PmdOffer :=
      { accept := true
        server_max_window_bits := serverBits
        client_max_window_bits := config.client_max_window_bits
        server_no_context_takeover := serverTakeover
        client_no_context_takeover := clientTakeover }
    if offer.client_max_window_bits == -1 then
      let clientBits := o.client_max_window_bits
      let s := s ++
        if clientBits < 15 then octets "; client_max_window_bits=" ++ bitsText clientBits else []
      (fields.replace extensionsField s, { config with client_max_window_bits := clientBits })
    else if offer.client_max_window_bits == 0 then
      -- The response must not name a limit that the client did not offer to keep.
      if o.client_max_window_bits == 15 then
        (fields.replace extensionsField s, { config with client_max_window_bits := 15 })
      else (fields, { config with accept := false })
    else
      let clientBits := min o.client_max_window_bits offer.client_max_window_bits
      let s := s ++ octets "; client_max_window_bits=" ++ bitsText clientBits
      (fields.replace extensionsField s, { config with client_max_window_bits := clientBits })

/-- Puts the default of 15 for window bits that were left open. -/
def pmdNormalize (offer : PmdOffer) : PmdOffer :=
  if offer.accept then
    { offer with
      server_max_window_bits :=
        if offer.server_max_window_bits == 0 then 15 else offer.server_max_window_bits
      client_max_window_bits :=
        if offer.client_max_window_bits == 0 || offer.client_max_window_bits == -1 then 15
        else offer.client_max_window_bits }
  else offer

end Beast.Websocket
