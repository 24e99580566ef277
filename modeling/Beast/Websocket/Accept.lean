import Beast.Websocket.StreamBase

/-! The server's side of the opening handshake, in both of its forms. -/

namespace Beast.Websocket

open Http

variable {lib : Lib}

/-- The name and version that a response carries unless it names another server. -/
def beastVersionString : Octets := octets "Beast/43"

/-- The longest key that the accept computation takes. -/
def secWsKeyMax : Nat := 24

/-- Whether a request asks for a WebSocket. -/
def isUpgrade (req : RequestHeader) : Bool :=
  if req.version < 11 then false
  else if req.method != octets "GET" then false
  else if !Http.isUpgrade req.version req.fields then false
  else if !tokenExists (req.fields.value (octets "Upgrade")) (octets "websocket") then false
  else req.fields.fieldExists (octets "Sec-WebSocket-Version")

/-- The decorator used where the caller gave none. -/
def defaultDecorateRes (res : ResponseMessage) : ResponseMessage := res

/-- Lets the caller change a response, and names the server in it. -/
def decorate (decorator : ResponseMessage → ResponseMessage) (res : ResponseMessage) :
    ResponseMessage :=
  let res := decorator res
  if !res.fields.fieldExists (octets "Server") then
    { res with fields := res.fields.insert (octets "Server") beastVersionString }
  else res

/-- A response that refuses a request and says why. -/
def errResponse (req : RequestHeader) (decorator : ResponseMessage → ResponseMessage)
    (text : String) : ResponseMessage :=
  decorate decorator (prepare { status := 400, version := req.version, body := octets text })

/-- The response that names the version of the protocol that is spoken here. -/
def versionResponse (req : RequestHeader) (decorator : ResponseMessage → ResponseMessage) :
    ResponseMessage :=
  let fields := Fields.insert [] (octets "Sec-WebSocket-Version") (octets "13")
  decorate decorator (prepare { status := 426, version := req.version, fields })

/-- The response to an upgrade request, with what is granted of the extension it offers. -/
def buildResponse (makeSecWsAccept : Octets → Octets) (pmd_opts_ : PermessageDeflate)
    (req : RequestHeader) (decorator : ResponseMessage → ResponseMessage) : ResponseMessage :=
  let err := errResponse req decorator
  let key := req.fields.value (octets "Sec-WebSocket-Key")
  let version := req.fields.value (octets "Sec-WebSocket-Version")
  if req.version < 11 then err "HTTP version 1.1 required"
  else if req.method != octets "GET" then err "Wrong method"
  else if !isUpgrade req then err "Expected Upgrade request"
  else if !req.fields.fieldExists (octets "Host") then err "Missing Host"
  else if !req.fields.fieldExists (octets "Sec-WebSocket-Key") then
    err "Missing Sec-WebSocket-Key"
  else if !tokenExists (req.fields.value (octets "Upgrade")) (octets "websocket") then
    err "Missing websocket Upgrade token"
  else if key.length > secWsKeyMax then err "Invalid Sec-WebSocket-Key"
  else if version.isEmpty then err "Missing Sec-WebSocket-Version"
  else if version != octets "13" then versionResponse req decorator
  else
    let offer := pmdRead req.fields
    -- The configuration that comes out of the negotiation is not kept here.
    let (fields, _) := pmdNegotiate [] {} offer pmd_opts_
    let fields := fields.insert (octets "Upgrade") (octets "websocket")
    let fields := fields.insert (octets "Connection") (octets "upgrade")
    let fields := fields.insert (octets "Sec-WebSocket-Accept") (makeSecWsAccept key)
    decorate decorator { status := 101, version := req.version, fields }

/--
Responds to a request and opens the session, before returning.

The error given is the one that writing the response ends with.
-/
def doAccept (makeSecWsAccept : Octets → Octets) (ws : StreamBase lib) (req : RequestHeader)
    (decorator : ResponseMessage → ResponseMessage) (written : Option ErrorCode) :
    ResponseMessage × Option ErrorCode × StreamBase lib :=
  let res := buildResponse makeSecWsAccept ws.pmd_opts_ req decorator
  match written with
  | some ec => (res, some ec, ws)
  | none =>
    if res.status != 101 then (res, some .handshake_failed, ws)
    else (res, none, { ws with pmd_config_ := pmdRead req.fields }.open_ .server)

/-- Accepts a request that the caller has read. -/
def accept (makeSecWsAccept : Octets → Octets) (ws : StreamBase lib) (req : RequestHeader)
    (written : Option ErrorCode) : ResponseMessage × Option ErrorCode × StreamBase lib :=
  doAccept makeSecWsAccept ws.reset req defaultDecorateRes written

/--
Responds to a request and opens the session, as the operation that runs on completions.

Its first step starts the write, and its second step is the completion that is given.
-/
def responseOp (makeSecWsAccept : Octets → Octets) (ws : StreamBase lib) (req : RequestHeader)
    (decorator : ResponseMessage → ResponseMessage) (written : Option ErrorCode) :
    ResponseMessage × Option ErrorCode × StreamBase lib :=
  let res := buildResponse makeSecWsAccept ws.pmd_opts_ req decorator
  match written with
  | some ec => (res, some ec, ws)
  | none =>
    if res.status != 101 then (res, some .handshake_failed, ws)
    else (res, none, { ws with pmd_config_ := pmdRead res.fields }.open_ .server)

/-- Accepts a request asynchronously, up to the call of the handler. -/
def asyncAccept (makeSecWsAccept : Octets → Octets) (ws : StreamBase lib) (req : RequestHeader)
    (written : Option ErrorCode) : ResponseMessage × Option ErrorCode × StreamBase lib :=
  responseOp makeSecWsAccept ws.reset req defaultDecorateRes written

end Beast.Websocket
