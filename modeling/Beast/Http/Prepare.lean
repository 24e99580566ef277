import Beast.Http.Write

/-! Preparing a message: how its body ends, and what becomes of the connection behind it. -/

namespace Beast.Http

/-- What is to become of the connection behind a message. -/
inductive Connection
  | close | keep_alive | upgrade
  deriving DecidableEq, Repr

/-- Why a message is not prepared. -/
inductive PrepareError
  | system_error (ec : ErrorCode)
  | invalid_argument (what : String)
  deriving DecidableEq, Repr

/-- What is gathered before a message is changed. -/
structure PrepareInfo where
  connection_value : Option Connection := none
  content_length : Option UInt64 := none
  deriving DecidableEq, Repr

/-- Asks the writer for the length of the body, where it is of a kind that knows it. -/
def prepareContentLength (W : BodyWriter) (w : W.State) :
    Option (W.State → UInt64) → Except PrepareError (Option UInt64)
  | none => .ok none
  | some content_length =>
    match W.init w with
    | (_, some ec) => .error (.system_error ec)
    | (w, none) => .ok (some (content_length w))

/-- Takes the options one after another, so that the last one counts. -/
def prepareOptions (pi : PrepareInfo) (options : List Connection) : PrepareInfo :=
  options.foldl (fun pi value => { pi with connection_value := some value }) pi

/-- Adds a field to a message. -/
def Header.insert (msg : Header) (name : String) (value : Octets) : Header :=
  { msg with fields := msg.fields.insert (octets name) value }

/-- Says the length of the body, where the message is to say it. -/
def setField (msg : Header) (content_length : UInt64) : Header :=
  match msg.start with
  | .request method _ =>
    if content_length > 0 || ciEqual method (octets "POST") then
      msg.insert "Content-Length" (octets (toString content_length.toNat))
    else msg
  | .response status _ =>
    if status / 100 != 1 && status != 204 && status != 304 then
      msg.insert "Content-Length" (octets (toString content_length.toNat))
    else msg

/-- Says how the body ends. -/
def setFraming (pi : PrepareInfo) (msg : Header) : Header :=
  if pi.connection_value != some .upgrade then
    match pi.content_length with
    | some content_length => setField msg content_length
    | none =>
      if msg.version ≥ 11 then msg.insert "Transfer-Encoding" (octets "chunked") else msg
  else msg

/-- Says what becomes of the connection. -/
def prepareConnection (pi : PrepareInfo) (msg : Header) : Header :=
  match pi.connection_value with
  | none => msg
  | some .upgrade => msg.insert "Connection" (octets "upgrade")
  | some .keep_alive =>
    if msg.version < 11 then
      if msg.fields.fieldExists (octets "Content-Length") then
        msg.insert "Connection" (octets "keep-alive")
      else msg
    else msg
  | some .close => if msg.version ≥ 11 then msg.insert "Connection" (octets "close") else msg

/-- Prepares a message for its body, with options, or refuses to. -/
def prepareMessage (W : BodyWriter) (sized : Option (W.State → UInt64)) (w : W.State)
    (options : List Connection) (msg : Header) : Except PrepareError Header := do
  let content_length ← prepareContentLength W w sized
  let pi := prepareOptions { content_length } options
  if msg.fields.fieldExists (octets "Connection") then
    throw (.invalid_argument "prepare called with Connection field set")
  if msg.fields.fieldExists (octets "Content-Length") then
    throw (.invalid_argument "prepare called with Content-Length field set")
  if tokenExists (msg.fields.value (octets "Transfer-Encoding")) (octets "chunked") then
    throw (.invalid_argument "prepare called with Transfer-Encoding: chunked set")
  let msg := prepareConnection pi (setFraming pi msg)
  if msg.version < 11 && tokenExists (msg.fields.value (octets "Connection")) (octets "upgrade") then
    throw (.invalid_argument "invalid version for Connection: upgrade")
  return msg

end Beast.Http
