import Beast.Http.Fields

/-! The header of a message, and the octets it is written as. -/

namespace Beast.Http

/-- What the first line of a message says next to its version. -/
inductive StartLine
  | request (method target : Octets)
  | response (status : Nat) (reason : Octets)
  deriving DecidableEq, Repr

/-- The header of a message of either kind. -/
structure Header where
  /-- Ten times the major version, plus the minor one. -/
  version : Nat
  start : StartLine
  fields : Fields
  deriving DecidableEq, Repr

/-- Whether a header is that of a request. -/
def Header.is_request (msg : Header) : Bool :=
  match msg.start with
  | .request .. => true
  | .response .. => false

/-- The octets at the end of a line. -/
def crlf : Octets := [13, 10]

/-- The name of a version, of which there are two. -/
def versionName (version : Nat) : Octets :=
  if version == 10 then octets "HTTP/1.0"
  else if version == 11 then octets "HTTP/1.1"
  else []

/-- Writes the first line. -/
def writeStartLine (msg : Header) : Octets :=
  match msg.start with
  | .request method target =>
    method ++ octets " " ++ target ++ octets " " ++ versionName msg.version ++ crlf
  | .response status reason =>
    versionName msg.version ++ octets " " ++ octets (toString status) ++ octets " " ++ reason ++ crlf

/-- Writes one field. -/
def writeField (name value : Octets) : Octets := name ++ octets ": " ++ value ++ crlf

/-- Writes the fields one after another, but for those whose name marks them as no field. -/
def writeFields : Fields → Octets
  | [] => []
  | (name, value) :: fields =>
    if name.head? == some (octet ':') then writeFields fields
    else writeField name value ++ writeFields fields

/-- Writes the first line, the fields and the empty line. -/
def writeHeader (msg : Header) : Octets :=
  writeStartLine msg ++ writeFields msg.fields ++ crlf

end Beast.Http
