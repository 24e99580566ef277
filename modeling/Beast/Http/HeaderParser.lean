import Beast.Http.BasicParser
import Beast.Http.Header

/-! The parser class that keeps a header, and the header object that it fills. -/

namespace Beast.Http

/-- The members of a header; a request has no status. -/
structure BasicHeader where
  /-- Ten times the major version, plus the minor one. -/
  version : Nat := 0
  status : Nat := 0
  /-- The words of the start line stand among the fields, under names that no field can have. -/
  fields : Fields := []
  deriving DecidableEq, Repr

namespace BasicHeader

def method (self : BasicHeader) : Octets := self.fields.value (octets ":method")

def target (self : BasicHeader) : Octets := self.fields.value (octets ":target")

def reason (self : BasicHeader) : Octets := self.fields.value (octets ":reason")

def setMethod (self : BasicHeader) (s : Octets) : BasicHeader :=
  { self with fields := self.fields.replace (octets ":method") s }

def setTarget (self : BasicHeader) (s : Octets) : BasicHeader :=
  { self with fields := self.fields.replace (octets ":target") s }

def setReason (self : BasicHeader) (s : Octets) : BasicHeader :=
  { self with fields := self.fields.replace (octets ":reason") s }

/-- What a call of the parser does to the header. -/
def call (self : BasicHeader) : Callback → BasicHeader
  | .on_request method path version => { (self.setTarget path).setMethod method with version }
  | .on_response status reason version => { self with status, version }.setReason reason
  | .on_field name value => { self with fields := self.fields.insert name value }
  | .on_header | .on_body _ | .on_data _ | .on_chunk _ _ | .on_complete => self

/-- The header as it is written: its start line by the accessors, and its fields. -/
def written (isRequest : Bool) (self : BasicHeader) : Header where
  version := self.version
  start := if isRequest then .request self.method self.target else .response self.status self.reason
  fields := self.fields

end BasicHeader

/-- The class that keeps the header of a message, and refuses nothing. -/
def headerParser : Derived where
  State := BasicHeader
  call self c := (self.call c, none)

end Beast.Http
