import Beast.Http.Rfc7230

/-! The fields of a message, and what the handshake needs of its header. -/

namespace Beast.Http

/-- Names and values in the order in which they were inserted. -/
abbrev Fields := List (Octets × Octets)

namespace Fields

/-- The first field whose name agrees with the one asked for, in any case of letters. -/
def find (fields : Fields) (name : Octets) : Option (Octets × Octets) :=
  List.find? (fun field => ciEqual field.1 name) fields

/-- The value of the first field of a name, or the empty string. -/
def value (fields : Fields) (name : Octets) : Octets :=
  match fields.find name with
  | none => []
  | some field => field.2

/-- Whether a field of a name is present. -/
def fieldExists (fields : Fields) (name : Octets) : Bool :=
  (fields.find name).isSome

/-- Adds a field behind the others. -/
def insert (fields : Fields) (name value : Octets) : Fields :=
  fields ++ [(name, trim value)]

/-- Removes every field of a name. -/
def erase (fields : Fields) (name : Octets) : Fields :=
  fields.filter fun field => !ciEqual field.1 name

/-- Sets a field in place of all others of its name. -/
def replace (fields : Fields) (name value : Octets) : Fields :=
  (fields.erase name).insert name value

/-- Inserting a field under another name changes no lookup. -/
theorem value_insert_other {fields : Fields} {name other text : Octets}
    (different : ciEqual other name = false) :
    (fields.insert other text).value name = fields.value name := by
  simp [insert, value, find, List.find?_append, different]

/-- A field just set is the one that is found. -/
theorem value_replace {fields : Fields} {name text : Octets} :
    (fields.replace name text).value name = trim text := by
  -- Nothing of that name is left in front of it.
  have gone : List.find? (fun field : Octets × Octets => ciEqual field.1 name)
      (fields.erase name) = none := by
    simp [erase]
  simp [replace, insert, value, find, List.find?_append, gone]

end Fields

/-- The header of a request. -/
structure RequestHeader where
  /-- Ten times the major version, plus the minor one. -/
  version : Nat
  method : Octets
  fields : Fields
  deriving DecidableEq, Repr

/-- A response whose body is a string. -/
structure ResponseMessage where
  version : Nat := 0
  status : Nat := 0
  fields : Fields := []
  body : Octets := []
  deriving DecidableEq, Repr

/-- Whether the connection field of a message asks for an upgrade. -/
def isUpgrade (version : Nat) (fields : Fields) : Bool :=
  if version == 10 then false
  else tokenExists (fields.value (octets "Connection")) (octets "upgrade")

/-- Announces the length of the body, where the status allows one. -/
def prepare (msg : ResponseMessage) : ResponseMessage :=
  let length := octets (toString msg.body.length)
  if msg.status / 100 != 1 && msg.status != 204 && msg.status != 304 then
    { msg with fields := msg.fields.insert (octets "Content-Length") length }
  else msg

end Beast.Http
