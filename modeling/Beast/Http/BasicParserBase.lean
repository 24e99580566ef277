import Beast.Http.Rfc7230
import Mathlib.Data.Nat.Notation
import Mathlib.Tactic.Ring

/-! The character-level readers that the message parser is built from. -/

namespace Beast.Http

/-- The error codes of the parser, and those that a stream or a derived class brings in. -/
inductive ErrorCode
  | end_of_stream | partial_message | buffer_overflow | bad_line_ending | bad_method | bad_path
  | bad_version | bad_status | bad_reason | bad_field | bad_value | bad_content_length
  | bad_transfer_encoding | bad_chunk
  | eof
  | derived (value : Nat)
  deriving DecidableEq, Repr

/--
Why a step stops: with an error code, or without one.

It may read outside the octets that it may look at, throw `std::length_error`, or fail an assertion.
-/
inductive Halt
  | ec (code : ErrorCode)
  | outside | length_error | assertion
  deriving DecidableEq, Repr

/-- Reads a value at a position, and moves the position. -/
abbrev Reader (α : Type) := Octets → Except Halt (α × Octets)

/-- The octet at a position. -/
def peek (it : Octets) : Except Halt UInt8 :=
  match it with
  | [] => .error .outside
  | c :: _ => .ok c

/-- Any octet but a control character or a space. -/
def isPathchar (c : UInt8) : Bool :=
  32 < c && c != 127

/-- The lower case of an octet of a field name, or zero. -/
def toFieldChar (c : UInt8) : UInt8 :=
  if isTchar c then tolower c else 0

/--
The value of a hexadecimal digit.

The table of the source lacks the commas between its last rows.
So eight octets have the value 254, and the last eight of the table have the value zero.
-/
def unhex (c : UInt8) : Option UInt8 :=
  if octet '0' ≤ c && c ≤ octet '9' then some (c - octet '0')
  else if octet 'A' ≤ c && c ≤ octet 'F' then some (c - octet 'A' + 10)
  else if octet 'a' ≤ c && c ≤ octet 'f' then some (c - octet 'a' + 10)
  else if 248 ≤ c then some 0
  else if 127 ≤ c && c ≤ 232 && (c - 127) % 15 == 0 then some 254
  else none

/-- Whether a text, in any case of letters, is a given one in lower case. -/
def strieq (s1 : String) (s2 : Octets) : Bool :=
  octets s1 == s2.map tolower

/-- The loop over further decimal digits. -/
def parseDecLoop (v : Nat) : Octets → Option Nat
  | [] => some v
  | c :: it =>
    if !isDigit c then none
    else if v > ((2 ^ 64 - 1) - 10) / 10 then none
    else parseDecLoop (10 * v + (c.toNat - (octet '0').toNat)) it

/--
Reads a whole value as a decimal number of 64 bits.

The octet behind the value, which ends the loop in the source, is never a digit.
-/
def parseDec : Octets → Option Nat
  | [] => none
  | c :: it =>
    if !isDigit c then none
    else parseDecLoop (c.toNat - (octet '0').toNat) it

/-- The loop over further hexadecimal digits, which fails where the value does not grow. -/
def parseHexLoop (v : Nat) : Reader (Option Nat)
  | [] => .error .outside
  | c :: it =>
    match unhex c with
    | none => .ok (some v, c :: it)
    | some d =>
      let v0 := v
      let v := (16 * v + d.toNat) % 2 ^ 64
      if v ≤ v0 then .ok (none, it) else parseHexLoop v it

/-- Reads a hexadecimal number of 64 bits. -/
def parseHex : Reader (Option Nat)
  | [] => .error .outside
  | c :: it =>
    match unhex c with
    | none => .ok (none, c :: it)
    | some d => parseHexLoop d.toNat it

/-- Reads a carriage return and a line feed. -/
def parseCrlf : Reader Bool
  | [] => .error .outside
  | c :: it =>
    if c != 13 then .ok (false, c :: it)
    else match it with
      | [] => .error .outside
      | d :: it => if d != 10 then .ok (false, d :: it) else .ok (true, it)

/-- Reads octets as long as they are of a kind, up to one that is not. -/
def readWhile (kind : UInt8 → Bool) : Reader Octets
  | [] => .error .outside
  | c :: it =>
    if kind c then
      match readWhile kind it with
      | .error halt => .error halt
      | .ok (s, it) => .ok (c :: s, it)
    else .ok ([], c :: it)

/-- Reads a method. -/
def parseMethod : Reader Octets := readWhile isTchar

/-- Reads a request target, which is empty unless a space follows. -/
def parseTarget : Reader Octets := fun it => do
  let (s, it) ← readWhile isPathchar it
  if (← peek it) != octet ' ' then return ([], it)
  return (s, it)

/-- Reads a field name. -/
def parseName : Reader Octets := readWhile (toFieldChar · != 0)

/-- Reads one given octet. -/
def readOctet (c : UInt8) : Reader Bool := fun it => do
  if (← peek it) != c then return (false, it)
  return (true, it.drop 1)

/-- Reads one digit. -/
def readDigit : Reader (Option Nat) := fun it => do
  let c ← peek it
  if !isDigit c then return (none, it)
  return (some (c.toNat - (octet '0').toNat), it.drop 1)

/-- Reads given octets one after another. -/
def readOctets : Octets → Reader Bool
  | [], it => .ok (true, it)
  | c :: s, it => do
    match ← readOctet c it with
    | (false, it) => return (false, it)
    | (true, it) => readOctets s it

/-- Reads a version as ten times its major number plus its minor one. -/
def parseVersion : Reader (Option Nat) := fun it => do
  let (true, it) ← readOctets (octets "HTTP/") it | return (none, it)
  let (some major, it) ← readDigit it | return (none, it)
  let (true, it) ← readOctet (octet '.') it | return (none, it)
  let (some minor, it) ← readDigit it | return (none, it)
  return (some (10 * major + minor), it)

/-- Reads a status code of three digits. -/
def parseStatus : Reader (Option Nat) := fun it => do
  let (some a, it) ← readDigit it | return (none, it)
  let (some b, it) ← readDigit it | return (none, it)
  let (some c, it) ← readDigit it | return (none, it)
  return (some (100 * a + 10 * b + c), it)

/-- Reads a reason phrase, which is empty where it holds anything but text. -/
def parseReason : Reader Octets := fun it => do
  let (s, it) ← readWhile (fun c => c != 13 && isText c) it
  if (← peek it) != 13 then return ([], it)
  return (s, it)

/-- What a search for the end of a line or of a header comes to. -/
inductive Scan
  /-- The octets end first. -/
  | need
  /-- A carriage return without its line feed comes first. -/
  | bad
  /-- It ends behind this many octets. -/
  | found (n : Nat)
  deriving DecidableEq, Repr

/-- A search that started further on. -/
def Scan.shift (k : Nat) : Scan → Scan
  | .need => .need
  | .bad => .bad
  | .found n => .found (k + n)

/-- Finds the end of a line. -/
def findEol : Octets → Scan
  | [] => .need
  | c :: it =>
    if c == 13 then
      match it with
      | [] => .need
      | d :: _ => if d != 10 then .bad else .found 2
    else (findEol it).shift 1

/-- Finds the end of a header: an empty line behind another line. -/
def findEom : Octets → Scan
  | [] => .need
  | c :: it =>
    if c == 13 then
      match it with
      | [] => .need
      | d :: it =>
        if d != 10 then .bad
        else match it with
          | [] => .need
          | e :: it =>
            -- The octet behind the line is passed over unless it opens the empty line.
            if e != 13 then (findEom it).shift 3
            else match it with
              | [] => .need
              | g :: _ => if g != 10 then .bad else .found 4
    else (findEom it).shift 1

end Beast.Http
