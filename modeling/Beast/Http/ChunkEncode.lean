import Beast.Http.BasicParserBase
import Mathlib.Tactic.Ring

/-! The encoding of a body in chunks. -/

namespace Beast.Http

/-- The digit of a value below sixteen. -/
def hexDigit (n : Nat) : UInt8 :=
  (octets "0123456789abcdef").getD n 0

/--
Writes the digits of a number that is not zero, from the last to the first.

It writes them in front of others, where there is room for so many, or else outside of it.
-/
def toHexLoop : Nat → Nat → Octets → Except Halt Octets
  | _, 0, last => .ok last
  | 0, _ + 1, _ => .error .outside
  | room + 1, n + 1, last =>
    toHexLoop room ((n + 1) >>> 4) (hexDigit ((n + 1) &&& 15) :: last)

/-- Writes a number in base sixteen in front of other octets. -/
def toHex (n : Nat) (last : Octets) : Except Halt Octets :=
  if n == 0 then .ok (octet '0' :: last) else toHexLoop 16 n last

/-- The size of a chunk, as its first line says it. -/
def chunkEncodeDelim (n : Nat) : Except Halt Octets := toHex n [13, 10]

/-- The size of a sequence of buffers, as a number of 64 bits. -/
def bufferSize (buffers : List Octets) : Nat :=
  (buffers.map List.length).sum % 2 ^ 64

/-- Encodes a sequence of buffers as one chunk. -/
def chunkEncode (fin : Bool) (buffers : List Octets) : Except Halt Octets := do
  let delim ← chunkEncodeDelim (bufferSize buffers)
  return delim ++ buffers.flatten ++ if fin then octets "\r\n0\r\n\r\n" else octets "\r\n"

/-- The chunk that ends a body. -/
def chunkEncodeFinal : Octets := octets "0\r\n\r\n"

end Beast.Http
