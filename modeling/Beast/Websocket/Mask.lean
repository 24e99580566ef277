import Mathlib.Tactic.Common
import Beast.Core.CiCharTraits

/-! Masking of payloads, many octets at a time. -/

namespace Beast.Websocket

/-- A mask key that is repeated to fill a word of some number of octets. -/
abbrev PreparedKey (w : Nat) := BitVec (8 * w)

variable {w : Nat}

/-- Repeats a key to fill a word of four octets. -/
def prepareKey32 (key : UInt32) : PreparedKey 4 := key.toBitVec

/-- Repeats a key to fill a word of eight octets. -/
def prepareKey64 (key : UInt32) : PreparedKey 8 :=
  (key.toBitVec.setWidth 64 <<< 32) ||| key.toBitVec.setWidth 64

/-- Rotates a word to the right. -/
def ror (t : PreparedKey w) (n : Nat) : PreparedKey w := t.rotateRight n

/-- One octet of a word, the least significant one first. -/
def keyByte (key : PreparedKey w) (j : Nat) : UInt8 :=
  UInt8.ofBitVec ((key >>> (8 * j)).setWidth 8)

/-- Masks octets that a word covers, each with its own octet of the word. -/
def maskOctets (key : PreparedKey w) (text : Octets) : Octets :=
  text.mapIdx fun j c => c ^^^ keyByte key j

/-- Masks one word after another. -/
def maskWords (key : PreparedKey w) : Nat → Octets → Octets
  | 0, _ => []
  | n + 1, text => maskOctets key (text.take w) ++ maskWords key n (text.drop w)

/--
Masks octets, and leaves the key turned to the octet that comes next.

The text starts so many octets behind a word boundary of the memory.
-/
def maskInplaceFast (align : Nat) (key : PreparedKey w) (text : Octets) : Octets × PreparedKey w :=
  -- Texts that fill a word are first brought to a word boundary.
  let d := if w ≤ text.length ∧ align % w ≠ 0 then w - align % w else 0
  let head := maskOctets key (text.take d)
  let key := ror key (8 * d)
  let text := text.drop d
  let n := text.length / w
  let leftovers := text.drop (w * n)
  (head ++ maskWords key n text ++ maskOctets key leftovers, ror key (8 * leftovers.length))

end Beast.Websocket
