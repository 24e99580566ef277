import Beast.Lib.BitString
import Beast.Lib.Machine
import Beast.Zlib.InflateStream

/-! What a compressed block stands for: its symbols, read one after another from a string of bits. -/

namespace Beast.Zlib

namespace Code

/-- Whether an entry is a link, to a table with indexes of so many bits as it says. -/
def IsLink (cp : Code) : Prop := 0 < cp.op ∧ cp.op < 16

instance (cp : Code) : Decidable cp.IsLink := inferInstanceAs (Decidable (_ ∧ _))

/-- What a code for literals and lengths may stand for. -/
def LenLeaf (cp : Code) : Prop :=
  -- A literal, a length of at most 258 octets, the end of the block, or an invalid code.
  cp.op = 0 ∨ (∃ e ≤ 5, cp.op = 16 + e ∧ cp.val + 2 ^ e ≤ 259) ∨
    cp.op = 96 ∨ cp.op = 64 ∨ cp.op = 72 ∨ cp.op = 78

/-- What a code for distances may stand for. -/
def DistLeaf (cp : Code) : Prop :=
  -- A distance of at most 32768 octets, or an invalid code.
  (∃ e ≤ 13, cp.op = 16 + e ∧ 1 ≤ cp.val ∧ cp.val + 2 ^ e ≤ 32769) ∨ cp.op = 64

/-- An entry where a code ends that takes so many bits at most. -/
structure Final (IsLeaf : Code → Prop) (most : Nat) (cp : Code) : Prop where
  leaf : IsLeaf cp
  positive : 1 ≤ cp.bits
  bits : cp.bits ≤ most

end Code

/-- A link to entries where codes end, which take no more than 15 bits with it. -/
structure Table.Linked (t : Table) (IsLeaf : Code → Prop) (cp : Code) : Prop where
  link : cp.IsLink
  positive : 1 ≤ cp.bits
  bits : cp.bits + cp.op ≤ 15
  final : ∀ j < 2 ^ cp.op, Code.Final IsLeaf cp.op (t.entries (cp.val + j))

/-- A table in which every code of at most 15 bits ends, behind one link at most. -/
structure Table.Valid (t : Table) (IsLeaf : Code → Prop) : Prop where
  bits : t.bits ≤ 15
  entry : ∀ i < 2 ^ t.bits, Code.Final IsLeaf t.bits (t.entries i) ∨ t.Linked IsLeaf (t.entries i)

/-- The tables of a block, in which every string of bits is decoded. -/
structure ValidCodes extends Codes where
  lens : lencode.Valid Code.LenLeaf
  dists : distcode.Valid Code.DistLeaf

/-- The code that a string of bits starts with at some place, and how many bits it takes. -/
def Table.decode (t : Table) (b : BitString) (pos : Nat) : Option (Code × Nat) :=
  -- More bits are asked for than the code may take, so that a string may be too short for it.
  if b.length < pos + t.bits then none
  else
    let cp := t.entries (b.slice pos t.bits)
    if cp.IsLink then
      if b.length < pos + (cp.bits + cp.op) then none
      else
        let sub := t.entries (cp.val + b.slice (pos + cp.bits) cp.op)
        some (sub, cp.bits + sub.bits)
    else some (cp, cp.bits)

/-- What a decoder waits for within a block, with what it has read of a symbol so far. -/
inductive Phase
  | LEN
  | LENEXT (length extra : Nat)
  | DIST (length : Nat)
  | DISTEXT (length offset extra : Nat)
  | MATCH (length offset : Nat)
  | LIT (value : Nat)
  | elsewhere (m : Mode)
  deriving DecidableEq

/-- The mode of a decoder that waits for something. -/
def Phase.mode : Phase → Mode
  | LEN => .LEN
  | LENEXT _ _ => .LENEXT
  | DIST _ => .DIST
  | DISTEXT _ _ _ => .DISTEXT
  | MATCH _ _ => .MATCH
  | LIT _ => .LIT
  | elsewhere m => m

/-- What stays the same while a block is decoded. -/
structure Block where
  codes : ValidCodes
  bits : BitString
  window : Window
  space : Nat

/-- A decoder at a place of the string of bits, with what it has done so far. -/
structure Decoder where
  pos : Nat
  phase : Phase
  out : Octets
  reads : List (Nat × Nat)
  ec : Option Error

/-- Octets behind others, each of them as the one that is so far back. -/
def repeated (offset : Nat) : Nat → Octets → Octets
  | 0, out => out
  | n + 1, out => repeated offset n (out ++ [out.getD (out.length - offset) 0])

/-- The symbol of a code for literals and lengths, whose bits were read. -/
def Decoder.symbol (d : Decoder) (cp : Code) : Decoder ⊕ Halt × Decoder :=
  if cp.op = 0 then .inl { d with phase := .LIT cp.val }
  else if cp.op &&& 32 ≠ 0 then .inl { d with phase := .elsewhere .TYPE }
  else if cp.op &&& 64 ≠ 0 then
    .inr (.returns, { d with phase := .elsewhere .BAD, ec := some .invalid_literal_length })
  else .inl { d with phase := .LENEXT cp.val (cp.op &&& 15) }

/-- The distance of a code, whose bits were read. -/
def Decoder.distance (d : Decoder) (length : Nat) (cp : Code) : Decoder ⊕ Halt × Decoder :=
  if cp.op &&& 64 ≠ 0 then
    .inr (.returns, { d with phase := .elsewhere .BAD, ec := some .invalid_distance_code })
  else .inl { d with phase := .DISTEXT length cp.val (cp.op &&& 15) }

/-- What a decoder waits for where so much of a match is left. -/
def Phase.rest (length offset : Nat) : Phase := if length = 0 then .LEN else .MATCH length offset

/-- What is copied of a match at once: from the window, or else from the output. -/
def Block.copy (k : Block) (d : Decoder) (length offset : Nat) : Decoder ⊕ Halt × Decoder :=
  if d.out.length < offset then
    let back := offset - d.out.length
    if k.window.size_ < back then
      .inr (.returns, { d with phase := .elsewhere .BAD, ec := some .invalid_distance })
    else
      let n := min (min length back) (k.space - d.out.length)
      .inl { d with
        out := d.out ++ k.window.read back n
        reads := d.reads ++ [(back, n)]
        phase := .rest (length - n) offset }
  else
    let n := min length (k.space - d.out.length)
    .inl { d with out := repeated offset n d.out, phase := .rest (length - n) offset }

/-- What a decoder does next, or where it stops. -/
def Block.step (k : Block) (d : Decoder) : Decoder ⊕ Halt × Decoder :=
  match d.phase with
  | .LEN =>
    match k.codes.lencode.decode k.bits d.pos with
    | none => .inr (.done, d)
    | some (cp, n) => Decoder.symbol { d with pos := d.pos + n } cp
  | .LENEXT length extra =>
    if k.bits.length < d.pos + extra then .inr (.done, d)
    else .inl { d with
      pos := d.pos + extra
      phase := .DIST (length + k.bits.slice d.pos extra) }
  | .DIST length =>
    match k.codes.distcode.decode k.bits d.pos with
    | none => .inr (.done, d)
    | some (cp, n) => Decoder.distance { d with pos := d.pos + n } length cp
  | .DISTEXT length offset extra =>
    if k.bits.length < d.pos + extra then .inr (.done, d)
    else .inl { d with
      pos := d.pos + extra
      phase := .MATCH length (offset + k.bits.slice d.pos extra) }
  | .MATCH length offset =>
    if k.space ≤ d.out.length then .inr (.done, d) else k.copy d length offset
  | .LIT value =>
    if k.space ≤ d.out.length then .inr (.done, d)
    else .inl { d with out := d.out ++ [UInt8.ofNat value], phase := .LEN }
  | .elsewhere _ => .inr (.elsewhere, d)

end Beast.Zlib
