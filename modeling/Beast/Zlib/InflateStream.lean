import Beast.Zlib.Bitstream
import Beast.Zlib.Window
import Mathlib.Tactic.Ring

/-! The modes in which the decoder of deflate streams reads the symbols of a compressed block. -/

namespace Beast.Zlib

/-- An error in the data of a compressed block. -/
inductive Error
  | invalid_literal_length
  | invalid_distance_code
  | invalid_distance
  deriving DecidableEq, Repr

inductive Mode
  | HEAD | FLAGS | TIME | OS | EXLEN | EXTRA | NAME | COMMENT | HCRC
  | TYPE | TYPEDO | STORED | COPY_ | COPY | TABLE | LENLENS | CODELENS
  | LEN_ | LEN | LENEXT | DIST | DISTEXT | MATCH | LIT
  | CHECK | LENGTH | DONE | BAD | SYNC
  deriving DecidableEq, Repr

/-- An entry of a table: what it stands for, how many bits it takes, and a value. -/
structure Code where
  op : Nat
  bits : Nat
  val : Nat
  deriving DecidableEq, Repr

/-- The entries of a table, from its start on, and how many bits are looked up first. -/
structure Table where
  entries : Nat → Code
  bits : Nat

/-- The tables of a block, for literals and lengths, and for distances. -/
structure Codes where
  lencode : Table
  distcode : Table

/-- The decoder within a write, with the reservoir, the input, the output and its room. -/
structure Work where
  source : Source
  mode_ : Mode
  w_ : Window
  length_ : Nat
  offset_ : Nat
  extra_ : Nat
  out : Octets
  space : Nat
  ec : Option Error
  /-- What was asked of the window so far: how far back, and how many octets. -/
  reads : List (Nat × Nat)

/-- How much room for output is left. -/
def Work.availOut (w : Work) : Nat := w.space - w.out.length

/-- Whether there is input and room enough for a round without checks. -/
def Work.roomy (w : Work) : Prop := 6 ≤ w.source.avail ∧ 258 ≤ w.availOut

instance (w : Work) : Decidable w.roomy := inferInstanceAs (Decidable (_ ∧ _))

abbrev WriteStep := Step Halt Work

/-- Works on the reservoir and the input. -/
def onSource {α : Type} (m : SourceStep α) : WriteStep α :=
  Step.zoom Work.source (fun w s => { w with source := s }) m

/-- Goes to a mode. -/
def setMode (m : Mode) : WriteStep Unit := modify fun w => { w with mode_ := m }

/-- Ensures that there are so many bits, or leaves. -/
def need (n : Nat) : WriteStep Unit := do
  if !(← onSource (Source.fill n)) then Step.stop .done

/-- Reports an error in the data, and leaves. -/
def err {α : Type} (e : Error) : WriteStep α := do
  modify fun w => { w with mode_ := .BAD, ec := some e }
  Step.stop .returns

/-- Writes octets to the output. -/
def put (octets : Octets) : WriteStep Unit := do
  if (← get).space < (← get).out.length + octets.length then Step.stop (.fault .output)
  else modify fun w => { w with out := w.out ++ octets }

/-- Copies octets from the window to the output. -/
def copyWindow (pos n : Nat) : WriteStep Unit := do
  put ((← get).w_.read pos n)
  modify fun w => { w with reads := w.reads ++ [(pos, n)] }

/-- Copies octets from the output to its end, one after another. -/
def copyOutput (offset : Nat) : Nat → WriteStep Unit
  | 0 => pure ()
  | n + 1 => do
    let out := (← get).out
    match if offset ≤ out.length then out[out.length - offset]? else none with
    | none => Step.stop (.fault .output)
    | some c =>
      put [c]
      copyOutput offset n

/-- Whether an entry for literals and lengths is a link to another table. -/
def Code.lenLink (cp : Code) : Bool := cp.op != 0 && cp.op &&& 0xf0 == 0

/-- Whether an entry for distances is a link to another table. -/
def Code.distLink (cp : Code) : Bool := cp.op &&& 0xf0 == 0

/-- Looks a code up, with its link followed, where there are bits enough for that. -/
def lookup (t : Table) (isLink : Code → Bool) : WriteStep Code := do
  need t.bits
  let v ← onSource (Source.peek 16 t.bits)
  let cp := t.entries v
  if isLink cp then
    let prev := cp
    need (prev.bits + prev.op)
    let v ← onSource (Source.peek 16 (prev.bits + prev.op))
    let cp := t.entries (prev.val + v >>> prev.bits)
    onSource (Source.drop (prev.bits + cp.bits))
    return cp
  else
    onSource (Source.drop cp.bits)
    return cp

/-- Reads extra bits where there are any to read. -/
def readExtra (extra : Nat) : WriteStep Nat := do
  if extra ≠ 0 then
    need extra
    onSource (Source.read 16 extra)
  else return 0

/-- The checked way to decode a code for a literal, a length or the end of the block. -/
def decodeLen (t : Codes) : WriteStep Unit := do
  let cp ← lookup t.lencode Code.lenLink
  modify fun w => { w with length_ := cp.val }
  if cp.op = 0 then setMode .LIT
  else if cp.op &&& 32 ≠ 0 then setMode .TYPE
  else if cp.op &&& 64 ≠ 0 then err .invalid_literal_length
  else modify fun w => { w with extra_ := cp.op &&& 15, mode_ := .LENEXT }

def doLENEXT : WriteStep Unit := do
  let v ← readExtra (← get).extra_
  modify fun w => { w with length_ := w.length_ + v, mode_ := .DIST }

def doDIST (t : Codes) : WriteStep Unit := do
  let cp ← lookup t.distcode Code.distLink
  if cp.op &&& 64 ≠ 0 then err .invalid_distance_code
  else modify fun w => { w with offset_ := cp.val, extra_ := cp.op &&& 15, mode_ := .DISTEXT }

def doDISTEXT : WriteStep Unit := do
  let v ← readExtra (← get).extra_
  modify fun w => { w with offset_ := w.offset_ + v, mode_ := .MATCH }

/-- Copies as much of a match as there is room for, from the window or else from the output. -/
def copyMatch : WriteStep Unit := do
  let w ← get
  if w.out.length < w.offset_ then
    let offset := (w.offset_ - w.out.length) % 2 ^ 16
    if w.w_.size_ < offset then err .invalid_distance
    else
      let n := min (min w.length_ offset) w.availOut
      copyWindow offset n
      modify fun w => { w with length_ := w.length_ - n }
  else
    let n := min w.length_ w.availOut
    modify fun w => { w with length_ := w.length_ - n }
    copyOutput w.offset_ n

def doMATCH : WriteStep Unit := do
  if (← get).availOut = 0 then Step.stop .done
  else
    copyMatch
    if (← get).length_ = 0 then setMode .LEN

def doLIT : WriteStep Unit := do
  if (← get).availOut = 0 then Step.stop .done
  else
    put [UInt8.ofNat (← get).length_]
    setMode .LEN

/-- What is done in the mode that the decoder is in, with checks. -/
def doMode (t : Codes) : WriteStep Unit := do
  match (← get).mode_ with
  | .LEN => decodeLen t
  | .LENEXT => doLENEXT
  | .DIST => doDIST t
  | .DISTEXT => doDISTEXT
  | .MATCH => doMATCH
  | .LIT => doLIT
  | _ => Step.stop .elsewhere

/-- The loop over the modes as a machine, which ends where the loop is left. -/
def turn (t : Codes) (w : Work) : Work ⊕ Halt × Work :=
  match Step.run (doMode t) w with
  | (.ok _, w) => .inl w
  | (.error h, w) => .inr (h, w)

/-- Whether the unchecked loop goes on or ends. -/
inductive Fast
  | on
  | off
  deriving DecidableEq, Repr

/-- Reports an error in the data, and ends the unchecked loop. -/
def fastError (e : Error) : WriteStep Fast := do
  modify fun w => { w with mode_ := .BAD, ec := some e }
  return .off

/-- Takes octets where there are fewer bits than a code may have. -/
def refill : SourceStep Unit := do
  if (← get).bi_.n_ < 15 then Source.fill_16

/-- Takes an octet where there are fewer bits than the extra ones of a length. -/
def fillLenExtra (op : Nat) : SourceStep Unit := do
  if (← get).bi_.n_ < op then Source.fill_8

/-- Takes up to two octets where there are fewer bits than the extra ones of a distance. -/
def fillDistExtra (op : Nat) : SourceStep Unit := do
  if (← get).bi_.n_ < op then
    Source.fill_8
    if (← get).bi_.n_ < op then Source.fill_8

/-- Whether the unchecked loop takes an entry for literals and lengths for a link. -/
def Code.fastLenLink (cp : Code) : Bool := cp.op != 0 && cp.op &&& 16 == 0 && cp.op &&& 64 == 0

/-- Whether the unchecked loop takes an entry for distances for a link. -/
def Code.fastDistLink (cp : Code) : Bool := cp.op &&& 16 == 0 && cp.op &&& 64 == 0

/-- Discards the bits of an entry, and follows links, so many at most. -/
def follow (t : Table) (isLink : Code → Bool) : Nat → Code → WriteStep Code
  | 0, _ => Step.stop (.fault .idle)
  | fuel + 1, cp => do
    onSource (Source.drop cp.bits)
    if isLink cp then
      let v ← onSource Source.peek_fast
      follow t isLink fuel (t.entries (cp.val + v % 2 ^ cp.op))
    else return cp

/-- Looks a code up without checks. -/
def fastLookup (t : Table) (isLink : Code → Bool) : WriteStep Code := do
  onSource refill
  let v ← onSource Source.peek_fast
  -- Each link takes a bit of the reservoir at least.
  follow t isLink ((← get).source.bi_.n_ + 1) (t.entries (v % 2 ^ t.bits))

/-- Takes the next bits without checks. -/
def fastExtra (op : Nat) : WriteStep Nat := do
  let v ← onSource Source.peek_fast
  onSource (Source.drop op)
  return v % 2 ^ op

/-- Copies what is left of a match from the output. -/
def fastOutput (len dist : Nat) : WriteStep Fast := do
  if 0 < len then copyOutput dist (min len (← get).availOut)
  return .on

/-- Copies a match without checks. -/
def fastMatch (len dist : Nat) : WriteStep Fast := do
  let used := (← get).out.length
  if used < dist then
    let op := dist - used
    if (← get).w_.size_ < op then fastError .invalid_distance
    else
      let n := min len op
      copyWindow op n
      fastOutput (len - n) dist
  else fastOutput len dist

/-- Decodes what follows a length without checks. -/
def fastDist (t : Codes) (len : Nat) : WriteStep Fast := do
  let cp ← fastLookup t.distcode Code.fastDistLink
  if cp.op &&& 16 ≠ 0 then
    let op := cp.op &&& 15
    onSource (fillDistExtra op)
    let v ← fastExtra op
    fastMatch len (cp.val + v)
  else fastError .invalid_distance_code

/-- One round of the unchecked loop. -/
def fastRound (t : Codes) : WriteStep Fast := do
  let cp ← fastLookup t.lencode Code.fastLenLink
  if cp.op = 0 then
    put [UInt8.ofNat cp.val]
    return .on
  else if cp.op &&& 16 ≠ 0 then
    let op := cp.op &&& 15
    if op ≠ 0 then
      onSource (fillLenExtra op)
      let v ← fastExtra op
      fastDist t (cp.val + v)
    else fastDist t cp.val
  else if cp.op &&& 32 ≠ 0 then
    setMode .TYPE
    return .off
  else fastError .invalid_literal_length

/-- The rounds of the unchecked loop, so many at most. -/
def fastLoop (t : Codes) : Nat → WriteStep Unit
  | 0 => Step.stop (.fault .idle)
  | fuel + 1 => do
    match ← fastRound t with
    | .off => pure ()
    | .on => if (← get).roomy then fastLoop t fuel else pure ()

/-- Decodes without checks while there is input and room enough. -/
def inflate_fast (t : Codes) : WriteStep Unit := do
  -- Each round takes a bit at least of those that are there.
  fastLoop t ((← get).source.bi_.n_ + 8 * (← get).source.avail)
  onSource Source.rewind

/-- Decodes without checks, and comes to where the loop over the modes goes on, or is left. -/
def fastTurn (t : Codes) (w : Work) : Work ⊕ Halt × Work :=
  match Step.run (inflate_fast t) w with
  | (.ok _, w) => if w.mode_ = .BAD then .inr (.returns, w) else .inl w
  | (.error h, w) => .inr (h, w)

/-- Decodes without checks where there is input and room enough, and with checks elsewhere. -/
def doLEN (t : Codes) : WriteStep Unit := do
  if (← get).roomy then
    inflate_fast t
    if (← get).ec.isSome then
      setMode .BAD
      Step.stop .returns
  else decodeLen t

end Beast.Zlib
