import Beast.Zlib.InflateTable

/-! The modes in which the decoder of deflate streams reads the trees of a dynamic block. -/

namespace Beast.Zlib

/-- An error in the trees of a block. -/
inductive TreeError
  | too_many_symbols
  | invalid_bit_length_repeat
  | missing_eob
  /-- An error in the lengths of the codes. -/
  | table (e : TableError)
  /-- The logic error that is thrown where a table does not fit. -/
  | thrown
  deriving DecidableEq, Repr

/-- The decoder within a write, in the modes of the trees, with the reservoir and the input. -/
structure TreeWork where
  source : Source
  mode_ : Mode
  ec : Option TreeError
  nlen_ : Nat
  ndist_ : Nat
  ncode_ : Nat
  have_ : Nat
  lens_ : Nat → Nat
  /-- The entries that are there before a table is made, and the work area. -/
  codes_ : Nat → Code
  work_ : Nat → Nat
  lencode_ : Table
  distcode_ : Table

abbrev TreeStep := Step Halt TreeWork

namespace TreeWork

/-- Works on the reservoir and the input. -/
def onSource {α : Type} (m : SourceStep α) : TreeStep α :=
  Step.zoom TreeWork.source (fun w s => { w with source := s }) m

/-- Ensures that there are so many bits, or leaves. -/
def need (n : Nat) : TreeStep Unit := do
  if !(← onSource (Source.fill n)) then Step.stop .done

/-- Reports an error in the data, and leaves. -/
def err {α : Type} (e : TreeError) : TreeStep α := do
  modify fun w => { w with mode_ := .BAD, ec := some e }
  Step.stop .returns

/-- The order of the lengths of the bit length codes. -/
def order : List Nat := [16, 17, 18, 0, 8, 7, 9, 6, 10, 5, 11, 4, 12, 3, 13, 2, 14, 1, 15]

/-- Writes a length. -/
def setLen (i len : Nat) : TreeStep Unit :=
  modify fun w => { w with lens_ := Function.update w.lens_ i len }

/-- The lengths from one on, so many of them. -/
def lensOf (w : TreeWork) (first count : Nat) : List Nat := (List.range' first count).map w.lens_

/-- Makes a table, or reports what is wrong with the lengths, and leaves one way or the other. -/
def makeTable (type : Build) (lens : List Nat) (bits : Nat) (leave : Halt) : TreeStep Table := do
  let w ← get
  match inflate_table type lens w.codes_ bits w.work_ with
  | .table t _ => return t
  | .fails e => do
    modify fun w => { w with mode_ := .BAD, ec := some (.table e) }
    Step.stop leave
  | .throws => err .thrown
  | .runs => Step.stop (.fault .idle)

def doTABLE : TreeStep Unit := do
  need (5 + 5 + 4)
  let nlen ← onSource (Source.read 32 5)
  let ndist ← onSource (Source.read 32 5)
  let ncode ← onSource (Source.read 32 4)
  modify fun w => { w with nlen_ := nlen + 257, ndist_ := ndist + 1, ncode_ := ncode + 4 }
  if 286 < nlen + 257 ∨ 30 < ndist + 1 then err .too_many_symbols
  else modify fun w => { w with have_ := 0, mode_ := .LENLENS }

/-- Reads the lengths of so many bit length codes. -/
def readLens : Nat → TreeStep Unit
  | 0 => pure ()
  | more + 1 => do
    need 3
    let len ← onSource (Source.read 16 3)
    setLen (order.getD (← get).have_ 0) len
    modify fun w => { w with have_ := w.have_ + 1 }
    readLens more

/-- So many bit length codes have no lengths. -/
def clearLens : Nat → TreeStep Unit
  | 0 => pure ()
  | more + 1 => do
    setLen (order.getD (← get).have_ 0) 0
    modify fun w => { w with have_ := w.have_ + 1 }
    clearLens more

def doLENLENS : TreeStep Unit := do
  readLens ((← get).ncode_ - (← get).have_)
  clearLens (order.length - (← get).have_)
  let t ← makeTable .codes ((← get).lensOf 0 order.length) 7 .done
  modify fun w => { w with lencode_ := t, have_ := 0, mode_ := .CODELENS }

/-- Repeats a length so often. -/
def repeatLen (len copy : Nat) : TreeStep Unit := do
  let w ← get
  if w.nlen_ + w.ndist_ < w.have_ + copy then err .invalid_bit_length_repeat
  else
    modify fun w => { w with
      lens_ := fun i => if w.have_ ≤ i ∧ i < w.have_ + copy then len else w.lens_ i
      have_ := w.have_ + copy }

/-- Reads a symbol of the bit length codes, with its extra bits. -/
def readSymbol : TreeStep Unit := do
  let bits := (← get).lencode_.bits
  need bits
  let v ← onSource (Source.peek 16 bits)
  let cp := (← get).lencode_.entries v
  if cp.val < 16 then
    onSource (Source.drop cp.bits)
    setLen (← get).have_ cp.val
    modify fun w => { w with have_ := w.have_ + 1 }
  else if cp.val = 16 then
    need (cp.bits + 2)
    onSource (Source.drop cp.bits)
    if (← get).have_ = 0 then err .invalid_bit_length_repeat
    else
      let copy ← onSource (Source.read 16 2)
      repeatLen ((← get).lens_ ((← get).have_ - 1)) (copy + 3)
  else if cp.val = 17 then
    need (cp.bits + 3)
    onSource (Source.drop cp.bits)
    let copy ← onSource (Source.read 16 3)
    repeatLen 0 (copy + 3)
  else
    need (cp.bits + 7)
    onSource (Source.drop cp.bits)
    let copy ← onSource (Source.read 16 7)
    repeatLen 0 (copy + 11)

/-- Reads symbols while there are lengths left, so many at most. -/
def readSymbols : Nat → TreeStep Unit
  | 0 => pure ()
  | more + 1 => do
    if (← get).have_ < (← get).nlen_ + (← get).ndist_ then
      readSymbol
      readSymbols more

/-- Builds the code tables. -/
def makeTables : TreeStep Unit := do
  let t ← makeTable .lens ((← get).lensOf 0 (← get).nlen_) 9 .returns
  modify fun w => { w with lencode_ := t }
  let t ← makeTable .dists ((← get).lensOf (← get).nlen_ (← get).ndist_) 6 .returns
  modify fun w => { w with distcode_ := t, mode_ := .LEN_ }

def doCODELENS : TreeStep Unit := do
  -- Each symbol is for a length at least.
  readSymbols ((← get).nlen_ + (← get).ndist_ - (← get).have_)
  -- Check for end-of-block code (better have one).
  if (← get).lens_ 256 = 0 then err .missing_eob
  else makeTables

/-- What the decoder does in the modes of the trees, from the first of them on. -/
def doTrees : TreeStep Unit := do
  doTABLE
  doLENLENS
  doCODELENS

/-- What a write does in the modes of the trees: it goes on in the mode that it finds. -/
def doModes : TreeStep Unit := do
  match (← get).mode_ with
  | .TABLE => doTrees
  | .LENLENS =>
    doLENLENS
    doCODELENS
  | .CODELENS => doCODELENS
  | _ => pure ()

/-- Writes one after another, each with input of its own. -/
def writes (w : TreeWork) (inputs : List Source) : TreeWork :=
  inputs.foldl (fun w s => (Step.run doModes { w with source := s }).2) w

end TreeWork

end Beast.Zlib
