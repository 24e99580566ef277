import Beast.Lib.Machine
import Beast.Zlib.TreeModes

/-! The decoder of deflate streams: what a write does, from block to block and in all of its modes. -/

namespace Beast.Zlib

inductive Flush
  | none | block | partialFlush | sync | full | finish | trees
  deriving DecidableEq, Repr

/-- What a write reports. -/
inductive StreamError
  | need_buffers
  | end_of_stream
  | invalid_block_type
  | invalid_stored_length
  /-- An error in the trees of a block. -/
  | tree (e : TreeError)
  /-- An error in the data of a block. -/
  | data (e : Error)
  deriving DecidableEq, Repr

/-! ## The fixed tables -/

/-- The lengths of the fixed codes for literals and lengths. -/
def fixedLens : List Nat :=
  List.replicate 144 8 ++ List.replicate 112 9 ++ List.replicate 24 7 ++ List.replicate 8 8

/-- The lengths of the fixed codes for distances. -/
def fixedDists : List Nat := List.replicate 32 5

/-- The fixups: the entries of two codes that do not exist are invalid ones. -/
def fixup (t : Table) : Table :=
  { t with entries := fun i => if i ∈ [99, 227, 355, 483] then { t.entries i with op := 64 } else t.entries i }

/-- The tables of the fixed codes, unless they cannot be made and an exception is thrown. -/
def get_fixed_tables : Option Codes :=
  -- The entries and the work area are written before they are read.
  match inflate_table .lens fixedLens (fun _ => ⟨0, 0, 0⟩) 9 fun _ => 0 with
  | .table lencode _ =>
    match inflate_table .dists fixedDists (fun _ => ⟨0, 0, 0⟩) 5 fun _ => 0 with
    | .table distcode _ => some ⟨fixup lencode, distcode⟩
    | _ => none
  | _ => none

/-! ## The state -/

/-- The decoder within a write. -/
structure InflateStream where
  /-- What is read of trees, with the mode, the reservoir and the input. -/
  tree : TreeWork
  /-- Whether the last block is processed. -/
  last_ : Bool
  w_ : HistoryWindow
  /-- What new memory of the window holds. -/
  fresh : Nat → UInt8
  length_ : Nat
  offset_ : Nat
  extra_ : Nat
  out : Octets
  space : Nat
  ec : Option StreamError
  /-- What was asked of the window so far: how far back, and how many octets. -/
  reads : List (Nat × Nat)

abbrev InflateStep := Step Halt InflateStream

namespace InflateStream

/-- The part of the state that symbols are decoded with. -/
def work (s : InflateStream) : Work where
  source := s.tree.source
  mode_ := s.tree.mode_
  w_ := s.w_.toWindow
  length_ := s.length_
  offset_ := s.offset_
  extra_ := s.extra_
  out := s.out
  space := s.space
  ec := .none
  reads := s.reads

/-- The state behind some work on symbols. -/
def worked (s : InflateStream) (w : Work) : InflateStream :=
  { s with
    tree := { s.tree with source := w.source, mode_ := w.mode_ }
    length_ := w.length_
    offset_ := w.offset_
    extra_ := w.extra_
    out := w.out
    space := w.space
    ec := w.ec.map .data
    reads := w.reads }

/-- Works on symbols. -/
def onWork {α : Type} (m : WriteStep α) : InflateStep α := Step.zoom work worked m

/-- Works on trees. -/
def onTree {α : Type} (m : TreeStep α) : InflateStep α :=
  Step.zoom tree (fun s t => { s with tree := t, ec := t.ec.map .tree }) m

/-- Works on the reservoir and the input. -/
def onSource {α : Type} (m : SourceStep α) : InflateStep α :=
  Step.zoom (fun s => s.tree.source) (fun s source => { s with tree := { s.tree with source } }) m

/-- Goes to a mode. -/
def setMode (m : Mode) : InflateStep Unit := modify fun s => { s with tree := { s.tree with mode_ := m } }

/-- Ensures that there are so many bits, or leaves. -/
def need (n : Nat) : InflateStep Unit := do
  if !(← onSource (Source.fill n)) then Step.stop .done

/-- Reports an error, and leaves. -/
def err {α : Type} (e : StreamError) : InflateStep α := do
  modify fun s => { s with tree := { s.tree with mode_ := .BAD }, ec := some e }
  Step.stop .returns

/-! ## The modes -/

/-- Takes the fixed tables. -/
def fixedTables : InflateStep Unit := do
  match get_fixed_tables with
  | some t => modify fun s => { s with tree := { s.tree with lencode_ := t.lencode, distcode_ := t.distcode } }
  | .none => Step.stop .elsewhere

/-- Goes to the symbols of a block, or leaves before them. -/
def enter (flush : Flush) : InflateStep Unit := do
  setMode .LEN_
  if flush = .trees then Step.stop .done

def doTYPEDO (flush : Flush) : InflateStep Unit := do
  if (← get).last_ then
    onSource Source.flush_byte
    setMode .CHECK
  else
    need 3
    let v ← onSource (Source.read 8 1)
    modify fun s => { s with last_ := v != 0 }
    let v ← onSource (Source.read 8 2)
    match v with
    | 0 => setMode .STORED
    | 1 => do
      fixedTables
      enter flush
    | 2 => setMode .TABLE
    | _ => err .invalid_block_type

def doSTORED (flush : Flush) : InflateStep Unit := do
  onSource Source.flush_byte
  need 32
  let v ← onSource (Source.peek 32 32)
  modify fun s => { s with length_ := v &&& 0xffff }
  if v &&& 0xffff ≠ v >>> 16 ^^^ 0xffff then err .invalid_stored_length
  else
    onSource Source.flush
    setMode .COPY_
    if flush = .trees then Step.stop .done

/-- Copies as much of a stored block as there is input and room for. -/
def doCOPY : InflateStep Unit := do
  let s ← get
  if s.length_ = 0 then setMode .TYPE
  else
    let copy := min (min s.length_ s.tree.source.avail) (s.space - s.out.length)
    if copy = 0 then Step.stop .done
    else
      modify fun s => { s with
        tree := { s.tree with source := { s.tree.source with next := s.tree.source.next + copy } }
        out := s.out ++ (s.tree.source.input.drop s.tree.source.next).take copy
        length_ := s.length_ - copy }

/-- Decodes symbols with the tables of the block. -/
def doSymbols : InflateStep Unit := do
  let t : Codes := ⟨(← get).tree.lencode_, (← get).tree.distcode_⟩
  if (← get).tree.mode_ = .LEN then onWork (doLEN t) else onWork (doMode t)

/-- What is done in the mode that the decoder is in. -/
def doStream (flush : Flush) : InflateStep Unit := do
  match (← get).tree.mode_ with
  | .HEAD => setMode .TYPEDO
  | .TYPE =>
    if flush = .block ∨ flush = .trees then Step.stop .done
    else doTYPEDO flush
  | .TYPEDO => doTYPEDO flush
  | .STORED => doSTORED flush
  | .COPY_ => setMode .COPY
  | .COPY => doCOPY
  | .TABLE | .LENLENS | .CODELENS => do
    onTree TreeWork.doModes
    enter flush
  | .LEN_ => setMode .LEN
  | .LEN | .LENEXT | .DIST | .DISTEXT | .MATCH | .LIT => doSymbols
  | .CHECK => setMode .DONE
  | .DONE => do
    modify fun s => { s with ec := some .end_of_stream }
    Step.stop .done
  | .BAD => Step.stop .done
  | _ => Step.stop .elsewhere

/-- The loop over the modes as a machine, which ends where the loop is left. -/
def turn (flush : Flush) (s : InflateStream) : InflateStream ⊕ Halt × InflateStream :=
  match Step.run (doStream flush) s with
  | (.ok _, s) => .inl s
  | (.error h, s) => .inr (h, s)

/-! ## Writes -/

/-- What is done at the end of most writes: the window is updated, and it is told where nothing was done. -/
def done (flush : Flush) (s : InflateStream) : InflateStream :=
  let s :=
    if s.out ≠ [] ∧ s.tree.mode_ ∉ [.BAD, .SYNC] ∧
        (s.tree.mode_ ∉ [.CHECK, .LENGTH, .DONE] ∨ flush ≠ .finish) then
      { s with w_ := s.w_.write s.fresh s.out }
    else s
  if ((s.tree.source.next = 0 ∧ s.out = []) ∨ flush = .finish) ∧ s.ec = .none then
    { s with ec := some .need_buffers }
  else s

/-- The decoder where a write with some input and some room begins. -/
def given (s : InflateStream) (input : Octets) (space : Nat) : InflateStream :=
  { s with
    tree := { s.tree with
      source := ⟨s.tree.source.bi_, input, 0⟩
      mode_ := if s.tree.mode_ = .TYPE then .TYPEDO else s.tree.mode_
      ec := .none }
    out := []
    space
    ec := .none
    reads := [] }

/-- A write with some input and some room comes from one state to another. -/
def Writes (flush : Flush) (input : Octets) (space : Nat) (s s' : InflateStream) : Prop :=
  ∃ h t, Machine.Ends (turn flush) (.inl (s.given input space)) (h, t) ∧
    s' = if h = .done then t.done flush else t

/-- The decoder before the first block, unless the bits of the window are out of range. -/
def doReset (windowBits : Nat) (s : InflateStream) : Option InflateStream :=
  if windowBits < 8 ∨ 15 < windowBits then .none
  else some { s with
    w_ := s.w_.reset windowBits
    tree := { s.tree with
      source := { s.tree.source with bi_ := .empty }
      mode_ := .HEAD
      lencode_ := { s.tree.lencode_ with entries := s.tree.codes_ }
      distcode_ := { s.tree.distcode_ with entries := s.tree.codes_ } }
    last_ := false }

end InflateStream

end Beast.Zlib
