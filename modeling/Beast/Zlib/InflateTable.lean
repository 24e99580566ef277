import Beast.Lib.BitReversal
import Beast.Lib.Machine
import Beast.Zlib.InflateStream

/-! How the tables are made that codes are looked up in. -/

namespace Beast.Zlib

/-- Type of code to build for `inflate_table`. -/
inductive Build
  | codes
  | lens
  | dists
  deriving DecidableEq, Repr

/-- How many entries a table for literals and lengths has at most. -/
def kEnoughLens : Nat := 852

/-- How many entries a table for distances has at most. -/
def kEnoughDists : Nat := 592

/-- Length codes 257..285 base. -/
def lbase : List Nat :=
  [3, 4, 5, 6, 7, 8, 9, 10, 11, 13, 15, 17, 19, 23, 27, 31,
    35, 43, 51, 59, 67, 83, 99, 115, 131, 163, 195, 227, 258, 0, 0]

/-- Length codes 257..285 extra. -/
def lext : List Nat :=
  [16, 16, 16, 16, 16, 16, 16, 16, 17, 17, 17, 17, 18, 18, 18, 18,
    19, 19, 19, 19, 20, 20, 20, 20, 21, 21, 21, 21, 16, 72, 78]

/-- Distance codes 0..29 base. -/
def dbase : List Nat :=
  [1, 2, 3, 4, 5, 7, 9, 13, 17, 25, 33, 49, 65, 97, 129, 193,
    257, 385, 513, 769, 1025, 1537, 2049, 3073, 4097, 6145,
    8193, 12289, 16385, 24577, 0, 0]

/-- Distance codes 0..29 extra. -/
def dext : List Nat :=
  [16, 16, 16, 16, 17, 17, 18, 18, 19, 19, 20, 20, 21, 21, 22, 22,
    23, 23, 24, 24, 25, 25, 26, 26, 27, 27,
    28, 28, 29, 29, 64, 64]

namespace Build

/-- Use base and extra for symbol > end. -/
def end_ : Build → Int
  | codes => 19
  | lens => 256
  | dists => -1

/-- The base value of a symbol, where the work area is a dummy value for the first type. -/
def base (work : Nat → Nat) : Build → Nat → Nat
  | codes, sym => work sym
  | lens, sym => lbase.getD (sym - 257) 0
  | dists, sym => dbase.getD sym 0

/-- What tells the extra bits of a symbol. -/
def extra (work : Nat → Nat) : Build → Nat → Nat
  | codes, sym => work sym
  | lens, sym => lext.getD (sym - 257) 0
  | dists, sym => dext.getD sym 0

/-- The table entry of a symbol whose code takes so many bits of the index. -/
def here (type : Build) (work : Nat → Nat) (sym bits : Nat) : Code :=
  if (sym : Int) < type.end_ then ⟨0, bits, sym⟩
  else if type.end_ < sym then ⟨type.extra work sym, bits, type.base work sym⟩
  else ⟨32 + 64, bits, 0⟩

/-- Whether so many entries are more than there is space for. -/
def tooMany (type : Build) (used : Nat) : Bool :=
  type = .lens && kEnoughLens < used || type = .dists && kEnoughDists < used

end Build

/-! ## The lengths of the codes -/

/-- The longest length of at most so many bits for which there is a code. -/
def maxLength (count : Nat → Nat) : Nat → Nat
  | 0 => 0
  | max + 1 => if count (max + 1) ≠ 0 then max + 1 else maxLength count max

/-- The first length for which there is a code, where there are so many to look at before the last. -/
def minLength (count : Nat → Nat) (max : Nat) : Nat → Nat
  | 0 => max
  | more + 1 => if count (max - (more + 1)) ≠ 0 then max - (more + 1) else minLength count max more

/-- An error in the lengths of codes. -/
inductive TableError
  | over_subscribed_length
  | incomplete_length_set
  deriving DecidableEq, Repr

/-- How many codes of so many bits are left. -/
def codesLeft (count : Nat → Nat) : Nat → Except TableError Int
  | 0 => .ok 1
  | len + 1 => do
    let left ← codesLeft count len
    let left := 2 * left - count (len + 1)
    if left < 0 then .error .over_subscribed_length else .ok left

/-- The offsets into the sorted symbols for each length. -/
def offsets (count : Nat → Nat) : Nat → Nat
  | 0 => 0
  | 1 => 0
  | len + 2 => offsets count (len + 1) + count (len + 1)

/-- Puts the symbols from one on into the work area, sorted by length, by symbol order within each
length. -/
def sortSymbols (sym : Nat) : List Nat → (offs work : Nat → Nat) → (Nat → Nat)
  | [], _, work => work
  | len :: rest, offs, work =>
    if len ≠ 0 then
      sortSymbols (sym + 1) rest (Function.update offs len (offs len + 1))
        (Function.update work (offs len) sym)
    else sortSymbols (sym + 1) rest offs work

/-! ## The table entries -/

/-- What stays the same while the entries are made. -/
structure TableJob where
  type : Build
  lens : List Nat
  work : Nat → Nat
  max : Nat
  root : Nat

/-- The entries, and where the next one is put. -/
structure Filling where
  entries : Nat → Code
  /-- How many codes of each length have no entries. -/
  count : Nat → Nat
  huff : Nat
  sym : Nat
  len : Nat
  /-- The start of the table that is filled in, its index bits, and the bits to drop for them. -/
  next : Nat
  curr : Nat
  drop : Nat
  low : Nat
  used : Nat

/-- Puts an entry at so many places that are so far from each other, the last one first. -/
def replicate (here : Code) (place incr : Nat) : Nat → (Nat → Code) → (Nat → Code)
  | 0, entries => entries
  | n + 1, entries => replicate here place incr n (Function.update entries (place + n * incr) here)

/-- Backwards increments a code of so many bits. -/
def incrementBackwards : Nat → Nat → Nat
  | 0, _ => 0
  | len + 1, huff =>
    let incr := 2 ^ len
    if huff &&& incr ≠ 0 then incrementBackwards len huff else (huff &&& (incr - 1)) + incr

/-- The index bits of a sub-table, where there are so many more to look at. -/
def subTableBits (count : Nat → Nat) (drop : Nat) : Nat → Nat → Int → Nat
  | 0, curr, _ => curr
  | more + 1, curr, left =>
    let left := left - count (curr + drop)
    if left ≤ 0 then curr else subTableBits count drop more (curr + 1) (2 * left)

/-- Why the loop over the symbols ends. -/
inductive Filled
  /-- All codes have entries. -/
  | all (f : Filling)
  /-- There is no space for them. -/
  | not_enough

namespace Filling

/-- The state that the loop over the symbols starts with. -/
def first (j : TableJob) (min : Nat) (entries : Nat → Code) : Filling :=
  { entries, count := j.lens.count, huff := 0, sym := 0, len := min, next := 0, curr := j.root
    drop := 0, low := 2 ^ 32 - 1, used := 2 ^ j.root }

/-- Creates the entries of a symbol. -/
def enter (j : TableJob) (f : Filling) : Filling :=
  let here := j.type.here j.work (j.work f.sym) (f.len - f.drop)
  let incr := 2 ^ (f.len - f.drop)
  { f with
    entries := replicate here (f.next + f.huff >>> f.drop) incr (2 ^ f.curr / incr) f.entries
    huff := incrementBackwards f.len f.huff
    sym := f.sym + 1
    count := Function.update f.count f.len (f.count f.len - 1) }

/-- Creates a new sub-table behind the last table. -/
def subTable (j : TableJob) (f : Filling) : Filling ⊕ Filled :=
  let drop := if f.drop = 0 then j.root else f.drop
  let next := f.next + 2 ^ f.curr
  let curr := f.len - drop
  let curr := subTableBits f.count drop (j.max - (curr + drop)) curr (2 ^ curr)
  let used := f.used + 2 ^ curr
  if j.type.tooMany used then .inr .not_enough
  else
    let low := f.huff &&& (2 ^ j.root - 1)
    .inl { f with
      drop, next, curr, used, low
      entries := Function.update f.entries low ⟨curr, j.root, next % 2 ^ 16⟩ }

/-- Goes on with another code, in a new sub-table where it needs one. -/
def proceed (j : TableJob) (f : Filling) : Filling ⊕ Filled :=
  if j.root < f.len ∧ f.huff &&& (2 ^ j.root - 1) ≠ f.low then f.subTable j else .inl f

/-- One turn of the loop over the symbols. -/
def turn (j : TableJob) (f : Filling) : Filling ⊕ Filled :=
  let g := f.enter j
  if g.count f.len = 0 then
    if f.len = j.max then .inr (.all g)
    else proceed j { g with len := j.lens.getD (j.work g.sym) 0 }
  else proceed j g

/-- Fills in the remaining table entry if the code is incomplete. -/
def finish (f : Filling) : Nat → Code :=
  if f.huff ≠ 0 then Function.update f.entries (f.next + f.huff) ⟨64, f.len - f.drop, 0⟩
  else f.entries

end Filling

/-- What `inflate_table` comes to. -/
inductive Built
  /-- A table, with how many entries it takes. -/
  | table (t : Table) (used : Nat)
  | fails (e : TableError)
  /-- The logic error that there is no space for the entries. -/
  | throws
  /-- The loop goes on behind the last symbol. -/
  | runs

/-- Makes the entries of codes that are neither too many nor too few. -/
def makeTable (j : TableJob) (min : Nat) (entries : Nat → Code) : Built :=
  if j.type.tooMany (2 ^ j.root) then .throws
  else
    match Machine.iterate (Filling.turn j) j.lens.length (.inl (.first j min entries)) with
    | .inl _ => .runs
    | .inr .not_enough => .throws
    | .inr (.all f) => .table ⟨f.finish, j.root⟩ f.used

/-- Makes the table of a code from the lengths of its words. -/
def inflate_table (type : Build) (lens : List Nat) (entries : Nat → Code) (bits : Nat)
    (work : Nat → Nat) : Built :=
  let count := lens.count
  let max := maxLength count 15
  let root := if max < bits then max else bits
  if max = 0 then
    -- No symbols, but wait for decoding to report an error.
    let here : Code := ⟨64, 1, 0⟩
    .table ⟨Function.update (Function.update entries 0 here) 1 here, 1⟩ 2
  else
    let min := minLength count max (max - 1)
    let root := if root < min then min else root
    match codesLeft count 15 with
    | .error e => .fails e
    | .ok left =>
      if 0 < left ∧ (type = .codes ∨ max ≠ 1) then .fails .incomplete_length_set
      else
        let work := sortSymbols 0 lens (offsets count) work
        makeTable ⟨type, lens, work, max, root⟩ min entries

end Beast.Zlib
