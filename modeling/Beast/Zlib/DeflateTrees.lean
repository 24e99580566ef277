import Mathlib.Data.List.Basic
import Mathlib.Logic.Function.Basic
import Mathlib.Tactic.Common
import Mathlib.Tactic.Ring

/-! How the Huffman trees of a block are made: its heap, the lengths of its codes, and the codes. -/

namespace Beast.Zlib

/-- Upper limit on code length. -/
def maxBits : Nat := 15

/-- Number of literal or length codes, including the end of a block. -/
def lCodes : Nat := 286

/-- Number of distance codes. -/
def dCodes : Nat := 30

/-- Number of codes used to transfer the bit lengths. -/
def blCodes : Nat := 19

/-- Size limit on bit length codes. -/
def maxBlBits : Nat := 7

/-- Maximum heap size. -/
def HEAP_SIZE : Nat := 2 * lCodes + 1

/-- Index within the heap array of least frequent node in the Huffman tree. -/
def kSmallest : Nat := 1

/-- Describes a single value and its code string. -/
structure CtData where
  /-- Frequency count or bit string. -/
  fc : Nat
  /-- Parent node in tree or length of bit string. -/
  dl : Nat
  deriving DecidableEq, Repr

abbrev Tree := Nat → CtData

namespace Tree

def setFc (tree : Tree) (n fc : Nat) : Tree := fun m => if m = n then { tree m with fc } else tree m

def setDl (tree : Tree) (n dl : Nat) : Tree := fun m => if m = n then { tree m with dl } else tree m

end Tree

/-- What a tree is made from, besides the frequencies. -/
structure StaticDesc where
  /-- The static tree, if there is one. -/
  static_tree : Option Tree
  /-- Extra bits for each code. -/
  extra_bits : List Nat
  /-- Base index for the extra bits. -/
  extra_base : Nat
  /-- Max number of elements in the tree. -/
  elems : Nat
  /-- Max bit length for the codes. -/
  max_length : Nat

/-- How many extra bits a symbol has. -/
def StaticDesc.xbits (desc : StaticDesc) (n : Nat) : Nat :=
  if desc.extra_base ≤ n then desc.extra_bits.getD (n - desc.extra_base) 0 else 0

/-- The part of the stream that a tree is made in. -/
structure Builder where
  tree : Tree
  max_code : Int
  heap_ : Nat → Nat
  heap_len_ : Nat
  heap_max_ : Nat
  depth_ : Nat → Nat
  bl_count_ : Nat → Nat
  opt_len_ : Nat
  static_len_ : Nat

/-! ## Codes -/

/-- The loop that reverses the bits of a code, with so many turns. -/
def reverseLoop : Nat → Nat → Nat → Nat
  | 0, _, res => res
  | len + 1, code, res => reverseLoop len (code >>> 1) ((res ||| (code &&& 1)) <<< 1)

/-- Reverse the first bits of a code, of which one is looked at in any case. -/
def bi_reverse (code len : Nat) : Nat := reverseLoop (max len 1) code 0 >>> 1

/-- The first code of a length, without bit reversal. -/
def firstCode (bl_count : Nat → Nat) : Nat → Nat
  | 0 => 0
  | bits + 1 => (firstCode bl_count bits + bl_count bits) * 2 % 2 ^ 16

/-- Gives the symbols from one on their codes, so many of them. -/
def assignCodes (n : Nat) : Nat → (next_code : Nat → Nat) → Tree → Tree
  | 0, _, tree => tree
  | more + 1, next_code, tree =>
    let len := (tree n).dl
    if len = 0 then assignCodes (n + 1) more next_code tree
    else
      assignCodes (n + 1) more (Function.update next_code len ((next_code len + 1) % 2 ^ 16))
        (tree.setFc n (bi_reverse (next_code len) len))

/-- Generate the codes for a given tree and bit counts, unless the bit counts are not consistent. -/
def gen_codes (tree : Tree) (max_code : Int) (bl_count : Nat → Nat) : Option Tree :=
  -- The last code must be all ones.
  if (firstCode bl_count maxBits + bl_count maxBits - 1 : Int) = 2 ^ maxBits - 1 then
    some (assignCodes 0 (max_code + 1).toNat (firstCode bl_count) tree)
  else none

namespace Builder

/-! ## The heap -/

/-- Compares two subtrees, using the tree depth as tie breaker. -/
def smaller (b : Builder) (n m : Nat) : Bool :=
  (b.tree n).fc < (b.tree m).fc || (b.tree n).fc = (b.tree m).fc && b.depth_ n ≤ b.depth_ m

/-- Moves a node down from a place, so many times at most. -/
def sift (b : Builder) (v : Nat) : Nat → Nat → (Nat → Nat) → Option (Nat → Nat)
  | 0, _, _ => none
  | fuel + 1, k, heap =>
    let j := 2 * k
    if j ≤ b.heap_len_ then
      -- Set j to the smallest of the two sons.
      let j := if j < b.heap_len_ && b.smaller (heap (j + 1)) (heap j) then j + 1 else j
      -- Exit if v is smaller than both sons.
      if b.smaller v (heap j) then some (Function.update heap k v)
      else b.sift v fuel j (Function.update heap k (heap j))
    else some (Function.update heap k v)

/-- Restore the heap property by moving down the tree starting at a node. -/
def pqdownheap (b : Builder) (k : Nat) : Option Builder := do
  -- Each move goes to a larger index.
  let heap_ ← b.sift (b.heap_ k) (b.heap_len_ + 1) k b.heap_
  return { b with heap_ }

/-- Remove the smallest element from the heap and recreate the heap with one less element. -/
def pqremove (b : Builder) : Option (Nat × Builder) := do
  let top := b.heap_ kSmallest
  let b := { b with
    heap_ := Function.update b.heap_ kSmallest (b.heap_ b.heap_len_)
    heap_len_ := b.heap_len_ - 1 }
  return (top, ← b.pqdownheap kSmallest)

/-- Keeps a node in front of those that were removed from the heap. -/
def keep (b : Builder) (n : Nat) : Builder :=
  { b with heap_max_ := b.heap_max_ - 1, heap_ := Function.update b.heap_ (b.heap_max_ - 1) n }

/-- Combines the two least frequent nodes. -/
def combine (b : Builder) (node : Nat) : Option Builder := do
  let (n, b) ← b.pqremove
  let m := b.heap_ kSmallest
  let b := (b.keep n).keep m
  -- Create a new node father of n and m, and insert it in the heap.
  let fc := ((b.tree n).fc + (b.tree m).fc) % 2 ^ 16
  let depth := (max (b.depth_ n) (b.depth_ m) + 1) % 2 ^ 8
  let b := { b with
    tree := ((b.tree.setFc node fc).setDl m node).setDl n node
    depth_ := Function.update b.depth_ node depth
    heap_ := Function.update b.heap_ kSmallest node }
  b.pqdownheap kSmallest

/-- Combines nodes while there are two, so many times at most. -/
def combineAll : Nat → Nat → Builder → Option Builder
  | 0, _, _ => none
  | fuel + 1, node, b => do
    let b ← b.combine node
    if 2 ≤ b.heap_len_ then combineAll fuel (node + 1) b else return b

/-! ## Bit lengths -/

/-- Sets the bit length of a node by that of its father, and counts it where it is a leaf. -/
def measure (desc : StaticDesc) (s : Builder × Nat) (n : Nat) : Builder × Nat :=
  let (b, overflow) := s
  let bits := (b.tree (b.tree n).dl).dl + 1
  let (bits, overflow) := if desc.max_length < bits then (desc.max_length, overflow + 1) else (bits, overflow)
  let b := { b with tree := b.tree.setDl n bits }
  if b.max_code < (n : Int) then (b, overflow)
  else
    let f := (b.tree n).fc
    ({ b with
      bl_count_ := Function.update b.bl_count_ bits ((b.bl_count_ bits + 1) % 2 ^ 16)
      opt_len_ := (b.opt_len_ + f * (bits + desc.xbits n)) % 2 ^ 32
      static_len_ :=
        match desc.static_tree with
        | none => b.static_len_
        | some stree => (b.static_len_ + f * ((stree n).dl + desc.xbits n)) % 2 ^ 32 }, overflow)

/-- The last bit length of at most so many bits that has a leaf. -/
def lastCounted (bl_count : Nat → Nat) : Nat → Option Nat
  | 0 => if bl_count 0 ≠ 0 then some 0 else none
  | bits + 1 => if bl_count (bits + 1) ≠ 0 then some (bits + 1) else lastCounted bl_count bits

/-- Moves leaves down the tree until none overflows, so many times at most. -/
def repair (max_length : Nat) : Nat → Int → (Nat → Nat) → Option (Nat → Nat)
  | 0, _, _ => none
  | fuel + 1, overflow, bl_count => do
    -- Find the first bit length which could increase.
    let bits ← lastCounted bl_count (max_length - 1)
    -- Move one leaf down the tree, and one overflow item as its brother.
    let bl_count := Function.update bl_count bits (bl_count bits - 1)
    let bl_count := Function.update bl_count (bits + 1) ((bl_count (bits + 1) + 2) % 2 ^ 16)
    let bl_count := Function.update bl_count max_length ((bl_count max_length + (2 ^ 16 - 1)) % 2 ^ 16)
    let overflow := overflow - 2
    if 0 < overflow then repair max_length fuel overflow bl_count else return bl_count

/-- Gives so many leaves a bit length, from the last place of the heap array down. -/
def place (bits : Nat) : Nat → Nat → Builder → Option (Nat × Builder)
  | h, 0, b => some (h, b)
  | 0, _ + 1, _ => none
  | h + 1, n + 1, b =>
    let m := b.heap_ h
    if b.max_code < (m : Int) then place bits h (n + 1) b
    else if (b.tree m).dl ≠ bits then
      place bits h n { b with
        opt_len_ := ((b.opt_len_ + (bits - (b.tree m).dl) * (b.tree m).fc : Int) % 2 ^ 32).toNat
        tree := b.tree.setDl m bits }
    else place bits h n b

/-- Gives the leaves their bit lengths, so many bits at most, scanning in increasing frequency. -/
def placeAll : Nat → Nat → Builder → Option Builder
  | 0, _, b => some b
  | bits + 1, h, b => do
    let (h, b) ← place (bits + 1) h (b.bl_count_ (bits + 1)) b
    placeAll bits h b

/-- Compute the optimal bit lengths for a tree and update the total bit length for the current
block. -/
def gen_bitlen (desc : StaticDesc) (b : Builder) : Option Builder := do
  let b := { b with bl_count_ := fun _ => 0, tree := b.tree.setDl (b.heap_ b.heap_max_) 0 }
  let nodes := (List.range' (b.heap_max_ + 1) (HEAP_SIZE - (b.heap_max_ + 1))).map b.heap_
  let (b, overflow) := nodes.foldl (measure desc) (b, 0)
  if overflow = 0 then return b
  else
    -- Each turn takes two of those that overflow.
    let bl_count_ ← repair desc.max_length overflow overflow b.bl_count_
    placeAll desc.max_length HEAP_SIZE { b with bl_count_ }

/-! ## Trees -/

/-- Puts a symbol into the heap if it has a frequency. -/
def collect (b : Builder) (n : Nat) : Builder :=
  if (b.tree n).fc ≠ 0 then
    { b with
      heap_len_ := b.heap_len_ + 1
      heap_ := Function.update b.heap_ (b.heap_len_ + 1) n
      max_code := n
      depth_ := Function.update b.depth_ n 0 }
  else { b with tree := b.tree.setDl n 0 }

/-- Forces a code of non zero frequency. -/
def forceCode (desc : StaticDesc) (b : Builder) : Builder :=
  let max_code := if b.max_code < 2 then b.max_code + 1 else b.max_code
  let node := if b.max_code < 2 then max_code.toNat else 0
  { b with
    max_code
    heap_len_ := b.heap_len_ + 1
    heap_ := Function.update b.heap_ (b.heap_len_ + 1) node
    tree := b.tree.setFc node 1
    depth_ := Function.update b.depth_ node 0
    opt_len_ := (b.opt_len_ + (2 ^ 32 - 1)) % 2 ^ 32
    static_len_ :=
      match desc.static_tree with
      | none => b.static_len_
      | some stree => ((b.static_len_ - (stree node).dl : Int) % 2 ^ 32).toNat }

/-- Forces so many codes. -/
def forceCodes (desc : StaticDesc) : Nat → Builder → Builder
  | 0, b => b
  | more + 1, b => forceCodes desc more (b.forceCode desc)

/-- Establishes sub-heaps of increasing lengths, from a node down to the first. -/
def heapify : Nat → Builder → Option Builder
  | 0, b => some b
  | n + 1, b => do heapify n (← b.pqdownheap (n + 1))

/-- Construct one Huffman tree and assigns the code bit strings and lengths. -/
def build_tree (desc : StaticDesc) (b : Builder) : Option Builder := do
  let b := { b with heap_len_ := 0, heap_max_ := HEAP_SIZE, max_code := -1 }
  let b := (List.range desc.elems).foldl collect b
  -- At least two codes of non zero frequency are forced.
  let b := forceCodes desc (2 - b.heap_len_) b
  let b ← heapify (b.heap_len_ / 2) b
  -- Repeatedly combine the least two frequent nodes.
  let b ← combineAll b.heap_len_ desc.elems b
  let b ← (b.keep (b.heap_ kSmallest)).gen_bitlen desc
  let tree ← gen_codes b.tree b.max_code b.bl_count_
  return { b with tree }

end Builder

/-! ## Tables -/

/-- Number of extra bits for each length code. -/
def extra_lbits : List Nat :=
  [0, 0, 0, 0, 0, 0, 0, 0, 1, 1, 1, 1, 2, 2, 2, 2, 3, 3, 3, 3, 4, 4, 4, 4, 5, 5, 5, 5, 0]

/-- Number of extra bits for each distance code. -/
def extra_dbits : List Nat :=
  [0, 0, 0, 0, 1, 1, 2, 2, 3, 3, 4, 4, 5, 5, 6, 6, 7, 7, 8, 8, 9, 9, 10, 10, 11, 11, 12, 12, 13, 13]

/-- Number of extra bits for each bit length code. -/
def extra_blbits : List Nat := [0, 0, 0, 0, 0, 0, 0, 0, 0, 0, 0, 0, 0, 0, 0, 0, 2, 3, 7]

/-- The bit lengths of the static literal tree. -/
def staticLength (n : Nat) : Nat :=
  if n ≤ 143 then 8 else if n ≤ 255 then 9 else if n ≤ 279 then 7 else if n ≤ 287 then 8 else 0

/-- The static literal tree, with codes that do not exist to make it canonical. -/
def ltree : Tree :=
  let bl_count : Nat → Nat := fun bits =>
    if bits = 7 then 24 else if bits = 8 then 152 else if bits = 9 then 112 else 0
  (gen_codes (fun n => ⟨0, staticLength n⟩) (lCodes + 1 : Nat) bl_count).getD fun _ => ⟨0, 0⟩

/-- The static distance tree. -/
def dtree : Tree := fun n => ⟨bi_reverse n 5, 5⟩

def l_desc : StaticDesc := ⟨some ltree, extra_lbits, 257, lCodes, maxBits⟩

def d_desc : StaticDesc := ⟨some dtree, extra_dbits, 0, dCodes, maxBits⟩

def bl_desc : StaticDesc := ⟨none, extra_blbits, 0, blCodes, maxBlBits⟩

end Beast.Zlib
