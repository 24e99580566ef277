import Beast.Zlib.BitWriter
import Beast.Zlib.DeflateTrees

/-! How a block is sent: its trees in compressed form, and the block data with their codes. -/

namespace Beast.Zlib

/-- Number of literal bytes 0..255. -/
def literals : Nat := 256

/-- Number of length codes, not counting the special END_BLOCK code. -/
def lengthCodes : Nat := 29

/-- End of block literal code. -/
def END_BLOCK : Nat := 256

/-- Repeat previous bit length 3-6 times (2 bits of repeat count). -/
def REP_3_6 : Nat := 16

/-- Repeat a zero length 3-10 times (3 bits of repeat count). -/
def REPZ_3_10 : Nat := 17

/-- Repeat a zero length 11-138 times (7 bits of repeat count). -/
def REPZ_11_138 : Nat := 18

def STORED_BLOCK : Nat := 0

def STATIC_TREES : Nat := 1

def DYN_TREES : Nat := 2

/-- The lengths of the bit length codes are sent in order of decreasing probability, to avoid
transmitting the lengths for unused bit length codes. -/
def bl_order : List Nat := [16, 17, 18, 0, 8, 7, 9, 6, 10, 5, 11, 4, 12, 3, 13, 2, 14, 1, 15]

/-! ## Runs of bit lengths -/

/-- The max and the min repeat count behind a length, for the next one. -/
def repeatCounts (curlen : Int) (nextlen : Nat) : Nat × Nat :=
  if nextlen = 0 then (138, 3) else if curlen = nextlen then (6, 3) else (7, 4)

section Walk

variable {σ : Type} (act : (prevlen : Int) → (curlen count min_count : Nat) → σ → σ) (tree : Tree)

/-- The loop over the bit lengths of a tree, with something done for each run of equal ones. -/
def walkLoop : (more n : Nat) → (prevlen : Int) → (nextlen count max_count min_count : Nat) → σ → σ
  | 0, _, _, _, _, _, _, s => s
  | more + 1, n, prevlen, nextlen, count, max_count, min_count, s =>
    let curlen := nextlen
    let nextlen := (tree (n + 1)).dl
    let count := count + 1
    if count < max_count ∧ curlen = nextlen then
      walkLoop more (n + 1) prevlen nextlen count max_count min_count s
    else
      let s := act prevlen curlen count min_count s
      let (max_count, min_count) := repeatCounts curlen nextlen
      walkLoop more (n + 1) curlen nextlen 0 max_count min_count s

def walk_tree (max_code : Int) (s : σ) : σ :=
  let nextlen := (tree 0).dl
  let (max_count, min_count) := if nextlen = 0 then (138, 3) else (7, 4)
  walkLoop act tree (max_code + 1).toNat 0 (-1) nextlen 0 max_count min_count s

end Walk

/-- Counts a symbol so many times. -/
def Tree.addFc (tree : Tree) (n k : Nat) : Tree := tree.setFc n (((tree n).fc + k) % 2 ^ 16)

/-- Counts the bit length symbols of a run. -/
def scanRun (prevlen : Int) (curlen count min_count : Nat) (bl_tree : Tree) : Tree :=
  if count < min_count then bl_tree.addFc curlen count
  else if curlen ≠ 0 then
    (if curlen ≠ prevlen then bl_tree.addFc curlen 1 else bl_tree).addFc REP_3_6 1
  else if count ≤ 10 then bl_tree.addFc REPZ_3_10 1
  else bl_tree.addFc REPZ_11_138 1

/-- Scan a literal or distance tree to determine the frequencies of the codes in the bit length tree. -/
def scan_tree (tree : Tree) (max_code : Int) (bl_tree : Tree) : Tree × Tree :=
  -- The guard behind the last length.
  let tree := tree.setDl (max_code + 1).toNat 0xffff
  (tree, walk_tree scanRun tree max_code bl_tree)

/-- Send a code of the given tree. -/
def Sink.send_code (s : Sink) (value : Nat) (tree : Tree) : Sink :=
  s.send_bits (tree value).fc (tree value).dl

/-- Sends a code so many times. -/
def Sink.sendCodes (value : Nat) (tree : Tree) : Nat → Sink → Sink
  | 0, s => s
  | count + 1, s => sendCodes value tree count (s.send_code value tree)

/-- Sends the bit length symbols of a run, unless an assertion fails. -/
def sendRun (bl_tree : Tree) (prevlen : Int) (curlen count min_count : Nat) (s : Option Sink) :
    Option Sink := do
  let s ← s
  if count < min_count then return s.sendCodes curlen bl_tree count
  else if curlen ≠ 0 then
    let (s, count) := if curlen ≠ prevlen then (s.send_code curlen bl_tree, count - 1) else (s, count)
    if 3 ≤ count ∧ count ≤ 6 then
      return (s.send_code REP_3_6 bl_tree).send_bits (count - 3) 2
    else none
  else if count ≤ 10 then return (s.send_code REPZ_3_10 bl_tree).send_bits (count - 3) 3
  else return (s.send_code REPZ_11_138 bl_tree).send_bits (count - 11) 7

/-- Send a literal or distance tree in compressed form, using the codes in bl_tree. The guard is
already set. -/
def send_tree (bl_tree tree : Tree) (max_code : Int) (s : Sink) : Option Sink :=
  walk_tree (sendRun bl_tree) tree max_code (some s)

/-! ## DeflateBlock data -/

/-- First normalized length for each code. -/
def base_length (code : Nat) : Nat :=
  if code < lengthCodes - 1 then ((extra_lbits.take code).map fun extra => 2 ^ extra).sum else 0

/-- Length code for each normalized match length. The length 255 (match length 258) can be
represented in two different ways, of which the best encoding is used. -/
def length_code : List Nat :=
  ((List.range (lengthCodes - 1)).flatMap fun code =>
    List.replicate (2 ^ extra_lbits.getD code 0) code).set 255 (lengthCodes - 1)

/-- First normalized distance for each code (0 = distance of 1). From the code 16 on, all distances
are divided by 128. -/
def base_dist (code : Nat) : Nat :=
  if code < 16 then ((extra_dbits.take code).map fun extra => 2 ^ extra).sum
  else (256 >>> 7 + (((extra_dbits.take code).drop 16).map fun extra => 2 ^ (extra - 7)).sum) <<< 7

/-- Distance codes. The first 256 values correspond to the distances 3 .. 258, the last 256 values
correspond to the top 8 bits of the 15 bit distances. -/
def dist_code : List Nat :=
  ((List.range 16).flatMap fun code => List.replicate (2 ^ extra_dbits.getD code 0) code) ++
    List.replicate (256 >>> 7) 0 ++
    (List.range' 16 (dCodes - 16)).flatMap fun code =>
      List.replicate (2 ^ (extra_dbits.getD code 0 - 7)) code

/-- Mapping from a distance to a distance code. dist is the distance - 1. -/
def d_code (dist : Nat) : Nat :=
  if dist < 256 then dist_code.getD dist 0 else dist_code.getD (256 + dist >>> 7) 0

/-- An element of the buffers for distances and for literals or lengths. -/
structure Tally where
  /-- The distance of a match, or zero. -/
  dist : Nat
  /-- The match length - minMatch, or the unmatched char if there is no distance. -/
  lc : UInt8
  near : dist ≤ 32768

/-- Sends a literal, or a match as its length and its distance, with their extra bits. -/
def send_tally (ltree dtree : Tree) (s : Sink) (t : Tally) : Sink :=
  if t.dist = 0 then s.send_code t.lc.toNat ltree
  else
    let code := length_code.getD t.lc.toNat 0
    let s := s.send_code (code + literals + 1) ltree
    let extra := extra_lbits.getD code 0
    let s := if extra ≠ 0 then s.send_bits (t.lc.toNat - base_length code) extra else s
    let dist := t.dist - 1
    let code := d_code dist
    let s := s.send_code code dtree
    let extra := extra_dbits.getD code 0
    if extra ≠ 0 then s.send_bits (dist - base_dist code) extra else s

/-- Sends what is in the buffers from an index on. The buffers are in the upper part of the pending buffer,
so that the output must not reach an element before it is read. -/
def compressLoop (lit_bufsize : Nat) (ltree dtree : Tree) : (lx : Nat) → List Tally → Sink → Option Sink
  | _, [], s => some s
  | lx, t :: rest, s =>
    if s.pending_buf_.length ≤ lit_bufsize + 2 * lx then
      let s := send_tally ltree dtree s t
      -- Check that the overlay between pending_buf and d_buf+l_buf is ok.
      if s.pending_buf_.length < lit_bufsize + 2 * (lx + 1) then
        compressLoop lit_bufsize ltree dtree (lx + 1) rest s
      else none
    else none

/-- Send the block data compressed using the given Huffman trees, unless the overlay is not ok. -/
def compress_block (lit_bufsize : Nat) (ltree dtree : Tree) (tallies : List Tally) (s : Sink) : Option Sink := do
  let s ← compressLoop lit_bufsize ltree dtree 0 tallies s
  return s.send_code END_BLOCK ltree

/-! ## Blocks -/

/-- Strategies for compression. -/
inductive Strategy
  | normal
  | filtered
  | huffman
  | rle
  | fixed
  deriving DecidableEq, Repr

/-- The part of the stream that a block is made in. -/
structure DeflateBlock where
  dyn_ltree_ : Tree
  dyn_dtree_ : Tree
  bl_tree_ : Tree
  /-- The largest codes of the literal and of the distance tree with non zero frequency. -/
  l_max_code : Int
  d_max_code : Int
  builder : Builder
  /-- The buffers for distances and for literals or lengths, up to the last one. -/
  tallies : List Tally
  lit_bufsize_ : Nat
  sink : Sink
  level_ : Nat
  strategy_ : Strategy

namespace DeflateBlock

/-- Initialize a new block. -/
def init_block (s : DeflateBlock) : DeflateBlock :=
  let zero (tree : Tree) (codes : Nat) : Tree := fun n => if n < codes then { tree n with fc := 0 } else tree n
  { s with
    dyn_ltree_ := (zero s.dyn_ltree_ lCodes).setFc END_BLOCK 1
    dyn_dtree_ := zero s.dyn_dtree_ dCodes
    bl_tree_ := zero s.bl_tree_ blCodes
    builder := { s.builder with opt_len_ := 0, static_len_ := 0 }
    tallies := [] }

/-- Puts a literal or a match into the buffers, and counts its codes. -/
def tr_tally (s : DeflateBlock) (t : Tally) : DeflateBlock :=
  let s := { s with tallies := s.tallies ++ [t] }
  if t.dist = 0 then { s with dyn_ltree_ := s.dyn_ltree_.addFc t.lc.toNat 1 }
  else
    { s with
      dyn_ltree_ := s.dyn_ltree_.addFc (length_code.getD t.lc.toNat 0 + literals + 1) 1
      dyn_dtree_ := s.dyn_dtree_.addFc (d_code (t.dist - 1)) 1 }

/-- The index of the last bit length code to send, among so many behind the first three. -/
def lastIndex (bl_tree : Tree) : Nat → Nat
  | 0 => 2
  | more + 1 => if (bl_tree (bl_order.getD (more + 3) 0)).dl ≠ 0 then more + 3 else lastIndex bl_tree more

/-- Construct the Huffman tree for the bit lengths and return the index in bl_order of the last bit
length code to send. -/
def build_bl_tree (s : DeflateBlock) : Option (Nat × DeflateBlock) := do
  -- Determine the bit length frequencies for literal and distance trees.
  let (dyn_ltree_, bl_tree_) := scan_tree s.dyn_ltree_ s.l_max_code s.bl_tree_
  let (dyn_dtree_, bl_tree_) := scan_tree s.dyn_dtree_ s.d_max_code bl_tree_
  let b ← { s.builder with tree := bl_tree_ }.build_tree bl_desc
  let max_blindex := lastIndex b.tree (blCodes - 3)
  -- Update opt_len to include the bit length tree and counts.
  let builder := { b with opt_len_ := (b.opt_len_ + (3 * (max_blindex + 1) + 5 + 5 + 4)) % 2 ^ 32 }
  return (max_blindex, { s with dyn_ltree_, dyn_dtree_, bl_tree_ := b.tree, builder })

/-- Send the header for a block using dynamic Huffman trees: the counts, the lengths of the bit length
codes, the literal tree and the distance tree. -/
def send_all_trees (s : DeflateBlock) (lcodes dcodes blcodes : Nat) (sink : Sink) : Option Sink :=
  if (257 ≤ lcodes ∧ 1 ≤ dcodes ∧ 4 ≤ blcodes) ∧ lcodes ≤ lCodes ∧ dcodes ≤ dCodes ∧ blcodes ≤ blCodes then do
    let sink := sink.send_bits (lcodes - 257) 5
    let sink := sink.send_bits (dcodes - 1) 5
    let sink := sink.send_bits (blcodes - 4) 4
    let sink := (bl_order.take blcodes).foldl (fun sink n => sink.send_bits (s.bl_tree_ n).dl 3) sink
    let sink ← send_tree s.bl_tree_ s.dyn_ltree_ (lcodes - 1) sink
    send_tree s.bl_tree_ s.dyn_dtree_ (dcodes - 1) sink
  else none

/-- Builds the Huffman trees, unless a stored block is forced. Whether the text is binary, which the caller
is told, changes nothing here. -/
def make_trees (s : DeflateBlock) : Option (Nat × DeflateBlock) :=
  if 0 < s.level_ then do
    let b ← { s.builder with tree := s.dyn_ltree_ }.build_tree l_desc
    let s := { s with builder := b, dyn_ltree_ := b.tree, l_max_code := b.max_code }
    let b ← { s.builder with tree := s.dyn_dtree_ }.build_tree d_desc
    let s := { s with builder := b, dyn_dtree_ := b.tree, d_max_code := b.max_code }
    s.build_bl_tree
  else some (0, s)

inductive Kind
  | stored
  | static
  | dynamic
  deriving DecidableEq, Repr

/-- Determines the best encoding, with the block lengths in bytes. -/
def kind (s : DeflateBlock) (buf : Option Octets) (stored_len : Nat) : Kind :=
  let static_lenb := if 0 < s.level_ then ((s.builder.static_len_ + 3 + 7) % 2 ^ 32) >>> 3
    else (stored_len + 5) % 2 ^ 32
  let opt_lenb := if 0 < s.level_ then min (((s.builder.opt_len_ + 3 + 7) % 2 ^ 32) >>> 3) static_lenb
    else static_lenb
  -- 4: two words for the lengths.
  if (stored_len + 4) % 2 ^ 32 ≤ opt_lenb ∧ buf.isSome then .stored
  else if s.strategy_ = .fixed ∨ static_lenb = opt_lenb then .static
  else .dynamic

/-- Sends the block in an encoding. -/
def sendBlock (s : DeflateBlock) (max_blindex last : Nat) (buf : Octets) : Kind → Option Sink
  | .stored => some ((s.sink.send_bits (STORED_BLOCK <<< 1 + last) 3).copy_block buf)
  | .static =>
    compress_block s.lit_bufsize_ ltree dtree s.tallies (s.sink.send_bits (STATIC_TREES <<< 1 + last) 3)
  | .dynamic => do
    let sink ← s.send_all_trees (s.l_max_code + 1).toNat (s.d_max_code + 1).toNat (max_blindex + 1)
      (s.sink.send_bits (DYN_TREES <<< 1 + last) 3)
    compress_block s.lit_bufsize_ s.dyn_ltree_ s.dyn_dtree_ s.tallies sink

/-- Determine the best encoding for the current block: dynamic trees, static trees or store, and
output the encoded block. -/
def tr_flush_block (s : DeflateBlock) (buf : Option Octets) (stored_len last : Nat) : Option DeflateBlock := do
  let (max_blindex, s) ← s.make_trees
  let sink ← s.sendBlock max_blindex last (buf.getD []) (s.kind buf stored_len)
  let s := { s with sink }.init_block
  return if last ≠ 0 then { s with sink := s.sink.bi_windup } else s

end DeflateBlock

end Beast.Zlib
