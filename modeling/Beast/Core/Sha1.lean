import Beast.Core.CiCharTraits

/-! The digest of octets that come in pieces. -/

namespace Beast.Sha1

def BLOCK_INTS : Nat := 16
def BLOCK_BYTES : Nat := 64
def DIGEST_BYTES : Nat := 20

/-- Turns a word to the left. -/
def rol (value bits : UInt32) : UInt32 := (value <<< bits) ||| (value >>> (32 - bits))

/-- The words of a block. Their positions wrap. -/
abbrev WordBlock := Vector UInt32 16

/-- The next word of the schedule. -/
def blk (block : WordBlock) (i : Fin 16) : UInt32 :=
  rol (block.get (i + 13) ^^^ block.get (i + 8) ^^^ block.get (i + 2) ^^^ block.get i) 1

/-- The variables of `transform`, by their names. -/
inductive Reg
  | a | b | c | d | e
  deriving DecidableEq, Repr

/-- The values of five variables. -/
structure Digest where
  a : UInt32
  b : UInt32
  c : UInt32
  d : UInt32
  e : UInt32
  deriving DecidableEq, Repr

def Digest.get (v : Digest) : Reg → UInt32
  | .a => v.a
  | .b => v.b
  | .c => v.c
  | .d => v.d
  | .e => v.e

def Digest.set (v : Digest) (r : Reg) (value : UInt32) : Digest :=
  match r with
  | .a => { v with a := value }
  | .b => { v with b := value }
  | .c => { v with c := value }
  | .d => { v with d := value }
  | .e => { v with e := value }

/-- What a round is called as. -/
inductive Kind
  | R0 | R1 | R2 | R3 | R4
  deriving DecidableEq, Repr

/-- The call of a round: the variables that it is given, and the word. -/
structure Call where
  kind : Kind
  v : Reg
  w : Reg
  x : Reg
  y : Reg
  z : Reg
  i : Fin 16
  deriving DecidableEq, Repr

/-- The function of a round, and its constant. -/
def Kind.mix (w x y : UInt32) : Kind → UInt32 × UInt32
  | .R0 | .R1 => ((w &&& (x ^^^ y)) ^^^ y, 0x5a827999)
  | .R2 => (w ^^^ x ^^^ y, 0x6ed9eba1)
  | .R3 => (((w ||| x) &&& y) ||| (w &&& x), 0x8f1bbcdc)
  | .R4 => (w ^^^ x ^^^ y, 0xca62c1d6)

/-- The word that a round uses: all but the first ones compute it. -/
def Kind.schedule (block : WordBlock) (i : Fin 16) : Kind → WordBlock
  | .R0 => block
  | .R1 | .R2 | .R3 | .R4 => block.set i (blk block i)

/-- A round. -/
def Call.apply (s : WordBlock × Digest) (call : Call) : WordBlock × Digest :=
  let block := call.kind.schedule s.1 call.i
  let (mixed, constant) := call.kind.mix (s.2.get call.w) (s.2.get call.x) (s.2.get call.y)
  let z := s.2.get call.z + (mixed + block.get call.i + constant + rol (s.2.get call.v) 5)
  let v := s.2.set call.z z
  (block, v.set call.w (rol (v.get call.w) 30))

/-- The calls of `transform`, one after another. -/
def calls : List Call := [
  ⟨.R0, .a, .b, .c, .d, .e, 0⟩, ⟨.R0, .e, .a, .b, .c, .d, 1⟩, ⟨.R0, .d, .e, .a, .b, .c, 2⟩, ⟨.R0, .c, .d, .e, .a, .b, 3⟩,
  ⟨.R0, .b, .c, .d, .e, .a, 4⟩, ⟨.R0, .a, .b, .c, .d, .e, 5⟩, ⟨.R0, .e, .a, .b, .c, .d, 6⟩, ⟨.R0, .d, .e, .a, .b, .c, 7⟩,
  ⟨.R0, .c, .d, .e, .a, .b, 8⟩, ⟨.R0, .b, .c, .d, .e, .a, 9⟩, ⟨.R0, .a, .b, .c, .d, .e, 10⟩, ⟨.R0, .e, .a, .b, .c, .d, 11⟩,
  ⟨.R0, .d, .e, .a, .b, .c, 12⟩, ⟨.R0, .c, .d, .e, .a, .b, 13⟩, ⟨.R0, .b, .c, .d, .e, .a, 14⟩, ⟨.R0, .a, .b, .c, .d, .e, 15⟩,
  ⟨.R1, .e, .a, .b, .c, .d, 0⟩, ⟨.R1, .d, .e, .a, .b, .c, 1⟩, ⟨.R1, .c, .d, .e, .a, .b, 2⟩, ⟨.R1, .b, .c, .d, .e, .a, 3⟩,
  ⟨.R2, .a, .b, .c, .d, .e, 4⟩, ⟨.R2, .e, .a, .b, .c, .d, 5⟩, ⟨.R2, .d, .e, .a, .b, .c, 6⟩, ⟨.R2, .c, .d, .e, .a, .b, 7⟩,
  ⟨.R2, .b, .c, .d, .e, .a, 8⟩, ⟨.R2, .a, .b, .c, .d, .e, 9⟩, ⟨.R2, .e, .a, .b, .c, .d, 10⟩, ⟨.R2, .d, .e, .a, .b, .c, 11⟩,
  ⟨.R2, .c, .d, .e, .a, .b, 12⟩, ⟨.R2, .b, .c, .d, .e, .a, 13⟩, ⟨.R2, .a, .b, .c, .d, .e, 14⟩, ⟨.R2, .e, .a, .b, .c, .d, 15⟩,
  ⟨.R2, .d, .e, .a, .b, .c, 0⟩, ⟨.R2, .c, .d, .e, .a, .b, 1⟩, ⟨.R2, .b, .c, .d, .e, .a, 2⟩, ⟨.R2, .a, .b, .c, .d, .e, 3⟩,
  ⟨.R2, .e, .a, .b, .c, .d, 4⟩, ⟨.R2, .d, .e, .a, .b, .c, 5⟩, ⟨.R2, .c, .d, .e, .a, .b, 6⟩, ⟨.R2, .b, .c, .d, .e, .a, 7⟩,
  ⟨.R3, .a, .b, .c, .d, .e, 8⟩, ⟨.R3, .e, .a, .b, .c, .d, 9⟩, ⟨.R3, .d, .e, .a, .b, .c, 10⟩, ⟨.R3, .c, .d, .e, .a, .b, 11⟩,
  ⟨.R3, .b, .c, .d, .e, .a, 12⟩, ⟨.R3, .a, .b, .c, .d, .e, 13⟩, ⟨.R3, .e, .a, .b, .c, .d, 14⟩, ⟨.R3, .d, .e, .a, .b, .c, 15⟩,
  ⟨.R3, .c, .d, .e, .a, .b, 0⟩, ⟨.R3, .b, .c, .d, .e, .a, 1⟩, ⟨.R3, .a, .b, .c, .d, .e, 2⟩, ⟨.R3, .e, .a, .b, .c, .d, 3⟩,
  ⟨.R3, .d, .e, .a, .b, .c, 4⟩, ⟨.R3, .c, .d, .e, .a, .b, 5⟩, ⟨.R3, .b, .c, .d, .e, .a, 6⟩, ⟨.R3, .a, .b, .c, .d, .e, 7⟩,
  ⟨.R3, .e, .a, .b, .c, .d, 8⟩, ⟨.R3, .d, .e, .a, .b, .c, 9⟩, ⟨.R3, .c, .d, .e, .a, .b, 10⟩, ⟨.R3, .b, .c, .d, .e, .a, 11⟩,
  ⟨.R4, .a, .b, .c, .d, .e, 12⟩, ⟨.R4, .e, .a, .b, .c, .d, 13⟩, ⟨.R4, .d, .e, .a, .b, .c, 14⟩, ⟨.R4, .c, .d, .e, .a, .b, 15⟩,
  ⟨.R4, .b, .c, .d, .e, .a, 0⟩, ⟨.R4, .a, .b, .c, .d, .e, 1⟩, ⟨.R4, .e, .a, .b, .c, .d, 2⟩, ⟨.R4, .d, .e, .a, .b, .c, 3⟩,
  ⟨.R4, .c, .d, .e, .a, .b, 4⟩, ⟨.R4, .b, .c, .d, .e, .a, 5⟩, ⟨.R4, .a, .b, .c, .d, .e, 6⟩, ⟨.R4, .e, .a, .b, .c, .d, 7⟩,
  ⟨.R4, .d, .e, .a, .b, .c, 8⟩, ⟨.R4, .c, .d, .e, .a, .b, 9⟩, ⟨.R4, .b, .c, .d, .e, .a, 10⟩, ⟨.R4, .a, .b, .c, .d, .e, 11⟩,
  ⟨.R4, .e, .a, .b, .c, .d, 12⟩, ⟨.R4, .d, .e, .a, .b, .c, 13⟩, ⟨.R4, .c, .d, .e, .a, .b, 14⟩, ⟨.R4, .b, .c, .d, .e, .a, 15⟩]

/-- The words of the octets that lie in a buffer. -/
def make_block (p : Vector UInt8 64) : WordBlock :=
  .ofFn fun i => (p.toList.getD (4 * i + 3) 0).toUInt32 |||
    ((p.toList.getD (4 * i + 2) 0).toUInt32 <<< 8) |||
    ((p.toList.getD (4 * i + 1) 0).toUInt32 <<< 16) |||
    ((p.toList.getD (4 * i) 0).toUInt32 <<< 24)

/-- Takes a block of words into a digest. -/
def transform (digest : Digest) (block : WordBlock) : Digest :=
  let v := (calls.foldl Call.apply (block, digest)).2
  ⟨digest.a + v.a, digest.b + v.b, digest.c + v.c, digest.d + v.d, digest.e + v.e⟩

/-- What is kept between the pieces: the buffer is never full then. -/
structure Context where
  buflen : Nat
  blocks : UInt64
  digest : Digest
  buf : Vector UInt8 64
  short : buflen < 64

/-- The first digest. The buffer holds anything. -/
def init (junk : Vector UInt8 64) : Context where
  buflen := 0
  blocks := 0
  digest := ⟨0x67452301, 0xefcdab89, 0x98badcfe, 0x10325476, 0xc3d2e1f0⟩
  buf := junk
  short := by decide

/-- Places octets into a buffer. -/
def place (buf : Vector UInt8 64) (i : Nat) (s : Octets) : Vector UInt8 64 :=
  .ofFn fun j => if i ≤ j ∧ j < i + s.length then s.getD (j - i) 0 else buf.get j

/-- Takes a piece of the message: as much as fills the buffer, again and again. -/
def update (ctx : Context) (message : Octets) : Context :=
  let n := min message.length (64 - ctx.buflen)
  let buf := place ctx.buf ctx.buflen (message.take n)
  if full : ctx.buflen + n ≠ 64 then
    { ctx with
      buflen := ctx.buflen + n
      buf
      short := by
        have := Nat.min_le_right message.length (64 - ctx.buflen)
        have := ctx.short
        omega }
  else
    update
      { buflen := 0
        blocks := ctx.blocks + 1
        digest := transform ctx.digest (make_block buf)
        buf
        short := by decide }
      (message.drop n)
termination_by message.length
decreasing_by
  have := ctx.short
  rw [List.length_drop]
  omega

/-- The octets of a word, as `finish` writes them. -/
def wordOctets (x : UInt32) : Octets :=
  [((x >>> 24) &&& 0xff).toUInt8, ((x >>> 16) &&& 0xff).toUInt8, ((x >>> 8) &&& 0xff).toUInt8,
    (x &&& 0xff).toUInt8]

/-- Pads the message, and returns its digest. -/
def finish (ctx : Context) : Octets :=
  let total_bits : UInt64 := (ctx.blocks * 64 + UInt64.ofNat ctx.buflen) * 8
  let buf := place ctx.buf ctx.buflen [0x80]
  let buflen := ctx.buflen + 1
  let buf := place buf buflen (List.replicate (64 - buflen) 0)
  let block := make_block buf
  let (digest, block) :=
    if buflen > BLOCK_BYTES - 8 then
      (transform ctx.digest block, (.ofFn fun i => if i.val < 14 then 0 else block.get i : WordBlock))
    else (ctx.digest, block)
  let block := block.set 15 (total_bits &&& 0xffffffff).toUInt32
  let block := block.set 14 (total_bits >>> 32).toUInt32
  let digest := transform digest block
  wordOctets digest.a ++ wordOctets digest.b ++ wordOctets digest.c ++ wordOctets digest.d ++
    wordOctets digest.e

end Beast.Sha1
