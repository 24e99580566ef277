import Beast.Core.CiCharTraits
import Beast.Lib.BitFields

/-! The bits that are put behind each other in the pending output. -/

namespace Beast.Zlib

/-- The pending output, with the bits that make no octets so far. -/
structure Sink where
  pending_buf_ : Octets
  /-- Bits are inserted starting at the bottom. -/
  bi_buf_ : Nat
  /-- Number of valid bits. All bits above the last valid bit are always zero. -/
  bi_valid_ : Nat

namespace Sink

def Buf_size : Nat := 16

def put_byte (s : Sink) (c : Nat) : Sink :=
  { s with pending_buf_ := s.pending_buf_ ++ [UInt8.ofNat c] }

def put_short (s : Sink) (w : Nat) : Sink := (s.put_byte (w &&& 0xff)).put_byte (w >>> 8)

/-- Send a value on a given number of bits. -/
def send_bits (s : Sink) (value length : Nat) : Sink :=
  let value := value % 2 ^ 16
  let bi_buf := (s.bi_buf_ ||| value <<< s.bi_valid_) % 2 ^ 16
  if Buf_size < s.bi_valid_ + length then
    { s.put_short bi_buf with
      bi_buf_ := value >>> (Buf_size - s.bi_valid_)
      bi_valid_ := s.bi_valid_ + length - Buf_size }
  else { s with bi_buf_ := bi_buf, bi_valid_ := s.bi_valid_ + length }

/-- Flush the bit buffer and align the output on a byte boundary. -/
def bi_windup (s : Sink) : Sink :=
  let s' :=
    if 8 < s.bi_valid_ then s.put_short s.bi_buf_
    else if 0 < s.bi_valid_ then s.put_byte s.bi_buf_
    else s
  { s' with bi_buf_ := 0, bi_valid_ := 0 }

/-- Copy a stored block, storing first the length and its one's complement. -/
def copy_block (s : Sink) (buf : Octets) : Sink :=
  let s := s.bi_windup
  let s := (s.put_short (buf.length % 2 ^ 16)).put_short (2 ^ 16 - 1 - buf.length % 2 ^ 16)
  { s with pending_buf_ := s.pending_buf_ ++ buf }

/-! ## What has been sent -/

/-- How many bits there are. -/
def size (s : Sink) : Nat := 8 * s.pending_buf_.length + s.bi_valid_

/-- The bits as a number, with the first one as the lowest. -/
def value (s : Sink) : Nat :=
  BitString.ofOctets s.pending_buf_ + 2 ^ (8 * s.pending_buf_.length) * s.bi_buf_

/-- There are no bits above the valid ones, of which the buffer holds no more than it can. -/
structure Sound (s : Sink) : Prop where
  clean : s.bi_buf_ < 2 ^ s.bi_valid_
  fits : s.bi_valid_ ≤ Buf_size

variable {s : Sink} {v n : Nat}

theorem ofOctets_append (front back : List UInt8) : BitString.ofOctets (front ++ back) =
    BitString.ofOctets front + 2 ^ (8 * front.length) * BitString.ofOctets back := by
  rw [BitString.ofOctets, List.map_append, Nat.ofDigits_append, List.length_map, Nat.pow_mul]
  rfl

/-- A number of 16 bits is put as two octets. -/
theorem put_short_octets (s : Sink) {w : Nat} (small : w < 2 ^ 16) :
    (s.put_short w).pending_buf_.length = s.pending_buf_.length + 2 ∧
      BitString.ofOctets (s.put_short w).pending_buf_ =
        BitString.ofOctets s.pending_buf_ + 2 ^ (8 * s.pending_buf_.length) * w := by
  have low : (UInt8.ofNat (w &&& 0xff)).toNat = w % 2 ^ 8 := by
    rw [(Nat.and_two_pow_sub_one_eq_mod w 8 : w &&& 0xff = w % 2 ^ 8), UInt8.toNat_ofNat']
    omega
  have high : (UInt8.ofNat (w >>> 8)).toNat = w / 2 ^ 8 := by
    rw [Nat.shiftRight_eq_div_pow, UInt8.toNat_ofNat']
    omega
  constructor
  · simp [put_short, put_byte]
  · rw [put_short, put_byte, put_byte, List.append_assoc, ofOctets_append]
    congr 2
    rw [List.cons_append, List.nil_append, BitString.ofOctets_cons, BitString.ofOctets_cons,
      BitString.ofOctets_nil, low, high]
    omega

/-- A value is sent: its bits are behind those that were sent before. -/
theorem Sound.send_bits (sound : s.Sound) (fit : v < 2 ^ n) (few : n ≤ Buf_size) :
    (s.send_bits v n).Sound ∧ (s.send_bits v n).size = s.size + n ∧
      (s.send_bits v n).value = s.value + 2 ^ s.size * v := by
  have clean := sound.clean
  have fits := sound.fits
  rw [Buf_size] at few fits
  have wide : 2 ^ n ≤ 2 ^ 16 := Nat.pow_le_pow_right (by decide) few
  have small : v % 2 ^ 16 = v := Nat.mod_eq_of_lt (Nat.lt_of_lt_of_le fit wide)
  -- The new bits are above those that are valid.
  have joined : s.bi_buf_ ||| v <<< s.bi_valid_ = s.bi_buf_ + 2 ^ s.bi_valid_ * v := by
    rw [Nat.shiftLeft_eq, Nat.or_comm, Nat.mul_comm, ← Nat.two_pow_add_eq_or_of_lt clean, Nat.add_comm]
  have bound : s.bi_buf_ + 2 ^ s.bi_valid_ * v < 2 ^ (s.bi_valid_ + n) := by
    rw [Nat.pow_add]
    calc s.bi_buf_ + 2 ^ s.bi_valid_ * v
      _ < 2 ^ s.bi_valid_ * 1 + 2 ^ s.bi_valid_ * v := by omega
      _ = 2 ^ s.bi_valid_ * (v + 1) := by ring
      _ ≤ 2 ^ s.bi_valid_ * 2 ^ n := Nat.mul_le_mul_left _ fit
  have sum : s.value + 2 ^ s.size * v = BitString.ofOctets s.pending_buf_ +
      2 ^ (8 * s.pending_buf_.length) * (s.bi_buf_ + 2 ^ s.bi_valid_ * v) := by
    rw [value, size, Nat.pow_add]
    ring
  rw [sum, Sink.send_bits, small, joined]
  dsimp only
  split
  · rename_i excess
    rw [Buf_size] at excess
    obtain ⟨length, octets⟩ := s.put_short_octets
      (Nat.mod_lt (s.bi_buf_ + 2 ^ s.bi_valid_ * v) (by decide : 0 < 2 ^ 16))
    have rest : v >>> (Buf_size - s.bi_valid_) = (s.bi_buf_ + 2 ^ s.bi_valid_ * v) / 2 ^ 16 := by
      have cut : 2 ^ 16 = 2 ^ s.bi_valid_ * 2 ^ (16 - s.bi_valid_) := by
        rw [← Nat.pow_add, Nat.add_sub_cancel' fits]
      rw [cut, ← Nat.div_div_eq_div_mul, Nat.add_mul_div_left _ _ (Nat.two_pow_pos _),
        Nat.div_eq_of_lt clean, Nat.zero_add, Nat.shiftRight_eq_div_pow, Buf_size]
    refine ⟨⟨?_, ?_⟩, ?_, ?_⟩
    · dsimp only
      rw [rest, Buf_size]
      refine Nat.div_lt_of_lt_mul ?_
      rw [← Nat.pow_add, (by omega : 16 + (s.bi_valid_ + n - 16) = s.bi_valid_ + n)]
      exact bound
    · dsimp only
      rw [Buf_size]
      omega
    · rw [size, size, Buf_size]
      dsimp only
      omega
    · rw [value]
      dsimp only
      rw [rest, length, octets, Nat.mul_add, Nat.pow_add]
      have parts := Nat.mod_add_div (s.bi_buf_ + 2 ^ s.bi_valid_ * v) (2 ^ 16)
      calc _
        _ = BitString.ofOctets s.pending_buf_ + 2 ^ (8 * s.pending_buf_.length) *
            ((s.bi_buf_ + 2 ^ s.bi_valid_ * v) % 2 ^ 16 +
              2 ^ 16 * ((s.bi_buf_ + 2 ^ s.bi_valid_ * v) / 2 ^ 16)) := by ring
        _ = _ := by rw [parts]
  · rename_i inside
    rw [Buf_size] at inside
    have whole : (s.bi_buf_ + 2 ^ s.bi_valid_ * v) % 2 ^ 16 = s.bi_buf_ + 2 ^ s.bi_valid_ * v :=
      Nat.mod_eq_of_lt (Nat.lt_of_lt_of_le bound (Nat.pow_le_pow_right (by decide) (by omega)))
    rw [whole]
    exact ⟨⟨bound, by rw [Buf_size]; dsimp only; omega⟩, by rw [size, size]; dsimp only; omega, rfl⟩

/-- How many bits there are does not depend on the value that is sent. -/
theorem size_send_bits (s : Sink) (v : Nat) {n : Nat} (few : n ≤ Buf_size) (fits : s.bi_valid_ ≤ Buf_size) :
    (s.send_bits v n).size = s.size + n ∧ (s.send_bits v n).bi_valid_ ≤ Buf_size := by
  rw [Sink.send_bits]
  dsimp only
  rw [Buf_size] at *
  split
  · have length : (s.put_short ((s.bi_buf_ ||| (v % 2 ^ 16) <<< s.bi_valid_) % 2 ^ 16)).pending_buf_.length =
        s.pending_buf_.length + 2 := by simp [put_short, put_byte]
    rw [size, size]
    dsimp only
    omega
  · rw [size, size]
    dsimp only
    omega

/-- Sends some numbers, one after another. -/
def send (s : Sink) (fs : List BitField) : Sink := fs.foldl (fun s f => s.send_bits f.1 f.2) s

@[simp] theorem send_nil (s : Sink) : s.send [] = s := rfl

@[simp] theorem send_cons (s : Sink) (f : BitField) (fs : List BitField) :
    s.send (f :: fs) = (s.send_bits f.1 f.2).send fs := rfl

theorem send_append (s : Sink) (fs gs : List BitField) : s.send (fs ++ gs) = (s.send fs).send gs :=
  List.foldl_append

variable {fs : List BitField}

/-- What is sent is behind what was sent before. -/
theorem Sound.send (sound : s.Sound) (fit : BitField.Fit fs) (few : ∀ f ∈ fs, f.2 ≤ Buf_size) :
    (s.send fs).Sound ∧ (s.send fs).size = s.size + BitField.width fs ∧
      (s.send fs).value = s.value + 2 ^ s.size * BitField.pack fs := by
  induction fs generalizing s with
  | nil => exact ⟨sound, rfl, (Nat.add_zero _).symm⟩
  | cons f fs ih =>
    obtain ⟨sound₁, size₁, value₁⟩ := sound.send_bits (fit f List.mem_cons_self)
      (few f List.mem_cons_self)
    obtain ⟨sound₂, size₂, value₂⟩ := ih sound₁ (fun g member => fit g (List.mem_cons_of_mem _ member))
      fun g member => few g (List.mem_cons_of_mem _ member)
    rw [send_cons]
    refine ⟨sound₂, ?_, ?_⟩
    · rw [size₂, size₁, BitField.width_cons, Nat.add_assoc]
    · obtain ⟨v, n⟩ := f
      rw [value₂, value₁, size₁, BitField.pack, Nat.pow_add]
      ring

theorem size_send (few : ∀ f ∈ fs, f.2 ≤ Buf_size) (fits : s.bi_valid_ ≤ Buf_size) :
    (s.send fs).size = s.size + BitField.width fs ∧ (s.send fs).bi_valid_ ≤ Buf_size := by
  induction fs generalizing s with
  | nil => exact ⟨rfl, fits⟩
  | cons f fs ih =>
    obtain ⟨size₁, fits₁⟩ := s.size_send_bits f.1 (few f List.mem_cons_self) fits
    obtain ⟨size₂, fits₂⟩ := ih (fun g member => few g (List.mem_cons_of_mem _ member)) fits₁
    rw [send_cons]
    refine ⟨?_, fits₂⟩
    rw [size₂, size₁, BitField.width_cons, Nat.add_assoc]

end Sink

end Beast.Zlib
