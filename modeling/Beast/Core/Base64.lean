import Beast.Core.CiCharTraits
import Mathlib.Data.FinEnum
import Mathlib.Data.List.GetD
import Mathlib.Data.List.TakeWhile

/-! Text of sixty-four symbols: how octets are written as it and read back. -/

namespace Beast.Base64

/-- The symbols, each at its value. -/
def getAlphabet : Octets :=
  octets "ABCDEFGHIJKLMNOPQRSTUVWXYZabcdefghijklmnopqrstuvwxyz0123456789+/"

/-- The value of each character, or minus one. -/
def getInverse : List Int := [
  -1, -1, -1, -1, -1, -1, -1, -1, -1, -1, -1, -1, -1, -1, -1, -1,
  -1, -1, -1, -1, -1, -1, -1, -1, -1, -1, -1, -1, -1, -1, -1, -1,
  -1, -1, -1, -1, -1, -1, -1, -1, -1, -1, -1, 62, -1, -1, -1, 63,
  52, 53, 54, 55, 56, 57, 58, 59, 60, 61, -1, -1, -1, -1, -1, -1,
  -1, -1,  1,  2,  3,  4,  5,  6,  7,  8,  9, 10, 11, 12, 13, 14,
  15, 16, 17, 18, 19, 20, 21, 22, 23, 24, 25, -1, -1, -1, -1, -1,
  -1, 26, 27, 28, 29, 30, 31, 32, 33, 34, 35, 36, 37, 38, 39, 40,
  41, 42, 43, 44, 45, 46, 47, 48, 49, 50, 51, -1, -1, -1, -1, -1,
  -1, -1, -1, -1, -1, -1, -1, -1, -1, -1, -1, -1, -1, -1, -1, -1,
  -1, -1, -1, -1, -1, -1, -1, -1, -1, -1, -1, -1, -1, -1, -1, -1,
  -1, -1, -1, -1, -1, -1, -1, -1, -1, -1, -1, -1, -1, -1, -1, -1,
  -1, -1, -1, -1, -1, -1, -1, -1, -1, -1, -1, -1, -1, -1, -1, -1,
  -1, -1, -1, -1, -1, -1, -1, -1, -1, -1, -1, -1, -1, -1, -1, -1,
  -1, -1, -1, -1, -1, -1, -1, -1, -1, -1, -1, -1, -1, -1, -1, -1,
  -1, -1, -1, -1, -1, -1, -1, -1, -1, -1, -1, -1, -1, -1, -1, -1,
  -1, -1, -1, -1, -1, -1, -1, -1, -1, -1, -1, -1, -1, -1, -1, -1]

/-- The symbol of a value. -/
def symbol (v : UInt8) : UInt8 := getAlphabet.getD v.toNat 0

/-- What the table has for a character. -/
def inverse (c : UInt8) : Int := getInverse.getD c.toNat (-1)

/-- How many characters octets are encoded as. -/
def encodedSize (n : Nat) : Nat := 4 * ((n + 2) / 3)

/-- How many octets a caller makes room for. -/
def decodedSize (n : Nat) : Nat := n / 4 * 3

/-- The characters that `encode` writes for octets, whose number it returns. -/
def encode : Octets → Octets
  | a :: b :: c :: rest =>
    symbol ((a &&& 0xfc) >>> 2) ::
    symbol (((a &&& 0x03) <<< 4) + ((b &&& 0xf0) >>> 4)) ::
    symbol (((c &&& 0xc0) >>> 6) + ((b &&& 0x0f) <<< 2)) ::
    symbol (c &&& 0x3f) :: encode rest
  | [a, b] => [symbol ((a &&& 0xfc) >>> 2),
    symbol (((a &&& 0x03) <<< 4) + ((b &&& 0xf0) >>> 4)),
    symbol ((b &&& 0x0f) <<< 2), octet '=']
  | [a] => [symbol ((a &&& 0xfc) >>> 2), symbol ((a &&& 0x03) <<< 4), octet '=', octet '=']
  | [] => []

/-- The variables of `decode`: what it wrote, the values of the group, and how many are in. -/
structure Decoding where
  out : Octets
  c4 : Vector UInt8 4
  i : Fin 4

/-- The three octets of a group of four values. -/
def c3 (c4 : Vector UInt8 4) : Octets :=
  [(c4[0] <<< 2) + ((c4[1] &&& 0x30) >>> 4),
   ((c4[1] &&& 0xf) <<< 4) + ((c4[2] &&& 0x3c) >>> 2),
   ((c4[2] &&& 0x3) <<< 6) + c4[3]]

/-- Takes one more value, and writes a group that is full with it. -/
def Decoding.store (d : Decoding) (v : UInt8) : Decoding :=
  let c4 := d.c4.set d.i v
  if next : d.i.val + 1 < 4 then { d with c4, i := ⟨d.i.val + 1, next⟩ }
  else { out := d.out ++ c3 c4, c4, i := 0 }

/-- The loop of `decode`, and how many characters it went behind. -/
def decodeLoop (d : Decoding) : Octets → Decoding × Nat
  | [] => (d, 0)
  | c :: rest =>
    if c = octet '=' then (d, 0)
    else if inverse c = -1 then (d, 0)
    else
      let (d, read) := decodeLoop (d.store (UInt8.ofInt (inverse c))) rest
      (d, read + 1)

/-- What is written once the loop is left, with the octets of a group that is not full. -/
def Decoding.flush (d : Decoding) : Octets :=
  if d.i ≠ 0 then d.out ++ (c3 d.c4).take (d.i.val - 1) else d.out

/-- What `decode` writes, whose length it returns, and how many characters it read. Its array of
values holds anything at first. -/
def decode (junk : Vector UInt8 4) (src : Octets) : Octets × Nat :=
  let (d, read) := decodeLoop ⟨[], junk, 0⟩ src
  (d.flush, read)

/-- The text of octets, where what is written fits into the string that was made for it. -/
def base64Encode (s : Octets) : Option Octets :=
  if (encode s).length ≤ encodedSize s.length then some (encode s) else none

/-- The octets of a text, where what is written fits into the string that was made for it. -/
def base64Decode (junk : Vector UInt8 4) (data : Octets) : Option Octets :=
  if (decode junk data).1.length ≤ decodedSize data.length then some (decode junk data).1 else none

/-- Octets are encoded in the room that is made for it, and decoded as they were. -/
def RoundTrips (junk : Vector UInt8 4) (s : Octets) : Prop :=
  (encode s).length = encodedSize s.length ∧ (decode junk (encode s)).1 = s ∧
    (base64Encode s).bind (base64Decode junk) = some s

/-- What a text is decoded as stays in the room that is made for it. -/
def StaysInside (junk : Vector UInt8 4) (text : Octets) : Prop :=
  (decode junk text).1.length ≤ decodedSize text.length ∧ (base64Decode junk text).isSome

/-- The values of the characters a text starts with that the table knows. -/
def known (text : Octets) : Octets :=
  (text.takeWhile fun c => inverse c ≠ -1).map fun c => UInt8.ofInt (inverse c)

/-- Values as `encode` cuts octets into them, six bits each. -/
def sextets : Octets → Octets
  | a :: b :: c :: rest =>
    ((a &&& 0xfc) >>> 2) :: (((a &&& 0x03) <<< 4) + ((b &&& 0xf0) >>> 4)) ::
    (((c &&& 0xc0) >>> 6) + ((b &&& 0x0f) <<< 2)) :: (c &&& 0x3f) :: sextets rest
  | [a, b] => [(a &&& 0xfc) >>> 2, ((a &&& 0x03) <<< 4) + ((b &&& 0xf0) >>> 4), (b &&& 0x0f) <<< 2]
  | [a] => [(a &&& 0xfc) >>> 2, (a &&& 0x03) <<< 4]
  | [] => []

/-- The characters behind the last value. -/
def padding (n : Nat) : Octets := List.replicate ((3 - n % 3) % 3) (octet '=')

/-- A bit of octets, counted from the most significant one of the first. -/
def bitAt (s : Octets) (j : Nat) : Bool := (s.getD (j / 8) 0).toNat.testBit (7 - j % 8)

/-- Whether one of six bits is set, from a place that six divides, and of as many as are there. -/
def sixSet (s : Octets) (i : Nat) : Prop := ∃ b < 6, bitAt s (6 * i + b) = true

/-- A pad is no symbol. -/
@[simp] theorem inverse_pad : inverse (octet '=') = -1 := by decide +kernel

/-- The table has no value for the first symbol. -/
@[simp] theorem inverse_first : inverse (symbol 0) = -1 := by decide +kernel

/-- Every other symbol has its value back. -/
theorem inverse_symbol {v : UInt8} (small : v < 64) (set : v ≠ 0) :
    inverse (symbol v) = v.toNat := by
  have all : ∀ v : UInt8, v < 64 → v ≠ 0 → inverse (symbol v) = v.toNat := by decide +kernel
  exact all v small set

/-- What is encoded is the symbols of the values, and pads behind them. -/
theorem encode_eq (s : Octets) : encode s = (sextets s).map symbol ++ padding s.length := by
  induction s using encode.induct with
  | case1 a b c rest ih =>
    have turn : (3 - (rest.length + 3) % 3) % 3 = (3 - rest.length % 3) % 3 := by omega
    simp [encode, sextets, ih, padding, turn]
  | case2 a b => rfl
  | case3 a => rfl
  | case4 => rfl

/-- How many values octets are cut into. -/
theorem sextets_length (s : Octets) : (sextets s).length = (4 * s.length + 2) / 3 := by
  induction s using sextets.induct with
  | case1 a b c rest ih =>
    simp only [sextets, List.length_cons, ih]
    omega
  | case2 a b => simp [sextets]
  | case3 a => simp [sextets]
  | case4 => rfl

/-- As many characters are written as the caller made room for. -/
theorem encode_length (s : Octets) : (encode s).length = encodedSize s.length := by
  rw [encode_eq, List.length_append, List.length_map, sextets_length, padding,
    List.length_replicate, encodedSize]
  omega

/-- The loop takes the values of the characters it knows, up to the first other one. -/
theorem decodeLoop_eq (d : Decoding) (text : Octets) :
    decodeLoop d text = ((known text).foldl Decoding.store d, (known text).length) := by
  induction text generalizing d with
  | nil => rfl
  | cons c rest ih =>
    rw [decodeLoop]
    by_cases other : inverse c = -1
    · -- A pad is one of the characters that the table does not know.
      simp [other, known]
    · have symbolic : c ≠ octet '=' := by
        rintro rfl
        exact other inverse_pad
      rw [if_neg symbolic, if_neg other, ih]
      simp [known, other]

/-- How many octets come of values. -/
def octetsOf (k : Nat) : Nat := k / 4 * 3 + (k % 4 - 1)

/-- What a value does to the number of octets written and of values held. -/
theorem Decoding.store_counts (d : Decoding) (v : UInt8) :
    (d.store v).i.val = (d.i.val + 1) % 4 ∧
      (d.store v).out.length = d.out.length + (d.i.val + 1) / 4 * 3 := by
  unfold Decoding.store
  by_cases next : d.i.val + 1 < 4
  · simp only [dif_pos next]
    omega
  · have full : d.i.val = 3 := by omega
    simp [full, c3]

/-- What values do to the number of octets written and of values held. -/
theorem stores_counts (d : Decoding) (vs : Octets) :
    (vs.foldl Decoding.store d).i.val = (d.i.val + vs.length) % 4 ∧
      (vs.foldl Decoding.store d).out.length = d.out.length + (d.i.val + vs.length) / 4 * 3 := by
  induction vs generalizing d with
  | nil =>
    have small := d.i.isLt
    simp only [List.foldl_nil, List.length_nil]
    omega
  | cons v vs ih =>
    obtain ⟨held, written⟩ := d.store_counts v
    obtain ⟨heldAll, writtenAll⟩ := ih (d.store v)
    simp only [List.foldl_cons, List.length_cons]
    omega

/-- As many octets are written as come of the characters that the table knows. -/
theorem decode_length (junk : Vector UInt8 4) (text : Octets) :
    (decode junk text).1.length = octetsOf (known text).length := by
  obtain ⟨held, written⟩ := stores_counts ⟨[], junk, 0⟩ (known text)
  have some_three (c4 : Vector UInt8 4) : (c3 c4).length = 3 := rfl
  -- The loop is a fold over the known characters, which leaves a part of a group to be flushed.
  simp only [decode, octetsOf, decodeLoop_eq]
  generalize (known text).foldl Decoding.store ⟨[], junk, 0⟩ = d at held written
  simp only [List.length_nil, Fin.val_zero, Nat.zero_add] at held written
  unfold Decoding.flush
  by_cases none : d.i = 0
  · have zero : d.i.val = 0 := by rw [none]; rfl
    simp only [none, ne_eq, not_true_eq_false, if_false]
    omega
  · have small := d.i.isLt
    simp only [ne_eq, none, not_false_eq_true, if_true, List.length_append, List.length_take,
      some_three]
    omega

/-- What is written fits into the room for it, unless the text ends with two or three characters of
a group that is not padded. -/
theorem staysInside_iff (junk : Vector UInt8 4) (text : Octets) :
    StaysInside junk text ↔
      (known text).length / 4 < text.length / 4 ∨ (known text).length % 4 ≤ 1 := by
  have part : (known text).length ≤ text.length := by
    rw [known, List.length_map]
    exact (List.takeWhile_sublist _).length_le
  have fits : (base64Decode junk text).isSome ↔
      (decode junk text).1.length ≤ decodedSize text.length := by
    unfold base64Decode
    by_cases room : (decode junk text).1.length ≤ decodedSize text.length <;> simp [room]
  rw [StaysInside, fits, and_self, decode_length, octetsOf, decodedSize]
  omega

/-- Two characters without pads are decoded into an octet for which there is no room. -/
theorem unpadded_past_end : (decode #v[0, 0, 0, 0] (octets "QQ")).1 = [65] ∧
    decodedSize (octets "QQ").length = 0 ∧ ¬StaysInside #v[0, 0, 0, 0] (octets "QQ") := by
  unfold StaysInside
  decide +kernel

/-- The two parts of a value that two octets share, where the upper one has two bits. -/
theorem upper_two : ∀ p : UInt8, p < 4 → ∀ q : UInt8, q < 16 →
    (((p <<< 4) + q) &&& 0x30) >>> 4 = p ∧ ((p <<< 4) + q) &&& 0xf = q ∧ (p <<< 4) + q < 64 ∧
      ((p <<< 4) + q ≠ 0 ↔ p ≠ 0 ∨ q ≠ 0) := by
  decide +kernel

/-- The two parts of a value that two octets share, where the upper one has four bits. -/
theorem upper_four : ∀ p : UInt8, p < 16 → ∀ q : UInt8, q < 4 →
    ((q + (p <<< 2)) &&& 0x3c) >>> 2 = p ∧ (q + (p <<< 2)) &&& 0x3 = q ∧ q + (p <<< 2) < 64 ∧
      (q + (p <<< 2) ≠ 0 ↔ q ≠ 0 ∨ p ≠ 0) := by
  decide +kernel

/-- The parts of an octet, and their bounds. -/
theorem parts : ∀ a : UInt8,
    ((a &&& 0xfc) >>> 2 < 64 ∧ a &&& 0x03 < 4 ∧ (((a &&& 0xfc) >>> 2) <<< 2) + (a &&& 0x03) = a) ∧
    ((a &&& 0xf0) >>> 4 < 16 ∧ a &&& 0x0f < 16 ∧
      (((a &&& 0xf0) >>> 4) <<< 4) + (a &&& 0x0f) = a) ∧
    ((a &&& 0xc0) >>> 6 < 4 ∧ a &&& 0x3f < 64 ∧
      (((a &&& 0xc0) >>> 6) <<< 6) + (a &&& 0x3f) = a) := by
  decide +kernel

/-- Each value has six bits. -/
theorem sextets_small (s : Octets) : ∀ v ∈ sextets s, v < 64 := by
  -- The induction is on the groups of three octets, the last of which may be short.
  induction s using sextets.induct with
  | case1 a b c rest ih =>
    obtain ⟨⟨first, low, -⟩, -, -⟩ := parts a
    obtain ⟨-, ⟨high, mid, -⟩, -⟩ := parts b
    obtain ⟨-, -, top, last, -⟩ := parts c
    intro v member
    simp only [sextets, List.mem_cons] at member
    rcases member with rfl | rfl | rfl | rfl | later
    · exact first
    · exact (upper_two _ low _ high).2.2.1
    · exact (upper_four _ mid _ top).2.2.1
    · exact last
    · exact ih v later
  | case2 a b =>
    obtain ⟨⟨first, low, -⟩, -, -⟩ := parts a
    obtain ⟨-, ⟨high, mid, -⟩, -⟩ := parts b
    have alone := (upper_four _ mid 0 (by decide)).2.2.1
    rw [UInt8.zero_add] at alone
    intro v member
    simp only [sextets, List.mem_cons, List.not_mem_nil, or_false] at member
    rcases member with rfl | rfl | rfl
    · exact first
    · exact (upper_two _ low _ high).2.2.1
    · exact alone
  | case3 a =>
    obtain ⟨⟨first, low, -⟩, -, -⟩ := parts a
    have alone := (upper_two _ low 0 (by decide)).2.2.1
    rw [UInt8.add_zero] at alone
    intro v member
    simp only [sextets, List.mem_cons, List.not_mem_nil, or_false] at member
    rcases member with rfl | rfl
    · exact first
    · exact alone
  | case4 => simp [sextets]

/-- Of what was encoded, the table knows the values in front of the first zero. -/
theorem known_encode (s : Octets) :
    known (encode s) = (sextets s).takeWhile fun v => v ≠ 0 := by
  have pads : known (padding s.length) = [] := by
    unfold padding
    cases (3 - s.length % 3) % 3 <;> simp [known, List.replicate_succ]
  have small := sextets_small s
  -- The symbols are those of the values one by one, and padding is not known.
  rw [encode_eq]
  generalize sextets s = vs at small
  induction vs with
  | nil => exact pads
  | cons v vs ih =>
    have rest := ih fun u member => small u (List.mem_cons_of_mem _ member)
    by_cases zero : v = 0
    · -- The table gives zero for its last character and takes it for unknown.
      simp [zero, known]
    · have own := inverse_symbol (small v List.mem_cons_self) zero
      have back : UInt8.ofInt (v.toNat : Int) = v := by
        have bound := v.toNat_lt
        apply UInt8.toNat_inj.mp
        simp only [UInt8.ofInt, UInt8.toNat_ofNat']
        omega
      have valued : (v.toNat : Int) ≠ -1 := by omega
      simp only [known, List.map_cons, List.cons_append] at rest ⊢
      rw [List.takeWhile_cons_of_pos (by simp [own, valued]), List.map_cons, own, back, rest,
        List.takeWhile_cons_of_pos (by simp [zero])]

/-- Four values fill a group. -/
theorem store_group (out : Octets) (c4 : Vector UInt8 4) (w x y z : UInt8) :
    [w, x, y, z].foldl Decoding.store ⟨out, c4, 0⟩ =
      ⟨out ++ c3 #v[w, x, y, z], #v[w, x, y, z], 0⟩ := by
  have full : (((c4.set 0 w).set 1 x).set 2 y).set 3 z = #v[w, x, y, z] := by
    ext j small
    rcases j with _ | _ | _ | _ | j
    · simp
    · simp
    · simp
    · simp
    · omega
  simp [Decoding.store, full]

/-- The values of octets are decoded as these octets. -/
theorem flush_sextets (s out : Octets) (c4 : Vector UInt8 4) :
    ((sextets s).foldl Decoding.store ⟨out, c4, 0⟩).flush = out ++ s := by
  induction s using sextets.induct generalizing out c4 with
  | case1 a b c rest ih =>
    obtain ⟨⟨-, low, first⟩, -, -⟩ := parts a
    obtain ⟨-, ⟨high, mid, second⟩, -⟩ := parts b
    obtain ⟨-, -, top, -, third⟩ := parts c
    obtain ⟨upper, lower, -, -⟩ := upper_two _ low _ high
    obtain ⟨upper', lower', -, -⟩ := upper_four _ mid _ top
    have group := store_group out c4 ((a &&& 0xfc) >>> 2)
      (((a &&& 0x03) <<< 4) + ((b &&& 0xf0) >>> 4))
      (((c &&& 0xc0) >>> 6) + ((b &&& 0x0f) <<< 2)) (c &&& 0x3f)
    have whole : c3 #v[(a &&& 0xfc) >>> 2, ((a &&& 0x03) <<< 4) + ((b &&& 0xf0) >>> 4),
        ((c &&& 0xc0) >>> 6) + ((b &&& 0x0f) <<< 2), c &&& 0x3f] = [a, b, c] := by
      simp only [c3, Vector.getElem_mk, List.getElem_toArray, List.getElem_cons_zero,
        List.getElem_cons_succ, upper, lower, upper', lower', first, second, third]
    rw [whole] at group
    simp only [List.foldl_cons, List.foldl_nil] at group
    simp only [sextets, List.foldl_cons, group, ih, List.append_assoc, List.cons_append,
      List.nil_append]
  | case2 a b =>
    -- Three values are held, the last of which only has bits of the second octet.
    obtain ⟨⟨-, low, first⟩, -, -⟩ := parts a
    obtain ⟨-, ⟨high, mid, second⟩, -⟩ := parts b
    obtain ⟨upper, lower, -, -⟩ := upper_two _ low _ high
    obtain ⟨upper', -, -, -⟩ := upper_four _ mid 0 (by decide)
    rw [UInt8.zero_add] at upper'
    simp [sextets, Decoding.store, Decoding.flush, c3, upper, lower, upper', first, second]
  | case3 a =>
    -- Two values are held, the last of which only has bits of the octet.
    obtain ⟨⟨-, low, first⟩, -, -⟩ := parts a
    obtain ⟨upper, -, -, -⟩ := upper_two _ low 0 (by decide)
    rw [UInt8.add_zero] at upper
    simp [sextets, Decoding.store, Decoding.flush, c3, upper, first]
  | case4 => simp [sextets, Decoding.flush]

/-- A run of six bits in the first octet, or behind it. -/
theorem bitAt_octet (s t : Octets) (j : Nat) : bitAt (s ++ t) (8 * s.length + j) = bitAt t j := by
  have place : (8 * s.length + j) / 8 = s.length + j / 8 := by omega
  have turn : (8 * s.length + j) % 8 = j % 8 := by omega
  rw [bitAt, bitAt, place, turn, List.getD_append_right _ _ _ _ (Nat.le_add_right _ _),
    Nat.add_sub_cancel_left]

/-- Six bits are set somewhere where one of them is. -/
theorem sixSet_iff (s : Octets) (i : Nat) : sixSet s i ↔
    bitAt s (6 * i) ∨ bitAt s (6 * i + 1) ∨ bitAt s (6 * i + 2) ∨ bitAt s (6 * i + 3) ∨
      bitAt s (6 * i + 4) ∨ bitAt s (6 * i + 5) := by
  constructor
  · rintro ⟨b, small, set⟩
    rcases b with _ | _ | _ | _ | _ | _ | b
    · exact .inl set
    · exact .inr (.inl set)
    · exact .inr (.inr (.inl set))
    · exact .inr (.inr (.inr (.inl set)))
    · exact .inr (.inr (.inr (.inr (.inl set))))
    · exact .inr (.inr (.inr (.inr (.inr set))))
    · omega
  · rintro (set | set | set | set | set | set)
    · exact ⟨0, by omega, set⟩
    · exact ⟨1, by omega, set⟩
    · exact ⟨2, by omega, set⟩
    · exact ⟨3, by omega, set⟩
    · exact ⟨4, by omega, set⟩
    · exact ⟨5, by omega, set⟩

/-- Which bits of an octet decide whether its parts are zero. -/
theorem parts_set : ∀ a : UInt8,
    ((a &&& 0xfc) >>> 2 ≠ 0 ↔ a.toNat.testBit 7 ∨ a.toNat.testBit 6 ∨ a.toNat.testBit 5 ∨
      a.toNat.testBit 4 ∨ a.toNat.testBit 3 ∨ a.toNat.testBit 2) ∧
    (a &&& 0x03 ≠ 0 ↔ a.toNat.testBit 1 ∨ a.toNat.testBit 0) ∧
    ((a &&& 0xf0) >>> 4 ≠ 0 ↔ a.toNat.testBit 7 ∨ a.toNat.testBit 6 ∨ a.toNat.testBit 5 ∨
      a.toNat.testBit 4) ∧
    (a &&& 0x0f ≠ 0 ↔ a.toNat.testBit 3 ∨ a.toNat.testBit 2 ∨ a.toNat.testBit 1 ∨
      a.toNat.testBit 0) ∧
    ((a &&& 0xc0) >>> 6 ≠ 0 ↔ a.toNat.testBit 7 ∨ a.toNat.testBit 6) ∧
    (a &&& 0x3f ≠ 0 ↔ a.toNat.testBit 5 ∨ a.toNat.testBit 4 ∨ a.toNat.testBit 3 ∨
      a.toNat.testBit 2 ∨ a.toNat.testBit 1 ∨ a.toNat.testBit 0) := by
  decide +kernel

/-- Which of the first values are zero, in octets that may be fewer than three. -/
theorem first_set (s : Octets) {a b c : UInt8} (one : s.getD 0 0 = a) (two : s.getD 1 0 = b)
    (three : s.getD 2 0 = c) :
    (sixSet s 0 ↔ (a &&& 0xfc) >>> 2 ≠ 0) ∧
    (sixSet s 1 ↔ ((a &&& 0x03) <<< 4) + ((b &&& 0xf0) >>> 4) ≠ 0) ∧
    (sixSet s 2 ↔ ((c &&& 0xc0) >>> 6) + ((b &&& 0x0f) <<< 2) ≠ 0) ∧
    (sixSet s 3 ↔ c &&& 0x3f ≠ 0) := by
  obtain ⟨first, low, -⟩ := parts_set a
  obtain ⟨-, -, high, mid, -⟩ := parts_set b
  obtain ⟨-, -, -, -, top, last⟩ := parts_set c
  have second := (upper_two _ (parts a).1.2.1 _ (parts b).2.1.1).2.2.2
  have third := (upper_four _ (parts b).2.1.2.1 _ (parts c).2.2.1).2.2.2
  rw [List.getD_eq_getElem?_getD] at one two three
  simp only [sixSet_iff, first, second, third, low, high, mid, top, last, bitAt]
  simp [one, two, three, or_assoc, or_comm, or_left_comm]

/-- Six bits behind the first three octets are six bits of what follows these. -/
theorem sixSet_behind (a b c : UInt8) (rest : Octets) (i : Nat) :
    sixSet (a :: b :: c :: rest) (i + 4) ↔ sixSet rest i := by
  -- Three octets have as many bits as four values.
  have moved (j : Nat) : bitAt (a :: b :: c :: rest) (6 * (i + 4) + j) = bitAt rest (6 * i + j) := by
    have behind := bitAt_octet [a, b, c] rest (6 * i + j)
    rw [show 6 * (i + 4) + j = 8 * [a, b, c].length + (6 * i + j) by simp; omega]
    exact behind
  simp only [sixSet, moved]

/-- No value is zero where one of every six bits is set. -/
theorem sextets_set (s : Octets) :
    (∀ v ∈ sextets s, v ≠ 0) ↔ ∀ i, 6 * i < 8 * s.length → sixSet s i := by
  induction s using sextets.induct with
  | case1 a b c rest ih =>
    -- The first four values are those of the group, and the others come behind it.
    obtain ⟨first, second, third, fourth⟩ :=
      first_set (a :: b :: c :: rest) (a := a) (b := b) (c := c) rfl rfl rfl
    simp only [sextets, List.forall_mem_cons, ih, ← first, ← second, ← third, ← fourth,
      List.length_cons]
    constructor
    · rintro ⟨set0, set1, set2, set3, sets⟩ i inside
      rcases i with _ | _ | _ | _ | i
      · exact set0
      · exact set1
      · exact set2
      · exact set3
      · exact (sixSet_behind a b c rest i).mpr (sets i (by omega))
    · intro sets
      refine ⟨sets 0 (by omega), sets 1 (by omega), sets 2 (by omega), sets 3 (by omega), ?_⟩
      intro i inside
      exact (sixSet_behind a b c rest i).mp (sets (i + 4) (by omega))
  | case2 a b =>
    -- The third value of a short group has bits of the second octet only.
    obtain ⟨first, second, third, -⟩ := first_set [a, b] (a := a) (b := b) (c := 0) rfl rfl rfl
    rw [show ((0 : UInt8) &&& 0xc0) >>> 6 = 0 from rfl, UInt8.zero_add] at third
    simp only [sextets, List.forall_mem_cons, ← first, ← second, ← third]
    constructor
    · rintro ⟨set0, set1, set2, -⟩ i inside
      simp only [List.length_cons, List.length_nil] at inside
      obtain rfl | rfl | rfl : i = 0 ∨ i = 1 ∨ i = 2 := by omega
      · exact set0
      · exact set1
      · exact set2
    · intro sets
      refine ⟨sets 0 (by simp), sets 1 (by simp), sets 2 (by simp), ?_⟩
      simp
  | case3 a =>
    -- The second value of a single octet has the two bits that the first one leaves.
    obtain ⟨first, second, -, -⟩ := first_set [a] (a := a) (b := 0) (c := 0) rfl rfl rfl
    rw [show ((0 : UInt8) &&& 0xf0) >>> 4 = 0 from rfl, UInt8.add_zero] at second
    simp only [sextets, List.forall_mem_cons, ← first, ← second]
    constructor
    · rintro ⟨set0, set1, -⟩ i inside
      simp only [List.length_cons, List.length_nil] at inside
      obtain rfl | rfl : i = 0 ∨ i = 1 := by omega
      · exact set0
      · exact set1
    · intro sets
      refine ⟨sets 0 (by simp), sets 1 (by simp), ?_⟩
      simp
  | case4 => simp [sextets]

/-- Fewer values give fewer octets, where the octets they are of are given by all of them. -/
theorem octetsOf_lt {k n : Nat} (fewer : k < (4 * n + 2) / 3) : octetsOf k < n := by
  unfold octetsOf
  omega

/-- What was encoded is decoded as it was, in the room that is made for it, exactly where no six of
its bits that make up a symbol are all zero. -/
theorem roundTrips_iff (junk : Vector UInt8 4) (s : Octets) :
    RoundTrips junk s ↔ ∀ i, 6 * i < 8 * s.length → sixSet s i := by
  rw [← sextets_set]
  constructor
  · rintro ⟨-, back, -⟩
    -- A zero ends what the table knows, and octets are missing.
    by_contra zero
    have fewer : (known (encode s)).length < (4 * s.length + 2) / 3 := by
      rw [known_encode, ← sextets_length]
      refine lt_of_le_of_ne (List.takeWhile_sublist _).length_le fun all => zero ?_
      have whole := (List.takeWhile_sublist fun v => decide (v ≠ 0)).eq_of_length all
      intro v member
      have kept := List.mem_takeWhile_imp (whole ▸ member)
      simpa using kept
    have short := octetsOf_lt fewer
    rw [← decode_length junk, back] at short
    exact Nat.lt_irrefl _ short
  · intro set
    have all : known (encode s) = sextets s := by
      rw [known_encode]
      exact List.takeWhile_eq_self_iff.mpr fun v member => by simpa using set v member
    have back : (decode junk (encode s)).1 = s := by
      simp only [decode, decodeLoop_eq, all]
      exact flush_sextets s [] junk
    have room : (decode junk (encode s)).1.length ≤ decodedSize (encode s).length := by
      rw [back, encode_length, decodedSize, encodedSize]
      omega
    refine ⟨encode_length s, back, ?_⟩
    rw [base64Encode, if_pos (le_of_eq (encode_length s)), Option.bind_some, base64Decode,
      if_pos room, back]

/-- An octet of zeros is written as symbols that the table has no value for. -/
theorem zero_octet_lost : encode [0] = octets "AA==" ∧
    decode #v[0, 0, 0, 0] (octets "AA==") = ([], 0) ∧ ¬RoundTrips #v[0, 0, 0, 0] [0] := by
  unfold RoundTrips
  decide +kernel

end Beast.Base64
