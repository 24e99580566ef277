import Beast.Websocket.FrameLaws
import Mathlib.Data.List.Induction
import Mathlib.Tactic.Ring

/-! Frame headers are read back as they were written, and no other octets are accepted for them. -/

namespace Beast.Websocket

variable {lib : Lib}

section Numbers

@[simp] theorem length_nativeToLittle (n v : Nat) : (nativeToLittle n v).length = n := by
  induction n generalizing v with
  | zero => rfl
  | succ n ih => rw [nativeToLittle, List.length_cons, ih]

@[simp] theorem length_nativeToBig (n v : Nat) : (nativeToBig n v).length = n := by
  induction n generalizing v with
  | zero => rfl
  | succ n ih => simp [nativeToBig, ih]

@[simp] theorem bigToNative_concat (b : Octets) (c : UInt8) :
    bigToNative (b ++ [c]) = 256 * bigToNative b + c.toNat := by
  simp [bigToNative]

/-- A number that fits is read back, the least significant octet first. -/
theorem littleToNative_nativeToLittle {n v : Nat} (fits : v < 256 ^ n) :
    littleToNative (nativeToLittle n v) = v := by
  induction n generalizing v with
  | zero => simp at fits; simp [nativeToLittle, littleToNative, fits]
  | succ n ih =>
    rw [nativeToLittle, littleToNative, ih (by rw [Nat.pow_succ] at fits; omega)]
    simp only [UInt8.toNat_ofNat']
    omega

/-- A number that fits is read back, the most significant octet first. -/
theorem bigToNative_nativeToBig {n v : Nat} (fits : v < 256 ^ n) :
    bigToNative (nativeToBig n v) = v := by
  induction n generalizing v with
  | zero => simp at fits; simp [nativeToBig, bigToNative, fits]
  | succ n ih =>
    rw [nativeToBig, bigToNative_concat, ih (by rw [Nat.pow_succ] at fits; omega)]
    simp only [UInt8.toNat_ofNat']
    omega

/-- Octets are those of the number they stand for, the least significant one first. -/
theorem nativeToLittle_littleToNative (b : Octets) :
    nativeToLittle b.length (littleToNative b) = b := by
  induction b with
  | nil => rfl
  | cons c b ih =>
    have below := c.toNat_lt
    -- Dividing by 256 takes the first octet off again.
    rw [List.length_cons, nativeToLittle, littleToNative,
      show (c.toNat + 256 * littleToNative b) / 256 = littleToNative b by omega, ih]
    congr 1
    apply UInt8.toNat_inj.mp
    simp only [UInt8.toNat_ofNat']
    omega

/-- Octets are those of the number they stand for, the most significant one first. -/
theorem nativeToBig_bigToNative (b : Octets) : nativeToBig b.length (bigToNative b) = b := by
  induction b using List.reverseRecOn with
  | nil => rfl
  | append_singleton b c ih =>
    have below := c.toNat_lt
    -- Dividing by 256 takes the last octet off again.
    rw [List.length_append, List.length_singleton, nativeToBig, bigToNative_concat,
      show (256 * bigToNative b + c.toNat) / 256 = bigToNative b by omega, ih]
    congr 2
    apply UInt8.toNat_inj.mp
    simp only [UInt8.toNat_ofNat']
    omega

/-- Octets stand for a number that fits in as many. -/
theorem littleToNative_lt (b : Octets) : littleToNative b < 256 ^ b.length := by
  induction b with
  | nil => decide
  | cons c b ih =>
    have below := c.toNat_lt
    rw [littleToNative, List.length_cons, Nat.pow_succ]
    omega

/-- Octets stand for a number that fits in as many. -/
theorem bigToNative_lt (b : Octets) : bigToNative b < 256 ^ b.length := by
  induction b using List.reverseRecOn with
  | nil => decide
  | append_singleton b c ih =>
    have below := c.toNat_lt
    rw [bigToNative_concat, List.length_append, List.length_singleton, Nat.pow_succ]
    omega

end Numbers

/-! ## The two octets of the fixed part -/

/-- A claim about octets holds of each where it holds of all numbers that fit in one. -/
theorem forall_octet {p : UInt8 → Prop} (all : ∀ n < 256, p (UInt8.ofNat n)) (c : UInt8) : p c := by
  have one := all c.toNat c.toNat_lt
  rwa [UInt8.ofNat_toNat] at one

/-- The first octet of a header. -/
def firstOctet (fin rsv1 rsv2 rsv3 : Bool) (op : Nat) : UInt8 :=
  let b0 := (if fin then 0x80 else 0x00) ||| UInt8.ofNat op
  let b0 := if rsv1 then b0 ||| 0x40 else b0
  let b0 := if rsv2 then b0 ||| 0x20 else b0
  if rsv3 then b0 ||| 0x10 else b0

/-- The second octet of a header. -/
def secondOctet (mask : Bool) (len : UInt8) : UInt8 :=
  (if mask then 0x80 else 0x00) ||| len

/-- What the second octet says of a length. -/
def lengthCode (len : UInt64) : UInt8 :=
  if len ≤ 125 then len.toUInt8 else if len ≤ 65535 then 126 else 127

/-- The octets of a length that does not fit in the second octet. -/
def lengthOctets (len : UInt64) : Octets :=
  if len ≤ 125 then [] else if len ≤ 65535 then nativeToBig 2 len.toNat
  else nativeToBig 8 len.toNat

/-- The octets of a key. -/
def keyOctets (mask : Bool) (key : UInt32) : Octets :=
  if mask then nativeToLittle 4 key.toNat else []

/-- A header is its two fixed octets, the octets of the length, and those of the key. -/
theorem FrameHeader.write_eq (fh : FrameHeader) :
    fh.write = firstOctet fh.fin fh.rsv1 fh.rsv2 fh.rsv3 fh.op.nibble ::
      secondOctet fh.mask (lengthCode fh.len) :: (lengthOctets fh.len ++ keyOctets fh.mask fh.key) := by
  -- The key is put behind whatever the length took.
  have keyed : ∀ b, (if fh.mask then b ++ nativeToLittle 4 fh.key.toNat else b) =
      b ++ keyOctets fh.mask fh.key := by
    intro b
    unfold keyOctets
    split
    · rfl
    · exact (List.append_nil b).symm
  unfold write lengthCode lengthOctets
  dsimp only
  rw [keyed]
  by_cases short : fh.len ≤ 125
  · rw [if_pos short, if_pos short, if_pos short]
    rfl
  rw [if_neg short, if_neg short, if_neg short]
  by_cases medium : fh.len ≤ 65535
  · rw [if_pos medium, if_pos medium, if_pos medium]
    rfl
  · rw [if_neg medium, if_neg medium, if_neg medium]
    rfl

/-- The fields of the first octet. -/
theorem firstOctet_fields (fin rsv1 rsv2 rsv3 : Bool) (op : Opcode) :
    let b0 := firstOctet fin rsv1 rsv2 rsv3 op.nibble
    Opcode.ofNibble (b0 &&& 0x0f).toNat = op ∧ (b0 &&& 0x80 != 0) = fin ∧
      (b0 &&& 0x40 != 0) = rsv1 ∧ (b0 &&& 0x20 != 0) = rsv2 ∧ (b0 &&& 0x10 != 0) = rsv3 := by
  -- There are few opcodes, and two values for each bit.
  cases op <;> revert fin rsv1 rsv2 rsv3 <;> decide +kernel

/-- The first octet is that of its fields. -/
theorem firstOctet_of_fields (b0 : UInt8) :
    firstOctet (b0 &&& 0x80 != 0) (b0 &&& 0x40 != 0) (b0 &&& 0x20 != 0) (b0 &&& 0x10 != 0)
      (Opcode.ofNibble (b0 &&& 0x0f).toNat).nibble = b0 := by
  revert b0
  exact forall_octet (by decide +kernel)

/-- The fields of the second octet. -/
theorem secondOctet_fields (mask : Bool) {len : UInt8} (small : len ≤ 127) :
    secondOctet mask len &&& 0x7f = len ∧ (secondOctet mask len &&& 0x80 != 0) = mask := by
  -- Either mask bit is tried with each octet.
  have all : ∀ c : UInt8, c ≤ 127 →
      secondOctet mask c &&& 0x7f = c ∧ (secondOctet mask c &&& 0x80 != 0) = mask :=
    forall_octet (by cases mask <;> decide +kernel)
  exact all len small

/-- The low bits of an octet leave room for the mask bit. -/
theorem low_octet (b1 : UInt8) : b1 &&& 0x7f ≤ 127 := by
  revert b1
  exact forall_octet (by decide +kernel)

/-- The second octet is that of its fields. -/
theorem secondOctet_of_fields (b1 : UInt8) :
    secondOctet (b1 &&& 0x80 != 0) (b1 &&& 0x7f) = b1 := by
  revert b1
  exact forall_octet (by decide +kernel)

/-! ## The length and the key -/

/-- A length that fits in the second octet is what the octet says. -/
theorem lengthCode_small {len : UInt64} (small : len ≤ 125) :
    lengthCode len ≤ 125 ∧ (lengthCode len).toUInt64 = len := by
  rw [lengthCode, if_pos small]
  have bound : len.toNat ≤ 125 := UInt64.le_iff_toNat_le.mp small
  constructor
  · rw [UInt8.le_iff_toNat_le, UInt64.toNat_toUInt8]
    show len.toNat % 256 ≤ 125
    omega
  · apply UInt64.toNat_inj.mp
    rw [UInt8.toNat_toUInt64, UInt64.toNat_toUInt8]
    omega

/-- What the second octet says of a length leaves room for the mask bit. -/
theorem lengthCode_le (len : UInt64) : lengthCode len ≤ 127 := by
  rw [lengthCode]
  split
  · rename_i small
    have code := (lengthCode_small small).1
    rw [lengthCode, if_pos small, UInt8.le_iff_toNat_le] at code
    rw [UInt8.le_iff_toNat_le]
    exact Nat.le_trans code (by decide)
  · split <;> decide

namespace StreamBase

/-- The octets of a length give it back, and what is behind them is left. -/
theorem readLength_lengthOctets (fh : FrameHeader) (len : UInt64) (rest : Octets) :
    readLength { fh with len := (lengthCode len).toUInt64 } (lengthOctets len ++ rest) =
      ({ fh with len }, rest, .none) := by
  by_cases small : len ≤ 125
  · -- The second octet says it all, and it says none of the two special numbers.
    obtain ⟨code, whole⟩ := lengthCode_small small
    have bound := UInt64.le_iff_toNat_le.mp small
    have not126 : (len == 126) = false := by
      rw [beq_eq_false_iff_ne]
      rintro rfl
      revert bound
      decide
    have not127 : (len == 127) = false := by
      rw [beq_eq_false_iff_ne]
      rintro rfl
      revert bound
      decide
    simp [readLength, whole, not126, not127, lengthOctets, small]
  · have above : 125 < len.toNat := by
      have := UInt64.lt_iff_toNat_lt.mp (UInt64.not_le.mp small)
      exact this
    by_cases medium : len ≤ 65535
    · -- Two octets hold the length, which is above what the second octet could say.
      have below : len.toNat ≤ 65535 := UInt64.le_iff_toNat_le.mp medium
      have value : UInt64.ofNat (bigToNative (nativeToBig 2 len.toNat)) = len := by
        rw [bigToNative_nativeToBig (by omega), UInt64.ofNat_toNat]
      have canonical : ¬len < 126 := by
        rw [UInt64.lt_iff_toNat_lt]
        show ¬len.toNat < 126
        omega
      simp [readLength, lengthCode, lengthOctets, small, medium, value, canonical]
    · -- Eight octets hold it, and two would not have.
      have high : 65535 < len.toNat := UInt64.lt_iff_toNat_lt.mp (UInt64.not_le.mp medium)
      have value : UInt64.ofNat (bigToNative (nativeToBig 8 len.toNat)) = len := by
        rw [bigToNative_nativeToBig (by have := len.toNat_lt; omega), UInt64.ofNat_toNat]
      have canonical : ¬len < 65536 := by
        rw [UInt64.lt_iff_toNat_lt]
        show ¬len.toNat < 65536
        omega
      simp [readLength, lengthCode, lengthOctets, small, medium, value, canonical]

/-- A length that follows the fixed part is the number that its octets stand for. -/
theorem extended {n : Nat} {db : Octets} (fits : n ≤ 8) (enough : n ≤ db.length) :
    (UInt64.ofNat (bigToNative (db.take n))).toNat < 256 ^ n ∧
      nativeToBig n (UInt64.ofNat (bigToNative (db.take n))).toNat = db.take n := by
  -- The octets are as many as were asked for, and so is the size of their number.
  have front : (db.take n).length = n := by rw [List.length_take]; omega
  have bound := bigToNative_lt (db.take n)
  have octets := nativeToBig_bigToNative (db.take n)
  rw [front] at bound octets
  have wide : 256 ^ n ≤ 256 ^ 8 := Nat.pow_le_pow_right (by decide) fits
  have value : (UInt64.ofNat (bigToNative (db.take n))).toNat = bigToNative (db.take n) :=
    UInt64.toNat_ofNat_of_lt' (Nat.lt_of_lt_of_le bound wide)
  rw [value]
  exact ⟨bound, octets⟩

/-- What is found to be a length was its only encoding. -/
theorem readLength_canonical {fh fh' : FrameHeader} {code : UInt8} {db rest : Octets}
    (small : code ≤ 127) (said : fh.len = code.toUInt64)
    (enough : (if code == 126 then 2 else if code == 127 then 8 else 0) ≤ db.length)
    (read : readLength fh db = (fh', rest, .none)) :
    lengthCode fh'.len = code ∧ lengthOctets fh'.len ++ rest = db ∧
      fh' = { fh with len := fh'.len } := by
  -- A code is compared as a number of 64 bits, which compares the octet.
  have widen : ∀ c : UInt8, (fh.len == c.toUInt64) = (code == c) := by
    intro c
    rw [said, Bool.eq_iff_iff, beq_iff_eq, beq_iff_eq, ← UInt64.toNat_inj, ← UInt8.toNat_inj,
      UInt8.toNat_toUInt64, UInt8.toNat_toUInt64]
  have is126 : (fh.len == 126) = (code == 126) := widen 126
  have is127 : (fh.len == 127) = (code == 127) := widen 127
  rw [readLength, is126, is127] at read
  by_cases two : code = 126
  · -- Two octets follow, and a length that the code could have said is refused.
    subst two
    simp only [beq_self_eq_true, if_true] at read enough
    obtain ⟨bound, octets⟩ := extended (by decide) enough
    generalize UInt64.ofNat (bigToNative (db.take 2)) = len at *
    obtain ⟨rfl, rfl, canonical⟩ : { fh with len } = fh' ∧ db.drop 2 = rest ∧ ¬len < 126 := by
      simpa using read
    rw [UInt64.lt_iff_toNat_lt] at canonical
    replace canonical : ¬len.toNat < 126 := canonical
    have above : ¬len ≤ 125 := by
      rw [UInt64.le_iff_toNat_le]
      show ¬len.toNat ≤ 125
      omega
    have below : len ≤ 65535 := by
      rw [UInt64.le_iff_toNat_le]
      show len.toNat ≤ 65535
      omega
    simp [lengthCode, lengthOctets, above, below, octets]
  by_cases eight : code = 127
  · -- Eight octets follow, and a length that two could have held is refused.
    subst eight
    simp only [show ((127 : UInt8) == 126) = false by decide, beq_self_eq_true, if_true,
      Bool.false_eq_true, if_false] at read enough
    obtain ⟨bound, octets⟩ := extended (by decide) enough
    generalize UInt64.ofNat (bigToNative (db.take 8)) = len at *
    obtain ⟨rfl, rfl, canonical⟩ : { fh with len } = fh' ∧ db.drop 8 = rest ∧ ¬len < 65536 := by
      simpa using read
    rw [UInt64.lt_iff_toNat_lt] at canonical
    replace canonical : ¬len.toNat < 65536 := canonical
    have above : ¬len ≤ 125 := by
      rw [UInt64.le_iff_toNat_le]
      show ¬len.toNat ≤ 125
      omega
    have high : ¬len ≤ 65535 := by
      rw [UInt64.le_iff_toNat_le]
      show ¬len.toNat ≤ 65535
      omega
    simp [lengthCode, lengthOctets, above, high, octets]
  · -- The code is the length itself.
    obtain ⟨rfl, rfl⟩ : fh = fh' ∧ db = rest := by simpa [two, eight] using read
    have below : code.toNat ≤ 125 := by
      have not126 : code.toNat ≠ 126 := fun same => two (UInt8.toNat_inj.mp same)
      have not127 : code.toNat ≠ 127 := fun same => eight (UInt8.toNat_inj.mp same)
      have bound : code.toNat ≤ 127 := UInt8.le_iff_toNat_le.mp small
      omega
    have fits : fh.len ≤ 125 := by
      rw [said, UInt64.le_iff_toNat_le, UInt8.toNat_toUInt64]
      exact below
    refine ⟨?_, by simp [lengthOctets, fits], rfl⟩
    rw [lengthCode, if_pos fits, said]
    apply UInt8.toNat_inj.mp
    rw [UInt64.toNat_toUInt8, UInt8.toNat_toUInt64]
    omega

end StreamBase

/-! ## Whole headers -/

/-- What the fixed part of a header is to be for a stream: that of its peer, at this place. -/
structure FrameHeader.Fits (ws : StreamBase lib) (fh : FrameHeader) : Prop where
  known : isReserved fh.op = false
  fresh : fh.op = .text ∨ fh.op = .binary → ws.rd_.cont = false
  running : fh.op = .cont → ws.rd_.cont = true
  /-- Only a frame that starts a message may say that it is compressed. -/
  rsv1 : fh.rsv1 = true → (fh.op = .text ∨ fh.op = .binary) ∧ ws.pmd_.isSome = true
  rsv2 : fh.rsv2 = false
  rsv3 : fh.rsv3 = false
  whole : isControl fh.op = true → fh.fin = true
  short : isControl fh.op = true → fh.len ≤ 125
  masked : fh.mask = (ws.role_ == .server)

/-- What a header is to be for a stream, where a key that is not sent is zero. -/
structure FrameHeader.Valid (ws : StreamBase lib) (fh : FrameHeader) : Prop
    extends FrameHeader.Fits ws fh where
  unkeyed : fh.mask = false → fh.key = 0

namespace StreamBase

/-- Reads a frame header from octets, if there are enough of them. -/
def readFh (ws : StreamBase lib) (fh : FrameHeader) :
    Octets → Option (FrameHeader × Octets × CloseCode × StreamBase lib)
  | b0 :: b1 :: db =>
    let (fh, need, code, ws) := ws.readFh1 fh b0 b1
    if code != .none then some (fh, db, code, ws)
    else if db.length < need then none
    else some (ws.readFh2 fh db)
  | _ => none

/-- What is said of the size that a frame brings its message to. -/
def sizeCode (ws : StreamBase lib) (fh : FrameHeader) : CloseCode :=
  if fh.op = .cont ∧ 2 ^ 64 ≤ ws.rd_.size.toNat + fh.len.toNat then .too_big else .none

/-- The fixed part of a header is accepted where it fits, and takes no note of a size. -/
theorem readFh1_of_fits {ws : StreamBase lib} {fh₀ : FrameHeader} {b0 b1 : UInt8}
    (fits : (fh₀.readFixed b0 b1).1.Fits ws) :
    ∃ ws', ws.readFh1 fh₀ b0 b1 =
      ((fh₀.readFixed b0 b1).1, (fh₀.readFixed b0 b1).2, .none, ws') ∧ ws'.rd_ = ws.rd_ := by
  simp only [readFh1]
  generalize fh₀.readFixed b0 b1 = parts at fits ⊢
  rcases parts with ⟨fh, need⟩
  replace fits : fh.Fits ws := fits
  -- A frame is masked just where it is sent to a server, so that neither test on the mask fails.
  have unmasked : (ws.role_ == .server && !fh.mask) = false := by
    rw [fits.masked]
    cases ws.role_ <;> rfl
  have masked : (ws.role_ == .client && fh.mask) = false := by
    rw [fits.masked]
    cases ws.role_ <;> rfl
  dsimp only
  split
  case h_1 named | h_2 named =>
    -- A frame that starts a message.
    have fresh : ws.rd_.cont = false := fits.fresh (by simp [named])
    have clear : ((fh.rsv1 && ws.pmd_.isNone) || fh.rsv2 || fh.rsv3) = false := by
      rw [fits.rsv2, fits.rsv3, Bool.or_false, Bool.or_false]
      cases set_ : fh.rsv1 with
      | false => rfl
      | true => simpa using (fits.rsv1 set_).2
    simp [fresh, clear, unmasked, masked]
  case h_3 named =>
    -- Only a frame that starts a message may set the bit.
    have unset : fh.rsv1 = false := by
      by_contra set_
      simpa [named] using (fits.rsv1 (by simpa using set_)).1
    simp [fits.running named, unset, fits.rsv2, fits.rsv3, unmasked, masked]
  case h_4 neBinary neText neCont =>
    have unset : fh.rsv1 = false := by
      by_contra set_
      rcases (fits.rsv1 (by simpa using set_)).1 with named | named
      · exact neText named
      · exact neBinary named
    -- Whatever starts no message and continues none is a control frame.
    have control : isControl fh.op = true := by
      rcases control_of_not_reserved fits.known neCont neText neBinary with named | named | named
      all_goals rw [named]; rfl
    have short : ¬fh.len > 125 := UInt64.not_lt.mpr (fits.short control)
    simp [fits.known, fits.whole control, short, unset, fits.rsv2, fits.rsv3, unmasked, masked]

/-- What is accepted for the fixed part of a header fits. -/
theorem fits_of_readFh1 {ws ws' : StreamBase lib} {fh₀ fh : FrameHeader} {b0 b1 : UInt8} {n : Nat}
    (read : ws.readFh1 fh₀ b0 b1 = (fh, n, .none, ws')) :
    fh = (fh₀.readFixed b0 b1).1 ∧ n = (fh₀.readFixed b0 b1).2 ∧ fh.Fits ws ∧
      ws'.rd_ = ws.rd_ := by
  have place := readFh1_accepts read
  obtain ⟨same, keeps⟩ := readFh1_keeps read
  have unread : ws'.rd_ = ws.rd_ := by
    rcases keeps with rfl | ⟨-, -, rfl⟩ <;> rfl
  simp only [readFh1] at read
  rw [← same] at read
  -- The tests on the mask come last in every branch, and are read off once.
  have masks : ∀ ws₁ : StreamBase lib, ws₁.role_ = ws.role_ →
      (if (ws₁.role_ == .server && !fh.mask) = true then
        (fh, 0, CloseCode.protocol_error, ws₁)
      else if (ws₁.role_ == .client && fh.mask) = true then
        (fh, 0, CloseCode.protocol_error, ws₁)
      else (fh, (fh₀.readFixed b0 b1).2, CloseCode.none, ws₁)) = (fh, n, .none, ws') →
      n = (fh₀.readFixed b0 b1).2 ∧ fh.mask = (ws.role_ == .server) := by
    intro ws₁ role read
    rw [role] at read
    cases who : ws.role_ <;> cases sent : fh.mask <;> simp [who, sent] at read ⊢
    all_goals exact read.1.symm
  split at read
  case h_1 named | h_2 named =>
    split at read
    · cases read
    -- The frame starts a message, while none is under way.
    rename_i fresh
    split at read
    · cases read
    rename_i clear
    obtain ⟨count, masked⟩ := masks
      { ws with pmd_ := ws.pmd_.map fun pmd => { pmd with rd_set := fh.rsv1 } } rfl read
    simp only [Bool.or_eq_true, Bool.and_eq_true, not_or, Bool.not_eq_true] at clear
    refine ⟨same, count, ?_, unread⟩
    exact {
      known := by rw [named]; rfl
      fresh := fun _ => by simpa using fresh
      running := fun cont => by rw [named] at cont; cases cont
      rsv1 := fun set_ => ⟨by simp [named], by
        cases there : ws.pmd_ with
        | none => exact absurd ⟨set_, by rw [there]; rfl⟩ clear.1.1
        | some _ => rfl⟩
      rsv2 := clear.1.2
      rsv3 := clear.2
      whole := fun control => by rw [named] at control; cases control
      short := fun control => by rw [named] at control; cases control
      masked }
  case h_3 named =>
    split at read
    · cases read
    -- The frame continues the message that is under way.
    rename_i running
    split at read
    · cases read
    rename_i clear
    obtain ⟨count, masked⟩ := masks ws rfl read
    simp only [Bool.or_eq_true, not_or, Bool.not_eq_true] at clear
    refine ⟨same, count, ?_, unread⟩
    exact {
      known := by rw [named]; rfl
      fresh := fun data => by rw [named] at data; simp at data
      running := fun _ => by simpa using running
      rsv1 := fun set_ => by rw [clear.1.1] at set_; cases set_
      rsv2 := clear.1.2
      rsv3 := clear.2
      whole := fun control => by rw [named] at control; cases control
      short := fun control => by rw [named] at control; cases control
      masked }
  case h_4 neBinary neText neCont =>
    split at read
    · cases read
    -- A control frame has an opcode that is known, is whole, and is short.
    rename_i known
    split at read
    · cases read
    rename_i whole
    split at read
    · cases read
    rename_i short
    split at read
    · cases read
    rename_i clear
    obtain ⟨count, masked⟩ := masks ws rfl read
    simp only [Bool.or_eq_true, not_or, Bool.not_eq_true] at clear
    refine ⟨same, count, ?_, unread⟩
    exact {
      known := by simpa using known
      fresh := fun data => by
        rcases data with text | binary
        · exact absurd text neText
        · exact absurd binary neBinary
      running := fun cont => absurd cont neCont
      rsv1 := fun set_ => by rw [clear.1.1] at set_; cases set_
      rsv2 := clear.1.2
      rsv3 := clear.2
      whole := fun _ => by simpa using whole
      short := fun _ => UInt64.not_lt.mp short
      masked }

/-- Behind the length, the variable part is the key; then the size of the message is looked at. -/
theorem readFh2_of_length {ws : StreamBase lib} {fh fh₁ : FrameHeader} {db db₁ : Octets}
    (length : readLength fh db = (fh₁, db₁, .none)) :
    ∃ ws', ws.readFh2 fh db =
      ({ fh₁ with key := if fh₁.mask then UInt32.ofNat (littleToNative (db₁.take 4)) else 0 },
        if fh₁.mask then db₁.drop 4 else db₁, ws.sizeCode fh₁, ws') := by
  -- The key is read or is zero, in one form for both.
  have keyed : (if fh₁.mask = true then
        ({ fh₁ with key := UInt32.ofNat (littleToNative (db₁.take 4)) }, db₁.drop 4)
      else ({ fh₁ with key := 0 }, db₁)) =
      ({ fh₁ with key := if fh₁.mask then UInt32.ofNat (littleToNative (db₁.take 4)) else 0 },
        if fh₁.mask then db₁.drop 4 else db₁) := by
    split <;> rfl
  simp only [readFh2, length, keyed]
  simp only [bne_self_eq_false, Bool.false_eq_true, if_false]
  split
  · -- The size of a message counts neither control frames nor its first frame.
    rename_i control
    have none_ : ws.sizeCode fh₁ = .none := by
      rw [sizeCode, if_neg]
      rintro ⟨cont, -⟩
      rw [cont] at control
      cases control
    exact ⟨_, by rw [none_]⟩
  split
  · rename_i first
    have none_ : ws.sizeCode fh₁ = .none := by
      rw [sizeCode, if_neg]
      rintro ⟨cont, -⟩
      simp [cont] at first
    exact ⟨_, by rw [none_]⟩
  rename_i cont
  have cont : fh₁.op = .cont := by simpa using cont
  -- The size that is compared against does not wrap, as no length is above the largest one.
  have compared : ws.rd_.size > 0xffffffffffffffff - fh₁.len ↔
      2 ^ 64 ≤ ws.rd_.size.toNat + fh₁.len.toNat := by
    have bound := fh₁.len.toNat_lt
    rw [gt_iff_lt, UInt64.lt_iff_toNat_lt, UInt64.toNat_sub_of_le]
    · simp only [UInt64.reduceToNat]
      omega
    · rw [UInt64.le_iff_toNat_le]
      simp only [UInt64.reduceToNat]
      omega
  split
  · rename_i beyond
    have big : ws.sizeCode fh₁ = .too_big := if_pos ⟨cont, compared.mp beyond⟩
    exact ⟨_, by rw [big]⟩
  · rename_i room
    have none_ : ws.sizeCode fh₁ = .none := if_neg fun both => room (compared.mpr both.2)
    exact ⟨_, by rw [none_]⟩

/-- The octets of a length are as many as its code asks for. -/
theorem length_lengthOctets (len : UInt64) :
    (lengthOctets len).length =
      if lengthCode len == 126 then 2 else if lengthCode len == 127 then 8 else 0 := by
  by_cases small : len ≤ 125
  · -- A small length is none of the two special codes.
    have bound := UInt8.le_iff_toNat_le.mp (lengthCode_small small).1
    have not126 : lengthCode len ≠ 126 := by
      intro same
      rw [same] at bound
      revert bound
      decide
    have not127 : lengthCode len ≠ 127 := by
      intro same
      rw [same] at bound
      revert bound
      decide
    simp [not126, not127, lengthOctets, small]
  · by_cases medium : len ≤ 65535 <;> simp [lengthCode, lengthOctets, small, medium]

/-- The octets of a key are four, where it is sent. -/
theorem length_keyOctets (mask : Bool) (key : UInt32) :
    (keyOctets mask key).length = if mask then 4 else 0 := by
  cases mask <;> simp [keyOctets]

/-- The second octet asks for the octets of a length and of a key. -/
theorem readFixed_need (fh : FrameHeader) (b0 b1 : UInt8) :
    (fh.readFixed b0 b1).2 =
      (if b1 &&& 0x7f == 126 then 2 else if b1 &&& 0x7f == 127 then 8 else 0) +
        if b1 &&& 0x80 != 0 then 4 else 0 := by
  simp only [FrameHeader.readFixed]
  split <;> rfl

/-- The octets of a key give it back, where one that is not sent is zero. -/
theorem keyOctets_back {mask : Bool} {key : UInt32} (rest : Octets)
    (unkeyed : mask = false → key = 0) :
    (if mask then UInt32.ofNat (littleToNative ((keyOctets mask key ++ rest).take 4)) else 0) =
        key ∧
      (if mask then (keyOctets mask key ++ rest).drop 4 else keyOctets mask key ++ rest) = rest := by
  cases mask with
  | false => exact ⟨(unkeyed rfl).symm, rfl⟩
  | true =>
    have back : UInt32.ofNat (littleToNative (nativeToLittle 4 key.toNat)) = key := by
      rw [littleToNative_nativeToLittle (by have := key.toNat_lt; omega), UInt32.ofNat_toNat]
    simp [keyOctets, back]

/-- What is found to be a key was its only encoding. -/
theorem keyOctets_canonical {mask : Bool} {db : Octets}
    (enough : (if mask then 4 else 0) ≤ db.length) :
    keyOctets mask (if mask then UInt32.ofNat (littleToNative (db.take 4)) else 0) ++
      (if mask then db.drop 4 else db) = db := by
  cases mask with
  | false => rfl
  | true =>
    -- Four octets stand for a number that fits in the key.
    have four : 4 ≤ db.length := by simpa using enough
    have front : (db.take 4).length = 4 := by rw [List.length_take]; omega
    have bound := littleToNative_lt (db.take 4)
    have octets := nativeToLittle_littleToNative (db.take 4)
    rw [front] at bound octets
    have value : (UInt32.ofNat (littleToNative (db.take 4))).toNat = littleToNative (db.take 4) :=
      UInt32.toNat_ofNat_of_lt' bound
    simp [keyOctets, value, octets]

/-- A header that is valid for a stream is read back from its octets, and no more are taken. -/
theorem readFh_write {ws : StreamBase lib} {fh : FrameHeader} (fh₀ : FrameHeader) (rest : Octets)
    (valid : fh.Valid ws) :
    ∃ ws', ws.readFh fh₀ (fh.write ++ rest) = some (fh, rest, ws.sizeCode fh, ws') := by
  -- What the fixed part says is the header with a code for its length, and without a key.
  obtain ⟨op, fin, rsv1, rsv2, rsv3⟩ :=
    firstOctet_fields fh.fin fh.rsv1 fh.rsv2 fh.rsv3 fh.op
  obtain ⟨code, mask⟩ := secondOctet_fields fh.mask (lengthCode_le fh.len)
  rw [fh.write_eq, List.cons_append, List.cons_append, readFh]
  generalize firstOctet fh.fin fh.rsv1 fh.rsv2 fh.rsv3 fh.op.nibble = b0 at *
  generalize secondOctet fh.mask (lengthCode fh.len) = b1 at *
  have fixed : (fh₀.readFixed b0 b1).1 =
      { fh with key := fh₀.key, len := (lengthCode fh.len).toUInt64 } := by
    simp only [FrameHeader.readFixed, op, fin, rsv1, rsv2, rsv3, code, mask]
  have fits : (fh₀.readFixed b0 b1).1.Fits ws := by
    rw [fixed]
    refine { valid.toFits with short := ?_ }
    intro control
    obtain ⟨-, whole⟩ := lengthCode_small (valid.short control)
    show (lengthCode fh.len).toUInt64 ≤ 125
    rw [whole]
    exact valid.short control
  obtain ⟨ws₁, read, same⟩ := readFh1_of_fits fits
  have length : readLength (fh₀.readFixed b0 b1).1
      (lengthOctets fh.len ++ keyOctets fh.mask fh.key ++ rest) =
      ({ fh with key := fh₀.key }, keyOctets fh.mask fh.key ++ rest, .none) := by
    rw [fixed, List.append_assoc]
    exact readLength_lengthOctets { fh with key := fh₀.key } fh.len _
  obtain ⟨ws₂, variable_⟩ := @readFh2_of_length _ ws₁ _ _ _ _ length
  have size : ws₁.sizeCode { fh with key := fh₀.key } = ws.sizeCode fh := by
    rw [sizeCode, sizeCode, same]
  refine ⟨ws₂, ?_⟩
  rw [read]
  dsimp only
  -- The octets that are asked for are those of the length and of the key.
  have enough : ¬(lengthOctets fh.len ++ keyOctets fh.mask fh.key ++ rest).length <
      (fh₀.readFixed b0 b1).2 := by
    rw [readFixed_need, code, mask, List.length_append, List.length_append, length_lengthOctets,
      length_keyOctets]
    omega
  rw [if_neg (by simp), if_neg enough, variable_, size]
  obtain ⟨key, behind⟩ := keyOctets_back rest valid.unkeyed
  dsimp only
  rw [key, behind]

/-- A header that is accepted is valid for the stream, and was read from its own octets. -/
theorem write_of_readFh {ws ws' : StreamBase lib} {fh₀ fh : FrameHeader} {b rest : Octets}
    (read : ws.readFh fh₀ b = some (fh, rest, .none, ws')) :
    fh.Valid ws ∧ ws.sizeCode fh = .none ∧ b = fh.write ++ rest := by
  match b with
  | [] | [_] => cases read
  | b0 :: b1 :: db =>
    rcases first : ws.readFh1 fh₀ b0 b1 with ⟨fh₁, need, code, ws₁⟩
    simp only [readFh, first] at read
    split at read
    · -- A fault with the fixed part is reported.
      rename_i fault
      simp only [Option.some.injEq, Prod.mk.injEq] at read
      simp [read.2.2.1] at fault
    rename_i accepted
    obtain rfl : code = .none := by simpa using accepted
    split at read
    · cases read
    rename_i enough
    obtain ⟨fixed, count, fits, same⟩ := fits_of_readFh1 first
    rcases length : readLength fh₁ db with ⟨fh₂, db₂, code₂⟩
    obtain rfl : code₂ = .none := by
      by_contra fault
      simp only [readFh2, length, bne_iff_ne.mpr fault, if_true, Option.some.injEq,
        Prod.mk.injEq] at read
      exact fault read.2.2.1
    obtain ⟨ws₂, variable_⟩ := @readFh2_of_length _ ws₁ _ _ _ _ length
    rw [variable_] at read
    simp only [Option.some.injEq, Prod.mk.injEq] at read
    obtain ⟨rfl, rfl, size, -⟩ := read
    -- The octets behind the fixed part: those of the length, those of the key, and the rest.
    have small : b1 &&& 0x7f ≤ 127 := low_octet b1
    have said : fh₁.len = (b1 &&& 0x7f).toUInt64 := by rw [fixed]; rfl
    have mask : fh₁.mask = (b1 &&& 0x80 != 0) := by rw [fixed]; rfl
    have needed : need = (if b1 &&& 0x7f == 126 then 2 else if b1 &&& 0x7f == 127 then 8 else 0) +
        if fh₁.mask then 4 else 0 := by
      rw [count, mask, readFixed_need]
    obtain ⟨code, octets, whole⟩ := readLength_canonical small said (by omega) length
    obtain ⟨len, rfl⟩ : ∃ len, fh₂ = { fh₁ with len } := ⟨_, whole⟩
    dsimp only at code octets size ⊢
    -- There are octets for the key behind those of the length.
    have key : keyOctets fh₁.mask
        (if fh₁.mask then UInt32.ofNat (littleToNative (db₂.take 4)) else 0) ++
        (if fh₁.mask then db₂.drop 4 else db₂) = db₂ := by
      apply keyOctets_canonical
      have all := congrArg List.length octets
      rw [List.length_append, length_lengthOctets, code] at all
      omega
    refine ⟨{ fits with short := ?_, unkeyed := ?_ }, ?_, ?_⟩
    · intro control
      -- A length with octets of its own would have been refused in a control frame.
      by_contra long
      have short := fits.short control
      rw [said, ← code, lengthCode, if_neg long] at short
      revert short
      split <;> decide
    · intro unsent
      have unsent : fh₁.mask = false := unsent
      exact if_neg (by rw [unsent]; decide)
    · rw [← size, sizeCode, sizeCode, same]
    · rw [FrameHeader.write_eq]
      dsimp only
      have first : firstOctet fh₁.fin fh₁.rsv1 fh₁.rsv2 fh₁.rsv3 fh₁.op.nibble = b0 := by
        rw [fixed]
        exact firstOctet_of_fields b0
      rw [first, code, List.cons_append, List.cons_append, List.append_assoc, key, octets, mask,
        secondOctet_of_fields]

/--
The octets of a header are read back as the header, and only those octets are accepted for it.

The header of any length is read back, and all of its octets are taken. It is then accepted, except
for a continuation that brings the size of its message beyond the largest number.
-/
theorem frame_header_canonical (ws : StreamBase lib) (fh₀ fh : FrameHeader) (b rest : Octets) :
    (fh.Valid ws →
      ∃ ws', ws.readFh fh₀ (fh.write ++ rest) = some (fh, rest, ws.sizeCode fh, ws')) ∧
    (∀ ws', ws.readFh fh₀ b = some (fh, rest, .none, ws') →
      fh.Valid ws ∧ b = fh.write ++ rest) := by
  constructor
  · intro valid
    exact readFh_write fh₀ rest valid
  · intro ws' read
    obtain ⟨valid, -, octets⟩ := write_of_readFh read
    exact ⟨valid, octets⟩

/-- The header of a masked text of 70000 octets, read by a server. -/
example : ({ op := .text, fin := true, mask := true, len := 70000, key := 0x04030201 } :
    FrameHeader).write = [129, 255, 0, 0, 0, 0, 0, 1, 17, 112, 1, 2, 3, 4] := by decide

end StreamBase

end Beast.Websocket
