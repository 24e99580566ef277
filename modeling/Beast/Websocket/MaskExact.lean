import Beast.Websocket.FrameLaws
import Beast.Websocket.MaskLaws

/-! Masked octets are those of the key at their positions, however a payload is cut and wherever it lies. -/

namespace Beast.Websocket

variable {w : Nat}

/-- An octet of a key, the least significant one first. -/
def keyOctet (key : UInt32) (j : Nat) : UInt8 := UInt8.ofNat (key.toNat >>> (8 * j))

/-- A text, each octet of it with the octet of the key at its position. -/
def xorKey (key : UInt32) (text : Octets) : Octets :=
  text.mapIdx fun i c => c ^^^ keyOctet key (i % 4)

/-- A buffer: how far it starts behind a word boundary of memory, and its octets. -/
structure MaskBuffer where
  align : Nat
  text : Octets
  deriving DecidableEq, Repr

/-- The octets of buffers, one behind another. -/
def bufferText (bs : List MaskBuffer) : Octets := bs.flatMap MaskBuffer.text

/-- Masks the buffers of a sequence one after another, and leaves the key for the next call. -/
def maskInplaceBuffers (key : PreparedKey w) : List MaskBuffer → Octets × PreparedKey w
  | [] => ([], key)
  | b :: bs =>
    let (text, key) := maskInplaceFast b.align key b.text
    let (rest, key) := maskInplaceBuffers key bs
    (text ++ rest, key)

/-- Masks the sequences of successive calls, each with the key that the call before it left. -/
def maskCalls (key : PreparedKey w) : List (List MaskBuffer) → Octets × PreparedKey w
  | [] => ([], key)
  | bs :: calls =>
    let (text, key) := maskInplaceBuffers key bs
    let (rest, key) := maskCalls key calls
    (text ++ rest, key)

@[simp] theorem bufferText_nil : bufferText [] = [] := rfl

@[simp] theorem bufferText_cons (b : MaskBuffer) (bs : List MaskBuffer) :
    bufferText (b :: bs) = b.text ++ bufferText bs := rfl

/-- A sequence of buffers is masked as its text is, and the key is turned behind the text. -/
theorem maskInplaceBuffers_eq (wide : 0 < w) (key : PreparedKey w) (bs : List MaskBuffer) :
    maskInplaceBuffers key bs = (masked key (bufferText bs), ror key (8 * (bufferText bs).length)) := by
  induction bs generalizing key with
  | nil =>
    -- Without a buffer, the key is turned by nothing.
    have unturned := ror_turns key 0
    rw [Nat.mul_zero] at unturned
    rw [maskInplaceBuffers, bufferText_nil, List.length_nil, unturned]
    rfl
  | cons b bs ih =>
    rw [maskInplaceBuffers, maskInplaceFast_eq wide]
    dsimp only
    rw [ih, bufferText_cons, masked_append wide, ror_ror, List.length_append]

/-- Successive calls mask the text of all of their buffers. -/
theorem maskCalls_eq (wide : 0 < w) (key : PreparedKey w) (calls : List (List MaskBuffer)) :
    (maskCalls key calls).1 = masked key (calls.flatMap bufferText) := by
  induction calls generalizing key with
  | nil => rfl
  | cons bs calls ih =>
    rw [maskCalls, maskInplaceBuffers_eq wide]
    dsimp only
    rw [ih, List.flatMap_cons, masked_append wide]

/-- The octets of a key that fills a word of four. -/
theorem keyByte_32 (key : UInt32) (j : Nat) : keyByte (prepareKey32 key) j = keyOctet key j := by
  apply UInt8.toNat_inj.mp
  simp [keyByte, prepareKey32, keyOctet]

/-- The octets of a key that fills a word of eight are those of the key, twice. -/
theorem keyByte_64 (key : UInt32) {j : Nat} (inside : j < 8) :
    keyByte (prepareKey64 key) j = keyOctet key (j % 4) := by
  rw [← keyByte_32]
  apply UInt8.toBitVec_inj.mp
  apply BitVec.eq_of_getLsbD_eq
  intro i small
  rw [keyByte_bit, keyByte_bit]
  simp only [prepareKey64, prepareKey32, BitVec.getLsbD_or, BitVec.getLsbD_shiftLeft,
    BitVec.getLsbD_setWidth, small, decide_true, Bool.true_and]
  have within : 8 * j + i < 64 := by omega
  by_cases low : j < 4
  · -- The first four octets are those of the key itself.
    have below : 8 * j + i < 32 := by omega
    simp [within, below, Nat.mod_eq_of_lt low]
  · -- The others are those of the key that was shifted up.
    have place : 8 * j + i - 32 = 8 * (j % 4) + i := by omega
    have above : ¬8 * j + i < 32 := by omega
    have beyond : key.toBitVec.getLsbD (8 * j + i) = false :=
      BitVec.getLsbD_of_ge _ _ (Nat.not_lt.mp above)
    simp only [within, above, place, beyond, decide_true, decide_false, Bool.not_false,
      Bool.true_and, Bool.or_false]
    simp [show 8 * (j % 4) + i < 64 by omega]

/-- A key that fills a word of four masks with the octets of the key. -/
theorem masked_32 (key : UInt32) (text : Octets) : masked (prepareKey32 key) text = xorKey key text := by
  unfold masked xorKey
  refine List.mapIdx_eq_mapIdx_iff.mpr fun i _ => ?_
  rw [keyByte_32]

/-- A key that fills a word of eight masks with the same octets. -/
theorem masked_64 (key : UInt32) (text : Octets) : masked (prepareKey64 key) text = xorKey key text := by
  unfold masked xorKey
  refine List.mapIdx_eq_mapIdx_iff.mpr fun i _ => ?_
  rw [keyByte_64 key (Nat.mod_lt i (by omega)), Nat.mod_mod_of_dvd i (by decide)]

/-- The payload of a control frame is masked octet by octet, over all of its parts. -/
theorem maskBuffers_eq (key : UInt32) (payload : List Octets) :
    maskBuffers (prepareKey64 key) payload = xorKey key payload.flatten := by
  have general : ∀ key : PreparedKey 8, maskBuffers key payload = masked key payload.flatten := by
    induction payload with
    | nil => exact fun _ => rfl
    | cons text payload ih =>
      intro key
      rw [maskBuffers, maskInplace, maskInplaceFast_eq (by omega), List.flatten_cons,
        masked_append (by omega), ih]
  rw [general, masked_64]

/--
Masking is exact and independent of the positions of what is masked.

However a payload is cut into calls and buffers, and wherever these lie, each octet is masked with
the octet of the key at its position, through words of four octets as through words of eight.
The parts of a control frame, which are masked in successive calls, are so as well.
Masking the result again, cut in any other way, gives the payload back.
-/
theorem mask_exact (key : UInt32) (calls : List (List MaskBuffer)) :
    (maskCalls (prepareKey32 key) calls).1 = xorKey key (calls.flatMap bufferText) ∧
      (maskCalls (prepareKey64 key) calls).1 = xorKey key (calls.flatMap bufferText) ∧
      (∀ payload : List Octets,
        maskBuffers (prepareKey64 key) payload = xorKey key payload.flatten) ∧
      ∀ again : List (List MaskBuffer),
        again.flatMap bufferText = xorKey key (calls.flatMap bufferText) →
          (maskCalls (prepareKey32 key) again).1 = calls.flatMap bufferText ∧
          (maskCalls (prepareKey64 key) again).1 = calls.flatMap bufferText := by
  have narrow : ∀ l, (maskCalls (prepareKey32 key) l).1 = xorKey key (l.flatMap bufferText) := by
    intro l
    rw [maskCalls_eq (by omega), masked_32]
  have wide : ∀ l, (maskCalls (prepareKey64 key) l).1 = xorKey key (l.flatMap bufferText) := by
    intro l
    rw [maskCalls_eq (by omega), masked_64]
  -- The key is taken off by the same exclusive or.
  have back : ∀ text, xorKey key (xorKey key text) = text := by
    intro text
    rw [← masked_32, ← masked_32, masked_masked]
  refine ⟨narrow calls, wide calls, maskBuffers_eq key, fun again same => ?_⟩
  rw [narrow, wide, same, back]
  exact ⟨rfl, rfl⟩

/-- A text of eleven octets, masked through words of eight in two calls and three buffers. -/
example : (maskCalls (prepareKey64 0x04030201)
    [[⟨3, [0, 0, 0]⟩, ⟨5, [0, 0, 0, 0, 0, 0, 0]⟩], [⟨1, [0]⟩]]).1 =
    [1, 2, 3, 4, 1, 2, 3, 4, 1, 2, 3] := by decide

end Beast.Websocket
