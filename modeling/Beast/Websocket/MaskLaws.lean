import Beast.Websocket.Mask

/-! Masking is the exclusive or with the key, octet by octet. -/

namespace Beast.Websocket

variable {w : Nat}

/-- The bits of an octet of a word are bits of the word. -/
theorem keyByte_bit (key : PreparedKey w) (j i : Nat) :
    (keyByte key j).toBitVec.getLsbD i = (decide (i < 8) && key.getLsbD (8 * j + i)) := by
  simp [keyByte, BitVec.getLsbD_ushiftRight]

/-- Turning a word by whole octets moves its octets around. -/
theorem keyByte_ror (key : PreparedKey w) {d j : Nat} (inside : j < w) :
    keyByte (ror key (8 * d)) j = keyByte key ((j + d) % w) := by
  apply UInt8.toBitVec_inj.mp
  apply BitVec.eq_of_getLsbD_eq
  intro i small
  rw [keyByte_bit, keyByte_bit, ror, BitVec.getLsbD_rotateRight, Nat.mul_mod_mul_left]
  have turned : (j + d) % w = if j + d % w < w then j + d % w else j + d % w - w := by
    rw [Nat.add_mod, Nat.mod_eq_of_lt inside]
    have less := Nat.mod_lt d (show 0 < w by omega)
    split
    · exact Nat.mod_eq_of_lt (by omega)
    · rw [Nat.mod_eq_sub_mod (by omega), Nat.mod_eq_of_lt (by omega)]
  have less := Nat.mod_lt d (show 0 < w by omega)
  rw [turned]
  by_cases first : j + d % w < w
  · -- The octet lies in the part that was shifted down.
    have bit : 8 * j + i < 8 * w - 8 * (d % w) := by omega
    rw [decide_eq_true bit, cond_true, if_pos first]
    congr 2
    omega
  · -- The octet lies in the part that came around.
    have bit : ¬8 * j + i < 8 * w - 8 * (d % w) := by omega
    have within : 8 * j + i < 8 * w := by omega
    rw [decide_eq_false bit, cond_false, if_neg first, decide_eq_true within, Bool.true_and]
    congr 2
    omega

/-- A word is known by its octets. -/
theorem preparedKey_ext {key other : PreparedKey w}
    (same : ∀ j < w, keyByte key j = keyByte other j) : key = other := by
  apply BitVec.eq_of_getLsbD_eq
  intro i within
  have octets := congrArg (fun c : UInt8 => c.toBitVec.getLsbD (i % 8))
    (same (i / 8) (by omega))
  simp only [keyByte_bit, Nat.mod_lt i (show 8 > 0 by omega), decide_true, Bool.true_and,
    Nat.div_add_mod] at octets
  exact octets

/-- Turning a word twice is turning it by the sum. -/
theorem ror_ror (key : PreparedKey w) (d e : Nat) :
    ror (ror key (8 * d)) (8 * e) = ror key (8 * (d + e)) := by
  refine preparedKey_ext fun j inside => ?_
  have less := Nat.mod_lt (j + e) (show 0 < w by omega)
  rw [keyByte_ror _ inside, keyByte_ror _ less, keyByte_ror _ inside, Nat.mod_add_mod,
    Nat.add_assoc, Nat.add_comm e d]

/-- Turning a word by all of its octets, any number of times, changes nothing. -/
theorem ror_turns (key : PreparedKey w) (n : Nat) : ror key (8 * (w * n)) = key := by
  refine preparedKey_ext fun j inside => ?_
  rw [keyByte_ror _ inside, Nat.add_mul_mod_self_left, Nat.mod_eq_of_lt inside]

/-- A text, each octet of it masked with the octet of the key at its place. -/
def masked (key : PreparedKey w) (text : Octets) : Octets :=
  text.mapIdx fun j c => c ^^^ keyByte key (j % w)

/-- Masking keeps the length. -/
@[simp] theorem length_masked (key : PreparedKey w) (text : Octets) :
    (masked key text).length = text.length := by
  simp [masked]

@[simp] theorem masked_nil (key : PreparedKey w) : masked key [] = [] := rfl

/-- A text in two parts is masked part by part, with the key turned in between. -/
theorem masked_append (wide : 0 < w) (key : PreparedKey w) (s t : Octets) :
    masked key (s ++ t) = masked key s ++ masked (ror key (8 * s.length)) t := by
  simp only [masked, List.mapIdx_append]
  congr 1
  refine List.mapIdx_eq_mapIdx_iff.mpr fun j inside => ?_
  rw [keyByte_ror _ (Nat.mod_lt _ wide), Nat.mod_add_mod]

/-- Masking twice with one key gives the text back. -/
@[simp] theorem masked_masked (key : PreparedKey w) (text : Octets) :
    masked key (masked key text) = text := by
  simp only [masked, List.mapIdx_mapIdx, Function.comp_def, UInt8.xor_assoc, UInt8.xor_self,
    UInt8.xor_zero]
  exact List.mapIdx_eq_iff.mpr fun i => by simp

/-- Octets that a word covers are masked each at its place. -/
theorem maskOctets_eq (key : PreparedKey w) {text : Octets} (covered : text.length ≤ w) :
    maskOctets key text = masked key text := by
  simp only [maskOctets, masked]
  refine List.mapIdx_eq_mapIdx_iff.mpr fun j inside => ?_
  rw [Nat.mod_eq_of_lt (by omega)]

/-- Whole words are masked each octet at its place. -/
theorem maskWords_eq (wide : 0 < w) (key : PreparedKey w) {n : Nat} {text : Octets}
    (enough : w * n ≤ text.length) : maskWords key n text = masked key (text.take (w * n)) := by
  induction n generalizing text with
  | zero => simp [maskWords]
  | succ n ih =>
    have long : w ≤ text.length := by
      rw [Nat.mul_succ] at enough
      omega
    have first : (text.take w).length = w := by simp [long]
    have others : w * n ≤ (text.drop w).length := by
      rw [Nat.mul_succ] at enough
      rw [List.length_drop]
      omega
    rw [maskWords, maskOctets_eq key (Nat.le_of_eq first), ih others, Nat.mul_succ, Nat.add_comm,
      List.take_add, masked_append wide, first]
    have turned := ror_turns key 1
    rw [Nat.mul_one] at turned
    rw [turned]

/-- Masking many octets at a time is masking each at its place, wherever the text lies. -/
theorem maskInplaceFast_eq (wide : 0 < w) (align : Nat) (key : PreparedKey w) (text : Octets) :
    maskInplaceFast align key text = (masked key text, ror key (8 * text.length)) := by
  unfold maskInplaceFast
  dsimp only
  generalize place : (if w ≤ text.length ∧ align % w ≠ 0 then w - align % w else 0) = d
  have inside : d ≤ w ∧ d ≤ text.length := by
    subst place
    split <;> omega
  have whole : w * ((text.drop d).length / w) ≤ (text.drop d).length := Nat.mul_div_le _ _
  have rest : ((text.drop d).drop (w * ((text.drop d).length / w))).length ≤ w := by
    rw [List.length_drop]
    have := Nat.mod_lt (text.drop d).length wide
    have := Nat.div_add_mod (text.drop d).length w
    omega
  have head : (text.take d).length = d := by simp [inside.2]
  have middle : ((text.drop d).take (w * ((text.drop d).length / w))).length =
      w * ((text.drop d).length / w) := by rw [List.length_take, Nat.min_eq_left whole]
  rw [maskOctets_eq key (by rw [head]; exact inside.1), maskWords_eq wide _ whole,
    maskOctets_eq _ rest]
  refine Prod.ext ?_ ?_
  · -- The three parts make up the text, and whole words do not turn the key.
    dsimp only
    have parts : text = text.take d ++ ((text.drop d).take (w * ((text.drop d).length / w)) ++
        (text.drop d).drop (w * ((text.drop d).length / w))) := by
      rw [List.take_append_drop, List.take_append_drop]
    conv_rhs => rw [parts]
    rw [masked_append wide, masked_append wide, head, middle, ror_turns, List.append_assoc]
  · dsimp only
    rw [ror_ror, List.length_drop, List.length_drop]
    have size : text.length = d + (text.length - d - w * ((text.length - d) / w)) +
        w * ((text.length - d) / w) := by
      have := Nat.mul_div_le (text.length - d) w
      omega
    conv_rhs => rw [size, ← ror_ror key _ (w * _), ror_turns]

end Beast.Websocket
