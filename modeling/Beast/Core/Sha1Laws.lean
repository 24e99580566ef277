import Beast.Core.Sha1
import Beast.Lib.SecureHash
import Mathlib.Data.List.GetD
import Mathlib.Tactic.Ring

/-! What comes of octets in pieces is the digest of the message that they make up. -/

namespace Beast.Sha1

open SecureHash (Vars)

/-- The words of a digest, as the standard names them. -/
def Digest.vars (v : Digest) : Vars := ⟨v.a, v.b, v.c, v.d, v.e⟩

/-- The variables in their order, again and again. -/
def reg (n : Nat) : Reg :=
  match n % 5 with
  | 0 => .a
  | 1 => .b
  | 2 => .c
  | 3 => .d
  | _ => .e

-- The number of words, as the positions of `callAt` and `Scheduled` need it.
theorem sixteen_ne_zero : NeZero 16 := ⟨by decide⟩

attribute [local instance] sixteen_ne_zero

/-- How a round is called. -/
def kindAt (t : Nat) : Kind :=
  if t < 16 then .R0 else if t < 20 then .R1 else if t < 40 then .R2 else if t < 60 then .R3 else .R4

/-- The call of a round: each one has the variables one place further. -/
def callAt (t : Nat) : Call :=
  ⟨kindAt t, reg (4 * t), reg (4 * t + 1), reg (4 * t + 2), reg (4 * t + 3), reg (4 * t + 4),
    Fin.ofNat 16 t⟩

/-- What the variables of a round are for the standard. -/
def varsAt (t : Nat) (v : Digest) : Vars :=
  ⟨v.get (reg (4 * t)), v.get (reg (4 * t + 1)), v.get (reg (4 * t + 2)), v.get (reg (4 * t + 3)),
    v.get (reg (4 * t + 4))⟩

/-- The calls that are written out are those of the eighty rounds. -/
theorem calls_eq : calls = (List.range 80).map callAt := by decide +kernel

/-- The same variable comes again behind five. -/
theorem reg_congr {n m : Nat} (same : n % 5 = m % 5) : reg n = reg m := by
  unfold reg
  rw [same]

/-- Variables at other places are different. -/
theorem reg_ne {n m : Nat} (other : n % 5 ≠ m % 5) : reg n ≠ reg m := by
  have all : ∀ i < 5, ∀ j < 5, i ≠ j → reg i ≠ reg j := by decide
  rw [reg_congr (Nat.mod_mod n 5).symm, reg_congr (Nat.mod_mod m 5).symm]
  exact all _ (Nat.mod_lt _ (by decide)) _ (Nat.mod_lt _ (by decide)) other

@[simp] theorem Digest.get_set_self (v : Digest) (r : Reg) (x : UInt32) : (v.set r x).get r = x := by
  cases r <;> rfl

/-- Setting a variable leaves the others. -/
theorem Digest.get_set_ne (v : Digest) {r r' : Reg} (other : r' ≠ r) (x : UInt32) :
    (v.set r x).get r' = v.get r' := by
  cases r <;> cases r' <;> first | rfl | exact absurd rfl other

/-- Two words are the same where each of their bits is. -/
theorem word_ext {x y : UInt32} (bits : ∀ i < 32, x.toBitVec.getLsbD i = y.toBitVec.getLsbD i) :
    x = y := by
  apply UInt32.toBitVec_inj.mp
  exact BitVec.eq_of_getLsbD_eq bits

/-- The choice between two words, as it is computed with one operation less. -/
theorem choice_eq (w x y : UInt32) : (w &&& (x ^^^ y)) ^^^ y = (w &&& x) ^^^ (~~~w &&& y) := by
  -- Bit by bit, the first word tells which of the others is taken.
  refine word_ext fun i small => ?_
  simp only [UInt32.toBitVec_xor, UInt32.toBitVec_and, UInt32.toBitVec_not, BitVec.getLsbD_xor,
    BitVec.getLsbD_and, BitVec.getLsbD_not, small, decide_true, Bool.true_and]
  cases w.toBitVec.getLsbD i <;> simp

/-- The majority of three words, as it is computed with one operation less. -/
theorem majority_eq (w x y : UInt32) :
    ((w ||| x) &&& y) ||| (w &&& x) = (w &&& x) ^^^ (w &&& y) ^^^ (x &&& y) := by
  -- Bit by bit, the third word only matters where the other two differ.
  refine word_ext fun i _ => ?_
  simp only [UInt32.toBitVec_xor, UInt32.toBitVec_and, UInt32.toBitVec_or, BitVec.getLsbD_xor,
    BitVec.getLsbD_and, BitVec.getLsbD_or]
  cases w.toBitVec.getLsbD i <;> cases x.toBitVec.getLsbD i <;> simp

/-- The functions of the rounds, and their constants, are those of the standard. -/
theorem mix_eq (t : Nat) (w x y : UInt32) :
    (kindAt t).mix w x y = (SecureHash.f t w x y, SecureHash.k t) := by
  unfold kindAt SecureHash.f SecureHash.k
  -- The source parts the first twenty rounds, where the standard has one kind.
  by_cases first : t < 16
  · rw [if_pos first, if_pos (by omega), if_pos (by omega)]
    exact Prod.ext (choice_eq w x y) rfl
  rw [if_neg first]
  by_cases choices : t < 20
  · rw [if_pos choices, if_pos choices, if_pos choices]
    exact Prod.ext (choice_eq w x y) rfl
  rw [if_neg choices, if_neg choices, if_neg choices]
  by_cases parities : t < 40
  · rw [if_pos parities, if_pos parities, if_pos parities]
    rfl
  rw [if_neg parities, if_neg parities, if_neg parities]
  by_cases majorities : t < 60
  · rw [if_pos majorities, if_pos majorities, if_pos majorities]
    exact Prod.ext (majority_eq w x y) rfl
  · rw [if_neg majorities, if_neg majorities, if_neg majorities]
    rfl

/-- The circular block holds the last sixteen words of the schedule. -/
def Scheduled (m : Nat → UInt32) (t : Nat) (block : WordBlock) : Prop :=
  ∀ s, s < max t 16 → max t 16 ≤ s + 16 → block.get (Fin.ofNat 16 s) = SecureHash.w m s

/-- A word that is set is found at its place. -/
theorem get_set (block : WordBlock) {i : Nat} (inside : i < 16) (j : Fin 16) (x : UInt32) :
    (block.set i x).get j = if i = j.val then x else block.get j := by
  show (block.set i x)[j.val] = if i = j.val then x else block[j.val]
  exact Vector.getElem_set inside j.isLt

/-- Places that are sixteen words apart are the same. -/
theorem place_eq {t s : Nat} {k : Fin 16} (same : (t + k.val) % 16 = s % 16) :
    Fin.ofNat 16 t + k = Fin.ofNat 16 s := by
  apply Fin.ext
  simp only [Fin.val_add, Fin.ofNat, Nat.mod_add_mod]
  exact same

/-- A round finds its word in the block, and leaves the last sixteen there. -/
theorem schedule_step {m : Nat → UInt32} {t : Nat} {block : WordBlock}
    (scheduled : Scheduled m t block) :
    Scheduled m (t + 1) ((kindAt t).schedule block (Fin.ofNat 16 t)) ∧
      ((kindAt t).schedule block (Fin.ofNat 16 t)).get (Fin.ofNat 16 t) = SecureHash.w m t := by
  by_cases first : t < 16
  · -- The first words are those of the block itself.
    have kind : kindAt t = .R0 := if_pos first
    rw [kind]
    refine ⟨fun s early late => scheduled s ?_ ?_, scheduled t ?_ ?_⟩
    all_goals omega
  · have set : (kindAt t).schedule block (Fin.ofNat 16 t) =
        block.set (Fin.ofNat 16 t) (blk block (Fin.ofNat 16 t)) := by
      unfold kindAt
      rw [if_neg first]
      split
      · rfl
      · split
        · rfl
        · split <;> rfl
    have computed : blk block (Fin.ofNat 16 t) = SecureHash.w m t := by
      have three : Fin.ofNat 16 t + 13 = Fin.ofNat 16 (t - 3) := place_eq (by
        show (t + 13) % 16 = _
        omega)
      have eight : Fin.ofNat 16 t + 8 = Fin.ofNat 16 (t - 8) := place_eq (by
        show (t + 8) % 16 = _
        omega)
      have fourteen : Fin.ofNat 16 t + 2 = Fin.ofNat 16 (t - 14) := place_eq (by
        show (t + 2) % 16 = _
        omega)
      have sixteen : Fin.ofNat 16 t = Fin.ofNat 16 (t - 16) := by
        have turned : Fin.ofNat 16 t + 0 = Fin.ofNat 16 (t - 16) := place_eq (by
          show (t + 0) % 16 = _
          omega)
        rwa [Fin.add_zero] at turned
      rw [SecureHash.w, if_neg first, blk, three, eight, fourteen,
        scheduled (t - 3) (by omega) (by omega), scheduled (t - 8) (by omega) (by omega),
        scheduled (t - 14) (by omega) (by omega)]
      rw [sixteen, scheduled (t - 16) (by omega) (by omega)]
      rfl
    rw [set, computed]
    refine ⟨fun s early late => ?_, ?_⟩
    · rw [get_set]
      by_cases own : s = t
      · rw [own, if_pos rfl]
      · have other : (Fin.ofNat 16 t).val ≠ (Fin.ofNat 16 s).val := by
          show t % 16 ≠ s % 16
          omega
        rw [if_neg other]
        exact scheduled s (by omega) (by omega)
    · rw [get_set, if_pos rfl]

/-- A round does to the variables what the standard says. -/
theorem apply_vars {m : Nat → UInt32} {t : Nat} {s : WordBlock × Digest}
    (scheduled : Scheduled m t s.1) :
    Scheduled m (t + 1) (Call.apply s (callAt t)).1 ∧
      varsAt (t + 1) (Call.apply s (callAt t)).2 = SecureHash.round m t (varsAt t s.2) := by
  obtain ⟨next, found⟩ := schedule_step scheduled
  refine ⟨next, ?_⟩
  -- The variables of the next round are those of this one, the last of them in front.
  have first : reg (4 * (t + 1)) = reg (4 * t + 4) := reg_congr (by omega)
  have second : reg (4 * (t + 1) + 1) = reg (4 * t) := reg_congr (by omega)
  have third : reg (4 * (t + 1) + 2) = reg (4 * t + 1) := reg_congr (by omega)
  have fourth : reg (4 * (t + 1) + 3) = reg (4 * t + 2) := reg_congr (by omega)
  have fifth : reg (4 * (t + 1) + 4) = reg (4 * t + 3) := reg_congr (by omega)
  have zw : reg (4 * t + 4) ≠ reg (4 * t + 1) := reg_ne (by omega)
  have vw : reg (4 * t) ≠ reg (4 * t + 1) := reg_ne (by omega)
  have xw : reg (4 * t + 2) ≠ reg (4 * t + 1) := reg_ne (by omega)
  have yw : reg (4 * t + 3) ≠ reg (4 * t + 1) := reg_ne (by omega)
  have vz : reg (4 * t) ≠ reg (4 * t + 4) := reg_ne (by omega)
  have xz : reg (4 * t + 2) ≠ reg (4 * t + 4) := reg_ne (by omega)
  have yz : reg (4 * t + 3) ≠ reg (4 * t + 4) := reg_ne (by omega)
  simp only [varsAt, first, second, third, fourth, fifth, callAt, Call.apply, mix_eq, found,
    SecureHash.round, Digest.get_set_self, Digest.get_set_ne _ zw, Digest.get_set_ne _ vw,
    Digest.get_set_ne _ xw, Digest.get_set_ne _ yw, Digest.get_set_ne _ vz, Digest.get_set_ne _ xz,
    Digest.get_set_ne _ yz, Digest.get_set_ne _ zw.symm]
  congr 1
  show _ + (_ + _ + _ + SecureHash.rotl 5 _) = _
  ac_rfl

/-- The rounds do to a digest and a block what the standard says. -/
theorem calls_vars (digest : Digest) (block : WordBlock) (t : Nat) :
    Scheduled (fun s => block.get (Fin.ofNat 16 s)) t
        (((List.range t).map callAt).foldl Call.apply (block, digest)).1 ∧
      varsAt t (((List.range t).map callAt).foldl Call.apply (block, digest)).2 =
        SecureHash.rounds (fun s => block.get (Fin.ofNat 16 s)) digest.vars t := by
  -- The induction is on the rounds, with the circular block as it stands behind each of them.
  induction t with
  | zero =>
    refine ⟨fun s early _ => ?_, rfl⟩
    have first : s < 16 := by omega
    rw [SecureHash.w, if_pos first]
    rfl
  | succ t ih =>
    rw [List.range_succ, List.map_append, List.foldl_append]
    obtain ⟨next, vars⟩ := apply_vars ih.1
    exact ⟨next, by rw [SecureHash.rounds, ← ih.2, ← vars]; rfl⟩

/-- A block of words is taken into a digest as the standard says. -/
theorem transform_vars (digest : Digest) (block : WordBlock) : (transform digest block).vars =
    SecureHash.compress digest.vars fun s => block.get (Fin.ofNat 16 s) := by
  obtain ⟨-, vars⟩ := calls_vars digest block 80
  unfold transform SecureHash.compress
  rw [calls_eq, ← vars]
  generalize (((List.range 80).map callAt).foldl Call.apply (block, digest)).2 = v
  show (⟨digest.a + v.a, digest.b + v.b, digest.c + v.c, digest.d + v.d, digest.e + v.e⟩ : Vars) =
    ⟨v.a + digest.a, v.b + digest.b, v.c + digest.c, v.d + digest.d, v.e + digest.e⟩
  congr 1 <;> exact UInt32.add_comm _ _

/-- Only the sixteen words of a block count. -/
theorem w_congr {m m' : Nat → UInt32} (same : ∀ s < 16, m s = m' s) (t : Nat) :
    SecureHash.w m t = SecureHash.w m' t := by
  induction t using Nat.strongRecOn with
  | ind t ih =>
    rw [SecureHash.w, SecureHash.w.eq_1 m']
    by_cases first : t < 16
    · rw [if_pos first, if_pos first, same t first]
    · rw [if_neg first, if_neg first, ih _ (by omega), ih (t - 8) (by omega),
        ih (t - 14) (by omega), ih (t - 16) (by omega)]

theorem compress_congr {m m' : Nat → UInt32} (same : ∀ s < 16, m s = m' s) (h : Vars) :
    SecureHash.compress h m = SecureHash.compress h m' := by
  have rounds (t : Nat) : SecureHash.rounds m h t = SecureHash.rounds m' h t := by
    induction t with
    | zero => rfl
    | succ t ih =>
      rw [SecureHash.rounds, SecureHash.rounds, ih]
      simp only [SecureHash.round, w_congr same]
  unfold SecureHash.compress
  rw [rounds]

/-- The words of a buffer are those of its octets. -/
theorem make_block_get (p : Vector UInt8 64) (i : Fin 16) :
    (make_block p).get i = SecureHash.word p.toList i.val := by
  show (Vector.ofFn _)[i.val] = _
  rw [Vector.getElem_ofFn]
  unfold SecureHash.word
  generalize (p.toList.getD (4 * i.val) 0).toUInt32 <<< 24 = x
  generalize (p.toList.getD (4 * i.val + 1) 0).toUInt32 <<< 16 = y
  generalize (p.toList.getD (4 * i.val + 2) 0).toUInt32 <<< 8 = z
  generalize (p.toList.getD (4 * i.val + 3) 0).toUInt32 = u
  ac_rfl

/-- A buffer is taken into a digest as the standard says. -/
theorem transform_buffer (digest : Digest) (p : Vector UInt8 64) :
    (transform digest (make_block p)).vars =
      SecureHash.compress digest.vars (SecureHash.word p.toList) := by
  rw [transform_vars]
  refine compress_congr (fun s small => ?_) _
  rw [make_block_get, show (Fin.ofNat 16 s).val = s from Nat.mod_eq_of_lt small]

/-- Octets are found behind those that were in front of their place. -/
theorem place_take (buf : Vector UInt8 64) {i : Nat} {s : Octets} (inside : i + s.length ≤ 64) :
    (place buf i s).toList.take (i + s.length) = buf.toList.take i ++ s := by
  -- Each octet is either an old one in front of the place, or one of those that were put there.
  refine List.ext_getElem (by simp; omega) fun k here _ => ?_
  have short : k < 64 := by
    simp only [List.length_take, Vector.length_toList] at here
    omega
  rw [List.getElem_take, Vector.getElem_toList, List.getElem_append]
  show (Vector.ofFn _)[k] = _
  rw [Vector.getElem_ofFn]
  dsimp only
  by_cases front : k < i
  · rw [if_neg (by omega), dif_pos (by simp; omega), List.getElem_take, Vector.getElem_toList]
    rfl
  · have behind : k - i < s.length := by
      simp only [List.length_take, Vector.length_toList] at here
      omega
    have length : (buf.toList.take i).length = i := by
      simp
      omega
    rw [if_pos (by omega), dif_neg (by rw [length]; exact front)]
    simp only [length]
    rw [List.getD_eq_getElem?_getD, List.getElem?_eq_getElem behind]
    rfl

/-- A buffer that was filled holds its front and what was placed behind it. -/
theorem place_full (buf : Vector UInt8 64) {i : Nat} {s : Octets} (full : i + s.length = 64) :
    (place buf i s).toList = buf.toList.take i ++ s := by
  have length : (place buf i s).toList.length = i + s.length := by rw [Vector.length_toList, full]
  rw [← place_take buf (Nat.le_of_eq full), List.take_of_length_le (Nat.le_of_eq length)]

/-- What is kept of the message so far: the digest of its blocks, and what fills none. -/
structure Holds (ctx : Context) (m : Octets) : Prop where
  digest : ctx.digest.vars = SecureHash.absorb SecureHash.initial m
  blocks : ctx.blocks = UInt64.ofNat (m.length / 64)
  buflen : ctx.buflen = m.length % 64
  buf : ctx.buf.toList.take ctx.buflen = m.drop (m.length / 64 * 64)

/-- Nothing came yet. -/
theorem init_holds (junk : Vector UInt8 64) : Holds (init junk) [] where
  digest := (SecureHash.absorb_short (by decide) _).symm
  blocks := rfl
  buflen := rfl
  buf := by simp [init]

/-- What fills no block, with a piece that does not fill it up. -/
theorem Holds.rest_length {ctx : Context} {m : Octets} (held : Holds ctx m) :
    (m.drop (m.length / 64 * 64)).length = ctx.buflen := by
  rw [List.length_drop, held.buflen]
  omega

/-- A piece that does not fill the buffer is kept there. -/
theorem holds_part {ctx : Context} {m s : Octets} (held : Holds ctx m)
    (part : ctx.buflen + s.length < 64) :
    Holds { ctx with
      buflen := ctx.buflen + s.length
      buf := place ctx.buf ctx.buflen s
      short := part } (m ++ s) := by
  have buflen := held.buflen
  -- The message has as many blocks as before.
  have same : (m ++ s).length / 64 = m.length / 64 := by
    rw [List.length_append]
    omega
  refine ⟨?_, ?_, ?_, ?_⟩
  · rw [SecureHash.absorb_append, SecureHash.absorb_short]
    · exact held.digest
    · rw [List.length_append, held.rest_length]
      exact part
  · rw [same]
    exact held.blocks
  · rw [List.length_append]
    dsimp only
    omega
  · rw [place_take _ (Nat.le_of_lt part), held.buf, same,
      List.drop_append_of_le_length (Nat.div_mul_le_self _ _)]

/-- A piece that fills the buffer makes a block of it. -/
theorem holds_full {ctx : Context} {m s : Octets} (held : Holds ctx m)
    (full : ctx.buflen + s.length = 64) :
    Holds
      { buflen := 0
        blocks := ctx.blocks + 1
        digest := transform ctx.digest (make_block (place ctx.buf ctx.buflen s))
        buf := place ctx.buf ctx.buflen s
        short := by decide } (m ++ s) := by
  have buflen := held.buflen
  -- The message has one block more, and nothing behind it.
  have one : (m ++ s).length = (m.length / 64 + 1) * 64 := by
    rw [List.length_append]
    omega
  refine ⟨?_, ?_, ?_, ?_⟩
  · dsimp only
    rw [transform_buffer, place_full _ full, held.digest, held.buf, SecureHash.absorb_append]
    have block : (m.drop (m.length / 64 * 64) ++ s).length = 64 := by
      rw [List.length_append, held.rest_length, full]
    rw [SecureHash.absorb_one block]
  · dsimp only
    rw [held.blocks, one, Nat.mul_div_cancel _ (by decide), UInt64.ofNat_add]
    rfl
  · dsimp only
    rw [one, Nat.mul_mod_left]
  · rw [List.take_zero, one, Nat.mul_div_cancel _ (by decide), ← one, List.drop_length]

/-- A piece is kept behind the message so far. -/
theorem update_holds {ctx : Context} {m : Octets} (held : Holds ctx m) (s : Octets) :
    Holds (update ctx s) (m ++ s) := by
  -- The induction is on the blocks that the piece fills.
  induction ctx, s using update.induct generalizing m with
  | case1 ctx s n =>
    rename_i part
    have short := ctx.short
    have all : min s.length (64 - ctx.buflen) = s.length := by
      have : ctx.buflen + min s.length (64 - ctx.buflen) ≠ 64 := part
      omega
    have kept := holds_part (s := s) held (by omega)
    rw [update]
    simp only [all, List.take_length]
    rw [dif_pos (by omega)]
    exact kept
  | case2 ctx s n buf full =>
    rename_i ih
    have short := ctx.short
    have whole : ctx.buflen + (s.take n).length = 64 := by
      rw [List.length_take]
      omega
    rw [update, dif_neg full]
    have next := ih (holds_full held whole)
    rw [List.append_assoc, List.take_append_drop] at next
    exact next

/-- Pieces are kept one behind another. -/
theorem updates_hold {ctx : Context} {m : Octets} (held : Holds ctx m) (pieces : List Octets) :
    Holds (pieces.foldl update ctx) (m ++ pieces.flatten) := by
  induction pieces generalizing ctx m with
  | nil => simpa using held
  | cons s pieces ih =>
    rw [List.foldl_cons, List.flatten_cons, ← List.append_assoc]
    exact ih (update_holds held s)

/-- A bit of an octet of a number. -/
theorem octet_bit (n k : Nat) {b : Nat} (small : b < 8) :
    (UInt8.ofNat (n / 2 ^ k)).toBitVec.getLsbD b = n.testBit (k + b) := by
  show (n / 2 ^ k % 2 ^ 8).testBit b = n.testBit (k + b)
  rw [Nat.testBit_mod_two_pow, Nat.testBit_div_two_pow, Nat.add_comm]
  simp [small]

/-- A bit of an octet that was moved up in a word. -/
theorem shifted_bit (x : UInt8) {k i : Nat} (s : UInt32) (is : (s.toBitVec % 32).toNat = k)
    (small : i < 32) :
    (x.toUInt32 <<< s).toBitVec.getLsbD i = (decide (k ≤ i) && x.toBitVec.getLsbD (i - k)) := by
  rw [UInt32.toBitVec_shiftLeft, UInt8.toBitVec_toUInt32, BitVec.shiftLeft_eq', is,
    BitVec.getLsbD_shiftLeft, BitVec.getLsbD_setWidth]
  have inside : i - k < 32 := by omega
  by_cases low : i < k
  · simp [low, Nat.not_le.mpr low]
  · simp [small, inside, low, Nat.not_lt.mp low]

/-- A bit of a word is one of its octets, the last of which has the lowest bits. -/
theorem word_bit (block : Octets) (t : Nat) {i : Nat} (small : i < 32) :
    (SecureHash.word block t).toBitVec.getLsbD i =
      (block.getD (4 * t + (3 - i / 8)) 0).toBitVec.getLsbD (i % 8) := by
  unfold SecureHash.word
  rw [UInt32.toBitVec_or, UInt32.toBitVec_or, UInt32.toBitVec_or, BitVec.getLsbD_or,
    BitVec.getLsbD_or, BitVec.getLsbD_or, shifted_bit (k := 24) _ _ rfl small,
    shifted_bit (k := 16) _ _ rfl small, shifted_bit (k := 8) _ _ rfl small,
    UInt8.toBitVec_toUInt32, BitVec.getLsbD_setWidth]
  have beyond (x : UInt8) {j : Nat} (out : 8 ≤ j) : x.toBitVec.getLsbD j = false :=
    BitVec.getLsbD_of_ge _ _ out
  -- The cases are the four octets that the bit may lie in.
  obtain q | q | q | q : i / 8 = 0 ∨ i / 8 = 1 ∨ i / 8 = 2 ∨ i / 8 = 3 := by omega
  · have place : i % 8 = i := by omega
    have low : ¬24 ≤ i ∧ ¬16 ≤ i ∧ ¬8 ≤ i := by omega
    simp [q, place, low, small]
  · have place : i % 8 = i - 8 := by omega
    have low : ¬24 ≤ i ∧ ¬16 ≤ i ∧ 8 ≤ i := by omega
    simp [q, place, low, small]
  · have place : i % 8 = i - 16 := by omega
    have low : ¬24 ≤ i ∧ 16 ≤ i ∧ 8 ≤ i := by omega
    simp [q, place, low, small, beyond _ (show 8 ≤ i - 8 by omega)]
  · have place : i % 8 = i - 24 := by omega
    have low : 24 ≤ i ∧ 16 ≤ i ∧ 8 ≤ i := by omega
    simp [q, place, low, small, beyond _ (show 8 ≤ i - 8 by omega),
      beyond _ (show 8 ≤ i - 16 by omega)]

/-- The bits of the upper half of a word of sixty-four. -/
theorem upper_half (n : Nat) {i : Nat} (small : i < 32) :
    (UInt64.ofNat n >>> 32).toUInt32.toBitVec.getLsbD i = n.testBit (32 + i) := by
  rw [UInt64.toBitVec_toUInt32, UInt64.toBitVec_shiftRight, BitVec.getLsbD_setWidth,
    BitVec.ushiftRight_eq', show (UInt64.toBitVec 32 % 64).toNat = 32 from rfl,
    BitVec.getLsbD_ushiftRight]
  show (decide (i < 32) && (BitVec.ofNat 64 n).getLsbD (32 + i)) = _
  rw [BitVec.getLsbD_ofNat]
  simp [small, show 32 + i < 64 by omega]

/-- The bits of its lower half. -/
theorem lower_half (n : Nat) {i : Nat} (small : i < 32) :
    (UInt64.ofNat n &&& 0xffffffff).toUInt32.toBitVec.getLsbD i = n.testBit i := by
  rw [UInt64.toBitVec_toUInt32, UInt64.toBitVec_and, BitVec.getLsbD_setWidth, BitVec.getLsbD_and]
  have ones : (UInt64.toBitVec 0xffffffff).getLsbD i = true := by
    have all : ∀ i < 32, (UInt64.toBitVec 0xffffffff).getLsbD i = true := by decide
    exact all i small
  show (decide (i < 32) && ((BitVec.ofNat 64 n).getLsbD i && _)) = _
  rw [BitVec.getLsbD_ofNat, ones]
  simp [small, show i < 64 by omega]

/-- The words of the length are its upper and its lower half. -/
theorem length_words {front : Octets} (full : front.length = 56) (n : Nat) :
    SecureHash.word (front ++ SecureHash.be64 n) 14 = (UInt64.ofNat n >>> 32).toUInt32 ∧
      SecureHash.word (front ++ SecureHash.be64 n) 15 = (UInt64.ofNat n &&& 0xffffffff).toUInt32 := by
  -- The octets of the length come behind a front that fills fourteen words.
  have octet {j : Nat} (inside : j < 8) : (front ++ SecureHash.be64 n).getD (56 + j) 0 =
      UInt8.ofNat (n / 2 ^ (8 * (7 - j))) := by
    rw [List.getD_append_right _ _ _ _ (by omega), full, Nat.add_sub_cancel_left]
    simp [SecureHash.be64, List.getD_eq_getElem?_getD, inside]
  have upper (i : Nat) (small : i < 32) :
      (SecureHash.word (front ++ SecureHash.be64 n) 14).toBitVec.getLsbD i = n.testBit (32 + i) := by
    rw [word_bit _ _ small, show 4 * 14 + (3 - i / 8) = 56 + (3 - i / 8) by omega,
      octet (by omega), octet_bit _ _ (by omega)]
    congr 1
    omega
  have lower (i : Nat) (small : i < 32) :
      (SecureHash.word (front ++ SecureHash.be64 n) 15).toBitVec.getLsbD i = n.testBit i := by
    rw [word_bit _ _ small, show 4 * 15 + (3 - i / 8) = 56 + (7 - i / 8) by omega,
      octet (by omega), octet_bit _ _ (by omega)]
    congr 1
    omega
  constructor
  · refine word_ext fun i small => ?_
    rw [upper i small, upper_half n small]
  · refine word_ext fun i small => ?_
    rw [lower i small, lower_half n small]

/-- What lies behind the octets of a word does not count. -/
theorem word_append {front : Octets} {t : Nat} (inside : 4 * t + 3 < front.length) (back : Octets) :
    SecureHash.word (front ++ back) t = SecureHash.word front t := by
  unfold SecureHash.word
  rw [List.getD_append _ _ _ _ (by omega), List.getD_append _ _ _ _ (by omega),
    List.getD_append _ _ _ _ (by omega), List.getD_append _ _ _ _ inside]

/-- The last block is taken, whose last words are those of the length. -/
theorem transform_last (digest : Digest) {block : WordBlock} {front : Octets} (full : front.length = 56)
    (words : ∀ s < 14, block.get (Fin.ofNat 16 s) = SecureHash.word front s) (n : Nat) :
    (transform digest ((block.set 15 (UInt64.ofNat n &&& 0xffffffff).toUInt32).set 14
        (UInt64.ofNat n >>> 32).toUInt32)).vars =
      SecureHash.compress digest.vars (SecureHash.word (front ++ SecureHash.be64 n)) := by
  obtain ⟨upper, lower⟩ := length_words full n
  rw [transform_vars]
  refine compress_congr (fun s small => ?_) _
  have index : (Fin.ofNat 16 s).val = s := Nat.mod_eq_of_lt small
  -- The last two words are those that were set, and the others come from the front.
  rw [get_set _ (by decide), get_set _ (by decide), index]
  by_cases first : s < 14
  · rw [if_neg (by omega), if_neg (by omega), word_append (by omega), words s first]
  · obtain rfl | rfl : s = 14 ∨ s = 15 := by omega
    · rw [if_pos rfl, upper]
    · rw [if_neg (by decide), if_pos rfl, lower]

/-- The octets of a word are written as the standard says. -/
theorem wordOctets_eq (x : UInt32) : wordOctets x = SecureHash.be32 x := by
  have masked (y : UInt32) : (y &&& 0xff).toUInt8 = y.toUInt8 := by
    apply UInt8.toNat_inj.mp
    rw [UInt32.toNat_toUInt8, UInt32.toNat_toUInt8, UInt32.toNat_and]
    show (y.toNat &&& 2 ^ 8 - 1) % 2 ^ 8 = _
    rw [Nat.and_two_pow_sub_one_eq_mod, Nat.mod_mod]
  simp only [wordOctets, SecureHash.be32, masked]

/-- The octets of a digest. -/
theorem digest_octets (d : Digest) : wordOctets d.a ++ wordOctets d.b ++ wordOctets d.c ++
    wordOctets d.d ++ wordOctets d.e = d.vars.octets := by
  simp only [wordOctets_eq]
  rfl

/-- The buffer with the marker and zeros behind what fills no block. -/
def padded (ctx : Context) : Vector UInt8 64 :=
  place (place ctx.buf ctx.buflen [0x80]) (ctx.buflen + 1)
    (List.replicate (64 - (ctx.buflen + 1)) 0)

theorem fifteen_lt : 15 < 16 := by decide

theorem fourteen_lt : 14 < 16 := by decide

/-- A block with the words of the length. -/
def sized (block : WordBlock) (total_bits : UInt64) : WordBlock :=
  (block.set 15 (total_bits &&& 0xffffffff).toUInt32 fifteen_lt).set 14
    (total_bits >>> 32).toUInt32 fourteen_lt

/-- What `finish` returns, where a block more is needed and where it is not. -/
theorem finish_eq (ctx : Context) : finish ctx =
    (transform
      (if ctx.buflen + 1 > 56 then transform ctx.digest (make_block (padded ctx)) else ctx.digest)
      (sized (if ctx.buflen + 1 > 56 then
          .ofFn fun i => if i.val < 14 then 0 else (make_block (padded ctx)).get i
        else make_block (padded ctx)) ((ctx.blocks * 64 + UInt64.ofNat ctx.buflen) * 8))).vars.octets := by
  unfold finish
  dsimp only
  rw [digest_octets]
  -- Where the marker leaves less than eight octets, the length takes a block of its own.
  by_cases long : ctx.buflen + 1 > 56
  · rw [if_pos long, if_pos long, if_pos (show ctx.buflen + 1 > BLOCK_BYTES - 8 from long)]
    rfl
  · rw [if_neg long, if_neg long, if_neg (show ¬ctx.buflen + 1 > BLOCK_BYTES - 8 from long)]
    rfl

/-- The padded buffer holds what fills no block, the marker and zeros. -/
theorem padded_toList {ctx : Context} {rest : Octets} (is : ctx.buf.toList.take ctx.buflen = rest) :
    (padded ctx).toList = rest ++ 0x80 :: List.replicate (63 - ctx.buflen) 0 := by
  have short := ctx.short
  have front := place_take ctx.buf (s := [0x80]) (show ctx.buflen + 1 ≤ 64 by omega)
  rw [List.length_singleton] at front
  rw [padded, place_full _ (by rw [List.length_replicate]; omega), front, is, List.append_assoc,
    show 64 - (ctx.buflen + 1) = 63 - ctx.buflen by omega]
  rfl

/-- The number of bits that `finish` counts is that of the message. -/
theorem total_bits_eq {ctx : Context} {m : Octets} (held : Holds ctx m) :
    (ctx.blocks * 64 + UInt64.ofNat ctx.buflen) * 8 = UInt64.ofNat (8 * m.length) := by
  have whole : 8 * m.length = (m.length / 64 * 64 + m.length % 64) * 8 := by omega
  rw [held.blocks, held.buflen, whole, UInt64.ofNat_mul, UInt64.ofNat_add, UInt64.ofNat_mul]
  rfl

/-- The digest that is returned is the one of the message. -/
theorem finish_digest {ctx : Context} {m : Octets} (held : Holds ctx m) :
    finish ctx = SecureHash.digest m := by
  have short := ctx.short
  have buflen := held.buflen
  -- What fills no block, behind which the marker, the zeros and the length come.
  obtain ⟨rest, is⟩ : ∃ rest, rest = m.drop (m.length / 64 * 64) := ⟨_, rfl⟩
  have length : rest.length = ctx.buflen := by rw [is, held.rest_length]
  have padding := padded_toList (held.buf.trans is.symm)
  have absorbed : SecureHash.absorb SecureHash.initial (SecureHash.pad m) =
      SecureHash.absorb ctx.digest.vars (rest ++ 0x80 ::
        (List.replicate (SecureHash.zeros m.length) 0 ++ SecureHash.be64 (8 * m.length))) := by
    rw [SecureHash.pad, SecureHash.absorb_append, held.digest, is]
  rw [finish_eq, total_bits_eq held, SecureHash.digest, absorbed]
  refine congrArg Vars.octets ?_
  by_cases long : ctx.buflen + 1 > 56
  · -- The length does not fit behind the marker, and takes a block of its own.
    have zeros : SecureHash.zeros m.length = 63 - ctx.buflen + 56 := by
      rw [SecureHash.zeros]
      omega
    have blocks : rest ++ 0x80 ::
        (List.replicate (SecureHash.zeros m.length) 0 ++ SecureHash.be64 (8 * m.length)) =
        (padded ctx).toList ++ (List.replicate 56 0 ++ SecureHash.be64 (8 * m.length)) := by
      rw [padding, zeros, ← List.replicate_append_replicate]
      simp only [List.append_assoc, List.cons_append]
    have nothing : ∀ s < 14, SecureHash.word (List.replicate 56 0) s = 0 := by decide +kernel
    rw [if_pos long, if_pos long, blocks, SecureHash.absorb_block Vector.length_toList,
      SecureHash.absorb_one (by simp), ← transform_buffer]
    refine transform_last _ List.length_replicate (fun s first => ?_) _
    have index : (Fin.ofNat 16 s).val = s := Nat.mod_eq_of_lt (by omega)
    show (Vector.ofFn _)[(Fin.ofNat 16 s).val] = _
    rw [Vector.getElem_ofFn, nothing s first]
    exact if_pos (by rw [index]; exact first)
  · -- The length fits behind the marker.
    have zeros : SecureHash.zeros m.length = 55 - ctx.buflen := by
      rw [SecureHash.zeros]
      omega
    obtain ⟨front, whole⟩ : ∃ front, front = rest ++ 0x80 :: List.replicate (55 - ctx.buflen) 0 :=
      ⟨_, rfl⟩
    have full : front.length = 56 := by
      rw [whole, List.length_append, List.length_cons, List.length_replicate, length]
      omega
    have block : rest ++ 0x80 ::
        (List.replicate (SecureHash.zeros m.length) 0 ++ SecureHash.be64 (8 * m.length)) =
        front ++ SecureHash.be64 (8 * m.length) := by
      rw [zeros, whole, List.append_assoc, List.cons_append]
    have behind : (padded ctx).toList = front ++ List.replicate 8 0 := by
      rw [padding, whole, show 63 - ctx.buflen = 55 - ctx.buflen + 8 by omega,
        ← List.replicate_append_replicate, List.append_assoc, List.cons_append]
    rw [if_neg long, if_neg long, block, SecureHash.absorb_one (by simp [full])]
    refine transform_last _ full (fun s first => ?_) _
    rw [make_block_get, show (Fin.ofNat 16 s).val = s from Nat.mod_eq_of_lt (by omega), behind,
      word_append (by omega)]

/-- Whatever the pieces of a message are, what comes of them is its digest. -/
theorem streamed_digest (junk : Vector UInt8 64) (pieces : List Octets) :
    finish (pieces.foldl update (init junk)) = SecureHash.digest pieces.flatten := by
  have held := updates_hold (init_holds junk) pieces
  rw [List.nil_append] at held
  exact finish_digest held

example : finish ([octets "a", [], octets "bc"].foldl update (init (.replicate 64 7))) =
    [0xa9, 0x99, 0x3e, 0x36, 0x47, 0x06, 0x81, 0x6a, 0xba, 0x3e, 0x25, 0x71, 0x78, 0x50, 0xc2, 0x6c,
      0x9c, 0xd0, 0xd8, 0x9d] := by decide +kernel

end Beast.Sha1
