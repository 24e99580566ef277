import Beast.Zlib.HeaderTrip

/-! How many bits a block is sent as. -/

namespace Beast.Zlib

/-! ## Symbols -/

/-- Where a list has no element there is a zero, which is below any bound too. -/
theorem getD_lt {l : List Nat} {n : Nat} (all : ∀ x ∈ l, x < n) (positive : 0 < n) (i : Nat) :
    l.getD i 0 < n := by
  rw [List.getD_eq_getElem?_getD]
  cases found : l[i]? with
  | none => exact positive
  | some x => exact all x (List.mem_of_getElem? found)

theorem length_code_lt (lc : Nat) : length_code.getD lc 0 < lengthCodes := by
  refine getD_lt (fun code member => ?_) (by decide) lc
  rcases List.mem_or_eq_of_mem_set member with among | rfl
  · obtain ⟨k, inside, same⟩ := List.mem_flatMap.mp among
    rw [List.eq_of_mem_replicate same]
    exact Nat.lt_of_lt_of_le (List.mem_range.mp inside) (by decide)
  · decide

theorem d_code_lt (dist : Nat) : d_code dist < dCodes := by
  have all : ∀ code ∈ dist_code, code < dCodes := by
    intro code member
    rw [dist_code, List.mem_append, List.mem_append, List.mem_flatMap, List.mem_flatMap] at member
    rcases member with (⟨k, inside, same⟩ | same) | ⟨k, inside, same⟩
    · rw [List.eq_of_mem_replicate same]
      exact Nat.lt_trans (List.mem_range.mp inside) (by decide)
    · rw [List.eq_of_mem_replicate same]
      decide
    · rw [List.eq_of_mem_replicate same]
      exact (List.mem_range'_1.mp inside).2
  rw [d_code]
  split
  · exact getD_lt all (by decide) _
  · exact getD_lt all (by decide) _

namespace Tally

/-- The symbol of the literal and length codes that is counted and sent. -/
def litCode (t : Tally) : Nat :=
  if t.dist = 0 then t.lc.toNat else length_code.getD t.lc.toNat 0 + literals + 1

/-- The symbols of the distance codes that are counted and sent: that of the distance, if there is one. -/
def distCodes (t : Tally) : List Nat := if t.dist = 0 then [] else [d_code (t.dist - 1)]

theorem litCode_lt (t : Tally) : t.litCode < lCodes := by
  have lc_lt := t.lc.toNat_lt
  have code_lt := length_code_lt t.lc.toNat
  rw [lengthCodes] at code_lt
  rw [litCode, lCodes, literals]
  split <;> omega

theorem distCodes_lt (t : Tally) : ∀ x ∈ t.distCodes, x < dCodes := by
  intro x member
  rw [distCodes] at member
  split at member
  · exact absurd member List.not_mem_nil
  · rw [List.mem_singleton.mp member]
    exact d_code_lt _

end Tally

/-- The symbols of the literal and length codes that some literals and matches are sent with. -/
def litCodes (tallies : List Tally) : List Nat := tallies.map Tally.litCode ++ [END_BLOCK]

/-- The symbols of the distance codes that some literals and matches are sent with. -/
def distCodes (tallies : List Tally) : List Nat := tallies.flatMap Tally.distCodes

theorem litCodes_cons (t : Tally) (tallies : List Tally) :
    litCodes (t :: tallies) = t.litCode :: litCodes tallies := rfl

theorem distCodes_cons (t : Tally) (tallies : List Tally) :
    distCodes (t :: tallies) = t.distCodes ++ distCodes tallies := List.flatMap_cons

theorem litCodes_lt (tallies : List Tally) : ∀ x ∈ litCodes tallies, x < lCodes := by
  intro x member
  rcases List.mem_append.mp member with among | last
  · obtain ⟨t, -, rfl⟩ := List.mem_map.mp among
    exact t.litCode_lt
  · rw [List.mem_singleton.mp last]
    decide

theorem length_litCodes (tallies : List Tally) : (litCodes tallies).length = tallies.length + 1 := by
  rw [litCodes, List.length_append, List.length_map, List.length_singleton]

/-- A literal or a match has no more than one symbol of the distance codes. -/
theorem length_distCodes (tallies : List Tally) : (distCodes tallies).length ≤ tallies.length := by
  induction tallies with
  | nil => exact Nat.le_refl 0
  | cons t tallies ih =>
    have one : t.distCodes.length ≤ 1 := by
      rw [Tally.distCodes]
      split <;> simp
    rw [distCodes_cons, List.length_append, List.length_cons]
    omega

theorem distCodes_lt (tallies : List Tally) : ∀ x ∈ distCodes tallies, x < dCodes := by
  intro x member
  obtain ⟨t, -, among⟩ := List.mem_flatMap.mp member
  exact t.distCodes_lt x among

/-! ## The size of block data -/

/-- What a symbol costs: its code, and its extra bits. -/
def symbolBits (desc : StaticDesc) (tree : Tree) (x : Nat) : Nat := (tree x).dl + desc.xbits x

/-- What some literals and matches cost. -/
def dataBits (ltree dtree : Tree) (tallies : List Tally) : Nat :=
  ((litCodes tallies).map (symbolBits l_desc ltree)).sum + ((distCodes tallies).map (symbolBits d_desc dtree)).sum

/-- No code of some symbols is longer than what can be sent at once. -/
def Sendable (tree : Tree) (symbols : List Nat) : Prop := ∀ x ∈ symbols, (tree x).dl ≤ Sink.Buf_size

variable {ltree dtree : Tree} {s : Sink} {v extra : Nat}

theorem xbits_literal {x : Nat} (literal : x ≤ END_BLOCK) : l_desc.xbits x = 0 := by
  rw [END_BLOCK] at literal
  rw [StaticDesc.xbits, if_neg]
  change ¬257 ≤ x
  omega

theorem xbits_length (code : Nat) : l_desc.xbits (code + literals + 1) = extra_lbits.getD code 0 := by
  rw [StaticDesc.xbits, if_pos (show l_desc.extra_base ≤ code + literals + 1 from Nat.le_add_left 257 code)]
  change extra_lbits.getD (code + 257 - 257) 0 = _
  rw [Nat.add_sub_cancel]

theorem size_extra (few : extra ≤ Sink.Buf_size) (fits : s.bi_valid_ ≤ Sink.Buf_size) :
    (if extra ≠ 0 then s.send_bits v extra else s).size = s.size + extra ∧
      (if extra ≠ 0 then s.send_bits v extra else s).bi_valid_ ≤ Sink.Buf_size := by
  split
  · exact s.size_send_bits v few fits
  · rename_i none
    rw [not_not.mp none]
    exact ⟨rfl, fits⟩

theorem size_send_tally (t : Tally) (lit : (ltree t.litCode).dl ≤ Sink.Buf_size)
    (dist : Sendable dtree t.distCodes) (fits : s.bi_valid_ ≤ Sink.Buf_size) :
    (send_tally ltree dtree s t).size = s.size + symbolBits l_desc ltree t.litCode +
        (t.distCodes.map (symbolBits d_desc dtree)).sum ∧
      (send_tally ltree dtree s t).bi_valid_ ≤ Sink.Buf_size := by
  rw [Tally.litCode] at lit ⊢
  rw [Tally.distCodes] at dist ⊢
  rw [send_tally]
  split
  · rename_i literal
    rw [if_pos literal] at lit
    obtain ⟨size, fits'⟩ := s.size_send_bits (ltree t.lc.toNat).fc lit fits
    have lc_lt := t.lc.toNat_lt
    rw [symbolBits, xbits_literal (by rw [END_BLOCK]; omega)]
    exact ⟨size, fits'⟩
  · rename_i match_
    rw [if_neg match_] at lit dist
    have far := dist _ (List.mem_singleton.mpr rfl)
    have few := getD_lt (by decide : ∀ x ∈ extra_lbits, x < Sink.Buf_size) (by decide) (length_code.getD t.lc.toNat 0)
    have few' := getD_lt (by decide : ∀ x ∈ extra_dbits, x < Sink.Buf_size) (by decide) (d_code (t.dist - 1))
    obtain ⟨size₁, fits₁⟩ := s.size_send_bits (ltree (length_code.getD t.lc.toNat 0 + literals + 1)).fc lit fits
    obtain ⟨size₂, fits₂⟩ := @size_extra _ (t.lc.toNat - base_length (length_code.getD t.lc.toNat 0)) _ few.le fits₁
    obtain ⟨size₃, fits₃⟩ := Sink.size_send_bits _ (dtree (d_code (t.dist - 1))).fc far fits₂
    obtain ⟨size₄, fits₄⟩ := @size_extra _ (t.dist - 1 - base_dist (d_code (t.dist - 1))) _ few'.le fits₃
    refine ⟨?_, fits₄⟩
    rw [symbolBits, xbits_length, List.map_singleton, List.sum_singleton, symbolBits]
    dsimp only [Sink.send_code]
    rw [size₄, size₃, size₂, size₁]
    change _ = _ + (_ + extra_dbits.getD (d_code (t.dist - 1)) 0)
    omega

variable {tallies : List Tally}

/-- Literals and matches are as long as their symbols and the extra bits of these. -/
theorem size_send_tallies (lit : Sendable ltree (tallies.map Tally.litCode))
    (dist : Sendable dtree (distCodes tallies)) (fits : s.bi_valid_ ≤ Sink.Buf_size) :
    (tallies.foldl (send_tally ltree dtree) s).size = s.size +
        ((tallies.map Tally.litCode).map (symbolBits l_desc ltree)).sum +
        ((distCodes tallies).map (symbolBits d_desc dtree)).sum ∧
      (tallies.foldl (send_tally ltree dtree) s).bi_valid_ ≤ Sink.Buf_size := by
  induction tallies generalizing s with
  | nil => exact ⟨rfl, fits⟩
  | cons t tallies ih =>
    rw [distCodes_cons] at dist ⊢
    obtain ⟨size₁, fits₁⟩ := size_send_tally t (lit t.litCode List.mem_cons_self)
      (fun x member => dist x (List.mem_append_left _ member)) fits
    obtain ⟨size₂, fits₂⟩ := ih (fun x member => lit x (List.mem_cons_of_mem _ member))
      (fun x member => dist x (List.mem_append_right _ member)) fits₁
    refine ⟨?_, fits₂⟩
    rw [List.foldl_cons, size₂, size₁, List.map_cons, List.map_cons, List.sum_cons, List.map_append,
      List.sum_append]
    omega

/-- The output does not reach into the buffers before what it reaches is read. -/
def OverlayOk (lit_bufsize : Nat) (ltree dtree : Tree) (tallies : List Tally) (s : Sink) : Prop :=
  ∀ lx < tallies.length,
    ((tallies.take lx).foldl (send_tally ltree dtree) s).pending_buf_.length ≤ lit_bufsize + 2 * lx ∧
      ((tallies.take (lx + 1)).foldl (send_tally ltree dtree) s).pending_buf_.length <
        lit_bufsize + 2 * (lx + 1)

/-- The loop goes through where the overlay is ok, and does not otherwise. -/
theorem compressLoop_eq (lit_bufsize : Nat) (ltree dtree : Tree) (tallies : List Tally) (s : Sink) (lx : Nat) :
    (OverlayOk (lit_bufsize + 2 * lx) ltree dtree tallies s →
      compressLoop lit_bufsize ltree dtree lx tallies s = some (tallies.foldl (send_tally ltree dtree) s)) ∧
    (¬OverlayOk (lit_bufsize + 2 * lx) ltree dtree tallies s →
      compressLoop lit_bufsize ltree dtree lx tallies s = none) := by
  induction tallies generalizing s lx with
  | nil => exact ⟨fun _ => rfl, fun wrong => absurd (fun _ inside => absurd inside (Nat.not_lt_zero _)) wrong⟩
  | cons t tallies ih =>
    have later : OverlayOk (lit_bufsize + 2 * lx) ltree dtree (t :: tallies) s ↔
        s.pending_buf_.length ≤ lit_bufsize + 2 * lx ∧
          (send_tally ltree dtree s t).pending_buf_.length < lit_bufsize + 2 * (lx + 1) ∧
          OverlayOk (lit_bufsize + 2 * (lx + 1)) ltree dtree tallies (send_tally ltree dtree s t) := by
      constructor
      · intro ok
        have first := ok 0 (Nat.succ_pos _)
        refine ⟨first.1, first.2, fun k inside => ?_⟩
        have next := ok (k + 1) (Nat.succ_lt_succ inside)
        simp only [List.take_succ_cons, List.foldl_cons] at next
        omega
      · rintro ⟨before, behind, rest⟩ k inside
        cases k with
        | zero => exact ⟨before, behind⟩
        | succ k =>
          have next := rest k (Nat.lt_of_succ_lt_succ inside)
          simp only [List.take_succ_cons, List.foldl_cons]
          omega
    obtain ⟨through, stops⟩ := ih (send_tally ltree dtree s t) (lx + 1)
    rw [later, compressLoop, List.foldl_cons]
    dsimp only
    constructor
    · rintro ⟨before, behind, rest⟩
      rw [if_pos before, if_pos behind]
      exact through rest
    · intro wrong
      split
      · split
        · rename_i before behind
          exact stops fun rest => wrong ⟨before, behind, rest⟩
        · rfl
      · rfl

/-- The block data is as long as its symbols and the extra bits of these, where the overlay is ok. -/
theorem size_compress_block (lit : Sendable ltree (litCodes tallies)) (dist : Sendable dtree (distCodes tallies))
    (fits : s.bi_valid_ ≤ Sink.Buf_size) (lit_bufsize : Nat) :
    (OverlayOk lit_bufsize ltree dtree tallies s →
      ∃ s', compress_block lit_bufsize ltree dtree tallies s = some s' ∧
        s'.size = s.size + dataBits ltree dtree tallies ∧ s'.bi_valid_ ≤ Sink.Buf_size) ∧
    (¬OverlayOk lit_bufsize ltree dtree tallies s →
      compress_block lit_bufsize ltree dtree tallies s = none) := by
  obtain ⟨through, stops⟩ := compressLoop_eq lit_bufsize ltree dtree tallies s 0
  rw [Nat.mul_zero, Nat.add_zero] at through stops
  constructor
  · intro ok
    obtain ⟨size₁, fits₁⟩ := size_send_tallies (fun x member => lit x (List.mem_append_left _ member)) dist fits
    obtain ⟨size₂, fits₂⟩ := Sink.size_send_bits _ (ltree END_BLOCK).fc
      (lit END_BLOCK (List.mem_append_right _ List.mem_cons_self)) fits₁
    refine ⟨_, ?_, size₂.trans ?_, fits₂⟩
    · rw [compress_block, through ok]
      rfl
    · rw [size₁, dataBits, litCodes, List.map_append, List.sum_append, List.map_singleton, List.sum_singleton,
        symbolBits, xbits_literal (Nat.le_refl _)]
      omega
  · intro wrong
    rw [compress_block, stops wrong]
    rfl

theorem xbits_le {desc : StaticDesc} (all : ∀ x ∈ desc.extra_bits, x < Sink.Buf_size) (x : Nat) :
    desc.xbits x ≤ Sink.Buf_size := by
  rw [StaticDesc.xbits]
  split
  · exact (getD_lt all (by decide) _).le
  · exact Nat.zero_le _

/-- The data of a block that fits into the buffers is so short that its length is a number of 32 bits. -/
theorem dataBits_le (lit : Sendable ltree (litCodes tallies)) (dist : Sendable dtree (distCodes tallies))
    (few : tallies.length < 2 ^ 15) : dataBits ltree dtree tallies ≤ 2 ^ 21 := by
  have lits : ((litCodes tallies).map (symbolBits l_desc ltree)).sum ≤ (litCodes tallies).length * 32 := by
    have bound := List.sum_le_card_nsmul ((litCodes tallies).map (symbolBits l_desc ltree)) 32
    rw [List.length_map] at bound
    refine bound fun n member => ?_
    obtain ⟨x, among, rfl⟩ := List.mem_map.mp member
    exact Nat.add_le_add (lit x among) (@xbits_le l_desc (by decide) x)
  have dists : ((distCodes tallies).map (symbolBits d_desc dtree)).sum ≤ (distCodes tallies).length * 32 := by
    have bound := List.sum_le_card_nsmul ((distCodes tallies).map (symbolBits d_desc dtree)) 32
    rw [List.length_map] at bound
    refine bound fun n member => ?_
    obtain ⟨x, among, rfl⟩ := List.mem_map.mp member
    exact Nat.add_le_add (dist x among) (@xbits_le d_desc (by decide) x)
  have count := length_litCodes tallies
  have count' := length_distCodes tallies
  rw [dataBits]
  omega

theorem dataBits_congr {ltree' dtree' : Tree} (lit : ∀ x ∈ litCodes tallies, (ltree x).dl = (ltree' x).dl)
    (dist : ∀ x ∈ distCodes tallies, (dtree x).dl = (dtree' x).dl) :
    dataBits ltree dtree tallies = dataBits ltree' dtree' tallies := by
  have lits : (litCodes tallies).map (symbolBits l_desc ltree) = (litCodes tallies).map (symbolBits l_desc ltree') :=
    List.map_congr_left fun x member => congrArg (· + l_desc.xbits x) (lit x member)
  have dists : (distCodes tallies).map (symbolBits d_desc dtree) =
      (distCodes tallies).map (symbolBits d_desc dtree') :=
    List.map_congr_left fun x member => congrArg (· + d_desc.xbits x) (dist x member)
  rw [dataBits, dataBits, lits, dists]

/-- The codes of the static literal tree have the lengths that they are made from. -/
theorem ltree_dl (x : Nat) : (Beast.Zlib.ltree x).dl = staticLength x := by
  have made : gen_codes (fun n => ⟨0, staticLength n⟩) (lCodes + 1 : Nat) (fun bits =>
      if bits = 7 then 24 else if bits = 8 then 152 else if bits = 9 then 112 else 0) = some _ :=
    if_pos (by decide)
  rw [Beast.Zlib.ltree, made, Option.getD_some, assignCodes_dl]

/-- The codes of the static trees have nine bits at most. -/
theorem static_dl (x : Nat) : (Beast.Zlib.ltree x).dl ≤ 9 ∧ (Beast.Zlib.dtree x).dl = 5 := by
  refine ⟨?_, rfl⟩
  rw [ltree_dl, staticLength]
  split
  · decide
  · split
    · decide
    · split
      · decide
      · split <;> decide

/-! ## Counting -/

namespace DeflateBlock

variable {b : DeflateBlock}

/-- Putting literals and matches into the buffers counts their symbols. -/
theorem foldl_tr_tally (b : DeflateBlock) (tallies : List Tally) :
    tallies.foldl tr_tally b = { b with
      tallies := b.tallies ++ tallies
      dyn_ltree_ := tallies.foldl (fun tree t => tree.addFc t.litCode 1) b.dyn_ltree_
      dyn_dtree_ := (distCodes tallies).foldl (fun tree x => tree.addFc x 1) b.dyn_dtree_ } := by
  induction tallies generalizing b with
  | nil => rw [List.append_nil]; rfl
  | cons t tallies ih =>
    rw [List.foldl_cons, ih, tr_tally, List.foldl_cons, distCodes_cons, List.foldl_append, Tally.litCode,
      Tally.distCodes]
    split
    · simp
    · simp

/-- A block with some literals and matches in its buffers, whose codes are counted. -/
structure Tallied (b : DeflateBlock) (tallies : List Tally) : Prop where
  buffered : b.tallies = tallies
  lit : ∀ x < lCodes, (b.dyn_ltree_ x).fc = (litCodes tallies).countP fun y => y = x
  dist : ∀ x < dCodes, (b.dyn_dtree_ x).fc = (distCodes tallies).countP fun y => y = x
  bl : ∀ x < blCodes, (b.bl_tree_ x).fc = 0
  opt_len : b.builder.opt_len_ = 0
  static_len : b.builder.static_len_ = 0

/-- All that is put into the buffers of a new block is counted. -/
theorem tallied (b : DeflateBlock) {tallies : List Tally} (few : tallies.length < 2 ^ 15) :
    (tallies.foldl tr_tally b.init_block).Tallied tallies ∧
      (tallies.foldl tr_tally b.init_block).sink = b.sink ∧
      (tallies.foldl tr_tally b.init_block).level_ = b.level_ ∧
      (tallies.foldl tr_tally b.init_block).lit_bufsize_ = b.lit_bufsize_ := by
  rw [foldl_tr_tally]
  have few_dist := length_distCodes tallies
  refine ⟨⟨rfl, fun x inside => ?_, fun x inside => ?_, fun x inside => ?_, rfl, rfl⟩, rfl, rfl, rfl⟩
  · have start : (b.init_block.dyn_ltree_ x).fc = [END_BLOCK].countP fun y => y = x := by
      rw [init_block, List.countP_singleton]
      dsimp only
      rw [Tree.setFc_fc, if_pos inside]
      simp [eq_comm]
    have one : ([END_BLOCK].countP fun y => y = x) ≤ 1 := List.countP_le_length
    have most : (tallies.countP fun t => t.litCode = x) ≤ tallies.length := List.countP_le_length
    have all : ((litCodes tallies).countP fun y => y = x) =
        (tallies.countP fun t => t.litCode = x) + [END_BLOCK].countP fun y => y = x := by
      rw [litCodes, List.countP_append, List.countP_map]
      rfl
    dsimp only
    rw [fc_foldl_addFc Tally.litCode _ _ _ (by rw [start]; omega), start, all, Nat.add_comm]
    exact Nat.mod_eq_of_lt (by omega)
  · have start : (b.init_block.dyn_dtree_ x).fc = 0 := by
      rw [init_block]
      dsimp only
      rw [if_pos inside]
    have most : ((distCodes tallies).countP fun y => y = x) ≤ (distCodes tallies).length := List.countP_le_length
    dsimp only
    rw [fc_foldl_addFc (fun y => y) _ _ _ (by rw [start]; decide), start, Nat.zero_add]
    exact Nat.mod_eq_of_lt (by omega)
  · rw [init_block]
    dsimp only
    rw [if_pos inside]

/-- What the symbols of a block cost is told by how often they are counted. -/
theorem Tallied.dynamicCost (tallied : b.Tallied tallies) (ltree dtree : Tree) :
    Beast.Zlib.dynamicCost l_desc b.dyn_ltree_ ltree + Beast.Zlib.dynamicCost d_desc b.dyn_dtree_ dtree =
      dataBits ltree dtree tallies := by
  have lit : Beast.Zlib.dynamicCost l_desc b.dyn_ltree_ ltree = ((litCodes tallies).map (symbolBits l_desc ltree)).sum :=
    Histogram.sum_counted (fun y => y) (litCodes tallies) (litCodes_lt tallies) tallied.lit
  have dist : Beast.Zlib.dynamicCost d_desc b.dyn_dtree_ dtree =
      ((distCodes tallies).map (symbolBits d_desc dtree)).sum :=
    Histogram.sum_counted (fun y => y) (distCodes tallies) (distCodes_lt tallies) tallied.dist
  rw [lit, dist, dataBits]

theorem Tallied.staticCost (tallied : b.Tallied tallies) :
    Beast.Zlib.staticCost l_desc b.dyn_ltree_ + Beast.Zlib.staticCost d_desc b.dyn_dtree_ =
      dataBits Beast.Zlib.ltree Beast.Zlib.dtree tallies :=
  tallied.dynamicCost Beast.Zlib.ltree Beast.Zlib.dtree

/-- What making the trees of a block comes to. -/
structure Made (b t : DeflateBlock) (tallies : List Tally) (max_blindex : Nat) : Prop where
  ready : t.Ready max_blindex
  lit : Sendable t.dyn_ltree_ (litCodes tallies)
  dist : Sendable t.dyn_dtree_ (distCodes tallies)
  opt_len : t.builder.opt_len_ =
    BitField.width (t.headerFields max_blindex) + dataBits t.dyn_ltree_ t.dyn_dtree_ tallies
  static_len : t.builder.static_len_ = dataBits Beast.Zlib.ltree Beast.Zlib.dtree tallies
  buffered : t.tallies = tallies
  sink : t.sink = b.sink
  lit_bufsize : t.lit_bufsize_ = b.lit_bufsize_

/-- A header is so short that its length is a number of 32 bits. -/
theorem Ready.width_le {m : Nat} (ready : b.Ready m) : BitField.width (b.headerFields m) ≤ 2 ^ 13 := by
  have few := ready.vectors.few ready.expands
  have high := ready.high
  rw [lCodes, dCodes] at few
  rw [blCodes] at high
  have symbols := List.sum_le_card_nsmul
    (b.headerItems.map fun it => (b.bl_tree_ it.1).dl + bl_desc.xbits it.1) 14 fun n member => by
      obtain ⟨it, among, rfl⟩ := List.mem_map.mp member
      have symbol := (ready.expands.symbols it among).1
      exact Nat.add_le_add (ready.short it.1 (Nat.lt_succ_of_le symbol))
        ((by decide : ∀ x ≤ REPZ_11_138, bl_desc.xbits x ≤ 7) it.1 symbol)
  rw [List.length_map, Nat.nsmul_eq_mul] at symbols
  rw [b.width_headerFields ready.high]
  omega

/-- A symbol that is counted has a code in a valid tree. -/
theorem counted_coded {desc : StaticDesc} {start made : Builder} (valid : ValidTree desc start made)
    {symbols : List Nat} (low : ∀ x ∈ symbols, x < desc.elems)
    (counted : ∀ x < desc.elems, (start.tree x).fc = symbols.countP fun y => y = x) :
    ∀ x ∈ symbols, (x : Int) ≤ made.max_code ∧ 0 < (made.tree x).dl ∧ (made.tree x).dl ≤ desc.max_length := by
  intro x member
  have some_ : 0 < symbols.countP fun y => y = x := List.countP_pos_iff.mpr ⟨x, member, by simp⟩
  exact valid.coded x (low x member) (by rw [counted x (low x member)]; exact some_.ne')

/-- A valid tree has a symbol. -/
theorem valid_some {desc : StaticDesc} {start made : Builder} (valid : ValidTree desc start made) :
    0 ≤ made.max_code := by
  by_contra none
  have empty : made.lengths = [] := by
    rw [Builder.lengths, Int.toNat_of_nonpos (by omega)]
    rfl
  have full := valid.complete
  rw [empty] at full
  norm_num [CanonicalCode.kraft] at full

theorem valid_short {desc : StaticDesc} {start made : Builder} (valid : ValidTree desc start made)
    (limit : desc.max_length ≤ maxBits) :
    ∀ i < (made.max_code + 1).toNat, (made.tree i).dl ≤ maxBits := by
  intro i inside
  have last := valid.last
  rw [valid.dl i (by omega)]
  exact Nat.le_trans (CanonicalCode.len_le valid.bounded i) limit

/-- The trees of a block are made: those for its symbols, which are valid, and the one for their lengths. -/
theorem make_trees_builds (tallied : b.Tallied tallies) (level : 0 < b.level_) :
    ∃ (b₁ b₂ : Builder) (m : Nat) (t : DeflateBlock), b.make_trees = some (m, t) ∧
      ValidTree l_desc { b.builder with tree := b.dyn_ltree_ } b₁ ∧
      ValidTree d_desc { b₁ with tree := b.dyn_dtree_ } b₂ ∧
      Builds { b with
        dyn_ltree_ := b₁.tree, l_max_code := b₁.max_code, dyn_dtree_ := b₂.tree, d_max_code := b₂.max_code
        builder := b₂ } t m := by
  obtain ⟨b₁, made₁, valid₁⟩ := @Builder.build_tree_spec l_desc { b.builder with tree := b.dyn_ltree_ }
    (sound_of_alphabet (by simp))
    ⟨by dsimp only; rw [tallied.opt_len]; decide, by dsimp only; rw [tallied.static_len]; decide⟩
  have opt₁ := valid₁.opt_len
  have static₁ := valid₁.static_len
  obtain ⟨b₂, made₂, valid₂⟩ := @Builder.build_tree_spec d_desc { b₁ with tree := b.dyn_dtree_ } (sound_of_alphabet (by simp))
    ⟨by dsimp only; rw [opt₁]; exact Nat.mod_lt _ (by decide), by
      dsimp only; rw [static₁]; exact Nat.mod_lt _ (by decide)⟩
  have opt₂ := valid₂.opt_len
  have static₂ := valid₂.static_len
  have eob := counted_coded valid₁ (litCodes_lt tallies) tallied.lit END_BLOCK
    (List.mem_append_right _ List.mem_cons_self)
  obtain ⟨c, trees⟩ : ∃ c : DeflateBlock, { b with
      dyn_ltree_ := b₁.tree, l_max_code := b₁.max_code, dyn_dtree_ := b₂.tree, d_max_code := b₂.max_code
      builder := b₂ } = c := ⟨_, rfl⟩
  have vectors : c.Vectors := by
    rw [← trees]
    exact ⟨eob.1, valid₁.last, valid_some valid₂, valid₂.last, valid_short valid₁ (Nat.le_refl _),
      valid_short valid₂ (Nat.le_refl _), eob.2.1.ne'⟩
  obtain ⟨m, t, made, builds⟩ := build_bl_tree_spec vectors (by rw [← trees]; exact tallied.bl) (by
    rw [← trees]
    dsimp only
    rw [opt₂, static₂]
    exact ⟨Nat.mod_lt _ (by decide), Nat.mod_lt _ (by decide)⟩)
  refine ⟨b₁, b₂, m, t, ?_, valid₁, valid₂, by rw [trees]; exact builds⟩
  rw [make_trees, if_pos level]
  dsimp only [bind, Option.bind]
  rw [made₁]
  dsimp only
  rw [made₂]
  dsimp only
  rw [trees, made]

/-- The trees of a block are made, and the totals are what its header and its data take. -/
theorem make_trees_spec (tallied : b.Tallied tallies) (few : tallies.length < 2 ^ 15) (level : 0 < b.level_) :
    ∃ m t, b.make_trees = some (m, t) ∧ b.Made t tallies m := by
  obtain ⟨b₁, b₂, m, t, made, valid₁, valid₂, builds⟩ := make_trees_builds tallied level
  have opt₁ := valid₁.opt_len
  have static₁ := valid₁.static_len
  have opt₂ := valid₂.opt_len
  have static₂ := valid₂.static_len
  dsimp only at opt₁ static₁ opt₂ static₂
  rw [tallied.opt_len, Nat.zero_add] at opt₁
  rw [tallied.static_len, Nat.zero_add] at static₁
  rw [opt₁, Nat.mod_add_mod, tallied.dynamicCost] at opt₂
  rw [static₁, Nat.mod_add_mod, tallied.staticCost] at static₂
  have lits := counted_coded valid₁ (litCodes_lt tallies) tallied.lit
  have dists := counted_coded valid₂ (distCodes_lt tallies) tallied.dist
  obtain ⟨c, trees⟩ : ∃ c : DeflateBlock, { b with
      dyn_ltree_ := b₁.tree, l_max_code := b₁.max_code, dyn_dtree_ := b₂.tree, d_max_code := b₂.max_code
      builder := b₂ } = c := ⟨_, rfl⟩
  rw [trees] at builds
  -- The guards are behind all symbols that are sent.
  have l_own : ∀ x ∈ litCodes tallies, (t.dyn_ltree_ x).dl = (b₁.tree x).dl := by
    intro x member
    have low := (lits x member).1
    rw [builds.ltree, ← trees]
    dsimp only
    rw [Tree.setDl, if_neg (by omega)]
  have d_own : ∀ x ∈ distCodes tallies, (t.dyn_dtree_ x).dl = (b₂.tree x).dl := by
    intro x member
    have low := (dists x member).1
    rw [builds.dtree, ← trees]
    dsimp only
    rw [Tree.setDl, if_neg (by omega)]
  have lit : Sendable t.dyn_ltree_ (litCodes tallies) := fun x member => by
    rw [l_own x member]
    exact Nat.le_trans (lits x member).2.2 (by decide)
  have dist : Sendable t.dyn_dtree_ (distCodes tallies) := fun x member => by
    rw [d_own x member]
    exact Nat.le_trans (dists x member).2.2 (by decide)
  have bound := dataBits_le lit dist few
  have static_bound := @dataBits_le Beast.Zlib.ltree Beast.Zlib.dtree _
    (fun x _ => Nat.le_trans (static_dl x).1 (by decide)) (fun x _ => (by decide : 5 ≤ Sink.Buf_size)) few
  have header_bound := builds.ready.width_le
  have others := builds.others
  refine ⟨m, t, made, builds.ready, lit, dist, ?_, ?_, ?_, ?_, ?_⟩
  · have same := dataBits_congr l_own d_own
    have own : c.builder.opt_len_ = b₂.opt_len_ := by rw [← trees]
    rw [builds.opt_len, own, opt₂, ← same, Nat.mod_add_mod, Nat.add_comm]
    exact Nat.mod_eq_of_lt (by omega)
  · have own : c.builder.static_len_ = b₂.static_len_ := by rw [← trees]
    rw [builds.static_len, own, static₂]
    exact Nat.mod_eq_of_lt (by omega)
  · rw [others, ← trees]
    exact tallied.buffered
  · rw [others, ← trees]
  · rw [others, ← trees]

end DeflateBlock

end Beast.Zlib
