import Beast.Zlib.BlockSize
import Mathlib

/-! What the header of a dynamic block is read as, and how long blocks are. -/

namespace Beast.Zlib

open Step

/-! ## Sinks -/

namespace Sink

variable {s : Sink} {fs : List BitField} {b : BitString}

theorem Sound.value_lt (sound : s.Sound) : s.value < 2 ^ s.size := by
  have clean := sound.clean
  have octets : BitString.ofOctets s.pending_buf_ < 2 ^ (8 * s.pending_buf_.length) := by
    have digits : ∀ d ∈ s.pending_buf_.map UInt8.toNat, d < 256 := by
      intro d among
      obtain ⟨c, -, rfl⟩ := List.mem_map.mp among
      exact c.toNat_lt
    have bound := Nat.ofDigits_lt_base_pow_length (by decide : 1 < 256) digits
    rw [List.length_map] at bound
    rw [Nat.pow_mul]
    exact bound
  rw [value, size, Nat.pow_add]
  calc BitString.ofOctets s.pending_buf_ + 2 ^ (8 * s.pending_buf_.length) * s.bi_buf_
    _ < 2 ^ (8 * s.pending_buf_.length) * 1 + 2 ^ (8 * s.pending_buf_.length) * s.bi_buf_ := by omega
    _ = 2 ^ (8 * s.pending_buf_.length) * (s.bi_buf_ + 1) := by ring
    _ ≤ 2 ^ (8 * s.pending_buf_.length) * 2 ^ s.bi_valid_ := Nat.mul_le_mul_left _ clean

/-- A string of bits begins with what was sent to a sink since it was another one. -/
def Since (s t : Sink) (b : BitString) : Prop :=
  b.slice 0 (t.size - s.size) = t.value / 2 ^ s.size

/-- Where a string of bits begins with what was sent, it has the numbers that were sent. -/
theorem Sound.held (sound : s.Sound) (fit : BitField.Fit fs) (few : ∀ f ∈ fs, f.2 ≤ Buf_size)
    (since : Since s (s.send fs) b) (enough : BitField.width fs ≤ b.length) : BitField.Held b 0 fs := by
  obtain ⟨-, size_eq, value_eq⟩ := sound.send fit few
  refine BitField.held_of_pack fit (by omega) ?_
  rw [Since, size_eq, Nat.add_sub_cancel_left, value_eq, Nat.add_mul_div_left _ _ (Nat.two_pow_pos _),
    Nat.div_eq_of_lt sound.value_lt, Nat.zero_add] at since
  exact since

/-- Aligning the output rounds its size up to whole octets. -/
theorem size_bi_windup (fits : s.bi_valid_ ≤ Buf_size) : s.bi_windup.size = (s.size + 7) / 8 * 8 := by
  rw [Buf_size] at fits
  rw [bi_windup, size, size]
  dsimp only
  split
  · have two : (s.put_short s.bi_buf_).pending_buf_.length = s.pending_buf_.length + 2 := by
      simp [put_short, put_byte]
    rw [two]
    omega
  · split
    · have one : (s.put_byte s.bi_buf_).pending_buf_.length = s.pending_buf_.length + 1 := by simp [put_byte]
      rw [one]
      omega
    · omega

end Sink

/-! ## Results -/

/-- A tree is sent with the symbols that are counted when it is scanned, each one as often. -/
theorem scan_tree_sent (tree : Tree) {max_code : Int}
    (short : ∀ i < (max_code + 1).toNat, (tree i).dl ≤ maxBits) :
    ∃ items : List Item,
      (∀ bl_tree x, (bl_tree x).fc < 2 ^ 16 → ((scan_tree tree max_code bl_tree).2 x).fc =
        ((bl_tree x).fc + items.countP fun it => it.1 = x) % 2 ^ 16) ∧
      ∀ counts bl_tree sink, send_tree bl_tree (scan_tree tree max_code counts).1 max_code sink =
        some (sink.send (items.flatMap (itemFields bl_tree))) := by
  refine ⟨treeItems (tree.setDl (max_code + 1).toNat 0xffff) max_code, fun bl_tree x small => ?_,
    fun counts bl_tree sink => send_tree_eq (fun i inside => ?_) bl_tree sink⟩
  · rw [scan_tree_eq]
    exact fc_foldl_addFc Prod.fst _ _ _ small
  · rw [scan_tree]
    dsimp only
    rw [Tree.setDl, if_neg (by omega)]
    exact Nat.lt_succ_of_le (short i inside)

namespace DeflateBlock

/-- What is sent of the trees of a block is read as the lengths of its codes. -/
theorem header_read {s : DeflateBlock} (vectors : s.Vectors) (clear : ∀ x < blCodes, (s.bl_tree_ x).fc = 0)
    (small : s.builder.opt_len_ < 2 ^ 32 ∧ s.builder.static_len_ < 2 ^ 32) :
    ∃ m t, s.build_bl_tree = some (m, t) ∧ ∀ sink : Sink, sink.Sound →
      ∃ sink', t.send_all_trees (t.l_max_code + 1).toNat (t.d_max_code + 1).toNat (m + 1) sink = some sink' ∧
        ∀ w : TreeWork, w.source.next ≤ w.source.input.length → Sink.Since sink sink' w.source.bits →
          sink'.size - sink.size + 7 ≤ w.source.bits.length →
            ∃ w', run TreeWork.doTrees w = run TreeWork.makeTables w' ∧ s.HasRead w' ∧
              Source.On w.source.bits w.source.input w.source.next (sink'.size - sink.size) w'.source := by
  obtain ⟨m, t, built, builds⟩ := build_bl_tree_spec vectors clear small
  obtain ⟨fit, few⟩ := builds.ready.fit
  refine ⟨m, t, built, fun sink sound => ⟨_, builds.ready.send_all_trees sink, fun w inside since enough => ?_⟩⟩
  obtain ⟨-, size_eq, -⟩ := sound.send fit few
  have width : (sink.send (t.headerFields m)).size - sink.size = BitField.width (t.headerFields m) := by omega
  rw [width] at enough ⊢
  obtain ⟨w', ran, read, on⟩ := builds.ready.run_doTrees (Source.on_bits inside)
    (sound.held fit few since (by omega)) (by omega)
  obtain ⟨-, lit, dist, -⟩ := vectors.expands builds.ltree builds.dtree (by rw [builds.others])
    (by rw [builds.others])
  rw [Nat.zero_add] at on
  refine ⟨w', ran, ⟨?_, ?_, ?_, ?_⟩, on⟩
  · rw [read.nlen, lit]
  · rw [read.ndist, dist]
  · rw [read.lit, lit]
  · rw [read.dist, dist]

/-- The size of the output behind a block, which is aligned behind the last one. -/
def flushedSize (last size : Nat) : Nat := if last ≠ 0 then (size + 7) / 8 * 8 else size

/-- Behind a block that is sent the output is aligned where the block is the last one. -/
theorem tr_flush_block_sent {s t : DeflateBlock} {m stored_len : Nat} {sink : Sink} {buf : Option Octets}
    (made : s.make_trees = some (m, t)) (last : Nat)
    (sent : t.sendBlock m last (buf.getD []) (t.kind buf stored_len) = some sink)
    (fits : sink.bi_valid_ ≤ Sink.Buf_size) :
    ∃ f, s.tr_flush_block buf stored_len last = some f ∧ f.sink.size = flushedSize last sink.size := by
  refine ⟨if last ≠ 0 then { { t with sink }.init_block with sink := sink.bi_windup }
    else { t with sink }.init_block, ?_, ?_⟩
  · rw [tr_flush_block, made]
    dsimp only [bind, Option.bind]
    rw [sent]
    rfl
  · rw [flushedSize]
    split
    · exact Sink.size_bi_windup fits
    · rfl

/-- While a block is sent in an encoding, the overlay of its buffers is ok. -/
def Overlaid (s : DeflateBlock) (max_blindex last : Nat) : Kind → Prop
  | .stored => True
  | .static =>
    OverlayOk s.lit_bufsize_ ltree dtree s.tallies (s.sink.send_bits (STATIC_TREES <<< 1 + last) 3)
  | .dynamic => ∀ sink,
    s.send_all_trees (s.l_max_code + 1).toNat (s.d_max_code + 1).toNat (max_blindex + 1)
        (s.sink.send_bits (DYN_TREES <<< 1 + last) 3) = some sink →
      OverlayOk s.lit_bufsize_ s.dyn_ltree_ s.dyn_dtree_ s.tallies sink

variable {b : DeflateBlock} {tallies : List Tally}

/-- Dynamic and static blocks are as long as was computed before they are sent, where the overlay is ok. -/
theorem flush_size (few : tallies.length < b.lit_bufsize_) (size : b.lit_bufsize_ ≤ 2 ^ 15) (level : 0 < b.level_)
    (fits : b.sink.bi_valid_ ≤ Sink.Buf_size) (buf : Option Octets) (stored_len last : Nat) :
    ∃ m t, (tallies.foldl tr_tally b.init_block).make_trees = some (m, t) ∧
      (t.Overlaid m last (t.kind buf stored_len) →
        ∃ f, (tallies.foldl tr_tally b.init_block).tr_flush_block buf stored_len last = some f ∧
          (t.kind buf stored_len = .dynamic →
            f.sink.size = flushedSize last (b.sink.size + (t.builder.opt_len_ + 3))) ∧
          (t.kind buf stored_len = .static →
            f.sink.size = flushedSize last (b.sink.size + (t.builder.static_len_ + 3)))) ∧
      (¬t.Overlaid m last (t.kind buf stored_len) →
        (tallies.foldl tr_tally b.init_block).tr_flush_block buf stored_len last = none) := by
  have short : tallies.length < 2 ^ 15 := Nat.lt_of_lt_of_le few size
  obtain ⟨tallied, sink, level', -⟩ := b.tallied short
  obtain ⟨m, t, trees, made⟩ := make_trees_spec tallied short (by rw [level']; exact level)
  have start : t.sink = b.sink := made.sink.trans sink
  have stops : t.sendBlock m last (buf.getD []) (t.kind buf stored_len) = none →
      (tallies.foldl tr_tally b.init_block).tr_flush_block buf stored_len last = none := fun none => by
    rw [tr_flush_block, trees]
    dsimp only [bind, Option.bind]
    rw [none]
  refine ⟨m, t, trees, ?_⟩
  cases kind : t.kind buf stored_len with
  | stored =>
    refine ⟨fun _ => ?_, fun wrong => absurd trivial wrong⟩
    obtain ⟨f, flushed, -⟩ := @tr_flush_block_sent _ _ _ stored_len _ buf trees last
      (by rw [kind]; rfl) (by simp [Sink.copy_block, Sink.put_short, Sink.put_byte, Sink.bi_windup])
    exact ⟨f, flushed, (fun other => by cases other), (fun other => by cases other)⟩
  | static =>
    rw [kind, sendBlock, made.buffered] at stops
    obtain ⟨size₁, fits₁⟩ := t.sink.size_send_bits (STATIC_TREES <<< 1 + last) (by decide : 3 ≤ Sink.Buf_size)
      (by rw [start]; exact fits)
    obtain ⟨sends, fails⟩ := @size_compress_block ltree dtree _ tallies
      (fun x _ => Nat.le_trans (static_dl x).1 (by decide)) (fun x _ => (by decide : 5 ≤ Sink.Buf_size)) fits₁
      t.lit_bufsize_
    rw [Overlaid, made.buffered]
    refine ⟨fun ok => ?_, fun wrong => stops (fails wrong)⟩
    obtain ⟨sent, eq, size₂, fits₂⟩ := sends ok
    obtain ⟨f, flushed, size₃⟩ := @tr_flush_block_sent _ _ _ stored_len _ buf trees last
      (by rw [kind, sendBlock, made.buffered]; exact eq) fits₂
    refine ⟨f, flushed, (fun other => by cases other), fun _ => ?_⟩
    rw [size₃, size₂, size₁, start, made.static_len, Nat.add_assoc, Nat.add_comm 3]
  | dynamic =>
    rw [kind, sendBlock, made.buffered, made.ready.send_all_trees] at stops
    obtain ⟨size₁, fits₁⟩ := t.sink.size_send_bits (DYN_TREES <<< 1 + last) (by decide : 3 ≤ Sink.Buf_size)
      (by rw [start]; exact fits)
    obtain ⟨size₂, fits₂⟩ := Sink.size_send made.ready.fit.2 fits₁
    obtain ⟨sends, fails⟩ := size_compress_block made.lit made.dist fits₂ t.lit_bufsize_
    rw [Overlaid, made.buffered, made.ready.send_all_trees]
    refine ⟨fun ok => ?_, fun wrong => stops (fails fun ok => wrong fun sink same => ?_)⟩
    · obtain ⟨sent, eq, size₃, fits₃⟩ := sends (ok _ rfl)
      obtain ⟨f, flushed, size₄⟩ := @tr_flush_block_sent _ _ _ stored_len _ buf trees last (by
        rw [kind, sendBlock, made.ready.send_all_trees, made.buffered]
        exact eq) fits₃
      refine ⟨f, flushed, fun _ => ?_, (fun other => by cases other)⟩
      rw [size₄, size₃, size₂, size₁, start, made.opt_len]
      congr 1
      omega
    · rw [← Option.some_inj.mp same]
      exact ok

end DeflateBlock

/-- Trees are counted as they are sent, what is sent of them is read as the lengths of their codes, and
blocks are as long as was computed, where lengths are computed at all. -/
theorem blocks_predicted :
    (∀ (tree : Tree) (max_code : Int), (∀ i < (max_code + 1).toNat, (tree i).dl ≤ maxBits) →
      ∃ items : List Item,
        (∀ bl_tree x, (bl_tree x).fc < 2 ^ 16 → ((scan_tree tree max_code bl_tree).2 x).fc =
          ((bl_tree x).fc + items.countP fun it => it.1 = x) % 2 ^ 16) ∧
        ∀ counts bl_tree sink, send_tree bl_tree (scan_tree tree max_code counts).1 max_code sink =
          some (sink.send (items.flatMap (itemFields bl_tree)))) ∧
    (∀ s : DeflateBlock, s.Vectors → (∀ x < blCodes, (s.bl_tree_ x).fc = 0) →
      s.builder.opt_len_ < 2 ^ 32 ∧ s.builder.static_len_ < 2 ^ 32 →
      ∃ m t, s.build_bl_tree = some (m, t) ∧ ∀ sink : Sink, sink.Sound →
        ∃ sink', t.send_all_trees (t.l_max_code + 1).toNat (t.d_max_code + 1).toNat (m + 1) sink = some sink' ∧
          ∀ w : TreeWork, w.source.next ≤ w.source.input.length → Sink.Since sink sink' w.source.bits →
            sink'.size - sink.size + 7 ≤ w.source.bits.length →
              ∃ w', run TreeWork.doTrees w = run TreeWork.makeTables w' ∧ s.HasRead w' ∧
                Source.On w.source.bits w.source.input w.source.next (sink'.size - sink.size) w'.source) ∧
    ∀ (b : DeflateBlock) (tallies : List Tally), tallies.length < b.lit_bufsize_ → b.lit_bufsize_ ≤ 2 ^ 15 →
      0 < b.level_ → b.sink.bi_valid_ ≤ Sink.Buf_size → ∀ (buf : Option Octets) (stored_len last : Nat),
        ∃ m t, (tallies.foldl DeflateBlock.tr_tally b.init_block).make_trees = some (m, t) ∧
          (t.Overlaid m last (t.kind buf stored_len) →
            ∃ f, (tallies.foldl DeflateBlock.tr_tally b.init_block).tr_flush_block buf stored_len last = some f ∧
              (t.kind buf stored_len = .dynamic →
                f.sink.size = DeflateBlock.flushedSize last (b.sink.size + (t.builder.opt_len_ + 3))) ∧
              (t.kind buf stored_len = .static →
                f.sink.size = DeflateBlock.flushedSize last (b.sink.size + (t.builder.static_len_ + 3)))) ∧
          (¬t.Overlaid m last (t.kind buf stored_len) →
            (tallies.foldl DeflateBlock.tr_tally b.init_block).tr_flush_block buf stored_len last = none) :=
  ⟨fun tree _ short => scan_tree_sent tree short,
    fun _ vectors clear small => DeflateBlock.header_read vectors clear small, fun _ _ few size level fits => DeflateBlock.flush_size few size level fits⟩

/-- A block before the first one, with no trees and no output so far, and with the largest buffers. -/
def DeflateBlock.fresh (level_ : Nat) (strategy_ : Strategy) : DeflateBlock where
  dyn_ltree_ := fun _ => ⟨0, 0⟩
  dyn_dtree_ := fun _ => ⟨0, 0⟩
  bl_tree_ := fun _ => ⟨0, 0⟩
  l_max_code := 0
  d_max_code := 0
  builder := ⟨fun _ => ⟨0, 0⟩, 0, fun _ => 0, 0, 0, fun _ => 0, fun _ => 0, 0, 0⟩
  tallies := []
  lit_bufsize_ := 2 ^ 15
  sink := ⟨[], 0, 0⟩
  level_
  strategy_

/-- A text of so many octets, in which no matches are looked for. -/
def plainText (n : Nat) : List Tally := List.replicate n ⟨0, 0x61, by decide⟩

/-- The first block of a stream, with such a text in it. -/
def plainBlock (level n : Nat) : DeflateBlock :=
  (plainText n).foldl DeflateBlock.tr_tally (DeflateBlock.fresh level .huffman).init_block

/-- A block of five octets, whose trees are made. -/
theorem blocks_predicted_text :
    ∃ m t, (plainBlock 6 5).make_trees = some (m, t) ∧
      (t.Overlaid m 0 (t.kind none 5) →
        ∃ f, (plainBlock 6 5).tr_flush_block none 5 0 =
            some f ∧
          (t.kind none 5 = .dynamic → f.sink.size = DeflateBlock.flushedSize 0 (0 + (t.builder.opt_len_ + 3))) ∧
          (t.kind none 5 = .static → f.sink.size = DeflateBlock.flushedSize 0 (0 + (t.builder.static_len_ + 3)))) ∧
      (¬t.Overlaid m 0 (t.kind none 5) →
        (plainBlock 6 5).tr_flush_block none 5 0 = none) :=
  blocks_predicted.2.2 (DeflateBlock.fresh 6 .huffman) (plainText 5) (by decide) (by decide) (by decide)
    (by decide) none 5 0

/-- The overlay is ok for a text that is short against the buffers. -/
theorem overlayOk_plainText {n lit_bufsize : Nat} {s : Sink} (fits : s.bi_valid_ ≤ Sink.Buf_size)
    (few : s.size + 9 * n < 8 * lit_bufsize) : OverlayOk lit_bufsize ltree dtree (plainText n) s := by
  have octets : ∀ k ≤ n, 8 * (((plainText n).take k).foldl (send_tally ltree dtree) s).pending_buf_.length ≤
      s.size + 9 * n := by
    intro k inside
    have front : (plainText n).take k = plainText k := by
      rw [plainText, List.take_replicate, Nat.min_eq_left inside]
      rfl
    have dists : distCodes (plainText k) = [] := List.flatMap_eq_nil_iff.mpr fun t member => by
      rw [List.eq_of_mem_replicate member]
      rfl
    have lits : (plainText k).map Tally.litCode = List.replicate k 0x61 := List.map_replicate
    have code : symbolBits l_desc ltree 0x61 = 8 := by
      rw [symbolBits, ltree_dl]
      rfl
    obtain ⟨size, -⟩ := @size_send_tallies ltree dtree _ (plainText k)
      (fun x _ => Nat.le_trans (static_dl x).1 (by decide)) (fun x _ => (by decide : 5 ≤ Sink.Buf_size)) fits
    rw [dists, lits, List.map_replicate, code, List.sum_replicate, Nat.nsmul_eq_mul, Sink.size] at size
    rw [front]
    simp only [List.map_nil, List.sum_nil] at size
    omega
  intro lx inside
  rw [plainText, List.length_replicate] at inside
  have first := octets lx inside.le
  have second := octets (lx + 1) inside
  omega

/-- At level zero a static block is sent where its text is not in the window any more, which has 512 octets,
and it is longer than the length that was not computed. -/
theorem level_zero_size :
    ∃ m t f, (plainBlock 0 1200).make_trees = some (m, t) ∧
      (plainBlock 0 1200).tr_flush_block none 1200 0 =
        some f ∧
      t.kind none 1200 = .static ∧
      f.sink.size ≠ DeflateBlock.flushedSize 0 ((DeflateBlock.fresh 0 .huffman).sink.size + (t.builder.static_len_ + 3)) := by
  obtain ⟨tallied, sink, level, lit_bufsize⟩ := (DeflateBlock.fresh 0 .huffman).tallied
    (by rw [plainText, List.length_replicate]; decide : (plainText 1200).length < 2 ^ 15)
  have strategy : (plainBlock 0 1200).strategy_ = .huffman := by
    rw [plainBlock, DeflateBlock.foldl_tr_tally]
    rfl
  obtain ⟨s, filled⟩ : ∃ s, plainBlock 0 1200 = s := ⟨_, rfl⟩
  rw [plainBlock] at filled strategy ⊢
  rw [filled] at tallied sink level strategy lit_bufsize ⊢
  have level' : ¬0 < s.level_ := by
    rw [level]
    exact Nat.lt_irrefl 0
  have trees : s.make_trees = some (0, s) := by rw [DeflateBlock.make_trees, if_neg level']
  have kind : s.kind none 1200 = .static := by
    rw [DeflateBlock.kind, if_neg level', if_neg level', if_neg (by simp), if_pos (.inr rfl)]
  have fits : s.sink.bi_valid_ ≤ Sink.Buf_size := by
    rw [sink]
    exact Nat.zero_le _
  obtain ⟨size₁, fits₁⟩ := s.sink.size_send_bits (STATIC_TREES <<< 1 + 0) (by decide : 3 ≤ Sink.Buf_size) fits
  obtain ⟨sends, -⟩ := @size_compress_block ltree dtree _ (plainText 1200)
    (fun x _ => Nat.le_trans (static_dl x).1 (by decide)) (fun x _ => (by decide : 5 ≤ Sink.Buf_size)) fits₁
    s.lit_bufsize_
  obtain ⟨sent, eq, size₂, fits₂⟩ := sends (overlayOk_plainText fits₁ (by
    rw [size₁, sink, lit_bufsize]
    decide))
  obtain ⟨f, flushed, size⟩ := @DeflateBlock.tr_flush_block_sent _ _ _ 1200 _ none trees 0
    (by rw [kind, DeflateBlock.sendBlock, tallied.buffered]; exact eq) fits₂
  refine ⟨0, s, f, trees, flushed, kind, ?_⟩
  -- The code for the end of the block alone has more bits than were computed.
  have some_ : 7 ≤ dataBits ltree dtree (plainText 1200) := by
    have last : 7 ≤ symbolBits l_desc ltree END_BLOCK := by
      rw [symbolBits, ltree_dl]
      exact Nat.le_add_right 7 _
    refine Nat.le_trans (Nat.le_trans last ?_) (Nat.le_add_right _ _)
    exact List.single_le_sum (fun n _ => Nat.zero_le n) _ (List.mem_map.mpr ⟨END_BLOCK, by simp [litCodes], rfl⟩)
  rw [size, size₂, size₁, tallied.static_len, sink, DeflateBlock.flushedSize, DeflateBlock.flushedSize, if_neg (by decide),
    if_neg (by decide)]
  omega

end Beast.Zlib
