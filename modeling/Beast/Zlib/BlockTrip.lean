import Beast.Zlib.BlockData
import Beast.Zlib.BlockResults
import Beast.Zlib.InflateWriteLaws

/-! The data of a block, from the literals and matches that are sent to the text that a write comes to. -/

namespace Beast.Zlib

open Step Machine

/-! ## Numbers that fit -/

/-- A number that is sent has no more bits than it is said to have, and no more than the buffer of bits has. -/
def BitField.Sent (f : BitField) : Prop := f.1 < 2 ^ f.2 ∧ f.2 ≤ Sink.Buf_size

theorem extraField_sent {v extra : Nat} (fits : extra ≠ 0 → v < 2 ^ extra) (few : extra ≤ Sink.Buf_size) :
    ∀ f ∈ extraField v extra, BitField.Sent f := by
  intro f member
  unfold extraField at member
  split at member
  · rename_i some_
    obtain rfl := List.mem_singleton.mp member
    exact ⟨fits some_, few⟩
  · cases member

/-- What a table does with a symbol is about its code alone. -/
theorem Table.Speaks.congr {t : Table} {type : Build} {tree tree' : Tree} {x : Nat} (speaks : t.Speaks type tree x)
    (same : tree' x = tree x) : t.Speaks type tree' x := by
  obtain ⟨some_, short, fits, decode⟩ := speaks
  rw [← same] at some_ short fits decode
  exact ⟨some_, short, fits, decode⟩

theorem Table.Speaks.sent {t : Table} {type : Build} {tree : Tree} {x : Nat} (speaks : t.Speaks type tree x) :
    BitField.Sent (tree x).field :=
  ⟨speaks.fits, Nat.le_trans speaks.short (by decide)⟩

namespace Block

variable {k : Block} {ltree dtree : Tree} {tallies : List Tally}

/-- The numbers that a literal or a match is sent as can be sent. -/
theorem Spoken.sent {t : Tally} (spoken : k.Spoken ltree dtree t) : ∀ f ∈ t.fields ltree dtree, BitField.Sent f := by
  have lit := spoken.lit.sent
  intro f member
  unfold Tally.fields at member
  split at member
  · rename_i literal
    rw [Tally.litCode, if_pos literal] at lit
    obtain rfl := List.mem_singleton.mp member
    exact lit
  · rename_i match_
    rw [Tally.litCode, if_neg match_] at lit
    have far := t.near
    -- The extra bits are those behind the base of a code.
    obtain ⟨-, few, v, fits, same, -⟩ := length_code_spec t.lc.toNat_lt
    obtain ⟨-, few', fits', -⟩ := d_code_spec (by omega : t.dist - 1 < 32768)
    simp only [List.mem_cons, List.mem_append] at member
    rcases member with rfl | extra | rfl | extra
    · exact lit
    · exact extraField_sent (fun some_ => by rw [same some_]; exact fits) (Nat.le_trans few (by decide)) f extra
    · exact (spoken.dist match_).sent
    · exact extraField_sent (fun _ => fits') (Nat.le_trans few' (by decide)) f extra

/-- The numbers that the data of a block is sent as have no more bits than are sent of them. -/
theorem dataFields_fit (spoken : ∀ t ∈ tallies, k.Spoken ltree dtree t)
    (last : k.codes.lencode.Speaks .lens ltree END_BLOCK) :
    BitField.Fit (dataFields ltree dtree tallies) ∧ ∀ f ∈ dataFields ltree dtree tallies, f.2 ≤ Sink.Buf_size := by
  have all : ∀ f ∈ dataFields ltree dtree tallies, BitField.Sent f := by
    intro f member
    rw [dataFields, List.mem_append, List.mem_flatMap, List.mem_singleton] at member
    rcases member with ⟨t, among, field⟩ | rfl
    · exact (spoken t among).sent f field
    · exact last.sent
  exact ⟨fun f member => (all f member).1, fun f member => (all f member).2⟩

end Block

/-! ## Trees and tables -/

/-- The lengths of a valid tree make a table, which is valid, and which leads the codes of all symbols that were
counted to these symbols, also where there is a guard behind the tree. -/
theorem ValidTree.table_speaks {desc : StaticDesc} {start built : Builder} {type : Build} {IsLeaf : Code → Prop}
    {entries : Nat → Code} {bits : Nat} {work : Nat → Nat} (valid : ValidTree desc start built)
    (limit : desc.max_length ≤ 15) (few : desc.elems ≤ type.limit) (leaves : type.Leaves IsLeaf)
    (apart : ∀ cp, IsLeaf cp → ¬cp.IsLink) (tells : Tells type.isLink IsLeaf)
    (fits : inflate_table type built.lengths entries bits work ≠ .throws) (guard : Nat) :
    ∃ t used, inflate_table type built.lengths entries bits work = .table t used ∧ t.Valid IsLeaf ∧
      ∀ x < desc.elems, (start.tree x).fc ≠ 0 →
        t.Speaks type (built.tree.setDl (built.max_code + 1).toNat guard) x := by
  have bounded : ∀ l ∈ built.lengths, l ≤ 15 := fun l member => Nat.le_trans (valid.bounded l member) limit
  have last := valid.last
  have fewer : built.lengths.length ≤ type.limit := by
    rw [Builder.lengths, List.length_map, List.length_range]
    omega
  obtain ⟨t, used, made, decodes⟩ := valid.table_made limit fewer fits
  have table := inflate_table_valid leaves bounded fewer made
  refine ⟨t, used, made, table, fun x inside counted => ?_⟩
  obtain ⟨low, coded, -⟩ := valid.coded x inside counted
  refine (valid.speaks limit table apart tells decodes few inside coded).congr ?_
  rw [Tree.setDl, if_neg (by omega)]

/-! ## Turns -/

namespace InflateStream

variable {flush : Flush} {s : InflateStream} {b : BitString} {input : Octets} {first pos : Nat}

theorem run_onSource {α : Type} {m : SourceStep α} {a : α} {t : Source} (ran : run m s.tree.source = (.ok a, t)) :
    run (onSource m) s = (.ok a, { s with tree := { s.tree with source := t } }) := by
  rw [onSource, run_zoom, ran]

/-- A decoder between two blocks, with no error, at some place of a string of bits. -/
structure Between (s : InflateStream) (flush : Flush) (b : BitString) (input : Octets) (first pos : Nat) : Prop where
  mode : s.tree.mode_ = .TYPEDO ∨ s.tree.mode_ = .TYPE ∧ flush ≠ .block
  more : s.last_ = false
  clear : s.tree.ec = none
  on : s.tree.source.On b input first pos
  few : s.tree.source.Few

/-- Before a dynamic block it is read whether it is the last one, and of which type it is. -/
theorem turn_TYPEDO {last : Nat} (between : s.Between flush b input first pos) (whole : flush ≠ .trees)
    (flag : last < 2) (field : b.slice pos 3 = DYN_TREES <<< 1 + last) (enough : pos + 3 ≤ b.length) :
    ∃ source, turn flush s = .inl { s with
        tree := { s.tree with source, mode_ := .TABLE }
        last_ := last != 0 } ∧
      source.On b input first (pos + 3) ∧ source.Few := by
  obtain ⟨mode, more, -, on, few⟩ := between
  have here : run (doStream flush) s = run (doTYPEDO flush) s := by
    rw [doStream, run_get_bind]
    rcases mode with mode | ⟨mode, other⟩
    · rw [mode]
    · rw [mode]
      simp only
      rw [if_neg (by simp [other, whole])]
  have value : DYN_TREES <<< 1 + last = 4 + last := rfl
  rw [value] at field
  -- The lowest of the three bits tells whether this is the last block.
  have bit : b.slice pos 1 = last := by
    rw [← BitString.slice_mod (by decide : 1 ≤ 3), field]
    omega
  have type : b.slice (pos + 1) 2 = 2 := by
    rw [← BitString.slice_div (by decide : 1 ≤ 3), field]
    omega
  obtain ⟨s₁, ran₁, on₁, there⟩ := Source.run_fill (by decide : 3 ≤ 25) on
  have bits := there enough
  obtain ⟨s₂, ran₂, on₂, left⟩ := Source.run_read_left 8 on₁ (by omega : 1 ≤ s₁.bi_.n_) (by decide) (by decide)
  obtain ⟨s₃, ran₃, on₃⟩ := Source.run_read 8 on₂ (by omega : 2 ≤ s₂.bi_.n_) (by decide) (by decide)
  have few₁ := Source.few_fill _ few _ _ ran₁
  have few₂ := Source.few_read 8 _ few₁ _ _ ran₂
  rw [bit] at ran₂
  rw [type] at ran₃
  refine ⟨s₃, ?_, on₃, Source.few_read 8 _ few₂ _ _ ran₃⟩
  have needed : run (need 3) s = (.ok (), { s with tree := { s.tree with source := s₁ } }) := by
    rw [need, run_bind_ok (run_onSource ran₁), decide_eq_true enough]
    rfl
  rw [turn, here, doTYPEDO, run_get_bind, if_neg (by rw [more]; decide), run_bind_ok needed,
    run_bind_ok (run_onSource (s := { s with tree := { s.tree with source := s₁ } }) ran₂), run_modify_bind,
    run_bind_ok (run_onSource (s := { s with tree := { s.tree with source := s₂ }, last_ := last != 0 }) ran₃)]
  rfl

/-- Where the trees of a block are read, a turn comes behind them. -/
theorem turn_TABLE {w : TreeWork} (mode : s.tree.mode_ = .TABLE) (whole : flush ≠ .trees)
    (ran : run TreeWork.doTrees s.tree = (.ok (), w)) :
    turn flush s = .inl { s with tree := { w with mode_ := .LEN_ }, ec := w.ec.map .tree } := by
  have modes : run TreeWork.doModes s.tree = (.ok (), w) := by
    rw [TreeWork.doModes, run_get_bind, mode]
    exact ran
  have read : run (onTree TreeWork.doModes) s = (.ok (), { s with tree := w, ec := w.ec.map .tree }) := by
    rw [onTree, run_zoom, modes]
  rw [turn, doStream, run_get_bind, mode]
  simp only
  rw [run_bind_ok read, enter, setMode, run_modify_bind, if_neg whole]
  rfl

theorem turn_LEN_ (mode : s.tree.mode_ = .LEN_) :
    turn flush s = .inl { s with tree := { s.tree with mode_ := .LEN } } := by
  rw [turn, doStream, run_get_bind, mode]
  rfl

/-! ## Data -/

/-- What a decoder has come to behind the data of some blocks: their text, at some place of a string of bits. -/
structure Behind (s s' : InflateStream) (b : BitString) (input : Octets) (first pos : Nat) (h : Octets)
    (tallies : List Tally) : Prop where
  mode : s'.tree.mode_ = .TYPE
  ec : s'.ec = none
  clear : s'.tree.ec = none
  window : s'.w_ = s.w_
  space : s'.space = s.space
  text : h ++ s'.out = expandAll tallies (h ++ s.out)
  on : s'.tree.source.On b input first pos
  few : s'.tree.source.Few

/-- Where the tables of a write lead the codes to their symbols, the data of a block is decoded to its text. -/
theorem data_reached {k : Block} {begin_ : Source} {ltree dtree : Tree} {tallies : List Tally} {h : Octets}
    (codes : k.codes.toCodes = ⟨s.tree.lencode_, s.tree.distcode_⟩) (window : k.window = s.w_.toWindow)
    (space : k.space = s.space) (start : begin_.On k.bits input first 0) (from_ : begin_.next = first)
    (few : begin_.bi_.n_ < 8) (on : s.tree.source.On k.bits input first pos) (held : s.tree.source.Few)
    (mode : s.tree.mode_ = .LEN) (good : s.ec = none) (clear : s.tree.ec = none) (recalls : k.window.Recalls h)
    (spoken : ∀ t ∈ tallies, k.Spoken ltree dtree t) (last : k.codes.lencode.Speaks .lens ltree END_BLOCK)
    (fields : BitField.Held k.bits pos (dataFields ltree dtree tallies))
    (enough : pos + BitField.width (dataFields ltree dtree tallies) + 15 ≤ k.bits.length)
    (near : Near (s.w_.size_ + s.out.length) tallies) (room : s.out.length + textSize tallies ≤ s.space) :
    ∃ n s', iterate (turn flush) n (.inl s) = .inl s' ∧ s'.last_ = s.last_ ∧
      s.Behind s' k.bits input first (pos + BitField.width (dataFields ltree dtree tallies)) h tallies := by
  -- A decoder at the same place has what the write has.
  obtain ⟨d, decoder⟩ : ∃ d : Decoder, d = ⟨pos, .LEN, s.out, s.reads, none⟩ := ⟨_, rfl⟩
  have same : Shows k input first d s.work := by
    rw [decoder]
    exact ⟨on, by rw [Work.phase]; simp only [work, mode], rfl, rfl, rfl, space.symm, window.symm⟩
  have fine : d.Fine k := by
    rw [decoder]
    exact ⟨by dsimp only; omega, trivial⟩
  obtain ⟨e, leads, pos', phase, right, text⟩ := @Block.data_leads k ltree dtree d h tallies recalls spoken last
    (by rw [decoder]; exact fields) (by rw [decoder]; exact enough) (by rw [decoder])
    (by rw [decoder, window]; exact near) (by rw [decoder, space]; exact room)
  -- The decoder comes to the end of the block, and so does the write.
  obtain ⟨r, ended⟩ := Block.ends fine
  rw [ends_elsewhere phase (leads r ended)] at ended
  obtain ⟨n, w, reached, same', few'⟩ := @symbols_reach flush s input first k d e s.work begin_ codes window start from_
    few ended fine same (by rw [decoder]) held
  rw [worked_work good] at reached
  refine ⟨n, s.worked w, reached, rfl, ⟨?_, ?_, clear, rfl, ?_, ?_, ?_, few'⟩⟩
  · change w.mode_ = .TYPE
    rw [← w.phase_mode, same'.phase, phase, Phase.mode]
  · change w.ec.map StreamError.data = none
    rw [same'.ec, right, decoder]
    rfl
  · exact same'.space.trans space
  · change h ++ w.out = _
    rw [same'.out, text, decoder]
  · have there := same'.source
    rw [pos', decoder] at there
    exact there

end InflateStream

/-! ## The round trip -/

/-- Codes lead what the literals and matches of a block are sent as to the symbols. -/
structure Reads (c : ValidCodes) (ltree dtree : Tree) (tallies : List Tally) : Prop where
  lit : ∀ x ∈ litCodes tallies, c.lencode.Speaks .lens ltree x
  dist : ∀ x ∈ distCodes tallies, c.distcode.Speaks .dists dtree x

theorem Reads.spoken {k : Block} {ltree dtree : Tree} {tallies : List Tally}
    (reads : Reads k.codes ltree dtree tallies) :
    (∀ t ∈ tallies, k.Spoken ltree dtree t) ∧ k.codes.lencode.Speaks .lens ltree END_BLOCK := by
  refine ⟨fun t among => ⟨?_, fun match_ => ?_⟩, ?_⟩
  · exact reads.lit _ (List.mem_append_left _ (List.mem_map.mpr ⟨t, among, rfl⟩))
  · refine reads.dist _ (List.mem_flatMap.mpr ⟨t, among, ?_⟩)
    rw [Tally.distCodes, if_neg match_]
    exact List.mem_cons_self
  · exact reads.lit _ (List.mem_append_right _ List.mem_cons_self)

namespace DeflateBlock

/-- A block with trees can be read: its tables are those of the codes that its literals and matches are sent with. -/
structure Legible (t : DeflateBlock) (m : Nat) (tallies : List Tally) : Prop where
  ready : t.Ready m
  buffered : t.tallies = tallies
  tables : ∀ entries work, ∃ (c : ValidCodes) (used used' : Nat),
    inflate_table .lens t.litLens entries 9 work = .table c.lencode used ∧
    inflate_table .dists t.distLens entries 6 work = .table c.distcode used' ∧
    Reads c t.dyn_ltree_ t.dyn_dtree_ tallies

/-- The trees that are made for literals and matches make a block that can be read. -/
theorem make_trees_legible {b t : DeflateBlock} {tallies : List Tally} {m : Nat} (tallied : b.Tallied tallies)
    (level : 0 < b.level_) (made : b.make_trees = some (m, t)) :
    t.Legible m tallies ∧ t.sink = b.sink ∧ t.level_ = b.level_ := by
  obtain ⟨b₁, b₂, m', t', same, valid₁, valid₂, builds⟩ := make_trees_builds tallied level
  rw [made] at same
  cases same
  -- The guards are behind the lengths, so the lengths are those of the trees that were built.
  have l_max_code : t.l_max_code = b₁.max_code := by rw [builds.others]
  have d_max_code : t.d_max_code = b₂.max_code := by rw [builds.others]
  have lens : t.litLens = b₁.lengths := by
    rw [litLens, l_max_code, builds.ltree, lensFrom_guard, lensFrom, Builder.lengths, List.range_eq_range']
  have dists : t.distLens = b₂.lengths := by
    rw [distLens, d_max_code, builds.dtree, lensFrom_guard, lensFrom, Builder.lengths, List.range_eq_range']
  refine ⟨⟨builds.ready, ?_, fun entries work => ?_⟩, by rw [builds.others], by rw [builds.others]⟩
  · rw [builds.others]
    exact tallied.buffered
  · have last₁ : b₁.max_code < (286 : Nat) := valid₁.last
    have last₂ : b₂.max_code < (30 : Nat) := valid₂.last
    obtain ⟨fits₁, -⟩ := @lens_table_fits b₁.lengths valid₁.bounded
      (by rw [Builder.lengths, List.length_map, List.length_range]; omega) entries work
    obtain ⟨fits₂, -⟩ := @dists_table_fits b₂.lengths valid₂.bounded
      (by rw [Builder.lengths, List.length_map, List.length_range]; omega) entries work
    obtain ⟨t₁, used, made₁, table₁, speaks₁⟩ := valid₁.table_speaks (Nat.le_refl 15) (by decide) lens_leaves
      (fun _ => Code.LenLeaf.not_link) tells_lenLink fits₁ 0xffff
    obtain ⟨t₂, used', made₂, table₂, speaks₂⟩ := valid₂.table_speaks (Nat.le_refl 15) (by decide) dists_leaves
      (fun _ => Code.DistLeaf.not_link) tells_distLink fits₂ 0xffff
    refine ⟨⟨⟨t₁, t₂⟩, table₁, table₂⟩, used, used', by rw [lens]; exact made₁, by rw [dists]; exact made₂, ?_, ?_⟩
    · intro x member
      have inside := litCodes_lt tallies x member
      have counted : 0 < (litCodes tallies).countP fun y => y = x := List.countP_pos_iff.mpr ⟨x, member, by simp⟩
      rw [builds.ltree]
      exact speaks₁ x inside (by dsimp only; rw [tallied.lit x inside]; exact counted.ne')
    · intro x member
      have inside := distCodes_lt tallies x member
      have counted : 0 < (distCodes tallies).countP fun y => y = x := List.countP_pos_iff.mpr ⟨x, member, by simp⟩
      rw [builds.dtree]
      exact speaks₂ x inside (by dsimp only; rw [tallied.dist x inside]; exact counted.ne')

/-- What a dynamic block is sent as: its type with whether it is the last one, its header and its data. -/
def dynamicFields (t : DeflateBlock) (m last : Nat) : List BitField :=
  (DYN_TREES <<< 1 + last, 3) :: (t.headerFields m ++ dataFields t.dyn_ltree_ t.dyn_dtree_ t.tallies)

/-- A dynamic block is sent as its numbers, one after another. -/
theorem sendBlock_dynamic {t : DeflateBlock} {m last : Nat} {data : Octets} {sink : Sink} (ready : t.Ready m)
    (sent : t.sendBlock m last data .dynamic = some sink) : sink = t.sink.send (t.dynamicFields m last) := by
  rw [sendBlock, ready.send_all_trees] at sent
  rw [compress_block_sent sent, dynamicFields, Sink.send_cons, Sink.send_append]

/-- The numbers of a dynamic block have no more bits than are sent of them. -/
theorem Legible.fit {t : DeflateBlock} {m last : Nat} {tallies : List Tally} (legible : t.Legible m tallies)
    (flag : last < 2) :
    BitField.Fit (t.dynamicFields m last) ∧ ∀ f ∈ t.dynamicFields m last, f.2 ≤ Sink.Buf_size := by
  obtain ⟨header_fit, header_few⟩ := legible.ready.fit
  -- The tables are the same whatever was in the places for entries before.
  obtain ⟨c, -, -, -, -, reads⟩ := legible.tables (fun _ => ⟨0, 0, 0⟩) fun _ => 0
  obtain ⟨spoken, eob⟩ := @Reads.spoken ⟨c, ⟨0, 0⟩, HistoryWindow.init.toWindow, 0⟩ _ _ _ reads
  obtain ⟨data_fit, data_few⟩ := Block.dataFields_fit spoken eob
  have all : ∀ f ∈ t.dynamicFields m last, BitField.Sent f := by
    intro f member
    rw [dynamicFields, List.mem_cons, List.mem_append, legible.buffered] at member
    rcases member with rfl | header | data
    · refine ⟨?_, (by decide : 3 ≤ Sink.Buf_size)⟩
      change 4 + last < 8
      omega
    · exact ⟨header_fit f header, header_few f header⟩
    · exact ⟨data_fit f data, data_few f data⟩
  exact ⟨fun f member => (all f member).1, fun f member => (all f member).2⟩

end DeflateBlock

/-- Both tables are made, one behind the other. -/
theorem TreeWork.run_makeTables {w : TreeWork} {t₁ t₂ : Table} {used used' : Nat}
    (lens : inflate_table .lens (w.lensOf 0 w.nlen_) w.codes_ 9 w.work_ = .table t₁ used)
    (dists : inflate_table .dists (w.lensOf w.nlen_ w.ndist_) w.codes_ 6 w.work_ = .table t₂ used') :
    run makeTables w = (.ok (), { w with lencode_ := t₁, distcode_ := t₂, mode_ := .LEN_ }) := by
  have first : run (makeTable .lens (w.lensOf 0 w.nlen_) 9 .returns) w = (.ok t₁, w) := by
    rw [makeTable, run_get_bind, lens]
    rfl
  have second : run (makeTable .dists (w.lensOf w.nlen_ w.ndist_) 6 .returns) { w with lencode_ := t₁ } =
      (.ok t₂, { w with lencode_ := t₁ }) := by
    rw [makeTable, run_get_bind]
    dsimp only
    rw [dists]
    rfl
  rw [makeTables, run_get_bind, run_get_bind, run_bind_ok first, run_modify_bind, run_get_bind, run_get_bind,
    run_get_bind]
  exact run_bind_ok second

/-- A decoder between two blocks reads a dynamic block. -/
theorem DeflateBlock.Legible.read {flush : Flush} {t : DeflateBlock} {tallies : List Tally} {m last first pos : Nat}
    {begin_ : Source} {b : BitString} {input h : Octets} {s : InflateStream} (legible : t.Legible m tallies)
    (flag : last < 2) (whole : flush ≠ .trees) (start : begin_.On b input first 0) (from_ : begin_.next = first)
    (part : begin_.bi_.n_ < 8) (between : s.Between flush b input first pos)
    (held : BitField.Held b pos (t.dynamicFields m last))
    (enough : pos + BitField.width (t.dynamicFields m last) + 15 ≤ b.length) (recalls : s.w_.toWindow.Recalls h)
    (near : Near (s.w_.size_ + s.out.length) tallies) (room : s.out.length + textSize tallies ≤ s.space) :
    ∃ n s', iterate (InflateStream.turn flush) n (.inl s) = .inl s' ∧ s'.last_ = (last != 0) ∧
      s.Behind s' b input first (pos + BitField.width (t.dynamicFields m last)) h tallies := by
  obtain ⟨ready, buffered, tables⟩ := legible
  obtain ⟨header, header_fields⟩ : ∃ header, t.headerFields m = header := ⟨_, rfl⟩
  obtain ⟨fields, data_fields⟩ : ∃ fields, dataFields t.dyn_ltree_ t.dyn_dtree_ tallies = fields := ⟨_, rfl⟩
  have all : t.dynamicFields m last = (DYN_TREES <<< 1 + last, 3) :: (header ++ fields) := by
    rw [DeflateBlock.dynamicFields, buffered, header_fields, data_fields]
  rw [all] at held enough ⊢
  simp only [BitField.width_cons, BitField.width_append] at enough ⊢
  obtain ⟨type, behind⟩ := held
  obtain ⟨header_held, data_held⟩ := BitField.held_append.mp behind
  -- The type is read.
  obtain ⟨source, turn₁, on₁, few₁⟩ := InflateStream.turn_TYPEDO between whole flag type (by omega)
  -- The trees are read, and their tables are made.
  obtain ⟨w, ran, read, on₂⟩ := ready.run_doTrees (w := { s.tree with source, mode_ := .TABLE }) on₁
    (by rw [header_fields]; exact header_held) (by rw [header_fields]; omega)
  obtain ⟨c, used, used', lens, dists, reads⟩ := tables w.codes_ w.work_
  rw [← read.lit] at lens
  rw [← read.dist] at dists
  rw [TreeWork.run_makeTables lens dists] at ran
  obtain ⟨few₂, clear₂⟩ :=
    TreeWork.calm_doTrees { s.tree with source, mode_ := .TABLE } ⟨few₁, between.clear⟩ _ _ ran
  rw [header_fields] at on₂
  have turn₂ := @InflateStream.turn_TABLE flush
    { s with tree := { s.tree with source, mode_ := .TABLE }, last_ := last != 0 } _ rfl whole ran
  obtain ⟨s₂, state₂⟩ : ∃ s₂ : InflateStream, { s with
      tree := { w with lencode_ := c.lencode, distcode_ := c.distcode, mode_ := .LEN_ }
      last_ := last != 0
      ec := w.ec.map .tree } = s₂ := ⟨_, rfl⟩
  obtain ⟨s₃, state₃⟩ : ∃ s₃ : InflateStream, { s₂ with tree := { s₂.tree with mode_ := .LEN } } = s₃ := ⟨_, rfl⟩
  have turn₃ := @InflateStream.turn_LEN_ flush s₂ (by rw [← state₂])
  rw [state₃] at turn₃
  -- The data is decoded with these tables.
  obtain ⟨k, block⟩ : ∃ k : Block, k = ⟨c, b, s.w_.toWindow, s.space⟩ := ⟨_, rfl⟩
  have reads' : Reads k.codes t.dyn_ltree_ t.dyn_dtree_ tallies := by
    rw [block]
    exact reads
  obtain ⟨spoken, eob⟩ := reads'.spoken
  obtain ⟨n, s', reached, last', behind'⟩ := @InflateStream.data_reached flush s₃ input first
    (pos + 3 + BitField.width header) k begin_ t.dyn_ltree_ t.dyn_dtree_ tallies h
    (by rw [block, ← state₃, ← state₂]) (by rw [block, ← state₃, ← state₂]) (by rw [block, ← state₃, ← state₂])
    (by rw [block]; exact start) from_ part (by rw [block, ← state₃, ← state₂]; exact on₂)
    (by rw [← state₃, ← state₂]; exact few₂) (by rw [← state₃]) (by
      rw [← state₃, ← state₂]
      exact congrArg (Option.map StreamError.tree) clear₂)
    (by rw [← state₃, ← state₂]; exact clear₂)
    (by rw [block]; exact recalls) spoken eob (by rw [block, data_fields]; exact data_held)
    (by rw [block, data_fields]; dsimp only; omega) (by rw [← state₃, ← state₂]; exact near)
    (by rw [← state₃, ← state₂]; exact room)
  refine ⟨n + 3, s', ?_, ?_, ?_⟩
  · rw [iterate, turn₁, iterate, turn₂]
    dsimp only
    rw [state₂, iterate, turn₃, reached]
  · rw [last', ← state₃, ← state₂]
  · obtain ⟨mode', ec', clear', window', space', text', on', few'⟩ := behind'
    rw [← state₃, ← state₂] at window' space' text'
    rw [block, data_fields, Nat.add_assoc, Nat.add_assoc] at on'
    exact ⟨mode', ec', clear', window', space', text', on', few'⟩

/--
A dynamic block is read back as the text that its literals and matches stand for.

The block is sent with the trees that are made for its literals and matches. A decoder before the block, at bits that
begin with what was sent, comes to the mode behind the block, with the text behind its output and at the first bit
behind the block. Up to 15 more bits are looked at, and no match reaches further back than the window.
-/
theorem dynamic_block_round_trip {flush : Flush} {b t : DeflateBlock} {tallies : List Tally} {m last bits : Nat}
    {data h : Octets} {sink : Sink} {s : InflateStream} (few : tallies.length < 2 ^ 15) (level : 0 < b.level_)
    (sound : b.sink.Sound) (flag : last < 2)
    (made : (tallies.foldl DeflateBlock.tr_tally b.init_block).make_trees = some (m, t))
    (sent : t.sendBlock m last data .dynamic = some sink) (whole : flush ≠ .trees) (mode : s.tree.mode_ = .TYPEDO)
    (more : s.last_ = false) (clear : s.tree.ec = none) (part : s.tree.source.bi_.n_ < 8)
    (inside : s.tree.source.next ≤ s.tree.source.input.length) (since : Sink.Since b.sink sink s.tree.source.bits)
    (enough : sink.size - b.sink.size + 15 ≤ s.tree.source.bits.length) (keeps : s.w_.Keeps bits h)
    (near : Near (s.w_.size_ + s.out.length) tallies) (room : s.out.length + textSize tallies ≤ s.space) :
    ∃ n s', iterate (InflateStream.turn flush) n (.inl s) = .inl s' ∧ s'.tree.mode_ = .TYPE ∧
      s'.last_ = (last != 0) ∧ s'.ec = none ∧ h ++ s'.out = expandAll tallies (h ++ s.out) ∧
      s'.tree.source.On s.tree.source.bits s.tree.source.input s.tree.source.next (sink.size - b.sink.size) := by
  obtain ⟨tallied, own_sink, own_level, -⟩ := b.tallied few
  obtain ⟨legible, same_sink, -⟩ := DeflateBlock.make_trees_legible tallied (by rw [own_level]; exact level) made
  obtain ⟨fit, small⟩ := legible.fit flag
  rw [DeflateBlock.sendBlock_dynamic legible.ready sent, same_sink, own_sink] at since enough ⊢
  obtain ⟨-, size, -⟩ := sound.send fit small
  have held := sound.held fit small since (by omega)
  have start := Source.on_bits inside
  rw [size, Nat.add_sub_cancel_left] at enough ⊢
  obtain ⟨n, s', reached, last', behind⟩ := legible.read flag whole start rfl part
    ⟨.inl mode, more, clear, start, Nat.le_trans part.le (by decide)⟩ held (by omega) keeps.recalls near room
  have on := behind.on
  rw [Nat.zero_add] at on
  exact ⟨n, s', reached, behind.mode, last', behind.ec, behind.text, on⟩

/-! ## Blocks one behind another -/

theorem expandAll_append (ts us : List Tally) (text : Octets) :
    expandAll (ts ++ us) text = expandAll us (expandAll ts text) :=
  List.foldl_append

theorem textSize_append (ts us : List Tally) : textSize (ts ++ us) = textSize ts + textSize us := by
  unfold textSize
  rw [List.map_append, List.sum_append]

theorem near_append {room : Nat} {ts us : List Tally} :
    Near room (ts ++ us) ↔ Near room ts ∧ Near (room + textSize ts) us := by
  induction ts generalizing room with
  | nil => simp [Near, textSize]
  | cons t ts ih =>
    rw [List.cons_append, Near, Near, ih, textSize, textSize, List.map_cons, List.sum_cons, Nat.add_assoc, and_assoc]

namespace DeflateBlock

/-- A dynamic block is sent, behind which others come, and the next one is begun. -/
def Flushes (b : DeflateBlock) (tallies : List Tally) (b' : DeflateBlock) : Prop :=
  tallies.length < 2 ^ 15 ∧ ∃ m t data sink, (tallies.foldl tr_tally b.init_block).make_trees = some (m, t) ∧
    t.sendBlock m 0 data .dynamic = some sink ∧ b' = { t with sink }.init_block

/-- Dynamic blocks are sent one behind another. -/
def FlushesAll : DeflateBlock → List (List Tally) → DeflateBlock → Prop
  | b, [], b' => b' = b
  | b, tallies :: rest, b' => ∃ b₁, Flushes b tallies b₁ ∧ FlushesAll b₁ rest b'

variable {b b' t : DeflateBlock} {tallies : List Tally} {m : Nat}

/-- This is what is done with a block for which dynamic trees are the best encoding. -/
theorem flushes_of_tr_flush_block {buf : Option Octets} {stored_len : Nat} (few : tallies.length < 2 ^ 15)
    (made : (tallies.foldl tr_tally b.init_block).make_trees = some (m, t)) (best : t.kind buf stored_len = .dynamic)
    (flushed : (tallies.foldl tr_tally b.init_block).tr_flush_block buf stored_len 0 = some b') :
    b.Flushes tallies b' := by
  rw [tr_flush_block, made] at flushed
  dsimp only [bind, Option.bind] at flushed
  rw [best] at flushed
  cases sent : t.sendBlock m 0 (buf.getD []) .dynamic with
  | none =>
    rw [sent] at flushed
    cases flushed
  | some sink =>
    rw [sent] at flushed
    cases flushed
    exact ⟨few, m, t, _, sink, made, sent, rfl⟩

/-- A block that is sent can be read, and its numbers are behind what was sent before. -/
theorem Flushes.legible (flushes : b.Flushes tallies b') (level : 0 < b.level_) :
    ∃ t m, Legible t m tallies ∧ b'.sink = b.sink.send (t.dynamicFields m 0) ∧ 0 < b'.level_ := by
  obtain ⟨few, m, t, data, sink, made, sent, rfl⟩ := flushes
  obtain ⟨tallied, own_sink, own_level, -⟩ := b.tallied few
  obtain ⟨legible, same_sink, same_level⟩ := make_trees_legible tallied (by rw [own_level]; exact level) made
  refine ⟨t, m, legible, ?_, ?_⟩
  · rw [← own_sink, ← same_sink]
    exact sendBlock_dynamic legible.ready sent
  · change 0 < t.level_
    rw [same_level, own_level]
    exact level

/-- A decoder between two blocks reads all blocks that come, to the first bit behind the last of them. -/
theorem FlushesAll.read {flush : Flush} {blocks : List (List Tally)} {begin_ : Source} {bits : BitString}
    {input h : Octets} {first : Nat} (flushed : FlushesAll b blocks b') (level : 0 < b.level_)
    (through : flush ≠ .block ∧ flush ≠ .trees) (start : begin_.On bits input first 0) (from_ : begin_.next = first)
    (part : begin_.bi_.n_ < 8) :
    ∃ fs, b'.sink = b.sink.send fs ∧ BitField.Fit fs ∧ (∀ f ∈ fs, f.2 ≤ Sink.Buf_size) ∧
      ∀ (s : InflateStream) (pos : Nat), s.Between flush bits input first pos → s.ec = none →
        BitField.Held bits pos fs → pos + BitField.width fs + 15 ≤ bits.length → s.w_.toWindow.Recalls h →
        Near (s.w_.size_ + s.out.length) blocks.flatten → s.out.length + textSize blocks.flatten ≤ s.space →
          ∃ n s', iterate (InflateStream.turn flush) n (.inl s) = .inl s' ∧
            s'.Between flush bits input first (pos + BitField.width fs) ∧ s'.ec = none ∧
            h ++ s'.out = expandAll blocks.flatten (h ++ s.out) := by
  -- The induction is on the blocks, of which the first one is read.
  induction blocks generalizing b with
  | nil =>
    cases flushed
    refine ⟨[], rfl, nofun, nofun, fun s pos between clear _ _ _ _ _ => ⟨0, s, rfl, between, clear, rfl⟩⟩
  | cons tallies rest ih =>
    obtain ⟨b₁, flushes, later⟩ := flushed
    obtain ⟨t, m, legible, sink₁, level₁⟩ := flushes.legible level
    obtain ⟨fs, sink₂, fit₂, few₂, reads⟩ := ih later level₁
    obtain ⟨fit₁, few₁⟩ := legible.fit (by decide : 0 < 2)
    refine ⟨t.dynamicFields m 0 ++ fs, ?_, BitField.fit_append.mpr ⟨fit₁, fit₂⟩, ?_, ?_⟩
    · rw [sink₂, sink₁, Sink.send_append]
    · intro f member
      rcases List.mem_append.mp member with here | there
      · exact few₁ f here
      · exact few₂ f there
    · intro s pos between clear held enough recalls near room
      obtain ⟨held₁, held₂⟩ := BitField.held_append.mp held
      rw [BitField.width_append] at enough ⊢
      rw [List.flatten_cons] at near room ⊢
      obtain ⟨near₁, near₂⟩ := near_append.mp near
      rw [textSize_append] at room
      obtain ⟨n₁, s₁, reached₁, last₁, behind⟩ := legible.read (by decide : 0 < 2) through.2 start from_ part between
        held₁ (by omega) recalls near₁ (by omega)
      have longer : s₁.out.length = s.out.length + textSize tallies := by
        have lengths := congrArg List.length behind.text
        rw [length_expandAll, List.length_append, List.length_append] at lengths
        omega
      obtain ⟨n₂, s₂, reached₂, between₂, clear₂, text₂⟩ := reads s₁ (pos + BitField.width (t.dynamicFields m 0))
        ⟨.inr ⟨behind.mode, through.1⟩, last₁, behind.clear, behind.on, behind.few⟩ behind.ec held₂ (by omega)
        (by rw [behind.window]; exact recalls) (by rw [behind.window, longer, ← Nat.add_assoc]; exact near₂)
        (by rw [longer, behind.space]; omega)
      rw [Nat.add_assoc] at between₂
      refine ⟨n₁ + n₂, s₂, ?_, between₂, clear₂, ?_⟩
      · rw [iterate_add, reached₁, reached₂]
      · rw [text₂, behind.text, expandAll_append]

end DeflateBlock

/-- Octets that end with what a sink holds, and any others behind them, begin with all that was sent. -/
theorem Sink.Sound.since_windup {sink : Sink} (sound : sink.Sound) (rest : Octets) :
    Sink.Since ⟨[], 0, 0⟩ sink (BitString.ahead 0 0 (sink.bi_windup.pending_buf_ ++ rest)) := by
  have clean := sound.clean
  have fits := sound.fits
  rw [Sink.Buf_size] at fits
  -- What is left in the buffer of bits is put behind the octets before it.
  have octets : BitString.ofOctets sink.bi_windup.pending_buf_ = sink.value := by
    rw [Sink.bi_windup, Sink.value]
    dsimp only
    split
    · have small : sink.bi_buf_ < 2 ^ 16 := Nat.lt_of_lt_of_le clean (Nat.pow_le_pow_right (by decide) fits)
      exact (sink.put_short_octets small).2
    · split
      · have small : sink.bi_buf_ < 2 ^ 8 := Nat.lt_of_lt_of_le clean (Nat.pow_le_pow_right (by decide) (by omega))
        rw [Sink.put_byte, Sink.ofOctets_append, BitString.ofOctets_cons, BitString.ofOctets_nil, Nat.mul_zero,
          Nat.add_zero, UInt8.toNat_ofNat', Nat.mod_eq_of_lt small]
      · have none : sink.bi_valid_ = 0 := by omega
        rw [none] at clean
        rw [(by omega : sink.bi_buf_ = 0), Nat.mul_zero, Nat.add_zero]
  -- The octets have no fewer bits than were sent.
  have aligned : 8 * sink.bi_windup.pending_buf_.length = (sink.size + 7) / 8 * 8 := by
    have size := Sink.size_bi_windup (s := sink) (by rw [Sink.Buf_size]; exact fits)
    exact size
  obtain ⟨more, length⟩ : ∃ more, 8 * sink.bi_windup.pending_buf_.length = sink.size + more :=
    ⟨8 * sink.bi_windup.pending_buf_.length - sink.size, by omega⟩
  have nothing : (⟨[], 0, 0⟩ : Sink).size = 0 := rfl
  rw [Sink.Since, nothing, BitString.slice, BitString.ahead, Sink.ofOctets_append, octets, length, Nat.pow_add]
  simp only [Nat.sub_zero, Nat.pow_zero, Nat.div_one, Nat.zero_add, Nat.one_mul]
  rw [Nat.mul_assoc, Nat.add_mul_mod_self_left, Nat.mod_eq_of_lt sound.value_lt]

/-- A decoder before a block, with some input, and with an empty window of the largest size. -/
def InflateStream.before (input : Octets) (space : Nat) : InflateStream where
  tree :=
    { source := ⟨.empty, input, 0⟩
      mode_ := .TYPEDO
      ec := .none
      nlen_ := 0
      ndist_ := 0
      ncode_ := 0
      have_ := 0
      lens_ := fun _ => 0
      codes_ := fun _ => ⟨0, 0, 0⟩
      work_ := fun _ => 0
      lencode_ := ⟨fun _ => ⟨0, 0, 0⟩, 0⟩
      distcode_ := ⟨fun _ => ⟨0, 0, 0⟩, 0⟩ }
  last_ := false
  w_ := HistoryWindow.init.reset 15
  fresh := fun _ => 0
  length_ := 0
  offset_ := 0
  extra_ := 0
  out := []
  space
  ec := .none
  reads := []

/-- A literal is sent as a dynamic block, whose header and whose codes are short against the buffers. -/
theorem literal_sent {b : DeflateBlock} {last : Nat} (level : 0 < b.level_) (bufsize : b.lit_bufsize_ = 2 ^ 15)
    (sound : b.sink.Sound) (short : b.sink.size ≤ 2 ^ 14) (flag : last < 2) :
    ∃ m t sink, ((plainText 1).foldl DeflateBlock.tr_tally b.init_block).make_trees = some (m, t) ∧
      t.sendBlock m last [] .dynamic = some sink ∧ sink.Sound ∧ sink.size ≤ b.sink.size + 2 ^ 13 + 35 ∧
      t.level_ = b.level_ ∧ t.lit_bufsize_ = b.lit_bufsize_ := by
  have few : (plainText 1).length < 2 ^ 15 := by decide
  obtain ⟨tallied, own_sink, own_level, own_bufsize⟩ := b.tallied few
  obtain ⟨m, t, made, trees⟩ := DeflateBlock.make_trees_spec tallied few (by rw [own_level]; exact level)
  obtain ⟨legible, -, same_level⟩ := DeflateBlock.make_trees_legible tallied (by rw [own_level]; exact level) made
  have start : t.sink = b.sink := trees.sink.trans own_sink
  have same_bufsize : t.lit_bufsize_ = b.lit_bufsize_ := trees.lit_bufsize.trans own_bufsize
  have before : t.sink.size ≤ 2 ^ 14 := by rw [start]; exact short
  have header := trees.ready.width_le
  have lit : (t.dyn_ltree_ 0x61).dl ≤ 16 := trees.lit 0x61 List.mem_cons_self
  have eob : (t.dyn_ltree_ END_BLOCK).dl ≤ 16 := trees.lit END_BLOCK (List.mem_cons_of_mem _ List.mem_cons_self)
  obtain ⟨size₁, fits₁⟩ := t.sink.size_send_bits (DYN_TREES <<< 1 + last) (by decide : 3 ≤ Sink.Buf_size)
    (by rw [start]; exact sound.fits)
  obtain ⟨size₂, fits₂⟩ := Sink.size_send trees.ready.fit.2 fits₁
  -- The buffers are far behind what is sent of one literal.
  have overlay : OverlayOk t.lit_bufsize_ t.dyn_ltree_ t.dyn_dtree_ (plainText 1)
      ((t.sink.send_bits (DYN_TREES <<< 1 + last) 3).send (t.headerFields m)) := by
    obtain ⟨size₃, -⟩ := @size_send_tally t.dyn_ltree_ t.dyn_dtree_ _ ⟨0, 0x61, by decide⟩
      (trees.lit 0x61 List.mem_cons_self) nofun fits₂
    have code : symbolBits l_desc t.dyn_ltree_ (Tally.litCode ⟨0, 0x61, by decide⟩) ≤ 16 := by
      change symbolBits l_desc t.dyn_ltree_ 0x61 ≤ 16
      rw [symbolBits, xbits_literal (by decide), Nat.add_zero]
      exact lit
    intro lx inside
    obtain rfl : lx = 0 := by
      change lx < 1 at inside
      omega
    simp only [Sink.size] at size₁ size₂ size₃ before
    rw [same_bufsize, bufsize]
    change _ ≤ 2 ^ 15 + 2 * 0 ∧ (send_tally t.dyn_ltree_ t.dyn_dtree_ _ ⟨0, 0x61, by decide⟩).pending_buf_.length < _
    simp only [List.take_zero, List.foldl_nil, Tally.distCodes, if_true, List.map_nil, List.sum_nil] at size₃ ⊢
    omega
  obtain ⟨sink, compressed, -⟩ := (size_compress_block trees.lit trees.dist fits₂ t.lit_bufsize_).1 overlay
  have sent : t.sendBlock m last [] .dynamic = some sink := by
    rw [DeflateBlock.sendBlock, trees.ready.send_all_trees, trees.buffered]
    exact compressed
  obtain ⟨fit, small⟩ := legible.fit flag
  obtain ⟨sound', size, -⟩ := sound.send fit small
  rw [← start, ← DeflateBlock.sendBlock_dynamic legible.ready sent] at sound' size
  refine ⟨m, t, sink, made, sent, sound', ?_, same_level.trans own_level, same_bufsize⟩
  have data : BitField.width (dataFields t.dyn_ltree_ t.dyn_dtree_ (plainText 1)) =
      (t.dyn_ltree_ 0x61).dl + ((t.dyn_ltree_ END_BLOCK).dl + 0) := rfl
  rw [size, start, DeflateBlock.dynamicFields, legible.buffered, BitField.width_cons, BitField.width_append, data]
  dsimp only
  omega

/-- There are enough bits in the octets of a sink with two more behind them. -/
theorem Sink.Sound.enough {sink : Sink} (sound : sink.Sound) :
    sink.size + 15 ≤ 0 + 8 * (sink.bi_windup.pending_buf_ ++ [0, 0]).length := by
  have length : 8 * sink.bi_windup.pending_buf_.length = _ := Sink.size_bi_windup sound.fits
  rw [List.length_append, List.length_cons, List.length_cons, List.length_nil]
  omega

/-- A literal that is sent as the last block of a stream, and what is read from that. -/
theorem dynamic_block_round_trip_literal :
    ∃ m t sink, (plainBlock 6 1).make_trees = some (m, t) ∧ t.sendBlock m 1 [] .dynamic = some sink ∧
      ∃ n s', iterate (InflateStream.turn .sync) n
          (.inl (InflateStream.before (sink.bi_windup.pending_buf_ ++ [0, 0]) 1)) = .inl s' ∧
        s'.tree.mode_ = .TYPE ∧ s'.last_ = true ∧ s'.out = [0x61] := by
  have sound : (DeflateBlock.fresh 6 .huffman).sink.Sound := ⟨by decide, by decide⟩
  obtain ⟨m, t, sink, made, sent, sound', -⟩ :=
    @literal_sent (.fresh 6 .huffman) 1 (by decide) rfl sound (by decide) (by decide)
  refine ⟨m, t, sink, made, sent, ?_⟩
  obtain ⟨n, s', reached, mode, last, -, text, -⟩ := @dynamic_block_round_trip .sync _ t _ m 1 15 [] [] sink
    (InflateStream.before (sink.bi_windup.pending_buf_ ++ [0, 0]) 1) (by decide) (by decide) sound (by decide) made sent
    (by decide) rfl rfl rfl (Nat.zero_lt_succ 7) (Nat.zero_le _) (sound'.since_windup [0, 0]) sound'.enough
    (HistoryWindow.Made.reset (w := .init) (fun valid => absurd valid.1 (by decide)) (by decide)).1
    ⟨Nat.zero_le _, trivial⟩ (Nat.le_refl 1)
  exact ⟨n, s', reached, mode, last, text⟩

end Beast.Zlib
