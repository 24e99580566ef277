import Beast.Zlib.BitstreamLaws
import Beast.Zlib.RunLaws
import Beast.Zlib.TreeModes
import Beast.Zlib.TreeResults

/-! The decoder reads the trees of a dynamic block from the bits that they were sent as. -/

namespace Beast.Zlib

open Step BitReversal CanonicalCode

namespace TreeWork

variable {b : BitString} {input : Octets} {first pos n v : Nat} {w : TreeWork}
  {fs : List BitField}

/-! ## Single numbers -/

/-- There are so many bits, where the string has them. -/
theorem run_need (small : n ≤ 25) (on : Source.On b input first pos w.source) (enough : pos + n ≤ b.length) :
    ∃ source, run (need n) w = (.ok (), { w with source }) ∧
      Source.On b input first pos source ∧ n ≤ source.bi_.n_ := by
  obtain ⟨source, ran, on', left⟩ := Source.run_fill small on
  rw [decide_eq_true enough] at ran
  refine ⟨source, ?_, on', left enough⟩
  rw [need, onSource, run_bind, run_zoom, ran]
  rfl

theorem run_onSource {α : Type} {m : SourceStep α} {a : α} {source : Source}
    (ran : run m w.source = (.ok a, source)) : run (onSource m) w = (.ok a, { w with source }) := by
  rw [onSource, run_zoom, ran]

/-- A number is read that is in the reservoir. -/
theorem run_number (width : Nat) (on : Source.On b input first pos w.source)
    (held : BitField.Held b pos ((v, n) :: fs)) (le : n ≤ w.source.bi_.n_) (fits : n ≤ width)
    (small : n < 32) :
    ∃ source, run (onSource (Source.read width n)) w = (.ok v, { w with source }) ∧
      Source.On b input first (pos + n) source ∧ source.bi_.n_ = w.source.bi_.n_ - n := by
  obtain ⟨source, ran, on', left⟩ := Source.run_read_left width on le fits small
  rw [held.1] at ran
  exact ⟨source, run_onSource ran, on', left⟩

/-- Bits of the reservoir are discarded. -/
theorem run_discard (on : Source.On b input first pos w.source) (le : n ≤ w.source.bi_.n_) :
    ∃ source, run (onSource (Source.drop n)) w = (.ok (), { w with source }) ∧
      Source.On b input first (pos + n) source ∧ source.bi_.n_ = w.source.bi_.n_ - n := by
  obtain ⟨source, ran, on', left⟩ := Source.run_drop on le
  exact ⟨source, run_onSource ran, on', left⟩

/-! ## The counts -/

/-- The three counts are read. -/
theorem run_doTABLE (on : Source.On b input first pos w.source) {lcodes dcodes blcodes : Nat}
    (held : BitField.Held b pos ((lcodes - 257, 5) :: (dcodes - 1, 5) :: (blcodes - 4, 4) :: fs))
    (some_ : 257 ≤ lcodes ∧ 1 ≤ dcodes ∧ 4 ≤ blcodes) (few : lcodes ≤ 286 ∧ dcodes ≤ 30) :
    ∃ source, run doTABLE w = (.ok (), { w with
        source, nlen_ := lcodes, ndist_ := dcodes, ncode_ := blcodes, have_ := 0, mode_ := .LENLENS }) ∧
      Source.On b input first (pos + 14) source := by
  have inside := held.inside
  simp only [BitField.width_cons] at inside
  obtain ⟨source₁, ran₁, on₁, left₁⟩ := run_need (n := 5 + 5 + 4) (by decide) on (by omega)
  obtain ⟨source₂, ran₂, on₂, left₂⟩ := run_number (w := { w with source := source₁ }) 32 on₁ held
    (by dsimp only; omega) (by decide) (by decide)
  obtain ⟨source₃, ran₃, on₃, left₃⟩ := run_number (w := { w with source := source₂ }) 32 on₂ held.2
    (by dsimp only at left₂ ⊢; omega) (by decide) (by decide)
  obtain ⟨source₄, ran₄, on₄, -⟩ := run_number (w := { w with source := source₃ }) 32 on₃ held.2.2
    (by dsimp only at left₂ left₃ ⊢; omega) (by decide) (by decide)
  refine ⟨source₄, ?_, by rw [Nat.add_assoc, Nat.add_assoc] at on₄; exact on₄⟩
  rw [doTABLE, run_bind_ok ran₁, run_bind_ok ran₂, run_bind_ok ran₃, run_bind_ok ran₄, run_modify_bind,
    Nat.sub_add_cancel some_.1, Nat.sub_add_cancel some_.2.1, Nat.sub_add_cancel some_.2.2,
    if_neg (by omega), run_modify]

/-! ## The lengths of the bit length codes -/

/-- The lengths are read in their order. -/
theorem run_readLens (len : Nat → Nat) (symbols : List Nat) {rest : List Nat}
    (next : order.drop w.have_ = symbols ++ rest) (on : Source.On b input first pos w.source)
    (held : BitField.Held b pos (symbols.map fun x => (len x, 3))) :
    ∃ source lens, run (readLens symbols.length) w = (.ok (), { w with
        source, lens_ := lens, have_ := w.have_ + symbols.length }) ∧
      Source.On b input first (pos + 3 * symbols.length) source ∧
      ∀ x, lens x = if x ∈ symbols then len x else w.lens_ x := by
  induction symbols generalizing w pos with
  | nil => exact ⟨w.source, w.lens_, rfl, on, fun x => by simp⟩
  | cons x symbols ih =>
    have inside := held.inside
    rw [List.map_cons, BitField.width_cons] at inside
    obtain ⟨source₁, ran₁, on₁, left₁⟩ := run_need (n := 3) (by decide) on (by dsimp only at inside; omega)
    obtain ⟨source₂, ran₂, on₂, -⟩ := run_number (w := { w with source := source₁ }) 16 on₁ held
      left₁ (by decide) (by decide)
    have own : order.getD w.have_ 0 = x := by
      rw [List.getD_eq_getElem?_getD, ← Nat.add_zero w.have_, ← List.getElem?_drop, next]
      rfl
    have behind : order.drop (w.have_ + 1) = symbols ++ rest := by
      rw [← List.drop_drop, next]
      rfl
    obtain ⟨source₃, lens, ran₃, on₃, all⟩ := ih (w := { w with
      source := source₂, lens_ := Function.update w.lens_ x (len x), have_ := w.have_ + 1 }) behind on₂ held.2
    refine ⟨source₃, lens, ?_, ?_, fun y => ?_⟩
    · rw [List.length_cons, readLens, run_bind_ok ran₁, run_bind_ok ran₂, run_get_bind, setLen,
        run_modify_bind, run_modify_bind]
      dsimp only
      rw [own, ran₃, Nat.add_assoc, Nat.add_comm 1]
    · rw [List.length_cons, (by omega : pos + 3 * (symbols.length + 1) = pos + 3 + 3 * symbols.length)]
      exact on₃
    · rw [all]
      simp only [Function.update_apply, List.mem_cons]
      by_cases same : y = x
      · simp [same]
      · simp [same]

/-- The other lengths are zero. -/
theorem run_clearLens (symbols : List Nat) (next : order.drop w.have_ = symbols) :
    ∃ lens, run (clearLens symbols.length) w = (.ok (), { w with
        lens_ := lens, have_ := w.have_ + symbols.length }) ∧
      ∀ x, lens x = if x ∈ symbols then 0 else w.lens_ x := by
  induction symbols generalizing w with
  | nil => exact ⟨w.lens_, rfl, fun x => by simp⟩
  | cons x symbols ih =>
    have own : order.getD w.have_ 0 = x := by
      rw [List.getD_eq_getElem?_getD, ← Nat.add_zero w.have_, ← List.getElem?_drop, next]
      rfl
    have behind : order.drop (w.have_ + 1) = symbols := by
      rw [← List.drop_drop, next]
      rfl
    obtain ⟨lens, ran, all⟩ := ih (w := { w with
      lens_ := Function.update w.lens_ x 0, have_ := w.have_ + 1 }) behind
    refine ⟨lens, ?_, fun y => ?_⟩
    · rw [List.length_cons, clearLens, run_get_bind, setLen, run_modify_bind, run_modify_bind]
      dsimp only
      rw [own, ran, Nat.add_assoc, Nat.add_comm 1]
    · rw [all]
      simp only [Function.update_apply, List.mem_cons]
      by_cases same : y = x
      · simp [same]
      · simp [same]

theorem run_makeTable {type : Build} {lens : List Nat} {bits used : Nat} {t : Table} (leave : Halt)
    (made : inflate_table type lens w.codes_ bits w.work_ = .table t used) :
    run (makeTable type lens bits leave) w = (.ok t, w) := by
  rw [makeTable, run_get_bind, made]
  rfl

theorem lensOf_zero {len : Nat → Nat} {k : Nat} (same : ∀ x < k, w.lens_ x = len x) :
    w.lensOf 0 k = (List.range k).map len := by
  rw [lensOf, ← List.range_eq_range']
  exact List.map_congr_left fun x member => same x (List.mem_range.mp member)

/-- The lengths of the bit length codes are read, and their table is made. -/
theorem run_doLENLENS (len : Nat → Nat) (start : w.have_ = 0) (few : w.ncode_ ≤ blCodes)
    (on : Source.On b input first pos w.source)
    (held : BitField.Held b pos ((order.take w.ncode_).map fun x => (len x, 3)))
    (none : ∀ x ∈ order.drop w.ncode_, len x = 0) {t : Table} {used : Nat}
    (made : inflate_table .codes ((List.range blCodes).map len) w.codes_ 7 w.work_ = .table t used) :
    ∃ source lens, run doLENLENS w = (.ok (), { w with
        source, lens_ := lens, lencode_ := t, have_ := 0, mode_ := .CODELENS }) ∧
      Source.On b input first (pos + 3 * w.ncode_) source := by
  have length : (order.take w.ncode_).length = w.ncode_ := by
    rw [List.length_take]
    exact Nat.min_eq_left few
  obtain ⟨source, lens₁, ran₁, on₁, all₁⟩ := run_readLens len (order.take w.ncode_)
    (by rw [start, List.drop_zero, List.take_append_drop]) on held
  rw [length, start, Nat.zero_add] at ran₁
  rw [length] at on₁
  obtain ⟨lens₂, ran₂, all₂⟩ := run_clearLens (w := { w with source, lens_ := lens₁, have_ := w.ncode_ })
    (order.drop w.ncode_) rfl
  rw [List.length_drop] at ran₂
  have own : ∀ x < blCodes, lens₂ x = len x := by
    intro x inside
    have member : x ∈ order := (by decide : ∀ x < blCodes, x ∈ order) x inside
    rw [← List.take_append_drop w.ncode_ order, List.mem_append] at member
    rw [all₂]
    split
    · rename_i behind
      exact (none x behind).symm
    · rename_i before
      dsimp only
      rw [all₁, if_pos (member.resolve_right before)]
  have lengths := lensOf_zero (w := { w with
    source, lens_ := lens₂, have_ := w.ncode_ + (order.length - w.ncode_) }) own
  refine ⟨source, lens₂, ?_, on₁⟩
  rw [doLENLENS, run_get_bind, run_get_bind, start, Nat.sub_zero, run_bind_ok ran₁, run_get_bind,
    run_bind_ok ran₂, run_get_bind, show order.length = blCodes from rfl]
  rw [show order.length = blCodes from rfl] at lengths
  rw [lengths]
  exact run_bind_ok (run_makeTable .done (by exact made))

/-! ## The symbols -/

/-- The bits of a string from a place on. -/
def bitsAt (b : BitString) (pos i : Nat) : Bool := (b.value / 2 ^ pos).testBit i

theorem bitsAt_slice (b : BitString) (pos n : Nat) : (bitsAt b pos n).toNat = b.slice (pos + n) 1 := by
  rw [bitsAt, Nat.testBit_eq_decide_div_mod_eq, Nat.div_div_eq_div_mul, ← Nat.pow_add, BitString.slice,
    Nat.pow_one]
  rcases Nat.mod_two_eq_zero_or_one (b.value / 2 ^ (pos + n)) with even | odd
  · rw [even]
    rfl
  · rw [odd]
    rfl

theorem lsb_bitsAt (b : BitString) (pos n : Nat) : lsb (bitsAt b pos) 0 n = b.slice pos n := by
  induction n with
  | zero => rw [BitString.slice_zero, lsb]
  | succ n ih =>
    rw [lsb, ih, ← BitString.slice_append, Nat.zero_add, bitsAt_slice, Nat.mul_comm]

/-- A table for the bit length codes that are in use. -/
structure Codebook (bl_tree : Tree) (t : Table) : Prop where
  bits : t.bits ≤ 7
  entry : ∀ (b : BitString) pos x, x ≤ REPZ_11_138 → 0 < (bl_tree x).dl →
    b.slice pos (bl_tree x).dl = (bl_tree x).fc →
      t.entries (b.slice pos t.bits) = ⟨0, (bl_tree x).dl, x⟩ ∧ (bl_tree x).dl ≤ t.bits

/-- The lengths that have been read so far. -/
structure Reads (w : TreeWork) (lens : List Nat) : Prop where
  count : w.have_ = lens.length
  own : ∀ i < lens.length, w.lens_ i = lens.getD i 0

/-- Another length is put behind those that have been read. -/
theorem Reads.append {lens : List Nat} (reads : Reads w lens) (len k : Nat) {w' : TreeWork}
    (count : w'.have_ = w.have_ + k)
    (lens_ : ∀ i, w'.lens_ i = if w.have_ ≤ i ∧ i < w.have_ + k then len else w.lens_ i) :
    Reads w' (lens ++ List.replicate k len) where
  count := by rw [count, reads.count, List.length_append, List.length_replicate]
  own i inside := by
    rw [List.length_append, List.length_replicate] at inside
    rw [lens_, reads.count]
    rcases Nat.lt_or_ge i lens.length with before | behind
    · rw [if_neg (by omega), reads.own i before, List.getD_append _ _ _ _ before]
    · rw [if_pos ⟨behind, inside⟩, List.getD_append_right _ _ _ _ behind,
        List.getD_replicate _ (by omega)]

/-- A length is repeated where there is room for it. -/
theorem run_repeatLen {lens : List Nat} (reads : Reads w lens) (len copy : Nat)
    (room : lens.length + copy ≤ w.nlen_ + w.ndist_) :
    ∃ have_ lens_, run (repeatLen len copy) w = (.ok (), { w with have_, lens_ }) ∧
      Reads { w with have_, lens_ } (lens ++ List.replicate copy len) := by
  have count := reads.count
  refine ⟨w.have_ + copy, fun i => if w.have_ ≤ i ∧ i < w.have_ + copy then len else w.lens_ i, ?_,
    reads.append len copy rfl fun i => rfl⟩
  rw [repeatLen, run_get_bind, if_neg (by omega), run_modify]

/-- Code and extra bits are there: the code is discarded, and the extra bits are read. -/
theorem run_extra (on : Source.On b input first pos w.source) {c code : Nat}
    (held : BitField.Held b pos ((c, code) :: (v, n) :: fs)) (short : code ≤ 7) (few : n ≤ 7) :
    ∃ s₁ s₂ s₃, run (need (code + n)) w = (.ok (), { w with source := s₁ }) ∧
      run (onSource (Source.drop code)) { w with source := s₁ } = (.ok (), { w with source := s₂ }) ∧
      run (onSource (Source.read 16 n)) { w with source := s₂ } = (.ok v, { w with source := s₃ }) ∧
      Source.On b input first (pos + (code + n)) s₃ := by
  have inside := held.inside
  simp only [BitField.width_cons] at inside
  obtain ⟨s₁, ran₁, on₁, left₁⟩ := run_need (n := code + n) (by omega) on (by omega)
  obtain ⟨s₂, ran₂, on₂, left₂⟩ := run_discard (w := { w with source := s₁ }) on₁
    (by dsimp only; omega : code ≤ _)
  obtain ⟨s₃, ran₃, on₃, -⟩ := run_number (w := { w with source := s₂ }) 16 on₂ held.2
    (by dsimp only at left₂ ⊢; omega) (by omega) (by omega)
  rw [Nat.add_assoc] at on₃
  exact ⟨s₁, s₂, s₃, ran₁, ran₂, ran₃, on₃⟩

variable {bl_tree : Tree} {lens all : List Nat} {it : Item}

/-- Zeros are repeated as often as the extra bits say. -/
theorem run_zeros (on : Source.On b input first pos w.source) {c code k : Nat}
    (held : BitField.Held b pos ((c, code) :: (v, n) :: fs)) (short : code ≤ 7) (few : n ≤ 7)
    (reads : Reads w lens) (room : lens.length + (v + k) ≤ w.nlen_ + w.ndist_) :
    ∃ source have_ lens_, run (do
        need (code + n)
        onSource (Source.drop code)
        let copy ← onSource (Source.read 16 n)
        repeatLen 0 (copy + k)) w = (.ok (), { w with source, have_, lens_ }) ∧
      Source.On b input first (pos + (code + n)) source ∧
      Reads { w with source, have_, lens_ } (lens ++ List.replicate (v + k) 0) := by
  obtain ⟨s₁, s₂, s₃, ran₁, ran₂, ran₃, on₃⟩ := run_extra on held short few
  obtain ⟨have_, lens_, ran₄, reads'⟩ := @run_repeatLen { w with source := s₃ } lens
    ⟨reads.count, reads.own⟩ 0 (v + k) room
  refine ⟨s₃, have_, lens_, ?_, on₃, reads'⟩
  rw [run_bind_ok ran₁, run_bind_ok ran₂, run_bind_ok ran₃, ran₄]

/-- A symbol is read, with its extra bits, and the lengths that it stands for are behind the others. -/
theorem run_readSymbol (book : Codebook bl_tree w.lencode_) (reads : Reads w lens)
    (on : Source.On b input first pos w.source) (held : BitField.Held b pos (itemFields bl_tree it ++ fs))
    (coded : 0 < (bl_tree it.1).dl) (some_ : it.1 = REP_3_6 → lens ≠ []) (symbol : it.1 ≤ REPZ_11_138)
    (enough : pos + 7 ≤ b.length) (room : (expand lens it).length ≤ w.nlen_ + w.ndist_) :
    ∃ source have_ lens_, run readSymbol w = (.ok (), { w with source, have_, lens_ }) ∧
      Source.On b input first (pos + BitField.width (itemFields bl_tree it)) source ∧
      Reads { w with source, have_, lens_ } (expand lens it) := by
  obtain ⟨x, v⟩ := it
  dsimp only at coded some_ symbol
  have bits := book.bits
  obtain ⟨s₀, ran₀, on₀, left₀⟩ := run_need (n := w.lencode_.bits) (by omega) on (by omega)
  have peeked := run_onSource (w := { w with source := s₀ })
    (Source.run_peek 16 on₀ left₀ (by omega))
  have first_field : b.slice pos (bl_tree x).dl = (bl_tree x).fc := by
    rw [itemFields] at held
    split at held <;> exact held.1
  obtain ⟨entry, short⟩ := book.entry b pos x symbol coded first_field
  have count := reads.count
  rw [readSymbol, run_get_bind, run_bind_ok ran₀, run_bind_ok peeked, run_get_bind]
  dsimp only
  rw [entry]
  dsimp only
  rw [itemFields] at held ⊢
  rw [expand] at room ⊢
  dsimp only at held room ⊢
  by_cases literal : x < REP_3_6
  · rw [if_pos literal] at room ⊢
    rw [if_pos literal, BitField.width_cons, BitField.width_nil, Nat.add_zero]
    rw [if_pos literal] at held
    obtain ⟨s₁, ran₁, on₁, -⟩ := run_discard (w := { w with source := s₀ }) on₀
      (Nat.le_trans short left₀)
    refine ⟨s₁, w.have_ + 1, Function.update w.lens_ w.have_ x, ?_, on₁, ?_⟩
    · rw [if_pos (show x < 16 from literal), run_bind_ok ran₁, run_get_bind, setLen, run_modify_bind,
        run_modify]
    · refine reads.append x 1 rfl fun i => ?_
      dsimp only
      rw [Function.update_apply]
      exact if_congr (by omega) rfl rfl
  · rw [if_neg literal] at room held ⊢
    rw [if_neg literal, BitField.width_cons, BitField.width_cons, BitField.width_nil, Nat.add_zero]
    rw [if_neg (show ¬x < 16 from literal)]
    rw [REPZ_11_138] at symbol
    rw [REP_3_6] at literal
    rcases (by omega : x = 16 ∨ x = 17 ∨ x = 18) with rfl | rfl | rfl
    · obtain ⟨s₁, s₂, s₃, ran₁, ran₂, ran₃, on₃⟩ := run_extra (n := 2) (w := { w with source := s₀ }) on₀
        held (by omega) (by decide)
      have last : w.lens_ (w.have_ - 1) = lens.getLast?.getD 0 := by
        have nonempty := List.length_pos_iff.mpr (some_ rfl)
        rw [reads.own _ (by omega), count, List.getLast?_eq_getElem?, List.getD_eq_getElem?_getD]
      rw [if_pos (show (16 : Nat) = REP_3_6 from rfl)] at room ⊢
      rw [List.length_append, List.length_replicate] at room
      obtain ⟨have_, lens_, ran₄, reads'⟩ := @run_repeatLen { w with source := s₃ } lens
        ⟨reads.count, reads.own⟩ (lens.getLast?.getD 0) (v + 3) (by dsimp only; omega)
      refine ⟨s₃, have_, lens_, ?_, on₃, ?_⟩
      · have some_' : w.have_ ≠ 0 := by
          have nonempty := List.length_pos_iff.mpr (some_ rfl)
          omega
        rw [if_pos rfl, run_bind_ok ran₁, run_bind_ok ran₂, run_get_bind, if_neg some_', run_bind_ok ran₃,
          run_get_bind, run_get_bind]
        dsimp only
        rw [last, ran₄]
      · rw [Nat.add_comm 3]
        exact reads'
    · rw [if_neg (show ¬(17 : Nat) = REP_3_6 by decide), if_pos (show (17 : Nat) = REPZ_3_10 from rfl)] at room ⊢
      rw [List.length_append, List.length_replicate] at room
      obtain ⟨source, have_, lens_, ran, on', reads'⟩ := run_zeros (n := 3) (w := { w with source := s₀ }) (k := 3)
        on₀ held (by omega) (by decide) ⟨reads.count, reads.own⟩ (by dsimp only; omega)
      refine ⟨source, have_, lens_, ?_, on', ?_⟩
      · rw [if_neg (by decide), if_pos rfl, ran]
      · rw [Nat.add_comm 3]
        exact reads'
    · rw [if_neg (show ¬(18 : Nat) = REP_3_6 by decide), if_neg (show ¬(18 : Nat) = REPZ_3_10 by decide)] at room ⊢
      rw [List.length_append, List.length_replicate] at room
      obtain ⟨source, have_, lens_, ran, on', reads'⟩ := run_zeros (n := 7) (w := { w with source := s₀ }) (k := 11)
        on₀ held (by omega) (by decide) ⟨reads.count, reads.own⟩ (by dsimp only; omega)
      refine ⟨source, have_, lens_, ?_, on', ?_⟩
      · rw [if_neg (by decide), if_neg (by decide), ran]
      · rw [Nat.add_comm 11]
        exact reads'

variable {items : List Item}

/-- The symbols are read until there are no lengths left. -/
theorem run_readSymbols (book : Codebook bl_tree w.lencode_) (reads : Reads w lens)
    (on : Source.On b input first pos w.source) (expands : Expands lens items all)
    (held : BitField.Held b pos (items.flatMap (itemFields bl_tree)))
    (coded : ∀ it ∈ items, 0 < (bl_tree it.1).dl) (total : all.length = w.nlen_ + w.ndist_) {more : Nat}
    (left : all.length - lens.length ≤ more)
    (enough : pos + BitField.width (items.flatMap (itemFields bl_tree)) + 7 ≤ b.length) :
    ∃ source have_ lens_, run (readSymbols more) w = (.ok (), { w with source, have_, lens_ }) ∧
      Source.On b input first (pos + BitField.width (items.flatMap (itemFields bl_tree))) source ∧
      Reads { w with source, have_, lens_ } all := by
  induction items generalizing w lens pos more with
  | nil =>
    obtain rfl : lens = all := expands
    refine ⟨w.source, w.have_, w.lens_, ?_, on, ⟨reads.count, reads.own⟩⟩
    cases more with
    | zero => rfl
    | succ more =>
      rw [readSymbols, run_get_bind, run_get_bind, run_get_bind, if_neg (by rw [reads.count, total]; omega)]
      rfl
  | cons it items ih =>
    have count := reads.count
    have rest_le := expands.2.2.2.length_le
    have grown := length_expand lens it
    rw [List.flatMap_cons] at held enough ⊢
    rw [BitField.width_append] at enough ⊢
    obtain ⟨s₁, have₁, lens₁, ran₁, on₁, reads₁⟩ := run_readSymbol book reads on held
      (coded it List.mem_cons_self) expands.1 expands.2.1 (by omega) (by omega)
    obtain ⟨more, rfl⟩ := Nat.exists_eq_add_of_lt (by omega : 0 < more)
    rw [Nat.zero_add] at left ⊢
    obtain ⟨s₂, have₂, lens₂, ran₂, on₂, reads₂⟩ := ih
      (w := { w with source := s₁, have_ := have₁, lens_ := lens₁ }) book reads₁ on₁
      expands.2.2.2 (BitField.held_append.mp held).2
      (fun it member => coded it (List.mem_cons_of_mem _ member)) total (by omega : _ ≤ more) (by omega)
    rw [Nat.add_assoc] at on₂
    refine ⟨s₂, have₂, lens₂, ?_, on₂, reads₂⟩
    rw [readSymbols, run_get_bind, run_get_bind, run_get_bind, if_pos (by omega), run_bind_ok ran₁, ran₂]

end TreeWork

end Beast.Zlib
