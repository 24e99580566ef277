import Beast.Zlib.BitstreamLaws
import Beast.Zlib.DecoderLaws

/-! The checked modes do what a decoder does, wherever the bits are held. -/

namespace Beast.Zlib

open Step Machine

/-- What a decoder waits for in some mode, with those of its numbers that are read again. -/
def Work.phase (w : Work) : Phase :=
  match w.mode_ with
  | .LEN => .LEN
  | .LENEXT => .LENEXT w.length_ w.extra_
  | .DIST => .DIST w.length_
  | .DISTEXT => .DISTEXT w.length_ w.offset_ w.extra_
  | .MATCH => .MATCH w.length_ w.offset_
  | .LIT => .LIT w.length_
  | m => .elsewhere m

theorem Work.phase_mode (w : Work) : w.phase.mode = w.mode_ := by
  cases mode : w.mode_ <;> simp only [phase, mode, Phase.mode]

/-- The state of a write is that of a decoder, whatever part of its bits is in the reservoir. -/
structure Shows (k : Block) (input : Octets) (first : Nat) (d : Decoder) (w : Work) : Prop where
  source : w.source.On k.bits input first d.pos
  phase : w.phase = d.phase
  out : w.out = d.out
  reads : w.reads = d.reads
  ec : w.ec = d.ec
  space : w.space = k.space
  window : w.w_ = k.window

/-- Two results are the same where they are reached for one reason, by what is the same. -/
def ShowsEnd (k : Block) (input : Octets) (first : Nat) (r : Halt × Decoder) (r' : Halt × Work) :
    Prop :=
  r'.1 = r.1 ∧ Shows k input first r.2 r'.2

variable {b : BitString} {input : Octets} {first pos n : Nat} {w : Work}

/-- Work on the reservoir changes nothing else. -/
theorem run_onSource {α : Type} {m : SourceStep α} {a : α} {s : Source}
    (ran : run m w.source = (.ok a, s)) : run (onSource m) w = (.ok a, { w with source := s }) := by
  rw [onSource, run_zoom, ran]

/-- There are so many bits where the string is long enough. -/
theorem run_need (small : n ≤ 25) (on : w.source.On b input first pos)
    (enough : pos + n ≤ b.length) :
    ∃ s, run (need n) w = (.ok (), { w with source := s }) ∧ s.On b input first pos ∧
      n ≤ s.bi_.n_ := by
  obtain ⟨s, ran, on', there⟩ := Source.run_fill small on
  refine ⟨s, ?_, on', there enough⟩
  rw [need, run_bind_ok (run_onSource ran), decide_eq_true enough]
  rfl

/-- A write is left where the string is too short. -/
theorem run_need_short (small : n ≤ 25) (on : w.source.On b input first pos)
    (short : b.length < pos + n) :
    ∃ s, run (need n) w = (.error .done, { w with source := s }) ∧ s.On b input first pos := by
  obtain ⟨s, ran, on', -⟩ := Source.run_fill small on
  refine ⟨s, ?_, on'⟩
  rw [need, run_bind_ok (run_onSource ran), decide_eq_false (by omega)]
  rfl

/-- A test tells links from what the codes of a table may stand for. -/
def Tells (isLink : Code → Bool) (IsLeaf : Code → Prop) : Prop :=
  ∀ cp, (IsLeaf cp → isLink cp = false) ∧ (cp.IsLink → isLink cp = true)

section Lookup

variable {t : Table} {IsLeaf : Code → Prop} {isLink : Code → Bool}

/-- A code that is looked up with checks is the one that the string starts with. -/
theorem run_lookup (valid : t.Valid IsLeaf) (apart : ∀ cp, IsLeaf cp → ¬cp.IsLink)
    (tells : Tells isLink IsLeaf) (on : w.source.On b input first pos) :
    ∃ s, match t.decode b pos with
      | none => run (lookup t isLink) w = (.error .done, { w with source := s }) ∧
          s.On b input first pos
      | some (cp, n) => run (lookup t isLink) w = (.ok cp, { w with source := s }) ∧
          s.On b input first (pos + n) := by
  have root := valid.bits
  by_cases enough : pos + t.bits ≤ b.length
  · obtain ⟨u, filled, on', there⟩ := run_need (n := t.bits) (by omega) on enough
    have peeked := Source.run_peek 16 on' there (by omega)
    rcases valid.entry _ (b.slice_lt pos t.bits) with final | linked
    · -- The first entry is the end of the code.
      have notLink := (tells _).1 final.leaf
      have bits := final.bits
      obtain ⟨s, dropped, on'', -⟩ := Source.run_drop on' (Nat.le_trans bits there)
      refine ⟨s, ?_⟩
      rw [Table.decode_final enough rfl (apart _ final.leaf)]
      refine ⟨?_, on''⟩
      rw [lookup, run_bind_ok filled, run_bind_ok (run_onSource peeked)]
      simp only [notLink, Bool.false_eq_true, if_false]
      rw [run_bind_ok (run_onSource dropped), run_pure]
    · have isLinked := (tells _).2 linked.link
      have bits := linked.bits
      generalize entry : t.entries (b.slice pos t.bits) = prev at *
      by_cases fits : pos + (prev.bits + prev.op) ≤ b.length
      · -- The link is followed to the entry that the next bits lead to.
        obtain ⟨u', filled', on'', there'⟩ :=
          run_need (w := { w with source := u }) (n := prev.bits + prev.op) (by omega) on' fits
        have peeked' := Source.run_peek 16 on'' there' (by omega)
        have final := linked.behind b pos
        have sub := final.bits
        obtain ⟨s, dropped, on3, -⟩ := Source.run_drop (n := prev.bits + (t.behind b pos prev).bits)
          on'' (by omega)
        -- The index is what comes behind the bits of the link.
        have index : b.slice pos (prev.bits + prev.op) >>> prev.bits =
            b.slice (pos + prev.bits) prev.op := by
          rw [Nat.shiftRight_eq_div_pow, BitString.slice_div (by omega), Nat.add_sub_cancel_left]
        refine ⟨s, ?_⟩
        rw [Table.decode_linked enough entry linked.link fits]
        refine ⟨?_, on3⟩
        rw [lookup, run_bind_ok filled, run_bind_ok (run_onSource peeked), entry]
        simp only [isLinked, if_true]
        rw [run_bind_ok filled', run_bind_ok (run_onSource peeked'), index]
        exact run_bind_ok (run_onSource dropped)
      · obtain ⟨s, filled', on''⟩ := run_need_short (w := { w with source := u })
          (n := prev.bits + prev.op) (by omega) on' (by omega)
        refine ⟨s, ?_⟩
        rw [Table.decode_linked_short enough entry linked.link (by omega)]
        refine ⟨?_, on''⟩
        rw [lookup, run_bind_ok filled, run_bind_ok (run_onSource peeked), entry]
        simp only [isLinked, if_true]
        rw [run_bind_error filled']
  · obtain ⟨s, filled, on'⟩ := run_need_short (n := t.bits) (by omega) on (by omega)
    refine ⟨s, ?_⟩
    rw [Table.decode_short (by omega)]
    exact ⟨run_bind_error filled, on'⟩

end Lookup

/-- Extra bits are read where the string has as many. -/
theorem run_readExtra (small : n ≤ 15) (on : w.source.On b input first pos)
    (enough : pos + n ≤ b.length) :
    ∃ s, run (readExtra n) w = (.ok (b.slice pos n), { w with source := s }) ∧
      s.On b input first (pos + n) := by
  by_cases none : n = 0
  · subst none
    refine ⟨w.source, ?_, on⟩
    rw [readExtra, if_neg (by omega), BitString.slice_zero]
    rfl
  · obtain ⟨u, filled, on', there⟩ := run_need (n := n) (by omega) on enough
    obtain ⟨s, took, on''⟩ := Source.run_read 16 on' there (by omega) (by omega)
    refine ⟨s, ?_, on''⟩
    rw [readExtra, if_pos none, run_bind_ok filled, run_onSource took]

/-- A write is left where the string has fewer extra bits. -/
theorem run_readExtra_short (small : n ≤ 15) (on : w.source.On b input first pos)
    (short : b.length < pos + n) :
    ∃ s, run (readExtra n) w = (.error .done, { w with source := s }) ∧
      s.On b input first pos := by
  have whole := on.whole
  obtain ⟨s, filled, on'⟩ := run_need_short (n := n) (by omega) on short
  refine ⟨s, ?_, on'⟩
  rw [readExtra, if_pos (by omega), run_bind_error filled]

/-- Octets are written where there is room for them. -/
theorem run_put (octets : Octets) (room : w.out.length + octets.length ≤ w.space) :
    run (put octets) w = (.ok (), { w with out := w.out ++ octets }) := by
  rw [put, run_get_bind, run_get_bind, if_neg (by omega), run_modify]

/-- Octets are read from the window, and written where there is room for them. -/
theorem run_copyWindow {back : Nat} (room : w.out.length + n ≤ w.space) :
    run (copyWindow back n) w = (.ok (), { w with
      out := w.out ++ w.w_.read back n, reads := w.reads ++ [(back, n)] }) := by
  rw [copyWindow, run_get_bind, run_bind_ok (run_put _ (by rw [Window.length_read]; exact room)),
    run_modify]

/-- Octets of the output are repeated where there is room for them. -/
theorem run_copyOutput {offset : Nat} (positive : 1 ≤ offset) (there : offset ≤ w.out.length)
    (room : w.out.length + n ≤ w.space) :
    run (copyOutput offset n) w = (.ok (), { w with out := repeated offset n w.out }) := by
  -- The induction is on the octets that are to be copied, each of which makes the output longer.
  induction n generalizing w with
  | zero => rfl
  | succ n ih =>
    have inside : w.out.length - offset < w.out.length := by omega
    have longer : (w.out ++ [w.out[w.out.length - offset]]).length = w.out.length + 1 := by simp
    rw [copyOutput, run_get_bind]
    simp only [if_pos there, List.getElem?_eq_getElem inside]
    rw [run_bind_ok (run_put _ (by simp only [List.length_singleton]; omega)),
      ih (by simp only [longer]; omega) (by simp only [longer]; omega), repeated,
      List.getD_eq_getElem?_getD, List.getElem?_eq_getElem inside, Option.getD_some]

/-- A turn goes on where what is done in its mode goes on. -/
theorem turn_ok {t : Codes} {w' : Work} (ran : run (doMode t) w = (.ok (), w')) :
    turn t w = .inl w' := by
  rw [turn, ran]

/-- A turn is the last one where what is done in its mode stops. -/
theorem turn_stop {t : Codes} {w' : Work} {h : Halt} (ran : run (doMode t) w = (.error h, w')) :
    turn t w = .inr (h, w') := by
  rw [turn, ran]

/-- The checked way tells links from literals, lengths and the end of the block. -/
theorem tells_lenLink : Tells Code.lenLink Code.LenLeaf := by
  intro cp
  constructor
  · intro leaf
    rcases leaf with literal | ⟨e, small, base, -⟩ | last | invalid | invalid | invalid
    · simp [Code.lenLink, literal]
    · obtain ⟨-, upper, -⟩ := base_op (by omega) base
      simp [Code.lenLink, upper]
    · simp [Code.lenLink, last]
    all_goals simp [Code.lenLink, invalid]
  · rintro ⟨positive, small⟩
    obtain ⟨upper, -⟩ := link_op positive small
    simp [Code.lenLink, upper, Nat.ne_of_gt positive]

/-- The checked way tells links from distances. -/
theorem tells_distLink : Tells Code.distLink Code.DistLeaf := by
  intro cp
  constructor
  · intro leaf
    rcases leaf with ⟨e, small, base, -⟩ | invalid
    · obtain ⟨-, upper, -⟩ := base_op small base
      simp [Code.distLink, upper]
    · simp [Code.distLink, invalid]
  · rintro ⟨positive, small⟩
    obtain ⟨upper, -⟩ := link_op positive small
    simp [Code.distLink, upper]

section Modes

variable {k : Block} {d : Decoder}

/-- A decoder is shown at another place where only the reservoir was worked on. -/
theorem Shows.moved {s : Source} (same : Shows k input first d w)
    (on : s.On k.bits input first n) :
    Shows k input first { d with pos := n } { w with source := s } :=
  ⟨on, same.phase, same.out, same.reads, same.ec, same.space, same.window⟩

/-- A code for literals and lengths is decoded, and tells what is waited for next. -/
theorem decodeLen_shows (same : Shows k input first d w) (mode : w.mode_ = .LEN) :
    Sum.LiftRel (Shows k input first) (ShowsEnd k input first) (k.step d)
      (turn k.codes.toCodes w) := by
  have phase : d.phase = .LEN := by rw [← same.phase, Work.phase, mode]
  have turned : run (doMode k.codes.toCodes) w = run (decodeLen k.codes.toCodes) w := by
    rw [doMode, run_get_bind, mode]
  obtain ⟨s, looked⟩ :=
    run_lookup k.codes.lens (fun _ => Code.LenLeaf.not_link) tells_lenLink same.source
  rw [Block.step, phase]
  simp only
  rcases decoded : k.codes.lencode.decode k.bits d.pos with _ | ⟨cp, n⟩
  · -- The string is too short, and the write waits for more of it.
    rw [decoded] at looked
    obtain ⟨ran, on⟩ := looked
    rw [turn_stop (turned.trans (run_bind_error ran))]
    exact .inr ⟨rfl, same.moved on⟩
  · rw [decoded] at looked
    obtain ⟨ran, on⟩ := looked
    have begun := turned.trans (run_bind_ok ran)
    rw [run_modify_bind] at begun
    simp only [Decoder.symbol]
    by_cases literal : cp.op = 0
    · rw [if_pos literal] at begun ⊢
      rw [turn_ok begun]
      exact .inl ⟨on, rfl, same.out, same.reads, same.ec, same.space, same.window⟩
    · rw [if_neg literal] at begun ⊢
      by_cases last : cp.op &&& 32 ≠ 0
      · rw [if_pos last] at begun ⊢
        rw [turn_ok begun]
        exact .inl ⟨on, rfl, same.out, same.reads, same.ec, same.space, same.window⟩
      · rw [if_neg last] at begun ⊢
        by_cases invalid : cp.op &&& 64 ≠ 0
        · rw [if_pos invalid] at begun ⊢
          rw [turn_stop begun]
          exact .inr ⟨rfl, on, rfl, same.out, same.reads, rfl, same.space, same.window⟩
        · rw [if_neg invalid] at begun ⊢
          rw [turn_ok begun]
          exact .inl ⟨on, rfl, same.out, same.reads, same.ec, same.space, same.window⟩

/-- Extra bits of a length are read, or the write waits for them. -/
theorem doLENEXT_shows (fine : d.phase.Fine) (same : Shows k input first d w)
    (mode : w.mode_ = .LENEXT) :
    Sum.LiftRel (Shows k input first) (ShowsEnd k input first) (k.step d)
      (turn k.codes.toCodes w) := by
  have phase : d.phase = .LENEXT w.length_ w.extra_ := by rw [← same.phase, Work.phase, mode]
  have turned : run (doMode k.codes.toCodes) w = run doLENEXT w := by
    rw [doMode, run_get_bind, mode]
  rw [phase] at fine
  rw [Block.step, phase]
  simp only
  -- Without extra bits the string is never too short for them.
  by_cases short : k.bits.length < d.pos + w.extra_
  · obtain ⟨s, ran, on⟩ := run_readExtra_short (n := w.extra_) fine same.source short
    rw [if_pos short, turn_stop (turned.trans (by rw [doLENEXT, run_get_bind, run_bind_error ran]))]
    exact .inr ⟨rfl, same.moved on⟩
  · obtain ⟨s, ran, on⟩ := run_readExtra (n := w.extra_) fine same.source (by omega)
    rw [if_neg short, turn_ok (turned.trans (by rw [doLENEXT, run_get_bind, run_bind_ok ran, run_modify]))]
    exact .inl ⟨on, rfl, same.out, same.reads, same.ec, same.space, same.window⟩

/-- A code for distances is decoded, and tells what is waited for next. -/
theorem doDIST_shows (same : Shows k input first d w) (mode : w.mode_ = .DIST) :
    Sum.LiftRel (Shows k input first) (ShowsEnd k input first) (k.step d)
      (turn k.codes.toCodes w) := by
  have phase : d.phase = .DIST w.length_ := by rw [← same.phase, Work.phase, mode]
  have turned : run (doMode k.codes.toCodes) w = run (doDIST k.codes.toCodes) w := by
    rw [doMode, run_get_bind, mode]
  obtain ⟨s, looked⟩ :=
    run_lookup k.codes.dists (fun _ => Code.DistLeaf.not_link) tells_distLink same.source
  rw [Block.step, phase]
  simp only
  rcases decoded : k.codes.distcode.decode k.bits d.pos with _ | ⟨cp, n⟩
  · -- Nothing was discarded, so that the write goes on in the same mode later.
    rw [decoded] at looked
    obtain ⟨ran, on⟩ := looked
    rw [turn_stop (turned.trans (run_bind_error ran))]
    exact .inr ⟨rfl, same.moved on⟩
  · rw [decoded] at looked
    obtain ⟨ran, on⟩ := looked
    have begun := turned.trans (run_bind_ok ran)
    simp only [Decoder.distance]
    by_cases invalid : cp.op &&& 64 ≠ 0
    · rw [if_pos invalid] at begun ⊢
      rw [turn_stop begun]
      exact .inr ⟨rfl, on, rfl, same.out, same.reads, rfl, same.space, same.window⟩
    · rw [if_neg invalid] at begun ⊢
      rw [turn_ok begun]
      exact .inl ⟨on, rfl, same.out, same.reads, same.ec, same.space, same.window⟩

/-- Extra bits of a distance are read, or the write waits for them. -/
theorem doDISTEXT_shows (fine : d.phase.Fine) (same : Shows k input first d w)
    (mode : w.mode_ = .DISTEXT) :
    Sum.LiftRel (Shows k input first) (ShowsEnd k input first) (k.step d)
      (turn k.codes.toCodes w) := by
  have phase : d.phase = .DISTEXT w.length_ w.offset_ w.extra_ := by
    rw [← same.phase, Work.phase, mode]
  have turned : run (doMode k.codes.toCodes) w = run doDISTEXT w := by
    rw [doMode, run_get_bind, mode]
  rw [phase] at fine
  obtain ⟨few, -⟩ := fine
  rw [Block.step, phase]
  simp only
  -- The distance is known once its extra bits are read, and nothing is copied before that.
  by_cases short : k.bits.length < d.pos + w.extra_
  · obtain ⟨s, ran, on⟩ := run_readExtra_short (n := w.extra_) few same.source short
    rw [if_pos short,
      turn_stop (turned.trans (by rw [doDISTEXT, run_get_bind, run_bind_error ran]))]
    exact .inr ⟨rfl, same.moved on⟩
  · obtain ⟨s, ran, on⟩ := run_readExtra (n := w.extra_) few same.source (by omega)
    rw [if_neg short,
      turn_ok (turned.trans (by rw [doDISTEXT, run_get_bind, run_bind_ok ran, run_modify]))]
    exact .inl ⟨on, rfl, same.out, same.reads, same.ec, same.space, same.window⟩

/-- Behind a copy, the write waits for the rest of the match, or for the next symbol. -/
theorem copied_shows {d' : Decoder} {length offset : Nat} (w' : Work)
    (ran : run copyMatch w = (.ok (), w')) (mode : w'.mode_ = .MATCH) (room : w.availOut ≠ 0)
    (here : w.mode_ = .MATCH) (same : Shows k input first { d' with phase := w'.phase } w')
    (left : w'.length_ = length) (back : w'.offset_ = offset)
    (phase : d'.phase = .rest length offset) :
    Sum.LiftRel (Shows k input first) (ShowsEnd k input first) (.inl d')
      (turn k.codes.toCodes w) := by
  have turned : run (doMode k.codes.toCodes) w =
      run (if w'.length_ = 0 then setMode .LEN else pure ()) w' := by
    rw [doMode, run_get_bind, here]
    simp only
    rw [doMATCH, run_get_bind, if_neg room, run_bind_ok ran, run_get_bind]
  -- The mode is left where nothing is left of the match.
  by_cases none : length = 0
  · rw [if_pos (left.trans none)] at turned
    rw [turn_ok (turned.trans (run_modify _ _))]
    have wait : Phase.LEN = d'.phase := by rw [phase, Phase.rest, if_pos none]
    exact .inl ⟨same.source, wait, same.out, same.reads, same.ec, same.space, same.window⟩
  · rw [if_neg (by omega)] at turned
    rw [turn_ok (turned.trans (run_pure _ _))]
    have wait : w'.phase = d'.phase := by
      rw [phase, Phase.rest, if_neg none, Work.phase, mode, left, back]
    exact .inl ⟨same.source, wait, same.out, same.reads, same.ec, same.space, same.window⟩

/-- As much of a match is copied as there is room for, or it reaches too far back. -/
theorem doMATCH_shows (fine : d.phase.Fine) (same : Shows k input first d w)
    (mode : w.mode_ = .MATCH) :
    Sum.LiftRel (Shows k input first) (ShowsEnd k input first) (k.step d)
      (turn k.codes.toCodes w) := by
  have phase : d.phase = .MATCH w.length_ w.offset_ := by rw [← same.phase, Work.phase, mode]
  have turned : run (doMode k.codes.toCodes) w = run doMATCH w := by
    rw [doMode, run_get_bind, mode]
  have avail : w.availOut = k.space - d.out.length := by rw [Work.availOut, same.space, same.out]
  rw [phase] at fine
  obtain ⟨positive, far⟩ := fine
  rw [Block.step, phase]
  simp only
  by_cases full : k.space ≤ d.out.length
  · rw [if_pos full, turn_stop (turned.trans (by
      rw [doMATCH, run_get_bind, if_pos (by omega), run_stop]))]
    exact .inr ⟨rfl, same⟩
  · have room : w.out.length < w.space := by
      rw [same.out, same.space]
      omega
    rw [if_neg full, Block.copy]
    by_cases window : d.out.length < w.offset_
    · rw [if_pos window]
      -- The distance fits into the number that the source puts it into.
      have cut : (w.offset_ - w.out.length) % 2 ^ 16 = w.offset_ - d.out.length := by
        rw [same.out]
        exact Nat.mod_eq_of_lt (by omega)
      by_cases beyond : k.window.size_ < w.offset_ - d.out.length
      · simp only
        rw [if_pos beyond, turn_stop (turned.trans (by
          rw [doMATCH, run_get_bind, if_neg (by omega), run_bind_error]
          rw [copyMatch, run_get_bind, if_pos (by rw [same.out]; exact window)]
          simp only [cut]
          rw [if_pos (by rw [same.window]; exact beyond)]
          rfl))]
        exact .inr ⟨rfl, same.source, rfl, same.out, same.reads, rfl, same.space, same.window⟩
      · simp only
        rw [if_neg beyond]
        have fits : w.out.length +
            min (min w.length_ (w.offset_ - d.out.length)) w.availOut ≤ w.space := by
          rw [Work.availOut]
          omega
        refine copied_shows { w with
            out := w.out ++ w.w_.read (w.offset_ - d.out.length)
              (min (min w.length_ (w.offset_ - d.out.length)) w.availOut)
            reads := w.reads ++ [(w.offset_ - d.out.length,
              min (min w.length_ (w.offset_ - d.out.length)) w.availOut)]
            length_ := w.length_ - min (min w.length_ (w.offset_ - d.out.length)) w.availOut }
          ?_ mode (by omega) mode ?_ rfl rfl ?_
        · rw [copyMatch, run_get_bind, if_pos (by rw [same.out]; exact window)]
          simp only [cut]
          rw [if_neg (by rw [same.window]; exact beyond), run_bind_ok (run_copyWindow fits),
            run_modify]
        · refine ⟨same.source, rfl, ?_, ?_, same.ec, same.space, same.window⟩
          · simp only [same.out, same.window, avail]
          · simp only [same.reads, avail]
        · simp only [avail]
    · rw [if_neg window]
      simp only
      have fits : w.out.length + min w.length_ w.availOut ≤ w.space := by
        rw [Work.availOut]
        omega
      have there : w.offset_ ≤ w.out.length := by
        rw [same.out]
        omega
      refine copied_shows { w with
          out := repeated w.offset_ (min w.length_ w.availOut) w.out
          length_ := w.length_ - min w.length_ w.availOut }
        ?_ mode (by omega) mode ?_ rfl rfl ?_
      · rw [copyMatch, run_get_bind, if_neg (by omega)]
        exact run_copyOutput (w := { w with length_ := w.length_ - min w.length_ w.availOut })
          positive there fits
      · refine ⟨same.source, rfl, ?_, same.reads, same.ec, same.space, same.window⟩
        simp only [same.out, avail]
      · simp only [avail]

/-- A literal is written, or the write waits for room. -/
theorem doLIT_shows (same : Shows k input first d w) (mode : w.mode_ = .LIT) :
    Sum.LiftRel (Shows k input first) (ShowsEnd k input first) (k.step d)
      (turn k.codes.toCodes w) := by
  have phase : d.phase = .LIT w.length_ := by rw [← same.phase, Work.phase, mode]
  have turned : run (doMode k.codes.toCodes) w = run doLIT w := by
    rw [doMode, run_get_bind, mode]
  have avail : w.availOut = k.space - d.out.length := by rw [Work.availOut, same.space, same.out]
  rw [Block.step, phase]
  simp only
  by_cases full : k.space ≤ d.out.length
  · rw [if_pos full, turn_stop (turned.trans (by
      rw [doLIT, run_get_bind, if_pos (by omega), run_stop]))]
    exact .inr ⟨rfl, same⟩
  · -- There is room for one octet at least.
    have fits : w.out.length + 1 ≤ w.space := by
      rw [same.out, same.space]
      omega
    rw [if_neg full, turn_ok (turned.trans (by
      rw [doLIT, run_get_bind, if_neg (by omega), run_get_bind, run_bind_ok (run_put _ fits), setMode,
        run_modify]))]
    refine .inl ⟨same.source, rfl, ?_, same.reads, same.ec, same.space, same.window⟩
    simp only [same.out]

/-- Every turn with checks shows the step that a decoder takes. -/
theorem turn_shows (fine : d.Fine k) (same : Shows k input first d w) :
    Sum.LiftRel (Shows k input first) (ShowsEnd k input first) (k.step d)
      (turn k.codes.toCodes w) := by
  cases mode : w.mode_ with
  | LEN => exact decodeLen_shows same mode
  | LENEXT => exact doLENEXT_shows fine.phase same mode
  | DIST => exact doDIST_shows same mode
  | DISTEXT => exact doDISTEXT_shows fine.phase same mode
  | MATCH => exact doMATCH_shows fine.phase same mode
  | LIT => exact doLIT_shows same mode
  | _ =>
    -- The mode is none of a block, for the decoder as well.
    have phase : d.phase = .elsewhere w.mode_ := by rw [← same.phase, Work.phase, mode]
    have turned : run (doMode k.codes.toCodes) w = (.error .elsewhere, w) := by
      rw [doMode, run_get_bind, mode]
      rfl
    rw [Block.step, phase, turn_stop turned]
    exact .inr ⟨rfl, same⟩

/-- A state of a write shows a decoder that has read what valid tables admit. -/
def Along (k : Block) (input : Octets) (first : Nat) (d : Decoder) (w : Work) : Prop :=
  d.Fine k ∧ Shows k input first d w

/-- Decoding with checks ends where a decoder stops. -/
theorem checked_ends {r : Halt × Decoder} {x : Decoder ⊕ Halt × Decoder} {y : Work ⊕ Halt × Work}
    (ended : Ends k.step x r)
    (same : Sum.LiftRel (Along k input first) (ShowsEnd k input first) x y) :
    ∃ r', Ends (turn k.codes.toCodes) y r' ∧ ShowsEnd k input first r r' := by
  -- The decoder stays fine on its way, so that each turn shows what it does.
  refine ended.follow ?_ same
  rintro d w ⟨fine, same⟩
  have shown := turn_shows fine same
  generalize turn k.codes.toCodes w = z at shown ⊢
  rcases stepped : k.step d with d' | r
  · rw [stepped] at shown
    cases shown with
    | inl same' => exact .inl ⟨(Block.step_nearer fine stepped).1, same'⟩
  · rw [stepped] at shown
    cases shown with
    | inr same' => exact .inr same'

end Modes

end Beast.Zlib
