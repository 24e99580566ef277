import Beast.Zlib.CheckedLaws

/-! The rounds without checks come to what a decoder comes to behind some of its steps. -/

namespace Beast.Zlib

open Step Machine

/-- The unchecked loop tells links from literals, lengths and the end of the block. -/
theorem tells_fastLenLink : Tells Code.fastLenLink Code.LenLeaf := by
  intro cp
  constructor
  · intro leaf
    rcases leaf with literal | ⟨e, small, base, -⟩ | last | invalid | invalid | invalid
    · simp [Code.fastLenLink, literal]
    · obtain ⟨-, -, bit, -⟩ := base_op (by omega) base
      simp [Code.fastLenLink, bit]
    · simp [Code.fastLenLink, last]
    all_goals simp [Code.fastLenLink, invalid]
  · rintro ⟨positive, small⟩
    obtain ⟨-, base, invalid⟩ := link_op positive small
    simp [Code.fastLenLink, base, invalid, Nat.ne_of_gt positive]

/-- The unchecked loop tells links from distances. -/
theorem tells_fastDistLink : Tells Code.fastDistLink Code.DistLeaf := by
  intro cp
  constructor
  · intro leaf
    rcases leaf with ⟨e, small, base, -⟩ | invalid
    · obtain ⟨-, -, bit, -⟩ := base_op small base
      simp [Code.fastDistLink, bit]
    · simp [Code.fastDistLink, invalid]
  · rintro ⟨positive, small⟩
    obtain ⟨-, base, invalid⟩ := link_op positive small
    simp [Code.fastDistLink, base, invalid]

variable {b : BitString} {input : Octets} {first pos n : Nat} {w : Work}

section Source

variable {s : Source}

/-- There are enough bits for a code behind a refill, if the string has enough for a distance. -/
theorem run_refill (on : s.On b input first pos) (enough : pos + 28 ≤ b.length) :
    ∃ u, run refill s = (.ok (), u) ∧ u.On b input first pos ∧ 15 ≤ u.bi_.n_ := by
  have whole := on.whole
  by_cases few : s.bi_.n_ < 15
  · obtain ⟨u, ran, on', grown⟩ := Source.run_fill_16 on (by omega) (by omega)
    refine ⟨u, ?_, on', by omega⟩
    rw [refill, run_get_bind, if_pos few, ran]
  · refine ⟨s, ?_, on, by omega⟩
    rw [refill, run_get_bind, if_neg few, run_pure]

/-- There are as many bits as a length has extra ones, if the string has as many. -/
theorem run_fillLenExtra (op : Nat) (on : s.On b input first pos) (small : op ≤ 8)
    (enough : pos + op ≤ b.length) :
    ∃ u, run (fillLenExtra op) s = (.ok (), u) ∧ u.On b input first pos ∧ op ≤ u.bi_.n_ := by
  have whole := on.whole
  by_cases few : s.bi_.n_ < op
  · obtain ⟨u, ran, on', grown⟩ := Source.run_fill_8 on (by omega) (by omega)
    refine ⟨u, ?_, on', by omega⟩
    rw [fillLenExtra, run_get_bind, if_pos few, ran]
  · refine ⟨s, ?_, on, by omega⟩
    rw [fillLenExtra, run_get_bind, if_neg few, run_pure]

/-- There are as many bits as a distance has extra ones, if the string has as many. -/
theorem run_fillDistExtra (op : Nat) (on : s.On b input first pos) (small : op ≤ 16)
    (enough : pos + op ≤ b.length) :
    ∃ u, run (fillDistExtra op) s = (.ok (), u) ∧ u.On b input first pos ∧ op ≤ u.bi_.n_ := by
  have whole := on.whole
  -- An octet is only taken where bits are missing, and then the string has one left.
  by_cases few : s.bi_.n_ < op
  · obtain ⟨u, ran, on', grown⟩ := Source.run_fill_8 on (by omega) (by omega)
    have whole' := on'.whole
    by_cases more : u.bi_.n_ < op
    · obtain ⟨v, ran', on'', grown'⟩ := Source.run_fill_8 on' (by omega) (by omega)
      refine ⟨v, ?_, on'', by omega⟩
      rw [fillDistExtra, run_get_bind, if_pos few, run_bind_ok ran, run_get_bind, if_pos more, ran']
    · refine ⟨u, ?_, on', by omega⟩
      rw [fillDistExtra, run_get_bind, if_pos few, run_bind_ok ran, run_get_bind, if_neg more,
        run_pure]
  · refine ⟨s, ?_, on, by omega⟩
    rw [fillDistExtra, run_get_bind, if_neg few, run_pure]

end Source

/-- Everything in the reservoir is seen, and nothing is changed. -/
theorem run_onSource_peek_fast :
    run (onSource Source.peek_fast) w = (.ok w.source.bi_.v_, w) :=
  rfl

/-- Bits that are there are taken without checks. -/
theorem run_fastExtra (on : w.source.On b input first pos) (le : n ≤ w.source.bi_.n_) :
    ∃ s, run (fastExtra n) w = (.ok (b.slice pos n), { w with source := s }) ∧
      s.On b input first (pos + n) := by
  obtain ⟨s, dropped, on', -⟩ := Source.run_drop on le
  refine ⟨s, ?_, on'⟩
  rw [fastExtra, run_bind_ok run_onSource_peek_fast, run_bind_ok (run_onSource dropped), run_pure,
    on.reads.peek le]

section Lookup

variable {t : Table} {IsLeaf : Code → Prop} {isLink : Code → Bool}

/-- The bits of an entry where a code ends are discarded. -/
theorem run_follow_final {cp : Code} (fuel : Nat) (notLink : isLink cp = false)
    (on : w.source.On b input first pos) (le : cp.bits ≤ w.source.bi_.n_) :
    ∃ s, run (follow t isLink (fuel + 1) cp) w = (.ok cp, { w with source := s }) ∧
      s.On b input first (pos + cp.bits) := by
  obtain ⟨s, dropped, on', -⟩ := Source.run_drop on le
  refine ⟨s, ?_, on'⟩
  rw [follow, run_bind_ok (run_onSource dropped), notLink]
  rfl

/-- A code that is looked up without checks is the one that the string starts with. -/
theorem run_fastLookup (valid : t.Valid IsLeaf) (apart : ∀ cp, IsLeaf cp → ¬cp.IsLink)
    (tells : Tells isLink IsLeaf) (on : w.source.On b input first pos)
    (enough : pos + 28 ≤ b.length) :
    ∃ cp n s, t.decode b pos = some (cp, n) ∧
      run (fastLookup t isLink) w = (.ok cp, { w with source := s }) ∧
      s.On b input first (pos + n) := by
  have root := valid.bits
  obtain ⟨u, filled, on', there⟩ := run_refill on enough
  -- The index is in the reservoir, as its lowest bits.
  have begun : run (fastLookup t isLink) w = run (follow t isLink (u.bi_.n_ + 1)
      (t.entries (b.slice pos t.bits))) { w with source := u } := by
    rw [fastLookup, run_bind_ok (run_onSource filled), run_bind_ok run_onSource_peek_fast,
      run_get_bind, on'.reads.peek (by omega)]
  rw [begun]
  rcases valid.entry _ (b.slice_lt pos t.bits) with final | linked
  · have bits := final.bits
    obtain ⟨s, ran, on''⟩ := run_follow_final (w := { w with source := u }) (t := t)
      u.bi_.n_ ((tells _).1 final.leaf) on' (by simp only; omega)
    exact ⟨_, _, s, Table.decode_final (by omega) rfl (apart _ final.leaf), ran, on''⟩
  · have bits := linked.bits
    have isLinked := (tells _).2 linked.link
    generalize entry : t.entries (b.slice pos t.bits) = prev at *
    -- The bits of the link are discarded before the next index is looked at.
    obtain ⟨v, dropped, on'', fewer⟩ := Source.run_drop (n := prev.bits) on' (by omega)
    have final := linked.behind b pos
    have sub := final.bits
    obtain ⟨s, ran, on3⟩ := run_follow_final (w := { w with source := v }) (t := t)
      (u.bi_.n_ - 1) ((tells _).1 final.leaf) on'' (by simp only; omega)
    refine ⟨_, _, s, Table.decode_linked (by omega) entry linked.link (by omega), ?_, ?_⟩
    · rw [follow, run_bind_ok (run_onSource dropped), if_pos isLinked,
        run_bind_ok run_onSource_peek_fast]
      simp only
      rw [on''.reads.peek (by omega), ← ran]
      congr 2
      omega
    · rw [← Nat.add_assoc]
      exact on3

end Lookup

section Rounds

variable {k : Block} {d d' : Decoder} {f : Fast} {w' : Work} {p : Nat}

/--
What the unchecked loop comes to is what a decoder comes to behind some of its steps.

Where the loop goes on, the decoder waits for another code, at no earlier place than the one given.
-/
inductive Comes (k : Block) (input : Octets) (first p : Nat) (d : Decoder) (w' : Work) : Fast → Prop
  | on {d' : Decoder} (leads : Leads k.step (.inl d) (.inl d')) (same : Shows k input first d' w')
      (phase : d'.phase = .LEN) (kept : d'.ec = d.ec) (further : p ≤ d'.pos) :
      Comes k input first p d w' .on
  | last {d' : Decoder} (leads : Leads k.step (.inl d) (.inl d'))
      (same : Shows k input first d' w') (phase : d'.phase = .elsewhere .TYPE)
      (kept : d'.ec = d.ec) : Comes k input first p d w' .off
  | error {d' : Decoder} (leads : Leads k.step (.inl d) (.inr (.returns, d')))
      (same : Shows k input first d' w') (phase : d'.phase = .elsewhere .BAD)
      (told : d'.ec.isSome) : Comes k input first p d w' .off

/-- What a decoder comes to from where some steps lead, it comes to from before them. -/
theorem Comes.behind (comes : Comes k input first p d' w' f)
    (leads : Leads k.step (.inl d) (.inl d')) (kept : d'.ec = d.ec) :
    Comes k input first p d w' f := by
  cases comes with
  | on leads' same phase kept' further =>
    exact .on (leads.trans leads') same phase (kept'.trans kept) further
  | last leads' same phase kept' => exact .last (leads.trans leads') same phase (kept'.trans kept)
  | error leads' same phase told => exact .error (leads.trans leads') same phase told

/-- An error that the unchecked loop reports is the one that a decoder stops with. -/
theorem fastError_comes {e : Error} (same : Shows k input first d w)
    (stops : Leads k.step (.inl d')
      (.inr (.returns, { d with phase := .elsewhere .BAD, ec := some e }))) :
    ∃ w', run (fastError e) w = (.ok .off, w') ∧ Comes k input first p d' w' .off := by
  refine ⟨{ w with mode_ := .BAD, ec := some e }, ?_, .error stops ?_ rfl rfl⟩
  · rw [fastError, run_modify_bind, run_pure]
  · exact ⟨same.source, rfl, same.out, same.reads, rfl, same.space, same.window⟩

/-- What is left of a match is copied from the output at once. -/
theorem fastOutput_comes (length : Nat) {offset : Nat} (same : Shows k input first d w)
    (mode : w.mode_ = .LEN) (positive : 1 ≤ offset) (there : offset ≤ d.out.length)
    (room : length ≤ k.space - d.out.length) (some : d.out.length < k.space) (le : p ≤ d.pos) :
    ∃ w', run (fastOutput length offset) w = (.ok .on, w') ∧
      Comes k input first p { d with phase := .MATCH length offset } w' .on := by
  have avail : w.availOut = k.space - d.out.length := by rw [Work.availOut, same.space, same.out]
  -- The decoder copies all of it in one step.
  have leads : Leads k.step (.inl { d with phase := .MATCH length offset })
      (.inl { d with out := repeated offset length d.out, phase := .LEN }) := by
    apply leads_step
    simp only [Block.step]
    rw [if_neg (by omega), Block.copy, if_neg (by simp only; omega)]
    simp only
    rw [Nat.min_eq_left room, Nat.sub_self]
    rfl
  refine ⟨{ w with out := repeated offset length w.out }, ?_, .on leads ?_ rfl rfl le⟩
  · rw [fastOutput]
    by_cases more : 0 < length
    · rw [if_pos more]
      have fits : w.out.length + length ≤ w.space := by
        rw [same.out, same.space]
        omega
      rw [← same.out] at there
      rw [run_get_bind, avail, Nat.min_eq_left room, run_bind_ok (run_copyOutput positive there fits),
        run_pure]
    · have none : length = 0 := by omega
      subst none
      rfl
  · refine ⟨same.source, ?_, ?_, same.reads, same.ec, same.space, same.window⟩
    · rw [Work.phase, mode]
    · simp only [same.out]

/-- A match is copied from the window and from the output, as in two steps with checks. -/
theorem fastMatch_comes (length offset : Nat) (same : Shows k input first d w)
    (mode : w.mode_ = .LEN) (positive : 1 ≤ offset) (room : length ≤ k.space - d.out.length)
    (some : d.out.length < k.space) (le : p ≤ d.pos) :
    ∃ f w', run (fastMatch length offset) w = (.ok f, w') ∧
      Comes k input first p { d with phase := .MATCH length offset } w' f := by
  have used : w.out.length = d.out.length := by rw [same.out]
  have size : w.w_.size_ = k.window.size_ := by rw [same.window]
  by_cases far : d.out.length < offset
  · have stepped : k.step { d with phase := .MATCH length offset } =
        k.copy { d with phase := .MATCH length offset } length offset := by
      simp only [Block.step]
      rw [if_neg (by omega)]
    rw [Block.copy, if_pos far] at stepped
    simp only at stepped
    have begun : run (fastMatch length offset) w =
        run (if k.window.size_ < offset - d.out.length then fastError .invalid_distance
          else do
            copyWindow (offset - d.out.length) (min length (offset - d.out.length))
            fastOutput (length - min length (offset - d.out.length)) offset) w := by
      rw [fastMatch, run_get_bind]
      simp only
      rw [used, if_pos far, run_get_bind, size]
    rw [begun]
    by_cases beyond : k.window.size_ < offset - d.out.length
    · rw [if_pos beyond] at stepped ⊢
      obtain ⟨w', ran, comes⟩ := fastError_comes (p := p) same (leads_step stepped)
      exact ⟨.off, w', ran, comes⟩
    · rw [if_neg beyond, Nat.min_eq_left (Nat.le_trans (Nat.min_le_left _ _) room)] at stepped
      rw [if_neg beyond]
      have leads := leads_step stepped
      -- The window gives what it has of the match, and the output the rest.
      generalize amount : min length (offset - d.out.length) = n at leads ⊢
      rw [run_bind_ok (run_copyWindow (by rw [used, same.space]; omega))]
      have copied : Shows k input first { d with
          out := d.out ++ k.window.read (offset - d.out.length) n
          reads := d.reads ++ [(offset - d.out.length, n)] } { w with
          out := w.out ++ w.w_.read (offset - d.out.length) n
          reads := w.reads ++ [(offset - d.out.length, n)] } := by
        refine ⟨same.source, same.phase, ?_, ?_, same.ec, same.space, same.window⟩
        · simp only [same.out, same.window]
        · simp only [same.reads]
      have longer : (d.out ++ k.window.read (offset - d.out.length) n).length =
          d.out.length + n := by
        rw [List.length_append, Window.length_read]
      rw [Phase.rest] at leads
      by_cases none : length - n = 0
      · rw [if_pos none] at leads
        rw [none]
        refine ⟨.on, _, rfl, .on leads ⟨copied.source, ?_, copied.out, copied.reads, copied.ec,
          copied.space, copied.window⟩ rfl rfl le⟩
        rw [Work.phase]
        simp only [mode]
      · rw [if_neg none] at leads
        obtain ⟨w', ran, comes⟩ := fastOutput_comes (p := p) (length - n) copied mode
          positive (by simp only [longer]; omega) (by simp only [longer]; omega)
          (by simp only [longer]; omega) le
        exact ⟨.on, w', ran, comes.behind leads rfl⟩
  · obtain ⟨w', ran, comes⟩ := fastOutput_comes length same mode positive (by omega) room some le
    refine ⟨.on, w', ?_, comes⟩
    rw [fastMatch, run_get_bind]
    simp only
    rw [used, if_neg far, ran]

/-- A match is decoded as in the steps for its distance, the extra bits of that, and the copy. -/
theorem fastDist_comes (length : Nat) (same : Shows k input first d w) (mode : w.mode_ = .LEN)
    (bits : d.pos + 28 ≤ k.bits.length) (room : length ≤ k.space - d.out.length)
    (some : d.out.length < k.space) (le : p ≤ d.pos) :
    ∃ f w', run (fastDist k.codes.toCodes length) w = (.ok f, w') ∧
      Comes k input first p { d with phase := .DIST length } w' f := by
  obtain ⟨cp, n, s, decoded, looked, on⟩ :=
    run_fastLookup k.codes.dists (fun _ => Code.DistLeaf.not_link) tells_fastDistLink same.source bits
  obtain ⟨leaf, -, few, -⟩ :=
    k.codes.dists.decode_some (fun _ => Code.DistLeaf.not_link) decoded
  have stepped : k.step { d with phase := .DIST length } =
      Decoder.distance { d with pos := d.pos + n, phase := .DIST length } length cp := by
    simp only [Block.step]
    rw [decoded]
  have moved := same.moved on
  rw [Decoder.distance] at stepped
  rcases leaf with ⟨e, small, base, positive, -⟩ | invalid
  · obtain ⟨extra, -, bit, -, valid⟩ := base_op small base
    rw [if_neg (by omega), extra] at stepped
    -- The extra bits are taken where the decoder reads them.
    obtain ⟨u, filled, on', there⟩ := run_fillDistExtra e on (by omega) (by omega)
    obtain ⟨v, took, on''⟩ := run_fastExtra (w := { w with source := u }) on' there
    have stepped' : k.step { d with pos := d.pos + n, phase := .DISTEXT length cp.val e } =
        .inl { d with
          pos := d.pos + n + e
          phase := .MATCH length (cp.val + k.bits.slice (d.pos + n) e) } := by
      simp only [Block.step]
      rw [if_neg (by omega)]
    obtain ⟨f, w', ran, comes⟩ := fastMatch_comes (p := p) length
      (cp.val + k.bits.slice (d.pos + n) e) (same.moved on'') mode (by omega) room some
      (by simp only; omega)
    refine ⟨f, w', ?_, comes.behind ((leads_step stepped).trans (leads_step stepped')) rfl⟩
    rw [fastDist, run_bind_ok looked, if_pos (by omega), extra, run_bind_ok (run_onSource filled),
      run_bind_ok took, ran]
  · rw [invalid, if_pos (by decide)] at stepped
    obtain ⟨w', ran, comes⟩ := fastError_comes (p := p) moved (leads_step stepped)
    refine ⟨.off, w', ?_, comes⟩
    rw [fastDist, run_bind_ok looked, invalid, if_neg (by decide), ran]

/-- A write with input and room enough has the bits of a whole symbol, and room for it. -/
theorem Shows.roomy (same : Shows k input first d w) (roomy : w.roomy) :
    d.pos + 48 ≤ k.bits.length ∧ 258 ≤ k.space - d.out.length := by
  obtain ⟨octets, room⟩ := roomy
  have whole := same.source.whole
  rw [Work.availOut, same.out, same.space] at room
  exact ⟨by omega, room⟩

/-- A round without checks comes to what the decoder comes to behind the steps of a symbol. -/
theorem fastRound_comes (same : Shows k input first d w) (phase : d.phase = .LEN)
    (roomy : w.roomy) :
    ∃ f w', run (fastRound k.codes.toCodes) w = (.ok f, w') ∧
      Comes k input first (d.pos + 1) d w' f := by
  obtain ⟨bits, room⟩ := same.roomy roomy
  have mode : w.mode_ = .LEN := by rw [← w.phase_mode, same.phase, phase, Phase.mode]
  obtain ⟨cp, n, s, decoded, looked, on⟩ := run_fastLookup k.codes.lens
    (fun _ => Code.LenLeaf.not_link) tells_fastLenLink same.source (by omega)
  obtain ⟨leaf, took, few, -⟩ :=
    k.codes.lens.decode_some (fun _ => Code.LenLeaf.not_link) decoded
  have stepped : k.step d = Decoder.symbol { d with pos := d.pos + n } cp := by
    rw [Block.step, phase]
    simp only
    rw [decoded]
  have moved := same.moved on
  rw [Decoder.symbol] at stepped
  rw [fastRound, run_bind_ok looked]
  rcases leaf with literal | ⟨e, small, base, short⟩ | last | invalid
  · -- A literal is written at once, where the decoder takes a step for that.
    rw [if_pos literal] at stepped ⊢
    have stepped' : k.step { d with pos := d.pos + n, phase := .LIT cp.val } =
        .inl { d with pos := d.pos + n, out := d.out ++ [UInt8.ofNat cp.val], phase := .LEN } := by
      simp only [Block.step]
      rw [if_neg (by omega)]
    have fits : w.out.length + 1 ≤ w.space := by
      rw [same.out, same.space]
      omega
    refine ⟨.on, { w with source := s, out := w.out ++ [UInt8.ofNat cp.val] }, ?_,
      .on ((leads_step stepped).trans (leads_step stepped')) ⟨on, ?_, ?_, same.reads, same.ec,
        same.space, same.window⟩ rfl rfl (by simp only; omega)⟩
    · rw [run_bind_ok (run_put (w := { w with source := s }) [UInt8.ofNat cp.val] fits), run_pure]
    · rw [Work.phase]
      simp only [mode]
    · simp only [same.out]
  · obtain ⟨extra, -, bit, last, valid⟩ := base_op (by omega) base
    rw [if_neg (by omega), if_neg (by omega), if_neg (by omega), extra] at stepped
    rw [if_neg (by omega), if_pos (by omega), extra]
    have far := k.bits.slice_lt (d.pos + n) e
    have stepped' : k.step { d with pos := d.pos + n, phase := .LENEXT cp.val e } =
        .inl { d with
          pos := d.pos + n + e
          phase := .DIST (cp.val + k.bits.slice (d.pos + n) e) } := by
      simp only [Block.step]
      rw [if_neg (by omega)]
    have leads := (leads_step stepped).trans (leads_step stepped')
    by_cases none : e = 0
    · -- Without extra bits the length is the base itself.
      subst none
      rw [BitString.slice_zero] at leads far
      obtain ⟨f, w', ran, comes⟩ := fastDist_comes (p := d.pos + 1) cp.val moved mode
        (by simp only; omega) (by simp only; omega) (by simp only; omega) (by simp only; omega)
      refine ⟨f, w', ?_, comes.behind leads rfl⟩
      rw [if_neg (by omega), ran]
    · obtain ⟨u, filled, on', there⟩ := run_fillLenExtra e on (by omega) (by omega)
      obtain ⟨v, ran', on''⟩ := run_fastExtra (w := { w with source := u }) on' there
      obtain ⟨f, w', ran, comes⟩ := fastDist_comes (p := d.pos + 1)
        (cp.val + k.bits.slice (d.pos + n) e) (same.moved on'') mode
        (by simp only; omega) (by simp only; omega) (by simp only; omega) (by simp only; omega)
      refine ⟨f, w', ?_, comes.behind leads rfl⟩
      rw [if_pos none, run_bind_ok (run_onSource filled), run_bind_ok ran', ran]
  · -- The end of the block is left for the mode behind it.
    rw [last, if_neg (by decide), if_pos (by decide)] at stepped
    rw [last, if_neg (by decide), if_neg (by decide), if_pos (by decide)]
    refine ⟨.off, _, rfl, .last (leads_step stepped) ⟨on, rfl, same.out, same.reads, same.ec,
      same.space, same.window⟩ rfl rfl⟩
  · have bits : cp.op ≠ 0 ∧ cp.op &&& 16 = 0 ∧ cp.op &&& 32 = 0 ∧ cp.op &&& 64 ≠ 0 := by
      rcases invalid with op | op | op <;> rw [op] <;> decide
    obtain ⟨none, base, last, invalid⟩ := bits
    rw [if_neg none, if_neg (by omega), if_pos invalid] at stepped
    rw [if_neg none, if_neg (by omega), if_neg (by omega)]
    obtain ⟨w', ran, comes⟩ := fastError_comes (p := d.pos + 1) moved (leads_step stepped)
    exact ⟨.off, w', ran, comes⟩

end Rounds

end Beast.Zlib
