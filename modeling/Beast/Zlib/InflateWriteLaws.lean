import Beast.Zlib.FastPath
import Beast.Zlib.Reservoir

/-! What a write does within the blocks of a stream, whose symbols are decoded with checks and without them. -/

namespace Beast.Zlib

open Step Machine

/-- A step goes no way back, and reports no error where the decoder goes on. -/
theorem Block.step_kept {k : Block} {d d' : Decoder} (next : k.step d = .inl d') : d.pos ≤ d'.pos ∧ d'.ec = d.ec := by
  obtain ⟨pos, phase, out, reads, ec⟩ := d
  -- Bits are taken in some of the phases, and no step but the last one reports an error.
  cases phase <;> simp only [step, Decoder.symbol, Decoder.distance, copy] at next
  all_goals repeat' split at next
  all_goals cases next <;> simp

/-- Only at the end of a block does a decoder stop for a mode that is none of its own. -/
theorem Block.step_elsewhere {k : Block} {d e : Decoder} (stops : k.step d = .inr (.elsewhere, e)) : e = d := by
  simp only [step, Decoder.symbol, Decoder.distance, copy] at stops
  -- Every other branch that stops does so for another reason.
  repeat' split at stops
  all_goals cases stops
  rfl

namespace InflateStream

variable {flush : Flush} {s : InflateStream} {b : BitString} {input : Octets} {first pos n : Nat}

/-! ## Symbols -/

section Symbols

variable {k : Block} {d e : Decoder} {w : Work}

/-- The work on symbols begins with what it was left with. -/
theorem work_worked (window : w.w_ = s.w_.toWindow) (clear : w.ec = none) : (s.worked w).work = w := by
  obtain ⟨source, mode_, w_, length_, offset_, extra_, out, space, ec, reads⟩ := w
  dsimp only at window clear
  subst window clear
  rfl

/-- In the modes of symbols a turn is one of the work on them. -/
theorem turn_worked {w' : Work} (window : w.w_ = s.w_.toWindow) (clear : w.ec = none)
    (symbols : w.mode_ ∈ [.LEN, .LENEXT, .DIST, .DISTEXT, .MATCH, .LIT])
    (ran : run (if w.mode_ = .LEN then doLEN ⟨s.tree.lencode_, s.tree.distcode_⟩
      else doMode ⟨s.tree.lencode_, s.tree.distcode_⟩) w = (.ok (), w')) :
    turn flush (s.worked w) = .inl (s.worked w') := by
  have mode : (s.worked w).tree.mode_ = w.mode_ := rfl
  have chosen : run (doStream flush) (s.worked w) = run doSymbols (s.worked w) := by
    rw [doStream, run_get_bind, mode]
    simp only [List.mem_cons, List.not_mem_nil, or_false] at symbols
    rcases symbols with same | same | same | same | same | same <;> rw [same]
  have worked : run doSymbols (s.worked w) = (.ok (), s.worked w') := by
    rw [doSymbols, run_get_bind, run_get_bind, run_get_bind, mode]
    -- Either way the work is done on the same part of the state.
    split at ran
    · rename_i len
      rw [if_pos len, onWork, run_zoom, work_worked window clear]
      exact congrArg (fun r => (r.1, s.worked r.2)) ran
    · rename_i other
      rw [if_neg other, onWork, run_zoom, work_worked window clear]
      exact congrArg (fun r => (r.1, s.worked r.2)) ran
  rw [turn, chosen, worked]

/-- A decoder that goes on waits for something of a symbol. -/
theorem symbols_of_step {d' : Decoder} (same : Shows k input first d w) (next : k.step d = .inl d') :
    w.mode_ ∈ [.LEN, .LENEXT, .DIST, .DISTEXT, .MATCH, .LIT] := by
  rw [← w.phase_mode, same.phase]
  unfold Block.step at next
  cases phase : d.phase with
  | elsewhere m =>
    rw [phase] at next
    cases next
  | LEN | LENEXT | DIST | DISTEXT | MATCH | LIT => simp [Phase.mode]

/-- A decoder that is at the end of a block stops there. -/
theorem ends_elsewhere {m : Mode} {r : Halt × Decoder} (phase : d.phase = .elsewhere m)
    (ended : Ends k.step (.inl d) r) : r = (.elsewhere, d) := by
  have stops : k.step d = .inr (.elsewhere, d) := by rw [Block.step, phase]
  rw [ends_inl, stops] at ended
  exact (ends_inr.mp ended).symm

/--
Where a decoder comes to the end of a block, so does a write, with checks and without them in any order.

The reservoir had no whole octet in it when the write began.
-/
theorem symbols_reach {begin_ : Source} (codes : k.codes.toCodes = ⟨s.tree.lencode_, s.tree.distcode_⟩)
    (window : k.window = s.w_.toWindow) (start : begin_.On k.bits input first 0) (from_ : begin_.next = first)
    (few : begin_.bi_.n_ < 8) (ended : Ends k.step (.inl d) (.elsewhere, e)) (fine : d.Fine k)
    (same : Shows k input first d w) (clear : d.ec = none) (held : w.source.Few) :
    ∃ n w', iterate (turn flush) n (.inl (s.worked w)) = .inl (s.worked w') ∧ Shows k input first e w' ∧
      w'.source.Few := by
  -- Each turn takes a bit, or leaves less to the decoder.
  induction hm : (k.bits.length - d.pos, k.left d) using (Prod.lex Nat.lt_wfRel Nat.lt_wfRel).wf.induction
    generalizing d w with
  | _ m ih =>
    subst hm
    have window' : w.w_ = s.w_.toWindow := same.window.trans window
    have clear' : w.ec = none := same.ec.trans clear
    by_cases unchecked : w.mode_ = .LEN ∧ w.roomy
    · obtain ⟨mode, roomy⟩ := unchecked
      have phase : d.phase = .LEN := by rw [← same.phase, Work.phase, mode]
      obtain ⟨f, w', p, ran, comes, further⟩ := inflate_fast_comes start from_ few same phase roomy
      -- Without an error the loop over the modes goes on.
      have turned : w'.ec = none → turn flush (s.worked w) = .inl (s.worked w') := by
        intro good
        refine turn_worked window' clear' (by rw [mode]; simp) ?_
        rw [if_pos mode, doLEN, run_get_bind, if_pos roomy, ← codes, run_bind_ok ran, run_get_bind, good]
        rfl
      cases comes with
      | @on d' leads same' phase' kept later =>
        have whole := same'.source.whole
        have fewer : k.bits.length - d'.pos < k.bits.length - d.pos := by omega
        obtain ⟨n, w'', reached, shown⟩ := ih (k.bits.length - d'.pos, k.left d') (Prod.Lex.left _ _ fewer)
          (leads _ ended) (same'.along (by rw [phase']; trivial)).1 same' (kept.trans clear) (few_inflate_fast ran) rfl
        refine ⟨n + 1, w'', ?_, shown⟩
        rw [iterate, turned (by rw [same'.ec, kept, clear]), reached]
      | @last d' leads same' phase' kept =>
        -- This is the end of the block.
        cases ends_elsewhere phase' (leads _ ended)
        refine ⟨1, w', ?_, same', few_inflate_fast ran⟩
        rw [iterate, turned (by rw [same'.ec, kept, clear]), iterate]
      | @error d' leads same' phase' told =>
        have wrong := ends_inr.mp (leads _ ended)
        cases wrong
    · -- What is done is done with checks.
      have checked : run (if w.mode_ = .LEN then doLEN ⟨s.tree.lencode_, s.tree.distcode_⟩
          else doMode ⟨s.tree.lencode_, s.tree.distcode_⟩) w = run (doMode k.codes.toCodes) w := by
        rw [codes]
        split
        · rename_i mode
          rw [doLEN, run_get_bind, if_neg fun roomy => unchecked ⟨mode, roomy⟩, doMode, run_get_bind, mode]
        · rfl
      have shown := turn_shows fine same
      rcases stepped : k.step d with d' | r
      · obtain ⟨further, kept⟩ := Block.step_kept stepped
        obtain ⟨fine', nearer⟩ := Block.step_nearer fine stepped
        rw [stepped, Zlib.turn] at shown
        rw [ends_inl, stepped] at ended
        rcases ran : run (doMode k.codes.toCodes) w with ⟨a | u, w'⟩
        · rw [ran] at shown
          cases shown
        · rw [ran] at shown
          cases shown with
          | inl same' =>
            obtain ⟨n, w'', reached, shown⟩ := ih (k.bits.length - d'.pos, k.left d')
              (Prod.Lex.right' _ (by omega) nearer) ended fine' same'
              (kept.trans clear) (few_doMode _ w held _ _ ran) rfl
            refine ⟨n + 1, w'', ?_, shown⟩
            rw [iterate, @turn_worked flush s w w' window' clear' (symbols_of_step same stepped) (checked.trans ran),
              reached]
      · -- Where the decoder stops it has come to the end of the block.
        rw [ends_inl, stepped, ends_inr] at ended
        subst ended
        cases Block.step_elsewhere stepped
        exact ⟨0, w, rfl, same, held⟩

/-- Work that leaves everything as it is comes to the same state. -/
theorem worked_work (clear : s.ec = none) : s.worked s.work = s := by
  obtain ⟨tree, last_, w_, fresh, length_, offset_, extra_, out, space, ec, reads⟩ := s
  dsimp only at clear
  subst clear
  rfl

end Symbols

end InflateStream

end Beast.Zlib
