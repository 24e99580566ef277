import Beast.Zlib.FastLaws
import Mathlib.Tactic.IntervalCases

/-! Decoding without checks, and then with them, comes to what decoding with checks alone does. -/

namespace Beast.Zlib

open Step Machine

variable {k : Block} {input : Octets} {first : Nat} {d : Decoder} {w : Work}

/-- A decoder that is shown is within its string of bits. -/
theorem Shows.along (same : Shows k input first d w) (phase : d.phase.Fine) :
    Along k input first d w := by
  have whole := same.source.whole
  exact ⟨⟨by omega, phase⟩, same⟩

/-- Where the loop over the modes goes on behind the unchecked loop, or is left. -/
def behindFast (w : Work) : Work ⊕ Halt × Work :=
  if w.mode_ = .BAD then .inr (.returns, w) else .inl w

/-- What the unchecked loop has come to is what a decoder comes to behind some of its steps. -/
structure Came (k : Block) (input : Octets) (first : Nat) (d : Decoder) (w' : Work)
    (y : Decoder ⊕ Halt × Decoder) : Prop where
  leads : Leads k.step (.inl d) y
  same : Sum.LiftRel (Along k input first) (ShowsEnd k input first) y (behindFast w')
  clear : d.ec = none → (w'.ec.isSome ↔ w'.mode_ = .BAD)

/-- The unchecked loop may end where it does not go on, and where it has come to a code. -/
theorem Comes.came {f : Fast} {w' : Work} {p : Nat} (comes : Comes k input first p d w' f) :
    ∃ y, Came k input first d w' y := by
  -- The mode tells which of the three it was, and so does the error where there was none before.
  cases comes with
  | @on d' leads same phase kept further =>
    have mode : w'.mode_ = .LEN := by rw [← w'.phase_mode, same.phase, phase, Phase.mode]
    refine ⟨.inl d', leads, ?_, fun clear => ?_⟩
    · rw [behindFast, if_neg (by rw [mode]; decide)]
      exact .inl (same.along (by rw [phase]; trivial))
    · rw [same.ec, kept, clear, mode]
      decide
  | @last d' leads same phase kept =>
    have mode : w'.mode_ = .TYPE := by rw [← w'.phase_mode, same.phase, phase, Phase.mode]
    refine ⟨.inl d', leads, ?_, fun clear => ?_⟩
    · rw [behindFast, if_neg (by rw [mode]; decide)]
      exact .inl (same.along (by rw [phase]; trivial))
    · rw [same.ec, kept, clear, mode]
      decide
  | @error d' leads same phase told =>
    have mode : w'.mode_ = .BAD := by rw [← w'.phase_mode, same.phase, phase, Phase.mode]
    refine ⟨.inr (.returns, d'), leads, ?_, fun _ => ?_⟩
    · rw [behindFast, if_pos mode]
      exact .inr ⟨rfl, same⟩
    · rw [same.ec, mode]
      exact iff_of_true told rfl

/-- The rounds without checks come to what a decoder comes to, in as many rounds as there are bits. -/
theorem fastLoop_comes (fuel : Nat) (same : Shows k input first d w) (phase : d.phase = .LEN)
    (roomy : w.roomy) (enough : k.bits.length - d.pos ≤ fuel) :
    ∃ f w' p, run (fastLoop k.codes.toCodes fuel) w = (.ok (), w') ∧
      Comes k input first p d w' f ∧ d.pos < p := by
  -- The induction is on the rounds, each of which takes a bit at least.
  induction fuel generalizing d w with
  | zero =>
    obtain ⟨bits, -⟩ := same.roomy roomy
    omega
  | succ fuel ih =>
    obtain ⟨f, w', ran, comes⟩ := fastRound_comes same phase roomy
    cases f with
    | off =>
      refine ⟨.off, w', _, ?_, comes, Nat.lt_succ_self _⟩
      rw [fastLoop, run_bind_ok ran]
      rfl
    | on =>
      by_cases again : w'.roomy
      · cases comes with
        | on leads same' phase' kept further =>
          obtain ⟨f, w'', p, ran', comes', later⟩ := ih same' phase' again (by omega)
          refine ⟨f, w'', p, ?_, comes'.behind leads kept, by omega⟩
          rw [fastLoop, run_bind_ok ran]
          simp only
          rw [run_get_bind, if_pos again, ran']
      · refine ⟨.on, w', _, ?_, comes, Nat.lt_succ_self _⟩
        rw [fastLoop, run_bind_ok ran]
        simp only
        rw [run_get_bind, if_neg again, run_pure]

/-- Only the reservoir differs where the unchecked loop gives octets back, and not its place. -/
theorem Comes.rewound {f : Fast} {w' : Work} {p : Nat} {s : Source} (comes : Comes k input first p d w' f)
    (on : ∀ pos, w'.source.On k.bits input first pos → s.On k.bits input first pos) :
    Comes k input first p d { w' with source := s } f := by
  cases comes with
  | on leads same phase kept further => exact .on leads (same.moved (on _ same.source)) phase kept further
  | last leads same phase kept => exact .last leads (same.moved (on _ same.source)) phase kept
  | error leads same phase told => exact .error leads (same.moved (on _ same.source)) phase told

/-- What the unchecked loop has come to shows a decoder, whether it goes on or not. -/
theorem Comes.shows {f : Fast} {w' : Work} {p : Nat} (comes : Comes k input first p d w' f) :
    ∃ d', Shows k input first d' w' := by
  cases comes with
  | on leads same => exact ⟨_, same⟩
  | last leads same => exact ⟨_, same⟩
  | error leads same => exact ⟨_, same⟩

/--
The unchecked loop, with whole octets given back, comes to what a decoder comes to.

The octets were taken since a place at which there was no whole octet in the reservoir.
-/
theorem inflate_fast_comes {begin_ : Source} (start : begin_.On k.bits input first 0) (from_ : begin_.next = first)
    (few : begin_.bi_.n_ < 8) (same : Shows k input first d w) (phase : d.phase = .LEN) (roomy : w.roomy) :
    ∃ f w' p, run (inflate_fast k.codes.toCodes) w = (.ok (), w') ∧ Comes k input first p d w' f ∧ d.pos < p := by
  have whole := same.source.whole
  obtain ⟨f, u, p, looped, comes, further⟩ := fastLoop_comes
    (w.source.bi_.n_ + 8 * w.source.avail) same phase roomy (by omega)
  obtain ⟨e, there⟩ := comes.shows
  obtain ⟨s, rewound, -⟩ := Source.run_rewind start from_ few there.source
  refine ⟨f, { u with source := s }, p, ?_, comes.rewound fun pos on => ?_, further⟩
  · rw [inflate_fast, run_get_bind, run_get_bind, run_bind_ok looped, run_onSource rewound]
  · -- The reservoir is at the place where it was before octets were given back.
    obtain ⟨s', rewound', on'⟩ := Source.run_rewind start from_ few on
    rw [rewound] at rewound'
    cases rewound'
    exact on'

/-- The unchecked loop comes to what a decoder comes to from its start. -/
theorem inflate_fast_came (same : Shows k input w.source.next d w) (start : d.pos = 0)
    (phase : d.phase = .LEN) (roomy : w.roomy) (few : w.source.bi_.n_ < 8) :
    ∃ w' y, run (inflate_fast k.codes.toCodes) w = (.ok (), w') ∧
      Came k input w.source.next d w' y := by
  have begun := same.source
  rw [start] at begun
  obtain ⟨f, w', p, ran, comes, -⟩ := inflate_fast_comes begun rfl few same phase roomy
  obtain ⟨y, came⟩ := comes.came
  exact ⟨w', y, ran, came⟩

/-- What can be told of a write where the loop over the modes is left. -/
structure Outcome where
  halt : Halt
  out : Octets
  /-- The place in the input, in bits: those in the reservoir were not read yet. -/
  position : Int
  mode_ : Mode
  /-- What is waited for, with what was read of the symbol. -/
  phase : Phase
  reads : List (Nat × Nat)
  ec : Option Error

/-- The outcome of a write. -/
def outcome (r : Halt × Work) : Outcome where
  halt := r.1
  out := r.2.out
  position := 8 * (r.2.source.next : Int) - r.2.source.bi_.n_
  mode_ := r.2.mode_
  phase := r.2.phase
  reads := r.2.reads
  ec := r.2.ec

/-- The same result of a decoder is shown by one outcome. -/
theorem ShowsEnd.outcome {r : Halt × Decoder} {r₁ r₂ : Halt × Work}
    (one : ShowsEnd k input first r r₁) (other : ShowsEnd k input first r r₂) :
    Zlib.outcome r₁ = Zlib.outcome r₂ := by
  obtain ⟨reason, one⟩ := one
  obtain ⟨reason', other⟩ := other
  have position := one.source.position other.source
  have phase := one.phase.trans other.phase.symm
  rw [Zlib.outcome, Zlib.outcome, Outcome.mk.injEq]
  refine ⟨reason.trans reason'.symm, one.out.trans other.out.symm, position, ?_, phase,
    one.reads.trans other.reads.symm, one.ec.trans other.ec.symm⟩
  rw [← Work.phase_mode, ← Work.phase_mode, phase]

section Path

variable (t : ValidCodes) (w : Work)

/-- The block that a write has before it. -/
def Work.block : Block := ⟨t, w.source.bits, w.w_, w.space⟩

/-- A decoder that waits for the first code of the block. -/
def Work.decoder : Decoder := ⟨0, .LEN, w.out, w.reads, w.ec⟩

/-- A write in mode `LEN` shows the decoder of what is before it. -/
theorem Work.shows (mode : w.mode_ = .LEN) (inside : w.source.next ≤ w.source.input.length) :
    Shows (w.block t) w.source.input w.source.next w.decoder w := by
  refine ⟨Source.on_bits inside, ?_, rfl, rfl, rfl, rfl, rfl⟩
  rw [Work.phase, mode]
  rfl

variable (mode : w.mode_ = .LEN) (few : w.source.bi_.n_ < 8) (octets : 6 ≤ w.source.avail)
  (room : 258 ≤ w.availOut)
include mode few octets room

/--
The unchecked loop, with the checked modes behind it, does what the checked modes do alone.

Both come to an end without a fault, and with the same outcome.
-/
theorem inflate_fast_checked :
    ∃ r r', Ends (turn t.toCodes) (.inl w) r ∧ Ends (turn t.toCodes) (fastTurn t.toCodes w) r' ∧
      (∀ f, r.1 ≠ .fault f) ∧ outcome r' = outcome r := by
  have inside : w.source.next ≤ w.source.input.length := by
    rw [Source.avail] at octets
    omega
  have same := w.shows t mode inside
  have along := same.along (show w.decoder.phase.Fine from trivial)
  obtain ⟨r, ended⟩ := Block.ends along.1
  -- The checked modes go along with the decoder from where it starts.
  obtain ⟨r₁, checked, shown₁⟩ := checked_ends ended (.inl along)
  -- The unchecked loop comes to where the decoder passes, and the checked modes go on from there.
  obtain ⟨w', y, ran, leads, shown, -⟩ := inflate_fast_came same rfl rfl ⟨octets, room⟩ few
  obtain ⟨r₂, fast, shown₂⟩ := checked_ends (leads r ended) shown
  have behind : fastTurn t.toCodes w = behindFast w' := by
    rw [fastTurn, show run (inflate_fast t.toCodes) w = (.ok (), w') from ran]
    rfl
  refine ⟨r₁, r₂, checked, by rw [behind]; exact fast, fun f => ?_, shown₂.outcome shown₁⟩
  rw [shown₁.1]
  rcases ended.last with here | ⟨d, stops⟩
  · cases here
  · exact Block.step_stops stops f

end Path

/-- A table for one literal, one length and the end of the block, the last two behind a link. -/
def fewLens : Table where
  entries i := [⟨0, 1, 97⟩, ⟨1, 1, 2⟩, ⟨96, 1, 0⟩, ⟨16, 1, 3⟩].getD i ⟨64, 1, 0⟩
  bits := 1

/-- A table for the distance to the last octet. -/
def fewDists : Table where
  entries i := [⟨16, 1, 1⟩].getD i ⟨64, 1, 0⟩
  bits := 1

/-- Valid tables with a link. -/
def fewCodes : ValidCodes where
  lencode := fewLens
  distcode := fewDists
  lens := by
    refine ⟨by decide, fun i small => ?_⟩
    have within : i < 2 := small
    interval_cases i
    · exact .inl ⟨.inl rfl, by decide, by decide⟩
    · refine .inr ⟨by decide, by decide, by decide, fun j small => ?_⟩
      have within : j < 2 := small
      interval_cases j
      · exact ⟨.inr (.inr (.inl rfl)), by decide, by decide⟩
      · exact ⟨.inr (.inl ⟨0, by decide, by decide, by decide⟩), by decide, by decide⟩
  dists := by
    refine ⟨by decide, fun i small => ?_⟩
    have within : i < 2 := small
    interval_cases i
    · exact .inl ⟨.inl ⟨0, by decide, by decide, by decide, by decide⟩, by decide, by decide⟩
    · exact .inl ⟨.inr rfl, by decide, by decide⟩

/-- A write with two literals, a match and the end of the block before it. -/
def fewSymbols : Work where
  source := ⟨{}, [0x2c, 0, 0, 0, 0, 0, 0, 0, 0, 0], 0⟩
  mode_ := .LEN
  w_ := ⟨fun _ => 0, 0, 0, 256⟩
  length_ := 0
  offset_ := 0
  extra_ := 0
  out := []
  space := 300
  ec := none
  reads := []

theorem inflate_fast_few :
    ∃ r r', Ends (turn fewCodes.toCodes) (.inl fewSymbols) r ∧
      Ends (turn fewCodes.toCodes) (fastTurn fewCodes.toCodes fewSymbols) r' ∧
      (∀ f, r.1 ≠ .fault f) ∧ outcome r' = outcome r :=
  inflate_fast_checked fewCodes fewSymbols rfl (by decide) (by decide) (by decide)

section Loop

variable (t : ValidCodes) (w : Work)

/-- From a clear error, mode `LEN` of the loop decodes without checks in just this way. -/
theorem doLEN_fast (mode : w.mode_ = .LEN) (few : w.source.bi_.n_ < 8) (roomy : w.roomy)
    (clear : w.ec = none) :
    (match run (doLEN t.toCodes) w with
      | (.ok _, w) => .inl w
      | (.error h, w) => .inr (h, w)) = fastTurn t.toCodes w := by
  have inside : w.source.next ≤ w.source.input.length := by
    have octets := roomy.1
    rw [Source.avail] at octets
    omega
  obtain ⟨w', y, ran, -, -, told⟩ := inflate_fast_came (w.shows t mode inside) rfl rfl roomy few
  have ran' : run (inflate_fast t.toCodes) w = (.ok (), w') := ran
  rw [fastTurn, doLEN, run_get_bind, if_pos roomy, run_bind_ok ran', ran', run_get_bind]
  -- There is an error just where the mode is the one for bad data.
  by_cases bad : w'.mode_ = .BAD
  · simp only [if_pos bad, if_pos ((told clear).mpr bad)]
    rw [setMode, run_modify_bind, run_stop, ← bad]
  · simp only [if_neg bad, if_neg (mt (told clear).mp bad)]
    rfl

end Loop

end Beast.Zlib
