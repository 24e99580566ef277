import Beast.Lib.BitString
import Beast.Zlib.Bitstream

/-! What the reservoir does with the string of bits that the input stands for. -/

namespace Beast.Zlib.Source

open Step

variable {b : BitString} {input : Octets} {first pos n k : Nat} {s : Source}

/--
A reservoir with its input is at a place of a string of bits.

It has taken the octets of the input in their order, from some place on.
-/
structure On (b : BitString) (input : Octets) (first pos : Nat) (s : Source) : Prop where
  reads : BitString.At b pos s.bi_.v_ s.bi_.n_ (s.input.drop s.next)
  input : s.input = input
  since : first ≤ s.next
  inside : s.next ≤ s.input.length

/-- The string of bits that lies before a reservoir and its input. -/
def bits (s : Source) : BitString := BitString.ahead s.bi_.v_ s.bi_.n_ (s.input.drop s.next)

/-- A reservoir is at the first of the bits that lie before it. -/
theorem on_bits (inside : s.next ≤ s.input.length) : On s.bits s.input s.next 0 s :=
  ⟨BitString.at_ahead s.bi_.small _, rfl, Nat.le_refl _, inside⟩

/-- The place of a reservoir, its bits and the octets left make up the whole string. -/
theorem On.whole (on : On b input first pos s) : pos + s.bi_.n_ + 8 * s.avail = b.length := by
  have length := on.reads.length
  rwa [List.length_drop] at length

/-- Two reservoirs at the same place of a string have the same place in the input, in bits. -/
theorem On.position {s' : Source} {first' : Nat} (on : On b input first pos s)
    (on' : On b input first' pos s') :
    8 * (s.next : Int) - s.bi_.n_ = 8 * (s'.next : Int) - s'.bi_.n_ := by
  have whole := on.whole
  have whole' := on'.whole
  have inside := on.inside
  have inside' := on'.inside
  rw [avail, on.input] at whole
  rw [avail, on'.input] at whole'
  rw [on.input] at inside
  rw [on'.input] at inside'
  omega

/-- An assertion that holds changes nothing. -/
theorem run_asserted {σ α : Type} {holds : Prop} [Decidable holds] (h : holds) (s : σ)
    (f : Unit → Step Halt σ α) : run (asserted holds >>= f) s = run (f ()) s := by
  rw [asserted, if_pos h, run_pure_bind]

/-- Bits that are there are discarded. -/
theorem run_drop (on : On b input first pos s) (le : n ≤ s.bi_.n_) :
    ∃ t, run (drop n) s = (.ok (), t) ∧ On b input first (pos + n) t ∧
      t.bi_.n_ = s.bi_.n_ - n := by
  refine ⟨{ s with bi_ := s.bi_.without n }, ?_, ⟨?_, on.input, on.since, on.inside⟩, rfl⟩
  · rw [drop, run_get_bind, run_asserted le, run_modify]
  · have dropped := on.reads.drop le
    rwa [← Nat.shiftRight_eq_div_pow] at dropped

/-- An octet is taken where there is one, and fits. -/
theorem run_fill_8 (on : On b input first pos s) (left : 0 < s.avail) (fits : s.bi_.n_ ≤ 24) :
    ∃ t, run fill_8 s = (.ok (), t) ∧ On b input first pos t ∧ t.bi_.n_ = s.bi_.n_ + 8 := by
  have behind : s.next < s.input.length := by
    rw [avail] at left
    omega
  have taken := on.reads
  rw [List.drop_eq_getElem_cons behind] at taken
  -- The octet fits above the bits of the reservoir, so no bit of it is cut off.
  have within : s.bi_.v_ + s.input[s.next].toNat <<< s.bi_.n_ < 2 ^ 32 := by
    refine Nat.lt_of_lt_of_le (Bitstream.add_shiftLeft_lt s.bi_.small _) ?_
    exact Nat.pow_le_pow_right (by omega) (by omega)
  refine ⟨{ s with bi_ := s.bi_.push s.input[s.next], next := s.next + 1 }, ?_, ?_, rfl⟩
  · rw [fill_8, run_get_bind, List.getElem?_eq_getElem behind]
    simp only
    rw [if_neg (by omega), run_set]
  · refine ⟨?_, on.input, Nat.le_succ_of_le on.since, behind⟩
    have pushed := taken.take
    rwa [← Nat.shiftLeft_eq, ← Nat.mod_eq_of_lt within] at pushed

/-- Two octets are taken where there are as many, and fit. -/
theorem run_fill_16 (on : On b input first pos s) (left : 2 ≤ s.avail) (fits : s.bi_.n_ ≤ 16) :
    ∃ t, run fill_16 s = (.ok (), t) ∧ On b input first pos t ∧ t.bi_.n_ = s.bi_.n_ + 16 := by
  obtain ⟨u, ran, on', grown⟩ := run_fill_8 on (by omega) (by omega)
  -- The string is no longer than before, so one octet is left at least.
  have whole := on.whole
  have whole' := on'.whole
  obtain ⟨t, ran', on'', grown'⟩ := run_fill_8 on' (by omega) (by omega)
  exact ⟨t, by rw [fill_16, run_bind_ok ran, ran'], on'', by omega⟩

/-- Octets are taken until there are enough bits, which are there if the string is long enough. -/
theorem run_fillFrom (small : n ≤ 25) {left : Nat} (on : On b input first pos s)
    (all : s.avail = left) :
    ∃ t, run (fillFrom n left) s = (.ok (decide (pos + n ≤ b.length)), t) ∧
      On b input first pos t ∧ (pos + n ≤ b.length → n ≤ t.bi_.n_) := by
  -- The induction is on the octets that are left.
  induction left generalizing s with
  | zero =>
    have whole := on.whole
    have enough : pos + n ≤ b.length ↔ n ≤ s.bi_.n_ := by omega
    refine ⟨s, ?_, on, enough.mp⟩
    rw [fillFrom, run_get_bind, run_pure, decide_eq_decide.mpr enough]
  | succ left ih =>
    by_cases few : s.bi_.n_ < n
    · obtain ⟨u, ran, on', grown⟩ := run_fill_8 on (by omega) (by omega)
      have whole := on.whole
      have whole' := on'.whole
      obtain ⟨t, ran', on'', enough⟩ := ih on' (by omega)
      refine ⟨t, ?_, on'', enough⟩
      rw [fillFrom, run_get_bind, if_pos few, run_bind_ok ran, ran']
    · -- There are enough bits already, and they are of the string.
      have whole := on.whole
      have enough : pos + n ≤ b.length := by omega
      refine ⟨s, ?_, on, fun _ => by omega⟩
      rw [fillFrom, run_get_bind, if_neg few, run_pure, decide_eq_true enough]

/-- There are so many bits behind a fill, if the string is long enough. -/
theorem run_fill (small : n ≤ 25) (on : On b input first pos s) :
    ∃ t, run (fill n) s = (.ok (decide (pos + n ≤ b.length)), t) ∧
      On b input first pos t ∧ (pos + n ≤ b.length → n ≤ t.bi_.n_) := by
  rw [fill, run_get_bind]
  exact run_fillFrom small on rfl

/-- Bits of a string that fit into a number are not cut off. -/
theorem slice_mod_width {width : Nat} (b : BitString) (pos : Nat) (le : n ≤ width) :
    b.slice pos n % 2 ^ width = b.slice pos n := by
  apply Nat.mod_eq_of_lt
  exact Nat.lt_of_lt_of_le (b.slice_lt pos n) (Nat.pow_le_pow_right (by omega) le)

/-- The next bits of the string are seen in the reservoir. -/
theorem run_peek (width : Nat) (on : On b input first pos s) (le : n ≤ s.bi_.n_) (fits : n ≤ width) :
    run (peek width n) s = (.ok (b.slice pos n), s) := by
  rw [peek, run_asserted fits, run_get_bind, run_asserted le, run_get_bind, run_pure,
    on.reads.peek le, slice_mod_width b pos fits]

/-- The next bits of the string are read from the reservoir, which keeps the others. -/
theorem run_read_left (width : Nat) (on : On b input first pos s) (le : n ≤ s.bi_.n_) (fits : n ≤ width)
    (small : n < 32) :
    ∃ t, run (read width n) s = (.ok (b.slice pos n), t) ∧ On b input first (pos + n) t ∧
      t.bi_.n_ = s.bi_.n_ - n := by
  refine ⟨{ s with bi_ := s.bi_.without n }, ?_, ⟨?_, on.input, on.since, on.inside⟩, rfl⟩
  · rw [read, run_asserted small, run_get_bind, run_asserted le, run_get_bind]
    simp only
    rw [run_modify_bind, run_pure, on.reads.peek le, slice_mod_width b pos fits]
  · have dropped := on.reads.drop le
    rwa [← Nat.shiftRight_eq_div_pow] at dropped

/-- The next bits of the string are read from the reservoir. -/
theorem run_read (width : Nat) (on : On b input first pos s) (le : n ≤ s.bi_.n_) (fits : n ≤ width)
    (small : n < 32) :
    ∃ t, run (read width n) s = (.ok (b.slice pos n), t) ∧ On b input first (pos + n) t := by
  obtain ⟨t, ran, on', -⟩ := run_read_left width on le fits small
  exact ⟨t, ran, on'⟩

/-- Whole octets are given back that were taken, and the place in the string stays. -/
theorem run_rewind {s' : Source} (start : On b input first 0 s') (from' : s'.next = first)
    (few : s'.bi_.n_ < 8) (on : On b input first pos s) :
    ∃ t, run rewind s = (.ok (), t) ∧ On b input first pos t := by
  have begun := start.reads
  have reads := on.reads
  have inside := on.inside
  rw [start.input, from'] at begun
  rw [on.input] at reads inside
  -- The octets given back were taken since the start, so that they are those of the input.
  obtain ⟨back, rewound⟩ := begun.rewind few reads on.since inside
  have octets : s.bi_.n_ >>> 3 = s.bi_.n_ / 8 := Nat.shiftRight_eq_div_pow _ 3
  refine ⟨{ s with bi_ := s.bi_.partOctet, next := s.next - s.bi_.n_ >>> 3 }, ?_, ?_⟩
  · rw [rewind, run_get_bind]
    simp only
    rw [if_neg (by omega), run_set]
  · refine ⟨?_, on.input, ?_, ?_⟩
    · rw [octets, on.input]
      exact rewound
    · simp only
      omega
    · simp only
      rw [on.input]
      omega

end Beast.Zlib.Source
