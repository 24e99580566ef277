import Beast.Zlib.Decoder
import Mathlib.Tactic.IntervalCases

/-! A decoder takes bits of every code that it reads, and stops somewhere. -/

namespace Beast.Zlib

open Machine

/-- What a code for literals and lengths may stand for is no link. -/
theorem Code.LenLeaf.not_link {cp : Code} (leaf : cp.LenLeaf) : ¬cp.IsLink := by
  intro link
  obtain ⟨positive, small⟩ := link
  rcases leaf with literal | ⟨e, -, op, -⟩ | other | other | other | other <;> omega

/-- What a code for distances may stand for is no link. -/
theorem Code.DistLeaf.not_link {cp : Code} (leaf : cp.DistLeaf) : ¬cp.IsLink := by
  intro link
  obtain ⟨positive, small⟩ := link
  rcases leaf with ⟨e, -, op, -⟩ | other <;> omega

namespace Table

variable {t : Table} {IsLeaf : Code → Prop} {b : BitString} {pos n : Nat} {cp : Code}

/-- The entry behind a link that the next bits lead to. -/
def behind (t : Table) (b : BitString) (pos : Nat) (cp : Code) : Code :=
  t.entries (cp.val + b.slice (pos + cp.bits) cp.op)

/-- A code ends behind a link, whatever the next bits are. -/
theorem Linked.behind (linked : t.Linked IsLeaf cp) (b : BitString) (pos : Nat) :
    Code.Final IsLeaf cp.op (t.behind b pos cp) :=
  linked.final _ (b.slice_lt _ _)

/-- Nothing is decoded where there are fewer bits than an index has. -/
theorem decode_short (short : b.length < pos + t.bits) : t.decode b pos = none := by
  rw [decode, if_pos short]

section Entries

variable (enough : pos + t.bits ≤ b.length) (entry : t.entries (b.slice pos t.bits) = cp)
include enough entry

/-- A code that ends at its first entry takes the bits of that entry. -/
theorem decode_final (final : ¬cp.IsLink) : t.decode b pos = some (cp, cp.bits) := by
  rw [decode, if_neg (by omega), entry]
  simp only
  rw [if_neg final]

/-- Nothing is decoded where there are fewer bits than a link asks for. -/
theorem decode_linked_short (link : cp.IsLink) (short : b.length < pos + (cp.bits + cp.op)) :
    t.decode b pos = none := by
  rw [decode, if_neg (by omega), entry]
  simp only
  rw [if_pos link, if_pos short]

/-- A code behind a link takes the bits of the link and those of its own entry. -/
theorem decode_linked (link : cp.IsLink) (fits : pos + (cp.bits + cp.op) ≤ b.length) :
    t.decode b pos = some (t.behind b pos cp, cp.bits + (t.behind b pos cp).bits) := by
  rw [decode, if_neg (by omega), entry]
  simp only
  rw [if_pos link, if_neg (by omega)]
  rfl

end Entries

section Valid

variable (valid : t.Valid IsLeaf) (apart : ∀ cp, IsLeaf cp → ¬cp.IsLink)
include valid apart

/-- A code that was decoded stands for something, and takes some of the bits that are there. -/
theorem Valid.decode_some (decoded : t.decode b pos = some (cp, n)) :
    IsLeaf cp ∧ 1 ≤ n ∧ n ≤ 15 ∧ pos + n ≤ b.length := by
  have root := valid.bits
  by_cases enough : pos + t.bits ≤ b.length
  · rcases valid.entry _ (b.slice_lt pos t.bits) with final | linked
    · rw [decode_final enough rfl (apart _ final.leaf)] at decoded
      cases decoded
      have bits := final.bits
      exact ⟨final.leaf, final.positive, by omega, by omega⟩
    · by_cases fits : pos + ((t.entries (b.slice pos t.bits)).bits +
          (t.entries (b.slice pos t.bits)).op) ≤ b.length
      · rw [decode_linked enough rfl linked.link fits] at decoded
        cases decoded
        -- The entry behind the link takes no more bits than the link looks at.
        have final := linked.behind b pos
        have bits := final.bits
        have positive := final.positive
        have whole := linked.bits
        exact ⟨final.leaf, by omega, by omega, by omega⟩
      · rw [decode_linked_short enough rfl linked.link (by omega)] at decoded
        cases decoded
  · rw [decode_short (by omega)] at decoded
    cases decoded

end Valid

end Table

/-- What is known of the numbers that a decoder has read of a symbol. -/
def Phase.Fine : Phase → Prop
  | .LENEXT _ extra => extra ≤ 15
  | .DISTEXT _ offset extra => extra ≤ 15 ∧ 1 ≤ offset ∧ offset + 2 ^ extra ≤ 32769
  | .MATCH _ offset => 1 ≤ offset ∧ offset ≤ 32768
  | _ => True

/-- A decoder is within its string of bits, and has read what valid tables admit. -/
structure Decoder.Fine (k : Block) (d : Decoder) : Prop where
  inside : d.pos ≤ k.bits.length
  phase : d.phase.Fine

/-- How many turns a decoder takes at most for what it waits for. -/
def Phase.rank : Phase → Nat
  | .LENEXT _ _ => 4
  | .DIST _ => 3
  | .DISTEXT _ _ _ => 2
  | .MATCH _ _ => 1
  | .LIT _ => 1
  | .LEN => 0
  | .elsewhere _ => 0

theorem Phase.rank_le (p : Phase) : p.rank ≤ 4 := by
  cases p with
  | LENEXT => exact Nat.le_refl 4
  | DIST | DISTEXT | MATCH | LIT | LEN | elsewhere => simp [rank]

/-- The bits, the room and the turns that are left to a decoder. -/
def Block.left (k : Block) (d : Decoder) : Nat :=
  8 * (k.bits.length - d.pos) + (k.space - d.out.length) + d.phase.rank

@[simp] theorem length_repeated (offset n : Nat) (out : Octets) :
    (repeated offset n out).length = out.length + n := by
  induction n generalizing out with
  | zero => rfl
  | succ n ih =>
    rw [repeated, ih, List.length_append, List.length_singleton]
    omega

/-- The operation of a base has one bit set above the number of its extra bits. -/
theorem base_op {op e : Nat} (small : e ≤ 13) (base : op = 16 + e) :
    op &&& 15 = e ∧ op &&& 0xf0 = 16 ∧ op &&& 16 = 16 ∧ op &&& 32 = 0 ∧ op &&& 64 = 0 := by
  subst base
  interval_cases e <;> decide

/-- The operation of a link has none of the upper bits set. -/
theorem link_op {op : Nat} (positive : 0 < op) (small : op < 16) :
    op &&& 0xf0 = 0 ∧ op &&& 16 = 0 ∧ op &&& 64 = 0 := by
  interval_cases op <;> decide

/-- A symbol leaves the place and the output alone, and its extra bits are few. -/
theorem Decoder.symbol_inl {d d' : Decoder} {cp : Code} (next : d.symbol cp = .inl d') :
    d'.pos = d.pos ∧ d'.out = d.out ∧ d'.phase.Fine := by
  rw [symbol] at next
  split at next
  · cases next
    exact ⟨rfl, rfl, trivial⟩
  · split at next
    · cases next
      exact ⟨rfl, rfl, trivial⟩
    · split at next
      · cases next
      · cases next
        exact ⟨rfl, rfl, Nat.and_le_right⟩

/-- A distance leaves the place and the output alone, and reaches no further than 32768 octets. -/
theorem Decoder.distance_inl {d d' : Decoder} {length : Nat} {cp : Code} (leaf : cp.DistLeaf)
    (next : d.distance length cp = .inl d') :
    d'.pos = d.pos ∧ d'.out = d.out ∧ d'.phase.Fine := by
  rw [distance] at next
  split at next
  · cases next
  · rename_i valid
    cases next
    rcases leaf with ⟨e, small, op, positive, far⟩ | invalid
    · -- The operation of a base tells the extra bits that the bound of the distance is about.
      obtain ⟨extra, -⟩ := base_op small op
      refine ⟨rfl, rfl, ?_⟩
      rw [Phase.Fine, extra]
      exact ⟨by omega, positive, far⟩
    · rw [invalid] at valid
      exact absurd (by decide) valid

/-- What is left of a match is waited for as the match itself was. -/
theorem Phase.rest_fine {length offset : Nat} (fine : (Phase.MATCH length offset).Fine)
    (n : Nat) : (Phase.rest (length - n) offset).Fine := by
  rw [rest]
  split
  · trivial
  · exact fine

/-- Something of a match is copied, or nothing of it is left. -/
theorem Phase.rest_rank {length n : Nat} (offset : Nat) (some : length = 0 ∨ 1 ≤ n) :
    (Phase.rest (length - n) offset).rank < n + 1 := by
  rw [rest]
  split
  · exact Nat.succ_pos n
  · rename_i more
    show 1 < n + 1
    omega

/-- A copy makes the output longer, or the match is over. -/
theorem Block.copy_inl {k : Block} {d d' : Decoder} {length offset : Nat}
    (fine : (Phase.MATCH length offset).Fine) (room : d.out.length < k.space)
    (next : k.copy d length offset = .inl d') :
    d'.pos = d.pos ∧ d'.phase.Fine ∧
      (k.space - d'.out.length) + d'.phase.rank < (k.space - d.out.length) + 1 := by
  rw [copy] at next
  split at next
  · -- What the window gives is as long as what was asked for.
    simp only at next
    split at next
    · cases next
    · cases next
      have some : length = 0 ∨
          1 ≤ min (min length (offset - d.out.length)) (k.space - d.out.length) := by omega
      have shorter := Phase.rest_rank offset some
      refine ⟨rfl, Phase.rest_fine fine _, ?_⟩
      simp only [List.length_append, Window.length_read]
      omega
  · -- All that there is room for comes from the output.
    cases next
    have some : length = 0 ∨ 1 ≤ min length (k.space - d.out.length) := by omega
    have shorter := Phase.rest_rank offset some
    refine ⟨rfl, Phase.rest_fine fine _, ?_⟩
    simp only [length_repeated]
    omega

/-- Every step comes nearer to where the decoder stops. -/
theorem Block.step_nearer {k : Block} {d d' : Decoder} (fine : d.Fine k)
    (next : k.step d = .inl d') : d'.Fine k ∧ k.left d' < k.left d := by
  obtain ⟨pos, phase, out, reads, ec⟩ := d
  obtain ⟨inside, numbers⟩ := fine
  simp only at inside numbers
  cases phase with
  | LEN =>
    simp only [step] at next
    rcases decoded : k.codes.lencode.decode k.bits pos with _ | ⟨cp, n⟩
    · rw [decoded] at next
      cases next
    · rw [decoded] at next
      obtain ⟨-, positive, -, fits⟩ :=
        k.codes.lens.decode_some (fun _ => Code.LenLeaf.not_link) decoded
      obtain ⟨place, same, fine'⟩ := Decoder.symbol_inl next
      simp only at place same
      -- A bit counts for more than all the turns of a symbol.
      have turns := d'.phase.rank_le
      refine ⟨⟨by omega, fine'⟩, ?_⟩
      simp only [left, place, same]
      omega
  | LENEXT length extra =>
    simp only [step] at next
    split at next
    · cases next
    · cases next
      refine ⟨⟨by simp only; omega, trivial⟩, ?_⟩
      simp only [left, Phase.rank]
      omega
  | DIST length =>
    simp only [step] at next
    rcases decoded : k.codes.distcode.decode k.bits pos with _ | ⟨cp, n⟩
    · rw [decoded] at next
      cases next
    · rw [decoded] at next
      obtain ⟨leaf, positive, -, fits⟩ :=
        k.codes.dists.decode_some (fun _ => Code.DistLeaf.not_link) decoded
      obtain ⟨place, same, fine'⟩ := Decoder.distance_inl leaf next
      simp only at place same
      have turns := d'.phase.rank_le
      refine ⟨⟨by omega, fine'⟩, ?_⟩
      simp only [left, place, same]
      omega
  | DISTEXT length offset extra =>
    obtain ⟨few, positive, far⟩ := numbers
    simp only [step] at next
    split at next
    · cases next
    · cases next
      have small := k.bits.slice_lt pos extra
      refine ⟨⟨by simp only; omega, ?_⟩, ?_⟩
      · exact ⟨by omega, by omega⟩
      · simp only [left, Phase.rank]
        omega
  | MATCH length offset =>
    simp only [step] at next
    split at next
    · cases next
    · obtain ⟨place, fine', shorter⟩ := Block.copy_inl numbers (by simp only; omega) next
      simp only at place shorter
      have turn : (Phase.MATCH length offset).rank = 1 := rfl
      refine ⟨⟨by omega, fine'⟩, ?_⟩
      simp only [left, place, turn]
      omega
  | LIT value =>
    simp only [step] at next
    split at next
    · cases next
    · cases next
      refine ⟨⟨inside, trivial⟩, ?_⟩
      simp only [left, Phase.rank, List.length_append, List.length_singleton]
      omega
  | elsewhere m => cases next

/-- A decoder stops for no fault. -/
theorem Block.step_stops {k : Block} {d : Decoder} {r : Halt × Decoder} (stops : k.step d = .inr r)
    (f : Fault) : r.1 ≠ .fault f := by
  simp only [step, Decoder.symbol, Decoder.distance, copy] at stops
  -- Every branch that stops names its reason.
  repeat' split at stops
  all_goals cases stops <;> exact nofun

/-- A decoder stops somewhere. -/
theorem Block.ends {k : Block} {d : Decoder} (fine : d.Fine k) :
    ∃ r, Ends k.step (.inl d) r := by
  -- What is left to the decoder gets less with each of its steps.
  have nearer : ∀ d d', d.Fine k → k.step d = .inl d' → d'.Fine k ∧ k.left d' < k.left d :=
    fun _ _ fine next => step_nearer fine next
  exact ends_of_decreasing Nat.lt_wfRel.wf k.left nearer d fine

end Beast.Zlib
