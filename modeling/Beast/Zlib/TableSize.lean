import Beast.Zlib.InflateTableLaws
import Mathlib.Algebra.Order.BigOperators.Group.List
import Mathlib.Algebra.Order.Ring.Int
import Mathlib.Data.List.TakeWhile

/-! How many entries the tables of a code take: those of the first bits, and those behind them. -/

namespace Beast.Zlib

open CanonicalCode

/-- The symbols whose words are longer than the first bits, which are these. -/
def behindRoot (lens : List Nat) (root p : Nat) : List Nat :=
  (order lens 15).filter fun s => root < len lens s ∧ code lens s / 2 ^ (len lens s - root) = p

/-- How long the longest of some words is. -/
def longest (lens : List Nat) (symbols : List Nat) : Nat :=
  symbols.foldr (fun s l => max (len lens s) l) 0

/-- How many entries the sub-table has that the first bits of some words lead to. -/
def subTableSize (lens : List Nat) (root p : Nat) : Nat :=
  let deepest := longest lens (behindRoot lens root p)
  if deepest = 0 then 0 else 2 ^ (deepest - root)

/-- How many entries the table of the first bits has, with so many sub-tables at most. -/
def sizeUpTo (lens : List Nat) (root p : Nat) : Nat :=
  2 ^ root + ((List.range p).map (subTableSize lens root)).sum

/-- How many entries the tables of a code have, where so many bits are looked up first. -/
def tableSize (lens : List Nat) (root : Nat) : Nat := sizeUpTo lens root (2 ^ root)

variable {lens : List Nat} {root max p : Nat}

theorem le_longest {symbols : List Nat} {s : Nat} (member : s ∈ symbols) :
    len lens s ≤ longest lens symbols := by
  induction symbols with
  | nil => simp at member
  | cons t rest ih =>
    rw [longest, List.foldr_cons, ← longest]
    rcases List.mem_cons.mp member with rfl | behind
    · exact Nat.le_max_left _ _
    · exact Nat.le_trans (ih behind) (Nat.le_max_right _ _)

/-- The longest word is as long as each of the others, and there is one of that length. -/
theorem longest_eq {symbols : List Nat} {s : Nat} (member : s ∈ symbols)
    (most : ∀ t ∈ symbols, len lens t ≤ len lens s) : longest lens symbols = len lens s := by
  have bound : ∀ rest : List Nat, (∀ t ∈ rest, len lens t ≤ len lens s) →
      longest lens rest ≤ len lens s := by
    intro rest all
    induction rest with
    | nil => exact Nat.zero_le _
    | cons t rest ih =>
      rw [longest, List.foldr_cons, ← longest]
      exact Nat.max_le.mpr
        ⟨all t List.mem_cons_self, ih fun u behind => all u (List.mem_cons_of_mem t behind)⟩
  exact Nat.le_antisymm (bound symbols most) (le_longest member)

@[simp] theorem sizeUpTo_zero (lens : List Nat) (root : Nat) : sizeUpTo lens root 0 = 2 ^ root := rfl

theorem sizeUpTo_succ (lens : List Nat) (root p : Nat) :
    sizeUpTo lens root (p + 1) = sizeUpTo lens root p + subTableSize lens root p := by
  simp [sizeUpTo, List.range_succ, Nat.add_assoc]

theorem sizeUpTo_mono {q : Nat} (le : p ≤ q) : sizeUpTo lens root p ≤ sizeUpTo lens root q := by
  induction q, le using Nat.le_induction with
  | base => exact Nat.le_refl _
  | succ q _ ih =>
    rw [sizeUpTo_succ]
    omega

/-- Where no words are longer, there is no sub-table. -/
theorem subTableSize_none (none : behindRoot lens root p = []) : subTableSize lens root p = 0 := by
  rw [subTableSize, none, longest, List.foldr_nil]
  rfl

theorem sizeUpTo_none {q : Nat} (le : p ≤ q)
    (none : ∀ r, p ≤ r → r < q → behindRoot lens root r = []) :
    sizeUpTo lens root q = sizeUpTo lens root p := by
  induction q, le using Nat.le_induction with
  | base => rfl
  | succ q more ih =>
    rw [sizeUpTo_succ, subTableSize_none (none q more (Nat.lt_succ_self q)), Nat.add_zero]
    exact ih fun r from_ less => none r from_ (by omega)

/-! ## The size of a sub-table -/

/-- The texts that begin with words that are shorter than so many bits. -/
def shorter (lens symbols : List Nat) (l : Nat) : Nat :=
  weight lens 15 (symbols.filter fun s => len lens s < l)

theorem shorter_succ (lens symbols : List Nat) (l : Nat) :
    shorter lens symbols (l + 1) =
      shorter lens symbols l + (symbols.map (len lens)).count l * 2 ^ (15 - l) := by
  induction symbols with
  | nil => simp [shorter]
  | cons s rest ih =>
    rw [shorter, shorter] at ih ⊢
    rcases Nat.lt_trichotomy (len lens s) l with less | same | more
    · rw [List.filter_cons_of_pos (by simp; omega), List.filter_cons_of_pos (by simpa using less),
        weight_cons, weight_cons, ih, List.map_cons, List.count_cons_of_ne less.ne]
      omega
    · rw [List.filter_cons_of_pos (by simp; omega), List.filter_cons_of_neg (by simp; omega),
        weight_cons, ih, List.map_cons, same, List.count_cons_self]
      ring
    · rw [List.filter_cons_of_neg (by simp; omega), List.filter_cons_of_neg (by simp; omega), ih,
        List.map_cons, List.count_cons_of_ne more.ne']

/-- The bits of a sub-table for words that come next: shorter ones do not fill it, those with so many
bits do, where there are longer ones. -/
structure Sized (lens pending : List Nat) (root max curr : Nat) : Prop where
  bits : root + curr ≤ max
  room : shorter lens pending (root + curr) < 2 ^ (15 - root)
  full : root + curr = max ∨ 2 ^ (15 - root) ≤ shorter lens pending (root + curr + 1)

/-- The loop that looks for the bits of a sub-table goes on while shorter words do not fill it. -/
theorem subTableBits_sized {pending : List Nat} {count : Nat → Nat} {more curr : Nat} {left : Int}
    (counted : ∀ l, 0 < l → count l = (pending.map (len lens)).count l) (most : max ≤ 15)
    (positive : 0 < root) (bits : curr + root + more = max) (some_ : 0 < left)
    (open_ : left * 2 ^ (15 - (root + curr)) = 2 ^ (15 - root) - shorter lens pending (root + curr)) :
    curr ≤ subTableBits count root more curr left ∧
      Sized lens pending root max (subTableBits count root more curr left) := by
  -- What is left is positive whenever the loop goes on.
  have room : ∀ {curr : Nat} {left : Int}, 0 < left →
      left * 2 ^ (15 - (root + curr)) = 2 ^ (15 - root) - shorter lens pending (root + curr) →
      shorter lens pending (root + curr) < 2 ^ (15 - root) := by
    intro curr left some_ open_
    have gap : (0 : Int) < left * 2 ^ (15 - (root + curr)) := Int.mul_pos some_ (Int.pow_pos (by decide))
    rw [open_] at gap
    zify
    omega
  induction more generalizing curr left with
  | zero =>
    rw [subTableBits]
    exact ⟨Nat.le_refl _, by omega, room some_ open_, .inl (by omega)⟩
  | succ more ih =>
    have next : (left - count (curr + root)) * 2 ^ (15 - (root + curr)) =
        2 ^ (15 - root) - shorter lens pending (root + curr + 1) := by
      rw [sub_mul, open_, shorter_succ, counted _ (by omega), Nat.add_comm curr]
      push_cast
      ring
    rw [subTableBits]
    split
    · rename_i filled_
      refine ⟨Nat.le_refl _, by omega, room some_ open_, .inr ?_⟩
      have excess : (left - count (curr + root)) * 2 ^ (15 - (root + curr)) ≤ 0 :=
        mul_nonpos_of_nonpos_of_nonneg filled_ (Int.pow_pos (by decide)).le
      rw [next] at excess
      zify
      omega
    · rename_i goes
      have double : 2 * (left - count (curr + root)) * 2 ^ (15 - (root + (curr + 1))) =
          2 ^ (15 - root) - shorter lens pending (root + (curr + 1)) := by
        rw [← Nat.add_assoc, ← next, (by omega : 15 - (root + curr) = 15 - (root + curr + 1) + 1),
          pow_succ]
        ring
      obtain ⟨further, sized⟩ := ih (by omega) (by omega) double
      exact ⟨by omega, sized⟩

/-- The words that a sub-table is for are no longer than its bits. -/
theorem Sized.covers {pending front back : List Nat} {curr t : Nat}
    (sized : Sized lens pending root max curr)
    (sorted : pending.Pairwise fun s t => len lens s ≤ len lens t)
    (most : ∀ t ∈ pending, len lens t ≤ max) (cut : pending = front ++ t :: back)
    (inside : weight lens 15 front < 2 ^ (15 - root)) : len lens t ≤ root + curr := by
  by_contra longer
  have bounded := most t (cut ▸ List.mem_append_right front List.mem_cons_self)
  -- All words that are no longer than the bits are in front of this one.
  have behind : (t :: back).filter (fun s => len lens s < root + curr + 1) = [] := by
    refine List.filter_eq_nil_iff.mpr fun s member => ?_
    rw [cut, List.pairwise_append] at sorted
    have order := List.pairwise_cons.mp sorted.2.1
    rcases List.mem_cons.mp member with rfl | later
    · simp
      omega
    · have less := order.1 s later
      simp
      omega
  have fewer : shorter lens pending (root + curr + 1) ≤ weight lens 15 front := by
    rw [shorter, cut, List.filter_append, behind, List.append_nil, weight, weight]
    exact (List.filter_sublist.map _).sum_le_sum fun _ _ => Nat.zero_le _
  rcases sized.full with last | full
  · omega
  · omega

/-- There is a word that takes all bits of the sub-table that it is for. -/
theorem Sized.reached {pending : List Nat} {curr : Nat} (sized : Sized lens pending root max curr)
    (sorted : pending.Pairwise fun s t => len lens s ≤ len lens t)
    (most : ∀ t ∈ pending, len lens t ≤ max)
    (filled_ : 2 ^ (15 - root) ≤ weight lens 15 pending) :
    ∃ front t back, pending = front ++ t :: back ∧ weight lens 15 front < 2 ^ (15 - root) ∧
      len lens t = root + curr := by
  have cut := List.takeWhile_append_dropWhile (p := fun s => len lens s < root + curr) (l := pending)
  obtain ⟨front, taken⟩ : ∃ l, pending.takeWhile (fun s => len lens s < root + curr) = l := ⟨_, rfl⟩
  obtain ⟨rest, left⟩ : ∃ l, pending.dropWhile (fun s => len lens s < root + curr) = l := ⟨_, rfl⟩
  rw [taken, left] at cut
  have all : front.filter (fun s => len lens s < root + curr) = front := by
    refine List.filter_eq_self.mpr fun s member => ?_
    have first : s ∈ pending.takeWhile fun s => len lens s < root + curr := taken ▸ member
    exact List.mem_takeWhile_imp (p := fun s => decide (len lens s < root + curr)) first
  have less : weight lens 15 front < 2 ^ (15 - root) := by
    refine Nat.lt_of_le_of_lt ?_ sized.room
    rw [shorter, ← cut, List.filter_append, all, weight_append]
    exact Nat.le_add_right _ _
  cases rest with
  | nil =>
    rw [List.append_nil] at cut
    rw [cut] at less
    omega
  | cons t back =>
    refine ⟨front, t, back, cut.symm, less, Nat.le_antisymm ?_ ?_⟩
    · exact sized.covers sorted most cut.symm less
    · have first := List.head?_dropWhile_not (fun s => decide (len lens s < root + curr)) pending
      simp only [left, List.head?_cons] at first
      simpa using first

end Beast.Zlib
