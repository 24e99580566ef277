import Mathlib.Data.List.Basic
import Mathlib.Data.List.Nodup
import Mathlib.Order.Basic
import Mathlib.Tactic.Common
import Mathlib.Tactic.Ring

/-! Lists in the order of a key that may come more than once. -/

namespace SortedIndex

section Places

variable {E : Type} [DecidableEq E] {front back : List E} {e : E}

/-- Puts an element in front of another one, or at the end. -/
def insertBefore (l : List E) : Option E → E → List E
  | none, e => l ++ [e]
  | some place, e => l.takeWhile (· ≠ place) ++ e :: l.dropWhile (· ≠ place)

/-- The element behind another one. -/
def follower (l : List E) (e : E) : Option E := (l.dropWhile (· ≠ e)).tail.head?

/-- All that comes in front of an element is left out. -/
theorem dropWhile_front (apart : e ∉ front) :
    (front ++ e :: back).dropWhile (· ≠ e) = e :: back := by
  have all : ∀ a ∈ front, decide (a ≠ e) = true := fun a there =>
    decide_eq_true fun same => apart (same ▸ there)
  rw [List.dropWhile_append_of_pos all, List.dropWhile_cons_of_neg (by simp)]

/-- The element behind one comes first in the rest. -/
theorem follower_append (apart : e ∉ front) : follower (front ++ e :: back) e = back.head? := by
  rw [follower, dropWhile_front apart, List.tail_cons]

/-- An element is put in front of the rest. -/
theorem insertBefore_append (apart : ∀ place ∈ back.head?, place ∉ front) (e : E) :
    insertBefore (front ++ back) back.head? e = front ++ e :: back := by
  cases back with
  | nil => rw [List.head?_nil, insertBefore, List.append_nil]
  | cons place back =>
    have apart := apart place rfl
    have all : ∀ a ∈ front, decide (a ≠ place) = true := fun a there =>
      decide_eq_true fun same => apart (same ▸ there)
    rw [List.head?_cons, insertBefore, dropWhile_front apart, List.takeWhile_append_of_pos all,
      List.takeWhile_cons_of_neg (by simp), List.append_nil]

end Places

section Keys

variable {E κ : Type} [LinearOrder κ] {key : E → κ} {l : List E} {k : κ} {e : E}

/-- Elements in the order of their keys. -/
def Sorted (key : E → κ) (l : List E) : Prop := l.Pairwise fun a b => key a ≤ key b

/-- The elements in front of a key. -/
def below (key : E → κ) (l : List E) (k : κ) : List E := l.filter fun e => key e < k

/-- The elements of a key. -/
def same (key : E → κ) (l : List E) (k : κ) : List E := l.filter fun e => key e = k

/-- The elements behind a key. -/
def above (key : E → κ) (l : List E) (k : κ) : List E := l.filter fun e => k < key e

/-- The elements of other keys. -/
def others (key : E → κ) (l : List E) (k : κ) : List E := l.filter fun e => key e ≠ k

theorem below_lt (there : e ∈ below key l k) : key e < k := by
  simpa using (List.mem_filter.mp there).2

theorem mem_same : e ∈ same key l k ↔ e ∈ l ∧ key e = k := by
  rw [same, List.mem_filter, decide_eq_true_iff]

theorem same_eq (there : e ∈ same key l k) : key e = k := (mem_same.mp there).2

theorem above_gt (there : e ∈ above key l k) : k < key e := by
  simpa using (List.mem_filter.mp there).2

/-- A test for a key selects the elements of it. -/
theorem filter_same {p : E → Bool} (tells : ∀ e, p e = true ↔ key e = k) :
    l.filter p = same key l k :=
  List.filter_congr fun e _ => by rw [Bool.eq_iff_iff, tells, decide_eq_true_iff]

/-- A test for other keys selects the elements of them. -/
theorem filter_others {p : E → Bool} (tells : ∀ e, p e = true ↔ key e ≠ k) :
    l.filter p = others key l k :=
  List.filter_congr fun e _ => by rw [Bool.eq_iff_iff, tells, decide_eq_true_iff]

/-- The elements of a key are looked for before others are left out, or after. -/
theorem same_filter (p : E → Bool) : same key (l.filter p) k = (same key l k).filter p :=
  List.filter_comm ..

/-- An element at the end comes last among those of its key. -/
theorem same_append (l : List E) (e : E) (k : κ) :
    same key (l ++ [e]) k = if key e = k then same key l k ++ [e] else same key l k := by
  unfold same
  rw [List.filter_append]
  split
  · rename_i mine
    rw [List.filter_cons_of_pos (by simpa using mine), List.filter_nil]
  · rename_i other
    rw [List.filter_cons_of_neg (by simpa using other), List.filter_nil, List.append_nil]

/-- A test for a key finds the first element of it. -/
theorem find_same {p : E → Bool} (tells : ∀ e, p e = true ↔ key e = k) :
    l.find? p = (same key l k).head? := by
  rw [← filter_same tells, List.head?_filter]

/-- A test for greater keys finds the first element behind a key. -/
theorem find_above {p : E → Bool} (tells : ∀ e, p e = true ↔ k < key e) :
    l.find? p = (above key l k).head? := by
  have selects : l.filter p = above key l k :=
    List.filter_congr fun e _ => by rw [Bool.eq_iff_iff, tells, decide_eq_true_iff]
  rw [← selects, List.head?_filter]

/-- The elements of a key lie behind those of smaller keys, and in front of the others. -/
theorem Sorted.split (sorted : Sorted key l) (k : κ) :
    l = below key l k ++ (same key l k ++ above key l k) := by
  -- The induction is on the order, and the key of the first element is compared with the one given.
  induction sorted with
  | nil => rfl
  | @cons e l first _ ih =>
    unfold below same above at ih ⊢
    rcases lt_trichotomy (key e) k with lt | eq | gt
    · rw [List.filter_cons_of_pos (by simpa using lt), List.filter_cons_of_neg (by simpa using lt.ne),
        List.filter_cons_of_neg (by simpa using lt.le), List.cons_append, ← ih]
    · -- Nothing behind it is smaller.
      have nothing : (l.filter fun e => key e < k) = [] :=
        List.filter_eq_nil_iff.mpr fun a there => by simpa [← eq] using first a there
      rw [nothing, List.nil_append] at ih
      rw [List.filter_cons_of_neg (by simp [eq]), List.filter_cons_of_pos (by simpa using eq),
        List.filter_cons_of_neg (by simp [eq]), nothing, List.nil_append, List.cons_append, ← ih]
    · -- Nothing behind it is smaller, or has the key.
      have nothing : (l.filter fun e => key e < k) = [] :=
        List.filter_eq_nil_iff.mpr fun a there => by simpa using (gt.trans_le (first a there)).le
      have none : (l.filter fun e => key e = k) = [] :=
        List.filter_eq_nil_iff.mpr fun a there => by simpa using (gt.trans_le (first a there)).ne'
      rw [nothing, none, List.nil_append, List.nil_append] at ih
      rw [List.filter_cons_of_neg (by simpa using gt.le), List.filter_cons_of_neg (by simpa using gt.ne'),
        List.filter_cons_of_pos (by simpa using gt), nothing, none, List.nil_append, List.nil_append,
        ← ih]

/-- The place behind the elements of a key is where those of greater keys begin. -/
theorem Sorted.split_behind (sorted : Sorted key l) (k : κ) :
    l = (below key l k ++ same key l k) ++ above key l k :=
  (sorted.split k).trans (List.append_assoc _ _ _).symm

/-- Fewer elements are in order as well. -/
theorem Sorted.filter (sorted : Sorted key l) (p : E → Bool) : Sorted key (l.filter p) :=
  List.Pairwise.filter p sorted

/-- Without the elements of a key, those in front of it and those behind it remain. -/
theorem Sorted.other (sorted : Sorted key l) (k : κ) :
    others key l k = below key l k ++ above key l k := by
  unfold others
  -- The test for other keys keeps two of the three parts, and drops the third.
  have front : (below key l k).filter (fun e => key e ≠ k) = below key l k :=
    List.filter_eq_self.mpr fun a there => by simpa using (below_lt there).ne
  have none : (same key l k).filter (fun e => key e ≠ k) = [] :=
    List.filter_eq_nil_iff.mpr fun a there => by simpa using same_eq there
  have back : (above key l k).filter (fun e => key e ≠ k) = above key l k :=
    List.filter_eq_self.mpr fun a there => by simpa using (above_gt there).ne'
  calc l.filter (fun e => key e ≠ k)
      = (below key l k ++ (same key l k ++ above key l k)).filter (fun e => key e ≠ k) :=
        congrArg _ (sorted.split k)
    _ = below key l k ++ above key l k := by
        rw [List.filter_append, List.filter_append, front, none, back, List.nil_append]

section Insert

variable [DecidableEq E]

/-- An element is put in behind those of its key. -/
theorem Sorted.insertBefore (sorted : Sorted key l) (e : E) :
    insertBefore l (above key l (key e)).head? e =
      (below key l (key e) ++ same key l (key e)) ++ e :: above key l (key e) := by
  have split := sorted.split_behind (key e)
  -- The element that it is put in front of does not come earlier as well.
  have apart : ∀ place ∈ (above key l (key e)).head?,
      place ∉ below key l (key e) ++ same key l (key e) := by
    intro place first there
    have gt := above_gt (List.mem_of_mem_head? first)
    rcases List.mem_append.mp there with early | same
    · exact (below_lt early).not_gt gt
    · exact gt.ne (same_eq same).symm
  calc SortedIndex.insertBefore l (above key l (key e)).head? e
      = SortedIndex.insertBefore ((below key l (key e) ++ same key l (key e)) ++ above key l (key e))
          (above key l (key e)).head? e :=
        congrArg (fun all => SortedIndex.insertBefore all (above key l (key e)).head? e) split
    _ = _ := insertBefore_append apart e

/-- The elements stay in order. -/
theorem Sorted.insert_sorted (sorted : Sorted key l) (e : E) :
    Sorted key (SortedIndex.insertBefore l (above key l (key e)).head? e) := by
  have split := sorted.split_behind (key e)
  have early : ∀ a ∈ below key l (key e) ++ same key l (key e), key a ≤ key e := by
    intro a there
    rcases List.mem_append.mp there with early | same
    · exact (below_lt early).le
    · exact (same_eq same).le
  have pairs : Sorted key ((below key l (key e) ++ same key l (key e)) ++ above key l (key e)) :=
    split ▸ sorted
  rw [sorted.insertBefore e]
  -- The parts are in order as before, and the new element is between them.
  obtain ⟨front, back, across⟩ := List.pairwise_append.mp pairs
  refine List.pairwise_append.mpr ⟨front, ?_, ?_⟩
  · exact List.pairwise_cons.mpr ⟨fun a there => (above_gt there).le, back⟩
  · intro a there b behind
    rcases List.mem_cons.mp behind with rfl | behind
    · exact early a there
    · exact across a there b behind

/-- The new element comes last among those of its key, and the others stay where they are. -/
theorem Sorted.same_insert (sorted : Sorted key l) (e : E) (k : κ) :
    same key (SortedIndex.insertBefore l (above key l (key e)).head? e) k =
      if key e = k then same key l k ++ [e] else same key l k := by
  have split := sorted.split_behind (key e)
  have whole : same key ((below key l (key e) ++ same key l (key e)) ++ above key l (key e)) k =
      same key l k := congrArg (fun all => same key all k) split.symm
  rw [sorted.insertBefore e]
  by_cases mine : key e = k
  · -- No element of the key comes behind the new one.
    have none : same key (above key l (key e)) k = [] :=
      List.filter_eq_nil_iff.mpr fun a there => by simpa [← mine] using (above_gt there).ne'
    rw [if_pos mine]
    unfold same at whole none ⊢
    rw [List.filter_append, none, List.append_nil] at whole
    rw [List.filter_append, List.filter_cons_of_pos (by simpa using mine), none, whole]
  · rw [if_neg mine]
    unfold same at whole ⊢
    rw [List.filter_append] at whole
    rw [List.filter_append, List.filter_cons_of_neg (by simpa using mine), whole]

/-- The elements are those that were there and the new one. -/
theorem Sorted.insert_perm (sorted : Sorted key l) (e : E) :
    (SortedIndex.insertBefore l (above key l (key e)).head? e).Perm (l ++ [e]) := by
  have split := sorted.split_behind (key e)
  rw [sorted.insertBefore e]
  refine List.perm_middle.trans ?_
  rw [← split]
  exact (List.perm_append_singleton e l).symm

end Insert

end Keys

end SortedIndex
