import Mathlib.Data.List.Nodup
import Mathlib.Data.List.Perm.Basic
import Mathlib.Tactic.Common

/-! Forests that grow from leaves, by joining two of their roots under a new one. -/

namespace Forest

variable {α : Type*} {leaves roots roots' rest : List α} {links : List (α × α × α)} {p m n : α}
  {P : α → Prop}

/-- The nodes below others, with those that were joined last in front. -/
def nodes (links : List (α × α × α)) : List α := links.flatMap fun l => [l.2.1, l.2.2]

@[simp] theorem nodes_nil : nodes ([] : List (α × α × α)) = [] := rfl

@[simp] theorem nodes_cons (links : List (α × α × α)) :
    nodes ((p, m, n) :: links) = m :: n :: nodes links := rfl

theorem length_nodes (links : List (α × α × α)) : (nodes links).length = 2 * links.length := by
  induction links with
  | nil => rfl
  | cons l links ih =>
    obtain ⟨p, m, n⟩ := l
    rw [nodes_cons, List.length_cons, List.length_cons, ih, List.length_cons]
    omega

/-- A forest with its roots, and with the fathers of those nodes that have one. -/
inductive Grows (leaves : List α) : List α → List (α × α × α) → Prop
  | leaves : Grows leaves leaves []
  | perm {roots roots' : List α} {links : List (α × α × α)} (before : Grows leaves roots links)
      (same : roots.Perm roots') : Grows leaves roots' links
  | join {rest : List α} {links : List (α × α × α)} {p m n : α}
      (before : Grows leaves (m :: n :: rest) links) (fresh : p ∉ m :: n :: rest ++ nodes links) :
      Grows leaves (p :: rest) ((p, m, n) :: links)

/-- A forest has each of its nodes once. -/
theorem Grows.nodup (grows : Grows leaves roots links) (once : leaves.Nodup) :
    (roots ++ nodes links).Nodup := by
  induction grows with
  | leaves => simpa using once
  | perm _ same ih => exact (same.append_right _).nodup_iff.mp ih
  | @join rest links p m n _ fresh ih =>
    have moved : (p :: rest ++ nodes ((p, m, n) :: links)).Perm
        (p :: (m :: n :: rest ++ nodes links)) := by
      refine List.Perm.cons p ?_
      rw [nodes_cons]
      exact (List.perm_middle.trans (List.Perm.cons m List.perm_middle))
    exact moved.nodup_iff.mpr (List.nodup_cons.mpr ⟨fresh, ih⟩)

theorem Grows.length (grows : Grows leaves roots links) :
    roots.length + links.length = leaves.length := by
  induction grows with
  | leaves => rfl
  | perm _ same ih => rw [← same.length_eq, ih]
  | join _ _ ih =>
    simp only [List.length_cons] at ih ⊢
    omega

/-- The leaves stay nodes of the forest. -/
theorem Grows.mem (grows : Grows leaves roots links) {x : α} (member : x ∈ leaves) :
    x ∈ roots ++ nodes links := by
  induction grows with
  | leaves => simpa using member
  | perm _ same ih => exact (same.append_right _).mem_iff.mp ih
  | join _ _ ih =>
    simp only [List.mem_append, List.mem_cons, nodes_cons] at ih ⊢
    tauto

/-- Each node is a leaf, or the father of others. -/
theorem Grows.fathers (grows : Grows leaves roots links)
    (fathers : ∀ l ∈ links, P l.1) {x : α} (member : x ∈ roots ++ nodes links) :
    x ∈ leaves ∨ P x := by
  induction grows with
  | leaves => exact .inl (by simpa using member)
  | perm _ same ih => exact ih fathers ((same.append_right _).mem_iff.mpr member)
  | @join rest links p m n _ _ ih =>
    simp only [List.mem_append, List.mem_cons, nodes_cons] at member
    rcases member with (rfl | among) | rfl | rfl | below
    · exact .inr (fathers (x, m, n) List.mem_cons_self)
    all_goals exact ih (fun l inside => fathers l (List.mem_cons_of_mem _ inside)) (by simp [*])

/-- A tree with more than one node has a father as its root. -/
theorem Grows.root {root : α} (grows : Grows leaves [root] links) (some_ : links ≠ []) :
    ∃ l ∈ links, l.1 = root := by
  generalize tree : [root] = roots at grows
  induction grows with
  | leaves => exact absurd rfl some_
  | perm _ same ih =>
    rw [← tree] at same
    exact ih some_ (List.perm_singleton.mp same).symm
  | @join rest links p m n _ _ _ =>
    exact ⟨_, List.mem_cons_self, (List.cons.inj tree).1.symm⟩

/-- The leaves of a tree are those of its nodes that are no fathers. -/
theorem Grows.perm_filter [DecidablePred P] {root : α} (grows : Grows leaves [root] links)
    (once : leaves.Nodup) (some_ : links ≠ []) (fathers : ∀ l ∈ links, ¬P l.1)
    (own : ∀ x ∈ leaves, P x) : ((nodes links).filter P).Perm leaves := by
  have distinct := (List.nodup_append.mp (grows.nodup once)).2.1
  refine (List.perm_ext_iff_of_nodup (distinct.filter _) once).mpr fun x => ?_
  rw [List.mem_filter, decide_eq_true_eq]
  constructor
  · rintro ⟨member, holds⟩
    have leaf_or := grows.fathers (P := fun y => ¬P y) fathers (List.mem_append_right _ member)
    exact leaf_or.resolve_right fun father => father holds
  · intro member
    refine ⟨?_, own x member⟩
    rcases List.mem_append.mp (grows.mem member) with first | among
    · obtain ⟨l, inside, rfl⟩ := grows.root some_
      rw [List.mem_singleton.mp first] at member
      exact absurd (own _ member) (fathers l inside)
    · exact among

end Forest
