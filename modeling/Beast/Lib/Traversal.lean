import Mathlib.Data.List.Induction
import Mathlib.Data.List.Nodup
import Mathlib.Tactic.Common

/-! Sequences that are read through iterators which move both ways. -/

namespace Traversal

/-- A sequence by its iterators. What an iterator has none of is an error, or is not defined. -/
structure Sequence (B : Type) where
  Iter : Type
  decEq : DecidableEq Iter
  begin_ : Iter
  end_ : Iter
  next : Iter → Option Iter
  prev : Iter → Option Iter
  deref : Iter → Option B

attribute [instance] Sequence.decEq

variable {B : Type} (s : Sequence B)

/-- The elements from an iterator to the end. -/
def Sequence.forward : Nat → s.Iter → Option (List B)
  | 0, it => if it = s.end_ then some [] else none
  | fuel + 1, it =>
    if it = s.end_ then some []
    else (s.deref it).bind fun b => (s.next it).bind fun it => (forward fuel it).map (b :: ·)

/-- The elements from an iterator back to the front. -/
def Sequence.backward : Nat → s.Iter → Option (List B)
  | 0, it => if it = s.begin_ then some [] else none
  | fuel + 1, it =>
    if it = s.begin_ then some []
    else (s.prev it).bind fun it => (s.deref it).bind fun b => (backward fuel it).map (b :: ·)

/-- The iterators from one to another, with their elements; each step can be taken back. -/
inductive Walk : s.Iter → List (s.Iter × B) → s.Iter → Prop
  | nil (it : s.Iter) : Walk it [] it
  | cons {it it' last : s.Iter} {b : B} {steps : List (s.Iter × B)} (deref : s.deref it = some b)
      (next : s.next it = some it') (prev : s.prev it' = some it) (rest : Walk it' steps last) :
      Walk it ((it, b) :: steps) last

/-- A sequence goes through some elements, and never comes to the same place again. -/
def Presents (l : List B) : Prop :=
  ∃ steps, Walk s s.begin_ steps s.end_ ∧ (steps.map Prod.fst ++ [s.end_]).Nodup ∧
    steps.map Prod.snd = l

variable {s} {it it' last : s.Iter} {b : B} {steps steps' : List (s.Iter × B)} {l : List B}

/-- Walks that follow one another are a walk. -/
theorem Walk.append (first : Walk s it steps it') (second : Walk s it' steps' last) :
    Walk s it (steps ++ steps') last := by
  induction first with
  | nil => exact second
  | cons deref next prev _ ih => exact .cons deref next prev (ih second)

/-- A walk may be cut in two. -/
theorem Walk.split (walk : Walk s it (steps ++ steps') last) :
    ∃ it', Walk s it steps it' ∧ Walk s it' steps' last := by
  induction steps generalizing it with
  | nil => exact ⟨it, .nil it, walk⟩
  | cons step steps ih =>
    cases walk with
    | cons deref next prev rest =>
      obtain ⟨it', first, second⟩ := ih rest
      exact ⟨it', .cons deref next prev first, second⟩

/-- A walk without steps ends where it starts. -/
theorem Walk.nil_eq (walk : Walk s it [] last) : it = last := by
  cases walk
  rfl

/-- A walk starts at its first iterator, or where it ends. -/
theorem Walk.head (walk : Walk s it steps last) : (steps.map Prod.fst ++ [last]).head? = some it := by
  cases walk with
  | nil => rfl
  | cons _ _ _ _ => rfl

/-- A walk in front of which others were taken away does not come to its start again. -/
theorem Walk.start_apart (walk : Walk s it ((it', b) :: steps) last)
    (nodup : (((it', b) :: steps).map Prod.fst ++ [last]).Nodup) :
    it' = it ∧ it ≠ last ∧ ∀ step ∈ steps, step.1 ≠ it := by
  cases walk with
  | cons _ _ _ _ =>
    have apart := (List.nodup_cons.mp nodup).1
    refine ⟨rfl, fun same => apart ?_, fun step there same => apart ?_⟩
    · rw [same]
      exact List.mem_append_right _ (List.mem_singleton_self _)
    · rw [← same]
      exact List.mem_append_left _ (List.mem_map.mpr ⟨step, there, rfl⟩)

/-- Going forward gives the elements in their order. -/
theorem Walk.forward (walk : Walk s it steps s.end_)
    (nodup : (steps.map Prod.fst ++ [s.end_]).Nodup) {fuel : Nat} (enough : steps.length ≤ fuel) :
    s.forward fuel it = some (steps.map Prod.snd) := by
  -- The induction is on the steps, from the first one on.
  induction steps generalizing it fuel with
  | nil =>
    cases walk
    cases fuel <;> exact if_pos rfl
  | cons step steps ih =>
    obtain ⟨fuel, rfl⟩ : ∃ k, fuel = k + 1 := ⟨fuel - 1, by rw [List.length_cons] at enough; omega⟩
    have before := (walk.start_apart nodup).2.1
    cases walk with
    | cons deref next prev rest =>
      have rest' := ih rest (List.nodup_cons.mp nodup).2 (Nat.le_of_succ_le_succ enough)
      rw [Sequence.forward, if_neg before, deref, Option.bind_some, next, Option.bind_some, rest']
      rfl

/-- Going backward gives the elements in reverse. -/
theorem Walk.backward (walk : Walk s s.begin_ steps last)
    (nodup : (steps.map Prod.fst ++ [last]).Nodup) {fuel : Nat} (enough : steps.length ≤ fuel) :
    s.backward fuel last = some (steps.map Prod.snd).reverse := by
  -- The induction is on the steps, from the last one on.
  induction steps using List.reverseRecOn generalizing last fuel with
  | nil =>
    cases walk
    cases fuel <;> exact if_pos rfl
  | append_singleton steps step ih =>
    rw [List.length_append, List.length_singleton] at enough
    obtain ⟨fuel, rfl⟩ : ∃ k, fuel = k + 1 := ⟨fuel - 1, by omega⟩
    have behind : last ≠ s.begin_ := by
      -- The walk starts with its first iterator, which does not come again.
      intro same
      cases steps with
      | nil => exact (walk.start_apart nodup).2.1 same.symm
      | cons first steps => exact (walk.start_apart nodup).2.1 same.symm
    obtain ⟨it, front, back⟩ := walk.split
    cases back with
    | cons deref next prev rest =>
      cases rest
      have nodup' : (steps.map Prod.fst ++ [it]).Nodup := by
        rw [List.map_append, List.append_assoc] at nodup
        exact nodup.sublist (List.Sublist.append_left (by simp) _)
      have front' := ih front nodup' (by omega : steps.length ≤ fuel)
      rw [Sequence.backward, if_neg behind, prev, Option.bind_some, deref, Option.bind_some, front',
        List.map_append, List.reverse_append]
      rfl

/-- Iteration over a sequence gives its elements, and from its end it gives them in reverse. -/
theorem Presents.iterates (presents : Presents s l) {fuel : Nat} (enough : l.length ≤ fuel) :
    s.forward fuel s.begin_ = some l ∧ s.backward fuel s.end_ = some l.reverse := by
  obtain ⟨steps, walk, nodup, rfl⟩ := presents
  rw [List.length_map] at enough
  exact ⟨walk.forward nodup enough, walk.backward nodup enough⟩

/-! ## Lists -/

/-- A list, whose iterators are positions. -/
def Sequence.ofList (l : List B) : Sequence B where
  Iter := Nat
  decEq := inferInstance
  begin_ := 0
  end_ := l.length
  next it := if it < l.length then some (it + 1) else none
  prev it := if 0 < it then some (it - 1) else none
  deref it := l[it]?

/-- A walk through a list, from behind some of its elements. -/
theorem walk_ofList (front rest : List B) :
    Walk (.ofList (front ++ rest)) front.length
      ((rest.zipIdx front.length).map fun step => (step.2, step.1)) (front ++ rest).length := by
  induction rest generalizing front with
  | nil =>
    rw [List.append_nil]
    exact Walk.nil (s := .ofList front) front.length
  | cons b rest ih =>
    have inside : front.length < (front ++ b :: rest).length := by simp
    -- The element joins those in front, and the walk goes on from behind it.
    have on := ih (front ++ [b])
    rw [List.append_assoc, List.singleton_append, List.length_append, List.length_singleton] at on
    refine Walk.cons (s := .ofList (front ++ b :: rest)) ?_ (if_pos inside) ?_ on
    · show (front ++ b :: rest)[front.length]? = some b
      rw [List.getElem?_append_right (Nat.le_refl _), Nat.sub_self, List.getElem?_cons_zero]
    · show (if 0 < front.length + 1 then some (front.length + 1 - 1) else none) = _
      rw [if_pos (Nat.succ_pos _), Nat.add_sub_cancel]
      rfl

/-- A list presents its elements. -/
theorem presents_ofList (l : List B) : Presents (.ofList l) l := by
  refine ⟨_, walk_ofList [] l, ?_, ?_⟩
  · have positions : (l.zipIdx.map fun step => (step.2, step.1)).map Prod.fst ++ [l.length] =
        List.range (l.length + 1) := by
      rw [List.map_map, List.range_succ]
      refine congrArg (· ++ [l.length]) ?_
      rw [List.range_eq_range']
      exact List.zipIdx_map_snd 0 l
    exact positions ▸ List.nodup_range
  · rw [List.map_map]
    exact List.zipIdx_map_fst 0 l

/-! ## Parts of a sequence -/

/-- The part of a sequence between two iterators, with its elements changed. -/
def Sequence.between (s : Sequence B) (begin_ end_ : s.Iter) (change : s.Iter → B → B) :
    Sequence B where
  Iter := s.Iter
  decEq := s.decEq
  begin_
  end_
  next := s.next
  prev := s.prev
  deref it := (s.deref it).map (change it)

/-- A walk is one through every part as well. -/
theorem Walk.between (walk : Walk s it steps last) (begin_ end_ : s.Iter)
    (change : s.Iter → B → B) :
    Walk (s.between begin_ end_ change) it (steps.map fun step => (step.1, change step.1 step.2))
      last := by
  induction walk with
  | nil it => exact Walk.nil (s := s.between begin_ end_ change) it
  | @cons it _ _ _ _ deref next prev _ ih =>
    have changed := congrArg (Option.map (change it)) deref
    exact Walk.cons (s := s.between begin_ end_ change) changed next prev ih

/-- The elements of a part are those of a walk, as they are changed. -/
theorem Walk.presents_between (walk : Walk s it steps last)
    (nodup : (steps.map Prod.fst ++ [last]).Nodup) (change : s.Iter → B → B) :
    Presents (s.between it last change) (steps.map fun step => change step.1 step.2) := by
  have part := walk.between it last change
  refine ⟨_, part, ?_, ?_⟩
  · rw [List.map_map]
    exact nodup
  · rw [List.map_map]
    rfl

end Traversal
