import Beast.Core.BufferViews
import Mathlib.Tactic.Ring

/-! Adaptors of buffer sequences show just the octets that they should. -/

namespace Beast

open Traversal (Sequence Walk Presents)

variable {bs : Buffers}

/-! ## Octets -/

/-- A buffer without its first octets. -/
theorem ConstBuffer.octets_advance (b : ConstBuffer) (n : Nat) :
    (b.advance n).octets = b.octets.drop n := by
  rw [advance, octets, octets, List.drop_range', Nat.mul_one]
  rcases Nat.le_total n b.size with le | ge
  · rw [Nat.min_eq_left le]
  · rw [Nat.sub_eq_zero_of_le ge]
    rfl

/-- The first octets of a buffer. -/
theorem ConstBuffer.octets_take (b : ConstBuffer) (n : Nat) :
    (b.bufferPrefix n).octets = b.octets.take n := by
  rw [bufferPrefix, octets, octets]
  rcases Nat.le_total n b.size with le | ge
  · rw [Nat.min_eq_left le, List.take_range'_of_length_ge le]
  · rw [Nat.min_eq_right ge, List.take_range'_of_length_le ge]

theorem ConstBuffer.octets_length (b : ConstBuffer) : b.octets.length = b.size := List.length_range'

@[simp] theorem addresses_cons (b : ConstBuffer) (l : List ConstBuffer) :
    addresses (b :: l) = b.octets ++ addresses l := List.flatMap_cons

theorem addresses_append (l l' : List ConstBuffer) :
    addresses (l ++ l') = addresses l ++ addresses l' := List.flatMap_append

/-- A sequence that presents buffers views their octets. -/
theorem views_of_presents {view : Buffers} {l : List ConstBuffer} (presents : Presents view l) :
    Views view (addresses l) :=
  ⟨l, presents, rfl, fun _ enough => presents.iterates enough⟩

/-! ## Without the octets that were consumed -/

namespace ConsumingBuffers

variable {self : ConsumingBuffers bs} {steps : List (bs.Iter × ConstBuffer)} {n fuel : Nat}

/-- What is left to be walked through, of which some octets of the first buffer are skipped. -/
structure Holds (a : ConsumingBuffers bs) (steps : List (bs.Iter × ConstBuffer)) : Prop where
  walk : Walk bs a.begin_ steps bs.end_
  nodup : (steps.map Prod.fst ++ [bs.end_]).Nodup
  skips : ∀ step ∈ steps.head?, a.skip_ ≤ step.2.size
  done : steps = [] → a.skip_ = 0

/-- The octets that are left. -/
def left (self : ConsumingBuffers bs) (steps : List (bs.Iter × ConstBuffer)) : List Nat :=
  (addresses (steps.map Prod.snd)).drop self.skip_

/-- One call of `consume` takes octets from the front of those left. -/
theorem Holds.consume (holds : self.Holds steps) (enough : steps.length < fuel) :
    ∃ self' steps', ConsumingBuffers.consume fuel n self = some self' ∧ self'.Holds steps' ∧
      steps'.length ≤ steps.length ∧ self'.left steps' = (self.left steps).drop n := by
  induction steps generalizing self n fuel with
  | nil =>
    obtain ⟨fuel, rfl⟩ : ∃ k, fuel = k + 1 := ⟨fuel - 1, by omega⟩
    have last : self.begin_ = bs.end_ := holds.walk.nil_eq
    refine ⟨self, [], ?_, holds, Nat.le_refl _, ?_⟩
    · rw [ConsumingBuffers.consume, if_neg fun more => more.2 last]
    · simp [left, addresses]
  | cons step steps ih =>
    obtain ⟨it, b⟩ := step
    rw [List.length_cons] at enough
    obtain ⟨fuel, rfl⟩ : ∃ k, fuel = k + 1 := ⟨fuel - 1, by omega⟩
    have skips : self.skip_ ≤ b.size := holds.skips _ rfl
    have before := (holds.walk.start_apart holds.nodup).2.1
    have walk := holds.walk
    rw [ConsumingBuffers.consume]
    rcases Nat.eq_zero_or_pos n with rfl | some_
    · exact ⟨self, _, if_neg (by omega), holds, Nat.le_refl _, (List.drop_zero).symm⟩
    · rw [if_pos ⟨some_, before⟩]
      cases walk with
      | cons deref next prev rest =>
        rw [deref, Option.bind_some]
        dsimp only
        split
        · -- The octets end within the first buffer.
          rename_i less
          refine ⟨_, _, rfl, ⟨holds.walk, holds.nodup, ?_, nofun⟩, Nat.le_refl _, ?_⟩
          · rintro step ⟨⟩
            dsimp only
            omega
          · rw [left, left, List.drop_drop]
        · rename_i more
          rw [next, Option.bind_some]
          obtain ⟨self', steps', is, holds', shorter, same⟩ := @ih ⟨_, 0⟩
            (n - (b.size - self.skip_)) fuel
            ⟨rest, (List.nodup_cons.mp holds.nodup).2, fun _ _ => Nat.zero_le _, fun _ => rfl⟩
            (by omega)
          refine ⟨self', steps', is, holds', Nat.le_succ_of_le shorter, ?_⟩
          have front : b.octets.drop (self.skip_ + n) = [] :=
            List.drop_eq_nil_of_le (by rw [b.octets_length]; omega)
          rw [same, left, left, List.drop_zero, List.drop_drop, List.map_cons, addresses_cons,
            List.drop_append, b.octets_length, front, List.nil_append,
            show self.skip_ + n - b.size = n - (b.size - self.skip_) by omega]

/-- Several calls of `consume` take what they ask for together. -/
theorem Holds.consumeAll (holds : self.Holds steps) (enough : steps.length < fuel) (ns : List Nat) :
    ∃ self' steps', ConsumingBuffers.consumeAll fuel ns self = some self' ∧ self'.Holds steps' ∧
      self'.left steps' = (self.left steps).drop ns.sum := by
  induction ns generalizing self steps with
  | nil => exact ⟨self, steps, rfl, holds, (List.drop_zero).symm⟩
  | cons n ns ih =>
    obtain ⟨self₁, steps₁, first, holds₁, shorter, left₁⟩ := holds.consume (n := n) enough
    obtain ⟨self₂, steps₂, rest, holds₂, left₂⟩ := ih holds₁ (Nat.lt_of_le_of_lt shorter enough)
    refine ⟨self₂, steps₂, ?_, holds₂, ?_⟩
    · rw [ConsumingBuffers.consumeAll, first, Option.bind_some, rest]
    · rw [left₂, left₁, List.drop_drop, List.sum_cons]

/-- What is left is presented, without the octets that are skipped. -/
theorem Holds.view (holds : self.Holds steps) : Views self.view (self.left steps) := by
  have presents := holds.walk.presents_between holds.nodup fun it b =>
    if it = self.begin_ then b.advance self.skip_ else b
  suffices same : addresses (steps.map fun step =>
      if step.1 = self.begin_ then step.2.advance self.skip_ else step.2) = self.left steps from
    same ▸ views_of_presents presents
  cases steps with
  | nil => simp [left, addresses]
  | cons step rest =>
    obtain ⟨it, b⟩ := step
    obtain ⟨rfl, -, apart⟩ := holds.walk.start_apart holds.nodup
    -- The first buffer is cut off at its front, and the others are as they were.
    have others : rest.map (fun step =>
        if step.1 = self.begin_ then step.2.advance self.skip_ else step.2) = rest.map Prod.snd :=
      List.map_congr_left fun step there => if_neg (apart step there)
    have skips : self.skip_ ≤ b.octets.length := b.octets_length ▸ holds.skips _ rfl
    rw [List.map_cons, if_pos rfl, others, addresses_cons, b.octets_advance, left, List.map_cons,
      addresses_cons, List.drop_append_of_le_length skips]

end ConsumingBuffers

/-! ## Cut off behind some octets -/

namespace BufferPrefixHelper

variable {steps : List (bs.Iter × ConstBuffer)} {it : bs.Iter} {n fuel : Nat}

/-- Where the loop finds the cut: in a buffer, or behind all of them. -/
theorem setup_walk (walk : Walk bs it steps bs.end_)
    (nodup : (steps.map Prod.fst ++ [bs.end_]).Nodup) (enough : steps.length < fuel) :
    ∃ self, setup fuel n it = some self ∧
      ((∃ front b rest, steps = front ++ (self.back_, b) :: rest ∧
        Walk bs it (front ++ [(self.back_, b)]) self.end_ ∧
        Walk bs self.end_ rest bs.end_ ∧
        addresses (front.map Prod.snd) ++ b.octets.take self.size_ =
          (addresses (steps.map Prod.snd)).take n) ∨
      (self.back_ = bs.end_ ∧ self.end_ = bs.end_ ∧
        addresses (steps.map Prod.snd) = (addresses (steps.map Prod.snd)).take n)) := by
  induction steps generalizing it n fuel with
  | nil =>
    obtain ⟨fuel, rfl⟩ : ∃ k, fuel = k + 1 := ⟨fuel - 1, by omega⟩
    obtain rfl := walk.nil_eq
    exact ⟨⟨bs.end_, bs.end_, 0⟩, if_neg (not_not_intro rfl), .inr ⟨rfl, rfl, List.take_nil.symm⟩⟩
  | cons step steps ih =>
    obtain ⟨it', b⟩ := step
    rw [List.length_cons] at enough
    obtain ⟨fuel, rfl⟩ : ∃ k, fuel = k + 1 := ⟨fuel - 1, by omega⟩
    have before := (walk.start_apart nodup).2.1
    cases walk with
    | cons deref next prev rest =>
      rename_i it'
      rw [setup, if_pos before, deref, Option.bind_some, next, Option.bind_some]
      split
      · -- The cut lies in this buffer.
        rename_i within
        refine ⟨_, rfl, .inl ⟨[], b, steps, rfl, .cons deref next prev (.nil _), rest, ?_⟩⟩
        dsimp only
        rw [List.map_cons, addresses_cons,
          List.take_append_of_le_length (by rw [b.octets_length]; exact within)]
        rfl
      · rename_i beyond
        have behind : (addresses (((it, b) :: steps).map Prod.snd)).take n =
            b.octets ++ (addresses (steps.map Prod.snd)).take (n - b.size) := by
          rw [List.map_cons, addresses_cons, List.take_append, b.octets_length,
            List.take_of_length_le (by rw [b.octets_length]; omega)]
        obtain ⟨self, is, ⟨front, b', rest', split, until_, on, octets⟩ | ⟨last, ends, octets⟩⟩ :=
          @ih it' (n - b.size) fuel rest (List.nodup_cons.mp nodup).2 (by omega)
        · refine ⟨self, is, .inl ⟨(it, b) :: front, b', rest', ?_, .cons deref next prev until_, on, ?_⟩⟩
          · rw [split]
            rfl
          · rw [behind, ← octets, List.map_cons, addresses_cons, List.append_assoc]
        · refine ⟨self, is, .inr ⟨last, ends, ?_⟩⟩
          rw [behind, ← octets, List.map_cons, addresses_cons]

/-- A sequence that is cut off presents its first octets. -/
theorem construct_view {l : List ConstBuffer} (presents : Presents bs l) (n : Nat)
    (enough : l.length < fuel) :
    ∃ self, construct bs fuel n = some self ∧ Views self.view ((addresses l).take n) := by
  obtain ⟨steps, walk, nodup, rfl⟩ := presents
  rw [List.length_map] at enough
  obtain ⟨self, is, ⟨front, b, rest, split, until_, on, octets⟩ | ⟨last, ends, octets⟩⟩ :=
    setup_walk (n := n) walk nodup enough
  · -- The part ends at the first iterator of what is left out.
    obtain ⟨others, ends⟩ : ∃ others, rest.map Prod.fst ++ [bs.end_] = self.end_ :: others :=
      ⟨_, (List.cons_head?_tail on.head).symm⟩
    have nodup' : ((front ++ [(self.back_, b)]).map Prod.fst ++ [self.end_]).Nodup := by
      rw [split, List.map_append, List.map_cons, List.append_assoc, List.cons_append, ends] at nodup
      rw [List.map_append, List.append_assoc]
      exact nodup.sublist (List.Sublist.append_left (by simp) _)
    have presents := until_.presents_between nodup' fun it b =>
      if it = self.back_ then b.bufferPrefix self.size_ else b
    refine ⟨self, is, ?_⟩
    suffices same : addresses ((front ++ [(self.back_, b)]).map fun step =>
        if step.1 = self.back_ then step.2.bufferPrefix self.size_ else step.2) =
        (addresses (steps.map Prod.snd)).take n by
      rw [← same]
      exact views_of_presents presents
    -- The buffers in front of the cut are as they were, and the last one is cut off.
    have same : front.map (fun step =>
        if step.1 = self.back_ then step.2.bufferPrefix self.size_ else step.2) =
        front.map Prod.snd := by
      refine List.map_congr_left fun step there => if_neg fun same => ?_
      rw [List.map_append, List.append_assoc] at nodup'
      refine (List.disjoint_of_nodup_append nodup') (List.mem_map.mpr ⟨step, there, same⟩) ?_
      exact List.mem_cons_self
    rw [List.map_append, same, List.map_singleton, if_pos rfl, addresses_append, ← octets,
      addresses_cons, b.octets_take]
    simp [addresses]
  · have presents := walk.presents_between nodup fun it b =>
      if it = self.back_ then b.bufferPrefix self.size_ else b
    have same : steps.map (fun step =>
        if step.1 = self.back_ then step.2.bufferPrefix self.size_ else step.2) =
        steps.map Prod.snd := by
      refine List.map_congr_left fun step there => if_neg fun same => ?_
      refine (List.disjoint_of_nodup_append nodup) (List.mem_map.mpr ⟨step, there, rfl⟩) ?_
      rw [same, last]
      exact List.mem_cons_self
    rw [same] at presents
    refine ⟨self, is, ?_⟩
    rw [← octets, view, ends]
    exact views_of_presents presents

end BufferPrefixHelper

/-! ## One after another -/

namespace CatIter

variable {N : Nat} {bn : Fin N → Buffers} {i : Fin N}

/-- The sequences behind the first ones, of which one comes first. -/
theorem behind_cons (i : Fin N) : behind i = i :: behind (i + 1) := by
  have inside : i.1 < (List.finRange N).length := by
    rw [List.length_finRange]
    exact i.2
  rw [behind, List.drop_eq_getElem_cons inside, List.getElem_finRange]
  rfl

theorem behind_all : (behind N : List (Fin N)) = [] :=
  List.drop_eq_nil_of_le (Nat.le_of_eq List.length_finRange)

/-- From the front of the sequences behind some, the step back leads to those in front. -/
theorem decrement_construct (j : Nat) (within : j ≤ N) :
    decrement (construct (behind j) : CatIter bn) = stepDown j within := by
  induction within using Nat.decreasingInduction with
  | self => rw [behind_all]; rfl
  | of_succ j inside ih =>
    have first := behind_cons (⟨j, inside⟩ : Fin N)
    rw [first, construct]
    split
    · -- The sequence has buffers, and its front was reached.
      rw [decrement, if_neg (not_not_intro rfl)]
    · -- It has none, and is passed over either way.
      rename_i empty
      rw [ih, stepDown, if_neg fun some_ => empty (Ne.symm some_)]

/-- A walk through a sequence is one through all of them, to the front of the next ones. -/
theorem walk_within {it : (bn i).Iter} {steps : List ((bn i).Iter × ConstBuffer)}
    (walk : Walk (bn i) it steps (bn i).end_) (some_ : steps ≠ [])
    (ends : (bn i).end_ ∉ steps.map Prod.fst ∧ (bn i).end_ ≠ (bn i).begin_)
    (starts : (bn i).begin_ ∉ (steps.map Prod.fst).tail) :
    Walk (bufferCat bn) (within i it) (steps.map fun step => (within i step.1, step.2))
      (construct (behind (i + 1))) := by
  induction steps generalizing it with
  | nil => exact absurd rfl some_
  | cons step steps ih =>
    cases walk with
    | @cons _ it' _ b _ deref next prev rest =>
      rw [List.map_cons, List.mem_cons, not_or] at ends
      cases steps with
      | nil =>
        -- The end of the sequence was reached.
        obtain rfl := rest.nil_eq
        refine .cons (s := bufferCat bn) deref ?_ ?_ (.nil _)
        · show increment (within i it) = _
          rw [increment, next, Option.bind_some, if_neg (not_not_intro rfl)]
          rfl
        · show decrement (construct (behind (i + 1))) = _
          rw [decrement_construct (i + 1) i.2, stepDown, if_pos ends.2, prev, Option.map_some]
          rfl
      | cons step' steps =>
        obtain ⟨rfl, -⟩ : step'.1 = it' ∧ True := by
          cases rest
          exact ⟨rfl, trivial⟩
        have inner : step'.1 ≠ (bn i).end_ := fun same => ends.1.2 (same ▸ List.mem_cons_self)
        have behind : step'.1 ≠ (bn i).begin_ := fun same => starts (same ▸ List.mem_cons_self)
        refine .cons (s := bufferCat bn) deref ?_ ?_ (ih rest (List.cons_ne_nil _ _)
          ⟨ends.1.2, ends.2⟩ fun there => starts (List.mem_of_mem_tail there))
        · show increment (within i it) = _
          rw [increment, next, Option.bind_some, if_pos inner]
          rfl
        · show decrement (within i step'.1) = _
          rw [decrement, if_pos behind, prev, Option.map_some]
          rfl

/-- The sequences behind some are presented one after another. -/
theorem walk_construct {ls : Fin N → List ConstBuffer} (present : ∀ i, Presents (bn i) (ls i))
    (j : Nat) (within_ : j ≤ N) :
    ∃ steps, Walk (bufferCat bn) (construct (behind j)) steps past ∧
      (steps.map Prod.fst ++ [(bufferCat bn).end_]).Nodup ∧
      (∀ step ∈ steps, ∃ (n : Fin N) (it : (bn n).Iter), step.1 = within n it ∧ j ≤ n) ∧
      steps.map Prod.snd = (behind j).flatMap ls := by
  induction within_ using Nat.decreasingInduction with
  | self =>
    refine ⟨[], ?_, List.nodup_singleton _, nofun, ?_⟩
    · rw [behind_all]
      exact .nil (s := bufferCat bn) past
    · rw [behind_all]
      rfl
  | of_succ j inside ih =>
    obtain ⟨rest, walk, nodup, numbers, elements⟩ := ih
    have first := behind_cons (⟨j, inside⟩ : Fin N)
    obtain ⟨steps, own, apart, is⟩ := present ⟨j, inside⟩
    rw [first, construct, List.flatMap_cons, ← elements, ← is]
    cases steps with
    | nil =>
      -- The sequence has no buffers, and is passed over.
      rw [if_neg (not_not_intro own.nil_eq)]
      refine ⟨rest, walk, nodup, fun step there => ?_, rfl⟩
      obtain ⟨n, it, same, later⟩ := numbers step there
      exact ⟨n, it, same, Nat.le_of_succ_le later⟩
    | cons step steps =>
      obtain ⟨it, b⟩ := step
      obtain ⟨rfl, some_, others⟩ := own.start_apart apart
      obtain ⟨distinct, -, disjoint⟩ := List.nodup_append.mp apart
      rw [if_pos some_]
      have starts : (bn ⟨j, inside⟩).begin_ ∉ steps.map Prod.fst := fun there => by
        obtain ⟨step, there, same⟩ := List.mem_map.mp there
        exact others step there same
      have ends : (bn ⟨j, inside⟩).end_ ∉ (((bn ⟨j, inside⟩).begin_, b) :: steps).map Prod.fst :=
        fun there => disjoint _ there _ (List.mem_singleton_self _) rfl
      refine ⟨_, (walk_within own (List.cons_ne_nil _ _) ⟨ends, some_.symm⟩ starts).append walk,
        ?_, ?_, ?_⟩
      · rw [List.map_append, List.append_assoc, List.map_map]
        have injective : Function.Injective (@within N bn ⟨j, inside⟩) := fun _ _ same => by
          cases same
          rfl
        refine List.nodup_append.mpr ⟨?_, nodup, ?_⟩
        · have lifted := distinct.map injective
          rwa [List.map_map] at lifted
        · -- An iterator of this sequence is none of the later ones.
          intro a here a' there same
          obtain ⟨step, -, rfl⟩ := List.mem_map.mp here
          rcases List.mem_append.mp there with among | last
          · obtain ⟨step', later, rfl⟩ := List.mem_map.mp among
            obtain ⟨n, it, is, above⟩ := numbers step' later
            rw [is] at same
            cases same
            exact Nat.not_succ_le_self j above
          · rw [List.mem_singleton.mp last] at same
            cases same
      · intro step there
        rcases List.mem_append.mp there with here | later
        · obtain ⟨step', -, rfl⟩ := List.mem_map.mp here
          exact ⟨⟨j, inside⟩, step'.1, rfl, Nat.le_refl _⟩
        · obtain ⟨n, it, same, later⟩ := numbers step later
          exact ⟨n, it, same, Nat.le_of_succ_le later⟩
      · rw [List.map_append, List.map_map]
        rfl

end CatIter

/-- Sequences one after another present their buffers. -/
theorem bufferCat_presents {N : Nat} {bn : Fin N → Buffers} {ls : Fin N → List ConstBuffer}
    (present : ∀ i, Presents (bn i) (ls i)) :
    Presents (bufferCat bn) ((List.finRange N).flatMap ls) := by
  obtain ⟨steps, walk, nodup, -, elements⟩ := CatIter.walk_construct present 0 (Nat.zero_le _)
  exact ⟨steps, walk, nodup, elements⟩

/-! ## All of them -/

/-- Behind any number of calls of `consume`, a sequence has the octets that none of them took. -/
theorem ConsumingBuffers.consumeAll_view {bs : Buffers} {l : List ConstBuffer}
    (presents : Presents bs l) (ns : List Nat) {fuel : Nat} (enough : l.length < fuel) :
    ∃ self, ConsumingBuffers.consumeAll fuel ns (.construct bs) = some self ∧
      Views self.view ((addresses l).drop (min ns.sum (addresses l).length)) := by
  obtain ⟨steps, walk, nodup, rfl⟩ := presents
  rw [List.length_map] at enough
  have start : (ConsumingBuffers.construct bs).Holds steps :=
    ⟨walk, nodup, fun _ _ => Nat.zero_le _, fun _ => rfl⟩
  obtain ⟨self, steps', is, holds, left⟩ := start.consumeAll enough ns
  have all : (ConsumingBuffers.construct bs).left steps = addresses (steps.map Prod.snd) :=
    List.drop_zero
  have views := holds.view
  rw [left, all] at views
  refine ⟨self, is, ?_⟩
  -- Nothing is left where more was to be consumed than there is.
  rcases Nat.le_total ns.sum (addresses (steps.map Prod.snd)).length with le | ge
  · rw [Nat.min_eq_left le]
    exact views
  · rw [Nat.min_eq_right ge, List.drop_length]
    rwa [List.drop_eq_nil_of_le ge] at views

/-- A sequence without the octets that were consumed, a sequence cut off, and sequences one after
another have just the octets that they should, and are read forward and backward. -/
theorem faithful_views :
    (∀ (bs : Buffers) (l : List ConstBuffer), Presents bs l →
      ∀ (ns : List Nat) (fuel : Nat), l.length < fuel →
        ∃ self, ConsumingBuffers.consumeAll fuel ns (.construct bs) = some self ∧
          Views self.view ((addresses l).drop (min ns.sum (addresses l).length))) ∧
    (∀ (bs : Buffers) (l : List ConstBuffer), Presents bs l →
      ∀ n fuel : Nat, l.length < fuel →
        ∃ self, BufferPrefixHelper.construct bs fuel n = some self ∧
          Views self.view ((addresses l).take (min n (addresses l).length))) ∧
    (∀ (N : Nat) (bn : Fin N → Buffers) (ls : Fin N → List ConstBuffer),
      (∀ i, Presents (bn i) (ls i)) →
        Views (bufferCat bn) ((List.finRange N).flatMap fun i => addresses (ls i))) := by
  refine ⟨fun bs l presents ns fuel enough => ?_, fun bs l presents n fuel enough => ?_,
    fun N bn ls present => ?_⟩
  · exact ConsumingBuffers.consumeAll_view presents ns enough
  · obtain ⟨self, is, views⟩ := BufferPrefixHelper.construct_view presents n enough
    refine ⟨self, is, ?_⟩
    rw [← List.take_eq_take_min]
    exact views
  · -- The octets of all the buffers are those of each sequence, one after another.
    have views := views_of_presents (bufferCat_presents present)
    have whole : addresses ((List.finRange N).flatMap ls) =
        (List.finRange N).flatMap fun i => addresses (ls i) := List.flatMap_assoc
    exact whole ▸ views

/-- Such sequences, of which some buffers are empty. -/
theorem faithful_views_lists :
    let bs := Sequence.ofList [ConstBuffer.mk 10 2, ⟨20, 0⟩, ⟨30, 4⟩]
    (∃ self, ConsumingBuffers.consumeAll 4 [1, 3] (.construct bs) = some self ∧
      Views self.view [32, 33]) ∧
    (∃ self, BufferPrefixHelper.construct bs 4 3 = some self ∧ Views self.view [10, 11, 30]) ∧
    Views (bufferCat fun i : Fin 3 => Sequence.ofList (if i = 1 then [ConstBuffer.mk 10 2] else [])) [10, 11] := by
  have present := Traversal.presents_ofList (B := ConstBuffer)
  exact ⟨faithful_views.1 _ _ (present _) [1, 3] 4 (by decide),
    faithful_views.2.1 _ _ (present _) 3 4 (by decide),
    faithful_views.2.2 3 _ (fun i => if i = 1 then [⟨10, 2⟩] else []) fun _ => present _⟩

end Beast
