import Beast.Core.BuffersAdapterLaws

/-! Programs that use an adapter, and the octets that they read and write. -/

namespace Beast

open Chunks (off width places)

namespace BuffersAdapter

variable {self : BuffersAdapter} {c o e : Nat}

/-- Buffers of the same sizes serve as well. -/
theorem Sound.of_lengths (sound : self.Sound c o e) {bs : List Octets}
    (same : bs.map List.length = self.bs_.map List.length) :
    ({ self with bs_ := bs } : BuffersAdapter).Sound c o e := by
  -- Everything that is known of an adapter is about the sizes of its buffers.
  have offs : ∀ i, off bs i = off self.bs_ i := fun i => Chunks.off_congr same
  have widths : ∀ i, width bs i = width self.bs_ i := fun i => Chunks.width_congr same
  have length : bs.length = self.bs_.length := by
    simpa only [List.length_map] using congrArg List.length same
  have total : bs.flatten.length = self.bs_.flatten.length := by
    rw [List.length_flatten, List.length_flatten, same]
  exact { sound with
    end_le := length ▸ sound.end_le
    consumed := (offs _).symm ▸ sound.consumed
    committed := (offs _).symm ▸ sound.committed
    in_pos := (widths _).symm ▸ sound.in_pos
    out_pos := fun lt => (widths _).symm ▸ sound.out_pos (length ▸ lt)
    prepared := fun lt => by
      dsimp only
      rw [offs, widths]
      exact sound.prepared lt
    max_size := total ▸ sound.max_size }

/-- What lies at places that follow one another. -/
theorem read_slice (self : BuffersAdapter) (a b : Nat) :
    self.read (((places self.bs_).flatten.take b).drop a) = (self.bs_.flatten.take b).drop a := by
  have octets := @Chunks.map_get_places _ self.bs_
  calc self.read (((places self.bs_).flatten.take b).drop a)
      = ((((places self.bs_).flatten.map (Chunks.get self.bs_)).take b).drop a).filterMap id := by
        rw [read, ← List.map_take, ← List.map_drop, List.filterMap_map]
        rfl
    _ = (self.bs_.flatten.take b).drop a := by
        rw [octets, ← List.map_take, ← List.map_drop, List.filterMap_map]
        exact List.filterMap_some ..

end BuffersAdapter

namespace AdapterUse

variable {w : AdapterUse} {q : OctetFifo} {c o e : Nat}

/-- An adapter stands for octets, which are cut at the positions that were reached. -/
structure Stands (w : AdapterUse) (q : OctetFifo) (c o e : Nat) : Prop where
  sound : w.adapter.Sound c o e
  given : w.given = ((places w.adapter.bs_).flatten.take e).drop o
  data : q.data = (w.adapter.bs_.flatten.take o).drop c
  room : q.room = (w.adapter.bs_.flatten.take e).drop o
  rest : q.rest = w.adapter.bs_.flatten.drop e

/-- Nothing was done with a new adapter. -/
theorem stands_start (bs : List Octets) : (start bs).Stands ⟨[], [], bs.flatten⟩ 0 0 0 where
  sound := BuffersAdapter.sound_construct bs
  given := rfl
  data := rfl
  room := rfl
  rest := rfl

/-- The prepared octets end within the buffers. -/
theorem Stands.end_le (stands : w.Stands q c o e) : e ≤ w.adapter.bs_.flatten.length := by
  have sound := stands.sound
  rcases Nat.eq_or_lt_of_le sound.out_le with done | more
  · obtain ⟨-, -, rfl⟩ := sound.drained done
    have most := sound.max_size
    omega
  · obtain ⟨ends, short⟩ := sound.prepared more
    have endLe := sound.end_le
    have next := @Chunks.off_succ _ w.adapter.bs_ (w.adapter.end_ - 1) (by omega)
    have total : off w.adapter.bs_ (w.adapter.end_ - 1 + 1) ≤ w.adapter.bs_.flatten.length :=
      Chunks.off_le
    omega

/-- As many places are given as octets are prepared. -/
theorem Stands.given_length (stands : w.Stands q c o e) : w.given.length = e - o := by
  rw [stands.given, List.length_drop, List.length_take, Chunks.places_flatten_length,
    Nat.min_eq_left stands.end_le]

theorem Stands.room_length (stands : w.Stands q c o e) : q.room.length = e - o := by
  rw [stands.room, List.length_drop, List.length_take, Nat.min_eq_left stands.end_le]

/-- The octets that are not committed. -/
theorem Stands.left (stands : w.Stands q c o e) :
    q.room ++ q.rest = w.adapter.bs_.flatten.drop o := by
  have order := stands.sound.prepared_order
  have split := List.take_append_drop e w.adapter.bs_.flatten
  rw [stands.room, stands.rest]
  conv_rhs => rw [← split, List.drop_append_of_le_length
    (by rw [List.length_take, Nat.min_eq_left stands.end_le]; exact order)]

theorem Stands.left_length (stands : w.Stands q c o e) :
    (q.room ++ q.rest).length = w.adapter.max_size_ := by
  have most := stands.sound.max_size
  rw [stands.left, List.length_drop]
  omega

/-- Nothing is left behind the end of a list. -/
theorem drop_take_min {α : Type} (l : List α) (a b : Nat) :
    (l.take b).drop (min a b) = (l.take b).drop a := by
  rcases Nat.le_total a b with le | ge
  · rw [Nat.min_eq_left le]
  · rw [Nat.min_eq_right ge, List.drop_eq_nil_of_le (List.length_take_le ..),
      List.drop_eq_nil_of_le (Nat.le_trans (List.length_take_le ..) ge)]

/-- A part of a list is put behind what comes in front of it. -/
theorem take_drop_append {α : Type} (l : List α) {c o e : Nat} (n : Nat) (le : c ≤ o) (le' : o ≤ e) :
    (l.take o).drop c ++ ((l.take e).drop o).take n = (l.take (min (o + n) e)).drop c := by
  rw [List.take_drop, List.take_take]
  generalize ends : min (o + n) e = x
  have front : (l.take x).take o = l.take o := by
    rw [List.take_take, Nat.min_eq_left (by omega)]
  have rest : ((l.take x).drop o).drop (c - (l.take o).length) = (l.take x).drop o := by
    rcases Nat.le_total o l.length with long | short
    · rw [List.length_take, Nat.min_eq_left long, Nat.sub_eq_zero_of_le le, List.drop_zero]
    · -- Nothing lies behind the first of the three positions.
      have none : (l.take x).drop o = [] :=
        List.drop_eq_nil_of_le (Nat.le_trans (List.length_take_le' ..) short)
      rw [none, List.drop_nil]
  conv_rhs => rw [← List.take_append_drop o (l.take x), front, List.drop_append, rest]

/-- What an act that does not spoil the adapter does, it does to the octets. -/
theorem Stands.perform (stands : w.Stands q c o e) (act : AdapterAct) (fine : ¬w.Spoils act) :
    ∃ c' o' e', (w.perform act).1.Stands (q.perform act).1 c' o' e' ∧
      (w.perform act).2 = (q.perform act).2 := by
  have sound := stands.sound
  cases act with
  | prepare n =>
    obtain ⟨adapter, same, ⟨fits, is, sound'⟩ | ⟨more, is, sound'⟩⟩ := sound.prepare n
    · refine ⟨c, o, o + n, ?_⟩
      simp only [AdapterUse.perform, is, OctetFifo.perform, stands.left_length, if_pos fits]
      rw [stands.left, sound'.outputPlaces, same]
      refine ⟨⟨sound', by rw [same], by rw [same]; exact stands.data, ?_, ?_⟩, ?_⟩
      · rw [same, List.take_drop]
      · rw [same, List.drop_drop]
      · have octets := adapter.read_slice o (o + n)
        rw [same] at octets
        rw [octets, List.take_drop]
    · refine ⟨c, o, e, ?_⟩
      -- Either `out_` was at the last buffer, or all octets were prepared.
      have stays : adapter.Sound c o e := by
        split at sound'
        · rename_i further
          have all : w.adapter.max_size_ ≤ w.given.length := by
            by_contra less
            exact fine ⟨more, further, by omega⟩
          rw [stands.given_length] at all
          have most := sound.max_size
          have most' := stands.end_le
          have order := sound.prepared_order
          rwa [show e = w.adapter.bs_.flatten.length by omega]
        · exact sound'
      simp only [AdapterUse.perform, is, OctetFifo.perform, stands.left_length,
        if_neg (Nat.not_le.mpr more)]
      exact ⟨⟨stays, by rw [same]; exact stands.given, by rw [same]; exact stands.data,
        by rw [same]; exact stands.room, by rw [same]; exact stands.rest⟩, trivial⟩
  | write j x =>
    refine ⟨c, o, e, ?_⟩
    simp only [AdapterUse.perform, OctetFifo.perform]
    cases there : w.given[j]? with
    | none =>
      have outside : q.room.length ≤ j := by
        rw [stands.room_length, ← stands.given_length]
        exact List.getElem?_eq_none_iff.mp there
      refine ⟨⟨sound, stands.given, stands.data, ?_, stands.rest⟩, rfl⟩
      rw [List.set_eq_of_length_le outside]
      exact stands.room
    | some place =>
      rw [stands.given, List.getElem?_drop, List.getElem?_take] at there
      split at there
      · rename_i before
        -- The octet lies behind those committed, among those prepared.
        have octets := Chunks.flatten_set_place there x
        have lengths := @Chunks.set_lengths _ w.adapter.bs_ place x
        dsimp only
        refine ⟨⟨sound.of_lengths lengths, ?_, ?_, ?_, ?_⟩, rfl⟩
        · dsimp only
          rw [Chunks.places_congr lengths]
          exact stands.given
        · dsimp only
          rw [octets, List.take_set_of_le (Nat.le_add_right o j)]
          exact stands.data
        · dsimp only
          rw [octets, List.take_set, List.drop_set, if_neg (by omega), Nat.add_sub_cancel_left,
            stands.room]
        · dsimp only
          rw [octets, List.drop_set_of_lt before]
          exact stands.rest
      · cases there
  | commit n =>
    obtain ⟨sound', same⟩ := sound.commitWalk (n := n) rfl
    have inOrder := sound.in_order
    have order := sound.prepared_order
    refine ⟨c, min (o + n) e, e, ⟨sound', ?_, ?_, ?_, ?_⟩, rfl⟩
    · simp only [AdapterUse.perform, BuffersAdapter.commit, same]
      rw [stands.given, List.drop_drop, drop_take_min]
    · simp only [AdapterUse.perform, BuffersAdapter.commit, OctetFifo.perform, same]
      rw [stands.data, stands.room, take_drop_append _ _ inOrder order]
    · simp only [AdapterUse.perform, BuffersAdapter.commit, OctetFifo.perform, same]
      rw [stands.room, List.drop_drop, drop_take_min]
    · simp only [AdapterUse.perform, BuffersAdapter.commit, OctetFifo.perform, same]
      exact stands.rest
  | consume n =>
    obtain ⟨sound', same⟩ := sound.consumeWalk (n := n) rfl
    refine ⟨min (c + n) o, o, e, ⟨sound', ?_, ?_, ?_, ?_⟩, rfl⟩
    · simp only [AdapterUse.perform, BuffersAdapter.consume, same]
      exact stands.given
    · simp only [AdapterUse.perform, BuffersAdapter.consume, OctetFifo.perform, same]
      rw [stands.data, List.drop_drop, drop_take_min]
    · simp only [AdapterUse.perform, BuffersAdapter.consume, OctetFifo.perform, same]
      exact stands.room
    · simp only [AdapterUse.perform, BuffersAdapter.consume, OctetFifo.perform, same]
      exact stands.rest
  | data =>
    refine ⟨c, o, e, stands, ?_⟩
    simp only [AdapterUse.perform, OctetFifo.perform]
    rw [sound.dataPlaces, BuffersAdapter.read_slice, stands.data]

/-- What a program does that never spoils its adapter, it does to the octets. -/
theorem Stands.performAll (stands : w.Stands q c o e) (acts : List AdapterAct)
    (careful : w.Careful acts) :
    ∃ c' o' e', (w.performAll acts).1.Stands (q.performAll acts).1 c' o' e' ∧
      (w.performAll acts).2 = (q.performAll acts).2 := by
  induction acts generalizing w q c o e with
  | nil => exact ⟨c, o, e, stands, rfl⟩
  | cons act acts ih =>
    obtain ⟨c₁, o₁, e₁, next, report⟩ := stands.perform act careful.1
    obtain ⟨c₂, o₂, e₂, last, reports⟩ := ih next careful.2
    refine ⟨c₂, o₂, e₂, last, ?_⟩
    rw [AdapterUse.performAll, OctetFifo.performAll]
    dsimp only
    rw [report, reports]

/-- What can be read of an adapter and written to it. -/
structure Reads (w : AdapterUse) (q : OctetFifo) : Prop where
  data : w.adapter.read w.adapter.dataPlaces = q.data
  room : w.adapter.read w.given = q.room
  size : w.adapter.in_size_ = q.data.length
  max_size : w.adapter.max_size_ = q.room.length + q.rest.length
  /-- The places to write to follow those that can be read. -/
  behind : ∃ front back,
    (places w.adapter.bs_).flatten = front ++ (w.adapter.dataPlaces ++ w.given) ++ back
  /-- So do those of every later `prepare`, which are as many as it is asked for. -/
  prepares (n : Nat) : n ≤ w.adapter.max_size_ →
    ∃ adapter, w.adapter.prepare n = (adapter, true) ∧ adapter.outputPlaces.length = n ∧
      ∃ front back, (places w.adapter.bs_).flatten =
        front ++ (w.adapter.dataPlaces ++ adapter.outputPlaces) ++ back

/-- Two parts that follow one another, and what lies around them. -/
theorem parts_between {α : Type} (l : List α) {c o e : Nat} (le : c ≤ o) (le' : o ≤ e) :
    l = l.take c ++ ((l.take o).drop c ++ (l.take e).drop o) ++ l.drop e := by
  have joined := take_drop_append l e le le'
  have whole : ((l.take e).drop o).take e = (l.take e).drop o :=
    List.take_of_length_le (by rw [List.length_drop, List.length_take]; omega)
  rw [whole, Nat.min_eq_right (by omega)] at joined
  have front : l.take c = (l.take e).take c := by
    rw [List.take_take, Nat.min_eq_left (by omega)]
  rw [joined, front, List.take_append_drop, List.take_append_drop]

theorem Stands.reads (stands : w.Stands q c o e) : w.Reads q where
  data := by rw [stands.sound.dataPlaces, BuffersAdapter.read_slice, stands.data]
  room := by rw [stands.given, BuffersAdapter.read_slice, stands.room]
  size := by
    have size := stands.sound.in_size
    have order := stands.sound.prepared_order
    have endLe := stands.end_le
    rw [stands.data, List.length_drop, List.length_take, Nat.min_eq_left (by omega)]
    omega
  max_size := by rw [← stands.left_length, List.length_append]
  behind := by
    rw [stands.sound.dataPlaces, stands.given]
    exact ⟨_, _, parts_between _ stands.sound.in_order stands.sound.prepared_order⟩
  prepares n fits := by
    have order := stands.sound.prepared_order
    have most := stands.sound.max_size
    obtain ⟨adapter, same, ⟨-, is, sound⟩ | ⟨more, -, -⟩⟩ := stands.sound.prepare n
    · -- The attempt succeeds, and prepares the octets behind those committed.
      refine ⟨adapter, is, ?_, ?_⟩
      · rw [sound.outputPlaces, List.length_drop, List.length_take, Chunks.places_flatten_length,
          same]
        omega
      · rw [stands.sound.dataPlaces, sound.outputPlaces, same]
        exact ⟨_, _, parts_between _ stands.sound.in_order (Nat.le_add_right o n)⟩
    · omega

/-- Whether a program does not notice that it tried to prepare too many octets. -/
def Atomic (w : AdapterUse) (n : Nat) : Prop :=
  (w.perform (.prepare n)).2 = .no_space → ∀ later, w.Careful later →
    (w.perform (.prepare n)).1.Careful later →
    ((w.perform (.prepare n)).1.performAll later).2 = (w.performAll later).2

/-- What is read after a commit of octets that are not all prepared. -/
theorem commit_data (sound : w.adapter.Sound c o e) (n : Nat) :
    (w.performAll [.commit n, .data]).2 =
      [.done, .data ((w.adapter.bs_.flatten.take (min (o + n) e)).drop c)] := by
  obtain ⟨sound', same⟩ := sound.commitWalk (n := n) rfl
  have octets := BuffersAdapter.read_slice (w.adapter.commit n) c (min (o + n) e)
  simp only [AdapterUse.performAll, AdapterUse.perform]
  rw [BuffersAdapter.commit] at octets ⊢
  rw [sound'.dataPlaces, octets, same]

/-- An attempt that spoils the adapter is noticed by committing all that there is room for. -/
theorem Stands.atomic_iff (stands : w.Stands q c o e) (n : Nat) :
    w.Atomic n ↔ ¬w.Spoils (.prepare n) := by
  constructor
  · rintro atomic ⟨more, further, unprepared⟩
    have most := stands.sound.max_size
    have order := stands.sound.in_order
    obtain ⟨adapter, same, ⟨fits, -, -⟩ | ⟨-, is, sound⟩⟩ := stands.sound.prepare n
    · omega
    · rw [if_pos further] at sound
      have failed : w.perform (.prepare n) = ({ w with adapter }, .no_space) := by
        simp only [AdapterUse.perform, is]
      unfold Atomic at atomic
      rw [failed] at atomic
      -- All that there is room for is committed, where only what was prepared should be.
      have equal := atomic rfl [.commit w.adapter.max_size_, .data] ⟨not_false, not_false, trivial⟩
        ⟨not_false, not_false, trivial⟩
      have sound' : ({ w with adapter } : AdapterUse).adapter.Sound c o _ := sound
      rw [commit_data sound', commit_data stands.sound] at equal
      have octets := List.cons.inj (List.cons.inj equal).2
      have lengths := congrArg List.length (AdapterReport.data.inj octets.1)
      rw [stands.given_length] at unprepared
      have order' := stands.sound.prepared_order
      rw [List.length_drop, List.length_drop, List.length_take, List.length_take, same] at lengths
      omega
  · intro fine none later careful careful'
    obtain ⟨c', o', e', stands', report⟩ := stands.perform (.prepare n) fine
    have kept : (q.perform (.prepare n)).1 = q := by
      rw [report] at none
      simp only [OctetFifo.perform] at none ⊢
      split at none
      · cases none
      · rename_i more
        rw [if_neg more]
    rw [kept] at stands'
    obtain ⟨_, _, _, -, reports⟩ := stands.performAll later careful
    obtain ⟨_, _, _, -, reports'⟩ := stands'.performAll later careful'
    rw [reports, reports']

/-- Programs read and write octets in their order, as long as no attempt to prepare too many of
them is made in front of the last buffer with octets left that are not prepared; and just then such
an attempt is not noticed. -/
theorem adapter_fifo (bs : List Octets) (acts : List AdapterAct)
    (careful : (start bs).Careful acts) :
    let used := (start bs).performAll acts
    let octets := OctetFifo.performAll ⟨[], [], bs.flatten⟩ acts
    used.2 = octets.2 ∧ used.1.Reads octets.1 ∧
      ∀ n, used.1.Atomic n ↔ ¬used.1.Spoils (.prepare n) := by
  obtain ⟨c, o, e, stands, reports⟩ := (stands_start bs).performAll acts careful
  exact ⟨reports, stands.reads, stands.atomic_iff⟩

/-- Such a program: octets are prepared behind others that were committed. -/
theorem adapter_fifo_two :
    let acts := [.prepare 3, .write 1 7, .commit 2, .prepare 9, .data, .prepare 4, .consume 1, .data]
    ((start [[0, 0], [], [0, 0, 0, 0]]).performAll acts).2 =
      (OctetFifo.performAll ⟨[], [], [0, 0, 0, 0, 0, 0]⟩ acts).2 := by
  refine (adapter_fifo [[0, 0], [], [0, 0, 0, 0]] _ ?_).1
  -- The attempt that fails is made where the last buffer was reached.
  exact ⟨fun spoils => absurd spoils.1 (by decide), not_false, not_false,
    fun spoils => absurd spoils.2.1 (by decide), not_false,
    fun spoils => absurd spoils.1 (by decide), not_false, not_false, trivial⟩

/-- An attempt to prepare too many octets lets a later `commit` move more than were prepared. -/
theorem commit_moves_too_far : ¬∀ (bs : List Octets) (acts : List AdapterAct),
    ((start bs).performAll acts).2 = (OctetFifo.performAll ⟨[], [], bs.flatten⟩ acts).2 := by
  intro always
  have told := always [[0, 0, 0, 0], [0, 0, 0, 0]] [.prepare 2, .prepare 9, .commit 8, .data]
  revert told
  decide

end AdapterUse

end Beast
