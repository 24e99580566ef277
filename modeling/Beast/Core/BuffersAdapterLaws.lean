import Beast.Core.BuffersAdapter

/-! The adapter is a queue of octets, unless `prepare` throws too early. -/

namespace Beast

namespace BuffersAdapter

open Chunks (off width places)

variable {self : BuffersAdapter} {c o e n : Nat}

/-- The places of an adapter, whose octets are consumed, committed, and prepared up to positions. -/
structure Sound (a : BuffersAdapter) (c o e : Nat) : Prop where
  begin_le : a.begin_ ≤ a.out_
  out_le : a.out_ ≤ a.end_
  end_le : a.end_ ≤ a.bs_.length
  consumed : off a.bs_ a.begin_ + a.in_pos_ = c
  committed : off a.bs_ a.out_ + a.out_pos_ = o
  in_order : c ≤ o
  prepared_order : o ≤ e
  in_pos : a.begin_ < a.out_ → a.in_pos_ ≤ width a.bs_ a.begin_
  out_pos : a.out_ < a.bs_.length → a.out_pos_ ≤ width a.bs_ a.out_
  /-- The prepared octets end in the last buffer. -/
  prepared : a.out_ < a.end_ → off a.bs_ (a.end_ - 1) + a.out_end_ = e ∧
    a.out_end_ ≤ width a.bs_ (a.end_ - 1)
  /-- Where no buffer is prepared, no octet is. -/
  drained : a.out_ = a.end_ → a.out_pos_ = 0 ∧ a.out_end_ = 0 ∧ e = o
  max_size : a.max_size_ + o = a.bs_.flatten.length
  in_size : a.in_size_ + c = o

/-- Nothing was done with a new adapter. -/
theorem sound_construct (bs : List Octets) : (construct bs).Sound 0 0 0 where
  begin_le := Nat.le_refl _
  out_le := Nat.le_refl _
  end_le := Nat.zero_le _
  consumed := (Nat.add_zero _).trans Chunks.off_zero
  committed := (Nat.add_zero _).trans Chunks.off_zero
  in_order := Nat.le_refl _
  prepared_order := Nat.le_refl _
  in_pos _ := Nat.zero_le _
  out_pos _ := Nat.zero_le _
  prepared lt := absurd lt (Nat.lt_irrefl _)
  drained _ := ⟨rfl, rfl, rfl⟩
  max_size := rfl
  in_size := rfl

/-! ## What can be read and written -/

/-- The places of a part of a buffer. -/
theorem view_places {bs : List Octets} {i s : Nat} (inside : i < bs.length) (within : s ≤ width bs i)
    (p : Nat) :
    (View.advance ⟨i, 0, s⟩ p).places = (((places bs).getD i []).take s).drop p := by
  have row : (places bs).getD i [] = (List.range (width bs i)).map fun j => (i, j) := by
    rw [List.getD_eq_getElem _ _ (by rw [Chunks.places_length]; exact inside), Chunks.width_eq inside]
    simp [places]
  rw [row, ← List.map_take, ← List.map_drop, List.take_range, Nat.min_eq_left within,
    View.advance, View.places, List.range_eq_range', List.drop_range']
  dsimp only
  rcases Nat.le_total p s with le | ge
  · rw [Nat.min_eq_left le, Nat.zero_add, Nat.zero_add, Nat.mul_one]
  · rw [Nat.sub_eq_zero_of_le ge]
    rfl

/-- The places of the buffers in a window lie between its two positions. -/
theorem window_places {bs : List Octets} {i p j q : Nat} (view : Nat → View) (le : i ≤ j)
    (inside : j < bs.length) (within : q ≤ width bs j) (starts : p ≤ if i = j then q else width bs i)
    (views : ∀ k, i ≤ k → k ≤ j →
      view k = View.advance ⟨k, 0, if k = j then q else width bs k⟩ (if k = i then p else 0)) :
    ((List.range' i (j + 1 - i)).map view).flatMap View.places =
      ((places bs).flatten.take (off bs j + q)).drop (off bs i + p) := by
  have lengths := @Chunks.places_lengths _ bs
  have widths : ∀ k, width (places bs) k = width bs k := fun k => Chunks.width_congr lengths
  have offs : ∀ k, off (places bs) k = off bs k := fun k => Chunks.off_congr lengths
  -- Every octet is put at its own place, so that the octets of the window are those places.
  have slice := @Chunks.window_eq _ (places bs) i j p q le
    (by rw [Chunks.places_length]; exact inside) (by rw [widths]; exact within)
    (by rw [widths]; exact starts)
  rw [offs, offs] at slice
  rw [← slice, List.flatMap_def, List.map_map]
  refine congrArg List.flatten (List.map_congr_left fun k there => ?_)
  rw [List.mem_range'_1] at there
  have short : (if k = j then q else width bs k) ≤ width bs k := by
    split
    · rename_i last
      rw [last]
      exact within
    · exact Nat.le_refl _
  rw [Function.comp_apply, views k there.1 (by omega), view_places (by omega) short, Chunks.part,
    widths]

/-- The octets that can be read lie between those consumed and those not committed. -/
theorem Sound.dataPlaces (sound : self.Sound c o e) :
    self.dataPlaces = ((places self.bs_).flatten.take o).drop c := by
  have inLe := sound.begin_le
  have endLe := sound.end_le
  have inPos := sound.in_pos
  have order := sound.in_order
  have consumed := sound.consumed
  have committed := sound.committed
  unfold BuffersAdapter.dataPlaces data
  dsimp only
  rcases Nat.eq_or_lt_of_le sound.out_le with done | more
  · obtain ⟨outPos, -, -⟩ := sound.drained done
    rw [if_pos done, ← done]
    rcases Nat.eq_or_lt_of_le inLe with same | front
    · -- Nothing is there to be read.
      have empty : o ≤ c := by
        rw [← consumed, ← committed, same, outPos]
        omega
      rw [same, Nat.sub_self]
      exact (List.drop_eq_nil_of_le (Nat.le_trans (List.length_take_le ..) empty)).symm
    · -- The last buffer that can be read is read to its end.
      have ends := @Chunks.off_succ _ self.bs_ (self.out_ - 1) (by omega)
      rw [show self.out_ - 1 + 1 = self.out_ by omega] at ends
      have starts : self.in_pos_ ≤ if self.begin_ = self.out_ - 1 then
          width self.bs_ (self.out_ - 1) else width self.bs_ self.begin_ := by
        split
        · rename_i last
          exact last ▸ inPos front
        · exact inPos front
      have slice := window_places self.constBuffer (show self.begin_ ≤ self.out_ - 1 by omega)
        (by omega) (Nat.le_refl _) starts fun k _ _ => by
          have whole : (if k = self.out_ - 1 then width self.bs_ (self.out_ - 1)
              else width self.bs_ k) = width self.bs_ k := by
            split
            · rename_i last
              rw [last]
            · rfl
          rw [constBuffer, if_pos (.inr (by omega : k ≠ self.out_)), whole]
      rw [show self.out_ - 1 + 1 - self.begin_ = self.out_ - self.begin_ by omega] at slice
      rw [slice, ← committed, ← consumed, ends, outPos, Nat.add_zero]
  · rw [if_neg (by omega)]
    have starts : self.in_pos_ ≤ if self.begin_ = self.out_ then self.out_pos_
        else width self.bs_ self.begin_ := by
      split
      · rename_i same
        rw [← consumed, ← committed, same] at order
        omega
      · exact inPos (by omega)
    rw [window_places self.constBuffer inLe (by omega) (sound.out_pos (by omega)) starts
      fun k _ _ => ?_, committed, consumed]
    rw [constBuffer]
    by_cases last : k = self.out_
    · rw [if_pos last, if_neg (by omega)]
    · rw [if_neg last, if_pos (.inr last)]

/-- The octets that can be written lie behind those committed. -/
theorem Sound.outputPlaces (sound : self.Sound c o e) :
    self.outputPlaces = ((places self.bs_).flatten.take e).drop o := by
  have endLe := sound.end_le
  have outLe := sound.out_le
  have order := sound.prepared_order
  have committed := sound.committed
  unfold BuffersAdapter.outputPlaces output
  rcases Nat.eq_or_lt_of_le sound.out_le with done | more
  · -- Nothing is there to be written.
    obtain ⟨-, -, rfl⟩ := sound.drained done
    rw [done, Nat.sub_self]
    exact (List.drop_eq_nil_of_le (List.length_take_le ..)).symm
  · obtain ⟨ends, within⟩ := sound.prepared more
    have starts : self.out_pos_ ≤ if self.out_ = self.end_ - 1 then self.out_end_
        else width self.bs_ self.out_ := by
      split
      · rename_i same
        rw [← committed, ← ends, ← same] at order
        omega
      · exact sound.out_pos (by omega)
    have slice := window_places self.mutableBuffer (show self.out_ ≤ self.end_ - 1 by omega)
      (by omega) within starts fun k _ _ => rfl
    rw [show self.end_ - 1 + 1 - self.out_ = self.end_ - self.out_ by omega] at slice
    rw [slice, ends, committed]

/-! ## What operations keep -/

/-- The buffers of a walk, of which the first one is at its start. -/
theorem walk_head {bs rest : List Octets} {buffer : Octets} {i j : Nat}
    (walk : (bs.drop i).take (j - i) = buffer :: rest) :
    i < j ∧ i < bs.length ∧ buffer.length = width bs i ∧ (bs.drop (i + 1)).take (j - (i + 1)) = rest := by
  -- The walk is not empty, so it neither starts at its end nor behind the last buffer.
  have some_ : (bs.drop i).take (j - i) ≠ [] := by
    rw [walk]
    exact List.cons_ne_nil _ _
  have before : i < j := by
    by_contra behind
    rw [Nat.sub_eq_zero_of_le (by omega), List.take_zero] at some_
    exact some_ rfl
  have inside : i < bs.length := by
    by_contra outside
    rw [List.drop_eq_nil_of_le (by omega), List.take_nil] at some_
    exact some_ rfl
  rw [List.drop_eq_getElem_cons inside, show j - i = (j - (i + 1)) + 1 by omega,
    List.take_succ_cons] at walk
  obtain ⟨first, rest⟩ := List.cons.inj walk
  exact ⟨before, inside, by rw [← first, Chunks.width_eq inside], rest⟩

/-- A walk over no buffers starts where it ends. -/
theorem walk_nil {bs : List Octets} {i j : Nat} (walk : (bs.drop i).take (j - i) = [])
    (le : i ≤ j) (within : j ≤ bs.length) : i = j := by
  have length := congrArg List.length walk
  rw [List.length_take, List.length_drop, List.length_nil] at length
  omega

/-- The buffers from some place on, of which the first one is the one there. -/
theorem drop_head {bs rest : List Octets} {buffer : Octets} {i : Nat}
    (walk : bs.drop i = buffer :: rest) :
    i < bs.length ∧ buffer.length = width bs i ∧ bs.drop (i + 1) = rest := by
  have inside : i < bs.length := by
    by_contra outside
    rw [List.drop_eq_nil_of_le (by omega)] at walk
    cases walk
  rw [List.drop_eq_getElem_cons inside] at walk
  obtain ⟨first, rest⟩ := List.cons.inj walk
  exact ⟨inside, by rw [← first, Chunks.width_eq inside], rest⟩

/-- No buffers come from the last place on. -/
theorem drop_nil {bs : List Octets} {i : Nat} (walk : bs.drop i = []) (within : i ≤ bs.length) :
    i = bs.length := by
  have length := congrArg List.length walk
  rw [List.length_drop, List.length_nil] at length
  omega

/-- Octets are consumed, as many as there are. -/
theorem Sound.consumeWalk {walk : List Octets} (sound : self.Sound c o e)
    (is : (self.bs_.drop self.begin_).take (self.out_ - self.begin_) = walk) :
    (BuffersAdapter.consumeWalk walk n self).Sound (min (c + n) o) o e ∧
      (BuffersAdapter.consumeWalk walk n self).bs_ = self.bs_ := by
  have outLe := sound.out_le
  have endLe := sound.end_le
  have order := sound.in_order
  have consumed := sound.consumed
  have committed := sound.committed
  have size := sound.in_size
  -- The induction is on the buffers of the walk.
  induction walk generalizing self c n with
  | nil =>
    have here := walk_nil is sound.begin_le (by omega)
    rw [here] at consumed
    rw [BuffersAdapter.consumeWalk]
    split
    · rw [Nat.min_eq_left (by omega)]
      exact ⟨{ sound with
        consumed := by dsimp only; rw [here]; omega
        in_order := by omega
        in_pos := fun lt => absurd here (Nat.ne_of_lt lt)
        in_size := by dsimp only; omega }, rfl⟩
    · rw [Nat.min_eq_right (by omega)]
      exact ⟨{ sound with
        consumed := by dsimp only; rw [here]; omega
        in_order := Nat.le_refl _
        in_pos := fun lt => absurd here (Nat.ne_of_lt lt)
        in_size := by dsimp only; omega }, rfl⟩
  | cons buffer rest ih =>
    obtain ⟨before, inside, length, rest_⟩ := walk_head is
    have inPos := sound.in_pos before
    have next := Chunks.off_succ inside
    have reaches : off self.bs_ (self.begin_ + 1) ≤ off self.bs_ self.out_ := Chunks.off_mono before
    rw [BuffersAdapter.consumeWalk, length]
    split
    · rw [Nat.min_eq_left (by omega)]
      exact ⟨{ sound with
        consumed := by dsimp only; omega
        in_order := by omega
        in_pos := fun _ => by dsimp only; omega
        in_size := by dsimp only; omega }, rfl⟩
    · -- The buffer is consumed, and the walk goes on at the next one.
      have moved : ({ self with
          in_size_ := self.in_size_ - (width self.bs_ self.begin_ - self.in_pos_)
          in_pos_ := 0
          begin_ := self.begin_ + 1 } : BuffersAdapter).Sound (off self.bs_ (self.begin_ + 1)) o e :=
        { sound with
          begin_le := before
          consumed := rfl
          in_order := by omega
          in_pos := fun _ => Nat.zero_le _
          in_size := by dsimp only; omega }
      obtain ⟨sound', same⟩ := ih (n := n - (width self.bs_ self.begin_ - self.in_pos_)) moved rest_
        outLe endLe moved.in_order moved.consumed committed moved.in_size
      refine ⟨?_, same⟩
      rw [show c + n = off self.bs_ (self.begin_ + 1) +
        (n - (width self.bs_ self.begin_ - self.in_pos_)) by omega]
      exact sound'

/-- Octets of the buffer of `out_` are committed. -/
theorem Sound.commitHere (sound : self.Sound c o e) (inside : self.out_ < self.end_)
    (fits : self.out_pos_ + n ≤ width self.bs_ self.out_) (prepared : o + n ≤ e) :
    ({ self with
      out_pos_ := self.out_pos_ + n
      in_size_ := self.in_size_ + n
      max_size_ := self.max_size_ - n } : BuffersAdapter).Sound c (o + n) e := by
  have endLe := sound.end_le
  have order := sound.in_order
  have committed := sound.committed
  have size := sound.in_size
  have most := sound.max_size
  have ends := @Chunks.off_succ _ self.bs_ self.out_ (by omega)
  have total : off self.bs_ (self.out_ + 1) ≤ self.bs_.flatten.length := Chunks.off_le
  -- The octets come out of the room, and into what can be read.
  exact { sound with
    committed := by dsimp only; omega
    in_order := by omega
    prepared_order := prepared
    out_pos := fun _ => fits
    drained := fun done => absurd done (Nat.ne_of_lt inside)
    max_size := by dsimp only; omega
    in_size := by dsimp only; omega }

/-- A buffer that was committed to its end is left. -/
theorem Sound.leave (sound : self.Sound c o e) (inside : self.out_ < self.end_)
    (full : self.out_pos_ = width self.bs_ self.out_) (out_end : Nat)
    (ends : self.out_ + 1 = self.end_ → out_end = 0 ∧ e = o)
    (same : self.out_ + 1 < self.end_ → out_end = self.out_end_) :
    ({ self with
      out_ := self.out_ + 1
      out_pos_ := 0
      out_end_ := out_end } : BuffersAdapter).Sound c o e := by
  have endLe := sound.end_le
  have inLe := sound.begin_le
  have order := sound.in_order
  have consumed := sound.consumed
  have committed := sound.committed
  have next := @Chunks.off_succ _ self.bs_ self.out_ (by omega)
  exact { sound with
    begin_le := Nat.le_succ_of_le inLe
    out_le := inside
    committed := by dsimp only; omega
    in_pos := fun _ => by
      -- The octets that can be read may have started in the buffer that is left.
      rcases Nat.eq_or_lt_of_le inLe with here | front
      · dsimp only
        rw [here] at consumed ⊢
        omega
      · exact sound.in_pos front
    out_pos := fun _ => Nat.zero_le _
    prepared := fun lt => by
      dsimp only at lt ⊢
      rw [same lt]
      exact sound.prepared inside
    drained := fun done => ⟨rfl, ends done⟩ }

/-- Octets are committed, as many as are prepared. -/
theorem Sound.commitWalk {walk : List Octets} (sound : self.Sound c o e)
    (is : (self.bs_.drop self.out_).take (self.end_ - self.out_) = walk) :
    (BuffersAdapter.commitWalk walk n self).Sound c (min (o + n) e) e ∧
      (BuffersAdapter.commitWalk walk n self).bs_ = self.bs_ := by
  -- The induction is on the buffers of the walk, the last of which is committed in part.
  induction walk generalizing self o n with
  | nil =>
    have here := walk_nil is sound.out_le sound.end_le
    obtain ⟨-, -, rfl⟩ := sound.drained here
    rw [Nat.min_eq_right (Nat.le_add_right _ _)]
    exact ⟨sound, rfl⟩
  | cons buffer rest ih =>
    obtain ⟨inside, within, length, rest_⟩ := walk_head is
    have endLe := sound.end_le
    have order := sound.prepared_order
    have committed := sound.committed
    have outPos := sound.out_pos within
    have next := Chunks.off_succ within
    obtain ⟨ends, endPos⟩ := sound.prepared inside
    cases rest with
    | nil =>
      -- The last buffer holds what is prepared.
      have last := walk_nil rest_ (by omega) endLe
      rw [show self.end_ - 1 = self.out_ by omega] at ends endPos
      rw [BuffersAdapter.commitWalk, length]
      generalize takes : min n (self.out_end_ - self.out_pos_) = m
      have moved := sound.commitHere (n := m) inside (by omega) (by omega)
      rw [show min (o + n) e = o + m by omega]
      split
      · rename_i full
        have full : self.out_pos_ + m = width self.bs_ self.out_ := full
        exact ⟨moved.leave inside full 0 (fun _ => ⟨rfl, by omega⟩)
          fun more => absurd last (Nat.ne_of_lt more), rfl⟩
      · exact ⟨moved, rfl⟩
    | cons buffer' rest =>
      obtain ⟨further, -, -, -⟩ := walk_head rest_
      have reaches : off self.bs_ (self.out_ + 1) ≤ off self.bs_ (self.end_ - 1) :=
        Chunks.off_mono (by omega)
      rw [BuffersAdapter.commitWalk, length]
      · split
        · rw [Nat.min_eq_left (by omega)]
          exact ⟨sound.commitHere inside (by omega) (by omega), rfl⟩
        · -- The buffer is committed to its end, and the walk goes on at the next one.
          have whole := sound.commitHere (n := width self.bs_ self.out_ - self.out_pos_) inside
            (by omega) (by omega)
          have moved := whole.leave inside (by dsimp only; omega) self.out_end_
            (fun last => absurd last (Nat.ne_of_lt further)) fun _ => rfl
          obtain ⟨sound', same⟩ := ih (n := n - (width self.bs_ self.out_ - self.out_pos_)) moved rest_
          refine ⟨?_, same⟩
          rw [show o + n = o + (width self.bs_ self.out_ - self.out_pos_) +
            (n - (width self.bs_ self.out_ - self.out_pos_)) by omega]
          exact sound'
      · intro none
        cases none

/-- The walk of `prepare` ends where enough octets were found, or at the end. -/
theorem prepareWalk_spec {rest : List Octets} (is : self.bs_.drop self.end_ = rest)
    (within : self.end_ ≤ self.bs_.length)
    (start : 0 < n ∨ off self.bs_ (self.end_ - 1) + self.out_end_ = off self.bs_ self.end_ ∧
      self.out_end_ ≤ width self.bs_ (self.end_ - 1)) :
    ∃ e' x' m, prepareWalk rest n self = ({ self with end_ := e', out_end_ := x' }, m) ∧
      self.end_ ≤ e' ∧ e' ≤ self.bs_.length ∧
      (off self.bs_ self.end_ + n ≤ self.bs_.flatten.length →
        m = 0 ∧ off self.bs_ (e' - 1) + x' = off self.bs_ self.end_ + n ∧
        x' ≤ width self.bs_ (e' - 1)) ∧
      (self.bs_.flatten.length < off self.bs_ self.end_ + n →
        0 < m ∧ e' = self.bs_.length ∧
        (self.end_ < self.bs_.length → off self.bs_ (e' - 1) + x' = self.bs_.flatten.length ∧
          x' ≤ width self.bs_ (e' - 1)) ∧
        (self.end_ = self.bs_.length → x' = self.out_end_)) := by
  -- The induction is on the buffers that are left, each of which is taken as a whole but the last.
  induction rest generalizing self n with
  | nil =>
    have last := drop_nil is within
    have total : off self.bs_ self.end_ = self.bs_.flatten.length := by
      rw [last, Chunks.off_length]
    refine ⟨self.end_, self.out_end_, n, rfl, Nat.le_refl _, within, fun fits => ?_, fun _ => ?_⟩
    · rcases start with some_ | full
      · omega
      · exact ⟨by omega, by omega, full.2⟩
    · exact ⟨by omega, last, fun lt => absurd last (Nat.ne_of_lt lt), fun _ => rfl⟩
  | cons buffer rest ih =>
    obtain ⟨inside, length, rest_⟩ := drop_head is
    have next := Chunks.off_succ inside
    have total : off self.bs_ (self.end_ + 1) ≤ self.bs_.flatten.length := Chunks.off_le
    rw [prepareWalk, length]
    split
    · -- The octets end within the buffer.
      exact ⟨self.end_ + 1, n, 0, rfl, Nat.le_succ _, inside,
        fun _ => ⟨rfl, rfl, by rw [Nat.add_sub_cancel]; omega⟩, fun more => by omega⟩
    · let moved : BuffersAdapter :=
        { self with out_end_ := width self.bs_ self.end_, end_ := self.end_ + 1 }
      obtain ⟨e', x', m, is, le, within', found, missed⟩ := @ih moved
        (n - width self.bs_ self.end_) rest_ inside (.inr ⟨next.symm, Nat.le_refl _⟩)
      dsimp only [moved] at le within' found missed
      refine ⟨e', x', m, is, by omega, within', fun fits => ?_, fun more => ?_⟩
      · obtain ⟨none, ends, short⟩ := found (by omega)
        exact ⟨none, by omega, short⟩
      · obtain ⟨some_, last, ends, stays⟩ := missed (by omega)
        refine ⟨some_, last, fun _ => ?_, fun last => absurd last (Nat.ne_of_lt inside)⟩
        rcases Nat.lt_or_ge (self.end_ + 1) self.bs_.length with lt | ge
        · exact ends lt
        · -- This is the last buffer.
          have here : self.end_ + 1 = self.bs_.length := by omega
          rw [stays here, last, ← here, Nat.add_sub_cancel]
          refine ⟨?_, Nat.le_refl _⟩
          rw [← next, here, Chunks.off_length]

/-- Other octets are prepared behind those committed. -/
theorem Sound.aim (sound : self.Sound c o e) {e' x' aim : Nat} (inside : self.out_ < e')
    (within : e' ≤ self.bs_.length) (ends : off self.bs_ (e' - 1) + x' = aim)
    (short : x' ≤ width self.bs_ (e' - 1)) (order : o ≤ aim) :
    ({ self with end_ := e', out_end_ := x' } : BuffersAdapter).Sound c o aim :=
  { sound with
    out_le := Nat.le_of_lt inside
    end_le := within
    prepared_order := order
    prepared := fun _ => ⟨ends, short⟩
    drained := fun done => absurd done (Nat.ne_of_lt inside) }

/-- `prepare` where all octets were committed. -/
theorem prepare_end (walk : self.bs_.drop self.out_ = []) :
    self.prepare n = ({ self with end_ := self.out_ }, decide (n = 0)) := by
  simp only [BuffersAdapter.prepare, walk]

/-- `prepare` beyond the buffer of `out_`. -/
theorem prepare_beyond {buffer : Octets} {rest : List Octets}
    (walk : self.bs_.drop self.out_ = buffer :: rest) (more : n > buffer.length - self.out_pos_)
    {self' : BuffersAdapter} {m : Nat} (is : prepareWalk rest (n - (buffer.length - self.out_pos_))
      { self with end_ := self.out_ + 1 } = (self', m)) :
    self.prepare n = (self', decide (m = 0)) := by
  simp only [BuffersAdapter.prepare, walk, if_pos more, is]

/-- `prepare` within the buffer of `out_`. -/
theorem prepare_within {buffer : Octets} {rest : List Octets}
    (walk : self.bs_.drop self.out_ = buffer :: rest) (fits : ¬n > buffer.length - self.out_pos_) :
    self.prepare n =
      ({ self with end_ := self.out_ + 1, out_end_ := self.out_pos_ + n }, true) := by
  simp only [BuffersAdapter.prepare, walk, if_neg fits, decide_true]

/-- So many octets are prepared where there are as many, and otherwise all octets are, or the same
as before where the octets committed end in the last buffer. -/
theorem Sound.prepare (sound : self.Sound c o e) (n : Nat) :
    ∃ self' : BuffersAdapter, self'.bs_ = self.bs_ ∧
      (n ≤ self.max_size_ ∧ self.prepare n = (self', true) ∧ self'.Sound c o (o + n) ∨
        self.max_size_ < n ∧ self.prepare n = (self', false) ∧
          self'.Sound c o (if self.out_ + 1 < self.bs_.length then self.bs_.flatten.length else e)) := by
  have outLe := sound.out_le
  have endLe := sound.end_le
  have order := sound.prepared_order
  have committed := sound.committed
  have most := sound.max_size
  cases walk : self.bs_.drop self.out_ with
  | nil =>
    -- All octets were committed.
    have last := drop_nil walk (by omega)
    have here : self.end_ = self.out_ := by omega
    obtain ⟨outPos, -, rfl⟩ := sound.drained here.symm
    have total : off self.bs_ self.out_ = self.bs_.flatten.length := by
      rw [last, Chunks.off_length]
    have same : ({ self with end_ := self.out_ } : BuffersAdapter) = self :=
      congrArg (fun it => ({ self with end_ := it } : BuffersAdapter)) here.symm
    refine ⟨self, rfl, ?_⟩
    rw [prepare_end walk, same]
    rcases Nat.eq_zero_or_pos n with rfl | some_
    · exact .inl ⟨Nat.zero_le _, rfl, sound⟩
    · rw [if_neg (by omega), decide_eq_false (by omega)]
      exact .inr ⟨by omega, rfl, sound⟩
  | cons buffer rest =>
    obtain ⟨inside, length, rest_⟩ := drop_head walk
    have next := Chunks.off_succ inside
    have outPos := sound.out_pos inside
    have reaches : off self.bs_ (self.out_ + 1) ≤ self.bs_.flatten.length := Chunks.off_le
    by_cases beyond : n > buffer.length - self.out_pos_
    · -- The buffer has fewer octets, and the walk goes on behind it.
      let moved : BuffersAdapter := { self with end_ := self.out_ + 1 }
      obtain ⟨e', x', m, is, le, within, found, missed⟩ := @prepareWalk_spec moved
        (n - (buffer.length - self.out_pos_)) rest rest_ inside (.inl (by omega))
      rw [prepare_beyond walk beyond is]
      dsimp only [moved] at le within found missed
      refine ⟨{ self with end_ := e', out_end_ := x' }, rfl, ?_⟩
      rcases Nat.lt_or_ge self.max_size_ n with more | fits
      · obtain ⟨some_, last, ends, stays⟩ := missed (by omega)
        rw [decide_eq_false (by omega)]
        refine .inr ⟨more, rfl, ?_⟩
        split
        · rename_i further
          obtain ⟨ends, short⟩ := ends further
          exact sound.aim (by omega) within ends short (by omega)
        · -- Nothing has changed, besides `end_` where no buffer was prepared.
          have here : self.out_ + 1 = self.bs_.length := by omega
          rw [stays here, last, ← here]
          rcases Nat.eq_or_lt_of_le outLe with done | prepared
          · obtain ⟨outPos, outEnd, rfl⟩ := sound.drained done
            refine sound.aim (Nat.lt_succ_self _) inside ?_ ?_ (Nat.le_refl _)
            · rw [Nat.add_sub_cancel]
              omega
            · rw [outEnd]
              exact Nat.zero_le _
          · have same : self.out_ + 1 = self.end_ := by omega
            rw [same]
            exact sound
      · obtain ⟨none, ends, short⟩ := found (by omega)
        rw [decide_eq_true none]
        exact .inl ⟨fits, rfl, sound.aim (by omega) within (by omega) short (by omega)⟩
    · -- They do, so they were found.
      refine ⟨{ self with end_ := self.out_ + 1, out_end_ := self.out_pos_ + n }, rfl,
        .inl ⟨by omega, prepare_within walk beyond, ?_⟩⟩
      refine sound.aim (Nat.lt_succ_self _) inside ?_ ?_ (by omega)
      · rw [Nat.add_sub_cancel]
        omega
      · rw [Nat.add_sub_cancel]
        omega

end BuffersAdapter

end Beast
