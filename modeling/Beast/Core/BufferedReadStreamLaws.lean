import Beast.Core.BufferedReadStream

/-! A buffered stream delivers the octets of its next layer, at once or with an operation. -/

namespace Beast

variable {B : DynamicBuffer} {ε : Type}

namespace BufferedReadStream

/-! ## Buffers of the caller -/

/-- What is written to buffers starts with the octets, and goes on with what was there. -/
theorem flatten_scatter (bs : List Octets) (s : Octets) :
    (scatter bs s).flatten = s.take (buffer_size bs) ++ bs.flatten.drop s.length := by
  -- The induction is on the buffers, each of which takes the front of what is left.
  induction bs generalizing s with
  | nil => simp [scatter, buffer_size]
  | cons b bs ih =>
    have whole : buffer_size (b :: bs) = b.length + buffer_size bs := by
      rw [buffer_size, List.flatten_cons, List.length_append, buffer_size]
    rw [scatter, List.flatten_cons, ih, whole, List.flatten_cons, List.drop_append]
    rcases Nat.le_total s.length b.length with short | long
    · -- Nothing is left behind this buffer.
      have none_left : s.drop b.length = [] := List.drop_eq_nil_of_le short
      rw [none_left, List.take_of_length_le short, Nat.sub_eq_zero_of_le short,
        List.take_of_length_le (Nat.le_add_right_of_le short)]
      simp
    · rw [List.drop_eq_nil_of_le long, List.append_nil, List.nil_append, List.length_drop,
        List.take_add, List.append_assoc]

/-- The octets that fit are those in front. -/
theorem take_scatter {b : List Octets} {s : Octets} :
    (scatter b s).flatten.take (min s.length (buffer_size b)) = s.take (buffer_size b) := by
  rw [flatten_scatter]
  refine List.take_left' ?_
  rw [List.length_take, Nat.min_comm]

/-! ## Calls -/

/-- What is delivered from the buffer is its front. -/
theorem octets_deliver (self : BufferedReadStream B) (bs : List Octets) :
    (self.deliver bs).2.2.flatten.take (self.deliver bs).2.1 ++ (self.deliver bs).1.octets =
      self.octets := by
  change (scatter bs self.octets).flatten.take (min self.octets.length (buffer_size bs)) ++
    (B.data (B.consume self.sb_ (min self.octets.length (buffer_size bs)))).flatten = self.octets
  rw [take_scatter, B.consume_data]
  rcases Nat.le_total self.octets.length (buffer_size bs) with short | long
  · rw [Nat.min_eq_left short, List.take_of_length_le short]
    exact List.append_right_eq_self.mpr (List.drop_eq_nil_of_le (Nat.le_refl _))
  · rw [Nat.min_eq_right long]
    exact List.take_append_drop _ _

/-- What an operation does, from its start to its end. -/
theorem async_read_some_eq (next_layer_ : NextLayer ε) (self : BufferedReadStream B)
    (bs : List Octets) :
    self.async_read_some next_layer_ bs =
      if self.octets.length = 0 then
        if self.capacity_ = 0 then
          let (s, ec) := next_layer_.read_some (buffer_size bs)
          ⟨self, .reports ec s.length (scatter bs s), some s⟩
        else
          match B.prepare self.sb_ self.capacity_ with
          | none => ⟨self, .throws, none⟩
          | some sb =>
            let (s, ec) := next_layer_.read_some self.capacity_
            if ec.isSome then ⟨{ self with sb_ := sb }, .reports ec s.length bs, some s⟩
            else
              let (self, n, bs) := deliver { self with sb_ := B.commit sb s } bs
              ⟨self, .reports ec n bs, some s⟩
      else
        let (self, n, bs) := self.deliver bs
        ⟨self, .reports none n bs, none⟩ := by
  unfold async_read_some ReadSomeOp.call
  by_cases empty : self.octets.length = 0
  · by_cases unbuffered : self.capacity_ = 0
    · -- The operation is left once, and has nothing to do behind that.
      rcases answer : next_layer_.read_some (buffer_size bs) with ⟨s, ec⟩
      cases ec <;> simp [ReadSomeOp.resume, empty, unbuffered, answer, finish]
    · cases room : B.prepare self.sb_ self.capacity_ with
      | none => simp [ReadSomeOp.resume, empty, unbuffered, Nat.pos_of_ne_zero, room, finish]
      | some sb =>
        rcases answer : next_layer_.read_some self.capacity_ with ⟨s, ec⟩
        cases ec <;>
          simp [ReadSomeOp.resume, empty, unbuffered, Nat.pos_of_ne_zero, room, answer, finish]
  · simp [ReadSomeOp.resume, empty, finish]

/-- Nothing is lost or repeated by a call: what it delivers, and what is left. -/
def Read.Conserves (self : BufferedReadStream B) (r : Read B ε) : Prop :=
  r.ends.delivered ++ r.self.octets = self.octets ++ r.got.getD []

/-- Octets that the next layer writes to the buffers of the caller are delivered. -/
theorem conserves_unbuffered (self : BufferedReadStream B) (empty : self.octets.length = 0)
    (bs : List Octets) {s : Octets} (fits : s.length ≤ buffer_size bs) (ec : Option ε) :
    Read.Conserves self ⟨self, .reports ec s.length (scatter bs s), some s⟩ := by
  have delivered := take_scatter (b := bs) (s := s)
  rw [Nat.min_eq_left fits, List.take_of_length_le fits] at delivered
  change (scatter bs s).flatten.take s.length ++ self.octets = self.octets ++ s
  rw [delivered, List.eq_nil_of_length_eq_zero empty, List.append_nil, List.nil_append]

/-- Octets that the next layer writes to the room of the buffer are behind those in it. -/
theorem octets_commit {self : BufferedReadStream B} {n : Nat} {sb : B.State}
    (prepared : B.prepare self.sb_ n = some sb) {s : Octets} (fits : s.length ≤ n) :
    octets { self with sb_ := B.commit sb s } = self.octets ++ s :=
  B.commit_data self.sb_ n sb s prepared fits

/-- A call that reads at once loses nothing. -/
theorem conserves_read_some (next_layer_ : NextLayer ε) (self : BufferedReadStream B)
    (bs : List Octets) (ec : Option ε) : (self.read_some next_layer_ bs ec).Conserves self := by
  rw [read_some]
  by_cases empty : self.octets.length = 0
  · rw [if_pos empty]
    by_cases unbuffered : self.capacity_ = 0
    · rw [if_pos unbuffered]
      exact conserves_unbuffered self empty bs (next_layer_.fits _) _
    · rw [if_neg unbuffered]
      cases prepared : B.prepare self.sb_ self.capacity_ with
      | none => exact List.append_nil _ |>.symm
      | some sb =>
        have more := octets_commit prepared (next_layer_.fits self.capacity_)
        dsimp only
        split
        · -- The error is reported without octets, which stay in the buffer.
          exact more
        · exact (octets_deliver _ bs).trans more
  · rw [if_neg empty]
    exact (octets_deliver self bs).trans (List.append_nil _).symm

/-- Where no octets are read into the buffer together with an error, both forms of a call report the
same, deliver the same and leave the same in the buffer. -/
theorem async_read_some_agrees (next_layer_ : NextLayer ε) (self : BufferedReadStream B)
    (bs : List Octets) (ec : Option ε) (clear : self.octets.length ≠ 0 → ec = none)
    (apart : self.octets.length = 0 → self.capacity_ ≠ 0 →
      (next_layer_.read_some self.capacity_).2.isSome →
        (next_layer_.read_some self.capacity_).1 = []) :
    let r := self.read_some next_layer_ bs ec
    let a := self.async_read_some next_layer_ bs
    a.ends = r.ends ∧ a.got = r.got ∧ a.self.octets = r.self.octets ∧
      a.self.capacity_ = r.self.capacity_ := by
  intro r a
  obtain ⟨r', sync⟩ : ∃ r', r' = r := ⟨_, rfl⟩
  have unfolded : a = self.async_read_some next_layer_ bs := rfl
  rw [async_read_some_eq] at unfolded
  rw [← sync]
  change r' = self.read_some next_layer_ bs ec at sync
  rw [read_some] at sync
  by_cases empty : self.octets.length = 0
  · rw [if_pos empty] at unfolded sync
    by_cases unbuffered : self.capacity_ = 0
    · rw [if_pos unbuffered] at unfolded sync
      rw [unfolded, sync]
      exact ⟨rfl, rfl, rfl, rfl⟩
    · rw [if_neg unbuffered] at unfolded sync
      cases prepared : B.prepare self.sb_ self.capacity_ with
      | none =>
        rw [prepared] at unfolded sync
        rw [unfolded, sync]
        exact ⟨rfl, rfl, rfl, rfl⟩
      | some sb =>
        rw [prepared] at unfolded sync
        dsimp only at unfolded sync
        have more := octets_commit prepared (next_layer_.fits self.capacity_)
        split at sync
        · rename_i failed
          -- Nothing was read, so that nothing is reported or lost either way.
          have nothing := apart empty unbuffered failed
          rw [if_pos failed, nothing] at unfolded
          rw [nothing] at sync more
          rw [unfolded, sync]
          refine ⟨rfl, rfl, ?_, rfl⟩
          rw [more, List.append_nil]
          exact B.prepare_data _ _ _ prepared
        · rw [if_neg ‹_›] at unfolded
          rw [unfolded, sync]
          exact ⟨rfl, rfl, rfl, rfl⟩
  · rw [if_neg empty] at unfolded sync
    rw [clear empty] at sync
    rw [unfolded, sync]
    exact ⟨rfl, rfl, rfl, rfl⟩

end BufferedReadStream

/-! ## Sequences of calls -/

namespace ReadHistory

open BufferedReadStream (Read)

/-- What was delivered so far, and what is in the buffer, is what there was at first and what the next
layer gave. -/
def Transparent (initial : Octets) (w : ReadHistory B ε) : Prop :=
  w.delivered ++ w.srs.octets = initial ++ w.got

instance (initial : Octets) (w : ReadHistory B ε) : Decidable (w.Transparent initial) :=
  inferInstanceAs (Decidable (_ = _))

/-- Both forms of a call do the same. -/
def Agrees (w : ReadHistory B ε) (bs : List Octets) (ec : Option ε) : Prop :=
  (w.perform (.async_read_some bs)).delivered = (w.perform (.read_some bs ec)).delivered ∧
    (w.srs.async_read_some w.next_layer_ bs).ends = (w.srs.read_some w.next_layer_ bs ec).ends ∧
    (w.perform (.async_read_some bs)).srs.octets = (w.perform (.read_some bs ec)).srs.octets ∧
    (w.perform (.async_read_some bs)).got = (w.perform (.read_some bs ec)).got

/-- A call that conserves octets keeps all of them accounted for. -/
theorem Transparent.behind {initial : Octets} {w : ReadHistory B ε} (before : w.Transparent initial)
    {r : Read B ε} (conserves : r.Conserves w.srs) : (w.behind r).Transparent initial := by
  change (w.delivered ++ r.ends.delivered) ++ r.self.octets = initial ++ (w.got ++ r.got.getD [])
  calc (w.delivered ++ r.ends.delivered) ++ r.self.octets
    _ = w.delivered ++ (w.srs.octets ++ r.got.getD []) := by rw [List.append_assoc, conserves]
    _ = initial ++ (w.got ++ r.got.getD []) := by
      rw [← List.append_assoc, before, List.append_assoc]

/-- Both forms of a clean call do the same. -/
theorem agrees_of_clean {w : ReadHistory B ε} {bs : List Octets} {ec : Option ε}
    (clean : w.Clean (.read_some bs ec)) : w.Agrees bs ec := by
  obtain ⟨apart, clear⟩ := clean
  obtain ⟨ends, got, left, -⟩ := w.srs.async_read_some_agrees w.next_layer_ bs ec clear
    fun empty buffered failed => by
      by_contra some_
      exact apart ⟨empty, buffered, some_, failed⟩
  refine ⟨?_, ends, left, ?_⟩
  · change w.delivered ++ _ = w.delivered ++ _
    rw [ends]
  · change w.got ++ _ = w.got ++ _
    rw [got]

/-- A clean act keeps all octets accounted for. -/
theorem Transparent.perform {initial : Octets} {w : ReadHistory B ε}
    (before : w.Transparent initial) {act : ReadAct ε} (clean : w.Clean act) :
    (w.perform act).Transparent initial := by
  cases act with
  | read_some bs ec => exact before.behind (w.srs.conserves_read_some w.next_layer_ bs ec)
  | async_read_some bs =>
    -- The operation does what a call at once does, with an error code that is clear.
    have agrees := w.srs.async_read_some_agrees w.next_layer_ bs none (fun _ => rfl)
      fun empty buffered failed => by
        by_contra some_
        exact clean ⟨empty, buffered, some_, failed⟩
    obtain ⟨ends, got, left, -⟩ := agrees
    refine before.behind ?_
    rw [Read.Conserves, ends, got, left]
    exact w.srs.conserves_read_some w.next_layer_ bs none
  | capacity size => exact before

/-- In every sequence of clean acts all octets are accounted for, what was delivered is a front of
what there was, and both forms of a further clean call do the same. -/
theorem reads_transparent (srs : BufferedReadStream B) (layers : Nat → NextLayer ε)
    (acts : List (ReadAct ε)) (clean : AllClean ⟨srs, layers, 0, [], []⟩ acts) :
    let w := performAll ⟨srs, layers, 0, [], []⟩ acts
    w.Transparent srs.octets ∧ w.delivered <+: srs.octets ++ w.got ∧
      ∀ bs ec, w.Clean (.read_some bs ec) → w.Agrees bs ec := by
  have kept : ∀ (acts : List (ReadAct ε)) (w : ReadHistory B ε), w.Transparent srs.octets →
      w.AllClean acts → (w.performAll acts).Transparent srs.octets := by
    -- The induction is on the acts, and carries that all octets are accounted for.
    intro acts
    induction acts with
    | nil => exact fun w before _ => before
    | cons act acts ih => exact fun w before clean => ih _ (before.perform clean.1) clean.2
  have first : Transparent srs.octets (⟨srs, layers, 0, [], []⟩ : ReadHistory B ε) :=
    (List.append_nil _).symm
  have last := kept acts _ first clean
  exact ⟨last, ⟨_, last⟩, fun bs ec => agrees_of_clean⟩

/-- It is so where a few octets are read through the buffer and without it. -/
theorem reads_transparent_few :
    let srs : BufferedReadStream flatBuffer := ⟨{ data := [96], capacity := 16, max_ := 16 }, 4⟩
    let layers : Nat → NextLayer Unit := fun _ => ⟨fun n => ([97, 98, 99, 100, 101].take n, none),
      fun n => List.length_take_le n _⟩
    let w := performAll ⟨srs, layers, 0, [], []⟩
      [.read_some [[0, 0]] none, .async_read_some [[0], [0, 0]], .capacity 0, .read_some [[0, 0]] none]
    w.Transparent srs.octets ∧ w.delivered <+: srs.octets ++ w.got ∧
      ∀ bs ec, w.Clean (.read_some bs ec) → w.Agrees bs ec := by
  refine reads_transparent _ _ _ ⟨⟨?_, fun _ => rfl⟩, ?_, trivial, ⟨?_, fun _ => rfl⟩, trivial⟩
  all_goals exact fun mixed => absurd mixed.2.2.2 (by decide)

/-- Octets that an operation reads into the buffer together with an error are lost. -/
theorem mixed_not_transparent :
    let srs : BufferedReadStream flatBuffer := ⟨{ capacity := 16, max_ := 16 }, 4⟩
    let layers : Nat → NextLayer Unit := fun _ => ⟨fun n => ([97, 98].take n, some ()),
      fun n => List.length_take_le n _⟩
    ¬(performAll ⟨srs, layers, 0, [], []⟩ [.async_read_some [[0, 0]]]).Transparent srs.octets := by
  intro srs layers transparent
  exact absurd transparent (by decide)

end ReadHistory

end Beast
