import Beast.Core.MultiBufferLaws

/-! Each operation on the buffer of elements, as one on what it holds. -/

namespace Beast

namespace MultiBuffer

variable {b c d : MultiBuffer} {n : Nat}

/-- Members that are as they must be pass the check. -/
theorem run_check (valid : b.Valid) : Step.run check b = (.ok (), b) := by
  unfold check
  rw [Step.run_get_bind, valid.debug_check]
  rfl

/-- The last element is looked at where there is one. -/
theorem run_outIsBack (some_ : b.list_ ≠ []) :
    Step.run outIsBack b = (.ok (b.outs_.length == 1), b) := by
  unfold outIsBack
  rw [Step.run_get_bind, if_neg (by simpa using some_)]
  rfl

section Prepare

/-- What making room leaves alone: everything but the elements of the output and where it ends. -/
structure Grown (b c : MultiBuffer) : Prop where
  valid : c.Valid
  before : c.before_ = b.before_
  alloc_size : c.alloc_size_ = b.alloc_size_
  in_pos : c.in_pos_ = b.in_pos_
  in_size : c.in_size_ = b.in_size_
  out_pos : c.out_pos_ = b.out_pos_
  content : c.content = b.content

/-- Making no room leaves everything alone. -/
theorem Grown.refl (valid : b.Valid) : Grown b b := ⟨valid, rfl, rfl, rfl, rfl, rfl, rfl⟩

/-- Room may be made step by step. -/
theorem Grown.trans (first : Grown b c) (second : Grown c d) : Grown b d where
  valid := second.valid
  before := second.before.trans first.before
  alloc_size := second.alloc_size.trans first.alloc_size
  in_pos := second.in_pos.trans first.in_pos
  in_size := second.in_size.trans first.in_size
  out_pos := second.out_pos.trans first.out_pos
  content := second.content.trans first.content

/-- The output may end anywhere in the element of `out_`, behind its start. -/
theorem grown_cut (valid : b.Valid) {out : Element} {more : List Element}
    (outs : b.outs_ = out :: more) {k : Nat} (above : b.out_pos_ ≤ k) (within : k ≤ out.size) :
    Grown b { b with outs_ := [out], out_end_ := k } := by
  -- Only the elements behind that of `out_` are gone, and the end of the output is new.
  have first : ∀ e ∈ b.outs_.head?, b.out_pos_ < e.size := valid.out
  have taken := valid.taken outs
  have size := (valid.whole_outs out (by simp [outs])).length
  rw [outs] at first
  -- All others of the conditions are those that held before.
  refine ⟨⟨?_, ?_, ?_, nofun, ?_, valid.order, ?_, valid.sized⟩, rfl, rfl, rfl, rfl, rfl, ?_⟩
  · intro e there
    refine valid.whole e ?_
    rcases List.mem_append.mp there with there | there
    · exact List.mem_append_left _ there
    · rw [List.mem_singleton.mp there]
      exact List.mem_append_right _ (by simp [outs])
  · intro e there
    refine valid.front e ?_
    -- The first element of the list is the same.
    simp only [list_, outs] at there ⊢
    cases before : b.before_ with
    | nil =>
      rw [before] at there
      exact there
    | cons front before' =>
      rw [before] at there
      exact there
  · exact fun e there => first e there
  · intro e there
    cases there
    exact within
  · intro _ _
    exact above
  · unfold content
    rw [taken]
    simp only [joined_cons, joined_nil, List.append_nil]

/-- The output may go on in one more element, where it reached the end of the others. -/
theorem grown_push (valid : b.Valid) {e : Element} (whole : e.Whole)
    (full : b.limit = total b.outs_) {k : Nat} (within : k ≤ e.size) :
    Grown b { b with outs_ := b.outs_ ++ [e], out_end_ := k } ∧
      limit { b with outs_ := b.outs_ ++ [e], out_end_ := k } = b.limit + k := by
  have some_ := whole.some_
  have size := joined_length valid.whole_outs
  have bounds := valid.bounds
  -- The new element is the last one, and the first one where there was no other.
  refine ⟨⟨⟨?_, ?_, ?_, ?_, ?_, valid.order, ?_, valid.sized⟩, rfl, rfl, rfl, rfl, rfl, ?_⟩, ?_⟩
  · intro f there
    rcases List.mem_append.mp there with there | there
    · exact valid.whole f (List.mem_append_left _ there)
    · rcases List.mem_append.mp there with there | there
      · exact valid.whole f (List.mem_append_right _ there)
      · rwa [List.mem_singleton.mp there]
  · intro f there
    rcases held : b.list_ with _ | ⟨front, list⟩
    · -- The list was empty, and nothing was consumed of the new element.
      obtain ⟨before, outs⟩ := List.append_eq_nil_iff.mp held
      have order := valid.order before
      have pos := (valid.ended outs).1
      simp only [list_, before, outs, List.nil_append, List.head?_cons, Option.mem_def,
        Option.some.injEq] at there
      rw [← there]
      show b.in_pos_ < e.size
      omega
    · refine valid.front f ?_
      rw [list_] at held
      simp only [list_, ← List.append_assoc, held] at there ⊢
      exact there
  · intro f there
    cases outs : b.outs_ with
    | nil =>
      have pos := (valid.ended outs).1
      simp only [outs, List.nil_append, List.head?_cons, Option.mem_def, Option.some.injEq] at there
      rw [← there]
      show b.out_pos_ < e.size
      omega
    | cons out more =>
      refine valid.out f ?_
      rw [outs] at there ⊢
      exact there
  · intro none_
    simp at none_
  · intro f there
    simp only [List.getLast?_concat, Option.mem_def, Option.some.injEq] at there
    rw [← there]
    exact within
  · intro f single
    -- A single element of the output is the new one.
    have outs : b.outs_ = [] := by
      cases outs : b.outs_ with
      | nil => rfl
      | cons => simp [outs] at single
    show b.out_pos_ ≤ k
    rw [(valid.ended outs).1]
    exact Nat.zero_le k
  · unfold content
    dsimp only
    rw [joined_append, List.take_append_of_le_length (by omega)]
  · rw [full]
    unfold limit
    dsimp only
    rw [List.dropLast_concat]

/-- The elements behind that of `out_` are taken off the list. -/
theorem spliceReuse_spec (valid : b.Valid) {out : Element} {more : List Element}
    (outs : b.outs_ = out :: more) :
    ∃ c, Step.run (spliceReuse out) b = (.ok (), c) ∧ Grown b c ∧ c.outs_ = [out] := by
  unfold spliceReuse
  rw [Step.run_bind_ok (run_outIsBack (by simp [list_, outs]))]
  -- There may be nothing behind the element of `out_`.
  cases more with
  | nil => exact ⟨b, by simp [outs], .refl valid, outs⟩
  | cons next more =>
    have cut := grown_cut valid outs (Nat.le_of_lt (valid.out out (by simp [outs]))) (Nat.le_refl _)
    refine ⟨_, ?_, cut, rfl⟩
    rw [if_pos (by simp [outs]), Step.run_modify_bind]
    exact run_check cut.valid

/-- Room is made in the only element of the output, as far as it goes. -/
theorem prepareOut_spec (valid : b.Valid) {out : Element} (outs : b.outs_ = [out]) (n : Nat) :
    ∃ c, Step.run (prepareOut out n) b = (.ok (n - (out.size - b.out_pos_)), c) ∧ Grown b c ∧
      c.outs_ = [out] ∧ c.limit + (n - (out.size - b.out_pos_)) = b.out_pos_ + n ∧
      (0 < n - (out.size - b.out_pos_) → c.limit = out.size) := by
  have first := valid.out out (by simp [outs])
  -- With one element in the output, cutting it there changes nothing else.
  have single : ∀ k, { b with out_end_ := k } = { b with outs_ := [out], out_end_ := k } := by
    intro k
    rw [← outs]
  unfold prepareOut
  rw [Step.run_get_bind]
  dsimp only
  -- More may be asked for than the element has room for.
  split
  · rename_i more
    have cut := grown_cut valid outs (Nat.le_of_lt first) (Nat.le_refl _)
    refine ⟨_, ?_, cut, rfl, ?_, fun _ => ?_⟩
    · rw [Step.run_modify_bind, single, Step.run_bind_ok (run_check cut.valid), Step.run_pure]
    · simp only [limit, List.dropLast_singleton, total_nil]
      omega
    · simp [limit]
  · rename_i less
    have cut := grown_cut valid outs (Nat.le_add_right b.out_pos_ n) (by omega)
    refine ⟨_, ?_, cut, rfl, ?_, fun some_ => ?_⟩
    · rw [Step.run_modify_bind, single, Step.run_bind_ok (run_check cut.valid), Step.run_pure,
        show n - (out.size - b.out_pos_) = 0 by omega]
    · simp only [limit, List.dropLast_singleton, total_nil]
      omega
    · omega

/-- Room is made in the elements that were taken off the list, as far as they go. -/
theorem prepareReuse_spec {reuse : List Element} (valid : b.Valid) (whole : ∀ e ∈ reuse, e.Whole)
    (full : 0 < n → b.limit = total b.outs_) :
    ∃ c, Step.run (prepareReuse reuse n) b = (.ok (n - total reuse), c) ∧ Grown b c ∧
      c.limit + (n - total reuse) = b.limit + n ∧
      (0 < n - total reuse → c.limit = total c.outs_) := by
  -- The induction is on the elements at hand, each of which is taken while more is asked for.
  induction reuse generalizing b n with
  | nil => exact ⟨b, rfl, .refl valid, rfl, full⟩
  | cons e reuse ih =>
    rw [prepareReuse, total_cons]
    have here := whole e List.mem_cons_self
    by_cases some_ : n > 0
    · rw [if_pos some_, Step.run_modify_bind]
      by_cases more : n > e.size
      · -- The element is used up, and the next one is taken.
        obtain ⟨pushed, limit⟩ := grown_push valid here (full some_) (Nat.le_refl e.size)
        obtain ⟨c, ran, grown, ends, full'⟩ := @ih _ (n - e.size) pushed.valid
          (fun f there => whole f (List.mem_cons_of_mem _ there)) fun _ => by
            rw [limit, full some_]
            simp
        refine ⟨c, ?_, pushed.trans grown, by omega, fun left => full' (by omega)⟩
        rw [if_pos more, Step.run_modify_bind, Step.run_bind_ok (run_check pushed.valid), ran,
          Nat.sub_sub]
      · obtain ⟨pushed, limit⟩ := grown_push valid here (full some_) (show n ≤ e.size by omega)
        refine ⟨_, ?_, pushed, by omega, fun left => by omega⟩
        rw [if_neg more, Step.run_modify_bind, Step.run_bind_ok (run_check pushed.valid),
          Step.run_pure, show n - (e.size + total reuse) = 0 by omega]
    · rw [if_neg some_]
      exact ⟨b, by rw [Step.run_pure]; congr; omega, .refl valid, by omega, by omega⟩

/-- An element whose block is as large as it should be is whole. -/
theorem makeElement_whole {size : Nat} (some_ : 0 < size) (fits : sizeofElement + size < 2 ^ 64)
    (memory : Nat → UInt8) : (makeElement size memory).Whole := by
  refine ⟨?_, some_⟩
  unfold makeElement blockSize
  rw [Nat.mod_eq_of_lt fits]
  simp

/-- What is left is made room for in a new element, unless there is no memory for it. -/
theorem prepareNew_spec {allocate : Allocate} {fuel : Nat} (valid : b.Valid) (enough : n ≤ fuel)
    (full : 0 < n → b.limit = total b.outs_)
    (fits : 0 < n → sizeofElement + max b.alloc_size_ n < 2 ^ 64) :
    ∃ r c, Step.run (prepareNew allocate fuel n) b = (r, c) ∧ Grown b c ∧
      (r = .ok () ∧ c.limit = b.limit + n ∨ r = .error .bad_alloc) := by
  -- The loop makes one element that is large enough, so a second round finds nothing to do.
  by_cases some_ : n > 0
  · obtain ⟨fuel, rfl⟩ := Nat.exists_eq_add_one_of_ne_zero (show fuel ≠ 0 by omega)
    rw [prepareNew, if_pos some_, Step.run_get_bind]
    dsimp only
    cases allocate (blockSize (max b.alloc_size_ n)) with
    | none => exact ⟨_, b, rfl, .refl valid, .inr rfl⟩
    | some memory =>
      have most : n ≤ max b.alloc_size_ n := Nat.le_max_right _ _
      have whole := makeElement_whole (Nat.lt_of_lt_of_le some_ most) (fits some_) memory
      have size : (makeElement (max b.alloc_size_ n) memory).size = max b.alloc_size_ n := rfl
      obtain ⟨pushed, limit⟩ := grown_push valid whole (full some_) (show n ≤ _ from most)
      refine ⟨.ok (), _, ?_, pushed, .inl ⟨rfl, limit⟩⟩
      dsimp only
      rw [Step.run_modify_bind]
      split
      · -- The element is as large as what is left, and nothing is left then.
        rename_i all
        have same : (makeElement (max b.alloc_size_ n) memory).size = n := by omega
        rw [same, Step.run_modify_bind, Step.run_bind_ok (run_check pushed.valid), Nat.sub_self]
        cases fuel with
        | zero => rfl
        | succ fuel => rfl
      · rw [Step.run_modify_bind]
        exact run_check pushed.valid
  · refine ⟨.ok (), b, ?_, .refl valid, .inl ⟨rfl, by omega⟩⟩
    cases fuel with
    | zero => rfl
    | succ fuel =>
      rw [prepareNew, if_neg some_]
      rfl

/-- Whether there is room for so many octets, or a block of some size for what is left of them. -/
def Fits (self : MultiBuffer) (n : Nat) : Prop :=
  n ≤ self.capacity - self.size ∨
    sizeofElement + max self.alloc_size_ (n - (self.capacity - self.size)) < 2 ^ 64

/-- The room that the elements have. -/
theorem capacity_room (valid : b.Valid) : b.capacity - b.size = total b.outs_ - b.out_pos_ := by
  unfold capacity size
  rcases outs : b.outs_ with _ | ⟨out, more⟩
  · simp
  · have first := valid.out out (by simp [outs])
    simp only [total_cons]
    unfold total
    omega

/-- Room is made for as many octets as were asked for, unless there is no memory for it. -/
theorem prepare_spec {allocate : Allocate} (valid : b.Valid) (fits : b.Fits n) :
    ∃ r c, Step.run (prepare allocate n) b = (r, c) ∧ Grown b c ∧
      (r = .ok () ∧ c.room.length = n ∨ r = .error .bad_alloc) := by
  rw [Fits, capacity_room valid] at fits
  unfold prepare
  rw [Step.run_get_bind]
  -- An output without elements is made room for by a new one alone.
  rcases outs : b.outs_ with _ | ⟨out, reuse⟩
  · obtain ⟨pos, stop⟩ := valid.ended outs
    have start : b.limit = 0 := by simp [limit, outs, stop]
    rw [outs, total_nil, Nat.zero_sub, Nat.sub_zero] at fits
    obtain ⟨r, c, ran, grown, outcome⟩ := @prepareNew_spec b n allocate n valid (Nat.le_refl n)
      (fun _ => by simp [start, outs]) fun some_ => by omega
    refine ⟨r, c, ran, grown, outcome.imp_left fun ⟨done, ends⟩ => ⟨done, ?_⟩⟩
    rw [grown.valid.room_length, ends, grown.out_pos]
    omega
  · have first := valid.out out (by simp [outs])
    have whole : ∀ e ∈ reuse, e.Whole := fun e there => valid.whole_outs e (by simp [outs, there])
    rw [outs, total_cons] at fits
    -- First come the element of `out_`, the elements behind it, and a new one in the end.
    obtain ⟨c₁, ran₁, grown₁, outs₁⟩ := spliceReuse_spec valid outs
    obtain ⟨c₂, ran₂, grown₂, outs₂, ends₂, full₂⟩ := prepareOut_spec grown₁.valid outs₁ n
    rw [grown₁.out_pos] at ran₂ ends₂ full₂
    obtain ⟨c₃, ran₃, grown₃, ends₃, full₃⟩ := prepareReuse_spec grown₂.valid whole fun some_ => by
      rw [outs₂, full₂ some_]
      simp
    have upto := (grown₁.trans grown₂).trans grown₃
    obtain ⟨r, c, ran, grown, outcome⟩ := @prepareNew_spec c₃ _ allocate _ grown₃.valid
      (Nat.le_refl _) full₃ fun some_ => by
        rw [upto.alloc_size]
        omega
    refine ⟨r, c, ?_, upto.trans grown, outcome.imp_left fun ⟨done, ends⟩ => ⟨done, ?_⟩⟩
    · dsimp only
      rw [Step.run_bind_ok ran₁, Step.run_bind_ok ran₂, Step.run_bind_ok ran₃, ran]
    · rw [grown.valid.room_length, ends, (upto.trans grown).out_pos]
      omega

end Prepare

section Commit

/-- Whether some octets were moved from the output to the input, as far as the output went. -/
structure Committed (b c : MultiBuffer) (n : Nat) : Prop where
  valid : c.Valid
  alloc_size : c.alloc_size_ = b.alloc_size_
  content : c.content = b.content ++ b.room.take n
  room : c.room = b.room.drop n

/-- Octets that are moved behind others are moved together with them. -/
theorem Committed.trans {m : Nat} (first : Committed b c m) (second : Committed c d (n - m))
    (within : m ≤ n) : Committed b d n where
  valid := second.valid
  alloc_size := second.alloc_size.trans first.alloc_size
  content := by
    rw [second.content, first.content, first.room, List.append_assoc]
    congr 1
    -- The room is cut where the first part ended.
    conv_rhs => rw [← Nat.add_sub_cancel' within, List.take_add]
  room := by rw [second.room, first.room, List.drop_drop, Nat.add_sub_cancel' within]

/-- No more octets are moved than there are. -/
theorem Committed.clamp (moved : Committed b c (min n b.room.length)) : Committed b c n where
  valid := moved.valid
  alloc_size := moved.alloc_size
  content := by rw [moved.content, ← List.take_eq_take_min]
  room := by rw [moved.room, ← List.drop_eq_drop_min]

/-- The output may start further on in the element of `out_`. -/
theorem committed_within (valid : b.Valid) {out : Element} {more : List Element}
    (outs : b.outs_ = out :: more) (within : b.out_pos_ + n < out.size)
    (ends : b.out_pos_ + n ≤ b.limit) :
    Committed b { b with out_pos_ := b.out_pos_ + n, in_size_ := b.in_size_ + n } n := by
  have size := joined_length valid.whole_outs
  have size' := joined_length valid.whole_before
  have bounds := valid.bounds
  have sized := valid.sized
  have order := valid.order
  -- The end of the output has not moved.
  have limit : b.limit = MultiBuffer.limit { b with out_pos_ := b.out_pos_ + n, in_size_ := b.in_size_ + n } :=
    rfl
  refine ⟨⟨valid.whole, valid.front, ?_, ?_, valid.back, ?_, ?_, ?_⟩, rfl, ?_, ?_⟩
  · intro e there
    simp only [outs, List.head?_cons, Option.mem_def, Option.some.injEq] at there
    rw [← there]
    exact within
  · intro none_
    simp [outs] at none_
  · intro before
    have := order before
    show b.in_pos_ ≤ b.out_pos_ + n
    omega
  · intro e single
    have same : b.limit = b.out_end_ := by
      have only : b.outs_ = [e] := single
      simp [MultiBuffer.limit, only]
    show b.out_pos_ + n ≤ b.out_end_
    omega
  · show b.in_size_ + n + b.in_pos_ = total b.before_ + (b.out_pos_ + n)
    omega
  · -- The input goes on with what the output starts with.
    have piece : b.room.take n = ((joined b.outs_).drop b.out_pos_).take n := by
      rw [room, List.drop_take, List.take_take, Nat.min_eq_left (by omega)]
    have within : b.in_pos_ ≤ (joined b.before_ ++ (joined b.outs_).take b.out_pos_).length := by
      rw [List.length_append, List.length_take, size, size']
      omega
    unfold content
    dsimp only
    rw [piece, List.take_add, ← List.append_assoc, List.drop_append_of_le_length within]
  · unfold room
    rw [← limit]
    dsimp only
    rw [List.drop_drop]

/-- The output may start at the next element, with what is left of this one in the input. -/
theorem committed_out (valid : b.Valid) {out : Element} {more : List Element}
    (outs : b.outs_ = out :: more) (ends : out.size ≤ b.limit) {k : Nat}
    (stop : k = if more = [] then 0 else b.out_end_) :
    Committed b
      { b with
        before_ := b.before_ ++ [out]
        outs_ := more
        out_pos_ := 0
        out_end_ := k
        in_size_ := b.in_size_ + (out.size - b.out_pos_) } (out.size - b.out_pos_) := by
  have size := joined_length valid.whole_outs
  have size' := joined_length valid.whole_before
  have first := valid.out out (by simp [outs])
  have length := (valid.whole_outs out (by simp [outs])).length
  have bounds := valid.bounds
  have sized := valid.sized
  have same : (b.before_ ++ [out]) ++ more = b.list_ := by simp [list_, outs]
  -- What is left of the output lies behind the element.
  have rest : total more.dropLast + k = b.limit - out.size := by
    subst stop
    cases more with
    | nil =>
      rw [outs, total_cons, total_nil] at bounds
      rw [if_pos rfl, List.dropLast_nil, total_nil]
      omega
    | cons next more =>
      rw [if_neg (List.cons_ne_nil _ _), limit, outs, List.dropLast_cons_cons, total_cons]
      omega
  refine ⟨⟨?_, ?_, ?_, ?_, ?_, fun none_ => by simp at none_, ?_, ?_⟩, rfl, ?_, ?_⟩
  · intro e there
    exact valid.whole e (same ▸ there)
  · intro e there
    exact valid.front e (same ▸ there)
  · intro e there
    have whole := valid.whole_outs e (by
      rw [outs]
      exact List.mem_cons_of_mem _ (List.mem_of_mem_head? there))
    exact whole.some_
  · intro none_
    have none_ : more = [] := none_
    exact ⟨rfl, by rw [stop, if_pos none_]⟩
  · intro e there
    have some_ : more ≠ [] := by
      rintro rfl
      cases there
    rw [stop, if_neg some_]
    refine valid.back e ?_
    rw [outs, List.getLast?_cons]
    have there : more.getLast? = some e := there
    rw [there]
    rfl
  · exact fun _ _ => Nat.zero_le _
  · show b.in_size_ + (out.size - b.out_pos_) + b.in_pos_ = total (b.before_ ++ [out]) + 0
    rw [total_append, total_cons, total_nil]
    omega
  · -- The rest of the element is what the output starts with.
    have piece : b.room.take (out.size - b.out_pos_) = out.data.drop b.out_pos_ := by
      rw [room, List.drop_take, List.take_take, Nat.min_eq_left (by omega), outs, joined_cons,
        List.drop_append_of_le_length (by omega), List.take_left']
      rw [List.length_drop, length]
    have taken := valid.taken outs
    have within : b.in_pos_ ≤ (joined b.before_ ++ (joined b.outs_).take b.out_pos_).length := by
      rw [List.length_append, List.length_take, size, size']
      omega
    unfold content
    dsimp only
    rw [piece, ← List.drop_append_of_le_length within, taken, List.append_assoc,
      List.take_append_drop]
    simp
  · unfold room
    have last : MultiBuffer.limit { b with
        before_ := b.before_ ++ [out], outs_ := more, out_pos_ := 0, out_end_ := k,
        in_size_ := b.in_size_ + (out.size - b.out_pos_) } = b.limit - out.size := rest
    rw [last]
    dsimp only
    rw [List.drop_drop, List.drop_zero, show b.out_pos_ + (out.size - b.out_pos_) = out.size by omega,
      List.drop_take, outs, joined_cons, List.drop_left' length]

/-- As many octets are moved as there are in the output, and no more than were asked for. -/
theorem commitLoop_spec {l : List Element} (valid : b.Valid) (outs : b.outs_ = l) (n : Nat) :
    ∃ c, Step.run (commitLoop l n) b = (.ok (), c) ∧ Committed b c n := by
  have size := valid.room_length
  -- The induction is on the elements of the output, of which the last is treated apart.
  induction l generalizing b n with
  | nil =>
    obtain ⟨pos, stop⟩ := valid.ended outs
    have none_ : b.room = [] := by
      simp [room, outs]
    exact ⟨b, rfl, valid, rfl, by simp [none_], by simp [none_]⟩
  | cons out more ih =>
    have first := valid.out out (by simp [outs])
    have bounds := valid.bounds
    cases more with
    | nil =>
      have stop : b.limit = b.out_end_ := by simp [limit, outs]
      rw [outs, total_cons, total_nil] at bounds
      -- No more is moved than there is in the output.
      obtain ⟨m, clamped⟩ : ∃ m, min n (b.out_end_ - b.out_pos_) = m := ⟨_, rfl⟩
      suffices moves : ∃ c, Step.run (commitLoop [out] n) b = (.ok (), c) ∧ Committed b c m by
        obtain ⟨c, ran, moved⟩ := moves
        refine ⟨c, ran, Committed.clamp ?_⟩
        rwa [size, stop, clamped]
      rw [commitLoop, Step.run_get_bind, Step.run_get_bind, clamped, Step.run_modify_bind,
        Step.run_get_bind]
      dsimp only
      split
      · rename_i all
        have moved := committed_out valid outs (by omega) (show 0 = if [] = [] then 0 else _ from rfl)
        rw [show out.size - b.out_pos_ = m by omega] at moved
        exact ⟨_, by rw [Step.run_modify_bind]; exact run_check moved.valid, moved⟩
      · have moved := committed_within valid outs (show b.out_pos_ + m < out.size by omega) (by omega)
        exact ⟨_, run_check moved.valid, moved⟩
    | cons next more =>
      have longer : out.size ≤ b.limit := by
        rw [limit, outs, List.dropLast_cons_cons, total_cons]
        omega
      rw [commitLoop, Step.run_get_bind]
      dsimp only
      split
      · rename_i less
        have moved := committed_within valid outs (show b.out_pos_ + n < out.size by omega) (by omega)
        exact ⟨_, by rw [Step.run_modify_bind]; exact run_check moved.valid, moved⟩
      · rename_i all
        have moved := committed_out valid outs longer (k := b.out_end_)
          (by rw [if_neg (List.cons_ne_nil _ _)])
        obtain ⟨c, ran, behind⟩ := ih moved.valid rfl (n - (out.size - b.out_pos_))
          moved.valid.room_length
        refine ⟨c, ?_, moved.trans behind (by omega)⟩
        rw [Step.run_modify_bind, Step.run_bind_ok (run_check moved.valid), ran]

/-- Octets are moved from the output to the input. -/
theorem commit_spec (valid : b.Valid) (n : Nat) :
    ∃ c, Step.run (commit n) b = (.ok (), c) ∧ Committed b c n := by
  unfold commit
  rw [Step.run_get_bind]
  -- Without an output there is nothing to move.
  by_cases outs : b.outs_ = []
  · have none_ : b.room = [] := by simp [room, outs]
    refine ⟨b, ?_, valid, rfl, by simp [none_], by simp [none_]⟩
    split
    · rfl
    · rw [if_pos (by simp [outs])]
      rfl
  · have some_ : b.list_ ≠ [] := by simp [list_, outs]
    rw [if_neg (by simpa using some_), if_neg (by simpa using outs),
      Step.run_bind_ok (run_outIsBack some_)]
    exact commitLoop_spec valid rfl n

end Commit

section Consume

/-- Whether some octets were removed from the input, as far as it went. -/
structure Consumed (b c : MultiBuffer) (n : Nat) : Prop where
  valid : c.Valid
  alloc_size : c.alloc_size_ = b.alloc_size_
  content : c.content = b.content.drop n
  room : c.room = b.room

/-- Octets that are removed behind others are removed together with them. -/
theorem Consumed.trans {m : Nat} (first : Consumed b c m) (second : Consumed c d (n - m))
    (within : m ≤ n) : Consumed b d n where
  valid := second.valid
  alloc_size := second.alloc_size.trans first.alloc_size
  content := by rw [second.content, first.content, List.drop_drop, Nat.add_sub_cancel' within]
  room := second.room.trans first.room

/-- The input may start further on in the first element. -/
theorem consumed_within (valid : b.Valid) (within : n ≤ b.in_size_)
    (front : ∀ e ∈ b.list_.head?, b.in_pos_ + n < e.size)
    (order : b.before_ = [] → b.in_pos_ + n ≤ b.out_pos_) :
    Consumed b { b with in_size_ := b.in_size_ - n, in_pos_ := b.in_pos_ + n } n := by
  have sized := valid.sized
  -- Only the start of the input has moved.
  refine ⟨⟨valid.whole, front, valid.out, valid.ended, valid.back, order, valid.last, ?_⟩, rfl, ?_,
    rfl⟩
  · show b.in_size_ - n + (b.in_pos_ + n) = total b.before_ + b.out_pos_
    omega
  · unfold content
    rw [List.drop_drop]

/-- The first element may be taken off the list, with what was left of it. -/
theorem consumed_out (valid : b.Valid) {e : Element} {before : List Element}
    (same : b.before_ = e :: before) :
    Consumed b
      { b with in_size_ := b.in_size_ - (e.size - b.in_pos_), in_pos_ := 0, before_ := before }
      (e.size - b.in_pos_) := by
  have front := valid.front e (by simp [list_, same])
  have length := (valid.whole_before e (by simp [same])).length
  have sized := valid.sized
  rw [same, total_cons] at sized
  -- The elements that are left were whole before.
  have whole : ∀ f ∈ before ++ b.outs_, f.Whole := fun f there =>
    valid.whole f (by rw [list_, same]; exact List.mem_cons_of_mem _ there)
  refine ⟨⟨whole, fun f there => (whole f (List.mem_of_mem_head? there)).some_, valid.out, valid.ended,
    valid.back, fun _ => Nat.zero_le _, valid.last, ?_⟩, rfl, ?_, rfl⟩
  · show b.in_size_ - (e.size - b.in_pos_) + 0 = total before + b.out_pos_
    omega
  · unfold content
    dsimp only
    rw [List.drop_zero, List.drop_drop, same, joined_cons, List.append_assoc,
      List.drop_left' (show e.data.length = _ by omega)]

/-- Nothing is left of an input that is removed as a whole. -/
theorem dropped_all (valid : b.Valid) (all : b.in_size_ ≤ n) : b.content.drop n = [] :=
  List.drop_eq_nil_of_le (by rw [valid.content_length]; exact all)

/-- The input may start where the output does. -/
theorem consumed_all (valid : b.Valid) (before : b.before_ = []) (all : b.in_size_ ≤ n) :
    Consumed b { b with in_size_ := 0, in_pos_ := b.out_pos_ } n := by
  refine ⟨⟨valid.whole, fun e there => valid.out e ?_, valid.out, valid.ended, valid.back,
    fun _ => Nat.le_refl _, valid.last, ?_⟩, rfl, ?_, rfl⟩
  · rwa [list_, before, List.nil_append] at there
  · show 0 + b.out_pos_ = total b.before_ + b.out_pos_
    rw [before, total_nil]
  · rw [dropped_all valid all]
    unfold content
    dsimp only
    rw [before, joined_nil, List.nil_append]
    exact List.drop_eq_nil_of_le (List.length_take_le _ _)

/-- An element that holds no input, with no output in it, may be used from its start. -/
theorem consumed_reset (valid : b.Valid) (before : b.before_ = []) (all : b.in_size_ ≤ n)
    {out : Element} (outs : b.outs_ = [out]) (empty : b.out_pos_ = b.out_end_) :
    Consumed b { b with in_size_ := 0, in_pos_ := 0, out_pos_ := 0, out_end_ := 0 } n := by
  have some_ := (valid.whole_outs out (by simp [outs])).some_
  have stop : b.limit = b.out_end_ := by simp [limit, outs]
  -- An element has room for an octet at least.
  have head : ∀ e ∈ b.outs_.head?, 0 < e.size := fun e there =>
    (valid.whole_outs e (List.mem_of_mem_head? there)).some_
  refine ⟨⟨valid.whole, fun e there => head e ?_, head, fun _ => ⟨rfl, rfl⟩,
    fun _ _ => Nat.zero_le _, fun _ => Nat.le_refl _, fun _ _ => Nat.le_refl _, ?_⟩, rfl, ?_, ?_⟩
  · rwa [list_, before, List.nil_append] at there
  · show 0 + 0 = total b.before_ + 0
    rw [before, total_nil]
  · rw [dropped_all valid all]
    unfold content
    simp [before]
  · have none_ : b.room = [] := by
      rw [← List.length_eq_zero_iff, valid.room_length, stop, empty, Nat.sub_self]
    rw [none_]
    simp [room, limit, outs]

/-- Octets are removed from the front of the input, unless the list runs empty. -/
theorem consumeLoop_spec {l : List Element} (valid : b.Valid) (before : b.before_ = l) (n : Nat)
    (stays : b.outs_ = [] → n < b.in_size_) :
    ∃ c, Step.run (consumeLoop l n) b = (.ok (), c) ∧ Consumed b c n := by
  have sized := valid.sized
  -- The induction is on the elements in front of that of `out_`.
  induction l generalizing b n with
  | cons e before' ih =>
    have front := valid.front e (by simp [list_, before])
    rw [before, total_cons] at sized
    rw [consumeLoop, Step.run_get_bind]
    dsimp only
    split
    · have moved := consumed_within valid (show n ≤ b.in_size_ by omega) (fun f there => by
        simp only [list_, before, List.cons_append, List.head?_cons, Option.mem_def,
          Option.some.injEq] at there
        rw [← there]
        omega) (fun none_ => by simp [before] at none_)
      exact ⟨_, by rw [Step.run_modify_bind]; exact run_check moved.valid, moved⟩
    · have moved := consumed_out valid before
      obtain ⟨c, ran, behind⟩ := ih moved.valid rfl (n - (e.size - b.in_pos_))
        (fun outs => by
          have := stays outs
          show n - (e.size - b.in_pos_) < b.in_size_ - (e.size - b.in_pos_)
          omega) moved.valid.sized
      refine ⟨c, ?_, moved.trans behind (by omega)⟩
      rw [Step.run_modify_bind, Step.run_bind_ok (run_check moved.valid), ran]
  | nil =>
    rw [before, total_nil] at sized
    have order := valid.order before
    -- The list did not run empty.
    obtain ⟨out, more, outs⟩ : ∃ out more, b.outs_ = out :: more := by
      rcases outs : b.outs_ with _ | ⟨out, more⟩
      · have := stays outs
        have := valid.ended outs
        omega
      · exact ⟨out, more, rfl⟩
    have some_ : b.list_ ≠ [] := by simp [list_, outs]
    have first := valid.out out (by simp [outs])
    rw [consumeLoop, Step.run_get_bind]
    dsimp only
    split
    · have moved := consumed_within valid (show n ≤ b.in_size_ by omega) (fun f there => by
        simp only [list_, before, outs, List.nil_append, List.head?_cons, Option.mem_def,
          Option.some.injEq] at there
        rw [← there]
        omega) (fun _ => by omega)
      exact ⟨_, by rw [Step.run_modify_bind]; exact run_check moved.valid, moved⟩
    · have all : b.in_size_ ≤ n := by omega
      -- Behind the last element in front, the one of `out_` is the first and may be the last.
      have looked := @run_outIsBack { b with in_size_ := 0 } some_
      rw [Step.run_modify_bind, Step.run_bind_ok looked]
      split
      · have moved := consumed_all valid before all
        exact ⟨_, by rw [Step.run_modify_bind]; exact run_check moved.valid, moved⟩
      · rename_i same
        simp only [Bool.or_eq_true, Bool.not_eq_true', beq_eq_false_iff_ne, bne_iff_ne, not_or,
          not_not] at same
        obtain ⟨single, empty⟩ := same
        have outs' : b.outs_ = [out] := by
          rw [outs] at single ⊢
          rw [List.length_cons, Nat.add_eq_right, List.length_eq_zero_iff] at single
          rw [single]
        have moved := consumed_reset valid before all outs' empty
        exact ⟨_, by rw [Step.run_modify_bind]; exact run_check moved.valid, moved⟩

/-- Whether the list runs empty where so many octets are consumed. -/
def Empties (self : MultiBuffer) (n : Nat) : Prop :=
  self.list_ ≠ [] ∧ self.outs_ = [] ∧ self.size ≤ n

/-- Octets are removed from the front of the input, unless the list runs empty. -/
theorem consume_spec (valid : b.Valid) (stays : ¬b.Empties n) :
    ∃ c, Step.run (consume n) b = (.ok (), c) ∧ Consumed b c n := by
  unfold consume
  rw [Step.run_get_bind]
  -- A buffer without elements holds nothing to remove.
  by_cases none_ : b.list_ = []
  · obtain ⟨before, outs⟩ := List.append_eq_nil_iff.mp none_
    have empty : b.content = [] := by simp [content, before, outs]
    rw [if_pos (by simpa using none_)]
    exact ⟨b, rfl, valid, rfl, by rw [empty, List.drop_nil], rfl⟩
  · rw [if_neg (by simpa using none_)]
    refine consumeLoop_spec valid rfl n fun outs => ?_
    by_contra all
    exact stays ⟨none_, outs, Nat.le_of_not_lt all⟩

/-- Where the list runs empty, its last element is looked at all the same. -/
theorem consume_empties (valid : b.Valid) (empties : b.Empties n) :
    ∃ c, Step.run (consume n) b = (.error .emptyList, c) := by
  -- Each element in front is removed as a whole, and then there is none.
  have loop : ∀ (l : List Element) (b : MultiBuffer) (n : Nat), b.Valid → b.before_ = l →
      b.outs_ = [] → b.in_size_ ≤ n →
      ∃ c, Step.run (consumeLoop l n) b = (.error .emptyList, c) := by
    intro l
    induction l with
    | nil =>
      intro b n valid before outs all
      obtain ⟨pos, _⟩ := valid.ended outs
      have order := valid.order before
      rw [consumeLoop, Step.run_get_bind]
      dsimp only
      -- The list is empty, and its last element is asked for.
      have looked : Step.run outIsBack { b with in_size_ := 0 } =
          (.error .emptyList, { b with in_size_ := 0 }) := by
        unfold outIsBack
        rw [Step.run_get_bind, if_pos (by simp [list_, before, outs])]
        rfl
      rw [if_neg (by omega), Step.run_modify_bind]
      exact ⟨_, Step.run_bind_error looked⟩
    | cons e before' ih =>
      intro b n valid before outs all
      have sized := valid.sized
      have moved := consumed_out valid before
      obtain ⟨pos, _⟩ := valid.ended outs
      rw [before, total_cons] at sized
      rw [consumeLoop, Step.run_get_bind]
      dsimp only
      rw [if_neg (by omega), Step.run_modify_bind, Step.run_bind_ok (run_check moved.valid)]
      refine ih _ _ moved.valid rfl outs ?_
      show b.in_size_ - (e.size - b.in_pos_) ≤ n - (e.size - b.in_pos_)
      omega
  obtain ⟨some_, outs, all⟩ := empties
  unfold consume
  rw [Step.run_get_bind, if_neg (by simpa using some_)]
  exact loop _ b n valid rfl outs all

end Consume

section Fill

/-- Octets with others put over them, from some position on. -/
def overwrite (t : Octets) (pos : Nat) (s : Octets) : Octets :=
  t.take pos ++ s ++ t.drop (pos + s.length)

/-- What is put within the front of a text leaves what follows it. -/
theorem overwrite_append {t u s : Octets} {pos : Nat} (within : pos + s.length ≤ t.length) :
    overwrite (t ++ u) pos s = overwrite t pos s ++ u := by
  unfold overwrite
  rw [List.take_append_of_le_length (by omega), List.drop_append_of_le_length within,
    List.append_assoc, List.append_assoc, List.append_assoc]

/-- What is put over the end of a text goes on at the start of what follows it. -/
theorem overwrite_over {t u s r : Octets} {pos : Nat} (within : pos + s.length = t.length) :
    overwrite (t ++ u) pos (s ++ r) = overwrite t pos s ++ overwrite u 0 r := by
  unfold overwrite
  rw [List.take_append_of_le_length (by omega), List.length_append, ← Nat.add_assoc, within,
    List.drop_length_add_append, List.drop_length, List.take_zero, Nat.zero_add, List.append_nil,
    List.nil_append, List.append_assoc, List.append_assoc, List.append_assoc]

/-- An element stays whole where octets are put within it. -/
theorem write_whole {e : Element} (whole : e.Whole) {pos : Nat} {s : Octets}
    (within : pos + s.length ≤ e.size) : (e.write pos s).Whole := by
  have length := whole.length
  refine ⟨?_, whole.some_⟩
  unfold Element.write
  simp only [List.length_append, List.length_take, List.length_drop]
  omega

/-- The elements that are filled have the sizes that they had. -/
theorem fillElements_sizes (stop : Nat) (l : List Element) (pos : Nat) (s : Octets) :
    (fillElements stop l pos s).map Element.size = l.map Element.size := by
  -- The induction is on the elements, which keep their sizes one by one.
  induction l generalizing pos s with
  | nil => rfl
  | cons e l ih =>
    cases l with
    | nil => rfl
    | cons next l =>
      rw [fillElements, List.map_cons, ih]
      rfl

/-- Elements that are filled hold what they held with the octets put over it. -/
theorem fillElements_spec {stop : Nat} {l : List Element} {pos : Nat} {s : Octets}
    (whole : ∀ e ∈ l, e.Whole) (some_ : l ≠ []) (first : ∀ e ∈ l.head?, pos ≤ e.size)
    (last : ∀ e ∈ l.getLast?, stop ≤ e.size) (single : ∀ e, l = [e] → pos ≤ stop) :
    joined (fillElements stop l pos s) =
        overwrite (joined l) pos (s.take (total l.dropLast + stop - pos)) ∧
      ∀ e ∈ fillElements stop l pos s, e.Whole := by
  -- The induction is on the elements: what does not fit in one goes on at the start of the next.
  induction l generalizing pos s with
  | nil => exact absurd rfl some_
  | cons e l ih =>
    have here := whole e List.mem_cons_self
    have length := here.length
    have start := first e rfl
    cases l with
    | nil =>
      have ends := last e rfl
      have above := single e rfl
      have room : pos + (s.take (stop - pos)).length ≤ e.size := by
        rw [List.length_take]
        omega
      refine ⟨?_, ?_⟩
      · simp [fillElements, overwrite, Element.write]
      · intro f there
        rw [fillElements, List.mem_singleton] at there
        rw [there]
        exact write_whole here room
    | cons next l =>
      obtain ⟨text, wholes⟩ := @ih 0 (s.drop (e.size - pos))
        (fun f there => whole f (List.mem_cons_of_mem _ there)) (List.cons_ne_nil _ _)
        (fun _ _ => Nat.zero_le _) (fun f there => last f (by
          rw [List.getLast?_cons_cons]
          exact there)) (fun _ _ => Nat.zero_le _)
      have room : pos + (s.take (e.size - pos)).length ≤ e.size := by
        rw [List.length_take]
        omega
      constructor
      · rw [fillElements, joined_cons, text, List.dropLast_cons_cons, total_cons,
          joined_cons e (next :: l)]
        have write : (e.write pos (s.take (e.size - pos))).data =
            overwrite e.data pos (s.take (e.size - pos)) := rfl
        rw [write, Nat.sub_zero]
        by_cases fits : s.length ≤ e.size - pos
        · -- All octets lie in this element.
          rw [List.take_of_length_le fits, List.drop_eq_nil_of_le fits, List.take_nil,
            List.take_of_length_le (by omega), overwrite_append (show pos + s.length ≤ _ by omega)]
          simp [overwrite]
        · have size : pos + (s.take (e.size - pos)).length = e.data.length := by
            rw [List.length_take]
            omega
          rw [← overwrite_over size, ← List.take_add]
          congr 2
          omega
      · intro f there
        rw [fillElements, List.mem_cons] at there
        rcases there with rfl | there
        · exact write_whole here room
        · exact wholes f there

/-- The first elements of lists with the same sizes have the same size. -/
theorem head_size {l k : List Element} (same : l.map Element.size = k.map Element.size) :
    ∀ e ∈ l.head?, ∃ f ∈ k.head?, f.size = e.size := by
  intro e there
  have heads := congrArg List.head? same
  rw [List.head?_map, List.head?_map, Option.mem_def.mp there, Option.map_some] at heads
  obtain ⟨f, there', size⟩ := Option.map_eq_some_iff.mp heads.symm
  exact ⟨f, there', size⟩

/-- The last elements of lists with the same sizes have the same size. -/
theorem last_size {l k : List Element} (same : l.map Element.size = k.map Element.size) :
    ∀ e ∈ l.getLast?, ∃ f ∈ k.getLast?, f.size = e.size := by
  intro e there
  have lasts := congrArg List.getLast? same
  rw [List.getLast?_map, List.getLast?_map, Option.mem_def.mp there, Option.map_some] at lasts
  obtain ⟨f, there', size⟩ := Option.map_eq_some_iff.mp lasts.symm
  exact ⟨f, there', size⟩

/-- What must hold of the members does not depend on what the elements hold. -/
theorem valid_resized (valid : b.Valid) {outs : List Element}
    (same : outs.map Element.size = b.outs_.map Element.size) (whole : ∀ e ∈ outs, e.Whole) :
    Valid { b with outs_ := outs } ∧ limit { b with outs_ := outs } = b.limit := by
  -- Elements with the same sizes are as many.
  have sizes := congrArg List.length same
  rw [List.length_map, List.length_map] at sizes
  have list : (b.before_ ++ outs).map Element.size = b.list_.map Element.size := by
    rw [list_, List.map_append, List.map_append, same]
  refine ⟨⟨?_, ?_, ?_, ?_, ?_, valid.order, ?_, valid.sized⟩, ?_⟩
  · intro e there
    rcases List.mem_append.mp there with there | there
    · exact valid.whole_before e there
    · exact whole e there
  · intro e there
    obtain ⟨f, head, size⟩ := head_size list e there
    exact size ▸ valid.front f head
  · intro e there
    obtain ⟨f, head, size⟩ := head_size same e there
    exact size ▸ valid.out f head
  · intro none_
    have none_ : outs = [] := none_
    refine valid.ended (List.eq_nil_of_length_eq_zero ?_)
    rw [← sizes, none_, List.length_nil]
  · intro e there
    obtain ⟨f, last, size⟩ := last_size same e there
    exact size ▸ valid.back f last
  · intro e single
    have single : outs = [e] := single
    rw [single, List.length_singleton] at sizes
    obtain ⟨f, only⟩ := List.length_eq_one_iff.mp sizes.symm
    exact valid.last f only
  · unfold limit total
    dsimp only
    rw [List.map_dropLast, same, ← List.map_dropLast]

/-- Whether octets were put into the output, as far as it went. -/
structure Filled (b c : MultiBuffer) (s : Octets) : Prop where
  valid : c.Valid
  alloc_size : c.alloc_size_ = b.alloc_size_
  content : c.content = b.content
  room : c.room = s.take b.room.length ++ b.room.drop s.length

/-- Octets are put into the output, and nothing else is changed. -/
theorem fill_spec (valid : b.Valid) (s : Octets) :
    ∃ c, Step.run (fill s) b = (.ok (min s.length b.room.length), c) ∧ Filled b c s := by
  have bounds := valid.bounds
  have size := joined_length valid.whole_outs
  have length := valid.room_length
  have sizes := fillElements_sizes b.out_end_ b.outs_ b.out_pos_ s
  -- The text of the elements has the octets put over it.
  obtain ⟨text, wholes⟩ : joined (fillElements b.out_end_ b.outs_ b.out_pos_ s) =
        overwrite (joined b.outs_) b.out_pos_ (s.take (b.limit - b.out_pos_)) ∧
      ∀ e ∈ fillElements b.out_end_ b.outs_ b.out_pos_ s, e.Whole := by
    by_cases none_ : b.outs_ = []
    · obtain ⟨pos, stop⟩ := valid.ended none_
      simp [none_, fillElements, overwrite, limit, pos, stop]
    · exact fillElements_spec valid.whole_outs none_ (fun e there => Nat.le_of_lt (valid.out e there))
        valid.back valid.last
  obtain ⟨valid', limit'⟩ := valid_resized valid sizes wholes
  have count : (s.take (b.limit - b.out_pos_)).length ≤ b.limit - b.out_pos_ := List.length_take_le _ _
  have start : ((joined b.outs_).take b.out_pos_).length = b.out_pos_ := by
    rw [List.length_take]
    omega
  refine ⟨{ b with outs_ := fillElements b.out_end_ b.outs_ b.out_pos_ s }, ?_, valid', rfl, ?_, ?_⟩
  · unfold fill
    rw [Step.run_modify_bind, Step.run_get_bind, Step.run_pure, valid'.output_room.2, limit', length]
  · unfold content
    dsimp only
    rw [text, overwrite, List.append_assoc, List.take_left' start]
  · -- What was put in lies in front, and what was there before goes on behind it.
    have front : (s.take (b.limit - b.out_pos_)).take (b.limit - b.out_pos_) =
        s.take b.room.length := by
      rw [List.take_take, Nat.min_self, length]
    have back : ((joined b.outs_).drop (b.out_pos_ + (s.take (b.limit - b.out_pos_)).length)).take
        (b.limit - b.out_pos_ - (s.take (b.limit - b.out_pos_)).length) = b.room.drop s.length := by
      rw [room, List.drop_drop, List.drop_take, List.length_take]
      by_cases fits : s.length ≤ b.limit - b.out_pos_
      · rw [Nat.min_eq_right fits, Nat.sub_sub]
      · -- The output was filled to its end, and nothing is left of it.
        rw [show b.limit - b.out_pos_ - min (b.limit - b.out_pos_) s.length = 0 by omega,
          show b.limit - (b.out_pos_ + s.length) = 0 by omega, List.take_zero, List.take_zero]
    rw [← front, ← back]
    unfold room
    rw [limit']
    dsimp only
    rw [text, List.drop_take, overwrite, List.append_assoc, List.drop_left' start, List.take_append]

end Fill

/-- The members of a buffer without elements are as they must be. -/
theorem valid_clear (b : MultiBuffer) : b.clear.Valid :=
  ⟨nofun, nofun, nofun, fun _ => ⟨rfl, rfl⟩, nofun, fun _ => Nat.le_refl _, nofun, rfl⟩

/-- A buffer without elements has room for what a block has room for. -/
theorem fits_clear : b.clear.Fits n ↔ n = 0 ∨ sizeofElement + max b.alloc_size_ n < 2 ^ 64 := by
  unfold Fits capacity size clear
  simp

/-- The input of another buffer is appended to none, unless there is no memory for it. -/
theorem copyFrom_spec {allocate : Allocate} {other : MultiBuffer} (valid : b.Valid)
    (empty : b.content = []) (whole : other.Valid) (fits : b.Fits other.size) :
    ∃ r c, Step.run (copyFrom allocate other) b = (r, c) ∧ c.Valid ∧ c.alloc_size_ = b.alloc_size_ ∧
      (r = .ok () ∧ c.content = other.content ∧ c.room = [] ∨
        r = .error .bad_alloc ∧ c.content = []) := by
  obtain ⟨octets, _⟩ := whole.data_content
  have size : other.content.length = other.size := whole.content_length
  obtain ⟨r, c₁, ran₁, grown, outcome⟩ := @prepare_spec b _ allocate valid fits
  unfold copyFrom
  -- Without memory, nothing was committed.
  rcases outcome with ⟨rfl, room⟩ | rfl
  · obtain ⟨c₂, ran₂, filled⟩ := fill_spec grown.valid other.content
    rw [room, size, Nat.min_self] at ran₂
    obtain ⟨c₃, ran₃, committed⟩ := commit_spec filled.valid other.size
    -- The room that was asked for is filled to its end.
    have all : c₂.room = other.content := by
      rw [filled.room, room, ← size, List.take_length, List.drop_eq_nil_of_le (by omega),
        List.append_nil]
    refine ⟨.ok (), c₃, ?_, committed.valid, ?_, .inl ⟨rfl, ?_, ?_⟩⟩
    · rw [Step.run_bind_ok ran₁, octets, Step.run_bind_ok ran₂, ran₃]
    · rw [committed.alloc_size, filled.alloc_size, grown.alloc_size]
    · rw [committed.content, filled.content, grown.content, empty, all, List.nil_append, ← size,
        List.take_length]
    · rw [committed.room, all, List.drop_eq_nil_of_le (by omega)]
  · exact ⟨_, c₁, Step.run_bind_error ran₁, grown.valid, grown.alloc_size,
      .inr ⟨rfl, by rw [grown.content, empty]⟩⟩

end MultiBuffer

end Beast
