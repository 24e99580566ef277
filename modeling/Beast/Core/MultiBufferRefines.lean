import Beast.Core.MultiBufferPool
import Beast.Core.MultiBufferSteps

/-! The buffers of elements, as queues of octets. -/

namespace Beast

open Function (update)

namespace MultiBuffer

/-- The queue that a buffer stands for, read from the buffers that it gives out. -/
def queue (self : MultiBuffer) : ByteQueue := ⟨bufferOctets self.data, bufferOctets self.output⟩

/-- What a buffer is known by, besides its octets. -/
structure Sound (b : MultiBuffer) : Prop where
  checked : b.debug_check = true
  /-- What is given out are parts of the blocks of elements. -/
  within : ∀ x ∈ b.data ++ b.output, x.pos + x.size ≤ x.data.length ∧
    ∃ e, b.list_[x.element]? = some e ∧ e.data = x.data
  /-- The output lies in other elements than the input, or behind it. -/
  apart : ∀ x ∈ b.data, ∀ y ∈ b.output,
    x.element < y.element ∨ x.element = y.element ∧ x.pos + x.size ≤ y.pos

/-- The queue of a buffer, by what it holds. -/
theorem queue_eq {b : MultiBuffer} (valid : b.Valid) : b.queue = ⟨b.content, b.room⟩ := by
  rw [queue, valid.data_content.1, valid.output_room.1]

/-- A buffer that is moved on ends where it ended, unless it was shorter than that. -/
theorem advance_end (x : Buffer) (n : Nat) :
    (x.advance n).pos + (x.advance n).size = x.pos + x.size := by
  unfold Buffer.advance
  dsimp only
  omega

/-- The element of `out_` comes behind those in front of it. -/
theorem list_outs {b : MultiBuffer} {i : Nat} (behind : b.before_.length ≤ i) :
    b.list_[i]? = b.outs_[i - b.before_.length]? := by
  rw [list_, List.getElem?_append_right behind]

/-- The members say which parts of which elements are given out. -/
theorem Valid.sound {b : MultiBuffer} (valid : b.Valid) : b.Sound := by
  -- A part that is given out comes from an element, at its place in the list.
  have inputs : ∀ x ∈ b.data, ∃ e i, b.list_[i]? = some e ∧ x = b.inputOf i e ∧
      i ≤ b.before_.length := by
    intro x there
    obtain ⟨⟨e, i⟩, inside, rfl⟩ := List.mem_map.mp there
    have front : b.before_ ++ b.outs_.take 1 = b.list_.take (b.before_.length + 1) := by
      rw [list_, List.take_length_add_append]
    rw [front, List.mk_mem_zipIdx_iff_getElem?, List.getElem?_take] at inside
    split at inside
    · exact ⟨e, i, inside, rfl, by omega⟩
    · cases inside
  have outputs : ∀ y ∈ b.output, ∃ e i, b.list_[i]? = some e ∧ y = b.outputOf i e ∧
      b.before_.length ≤ i := by
    intro y there
    obtain ⟨⟨e, i⟩, inside, rfl⟩ := List.mem_map.mp there
    rw [List.mk_mem_zipIdx_iff_le_and_getElem?_sub] at inside
    exact ⟨e, i, by rw [list_outs inside.1]; exact inside.2, rfl, inside.1⟩
  -- At the place of `out_` the output starts, and at the last place it ends.
  have starts : ∀ e, b.list_[b.before_.length]? = some e → e ∈ b.outs_.head? := by
    intro e there
    rw [list_outs (Nat.le_refl _), Nat.sub_self] at there
    rwa [List.head?_eq_getElem?]
  have ends : ∀ e i, b.list_[i]? = some e → b.before_.length ≤ i → i + 1 = b.list_.length →
      e ∈ b.outs_.getLast? := by
    intro e i there behind last
    rw [list_outs behind] at there
    rw [list_, List.length_append] at last
    rw [List.getLast?_eq_getElem?, show b.outs_.length - 1 = i - b.before_.length by omega]
    exact there
  have length : ∀ (e : Element) (i : Nat), b.list_[i]? = some e → e.data.length = e.size := fun e i there =>
    (valid.whole e (List.mem_of_getElem? there)).length
  -- How far the input and the output reach within an element.
  have input_end : ∀ e i, b.list_[i]? = some e → (b.inputOf i e).pos + (b.inputOf i e).size =
      if b.outs_.isEmpty || i != b.before_.length then e.size else b.out_pos_ := by
    intro e i _
    unfold inputOf
    rw [advance_end, Nat.zero_add]
  have output_end : ∀ e i, (b.outputOf i e).pos + (b.outputOf i e).size =
      if i + 1 = b.list_.length then b.out_end_ else e.size := by
    intro e i
    unfold outputOf
    rw [advance_end, Nat.zero_add]
  refine ⟨valid.debug_check, fun x there => ?_, fun x inX y inY => ?_⟩
  · -- Both kinds of parts end where their element does, or before.
    rcases List.mem_append.mp there with there | there
    · obtain ⟨e, i, place, rfl, within⟩ := inputs x there
      refine ⟨?_, e, place, rfl⟩
      rw [input_end e i place]
      show _ ≤ e.data.length
      rw [length e i place]
      split
      · exact Nat.le_refl _
      · rename_i here
        simp only [Bool.or_eq_true, not_or, bne_iff_ne, ne_eq, not_not] at here
        exact Nat.le_of_lt (valid.out e (starts e (here.2 ▸ place)))
    · obtain ⟨e, i, place, rfl, behind⟩ := outputs x there
      refine ⟨?_, e, place, rfl⟩
      rw [output_end]
      show _ ≤ e.data.length
      rw [length e i place]
      split
      · rename_i last
        exact valid.back e (ends e i place behind last)
      · exact Nat.le_refl _
  · obtain ⟨e, i, place, rfl, within⟩ := inputs x inX
    obtain ⟨f, j, place', rfl, behind⟩ := outputs y inY
    rcases Nat.lt_or_ge i j with lower | upper
    · exact .inl lower
    · -- Both lie in the element of `out_`.
      obtain rfl : i = j := by omega
      obtain rfl : i = b.before_.length := by omega
      obtain rfl : e = f := Option.some.inj (place.symm.trans place')
      have head := starts e place
      have first := valid.out e head
      refine .inr ⟨rfl, ?_⟩
      have some_ : b.outs_.isEmpty = false := by
        cases outs : b.outs_ with
        | nil => simp [outs] at head
        | cons => rfl
      rw [input_end e _ place, if_neg (by simp [some_])]
      unfold outputOf Buffer.advance
      dsimp only
      rw [if_pos rfl, Nat.zero_add]
      refine Nat.le_min.mpr ⟨Nat.le_refl _, ?_⟩
      split
      · rename_i last
        refine valid.last e ?_
        rw [list_, List.length_append] at last
        obtain ⟨g, single⟩ := List.length_eq_one_iff.mp (show b.outs_.length = 1 by omega)
        rw [single] at head ⊢
        cases head
        rfl
      · exact Nat.le_of_lt first

end MultiBuffer

section Operations

variable {A : Type} {w : World A}

/-- The queues that buffers stand for. -/
def queues (w : World A) : Queues := fun i => (w i).buffer.queue

/-- Where a buffer is changed, a queue is. -/
theorem queues_update (w : World A) (i : Nat) (h : Held A) :
    queues (update w i h) = update (queues w) i h.buffer.queue := by
  funext k
  unfold queues
  -- The queue is changed here, and nowhere else.
  by_cases same : k = i
  · subst same
    rw [Function.update_self, Function.update_self]
  · rw [Function.update_of_ne same, Function.update_of_ne same]

/-- Whether every buffer has members that are as they must be. -/
def AllValid (w : World A) : Prop := ∀ i, (w i).buffer.Valid

/-- Where a valid buffer takes the place of another one, all are valid. -/
theorem allValid_update {i : Nat} {h : Held A} (valid : AllValid w) (new : h.buffer.Valid) :
    AllValid (update w i h) := by
  intro k
  by_cases same : k = i
  · subst same
    rwa [Function.update_self]
  · rw [Function.update_of_ne same]
    exact valid k

/-- What happens to one buffer happens to it among the others. -/
theorem run_onBuffer {α : Type} {i : Nat} {m : MultiStep α} {r : Except MultiHalt α}
    {c : MultiBuffer} (ran : Step.run m (w i).buffer = (r, c)) :
    Step.run (onBuffer i m) w = (r, update w i { w i with buffer := c }) := by
  rw [onBuffer, Step.run_zoom, ran]

/-- Whether an operation is over without an end. -/
def threw : Except MultiHalt Unit → Bool
  | .ok _ => false
  | .error _ => true

/-- Whether an operation looks at no element of an empty list, and overflows no block size. -/
def Careful (traits : AllocTraits A) (w : World A) : BufferOp A → Prop
  | .prepare i n _ => (w i).buffer.Fits n
  | .consume i n => ¬(w i).buffer.Empties n
  | .copyConstruct i j _ _ => i ≠ j → (w j).buffer.clear.Fits (w j).buffer.size
  | .copyAssign i j _ => i ≠ j → (w i).buffer.clear.Fits (w j).buffer.size
  | .moveConstruct i j alloc _ =>
    i ≠ j → (∃ a, alloc = some a ∧ a ≠ (w j).member) → (w j).buffer.clear.Fits (w j).buffer.size
  | .moveAssign i j _ =>
    i ≠ j → traits.propagate_on_container_move_assignment = false →
      (w i).member ≠ (w j).member → (w j).buffer.clear.Fits (w j).buffer.size
  | _ => True

/-- What an operation comes to: valid buffers, queues that it may lead to, and no fault. -/
structure Refined (op : BufferOp A) (w : World A) (r : Except MultiHalt Unit) (w' : World A) :
    Prop where
  valid : AllValid w'
  allowed : Allowed op (threw r) (queues w) (queues w')
  found : r ≠ .error .emptyList
  asserted : r ≠ .error .assertion

/-- What is done to one buffer is done to its queue. -/
theorem refined_onBuffer (valid : AllValid w) {op : BufferOp A} {i : Nat} {m : MultiStep Unit}
    {r : Except MultiHalt Unit} {c : MultiBuffer} (ran : Step.run m (w i).buffer = (r, c))
    (valid' : c.Valid) (found : r ≠ .error .emptyList) (asserted : r ≠ .error .assertion)
    (allowed : Allowed op (threw r) (queues w) (update (queues w) i ⟨c.content, c.room⟩)) :
    Refined op w (Step.run (onBuffer i m) w).1 (Step.run (onBuffer i m) w).2 := by
  rw [run_onBuffer ran]
  refine ⟨allValid_update valid valid', ?_, found, asserted⟩
  rw [queues_update]
  show Allowed op (threw r) (queues w) (update (queues w) i c.queue)
  rw [MultiBuffer.queue_eq valid']
  exact allowed

/-- The queue of a buffer is what it holds. -/
theorem queues_valid (valid : AllValid w) (i : Nat) :
    queues w i = ⟨(w i).buffer.content, (w i).buffer.room⟩ :=
  MultiBuffer.queue_eq (valid i)

/-- A buffer that is built from another one holds the same, unless there is no memory for it. -/
theorem build_spec {allocate : MultiBuffer.Allocate} {other : MultiBuffer} (valid : other.Valid)
    (fits : other.clear.Fits other.size) :
    (∃ b, build (MultiBuffer.copyFrom allocate other) other.clear = .ok b ∧ b.Valid ∧
      b.content = other.content ∧ b.room = []) ∨
      build (MultiBuffer.copyFrom allocate other) other.clear = .error .bad_alloc := by
  obtain ⟨r, c, ran, valid', _, outcome⟩ := @MultiBuffer.copyFrom_spec other.clear allocate other
    (MultiBuffer.valid_clear other) rfl valid fits
  unfold build
  rw [ran]
  rcases outcome with ⟨rfl, content, room⟩ | ⟨rfl, _⟩
  · exact .inl ⟨c, rfl, valid', content, room⟩
  · exact .inr rfl

/-- The queue of a buffer without elements. -/
theorem queue_clear (b : MultiBuffer) : b.clear.queue = ⟨[], []⟩ := by
  rw [MultiBuffer.queue_eq (MultiBuffer.valid_clear b)]
  rfl

/-- A list that is taken over is the queue of another buffer then. -/
theorem run_takeOver (valid : AllValid w) (i j : Nat) :
    ∃ w', Step.run (takeOver i j) w = (.ok (), w') ∧ AllValid w' ∧
      queues w' = update (update (queues w) j ⟨[], []⟩) i (queues w j) := by
  -- The list goes over as it is, and the other buffer is cleared.
  refine ⟨_, rfl, ?_, ?_⟩
  · refine allValid_update (allValid_update valid (MultiBuffer.valid_clear _)) ?_
    -- The least size of allocations is not among what must hold.
    obtain ⟨whole, front, out, ended, back, order, last, sized⟩ := valid j
    exact ⟨whole, front, out, ended, back, order, last, sized⟩
  · rw [queues_update, queues_update]
    dsimp only
    rw [queue_clear]
    rfl

/-- Where octets are copied to a buffer that was cleared, it is the queue of the other one then. -/
theorem run_copyFrom (valid : AllValid w) (i j : Nat) (member : A) {b : MultiBuffer}
    {allocate : MultiBuffer.Allocate} (fits : b.clear.Fits (w j).buffer.size) :
    ∃ r w', Step.run (onBuffer i (MultiBuffer.copyFrom allocate (w j).buffer))
        (update w i ⟨member, b.clear⟩) = (r, w') ∧ AllValid w' ∧
      (r = .ok () ∧ queues w' = update (queues w) i ⟨(queues w j).data, []⟩ ∨
        r = .error .bad_alloc ∧ ∃ room, queues w' = update (queues w) i ⟨[], room⟩) := by
  have here : (update w i ⟨member, b.clear⟩ i).buffer = b.clear := by rw [Function.update_self]
  obtain ⟨r, c, ran, valid', _, outcome⟩ := @MultiBuffer.copyFrom_spec b.clear allocate
    (w j).buffer (MultiBuffer.valid_clear b) rfl (valid j) fits
  rw [← here] at ran
  refine ⟨r, _, run_onBuffer ran, allValid_update (allValid_update valid (MultiBuffer.valid_clear b))
    valid', ?_⟩
  rw [queues_update, queues_update, Function.update_idem, queues_valid valid j]
  dsimp only
  rw [MultiBuffer.queue_eq valid']
  -- Without memory for the copy, the buffer holds nothing.
  rcases outcome with ⟨rfl, content, room⟩ | ⟨rfl, content⟩
  · exact .inl ⟨rfl, by rw [content, room]⟩
  · exact .inr ⟨rfl, c.room, by rw [content]⟩

/-- Where a buffer was cleared, it takes over the list of another one as before. -/
theorem run_takeOver_clear (valid : AllValid w) {i j : Nat} (other : j ≠ i) (member : A)
    (b : MultiBuffer) :
    ∃ w', Step.run (takeOver i j) (update w i ⟨member, b.clear⟩) = (.ok (), w') ∧ AllValid w' ∧
      queues w' = update (update (queues w) j ⟨[], []⟩) i (queues w j) := by
  obtain ⟨w', ran, valid', moved⟩ := run_takeOver
    (allValid_update (h := ⟨member, b.clear⟩) (i := i) valid (MultiBuffer.valid_clear b)) i j
  refine ⟨w', ran, valid', ?_⟩
  -- The two buffers are different ones, so that the order of the changes is free.
  rw [moved, queues_update, Function.update_of_ne other, Function.update_comm other,
    Function.update_idem]
  exact Function.update_comm other.symm _ _ _

variable [DecidableEq A] {traits : AllocTraits A}

/-- Whether an operation does what its queues may do. -/
def Refines (traits : AllocTraits A) (w : World A) (op : BufferOp A) : Prop :=
  Refined op w (Step.run (perform traits op) w).1 (Step.run (perform traits op) w).2

/-- A new buffer is an empty queue, and is not made without a least size of allocations. -/
theorem refines_construct (valid : AllValid w) (i alloc_size : Nat) (alloc : A) :
    Refines traits w (.construct i alloc_size alloc) := by
  rw [Refines, perform]
  -- A buffer without a least size is not made.
  by_cases none_ : alloc_size = 0
  · rw [if_pos none_]
    exact ⟨valid, rfl, nofun, nofun⟩
  · rw [if_neg none_, Step.run_modify]
    refine ⟨allValid_update valid (MultiBuffer.valid_clear { alloc_size_ := alloc_size }), ?_, nofun,
      nofun⟩
    rw [queues_update]
    dsimp only
    rw [show ({ alloc_size_ := alloc_size } : MultiBuffer).queue = ⟨[], []⟩ from
      queue_clear { alloc_size_ := alloc_size }]
    rfl

/-- The least size of allocations is none of a queue's matters. -/
theorem refines_alloc_size (valid : AllValid w) (i n : Nat) :
    Refines traits w (.alloc_size i n) := by
  obtain ⟨whole, front, out, ended, back, order, last, sized⟩ := valid i
  -- The least size of allocations shows in no queue.
  rw [Refines, perform]
  refine refined_onBuffer valid (Step.run_modify _ _)
    ⟨whole, front, out, ended, back, order, last, sized⟩ nofun nofun ?_
  show update (queues w) i ⟨(w i).buffer.content, (w i).buffer.room⟩ = queues w
  rw [← queues_valid valid, Function.update_eq_self]

/-- Making room makes room in the queue. -/
theorem refines_prepare (valid : AllValid w) {i n : Nat} (allocate : MultiBuffer.Allocate)
    (fits : (w i).buffer.Fits n) : Refines traits w (.prepare i n allocate) := by
  obtain ⟨r, c, ran, grown, outcome⟩ := @MultiBuffer.prepare_spec _ n allocate (valid i) fits
  have data : (queues w i).data = c.content := by rw [queues_valid valid, grown.content]
  rw [Refines, perform]
  -- The room is new, and the input is as it was, with memory or without.
  rcases outcome with ⟨rfl, room⟩ | rfl
  · exact refined_onBuffer valid ran grown.valid nofun nofun ⟨c.room, room, by rw [data]⟩
  · exact refined_onBuffer valid ran grown.valid nofun nofun ⟨c.room, by rw [data]⟩

/-- Octets that are put into the room of a buffer are in the room of its queue. -/
theorem refines_fill (valid : AllValid w) (i : Nat) (s : Octets) :
    Refines traits w (.fill i s) := by
  obtain ⟨c, ran, filled⟩ := MultiBuffer.fill_spec (valid i) s
  rw [Refines, perform, Step.run_bind_ok (run_onBuffer ran), Step.run_pure]
  refine ⟨allValid_update valid filled.valid, ?_, nofun, nofun⟩
  show queues (update w i { w i with buffer := c }) = _
  rw [queues_update, queues_valid valid]
  dsimp only
  rw [MultiBuffer.queue_eq filled.valid, filled.content, filled.room]

/-- Octets are moved from the room of a queue to its end. -/
theorem refines_commit (valid : AllValid w) (i n : Nat) : Refines traits w (.commit i n) := by
  obtain ⟨c, ran, committed⟩ := MultiBuffer.commit_spec (valid i) n
  rw [Refines, perform]
  refine refined_onBuffer valid ran committed.valid nofun nofun ?_
  show update (queues w) i _ = update (queues w) i _
  rw [queues_valid valid, committed.content, committed.room]

/-- Octets are removed from the front of a queue. -/
theorem refines_consume (valid : AllValid w) {i n : Nat} (stays : ¬(w i).buffer.Empties n) :
    Refines traits w (.consume i n) := by
  obtain ⟨c, ran, consumed⟩ := MultiBuffer.consume_spec (valid i) stays
  rw [Refines, perform]
  refine refined_onBuffer valid ran consumed.valid nofun nofun ?_
  show update (queues w) i _ = update (queues w) i _
  rw [queues_valid valid, consumed.content, consumed.room]

/-- A buffer that is built as a copy is a queue of the same octets. -/
theorem refines_copyConstruct (valid : AllValid w) {i j : Nat} (alloc : Option A)
    (allocate : MultiBuffer.Allocate)
    (fits : i ≠ j → (w j).buffer.clear.Fits (w j).buffer.size) :
    Refines traits w (.copyConstruct i j alloc allocate) := by
  rw [Refines, perform, Step.run_get_bind]
  dsimp only
  -- A buffer is not built from itself.
  by_cases same : i = j
  · rw [if_pos same]
    exact ⟨valid, by simp [threw, Allowed, same], nofun, nofun⟩
  rw [if_neg same]
  by_cases none_ : (w j).buffer.alloc_size_ = 0
  · rw [if_pos none_]
    exact ⟨valid, rfl, nofun, nofun⟩
  rw [if_neg none_]
  rcases build_spec (valid j) (fits same) with ⟨b, built, new, content, room⟩ | failed
  · rw [built, Step.run_lift_ok_bind, Step.run_modify]
    refine ⟨allValid_update valid new, ?_, nofun, nofun⟩
    rw [queues_update]
    simp only [threw, Allowed, if_neg same, queues_valid valid j, MultiBuffer.queue_eq new, content,
      room]
  · rw [failed, Step.run_lift_error_bind]
    exact ⟨valid, rfl, nofun, nofun⟩

/-- A buffer that a copy is assigned to is a queue of the same octets, or empty where that throws. -/
theorem refines_copyAssign (valid : AllValid w) {i j : Nat} (allocate : MultiBuffer.Allocate)
    (fits : i ≠ j → (w i).buffer.clear.Fits (w j).buffer.size) :
    Refines traits w (.copyAssign i j allocate) := by
  rw [Refines, perform, Step.run_get_bind]
  dsimp only
  -- A buffer that is assigned to itself stays as it is.
  by_cases same : i = j
  · rw [if_pos same]
    exact ⟨valid, by simp [threw, Allowed, same], nofun, nofun⟩
  rw [if_neg same, Step.run_modify_bind]
  obtain ⟨r, w', ran, valid', outcome⟩ := @run_copyFrom A w valid i j
    (if traits.propagate_on_container_copy_assignment then (w j).member else (w i).member)
    (w i).buffer allocate (fits same)
  rw [ran]
  rcases outcome with ⟨rfl, done⟩ | ⟨rfl, room, thrown⟩
  · refine ⟨valid', ?_, nofun, nofun⟩
    simp only [threw, Allowed, if_neg same, done]
  · exact ⟨valid', ⟨room, thrown⟩, nofun, nofun⟩

/-- A buffer that is built by a move is the queue of the other one. -/
theorem refines_moveConstruct (valid : AllValid w) {i j : Nat} (alloc : Option A)
    (allocate : MultiBuffer.Allocate)
    (fits : i ≠ j → (∃ a, alloc = some a ∧ a ≠ (w j).member) →
      (w j).buffer.clear.Fits (w j).buffer.size) :
    Refines traits w (.moveConstruct i j alloc allocate) := by
  rw [Refines, perform, Step.run_get_bind]
  dsimp only
  by_cases same : i = j
  · rw [if_pos same]
    exact ⟨valid, .inl ⟨rfl, same⟩, nofun, nofun⟩
  rw [if_neg same]
  -- Without an allocator of its own, the new buffer takes the other's along.
  cases alloc with
  | none =>
    obtain ⟨w', ran, valid', moved⟩ :=
      run_takeOver_clear valid (Ne.symm same) (w j).member (w j).buffer
    dsimp only
    rw [Step.run_modify_bind, ran]
    exact ⟨valid', .inr ⟨same, .inl ⟨(queues w j).room, moved⟩⟩, nofun, nofun⟩
  | some alloc =>
    dsimp only
    rw [moveConstructWith, Step.run_get_bind]
    dsimp only
    by_cases none_ : (w j).buffer.alloc_size_ = 0
    · rw [if_pos none_]
      exact ⟨valid, rfl, nofun, nofun⟩
    rw [if_neg none_]
    by_cases equal : alloc = (w j).member
    · obtain ⟨w', ran, valid', moved⟩ := run_takeOver_clear valid (Ne.symm same) alloc (w j).buffer
      rw [if_neg (by simpa using equal), Step.run_modify_bind, ran]
      exact ⟨valid', .inr ⟨same, .inl ⟨(queues w j).room, moved⟩⟩, nofun, nofun⟩
    · -- With another allocator the octets are copied, and the other buffer is left as it was.
      rw [if_pos (by simpa using equal)]
      rcases build_spec (valid j) (fits same ⟨alloc, rfl, equal⟩) with
        ⟨b, built, new, content, room⟩ | failed
      · rw [built, Step.run_lift_ok_bind, Step.run_modify]
        refine ⟨allValid_update valid new, .inr ⟨same, .inr ?_⟩, nofun, nofun⟩
        rw [queues_update]
        simp only [queues_valid valid j, MultiBuffer.queue_eq new, content, room]
      · rw [failed, Step.run_lift_error_bind]
        exact ⟨valid, rfl, nofun, nofun⟩

/-- A buffer that another one is moved to is its queue, and the other one is empty. -/
theorem refines_moveAssign (valid : AllValid w) {i j : Nat} (allocate : MultiBuffer.Allocate)
    (fits : i ≠ j → traits.propagate_on_container_move_assignment = false →
      (w i).member ≠ (w j).member → (w j).buffer.clear.Fits (w j).buffer.size) :
    Refines traits w (.moveAssign i j allocate) := by
  rw [Refines, perform, Step.run_get_bind]
  dsimp only
  by_cases same : i = j
  · rw [if_pos same]
    exact ⟨valid, .inl ⟨rfl, same⟩, nofun, nofun⟩
  rw [if_neg same, Step.run_modify_bind]
  obtain ⟨taken, ranTaken, validTaken, moved⟩ :=
    run_takeOver_clear valid (Ne.symm same) (w i).member (w j).buffer
  -- The list is taken over where the allocators go along, or are equal.
  by_cases propagates : traits.propagate_on_container_move_assignment = true
  · rw [if_pos propagates, ranTaken]
    exact ⟨validTaken, .inr ⟨same, .inl ⟨(queues w j).room, moved⟩⟩, nofun, nofun⟩
  rw [if_neg propagates, Step.run_get_bind, Function.update_self]
  dsimp only
  by_cases equal : (w i).member = (w j).member
  · rw [if_neg (by simpa using equal), ranTaken]
    exact ⟨validTaken, .inr ⟨same, .inl ⟨(queues w j).room, moved⟩⟩, nofun, nofun⟩
  · rw [if_pos (by simpa using equal)]
    obtain ⟨r, w', ran, valid', outcome⟩ := @run_copyFrom A w valid i j (w i).member
      (w j).buffer allocate (fits same (by simpa using propagates) equal)
    rcases outcome with ⟨rfl, done⟩ | ⟨rfl, room, thrown⟩
    · rw [Step.run_bind_ok ran, run_onBuffer (Step.run_modify _ _)]
      refine ⟨allValid_update valid' (MultiBuffer.valid_clear _),
        .inr ⟨same, .inl ⟨[], ?_⟩⟩, nofun, nofun⟩
      rw [queues_update, done]
      dsimp only
      rw [queue_clear, Function.update_comm same]
    · rw [Step.run_bind_error ran]
      exact ⟨valid', ⟨room, thrown⟩, nofun, nofun⟩

/-- An operation leads where its queues may lead, where it is done with care. -/
theorem perform_refines (valid : AllValid w) {op : BufferOp A} (careful : Careful traits w op) :
    Refines traits w op := by
  -- Each operation was shown to do so.
  cases op with
  | construct i alloc_size alloc => exact refines_construct valid i alloc_size alloc
  | alloc_size i n => exact refines_alloc_size valid i n
  | prepare i n allocate => exact refines_prepare valid allocate careful
  | fill i s => exact refines_fill valid i s
  | commit i n => exact refines_commit valid i n
  | consume i n => exact refines_consume valid careful
  | copyConstruct i j alloc allocate => exact refines_copyConstruct valid alloc allocate careful
  | copyAssign i j allocate => exact refines_copyAssign valid allocate careful
  | moveConstruct i j alloc allocate => exact refines_moveConstruct valid alloc allocate careful
  | moveAssign i j allocate => exact refines_moveAssign valid allocate careful

/--
The buffers that operations lead to from new ones, each of them done with care.

An operation that throws is caught, and says so.
-/
inductive BufferRuns (traits : AllocTraits A) : List (BufferOp A × Bool) → World A → Prop
  | new {w : World A} (new : ∀ i, ∃ n, 0 < n ∧ (w i).buffer = { alloc_size_ := n }) :
      BufferRuns traits [] w
  | op {trace : List (BufferOp A × Bool)} {w : World A} {op : BufferOp A}
      (run : BufferRuns traits trace w) (careful : Careful traits w op) :
      BufferRuns traits (trace ++ [(op, threw (Step.run (perform traits op) w).1)])
        (Step.run (perform traits op) w).2

/-- Buffers that operations led to are valid, and stand for what their queues may have come to. -/
theorem bufferRuns_valid {trace : List (BufferOp A × Bool)} {w : World A}
    (run : BufferRuns traits trace w) : AllValid w ∧ QueueRuns trace (queues w) := by
  -- The induction is on the operations, and each of them does what its queues may do.
  induction run with
  | @new w new =>
    have clear : ∀ i, (w i).buffer = (w i).buffer.clear := by
      intro i
      obtain ⟨n, _, same⟩ := new i
      rw [same]
      rfl
    have empty : queues w = fun _ => ⟨[], []⟩ := by
      funext i
      rw [queues, clear i, queue_clear]
    refine ⟨fun i => ?_, empty ▸ .new⟩
    rw [clear i]
    exact MultiBuffer.valid_clear _
  | op run careful ih =>
    have refined := perform_refines ih.1 careful
    exact ⟨refined.valid, ih.2.op refined.allowed⟩

/--
Buffers are queues of octets, whatever is done to them with care.

They are sound at each time, hold what was committed and not consumed, and no operation on them
looks at an element of an empty list or meets an assertion that does not hold.
-/
theorem multi_buffer_refines {trace : List (BufferOp A × Bool)} {w : World A}
    (run : BufferRuns traits trace w) :
    (∀ i, (w i).buffer.Sound) ∧ QueueRuns trace (queues w) ∧
      ∀ op, Careful traits w op →
        (Step.run (perform traits op) w).1 ≠ .error .emptyList ∧
          (Step.run (perform traits op) w).1 ≠ .error .assertion := by
  obtain ⟨valid, runs⟩ := bufferRuns_valid run
  refine ⟨fun i => (valid i).sound, runs, fun op careful => ?_⟩
  have refined := perform_refines valid careful
  exact ⟨refined.found, refined.asserted⟩

end Operations

section Examples

/-- Traits of an allocator that has no state. -/
def plainTraits : AllocTraits Unit := ⟨id, true, true⟩

/-- New buffers. -/
def newBuffers : World Unit := fun _ => ⟨(), { alloc_size_ := 4 }⟩

/-- An allocator that makes a block of zeros of any number of octets. -/
def zeros : MultiBuffer.Allocate := fun _ => some fun _ => 0

/-- A buffer that was given two octets is a queue of them. -/
theorem multi_buffer_refines_two :
    let prepare : BufferOp Unit := .prepare 0 6 zeros
    let fill : BufferOp Unit := .fill 0 [1, 2]
    let commit : BufferOp Unit := .commit 0 2
    let prepared := Step.run (perform plainTraits prepare) newBuffers
    let filled := Step.run (perform plainTraits fill) prepared.2
    let committed := Step.run (perform plainTraits commit) filled.2
    (∀ i, (committed.2 i).buffer.Sound) ∧
      QueueRuns [(prepare, threw prepared.1), (fill, threw filled.1), (commit, threw committed.1)]
        (queues committed.2) ∧
      ∀ op, Careful plainTraits committed.2 op →
        (Step.run (perform plainTraits op) committed.2).1 ≠ .error .emptyList ∧
          (Step.run (perform plainTraits op) committed.2).1 ≠ .error .assertion := by
  intro prepare fill commit prepared filled committed
  have new : BufferRuns plainTraits [] newBuffers := .new fun _ => ⟨4, by decide, rfl⟩
  have first : BufferRuns plainTraits [(prepare, threw prepared.1)] prepared.2 :=
    new.op (.inr (by decide))
  have second : BufferRuns plainTraits [(prepare, threw prepared.1), (fill, threw filled.1)] filled.2 :=
    first.op trivial
  exact multi_buffer_refines (second.op trivial)

/-- Where an element is full and consumed as a whole, the back of an empty list is looked at. -/
theorem multi_buffer_empties : ¬∀ (ops : List (BufferOp Unit)) (op : BufferOp Unit),
    (Step.run (perform plainTraits op)
      (ops.foldl (fun w op => (Step.run (perform plainTraits op) w).2) newBuffers)).1 ≠
        .error .emptyList := by
  intro found
  exact found [.prepare 0 4 zeros, .commit 0 4] (.consume 0 4) (by decide +kernel)

end Examples

end Beast
