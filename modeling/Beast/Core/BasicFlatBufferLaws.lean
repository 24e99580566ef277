import Beast.Core.BasicFlatBuffer

/-! What the operations of a buffer in one block keep: its pointers in order, and its block its own. -/

namespace Beast

namespace BasicFlatBuffer

variable {o o' : BasicFlatBuffer} {h h' : Heap} {i : Nat} {place : Option Nat}

@[simp] theorem need_none {α : Type} (halt : FlatHalt) : need halt (none : Option α) = .error halt := rfl

@[simp] theorem need_some {α : Type} (halt : FlatHalt) (a : α) : need halt (some a) = .ok a := rfl

/-- What follows a result goes on from it. -/
@[simp] theorem ok_bind {α β : Type} (a : α) (f : α → Except FlatHalt β) :
    (Except.ok a >>= f) = f a := rfl

/-- What follows a halt is not done. -/
@[simp] theorem error_bind {α β : Type} (halt : FlatHalt) (f : α → Except FlatHalt β) :
    (Except.error halt >>= f) = .error halt := rfl

/-- A difference of words that does not wrap. -/
theorem wordSub_eq {a b : Nat} (le : b ≤ a) (small : a - b < 2 ^ 64) : wordSub a b = a - b := by
  unfold wordSub
  omega

/-- The loop counts on from where it starts. -/
theorem halvings_add (x n : Nat) : halvings x n = halvings x 0 + n := by
  induction x using Nat.strongRecOn generalizing n with
  | ind x ih =>
    rw [halvings, halvings.eq_1 x 0]
    by_cases some_ : x > 0
    · rw [if_pos some_, if_pos some_, ih _ (by omega) (n + 1), ih _ (by omega) (0 + 1)]
      omega
    · rw [if_neg some_, if_neg some_, Nat.zero_add]

/-- A size can be halved as many times as it has bits. -/
theorem halvings_le (x k : Nat) : halvings x 0 ≤ k ↔ x < 2 ^ k := by
  -- The induction is on the bits, one of which goes with each halving.
  induction k generalizing x with
  | zero =>
    rw [halvings]
    by_cases some_ : x > 0
    · rw [if_pos some_, halvings_add]
      omega
    · rw [if_neg some_]
      omega
  | succ k ih =>
    rw [halvings]
    by_cases some_ : x > 0
    · rw [if_pos some_, halvings_add, Nat.zero_add, Nat.add_le_add_iff_right, ih, Nat.pow_succ]
      omega
    · rw [if_neg some_]
      have positive := Nat.two_pow_pos (k + 1)
      omega

/-- There is a power of two above a size that leaves the last bit of a word alone. -/
theorem next_pow2_some {x : Nat} (small : x < 2 ^ 63) : ∃ pow, next_pow2 x = some pow ∧ x < pow := by
  have few := (halvings_le x 63).mpr small
  exact ⟨2 ^ halvings x 0, if_pos (by omega), (halvings_le x _).mp (Nat.le_refl _)⟩

/-- There is none in a word above a size that has the last bit of one. -/
theorem next_pow2_none {x : Nat} (large : 2 ^ 63 ≤ x) : next_pow2 x = none := by
  have many : ¬halvings x 0 ≤ 63 := fun few => by
    have small := (halvings_le x 63).mp few
    omega
  exact if_neg (by omega)

/-- The pointers of a buffer are in order, and its block is no larger than it may be. -/
structure Fits (o : BasicFlatBuffer) : Prop where
  input : o.p_ ≤ o.in_
  output : o.in_ ≤ o.out_
  room : o.out_ ≤ o.last_
  within : o.last_ ≤ o.end_
  bounded : o.end_ - o.p_ ≤ o.max_
  word : o.max_ < 2 ^ 64
  null : o.p_ = 0 → o.end_ = 0

/-- A buffer of an owner that has its block. -/
structure Held (h : Heap) (i : Nat) (o : BasicFlatBuffer) : Prop extends Fits o where
  owned : o.p_ ≠ 0 → o.block ∈ h.ownedBy i

theorem Fits.size (fits : o.Fits) : o.size = o.out_ - o.in_ := by
  obtain ⟨input, output, room, within, bounded, word, -⟩ := fits
  exact wordSub_eq output (by omega)

theorem Fits.capacity (fits : o.Fits) : o.capacity = o.end_ - o.p_ := by
  obtain ⟨input, output, room, within, bounded, word, -⟩ := fits
  exact wordSub_eq (by omega) (by omega)

/-- The block of a buffer ends where the buffer does. -/
theorem Fits.finish (fits : o.Fits) : o.block.finish = o.end_ := by
  have capacity := fits.capacity
  obtain ⟨input, output, room, within, -⟩ := fits
  unfold Block.finish block
  dsimp only
  omega

/-- A buffer with octets has a block. -/
theorem Fits.nonnull (fits : o.Fits) (some_ : 0 < o.size) : o.p_ ≠ 0 := by
  intro null
  have ended := fits.null null
  have size := fits.size
  obtain ⟨input, output, room, within, -⟩ := fits
  omega

/-- Addresses of a buffer lie in its block. -/
theorem Held.holds (held : o.Held h i) (nonnull : o.p_ ≠ 0) {a n : Nat} (low : o.p_ ≤ a)
    (high : a + n ≤ o.end_) : h.Holds a n :=
  Heap.holds_of_owned (held.owned nonnull) low (by rw [held.toFits.finish]; exact high)

/-- A buffer that was taken to a new block. -/
structure Relocated (i : Nat) (o : BasicFlatBuffer) (h : Heap) (o' : BasicFlatBuffer) (h' : Heap) :
    Prop where
  held : o'.Held h' i
  nonnull : o'.p_ ≠ 0
  data : o'.data h' = o.data h
  others : ∀ j, j ≠ i → h'.ownedBy j = h.ownedBy j

/-- A block that was handed out is apart from the one that a buffer has. -/
theorem Held.apart (held : o.Held h i) (nonnull : o.p_ ≠ 0) {b : Block} (fresh : h.Fresh b) :
    b.finish ≤ o.p_ ∨ o.end_ ≤ b.start := by
  have apart := fresh.2.2 _ (Heap.mem_ownedBy.mp (held.owned nonnull))
  unfold Block.Apart at apart
  rw [held.toFits.finish] at apart
  exact apart

/-- The octets of a buffer are found in a new block that they were copied to. -/
theorem Held.copied (held : o.Held h i) (some_ : 0 < o.size) {j arena new_size a : Nat} {h₁ : Heap}
    (given : h.allocate j arena new_size place = some (a, h₁)) (enough : o.size ≤ new_size) :
    ∃ h₂, h₁.memcpy a o.in_ o.size = some h₂ ∧ (∀ k, h₂.ownedBy k = h₁.ownedBy k) ∧
      h₂.octetsAt a o.size = o.data h := by
  obtain ⟨fresh, mem, mine, others⟩ := Heap.allocate_some given
  have nonnull := held.toFits.nonnull some_
  have size := held.toFits.size
  have apart := held.apart nonnull fresh
  obtain ⟨input, output, room, within, -⟩ := held.toFits
  -- The old block is out still, whoever the new one was handed out to.
  have here : h₁.Holds o.in_ o.size := by
    have old : o.block ∈ h₁.ownedBy i := by
      by_cases same : i = j
      · subst same
        rw [mine]
        exact List.mem_cons_of_mem _ (held.owned nonnull)
      · rw [others i same]
        exact held.owned nonnull
    exact Heap.holds_of_owned old (show o.p_ ≤ o.in_ from input) (by
      rw [held.toFits.finish]
      omega)
  have there : h₁.Holds a o.size :=
    Heap.holds_of_owned (mine ▸ List.mem_cons_self) (Nat.le_refl a) (by
      unfold Block.finish
      exact Nat.add_le_add_left enough a)
  obtain ⟨h₂, copied, owned, octets⟩ := Heap.memcpy_held there here (by
    unfold Block.finish at apart
    dsimp only at apart
    omega)
  refine ⟨h₂, copied, owned, octets.trans (Heap.octetsAt_congr fun k _ => ?_)⟩
  rw [mem]

/-- A buffer in a block of its own, as the operations leave it. -/
theorem held_fresh {a len last new_size max_ member : Nat} (given : 0 < a) (room : a + len ≤ last)
    (enough : last ≤ a + new_size) (bounded : new_size ≤ max_) (word : max_ < 2 ^ 64)
    (owned : (⟨a, new_size, member⟩ : Block) ∈ h'.ownedBy i)
    (is : o' = ⟨a, a, a + len, last, a + new_size, max_, member⟩) :
    o'.Held h' i ∧ o'.size = len ∧ o'.block = ⟨a, new_size, member⟩ := by
  subst is
  -- The pointers are in order, so that their differences are those of numbers.
  have size : wordSub (a + len) a = len := by
    rw [wordSub_eq (by omega) (by omega)]
    omega
  have capacity : wordSub (a + new_size) a = new_size := by
    rw [wordSub_eq (by omega) (by omega)]
    omega
  have block : (⟨a, a, a + len, last, a + new_size, max_, member⟩ :
      BasicFlatBuffer).block = ⟨a, new_size, member⟩ := by
    simp only [BasicFlatBuffer.block, BasicFlatBuffer.capacity, capacity]
  refine ⟨⟨⟨?_, ?_, ?_, ?_, ?_, word, ?_⟩, fun _ => by rw [block]; exact owned⟩, size, block⟩
  all_goals dsimp only; omega

/-- Octets are taken to a new block, unless there is none. -/
theorem reallocate_cases (held : o.Held h i) {new_size : Nat} (small : new_size ≤ o.max_)
    (enough : o.size ≤ new_size) :
    o.reallocate h i new_size place = .error .bad_alloc ∨
      ∃ a h', o.reallocate h i new_size place =
          .ok (⟨a, a, a + o.size, a + o.size, a + new_size, o.max_, o.member⟩, h') ∧
        0 < a ∧ h'.octetsAt a o.size = o.data h ∧ (∀ j, j ≠ i → h'.ownedBy j = h.ownedBy j) ∧
        h'.ownedBy i = ⟨a, new_size, o.member⟩ ::
          if 0 < o.size then (h.ownedBy i).filter (fun c => c ≠ o.block) else h.ownedBy i := by
  unfold reallocate
  cases given : h.allocate i o.member new_size place with
  | none =>
    left
    rw [need_none, error_bind]
  | some r =>
    obtain ⟨a, h₁⟩ := r
    obtain ⟨fresh, mem, mine, others⟩ := Heap.allocate_some given
    rw [need_some, ok_bind]
    dsimp only
    right
    by_cases some_ : 0 < o.size
    · -- The octets are copied, and the old block is given back.
      have nonnull := held.toFits.nonnull some_
      obtain ⟨h₂, copied, owned, octets⟩ := held.copied some_ given enough
      have old : o.block ∈ h₂.ownedBy i := by
        rw [owned, mine]
        exact List.mem_cons_of_mem _ (held.owned nonnull)
      obtain ⟨h₃, freed, mem₃, mine₃, others₃⟩ := Heap.free_owned old
      have new : (⟨a, new_size, o.member⟩ : Block) ≠ o.block := by
        intro same
        have apart := held.apart nonnull fresh
        have start : a = o.p_ := congrArg Block.start same
        have size := held.toFits.size
        obtain ⟨input, output, room, within, -⟩ := held.toFits
        unfold Block.finish at apart
        dsimp only at apart
        omega
      refine ⟨a, h₃, ?_, fresh.1, ?_, ?_, ?_⟩
      · rw [if_pos some_, copied, need_some, ok_bind, freed, need_some, ok_bind]
        rfl
      · rw [← octets]
        exact Heap.octetsAt_congr fun k _ => by rw [mem₃]
      · intro j other
        rw [others₃ j other, owned, others j other]
      · rw [if_pos some_, mine₃, owned, mine, List.filter_cons_of_pos (by simpa using new)]
    · -- There is nothing to copy, and the old block is left alone.
      have none : o.size = 0 := by omega
      refine ⟨a, h₁, ?_, fresh.1, ?_, others, ?_⟩
      · rw [if_neg some_]
        rfl
      · rw [data, none]
        rfl
      · rw [if_neg some_, mine]

/-- The blocks of a buffer: one, unless its pointer is null. -/
def blocks (o : BasicFlatBuffer) : List Block := if o.p_ = 0 then [] else [o.block]

/-- Room can only be made in a new block, and is no more than there may be. -/
def Grows (o : BasicFlatBuffer) (n : Nat) : Prop :=
  o.end_ < o.out_ + n ∧ o.capacity < o.size + n ∧ o.size + n ≤ o.max_

/-- A buffer with a block that has no octets in it. -/
def Bare (o : BasicFlatBuffer) : Prop := o.size = 0 ∧ o.p_ ≠ 0

/-- What an operation leaves of a buffer and of the blocks of its owner and of others. -/
structure Kept (i : Nat) (h : Heap) (o' : BasicFlatBuffer) (h' : Heap) : Prop where
  held : o'.Held h' i
  others : ∀ j, j ≠ i → h'.ownedBy j = h.ownedBy j

/-- What is left where room was made. -/
structure Prepared (i n : Nat) (o : BasicFlatBuffer) (h : Heap) (o' : BasicFlatBuffer) (h' : Heap) :
    Prop extends Kept i h o' h' where
  data : o'.data h' = o.data h
  size : o'.size = o.size
  room : o'.last_ = o'.out_ + n

/-- A new block is all that an owner has, where there was none before or it was given back. -/
theorem owned_alone (held : o.Held h i) (nonnull : o'.p_ ≠ 0) (alone : h.ownedBy i = o.blocks)
    (bare : ¬o.Bare) :
    (o'.block :: if 0 < o.size then (h.ownedBy i).filter (fun c => c ≠ o.block) else h.ownedBy i) =
      o'.blocks := by
  rw [blocks, if_neg nonnull, alone]
  by_cases some_ : 0 < o.size
  · rw [if_pos some_, blocks, if_neg (held.toFits.nonnull some_)]
    simp
  · have null : o.p_ = 0 := by
      by_contra nonnull'
      exact bare ⟨by omega, nonnull'⟩
    rw [if_neg some_, blocks, if_pos null]

/-- A buffer that was taken to a new block, with some room behind its octets. -/
theorem kept_fresh (held : o.Held h i) {a last new_size : Nat} (given : 0 < a)
    (room : a + o.size ≤ last) (enough : last ≤ a + new_size) (bounded : new_size ≤ o.max_)
    (others : ∀ j, j ≠ i → h'.ownedBy j = h.ownedBy j)
    (mine : h'.ownedBy i = ⟨a, new_size, o.member⟩ ::
      if 0 < o.size then (h.ownedBy i).filter (fun c => c ≠ o.block) else h.ownedBy i)
    (is : o' = ⟨a, a, a + o.size, last, a + new_size, o.max_, o.member⟩) :
    Kept i h o' h' ∧ o'.size = o.size ∧
      (h.ownedBy i = o.blocks → ¬o.Bare → h'.ownedBy i = o'.blocks) := by
  obtain ⟨heldNew, size, block⟩ := held_fresh (i := i) given room enough bounded held.word
    (mine ▸ List.mem_cons_self) is
  have nonnull : o'.p_ ≠ 0 := by
    subst is
    exact Nat.ne_of_gt given
  -- What is left of the old block depends on whether there were octets in it.
  refine ⟨⟨heldNew, others⟩, size, fun alone bare => ?_⟩
  rw [mine, ← block]
  exact owned_alone held nonnull alone bare

/-- The ways in which `prepare` ends. -/
theorem prepare_cases (held : o.Held h i) {n : Nat} (word : n < 2 ^ 64) (place : Option Nat) :
    (o.prepare h i n place = .error .length_error ∧ o.max_ < o.size + n) ∨
    (o.prepare h i n place = .error .bad_alloc ∧ o.size + n < 2 ^ 63) ∨
    (o.prepare h i n place = .error (.fault .shift) ∧ o.Grows n ∧ 2 ^ 63 ≤ o.size + n) ∨
    ∃ o' h', o.prepare h i n place = .ok (o', h', o'.out_, n) ∧ Prepared i n o h o' h' ∧
      ¬(o.Grows n ∧ 2 ^ 63 ≤ o.size + n) ∧
      (h.ownedBy i = o.blocks → ¬(o.Grows n ∧ o.Bare) → h'.ownedBy i = o'.blocks) := by
  have sizeEq := held.toFits.size
  have capacityEq := held.toFits.capacity
  obtain ⟨⟨input, output, room, within, bounded, small, null⟩, owned⟩ := id held
  have left : wordSub o.end_ o.out_ = o.end_ - o.out_ := wordSub_eq (by omega) (by omega)
  have behind : wordSub o.capacity o.size = o.capacity - o.size := wordSub_eq (by omega) (by omega)
  have most : wordSub o.max_ o.size = o.max_ - o.size := wordSub_eq (by omega) (by omega)
  unfold prepare
  rw [left]
  by_cases roomy : n ≤ o.end_ - o.out_
  · -- There is room behind the octets.
    have kept : ¬(o.Grows n ∧ 2 ^ 63 ≤ o.size + n) := fun grows => by
      have outside := grows.1.1
      omega
    refine .inr (.inr (.inr ⟨{ o with last_ := o.out_ + n }, h, if_pos roomy, ?_, kept,
      fun alone _ => alone⟩))
    refine ⟨⟨⟨⟨input, output, ?_, ?_, bounded, small, null⟩, owned⟩, fun _ _ => rfl⟩, rfl, rfl, rfl⟩
    all_goals dsimp only; omega
  · rw [if_neg roomy]
    dsimp only
    rw [behind, most]
    by_cases slides : n ≤ o.capacity - o.size
    · -- There is room once the octets are at the front of the block.
      rw [if_pos slides]
      have nonnull : o.p_ ≠ 0 := fun zero => by
        have ended := null zero
        omega
      obtain ⟨o', slid⟩ : ∃ o' : BasicFlatBuffer,
          o' = { o with in_ := o.p_, out_ := o.p_ + o.size, last_ := o.p_ + o.size + n } := ⟨_, rfl⟩
      have fits : o'.Fits := by
        subst slid
        refine ⟨?_, ?_, ?_, ?_, bounded, small, null⟩
        all_goals dsimp only; omega
      have size : o'.size = o.size := by
        rw [fits.size, slid]
        dsimp only
        omega
      have block : o'.block = o.block := by
        subst slid
        rfl
      have kept : ¬(o.Grows n ∧ 2 ^ 63 ≤ o.size + n) := fun grows => by
        have outside := grows.1.2.1
        omega
      refine .inr (.inr (.inr ?_))
      by_cases some_ : 0 < o.size
      · have there : h.Holds o.p_ o.size := held.holds nonnull (Nat.le_refl _) (by omega)
        have here : h.Holds o.in_ o.size := held.holds nonnull input (by omega)
        obtain ⟨h', moved, same, octets⟩ := Heap.memmove_held there here
        have mine : o'.block ∈ h'.ownedBy i := by
          rw [block, same]
          exact owned nonnull
        refine ⟨o', h', ?_, ⟨⟨⟨fits, fun _ => mine⟩, fun j _ => same j⟩, ?_, size, ?_⟩, kept, ?_⟩
        · rw [if_pos some_, moved, need_some, ok_bind, slid]
          rfl
        · rw [data, size, slid]
          exact octets
        · rw [slid]
        · intro alone _
          rw [same, alone, blocks, blocks, block, slid]
      · have none : o.size = 0 := by omega
        have mine : o'.block ∈ h.ownedBy i := by
          rw [block]
          exact owned nonnull
        refine ⟨o', h, ?_, ⟨⟨⟨fits, fun _ => mine⟩, fun _ _ => rfl⟩, ?_, size, ?_⟩, kept, ?_⟩
        · rw [if_neg some_, slid]
          rfl
        · rw [data, data, size, none]
          rfl
        · rw [slid]
        · intro alone _
          rw [alone, blocks, blocks, block, slid]
    · rw [if_neg slides]
      by_cases beyond : n > o.max_ - o.size
      · rw [if_pos beyond]
        exact .inl ⟨rfl, by omega⟩
      · -- The octets are taken to a new block.
        rw [if_neg beyond]
        have grows : o.Grows n := ⟨by omega, by omega, by omega⟩
        have sum : (o.size + n) % 2 ^ 64 = o.size + n := Nat.mod_eq_of_lt (by omega)
        rw [sum]
        right
        by_cases shifts : o.size + n < 2 ^ 63
        · obtain ⟨pow, found, above⟩ := next_pow2_some shifts
          rw [found, need_some, ok_bind]
          have enough : o.size + n ≤ min o.max_ (max pow min_size) := by
            rw [Nat.le_min]
            exact ⟨by omega, Nat.le_trans (Nat.le_of_lt above) (Nat.le_max_left _ _)⟩
          rcases reallocate_cases held (Nat.min_le_left o.max_ (max pow min_size))
            (by omega) with failed | ⟨a, h', done, given, octets, others, mine⟩
          · rw [failed, error_bind]
            exact .inl ⟨rfl, shifts⟩
          · rw [done, ok_bind]
            obtain ⟨kept, size, alone⟩ := kept_fresh held given
              (Nat.le_add_right (a + o.size) n) (by omega) (Nat.min_le_left _ _) others mine rfl
            refine .inr (.inr ⟨_, h', rfl, ⟨kept, ?_, size, rfl⟩, fun wide => by omega,
              fun before bare => ?_⟩)
            · rw [data, size]
              exact octets
            · exact alone before fun empty => bare ⟨grows, empty⟩
        · rw [next_pow2_none (by omega), need_none, error_bind]
          exact .inr (.inl ⟨rfl, grows, by omega⟩)

/-- A block of so many octets has to be found for `reserve`. -/
def Reserves (o : BasicFlatBuffer) (n : Nat) : Prop := o.capacity < n ∧ n ≤ o.max_

/-- The ways in which `reserve` ends. -/
theorem reserve_cases (held : o.Held h i) (n : Nat) (place : Option Nat) :
    o.reserve h i n place = .error .length_error ∨ o.reserve h i n place = .error .bad_alloc ∨
    (o.reserve h i n place = .error (.fault .shift) ∧ o.Reserves n ∧ 2 ^ 63 ≤ n) ∨
    ∃ o' h', o.reserve h i n place = .ok (o', h') ∧ Kept i h o' h' ∧
      (h.ownedBy i = o.blocks → ¬(o.Reserves n ∧ o.Bare) → h'.ownedBy i = o'.blocks) := by
  unfold reserve
  by_cases enough : n ≤ o.capacity
  · -- There is room already, and nothing is done.
    rw [if_pos enough]
    exact .inr (.inr (.inr ⟨o, h, rfl, ⟨held, fun _ _ => rfl⟩, fun alone _ => alone⟩))
  · rw [if_neg enough]
    by_cases beyond : n > o.max_
    · rw [if_pos beyond]
      exact .inl rfl
    · rw [if_neg beyond]
      have reserves : o.Reserves n := ⟨by omega, by omega⟩
      right
      by_cases shifts : n < 2 ^ 63
      · -- There is a power of two above the size, and a block of it is asked for.
        obtain ⟨pow, found, above⟩ := next_pow2_some shifts
        rw [found, need_some, ok_bind]
        have sizeEq := held.toFits.size
        have capacityEq := held.toFits.capacity
        have fits := held.toFits
        have room : o.size ≤ min o.max_ (max pow min_size) := by
          have larger := Nat.le_max_left pow min_size
          have inside : o.size ≤ o.capacity := by
            rw [sizeEq, capacityEq]
            have := fits.input
            have := fits.room
            have := fits.within
            omega
          rw [Nat.le_min]
          exact ⟨by omega, by omega⟩
        rcases reallocate_cases held (Nat.min_le_left o.max_ (max pow min_size))
          room with failed | ⟨a, h', done, given, octets, others, mine⟩
        · rw [failed]
          exact .inl rfl
        · rw [done]
          obtain ⟨kept, -, alone⟩ := kept_fresh held given (Nat.le_refl (a + o.size))
            (Nat.add_le_add_left room a) (Nat.min_le_left _ _) others mine rfl
          exact .inr (.inr ⟨_, h', rfl, kept, fun before bare => alone before fun empty =>
            bare ⟨reserves, empty⟩⟩)
      · rw [next_pow2_none (by omega), need_none, error_bind]
        exact .inr (.inl ⟨rfl, reserves, by omega⟩)

/-- The block of a buffer is taken back from its owner. -/
theorem free_block (held : o.Held h i) (nonnull : o.p_ ≠ 0) :
    ∃ h', h.free o.block = some h' ∧ h'.mem = h.mem ∧
      (∀ j, j ≠ i → h'.ownedBy j = h.ownedBy j) ∧ (h.ownedBy i = o.blocks → h'.ownedBy i = []) := by
  obtain ⟨h', freed, mem, mine, others⟩ := Heap.free_owned (held.owned nonnull)
  refine ⟨h', freed, mem, others, fun alone => ?_⟩
  rw [mine, alone, blocks, if_neg nonnull]
  simp

/-- The ways in which `shrink_to_fit` ends. -/
theorem shrink_to_fit_cases (held : o.Held h i) (place : Option Nat) :
    o.shrink_to_fit h i place = .error .bad_alloc ∨
    ∃ o' h', o.shrink_to_fit h i place = .ok (o', h') ∧ Kept i h o' h' ∧
      (h.ownedBy i = o.blocks → h'.ownedBy i = o'.blocks) := by
  have sizeEq := held.toFits.size
  have capacityEq := held.toFits.capacity
  obtain ⟨⟨input, output, room, within, bounded, small, null⟩, owned⟩ := id held
  unfold shrink_to_fit
  by_cases exact_ : o.size = o.capacity
  · rw [if_pos exact_]
    exact .inr ⟨o, h, rfl, ⟨held, fun _ _ => rfl⟩, id⟩
  · rw [if_neg exact_]
    have nonnull : o.p_ ≠ 0 := fun zero => by
      have ended := null zero
      omega
    by_cases some_ : 0 < o.size
    · -- The octets are copied to a block that they fill.
      rw [if_pos some_]
      cases given : h.allocate i o.member o.size place with
      | none =>
        left
        rw [need_none, error_bind]
      | some r =>
        obtain ⟨a, h₁⟩ := r
        obtain ⟨fresh, mem, mine, others⟩ := Heap.allocate_some given
        obtain ⟨h₂, copied, same, octets⟩ := held.copied some_ given (Nat.le_refl _)
        have old : o.block ∈ h₂.ownedBy i := by
          rw [same, mine]
          exact List.mem_cons_of_mem _ (owned nonnull)
        obtain ⟨h₃, freed, mem₃, mine₃, others₃⟩ := Heap.free_owned old
        have new : (⟨a, o.size, o.member⟩ : Block) ≠ o.block := fun same =>
          exact_ (congrArg Block.size same)
        have left_ : h₃.ownedBy i = ⟨a, o.size, o.member⟩ ::
            if 0 < o.size then (h.ownedBy i).filter (fun c => c ≠ o.block) else h.ownedBy i := by
          rw [mine₃, same, mine, if_pos some_, List.filter_cons_of_pos (by simpa using new)]
        have rest (j : Nat) (other : j ≠ i) : h₃.ownedBy j = h.ownedBy j := by
          rw [others₃ j other, same, others j other]
        obtain ⟨kept, -, alone⟩ := kept_fresh held fresh.1
          (Nat.le_refl (a + o.size)) (Nat.le_refl _) (by omega) rest left_ rfl
        refine .inr ⟨_, h₃, ?_, kept, fun before => alone before fun bare => ?_⟩
        · rw [need_some, ok_bind]
          dsimp only
          rw [copied, need_some, ok_bind]
          dsimp only [pure, Except.pure]
          rw [ok_bind]
          dsimp only
          rw [freed, need_some, ok_bind]
        · exact Nat.ne_of_gt some_ bare.1
    · -- There are no octets, and the pointer becomes null.
      have none : o.size = 0 := by omega
      obtain ⟨h', freed, mem, others, emptied⟩ := free_block held nonnull
      rw [if_neg some_]
      refine .inr ⟨⟨0, 0, 0, 0, 0, o.max_, o.member⟩, h', ?_, ⟨⟨⟨?_, ?_, ?_, ?_, ?_, small, ?_⟩, ?_⟩,
        others⟩, emptied⟩
      · dsimp only [pure, Except.pure]
        rw [ok_bind]
        dsimp only
        rw [freed, need_some, ok_bind, none]
      all_goals simp

/-- The ways in which a copy ends, which is made for an owner of its own. -/
theorem copy_from_cases (i : Nat) {j : Nat} (held : o.Held h j) (member : Nat) (place : Option Nat) :
    o.copy_from h i member place = .error .bad_alloc ∨
    ∃ o' h', o.copy_from h i member place = .ok (o', h') ∧ Kept i h o' h' ∧
      (h.ownedBy i = [] → h'.ownedBy i = o'.blocks) := by
  have sizeEq := held.toFits.size
  obtain ⟨⟨input, output, room, within, bounded, small, null⟩, owned⟩ := id held
  unfold copy_from
  by_cases some_ : 0 < o.size
  · rw [if_pos some_]
    cases given : h.allocate i member o.size place with
    | none =>
      left
      rw [need_none, error_bind]
    | some r =>
      obtain ⟨a, h₁⟩ := r
      obtain ⟨fresh, mem, mine, others⟩ := Heap.allocate_some given
      -- The octets go to a block that they fill, and the other buffer keeps its own.
      obtain ⟨h₂, copied, same, octets⟩ := held.copied some_ given (Nat.le_refl _)
      have new : (⟨a, o.size, member⟩ : Block) ∈ h₂.ownedBy i := by
        rw [same, mine]
        exact List.mem_cons_self
      obtain ⟨heldNew, -, block⟩ := held_fresh fresh.1 (Nat.le_refl (a + o.size)) (Nat.le_refl _)
        (by omega) small new rfl
      refine .inr ⟨_, h₂, ?_, ⟨heldNew, fun k other => ?_⟩, fun before => ?_⟩
      · rw [need_some, ok_bind]
        dsimp only
        rw [copied, need_some, ok_bind]
        rfl
      · rw [same, others k other]
      · rw [same, mine, before, blocks, if_neg (Nat.ne_of_gt fresh.1), block]
  · -- Without octets there is nothing to copy, and no block is asked for.
    rw [if_neg some_]
    refine .inr ⟨_, h, rfl, ⟨⟨⟨?_, ?_, ?_, ?_, ?_, small, ?_⟩, ?_⟩, fun _ _ => rfl⟩, id⟩
    all_goals simp

end BasicFlatBuffer

end Beast
