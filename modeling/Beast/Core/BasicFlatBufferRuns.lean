import Beast.Core.BasicFlatBufferLaws

/-! Runs of a program on its buffers: what holds of pointers and of blocks, and when it does not. -/

namespace Beast

open Function (update)

namespace BasicFlatBuffer

variable {o o' : BasicFlatBuffer} {h h' : Heap} {i : Nat}

/-- No octet that was not made room for becomes readable. -/
theorem commit_kept (held : o.Held h i) (n : Nat) :
    Kept i h (o.commit n) h ∧ (o.commit n).blocks = o.blocks := by
  obtain ⟨⟨input, output, room, within, bounded, small, null⟩, owned⟩ := held
  have left : wordSub o.last_ o.out_ = o.last_ - o.out_ := wordSub_eq (by omega) (by omega)
  refine ⟨⟨⟨⟨input, ?_, ?_, within, bounded, small, null⟩, owned⟩, fun _ _ => rfl⟩, rfl⟩
  all_goals dsimp only [commit]; rw [left]; omega

/-- The pointers stay in order where octets are removed. -/
theorem consume_kept (held : o.Held h i) (n : Nat) :
    Kept i h (o.consume n) h ∧ (o.consume n).blocks = o.blocks := by
  obtain ⟨⟨input, output, room, within, bounded, small, null⟩, owned⟩ := held
  have size : wordSub o.out_ o.in_ = o.out_ - o.in_ := wordSub_eq (by omega) (by omega)
  unfold consume
  rw [size]
  by_cases all : n ≥ o.out_ - o.in_
  · rw [if_pos all]
    refine ⟨⟨⟨⟨?_, ?_, ?_, within, bounded, small, null⟩, owned⟩, fun _ _ => rfl⟩, rfl⟩
    all_goals dsimp only; omega
  · rw [if_neg all]
    refine ⟨⟨⟨⟨?_, ?_, room, within, bounded, small, null⟩, owned⟩, fun _ _ => rfl⟩, rfl⟩
    all_goals dsimp only; omega

/-- The pointers of a buffer are in order. -/
def InOrder (o : BasicFlatBuffer) : Prop :=
  o.p_ ≤ o.in_ ∧ o.in_ ≤ o.out_ ∧ o.out_ ≤ o.last_ ∧ o.last_ ≤ o.end_

theorem Fits.inOrder (fits : o.Fits) : o.InOrder :=
  ⟨fits.input, fits.output, fits.room, fits.within⟩

/-- `prepare` returns room for so many octets in the block of the buffer, with its octets as they
were, unless there is no memory. -/
def PreparesWithin (o : BasicFlatBuffer) (h : Heap) (i n : Nat) (place : Option Nat) : Prop :=
  o.prepare h i n place = .error .bad_alloc ∨
    ∃ o' h', o.prepare h i n place = .ok (o', h', o'.out_, n) ∧ o'.InOrder ∧
      (0 < n → o'.block ∈ h'.ownedBy i ∧ o'.block.start ≤ o'.out_ ∧
        o'.out_ + n ≤ o'.block.finish) ∧
      o'.data h' = o.data h

/-- A buffer without a block. -/
theorem held_null {max_ member : Nat} (small : max_ < 2 ^ 64) :
    (⟨0, 0, 0, 0, 0, max_, member⟩ : BasicFlatBuffer).Held h i := by
  refine ⟨⟨?_, ?_, ?_, ?_, ?_, small, ?_⟩, ?_⟩
  all_goals simp

end BasicFlatBuffer

namespace FlatBuffers

open BasicFlatBuffer

variable {s t : FlatBuffers} {i : Nat} {o o' : BasicFlatBuffer} {h' : Heap}

/-- Every buffer has its pointers in order, and its block is its own. -/
def Sound (s : FlatBuffers) : Prop := ∀ i o, s.objects i = some o → o.Held s.heap i

/-- What is out of memory is one block for each buffer with a pointer that is not null. -/
def Single (s : FlatBuffers) : Prop :=
  ∀ i, s.heap.ownedBy i = match s.objects i with
    | some o => o.blocks
    | none => []

/-- A block is asked for whose size has the last bit of a word. -/
def Shifts (s : FlatBuffers) : FlatAct → Prop
  | .prepare i n _ => ∃ o, s.objects i = some o ∧ o.Grows n.toNat ∧ 2 ^ 63 ≤ o.size + n.toNat
  | .reserve i n _ => ∃ o, s.objects i = some o ∧ o.Reserves n.toNat ∧ 2 ^ 63 ≤ n.toNat
  | _ => False

/-- A block is asked for while there is one without octets. -/
def Leaks (s : FlatBuffers) : FlatAct → Prop
  | .prepare i n _ => ∃ o, s.objects i = some o ∧ o.Grows n.toNat ∧ o.Bare
  | .reserve i n _ => ∃ o, s.objects i = some o ∧ o.Reserves n.toNat ∧ o.Bare
  | _ => False

/-- What is left behind an operation that is not at fault. -/
def Keeps (s : FlatBuffers) (a : FlatAct) (r : Except Fault FlatBuffers) : Prop :=
  ∃ t, r = .ok t ∧ Sound t ∧ (Single s → ¬Leaks s a → Single t)

/-- A buffer that was kept takes the place of the one that there was. -/
theorem put_sound (sound : Sound s) (kept : Kept i s.heap o' h') : Sound (s.put i o' h') := by
  intro j o₂ there
  by_cases same : j = i
  · subst same
    simp only [put, Function.update_self, Option.some.injEq] at there
    subst there
    exact kept.held
  · simp only [put, Function.update_of_ne same] at there
    obtain ⟨fits, owned⟩ := sound j o₂ there
    refine ⟨fits, fun nonnull => ?_⟩
    show o₂.block ∈ h'.ownedBy j
    rw [kept.others j same]
    exact owned nonnull

/-- The blocks of one buffer are its own, and the others have what they had. -/
theorem put_single (single : Single s) (kept : Kept i s.heap o' h')
    (alone : h'.ownedBy i = o'.blocks) : Single (s.put i o' h') := by
  intro j
  by_cases same : j = i
  · subst same
    simp only [put, Function.update_self]
    exact alone
  · simp only [put, Function.update_of_ne same]
    rw [kept.others j same]
    exact single j

/-- What a buffer that is there has of memory. -/
theorem Single.object (single : Single s) (there : s.objects i = some o) :
    s.heap.ownedBy i = o.blocks := by
  have blocks := single i
  rw [there] at blocks
  exact blocks

/-- What one that is not there has of memory. -/
theorem Single.none (single : Single s) (absent : s.objects i = none) : s.heap.ownedBy i = [] := by
  have blocks := single i
  rw [absent] at blocks
  exact blocks

/-- Nothing has changed. -/
theorem keeps_same (sound : Sound s) (a : FlatAct) : Keeps s a (.ok s) :=
  ⟨s, rfl, sound, fun single _ => single⟩

/-- A buffer is put in the place of another one that had the same blocks. -/
theorem keeps_put (sound : Sound s) (a : FlatAct) (kept : Kept i s.heap o' h')
    (alone : Single s → ¬Leaks s a → h'.ownedBy i = o'.blocks) : Keeps s a (.ok (s.put i o' h')) :=
  ⟨_, rfl, put_sound sound kept, fun single tight => put_single single kept (alone single tight)⟩

/-- A copy under a name that is free. -/
theorem keeps_copy (sound : Sound s) (a : FlatAct) {j member : Nat} {place : Option Nat}
    (there : s.objects j = some o) (absent : s.objects i = none) :
    Keeps s a (s.settle i (o.copy_from s.heap i member place)) := by
  rcases copy_from_cases i (sound j o there) member place with failed | ⟨o', h', done, kept, alone⟩
  · rw [failed]
    exact keeps_same sound a
  · rw [done]
    exact keeps_put sound a kept fun single _ => alone (single.none absent)

/-- A buffer that takes over from another one under a name that is free. -/
theorem keeps_move (sound : Sound s) (a : FlatAct) {j : Nat} (there : s.objects j = some o)
    (absent : s.objects i = none) :
    Keeps s a (.ok ((s.put j (o.move_from o.member).2 s.heap).put i (o.move_from o.member).1
      (s.heap.give j i))) := by
  have different : j ≠ i := by
    rintro rfl
    rw [there] at absent
    cases absent
  obtain ⟨⟨input, output, room, within, bounded, small, null⟩, owned⟩ := sound j o there
  refine ⟨_, rfl, fun k o₂ is => ?_, fun single _ k => ?_⟩
  · -- The new name has the pointers, the old one has none left, and the others are not touched.
    by_cases new : k = i
    · subst new
      simp only [put, Function.update_self, Option.some.injEq] at is
      subst is
      refine ⟨⟨input, output, Nat.le_refl _, ?_, bounded, small, null⟩, fun nonnull => ?_⟩
      · dsimp only [move_from]
        omega
      · exact Heap.give_to (owned nonnull)
    · simp only [put, Function.update_of_ne new] at is
      by_cases old : k = j
      · subst old
        rw [Function.update_self, Option.some.injEq] at is
        subst is
        exact held_null small
      · rw [Function.update_of_ne old] at is
        obtain ⟨fits, mine⟩ := sound k o₂ is
        refine ⟨fits, fun nonnull => ?_⟩
        show o₂.block ∈ (s.heap.give j i).ownedBy k
        rw [Heap.give_others old new]
        exact mine nonnull
  · -- The blocks go the same way as the pointers to them.
    show (s.heap.give j i).ownedBy k = _
    by_cases new : k = i
    · subst new
      simp only [put, Function.update_self]
      rw [Heap.give_all (single.none absent), single.object there]
      rfl
    · simp only [put, Function.update_of_ne new]
      by_cases old : k = j
      · subst old
        rw [Function.update_self, Heap.give_from different]
        rfl
      · rw [Function.update_of_ne old, Heap.give_others old new]
        exact single k

/-- A buffer that is destroyed gives its block back. -/
theorem keeps_destroy (sound : Sound s) (there : s.objects i = some o) :
    Keeps s (.destroy i) (s.perform o (.destroy i)) := by
  -- Whatever becomes of its block, the buffer itself is gone.
  have gone (h' : Heap) (others : ∀ j, j ≠ i → h'.ownedBy j = s.heap.ownedBy j)
      (emptied : Single s → h'.ownedBy i = []) :
      Keeps s (.destroy i) (.ok ⟨h', update s.objects i none⟩) := by
    refine ⟨_, rfl, fun j o₂ is => ?_, fun single _ j => ?_⟩
    · dsimp only at is ⊢
      by_cases same : j = i
      · subst same
        rw [Function.update_self] at is
        cases is
      · rw [Function.update_of_ne same] at is
        obtain ⟨fits, mine⟩ := sound j o₂ is
        exact ⟨fits, fun nonnull => by rw [others j same]; exact mine nonnull⟩
    · dsimp only
      by_cases same : j = i
      · subst same
        rw [Function.update_self]
        exact emptied single
      · rw [Function.update_of_ne same]
        exact (others j same).trans (single j)
  have held := sound i o there
  by_cases nonnull : o.p_ ≠ 0
  · obtain ⟨h', freed, -, others, emptied⟩ := free_block held nonnull
    simp only [perform, destroy, if_pos nonnull, freed, need_some]
    exact gone h' others fun single => emptied (single.object there)
  · -- A null pointer has no block behind it.
    simp only [perform, destroy, if_neg nonnull]
    refine gone s.heap (fun _ _ => rfl) fun single => ?_
    rw [single.object there, blocks, if_pos (not_not.mp nonnull)]

/-- Room is made, or nothing was changed, or a shift went by a whole word. -/
theorem keeps_prepare (sound : Sound s) (there : s.objects i = some o) (n : UInt64)
    (place : Option Nat) :
    (s.perform o (.prepare i n place) = .error .shift ∧ Shifts s (.prepare i n place)) ∨
      Keeps s (.prepare i n place) (s.perform o (.prepare i n place)) := by
  simp only [perform]
  rcases prepare_cases (sound i o there) n.toNat_lt place with
    ⟨failed, -⟩ | ⟨failed, -⟩ | ⟨failed, grows, large⟩ | ⟨o', h', done, kept, -, alone⟩
  · rw [failed]
    exact .inr (keeps_same sound _)
  · rw [failed]
    exact .inr (keeps_same sound _)
  · -- The shift that computes the size of the block goes by a whole word.
    rw [failed]
    exact .inl ⟨rfl, o, there, grows, large⟩
  · rw [done]
    refine .inr (keeps_put sound _ kept.toKept fun single tight => ?_)
    exact alone (single.object there) fun leak => tight ⟨o, there, leak⟩

/-- A block is found, or nothing was changed, or a shift went by a whole word. -/
theorem keeps_reserve (sound : Sound s) (there : s.objects i = some o) (n : UInt64)
    (place : Option Nat) :
    (s.perform o (.reserve i n place) = .error .shift ∧ Shifts s (.reserve i n place)) ∨
      Keeps s (.reserve i n place) (s.perform o (.reserve i n place)) := by
  simp only [perform]
  rcases reserve_cases (sound i o there) n.toNat place with
    failed | failed | ⟨failed, reserves, large⟩ | ⟨o', h', done, kept, alone⟩
  · rw [failed]
    exact .inr (keeps_same sound _)
  · rw [failed]
    exact .inr (keeps_same sound _)
  · -- The shift that computes the size of the block goes by a whole word.
    rw [failed]
    exact .inl ⟨rfl, o, there, reserves, large⟩
  · rw [done]
    refine .inr (keeps_put sound _ kept fun single tight => ?_)
    exact alone (single.object there) fun leak => tight ⟨o, there, leak⟩

/-- Octets are written into the room. -/
theorem keeps_fill (sound : Sound s) (there : s.objects i = some o) (text : Octets) :
    Keeps s (.fill i text) (s.perform o (.fill i text)) := by
  have held := sound i o there
  simp only [perform]
  by_cases fits : text.length ≤ wordSub o.last_ o.out_
  · rw [if_pos fits]
    -- What fits into the room lies in the block of the buffer, if there is anything to write.
    have inside : text = [] ∨ s.heap.Holds o.out_ text.length := by
      obtain ⟨input, output, room, within, bounded, small, null⟩ := held.toFits
      rw [wordSub_eq room (by omega)] at fits
      by_cases none : text = []
      · exact .inl none
      · have some_ := List.length_pos_of_ne_nil none
        have nonnull : o.p_ ≠ 0 := fun zero => by
          have ended := null zero
          omega
        exact .inr (held.holds nonnull (by omega) (by omega))
    obtain ⟨h', stored, same⟩ := Heap.store_owned inside
    rw [stored]
    refine keeps_put sound _ ⟨⟨held.toFits, fun nonnull => ?_⟩, fun j _ => same j⟩ fun single _ => ?_
    · rw [same]
      exact held.owned nonnull
    · rw [same, single.object there]
  · rw [if_neg fits]
    exact keeps_same sound _

/-- An operation on a buffer keeps what holds of pointers and blocks, unless it shifts too far. -/
theorem perform_keeps (sound : Sound s) (a : FlatAct) (there : s.objects a.subject = some o) :
    (s.perform o a = .error .shift ∧ Shifts s a) ∨ Keeps s a (s.perform o a) := by
  -- Only `prepare` and `reserve` compute a power of two, and so only they can shift too far.
  cases a with
  | construct i limit member => exact .inr (keeps_same sound _)
  | copy i j member place =>
    replace there : s.objects j = some o := there
    right
    simp only [perform]
    cases absent : s.objects i with
    | some o₂ =>
      rw [Option.isSome_some, if_pos rfl]
      exact keeps_same sound _
    | none =>
      rw [Option.isSome_none, if_neg Bool.false_ne_true]
      exact keeps_copy sound _ there absent
  | move i j member place =>
    replace there : s.objects j = some o := there
    right
    simp only [perform]
    cases absent : s.objects i with
    | some o₂ =>
      rw [Option.isSome_some, if_pos rfl]
      exact keeps_same sound _
    | none =>
      rw [Option.isSome_none, if_neg Bool.false_ne_true]
      by_cases other : member ≠ o.member
      · -- With another memory resource the octets are copied.
        rw [if_pos other]
        exact keeps_copy sound _ there absent
      · have same : member = o.member := not_not.mp other
        subst same
        rw [if_neg other]
        exact keeps_move sound _ there absent
  | destroy i => exact .inr (keeps_destroy sound there)
  | prepare i n place => exact keeps_prepare sound there n place
  | fill i text => exact .inr (keeps_fill sound there text)
  | commit i n =>
    replace there : s.objects i = some o := there
    obtain ⟨kept, same⟩ := commit_kept (sound i o there) n.toNat
    simp only [perform]
    exact .inr (keeps_put sound _ kept fun single _ => by rw [single.object there, same])
  | consume i n =>
    replace there : s.objects i = some o := there
    obtain ⟨kept, same⟩ := consume_kept (sound i o there) n.toNat
    simp only [perform]
    exact .inr (keeps_put sound _ kept fun single _ => by rw [single.object there, same])
  | reserve i n place => exact keeps_reserve sound there n place
  | shrink_to_fit i place =>
    replace there : s.objects i = some o := there
    right
    simp only [perform]
    rcases shrink_to_fit_cases (sound i o there) place with failed | ⟨o', h', done, kept, alone⟩
    · rw [failed]
      exact keeps_same sound _
    · rw [done]
      exact keeps_put sound _ kept fun single _ => alone (single.object there)

/-- One operation keeps what holds of pointers and blocks, unless it shifts by a whole word. -/
theorem step_keeps (sound : Sound s) (a : FlatAct) :
    (s.step a = .error .shift ∧ Shifts s a) ∨ Keeps s a (s.step a) := by
  -- All operations but the first need a buffer under the name, and do nothing without one.
  have others (absent : s.objects a.subject = none → s.step a = .ok s)
      (present : ∀ o, s.objects a.subject = some o → s.step a = s.perform o a) :
      (s.step a = .error .shift ∧ Shifts s a) ∨ Keeps s a (s.step a) := by
    cases there : s.objects a.subject with
    | none =>
      rw [absent there]
      exact .inr (keeps_same sound a)
    | some o =>
      rw [present o there]
      exact perform_keeps sound a there
  cases a with
  | construct i limit member =>
    right
    simp only [step]
    cases absent : s.objects i with
    | some o =>
      rw [Option.isSome_some, if_pos rfl]
      exact keeps_same sound _
    | none =>
      rw [Option.isSome_none, if_neg Bool.false_ne_true]
      have kept : Kept i s.heap ⟨0, 0, 0, 0, 0, limit.toNat, member⟩ s.heap :=
        ⟨held_null limit.toNat_lt, fun _ _ => rfl⟩
      exact keeps_put sound _ kept fun single _ => single.none absent
  | _ =>
    apply others
    all_goals
      intros
      simp_all only [step, FlatAct.subject]

/-- One operation after another, from no buffers. -/
def Reached (meets : FlatBuffers → FlatAct → Prop) (mem : Nat → UInt8) : FlatBuffers → Prop :=
  Run.Reaches (fun s a t => s.step a = .ok t) meets (start mem)

/-- The pointers of every buffer are in order in every run. -/
theorem Reached.sound {meets : FlatBuffers → FlatAct → Prop} {mem : Nat → UInt8}
    (reached : Reached meets mem s) : Sound s := by
  refine Run.Reaches.invariant reached (fun s a t sound _ stepped => ?_) nofun
  rcases step_keeps sound a with ⟨failed, -⟩ | ⟨t', done, next, -⟩
  · rw [failed] at stepped
    cases stepped
  · rw [done, Except.ok.injEq] at stepped
    exact stepped ▸ next

/-- Nothing is out of memory but the blocks of the buffers, in runs without an operation that leaks. -/
theorem Reached.single {mem : Nat → UInt8} (reached : Reached (fun s a => ¬Leaks s a) mem s) :
    Sound s ∧ Single s := by
  -- The induction is on the run, with both properties at once.
  refine Run.Reaches.invariant (P := fun s => Sound s ∧ Single s) reached
    (fun s a t both tight stepped => ?_) ⟨nofun, fun _ => rfl⟩
  rcases step_keeps both.1 a with ⟨failed, -⟩ | ⟨t', done, next, alone⟩
  · rw [failed] at stepped
    cases stepped
  · rw [done, Except.ok.injEq] at stepped
    exact stepped ▸ ⟨next, alone both.2 tight⟩

/-- Every operation works that does not shift by a whole word. -/
theorem Reached.works {meets : FlatBuffers → FlatAct → Prop} {mem : Nat → UInt8}
    (reached : Reached meets mem s) {a : FlatAct} (fine : ¬Shifts s a) : ∃ t, s.step a = .ok t := by
  rcases step_keeps reached.sound a with ⟨-, shifts⟩ | ⟨t, done, -⟩
  · exact absurd shifts fine
  · exact ⟨t, done⟩

/-- `prepare` keeps to the block and to the octets that there are, exactly where it does not shift
by a whole word. -/
theorem preparesWithin_iff (sound : Sound s) (there : s.objects i = some o) (n : UInt64)
    (place : Option Nat) (most : o.size + n.toNat ≤ o.max_) :
    o.PreparesWithin s.heap i n.toNat place ↔ ¬Shifts s (.prepare i n place) := by
  have held := sound i o there
  rcases prepare_cases held n.toNat_lt place with
    ⟨-, beyond⟩ | ⟨failed, small⟩ | ⟨failed, grows, large⟩ | ⟨o', h', done, prepared, small, -⟩
  · omega
  · -- There was no memory, which the shift would have kept from being asked for.
    refine ⟨fun _ shifts => ?_, fun _ => .inl failed⟩
    obtain ⟨o₂, there', -, large⟩ := shifts
    rw [there, Option.some.injEq] at there'
    subst there'
    omega
  · refine ⟨fun within _ => ?_, fun fine => absurd ⟨o, there, grows, large⟩ fine⟩
    rcases within with lack | ⟨o', h', done, -⟩
    · rw [failed] at lack
      cases lack
    · rw [failed] at done
      cases done
  · -- There is room, within the block that the buffer has now.
    refine ⟨fun _ shifts => ?_, fun _ => .inr ⟨o', h', done, ?_, ?_, prepared.data⟩⟩
    · obtain ⟨o₂, there', wide⟩ := shifts
      rw [there, Option.some.injEq] at there'
      subst there'
      exact small wide
    · exact prepared.held.toFits.inOrder
    · intro some_
      have fits := prepared.held.toFits
      have room := prepared.room
      have within := fits.within
      have nonnull : o'.p_ ≠ 0 := fun zero => by
        have ended := fits.null zero
        omega
      refine ⟨prepared.held.owned nonnull, ?_, ?_⟩
      · exact Nat.le_trans fits.input fits.output
      · rw [fits.finish]
        omega

/-- Room for octets whose number has the last bit of a word cannot be computed. -/
theorem prepare_shifts (sound : Sound s) (there : s.objects i = some o) {n : UInt64}
    {place : Option Nat} (grows : o.Grows n.toNat) (large : 2 ^ 63 ≤ o.size + n.toNat) :
    s.step (.prepare i n place) = .error .shift := by
  have is : s.step (.prepare i n place) = s.perform o (.prepare i n place) := by
    simp only [step, FlatAct.subject, there]
  rw [is]
  simp only [perform]
  -- Every other way in which `prepare` ends asks for fewer octets.
  rcases prepare_cases (sound i o there) n.toNat_lt place with
    ⟨-, beyond⟩ | ⟨-, small⟩ | ⟨failed, -, -⟩ | ⟨o', h', -, -, small, -⟩
  · have most := grows.2.2
    omega
  · omega
  · rw [failed]
    rfl
  · exact absurd ⟨grows, large⟩ small

/--
In every run without a shift by a whole word, pointers stay in order, every operation works, and room
is made in the block that a buffer has.
-/
theorem stays_in_bounds {mem : Nat → UInt8} (reached : Reached (fun s a => ¬Shifts s a) mem s) :
    (∀ i o, s.objects i = some o → o.InOrder) ∧
    (∀ a, ¬Shifts s a → ∃ t, s.step a = .ok t) ∧
    ∀ i o, s.objects i = some o → ∀ (n : UInt64) place, o.size + n.toNat ≤ o.max_ →
      (o.PreparesWithin s.heap i n.toNat place ↔ ¬Shifts s (.prepare i n place)) :=
  ⟨fun i o there => (reached.sound i o there).toFits.inOrder, fun _ fine => reached.works fine,
    fun _ _ there n place most => preparesWithin_iff reached.sound there n place most⟩

/-- A program with one buffer, which may become so large. -/
def freshBuffer (limit : UInt64) : FlatBuffers :=
  (start fun _ => 0).put 0 ⟨0, 0, 0, 0, 0, limit.toNat, 0⟩ (.empty fun _ => 0)

/-- That program is reached by one operation. -/
theorem freshBuffer_reached (meets : FlatBuffers → FlatAct → Prop) (limit : UInt64)
    (allowed : meets (start fun _ => 0) (.construct 0 limit 0)) :
    Reached meets (fun _ => 0) (freshBuffer limit) :=
  Run.Reaches.snoc .refl allowed rfl

theorem stays_in_bounds_fresh :
    (∀ i o, (freshBuffer 4096).objects i = some o → o.InOrder) ∧
    (∀ a, ¬Shifts (freshBuffer 4096) a → ∃ t, (freshBuffer 4096).step a = .ok t) ∧
    ∀ i o, (freshBuffer 4096).objects i = some o →
      ∀ (n : UInt64) place, o.size + n.toNat ≤ o.max_ →
      (o.PreparesWithin (freshBuffer 4096).heap i n.toNat place ↔
        ¬Shifts (freshBuffer 4096) (.prepare i n place)) :=
  stays_in_bounds (freshBuffer_reached _ 4096 fun shifts => shifts)

/-- A first block of half a word is asked for, and the shift that computes its size is undefined. -/
theorem half_word_shifts : ∃ s o, Reached (fun _ _ => True) (fun _ => 0) s ∧
    s.objects 0 = some o ∧ o.size + 2 ^ 63 ≤ o.max_ ∧
    s.step (.prepare 0 9223372036854775808 (some 4096)) = .error .shift ∧
    ¬o.PreparesWithin s.heap 0 (9223372036854775808 : UInt64).toNat (some 4096) := by
  have limit : (18446744073709551615 : UInt64).toNat = 2 ^ 64 - 1 := rfl
  have half : (9223372036854775808 : UInt64).toNat = 2 ^ 63 := rfl
  have reached := freshBuffer_reached (fun _ _ => True) 18446744073709551615 trivial
  -- The numbers are too large to be evaluated, so the buffer is kept under a name.
  obtain ⟨o, is⟩ : ∃ o, o = (⟨0, 0, 0, 0, 0, (18446744073709551615 : UInt64).toNat, 0⟩ :
      BasicFlatBuffer) := ⟨_, rfl⟩
  have there : (freshBuffer 18446744073709551615).objects 0 = some o := is ▸ rfl
  have held := reached.sound 0 o there
  have size : o.size = 0 := by rw [held.toFits.size, is, Nat.sub_self]
  have capacity : o.capacity = 0 := by rw [held.toFits.capacity, is, Nat.sub_self]
  have max : o.max_ = 2 ^ 64 - 1 := by rw [is, limit]
  have grows : o.Grows (9223372036854775808 : UInt64).toNat := by
    refine ⟨?_, ?_, ?_⟩
    · rw [is, half]
      dsimp only
      omega
    · rw [capacity, size, half]
      omega
    · rw [size, half, max]
      omega
  have large : 2 ^ 63 ≤ o.size + (9223372036854775808 : UInt64).toNat := by
    rw [size, half]
    omega
  refine ⟨_, o, reached, there, ?_, prepare_shifts reached.sound there grows large, ?_⟩
  · rw [size, max]
    omega
  · rw [preparesWithin_iff reached.sound there _ _ grows.2.2]
    exact not_not.mpr ⟨o, there, grows, large⟩

/-- The operations of a list, one after another. -/
def steps (s : FlatBuffers) : List FlatAct → Except Fault FlatBuffers
  | [] => .ok s
  | a :: l => (s.step a).bind fun t => t.steps l

/-- What the operations of a list leave is reached by them. -/
theorem reached_steps {mem : Nat → UInt8} {l : List FlatAct}
    (reached : Reached (fun _ _ => True) mem s) (done : s.steps l = .ok t) :
    Reached (fun _ _ => True) mem t := by
  -- The induction is on the list, from its front.
  induction l generalizing s with
  | nil =>
    cases done
    exact reached
  | cons a l ih =>
    unfold steps at done
    cases stepped : s.step a with
    | error f =>
      rw [stepped] at done
      cases done
    | ok u =>
      rw [stepped] at done
      exact ih (Run.Reaches.snoc reached trivial stepped) done

end FlatBuffers

end Beast
