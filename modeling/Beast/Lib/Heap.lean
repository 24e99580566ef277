import Mathlib.Data.List.Pairwise
import Mathlib.Data.List.Perm.Basic
import Mathlib.Tactic.Common

/-! Memory of octets, and the blocks of it that are handed out and taken back. -/

/-- A block of memory, and the allocator that it comes from. -/
structure Block where
  start : Nat
  size : Nat
  arena : Nat
  deriving DecidableEq, Repr

/-- The address behind the last octet of a block. -/
def Block.finish (b : Block) : Nat := b.start + b.size

/-- Two blocks share no address. -/
def Block.Apart (b c : Block) : Prop := b.finish ≤ c.start ∨ c.finish ≤ b.start

instance (b c : Block) : Decidable (b.Apart c) := inferInstanceAs (Decidable (_ ∨ _))

theorem Block.Apart.symm {b c : Block} (apart : b.Apart c) : c.Apart b := Or.symm apart

/--
Memory, and the blocks that are handed out.

Each block belongs to someone, who got it from its allocator or was given it. Blocks lie apart, and
what was ever handed out is what was taken back and what is still out.
-/
structure Heap where
  mem : Nat → UInt8
  live : List (Nat × Block)
  allocated : List Block
  freed : List Block
  placed : ∀ e ∈ live, 0 < e.2.start ∧ 0 < e.2.size
  apart : live.Pairwise fun e f => e.2.Apart f.2
  balanced : allocated.Perm (freed ++ live.map (·.2))

namespace Heap

/-- Memory of which nothing is handed out. -/
def empty (mem : Nat → UInt8) : Heap where
  mem
  live := []
  allocated := []
  freed := []
  placed := nofun
  apart := .nil
  balanced := .refl _

/-- A block may be handed out. -/
def Fresh (h : Heap) (b : Block) : Prop :=
  0 < b.start ∧ 0 < b.size ∧ ∀ e ∈ h.live, b.Apart e.2

instance (h : Heap) (b : Block) : Decidable (h.Fresh b) :=
  inferInstanceAs (Decidable (_ ∧ _ ∧ _))

/-- Hands out a block at a place that an allocator found for it, if it found one. -/
def allocate (h : Heap) (owner arena size : Nat) : Option Nat → Option (Nat × Heap)
  | none => none
  | some a =>
    if fresh : h.Fresh ⟨a, size, arena⟩ then
      some (a, { h with
        live := (owner, ⟨a, size, arena⟩) :: h.live
        allocated := ⟨a, size, arena⟩ :: h.allocated
        placed := by
          intro e there
          rcases List.mem_cons.mp there with rfl | old
          · exact ⟨fresh.1, fresh.2.1⟩
          · exact h.placed e old
        apart := .cons (fun e there => fresh.2.2 e there) h.apart
        balanced := (h.balanced.cons _).trans List.perm_middle.symm })
    else none

/-- Takes back a block that is handed out, with its very size, by the allocator that it is from. -/
def free (h : Heap) (b : Block) : Option Heap :=
  if there : b ∈ h.live.map (·.2) then
    some { h with
      live := h.live.eraseP fun e => e.2 = b
      freed := b :: h.freed
      placed := fun e left => h.placed e (List.mem_of_mem_eraseP left)
      apart := h.apart.sublist List.eraseP_sublist
      balanced := by
        have taken : (h.live.map (·.2)).Perm (b :: (h.live.eraseP fun e => e.2 = b).map (·.2)) := by
          have erased : (h.live.eraseP fun e => e.2 = b).map (·.2) = (h.live.map (·.2)).erase b := by
            rw [List.erase_eq_eraseP', List.eraseP_map]
            rfl
          rw [erased]
          exact List.perm_cons_erase there
        exact h.balanced.trans ((taken.append_left _).trans List.perm_middle) }
  else none

/-- Some addresses lie in one block that is handed out. -/
def Holds (h : Heap) (a n : Nat) : Prop := ∃ e ∈ h.live, e.2.start ≤ a ∧ a + n ≤ e.2.finish

instance (h : Heap) (a n : Nat) : Decidable (h.Holds a n) :=
  inferInstanceAs (Decidable (∃ e ∈ h.live, _))

/-- The octets at some addresses. -/
def octetsAt (h : Heap) (a n : Nat) : List UInt8 := (List.range n).map fun i => h.mem (a + i)

/-- Copies octets, also where the two places overlap. -/
def memmove (h : Heap) (dst src n : Nat) : Option Heap :=
  if h.Holds dst n ∧ h.Holds src n then
    some { h with mem := fun a => if dst ≤ a ∧ a < dst + n then h.mem (src + (a - dst)) else h.mem a }
  else none

/-- Copies octets to a place that does not overlap theirs. -/
def memcpy (h : Heap) (dst src n : Nat) : Option Heap :=
  if dst + n ≤ src ∨ src + n ≤ dst then h.memmove dst src n else none

/-- Writes octets. -/
def store (h : Heap) (a : Nat) (s : List UInt8) : Option Heap :=
  if s = [] ∨ h.Holds a s.length then
    some { h with mem := fun b => if a ≤ b then s.getD (b - a) (h.mem b) else h.mem b }
  else none

/-- Gives everything that belongs to one owner to another one. -/
def give (h : Heap) (src dst : Nat) : Heap where
  mem := h.mem
  live := h.live.map fun e => (if e.1 = src then dst else e.1, e.2)
  allocated := h.allocated
  freed := h.freed
  placed := by
    intro e there
    obtain ⟨e', there', rfl⟩ := List.mem_map.mp there
    exact h.placed e' there'
  apart := List.pairwise_map.mpr h.apart
  balanced := by
    rw [List.map_map]
    exact h.balanced

/-- The blocks of an owner that are out. -/
def ownedBy (h : Heap) (owner : Nat) : List Block :=
  (h.live.filter fun e => e.1 = owner).map (·.2)

/-- A block belongs to an owner where it is out under that owner's name. -/
theorem mem_ownedBy {h : Heap} {owner : Nat} {b : Block} :
    b ∈ h.ownedBy owner ↔ (owner, b) ∈ h.live := by
  simp only [ownedBy, List.mem_map, List.mem_filter, decide_eq_true_eq]
  constructor
  · rintro ⟨e, ⟨there, rfl⟩, rfl⟩
    exact there
  · intro there
    exact ⟨(owner, b), ⟨there, rfl⟩, rfl⟩

/-- A block is out once. -/
theorem once {h : Heap} : h.live.Pairwise fun e f => e.2 ≠ f.2 := by
  -- Blocks that lie apart differ, since none of them is empty.
  refine h.apart.imp_of_mem ?_
  intro e f there _ apart same
  have size := (h.placed e there).2
  rw [← same] at apart
  unfold Block.Apart Block.finish at apart
  omega

/-- A block belongs to one owner. -/
theorem owner_unique {h : Heap} {i j : Nat} {b : Block} (one : b ∈ h.ownedBy i)
    (other : b ∈ h.ownedBy j) : i = j := by
  rw [mem_ownedBy] at one other
  by_contra different
  have apart : ∀ e ∈ h.live, ∀ f ∈ h.live, e ≠ f → e.2 ≠ f.2 := by
    intro e there f there' distinct
    have : Std.Symm fun e f : Nat × Block => e.2 ≠ f.2 := ⟨fun _ _ differ => differ.symm⟩
    exact h.once.forall there there' distinct
  exact apart _ one _ other (fun same => different (congrArg Prod.fst same)) rfl

/-- What is known of a block that was handed out. -/
theorem allocate_some {h h' : Heap} {owner arena size a : Nat} {place : Option Nat}
    (given : h.allocate owner arena size place = some (a, h')) :
    h.Fresh ⟨a, size, arena⟩ ∧ h'.mem = h.mem ∧
      h'.ownedBy owner = ⟨a, size, arena⟩ :: h.ownedBy owner ∧
      ∀ j, j ≠ owner → h'.ownedBy j = h.ownedBy j := by
  cases place with
  | none => cases given
  | some a' =>
    -- A place that is not free is refused as well.
    by_cases fresh : h.Fresh ⟨a', size, arena⟩
    · rw [allocate, dif_pos fresh, Option.some.injEq, Prod.mk.injEq] at given
      obtain ⟨rfl, rfl⟩ := given
      refine ⟨fresh, rfl, by simp [ownedBy], fun j other => ?_⟩
      simp [ownedBy, Ne.symm other]
    · rw [allocate, dif_neg fresh] at given
      cases given

/-- Where each block is out once, to take one out is to keep the others. -/
theorem eraseP_once {l : List (Nat × Block)} (single : l.Pairwise fun e f => e.2 ≠ f.2)
    (b : Block) : (l.eraseP fun e => e.2 = b) = l.filter fun e => e.2 ≠ b := by
  induction single with
  | nil => rfl
  | @cons e l apart _ ih =>
    by_cases same : e.2 = b
    · -- The first one is taken out, and none of the others is the same block.
      have rest : ∀ f ∈ l, f.2 ≠ b := fun f there => same ▸ (apart f there).symm
      rw [List.eraseP_cons_of_pos (by simpa using same), List.filter_cons_of_neg (by simp [same])]
      exact (List.filter_eq_self.mpr fun f there => by simpa using rest f there).symm
    · rw [List.eraseP_cons_of_neg (by simpa using same), ih,
        List.filter_cons_of_pos (by simpa using same)]

/-- What an owner has is taken back, and nothing else. -/
theorem free_owned {h : Heap} {i : Nat} {b : Block} (owned : b ∈ h.ownedBy i) :
    ∃ h', h.free b = some h' ∧ h'.mem = h.mem ∧
      h'.ownedBy i = (h.ownedBy i).filter (fun c => c ≠ b) ∧
      ∀ j, j ≠ i → h'.ownedBy j = h.ownedBy j := by
  have there : b ∈ h.live.map (·.2) := List.mem_map.mpr ⟨(i, b), mem_ownedBy.mp owned, rfl⟩
  have kept (j : Nat) : ((h.live.eraseP fun e => e.2 = b).filter fun e => e.1 = j).map (·.2) =
      (h.ownedBy j).filter fun c => c ≠ b := by
    rw [eraseP_once h.once, ownedBy, List.filter_map, List.filter_filter, List.filter_filter]
    congr 1
    refine List.filter_congr fun e _ => ?_
    simp [Bool.and_comm]
  refine ⟨_, dif_pos there, rfl, kept i, fun j other => ?_⟩
  -- Nothing of another owner is the block that was taken back.
  refine (kept j).trans (List.filter_eq_self.mpr fun c mine => ?_)
  have different : c ≠ b := by
    rintro rfl
    exact other (owner_unique mine owned)
  simpa using different

/-- Addresses in a block that an owner has. -/
theorem holds_of_owned {h : Heap} {i a n : Nat} {b : Block} (owned : b ∈ h.ownedBy i)
    (low : b.start ≤ a) (high : a + n ≤ b.finish) : h.Holds a n :=
  ⟨(i, b), mem_ownedBy.mp owned, low, high⟩

@[simp] theorem octetsAt_length (h : Heap) (a n : Nat) : (h.octetsAt a n).length = n := by
  simp [octetsAt]

/-- Octets that are the same in two memories. -/
theorem octetsAt_congr {h h' : Heap} {a a' n : Nat}
    (same : ∀ i < n, h'.mem (a' + i) = h.mem (a + i)) : h'.octetsAt a' n = h.octetsAt a n := by
  unfold octetsAt
  refine List.map_congr_left fun i inside => ?_
  exact same i (List.mem_range.mp inside)

/-- What is copied is found where it was copied to. -/
theorem memmove_held {h : Heap} {dst src n : Nat} (there : h.Holds dst n) (here : h.Holds src n) :
    ∃ h', h.memmove dst src n = some h' ∧ (∀ j, h'.ownedBy j = h.ownedBy j) ∧
      h'.octetsAt dst n = h.octetsAt src n := by
  refine ⟨_, if_pos ⟨there, here⟩, fun j => rfl, octetsAt_congr fun i inside => ?_⟩
  show (if dst ≤ dst + i ∧ dst + i < dst + n then _ else _) = _
  rw [if_pos (by omega), Nat.add_sub_cancel_left]

/-- What is copied to another place is found there. -/
theorem memcpy_held {h : Heap} {dst src n : Nat} (there : h.Holds dst n) (here : h.Holds src n)
    (apart : dst + n ≤ src ∨ src + n ≤ dst) :
    ∃ h', h.memcpy dst src n = some h' ∧ (∀ j, h'.ownedBy j = h.ownedBy j) ∧
      h'.octetsAt dst n = h.octetsAt src n := by
  rw [memcpy, if_pos apart]
  exact memmove_held there here

/-- What is written leaves the blocks to their owners. -/
theorem store_owned {h : Heap} {a : Nat} {s : List UInt8} (there : s = [] ∨ h.Holds a s.length) :
    ∃ h', h.store a s = some h' ∧ ∀ j, h'.ownedBy j = h.ownedBy j :=
  ⟨_, if_pos there, fun _ => rfl⟩

/-- What belonged to an owner belongs to the one that it was given to. -/
theorem give_to {h : Heap} {src dst : Nat} {b : Block} (given : b ∈ h.ownedBy src) :
    b ∈ (h.give src dst).ownedBy dst := by
  rw [mem_ownedBy] at given ⊢
  exact List.mem_map.mpr ⟨(src, b), given, by simp⟩

/-- The one that had nothing has just what it was given. -/
theorem give_all {h : Heap} {src dst : Nat} (nothing : h.ownedBy dst = []) :
    (h.give src dst).ownedBy dst = h.ownedBy src := by
  -- Nothing was out under the name that everything goes to.
  have none : ∀ e ∈ h.live, e.1 ≠ dst := by
    rintro ⟨i, b⟩ there rfl
    have owned := mem_ownedBy.mpr there
    rw [nothing] at owned
    cases owned
  simp only [ownedBy, give, List.filter_map, List.map_map]
  rw [List.filter_congr (q := fun e => e.1 = src)]
  · rfl
  · intro e there
    by_cases mine : e.1 = src
    · simp [mine]
    · simp [mine, none e there]

/-- The one that gave has nothing left. -/
theorem give_from {h : Heap} {src dst : Nat} (other : src ≠ dst) :
    (h.give src dst).ownedBy src = [] := by
  refine List.eq_nil_iff_forall_not_mem.mpr fun b owned => ?_
  obtain ⟨e, -, moved⟩ := List.mem_map.mp (mem_ownedBy.mp owned)
  by_cases mine : e.1 = src
  · rw [if_pos mine] at moved
    exact other (congrArg Prod.fst moved).symm
  · rw [if_neg mine] at moved
    exact mine (congrArg Prod.fst moved)

/-- The others have what they had. -/
theorem give_others {h : Heap} {src dst j : Nat} (from_ : j ≠ src) (to_ : j ≠ dst) :
    (h.give src dst).ownedBy j = h.ownedBy j := by
  simp only [ownedBy, give, List.filter_map, List.map_map]
  rw [List.filter_congr (q := fun e => e.1 = j)]
  · rfl
  · intro e there
    by_cases mine : e.1 = src
    · simp [mine, Ne.symm from_, Ne.symm to_]
    · simp [mine]

end Heap
