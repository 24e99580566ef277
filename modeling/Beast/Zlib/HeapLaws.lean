import Beast.Lib.Forest
import Beast.Zlib.DeflateTrees
import Mathlib.Data.List.Perm.Subperm
import Mathlib.Logic.Equiv.Basic

/-! The heap of a tree, and the forest that grows while its nodes are combined. -/

namespace Beast.Zlib

open Forest

@[simp] theorem Tree.setFc_fc (tree : Tree) (n fc m : Nat) :
    (tree.setFc n fc m).fc = if m = n then fc else (tree m).fc := by
  unfold Tree.setFc
  split <;> rfl

@[simp] theorem Tree.setFc_dl (tree : Tree) (n fc m : Nat) : (tree.setFc n fc m).dl = (tree m).dl := by
  unfold Tree.setFc
  split <;> rfl

@[simp] theorem Tree.setDl_dl (tree : Tree) (n dl m : Nat) :
    (tree.setDl n dl m).dl = if m = n then dl else (tree m).dl := by
  unfold Tree.setDl
  split <;> rfl

@[simp] theorem Tree.setDl_fc (tree : Tree) (n dl m : Nat) : (tree.setDl n dl m).fc = (tree m).fc := by
  unfold Tree.setDl
  split <;> rfl

/-- The nodes in the first places of a heap. -/
def contents (heap : Nat → Nat) (len : Nat) : List Nat := (List.range' 1 len).map heap

variable {heap : Nat → Nat} {len k v : Nat}

@[simp] theorem length_contents (heap : Nat → Nat) (len : Nat) : (contents heap len).length = len := by
  simp [contents]

/-- Two places of a heap are exchanged. -/
theorem contents_exchange {j : Nat} (first : 1 ≤ k ∧ k ≤ len) (second : 1 ≤ j ∧ j ≤ len) (other : j ≠ k) :
    (contents (Function.update (Function.update heap k (heap j)) j v) len).Perm
      (contents (Function.update heap k v) len) := by
  have swapped : Function.update (Function.update heap k (heap j)) j v =
      Function.update heap k v ∘ Equiv.swap k j := by
    funext i
    rw [Function.comp_apply]
    rcases eq_or_ne i j with rfl | not_j
    · simp
    · rcases eq_or_ne i k with rfl | not_k
      · simp [not_j, other]
      · rw [Equiv.swap_apply_of_ne_of_ne not_k not_j]
        simp [not_j, not_k]
  have places : ((List.range' 1 len).map (Equiv.swap k j)).Perm (List.range' 1 len) := by
    refine (List.perm_ext_iff_of_nodup ?_ List.nodup_range').mpr fun i => ?_
    · exact (List.nodup_map_iff (Equiv.injective _)).mpr List.nodup_range'
    · simp only [List.mem_map, List.mem_range'_1]
      constructor
      · rintro ⟨i, inside, rfl⟩
        rw [Equiv.swap_apply_def]
        split
        · omega
        · split <;> omega
      · intro inside
        refine ⟨Equiv.swap k j i, ?_, Equiv.swap_apply_self k j i⟩
        rw [Equiv.swap_apply_def]
        split
        · omega
        · split <;> omega
  rw [swapped, contents, ← List.map_map]
  exact places.map _

theorem contents_first (some_ : 1 ≤ len) :
    contents heap len = heap 1 :: (List.range' 2 (len - 1)).map heap := by
  obtain ⟨len, rfl⟩ := Nat.exists_eq_add_of_le some_
  rw [contents, Nat.add_comm, List.range'_succ, List.map_cons, Nat.add_sub_cancel]

/-- The last node takes the place of the first one, which is removed. -/
theorem contents_remove (some_ : 1 ≤ len) :
    (contents heap len).Perm
      (heap 1 :: contents (Function.update heap 1 (heap len)) (len - 1)) := by
  rw [contents_first some_]
  refine List.Perm.cons _ ?_
  rcases Nat.eq_or_lt_of_le some_ with rfl | more
  · exact .rfl
  · have others : (List.range' 2 (len - 1 - 1)).map (Function.update heap 1 (heap len)) =
        (List.range' 2 (len - 1 - 1)).map heap := by
      refine List.map_congr_left fun i member => Function.update_of_ne ?_ _ _
      have inside := (List.mem_range'_1.mp member).1
      omega
    have last : List.range' 2 (len - 1) = List.range' 2 (len - 1 - 1) ++ [len] := by
      have joined := List.range'_append_1 (s := 2) (m := len - 1 - 1) (n := 1)
      rw [(by omega : len - 1 - 1 + 1 = len - 1)] at joined
      rw [← joined]
      congr 1
      simp
      omega
    rw [contents_first (by omega), Function.update_self, others, last, List.map_append]
    exact List.perm_append_comm

/-- A place outside of the heap is written. -/
theorem contents_update_outside {i : Nat} (out : len < i ∨ i = 0) (x : Nat) :
    contents (Function.update heap i x) len = contents heap len := by
  refine List.map_congr_left fun p member => Function.update_of_ne ?_ _ _
  have inside := List.mem_range'_1.mp member
  omega

theorem contents_congr {heap' : Nat → Nat} (same : ∀ i, 1 ≤ i → i ≤ len → heap' i = heap i) :
    contents heap' len = contents heap len := by
  refine List.map_congr_left fun p member => same p ?_ ?_
  · exact (List.mem_range'_1.mp member).1
  · have inside := (List.mem_range'_1.mp member).2
    omega

namespace Builder

variable {b : Builder}

/-- A node that moves down leaves the same nodes in the heap, and nothing else is changed. -/
theorem sift_spec {fuel : Nat} (inside : 1 ≤ k ∧ k ≤ b.heap_len_) (enough : b.heap_len_ < k + fuel)
    (heap : Nat → Nat) :
    ∃ heap', b.sift v fuel k heap = some heap' ∧
      (contents heap' b.heap_len_).Perm (contents (Function.update heap k v) b.heap_len_) ∧
      ∀ i, b.heap_len_ < i ∨ i = 0 → heap' i = heap i := by
  have outside : ∀ x, ∀ i, b.heap_len_ < i ∨ i = 0 → Function.update heap k x i = heap i := by
    intro x i out
    rw [Function.update_of_ne (by omega)]
  induction fuel generalizing k heap with
  | zero => omega
  | succ fuel ih =>
    rw [sift]
    dsimp only
    split
    · -- The son to compare with is a place of the heap, behind this one.
      obtain ⟨j, son, behind⟩ : ∃ j, (if (decide (2 * k < b.heap_len_) &&
          b.smaller (heap (2 * k + 1)) (heap (2 * k))) = true then 2 * k + 1 else 2 * k) = j ∧
          k < j ∧ j ≤ b.heap_len_ := by
        refine ⟨_, rfl, ?_⟩
        split
        · rename_i both
          have less := (Bool.and_eq_true_iff.mp both).1
          rw [decide_eq_true_eq] at less
          omega
        · omega
      rw [son]
      split
      · exact ⟨_, rfl, .rfl, outside v⟩
      · obtain ⟨heap', moved, same, kept⟩ := ih ⟨by omega, behind.2⟩ (by omega)
          (Function.update heap k (heap j)) fun x i out => by rw [Function.update_of_ne (by omega)]
        refine ⟨heap', moved, same.trans ?_, fun i out => ?_⟩
        · exact contents_exchange inside ⟨by omega, behind.2⟩ (by omega)
        · rw [kept i out, outside _ i out]
    · exact ⟨_, rfl, .rfl, outside v⟩

/-- What moving nodes in the heap leaves alone. -/
structure Moved (b b' : Builder) : Prop where
  tree : b'.tree = b.tree
  max_code : b'.max_code = b.max_code
  heap_len : b'.heap_len_ = b.heap_len_
  heap_max : b'.heap_max_ = b.heap_max_
  opt_len : b'.opt_len_ = b.opt_len_
  static_len : b'.static_len_ = b.static_len_
  nodes : (contents b'.heap_ b'.heap_len_).Perm (contents b.heap_ b.heap_len_)
  others : ∀ i, b.heap_len_ < i ∨ i = 0 → b'.heap_ i = b.heap_ i

theorem pqdownheap_spec (inside : 1 ≤ k ∧ k ≤ b.heap_len_) :
    ∃ b', b.pqdownheap k = some b' ∧ Moved b b' := by
  obtain ⟨heap', sifted, same, others⟩ :=
    b.sift_spec (v := b.heap_ k) inside (by omega : b.heap_len_ < k + (b.heap_len_ + 1)) b.heap_
  rw [Function.update_eq_self] at same
  refine ⟨{ b with heap_ := heap' }, ?_, rfl, rfl, rfl, rfl, rfl, rfl, same, others⟩
  rw [pqdownheap, sifted]
  rfl

/-- The least frequent node is removed from the heap. -/
theorem pqremove_spec (several : 2 ≤ b.heap_len_) :
    ∃ b', b.pqremove = some (b.heap_ 1, b') ∧ b'.heap_len_ = b.heap_len_ - 1 ∧
      b'.tree = b.tree ∧ b'.max_code = b.max_code ∧ b'.heap_max_ = b.heap_max_ ∧
      b'.opt_len_ = b.opt_len_ ∧ b'.static_len_ = b.static_len_ ∧
      (contents b.heap_ b.heap_len_).Perm (b.heap_ 1 :: contents b'.heap_ b'.heap_len_) ∧
      ∀ i, b.heap_len_ ≤ i → b'.heap_ i = b.heap_ i := by
  obtain ⟨b', made, moved⟩ := pqdownheap_spec (k := 1) (b := { b with
    heap_ := Function.update b.heap_ 1 (b.heap_ b.heap_len_), heap_len_ := b.heap_len_ - 1 })
    ⟨Nat.le_refl 1, by dsimp only; omega⟩
  refine ⟨b', ?_, moved.heap_len, moved.tree, moved.max_code, moved.heap_max, moved.opt_len,
    moved.static_len, ?_, fun i far => ?_⟩
  · rw [pqremove]
    simp only [kSmallest, made]
    rfl
  · exact (contents_remove (by omega)).trans (List.Perm.cons _ moved.nodes.symm)
  · rw [moved.others i (.inl (by dsimp only; omega))]
    exact Function.update_of_ne (by omega) _ _

/-- The forest that has grown while nodes were combined, and where its nodes are. -/
structure Merging (leaves : List Nat) (elems : Nat) (start b : Builder)
    (links : List (Nat × Nat × Nat)) : Prop where
  grows : Grows leaves (contents b.heap_ b.heap_len_) links
  kept : (List.range' b.heap_max_ (2 * links.length)).map b.heap_ = nodes links
  size : b.heap_max_ + 2 * links.length = HEAP_SIZE
  linked : ∀ l ∈ links, (b.tree l.2.1).dl = l.1 ∧ (b.tree l.2.2).dl = l.1
  below : ∀ x ∈ contents b.heap_ b.heap_len_ ++ nodes links, x < elems + links.length
  fathers : ∀ l ∈ links, elems ≤ l.1
  fc : ∀ x < elems, (b.tree x).fc = (start.tree x).fc
  dl : ∀ x, x ∉ nodes links → (b.tree x).dl = (start.tree x).dl
  max_code : b.max_code = start.max_code
  opt_len : b.opt_len_ = start.opt_len_
  static_len : b.static_len_ = start.static_len_

variable {leaves : List Nat} {elems : Nat} {start : Builder} {links : List (Nat × Nat × Nat)}

/-- Two nodes are combined: a new one takes their place in the heap. -/
theorem Merging.combine (merging : Merging leaves elems start b links) (few : leaves.length ≤ lCodes)
    (once : leaves.Nodup) (several : 2 ≤ b.heap_len_) :
    ∃ b' l, b.combine (elems + links.length) = some b' ∧ Merging leaves elems start b' (l :: links) ∧
      b'.heap_len_ + 1 = b.heap_len_ := by
  have total := merging.grows.length
  rw [length_contents] at total
  have size := merging.size
  simp only [HEAP_SIZE, lCodes] at size few
  obtain ⟨b₁, removed, len₁, tree₁, max_code₁, max₁, opt₁, static₁, nodes₁, kept₁⟩ :=
    b.pqremove_spec several
  obtain ⟨n, first⟩ : ∃ n, b.heap_ 1 = n := ⟨_, rfl⟩
  obtain ⟨m, second⟩ : ∃ m, b₁.heap_ 1 = m := ⟨_, rfl⟩
  obtain ⟨rest, others⟩ : ∃ rest, (List.range' 2 (b₁.heap_len_ - 1)).map b₁.heap_ = rest := ⟨_, rfl⟩
  have roots : contents b₁.heap_ b₁.heap_len_ = m :: rest := by
    rw [contents_first (by omega), second, others]
  rw [first, roots] at nodes₁
  obtain ⟨node, fresh⟩ : ∃ node, elems + links.length = node := ⟨_, rfl⟩
  -- The builder with the new node in the first place of the heap, before it is moved down.
  obtain ⟨b₂, put⟩ : ∃ b₂ : Builder, b₂ = { b₁ with
      tree := ((b₁.tree.setFc node (((b₁.tree n).fc + (b₁.tree m).fc) % 2 ^ 16)).setDl m node).setDl n node
      depth_ := Function.update b₁.depth_ node ((max (b₁.depth_ n) (b₁.depth_ m) + 1) % 2 ^ 8)
      heap_max_ := b₁.heap_max_ - 1 - 1
      heap_ := Function.update (Function.update (Function.update b₁.heap_ (b₁.heap_max_ - 1) n)
        (b₁.heap_max_ - 1 - 1) m) 1 node } := ⟨_, rfl⟩
  obtain ⟨b', made, moved⟩ := pqdownheap_spec (k := 1) (b := b₂)
    ⟨Nat.le_refl 1, by rw [put]; dsimp only; omega⟩
  have max₂ : b'.heap_max_ = b.heap_max_ - 1 - 1 := by rw [moved.heap_max, put, max₁]
  have len₂ : b₂.heap_len_ = b₁.heap_len_ := by rw [put]
  have tree₂ : b'.tree = ((b.tree.setFc node (((b.tree n).fc + (b.tree m).fc) % 2 ^ 16)).setDl m
      node).setDl n node := by
    rw [moved.tree, put, tree₁]
  -- Behind the heap there are the two nodes, in front of those that were kept before.
  have kept₂ : ∀ i, b.heap_max_ ≤ i → b'.heap_ i = b.heap_ i := by
    intro i from_
    rw [moved.others i (.inl (by omega)), put]
    dsimp only
    rw [max₁, Function.update_of_ne (by omega), Function.update_of_ne (by omega),
      Function.update_of_ne (by omega), kept₁ i (by omega)]
  have left : b'.heap_ (b.heap_max_ - 2) = m := by
    rw [moved.others _ (.inl (by omega)), put]
    dsimp only
    rw [max₁, Function.update_of_ne (by omega), (by omega : b.heap_max_ - 2 = b.heap_max_ - 1 - 1),
      Function.update_self]
  have right : b'.heap_ (b.heap_max_ - 1) = n := by
    rw [moved.others _ (.inl (by omega)), put]
    dsimp only
    rw [max₁, Function.update_of_ne (by omega), Function.update_of_ne (by omega), Function.update_self]
  have nodes₂ : contents b₂.heap_ b₂.heap_len_ = node :: rest := by
    rw [contents_first (by omega), len₂, put]
    dsimp only
    rw [Function.update_self, ← others]
    refine congrArg _ (List.map_congr_left fun i member => ?_)
    have inside := List.mem_range'_1.mp member
    rw [max₁, Function.update_of_ne (by omega), Function.update_of_ne (by omega),
      Function.update_of_ne (by omega)]
  have roots₂ : (contents b'.heap_ b'.heap_len_).Perm (node :: rest) := nodes₂ ▸ moved.nodes
  have before : Grows leaves (m :: n :: rest) links :=
    .perm merging.grows (nodes₁.trans (List.Perm.swap m n rest))
  have all : ∀ x ∈ m :: n :: rest ++ nodes links, x < node := by
    intro x member
    rw [← fresh]
    refine merging.below x ?_
    exact ((nodes₁.trans (List.Perm.swap m n rest)).append_right _).mem_iff.mpr member
  have distinct := before.nodup once
  refine ⟨b', (node, m, n), ?_, ⟨?_, ?_, ?_, ?_, ?_, ?_, ?_, ?_, ?_, ?_, ?_⟩, ?_⟩
  · rw [Builder.combine, removed, first, fresh]
    rw [put, ← second] at made
    exact made
  · refine .perm (.join before fun member => ?_) roots₂.symm
    exact Nat.lt_irrefl node (all node member)
  · rw [max₂, List.length_cons, (by omega : 2 * (links.length + 1) = 2 * links.length + 1 + 1),
      List.range'_succ, List.range'_succ, List.map_cons, List.map_cons, nodes_cons,
      (by omega : b.heap_max_ - 1 - 1 = b.heap_max_ - 2), left,
      (by omega : b.heap_max_ - 2 + 1 = b.heap_max_ - 1), right,
      (by omega : b.heap_max_ - 1 + 1 = b.heap_max_), ← merging.kept]
    refine congrArg _ (congrArg _ (List.map_congr_left fun i member => kept₂ i ?_))
    exact (List.mem_range'_1.mp member).1
  · rw [max₂, List.length_cons, HEAP_SIZE, lCodes]
    omega
  · -- The fathers of other nodes stay as they are.
    intro l member
    have others₂ : ∀ x ∈ nodes links, (b'.tree x).dl = (b.tree x).dl := by
      intro x inside
      have apart := (List.nodup_append.mp distinct).2.2
      have not_m : x ≠ m := fun same => apart m List.mem_cons_self x inside same.symm
      have not_n : x ≠ n := fun same =>
        apart n (List.mem_cons_of_mem m List.mem_cons_self) x inside same.symm
      rw [tree₂, Tree.setDl_dl, if_neg not_n, Tree.setDl_dl, if_neg not_m, Tree.setFc_dl]
    rcases List.mem_cons.mp member with rfl | old
    · rw [tree₂]
      simp
    · have below : l.2.1 ∈ nodes links ∧ l.2.2 ∈ nodes links :=
        ⟨List.mem_flatMap.mpr ⟨l, old, by simp⟩, List.mem_flatMap.mpr ⟨l, old, by simp⟩⟩
      rw [others₂ _ below.1, others₂ _ below.2]
      exact merging.linked l old
  · intro x member
    rw [List.length_cons, ← Nat.add_assoc, fresh]
    rw [List.mem_append, roots₂.mem_iff] at member
    simp only [nodes_cons, List.mem_cons, List.mem_append] at member all
    have less := all x
    rcases member with (rfl | among) | rfl | rfl | old
    · omega
    all_goals exact Nat.lt_succ_of_lt (less (by simp [*]))
  · intro l member
    rcases List.mem_cons.mp member with rfl | old
    · dsimp only
      omega
    · exact merging.fathers l old
  · intro x small
    rw [tree₂, Tree.setDl_fc, Tree.setDl_fc, Tree.setFc_fc, if_neg (by omega), merging.fc x small]
  · intro x out
    simp only [nodes_cons, List.mem_cons, not_or] at out
    rw [tree₂, Tree.setDl_dl, if_neg out.2.1, Tree.setDl_dl, if_neg out.1, Tree.setFc_dl,
      merging.dl x out.2.2]
  · rw [moved.max_code, put, max_code₁, merging.max_code]
  · rw [moved.opt_len, put, opt₁, merging.opt_len]
  · rw [moved.static_len, put, static₁, merging.static_len]
  · rw [moved.heap_len, len₂, len₁]
    omega

/-- Nodes are combined until a single one is left. -/
theorem Merging.combineAll {fuel : Nat} (merging : Merging leaves elems start b links)
    (few : leaves.length ≤ lCodes) (once : leaves.Nodup) (several : 2 ≤ b.heap_len_)
    (enough : b.heap_len_ ≤ fuel) :
    ∃ b' links', Builder.combineAll fuel (elems + links.length) b = some b' ∧
      Merging leaves elems start b' links' ∧ b'.heap_len_ = 1 := by
  -- Each turn leaves one node less in the heap.
  induction fuel generalizing b links with
  | zero => omega
  | succ fuel ih =>
    obtain ⟨b₁, l, combined, merging₁, less⟩ := merging.combine few once several
    rw [Builder.combineAll, combined]
    dsimp only [bind, Option.bind]
    split
    · rename_i more
      have made := ih merging₁ more (by omega)
      rw [List.length_cons, ← Nat.add_assoc] at made
      exact made
    · exact ⟨b₁, l :: links, rfl, merging₁, by omega⟩

theorem Moved.refl (b : Builder) : Moved b b :=
  ⟨rfl, rfl, rfl, rfl, rfl, rfl, .rfl, fun _ _ => rfl⟩

theorem Moved.trans {b₁ b₂ : Builder} (first : Moved b b₁) (second : Moved b₁ b₂) : Moved b b₂ where
  tree := second.tree.trans first.tree
  max_code := second.max_code.trans first.max_code
  heap_len := second.heap_len.trans first.heap_len
  heap_max := second.heap_max.trans first.heap_max
  opt_len := second.opt_len.trans first.opt_len
  static_len := second.static_len.trans first.static_len
  nodes := second.nodes.trans first.nodes
  others i out := (second.others i (first.heap_len ▸ out)).trans (first.others i out)

/-- The nodes are moved to where they belong, which leaves the same nodes in the heap. -/
theorem heapify_spec {n : Nat} (inside : n ≤ b.heap_len_) :
    ∃ b', heapify n b = some b' ∧ Moved b b' := by
  induction n generalizing b with
  | zero => exact ⟨b, rfl, .refl b⟩
  | succ n ih =>
    obtain ⟨b₁, made, moved⟩ := pqdownheap_spec (b := b) ⟨Nat.le_add_left 1 n, inside⟩
    obtain ⟨b₂, rest, moved₂⟩ := ih (b := b₁) (by rw [moved.heap_len]; omega)
    refine ⟨b₂, ?_, moved.trans moved₂⟩
    rw [heapify, made]
    exact rest

/-! ## The first nodes of the heap -/

/-- The symbols that have a frequency, of the first so many. -/
def coded (tree : Tree) (n : Nat) : List Nat := (List.range n).filter fun s => (tree s).fc ≠ 0

/-- The heap while the symbols are put into it. -/
structure Collected (start b : Builder) (n : Nat) : Prop where
  nodes : contents b.heap_ b.heap_len_ = coded start.tree n
  fc : ∀ x, (b.tree x).fc = (start.tree x).fc
  dl : ∀ x < n, x ∉ coded start.tree n → (b.tree x).dl = 0
  bounds : ∀ x ∈ coded start.tree n, (x : Int) ≤ b.max_code
  last : b.max_code = -1 ∧ coded start.tree n = [] ∨ ∃ x ∈ coded start.tree n, b.max_code = x
  heap_max : b.heap_max_ = start.heap_max_
  opt_len : b.opt_len_ = start.opt_len_
  static_len : b.static_len_ = start.static_len_

theorem coded_succ (tree : Tree) (n : Nat) :
    coded tree (n + 1) = coded tree n ++ if (tree n).fc ≠ 0 then [n] else [] := by
  rw [coded, List.range_succ, List.filter_append, ← coded]
  congr 1
  by_cases some_ : (tree n).fc ≠ 0
  · rw [if_pos some_, List.filter_cons_of_pos (by simpa using some_), List.filter_nil]
  · rw [if_neg some_, List.filter_cons_of_neg (by simpa using some_), List.filter_nil]

theorem coded_lt {tree : Tree} {n x : Nat} (member : x ∈ coded tree n) : x < n :=
  List.mem_range.mp (List.mem_filter.mp member).1

/-- The next symbol is put into the heap, or has no code. -/
theorem Collected.collect {n : Nat} (collected : Collected start b n) :
    Collected start (b.collect n) (n + 1) := by
  have own := collected.fc n
  by_cases some_ : (start.tree n).fc ≠ 0
  · have grown : coded start.tree (n + 1) = coded start.tree n ++ [n] := by
      rw [coded_succ, if_pos some_]
    rw [Builder.collect, if_pos (by rw [own]; exact some_)]
    refine ⟨?_, collected.fc, ?_, ?_, ?_, collected.heap_max, collected.opt_len, collected.static_len⟩
    · dsimp only
      rw [grown, ← collected.nodes, contents, List.range'_1_concat, List.map_append]
      congr 1
      · exact contents_update_outside (.inl (Nat.lt_succ_self _)) n
      · simp [Nat.add_comm]
    · intro x less out
      rw [grown, List.mem_append, List.mem_singleton, not_or] at out
      exact collected.dl x (by omega) out.1
    · intro x member
      rcases List.mem_append.mp (grown ▸ member) with before | same
      · have small := coded_lt before
        dsimp only
        omega
      · have here := List.mem_singleton.mp same
        dsimp only
        omega
    · exact .inr ⟨n, by rw [grown]; simp, rfl⟩
  · have same : coded start.tree (n + 1) = coded start.tree n := by
      rw [coded_succ, if_neg some_, List.append_nil]
    rw [Builder.collect, if_neg (by rw [own]; exact some_)]
    refine ⟨?_, fun x => ?_, ?_, ?_, ?_, collected.heap_max, collected.opt_len, collected.static_len⟩
    · rw [same]
      exact collected.nodes
    · rw [Tree.setDl_fc, collected.fc]
    · intro x less out
      rw [Tree.setDl_dl]
      split
      · rfl
      · exact collected.dl x (by omega) (same ▸ out)
    · rw [same]
      exact collected.bounds
    · rw [same]
      exact collected.last

theorem collected_all (start : Builder) (empty : start.heap_len_ = 0) (none : start.max_code = -1)
    (n : Nat) : Collected start ((List.range n).foldl Builder.collect start) n := by
  induction n with
  | zero =>
    refine ⟨?_, fun _ => rfl, nofun, nofun, .inl ⟨none, rfl⟩, rfl, rfl, rfl⟩
    rw [List.range_zero, List.foldl_nil, empty]
    rfl
  | succ n ih =>
    rw [List.range_succ, List.foldl_append, List.foldl_cons, List.foldl_nil]
    exact ih.collect

/-- The heap with all symbols that have a frequency, and some that were forced into it. -/
structure Forced (desc : StaticDesc) (start b : Builder) (forced : List Nat) : Prop where
  nodes : contents b.heap_ b.heap_len_ = coded start.tree desc.elems ++ forced
  once : (coded start.tree desc.elems ++ forced).Nodup
  uncoded : ∀ x ∈ forced, (start.tree x).fc = 0 ∧ x ≤ 2
  fc : ∀ x, (b.tree x).fc = if x ∈ forced then 1 else (start.tree x).fc
  dl : ∀ x < desc.elems, x ∉ coded start.tree desc.elems → (b.tree x).dl = 0
  bounds : ∀ x ∈ coded start.tree desc.elems ++ forced, (x : Int) ≤ b.max_code
  last : b.max_code = -1 ∧ coded start.tree desc.elems ++ forced = [] ∨
    ∃ x ∈ coded start.tree desc.elems ++ forced, b.max_code = x
  small : b.max_code < desc.elems
  heap_max : b.heap_max_ = start.heap_max_
  opt_len : (b.opt_len_ + forced.length) % 2 ^ 32 = start.opt_len_ % 2 ^ 32
  static_len : match desc.static_tree with
    | none => b.static_len_ = start.static_len_
    | some stree =>
      (b.static_len_ + (forced.map fun x => (stree x).dl).sum) % 2 ^ 32 = start.static_len_ % 2 ^ 32

theorem coded_nodup (tree : Tree) (n : Nat) : (coded tree n).Nodup := List.nodup_range.filter _

theorem Collected.forced {desc : StaticDesc} (collected : Collected start b desc.elems) :
    Forced desc start b [] := by
  refine ⟨?_, ?_, nofun, ?_, collected.dl, ?_, ?_, ?_, collected.heap_max, ?_, ?_⟩
  · rw [List.append_nil, collected.nodes]
  · rw [List.append_nil]
    exact coded_nodup _ _
  · exact fun x => by simpa using collected.fc x
  · rw [List.append_nil]
    exact collected.bounds
  · rw [List.append_nil]
    exact collected.last
  · rcases collected.last with ⟨none, -⟩ | ⟨x, member, same⟩
    · omega
    · have less := coded_lt member
      omega
  · rw [collected.opt_len]
    rfl
  · cases desc.static_tree with
    | none => exact collected.static_len
    | some stree => simp [collected.static_len]

/-- Another code is forced, for a symbol that has no frequency. -/
theorem Forced.forceCode {desc : StaticDesc} {forced : List Nat} (ready : Forced desc start b forced)
    (few : b.heap_len_ < 2) (several : 3 ≤ desc.elems) :
    ∃ node, Forced desc start (b.forceCode desc) (forced ++ [node]) ∧
      (b.forceCode desc).heap_len_ = b.heap_len_ + 1 := by
  have size := congrArg List.length ready.nodes
  rw [length_contents] at size
  obtain ⟨node, chosen⟩ : ∃ node, (if b.max_code < 2 then
    (if b.max_code < 2 then b.max_code + 1 else b.max_code).toNat else 0) = node := ⟨_, rfl⟩
  -- The symbol is one of the first three, and it has no code so far.
  have fresh : node ≤ 2 ∧ node ∉ coded start.tree desc.elems ++ forced := by
    rcases ready.last with ⟨none, empty⟩ | ⟨x, member, same⟩
    · rw [empty, ← chosen, none]
      decide
    · by_cases low : b.max_code < 2
      · rw [if_pos low, if_pos low] at chosen
        refine ⟨by omega, fun among => ?_⟩
        have bound := ready.bounds node among
        omega
      · rw [if_neg low] at chosen
        refine ⟨by omega, fun among => ?_⟩
        have two : 2 ≤ (coded start.tree desc.elems ++ forced).length := by
          have distinct : x ≠ node := by omega
          have both : [x, node] ⊆ coded start.tree desc.elems ++ forced := by simp [member, among]
          simpa using (List.Nodup.subperm (by simpa using distinct) both).length_le
        omega
  have zero : (start.tree node).fc = 0 := by
    by_contra some_
    exact fresh.2 (List.mem_append_left _ (List.mem_filter.mpr
      ⟨List.mem_range.mpr (by omega), by simpa using some_⟩))
  refine ⟨node, ⟨?_, ?_, ?_, ?_, ?_, ?_, ?_, ?_, ready.heap_max, ?_, ?_⟩, rfl⟩
  · rw [Builder.forceCode, chosen, ← List.append_assoc, ← ready.nodes]
    dsimp only
    rw [contents, List.range'_1_concat, List.map_append]
    congr 1
    · exact contents_update_outside (.inl (Nat.lt_succ_self _)) node
    · simp [Nat.add_comm]
  · rw [← List.append_assoc]
    exact List.nodup_append.mpr ⟨ready.once, by simp, fun x member y single => by
      rw [List.mem_singleton.mp single]
      exact fun same => fresh.2 (same ▸ member)⟩
  · intro x member
    rcases List.mem_append.mp member with before | same
    · exact ready.uncoded x before
    · rw [List.mem_singleton.mp same]
      exact ⟨zero, fresh.1⟩
  · intro x
    rw [Builder.forceCode, chosen]
    simp only [Tree.setFc_fc, ready.fc, List.mem_append, List.mem_singleton]
    by_cases same : x = node
    · simp [same]
    · simp [same]
  · intro x less out
    rw [Builder.forceCode, chosen]
    simp only [Tree.setFc_dl]
    exact ready.dl x less out
  · intro x member
    have larger : b.max_code ≤ (b.forceCode desc).max_code ∧ (node : Int) ≤ (b.forceCode desc).max_code := by
      rw [Builder.forceCode]
      dsimp only
      have bound : -1 ≤ b.max_code := by
        rcases ready.last with ⟨none, -⟩ | ⟨y, -, same⟩ <;> omega
      split at chosen <;> omega
    rw [← List.append_assoc] at member
    rcases List.mem_append.mp member with before | same
    · exact Int.le_trans (ready.bounds x before) larger.1
    · rw [List.mem_singleton.mp same]
      exact larger.2
  · refine .inr ?_
    rw [Builder.forceCode]
    dsimp only
    rcases ready.last with ⟨none, -⟩ | ⟨y, member, same⟩
    · refine ⟨node, by simp, ?_⟩
      rw [none] at chosen ⊢
      rw [← chosen]
      rfl
    · by_cases low : b.max_code < 2
      · refine ⟨node, by simp, ?_⟩
        rw [if_pos low, if_pos low] at chosen
        rw [if_pos low]
        omega
      · refine ⟨y, ?_, by rw [if_neg low, same]⟩
        rw [← List.append_assoc]
        exact List.mem_append_left _ member
  · rw [Builder.forceCode]
    dsimp only
    have less := ready.small
    split <;> omega
  · rw [Builder.forceCode]
    dsimp only
    have before := ready.opt_len
    rw [List.length_append, List.length_singleton]
    omega
  · rw [Builder.forceCode, chosen]
    dsimp only
    have before := ready.static_len
    cases found : desc.static_tree with
    | none =>
      rw [found] at before
      exact before
    | some stree =>
      rw [found] at before
      simp only [List.map_append, List.sum_append, List.map_cons, List.map_nil, List.sum_cons,
        List.sum_nil, Nat.add_zero]
      omega

/-- Codes are forced until there are two. -/
theorem Forced.forceCodes {desc : StaticDesc} {more : Nat} {forced : List Nat}
    (ready : Forced desc start b forced) (few : b.heap_len_ + more ≤ 2) (several : 3 ≤ desc.elems) :
    ∃ forced', Forced desc start (Builder.forceCodes desc more b) (forced ++ forced') ∧
      forced'.length = more ∧ (Builder.forceCodes desc more b).heap_len_ = b.heap_len_ + more := by
  induction more generalizing b forced with
  | zero => exact ⟨[], by rw [List.append_nil]; exact ready, rfl, rfl⟩
  | succ more ih =>
    obtain ⟨node, ready₁, len₁⟩ := ready.forceCode (by omega) several
    obtain ⟨forced', ready', length, len'⟩ := ih ready₁ (by omega)
    refine ⟨node :: forced', ?_, by rw [List.length_cons, length], ?_⟩
    · rw [List.append_assoc] at ready'
      exact ready'
    · rw [Builder.forceCodes, len', len₁]
      omega

end Builder

end Beast.Zlib
