import Beast.Zlib.HeapLaws
import Mathlib.Algebra.BigOperators.Group.List.Basic
import Mathlib.Algebra.Order.Ring.Nat
import Mathlib.Tactic.Ring

/-! The bit lengths of the nodes of a tree, and the repair of those that are too long. -/

namespace Beast.Zlib

open Forest

/-- How many bits a symbol has in the static tree, with its extra bits, where there is one. -/
def StaticDesc.staticBits (desc : StaticDesc) (n : Nat) : Nat :=
  match desc.static_tree with
  | none => 0
  | some stree => (stree n).dl + desc.xbits n

/-- What some nodes add up to, of which those behind the last symbol do not count. -/
def leafSum (max_code : Int) (nodes : List Nat) (g : Nat → Nat) : Nat :=
  ((nodes.filter fun x : Nat => (x : Int) ≤ max_code).map g).sum

variable {max_code : Int} {R R' : List Nat} {g g' : Nat → Nat}

@[simp] theorem leafSum_cons (x : Nat) :
    leafSum max_code (x :: R) g = (if (x : Int) ≤ max_code then g x else 0) + leafSum max_code R g := by
  by_cases leaf : (x : Int) ≤ max_code
  · simp [leafSum, leaf]
  · simp [leafSum, leaf]

theorem leafSum_perm (same : R.Perm R') : leafSum max_code R g = leafSum max_code R' g :=
  ((same.filter _).map g).sum_eq

theorem leafSum_congr (same : ∀ x ∈ R, g x = g' x) : leafSum max_code R g = leafSum max_code R g' := by
  rw [leafSum, leafSum, List.map_congr_left fun x member => same x (List.mem_filter.mp member).1]

namespace Builder

/-- How many bits a node gets that is below its father. -/
def bitsOf (desc : StaticDesc) (b : Builder) (x : Nat) : Nat :=
  min desc.max_length ((b.tree (b.tree x).dl).dl + 1)

/-- What setting the bit length of a node does. -/
structure Measures (desc : StaticDesc) (b b' : Builder) (x bits : Nat) : Prop where
  tree : b'.tree = b.tree.setDl x bits
  max_code : b'.max_code = b.max_code
  heap : b'.heap_ = b.heap_
  counts : ∀ l, b'.bl_count_ l =
    if (x : Int) ≤ b.max_code ∧ bits = l then (b.bl_count_ l + 1) % 2 ^ 16 else b.bl_count_ l
  opt_len : b.opt_len_ < 2 ^ 32 → b'.opt_len_ = (b.opt_len_ +
    if (x : Int) ≤ b.max_code then (b.tree x).fc * (bits + desc.xbits x) else 0) % 2 ^ 32
  static_len : b.static_len_ < 2 ^ 32 → b'.static_len_ = (b.static_len_ +
    if (x : Int) ≤ b.max_code then (b.tree x).fc * desc.staticBits x else 0) % 2 ^ 32

theorem measure_spec (desc : StaticDesc) (b : Builder) (overflow x : Nat) :
    ∃ b', measure desc (b, overflow) x = (b', overflow +
        if desc.max_length < (b.tree (b.tree x).dl).dl + 1 then 1 else 0) ∧
      Measures desc b b' x (b.bitsOf desc x) := by
  have bits : (if desc.max_length < (b.tree (b.tree x).dl).dl + 1 then
      (desc.max_length, overflow + 1) else ((b.tree (b.tree x).dl).dl + 1, overflow)) =
        (b.bitsOf desc x, overflow + if desc.max_length < (b.tree (b.tree x).dl).dl + 1 then 1 else 0) := by
    rw [bitsOf]
    split
    · rw [Nat.min_eq_left (by omega)]
    · rw [Nat.min_eq_right (by omega)]
      rfl
  rw [measure]
  dsimp only
  rw [bits]
  dsimp only
  split
  · rename_i father
    refine ⟨_, rfl, rfl, rfl, rfl, fun l => ?_, fun small => ?_, fun small => ?_⟩
    · rw [if_neg fun both => absurd both.1 (by omega)]
    · rw [if_neg (by omega)]
      exact (Nat.mod_eq_of_lt small).symm
    · rw [if_neg (by omega)]
      exact (Nat.mod_eq_of_lt small).symm
  · rename_i leaf
    refine ⟨_, rfl, rfl, rfl, rfl, fun l => ?_, fun small => ?_, fun small => ?_⟩
    · dsimp only
      rw [Function.update_apply]
      by_cases same : l = b.bitsOf desc x
      · rw [if_pos same, if_pos ⟨by omega, same.symm⟩, same]
      · rw [if_neg same, if_neg fun both => same both.2.symm]
    · rw [if_pos (by omega)]
      simp only [Tree.setDl_fc]
    · rw [if_pos (by omega), StaticDesc.staticBits]
      cases desc.static_tree with
      | none => exact (Nat.mod_eq_of_lt small).symm
      | some stree => simp only [Tree.setDl_fc]

/-- The bit lengths of the nodes so far, of which the fathers have others below them. -/
structure Measured (desc : StaticDesc) (leaves : List Nat) (start b : Builder) (R : List Nat)
    (links : List (Nat × Nat × Nat)) (half : Nat) : Prop where
  linked : ∀ l ∈ links, (b.tree l.2.1).dl = l.1 ∧ (b.tree l.2.2).dl = l.1
  kraft : (R.map fun x => 2 ^ (desc.max_length - (b.tree x).dl)).sum = 2 ^ desc.max_length + half
  short : ∀ x ∈ R, (b.tree x).dl ≤ desc.max_length
  spare : half = 0 ∨ half < R.countP fun x : Nat => (b.tree x).dl = desc.max_length
  positive : ∀ x ∈ R, (x : Int) ≤ start.max_code → 0 < (b.tree x).dl
  counts : ∀ l, b.bl_count_ l = R.countP fun x : Nat => (x : Int) ≤ start.max_code ∧ (b.tree x).dl = l
  fc : ∀ x, (b.tree x).fc = (start.tree x).fc
  others : ∀ x, x ∉ leaves → x < desc.elems → (b.tree x).dl = (start.tree x).dl
  max_code : b.max_code = start.max_code
  heap : b.heap_ = start.heap_
  opt_len : b.opt_len_ = (start.opt_len_ + leafSum start.max_code R fun x : Nat =>
    (start.tree x).fc * ((b.tree x).dl + desc.xbits x)) % 2 ^ 32
  static_len : b.static_len_ = (start.static_len_ + leafSum start.max_code R fun x : Nat =>
    (start.tree x).fc * desc.staticBits x) % 2 ^ 32

variable {desc : StaticDesc} {leaves rest : List Nat} {start b : Builder}
  {links : List (Nat × Nat × Nat)} {half p m n : Nat}

/-- The order of the nodes does not matter. -/
theorem Measured.perm (measured : Measured desc leaves start b R links half) (same : R.Perm R') :
    Measured desc leaves start b R' links half where
  linked := measured.linked
  kraft := (same.map _).sum_eq.symm.trans measured.kraft
  short x member := measured.short x (same.mem_iff.mpr member)
  spare := by rw [← same.countP_eq]; exact measured.spare
  positive x member := measured.positive x (same.mem_iff.mpr member)
  counts l := by rw [← same.countP_eq]; exact measured.counts l
  fc := measured.fc
  others := measured.others
  max_code := measured.max_code
  heap := measured.heap
  opt_len := by rw [← leafSum_perm same]; exact measured.opt_len
  static_len := by rw [← leafSum_perm same]; exact measured.static_len

/-- Both nodes below a father get a bit more than it has. -/
theorem Measured.pair (measured : Measured desc leaves start b (p :: rest) ((p, m, n) :: links) half)
    (distinct : (m :: n :: rest ++ nodes links).Nodup) (fresh : p ∉ m :: n :: rest ++ nodes links)
    (father : start.max_code < (p : Int)) (some_ : 0 < desc.max_length)
    (few : (m :: n :: rest).length < 2 ^ 16)
    (leaf : ∀ x ∈ [m, n], x < desc.elems → x ∈ leaves) :
    ∃ b' half', [m, n].foldl (measure desc) (b, 2 * half) = (b', 2 * half') ∧
      Measured desc leaves start b' (m :: n :: rest) links half' := by
  obtain ⟨d, father_dl⟩ : ∃ d, (b.tree p).dl = d := ⟨_, rfl⟩
  obtain ⟨bits, least⟩ : ∃ bits, min desc.max_length (d + 1) = bits := ⟨_, rfl⟩
  obtain ⟨excess, overflows⟩ : ∃ excess, (if desc.max_length < d + 1 then 1 else 0) = excess := ⟨_, rfl⟩
  have below := measured.linked (p, m, n) List.mem_cons_self
  have m_ne_n : m ≠ n := fun same => by simp [same] at distinct
  have p_ne : p ≠ m ∧ p ≠ n := by
    simp only [List.mem_append, List.mem_cons, not_or] at fresh
    exact ⟨fresh.1.1, fresh.1.2.1⟩
  obtain ⟨b₁, first, one⟩ := measure_spec desc b (2 * half) m
  have bits₁ : b.bitsOf desc m = bits := by rw [bitsOf, below.1, father_dl, least]
  rw [below.1, father_dl, overflows] at first
  rw [bits₁] at one
  have father₁ : (b₁.tree (b₁.tree n).dl).dl = d := by
    simp [one.tree, m_ne_n.symm, below.2, p_ne.1, father_dl]
  obtain ⟨b₂, second, two⟩ := measure_spec desc b₁ (2 * half + excess) n
  have bits₂ : b₁.bitsOf desc n = bits := by rw [bitsOf, father₁, least]
  rw [father₁, overflows] at second
  rw [bits₂] at two
  -- Both nodes have the same bit length now, and those of all others stay.
  have dl : ∀ y, (b₂.tree y).dl = if y = m ∨ y = n then bits else (b.tree y).dl := by
    intro y
    rw [two.tree, Tree.setDl_dl, one.tree, Tree.setDl_dl]
    by_cases first : y = m
    · simp [first]
    · simp [first]
  have fc : ∀ y, (b₂.tree y).fc = (start.tree y).fc := by
    intro y
    rw [two.tree, Tree.setDl_fc, one.tree, Tree.setDl_fc, measured.fc]
  have max_code₂ : b₁.max_code = start.max_code := one.max_code.trans measured.max_code
  have apart : ∀ y ∈ rest ++ nodes links, ¬(y = m ∨ y = n) := by
    rintro y member (rfl | rfl)
    · exact (List.nodup_cons.mp distinct).1 (List.mem_cons_of_mem n member)
    · exact (List.nodup_cons.mp (List.nodup_cons.mp distinct).2).1 member
  have rest_dl : ∀ y ∈ rest, (b₂.tree y).dl = (b.tree y).dl := by
    intro y member
    rw [dl, if_neg (apart y (List.mem_append_left _ member))]
  have m_dl : (b₂.tree m).dl = bits := by rw [dl, if_pos (.inl rfl)]
  have n_dl : (b₂.tree n).dl = bits := by rw [dl, if_pos (.inr rfl)]
  have d_le : d ≤ desc.max_length := father_dl ▸ measured.short p List.mem_cons_self
  -- Below a father at the limit, the limit is kept, and the two nodes count as one too many.
  have limit : (d < desc.max_length ∧ bits = d + 1 ∧ excess = 0) ∨
      (d = desc.max_length ∧ bits = desc.max_length ∧ excess = 1) := by
    rw [← least, ← overflows]
    rcases Nat.lt_or_ge d desc.max_length with less | full
    · exact .inl ⟨less, Nat.min_eq_right less, if_neg (by omega)⟩
    · exact .inr ⟨by omega, Nat.min_eq_left (by omega), if_pos (by omega)⟩
  have bits_pos : 0 < bits := by omega
  have not_leaf : ¬(p : Int) ≤ start.max_code := by omega
  -- A father at the limit leaves one too many below it, and its bits count the two as overflowing.
  have counted : ∀ l, b.bl_count_ l =
      rest.countP fun x : Nat => (x : Int) ≤ start.max_code ∧ (b₂.tree x).dl = l := by
    intro l
    rw [measured.counts, List.countP_cons_of_neg (by simp [not_leaf])]
    exact List.countP_congr fun x member => by simp [rest_dl x member]
  have rest_few : ∀ l, (rest.countP fun x : Nat =>
      (x : Int) ≤ start.max_code ∧ (b₂.tree x).dl = l) + 2 < 2 ^ 16 := by
    intro l
    refine Nat.lt_of_le_of_lt (Nat.add_le_add_right (List.countP_le_length) 2) ?_
    simpa using few
  have small : b.opt_len_ < 2 ^ 32 ∧ b.static_len_ < 2 ^ 32 := by
    rw [measured.opt_len, measured.static_len]
    exact ⟨Nat.mod_lt _ (by decide), Nat.mod_lt _ (by decide)⟩
  have rest_sum : (leafSum start.max_code rest fun x : Nat => (start.tree x).fc * ((b.tree x).dl + desc.xbits x)) =
      leafSum start.max_code rest fun x : Nat => (start.tree x).fc * ((b₂.tree x).dl + desc.xbits x) :=
    leafSum_congr fun x member => by rw [rest_dl x member]
  refine ⟨b₂, half + excess, ?_, ⟨?_, ?_, ?_, ?_, ?_, ?_, ?_, ?_, ?_, ?_, ?_, ?_⟩⟩
  · rw [List.foldl_cons, List.foldl_cons, List.foldl_nil, first, second]
    refine congrArg _ ?_
    omega
  · intro l member
    have inside : l.2.1 ∈ nodes links ∧ l.2.2 ∈ nodes links :=
      ⟨List.mem_flatMap.mpr ⟨l, member, by simp⟩, List.mem_flatMap.mpr ⟨l, member, by simp⟩⟩
    rw [dl, dl, if_neg (apart _ (List.mem_append_right _ inside.1)),
      if_neg (apart _ (List.mem_append_right _ inside.2))]
    exact measured.linked l (List.mem_cons_of_mem _ member)
  · have before := measured.kraft
    rw [List.map_cons, List.sum_cons, father_dl] at before
    rw [List.map_cons, List.map_cons, List.sum_cons, List.sum_cons, m_dl, n_dl,
      List.map_congr_left fun x member => by rw [rest_dl x member]]
    clear overflows least
    rcases limit with ⟨less, rfl, rfl⟩ | ⟨rfl, rfl, rfl⟩
    · have deeper : desc.max_length - d = desc.max_length - (d + 1) + 1 :=
        (Nat.sub_add_cancel (Nat.sub_pos_of_lt less)).symm
      rw [deeper, Nat.pow_succ] at before
      omega
    · rw [Nat.sub_self] at before ⊢
      omega
  · intro x member
    have bits_le : bits ≤ desc.max_length := by omega
    rcases List.mem_cons.mp member with rfl | others
    · rw [m_dl]
      exact bits_le
    · rcases List.mem_cons.mp others with rfl | among
      · rw [n_dl]
        exact bits_le
      · rw [rest_dl x among]
        exact measured.short x (List.mem_cons_of_mem p among)
  · have before := measured.spare
    have same : (rest.countP fun x : Nat => (b₂.tree x).dl = desc.max_length) =
        rest.countP fun x : Nat => (b.tree x).dl = desc.max_length :=
      List.countP_congr fun x member => by rw [rest_dl x member]
    rw [List.countP_cons, List.countP_cons, same, m_dl, n_dl]
    rw [List.countP_cons, father_dl] at before
    rcases limit with ⟨less, -, rfl⟩ | ⟨full, rfl, rfl⟩
    · rw [if_neg (by simp only [decide_eq_true_eq]; omega)] at before
      omega
    · rw [if_pos (by simp only [decide_eq_true_eq]; omega)] at before
      rw [if_pos (by simp only [decide_eq_true_eq])]
      omega
  · intro x member leaf_
    rcases List.mem_cons.mp member with rfl | others
    · exact m_dl ▸ bits_pos
    · rcases List.mem_cons.mp others with rfl | among
      · exact n_dl ▸ bits_pos
      · rw [rest_dl x among]
        exact measured.positive x (List.mem_cons_of_mem p among) leaf_
  · intro l
    rw [two.counts, one.counts, counted, max_code₂, measured.max_code, List.countP_cons,
      List.countP_cons, m_dl, n_dl]
    have bound := rest_few l
    simp only [decide_eq_true_eq]
    split <;> split <;> omega
  · exact fc
  · intro x out leaf_
    rw [dl, if_neg, measured.others x out leaf_]
    rintro (rfl | rfl)
    · exact out (leaf x (by simp) leaf_)
    · exact out (leaf x (by simp) leaf_)
  · exact two.max_code.trans max_code₂
  · exact two.heap.trans (one.heap.trans measured.heap)
  · have opt₁ := one.opt_len small.1
    rw [two.opt_len (by rw [opt₁]; exact Nat.mod_lt _ (by decide)), opt₁, max_code₂, measured.max_code,
      measured.opt_len, measured.fc, one.tree, Tree.setDl_fc, measured.fc, leafSum_cons, leafSum_cons,
      leafSum_cons, if_neg not_leaf, m_dl, n_dl, rest_sum]
    simp only [Nat.mod_add_mod]
    congr 1
    omega
  · have static₁ := one.static_len small.2
    rw [two.static_len (by rw [static₁]; exact Nat.mod_lt _ (by decide)), static₁, max_code₂,
      measured.max_code, measured.static_len, measured.fc, one.tree, Tree.setDl_fc, measured.fc,
      leafSum_cons, leafSum_cons, leafSum_cons, if_neg not_leaf]
    simp only [Nat.mod_add_mod]
    congr 1
    omega

/-- All bit lengths are set, from the root of the tree down to its leaves. -/
theorem Measured.all (grows : Grows leaves R links) (once : leaves.Nodup)
    (measured : Measured desc leaves start b R links half)
    (fathers : ∀ l ∈ links, desc.elems ≤ l.1) (codes : start.max_code < desc.elems)
    (some_ : 0 < desc.max_length) (few : leaves.length < 2 ^ 16) :
    ∃ b' half', (nodes links).foldl (measure desc) (b, 2 * half) = (b', 2 * half') ∧
      Measured desc leaves start b' leaves [] half' := by
  induction grows generalizing b half with
  | leaves => exact ⟨b, half, rfl, measured⟩
  | perm _ same ih => exact ih (measured.perm same.symm) fathers
  | @join rest links p m n before fresh ih =>
    have roots := before.length
    have old : ∀ l ∈ links, desc.elems ≤ l.1 := fun l inside =>
      fathers l (List.mem_cons_of_mem _ inside)
    have last := fathers _ List.mem_cons_self
    obtain ⟨b₁, half₁, two, measured₁⟩ := measured.pair (before.nodup once) fresh
      (by omega) some_ (by omega) fun x member low =>
        (before.fathers (P := fun y => desc.elems ≤ y) old (by
          simp only [List.mem_cons, List.not_mem_nil, or_false] at member
          simp only [List.mem_append, List.mem_cons]
          tauto)).resolve_right (by omega)
    obtain ⟨b', half', others, measured'⟩ := ih measured₁ old
    refine ⟨b', half', ?_, measured'⟩
    rw [nodes_cons, ← others, ← two]
    rfl

/-- The root of the tree has no bits, before any other bit length is set. -/
theorem Measured.root {root : Nat} (linked : ∀ l ∈ links, (start.tree l.2.1).dl = l.1 ∧
    (start.tree l.2.2).dl = l.1) (fresh : root ∉ nodes links) (father : desc.elems ≤ root)
    (codes : start.max_code < desc.elems)
    (empty : ∀ l, b.bl_count_ l = 0) (tree : b.tree = start.tree.setDl root 0)
    (max_code : b.max_code = start.max_code) (heap : b.heap_ = start.heap_)
    (opt_len : b.opt_len_ = start.opt_len_) (static_len : b.static_len_ = start.static_len_)
    (small : start.opt_len_ < 2 ^ 32 ∧ start.static_len_ < 2 ^ 32) :
    Measured desc leaves start b [root] links 0 := by
  have own : (b.tree root).dl = 0 := by simp [tree]
  refine ⟨fun l member => ?_, ?_, ?_, .inl rfl, ?_, ?_, ?_, ?_, max_code, heap, ?_, ?_⟩
  · have not_first : l.2.1 ≠ root := fun same =>
      fresh (List.mem_flatMap.mpr ⟨l, member, by simp [← same]⟩)
    have not_second : l.2.2 ≠ root := fun same =>
      fresh (List.mem_flatMap.mpr ⟨l, member, by simp [← same]⟩)
    rw [tree, Tree.setDl_dl, Tree.setDl_dl, if_neg not_first, if_neg not_second]
    exact linked l member
  · simp [own]
  · simp [own]
  · simp only [List.mem_singleton, forall_eq]
    omega
  · intro l
    rw [empty, List.countP_cons_of_neg (by simp; omega), List.countP_nil]
  · intro x
    rw [tree, Tree.setDl_fc]
  · intro x _ low
    rw [tree, Tree.setDl_dl, if_neg (by omega)]
  · rw [leafSum_cons, if_neg (by omega), opt_len]
    exact (Nat.mod_eq_of_lt small.1).symm
  · rw [leafSum_cons, if_neg (by omega), static_len]
    exact (Nat.mod_eq_of_lt small.2).symm

end Builder

end Beast.Zlib
