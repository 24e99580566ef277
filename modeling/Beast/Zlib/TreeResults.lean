import Beast.Zlib.BuildTree

/-! Trees are made for all frequencies of the symbols, and they are valid ones. -/

namespace Beast.Zlib

open Forest CanonicalCode BitReversal

/-- How many bits the symbols of a block have with the codes of a tree, and with their extra bits. -/
def dynamicCost (desc : StaticDesc) (freq tree : Tree) : Nat :=
  ((List.range desc.elems).map fun x => (freq x).fc * ((tree x).dl + desc.xbits x)).sum

/-- How many bits the symbols of a block have with the static codes, where there are any. -/
def staticCost (desc : StaticDesc) (freq : Tree) : Nat :=
  ((List.range desc.elems).map fun x => (freq x).fc * desc.staticBits x).sum

/-- A tree that is valid for the frequencies it was made from. -/
structure ValidTree (desc : StaticDesc) (start b : Builder) : Prop where
  /-- All symbols that have a frequency have a code. -/
  coded : ∀ x < desc.elems, (start.tree x).fc ≠ 0 →
    (x : Int) ≤ b.max_code ∧ 0 < (b.tree x).dl ∧ (b.tree x).dl ≤ desc.max_length
  last : b.max_code < desc.elems
  dl : ∀ x < desc.elems, (b.tree x).dl = len b.lengths x
  bounded : ∀ l ∈ b.lengths, l ≤ desc.max_length
  complete : kraft b.lengths = 1
  canonical : ∀ x, 0 < len b.lengths x → (b.tree x).fc = rev (len b.lengths x) (code b.lengths x)
  prefix_free : ∀ bits x y, Begins b.lengths bits x → Begins b.lengths bits y → x = y
  opt_len : b.opt_len_ = (start.opt_len_ + dynamicCost desc start.tree b.tree) % 2 ^ 32
  static_len : b.static_len_ = (start.static_len_ + staticCost desc start.tree) % 2 ^ 32

/-- What an alphabet has to be like. -/
structure StaticDesc.Sound (desc : StaticDesc) : Prop where
  several : 3 ≤ desc.elems
  few : desc.elems ≤ lCodes
  fits : desc.elems ≤ 2 ^ desc.max_length
  limit : 0 < desc.max_length ∧ desc.max_length ≤ maxBits
  plain : ∀ x ≤ 2, desc.xbits x = 0

theorem sound_of_alphabet {desc : StaticDesc} (alphabet : desc ∈ [l_desc, d_desc, bl_desc]) :
    desc.Sound := by
  simp only [List.mem_cons, List.not_mem_nil, or_false] at alphabet
  rcases alphabet with rfl | rfl | rfl
  · exact ⟨by decide, by decide, by decide, by decide, by decide⟩
  · exact ⟨by decide, by decide, by decide, by decide, by decide⟩
  · exact ⟨by decide, by decide, by decide, by decide, by decide⟩

namespace Builder

variable {desc : StaticDesc} {start b : Builder} {forced : List Nat}

theorem forceCodes_small (desc : StaticDesc) (more : Nat) (small : b.opt_len_ < 2 ^ 32 ∧ b.static_len_ < 2 ^ 32) :
    (forceCodes desc more b).opt_len_ < 2 ^ 32 ∧ (forceCodes desc more b).static_len_ < 2 ^ 32 := by
  induction more generalizing b with
  | zero => exact small
  | succ more ih =>
    refine ih ?_
    rw [forceCode]
    dsimp only
    refine ⟨by omega, ?_⟩
    split
    · exact small.2
    · omega

/-- Only symbols that have a frequency count for a sum over all of them. -/
theorem sum_coded (tree : Tree) (n : Nat) (g : Nat → Nat) :
    ((coded tree n).map fun x => (tree x).fc * g x).sum =
      ((List.range n).map fun x => (tree x).fc * g x).sum := by
  induction n with
  | zero => rfl
  | succ n ih =>
    rw [coded_succ, List.range_succ, List.map_append, List.map_append, List.sum_append, List.sum_append, ih]
    split
    · rfl
    · rename_i none
      simp [not_not.mp none]

/-- What codes that were forced take is what was taken off for them before. -/
theorem Forced.sum (ready : Forced desc start b forced) (g : Nat → Nat) :
    ((coded start.tree desc.elems ++ forced).map fun x => (b.tree x).fc * g x).sum =
      ((List.range desc.elems).map fun x => (start.tree x).fc * g x).sum + (forced.map g).sum := by
  have apart := (List.nodup_append.mp ready.once).2.2
  rw [List.map_append, List.sum_append, ← sum_coded]
  congr 1
  · refine congrArg _ (List.map_congr_left fun x member => ?_)
    rw [ready.fc, if_neg fun among => apart x member x among rfl]
  · refine congrArg _ (List.map_congr_left fun x member => ?_)
    rw [ready.fc, if_pos member, Nat.one_mul]

/-- The heap before nodes are combined, and the leaves of the forest that grows from it. -/
theorem Forced.merging {b' : Builder} (ready : Forced desc start b forced) (moved : Moved b b')
    (full : b.heap_max_ = HEAP_SIZE) :
    Merging (coded start.tree desc.elems ++ forced) desc.elems b' b' [] where
  grows := .perm .leaves (ready.nodes ▸ moved.nodes.symm)
  kept := rfl
  size := moved.heap_max.trans full
  linked := nofun
  below x member := by
    rw [nodes_nil, List.append_nil, moved.nodes.mem_iff, ready.nodes] at member
    have bound := ready.bounds x member
    have last := ready.small
    rw [List.length_nil]
    omega
  fathers := nofun
  fc _ _ := rfl
  dl _ _ := rfl
  max_code := rfl
  opt_len := rfl
  static_len := rfl

/-- Where codes were forced there are two of them all together, of one bit each. -/
theorem Fitted.one_bit {b' : Builder} {x y : Nat} (fitted : Fitted desc [x, y] b b') :
    (b'.tree x).dl = 1 ∧ (b'.tree y).dl = 1 := by
  have kraft := fitted.kraft
  have first := fitted.range x (by simp)
  have second := fitted.range y (by simp)
  simp only [List.map_cons, List.map_nil, List.sum_cons, List.sum_nil, Nat.add_zero] at kraft
  obtain ⟨n, limit⟩ : ∃ n, desc.max_length = n + 1 := ⟨desc.max_length - 1, by omega⟩
  rw [limit, Nat.pow_succ] at kraft
  rw [limit] at first second
  -- No leaf takes more than a half of all texts, so each of the two takes as much.
  have half : ∀ d, 0 < d → d ≤ n + 1 → 2 ^ (n + 1 - d) ≤ 2 ^ n ∧ (2 ^ (n + 1 - d) = 2 ^ n → d = 1) := by
    intro d positive d_le
    refine ⟨Nat.pow_le_pow_right (by decide) (by omega), fun same => ?_⟩
    have equal := Nat.pow_right_injective (Nat.le_refl 2) same
    omega
  have one := half _ first.1 first.2
  have other := half _ second.1 second.2
  exact ⟨one.2 (by omega), other.2 (by omega)⟩

/-- The tree before its codes are generated. -/
structure Grown (desc : StaticDesc) (start b : Builder) (forced : List Nat) : Prop where
  once : (coded start.tree desc.elems ++ forced).Nodup
  coded : Coded desc (coded start.tree desc.elems ++ forced) b
  opt_len : b.opt_len_ = (start.opt_len_ + dynamicCost desc start.tree b.tree) % 2 ^ 32
  static_len : b.static_len_ = (start.static_len_ + staticCost desc start.tree) % 2 ^ 32

/-- The bit lengths of a forest with some forced codes add to the totals what the symbols cost. -/
theorem Forced.grown {kept b' : Builder} (sound : desc.Sound) (ready : Forced desc start b forced)
    (fitted : Fitted desc (Builder.coded start.tree desc.elems ++ forced) kept b')
    (two : forced = [] ∨ (Builder.coded start.tree desc.elems ++ forced).length = 2)
    (max_code : kept.max_code = b.max_code) (fc : ∀ x < desc.elems, (kept.tree x).fc = (b.tree x).fc)
    (dl : ∀ x, x ∉ Builder.coded start.tree desc.elems ++ forced → x < desc.elems →
      (kept.tree x).dl = 0)
    (opt_len : kept.opt_len_ = b.opt_len_) (static_len : kept.static_len_ = b.static_len_) :
    Grown desc start b' forced := by
  have last : b'.max_code = b.max_code := fitted.max_code.trans max_code
  have sums : ∀ g : Nat → Nat, ((Builder.coded start.tree desc.elems ++ forced).map fun x =>
      (kept.tree x).fc * g x).sum =
        ((List.range desc.elems).map fun x => (start.tree x).fc * g x).sum + (forced.map g).sum := by
    intro g
    rw [← ready.sum]
    refine congrArg _ (List.map_congr_left fun x member => ?_)
    have bound := ready.bounds x member
    have below := ready.small
    rw [fc x (by omega)]
  have plain : ∀ x ∈ forced, desc.xbits x = 0 := fun x member =>
    sound.plain x (ready.uncoded x member).2
  refine ⟨ready.once, ⟨ready.once, fun x member => ?_, fun x out low => ?_, ?_, fitted.range,
    fitted.kraft, fitted.counts⟩, ?_, ?_⟩
  · rw [last]
    exact ready.bounds x member
  · rw [fitted.others x out low, dl x out low]
  · rw [last]
    exact ready.small
  · have forced_sum : (forced.map fun x => (b'.tree x).dl + desc.xbits x).sum = forced.length := by
      rcases two with rfl | both
      · rfl
      · obtain ⟨x, y, pair⟩ := List.length_eq_two.mp both
        have one := Fitted.one_bit (pair ▸ fitted)
        have each : ∀ z ∈ forced, (b'.tree z).dl + desc.xbits z = 1 := fun z member => by
          have among : z ∈ [x, y] := pair ▸ List.mem_append_right _ member
          rw [plain z member]
          rcases List.mem_cons.mp among with rfl | other
          · exact one.1
          · rw [List.mem_singleton.mp other]
            exact one.2
        rw [List.map_congr_left each, List.map_const', List.sum_replicate, Nat.nsmul_eq_mul, Nat.mul_one]
    have before := ready.opt_len
    rw [fitted.opt_len, sums, forced_sum, opt_len, dynamicCost]
    omega
  · have before := ready.static_len
    rw [fitted.static_len, sums, static_len, staticCost]
    cases found : desc.static_tree with
    | none =>
      rw [found] at before
      have nothing : desc.staticBits = fun _ => 0 := funext fun x => by rw [StaticDesc.staticBits, found]
      rw [nothing]
      simp [before]
    | some stree =>
      rw [found] at before
      have forced_sum : (forced.map desc.staticBits).sum = (forced.map fun x => (stree x).dl).sum :=
        congrArg _ (List.map_congr_left fun x member => by
          rw [StaticDesc.staticBits, found]
          dsimp only
          rw [plain x member, Nat.add_zero])
      change (b.static_len_ + (_ + (forced.map desc.staticBits).sum)) % 2 ^ 32 = _
      rw [forced_sum]
      dsimp only at before
      omega

/-- The making of a tree does not end before its codes are generated. -/
theorem grown_exists (sound : desc.Sound) (empty : start.heap_len_ = 0) (none : start.max_code = -1)
    (full : start.heap_max_ = HEAP_SIZE) (small : start.opt_len_ < 2 ^ 32 ∧ start.static_len_ < 2 ^ 32) :
    ∃ b forced, (do
      let b := (List.range desc.elems).foldl collect start
      let b := forceCodes desc (2 - b.heap_len_) b
      let b ← heapify (b.heap_len_ / 2) b
      let b ← combineAll b.heap_len_ desc.elems b
      (b.keep (b.heap_ kSmallest)).gen_bitlen desc) = some b ∧ Grown desc start b forced := by
  obtain ⟨b₁, in_heap⟩ : ∃ b₁, (List.range desc.elems).foldl collect start = b₁ := ⟨_, rfl⟩
  have collected := collected_all start empty none desc.elems
  rw [in_heap] at collected
  obtain ⟨b₂, all_forced⟩ : ∃ b₂, forceCodes desc (2 - b₁.heap_len_) b₁ = b₂ := ⟨_, rfl⟩
  have small₂ := forceCodes_small (b := b₁) desc (2 - b₁.heap_len_)
    (by rw [collected.opt_len, collected.static_len]; exact small)
  rw [all_forced] at small₂
  -- There are two leaves at least, and no others than two where some were forced.
  obtain ⟨forced, ready, length, len₂⟩ : ∃ forced, Forced desc start b₂ forced ∧
      forced.length = 2 - b₁.heap_len_ ∧ b₂.heap_len_ = b₁.heap_len_ + (2 - b₁.heap_len_) := by
    rcases Nat.lt_or_ge b₁.heap_len_ 2 with few | enough
    · obtain ⟨forced, ready, length, len₂⟩ := collected.forced.forceCodes
        (by omega : b₁.heap_len_ + (2 - b₁.heap_len_) ≤ 2) sound.several
      rw [all_forced] at ready len₂
      exact ⟨forced, ready, length, len₂⟩
    · rw [Nat.sub_eq_zero_of_le enough] at all_forced ⊢
      exact ⟨[], all_forced ▸ collected.forced, rfl, by rw [← all_forced]; rfl⟩
  have count := congrArg List.length ready.nodes
  rw [length_contents] at count
  obtain ⟨b₃, heaped, moved⟩ := heapify_spec (b := b₂) (n := b₂.heap_len_ / 2) (by omega)
  have merging := ready.merging moved (by rw [ready.heap_max, full])
  have below : ∀ x ∈ coded start.tree desc.elems ++ forced, x < desc.elems := fun x member => by
    have bound := ready.bounds x member
    have last := ready.small
    omega
  have few : (coded start.tree desc.elems ++ forced).length ≤ desc.elems := by
    have inside : coded start.tree desc.elems ++ forced ⊆ List.range desc.elems := fun x member =>
      List.mem_range.mpr (below x member)
    simpa using (ready.once.subperm inside).length_le
  obtain ⟨b₄, links, combined, merged, single⟩ := merging.combineAll
    (Nat.le_trans few sound.few) ready.once (by rw [moved.heap_len]; omega) (Nat.le_refl _)
  obtain ⟨b₅, made, fitted⟩ := merged.gen_bitlen single ready.once (by omega)
    (Nat.le_trans few sound.few) (Nat.le_trans few sound.fits) sound.limit.1
    (by rw [merged.max_code, moved.max_code]; exact ready.bounds)
    (by rw [merged.max_code, moved.max_code]; exact ready.small)
    (by rw [merged.opt_len, merged.static_len, moved.opt_len, moved.static_len]; exact small₂)
  refine ⟨b₅, forced, ?_, ready.grown sound fitted ?_ ?_ ?_ ?_ ?_ ?_⟩
  · dsimp only
    rw [in_heap, all_forced, heaped]
    change (combineAll b₃.heap_len_ desc.elems b₃).bind _ = _
    change Builder.combineAll b₃.heap_len_ desc.elems b₃ = some b₄ at combined
    rw [combined]
    exact made
  · rcases Nat.lt_or_ge b₁.heap_len_ 2 with less | enough
    · exact .inr (by omega)
    · exact .inl (List.length_eq_zero_iff.mp (by omega))
  · exact merged.max_code.trans moved.max_code
  · intro x inside
    change (b₄.tree x).fc = _
    rw [merged.fc x inside, moved.tree]
  · intro x out low
    have not_node : x ∉ nodes links := fun member => by
      rcases merged.grows.fathers (P := fun y => desc.elems ≤ y) merged.fathers
        (List.mem_append_right _ member) with leaf | father
      · exact out leaf
      · omega
    change (b₄.tree x).dl = 0
    rw [merged.dl x not_node, moved.tree]
    exact ready.dl x low fun among => out (List.mem_append_left _ among)
  · exact merged.opt_len.trans moved.opt_len
  · exact merged.static_len.trans moved.static_len

/-- A tree is made, and a valid one. -/
theorem build_tree_spec (sound : desc.Sound) (small : start.opt_len_ < 2 ^ 32 ∧ start.static_len_ < 2 ^ 32) :
    ∃ b, start.build_tree desc = some b ∧ ValidTree desc start b := by
  obtain ⟨b, forced, made, grown⟩ := @grown_exists desc { start with
    heap_len_ := 0, heap_max_ := HEAP_SIZE, max_code := -1 } sound rfl rfl rfl small
  have complete := grown.coded.complete sound.limit.2
  obtain ⟨tree, generated, codes⟩ := @Complete.gen_codes _ _ _ complete b.max_code (by simp [lengths])
  obtain ⟨b', with_codes⟩ : ∃ b' : Builder, { b with tree } = b' := ⟨_, rfl⟩
  have tree' : b'.tree = tree := by rw [← with_codes]
  have lengths' : b'.lengths = b.lengths := by
    rw [← with_codes, lengths, lengths]
    exact List.map_congr_left fun x _ => (codes x).1
  have max_code' : b'.max_code = b.max_code := by rw [← with_codes]
  have bounded := grown.coded.bounded
  refine ⟨b', ?_, ⟨?_, ?_, ?_, ?_, ?_, ?_, ?_, ?_, ?_⟩⟩
  · have rest := congrArg (fun made => made >>= fun b => do
      let tree ← gen_codes b.tree b.max_code b.bl_count_
      return { b with tree }) made
    simp only [Option.bind_eq_bind, Option.bind_assoc, Option.bind_some, generated, with_codes] at rest
    exact rest
  · intro x inside frequent
    have leaf : x ∈ Builder.coded start.tree desc.elems ++ forced :=
      List.mem_append_left _ (List.mem_filter.mpr ⟨List.mem_range.mpr inside, by simpa using frequent⟩)
    rw [max_code', tree', (codes x).1]
    exact ⟨grown.coded.all x leaf, grown.coded.range x leaf⟩
  · rw [max_code']
    exact grown.coded.last
  · intro x inside
    rw [lengths', tree', (codes x).1, grown.coded.len_eq]
    by_cases leaf : x ∈ Builder.coded start.tree desc.elems ++ forced
    · rw [if_pos leaf]
    · rw [if_neg leaf, grown.coded.none x leaf inside]
  · rw [lengths']
    exact bounded
  · rw [lengths']
    exact grown.coded.kraft_eq
  · intro x positive
    rw [lengths'] at positive ⊢
    rw [tree', (codes x).2, if_pos positive]
  · intro bits x y first second
    rw [lengths'] at first second
    exact first.unique complete.bounded second
  · have total := grown.opt_len
    have same : dynamicCost desc start.tree b'.tree = dynamicCost desc start.tree b.tree :=
      congrArg List.sum (List.map_congr_left fun x _ => by rw [tree', (codes x).1])
    rw [same, ← with_codes]
    exact total
  · rw [← with_codes]
    exact grown.static_len

end Builder

/-- For all frequencies of each of the three alphabets a valid tree is made, and the totals grow by
what its symbols cost. -/
theorem build_tree_valid {desc : StaticDesc} (alphabet : desc ∈ [l_desc, d_desc, bl_desc])
    (start : Builder) (small : start.opt_len_ < 2 ^ 32 ∧ start.static_len_ < 2 ^ 32) :
    ∃ b, start.build_tree desc = some b ∧ ValidTree desc start b :=
  Builder.build_tree_spec (sound_of_alphabet alphabet) small

/-- A block with a single distance symbol, for which another code is forced. -/
theorem build_tree_valid_single :
    ∃ b, Builder.build_tree d_desc ⟨fun n => ⟨if n = 3 then 5 else 0, 0⟩, 0, fun _ => 0, 0, 0,
        fun _ => 0, fun _ => 0, 0, 0⟩ = some b ∧
      ValidTree d_desc ⟨fun n => ⟨if n = 3 then 5 else 0, 0⟩, 0, fun _ => 0, 0, 0,
        fun _ => 0, fun _ => 0, 0, 0⟩ b :=
  build_tree_valid (List.mem_cons_of_mem _ List.mem_cons_self) _ ⟨by decide, by decide⟩

end Beast.Zlib
