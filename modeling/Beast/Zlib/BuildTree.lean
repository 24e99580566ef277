import Beast.Zlib.GenCodes
import Beast.Zlib.LengthRepair
import Beast.Zlib.TableResults

/-! What making a tree comes to, for all frequencies of its symbols. -/

namespace Beast.Zlib

open Forest Histogram CanonicalCode BitReversal

namespace Builder

variable {desc : StaticDesc} {leaves : List Nat} {start b : Builder} {links : List (Nat × Nat × Nat)}


/-! ## The bit lengths -/

/-- The leaves have bit lengths that make a complete code, and their bits are added to the totals. -/
structure Fitted (desc : StaticDesc) (leaves : List Nat) (start b : Builder) : Prop where
  kraft : (leaves.map fun x => 2 ^ (desc.max_length - (b.tree x).dl)).sum = 2 ^ desc.max_length
  range : ∀ x ∈ leaves, 0 < (b.tree x).dl ∧ (b.tree x).dl ≤ desc.max_length
  counts : ∀ l, b.bl_count_ l = leaves.countP fun x => (b.tree x).dl = l
  fc : ∀ x, (b.tree x).fc = (start.tree x).fc
  others : ∀ x, x ∉ leaves → x < desc.elems → (b.tree x).dl = (start.tree x).dl
  max_code : b.max_code = start.max_code
  opt_len : b.opt_len_ = (start.opt_len_ +
    (leaves.map fun x => (start.tree x).fc * ((b.tree x).dl + desc.xbits x)).sum) % 2 ^ 32
  static_len : b.static_len_ = (start.static_len_ +
    (leaves.map fun x => (start.tree x).fc * desc.staticBits x).sum) % 2 ^ 32

theorem leafSum_all {max_code : Int} (all : ∀ x ∈ leaves, (x : Int) ≤ max_code) (g : Nat → Nat) :
    leafSum max_code leaves g = (leaves.map g).sum := by
  rw [leafSum, List.filter_eq_self.mpr fun x member => by simpa using all x member]

/-- The numbers of leaves of each bit length. -/
theorem Measured.tally {half : Nat} (measured : Measured desc leaves start b leaves [] half)
    (all : ∀ x ∈ leaves, (x : Int) ≤ start.max_code) :
    b.bl_count_ = fun l => leaves.countP fun x => (b.tree x).dl = l := by
  funext l
  rw [measured.counts]
  exact List.countP_congr fun x member => by simp [all x member]

/-- Where too many leaves are at the limit, the repair is what is called for. -/
theorem Measured.overfull {half : Nat} (measured : Measured desc leaves start b leaves [] half)
    (all : ∀ x ∈ leaves, (x : Int) ≤ start.max_code) (few : leaves.length ≤ lCodes)
    (fits : leaves.length ≤ 2 ^ desc.max_length) : Overfull desc.max_length half b.bl_count_ := by
  have tally := measured.tally all
  have weighs : ∀ g : Nat → Nat, weigh desc.max_length g b.bl_count_ =
      (leaves.map fun x => g (b.tree x).dl).sum := fun g => by
    rw [tally, weigh_countP (fun x => (b.tree x).dl) leaves measured.short]
  have total : weigh desc.max_length (fun _ => 1) b.bl_count_ = leaves.length := by
    rw [tally, weigh_one (fun x => (b.tree x).dl) leaves measured.short]
  rw [lCodes] at few
  refine ⟨(weighs _).trans measured.kraft, ?_, by omega, by omega, ?_⟩
  · rw [tally]
    exact measured.spare
  · rw [tally]
    refine List.countP_eq_zero.mpr fun x member => ?_
    have positive := measured.positive x member (all x member)
    simp
    omega

theorem behind_add (heap : Nat → Nat) (h n : Nat) :
    behind heap (h + n) = ((List.range' h n).map heap).reverse ++ behind heap h := by
  induction n with
  | zero => rfl
  | succ n ih =>
    rw [← Nat.add_assoc, behind, ih, List.range'_1_concat, List.map_append, List.reverse_append]
    rfl

/-- The leaves that are too long are made shorter, and others longer. -/
theorem Measured.fitted {half : Nat} (measured : Measured desc leaves start b leaves [] half)
    (all : ∀ x ∈ leaves, (x : Int) ≤ start.max_code) (few : leaves.length ≤ lCodes)
    (fits : leaves.length ≤ 2 ^ desc.max_length) (once : leaves.Nodup) {back : List Nat}
    {front : List Nat} (same : front.Perm leaves)
    (ahead : ((behind b.heap_ HEAP_SIZE).filter fun x : Nat => (x : Int) ≤ b.max_code) = front ++ back)
    (some_ : 0 < half) :
    ∃ c b', repair desc.max_length (2 * half) (2 * half : Nat) b.bl_count_ = some c ∧
      placeAll desc.max_length HEAP_SIZE { b with bl_count_ := c } = some b' ∧
      Fitted desc leaves start b' := by
  have excess := measured.overfull all few fits
  obtain ⟨c, repaired, done, total, longer⟩ := excess.repair some_ (by omega : half ≤ 2 * half)
  have leaves_total : weigh desc.max_length (fun _ => 1) b.bl_count_ = leaves.length := by
    rw [measured.tally all, weigh_one (fun x => (b.tree x).dl) leaves measured.short]
  have counted_all : weigh desc.max_length (fun _ => 1) c = front.length := by
    rw [total, leaves_total, same.length_eq]
  obtain ⟨b', placed, changed, range, counts⟩ := placeAll_spec (b := { b with bl_count_ := c })
    (h := HEAP_SIZE) (same.nodup_iff.mpr once) done.zero counted_all ahead
  have short : ∀ x ∈ leaves, (b'.tree x).dl ≤ desc.max_length := fun x member =>
    (range x (same.mem_iff.mpr member)).2
  have counted : ∀ l, c l = leaves.countP fun x => (b'.tree x).dl = l := by
    intro l
    rcases Nat.lt_or_ge desc.max_length l with behind_ | inside
    · have none : ∀ f : Nat → Nat, (∀ x ∈ leaves, f x ≤ desc.max_length) →
          (leaves.countP fun x => f x = l) = 0 := fun f bounded =>
        List.countP_eq_zero.mpr fun x member => by
          have bound := bounded x member
          simp
          omega
      rw [longer l behind_, measured.tally all, none _ short]
      exact none _ measured.short
    · rw [← same.countP_eq, counts l inside]
  refine ⟨c, b', repaired, placed, ⟨?_, fun x member => range x (same.mem_iff.mpr member), ?_, ?_, ?_,
    ?_, ?_, ?_⟩⟩
  · have kraft := done.kraft
    rw [funext counted, weigh_countP (fun x => (b'.tree x).dl) leaves short, Nat.add_zero] at kraft
    exact kraft
  · intro l
    rw [changed.counts, ← counted]
  · exact fun x => (changed.fc x).trans (measured.fc x)
  · intro x out low
    rw [changed.others x fun member => out (same.mem_iff.mp member), measured.others x out low]
  · exact changed.max_code.trans measured.max_code
  · have sums : ∀ a : Builder, (∀ x, (a.tree x).fc = (start.tree x).fc) →
        (leaves.map fun x => (start.tree x).fc * ((a.tree x).dl + desc.xbits x)).sum =
          a.bitSum front + (leaves.map fun x => (start.tree x).fc * desc.xbits x).sum := fun a fc => by
      rw [bitSum, (same.map _).sum_eq, ← List.sum_map_add]
      exact congrArg _ (List.map_congr_left fun x _ => by rw [fc, Nat.mul_add])
    have before := measured.opt_len
    have small := changed.small (by rw [before]; exact Nat.mod_lt _ (by decide))
    have turned := changed.opt_len
    rw [leafSum_all all, sums b measured.fc] at before
    rw [sums b' fun x => (changed.fc x).trans (measured.fc x)]
    change (b'.opt_len_ + b.bitSum front) % 2 ^ 32 = (b.opt_len_ + b'.bitSum front) % 2 ^ 32 at turned
    omega
  · rw [changed.static_len, measured.static_len, leafSum_all all]

/-- The forest of a single tree, and its root in front of the nodes that were kept. -/
theorem Merging.gen_bitlen (merging : Merging leaves desc.elems start b links) (single : b.heap_len_ = 1)
    (once : leaves.Nodup) (several : 2 ≤ leaves.length) (few : leaves.length ≤ lCodes)
    (fits : leaves.length ≤ 2 ^ desc.max_length) (some_ : 0 < desc.max_length)
    (all : ∀ x ∈ leaves, (x : Int) ≤ b.max_code) (codes : b.max_code < desc.elems)
    (small : b.opt_len_ < 2 ^ 32 ∧ b.static_len_ < 2 ^ 32) :
    ∃ b', (b.keep (b.heap_ kSmallest)).gen_bitlen desc = some b' ∧
      Fitted desc leaves (b.keep (b.heap_ kSmallest)) b' := by
  obtain ⟨root, at_root⟩ : ∃ root, b.heap_ kSmallest = root := ⟨_, rfl⟩
  obtain ⟨kept, is_kept⟩ : ∃ kept, b.keep root = kept := ⟨_, rfl⟩
  have grows : Grows leaves [root] links := by
    have grown := merging.grows
    rw [single, contents_first (Nat.le_refl 1)] at grown
    rw [← at_root]
    exact grown
  have count := grows.length
  have linked : links ≠ [] := fun none => by
    rw [none] at count
    simp at count
    omega
  have size := merging.size
  rw [HEAP_SIZE] at size
  rw [List.length_singleton] at count
  have room : 1 ≤ b.heap_max_ := by
    rw [lCodes] at few size
    omega
  have fathers : ∀ l ∈ links, b.max_code < (l.1 : Int) := fun l member => by
    have behind_ := merging.fathers l member
    omega
  -- The array from the root on holds all nodes of the tree.
  have first : kept.heap_ kept.heap_max_ = root := by
    rw [← is_kept, keep]
    exact Function.update_self _ _ _
  have nodes_ : (List.range' (kept.heap_max_ + 1) (HEAP_SIZE - (kept.heap_max_ + 1))).map kept.heap_ =
      nodes links := by
    have start_ : kept.heap_max_ + 1 = b.heap_max_ := by
      rw [← is_kept, keep]
      exact Nat.sub_add_cancel room
    rw [start_, HEAP_SIZE, (by omega : 2 * lCodes + 1 - b.heap_max_ = 2 * links.length), ← merging.kept]
    refine List.map_congr_left fun i member => ?_
    have inside := (List.mem_range'_1.mp member).1
    rw [← is_kept, keep]
    exact Function.update_of_ne (by omega) _ _
  have root_father : desc.elems ≤ root := by
    obtain ⟨l, member, rfl⟩ := grows.root linked
    exact merging.fathers l member
  have fresh : root ∉ nodes links := (List.nodup_cons.mp (grows.nodup once)).1
  have max_code : kept.max_code = b.max_code := by rw [← is_kept, keep]
  rw [at_root, is_kept]
  have unmeasured : Measured desc leaves kept { kept with
      bl_count_ := fun _ => 0, tree := kept.tree.setDl root 0 } [root] links 0 :=
    .root (by rw [← is_kept]; exact merging.linked) fresh root_father (by rw [max_code]; exact codes)
      (fun _ => rfl) rfl rfl rfl rfl rfl (by rw [← is_kept]; exact small)
  obtain ⟨b₁, half, measured_all, measured⟩ := Measured.all grows once unmeasured
    merging.fathers (by rw [max_code]; exact codes) some_ (by rw [lCodes] at few; omega)
  rw [Nat.mul_zero] at measured_all
  rw [← max_code] at all
  rw [Builder.gen_bitlen]
  dsimp only
  rw [first, nodes_, measured_all]
  dsimp only
  split
  · rename_i none
    obtain rfl : half = 0 := by omega
    refine ⟨b₁, rfl, measured.kraft, fun x member => ⟨measured.positive x member (all x member),
      measured.short x member⟩, fun l => by rw [measured.tally all], measured.fc, measured.others,
      measured.max_code, ?_, ?_⟩
    · rw [measured.opt_len, leafSum_all all]
    · rw [measured.static_len, leafSum_all all]
  · rename_i excess
    have same := grows.perm_filter (P := fun x : Nat => (x : Int) ≤ kept.max_code) once linked
      (fun l member => by rw [max_code]; have far := fathers l member; omega) all
    have ahead : ((behind b₁.heap_ HEAP_SIZE).filter fun x : Nat => (x : Int) ≤ b₁.max_code) =
        ((nodes links).filter fun x : Nat => (x : Int) ≤ kept.max_code).reverse ++
          (behind kept.heap_ (kept.heap_max_ + 1)).filter fun x : Nat => (x : Int) ≤ kept.max_code := by
      have whole : kept.heap_max_ + 1 + (HEAP_SIZE - (kept.heap_max_ + 1)) = HEAP_SIZE := by
        rw [← is_kept, keep, HEAP_SIZE]
        dsimp only
        omega
      have split_ := behind_add kept.heap_ (kept.heap_max_ + 1) (HEAP_SIZE - (kept.heap_max_ + 1))
      rw [whole, nodes_] at split_
      rw [measured.heap, measured.max_code, split_, List.filter_append, List.filter_reverse]
    obtain ⟨c, b', repaired, placed, fitted⟩ := measured.fitted all few fits once
      ((List.reverse_perm _).trans same) ahead (by omega)
    refine ⟨b', ?_, fitted⟩
    rw [repaired]
    exact placed

/-! ## The codes -/

/-- The bit lengths of the symbols, up to the last one that has a code. -/
def lengths (b : Builder) : List Nat := (List.range (b.max_code + 1).toNat).map fun x => (b.tree x).dl

/-- The leaves are the symbols that have codes. -/
structure Coded (desc : StaticDesc) (leaves : List Nat) (b : Builder) : Prop where
  once : leaves.Nodup
  all : ∀ x ∈ leaves, (x : Int) ≤ b.max_code
  none : ∀ x, x ∉ leaves → x < desc.elems → (b.tree x).dl = 0
  last : b.max_code < desc.elems
  range : ∀ x ∈ leaves, 0 < (b.tree x).dl ∧ (b.tree x).dl ≤ desc.max_length
  kraft : (leaves.map fun x => 2 ^ (desc.max_length - (b.tree x).dl)).sum = 2 ^ desc.max_length
  counts : ∀ l, b.bl_count_ l = leaves.countP fun x => (b.tree x).dl = l

theorem len_lengths (b : Builder) (x : Nat) :
    len b.lengths x = if (x : Int) ≤ b.max_code then (b.tree x).dl else 0 := by
  rw [len, lengths, List.getD_eq_getElem?_getD, List.getElem?_map]
  split
  · rw [List.getElem?_range (by omega)]
    rfl
  · rw [List.getElem?_eq_none (by rw [List.length_range]; omega)]
    rfl

theorem Coded.len_eq (coded : Coded desc leaves b) (x : Nat) :
    len b.lengths x = if x ∈ leaves then (b.tree x).dl else 0 := by
  rw [len_lengths]
  by_cases leaf : x ∈ leaves
  · rw [if_pos leaf, if_pos (coded.all x leaf)]
  · rw [if_neg leaf]
    split
    · rename_i low
      have last := coded.last
      exact coded.none x leaf (by omega)
    · rfl

theorem Coded.mem_iff (coded : Coded desc leaves b) {x : Nat} : x ∈ leaves ↔ 0 < len b.lengths x := by
  rw [coded.len_eq]
  constructor
  · intro leaf
    rw [if_pos leaf]
    exact (coded.range x leaf).1
  · intro positive
    by_contra out
    rw [if_neg out] at positive
    omega

theorem Coded.bounded (coded : Coded desc leaves b) : ∀ l ∈ b.lengths, l ≤ desc.max_length := by
  intro l member
  obtain ⟨x, inside, rfl⟩ := List.mem_map.mp member
  have low : (x : Int) ≤ b.max_code := by
    have before := List.mem_range.mp inside
    omega
  by_cases leaf : x ∈ leaves
  · exact (coded.range x leaf).2
  · have last := coded.last
    rw [coded.none x leaf (by omega)]
    exact Nat.zero_le _

/-- The bit lengths make a complete code. -/
theorem Coded.kraft_eq (coded : Coded desc leaves b) : CanonicalCode.kraft b.lengths = 1 := by
  refine (kraft_eq_one coded.bounded).mpr ?_
  have same : (order b.lengths desc.max_length).Perm leaves := by
    refine (List.perm_ext_iff_of_nodup (nodup_order _ _) coded.once).mpr fun x => ?_
    rw [mem_order, coded.mem_iff]
    exact and_iff_left (len_le coded.bounded x)
  rw [← weight_all, weight, (same.map _).sum_eq, ← coded.kraft]
  exact congrArg _ (List.map_congr_left fun x leaf => by rw [coded.len_eq, if_pos leaf])

theorem Coded.complete (coded : Coded desc leaves b) (short : desc.max_length ≤ maxBits) :
    Complete b.lengths b.tree b.bl_count_ where
  dl x inside := by
    rw [lengths, List.length_map, List.length_range] at inside
    rw [len_lengths, if_pos (by omega)]
  bounded l member := Nat.le_trans (coded.bounded l member) short
  zero := by
    rw [coded.counts]
    refine List.countP_eq_zero.mpr fun x leaf => ?_
    have positive := (coded.range x leaf).1
    simp
    omega
  counts l positive := by
    have same : leaves.Perm ((List.range (b.max_code + 1).toNat).filter fun x => (b.tree x).dl ≠ 0) := by
      refine (List.perm_ext_iff_of_nodup coded.once (List.nodup_range.filter _)).mpr fun x => ?_
      rw [coded.mem_iff, len_lengths, List.mem_filter, List.mem_range, decide_eq_true_eq]
      split <;> omega
    rw [coded.counts, same.countP_eq, List.countP_filter, lengths, List.count, List.countP_map]
    refine List.countP_congr fun x _ => ?_
    simp
    omega
  full := (kraft_eq_one fun l member => Nat.le_trans (coded.bounded l member) short).mp coded.kraft_eq

end Builder

end Beast.Zlib
