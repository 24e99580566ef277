import Beast.Lib.Histogram
import Beast.Lib.LeafDepths
import Beast.Zlib.TableResults
import Mathlib

/-! The tables of a complete code are small against the number of its words, so that there is space for those of every
block. -/

namespace Beast.Zlib

open CanonicalCode

variable {lens : List Nat} {root p q s t : Nat} {front back : List Nat}

/-! ## The words that lead to one sub-table -/

/-- Where the word of a symbol is looked up: with the first bits alone, or in the sub-table behind them. -/
def lookupKey (lens : List Nat) (root s : Nat) : Nat :=
  if len lens s ≤ root then 0 else code lens s / 2 ^ (len lens s - root) + 1

theorem lookupKey_eq_succ :
    lookupKey lens root s = p + 1 ↔ root < len lens s ∧ code lens s / 2 ^ (len lens s - root) = p := by
  rw [lookupKey]
  split <;> omega

theorem behindRoot_eq (lens : List Nat) (root p : Nat) :
    behindRoot lens root p = (order lens 15).filter fun s => lookupKey lens root s = p + 1 := by
  rw [behindRoot]
  refine List.filter_congr fun s _ => ?_
  rw [decide_eq_decide]
  exact lookupKey_eq_succ.symm

theorem mem_behindRoot : s ∈ behindRoot lens root p ↔ s ∈ order lens 15 ∧ lookupKey lens root s = p + 1 := by
  rw [behindRoot_eq, List.mem_filter, decide_eq_true_eq]

/-- The first bits of a longer word are the number of whole sub-tables that the words before it take. -/
theorem key_of_long (ordered : order lens 15 = front ++ s :: back) (long : root < len lens s) :
    lookupKey lens root s = weight lens 15 front / 2 ^ (15 - root) + 1 := by
  have inside := mem_order.mp (ordered ▸ List.mem_append_right front List.mem_cons_self)
  have starts : Starts lens (weight lens 15 front) s := by
    rw [Starts, ← code_mul ordered, Nat.mul_div_cancel _ (Nat.two_pow_pos _)]
  rw [lookupKey, if_neg (by omega), starts_div starts inside.2 (Nat.le_of_lt long)]

/-- Words are looked up in their order. -/
theorem key_mono (ordered : order lens 15 = front ++ s :: back) (behind : t ∈ back) :
    lookupKey lens root s ≤ lookupKey lens root t := by
  have sorted := pairwise_order lens 15
  rw [ordered] at sorted
  have longer := (List.pairwise_cons.mp (List.pairwise_append.mp sorted).2.1).1 t behind
  by_cases long : root < len lens s
  · obtain ⟨left, right, rfl⟩ := List.append_of_mem behind
    have placed : order lens 15 = (front ++ s :: left) ++ t :: right := by rw [ordered]; simp
    rw [key_of_long ordered long, key_of_long placed (by omega), weight_append]
    exact Nat.succ_le_succ (Nat.div_le_div_right (Nat.le_add_right _ _))
  · rw [lookupKey, if_pos (by omega)]
    exact Nat.zero_le _

/-- Elements with a key that grows are first those with less than some key, then those with it, and then those with more. -/
theorem split_key {α : Type*} (key : α → Nat) (c : Nat) {xs : List α} (sorted : xs.Pairwise fun x y => key x ≤ key y) :
    xs = xs.filter (key · < c) ++ (xs.filter (key · = c) ++ xs.filter (c < key ·)) := by
  induction xs with
  | nil => rfl
  | cons x xs ih =>
    obtain ⟨first, rest⟩ := List.pairwise_cons.mp sorted
    rcases Nat.lt_trichotomy (key x) c with less | same | more
    · rw [List.filter_cons_of_pos (by simpa using less), List.filter_cons_of_neg (by simp; omega),
        List.filter_cons_of_neg (by simp; omega), List.cons_append, ← ih rest]
    · have none : xs.filter (key · < c) = [] := List.filter_eq_nil_iff.mpr fun y member => by
        have grown := first y member
        simp
        omega
      rw [none, List.nil_append] at ih
      rw [List.filter_cons_of_neg (by simp; omega), List.filter_cons_of_pos (by simpa using same),
        List.filter_cons_of_neg (by simp; omega), none, List.nil_append, List.cons_append, ← ih rest]
    · have none : xs.filter (key · < c) = [] := List.filter_eq_nil_iff.mpr fun y member => by
        have grown := first y member
        simp
        omega
      have none' : xs.filter (key · = c) = [] := List.filter_eq_nil_iff.mpr fun y member => by
        have grown := first y member
        simp
        omega
      rw [none, none', List.nil_append, List.nil_append] at ih
      rw [List.filter_cons_of_neg (by simp; omega), List.filter_cons_of_neg (by simp; omega),
        List.filter_cons_of_pos (by simpa using more), none, none', List.nil_append, List.nil_append, ← ih rest]

theorem pairwise_key (lens : List Nat) (root : Nat) :
    (order lens 15).Pairwise fun s t => lookupKey lens root s ≤ lookupKey lens root t := by
  have from_ : ∀ rest front, order lens 15 = front ++ rest →
      rest.Pairwise fun s t => lookupKey lens root s ≤ lookupKey lens root t := by
    intro rest
    induction rest with
    | nil => exact fun _ _ => List.Pairwise.nil
    | cons s rest ih =>
      exact fun front ordered => List.pairwise_cons.mpr
        ⟨fun t member => key_mono ordered member, ih (front ++ [s]) (by rw [ordered]; simp)⟩
  exact from_ (order lens 15) [] (List.nil_append _).symm

/-- Words up to one that leads to a sub-table take no more than this and those before it. -/
theorem weight_upTo_le (ordered : order lens 15 = front ++ s :: back) (key : lookupKey lens root s = q + 1) :
    weight lens 15 (front ++ [s]) ≤ (q + 1) * 2 ^ (15 - root) := by
  have inside := mem_order.mp (ordered ▸ List.mem_append_right front List.mem_cons_self)
  have long := (lookupKey_eq_succ.mp key).1
  have first := key_of_long ordered long
  rw [key] at first
  have below : weight lens 15 front < (q + 1) * 2 ^ (15 - root) :=
    (Nat.div_lt_iff_lt_mul (Nat.two_pow_pos _)).mp (by omega)
  -- What the words take is a multiple of what the last one does.
  have whole : 2 ^ (15 - root) = 2 ^ (len lens s - root) * 2 ^ (15 - len lens s) := by
    rw [← Nat.pow_add, (by omega : len lens s - root + (15 - len lens s) = 15 - root)]
  rw [← code_mul ordered, whole, ← Nat.mul_assoc] at below
  have more := Nat.mul_le_mul_right (2 ^ (15 - len lens s)) (Nat.succ_le_of_lt (Nat.lt_of_mul_lt_mul_right below))
  rw [weight_append, weight_cons, weight_nil, ← code_mul ordered, whole, ← Nat.mul_assoc]
  rw [Nat.succ_eq_add_one, Nat.add_mul, Nat.one_mul] at more
  omega

/-- Words up to one that is looked up with the first bits alone take whole sub-tables. -/
theorem dvd_weight_upTo (ordered : order lens 15 = front ++ s :: back) (short : len lens s ≤ root) :
    2 ^ (15 - root) ∣ weight lens 15 (front ++ [s]) := by
  rw [weight_append, weight_cons, weight_nil, Nat.add_zero, ← code_mul ordered]
  have part : 2 ^ (15 - root) ∣ 2 ^ (15 - len lens s) := Nat.pow_dvd_pow 2 (by omega)
  exact Nat.dvd_add (Nat.dvd_mul_left_of_dvd part _) part

/-- The words that lead to a sub-table of a complete code fill it. -/
theorem weight_behindRoot (complete : filled lens 15 = 2 ^ 15) (root_le : root ≤ 15)
    (some_ : behindRoot lens root p ≠ []) : weight lens 15 (behindRoot lens root p) = 2 ^ (15 - root) := by
  have cut := split_key (lookupKey lens root) (p + 1) (pairwise_key lens root)
  rw [← behindRoot_eq] at cut
  obtain ⟨before, before_⟩ : ∃ l, (order lens 15).filter (lookupKey lens root · < p + 1) = l := ⟨_, rfl⟩
  obtain ⟨after, after_⟩ : ∃ l, (order lens 15).filter (p + 1 < lookupKey lens root ·) = l := ⟨_, rfl⟩
  have key : ∀ u ∈ behindRoot lens root p, lookupKey lens root u = p + 1 := fun u member =>
    (mem_behindRoot.mp member).2
  rw [before_, after_] at cut
  obtain ⟨words, words_⟩ : ∃ l, behindRoot lens root p = l := ⟨_, rfl⟩
  rw [words_] at cut some_ key ⊢
  have total := weight_all lens 15
  rw [cut, weight_append, weight_append, complete] at total
  have span := Nat.two_pow_pos (15 - root)
  -- The words before them end where the sub-table starts.
  obtain ⟨s, others, first⟩ := List.exists_cons_of_ne_nil some_
  have start : weight lens 15 before / 2 ^ (15 - root) = p := by
    have own := key s (first ▸ List.mem_cons_self)
    have placed : order lens 15 = before ++ s :: (others ++ after) := by rw [cut, first]; simp
    rw [key_of_long placed (lookupKey_eq_succ.mp own).1] at own
    exact Nat.succ_injective own
  have low : p * 2 ^ (15 - root) ≤ weight lens 15 before := by
    rw [← start]
    exact Nat.div_mul_le_self _ _
  have high : weight lens 15 before ≤ p * 2 ^ (15 - root) := by
    rcases List.eq_nil_or_concat before with none | ⟨front, u, last⟩
    · rw [none, weight_nil]
      exact Nat.zero_le _
    · have placed : order lens 15 = front ++ u :: (words ++ after) := by rw [cut, last]; simp
      by_cases short : len lens u ≤ root
      · have whole := Nat.div_mul_cancel (dvd_weight_upTo placed short)
        rw [last, List.concat_eq_append] at start ⊢
        rw [← start]
        exact whole.ge
      · have member : u ∈ before := by
          rw [last, List.concat_eq_append]
          exact List.mem_append_right front List.mem_cons_self
        rw [← before_, List.mem_filter, decide_eq_true_eq] at member
        obtain ⟨q, own⟩ : ∃ q, lookupKey lens root u = q + 1 := ⟨_, if_neg short⟩
        rw [last, List.concat_eq_append]
        exact Nat.le_trans (weight_upTo_le placed own) (Nat.mul_le_mul_right _ (by omega))
  -- They end where the next sub-table starts.
  have most : weight lens 15 before + weight lens 15 words ≤ (p + 1) * 2 ^ (15 - root) := by
    rcases List.eq_nil_or_concat words with none | ⟨front, t, last⟩
    · exact absurd none some_
    · have placed : order lens 15 = (before ++ front) ++ t :: after := by rw [cut, last]; simp
      have upTo := weight_upTo_le placed (key t (by rw [last, List.concat_eq_append]; exact List.mem_append_right front List.mem_cons_self))
      rw [List.append_assoc, ← List.concat_eq_append, ← last, weight_append] at upTo
      exact upTo
  have least : (p + 1) * 2 ^ (15 - root) ≤ weight lens 15 before + weight lens 15 words := by
    cases behind : after with
    | nil =>
      rw [behind, weight_nil, Nat.add_zero] at total
      have whole : 2 ^ 15 = 2 ^ root * 2 ^ (15 - root) := by rw [← Nat.pow_add, Nat.add_sub_cancel' root_le]
      have positive : 0 < weight lens 15 words := by
        rw [first, weight_cons]
        exact Nat.add_pos_left (Nat.two_pow_pos _) _
      rw [total, whole]
      refine Nat.mul_le_mul_right _ (Nat.lt_of_mul_lt_mul_right (a := 2 ^ (15 - root)) ?_)
      omega
    | cons v rest =>
      have member : v ∈ after := behind ▸ List.mem_cons_self
      rw [← after_, List.mem_filter, decide_eq_true_eq] at member
      obtain ⟨q, own⟩ : ∃ q, lookupKey lens root v = q + 1 := ⟨lookupKey lens root v - 1, by omega⟩
      have placed : order lens 15 = (before ++ words) ++ v :: rest := by rw [cut, behind]; simp
      rw [key_of_long placed (lookupKey_eq_succ.mp own).1, weight_append] at member
      exact (Nat.le_div_iff_mul_le span).mp (by omega)
  rw [Nat.add_mul, Nat.one_mul] at most least
  omega

/-! ## The sub-tables, one after another -/

/-- How many entries the first sub-tables have. -/
def subTablesSize (lens : List Nat) (root p : Nat) : Nat := ((List.range p).map (subTableSize lens root)).sum

/-- How many words lead to the first sub-tables. -/
def wordsBehind (lens : List Nat) (root p : Nat) : Nat :=
  ((List.range p).map fun q => (behindRoot lens root q).length).sum

/-- Sub-tables with so many bits at most are small against the number of words, where there is a word for these bits. -/
structure SmallTables (lens : List Nat) (root p deepest : Nat) : Prop where
  small : subTablesSize lens root p + 1 + deepest ≤ wordsBehind lens root p + 2 ^ deepest
  reached : deepest = 0 ∨ ∃ q < p, ∃ s ∈ behindRoot lens root q, len lens s = root + deepest

/-- Words that lead to a later sub-table are no shorter. -/
theorem len_le_of_key (first : s ∈ behindRoot lens root q) (second : t ∈ behindRoot lens root p) (less : q < p) :
    len lens s ≤ len lens t := by
  obtain ⟨among, key⟩ := mem_behindRoot.mp first
  obtain ⟨among', key'⟩ := mem_behindRoot.mp second
  obtain ⟨front, back, ordered⟩ := List.append_of_mem among'
  have sorted := pairwise_order lens 15
  rw [ordered] at among sorted
  rcases List.mem_append.mp among with before | later
  · exact (List.pairwise_append.mp sorted).2.2 s before t List.mem_cons_self
  · rcases List.mem_cons.mp later with same | behind
    · rw [same]
    · have grown : lookupKey lens root t ≤ lookupKey lens root s := key_mono ordered behind
      omega

/-- One of some words is as long as the longest. -/
theorem exists_longest (lens : List Nat) {symbols : List Nat} (some_ : symbols ≠ []) :
    ∃ s ∈ symbols, longest lens symbols = len lens s := by
  induction symbols with
  | nil => exact absurd rfl some_
  | cons s rest ih =>
    rw [longest, List.foldr_cons, ← longest]
    by_cases last : rest = []
    · rw [last]
      exact ⟨s, List.mem_cons_self, Nat.max_eq_left (Nat.zero_le _)⟩
    · obtain ⟨t, member, same⟩ := ih last
      rcases Nat.le_total (len lens s) (longest lens rest) with less | more
      · exact ⟨t, List.mem_cons_of_mem s member, (Nat.max_eq_right less).trans same⟩
      · exact ⟨s, List.mem_cons_self, Nat.max_eq_left more⟩

/-- Words that lead to a sub-table are as many as the shorter ones let them be, and one more for each bit behind. -/
theorem length_behindRoot {shortest : Nat} (complete : filled lens 15 = 2 ^ 15) (root_le : root ≤ 15)
    (low : ∀ t ∈ behindRoot lens root p, root + shortest ≤ len lens t) (among : s ∈ behindRoot lens root p) :
    2 ^ shortest + (len lens s - root - shortest) ≤ (behindRoot lens root p).length := by
  have full := weight_behindRoot complete root_le (List.ne_nil_of_mem among)
  have inside : ∀ t ∈ behindRoot lens root p, root < len lens t ∧ len lens t ≤ 15 := fun t member =>
    ⟨(lookupKey_eq_succ.mp (mem_behindRoot.mp member).2).1, (mem_order.mp (mem_behindRoot.mp member).1).2⟩
  have same : LeafDepths.weigh (15 - root) ((behindRoot lens root p).map fun t => len lens t - root) =
      weight lens 15 (behindRoot lens root p) := by
    rw [LeafDepths.weigh, weight, List.map_map]
    refine congrArg List.sum (List.map_congr_left fun t member => ?_)
    have bounds := inside t member
    rw [Function.comp_apply, (by omega : 15 - root - (len lens t - root) = 15 - len lens t)]
  have above : ∀ x ∈ (behindRoot lens root p).map fun t => len lens t - root, shortest ≤ x :=
    List.forall_mem_map.mpr fun t member => Nat.le_sub_of_add_le' (low t member)
  have below : ∀ x ∈ (behindRoot lens root p).map fun t => len lens t - root, x ≤ 15 - root :=
    List.forall_mem_map.mpr fun t member => Nat.sub_le_sub_right (inside t member).2 root
  have fits : shortest ≤ 15 - root := Nat.le_sub_of_add_le' (Nat.le_trans (low s among) (inside s among).2)
  have whole : 2 ^ (15 - root) = 2 ^ shortest * 2 ^ (15 - root - shortest) := by
    rw [← Nat.pow_add, Nat.add_sub_cancel' fits]
  have deep := LeafDepths.leaves_le (same.trans (full.trans whole)) above below (List.mem_map_of_mem among)
  rw [List.length_map] at deep
  exact deep

/-- Another sub-table has words that are no shorter than those before, so that there are many of them. -/
theorem SmallTables.next {deepest : Nat} (tables : SmallTables lens root p deepest)
    (complete : filled lens 15 = 2 ^ 15) (root_le : root ≤ 15) : ∃ deeper, SmallTables lens root (p + 1) deeper := by
  have small := tables.small
  have grown : subTablesSize lens root (p + 1) = subTablesSize lens root p + subTableSize lens root p := by
    simp [subTablesSize, List.range_succ]
  have more : wordsBehind lens root (p + 1) = wordsBehind lens root p + (behindRoot lens root p).length := by
    simp [wordsBehind, List.range_succ]
  by_cases none : behindRoot lens root p = []
  · refine ⟨deepest, ?_, tables.reached.imp_right fun ⟨q, less, rest⟩ => ⟨q, by omega, rest⟩⟩
    rw [grown, more, subTableSize_none none, none]
    exact small
  · obtain ⟨s, among, longest_⟩ := exists_longest lens none
    have long := (lookupKey_eq_succ.mp (mem_behindRoot.mp among).2).1
    have low : ∀ t ∈ behindRoot lens root p, root + deepest ≤ len lens t := by
      intro t member
      rcases tables.reached with start | ⟨q, less, u, earlier, length⟩
      · have long' := (lookupKey_eq_succ.mp (mem_behindRoot.mp member).2).1
        omega
      · rw [← length]
        exact len_le_of_key earlier member less
    have many := length_behindRoot complete root_le low among
    have least := low s among
    refine ⟨len lens s - root, ?_, .inr ⟨p, Nat.lt_succ_self p, s, among, by omega⟩⟩
    rw [grown, more, subTableSize, longest_]
    rw [if_neg (by omega)]
    omega

/-- All sub-tables of a complete code. -/
theorem exists_smallTables (complete : filled lens 15 = 2 ^ 15) (root_le : root ≤ 15) (p : Nat) :
    ∃ deepest, SmallTables lens root p deepest := by
  induction p with
  | zero => exact ⟨0, by simp [subTablesSize], .inl rfl⟩
  | succ p ih =>
    obtain ⟨deepest, tables⟩ := ih
    exact tables.next complete root_le

/-- Sub-tables have two entries or more, and a power of two. -/
theorem even_subTablesSize (lens : List Nat) (root p : Nat) : subTablesSize lens root p % 2 = 0 := by
  induction p with
  | zero => rfl
  | succ p ih =>
    have grown : subTablesSize lens root (p + 1) = subTablesSize lens root p + subTableSize lens root p := by
      simp [subTablesSize, List.range_succ]
    have even : subTableSize lens root p % 2 = 0 := by
      by_cases none : behindRoot lens root p = []
      · rw [subTableSize_none none]
      · obtain ⟨s, among, longest_⟩ := exists_longest lens none
        have long := (lookupKey_eq_succ.mp (mem_behindRoot.mp among).2).1
        obtain ⟨bits, deep⟩ : ∃ bits, len lens s - root = bits + 1 := ⟨len lens s - root - 1, by omega⟩
        rw [subTableSize, longest_]
        rw [if_neg (by omega), deep, Nat.pow_succ]
        exact Nat.mul_mod_left _ 2
    omega

/-! ## How many words there are -/

/-- The words that are looked up with the first bits alone, and the others. -/
def shortWords (lens : List Nat) (root : Nat) : List Nat := (order lens 15).filter fun s => len lens s ≤ root

def longWords (lens : List Nat) (root : Nat) : List Nat := (order lens 15).filter fun s => root < len lens s

theorem length_words (lens : List Nat) (root : Nat) :
    (shortWords lens root).length + (longWords lens root).length ≤ lens.length := by
  have all := length_order_le lens 15
  have split := List.length_eq_length_filter_add (l := order lens 15) fun s => decide (len lens s ≤ root)
  have others : (order lens 15).filter (fun s => !decide (len lens s ≤ root)) = longWords lens root := by
    refine List.filter_congr fun s _ => ?_
    rw [← decide_not, decide_eq_decide]
    exact Nat.not_le
  rw [others] at split
  rw [shortWords]
  omega

theorem weight_words (complete : filled lens 15 = 2 ^ 15) (root : Nat) :
    weight lens 15 (shortWords lens root) + weight lens 15 (longWords lens root) = 2 ^ 15 := by
  rw [← complete, ← weight_all, shortWords, longWords]
  induction order lens 15 with
  | nil => rfl
  | cons s rest ih =>
    by_cases short : len lens s ≤ root
    · rw [List.filter_cons_of_pos (by simpa using short), List.filter_cons_of_neg (by simpa using short), weight_cons,
        weight_cons, ← ih, Nat.add_assoc]
    · rw [List.filter_cons_of_neg (by simpa using short), List.filter_cons_of_pos (by simp; omega), weight_cons,
        weight_cons, ← ih, Nat.add_left_comm]

/-- Words that lead to sub-tables are longer than the first bits. -/
theorem wordsBehind_le (lens : List Nat) (root p : Nat) : wordsBehind lens root p ≤ (longWords lens root).length := by
  have counted : wordsBehind lens root p =
      (order lens 15).countP fun s => 0 < lookupKey lens root s ∧ lookupKey lens root s ≤ p := by
    induction p with
    | zero =>
      symm
      rw [wordsBehind, List.range_zero, List.map_nil, List.sum_nil, List.countP_eq_zero]
      intro s _
      simp only [decide_eq_true_eq]
      omega
    | succ p ih =>
      have more : wordsBehind lens root (p + 1) = wordsBehind lens root p + (behindRoot lens root p).length := by
        simp [wordsBehind, List.range_succ]
      rw [more, ih, behindRoot_eq, ← List.countP_eq_length_filter]
      induction order lens 15 with
      | nil => rfl
      | cons s rest ih =>
        simp only [List.countP_cons, ← ih, decide_eq_true_eq]
        split <;> split <;> split <;> omega
  rw [counted, List.countP_eq_length_filter]
  refine (List.monotone_filter_right _ fun s holds => ?_).length_le
  have key := (of_decide_eq_true holds).1
  obtain ⟨q, own⟩ : ∃ q, lookupKey lens root s = q + 1 := ⟨lookupKey lens root s - 1, by omega⟩
  exact decide_eq_true (lookupKey_eq_succ.mp own).1

/-- Where there are few words that are looked up with the first bits alone, there are many others. -/
theorem many_longWords (complete : filled lens 15 = 2 ^ 15) (some_ : longWords lens root ≠ []) :
    2 ^ (15 - (shortWords lens root).length) ≤ (longWords lens root).length * 2 ^ (15 - (root + 1)) := by
  have total := weight_words complete root
  have positive : 0 < weight lens 15 (longWords lens root) := by
    obtain ⟨s, others, first⟩ := List.exists_cons_of_ne_nil some_
    rw [first, weight_cons]
    exact Nat.add_pos_left (Nat.two_pow_pos _) _
  have same : LeafDepths.weigh 15 ((shortWords lens root).map (len lens)) = weight lens 15 (shortWords lens root) := by
    rw [LeafDepths.weigh, weight, List.map_map]
    rfl
  have room := LeafDepths.room_le (by omega : LeafDepths.weigh 15 ((shortWords lens root).map (len lens)) < 2 ^ 15)
  rw [same, List.length_map, ← total] at room
  have each : weight lens 15 (longWords lens root) ≤ (longWords lens root).length * 2 ^ (15 - (root + 1)) := by
    have bound := List.sum_le_card_nsmul ((longWords lens root).map fun s => 2 ^ (15 - len lens s))
      (2 ^ (15 - (root + 1))) fun w member => by
        obtain ⟨s, among, rfl⟩ := List.mem_map.mp member
        have long := of_decide_eq_true (List.mem_filter.mp among).2
        exact Nat.pow_le_pow_right (by decide) (Nat.sub_le_sub_left long 15)
    rw [List.length_map, Nat.nsmul_eq_mul] at bound
    exact bound
  exact Nat.le_trans (Nat.le_of_add_le_add_left room) each

/-- Without words that are longer than the first bits there are no sub-tables. -/
theorem tableSize_short (none : longWords lens root = []) : tableSize lens root = 2 ^ root := by
  rw [tableSize, sizeUpTo_none (Nat.zero_le _) fun p _ _ => ?_, sizeUpTo_zero]
  refine List.eq_nil_iff_forall_not_mem.mpr fun s member => ?_
  obtain ⟨among, key⟩ := mem_behindRoot.mp member
  have long : s ∈ longWords lens root := List.mem_filter.mpr ⟨among, decide_eq_true (lookupKey_eq_succ.mp key).1⟩
  rw [none] at long
  exact absurd long List.not_mem_nil

/-- The sub-tables are small against the number of words that lead to them. -/
theorem subTables_le (complete : filled lens 15 = 2 ^ 15) (root_le : root ≤ 15) :
    ∃ deepest ≤ 15 - root,
      subTablesSize lens root (2 ^ root) + 1 + deepest ≤ (longWords lens root).length + 2 ^ deepest := by
  obtain ⟨deepest, tables⟩ := exists_smallTables complete root_le (2 ^ root)
  have few := wordsBehind_le lens root (2 ^ root)
  have small := tables.small
  refine ⟨deepest, ?_, by omega⟩
  rcases tables.reached with start | ⟨q, -, s, among, length⟩
  · omega
  · have short := (mem_order.mp (mem_behindRoot.mp among).1).2
    omega

/-! ## The tables of a block -/

theorem len_le_maxLength (bounded : ∀ l ∈ lens, l ≤ 15) (s : Nat) : len lens s ≤ maxLength lens.count 15 := by
  by_contra longer
  have coded : 0 < len lens s := by omega
  have short := len_le bounded s
  have none := count_longer (Nat.lt_of_not_le longer) short
  have inside := lt_length_of_len coded
  refine List.count_eq_zero.mp none ?_
  rw [len, List.getD_eq_getElem _ _ inside]
  exact List.getElem_mem inside

theorem minLength_le_len (among : s ∈ order lens 15) :
    minLength lens.count (maxLength lens.count 15) (maxLength lens.count 15 - 1) ≤ len lens s := by
  obtain ⟨coded, short⟩ := mem_order.mp among
  have present : 0 < ((order lens 15).map (len lens)).count (len lens s) :=
    List.count_pos_iff.mpr (List.mem_map_of_mem among)
  rw [count_order coded short] at present
  by_contra longer
  exact present.ne' (@count_below lens.count _ _ _ (Nat.sub_le _ 1) (by omega) (Nat.lt_of_not_le longer))

/-- Where all words are looked up with the bits that are asked for, there are no sub-tables. -/
theorem no_longWords {bits : Nat} (bounded : ∀ l ∈ lens, l ≤ 15) (short : maxLength lens.count 15 ≤ bits) :
    rootBits lens bits = maxLength lens.count 15 ∧ longWords lens (rootBits lens bits) = [] := by
  have below := minLength_le lens.count (maxLength lens.count 15) (maxLength lens.count 15 - 1)
  have root : rootBits lens bits = maxLength lens.count 15 := by
    rw [rootBits, Nat.min_eq_right short, Nat.max_eq_right below]
  refine ⟨root, List.filter_eq_nil_iff.mpr fun s _ => ?_⟩
  have least := len_le_maxLength bounded s
  simpa [root] using least

/-- The first bits are as many as are asked for, or else as many as the longest word has. -/
theorem root_cases {bits : Nat} (complete : filled lens 15 = 2 ^ 15) (bounded : ∀ l ∈ lens, l ≤ 15) (narrow : bits < 15)
    (few : lens.length < 2 ^ (bits + 1)) :
    rootBits lens bits = bits ∨ rootBits lens bits ≤ bits ∧ longWords lens (rootBits lens bits) = [] := by
  rcases Nat.le_total (maxLength lens.count 15) bits with short | long
  · obtain ⟨root, none⟩ := no_longWords bounded short
    exact .inr ⟨root.trans_le short, none⟩
  · rw [rootBits, Nat.min_eq_left long]
    -- There are too few words for all of them to be longer.
    refine .inl (Nat.max_eq_right ?_)
    by_contra deep
    have none : shortWords lens bits = [] := List.filter_eq_nil_iff.mpr fun s member => by
      have least := minLength_le_len member
      simp
      omega
    have total := weight_words complete bits
    have some_ : longWords lens bits ≠ [] := fun none' => by
      rw [none, none', weight_nil] at total
      exact absurd total (by decide)
    have many := many_longWords complete some_
    have words := length_words lens bits
    rw [none, List.length_nil, Nat.sub_zero] at many
    have whole : 2 ^ 15 = 2 ^ (bits + 1) * 2 ^ (15 - (bits + 1)) := by
      rw [← Nat.pow_add, Nat.add_sub_cancel' narrow]
    rw [whole] at many
    have enough := Nat.le_of_mul_le_mul_right many (Nat.two_pow_pos _)
    rw [none, List.length_nil] at words
    omega

/-- Complete codes for literals and lengths take no more entries than there are. -/
theorem lens_fit (complete : filled lens 15 = 2 ^ 15) (bounded : ∀ l ∈ lens, l ≤ 15) (few : lens.length ≤ 286) :
    tableSize lens (rootBits lens 9) ≤ kEnoughLens := by
  rw [kEnoughLens]
  rcases root_cases complete bounded (by decide : 9 < 15) (Nat.lt_of_le_of_lt few (by decide)) with same | ⟨less, none⟩
  · rw [same]
    by_cases none : longWords lens 9 = []
    · rw [tableSize_short none]
      decide
    · obtain ⟨deepest, deep, small⟩ := subTables_le complete (by decide : 9 ≤ 15)
      have many := many_longWords complete none
      have words := length_words lens 9
      have even := even_subTablesSize lens 9 (2 ^ 9)
      have size : tableSize lens 9 = 2 ^ 9 + subTablesSize lens 9 (2 ^ 9) := rfl
      have two : 2 ≤ (shortWords lens 9).length := by
        by_contra one
        have half : 2 ^ 14 ≤ 2 ^ (15 - (shortWords lens 9).length) := Nat.pow_le_pow_right (by decide) (by omega)
        omega
      rw [size]
      interval_cases deepest <;> omega
  · rw [tableSize_short none]
    exact Nat.le_trans (Nat.pow_le_pow_right (by decide) less) (by decide)

/-- So do those for distances. -/
theorem dists_fit (complete : filled lens 15 = 2 ^ 15) (bounded : ∀ l ∈ lens, l ≤ 15) (few : lens.length ≤ 30) :
    tableSize lens (rootBits lens 6) ≤ kEnoughDists := by
  rw [kEnoughDists]
  rcases root_cases complete bounded (by decide : 6 < 15) (Nat.lt_of_le_of_lt few (by decide)) with same | ⟨less, none⟩
  · rw [same]
    by_cases none : longWords lens 6 = []
    · rw [tableSize_short none]
      decide
    · obtain ⟨deepest, deep, small⟩ := subTables_le complete (by decide : 6 ≤ 15)
      have many := many_longWords complete none
      have words := length_words lens 6
      have even := even_subTablesSize lens 6 (2 ^ 6)
      have size : tableSize lens 6 = 2 ^ 6 + subTablesSize lens 6 (2 ^ 6) := rfl
      have three : 3 ≤ (shortWords lens 6).length := by
        by_contra two
        have quarter : 2 ^ 13 ≤ 2 ^ (15 - (shortWords lens 6).length) := Nat.pow_le_pow_right (by decide) (by omega)
        omega
      rw [size]
      interval_cases deepest <;> omega
  · rw [tableSize_short none]
    exact Nat.le_trans (Nat.pow_le_pow_right (by decide) less) (by decide)

/-- A table that is made has as many entries as its code takes, or two without codes. -/
theorem used_of_table {type : Build} {entries : Nat → Code} {bits : Nat} {work : Nat → Nat} {t : Table} {used : Nat}
    (bounded : ∀ l ∈ lens, l ≤ 15) (few : lens.length ≤ type.limit)
    (made : inflate_table type lens entries bits work = .table t used) :
    used = 2 ∨ used = tableSize lens (rootBits lens bits) := by
  by_cases none : maxLength lens.count 15 = 0
  · rw [inflate_table, if_pos none] at made
    injection made with _ two
    exact .inl two.symm
  · have right := right_of_accepted bounded fun e failed => by cases made.symm.trans failed
    obtain ⟨checked, loop⟩ := inflate_table_checked bounded few right none entries bits work
    obtain ⟨excess, table⟩ := checked.made bits work entries
    have made' := loop.symm.trans made
    cases fits : type.tooMany (tableSize lens (rootBits lens bits)) with
    | true =>
      have failed := made'.symm.trans (excess fits)
      cases failed
    | false =>
      obtain ⟨t', same, -⟩ := table fits
      injection made'.symm.trans same with _ size
      exact .inr size

/-- A table of a code whose entries fit where it is complete is made without being thrown out. -/
theorem table_fits {type : Build} {bits most : Nat} (bounded : ∀ l ∈ lens, l ≤ 15) (few : lens.length ≤ type.limit)
    (some_ : 0 < bits) (two : 2 ≤ most) (space : ∀ n, type.tooMany n = true → most < n)
    (fits : filled lens 15 = 2 ^ 15 → tableSize lens (rootBits lens bits) ≤ most) (entries : Nat → Code)
    (work : Nat → Nat) :
    inflate_table type lens entries bits work ≠ .throws ∧
      ∀ t used, inflate_table type lens entries bits work = .table t used → used ≤ most := by
  have small : kraft lens = 1 ∨ kraft lens < 1 ∧ Permitted type lens → tableSize lens (rootBits lens bits) ≤ most := by
    rintro (full | ⟨less, permitted⟩)
    · refine fits (Nat.le_antisymm (Nat.not_lt.mp fun excess => ?_) (Nat.not_lt.mp fun less => ?_))
      · exact absurd full ((one_lt_kraft bounded).mpr excess).ne'
      · exact absurd full ((kraft_lt_one bounded).mpr less).ne
    · -- A code that need not be complete has words of one bit at most.
      have longest : maxLength lens.count 15 ≤ 1 := by
        rcases permitted with without | ⟨-, lone⟩
        · rw [(none_iff bounded).mpr without]
          exact Nat.zero_le 1
        · exact ((lone_iff bounded).mpr lone).1.le
      obtain ⟨root, none⟩ := no_longWords bounded (longest.trans some_)
      rw [tableSize_short none, root]
      exact (Nat.pow_le_pow_right (by decide) longest).trans two
  constructor
  · intro thrown
    have right := right_of_accepted bounded fun e failed => by cases thrown.symm.trans failed
    obtain ⟨-, makes⟩ := inflate_table_made bounded few right entries bits work
    cases excess : type.tooMany (tableSize lens (rootBits lens bits)) with
    | true => exact absurd (space _ excess) (Nat.not_lt.mpr (small right))
    | false =>
      obtain ⟨t, used, made, -⟩ := makes excess
      cases thrown.symm.trans made
  · intro t used made
    rcases used_of_table bounded few made with rfl | rfl
    · exact two
    · exact small (right_of_accepted bounded fun e failed => by cases made.symm.trans failed)

/-- The tables for literals and lengths fit, whether the code is complete or not. -/
theorem lens_table_fits (bounded : ∀ l ∈ lens, l ≤ 15) (few : lens.length ≤ 286) (entries : Nat → Code)
    (work : Nat → Nat) :
    inflate_table .lens lens entries 9 work ≠ .throws ∧
      ∀ t used, inflate_table .lens lens entries 9 work = .table t used → used ≤ kEnoughLens :=
  have few' : lens.length ≤ Build.lens.limit := few
  table_fits bounded few' (by decide) (by decide) (fun n excess => by simpa [Build.tooMany] using excess)
    (fun complete => lens_fit complete bounded few) entries work

/-- So do those for distances. -/
theorem dists_table_fits (bounded : ∀ l ∈ lens, l ≤ 15) (few : lens.length ≤ 30) (entries : Nat → Code)
    (work : Nat → Nat) :
    inflate_table .dists lens entries 6 work ≠ .throws ∧
      ∀ t used, inflate_table .dists lens entries 6 work = .table t used → used ≤ kEnoughDists :=
  have few' : lens.length ≤ Build.dists.limit := few
  table_fits bounded few' (by decide) (by decide) (fun n excess => by simpa [Build.tooMany] using excess)
    (fun complete => dists_fit complete bounded few) entries work

/-- There is space for the table of the bit length codes, whatever it takes. -/
theorem codes_fit (bounded : ∀ l ∈ lens, l ≤ 15) (few : lens.length ≤ Build.codes.limit) (entries : Nat → Code)
    (bits : Nat) (work : Nat → Nat) : inflate_table .codes lens entries bits work ≠ .throws := by
  intro thrown
  have right := right_of_accepted bounded fun e failed => by cases thrown.symm.trans failed
  obtain ⟨-, makes⟩ := inflate_table_made bounded few right entries bits work
  obtain ⟨t, used, made, -⟩ := makes rfl
  cases thrown.symm.trans made

end Beast.Zlib
