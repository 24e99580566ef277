import Mathlib.Algebra.Order.Field.Rat
import Mathlib.Algebra.Order.Ring.Nat
import Mathlib.Algebra.BigOperators.Group.List.Basic
import Mathlib.Data.List.Basic
import Mathlib.Data.List.GetD
import Mathlib.Data.List.Nodup
import Mathlib.Data.List.Perm.Subperm
import Mathlib.Tactic.Common
import Mathlib.Tactic.FieldSimp
import Mathlib.Tactic.Ring

/-!
Codes that are told by the lengths of their words alone.

Words of one length are successive numbers, in the order of their symbols, and shorter words are in
front of longer ones.
-/

namespace CanonicalCode

/-- How long the word of a symbol is: zero where it has none. -/
def len (lens : List Nat) (s : Nat) : Nat := lens.getD s 0

/-- The word that is the first one of its length. -/
def nextCode (lens : List Nat) : Nat → Nat
  | 0 => 0
  | 1 => 0
  | l + 2 => 2 * (nextCode lens (l + 1) + lens.count (l + 1))

/-- The word of a symbol, as a number of so many bits. -/
def code (lens : List Nat) (s : Nat) : Nat :=
  nextCode lens (len lens s) + (lens.take s).count (len lens s)

/-- What the words take of all texts, each of them a half of what a word with a bit less takes. -/
def kraft (lens : List Nat) : ℚ :=
  ((lens.filter (· ≠ 0)).map fun l => (1 / 2 : ℚ) ^ l).sum

/-- The symbols that have words of a length. -/
def members (lens : List Nat) (l : Nat) : List Nat :=
  (List.range lens.length).filter fun s => len lens s = l

/-- The symbols that have words of at most so many bits, in the order of their words. -/
def order (lens : List Nat) : Nat → List Nat
  | 0 => []
  | l + 1 => order lens l ++ members lens (l + 1)

/-- How many texts of so many bits there are that begin with a word of one of the symbols. -/
def weight (lens : List Nat) (M : Nat) (symbols : List Nat) : Nat :=
  (symbols.map fun s => 2 ^ (M - len lens s)).sum

/-- How many texts of so many bits there are that begin with a word of at most that length. -/
def filled (lens : List Nat) : Nat → Nat
  | 0 => 0
  | l + 1 => 2 * filled lens l + lens.count (l + 1)

variable {lens : List Nat} {M l s : Nat}

theorem nextCode_succ (lens : List Nat) (l : Nat) :
    nextCode lens (l + 1) = 2 * filled lens l := by
  induction l with
  | zero => rfl
  | succ l ih => rw [nextCode, ih, filled]

@[simp] theorem weight_nil : weight lens M [] = 0 := rfl

@[simp] theorem weight_cons (symbols : List Nat) :
    weight lens M (s :: symbols) = 2 ^ (M - len lens s) + weight lens M symbols := by
  simp [weight]

@[simp] theorem weight_append (front back : List Nat) :
    weight lens M (front ++ back) = weight lens M front + weight lens M back := by
  simp [weight]

/-! ## The order of the symbols -/

theorem lt_length_of_len (some_ : 0 < len lens s) : s < lens.length := by
  by_contra behind
  simp [len, List.getD_eq_getElem?_getD, List.getElem?_eq_none (Nat.not_lt.mp behind)] at some_

theorem len_le (bounded : ∀ l ∈ lens, l ≤ M) (s : Nat) : len lens s ≤ M := by
  rcases Nat.lt_or_ge s lens.length with inside | behind
  · rw [len, List.getD_eq_getElem?_getD, List.getElem?_eq_getElem inside, Option.getD_some]
    exact bounded _ (List.getElem_mem inside)
  · simp [len, List.getD_eq_getElem?_getD, List.getElem?_eq_none behind]

theorem map_len (lens : List Nat) : (List.range lens.length).map (len lens) = lens := by
  refine List.ext_getElem (by simp) fun i _ inside => ?_
  simp [len, inside]

theorem len_take {t : Nat} (before : t < s) : len (lens.take s) t = len lens t := by
  simp [len, List.getD_eq_getElem?_getD, before]

@[simp] theorem mem_members : s ∈ members lens l ↔ s < lens.length ∧ len lens s = l := by
  simp [members]

theorem length_members (lens : List Nat) (l : Nat) :
    (members lens l).length = lens.count l := by
  conv_rhs => rw [← map_len lens]
  rw [members, ← List.countP_eq_length_filter, List.count, List.countP_map]
  refine List.countP_congr fun s _ => ?_
  simp

theorem mem_order : s ∈ order lens M ↔ 0 < len lens s ∧ len lens s ≤ M := by
  induction M with
  | zero =>
    simp only [order, List.not_mem_nil, false_iff]
    omega
  | succ l ih =>
    rw [order, List.mem_append, ih, mem_members]
    constructor
    · rintro (⟨some_, short⟩ | ⟨-, same⟩)
      · omega
      · omega
    · rintro ⟨some_, short⟩
      have inside := lt_length_of_len some_
      omega

/-- The symbols of a length, before one of them and from there on. -/
theorem members_split (inside : s < lens.length) : ∃ front back,
    members lens (len lens s) = front ++ s :: back ∧
      front.length = (lens.take s).count (len lens s) := by
  have cut : List.range lens.length = List.range s ++ s :: List.range' (s + 1) (lens.length - s - 1) := by
    rw [List.range_eq_range', List.range_eq_range', ← List.range'_succ]
    have joined := List.range'_append_1 (s := 0) (m := s) (n := lens.length - s - 1 + 1)
    rw [Nat.zero_add] at joined
    rw [joined]
    congr 1
    omega
  refine ⟨members (lens.take s) (len lens s),
    (List.range' (s + 1) (lens.length - s - 1)).filter fun t => len lens t = len lens s, ?_,
    length_members _ _⟩
  rw [members, cut, List.filter_append, List.filter_cons_of_pos (by simp)]
  congr 1
  -- The symbols before this one have the lengths of the front of the list.
  rw [members, List.length_take, Nat.min_eq_left inside.le]
  refine List.filter_congr fun t before => ?_
  rw [len_take (List.mem_range.mp before)]

theorem nodup_order (lens : List Nat) (M : Nat) : (order lens M).Nodup := by
  induction M with
  | zero => exact List.nodup_nil
  | succ l ih =>
    refine List.nodup_append.mpr ⟨ih, List.nodup_range.filter _, ?_⟩
    rintro s earlier _ later rfl
    have short := (mem_order.mp earlier).2
    have long := (mem_members.mp later).2
    omega

theorem length_order_le (lens : List Nat) (M : Nat) : (order lens M).length ≤ lens.length := by
  have inside : order lens M ⊆ List.range lens.length := fun s member =>
    List.mem_range.mpr (lt_length_of_len (mem_order.mp member).1)
  simpa using ((nodup_order lens M).subperm inside).length_le

/-- Shorter words are in front of longer ones. -/
theorem pairwise_order (lens : List Nat) (M : Nat) :
    (order lens M).Pairwise fun s t => len lens s ≤ len lens t := by
  induction M with
  | zero => exact List.Pairwise.nil
  | succ l ih =>
    refine List.pairwise_append.mpr ⟨ih, ?_, ?_⟩
    · refine List.pairwise_of_forall_mem_list fun s first t second => ?_
      rw [(mem_members.mp first).2, (mem_members.mp second).2]
    · intro s first t second
      have short := (mem_order.mp first).2
      rw [(mem_members.mp second).2]
      omega

/-! ## The texts that begin with words -/

/-- Words of one length take the same each. -/
theorem weight_of_len {symbols : List Nat} (same : ∀ s ∈ symbols, len lens s = l) :
    weight lens M symbols = symbols.length * 2 ^ (M - l) := by
  rw [weight, List.map_congr_left fun s member => by rw [same s member], List.map_const',
    List.sum_replicate, Nat.nsmul_eq_mul]

theorem weight_order (short : l ≤ M) :
    weight lens M (order lens l) = filled lens l * 2 ^ (M - l) := by
  induction l with
  | zero => simp [order, filled]
  | succ l ih =>
    have half : 2 ^ (M - l) = 2 * 2 ^ (M - (l + 1)) := by
      rw [← Nat.pow_succ']
      congr 1
      omega
    rw [order, weight_append, ih (by omega), weight_of_len fun s member => (mem_members.mp member).2,
      length_members, filled, half]
    ring

/-- An order of symbols can be cut at each of them in one way only. -/
theorem order_cut {front back front' back' : List Nat} (ordered : order lens M = front ++ s :: back)
    (placed : order lens M = front' ++ s :: back') : front = front' ∧ back = back' := by
  have once := nodup_order lens M
  rw [placed, List.nodup_middle, List.nodup_cons, List.mem_append, not_or] at once
  have same := (List.append_cons_inj_of_notMem once.1.1 once.1.2).mp (placed.symm.trans ordered)
  exact ⟨same.1.symm, same.2.2.symm⟩

theorem order_prolonged (lens : List Nat) (l k : Nat) :
    ∃ rest, order lens (l + k) = order lens l ++ rest := by
  induction k with
  | zero => exact ⟨[], (List.append_nil _).symm⟩
  | succ k ih =>
    obtain ⟨rest, same⟩ := ih
    exact ⟨rest ++ members lens (l + k + 1), by
      rw [← Nat.add_assoc, order, same, List.append_assoc]⟩

/-- In front of a symbol are those with shorter words, and those of its length that are less. -/
theorem order_front {front back : List Nat} (ordered : order lens M = front ++ s :: back) :
    ∃ l earlier, len lens s = l + 1 ∧ l < M ∧ front = order lens l ++ earlier ∧
      earlier.length = (lens.take s).count (l + 1) ∧ ∀ t ∈ earlier, len lens t = l + 1 := by
  have inside := mem_order.mp (ordered ▸ List.mem_append_right front List.mem_cons_self)
  obtain ⟨earlier, later, split_, rank⟩ := members_split (lt_length_of_len inside.1)
  obtain ⟨l, length⟩ : ∃ l, len lens s = l + 1 := ⟨len lens s - 1, by omega⟩
  rw [length] at split_ rank
  -- In the order of all symbols this one stands where it does among those of its length.
  obtain ⟨rest, prolonged⟩ := order_prolonged lens (l + 1) (M - (l + 1))
  rw [(by omega : l + 1 + (M - (l + 1)) = M)] at prolonged
  have placed : order lens M = (order lens l ++ earlier) ++ s :: (later ++ rest) := by
    rw [prolonged, order, split_]
    simp
  refine ⟨l, earlier, length, by omega, (order_cut ordered placed).1, rank, fun t member => ?_⟩
  have among : t ∈ members lens (l + 1) := split_ ▸ List.mem_append_left _ member
  exact (mem_members.mp among).2

/-- Where a symbol stands in the order of all of them. -/
def place (lens : List Nat) (s : Nat) : Nat :=
  (order lens (len lens s - 1)).length + (lens.take s).count (len lens s)

theorem length_front {front back : List Nat} (ordered : order lens M = front ++ s :: back) :
    front.length = place lens s := by
  obtain ⟨l, earlier, length, -, rfl, rank, -⟩ := order_front ordered
  rw [List.length_append, rank, place, length, Nat.add_sub_cancel]

/-- The text that is the word of a symbol and zeros behind it has those in front of it that begin with
the words before. -/
theorem code_mul {front back : List Nat} (ordered : order lens M = front ++ s :: back) :
    code lens s * 2 ^ (M - len lens s) = weight lens M front := by
  obtain ⟨l, earlier, length, short, rfl, rank, all⟩ := order_front ordered
  have half : 2 ^ (M - l) = 2 * 2 ^ (M - (l + 1)) := by
    rw [← Nat.pow_succ']
    congr 1
    omega
  rw [weight_append, weight_order short.le, weight_of_len all, rank, code, length, nextCode_succ,
    half]
  ring

/-- A text begins with a word where it is one of those that the word takes. -/
theorem begins_iff {front back : List Nat} (ordered : order lens M = front ++ s :: back) (V : Nat) :
    V / 2 ^ (M - len lens s) = code lens s ↔
      weight lens M front ≤ V ∧ V < weight lens M front + 2 ^ (M - len lens s) := by
  rw [Nat.div_eq_iff (Nat.two_pow_pos _), ← code_mul ordered]
  have some_ := Nat.two_pow_pos (M - len lens s)
  omega

/-- Of the texts that are in front of the end one begins with a word. -/
theorem weight_cut {symbols : List Nat} {V : Nat} (inside : V < weight lens M symbols) :
    ∃ front s back, symbols = front ++ s :: back ∧ weight lens M front ≤ V ∧
      V < weight lens M front + 2 ^ (M - len lens s) := by
  induction symbols generalizing V with
  | nil => exact absurd inside (Nat.not_lt_zero V)
  | cons t rest ih =>
    rcases Nat.lt_or_ge V (2 ^ (M - len lens t)) with first | behind
    · exact ⟨[], t, rest, rfl, Nat.zero_le V, by simpa using first⟩
    · rw [weight_cons] at inside
      obtain ⟨front, s, back, rfl, after, before⟩ := ih (V := V - 2 ^ (M - len lens t)) (by omega)
      refine ⟨t :: front, s, back, rfl, ?_, ?_⟩
      · rw [weight_cons]
        omega
      · rw [weight_cons]
        omega

theorem weight_all (lens : List Nat) (M : Nat) :
    weight lens M (order lens M) = filled lens M := by
  rw [weight_order (Nat.le_refl M), Nat.sub_self, Nat.pow_zero, Nat.mul_one]

/-- A text that is in front of the end of the words begins with one of them. -/
theorem exists_begins {V : Nat} (inside : V < filled lens M) :
    ∃ s ∈ order lens M, V / 2 ^ (M - len lens s) = code lens s := by
  rw [← weight_all] at inside
  obtain ⟨front, s, back, ordered, bounds⟩ := weight_cut inside
  exact ⟨s, by simp [ordered], (begins_iff ordered V).mpr bounds⟩

/-- A text that begins with a word is in front of the end of the words. -/
theorem lt_filled {V : Nat} (member : s ∈ order lens M)
    (begins : V / 2 ^ (M - len lens s) = code lens s) : V < filled lens M := by
  obtain ⟨front, back, ordered⟩ := List.append_of_mem member
  have bounds := (begins_iff ordered V).mp begins
  rw [← weight_all, ordered, weight_append, weight_cons]
  omega

/-- No text begins with two words. -/
theorem begins_unique {t V : Nat} (first : s ∈ order lens M) (second : t ∈ order lens M)
    (one : V / 2 ^ (M - len lens s) = code lens s) (other : V / 2 ^ (M - len lens t) = code lens t) :
    s = t := by
  -- Of two symbols one is in front of the other, and its texts with it.
  obtain ⟨front, back, ordered⟩ := List.append_of_mem first
  have bounds := (begins_iff ordered V).mp one
  rw [ordered, List.mem_append, List.mem_cons] at second
  rcases second with before | same | behind
  · obtain ⟨left, right, rfl⟩ := List.append_of_mem before
    have placed : order lens M = left ++ t :: (right ++ s :: back) := by rw [ordered]; simp
    have theirs := (begins_iff placed V).mp other
    rw [weight_append, weight_cons] at bounds
    omega
  · exact same.symm
  · obtain ⟨left, right, rfl⟩ := List.append_of_mem behind
    have placed : order lens M = (front ++ s :: left) ++ t :: right := by rw [ordered]; simp
    have theirs := (begins_iff placed V).mp other
    rw [weight_append, weight_cons] at theirs
    omega

/-! ## How many texts the words take -/

theorem filled_cons (l x : Nat) :
    filled (x :: lens) l = filled lens l + if 0 < x ∧ x ≤ l then 2 ^ (l - x) else 0 := by
  induction l with
  | zero => simp [filled, Nat.pos_iff_ne_zero]
  | succ l ih =>
    rw [filled, filled, ih, List.count_cons]
    rcases Nat.lt_trichotomy x (l + 1) with shorter | rfl | longer
    · rw [if_neg (by simpa using shorter.ne : ¬(x == l + 1) = true)]
      by_cases some_ : 0 < x
      · rw [if_pos ⟨some_, by omega⟩, if_pos ⟨some_, by omega⟩, (by omega : l + 1 - x = l - x + 1),
          Nat.pow_succ]
        ring
      · simp [some_]
    · simp
      ring
    · rw [if_neg (by simpa using longer.ne' : ¬(x == l + 1) = true), if_neg (by omega),
        if_neg (by omega)]
      ring

/-- What is too much stays too much. -/
theorem filled_over (excess : 2 ^ l < filled lens l) (k : Nat) : 2 ^ (l + k) < filled lens (l + k) := by
  induction k with
  | zero => exact excess
  | succ k ih =>
    rw [← Nat.add_assoc, filled, Nat.pow_succ]
    omega

/-- What fits in the end fits at each length. -/
theorem filled_le (fits : filled lens M ≤ 2 ^ M) (short : l ≤ M) : filled lens l ≤ 2 ^ l := by
  obtain ⟨k, rfl⟩ := Nat.exists_eq_add_of_le short
  by_contra excess
  have too_many := filled_over (Nat.lt_of_not_le excess) k
  omega

/-- A word has no more bits than its length. -/
theorem code_lt (fits : filled lens M ≤ 2 ^ M) (coded : 0 < len lens s) (short : len lens s ≤ M) :
    code lens s < 2 ^ len lens s := by
  obtain ⟨l, length⟩ : ∃ l, len lens s = l + 1 := ⟨len lens s - 1, by omega⟩
  have inside := lt_length_of_len coded
  have own : lens.take (s + 1) = lens.take s ++ [len lens s] := by
    rw [len, List.getD_eq_getElem?_getD, List.getElem?_eq_getElem inside, Option.getD_some,
      List.take_append_getElem]
  have later : (lens.take s).count (len lens s) + 1 ≤ lens.count (len lens s) := by
    have among := (List.take_sublist (s + 1) lens).count_le (len lens s)
    rw [own, List.count_append, List.count_singleton_self] at among
    exact among
  have below := filled_le fits short
  rw [length, filled] at below
  rw [length] at later
  rw [code, length, nextCode_succ]
  omega

theorem kraft_mul (bounded : ∀ l ∈ lens, l ≤ M) : kraft lens * 2 ^ M = filled lens M := by
  induction lens with
  | nil =>
    have none : ∀ l, filled [] l = 0 := fun l => by
      induction l with
      | zero => rfl
      | succ l ih => rw [filled, ih]; rfl
    simp [kraft, none]
  | cons x rest ih =>
    have others := ih fun l member => bounded l (List.mem_cons_of_mem x member)
    have short := bounded x List.mem_cons_self
    rw [filled_cons, Nat.cast_add, ← others]
    by_cases none : x = 0
    · simp [kraft, none]
    · have part : (1 / 2 : ℚ) ^ x * 2 ^ M = 2 ^ (M - x) := by
        rw [(by omega : M = x + (M - x)), pow_add, ← mul_assoc, ← mul_pow]
        simp
      rw [if_pos ⟨Nat.pos_of_ne_zero none, short⟩, kraft, List.filter_cons_of_pos (by simpa using none),
        List.map_cons, List.sum_cons, add_mul, part, add_comm, kraft]
      push_cast
      ring

theorem kraft_lt_one (bounded : ∀ l ∈ lens, l ≤ M) : kraft lens < 1 ↔ filled lens M < 2 ^ M := by
  rw [← Nat.cast_lt (α := ℚ), ← kraft_mul bounded]
  push_cast
  exact (mul_lt_iff_lt_one_left (pow_pos (by decide) M)).symm

theorem kraft_eq_one (bounded : ∀ l ∈ lens, l ≤ M) : kraft lens = 1 ↔ filled lens M = 2 ^ M := by
  rw [← Nat.cast_inj (R := ℚ), ← kraft_mul bounded]
  push_cast
  exact (mul_eq_right₀ (pow_ne_zero M (by decide))).symm

theorem one_lt_kraft (bounded : ∀ l ∈ lens, l ≤ M) : 1 < kraft lens ↔ 2 ^ M < filled lens M := by
  rw [← Nat.cast_lt (α := ℚ), ← kraft_mul bounded]
  push_cast
  exact (lt_mul_iff_one_lt_left (pow_pos (by decide) M)).symm

/-- In the order of the symbols each length is found as often as in the lengths themselves. -/
theorem count_order (positive : 0 < l) (short : l ≤ M) :
    ((order lens M).map (len lens)).count l = lens.count l := by
  induction M with
  | zero => omega
  | succ M ih =>
    have same : (members lens (M + 1)).map (len lens) = List.replicate (lens.count (M + 1)) (M + 1) := by
      refine List.eq_replicate_iff.mpr ⟨by rw [List.length_map, length_members], ?_⟩
      intro x member
      obtain ⟨s, among, rfl⟩ := List.mem_map.mp member
      exact (mem_members.mp among).2
    rw [order, List.map_append, List.count_append, same, List.count_replicate]
    rcases Nat.eq_or_lt_of_le short with rfl | less
    · have none : ((order lens M).map (len lens)).count (M + 1) = 0 := by
        refine List.count_eq_zero.mpr fun member => ?_
        obtain ⟨s, among, length⟩ := List.mem_map.mp member
        have few := (mem_order.mp among).2
        omega
      simp [none]
    · rw [ih (by omega), if_neg (by simpa using (Nat.ne_of_lt less).symm), Nat.add_zero]

/-! ## Symbols without words behind the others -/

theorem len_append_zeros (lens : List Nat) (k s : Nat) :
    len (lens ++ List.replicate k 0) s = len lens s := by
  rw [len, len]
  rcases Nat.lt_or_ge s lens.length with inside | behind
  · exact List.getD_append _ _ _ _ inside
  · rw [List.getD_append_right _ _ _ _ behind, List.getD_eq_default _ _ behind]
    rw [List.getD_eq_getElem?_getD, List.getElem?_replicate]
    split <;> rfl

theorem kraft_append_zeros (lens : List Nat) (k : Nat) :
    kraft (lens ++ List.replicate k 0) = kraft lens := by
  simp [kraft]

theorem nextCode_append_zeros (lens : List Nat) (k l : Nat) :
    nextCode (lens ++ List.replicate k 0) l = nextCode lens l := by
  induction l using nextCode.induct with
  | case1 => rfl
  | case2 => rfl
  | case3 l ih =>
    have none : (List.replicate k 0).count (l + 1) = 0 := by simp [List.count_replicate]
    rw [nextCode, nextCode, ih, List.count_append, none]
    rfl

theorem code_append_zeros (k : Nat) (coded : 0 < len lens s) :
    code (lens ++ List.replicate k 0) s = code lens s := by
  rw [code, code, len_append_zeros, nextCode_append_zeros,
    List.take_append_of_le_length (lt_length_of_len coded).le]

end CanonicalCode
