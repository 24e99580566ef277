import Beast.Zlib.TableSize
import Mathlib.Algebra.BigOperators.Ring.List

/-! The tables that are made lead every string of bits to the symbol whose code it begins with. -/

namespace Beast.Zlib

open CanonicalCode BitReversal

namespace Build

/-- How many symbols a code has at most. -/
def limit : Build → Nat
  | codes => 19
  | lens => 286
  | dists => 30

/-- Whether an entry is taken for a link. -/
def isLink : Build → Code → Bool
  | codes, cp => cp.lenLink
  | lens, cp => cp.lenLink
  | dists, cp => cp.distLink

theorem link_isLink (type : Build) {op bits val : Nat} (positive : 0 < op) (small : op < 16) :
    type.isLink ⟨op, bits, val⟩ = true := by
  have both : ∀ op < 16, 0 < op → (op != 0 && op &&& 0xf0 == 0) = true ∧ (op &&& 0xf0 == 0) = true := by
    decide
  cases type with
  | codes => exact (both op small positive).1
  | lens => exact (both op small positive).1
  | dists => exact (both op small positive).2

theorem invalid_isLink (type : Build) (bits val : Nat) : type.isLink ⟨64, bits, val⟩ = false := by
  have none : ((64 : Nat) != 0 && (64 : Nat) &&& 0xf0 == 0) = false ∧ ((64 : Nat) &&& 0xf0 == 0) = false := by
    decide
  cases type with
  | codes => exact none.1
  | lens => exact none.1
  | dists => exact none.2

/-- What stands for a symbol is no link. -/
theorem here_isLink {type : Build} {s : Nat} (inside : s < type.limit) (work : Nat → Nat)
    (bits : Nat) : type.isLink (type.here work s bits) = false := by
  have lengths : ∀ k < 29, (lext.getD k 0 != 0 && lext.getD k 0 &&& 0xf0 == 0) = false := by decide
  have distances : ∀ k < 30, (dext.getD k 0 &&& 0xf0 == 0) = false := by decide
  cases type with
  | codes =>
    rw [here, if_pos (by simp only [end_]; exact_mod_cast inside)]
    rfl
  | lens =>
    change s < 286 at inside
    rcases Nat.lt_trichotomy s 256 with literal | rfl | length
    · rw [here, if_pos (by simp only [end_]; omega)]
      rfl
    · have ends : ((96 : Nat) != 0 && (96 : Nat) &&& 0xf0 == 0) = false := by decide
      exact ends
    · rw [here, if_neg (by simp only [end_]; omega), if_pos (by simp only [end_]; omega)]
      simp only [isLink, Code.lenLink, extra]
      exact lengths (s - 257) (by omega)
  | dists =>
    rw [here, if_neg (by simp only [end_]; omega), if_pos (by simp only [end_]; omega)]
    simp only [isLink, Code.distLink, extra]
    exact distances s inside

/-- What stands for a symbol says how many bits it takes. -/
@[simp] theorem here_bits (type : Build) (work : Nat → Nat) (s bits : Nat) :
    (type.here work s bits).bits = bits := by
  unfold here
  split
  · rfl
  · split <;> rfl

/-- More entries than too many are too many. -/
theorem tooMany_mono {type : Build} {used more : Nat} (le : used ≤ more)
    (excess : type.tooMany used = true) : type.tooMany more = true := by
  simp only [tooMany, Bool.or_eq_true, Bool.and_eq_true, decide_eq_true_eq] at excess ⊢
  rcases excess with ⟨same, excess⟩ | ⟨same, excess⟩
  · exact .inl ⟨same, Nat.lt_of_lt_of_le excess le⟩
  · exact .inr ⟨same, Nat.lt_of_lt_of_le excess le⟩

end Build

/-! ## Texts of 15 bits -/

section

variable {lens done rest : List Nat} {s t V root q : Nat}

/-- A text of 15 bits begins with the code of a symbol. -/
def Starts (lens : List Nat) (V s : Nat) : Prop := V / 2 ^ (15 - len lens s) = code lens s

/-- Codes that are not too many are numbers of as many bits as they have. -/
theorem code_lt (fits : filled lens 15 ≤ 2 ^ 15) (ordered : order lens 15 = done ++ s :: rest) :
    code lens s < 2 ^ len lens s := by
  have inside := mem_order.mp (ordered ▸ List.mem_append_right done List.mem_cons_self)
  have all := weight_all lens 15
  rw [ordered, weight_append, weight_cons, ← code_mul ordered] at all
  have last : (code lens s + 1) * 2 ^ (15 - len lens s) ≤ 2 ^ len lens s * 2 ^ (15 - len lens s) := by
    rw [← Nat.pow_add, Nat.add_sub_cancel' inside.2, Nat.succ_mul]
    omega
  exact Nat.le_of_mul_le_mul_right last (Nat.two_pow_pos _)

/-- The codes so far, turned round, are the next code, turned round. -/
theorem rev_weight (ordered : order lens 15 = done ++ s :: rest) :
    rev 15 (weight lens 15 done) = rev (len lens s) (code lens s) := by
  have inside := mem_order.mp (ordered ▸ List.mem_append_right done List.mem_cons_self)
  have shifted := rev_shift (len lens s) (15 - len lens s) (code lens s)
  rw [Nat.add_sub_cancel' inside.2, code_mul ordered] at shifted
  exact shifted

/-- A text begins with a code where its last bits, turned round, are the code turned round. -/
theorem starts_iff (fits : filled lens 15 ≤ 2 ^ 15) (ordered : order lens 15 = done ++ s :: rest)
    (small : V < 2 ^ 15) :
    Starts lens V s ↔ rev 15 V % 2 ^ len lens s = rev (len lens s) (code lens s) := by
  have inside := mem_order.mp (ordered ▸ List.mem_append_right done List.mem_cons_self)
  have front : V / 2 ^ (15 - len lens s) < 2 ^ len lens s := by
    apply Nat.div_lt_of_lt_mul
    rwa [← Nat.pow_add, Nat.sub_add_cancel inside.2]
  rw [rev_mod inside.2]
  constructor
  · intro starts
    rw [starts]
  · intro same
    have equal := rev_inj same
    rwa [Nat.mod_eq_of_lt front, Nat.mod_eq_of_lt (code_lt fits ordered)] at equal

/-- Texts that begin with a code that is longer than the first bits have its first bits. -/
theorem starts_div (starts : Starts lens V s) (short : len lens s ≤ 15) (long : root ≤ len lens s) :
    V / 2 ^ (15 - root) = code lens s / 2 ^ (len lens s - root) := by
  rw [← starts, Nat.div_div_eq_div_mul, ← Nat.pow_add]
  congr 2
  omega

/-- What words with so many bits at most take is a multiple of what one of them with so many bits takes. -/
theorem weight_dvd {l : Nat} (all : ∀ t ∈ done, len lens t ≤ l) :
    2 ^ (15 - l) ∣ weight lens 15 done := by
  refine List.dvd_sum fun w member => ?_
  obtain ⟨t, among, rfl⟩ := List.mem_map.mp member
  have short := all t among
  exact Nat.pow_dvd_pow 2 (by omega)

/-- The first bits of texts, turned round, tell them apart. -/
theorem rev_div_inj {U : Nat} (le : root ≤ 15) (small : V < 2 ^ 15) (small' : U < 2 ^ 15)
    (same : rev 15 V % 2 ^ root = rev 15 U % 2 ^ root) : V / 2 ^ (15 - root) = U / 2 ^ (15 - root) := by
  have front : ∀ {X : Nat}, X < 2 ^ 15 → X / 2 ^ (15 - root) < 2 ^ root := by
    intro X less
    apply Nat.div_lt_of_lt_mul
    rwa [← Nat.pow_add, Nat.sub_add_cancel le]
  rw [rev_mod le, rev_mod le] at same
  have equal := rev_inj same
  rwa [Nat.mod_eq_of_lt (front small), Nat.mod_eq_of_lt (front small')] at equal

end

/-! ## What holds while the entries are made -/

namespace TableJob

/-- The symbols in the order of their codes. -/
def order (j : TableJob) : List Nat := CanonicalCode.order j.lens 15

/-- How long the code of a symbol is. -/
def len (j : TableJob) (s : Nat) : Nat := CanonicalCode.len j.lens s

/-- What the codes of some symbols take of the texts of 15 bits. -/
def weight (j : TableJob) (symbols : List Nat) : Nat := CanonicalCode.weight j.lens 15 symbols

/-- What stands for a symbol in a table. -/
def entry (j : TableJob) (s bits : Nat) : Code := j.type.here j.work s bits

/-- How many texts have the same first bits. -/
def span (j : TableJob) : Nat := 2 ^ (15 - j.root)

@[simp] theorem weight_nil (j : TableJob) : j.weight [] = 0 := rfl

@[simp] theorem weight_cons (j : TableJob) (s : Nat) (symbols : List Nat) :
    j.weight (s :: symbols) = 2 ^ (15 - j.len s) + j.weight symbols :=
  CanonicalCode.weight_cons symbols

@[simp] theorem weight_append (j : TableJob) (front back : List Nat) :
    j.weight (front ++ back) = j.weight front + j.weight back :=
  CanonicalCode.weight_append front back

theorem span_pos (j : TableJob) : 0 < j.span := Nat.two_pow_pos _

/-- The first text that begins with the code of a symbol is behind those of the codes before it. -/
theorem starts_weight {j : TableJob} {done rest : List Nat} {s : Nat}
    (ordered : j.order = done ++ s :: rest) : Starts j.lens (j.weight done) s := by
  rw [Starts, weight, ← code_mul ordered, Nat.mul_div_cancel _ (Nat.two_pow_pos _)]

/-- The lengths were checked, and the symbols were sorted. -/
structure Sound (j : TableJob) : Prop where
  few : j.lens.length ≤ j.type.limit
  fits : filled j.lens 15 ≤ 2 ^ 15
  complete : filled j.lens 15 = 2 ^ 15 ∨ j.max = 1
  sorted : ∀ {front s back}, j.order = front ++ s :: back → j.work front.length = s
  positive : 0 < j.root
  below : j.root ≤ j.max
  most : j.max ≤ 15
  longest : ∀ s ∈ j.order, j.len s ≤ j.max
  last : 0 < (j.order.map j.len).count j.max

/-- A symbol is found for a text of 15 bits, in the entries before a place. -/
inductive Finds (j : TableJob) (entries : Nat → Code) (bound V s : Nat) : Prop
  | root (found : entries (rev 15 V % 2 ^ j.root) = j.entry s (j.len s))
  | sub {bits start : Nat} (link : entries (rev 15 V % 2 ^ j.root) = ⟨bits, j.root, start⟩)
      (positive : 0 < bits) (small : j.root + bits ≤ 15) (long : j.root < j.len s)
      (first : 2 ^ j.root ≤ start) (inside : start + 2 ^ bits ≤ bound)
      (found : entries (start + rev 15 V / 2 ^ j.root % 2 ^ bits) = j.entry s (j.len s - j.root))

/-- What is found stays found where no entry before the place is changed but those of other texts. -/
theorem Finds.frame {j : TableJob} {entries entries' : Nat → Code} {bound V s : Nat}
    (finds : j.Finds entries bound V s) (first : 2 ^ j.root ≤ bound)
    (same : ∀ p < bound, (p < 2 ^ j.root → p = rev 15 V % 2 ^ j.root) → entries' p = entries p) :
    j.Finds entries' bound V s := by
  have low : rev 15 V % 2 ^ j.root < 2 ^ j.root := Nat.mod_lt _ (Nat.two_pow_pos _)
  have kept := same _ (Nat.lt_of_lt_of_le low first) fun _ => rfl
  cases finds with
  | root found => exact .root (kept.trans found)
  | @sub bits start link positive small long from_ inside found =>
    have place : rev 15 V / 2 ^ j.root % 2 ^ bits < 2 ^ bits := Nat.mod_lt _ (Nat.two_pow_pos _)
    refine .sub (kept.trans link) positive small long from_ inside ?_
    rw [same _ (by omega) fun before => absurd before (by omega), found]

theorem Finds.mono {j : TableJob} {entries : Nat → Code} {bound more V s : Nat}
    (finds : j.Finds entries bound V s) (le : bound ≤ more) : j.Finds entries more V s := by
  cases finds with
  | root found => exact .root found
  | sub link positive small long from_ inside found =>
    exact .sub link positive small long from_ (Nat.le_trans inside le) found

end TableJob

namespace Filling

/-- The entries of the table of the first bits are made, for the symbols so far. -/
structure RootPhase (j : TableJob) (done : List Nat) (f : Filling) : Prop where
  next : f.next = 0
  curr : f.curr = j.root
  drop : f.drop = 0
  low : f.low = 2 ^ 32 - 1
  used : f.used = 2 ^ j.root
  short : ∀ t ∈ done, j.len t ≤ j.root
  found : ∀ t ∈ done, ∀ V < 2 ^ 15, Starts j.lens V t →
    f.entries (rev 15 V % 2 ^ j.root) = j.entry t (j.len t)

/-- The entries of the sub-table for some first bits are made, behind the tables before it. -/
structure SubPhase (j : TableJob) (done pending : List Nat) (q : Nat) (f : Filling) : Prop where
  drop : f.drop = j.root
  low : f.low = rev j.root q
  first : q * j.span ≤ j.weight done
  last : j.weight done ≤ (q + 1) * j.span
  room : q < 2 ^ j.root
  link : f.entries f.low = ⟨f.curr, j.root, f.next⟩
  positive : 0 < f.curr
  bits : j.root + f.curr ≤ 15
  after : 2 ^ j.root ≤ f.next
  near : f.next ≤ 2 ^ j.root + q * j.span
  used : f.used = f.next + 2 ^ f.curr
  size : f.used = sizeUpTo j.lens j.root (q + 1)
  covers : ∀ front t back, pending = front ++ t :: back →
    j.weight done + j.weight front < (q + 1) * j.span → j.len t ≤ j.root + f.curr
  found : ∀ t ∈ done, ∀ V < 2 ^ 15, Starts j.lens V t → V / j.span < q →
    j.Finds f.entries f.next V t
  current : ∀ t ∈ done, ∀ V < 2 ^ 15, Starts j.lens V t → V / j.span = q →
    j.root < j.len t ∧
      f.entries (f.next + rev 15 V / 2 ^ j.root % 2 ^ f.curr) = j.entry t (j.len t - j.root)

/-- The loop comes to a symbol, behind those that it has made entries for. -/
structure Awaits (j : TableJob) (done : List Nat) (s : Nat) (rest : List Nat) (f : Filling) :
    Prop where
  order : j.order = done ++ s :: rest
  sym : f.sym = done.length
  len : f.len = j.len s
  huff : f.huff = rev 15 (j.weight done)
  count : ∀ l, 0 < l → f.count l = ((s :: rest).map j.len).count l
  fits : j.type.tooMany f.used = false

variable {j : TableJob} {done rest : List Nat} {s q : Nat} {f : Filling}

/-- What is put where, when a symbol gets its entries. -/
theorem Awaits.enter_entries (awaits : Awaits j done s rest f) (sound : j.Sound) :
    (f.enter j).entries =
      replicate (j.entry s (j.len s - f.drop)) (f.next + f.huff >>> f.drop) (2 ^ (j.len s - f.drop))
        (2 ^ f.curr / 2 ^ (j.len s - f.drop)) f.entries := by
  rw [enter, awaits.len, awaits.sym, sound.sorted awaits.order]
  rfl

/-- The code that is next, turned round, has no more bits than it takes. -/
theorem Awaits.huff_eq (awaits : Awaits j done s rest f) :
    f.huff = rev (j.len s) (code j.lens s) :=
  awaits.huff.trans (rev_weight awaits.order)

/-- A text begins with the code that is next where it ends, turned round, with that code. -/
theorem Awaits.starts_iff (awaits : Awaits j done s rest f) (sound : j.Sound) {V : Nat}
    (small : V < 2 ^ 15) : Starts j.lens V s ↔ rev 15 V % 2 ^ j.len s = f.huff := by
  rw [awaits.huff_eq]
  exact Zlib.starts_iff sound.fits awaits.order small

/-- A text that begins with a code so far does not begin with the one that is next. -/
theorem Awaits.apart (awaits : Awaits j done s rest f) {t V : Nat} (member : t ∈ done)
    (starts : Starts j.lens V t) : ¬Starts j.lens V s := by
  intro other
  have once := nodup_order j.lens 15
  have ordered : CanonicalCode.order j.lens 15 = done ++ s :: rest := awaits.order
  have same := begins_unique (ordered ▸ List.mem_append_left _ member)
    (ordered ▸ List.mem_append_right _ List.mem_cons_self) starts other
  rw [ordered, List.nodup_middle, List.nodup_cons, same.symm] at once
  exact once.1 (List.mem_append_left _ member)

/-- A symbol gets its entries in the table of the first bits. -/
theorem Awaits.enter_root (awaits : Awaits j done s rest f) (sound : j.Sound)
    (phase : RootPhase j done f) (short : j.len s ≤ j.root) :
    RootPhase j (done ++ [s]) (f.enter j) := by
  have low : f.huff < 2 ^ j.len s := awaits.huff_eq ▸ rev_lt _ _
  have put : ∀ i < 2 ^ j.root, (f.enter j).entries i =
      if i % 2 ^ j.len s = f.huff then j.entry s (j.len s) else f.entries i := by
    intro i inside
    have index := @replicate_index 0 _ _ _ _ (j.entry s (j.len s)) f.entries low short inside
    rw [Nat.zero_add, Nat.zero_add] at index
    rw [awaits.enter_entries sound, phase.drop, phase.next, phase.curr, Nat.shiftRight_zero,
      Nat.sub_zero, Nat.zero_add, index]
  refine ⟨phase.next, phase.curr, phase.drop, phase.low, phase.used, ?_, ?_⟩
  · intro t member
    rcases List.mem_append.mp member with before | same
    · exact phase.short t before
    · rwa [List.mem_singleton.mp same]
  · intro t member V small starts
    have bits : rev 15 V % 2 ^ j.root % 2 ^ j.len s = rev 15 V % 2 ^ j.len s :=
      Nat.mod_mod_of_dvd _ (Nat.pow_dvd_pow 2 short)
    rw [put _ (Nat.mod_lt _ (Nat.two_pow_pos _)), bits]
    rcases List.mem_append.mp member with before | same
    · -- The entries of other symbols are at other places.
      rw [if_neg fun equal => awaits.apart before starts ((awaits.starts_iff sound small).mpr equal)]
      exact phase.found t before V small starts
    · rw [List.mem_singleton.mp same] at starts ⊢
      rw [if_pos ((awaits.starts_iff sound small).mp starts)]

/-- The texts that begin with the code that is next have the first bits of the texts before it. -/
theorem Awaits.starts_div (awaits : Awaits j done s rest f)
    (phase : SubPhase j done (s :: rest) q f) (long : j.root < j.len s)
    (open_ : j.weight done < (q + 1) * j.span) {V : Nat} (starts : Starts j.lens V s) :
    V / j.span = q := by
  have inside := mem_order.mp (awaits.order ▸ List.mem_append_right done List.mem_cons_self)
  -- The first text with this code has these first bits, and the others have the same.
  have same : j.weight done / j.span = q := Nat.div_eq_of_lt_le phase.first open_
  rw [TableJob.span, Zlib.starts_div starts inside.2 long.le,
    ← Zlib.starts_div (TableJob.starts_weight awaits.order) inside.2 long.le]
  exact same

/-- A symbol gets its entries in a sub-table. -/
theorem Awaits.enter_sub (awaits : Awaits j done s rest f) (sound : j.Sound)
    (phase : SubPhase j done (s :: rest) q f) (long : j.root < j.len s)
    (open_ : j.weight done < (q + 1) * j.span) :
    SubPhase j (done ++ [s]) rest q (f.enter j) := by
  have ordered : CanonicalCode.order j.lens 15 = done ++ s :: rest := awaits.order
  have inside := mem_order.mp (ordered ▸ List.mem_append_right done List.mem_cons_self)
  have bounded : j.len s ≤ 15 := inside.2
  have root_le : j.root ≤ 15 := Nat.le_trans sound.below sound.most
  have fits : j.len s ≤ j.root + f.curr := phase.covers [] s rest rfl (by simpa using open_)
  have grown : j.weight (done ++ [s]) = j.weight done + 2 ^ (15 - j.len s) := by
    simp
  -- The last text that begins with the code is still one of those with the same first bits.
  have last : j.weight (done ++ [s]) ≤ (q + 1) * j.span := by
    have some_ := Nat.two_pow_pos (15 - j.len s)
    have starts : Starts j.lens (j.weight done + (2 ^ (15 - j.len s) - 1)) s := by
      refine (begins_iff ordered _).mpr ⟨Nat.le_add_right _ _, ?_⟩
      change _ < j.weight done + 2 ^ (15 - j.len s)
      omega
    have same := awaits.starts_div phase long open_ starts
    have bounds := (Nat.div_lt_iff_lt_mul j.span_pos).mp (same.trans_lt (Nat.lt_add_one q))
    rw [grown]
    omega
  have low : f.huff >>> f.drop < 2 ^ (j.len s - f.drop) := by
    rw [phase.drop, Nat.shiftRight_eq_div_pow]
    apply Nat.div_lt_of_lt_mul
    rw [← Nat.pow_add, Nat.add_sub_cancel' long.le]
    exact awaits.huff_eq ▸ rev_lt _ _
  have drop : j.len s - f.drop ≤ f.curr := by
    rw [phase.drop]
    omega
  have put : ∀ i < 2 ^ f.curr, (f.enter j).entries (f.next + i) =
      if i % 2 ^ (j.len s - j.root) = f.huff >>> j.root then j.entry s (j.len s - j.root)
      else f.entries (f.next + i) := by
    intro i small
    rw [awaits.enter_entries sound, replicate_index _ _ low drop small, phase.drop]
  have kept : ∀ p < f.next, (f.enter j).entries p = f.entries p := by
    intro p before
    rw [awaits.enter_entries sound, replicate_outside _ _ low drop (.inl before)]
  -- The first bits of the code that is next are those of the sub-table.
  have lowest : f.huff % 2 ^ j.root = f.low := by
    have first := awaits.starts_div phase long open_ (TableJob.starts_weight ordered)
    rw [awaits.huff, rev_mod root_le, phase.low, ← first, TableJob.span]
  refine ⟨phase.drop, phase.low, ?_, last, phase.room, ?_, phase.positive, phase.bits, phase.after,
    phase.near, phase.used, phase.size, ?_, ?_, ?_⟩
  · rw [grown]
    exact Nat.le_trans phase.first (Nat.le_add_right _ _)
  · exact (kept _ (phase.low ▸ Nat.lt_of_lt_of_le (rev_lt _ _) phase.after)).trans phase.link
  · rintro front t back rfl near
    refine phase.covers (s :: front) t back rfl ?_
    rw [grown] at near
    simpa [Nat.add_assoc] using near
  · intro t member V small starts before
    rcases List.mem_append.mp member with earlier | same
    · exact (phase.found t earlier V small starts before).frame phase.after fun p less _ => kept p less
    · rw [List.mem_singleton.mp same] at starts
      rw [awaits.starts_div phase long open_ starts] at before
      exact absurd before (Nat.lt_irrefl q)
  · intro t member V small starts here
    have index : rev 15 V / 2 ^ j.root % 2 ^ f.curr % 2 ^ (j.len s - j.root) =
        rev 15 V % 2 ^ j.len s / 2 ^ j.root := by
      rw [Nat.mod_mod_of_dvd _ (Nat.pow_dvd_pow 2 (by omega)),
        (by omega : j.len s = j.root + (j.len s - j.root)), Nat.pow_add, Nat.mod_mul_right_div_self,
        Nat.add_sub_cancel_left]
    have bits : rev 15 V % 2 ^ j.len s % 2 ^ j.root = rev 15 V % 2 ^ j.root :=
      Nat.mod_mod_of_dvd _ (Nat.pow_dvd_pow 2 long.le)
    have place := put _ (Nat.mod_lt (rev 15 V / 2 ^ j.root) (Nat.two_pow_pos f.curr))
    rw [index, Nat.shiftRight_eq_div_pow] at place
    rcases List.mem_append.mp member with earlier | same
    · obtain ⟨longer, found⟩ := phase.current t earlier V small starts here
      refine ⟨longer, ?_⟩
      -- The text has the first bits of this code, so that it has others behind them.
      have other : rev 15 V % 2 ^ j.len s / 2 ^ j.root ≠ f.huff / 2 ^ j.root := by
        intro equal
        refine awaits.apart earlier starts ((awaits.starts_iff sound small).mpr ?_)
        have front : rev 15 V % 2 ^ j.root = f.low := by
          rw [rev_mod root_le, phase.low, ← here, TableJob.span]
        rw [← Nat.div_add_mod (rev 15 V % 2 ^ j.len s) (2 ^ j.root), equal, bits, front, ← lowest,
          Nat.div_add_mod]
      rw [if_neg other] at place
      exact place.trans found
    · rw [List.mem_singleton.mp same] at starts ⊢
      refine ⟨long, ?_⟩
      rw [if_pos (by rw [(awaits.starts_iff sound small).mp starts])] at place
      exact place

/-! ## Sub-tables -/

/-- What the loop has, where it has made the entries of some symbols. -/
structure Entered (j : TableJob) (done rest : List Nat) (g : Filling) : Prop where
  order : j.order = done ++ rest
  sym : g.sym = done.length
  huff : g.huff = rev 15 (j.weight done)
  count : ∀ l, 0 < l → g.count l = (rest.map j.len).count l
  fits : j.type.tooMany g.used = false

/-- A symbol that has its entries leaves the codes behind it. -/
theorem Awaits.entered (awaits : Awaits j done s rest f) :
    Entered j (done ++ [s]) rest (f.enter j) := by
  have ordered : CanonicalCode.order j.lens 15 = done ++ s :: rest := awaits.order
  have inside := mem_order.mp (ordered ▸ List.mem_append_right done List.mem_cons_self)
  have bounded : j.len s ≤ 15 := inside.2
  refine ⟨by rw [awaits.order, List.append_assoc]; rfl, ?_, ?_, ?_, awaits.fits⟩
  · rw [enter, awaits.sym, List.length_append, List.length_singleton]
  · have next : j.weight (done ++ [s]) = (code j.lens s + 1) * 2 ^ (15 - j.len s) := by
      rw [TableJob.weight_append, TableJob.weight_cons, TableJob.weight_nil, Nat.succ_mul]
      exact congrArg (· + 2 ^ (15 - j.len s)) (code_mul ordered).symm
    have shifted := rev_shift (j.len s) (15 - j.len s) (code j.lens s + 1)
    rw [Nat.add_sub_cancel' bounded, ← next] at shifted
    rw [enter, shifted]
    dsimp only
    rw [incrementBackwards_eq, awaits.len, awaits.huff_eq, bump_rev]
  · intro l positive
    have all := awaits.count l positive
    rw [List.map_cons, List.count_cons] at all
    change Function.update f.count f.len (f.count f.len - 1) l = _
    rw [Function.update_apply, awaits.len]
    split
    · rename_i same
      rw [← same, all, same]
      simp
    · rename_i other
      rw [all, if_neg (by simpa using Ne.symm other), Nat.add_zero]

/-- The tables so far are made, for all texts with the first bits so far. -/
structure Behind (j : TableJob) (done : List Nat) (q : Nat) (g : Filling) : Prop where
  drop : g.drop = 0 ∨ g.drop = j.root
  weight : j.weight done = q * j.span
  used : g.used = g.next + 2 ^ g.curr
  size : g.used = sizeUpTo j.lens j.root q
  first : 2 ^ j.root ≤ g.used
  near : g.used ≤ 2 ^ j.root + q * j.span
  found : ∀ t ∈ done, ∀ V < 2 ^ 15, Starts j.lens V t → j.Finds g.entries g.used V t

/-- The first bits of a code that is long enough are those of the first text that begins with it. -/
theorem first_bits {t : Nat} {back : List Nat} (ordered : j.order = done ++ t :: back)
    (long : j.root ≤ j.len t) :
    code j.lens t / 2 ^ (j.len t - j.root) = j.weight done / j.span := by
  have inside := mem_order.mp (ordered ▸ List.mem_append_right done List.mem_cons_self)
  exact (Zlib.starts_div (TableJob.starts_weight ordered) inside.2 long).symm

/-- Texts that begin with codes so far are in front of the end of these codes. -/
theorem lt_weight {t V : Nat} (ordered : j.order = done ++ rest) (member : t ∈ done)
    (starts : Starts j.lens V t) : V < j.weight done := by
  obtain ⟨front, back, rfl⟩ := List.append_of_mem member
  have placed : CanonicalCode.order j.lens 15 = front ++ t :: (back ++ rest) := by
    rw [← List.cons_append, ← List.append_assoc]
    exact ordered
  have bounds := ((begins_iff placed V).mp starts).2
  rw [TableJob.weight_append, TableJob.weight_cons]
  change V < j.weight front + 2 ^ (15 - j.len t) at bounds
  omega

/-- Behind the codes that are no longer than the first bits a sub-table starts. -/
theorem RootPhase.behind {g : Filling} (phase : RootPhase j done g)
    (ordered : j.order = done ++ rest) : Behind j done (j.weight done / j.span) g := by
  have whole : j.weight done = j.weight done / j.span * j.span :=
    (Nat.div_mul_cancel (weight_dvd phase.short)).symm
  refine ⟨.inl phase.drop, whole, ?_, ?_, phase.used.ge, ?_, ?_⟩
  · rw [phase.used, phase.next, phase.curr, Nat.zero_add]
  · rw [sizeUpTo_none (Nat.zero_le _), sizeUpTo_zero, phase.used]
    intro r _ less
    -- The codes that are longer are behind the texts so far.
    refine List.filter_eq_nil_iff.mpr fun t member => ?_
    rw [decide_eq_true_eq, not_and]
    intro long same
    have among : t ∈ done ++ rest := ordered ▸ member
    rcases List.mem_append.mp among with before | behind
    · exact absurd long (Nat.not_lt.mpr (phase.short t before))
    · obtain ⟨front, back, rfl⟩ := List.append_of_mem behind
      rw [← List.append_assoc] at ordered
      have bits := first_bits ordered long.le
      have more : j.weight done / j.span ≤ j.weight (done ++ front) / j.span := by
        rw [TableJob.weight_append]
        exact Nat.div_le_div_right (Nat.le_add_right _ _)
      rw [← bits] at more
      exact absurd less (Nat.not_lt.mpr (same ▸ more))
  · rw [phase.used]
    exact Nat.le_add_right _ _
  · exact fun t member V small starts => .root (phase.found t member V small starts)

/-- All codes so far are found, in the sub-table or before it. -/
theorem SubPhase.finds {g : Filling} {t V : Nat} (phase : SubPhase j done rest q g)
    (ordered : j.order = done ++ rest) (member : t ∈ done) (small : V < 2 ^ 15)
    (starts : Starts j.lens V t) : j.Finds g.entries g.used V t := by
  have before : V / j.span < q + 1 := by
    refine (Nat.div_lt_iff_lt_mul j.span_pos).mpr ?_
    exact Nat.lt_of_lt_of_le (lt_weight ordered member starts) phase.last
  rcases Nat.lt_or_ge (V / j.span) q with earlier | here
  · refine (phase.found t member V small starts earlier).mono ?_
    rw [phase.used]
    exact Nat.le_add_right _ _
  · have same : V / j.span = q := by omega
    obtain ⟨long, found⟩ := phase.current t member V small starts same
    have bits := phase.bits
    have link : rev 15 V % 2 ^ j.root = g.low := by
      rw [rev_mod (by omega), phase.low, ← same, TableJob.span]
    exact .sub (link ▸ phase.link) phase.positive bits long phase.after phase.used.ge found

/-- Behind the codes with the first bits of a sub-table another one starts. -/
theorem SubPhase.behind {g : Filling} (phase : SubPhase j done rest q g)
    (ordered : j.order = done ++ rest) (closed : j.weight done = (q + 1) * j.span) :
    Behind j done (q + 1) g := by
  have own : 2 ^ g.curr ≤ j.span := by
    have bits := phase.bits
    exact Nat.pow_le_pow_right (by decide) (by omega)
  have near := phase.near
  refine ⟨.inr phase.drop, closed, phase.used, phase.size, ?_, ?_, ?_⟩
  · rw [phase.used]
    exact Nat.le_trans phase.after (Nat.le_add_right _ _)
  · rw [phase.used, Nat.add_mul, Nat.one_mul]
    omega
  · exact fun t member V small starts => phase.finds ordered member small starts

/-- Where codes come next, the first bits of them are not behind all others. -/
theorem Entered.room {g : Filling} (entered : Entered j done (s :: rest) g) (sound : j.Sound)
    (weight : j.weight done = q * j.span) : q < 2 ^ j.root := by
  have root_le : j.root ≤ 15 := Nat.le_trans sound.below sound.most
  have whole : 2 ^ j.root * j.span = 2 ^ 15 := by
    rw [TableJob.span, ← Nat.pow_add, Nat.add_sub_cancel' root_le]
  have total : j.weight done + j.weight (s :: rest) = filled j.lens 15 := by
    rw [← TableJob.weight_append, ← entered.order]
    exact weight_all j.lens 15
  have some_ : 0 < j.weight (s :: rest) := by
    rw [TableJob.weight_cons]
    exact Nat.add_pos_left (Nat.two_pow_pos _) _
  have less : q * j.span < 2 ^ j.root * j.span := by
    rw [← weight, whole]
    exact Nat.lt_of_lt_of_le (by omega) sound.fits
  exact Nat.lt_of_mul_lt_mul_right less

/-- The codes that come next fill the sub-table that is made for them. -/
theorem Entered.sized {g : Filling} (entered : Entered j done (s :: rest) g) (sound : j.Sound)
    (long : j.root < j.len s) :
    j.len s - j.root ≤ subTableBits g.count j.root (j.max - (j.len s - j.root + j.root))
        (j.len s - j.root) (2 ^ (j.len s - j.root)) ∧
      Sized j.lens (s :: rest) j.root j.max (subTableBits g.count j.root
        (j.max - (j.len s - j.root + j.root)) (j.len s - j.root) (2 ^ (j.len s - j.root))) := by
  have bounded := sound.longest s (entered.order ▸ List.mem_append_right done List.mem_cons_self)
  have most := sound.most
  refine subTableBits_sized entered.count most sound.positive (by omega) (Int.pow_pos (by decide)) ?_
  -- No code that comes next is shorter than the first of them.
  have none : shorter j.lens (s :: rest) (j.root + (j.len s - j.root)) = 0 := by
    have ordered : CanonicalCode.order j.lens 15 = done ++ s :: rest := entered.order
    have sorted := pairwise_order j.lens 15
    rw [ordered, List.pairwise_append] at sorted
    have least := (List.pairwise_cons.mp sorted.2.1).1
    rw [shorter, List.filter_eq_nil_iff.mpr fun t member => ?_]
    · rfl
    · rcases List.mem_cons.mp member with rfl | behind
      · change ¬decide (j.len t < _) = true
        simp
        omega
      · have more := least t behind
        change j.len s ≤ j.len t at more
        change ¬decide (j.len t < _) = true
        simp
        omega
  rw [none, ← pow_add]
  simp
  omega

/-- The sub-table that is made has the size of the one that the code needs. -/
theorem Behind.subTableSize_eq {g : Filling} {curr : Nat} (behind : Behind j done q g)
    (ordered : j.order = done ++ rest) (sound : j.Sound) (some_ : 0 < curr)
    (sized : Sized j.lens rest j.root j.max curr) (filled_ : j.span ≤ j.weight rest) :
    subTableSize j.lens j.root q = 2 ^ curr := by
  have sorted := pairwise_order j.lens 15
  have all : CanonicalCode.order j.lens 15 = done ++ rest := ordered
  rw [all, List.pairwise_append] at sorted
  have most : ∀ t ∈ rest, CanonicalCode.len j.lens t ≤ j.max := fun t member =>
    sound.longest t (ordered ▸ List.mem_append_right done member)
  -- A code that comes next has these first bits where those in front of it do not fill the table.
  have bits : ∀ {front t back}, rest = front ++ t :: back → j.root < j.len t →
      (code j.lens t / 2 ^ (j.len t - j.root) = q ↔ j.weight front < j.span) := by
    rintro front t back rfl long
    rw [← List.append_assoc] at ordered
    rw [first_bits ordered long.le, TableJob.weight_append, behind.weight,
      Nat.div_eq_iff j.span_pos]
    have more := j.span_pos
    omega
  obtain ⟨front, t, back, cut, inside, deep⟩ := sized.reached sorted.2.1 most filled_
  change j.len t = _ at deep
  have longest_ : longest j.lens (behindRoot j.lens j.root q) = j.len t := by
    refine longest_eq ?_ fun u member => ?_
    · refine List.mem_filter.mpr ⟨?_, ?_⟩
      · rw [all, cut]
        simp
      · rw [decide_eq_true_eq]
        exact ⟨by change j.root < j.len t; omega, (bits cut (by omega)).mpr inside⟩
    · obtain ⟨among, holds⟩ := List.mem_filter.mp member
      obtain ⟨long, same⟩ := of_decide_eq_true holds
      change j.root < j.len u at long
      rw [all] at among
      rcases List.mem_append.mp among with before | later
      · -- The codes so far have first bits that are in front of these.
        obtain ⟨left, right, cut'⟩ := List.append_of_mem before
        have placed : j.order = left ++ u :: (right ++ rest) := by
          rw [ordered, cut', List.append_assoc, List.cons_append]
        have earlier := lt_weight ordered before (TableJob.starts_weight placed)
        have quotient := first_bits placed long.le
        rw [behind.weight] at earlier
        have less := (Nat.div_lt_iff_lt_mul j.span_pos).mpr earlier
        change code j.lens u / 2 ^ (j.len u - j.root) = q at same
        omega
      · obtain ⟨left, right, cut'⟩ := List.append_of_mem later
        change j.len u ≤ j.len t
        rw [deep]
        exact sized.covers sorted.2.1 most cut' ((bits cut' long).mp same)
  rw [subTableSize, longest_]
  rw [if_neg (by omega), deep, Nat.add_sub_cancel_left]

/-- What a new sub-table leaves alone. -/
structure Same (f g : Filling) : Prop where
  sym : g.sym = f.sym
  len : g.len = f.len
  huff : g.huff = f.huff
  count : g.count = f.count

/-- A new sub-table is made where there is space for it. -/
theorem Behind.subTable {g : Filling} (behind : Behind j done q g)
    (entered : Entered j done (s :: rest) g) (sound : j.Sound) (own : g.len = j.len s)
    (long : j.root < j.len s) :
    (g.subTable j = .inr .not_enough ∧ j.type.tooMany (tableSize j.lens j.root) = true) ∨
      ∃ f, g.subTable j = .inl f ∧ Same g f ∧ j.type.tooMany f.used = false ∧
        SubPhase j done (s :: rest) q f ∧ j.weight done < (q + 1) * j.span := by
  have root_le : j.root ≤ 15 := Nat.le_trans sound.below sound.most
  have bounded := sound.longest s (entered.order ▸ List.mem_append_right done List.mem_cons_self)
  have most := sound.most
  -- All texts begin with codes, so that those that come next fill the sub-table.
  have complete : filled j.lens 15 = 2 ^ 15 := by
    rcases sound.complete with all | lone
    · exact all
    · have positive := sound.positive
      omega
  have whole : 2 ^ 15 = 2 ^ j.root * j.span := by
    rw [TableJob.span, ← Nat.pow_add, Nat.add_sub_cancel' root_le]
  have total : j.weight done + j.weight (s :: rest) = 2 ^ 15 := by
    rw [← TableJob.weight_append, ← entered.order, ← complete]
    exact weight_all j.lens 15
  have room := entered.room sound behind.weight
  have filled_ : j.span ≤ j.weight (s :: rest) := by
    have last : (q + 1) * j.span ≤ 2 ^ j.root * j.span := Nat.mul_le_mul_right _ room
    rw [← whole, Nat.add_mul, Nat.one_mul, ← behind.weight] at last
    omega
  obtain ⟨grows, sized⟩ := entered.sized sound long
  obtain ⟨curr, bits⟩ : ∃ c, subTableBits g.count j.root (j.max - (j.len s - j.root + j.root))
    (j.len s - j.root) (2 ^ (j.len s - j.root)) = c := ⟨_, rfl⟩
  rw [bits] at grows sized
  have size := behind.subTableSize_eq entered.order sound (by omega) sized filled_
  have used : g.used + 2 ^ curr = sizeUpTo j.lens j.root (q + 1) := by
    rw [sizeUpTo_succ, size, behind.size]
  have drop : (if g.drop = 0 then j.root else g.drop) = j.root := by
    rcases behind.drop with none | same
    · rw [if_pos none]
    · rw [same]
      split <;> rfl
  have made : g.subTable j =
      if j.type.tooMany (g.used + 2 ^ curr) then .inr .not_enough
      else .inl { g with
        drop := j.root, next := g.used, curr, used := g.used + 2 ^ curr
        low := g.huff &&& (2 ^ j.root - 1)
        entries := Function.update g.entries (g.huff &&& (2 ^ j.root - 1))
          ⟨curr, j.root, g.used % 2 ^ 16⟩ } := by
    rw [Filling.subTable]
    dsimp only
    rw [drop, own, ← behind.used]
    rw [bits]
  have near : g.used < 2 ^ 16 := by
    have close := behind.near
    have less := Nat.pow_le_pow_right (by decide : 0 < 2) root_le
    have some_ := j.span_pos
    rw [← behind.weight] at close
    omega
  have low : g.huff &&& (2 ^ j.root - 1) = rev j.root q := by
    have quotient : q * j.span / 2 ^ (15 - j.root) = q := Nat.mul_div_cancel q j.span_pos
    rw [Nat.and_two_pow_sub_one_eq_mod, entered.huff, rev_mod root_le, behind.weight, quotient]
  rw [made]
  split
  · rename_i excess
    refine .inl ⟨rfl, Build.tooMany_mono ?_ excess⟩
    rw [used]
    exact sizeUpTo_mono room
  · rename_i fits
    refine .inr ⟨_, rfl, ⟨rfl, rfl, rfl, rfl⟩, by simpa using fits, ?_, ?_⟩
    · refine ⟨rfl, low, behind.weight.ge, ?_, room, ?_, by dsimp only; omega, ?_, behind.first,
        behind.near, rfl, used, ?_, ?_, ?_⟩
      · rw [behind.weight]
        exact Nat.mul_le_mul_right _ (Nat.le_succ q)
      · dsimp only
        rw [Function.update_self, Nat.mod_eq_of_lt near]
      · have bound := sized.bits
        dsimp only
        omega
      · intro front t back cut inside
        have sorted := pairwise_order j.lens 15
        have all : CanonicalCode.order j.lens 15 = done ++ s :: rest := entered.order
        rw [all, List.pairwise_append] at sorted
        rw [behind.weight, Nat.add_mul, Nat.one_mul] at inside
        refine sized.covers sorted.2.1 (fun u member => ?_) cut (Nat.lt_of_add_lt_add_left inside)
        exact sound.longest u (entered.order ▸ List.mem_append_right done member)
      · intro t member V small starts before
        -- The link to the sub-table is at the place of other texts.
        refine (behind.found t member V small starts).frame behind.first fun p _ own => ?_
        dsimp only
        rw [Function.update_of_ne]
        rintro rfl
        have same := own (low ▸ rev_lt _ _)
        rw [low, rev_mod root_le] at same
        have equal := rev_inj same
        have front : V / 2 ^ (15 - j.root) < q := before
        rw [Nat.mod_eq_of_lt room, Nat.mod_eq_of_lt (Nat.lt_trans front room)] at equal
        exact absurd equal.symm front.ne
      · intro t member V small starts same
        have less := lt_weight entered.order member starts
        rw [behind.weight] at less
        exact absurd same ((Nat.div_lt_iff_lt_mul j.span_pos).mpr less).ne
    · rw [behind.weight]
      exact Nat.mul_lt_mul_of_pos_right (Nat.lt_succ_self q) j.span_pos

/-! ## The loop over the symbols -/

/-- Which table the symbol that comes next has its entries in. -/
inductive Phase (j : TableJob) (done : List Nat) (s : Nat) (rest : List Nat) (f : Filling) : Prop
  | root (phase : RootPhase j done f) (short : j.len s ≤ j.root)
  | sub (q : Nat) (phase : SubPhase j done (s :: rest) q f) (long : j.root < j.len s)
      (open_ : j.weight done < (q + 1) * j.span)

/-- Where the loop goes on behind a symbol, or there is no space. -/
theorem Entered.proceed {g : Filling} (entered : Entered j done (s :: rest) g) (sound : j.Sound)
    (own : g.len = j.len s)
    (phases : RootPhase j done g ∨
      ∃ q, SubPhase j done (s :: rest) q g ∧ j.root < j.len s) :
    (g.proceed j = .inr .not_enough ∧ j.type.tooMany (tableSize j.lens j.root) = true) ∨
      ∃ f, g.proceed j = .inl f ∧ Awaits j done s rest f ∧ Phase j done s rest f := by
  have root_le : j.root ≤ 15 := Nat.le_trans sound.below sound.most
  have stays : Awaits j done s rest g :=
    ⟨entered.order, entered.sym, own, entered.huff, entered.count, entered.fits⟩
  have goes : ∀ {q}, Behind j done q g → j.root < j.len s →
      g.huff &&& (2 ^ j.root - 1) ≠ g.low →
      (g.proceed j = .inr .not_enough ∧ j.type.tooMany (tableSize j.lens j.root) = true) ∨
        ∃ f, g.proceed j = .inl f ∧ Awaits j done s rest f ∧ Phase j done s rest f := by
    intro q behind long other
    rw [Filling.proceed, own, if_pos ⟨long, other⟩]
    rcases behind.subTable entered sound own long with none | ⟨f, made, same, fits, phase, open_⟩
    · exact .inl none
    · refine .inr ⟨f, made, ⟨entered.order, ?_, ?_, ?_, ?_, fits⟩, .sub q phase long open_⟩
      · rw [same.sym, entered.sym]
      · rw [same.len, own]
      · rw [same.huff, entered.huff]
      · rw [same.count]
        exact entered.count
  have remains : Phase j done s rest g →
      ¬(j.root < g.len ∧ g.huff &&& (2 ^ j.root - 1) ≠ g.low) →
      ∃ f, g.proceed j = .inl f ∧ Awaits j done s rest f ∧ Phase j done s rest f := by
    intro phase same
    exact ⟨g, by rw [Filling.proceed, if_neg same], stays, phase⟩
  rcases phases with phase | ⟨q, phase, long⟩
  · rcases Nat.lt_or_ge j.root (j.len s) with long | short
    · refine goes (phase.behind entered.order) long ?_
      -- No first bits are what the mask is compared with at first.
      rw [Nat.and_two_pow_sub_one_eq_mod, phase.low]
      have less : g.huff % 2 ^ j.root < 2 ^ j.root := Nat.mod_lt _ (Nat.two_pow_pos _)
      have small := Nat.pow_le_pow_right (by decide : 0 < 2) root_le
      omega
    · exact .inr (remains (.root phase short) (by omega))
  · rcases Nat.lt_or_ge (j.weight done) ((q + 1) * j.span) with open_ | closed
    · refine .inr (remains (.sub q phase long open_) ?_)
      rw [not_and_not_right]
      intro _
      have bits : j.weight done / 2 ^ (15 - j.root) = q := Nat.div_eq_of_lt_le phase.first open_
      rw [Nat.and_two_pow_sub_one_eq_mod, entered.huff, rev_mod root_le, phase.low, bits]
    · have same := Nat.le_antisymm phase.last closed
      refine goes (phase.behind entered.order same) long ?_
      have bits : j.weight done / 2 ^ (15 - j.root) = q + 1 := by
        rw [same]
        exact Nat.mul_div_cancel _ j.span_pos
      rw [Nat.and_two_pow_sub_one_eq_mod, entered.huff, rev_mod root_le, phase.low, bits]
      intro equal
      have equal := rev_inj equal
      rw [Nat.mod_eq_of_lt (entered.room sound same), Nat.mod_eq_of_lt phase.room] at equal
      omega

/-- All codes have entries. -/
structure Complete (j : TableJob) (g : Filling) : Prop where
  huff : g.huff = rev 15 (j.weight j.order)
  used : g.used = tableSize j.lens j.root
  fits : j.type.tooMany g.used = false
  found : ∀ t ∈ j.order, ∀ V < 2 ^ 15, Starts j.lens V t → j.Finds g.entries g.used V t
  /-- Where codes are no longer than the first bits, there are no other tables. -/
  single : j.max = j.root → g.next = 0 ∧ g.drop = 0 ∧ g.len = j.max

/-- The tables are complete behind the last symbol. -/
theorem Entered.complete {g : Filling} (entered : Entered j done [] g) (own : g.len = j.max)
    (phases : RootPhase j done g ∨ ∃ q, SubPhase j done [] q g ∧ j.root < j.max) :
    Complete j g := by
  have all : j.order = done := by rw [entered.order, List.append_nil]
  have huff : g.huff = rev 15 (j.weight j.order) := by rw [entered.huff, all]
  rcases phases with phase | ⟨q, phase, long⟩
  · refine ⟨huff, ?_, entered.fits, ?_, fun _ => ⟨phase.next, phase.drop, own⟩⟩
    · rw [tableSize, sizeUpTo_none (Nat.zero_le _), sizeUpTo_zero, phase.used]
      intro r _ _
      refine List.filter_eq_nil_iff.mpr fun t member => ?_
      rw [decide_eq_true_eq, not_and]
      intro longer
      exact absurd longer (Nat.not_lt.mpr (phase.short t (all ▸ member)))
    · rw [all]
      exact fun t member V small starts => .root (phase.found t member V small starts)
  · refine ⟨huff, ?_, entered.fits, ?_, fun same => absurd same long.ne'⟩
    · rw [tableSize, sizeUpTo_none phase.room, phase.size]
      intro r more _
      -- The first bits of all codes are those of the last sub-table at most.
      refine List.filter_eq_nil_iff.mpr fun t member => ?_
      rw [decide_eq_true_eq, not_and]
      intro longer same
      obtain ⟨front, back, placed⟩ := List.append_of_mem member
      have before := lt_weight entered.order (all ▸ member) (TableJob.starts_weight placed)
      have less := (Nat.div_lt_iff_lt_mul j.span_pos).mpr (Nat.lt_of_lt_of_le before phase.last)
      rw [← first_bits placed longer.le] at less
      change code j.lens t / 2 ^ (j.len t - j.root) = r at same
      omega
    · rw [all]
      exact fun t member V small starts => phase.finds entered.order member small starts

/-- One turn of the loop: it goes on with the next symbol, or ends behind the last one. -/
theorem Awaits.turn (awaits : Awaits j done s rest f) (phase : Phase j done s rest f)
    (sound : j.Sound) :
    (∃ g, f.turn j = .inr (.all g) ∧ rest = [] ∧ Complete j g) ∨
      (f.turn j = .inr .not_enough ∧ j.type.tooMany (tableSize j.lens j.root) = true) ∨
      ∃ g t rest', f.turn j = .inl g ∧ rest = t :: rest' ∧ Awaits j (done ++ [s]) t rest' g ∧
        Phase j (done ++ [s]) t rest' g := by
  have entered := awaits.entered
  have among : s ∈ j.order := awaits.order ▸ List.mem_append_right done List.mem_cons_self
  have positive : 0 < j.len s := (mem_order.mp among).1
  have bounded := sound.longest s among
  have phases : RootPhase j (done ++ [s]) (f.enter j) ∨
      ∃ q, SubPhase j (done ++ [s]) rest q (f.enter j) ∧ j.root < j.len s := by
    cases phase with
    | root phase short => exact .inl (awaits.enter_root sound phase short)
    | sub q phase long open_ => exact .inr ⟨q, awaits.enter_sub sound phase long open_, long⟩
  have sorted := pairwise_order j.lens 15
  have ordered : CanonicalCode.order j.lens 15 = done ++ s :: rest := awaits.order
  rw [ordered, List.pairwise_append] at sorted
  have least := (List.pairwise_cons.mp sorted.2.1).1
  have left : (f.enter j).count f.len = (rest.map j.len).count (j.len s) := by
    rw [awaits.len]
    exact entered.count _ positive
  cases rest with
  | nil =>
    -- The last code is a longest one.
    have last : j.len s = j.max := by
      obtain ⟨u, member, long⟩ := List.mem_map.mp (List.count_pos_iff.mp sound.last)
      rw [awaits.order, List.mem_append, List.mem_singleton] at member
      rcases member with before | rfl
      · have less := sorted.2.2 u before s List.mem_cons_self
        change j.len u ≤ j.len s at less
        omega
      · exact long
    refine .inl ⟨f.enter j, ?_, rfl, ?_⟩
    · rw [Filling.turn, left, List.map_nil, List.count_nil, if_pos rfl, awaits.len, last, if_pos rfl]
    · refine entered.complete (awaits.len.trans last) ?_
      rcases phases with phase | ⟨q, phase, long⟩
      · exact .inl phase
      · exact .inr ⟨q, phase, by omega⟩
  | cons t rest =>
    have more : j.len s ≤ j.len t := least t List.mem_cons_self
    have bounded' : j.len t ≤ j.max := by
      refine sound.longest t ?_
      rw [awaits.order]
      simp
    have next : ∃ g, f.turn j = g.proceed j ∧ Entered j (done ++ [s]) (t :: rest) g ∧
        g.len = j.len t ∧ (RootPhase j (done ++ [s]) g ∨
          ∃ q, SubPhase j (done ++ [s]) (t :: rest) q g ∧ j.root < j.len t) := by
      by_cases none : (f.enter j).count f.len = 0
      · have longer : j.len s ≠ j.len t := by
          intro same
          rw [left, List.map_cons, ← same, List.count_cons_self] at none
          omega
        have symbol : j.lens.getD (j.work (f.enter j).sym) 0 = j.len t := by
          rw [entered.sym, sound.sorted entered.order]
          rfl
        refine ⟨{ f.enter j with len := j.len t }, ?_, { entered with }, rfl, ?_⟩
        · rw [Filling.turn, if_pos none, awaits.len, if_neg (by omega), symbol]
        · rcases phases with phase | ⟨q, phase, long⟩
          · exact .inl { phase with }
          · exact .inr ⟨q, { phase with }, by omega⟩
      · have same : j.len s = j.len t := by
          rw [left] at none
          obtain ⟨u, member, equal⟩ :=
            List.mem_map.mp (List.count_pos_iff.mp (Nat.pos_of_ne_zero none))
          have pending := (List.pairwise_cons.mp (List.pairwise_cons.mp sorted.2.1).2).1
          rcases List.mem_cons.mp member with rfl | behind
          · exact equal.symm
          · have less : j.len t ≤ j.len u := pending u behind
            omega
        refine ⟨f.enter j, ?_, entered, awaits.len.trans same, ?_⟩
        · rw [Filling.turn, if_neg none]
        · rcases phases with phase | ⟨q, phase, long⟩
          · exact .inl phase
          · exact .inr ⟨q, phase, by omega⟩
    obtain ⟨g, turned, entered', own, phases'⟩ := next
    rw [turned]
    rcases entered'.proceed sound own phases' with none | ⟨f', made, awaits', phase'⟩
    · exact .inr (.inl none)
    · exact .inr (.inr ⟨f', t, rest, made, rfl, awaits', phase'⟩)

/-- The loop ends behind the last symbol, or where there is no space for the entries. -/
theorem Awaits.run {n : Nat} (awaits : Awaits j done s rest f) (phase : Phase j done s rest f)
    (sound : j.Sound) (enough : rest.length < n) :
    (∃ g, Machine.iterate (Filling.turn j) n (.inl f) = .inr (.all g) ∧ Complete j g) ∨
      (Machine.iterate (Filling.turn j) n (.inl f) = .inr .not_enough ∧
        j.type.tooMany (tableSize j.lens j.root) = true) := by
  -- The induction is on the symbols that come next.
  induction rest generalizing n done s f with
  | nil =>
    obtain ⟨n, rfl⟩ : ∃ m, n = m + 1 := ⟨n - 1, by simp at enough; omega⟩
    rw [Machine.iterate]
    rcases awaits.turn phase sound with ⟨g, turned, -, complete⟩ | ⟨turned, none⟩ | more
    · exact .inl ⟨g, by rw [turned]; cases n <;> rfl, complete⟩
    · exact .inr ⟨by rw [turned]; cases n <;> rfl, none⟩
    · obtain ⟨_, _, _, -, absurd_, -⟩ := more
      cases absurd_
  | cons t rest ih =>
    obtain ⟨n, rfl⟩ : ∃ m, n = m + 1 := ⟨n - 1, by simp at enough; omega⟩
    rw [List.length_cons] at enough
    rw [Machine.iterate]
    rcases awaits.turn phase sound with ⟨_, -, absurd_, -⟩ | ⟨turned, none⟩ | more
    · cases absurd_
    · exact .inr ⟨by rw [turned]; cases n <;> rfl, none⟩
    · obtain ⟨g, t', rest', turned, same, awaits', phase'⟩ := more
      obtain ⟨rfl, rfl⟩ := List.cons.inj same
      rw [turned]
      exact ih awaits' phase' (by omega)

end Filling

end Beast.Zlib
