import Beast.Lib.Histogram
import Beast.Zlib.BitLengths

/-! The repair of bit lengths that are too long: how many leaves each length has, and which ones. -/

namespace Beast.Zlib

open Histogram

namespace Builder

variable {top fuel half : Nat} {c : Nat → Nat}

theorem lastCounted_spec {n l : Nat} (inside : l ≤ n) (some_ : c l ≠ 0) :
    ∃ bits, lastCounted c n = some bits ∧ bits ≤ n ∧ c bits ≠ 0 := by
  induction n with
  | zero =>
    obtain rfl := Nat.le_zero.mp inside
    exact ⟨0, by rw [lastCounted, if_pos some_], Nat.le_refl 0, some_⟩
  | succ n ih =>
    rw [lastCounted]
    split
    · rename_i last
      exact ⟨n + 1, rfl, Nat.le_refl _, last⟩
    · rename_i last
      have below : l ≤ n := by
        rcases Nat.eq_or_lt_of_le inside with rfl | less
        · exact absurd some_ last
        · omega
      obtain ⟨bits, found, bits_le, counted⟩ := ih below
      exact ⟨bits, found, by omega, counted⟩

/-- What is known of the numbers of leaves while so many pairs of leaves are too many. -/
structure Overfull (top half : Nat) (c : Nat → Nat) : Prop where
  kraft : weigh top (fun l => 2 ^ (top - l)) c = 2 ^ top + half
  spare : half = 0 ∨ half < c top
  fits : weigh top (fun _ => 1) c ≤ 2 ^ top
  few : weigh top (fun _ => 1) c + 2 < 2 ^ 16
  zero : c 0 = 0

/-- There is a leaf that can be moved down. -/
theorem Overfull.exists_bits (excess : Overfull top half c) (some_ : 0 < half) :
    ∃ bits, lastCounted c (top - 1) = some bits ∧ 0 < bits ∧ bits < top ∧ c bits ≠ 0 := by
  have shorter : ∃ l < top, c l ≠ 0 := by
    -- Else all leaves had the last length, and there would not be too many.
    by_contra none
    push Not at none
    have kraft := excess.kraft
    have fits := excess.fits
    rw [weigh_last none] at kraft fits
    rw [Nat.sub_self] at kraft
    omega
  obtain ⟨l, inside, counted⟩ := shorter
  obtain ⟨bits, found, bits_le, more⟩ := lastCounted_spec (n := top - 1) (by omega) counted
  have positive : bits ≠ 0 := fun none => more (none ▸ excess.zero)
  exact ⟨bits, found, by omega, by omega, more⟩

/-- A leaf is moved down, and one that is too many becomes its brother. -/
theorem Overfull.turn (excess : Overfull top half c) (some_ : 0 < half) :
    ∃ c' bits, lastCounted c (top - 1) = some bits ∧
      (let c := Function.update c bits (c bits - 1)
       let c := Function.update c (bits + 1) ((c (bits + 1) + 2) % 2 ^ 16)
       Function.update c top ((c top + (2 ^ 16 - 1)) % 2 ^ 16)) = c' ∧
      Overfull top (half - 1) c' ∧ weigh top (fun _ => 1) c' = weigh top (fun _ => 1) c ∧
      ∀ l, top < l → c' l = c l := by
  obtain ⟨bits, found, positive, short, counted⟩ := excess.exists_bits some_
  have spare := excess.spare
  have few := excess.few
  have top_le := le_weigh (Nat.le_refl top) c
  have next_le := le_weigh (show bits + 1 ≤ top from short) c
  -- The three changes, each without an overflow of its count.
  obtain ⟨c₁, first⟩ : ∃ c₁, Function.update c bits (c bits - 1) = c₁ := ⟨_, rfl⟩
  have next₁ : c₁ (bits + 1) = c (bits + 1) := by rw [← first, Function.update_of_ne (by omega)]
  have top₁ : c₁ top = c top := by rw [← first, Function.update_of_ne (by omega)]
  obtain ⟨c₂, second⟩ : ∃ c₂, Function.update c₁ (bits + 1) (c₁ (bits + 1) + 2) = c₂ := ⟨_, rfl⟩
  have top₂ : c top ≤ c₂ top ∧ c₂ top ≤ c top + 2 := by
    rw [← second, Function.update_apply]
    split
    · rename_i same
      rw [next₁, ← same]
      omega
    · rw [top₁]
      omega
  obtain ⟨c₃, third⟩ : ∃ c₃, Function.update c₂ top (c₂ top - 1) = c₃ := ⟨_, rfl⟩
  have weighs : ∀ g : Nat → Nat, weigh top g c₃ + g top + g bits = weigh top g c + 2 * g (bits + 1) := by
    intro g
    have one := weigh_less (g := g) (c := c) (k := 1) (Nat.le_of_lt short) (by omega)
    have two := weigh_more (g := g) (c := c₁) (show bits + 1 ≤ top from short) 2
    have three := weigh_less (g := g) (c := c₂) (k := 1) (Nat.le_refl top) (by omega)
    rw [first] at one
    rw [second] at two
    rw [third] at three
    omega
  have total := weighs fun _ => 1
  refine ⟨c₃, bits, found, ?_, ⟨?_, ?_, ?_, ?_, ?_⟩, by omega, ?_⟩
  · dsimp only
    have last : (c₂ top + (2 ^ 16 - 1)) % 2 ^ 16 = c₂ top - 1 := by omega
    rw [first, Nat.mod_eq_of_lt (by omega), second, last, third]
  · have kraft := weighs fun l => 2 ^ (top - l)
    have half_ : 2 ^ (top - bits) = 2 * 2 ^ (top - (bits + 1)) := by
      rw [← Nat.pow_succ', Nat.succ_eq_add_one]
      congr 1
      omega
    have before := excess.kraft
    rw [Nat.sub_self, half_] at kraft
    omega
  · rw [← third, Function.update_self]
    omega
  · have fits := excess.fits
    omega
  · omega
  · rw [← third, ← second, ← first, Function.update_of_ne (by omega), Function.update_of_ne (by omega),
      Function.update_of_ne (by omega), excess.zero]
  · intro l longer
    rw [← third, ← second, ← first, Function.update_of_ne (by omega), Function.update_of_ne (by omega),
      Function.update_of_ne (by omega)]

/-- The repair ends with as many leaves as before, none of them too many. -/
theorem Overfull.repair (excess : Overfull top half c) (some_ : 0 < half) (enough : half ≤ fuel) :
    ∃ c', Builder.repair top fuel (2 * half : Nat) c = some c' ∧ Overfull top 0 c' ∧
      weigh top (fun _ => 1) c' = weigh top (fun _ => 1) c ∧ ∀ l, top < l → c' l = c l := by
  -- Each turn leaves a pair less that is too many.
  induction fuel generalizing half c with
  | zero => omega
  | succ fuel ih =>
    obtain ⟨c₁, bits, found, made, excess₁, total₁, behind₁⟩ := excess.turn some_
    rw [Builder.repair, found]
    dsimp only [bind, Option.bind]
    dsimp only at made
    rw [made]
    split
    · rename_i more
      have left : ((2 * half : Nat) : Int) - 2 = (2 * (half - 1) : Nat) := by omega
      rw [left] at more ⊢
      obtain ⟨c', repaired, excess', total', behind'⟩ := ih excess₁ (by omega) (by omega)
      exact ⟨c', repaired, excess', total'.trans total₁, fun l longer =>
        (behind' l longer).trans (behind₁ l longer)⟩
    · refine ⟨c₁, rfl, ?_, total₁, behind₁⟩
      rw [(by omega : half = 1)] at excess₁
      exact excess₁

/-! ## Which leaves have which length -/

/-- What some nodes take together, each its frequency times its bit length. -/
def bitSum (b : Builder) (nodes : List Nat) : Nat := (nodes.map fun x => (b.tree x).fc * (b.tree x).dl).sum

/-- Some leaves have other bit lengths, and the total bit length is the one with these. -/
structure Relabelled (b b' : Builder) (leaves : List Nat) : Prop where
  others : ∀ x, x ∉ leaves → (b'.tree x).dl = (b.tree x).dl
  fc : ∀ x, (b'.tree x).fc = (b.tree x).fc
  max_code : b'.max_code = b.max_code
  heap : b'.heap_ = b.heap_
  counts : b'.bl_count_ = b.bl_count_
  static_len : b'.static_len_ = b.static_len_
  opt_len : (b'.opt_len_ + b.bitSum leaves) % 2 ^ 32 = (b.opt_len_ + b'.bitSum leaves) % 2 ^ 32
  small : b.opt_len_ < 2 ^ 32 → b'.opt_len_ < 2 ^ 32

variable {b b₁ b₂ : Builder} {front back : List Nat} {bits h : Nat}

theorem Relabelled.refl (b : Builder) : Relabelled b b [] :=
  ⟨fun _ _ => rfl, fun _ => rfl, rfl, rfl, rfl, rfl, rfl, id⟩

theorem bitSum_congr (fc : ∀ x, (b₁.tree x).fc = (b.tree x).fc)
    (dl : ∀ x ∈ front, (b₁.tree x).dl = (b.tree x).dl) : b₁.bitSum front = b.bitSum front := by
  rw [bitSum, bitSum, List.map_congr_left fun x member => by rw [fc x, dl x member]]

theorem bitSum_append (b : Builder) (front back : List Nat) :
    b.bitSum (front ++ back) = b.bitSum front + b.bitSum back := by
  rw [bitSum, List.map_append, List.sum_append, bitSum, bitSum]

theorem Relabelled.trans (first : Relabelled b b₁ front) (second : Relabelled b₁ b₂ back)
    (apart : ∀ x ∈ front, x ∉ back) : Relabelled b b₂ (front ++ back) where
  others x out := by
    rw [List.mem_append, not_or] at out
    rw [second.others x out.2, first.others x out.1]
  fc x := (second.fc x).trans (first.fc x)
  max_code := second.max_code.trans first.max_code
  heap := second.heap.trans first.heap
  counts := second.counts.trans first.counts
  static_len := second.static_len.trans first.static_len
  opt_len := by
    have one := first.opt_len
    have two := second.opt_len
    have same : b₁.bitSum back = b.bitSum back :=
      bitSum_congr first.fc fun x member => first.others x fun early => apart x early member
    have kept : b₂.bitSum front = b₁.bitSum front :=
      bitSum_congr second.fc fun x member => second.others x (apart x member)
    rw [bitSum_append, bitSum_append, kept, ← same]
    omega
  small bound := second.small (first.small bound)

/-- A single leaf gets another bit length. -/
theorem relabelled_one (b : Builder) (m bits : Nat) :
    Relabelled b { b with
      opt_len_ := ((b.opt_len_ + (bits - (b.tree m).dl) * (b.tree m).fc : Int) % 2 ^ 32).toNat
      tree := b.tree.setDl m bits } [m] where
  others x out := by rw [Tree.setDl_dl, if_neg (by simpa using out)]
  fc x := by rw [Tree.setDl_fc]
  max_code := rfl
  heap := rfl
  counts := rfl
  static_len := rfl
  opt_len := by
    simp only [bitSum, List.map_cons, List.map_nil, List.sum_cons, List.sum_nil, Nat.add_zero,
      Tree.setDl_fc, Tree.setDl_dl, if_true]
    have spread : ((bits : Int) - (b.tree m).dl) * (b.tree m).fc =
        ((b.tree m).fc * bits : Nat) - ((b.tree m).fc * (b.tree m).dl : Nat) := by
      push_cast
      ring
    rw [spread]
    omega
  small _ := by
    dsimp only
    omega

/-- The nodes in the first places of the heap array, with the last one in front. -/
def behind (heap : Nat → Nat) : Nat → List Nat
  | 0 => []
  | h + 1 => heap h :: behind heap h

/-- So many leaves get a bit length, of those that come next. -/
theorem place_spec (once : front.Nodup)
    (ahead : ((behind b.heap_ h).filter fun x : Nat => (x : Int) ≤ b.max_code) = front ++ back) :
    ∃ h' b', place bits h front.length b = some (h', b') ∧ Relabelled b b' front ∧
      ((behind b.heap_ h').filter fun x : Nat => (x : Int) ≤ b.max_code) = back ∧
      ∀ x ∈ front, (b'.tree x).dl = bits := by
  induction h generalizing b front with
  | zero =>
    obtain ⟨rfl, rfl⟩ := List.append_eq_nil_iff.mp ahead.symm
    exact ⟨0, b, by rw [List.length_nil, place], .refl b, ahead, nofun⟩
  | succ h ih =>
    cases front with
    | nil => exact ⟨h + 1, b, by rw [List.length_nil, place], .refl b, ahead, nofun⟩
    | cons m front =>
      rw [List.length_cons, place]
      rw [behind] at ahead
      split
      · -- A node that is no leaf is passed over.
        rw [List.filter_cons_of_neg (by simp; omega)] at ahead
        exact ih once ahead
      · rw [List.filter_cons_of_pos (by simp; omega), List.cons_append, List.cons.injEq] at ahead
        obtain ⟨rfl, rest⟩ := ahead
        have fresh := (List.nodup_cons.mp once).1
        -- Whether or not it has this bit length before, it has it then.
        have one : ∃ b₁, (if (b.tree (b.heap_ h)).dl ≠ bits then
            place bits h front.length { b with
              opt_len_ := ((b.opt_len_ + (bits - (b.tree (b.heap_ h)).dl) * (b.tree (b.heap_ h)).fc : Int)
                % 2 ^ 32).toNat
              tree := b.tree.setDl (b.heap_ h) bits }
            else place bits h front.length b) = place bits h front.length b₁ ∧
            Relabelled b b₁ [b.heap_ h] ∧ (b₁.tree (b.heap_ h)).dl = bits := by
          split
          · exact ⟨_, rfl, relabelled_one b _ bits, by simp⟩
          · rename_i already
            refine ⟨b, rfl, ⟨fun _ _ => rfl, fun _ => rfl, rfl, rfl, rfl, rfl, rfl, id⟩, ?_⟩
            exact not_not.mp already
        obtain ⟨b₁, step, changed, own⟩ := one
        rw [step]
        rw [← changed.heap, ← changed.max_code] at rest
        obtain ⟨h', b', placed, more, left, all⟩ := ih (List.nodup_cons.mp once).2 rest
        rw [changed.heap, changed.max_code] at left
        refine ⟨h', b', placed, changed.trans more (by simpa using fresh), left, fun x member => ?_⟩
        rcases List.mem_cons.mp member with rfl | later
        · rw [more.others _ fresh, own]
        · exact all x later

/-- All leaves get a bit length, and each length gets as many as were counted for it. -/
theorem placeAll_spec (once : front.Nodup) (zero : b.bl_count_ 0 = 0)
    (total : weigh bits (fun _ => 1) b.bl_count_ = front.length)
    (ahead : ((behind b.heap_ h).filter fun x : Nat => (x : Int) ≤ b.max_code) = front ++ back) :
    ∃ b', placeAll bits h b = some b' ∧ Relabelled b b' front ∧
      (∀ x ∈ front, 0 < (b'.tree x).dl ∧ (b'.tree x).dl ≤ bits) ∧
      ∀ l ≤ bits, (front.countP fun x => (b'.tree x).dl = l) = b.bl_count_ l := by
  induction bits generalizing b front h with
  | zero =>
    have none : front = [] := by
      rw [weigh_last (by simp), zero] at total
      exact List.length_eq_zero_iff.mp (by omega)
    subst none
    refine ⟨b, rfl, .refl b, nofun, fun l l_le => ?_⟩
    rw [Nat.le_zero.mp l_le, zero]
    rfl
  | succ bits ih =>
    rw [weigh_succ, Nat.mul_one] at total
    -- The leaves that get the longest length come first.
    obtain ⟨longest, others, rfl, length⟩ : ∃ longest others, front = longest ++ others ∧
        longest.length = b.bl_count_ (bits + 1) :=
      ⟨front.take (b.bl_count_ (bits + 1)), front.drop (b.bl_count_ (bits + 1)),
        (List.take_append_drop _ _).symm, by rw [List.length_take]; omega⟩
    have apart := List.nodup_append.mp once
    rw [List.append_assoc] at ahead
    obtain ⟨h₁, b₁, placed, changed, left, all⟩ := @place_spec _ _ _ (bits + 1) _ apart.1 ahead
    rw [← changed.heap, ← changed.max_code] at left
    rw [List.length_append, length] at total
    obtain ⟨b', rest, more, range, counts⟩ := ih apart.2.1 (by rw [changed.counts]; exact zero)
      (by rw [changed.counts]; omega) left
    have kept : ∀ x ∈ longest, (b'.tree x).dl = bits + 1 := fun x member => by
      rw [more.others x fun later => apart.2.2 x member x later rfl, all x member]
    refine ⟨b', ?_, changed.trans more fun x member later => apart.2.2 x member x later rfl, ?_, ?_⟩
    · rw [placeAll, ← length, placed]
      exact rest
    · intro x member
      rcases List.mem_append.mp member with early | late
      · rw [kept x early]
        omega
      · have bounds := range x late
        omega
    · intro l l_le
      rw [List.countP_append]
      rcases Nat.eq_or_lt_of_le l_le with rfl | shorter
      · rw [List.countP_eq_length.mpr fun x member => by simpa using kept x member,
          List.countP_eq_zero.mpr fun x member => ?_, length, Nat.add_zero]
        have bounds := range x member
        simp
        omega
      · rw [List.countP_eq_zero.mpr fun x member => ?_, Nat.zero_add, counts l (by omega), changed.counts]
        rw [kept x member]
        simp
        omega

end Builder

end Beast.Zlib
