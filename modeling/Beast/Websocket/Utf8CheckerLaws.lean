import Beast.Lib.PrefixCode
import Beast.Websocket.Utf8Checker

/-! What the incremental UTF-8 checker accepts, for every cut of the text into writes. -/

namespace Beast.Websocket

open PrefixCode Utf8

/-- A two-octet form whose value already fits in one octet. -/
def isOverlong : List UInt8 → Bool
  | [a, b] => (a == 0xC0 || a == 0xC1) && isTail b
  | _ => false

/-- The octets of one write, each with the number of octets that the write still holds. -/
def mark : List UInt8 → List (UInt8 × Nat)
  | [] => []
  | b :: bs => (b, bs.length + 1) :: mark bs

/-- An overlong form that lies in one write with at least two octets of that write behind it. -/
def Shielded (u : List (UInt8 × Nat)) : Prop :=
  isOverlong (u.map Prod.fst) = true ∧ ∃ m ∈ u.head?, 4 ≤ m.2

/-- A character, or an overlong form in the position where the checker lets it through. -/
def Tolerated (u : List (UInt8 × Nat)) : Prop :=
  isChar (u.map Prod.fst) = true ∨ Shielded u

namespace Utf8Checker

/-- What the five masks of the checker test for. -/
theorem masks (a : UInt8) : (a &&& 0xc0 != 0x80) = (!isTail a) ∧
    (a < 128 ∨ (a &&& 0x60 == 0x40) = decide (0xC0 ≤ a ∧ a < 0xE0)) ∧
    (a &&& 0xf0 == 0xe0) = decide (0xE0 ≤ a ∧ a < 0xF0) ∧
    (a &&& 0xf8 == 0xf0) = decide (0xF0 ≤ a ∧ a < 0xF8) ∧
    (a &&& 0x80 == 0) = decide (a < 128) := by
  obtain ⟨a⟩ := a
  revert a
  decide +kernel

/-- The continuation mask tests for a trailing octet. -/
theorem mask_tail (b : UInt8) : (b &&& 0xc0 != 0x80) = !isTail b :=
  (masks b).1

/-- Past ASCII, the two-octet mask tests for the lead octets of two-octet forms. -/
theorem mask_two (a : UInt8) (high : ¬ a < 128) :
    (a &&& 0x60 == 0x40) = decide (0xC0 ≤ a ∧ a < 0xE0) :=
  (masks a).2.1.resolve_left high

/-- The three-octet mask tests for the lead octets of three-octet forms. -/
theorem mask_three (a : UInt8) : (a &&& 0xf0 == 0xe0) = decide (0xE0 ≤ a ∧ a < 0xF0) :=
  (masks a).2.2.1

/-- The four-octet mask tests for the lead octets of four-octet forms. -/
theorem mask_four (a : UInt8) : (a &&& 0xf8 == 0xf0) = decide (0xF0 ≤ a ∧ a < 0xF8) :=
  (masks a).2.2.2.1

/-- An octet is ASCII exactly when its high bit is clear. -/
theorem mask_ascii (a : UInt8) : (a &&& 0x80 == 0) = decide (a < 128) :=
  (masks a).2.2.2.2

/-- In two-octet range, the check asks for a lead octet from C0 on and a trailing octet. -/
theorem isChar_two {a b : UInt8} (upper : a < 0xE0) (high : ¬ a < 128) :
    (isChar [a, b] || isOverlong [a, b]) = (decide (0xC0 ≤ a) && isTail b) := by
  rw [Bool.eq_iff_iff]
  simp [isChar, isOverlong, isTail, UInt8.le_iff_toNat_le, UInt8.lt_iff_toNat_lt,
    ← UInt8.toNat_inj] at upper high ⊢
  omega

/-- In three-octet range, the check narrows the second octet exactly as the grammar does. -/
theorem isChar_three {a b c : UInt8} (lower : 0xE0 ≤ a) (upper : a < 0xF0) :
    isChar [a, b, c] = !(!isTail b || !isTail c || (a == 224 && b < 160) ||
      (a == 237 && b > 159)) := by
  rw [Bool.eq_iff_iff]
  simp [isChar, isTail, UInt8.le_iff_toNat_le, UInt8.lt_iff_toNat_lt,
    ← UInt8.toNat_inj] at lower upper ⊢
  omega

/-- In four-octet range, the check narrows the first two octets exactly as the grammar does. -/
theorem isChar_four {a b c d : UInt8} (lower : 0xF0 ≤ a) :
    isChar [a, b, c, d] = (decide (a < 0xF8) && !(decide (a > 244) || !isTail b || !isTail c ||
      !isTail d || (a == 240 && b < 144) || (a == 244 && b > 143))) := by
  rw [Bool.eq_iff_iff]
  simp [isChar, isTail, UInt8.le_iff_toNat_le, UInt8.lt_iff_toNat_lt,
    ← UInt8.toNat_inj] at lower ⊢
  omega

/-- With enough octets at hand, one check accepts a character or an overlong two-octet form. -/
theorem valid_eq {a : UInt8} {rest : List UInt8} (enough : width a ≤ (a :: rest).length) :
    valid (a :: rest) =
      if isChar ((a :: rest).take (width a)) || isOverlong ((a :: rest).take (width a)) then
        some ((a :: rest).drop (width a))
      else none := by
  -- The width of the lead octet says how many octets the check looks at.
  unfold width at enough ⊢
  by_cases one : a < 128
  · have small : a ≤ 0x7F := by
      simp only [UInt8.lt_iff_toNat_lt, UInt8.le_iff_toNat_le] at one ⊢
      simpa using Nat.le_of_lt_succ one
    simp [valid, one, isChar, small]
  by_cases two : a < 0xE0
  · obtain _ | ⟨b, rest⟩ := rest
    · simp [one, two] at enough
    have three : ¬ 0xE0 ≤ a := by simpa using two
    have four : ¬ 0xF0 ≤ a := by
      simp [UInt8.le_iff_toNat_le] at three ⊢
      omega
    simp only [if_neg one, if_pos two, List.take_succ_cons, List.take_zero, isChar_two two one]
    by_cases lead : 0xC0 ≤ a <;> cases tail : isTail b <;>
      simp [valid, one, mask_two a one, mask_three, mask_four, mask_tail, two, three, four, lead,
        tail]
  by_cases three : a < 0xF0
  · obtain _ | ⟨b, _ | ⟨c, rest⟩⟩ := rest
    · simp [one, two, three] at enough
    · simp [one, two, three] at enough
    have lower : 0xE0 ≤ a := by simpa using two
    simp only [if_neg one, if_neg two, if_pos three, List.take_succ_cons, List.take_zero,
      isChar_three lower three]
    cases tailB : isTail b <;> cases tailC : isTail c <;>
      simp [valid, one, mask_two a one, mask_three, mask_tail, two, three, lower, isOverlong,
        tailB, tailC]
    -- Only the two narrowed ranges are left, each side spelling one as the negation of the other.
    grind
  · obtain _ | ⟨b, _ | ⟨c, _ | ⟨d, rest⟩⟩⟩ := rest
    · simp [one, two, three] at enough
    · simp [one, two, three] at enough
    · simp [one, two, three] at enough
    have lower : 0xF0 ≤ a := by simpa using three
    simp only [if_neg one, if_neg two, if_neg three, List.take_succ_cons, List.take_zero,
      isChar_four lower]
    by_cases top : a < 0xF8 <;> cases tailB : isTail b <;> cases tailC : isTail c <;>
      cases tailD : isTail d <;>
      simp [valid, one, mask_two a one, mask_three, mask_four, mask_tail, two, three, lower,
        isOverlong, top, tailB, tailC, tailD]
    grind

/-- A tolerated unit is as long as its lead octet announces. -/
theorem tolerated_headed : HeadedBy Tolerated (fun m => width m.1) := by
  rintro u (named | ⟨overlong, _⟩)
  · obtain ⟨a, rest, same, size⟩ := isChar_headed _ named
    obtain ⟨m, t, rfl, rfl, rfl⟩ := List.map_eq_cons_iff.mp same
    exact ⟨m, t, rfl, by simpa using size⟩
  · -- An overlong form has two octets, and so has what its lead octet announces.
    match u with
    | [] => simp [isOverlong] at overlong
    | [_] => simp [isOverlong] at overlong
    | [(a, r), (b, s)] =>
      refine ⟨(a, r), [(b, s)], rfl, ?_⟩
      simp only [isOverlong, List.map_cons, List.map_nil, Bool.and_eq_true, Bool.or_eq_true,
        beq_iff_eq] at overlong
      obtain ⟨rfl | rfl, _⟩ := overlong <;> rfl
    | _ :: _ :: _ :: _ => simp [isOverlong] at overlong

/-- Forgetting the marks leaves the octets of the write. -/
@[simp] theorem map_fst_mark (input : List UInt8) : (mark input).map Prod.fst = input := by
  induction input with
  | nil => rfl
  | cons b bs ih => simp [mark, ih]

/-- Marking neither adds nor removes octets. -/
@[simp] theorem length_mark (input : List UInt8) : (mark input).length = input.length := by
  conv_rhs => rw [← map_fst_mark input, List.length_map]

/-- What is left of a write is marked as if it were the whole write. -/
theorem drop_mark (input : List UInt8) (n : Nat) : (mark input).drop n = mark (input.drop n) := by
  induction input generalizing n with
  | nil => simp [mark]
  | cons b bs ih => cases n with
    | zero => rfl
    | succ n => simpa [mark] using ih n

/-- The unit at the front of a marked text, with the position of its lead octet. -/
theorem tolerated_take_iff {a : UInt8} {r n : Nat} {m : List (UInt8 × Nat)} (positive : 0 < n) :
    Tolerated (((a, r) :: m).take n) ↔
      isChar ((a :: m.map Prod.fst).take n) = true ∨
        (isOverlong ((a :: m.map Prod.fst).take n) = true ∧ 4 ≤ r) := by
  obtain ⟨n, rfl⟩ := Nat.exists_eq_succ_of_ne_zero (Nat.ne_of_gt positive)
  simp [Tolerated, Shielded, List.map_take]

/-- Widths are positive. -/
theorem width_pos (a : UInt8) : 0 < width a := by
  unfold width
  split <;> (try split) <;> (try split) <;> omega

/-- A text that holds its first unit whole is tolerated when that unit and the rest are. -/
theorem spelled_unit_iff {a : UInt8} {r : Nat} {m tail : List (UInt8 × Nat)}
    (enough : width a ≤ m.length + 1) :
    Spelled Tolerated ((a, r) :: m ++ tail) ↔
      (isChar ((a :: m.map Prod.fst).take (width a)) = true ∨
        (isOverlong ((a :: m.map Prod.fst).take (width a)) = true ∧ 4 ≤ r)) ∧
      Spelled Tolerated (((a, r) :: m).drop (width a) ++ tail) := by
  rw [List.cons_append, spelled_cons_iff tolerated_headed, ← List.cons_append,
    List.take_append_of_le_length (by simpa using enough),
    List.drop_append_of_le_length (by simpa using enough), tolerated_take_iff (width_pos a)]

/-- A check that succeeds consumes at least one octet. -/
theorem valid_shrinks {input rest : List UInt8} (checked : valid input = some rest)
    (nonempty : input ≠ []) : rest.length < input.length := by
  have positive : 0 < input.length := List.length_pos_iff.mpr nonempty
  unfold valid at checked
  dsimp only at checked
  -- Each branch that succeeds drops as many octets as it looked at.
  repeat' split at checked
  all_goals first
    | (cases checked; simp only [List.length_drop]; omega)
    | simp at checked

/-- With four octets left in the write, a refused check rules the text out. -/
theorem valid_none_spelled {input : List UInt8} (long : 4 ≤ input.length)
    (refused : valid input = none) (tail : List (UInt8 × Nat)) :
    ¬ Spelled Tolerated (mark input ++ tail) := by
  obtain _ | ⟨a, rest⟩ := input
  · simp at long
  -- Four octets are enough for any unit, so the check saw all of the first one.
  have bound : width a ≤ 4 := by unfold width; split <;> (try split) <;> (try split) <;> omega
  rw [valid_eq (by omega)] at refused
  rw [mark, spelled_unit_iff (by simpa using Nat.le_trans bound long)]
  rintro ⟨unit, _⟩
  simp only [map_fst_mark] at unit
  rcases unit with named | ⟨overlong, _⟩
  · simp [named] at refused
  · simp [overlong] at refused

/-- With four octets left in the write, a successful check moves past one tolerated unit. -/
theorem valid_some_spelled {input rest : List UInt8} (long : 4 ≤ input.length)
    (checked : valid input = some rest) (tail : List (UInt8 × Nat)) :
    Spelled Tolerated (mark input ++ tail) ↔ Spelled Tolerated (mark rest ++ tail) := by
  obtain _ | ⟨a, octets⟩ := input
  · simp at long
  have bound : width a ≤ 4 := by unfold width; split <;> (try split) <;> (try split) <;> omega
  rw [valid_eq (by omega)] at checked
  split at checked
  · rename_i unit
    cases checked
    rw [mark, spelled_unit_iff (by simpa using Nat.le_trans bound long), ← mark, drop_mark]
    simp only [map_fst_mark, and_iff_right_iff_imp]
    intro _
    -- The write goes on far enough behind the lead octet for an overlong form to pass.
    have behind : 3 ≤ octets.length := by simpa using long
    simpa [behind] using unit
  · simp at checked

/-- ASCII octets are units of their own. -/
theorem ascii_spelled {input : List UInt8} (ascii : ∀ b ∈ input, b < 128)
    (more : List UInt8) (tail : List (UInt8 × Nat)) :
    Spelled Tolerated (mark (input ++ more) ++ tail) ↔ Spelled Tolerated (mark more ++ tail) := by
  -- The induction is on the octets, each a unit of its own.
  induction input with
  | nil => simp
  | cons a input ih =>
    have small : a < 128 := ascii a (by simp)
    have narrow : width a = 1 := by rw [width, if_pos small]
    have named : isChar [a] = true := by
      simp [isChar, UInt8.le_iff_toNat_le, UInt8.lt_iff_toNat_lt] at small ⊢
      omega
    rw [List.cons_append, mark, spelled_unit_iff (by rw [narrow]; omega), narrow]
    simpa [named] using ih (fun b member => ascii b (by simp [member]))

/-- The word loop refuses only texts that cannot be tolerated. -/
theorem wordLoop_none {unaligned : Bool} {fuel address : Nat} {input : List UInt8}
    (refused : wordLoop unaligned fuel address input = none) (tail : List (UInt8 × Nat)) :
    ¬ Spelled Tolerated (mark input ++ tail) := by
  -- The induction is on the rounds: a word of ASCII is skipped, and anything else is checked.
  induction fuel generalizing address input with
  | zero => simp [wordLoop] at refused
  | succ fuel ih =>
    unfold wordLoop at refused
    split at refused
    · simp at refused
    rename_i long
    split at refused
    · rename_i word
      have ascii : ∀ b ∈ input.take 8, b < 128 := by
        simp only [Bool.and_eq_true, List.all_eq_true, mask_ascii, decide_eq_true_eq] at word
        exact word.2
      have rest := ih refused
      rwa [← ascii_spelled ascii, List.take_append_drop] at rest
    · cases checked : valid input with
      | none => exact valid_none_spelled (by omega) checked tail
      | some rest =>
        rw [checked] at refused
        rw [valid_some_spelled (by omega) checked]
        exact ih refused

/-- The word loop moves past tolerated units only. -/
theorem wordLoop_some {unaligned : Bool} {fuel address : Nat} {input rest : List UInt8}
    (ran : wordLoop unaligned fuel address input = some rest) (tail : List (UInt8 × Nat)) :
    Spelled Tolerated (mark input ++ tail) ↔ Spelled Tolerated (mark rest ++ tail) := by
  -- The induction is on the rounds, as for a refusal.
  induction fuel generalizing address input with
  | zero =>
    simp only [wordLoop, Option.some.injEq] at ran
    rw [ran]
  | succ fuel ih =>
    unfold wordLoop at ran
    split at ran
    · cases ran; rfl
    rename_i long
    split at ran
    · rename_i word
      have ascii : ∀ b ∈ input.take 8, b < 128 := by
        simp only [Bool.and_eq_true, List.all_eq_true, mask_ascii, decide_eq_true_eq] at word
        exact word.2
      have skipped := ascii_spelled ascii (input.drop 8) tail
      rw [List.take_append_drop] at skipped
      rw [skipped]
      exact ih ran
    · cases checked : valid input with
      | none => simp [checked] at ran
      | some next =>
        rw [checked] at ran
        rw [valid_some_spelled (by omega) checked]
        exact ih ran

/-- The point loop refuses only texts that cannot be tolerated. -/
theorem pointLoop_none {fuel : Nat} {input : List UInt8} (refused : pointLoop fuel input = none)
    (tail : List (UInt8 × Nat)) : ¬ Spelled Tolerated (mark input ++ tail) := by
  -- Each round checks one unit, and the first refusal ends the loop.
  induction fuel generalizing input with
  | zero => simp [pointLoop] at refused
  | succ fuel ih =>
    unfold pointLoop at refused
    split at refused
    · simp at refused
    cases checked : valid input with
    | none => exact valid_none_spelled (by omega) checked tail
    | some rest =>
      rw [checked] at refused
      rw [valid_some_spelled (by omega) checked]
      exact ih refused

/-- The point loop moves past tolerated units, and leaves fewer than four octets. -/
theorem pointLoop_some {fuel : Nat} {input rest : List UInt8} (enough : input.length ≤ fuel)
    (ran : pointLoop fuel input = some rest) :
    rest.length < 4 ∧ ∀ tail : List (UInt8 × Nat),
      Spelled Tolerated (mark input ++ tail) ↔ Spelled Tolerated (mark rest ++ tail) := by
  induction fuel generalizing input with
  | zero =>
    simp only [pointLoop, Option.some.injEq] at ran
    subst ran
    exact ⟨by omega, fun tail => Iff.rfl⟩
  | succ fuel ih =>
    unfold pointLoop at ran
    split at ran
    · cases ran
      exact ⟨by assumption, fun tail => Iff.rfl⟩
    cases checked : valid input with
    | none => simp [checked] at ran
    | some next =>
      -- A unit takes octets, so the rounds do not run out before the text does.
      have shorter := valid_shrinks checked (by rintro rfl; simp at *)
      rw [checked] at ran
      obtain ⟨short, same⟩ := ih (by omega) ran
      refine ⟨short, fun tail => ?_⟩
      rw [valid_some_spelled (by omega) checked]
      exact same tail

/-- A lead octet with a needed width announces that width, and opens no overlong form. -/
theorem needed_spec (a : UInt8) : needed a ≠ 0 → needed a = width a ∧ a ≠ 0xC0 ∧ a ≠ 0xC1 := by
  obtain ⟨a⟩ := a
  revert a
  decide +kernel

/-- No character starts with an octet that has no needed width. -/
theorem isChar_needed {a : UInt8} {u : List UInt8} (named : isChar (a :: u) = true) :
    needed a ≠ 0 := by
  have bound : a ≤ 0x7F ∨ (0xC2 ≤ a ∧ a ≤ 0xF4) := by
    match u with
    | [] => simpa [isChar] using Or.inl named
    | [b] =>
      simp [isChar, UInt8.le_iff_toNat_le] at named ⊢
      omega
    | [b, c] =>
      simp [isChar, UInt8.le_iff_toNat_le, ← UInt8.toNat_inj] at named ⊢
      omega
    | [b, c, d] =>
      simp [isChar, UInt8.le_iff_toNat_le, ← UInt8.toNat_inj] at named ⊢
      omega
    | _ :: _ :: _ :: _ :: _ => simp [isChar] at named
  clear named
  obtain ⟨a⟩ := a
  revert a
  decide +kernel

/-- A lead octet outside C0 and C1 opens no overlong form. -/
theorem isOverlong_lead {a : UInt8} (ne0 : a ≠ 0xC0) (ne1 : a ≠ 0xC1) (u : List UInt8) (n : Nat) :
    isOverlong ((a :: u).take n) = false := by
  match n, u with
  | 0, _ => simp [isOverlong]
  | 1, _ => simp [isOverlong]
  | _ + 2, [] => simp [isOverlong]
  | 2, b :: u => simp [isOverlong, ne0, ne1]
  | _ + 3, [b] => simp [isOverlong, ne0, ne1]
  | n + 3, b :: c :: u => simp [isOverlong]

/-- The same holds of the whole sequence of octets. -/
theorem isOverlong_cons {a : UInt8} (ne0 : a ≠ 0xC0) (ne1 : a ≠ 0xC1) (u : List UInt8) :
    isOverlong (a :: u) = false := by
  simpa using isOverlong_lead ne0 ne1 u (u.length + 1)

/-- The octets in front of a character pass the check made of an unfinished code point. -/
theorem validHave_of_char {held extra : List UInt8} (begun : held ≠ []) (unfinished : extra ≠ [])
    (named : isChar (held ++ extra) = true) : validHave held = true := by
  match held, extra with
  | [], _ => exact absurd rfl begun
  | _ :: _, [] => exact absurd rfl unfinished
  | [a], [b] =>
    simp only [List.cons_append, List.nil_append] at named
    simp [isChar, isTail, UInt8.le_iff_toNat_le] at named
    have high : ¬ a < 128 := by simp [UInt8.le_iff_toNat_le]; omega
    simp [validHave, mask_two a high, mask_three, mask_four, UInt8.le_iff_toNat_le,
      UInt8.lt_iff_toNat_lt]
    omega
  | [a], [b, c] =>
    simp only [List.cons_append, List.nil_append] at named
    simp [isChar, isTail, UInt8.le_iff_toNat_le, ← UInt8.toNat_inj] at named
    have high : ¬ a < 128 := by simp [UInt8.le_iff_toNat_le]; omega
    simp [validHave, mask_two a high, mask_three, mask_four, UInt8.le_iff_toNat_le,
      UInt8.lt_iff_toNat_lt]
    omega
  | [a, b], [c] =>
    simp only [List.cons_append, List.nil_append] at named
    have lower : 0xE0 ≤ a ∧ a < 0xF0 := by
      simp [isChar, UInt8.le_iff_toNat_le, UInt8.lt_iff_toNat_lt, ← UInt8.toNat_inj] at named ⊢
      omega
    have high : ¬ a < 128 := by
      simp [UInt8.le_iff_toNat_le] at lower ⊢
      omega
    have notTwo : ¬ a < 224 := by simpa using lower.1
    rw [isChar_three lower.1 lower.2] at named
    simp [validHave, mask_two a high, mask_three, mask_tail, lower, notTwo] at named ⊢
    grind
  | [a], [b, c, d] =>
    simp only [List.cons_append, List.nil_append] at named
    simp [isChar, isTail, UInt8.le_iff_toNat_le, ← UInt8.toNat_inj] at named
    have high : ¬ a < 128 := by simp [UInt8.le_iff_toNat_le]; omega
    simp [validHave, mask_two a high, mask_three, mask_four, UInt8.le_iff_toNat_le,
      UInt8.lt_iff_toNat_lt]
    omega
  | [a, b], [c, d] =>
    simp only [List.cons_append, List.nil_append] at named
    have lower : 0xF0 ≤ a ∧ a < 0xF8 := by
      simp [isChar, UInt8.le_iff_toNat_le, UInt8.lt_iff_toNat_lt, ← UInt8.toNat_inj] at named ⊢
      omega
    have high : ¬ a < 128 := by
      simp [UInt8.le_iff_toNat_le] at lower ⊢
      omega
    have notTwo : ¬ a < 224 := by
      simp [UInt8.le_iff_toNat_le] at lower ⊢
      omega
    have notThree : ¬ a < 240 := by simpa using lower.1
    rw [isChar_four lower.1] at named
    simp [validHave, mask_two a high, mask_three, mask_four, mask_tail, lower, notTwo,
      notThree] at named ⊢
    grind
  | [a, b, c], [d] =>
    simp only [List.cons_append, List.nil_append] at named
    have lower : 0xF0 ≤ a ∧ a < 0xF8 := by
      simp [isChar, UInt8.le_iff_toNat_le, UInt8.lt_iff_toNat_lt, ← UInt8.toNat_inj] at named ⊢
      omega
    have high : ¬ a < 128 := by
      simp [UInt8.le_iff_toNat_le] at lower ⊢
      omega
    have notTwo : ¬ a < 224 := by
      simp [UInt8.le_iff_toNat_le] at lower ⊢
      omega
    have notThree : ¬ a < 240 := by simpa using lower.1
    rw [isChar_four lower.1] at named
    simp [validHave, mask_two a high, mask_three, mask_four, mask_tail, lower, notTwo,
      notThree] at named ⊢
    grind
  | [_], _ :: _ :: _ :: _ :: _ => simp [isChar] at named
  | [_, _], _ :: _ :: _ :: _ => simp [isChar] at named
  | [_, _, _], _ :: _ :: _ => simp [isChar] at named
  | _ :: _ :: _ :: _ :: _, _ :: _ => simp [isChar] at named

/-- Between writes, the checker is between code points or owes the rest of one begun. -/
def Open (c : Utf8Checker) : Prop :=
  (c.need_ = 0 ∧ c.have_ = []) ∨
    ∃ a held, c.have_ = a :: held ∧ needed a = c.have_.length + c.need_ ∧ 0 < c.need_

/-- A piece of marked text is decided: ruled out for good, or reduced to what is carried over. -/
def Decided (text : List (UInt8 × Nat)) : Bool × Utf8Checker → Prop
  | (false, _) => ∀ tail, ¬ Spelled Tolerated (text ++ tail)
  | (true, c) => Open c ∧ ∃ carry : List (UInt8 × Nat), carry.map Prod.fst = c.have_ ∧
      ∀ tail, Spelled Tolerated (text ++ tail) ↔ Spelled Tolerated (carry ++ tail)

/-- A decision about a text settles every text that is tolerated in the same circumstances. -/
theorem Decided.congr {text other : List (UInt8 × Nat)} {out : Bool × Utf8Checker}
    (same : ∀ tail, Spelled Tolerated (other ++ tail) ↔ Spelled Tolerated (text ++ tail))
    (decided : Decided text out) : Decided other out := by
  obtain ⟨ok, c⟩ := out
  cases ok with
  | false => exact fun tail spelled => decided tail ((same tail).mp spelled)
  | true =>
    obtain ⟨isOpen, carry, held, rest⟩ := decided
    exact ⟨isOpen, carry, held, fun tail => (same tail).trans (rest tail)⟩

/-- An unfinished code point is decided by the check made of its first octets. -/
theorem decided_validHave {carry : List (UInt8 × Nat)} {need : Nat} {a : UInt8}
    {held : List UInt8} (octets : carry.map Prod.fst = a :: held)
    (width_eq : needed a = (a :: held).length + need) (positive : 0 < need) :
    Decided carry (validHave (a :: held), { need_ := need, have_ := a :: held }) := by
  cases checked : validHave (a :: held) with
  | true => exact ⟨Or.inr ⟨a, held, rfl, width_eq, positive⟩, carry, octets, fun _ => Iff.rfl⟩
  | false =>
    intro tail spelled
    obtain ⟨announced, ne0, ne1⟩ := needed_spec a (by rw [width_eq]; simp)
    obtain ⟨m, rest, rfl, rfl, rfl⟩ := List.map_eq_cons_iff.mp octets
    rw [List.cons_append, spelled_cons_iff tolerated_headed, ← List.cons_append] at spelled
    -- The first unit of the text is a character that begins with the octets carried over.
    have long : (m :: rest).length ≤ width m.1 := by
      rw [← announced, width_eq, List.length_cons, List.length_cons, List.length_map]
      omega
    rw [List.take_append, List.take_of_length_le long] at spelled
    rcases spelled.1 with named | ⟨overlong, _⟩
    · rw [List.map_append, List.map_cons] at named
      have unfinished : (tail.take (width m.1 - (m :: rest).length)).map Prod.fst ≠ [] := by
        intro empty
        rw [empty, List.append_nil] at named
        obtain ⟨b, more, same, size⟩ := isChar_headed _ named
        cases same
        rw [← announced, width_eq] at size
        omega
      rw [validHave_of_char (by simp) unfinished named] at checked
      cases checked
    · rw [List.map_append, List.map_cons, List.cons_append, isOverlong_cons ne0 ne1] at overlong
      cases overlong

/-- The tail loop decides the last octets of a write. -/
theorem decided_tailLoop {c : Utf8Checker} (fresh : c.need_ = 0 ∧ c.have_ = []) {fuel : Nat}
    {input : List UInt8} (short : input.length < 4) (enough : input.length < fuel) :
    Decided (mark input) (tailLoop c fuel input) := by
  induction fuel generalizing input with
  | zero => omega
  | succ fuel ih =>
    match input with
    | [] => exact ⟨Or.inl fresh, [], by simp [fresh.2], fun _ => Iff.rfl⟩
    | a :: input =>
      simp only [tailLoop, beq_iff_eq]
      by_cases starts : needed a = 0
      · -- Neither a character nor a shielded form starts here, this close to the end.
        rw [if_pos starts]
        intro tail spelled
        rw [mark, List.cons_append, spelled_cons_iff tolerated_headed,
          tolerated_take_iff (width_pos a)] at spelled
        rcases spelled.1 with named | ⟨_, far⟩
        · obtain ⟨n, positive⟩ := Nat.exists_eq_succ_of_ne_zero (Nat.ne_of_gt (width_pos a))
          rw [positive, List.take_succ_cons] at named
          exact isChar_needed named starts
        · simp only [List.length_cons] at short
          omega
      rw [if_neg starts]
      obtain ⟨announced, ne0, ne1⟩ := needed_spec a starts
      by_cases whole : needed a ≤ (a :: input).length
      · rw [if_pos whole]
        have enough' : width a ≤ (a :: input).length := by rwa [← announced]
        have unit : ∀ tail, _ := fun tail =>
          @spelled_unit_iff a (input.length + 1) (mark input) tail (by simpa using enough')
        simp only [map_fst_mark, isOverlong_lead ne0 ne1, Bool.false_eq_true, false_and,
          or_false] at unit
        rw [valid_eq enough', isOverlong_lead ne0 ne1, Bool.or_false]
        cases named : isChar ((a :: input).take (width a)) with
        | false =>
          intro tail spelled
          rw [mark, unit, named] at spelled
          exact Bool.false_ne_true spelled.1
        | true =>
          have shorter : ((a :: input).drop (width a)).length < (a :: input).length := by
            rw [List.length_drop]
            have := width_pos a
            simp only [List.length_cons]
            omega
          refine (@ih ((a :: input).drop (width a)) (by omega) (by omega)).congr ?_
          intro tail
          rw [mark, unit, ← mark, drop_mark]
          simp [named]
      · rw [if_neg whole, fresh.2, List.nil_append]
        exact decided_validHave (by simp) (by omega) (by omega)

/-- The three loops decide a write that starts between code points. -/
theorem decided_writeRest {c : Utf8Checker} (fresh : c.need_ = 0 ∧ c.have_ = [])
    (unaligned : Bool) (address : Nat) (input : List UInt8) :
    Decided (mark input) (c.writeRest unaligned address input) := by
  unfold writeRest
  -- Words first, then units, then the octets that may be carried over.
  cases words : wordLoop unaligned input.length address input with
  | none => exact wordLoop_none words
  | some rest =>
    refine Decided.congr (wordLoop_some words) ?_
    cases points : pointLoop rest.length rest with
    | none =>
      simp only [points]
      exact pointLoop_none points
    | some last =>
      obtain ⟨short, same⟩ := pointLoop_some (Nat.le_refl _) points
      simp only [points]
      exact (decided_tailLoop fresh short (Nat.lt_succ_self _)).congr same

/-- One write decides the text carried over together with its own octets. -/
theorem decided_write {c : Utf8Checker} (isOpen : Open c) {carry : List (UInt8 × Nat)}
    (octets : carry.map Prod.fst = c.have_) (unaligned : Bool) (address : Nat)
    (input : List UInt8) :
    Decided (carry ++ mark input) (c.write unaligned address input) := by
  rcases isOpen with fresh | ⟨a, held, held_eq, width_eq, positive⟩
  · -- Between code points nothing is carried, and the loops do all the work.
    rw [fresh.2, List.map_eq_nil_iff] at octets
    subst octets
    rw [write, if_neg (by omega)]
    exact decided_writeRest fresh unaligned address input
  · rw [write, if_pos positive]
    obtain ⟨announced, ne0, ne1⟩ := needed_spec a (by omega)
    -- The text is regrouped: the octets that go to the open code point, and those behind them.
    have cut : mark input = (mark input).take (min input.length c.need_) ++
        mark (input.drop (min input.length c.need_)) := by
      rw [← drop_mark, List.take_append_drop]
    have taken : (carry ++ (mark input).take (min input.length c.need_)).map Prod.fst =
        a :: (held ++ input.take (min input.length c.need_)) := by
      rw [List.map_append, octets, held_eq, List.map_take, map_fst_mark, List.cons_append]
    dsimp only
    by_cases still : c.need_ - min input.length c.need_ > 0
    · rw [if_pos still]
      have whole : input.take (min input.length c.need_) = input :=
        List.take_of_length_le (by omega)
      have wholeMark : (mark input).take (min input.length c.need_) = mark input :=
        List.take_of_length_le (by rw [length_mark]; omega)
      rw [whole, wholeMark] at taken
      rw [whole, held_eq, List.cons_append]
      refine decided_validHave taken ?_ still
      rw [width_eq, held_eq]
      simp only [List.length_cons, List.length_append]
      omega
    · rw [if_neg still]
      have full : (a :: (held ++ input.take (min input.length c.need_))).length = width a := by
        rw [← announced, width_eq, held_eq]
        simp only [List.length_cons, List.length_append, List.length_take]
        omega
      generalize front_eq : carry ++ (mark input).take (min input.length c.need_) = front at taken
      have regroup : carry ++ mark input =
          front ++ mark (input.drop (min input.length c.need_)) := by
        rw [← front_eq, List.append_assoc, ← cut]
      rw [regroup, held_eq, List.cons_append, valid_eq (Nat.le_of_eq full.symm),
        List.take_of_length_le (Nat.le_of_eq full), isOverlong_cons ne0 ne1, Bool.or_false]
      obtain ⟨m, rest, rfl, lead, rest_eq⟩ := List.map_eq_cons_iff.mp taken
      -- The open code point is complete, so it is a unit of its own.
      have unit : ∀ tail, _ := fun tail => @spelled_unit_iff m.1 m.2 rest tail
        (by rw [lead, ← full, ← rest_eq]; simp)
      simp only [lead, rest_eq, isOverlong_lead ne0 ne1, Bool.false_eq_true, false_and,
        or_false] at unit
      have used : (a :: rest.map Prod.fst).length = width a := by rw [rest_eq]; exact full
      simp only [List.length_cons, List.length_map] at used
      have allTaken : (a :: (held ++ input.take (min input.length c.need_))).take (width a) =
          a :: (held ++ input.take (min input.length c.need_)) :=
        List.take_of_length_le (by omega)
      have allDropped : ((a, m.2) :: rest).drop (width a) = [] :=
        List.drop_of_length_le (by simp only [List.length_cons]; omega)
      have same : m = (a, m.2) := by rw [← lead]
      rw [same]
      cases named : isChar (a :: (held ++ input.take (min input.length c.need_))) with
      | false =>
        intro tail spelled
        rw [List.append_assoc, unit, allTaken, named] at spelled
        exact Bool.false_ne_true spelled.1
      | true =>
        have none_owed : c.need_ - min input.length c.need_ = 0 := by omega
        refine (decided_writeRest ⟨none_owed, rfl⟩ unaligned _ _).congr ?_
        intro tail
        rw [List.append_assoc, unit, allTaken, named, allDropped]
        simp

/-- A sequence of writes decides the text carried over together with all of their octets. -/
theorem decided_writeAll {c : Utf8Checker} (isOpen : Open c) {carry : List (UInt8 × Nat)}
    (octets : carry.map Prod.fst = c.have_) (unaligned : Bool)
    (pieces : List (Nat × List UInt8)) :
    Decided (carry ++ pieces.flatMap (mark ·.2)) (c.writeAll unaligned pieces) := by
  -- The induction is on the writes, and carries the octets of the code point that is open.
  induction pieces generalizing c carry with
  | nil => exact ⟨isOpen, carry, octets, by simp⟩
  | cons piece pieces ih =>
    obtain ⟨address, input⟩ := piece
    have first := decided_write isOpen octets unaligned address input
    simp only [writeAll, List.flatMap_cons]
    rcases written : c.write unaligned address input with ⟨ok, next⟩
    rw [written] at first
    cases ok with
    | false =>
      intro tail spelled
      rw [← List.append_assoc, List.append_assoc] at spelled
      exact first _ spelled
    | true =>
      obtain ⟨nextOpen, nextCarry, nextOctets, same⟩ := first
      refine (ih nextOpen nextOctets).congr ?_
      intro tail
      have first := same (pieces.flatMap (mark ·.2) ++ tail)
      simpa only [List.append_assoc] using first

/-- Finishing succeeds exactly when nothing is left of the text. -/
theorem finish_iff {c : Utf8Checker} (isOpen : Open c) {carry : List (UInt8 × Nat)}
    (octets : carry.map Prod.fst = c.have_) :
    c.finish.1 = true ↔ Spelled Tolerated carry := by
  -- Either no code point is open, or one that wants more octets.
  rcases isOpen with fresh | ⟨a, held, held_eq, width_eq, positive⟩
  · rw [fresh.2, List.map_eq_nil_iff] at octets
    subst octets
    simp [finish, fresh.1, spelled_nil]
  · have owing : c.finish.1 = false := by
      simp only [finish, beq_eq_false_iff_ne]
      omega
    obtain ⟨announced, _, _⟩ := needed_spec a (by omega)
    rw [held_eq] at octets
    obtain ⟨m, rest, rfl, rfl, rest_eq⟩ := List.map_eq_cons_iff.mp octets
    simp only [owing, Bool.false_eq_true, false_iff]
    -- The unit begun needs more octets than the text has.
    intro spelled
    rw [spelled_cons_iff tolerated_headed] at spelled
    obtain ⟨b, more, same, size⟩ := tolerated_headed _ spelled.1
    have held_size : c.have_.length = rest.length + 1 := by
      rw [held_eq, ← rest_eq]
      simp
    obtain ⟨n, positive'⟩ := Nat.exists_eq_succ_of_ne_zero (Nat.ne_of_gt (width_pos m.1))
    rw [positive', List.take_succ_cons] at same
    cases same
    simp only [List.length_cons, List.length_take] at size
    omega

/-- Whether every write of a text succeeds on a reset checker, and finishing after them too. -/
def accepts (unaligned : Bool) (pieces : List (Nat × List UInt8)) : Bool :=
  match (reset {}).writeAll unaligned pieces with
  | (false, _) => false
  | (true, c) => c.finish.1

/-- The checker accepts exactly the texts made of tolerated units. -/
theorem accepts_iff (unaligned : Bool) (pieces : List (Nat × List UInt8)) :
    accepts unaligned pieces = true ↔ Spelled Tolerated (pieces.flatMap (mark ·.2)) := by
  -- A reset checker carries nothing, so the writes decide exactly their own octets.
  have fresh : Open (reset {}) := Or.inl ⟨rfl, rfl⟩
  have decided := @decided_writeAll _ fresh [] rfl unaligned pieces
  simp only [accepts]
  rcases written : (reset {}).writeAll unaligned pieces with ⟨ok, c⟩
  rw [written] at decided
  cases ok with
  | false => simpa using decided []
  | true =>
    obtain ⟨isOpen, carry, octets, same⟩ := decided
    simpa [finish_iff isOpen octets] using (same []).symm

/-- Some overlong form is all that keeps the text from being well formed, and each is shielded. -/
def ShieldedOverlong (pieces : List (List UInt8)) : Prop :=
  ∃ units : List (List (UInt8 × Nat)), units.flatten = pieces.flatMap mark ∧
    (∀ u ∈ units, Tolerated u) ∧ ∃ u ∈ units, Shielded u

/-- A text cut into units with a shielded one among them is not well formed. -/
theorem not_wellFormed_of_shielded {units : List (List (UInt8 × Nat))}
    (all : ∀ u ∈ units, Tolerated u) {u : List (UInt8 × Nat)} (member : u ∈ units)
    (shielded : Shielded u) : ¬ WellFormed (units.flatten.map Prod.fst) := by
  rw [wellFormed_iff]
  -- The units in front of the overlong form are characters, and no character starts as it does.
  induction units with
  | nil => simp at member
  | cons v units ih =>
    rw [List.flatten_cons, List.map_append]
    intro spelled
    by_cases named : isChar (v.map Prod.fst) = true
    · rw [spelled_word_append isChar_headed named] at spelled
      -- The first unit is a character, so it is not the overlong form.
      rcases List.mem_cons.mp member with rfl | member
      · match u with
        | [] => simp [isChar] at named
        | [_] => simp [Shielded, isOverlong] at shielded
        | [(a, _), (b, _)] =>
          obtain ⟨overlong, _⟩ := shielded
          simp [isChar, isOverlong, UInt8.le_iff_toNat_le, ← UInt8.toNat_inj] at named overlong
          omega
        | _ :: _ :: _ :: _ => simp [Shielded, isOverlong] at shielded
      · exact ih (fun w inside => all w (by simp [inside])) member spelled
    · obtain ⟨m, rest, rfl, size⟩ := tolerated_headed v (all v (by simp))
      rw [List.map_cons, List.cons_append, spelled_cons_iff isChar_headed, ← List.cons_append,
        ← List.map_cons, List.take_left' (by simpa using size)] at spelled
      exact named spelled.1

/-- Without shielded forms, the tolerated texts are the well-formed ones. -/
theorem wellFormed_iff_characters {text : List (UInt8 × Nat)} :
    WellFormed (text.map Prod.fst) ↔
      Spelled (fun u : List (UInt8 × Nat) => isChar (u.map Prod.fst) = true) text := by
  rw [wellFormed_iff, spelled_map_iff]

/--
The checker is exact except on texts whose only fault is a shielded overlong form.

Such a form starts with C0 or C1, is completed in the same write, and has at least two more octets of that write behind it.
-/
theorem accepts_exact_iff (unaligned : Bool) (pieces : List (Nat × List UInt8)) :
    (accepts unaligned pieces = true ↔ WellFormed (pieces.flatMap (·.2))) ↔
      ¬ ShieldedOverlong (pieces.map (·.2)) := by
  have octets : pieces.flatMap (·.2) = (pieces.flatMap (mark ·.2)).map Prod.fst := by
    simp [List.map_flatMap]
  have text : (pieces.map (·.2)).flatMap mark = pieces.flatMap (mark ·.2) := by
    simp [List.flatMap_map]
  rw [accepts_iff, octets]
  -- Where no form is shielded, every tolerated unit is a character.
  constructor
  · rintro exact_ ⟨units, joined, all, u, member, shielded⟩
    rw [text] at joined
    have spelled := exact_.mp ⟨units, joined, all⟩
    rw [← joined] at spelled
    exact not_wellFormed_of_shielded all member shielded spelled
  · intro unshielded
    rw [wellFormed_iff_characters]
    constructor
    · rintro ⟨units, joined, all⟩
      refine ⟨units, joined, fun u member => ?_⟩
      rcases all u member with named | shielded
      · exact named
      · exact absurd ⟨units, joined.trans text.symm, all, u, member, shielded⟩ unshielded
    · exact fun spelled => spelled.mono (fun _ named => Or.inl named)

/-- Two octets of ASCII behind it are enough to let an overlong NUL through. -/
theorem overlong_accepted :
    ¬ (accepts true [(0, [0xC0, 0x80, 0x41, 0x41])] = true ↔
      WellFormed [0xC0, 0x80, 0x41, 0x41]) := by
  have passed : accepts true [(0, [0xC0, 0x80, 0x41, 0x41])] = true := by decide
  rw [wellFormed_iff, spelled_cons_iff isChar_headed]
  intro same
  have named := (same.mp passed).1
  revert named
  decide

end Utf8Checker

end Beast.Websocket
