import Beast.Http.BasicParserBase
import Mathlib.Data.Nat.Init
import Mathlib.Tactic.Common
import Mathlib.Tactic.Ring

/-! The readers and searches of the parser on a text that goes on. -/

namespace Beast.Http

/-- The start of a search moved twice is the start moved by the sum. -/
@[simp] theorem shift_shift (j k : Nat) (scan : Scan) :
    (scan.shift j).shift k = scan.shift (k + j) := by
  cases scan <;> simp [Scan.shift, Nat.add_assoc]

/-- A search that starts at the front is where it is. -/
@[simp] theorem shift_zero (scan : Scan) : scan.shift 0 = scan := by
  cases scan <;> simp [Scan.shift]

/-- Moving a search does not settle it. -/
@[simp] theorem shift_eq_need {k : Nat} {scan : Scan} : scan.shift k = .need ↔ scan = .need := by
  cases scan <;> simp [Scan.shift]

/-- The search for a line passes over anything but a carriage return. -/
theorem findEol_cons {c : UInt8} {it : Octets} (other : c ≠ 13) :
    findEol (c :: it) = (findEol it).shift 1 := by
  rw [findEol.eq_def]
  simp [other]

/-- A carriage return at the end leaves the search for a line open. -/
theorem findEol_last : findEol [13] = .need := rfl

/-- The octet behind a carriage return settles the search for a line. -/
theorem findEol_return {e : UInt8} {it : Octets} :
    findEol (13 :: e :: it) = if e = 10 then .found 2 else .bad := by
  by_cases ended : e = 10 <;> simp [findEol, ended]

/-- A search for a line that is settled stays so when the text goes on. -/
theorem findEol_append {text : Octets} (settled : findEol text ≠ .need) (more : Octets) :
    findEol (text ++ more) = findEol text := by
  induction text with
  | nil => simp [findEol] at settled
  | cons c it ih =>
    by_cases other : c = 13
    · subst other
      cases it with
      | nil => exact absurd findEol_last settled
      | cons e it => rw [List.cons_append, List.cons_append, findEol_return, findEol_return]
    · rw [findEol_cons other] at settled ⊢
      rw [List.cons_append, findEol_cons other, ih (by simpa using settled)]

/-- A search for a line that found none may go on from the last octet. -/
theorem findEol_resume {text : Octets} (unsettled : findEol text = .need) {k : Nat}
    (inside : k + 1 ≤ text.length) (more : Octets) :
    (findEol ((text ++ more).drop k)).shift k = findEol (text ++ more) := by
  induction text generalizing k with
  | nil => simp at inside
  | cons c it ih =>
    cases k with
    | zero => simp
    | succ k =>
      by_cases other : c = 13
      · -- Behind a carriage return there is nothing yet, or the search would be settled.
        subst other
        cases it with
        | nil => simp at inside
        | cons e it => rw [findEol_return] at unsettled; split at unsettled <;> simp at unsettled
      · rw [findEol_cons other, shift_eq_need] at unsettled
        rw [List.cons_append, List.drop_succ_cons, findEol_cons other,
          ← ih unsettled (by simpa using inside), shift_shift, Nat.add_comm]

/-- A line is found in front of what it leaves. -/
theorem findEol_bounds {text : Octets} {k : Nat} (found : findEol text = .found k) :
    2 ≤ k ∧ k ≤ text.length := by
  induction text generalizing k with
  | nil => simp [findEol] at found
  | cons c it ih =>
    by_cases other : c = 13
    · subst other
      cases it with
      | nil => simp [findEol_last] at found
      | cons e it =>
        rw [findEol_return] at found
        split at found
        · cases found
          simp
        · simp at found
    · rw [findEol_cons other] at found
      cases rest : findEol it with
      | need => simp [rest, Scan.shift] at found
      | bad => simp [rest, Scan.shift] at found
      | found j =>
        obtain ⟨lower, upper⟩ := ih rest
        simp only [rest, Scan.shift, Scan.found.injEq] at found
        simp only [List.length_cons]
        omega

/-- In front of the end of a line, no octet is a carriage return. -/
theorem findEol_plain {text : Octets} {k i : Nat} (found : findEol text = .found k)
    (before : i + 2 < k) : ∃ c, text[i]? = some c ∧ c ≠ 13 := by
  induction text generalizing k i with
  | nil => simp [findEol] at found
  | cons c it ih =>
    by_cases other : c = 13
    · subst other
      cases it with
      | nil => simp [findEol_last] at found
      | cons e it =>
        rw [findEol_return] at found
        split at found
        · cases found
          omega
        · simp at found
    · rw [findEol_cons other] at found
      cases i with
      | zero => exact ⟨c, by simp, other⟩
      | succ i =>
        cases rest : findEol it with
        | need => simp [rest, Scan.shift] at found
        | bad => simp [rest, Scan.shift] at found
        | found j =>
          simp only [rest, Scan.shift, Scan.found.injEq] at found
          obtain ⟨e, there, plain⟩ := ih rest (show i + 2 < j by omega)
          exact ⟨e, by simpa using there, plain⟩

/-- The search for an empty line passes over anything but a carriage return. -/
theorem findEom_cons {c : UInt8} {it : Octets} (other : c ≠ 13) :
    findEom (c :: it) = (findEom it).shift 1 := by
  rw [findEom.eq_def]
  simp [other]

/-- Behind the end of a line, the search passes over an octet that does not open the empty line. -/
theorem findEom_line {e : UInt8} {it : Octets} (other : e ≠ 13) :
    findEom (13 :: 10 :: e :: it) = (findEom it).shift 3 := by
  rw [findEom.eq_def]
  simp [other]

/-- A carriage return without its line feed settles the search. -/
theorem findEom_bad {e : UInt8} {it : Octets} (other : e ≠ 10) :
    findEom (13 :: e :: it) = .bad := by
  rw [findEom.eq_def]
  simp [other]

/-- The octet behind the second carriage return settles the search. -/
theorem findEom_empty {g : UInt8} {it : Octets} :
    findEom (13 :: 10 :: 13 :: g :: it) = if g = 10 then .found 4 else .bad := by
  rw [findEom.eq_def]
  by_cases ended : g = 10 <;> simp [ended]

/-- The texts on which the search for an empty line goes on. -/
theorem findEom_cases (text : Octets) :
    (text = [] ∨ text = [13] ∨ text = [13, 10] ∨ text = [13, 10, 13]) ∨
    (∃ c it, text = c :: it ∧ c ≠ 13) ∨
    (∃ e it, text = 13 :: 10 :: e :: it ∧ e ≠ 13) ∨
    (∃ e it, text = 13 :: e :: it ∧ e ≠ 10) ∨
    ∃ g it, text = 13 :: 10 :: 13 :: g :: it := by
  obtain _ | ⟨c, it⟩ := text
  · simp
  by_cases first : c = 13
  swap
  · exact Or.inr (Or.inl ⟨c, it, rfl, first⟩)
  subst first
  obtain _ | ⟨e, it⟩ := it
  · simp
  by_cases second : e = 10
  swap
  · exact Or.inr (Or.inr (Or.inr (Or.inl ⟨e, it, rfl, second⟩)))
  subst second
  obtain _ | ⟨g, it⟩ := it
  · simp
  by_cases third : g = 13
  swap
  · exact Or.inr (Or.inr (Or.inl ⟨g, it, rfl, third⟩))
  subst third
  obtain _ | ⟨h, it⟩ := it
  · simp
  exact Or.inr (Or.inr (Or.inr (Or.inr ⟨h, it, rfl⟩)))

/-- A search for an empty line that is settled stays so when the text goes on. -/
theorem findEom_append {text : Octets} (settled : findEom text ≠ .need) (more : Octets) :
    findEom (text ++ more) = findEom text := by
  -- The search shortens the text by one octet, or by three.
  induction size : text.length using Nat.strong_induction_on generalizing text with
  | _ n ih =>
    rcases findEom_cases text with
      short | ⟨c, it, rfl, other⟩ | ⟨e, it, rfl, other⟩ | ⟨e, it, rfl, other⟩ | ⟨g, it, rfl⟩
    · rcases short with rfl | rfl | rfl | rfl <;> exact absurd (by decide) settled
    · rw [findEom_cons other] at settled ⊢
      rw [List.cons_append, findEom_cons other,
        ih it.length (by simp [← size]) (by simpa using settled) rfl]
    · rw [findEom_line other] at settled ⊢
      rw [List.cons_append, List.cons_append, List.cons_append, findEom_line other,
        ih it.length (by simp only [← size, List.length_cons]; omega) (by simpa using settled) rfl]
    · rw [List.cons_append, List.cons_append, findEom_bad other, findEom_bad other]
    · rw [List.cons_append, List.cons_append, List.cons_append, List.cons_append, findEom_empty,
        findEom_empty]

/-- A search for an empty line that found none may go on from the last three octets. -/
theorem findEom_resume {text : Octets} (unsettled : findEom text = .need) {k : Nat}
    (inside : k + 3 ≤ text.length) (more : Octets) :
    (findEom ((text ++ more).drop k)).shift k = findEom (text ++ more) := by
  induction size : text.length using Nat.strong_induction_on generalizing text k with
  | _ n ih =>
    cases k with
    | zero => simp
    | succ k =>
      rcases findEom_cases text with
        short | ⟨c, it, rfl, other⟩ | ⟨e, it, rfl, other⟩ | ⟨e, it, rfl, other⟩ | ⟨g, it, rfl⟩
      · rcases short with rfl | rfl | rfl | rfl <;> simp at inside
      · rw [findEom_cons other, shift_eq_need] at unsettled
        rw [List.cons_append, List.drop_succ_cons, findEom_cons other,
          ← ih it.length (by simp [← size]) unsettled (by simpa using inside) rfl, shift_shift,
          Nat.add_comm]
      · rw [findEom_line other, shift_eq_need] at unsettled
        have feed : (10 : UInt8) ≠ 13 := by decide
        rw [List.cons_append, List.cons_append, List.cons_append, findEom_line other]
        -- The search may start at either of the two octets that it passed over as well.
        match k with
        | 0 => simp [findEom_cons feed, findEom_cons other]
        | 1 => simp [findEom_cons other]
        | k + 2 =>
          simp only [List.drop_succ_cons]
          have behind : k + 3 ≤ it.length := by
            simp only [List.length_cons] at inside
            omega
          rw [← ih it.length (by simp only [← size, List.length_cons]; omega) unsettled behind rfl,
            shift_shift, Nat.add_comm 3 k]
      · simp [findEom_bad other] at unsettled
      · rw [findEom_empty] at unsettled
        split at unsettled <;> simp at unsettled

/-- An empty line is found in front of what it leaves. -/
theorem findEom_bounds {text : Octets} {k : Nat} (found : findEom text = .found k) :
    4 ≤ k ∧ k ≤ text.length := by
  induction size : text.length using Nat.strong_induction_on generalizing text k with
  | _ n ih =>
    subst size
    have shorter : ∀ {it : Octets} {j : Nat}, it.length < text.length →
        (findEom it).shift j = .found k → 4 ≤ k ∧ k ≤ it.length + j := by
      intro it j less moved
      cases rest : findEom it with
      | need => simp [rest, Scan.shift] at moved
      | bad => simp [rest, Scan.shift] at moved
      | found i =>
        have bounds := ih it.length less rest rfl
        simp only [rest, Scan.shift, Scan.found.injEq] at moved
        omega
    rcases findEom_cases text with
      short | ⟨c, it, rfl, other⟩ | ⟨e, it, rfl, other⟩ | ⟨e, it, rfl, other⟩ | ⟨g, it, rfl⟩
    · rcases short with rfl | rfl | rfl | rfl <;> simp [findEom] at found
    · rw [findEom_cons other] at found
      exact shorter (by simp) found
    · rw [findEom_line other] at found
      exact @shorter it 3 (by simp only [List.length_cons]; omega) found
    · simp [findEom_bad other] at found
    · rw [findEom_empty] at found
      split at found
      · cases found
        simp
      · simp at found

/-- A number that was read is read alike when the text goes on. -/
theorem parseHexLoop_append {v : Nat} {text it : Octets} {r : Option Nat}
    (read : parseHexLoop v text = .ok (r, it)) (more : Octets) :
    parseHexLoop v (text ++ more) = .ok (r, it ++ more) := by
  induction text generalizing v with
  | nil => simp [parseHexLoop] at read
  | cons c text ih =>
    rw [List.cons_append, parseHexLoop]
    rw [parseHexLoop] at read
    cases digit : unhex c with
    | none =>
      simp only [digit, Except.ok.injEq, Prod.mk.injEq] at read ⊢
      obtain ⟨rfl, rfl⟩ := read
      exact ⟨rfl, rfl⟩
    | some d =>
      simp only [digit] at read ⊢
      split at read
      · rename_i small
        rw [if_pos small]
        simp only [Except.ok.injEq, Prod.mk.injEq] at read ⊢
        obtain ⟨rfl, rfl⟩ := read
        exact ⟨rfl, rfl⟩
      · rename_i large
        rw [if_neg large]
        exact ih read

/-- A number that was read is read alike when the text goes on. -/
theorem parseHex_append {text it : Octets} {r : Option Nat}
    (read : parseHex text = .ok (r, it)) (more : Octets) :
    parseHex (text ++ more) = .ok (r, it ++ more) := by
  cases text with
  | nil => simp [parseHex] at read
  | cons c text =>
    rw [List.cons_append, parseHex]
    rw [parseHex] at read
    cases digit : unhex c with
    | none =>
      simp only [digit, Except.ok.injEq, Prod.mk.injEq] at read ⊢
      obtain ⟨rfl, rfl⟩ := read
      exact ⟨rfl, rfl⟩
    | some d =>
      simp only [digit] at read ⊢
      exact parseHexLoop_append read more

/-- A number that was read leaves the octet that ended it, and some text in front of it. -/
theorem parseHexLoop_rest {v n : Nat} {text it : Octets}
    (read : parseHexLoop v text = .ok (some n, it)) : it ≠ [] ∧ it.length ≤ text.length := by
  induction text generalizing v with
  | nil => simp [parseHexLoop] at read
  | cons c text ih =>
    rw [parseHexLoop] at read
    cases digit : unhex c with
    | none =>
      simp only [digit, Except.ok.injEq, Prod.mk.injEq] at read
      obtain ⟨_, rfl⟩ := read
      simp
    | some d =>
      simp only [digit] at read
      split at read
      · simp at read
      · obtain ⟨present, shorter⟩ := ih read
        exact ⟨present, by simp only [List.length_cons]; omega⟩

/-- A number that was read leaves the octet that ended it, and took at least one octet. -/
theorem parseHex_rest {n : Nat} {text it : Octets} (read : parseHex text = .ok (some n, it)) :
    it ≠ [] ∧ it.length < text.length := by
  cases text with
  | nil => simp [parseHex] at read
  | cons c text =>
    rw [parseHex] at read
    cases digit : unhex c with
    | none => simp [digit] at read
    | some d =>
      simp only [digit] at read
      obtain ⟨present, shorter⟩ := parseHexLoop_rest read
      exact ⟨present, by simp only [List.length_cons]; omega⟩

/-- A carriage return is no digit. -/
theorem unhex_return : unhex 13 = none := by decide

/-- On a text that holds the end of a line, a number does not run out of octets. -/
theorem parseHexLoop_line {v k : Nat} {text : Octets} (line : findEol text = .found k) :
    ∃ r, parseHexLoop v text = .ok r := by
  induction text generalizing v k with
  | nil => simp [findEol] at line
  | cons c text ih =>
    rw [parseHexLoop]
    cases digit : unhex c with
    | none => exact ⟨_, rfl⟩
    | some d =>
      have other : c ≠ 13 := by
        rintro rfl
        simp [unhex_return] at digit
      rw [findEol_cons other] at line
      cases rest : findEol text with
      | need => simp [rest, Scan.shift] at line
      | bad => simp [rest, Scan.shift] at line
      | found j =>
        dsimp only
        split
        · exact ⟨_, rfl⟩
        · exact ih rest

/-- On a text that holds the end of a line, a number does not run out of octets. -/
theorem parseHex_line {k : Nat} {text : Octets} (line : findEol text = .found k) :
    ∃ r, parseHex text = .ok r := by
  cases text with
  | nil => simp [findEol] at line
  | cons c text =>
    rw [parseHex]
    cases digit : unhex c with
    | none => exact ⟨_, rfl⟩
    | some d =>
      have other : c ≠ 13 := by
        rintro rfl
        simp [unhex_return] at digit
      rw [findEol_cons other] at line
      cases rest : findEol text with
      | need => simp [rest, Scan.shift] at line
      | bad => simp [rest, Scan.shift] at line
      | found j => exact parseHexLoop_line rest

/-- With two octets at hand, a line ending is read or not, whatever follows. -/
theorem parseCrlf_two {c e : UInt8} {it : Octets} :
    parseCrlf (c :: e :: it) =
      if c = 13 then if e = 10 then .ok (true, it) else .ok (false, e :: it)
      else .ok (false, c :: e :: it) := by
  by_cases first : c = 13 <;> by_cases second : e = 10 <;> simp [parseCrlf, first, second]

end Beast.Http
