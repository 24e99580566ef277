import Mathlib.Data.List.TakeWhile
import Beast.Http.BasicParser

/-! The lists in field values: how far they are read, and that white space around them says nothing. -/

namespace Beast.Http

/-- White space, and nothing else. -/
def IsSpace (s : Octets) : Prop := ∀ c ∈ s, isOws c = true

/-- White space belongs to no token, and is text. -/
theorem ows_plain {c : UInt8} (space : isOws c = true) : isTchar c = false ∧ isText c = true := by
  simp only [isOws, Bool.or_eq_true, beq_iff_eq] at space
  rcases space with rfl | rfl <;> decide

/-- An octet of a token is text. -/
theorem tchar_text {c : UInt8} (token : isTchar c = true) : isText c = true := by
  obtain ⟨c⟩ := c
  revert c
  decide +kernel

/-- A string is its trimmed part between white space. -/
theorem trim_split (s : Octets) : ∃ front back, s = front ++ trim s ++ back ∧ IsSpace front ∧
    IsSpace back ∧ front.length = s.length - (skipOws s).length := by
  have first : s.takeWhile isOws ++ skipOws s = s := List.takeWhile_append_dropWhile
  have last : trim s ++ ((skipOws s).reverse.takeWhile isOws).reverse = skipOws s := by
    rw [trim, ← List.reverse_append, List.takeWhile_append_dropWhile, List.reverse_reverse]
  refine ⟨s.takeWhile isOws, ((skipOws s).reverse.takeWhile isOws).reverse, ?_, ?_, ?_, ?_⟩
  · rw [List.append_assoc, last, first]
  · exact fun c there => List.mem_takeWhile_imp there
  · exact fun c there => List.mem_takeWhile_imp (List.mem_reverse.mp there)
  · have sizes := congrArg List.length first
    rw [List.length_append] at sizes
    omega

/-- A token that was read leaves less than there was. -/
theorem skipToken_shorter {c : UInt8} (token : isTchar c = true) (it : Octets) :
    (skipToken (c :: it)).length ≤ it.length := by
  rw [skipToken, List.dropWhile_cons_of_pos token]
  exact (List.dropWhile_suffix isTchar).length_le

/-- The next token is the next element of a list, read without a word on its faults. -/
theorem nextToken_eq (needComma : Bool) (it : Octets) :
    nextToken needComma it = (nextOptToken needComma it).toOption.join := by
  induction it generalizing needComma with
  | nil => rfl
  | cons c it ih =>
    rw [nextToken, nextOptToken, ih, ih]
    split
    · rfl
    · split
      · split <;> rfl
      · split <;> rfl

/-- A token is next where an element of a list is, and the list has no fault before it. -/
theorem nextToken_some {needComma : Bool} {it p0 : Octets}
    (next : nextToken needComma it = some p0) : nextOptToken needComma it = .ok (some p0) := by
  rw [nextToken_eq] at next
  rcases same : nextOptToken needComma it with _ | _ | p
  · rw [same] at next
    cases next
  · rw [same] at next
    cases next
  · rw [same] at next
    cases next
    rfl

/-- The next element starts with an octet of a token, behind white space and commas. -/
theorem nextOptToken_some {needComma : Bool} {it p0 : Octets}
    (next : nextOptToken needComma it = .ok (some p0)) :
    ∃ front c rest, it = front ++ p0 ∧ (∀ b ∈ front, isText b = true) ∧ p0 = c :: rest ∧
      isTchar c = true := by
  induction it generalizing needComma with
  | nil => cases next
  | cons c it ih =>
    rw [nextOptToken] at next
    -- One more octet stands in front of the element.
    have later : ∀ {needComma : Bool}, isText c = true →
        nextOptToken needComma it = .ok (some p0) →
        ∃ front e rest, c :: it = front ++ p0 ∧ (∀ b ∈ front, isText b = true) ∧ p0 = e :: rest ∧
          isTchar e = true := by
      intro needComma text next
      obtain ⟨front, e, rest, rfl, texts, same, token⟩ := ih next
      refine ⟨c :: front, e, rest, rfl, fun b there => ?_, same, token⟩
      rcases List.mem_cons.mp there with rfl | there
      · exact text
      · exact texts b there
    split at next
    · exact later (ows_plain ‹_›).2 next
    · split at next
      · rename_i token
        split at next
        · cases next
        · cases next
          exact ⟨[], c, it, rfl, nofun, rfl, token⟩
      · split at next
        · cases next
        · rename_i comma
          have same : c = octet ',' := by simpa using comma
          exact later (by rw [same]; decide) next

/-- Where no element follows, nothing but white space and commas does. -/
theorem nextOptToken_none {needComma : Bool} {it : Octets}
    (next : nextOptToken needComma it = .ok none) : ∀ b ∈ it, isText b = true := by
  induction it generalizing needComma with
  | nil => nofun
  | cons c it ih =>
    rw [nextOptToken] at next
    intro b there
    split at next
    · rcases List.mem_cons.mp there with rfl | there
      · exact (ows_plain ‹_›).2
      · exact ih next b there
    · split at next
      · split at next <;> cases next
      · split at next
        · cases next
        · rename_i comma
          rcases List.mem_cons.mp there with rfl | there
          · have same : b = octet ',' := by simpa using comma
            rw [same]
            decide
          · exact ih next b there

/-- White space in front of a list is passed over. -/
theorem nextOptToken_front {front : Octets} (space : IsSpace front) (needComma : Bool)
    (s : Octets) : nextOptToken needComma (front ++ s) = nextOptToken needComma s := by
  induction front with
  | nil => rfl
  | cons c front ih =>
    rw [List.cons_append, nextOptToken, if_pos (space c List.mem_cons_self)]
    exact ih fun b there => space b (List.mem_cons_of_mem _ there)

/-- White space behind a list is left behind its next element. -/
theorem nextOptToken_back {back : Octets} (space : IsSpace back) (needComma : Bool) (s : Octets) :
    nextOptToken needComma (s ++ back) = (nextOptToken needComma s).map (Option.map (· ++ back)) := by
  induction s generalizing needComma with
  | nil =>
    have passed := nextOptToken_front space needComma []
    rw [List.append_nil] at passed
    rw [List.nil_append, passed]
    rfl
  | cons c s ih =>
    rw [List.cons_append, nextOptToken, nextOptToken, ih, ih]
    split
    · rfl
    · split
      · split <;> rfl
      · split <;> rfl

/-- White space behind a list is left behind its next token. -/
theorem nextToken_back {back : Octets} (space : IsSpace back) (needComma : Bool) (s : Octets) :
    nextToken needComma (s ++ back) = (nextToken needComma s).map (· ++ back) := by
  rw [nextToken_eq, nextToken_eq, nextOptToken_back space]
  rcases nextOptToken needComma s with _ | _ | p0 <;> rfl

/-- White space behind a token belongs to what is left of the list. -/
theorem token_back {back : Octets} (space : IsSpace back) (s : Octets) :
    (s ++ back).takeWhile isTchar = s.takeWhile isTchar ∧
      skipToken (s ++ back) = skipToken s ++ back := by
  induction s with
  | nil =>
    cases back with
    | nil => exact ⟨rfl, rfl⟩
    | cons c back =>
      have other := (ows_plain (space c List.mem_cons_self)).1
      rw [List.nil_append, skipToken, List.takeWhile_cons_of_neg (by simp [other]),
        List.dropWhile_cons_of_neg (by simp [other])]
      exact ⟨rfl, rfl⟩
  | cons c s ih =>
    unfold skipToken at ih ⊢
    by_cases token : isTchar c = true
    · rw [List.cons_append, List.takeWhile_cons_of_pos token, List.takeWhile_cons_of_pos token,
        List.dropWhile_cons_of_pos token, List.dropWhile_cons_of_pos token, ih.1, ih.2]
      exact ⟨rfl, rfl⟩
    · rw [List.cons_append, List.takeWhile_cons_of_neg token, List.takeWhile_cons_of_neg token,
        List.dropWhile_cons_of_neg token, List.dropWhile_cons_of_neg token]
      exact ⟨rfl, rfl⟩

section Rounds

/-- More rounds than there are octets find no more elements. -/
theorem optTokensFrom_enough {fuel more : Nat} {needComma : Bool} {it : Octets}
    (enough : it.length < fuel) (within : fuel ≤ more) :
    optTokensFrom more needComma it = optTokensFrom fuel needComma it := by
  induction fuel generalizing more needComma it with
  | zero => omega
  | succ fuel ih =>
    obtain ⟨more, rfl⟩ := Nat.exists_eq_add_one_of_ne_zero (show more ≠ 0 by omega)
    rw [optTokensFrom, optTokensFrom]
    cases next : nextOptToken needComma it with
    | error _ => rfl
    | ok r =>
      cases r with
      | none => rfl
      | some p0 =>
        obtain ⟨front, c, rest, rfl, _, rfl, token⟩ := nextOptToken_some next
        have shorter := skipToken_shorter token rest
        rw [List.length_append, List.length_cons] at enough
        dsimp only
        rw [ih (by omega) (by omega)]

/-- More rounds than there are octets find no more tokens. -/
theorem tokensFrom_enough {fuel more : Nat} {needComma : Bool} {it : Octets}
    (enough : it.length ≤ fuel) (within : fuel ≤ more) :
    tokensFrom more needComma it = tokensFrom fuel needComma it := by
  induction fuel generalizing more needComma it with
  | zero =>
    obtain rfl := List.eq_nil_of_length_eq_zero (Nat.le_zero.mp enough)
    cases more <;> rfl
  | succ fuel ih =>
    obtain ⟨more, rfl⟩ := Nat.exists_eq_add_one_of_ne_zero (show more ≠ 0 by omega)
    rw [tokensFrom, tokensFrom]
    cases next : nextToken needComma it with
    | none => rfl
    | some p0 =>
      obtain ⟨front, c, rest, rfl, _, rfl, token⟩ := nextOptToken_some (nextToken_some next)
      have shorter := skipToken_shorter token rest
      rw [List.length_append, List.length_cons] at enough
      dsimp only
      rw [ih (by omega) (by omega)]

end Rounds

section Trimmed

variable {front back : Octets}

/-- White space around a list adds no element to it. -/
theorem optTokensFrom_around (ahead : IsSpace front) (behind : IsSpace back) (fuel : Nat)
    (needComma : Bool) (s : Octets) :
    optTokensFrom fuel needComma (front ++ s ++ back) = optTokensFrom fuel needComma s := by
  have after : ∀ (fuel : Nat) (needComma : Bool) (s : Octets),
      optTokensFrom fuel needComma (s ++ back) = optTokensFrom fuel needComma s := by
    intro fuel
    induction fuel with
    | zero => exact fun _ _ => rfl
    | succ fuel ih =>
      intro needComma s
      rw [optTokensFrom, optTokensFrom, nextOptToken_back behind]
      rcases nextOptToken needComma s with _ | _ | p0
      · rfl
      · rfl
      · obtain ⟨word, left⟩ := token_back behind p0
        simp only [Except.map, Option.map_some, word, left, ih]
  rw [after]
  cases fuel with
  | zero => rfl
  | succ fuel => rw [optTokensFrom, optTokensFrom, nextOptToken_front ahead]

/-- White space around a list adds no token to it. -/
theorem tokensFrom_around (ahead : IsSpace front) (behind : IsSpace back) (fuel : Nat)
    (needComma : Bool) (s : Octets) :
    tokensFrom fuel needComma (front ++ s ++ back) = tokensFrom fuel needComma s := by
  have after : ∀ (fuel : Nat) (needComma : Bool) (s : Octets),
      tokensFrom fuel needComma (s ++ back) = tokensFrom fuel needComma s := by
    intro fuel
    induction fuel with
    | zero => exact fun _ _ => rfl
    | succ fuel ih =>
      intro needComma s
      rw [tokensFrom, tokensFrom, nextToken_back behind]
      rcases nextToken needComma s with _ | p0
      · rfl
      · obtain ⟨word, left⟩ := token_back behind p0
        simp only [Option.map_some, word, left, ih]
  rw [after]
  cases fuel with
  | zero => rfl
  | succ fuel =>
    rw [tokensFrom, tokensFrom, nextToken_eq, nextToken_eq, nextOptToken_front ahead]

/-- A list holds what its trimmed text holds. -/
theorem optTokenList_trim (s : Octets) : optTokenList (trim s) = optTokenList s := by
  obtain ⟨front, back, whole, ahead, behind, _⟩ := trim_split s
  have size := congrArg List.length whole
  rw [List.length_append, List.length_append] at size
  have around := optTokensFrom_around ahead behind (s.length + 1) false (trim s)
  rw [← whole] at around
  rw [optTokenList, optTokenList, around]
  exact (optTokensFrom_enough (Nat.lt_succ_self _) (by omega)).symm

/-- The tokens of a value are those of its trimmed text. -/
theorem tokenList_trim (s : Octets) : tokenList (trim s) = tokenList s := by
  obtain ⟨front, back, whole, ahead, behind, _⟩ := trim_split s
  have size := congrArg List.length whole
  rw [List.length_append, List.length_append] at size
  have around := tokensFrom_around ahead behind s.length false (trim s)
  rw [← whole] at around
  rw [tokenList, tokenList, around]
  exact (tokensFrom_enough (Nat.le_refl _) (by omega)).symm

end Trimmed

/-- A list without a fault is text. -/
theorem optTokenList_text {s : Octets} (list : (optTokenList s).isSome = true) :
    s.all isText = true := by
  have read : ∀ {fuel : Nat} {needComma : Bool} {it : Octets}, it.length < fuel →
      (optTokensFrom fuel needComma it).isSome = true → ∀ c ∈ it, isText c = true := by
    intro fuel
    induction fuel with
    | zero => exact fun short => absurd short (Nat.not_lt_zero _)
    | succ fuel ih =>
      intro needComma it enough list
      rw [optTokensFrom] at list
      cases next : nextOptToken needComma it with
      | error _ => simp [next] at list
      | ok r =>
        cases r with
        | none => exact nextOptToken_none next
        | some p0 =>
          obtain ⟨front, c, rest, rfl, texts, rfl, token⟩ := nextOptToken_some next
          have shorter := skipToken_shorter token rest
          rw [List.length_append, List.length_cons] at enough
          simp only [next, Option.isSome_map] at list
          have others := ih (by omega) list
          intro b there
          rcases List.mem_append.mp there with there | there
          · exact texts b there
          · rw [← List.takeWhile_append_dropWhile (p := isTchar) (l := c :: rest)] at there
            rcases List.mem_append.mp there with inToken | behind
            · exact tchar_text (List.mem_takeWhile_imp inToken)
            · exact others b behind
  exact List.all_eq_true.mpr (read (Nat.lt_succ_self _) list)

end Beast.Http
