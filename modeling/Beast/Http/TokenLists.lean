import Beast.Http.ListLaws
import Beast.Http.Rfc7230Laws
import Mathlib

/-! The two iterators over token lists: what they yield, where they end, and what is a fault. -/

namespace Beast.Http

/-! ## The iterators -/

/-- A position in a list with faults that are reported: what is behind it, or the null pointer. -/
structure ParsedListIter where
  it_ : Option Octets
  v_ : Octets := []
  error_ : Bool := false
  deriving DecidableEq, Repr

/-- Reads the next element behind a position, or finds the list malformed. -/
def optTokenListPolicy (it s : Octets) : Option (Octets × Option Octets) :=
  -- Only at its very start may a list open with an element that no comma precedes.
  match nextOptToken (it.length != s.length) it with
  | .error _ => none
  | .ok none => some ([], none)
  | .ok (some p0) => some (p0.takeWhile isTchar, some (skipToken p0))

namespace ParsedListIter

/-- Moves to the next element. -/
def increment (s : Octets) (i : ParsedListIter) : ParsedListIter :=
  match i.it_ with
  | none => i
  | some it =>
    match optTokenListPolicy it s with
    | none => { it_ := none, v_ := [], error_ := true }
    | some (v_, it_) => { i with v_, it_ }

/-- The position of the first element. -/
def begin_ (s : Octets) : ParsedListIter :=
  increment s { it_ := some s }

/-- Whether a position is that behind the last element. -/
def isEnd (i : ParsedListIter) : Bool :=
  i.it_.isNone

/-- The elements from a position on, with the position that the walk stops at. -/
def collect (s : Octets) : Nat → ParsedListIter → List Octets × ParsedListIter
  | 0, i => ([], i)
  | fuel + 1, i =>
    if i.isEnd then ([], i)
    else
      let (l, last) := collect s fuel (i.increment s)
      (i.v_ :: l, last)

/-- The loop over the elements that looks for a fault, where it comes to an end. -/
def validateFrom (s : Octets) : Nat → ParsedListIter → Option Bool
  | 0, _ => none
  | fuel + 1, i =>
    if i.isEnd then some true
    else
      let i := i.increment s
      if i.error_ then some false
      else if i.isEnd then some true
      else validateFrom s fuel i

end ParsedListIter

/-- Whether a list is without a fault, where the loop comes to an end. -/
def validateList (s : Octets) (fuel : Nat) : Option Bool :=
  let it := ParsedListIter.begin_ s
  if it.error_ then some false else it.validateFrom s fuel

/-- A position in a list whose faults end it, with the one before. -/
structure TokenListIter where
  v_ : Octets := []
  it_ : Octets
  first_ : Octets
  deriving DecidableEq, Repr

namespace TokenListIter

/-- Moves to the next token. -/
def increment (i : TokenListIter) : TokenListIter :=
  match nextToken (i.it_.length != i.first_.length) i.it_ with
  | none => { it_ := [], first_ := [] }
  | some p0 => { v_ := p0.takeWhile isTchar, it_ := skipToken p0, first_ := i.it_ }

/-- The position of the first token. -/
def begin_ (s : Octets) : TokenListIter :=
  increment { it_ := s, first_ := s }

/-- Whether a position is that behind the last token. -/
def isEnd (i : TokenListIter) : Bool :=
  i.it_.isEmpty && i.first_.isEmpty

/-- The tokens from a position on, with the position that the walk stops at. -/
def collect : Nat → TokenListIter → List Octets × TokenListIter
  | 0, i => ([], i)
  | fuel + 1, i =>
    if i.isEnd then ([], i)
    else
      let (l, last) := collect fuel i.increment
      (i.v_ :: l, last)

end TokenListIter

/-! ## What a list says -/

/-- The elements of a list: what is between its commas, without white space, where there is any. -/
def segments (s : Octets) : List Octets :=
  ((s.splitOn (octet ',')).map trim).filter (· ≠ [])

/-- A list whose segments are tokens between white space, or nothing but white space. -/
def WellFormedList (s : Octets) : Prop :=
  ∀ segment ∈ s.splitOn (octet ','), trim segment = [] ∨ IsToken (trim segment)

instance (s : Octets) : Decidable (WellFormedList s) :=
  inferInstanceAs (Decidable (∀ segment ∈ s.splitOn (octet ','), _))

/--
An octet that cannot stand behind some others in a list.

It belongs to nothing that a list is made of, or it starts a token behind another one that no comma
separates it from.
-/
def Offends (before : Octets) (c : UInt8) : Prop :=
  (isOws c = false ∧ c ≠ octet ',' ∧ isTchar c = false) ∨
    (isTchar c = true ∧ ∃ front last gap, before = front ++ last :: gap ∧ isTchar last = true ∧
      gap ≠ [] ∧ ∀ b ∈ gap, isTchar b = false ∧ b ≠ octet ',')

/-- An octet that offends, behind others of which none does. -/
def FirstOffending (before : Octets) (c : UInt8) : Prop :=
  Offends before c ∧ ∀ front d back, before = front ++ d :: back → ¬Offends front d

/-! ## Elements one after another -/

/-- White space and commas. -/
def Blank (s : Octets) : Prop := ∀ c ∈ s, isOws c = true ∨ c = octet ','

/-- The elements of a list without a fault; a comma must come before the first if it is needed. -/
inductive Elements : Bool → List Octets → Octets → Prop
  | nil {needComma : Bool} : Elements needComma [] []
  | space {needComma : Bool} {l : List Octets} {c : UInt8} {s : Octets} (space : isOws c = true)
      (rest : Elements needComma l s) : Elements needComma l (c :: s)
  | comma {needComma : Bool} {l : List Octets} {s : Octets} (rest : Elements false l s) :
      Elements needComma l (octet ',' :: s)
  | token {t s : Octets} {l : List Octets} (token : IsToken t) (rest : Elements true l s) :
      Elements false (t :: l) (t ++ s)

/-- An octet at which reading stops with a fault, behind elements or a token before them. -/
def Blocks (needComma : Bool) (before : Octets) (c : UInt8) : Prop :=
  (isOws c = false ∧ c ≠ octet ',' ∧ isTchar c = false) ∨
    (isTchar c = true ∧ ((needComma = true ∧ IsSpace before) ∨
      ∃ front last gap, before = front ++ last :: gap ∧ isTchar last = true ∧
        gap ≠ [] ∧ IsSpace gap))

/-- The three ways to look for an element: there is none, there is one, or there is a fault. -/
theorem nextOptToken_cases (needComma : Bool) (it : Octets) :
    (nextOptToken needComma it = .ok none ∧ Blank it) ∨
    (∃ front c rest, it = front ++ c :: rest ∧ Blank front ∧
      (needComma = true → octet ',' ∈ front) ∧ isTchar c = true ∧
      nextOptToken needComma it = .ok (some (c :: rest))) ∨
    (∃ front c rest, it = front ++ c :: rest ∧ Blank front ∧
      ((isOws c = false ∧ c ≠ octet ',' ∧ isTchar c = false) ∨
        (isTchar c = true ∧ needComma = true ∧ IsSpace front)) ∧
      nextOptToken needComma it = .error ()) := by
  induction it generalizing needComma with
  | nil => exact .inl ⟨rfl, List.forall_mem_nil _⟩
  | cons b it ih =>
    -- White space and commas are passed over, one octet at a time.
    have more : ∀ {front : Octets}, isOws b = true ∨ b = octet ',' → Blank front →
        Blank (b :: front) := by
      intro front here blank c there
      rcases List.mem_cons.mp there with rfl | there
      · exact here
      · exact blank c there
    by_cases space : isOws b = true
    · rw [nextOptToken, if_pos space]
      rcases ih needComma with ⟨next, blank⟩ | ⟨front, c, rest, rfl, blank, comma, token, next⟩ |
        ⟨front, c, rest, rfl, blank, fault, next⟩
      · exact .inl ⟨next, more (.inl space) blank⟩
      · exact .inr (.inl ⟨b :: front, c, rest, rfl, more (.inl space) blank,
          fun need => List.mem_cons_of_mem _ (comma need), token, next⟩)
      · refine .inr (.inr ⟨b :: front, c, rest, rfl, more (.inl space) blank, ?_, next⟩)
        refine fault.imp id fun told => ⟨told.1, told.2.1, ?_⟩
        intro d there
        rcases List.mem_cons.mp there with rfl | there
        · exact space
        · exact told.2.2 d there
    · rw [nextOptToken, if_neg space]
      by_cases token : isTchar b = true
      · rw [if_pos token]
        cases needComma with
        | true =>
          -- A token that no comma separates from the one before is a fault.
          exact .inr (.inr ⟨[], b, it, rfl, List.forall_mem_nil _,
            .inr ⟨token, rfl, List.forall_mem_nil _⟩, rfl⟩)
        | false =>
          exact .inr (.inl ⟨[], b, it, rfl, List.forall_mem_nil _, (fun need => by cases need), token, rfl⟩)
      · rw [if_neg token]
        by_cases comma : b = octet ','
        · -- A comma is what was needed, for whatever follows.
          rw [if_neg (by simp [comma])]
          rcases ih false with ⟨next, blank⟩ | ⟨front, c, rest, rfl, blank, -, token, next⟩ |
            ⟨front, c, rest, rfl, blank, fault, next⟩
          · exact .inl ⟨next, more (.inr comma) blank⟩
          · exact .inr (.inl ⟨b :: front, c, rest, rfl, more (.inr comma) blank,
              fun _ => by simp [comma], token, next⟩)
          · refine .inr (.inr ⟨b :: front, c, rest, rfl, more (.inr comma) blank, ?_, next⟩)
            exact fault.imp id fun told => absurd told.2.1 Bool.false_ne_true
        · -- Any other octet is a fault.
          rw [if_pos (by simpa using comma)]
          exact .inr (.inr ⟨[], b, it, rfl, List.forall_mem_nil _,
            .inl ⟨by simpa using space, comma, by simpa using token⟩, rfl⟩)

/-- White space and commas have no elements. -/
theorem Blank.elements {s : Octets} (blank : Blank s) (needComma : Bool) :
    Elements needComma [] s := by
  induction s generalizing needComma with
  | nil => exact .nil
  | cons c s ih =>
    have rest := ih fun d there => blank d (List.mem_cons_of_mem _ there)
    rcases blank c List.mem_cons_self with space | rfl
    · exact .space space (rest needComma)
    · exact .comma (rest false)

/-- Elements may stand behind white space and commas, among them a comma that is needed. -/
theorem Blank.then {front s : Octets} {l : List Octets} {needComma : Bool} (blank : Blank front)
    (comma : needComma = true → octet ',' ∈ front) (list : Elements false l s) :
    Elements needComma l (front ++ s) := by
  induction front generalizing needComma with
  | nil =>
    -- Where nothing is left in front, no comma can be needed.
    cases needComma with
    | true => exact absurd (comma rfl) List.not_mem_nil
    | false => exact list
  | cons c front ih =>
    have others : Blank front := fun d there => blank d (List.mem_cons_of_mem _ there)
    rcases blank c List.mem_cons_self with space | rfl
    · refine .space space (ih others fun need => ?_)
      -- White space is no comma, so that the comma is one of the octets behind it.
      rcases List.mem_cons.mp (comma need) with rfl | there
      · exact absurd space (by decide)
      · exact there
    · exact .comma (ih others nofun)

/-- The octets of a token at the front, and what is behind it. -/
theorem token_front {c : UInt8} (token : isTchar c = true) (rest : Octets) :
    ∃ t left, c :: rest = t ++ left ∧ IsToken t ∧ (c :: rest).takeWhile isTchar = t ∧
      skipToken (c :: rest) = left ∧ ∀ d ∈ left.head?, isTchar d = false := by
  -- The token is as long as it can be.
  refine ⟨(c :: rest).takeWhile isTchar, skipToken (c :: rest), ?_, ⟨?_, ?_⟩, rfl, rfl, ?_⟩
  · exact List.takeWhile_append_dropWhile.symm
  · rw [List.takeWhile_cons_of_pos token]
    exact List.cons_ne_nil _ _
  · exact fun d there => List.mem_takeWhile_imp there
  · intro d there
    have stop := List.head?_dropWhile_not isTchar (c :: rest)
    rw [skipToken] at there
    rw [Option.mem_def.mp there] at stop
    simpa using stop

/--
A list either is all elements, or it has elements up to an octet that reading stops at.

The tokens that were read are those elements, and the list is found malformed in the second case.
-/
theorem elements_or_blocks {fuel : Nat} {needComma : Bool} {it : Octets}
    (enough : it.length < fuel) :
    (Elements needComma (tokensFrom fuel needComma it) it ∧
      optTokensFrom fuel needComma it = some (tokensFrom fuel needComma it)) ∨
    (∃ before c after, it = before ++ c :: after ∧
      Elements needComma (tokensFrom fuel needComma it) before ∧ Blocks needComma before c ∧
      optTokensFrom fuel needComma it = none) := by
  induction fuel generalizing needComma it with
  | zero => omega
  | succ fuel ih =>
    rw [tokensFrom, optTokensFrom, nextToken_eq]
    rcases nextOptToken_cases needComma it with ⟨next, blank⟩ |
      ⟨front, c, rest, rfl, blank, comma, token, next⟩ | ⟨front, c, rest, rfl, blank, fault, next⟩
    · -- There is no further element.
      rw [next]
      exact .inl ⟨blank.elements needComma, rfl⟩
    · -- A token is read, and the rest is a list in which a comma comes first.
      obtain ⟨t, left, whole, named, word, behind, stop⟩ := token_front token rest
      have shorter := skipToken_shorter token rest
      rw [List.length_append, List.length_cons] at enough
      simp only [next, Except.toOption, Option.join_some, word, behind]
      rw [behind] at shorter
      rw [whole]
      rcases @ih true left (by omega) with ⟨list, same⟩ |
        ⟨before, d, after, rfl, list, blocks, none_⟩
      · exact .inl ⟨blank.then comma (.token named list), by rw [same]; rfl⟩
      · refine .inr ⟨front ++ (t ++ before), d, after, by simp, blank.then comma (.token named list),
          ?_, by rw [none_]; rfl⟩
        refine blocks.imp id fun told => ⟨told.1, .inr ?_⟩
        obtain ⟨tchar, place⟩ := told
        rcases place with ⟨-, spaces⟩ | ⟨front', last, gap, rfl, ends, wide, spaces⟩
        · -- The token that was just read is the one in front of the fault.
          obtain ⟨t', last, rfl⟩ := List.eq_nil_or_concat' t |>.resolve_left named.1
          refine ⟨front ++ t', last, before, by simp, named.2 last (by simp), ?_, spaces⟩
          rintro rfl
          simp [stop d rfl] at tchar
        · exact ⟨front ++ t ++ front', last, gap, by simp, ends, wide, spaces⟩
    · -- Reading stops before any further element.
      refine .inr ⟨front, c, rest, rfl, ?_, ?_, by rw [next]⟩
      · rw [next]
        exact blank.elements needComma
      · exact fault.imp id fun told => ⟨told.1, .inl told.2⟩

/-! ## Segments -/

/-- White space in front of a string is trimmed. -/
theorem trim_cons {c : UInt8} (space : isOws c = true) (s : Octets) : trim (c :: s) = trim s := by
  rw [trim, trim, skipOws, List.dropWhile_cons_of_pos space]
  rfl

/-- White space is trimmed to nothing. -/
theorem IsSpace.trim {s : Octets} (spaces : IsSpace s) : Http.trim s = [] := by
  rw [Http.trim, skipOws, List.dropWhile_eq_nil_iff.mpr spaces]
  rfl

/-- White space behind a token is trimmed. -/
theorem IsToken.trim {t gap : Octets} (token : IsToken t) (spaces : IsSpace gap) :
    Http.trim (t ++ gap) = t := by
  rw [Http.trim, skipOws_token token, List.reverse_append,
    List.dropWhile_append_of_pos fun c there => spaces c (List.mem_reverse.mp there)]
  -- The last octet of a token is no white space.
  have stop : t.reverse.dropWhile isOws = t.reverse := by
    obtain ⟨t', last, rfl⟩ := List.eq_nil_or_concat' t |>.resolve_left token.1
    have other := (tchar_plain (token.2 last (by simp))).1
    rw [List.reverse_append, List.reverse_singleton, List.singleton_append,
      List.dropWhile_cons_of_neg (by simp [other])]
  rw [stop, List.reverse_reverse]

/-- A text without commas in front of a list belongs to the first segment of it. -/
theorem splitOn_append {t : Octets} (plain : octet ',' ∉ t) (s : Octets) :
    (t ++ s).splitOn (octet ',') = (s.splitOn (octet ',')).modifyHead (t ++ ·) := by
  induction t with
  | nil =>
    rw [List.nil_append]
    cases s.splitOn (octet ',') <;> rfl
  | cons c t ih =>
    have other : ¬(c == octet ',') = true := by
      intro same
      exact plain (by rw [beq_iff_eq.mp same]; exact List.mem_cons_self)
    rw [List.cons_append, List.splitOn_cons_eq_if_modifyHead, if_neg other,
      ih fun there => plain (List.mem_cons_of_mem _ there)]
    cases s.splitOn (octet ',') <;> rfl

/-- A comma closes a segment. -/
theorem splitOn_comma (s : Octets) :
    (octet ',' :: s).splitOn (octet ',') = [] :: s.splitOn (octet ',') := by
  rw [List.splitOn_cons_eq_if_modifyHead, if_pos (beq_self_eq_true _)]

/-- A token holds no comma. -/
theorem IsToken.comma {t : Octets} (token : IsToken t) : octet ',' ∉ t := by
  intro there
  exact absurd (token.2 _ there) (by decide)

/-- Elements are the segments of a list, and where a comma must come first, its first one is blank. -/
theorem Elements.segments {needComma : Bool} {l : List Octets} {s : Octets}
    (list : Elements needComma l s) :
    WellFormedList s ∧ segments s = l ∧
      (needComma = true → ∀ first ∈ (s.splitOn (octet ',')).head?, IsSpace first) := by
  induction list with
  | nil =>
    refine ⟨?_, by decide, fun _ first there => ?_⟩
    · intro segment there
      rw [List.splitOn_nil, List.mem_singleton] at there
      exact .inl (by rw [there]; rfl)
    · rw [List.splitOn_nil] at there
      cases there
      nofun
  | @space needComma l c s space _ ih =>
    -- The octet belongs to the first segment, where it is trimmed.
    obtain ⟨formed, same, blank⟩ := ih
    have front : octet ',' ∉ [c] := by
      intro there
      rw [← List.mem_singleton.mp there] at space
      revert space
      decide
    have split := splitOn_append front s
    rw [List.singleton_append] at split
    unfold WellFormedList Http.segments at *
    rw [split]
    cases parts : s.splitOn (octet ',') with
    | nil => exact absurd parts (List.splitOn_ne_nil _ _)
    | cons first others =>
      simp only [parts, List.modifyHead_cons, List.singleton_append, List.map_cons, trim_cons space,
        List.forall_mem_cons, List.head?_cons, Option.mem_def, Option.some.injEq,
        forall_eq'] at formed same blank ⊢
      refine ⟨formed, same, fun need d there => ?_⟩
      rcases List.mem_cons.mp there with rfl | there
      · exact space
      · exact blank need d there
  | @comma needComma l s _ ih =>
    -- The comma closes a segment of white space.
    obtain ⟨formed, same, -⟩ := ih
    unfold WellFormedList Http.segments at *
    rw [splitOn_comma]
    refine ⟨?_, ?_, ?_⟩
    · rw [List.forall_mem_cons]
      exact ⟨.inl rfl, formed⟩
    · rw [List.map_cons, show trim [] = [] from rfl, List.filter_cons_of_neg (by simp), same]
    · intro _ first there
      cases there
      nofun
  | @token t s l token _ ih =>
    -- What the first segment holds behind the token is blank.
    obtain ⟨formed, same, blank⟩ := ih
    unfold WellFormedList Http.segments at *
    rw [splitOn_append token.comma]
    cases parts : s.splitOn (octet ',') with
    | nil => exact absurd parts (List.splitOn_ne_nil _ _)
    | cons first others =>
      have spaces := blank rfl first (by rw [parts]; rfl)
      simp only [parts, List.modifyHead_cons, List.map_cons, token.trim spaces, spaces.trim,
        List.forall_mem_cons] at formed same ⊢
      refine ⟨⟨.inr token, formed.2⟩, ?_, nofun⟩
      rw [List.filter_cons_of_pos (by simpa using token.1)]
      rw [List.filter_cons_of_neg (by simp)] at same
      rw [same]

/-- A text without commas lies within a segment. -/
theorem splitOn_window {window : Octets} (plain : octet ',' ∉ window) (front back : Octets) :
    ∃ a b, a ++ window ++ b ∈ (front ++ window ++ back).splitOn (octet ',') := by
  induction front with
  | nil =>
    rw [List.nil_append, splitOn_append plain]
    cases parts : back.splitOn (octet ',') with
    | nil => exact absurd parts (List.splitOn_ne_nil _ _)
    | cons first others => exact ⟨[], first, List.mem_cons_self⟩
  | cons c front ih =>
    obtain ⟨a, b, there⟩ := ih
    rw [List.cons_append, List.cons_append, List.splitOn_cons_eq_if_modifyHead]
    -- The text stays within its segment when an octet comes in front.
    split
    · exact ⟨a, b, List.mem_cons_of_mem _ there⟩
    · cases parts : (front ++ window ++ back).splitOn (octet ',') with
      | nil => exact absurd parts (List.splitOn_ne_nil _ _)
      | cons first others =>
        rw [parts] at there
        rw [List.modifyHead_cons]
        rcases List.mem_cons.mp there with same | there
        · exact ⟨c :: a, b, by rw [← same]; exact List.mem_cons_self⟩
        · exact ⟨a, b, List.mem_cons_of_mem _ there⟩

/-- Dropping octets of a kind stops at the first that is not of it. -/
theorem dropWhile_stops {p : UInt8 → Bool} {c : UInt8} (other : p c = false) (front back : Octets) :
    ∃ front', (front ++ c :: back).dropWhile p = front' ++ c :: back := by
  induction front with
  | nil => exact ⟨[], by rw [List.nil_append, List.dropWhile_cons_of_neg (by simp [other])]⟩
  | cons d front ih =>
    by_cases kind : p d = true
    · rw [List.cons_append, List.dropWhile_cons_of_pos kind]
      exact ih
    · exact ⟨d :: front, by rw [List.cons_append, List.dropWhile_cons_of_neg kind]⟩

/-- Between white space, a token has no gap. -/
theorem token_gapless {ahead t behind front gap back : Octets} {last c : UInt8}
    (aheads : IsSpace ahead) (token : IsToken t) (behinds : IsSpace behind)
    (ends : isTchar last = true) (wide : gap ≠ []) (others : ∀ b ∈ gap, isTchar b = false)
    (same : ahead ++ t ++ behind = front ++ (last :: gap ++ [c]) ++ back) : isTchar c = false := by
  -- Up to the first octet of a token, and then up to the first behind it, both sides are dropped.
  obtain ⟨b, gap, rfl⟩ := List.exists_cons_of_ne_nil wide
  have first : (ahead ++ t ++ behind).dropWhile (fun c => !isTchar c) = t ++ behind := by
    rw [List.append_assoc, List.dropWhile_append_of_pos fun c there => by
      simp [(ows_plain (aheads c there)).1]]
    obtain ⟨d, t, rfl⟩ := List.exists_cons_of_ne_nil token.1
    rw [List.cons_append, List.dropWhile_cons_of_neg]
    simp [token.2 d List.mem_cons_self]
  have second : (t ++ behind).dropWhile isTchar = behind := by
    rw [List.dropWhile_append_of_pos token.2]
    cases behind with
    | nil => rfl
    | cons d behind =>
      rw [List.dropWhile_cons_of_neg]
      simp [(ows_plain (behinds d List.mem_cons_self)).1]
  have shape : front ++ (last :: b :: gap ++ [c]) ++ back =
      front ++ last :: (b :: gap ++ c :: back) := by simp
  obtain ⟨front₁, stop₁⟩ := dropWhile_stops (p := fun c => !isTchar c) (c := last)
    (by simp [ends]) front (b :: gap ++ c :: back)
  have move : front₁ ++ last :: (b :: gap ++ c :: back) =
      (front₁ ++ [last]) ++ b :: (gap ++ c :: back) := by simp
  obtain ⟨front₂, stop₂⟩ := dropWhile_stops (p := isTchar) (c := b)
    (others b List.mem_cons_self) (front₁ ++ [last]) (gap ++ c :: back)
  rw [same, shape, stop₁] at first
  rw [← first, move, stop₂] at second
  refine (ows_plain (behinds c ?_)).1
  rw [← second]
  simp

/-- No octet of a list without a fault offends. -/
theorem WellFormedList.offends {before after : Octets} {c : UInt8}
    (formed : WellFormedList (before ++ c :: after)) : ¬Offends before c := by
  rintro (⟨notSpace, notComma, notToken⟩ | ⟨token, front, last, gap, rfl, ends, wide, plain⟩)
  · -- An octet of no kind would lie in a segment that is neither blank nor a token.
    obtain ⟨a, b, there⟩ := @splitOn_window [c]
      (by simpa using fun same => notComma same.symm) before after
    rw [List.append_assoc, List.singleton_append] at there
    obtain ⟨ahead, behind, whole, aheads, behinds, -⟩ := trim_split (a ++ [c] ++ b)
    have inside : c ∈ ahead ++ trim (a ++ [c] ++ b) ++ behind := by
      rw [← whole]
      simp
    rcases List.mem_append.mp inside with inside | inside
    · rcases List.mem_append.mp inside with inside | inside
      · simp [aheads c inside] at notSpace
      · rcases formed _ there with none_ | named
        · rw [none_] at inside
          cases inside
        · simp [named.2 c inside] at notToken
    · simp [behinds c inside] at notSpace
  · -- A second token behind a gap would lie in the segment of the first.
    have noComma : octet ',' ∉ last :: gap ++ [c] := by
      intro there
      have other : isTchar (octet ',') = false := by decide
      rcases List.mem_append.mp there with there | there
      · rcases List.mem_cons.mp there with same | there
        · rw [← same, other] at ends
          cases ends
        · exact (plain _ there).2 rfl
      · rw [← List.mem_singleton.mp there, other] at token
        cases token
    obtain ⟨a, b, there⟩ := splitOn_window noComma front after
    have whole : front ++ (last :: gap ++ [c]) ++ after = front ++ last :: gap ++ c :: after := by
      simp
    rw [whole] at there
    obtain ⟨ahead, behind, split, aheads, behinds, -⟩ := trim_split (a ++ (last :: gap ++ [c]) ++ b)
    rcases formed _ there with none_ | named
    · rw [none_, List.append_nil] at split
      have inside : c ∈ ahead ++ behind := by
        rw [← split]
        simp
      have space : isOws c = true := by
        rcases List.mem_append.mp inside with inside | inside
        · exact aheads c inside
        · exact behinds c inside
      simp [(ows_plain space).1] at token
    · have absurd_ := token_gapless aheads named behinds ends wide (fun d there => (plain d there).1)
        split.symm
      simp [absurd_] at token

/-- What reading stops at offends. -/
theorem Blocks.offends {before : Octets} {c : UInt8} (blocks : Blocks false before c) :
    Offends before c := by
  refine blocks.imp id fun ⟨token, place⟩ => ⟨token, ?_⟩
  rcases place with ⟨need, -⟩ | ⟨front, last, gap, whole, ends, wide, spaces⟩
  · cases need
  · refine ⟨front, last, gap, whole, ends, wide, fun b there => ⟨(ows_plain (spaces b there)).1, ?_⟩⟩
    rintro rfl
    exact absurd (spaces _ there) (by decide)

/-- There is but one first octet that offends. -/
theorem FirstOffending.unique {before before' after after' : Octets} {c c' : UInt8}
    (first : FirstOffending before c) (first' : FirstOffending before' c')
    (same : before ++ c :: after = before' ++ c' :: after') : before = before' := by
  rcases List.append_eq_append_iff.mp same with ⟨gap, rfl, behind⟩ | ⟨gap, rfl, behind⟩
  · -- Of two such octets one would be in front of the other, where none offends.
    cases gap with
    | nil => exact (List.append_nil _).symm
    | cons d gap =>
      rw [List.cons_append, List.cons.injEq] at behind
      exact absurd (behind.1 ▸ first.1) (first'.2 before d gap rfl)
  · cases gap with
    | nil => exact List.append_nil _
    | cons d gap =>
      rw [List.cons_append, List.cons.injEq] at behind
      exact absurd (behind.1 ▸ first'.1) (first.2 before' d gap rfl)

/-! ## What the iterators yield -/

/-- The walk of the iterator that reports faults. -/
theorem ParsedListIter.collect_increment {s it : Octets} {v : Octets} {fuel : Nat}
    (within : it.length ≤ s.length) (enough : it.length < fuel) :
    collect s fuel (increment s { it_ := some it, v_ := v }) =
      (tokensFrom fuel (it.length != s.length) it,
        { it_ := none, error_ := (optTokensFrom fuel (it.length != s.length) it).isNone }) := by
  induction fuel generalizing it v with
  | zero => omega
  | succ fuel ih =>
    simp only [increment, optTokenListPolicy, tokensFrom, optTokensFrom, nextToken_eq]
    rcases nextOptToken_cases (it.length != s.length) it with ⟨next, -⟩ |
      ⟨front, c, rest, rfl, -, -, token, next⟩ | ⟨front, c, rest, -, -, -, next⟩
    · simp [next, collect, isEnd, Except.toOption]
    · have shorter := skipToken_shorter token rest
      rw [List.length_append, List.length_cons] at enough within
      have behind : ((skipToken (c :: rest)).length != s.length) = true := by
        simp only [bne_iff_ne]
        omega
      have later := @ih (skipToken (c :: rest)) ((c :: rest).takeWhile isTchar) (by omega) (by omega)
      rw [behind] at later
      rw [next, collect]
      simp [isEnd, Except.toOption, later]
    · simp [next, collect, isEnd, Except.toOption]

/-- The walk of the iterator that passes over faults. -/
theorem TokenListIter.collect_increment {it first v : Octets} {fuel : Nat}
    (within : it.length ≤ first.length) (enough : it.length < fuel) :
    collect fuel (increment { v_ := v, it_ := it, first_ := first }) =
      (tokensFrom fuel (it.length != first.length) it, { it_ := [], first_ := [] }) := by
  induction fuel generalizing it first v with
  | zero => omega
  | succ fuel ih =>
    simp only [increment, tokensFrom]
    cases next : nextToken (it.length != first.length) it with
    | none => simp [collect, isEnd]
    | some p0 =>
      obtain ⟨front, c, rest, rfl, -, rfl, token⟩ := nextOptToken_some (nextToken_some next)
      have shorter := skipToken_shorter token rest
      rw [List.length_append, List.length_cons] at enough
      have behind : ((skipToken (c :: rest)).length != (front ++ c :: rest).length) = true := by
        simp only [bne_iff_ne, List.length_append, List.length_cons]
        omega
      have later := @ih (skipToken (c :: rest)) (front ++ c :: rest) ((c :: rest).takeWhile isTchar)
        (by rw [List.length_append, List.length_cons]; omega) (by omega)
      rw [behind] at later
      rw [collect]
      simp [isEnd, later]

/-- The loop that looks for a fault finds one where the elements end in one. -/
theorem ParsedListIter.validateFrom_eq {s it v : Octets} {fuel : Nat}
    (within : it.length ≤ s.length) (enough : it.length < fuel) :
    validateFrom s fuel { it_ := some it, v_ := v } =
      some (optTokensFrom fuel (it.length != s.length) it).isSome := by
  induction fuel generalizing it v with
  | zero => omega
  | succ fuel ih =>
    simp only [validateFrom, increment, optTokenListPolicy, optTokensFrom]
    rcases nextOptToken_cases (it.length != s.length) it with ⟨next, -⟩ |
      ⟨front, c, rest, rfl, -, -, token, next⟩ | ⟨front, c, rest, -, -, -, next⟩
    · simp [next, isEnd]
    · have shorter := skipToken_shorter token rest
      rw [List.length_append, List.length_cons] at enough within
      have behind : ((skipToken (c :: rest)).length != s.length) = true := by
        simp only [bne_iff_ne]
        omega
      have later := @ih (skipToken (c :: rest)) ((c :: rest).takeWhile isTchar) (by omega) (by omega)
      rw [behind] at later
      simp only [next]
      simp [isEnd, later]
    · simp [next, isEnd]

/-- A list is found to be without a fault where it has elements only. -/
theorem validateList_eq {s : Octets} {fuel : Nat} (enough : s.length < fuel) :
    validateList s fuel = some (optTokensFrom fuel false s).isSome := by
  obtain ⟨fuel, rfl⟩ := Nat.exists_eq_add_one_of_ne_zero (show fuel ≠ 0 by omega)
  simp only [validateList, ParsedListIter.begin_, ParsedListIter.increment, optTokenListPolicy,
    bne_self_eq_false, optTokensFrom]
  rcases nextOptToken_cases false s with ⟨next, -⟩ |
    ⟨front, c, rest, rfl, -, -, token, next⟩ | ⟨front, c, rest, -, -, -, next⟩
  · simp [next, ParsedListIter.validateFrom, ParsedListIter.isEnd]
  · have shorter := skipToken_shorter token rest
    rw [List.length_append, List.length_cons] at enough
    have behind : ((skipToken (c :: rest)).length != (front ++ c :: rest).length) = true := by
      simp only [bne_iff_ne, List.length_append, List.length_cons]
      omega
    have inside : (skipToken (c :: rest)).length ≤ (front ++ c :: rest).length := by
      rw [List.length_append, List.length_cons]
      omega
    have less : (skipToken (c :: rest)).length < fuel := by omega
    have later := @ParsedListIter.validateFrom_eq _ _ ((c :: rest).takeWhile isTchar) _ inside
      (Nat.lt_succ_of_lt less)
    rw [behind, optTokensFrom_enough less (Nat.le_succ fuel)] at later
    simp [next, later]
  · simp [next]

/-- A list without a fault is read as its segments, and any other is refused. -/
theorem optTokenList_eq (s : Octets) :
    optTokenList s = if WellFormedList s then some (segments s) else none := by
  rw [optTokenList]
  rcases @elements_or_blocks _ false _ (Nat.lt_succ_self s.length) with ⟨list, whole⟩ |
    ⟨before, c, after, rfl, -, blocks, none_⟩
  · obtain ⟨formed, same, -⟩ := list.segments
    rw [whole, if_pos formed, same]
  · have malformed : ¬WellFormedList (before ++ c :: after) := fun formed =>
      formed.offends blocks.offends
    rw [none_, if_neg malformed]

/-- The tokens of a list without a fault are its segments. -/
theorem tokenList_eq {s : Octets} (formed : WellFormedList s) : tokenList s = segments s := by
  rw [tokenList, ← tokensFrom_enough (Nat.le_refl s.length) (Nat.le_succ s.length)]
  rcases @elements_or_blocks _ false _ (Nat.lt_succ_self s.length) with ⟨list, -⟩ |
    ⟨before, c, after, rfl, -, blocks, -⟩
  · exact list.segments.2.1.symm
  · exact absurd blocks.offends formed.offends

/--
The two iterators read a token list exactly.

A list is found valid where every segment of it is blank or a token. The walk then comes to the end
behind all segments that are not blank. In any other list, both walks end behind the tokens before
the first octet that offends, and the iterator that reports faults reports one.
-/
theorem token_lists_exact (s : Octets) (more : Nat) :
    let fuel := s.length + 1 + more
    validateList s fuel = some (decide (WellFormedList s)) ∧
    (WellFormedList s →
      (ParsedListIter.begin_ s).collect s fuel = (segments s, { it_ := none }) ∧
      (TokenListIter.begin_ s).collect fuel = (segments s, { it_ := [], first_ := [] })) ∧
    (∀ before c after, s = before ++ c :: after → FirstOffending before c →
      ¬WellFormedList s ∧ WellFormedList before ∧
      (ParsedListIter.begin_ s).collect s fuel =
        (segments before, { it_ := none, error_ := true }) ∧
      (TokenListIter.begin_ s).collect fuel = (segments before, { it_ := [], first_ := [] })) ∧
    (¬WellFormedList s → ∃ before c after, s = before ++ c :: after ∧ FirstOffending before c) := by
  intro fuel
  have enough : s.length < fuel := by omega
  have parsed := ParsedListIter.collect_increment (v := []) (Nat.le_refl s.length) enough
  have tokens := TokenListIter.collect_increment (v := []) (Nat.le_refl s.length) enough
  rw [bne_self_eq_false] at parsed tokens
  change (ParsedListIter.begin_ s).collect s fuel = _ at parsed
  change (TokenListIter.begin_ s).collect fuel = _ at tokens
  rw [validateList_eq enough, parsed, tokens]
  rcases @elements_or_blocks _ false _ enough with ⟨list, whole⟩ |
    ⟨before, c, after, rfl, list, blocks, none_⟩
  · obtain ⟨formed, same, -⟩ := list.segments
    rw [whole, same]
    refine ⟨by simp [formed], fun _ => ⟨rfl, rfl⟩, ?_, fun malformed => absurd formed malformed⟩
    rintro before c after rfl ⟨offends, -⟩
    exact absurd offends formed.offends
  · obtain ⟨formed, same, -⟩ := list.segments
    have malformed : ¬WellFormedList (before ++ c :: after) := fun wellFormed =>
      wellFormed.offends blocks.offends
    have first : FirstOffending before c := by
      refine ⟨blocks.offends, ?_⟩
      rintro front d back rfl
      exact formed.offends
    rw [none_]
    refine ⟨by simp [malformed], fun wellFormed => absurd wellFormed malformed, ?_,
      fun _ => ⟨before, c, after, rfl, first⟩⟩
    intro before' c' after' split first'
    obtain rfl := first.unique first' split
    rw [same]
    exact ⟨malformed, formed, rfl, rfl⟩

/-- A list with a fault behind its second token. -/
example : (ParsedListIter.begin_ (octets "a, b c")).collect (octets "a, b c") 9 =
    ([octets "a", octets "b"], { it_ := none, error_ := true }) := by decide

end Beast.Http
