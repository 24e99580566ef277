import Beast.Http.TokenLists
import Mathlib

/-! Lists of extensions as the grammar writes them, and what iterating over one yields. -/

namespace Beast.Http

/-! ## The iterators -/

/-- A position among parameters, with where the one before it started. -/
structure ParamListIter where
  v_ : Param := ([], [])
  it : Octets
  first : Octets
  deriving DecidableEq, Repr

namespace ParamListIter

/-- Moves to the next parameter. -/
def increment (i : ParamListIter) : ParamListIter :=
  match ParamIter.increment i.it with
  | (_, none) => { it := [], first := [] }
  | (it, some (name, value)) =>
    let value := if value.head? == some dquote then unquote value else value
    { v_ := (name, value), it, first := skipOws i.it }

/-- The position of the first parameter. -/
def begin_ (s : Octets) : ParamListIter :=
  increment { it := s, first := s }

/-- Whether a position is that behind the last parameter. -/
def isEnd (i : ParamListIter) : Bool :=
  i.it.isEmpty && i.first.isEmpty

/-- The parameters from a position on, with the position that the walk stops at. -/
def collect : Nat → ParamListIter → List Param × ParamListIter
  | 0, i => ([], i)
  | fuel + 1, i =>
    if i.isEnd then ([], i)
    else
      let (l, last) := collect fuel i.increment
      (i.v_ :: l, last)

end ParamListIter

/-- A position among extensions, with the one before it. -/
structure ExtListIter where
  /-- The name of an extension, and the text of its parameters. -/
  v_ : Octets × Octets := ([], [])
  it_ : Octets
  first_ : Octets
  deriving DecidableEq, Repr

namespace ExtListIter

/-- Moves to the next extension. -/
def increment (i : ExtListIter) : ExtListIter :=
  match nextToken (i.it_.length != i.first_.length) i.it_ with
  | none => { it_ := [], first_ := [] }
  | some p0 =>
    let it := skipToken p0
    let rest := skipParams (it.length + 1) it
    { v_ := (p0.takeWhile isTchar, it.take (it.length - rest.length)), it_ := rest, first_ := i.it_ }

/-- The position of the first extension. -/
def begin_ (s : Octets) : ExtListIter :=
  increment { it_ := s, first_ := s }

/-- Whether a position is that behind the last extension. -/
def isEnd (i : ExtListIter) : Bool :=
  i.it_.isEmpty && i.first_.isEmpty

/-- The extensions from a position on, with the position that the walk stops at. -/
def collect : Nat → ExtListIter → List (Octets × Octets) × ExtListIter
  | 0, i => ([], i)
  | fuel + 1, i =>
    if i.isEnd then ([], i)
    else
      let (l, last) := collect fuel i.increment
      (i.v_ :: l, last)

end ExtListIter

/-! ## The grammar -/

/-- Optional white space. -/
abbrev Ows := { s : Octets // IsSpace s }

/-- A token. -/
abbrev Token := { s : Octets // IsToken s }

/-- What the inside of a quoted string is made of. -/
inductive QuotedItem
  | qdtext (c : { c : UInt8 // isQdchar c = true })
  | quotedPair (c : { c : UInt8 // isQpchar c = true })

/-- The octets that an item is written as. -/
def QuotedItem.text : QuotedItem → Octets
  | .qdtext c => [c.val]
  | .quotedPair c => [backslash, c.val]

/-- The octet that an item stands for. -/
def QuotedItem.octet : QuotedItem → UInt8
  | .qdtext c => c.val
  | .quotedPair c => c.val

/-- What is behind the name of a parameter. -/
inductive ParamTail
  | none
  /-- An equals sign and a token. -/
  | token (gap : Ows) (value : Token)
  /-- An equals sign and a quoted string. -/
  | quoted (gap : Ows) (items : List QuotedItem)

namespace ParamTail

/-- What is written behind the white space that follows a name. -/
def text : ParamTail → Octets
  | none => []
  | token gap value => octet '=' :: (gap.val ++ value.val)
  | quoted gap items => octet '=' :: (gap.val ++ dquote :: (items.flatMap QuotedItem.text ++ [dquote]))

/-- The value that a parameter has, which is empty where there is none. -/
def value : ParamTail → Octets
  | none => []
  | token _ value => value.val
  | quoted _ items => items.map QuotedItem.octet

/-- Whether a value is written. -/
def isValued : ParamTail → Bool
  | none => false
  | _ => true

end ParamTail

/-- A parameter, with the white space around its semicolon and behind its name. -/
structure ParamText where
  ahead : Ows
  behind : Ows
  name : Token
  gap : Ows
  tail : ParamTail

namespace ParamText

/-- A parameter from its semicolon on. -/
def body (p : ParamText) : Octets :=
  octet ';' :: (p.behind.val ++ (p.name.val ++ (p.gap.val ++ p.tail.text)))

/-- A parameter as it is written. -/
def text (p : ParamText) : Octets := p.ahead.val ++ p.body

/-- The name and the value of a parameter. -/
def param (p : ParamText) : Param := (p.name.val, p.tail.value)

end ParamText

/-- An extension. -/
structure ExtText where
  name : Token
  params : List ParamText

namespace ExtText

/-- An extension as it is written. -/
def text (e : ExtText) : Octets := e.name.val ++ e.params.flatMap ParamText.text

/-- The name of an extension, with its parameters. -/
def ext (e : ExtText) : Octets × List Param := (e.name.val, e.params.map ParamText.param)

/-- Whether an extension ends in its name or in a value. -/
def Valued (e : ExtText) : Prop := ∀ p ∈ e.params.getLast?, p.tail.isValued = true

instance (e : ExtText) : Decidable e.Valued :=
  inferInstanceAs (Decidable (∀ p ∈ e.params.getLast?, _))

end ExtText

/-- A comma with the white space before it, and the extension behind it or nothing. -/
abbrev RestItem := Ows × Option (Ows × ExtText)

namespace RestItem

/-- An item as it is written. -/
def text : RestItem → Octets
  | (gap, none) => gap.val ++ [octet ',']
  | (gap, some (behind, e)) => gap.val ++ octet ',' :: (behind.val ++ e.text)

/-- The extension, if there is one. -/
def ext (i : RestItem) : Option (Octets × List Param) := i.2.map fun e => e.2.ext

end RestItem

/-- A list of extensions: commas, a first extension, and the rest of the list. -/
structure ExtListText where
  commas : List Ows
  first : ExtText
  rest : List RestItem

namespace ExtListText

/-- A list as it is written. -/
def text (t : ExtListText) : Octets :=
  t.commas.flatMap (fun gap => octet ',' :: gap.val) ++ (t.first.text ++ t.rest.flatMap RestItem.text)

/-- The extensions of a list, each with its parameters. -/
def exts (t : ExtListText) : List (Octets × List Param) :=
  t.first.ext :: t.rest.filterMap RestItem.ext

end ExtListText

/-- Every extension that is followed by a comma ends in its name or in a value. -/
def RestValued : List RestItem → Prop
  | [] => True
  | (_, none) :: rest => RestValued rest
  | (_, some (_, e)) :: rest => (rest ≠ [] → e.Valued) ∧ RestValued rest

/-- Every extension that is followed by a comma ends in its name or in a value. -/
def ExtListText.Valued (t : ExtListText) : Prop :=
  (t.rest ≠ [] → t.first.Valued) ∧ RestValued t.rest

/-! ## Parameters -/

/-- White space is passed over. -/
theorem skipOws_append {front : Octets} (space : IsSpace front) (s : Octets) :
    skipOws (front ++ s) = skipOws s := by
  -- Every octet in front is one that skipping passes.
  rw [skipOws, skipOws, List.dropWhile_append_of_pos space]

/-- No white space is left where it was passed over. -/
theorem skipOws_idem (s : Octets) : skipOws (skipOws s) = skipOws s := by
  rw [skipOws, skipOws, List.dropWhile_idempotent]

/-- White space in front of a parameter does not count. -/
theorem increment_skipOws (it : Octets) : ParamIter.increment (skipOws it) = ParamIter.increment it := by
  rw [ParamIter.increment, ParamIter.increment, skipOws_idem]

/-- No octet of a token follows white space in front of what is not one. -/
theorem head_gap {gap rest : Octets} (space : IsSpace gap)
    (stop : ∀ c ∈ rest.head?, isTchar c = false) : ∀ c ∈ (gap ++ rest).head?, isTchar c = false := by
  cases gap with
  | nil => exact stop
  | cons b gap =>
    intro c there
    -- The first octet of the gap is white space, which no token holds.
    cases there
    exact (ows_plain (space b List.mem_cons_self)).1

/-- A quoted string is read up to its closing quote. -/
theorem quotedRest_items (items : List QuotedItem) (rest : Octets) :
    quotedRest (items.flatMap QuotedItem.text ++ dquote :: rest) =
      some (items.flatMap QuotedItem.text ++ [dquote], rest) := by
  -- The induction is on the items, each of which the loop takes in one round.
  induction items with
  | nil =>
    -- Behind the last item stands the closing quote.
    rw [List.flatMap_nil, List.nil_append, quotedRest.eq_def]
    rfl
  | cons item items ih =>
    cases item with
    | qdtext c =>
      obtain ⟨c, plain⟩ := c
      -- Plain text is no quote, so the loop goes on behind it.
      have other : (c == dquote) = false := by
        simp only [isQdchar, Bool.and_eq_true, bne_iff_ne] at plain
        simpa using plain.1.2
      rw [List.flatMap_cons, QuotedItem.text, List.cons_append, List.nil_append, List.cons_append,
        quotedRest.eq_def]
      simp [other, plain, ih]
    | quotedPair c =>
      obtain ⟨c, text⟩ := c
      -- A backslash is neither the closing quote nor plain text, and takes the octet behind it along.
      have quote : (backslash == dquote) = false := by decide
      have special : isQdchar backslash = false := by decide
      rw [List.flatMap_cons, QuotedItem.text, List.cons_append, List.cons_append, quotedRest.eq_def]
      simp [quote, special, text, ih]

/-- The value of a quoted string is what its items stand for. -/
theorem unquote_items (items : List QuotedItem) :
    unquote (dquote :: (items.flatMap QuotedItem.text ++ [dquote])) = items.map QuotedItem.octet := by
  -- First the quotes are cut off.
  rw [unquote, List.drop_one, List.tail_cons, List.dropLast_concat]
  induction items with
  | nil => rfl
  | cons item items ih =>
    cases item with
    | qdtext c =>
      obtain ⟨c, plain⟩ := c
      -- Plain text is no backslash, and stands for itself.
      have other : (c == backslash) = false := by
        simp only [isQdchar, Bool.and_eq_true, bne_iff_ne] at plain
        simpa using plain.2
      rw [List.flatMap_cons, QuotedItem.text, List.cons_append, List.nil_append, unescape.eq_def]
      simp [other, ih, QuotedItem.octet]
    | quotedPair c =>
      -- The backslash of a pair is dropped.
      rw [List.flatMap_cons, QuotedItem.text, List.cons_append, List.cons_append, List.nil_append,
        unescape.eq_def]
      simp [ih, QuotedItem.octet]

/-- A value as it is written. -/
def ParamTail.raw : ParamTail → Octets
  | none => []
  | token _ value => value.val
  | quoted _ items => dquote :: (items.flatMap QuotedItem.text ++ [dquote])

/-- A parameter that has no value has nothing behind its name. -/
theorem ParamTail.bare {tail : ParamTail} (bare : ¬tail.isValued = true) : tail = .none := by
  cases tail with
  | none => rfl
  | token | quoted => exact absurd rfl bare

/-- A value is the written one, without its quotes if there are any. -/
theorem ParamTail.unquoted (tail : ParamTail) :
    (if tail.raw.head? == some dquote then unquote tail.raw else tail.raw) = tail.value := by
  cases tail with
  | none => rfl
  | token gap value =>
    obtain ⟨value, token⟩ := value
    obtain ⟨c, rest, rfl⟩ := List.exists_cons_of_ne_nil token.1
    -- A token does not start with a quote, so it is left as it is.
    have other : (c == dquote) = false := (tchar_plain (token.2 c List.mem_cons_self)).2.2.2
    rw [beq_eq_false_iff_ne] at other
    simp [raw, ParamTail.value, other]
  | quoted gap items =>
    rw [raw, List.head?_cons, if_pos (by decide), unquote_items]
    rfl

section Front

variable (p : ParamText) {rest : Octets} (stop : ∀ c ∈ rest.head?, isTchar c = false)

/-- A parameter starts at its semicolon. -/
theorem skipOws_text : skipOws (p.text ++ rest) = p.body ++ rest := by
  -- The semicolon ends the white space in front of it.
  have semicolon : isOws (octet ';') = false := by decide
  rw [ParamText.text, List.append_assoc, skipOws_append p.ahead.property, ParamText.body,
    List.cons_append, skipOws, List.dropWhile_cons_of_neg (by simp [semicolon])]

/-- The name of a parameter is in front of what is behind it. -/
theorem skipOws_name (x : Octets) :
    skipOws (p.behind.val ++ (p.name.val ++ x)) = p.name.val ++ x := by
  rw [skipOws_append p.behind.property, skipOws_token p.name.property]

include stop

/-- A parameter with a value is read up to what is behind it. -/
theorem increment_valued (valued : p.tail.isValued = true) :
    ParamIter.increment (p.text ++ rest) = (rest, some (p.name.val, p.tail.raw)) := by
  -- A name is never empty.
  have named : p.name.val.isEmpty = false := by simpa using p.name.property.1
  have equals : isTchar (octet '=') = false ∧ isOws (octet '=') = false ∧
      (octet '=' == octet ';') = false := by decide
  -- What is behind the name is white space and the equals sign.
  have word : ∀ x, (p.name.val ++ (p.gap.val ++ octet '=' :: x)).takeWhile isTchar = p.name.val ∧
      skipToken (p.name.val ++ (p.gap.val ++ octet '=' :: x)) = p.gap.val ++ octet '=' :: x := by
    intro x
    refine token_split p.name.property (head_gap p.gap.property ?_)
    rintro c there
    cases there
    exact equals.1
  have sign : ∀ x, skipOws (p.gap.val ++ octet '=' :: x) = octet '=' :: x := by
    intro x
    rw [skipOws_append p.gap.property, skipOws, List.dropWhile_cons_of_neg (by simp [equals.2.1])]
  rw [ParamIter.increment, skipOws_text]
  cases tail : p.tail with
  | none => simp [tail, ParamTail.isValued] at valued
  | token gap value =>
    obtain ⟨value, token⟩ := value
    obtain ⟨taken, left⟩ := token_split token stop
    -- A token is not empty, and does not open with a quote.
    have some_ : value.isEmpty = false := by simpa using token.1
    have start : skipOws (gap.val ++ (value ++ rest)) = value ++ rest := by
      rw [skipOws_append gap.property, skipOws_token token]
    obtain ⟨c, more, form⟩ := List.exists_cons_of_ne_nil token.1
    have unquoted : (c == dquote) = false :=
      (tchar_plain (token.2 c (by simp [form]))).2.2.2
    have shape : value ++ rest = c :: (more ++ rest) := by simp [form]
    simp only [ParamText.body, tail, ParamTail.text, List.cons_append, List.append_assoc,
      bne_self_eq_false, Bool.false_eq_true, if_false, skipOws_name, word, sign, named, equals.2.2,
      start]
    rw [shape]
    simp only [unquoted, Bool.false_eq_true, if_false]
    rw [← shape, taken, left, some_]
    rfl
  | quoted gap items =>
    -- White space between the sign and the quote is passed over.
    have start : ∀ x, skipOws (gap.val ++ dquote :: x) = dquote :: x := by
      intro x
      have other : isOws dquote = false := by decide
      rw [skipOws_append gap.property, skipOws, List.dropWhile_cons_of_neg (by simp [other])]
    simp only [ParamText.body, tail, ParamTail.text, List.cons_append, List.append_assoc,
      bne_self_eq_false, Bool.false_eq_true, if_false, skipOws_name, word, sign, named, equals.2.2,
      start, beq_self_eq_true, if_true, List.nil_append, quotedRest_items]
    rfl

/-- A parameter without a value is read where nothing but the next one may follow. -/
theorem increment_bare (bare : p.tail = .none)
    (next : skipOws rest = [] ∨ ∃ more, skipOws rest = octet ';' :: more) :
    ParamIter.increment (p.text ++ rest) = (skipOws rest, some (p.name.val, [])) := by
  have named : p.name.val.isEmpty = false := by simpa using p.name.property.1
  obtain ⟨word, left⟩ := token_split p.name.property (head_gap p.gap.property stop)
  -- White space behind the name joins the white space behind the parameter.
  have behind : skipOws (p.gap.val ++ rest) = skipOws rest := skipOws_append p.gap.property rest
  rw [ParamIter.increment, skipOws_text]
  simp only [ParamText.body, bare, ParamTail.text, List.append_nil, List.cons_append,
    List.append_assoc, bne_self_eq_false, Bool.false_eq_true, if_false, skipOws_name, word, left,
    behind, named]
  -- At the end of the text and at a semicolon alike, the value is empty.
  rcases next with next | ⟨more, next⟩
  · rw [next]
  · rw [next]
    simp

/-- A parameter without a value is not read in front of a comma. -/
theorem increment_comma (bare : p.tail = .none) {more : Octets}
    (next : skipOws rest = octet ',' :: more) :
    ParamIter.increment (p.text ++ rest) = (p.body ++ rest, none) := by
  have named : p.name.val.isEmpty = false := by simpa using p.name.property.1
  obtain ⟨word, left⟩ := token_split p.name.property (head_gap p.gap.property stop)
  have behind : skipOws (p.gap.val ++ rest) = skipOws rest := skipOws_append p.gap.property rest
  -- A comma is neither the next parameter nor the sign of a value.
  have comma : (octet ',' == octet ';') = false ∧ (octet ',' != octet '=') = true := by decide
  rw [ParamIter.increment, skipOws_text]
  simp only [ParamText.body, bare, ParamTail.text, List.append_nil, List.cons_append,
    List.append_assoc, bne_self_eq_false, Bool.false_eq_true, if_false, skipOws_name, word, left,
    behind, named, next, comma.1, comma.2, if_true]

end Front

/-! ## The walks come to an end -/

section Ends

/-- What is behind a quoted string is the end of the text. -/
theorem quotedRest_suffix {it s rest : Octets} (read : quotedRest it = some (s, rest)) :
    rest <:+ it := by
  -- The cases are those of the loop: an end, a quote, plain text and a pair.
  fun_induction quotedRest it generalizing s rest with
  | case1 => cases read
  | case2 c it quote =>
    cases read
    exact List.suffix_cons _ _
  | case3 c it _ _ ih =>
    obtain ⟨⟨s', rest'⟩, inner, same⟩ := Option.map_eq_some_iff.mp read
    cases same
    exact (ih inner).trans (List.suffix_cons _ _)
  | case4 => cases read
  | case5 => cases read
  | case6 c _ _ _ q it _ ih =>
    obtain ⟨⟨s', rest'⟩, inner, same⟩ := Option.map_eq_some_iff.mp read
    cases same
    exact (ih inner).trans ((List.suffix_cons _ _).trans (List.suffix_cons _ _))
  | case7 => cases read

/-- White space and tokens are passed over towards the end of a text. -/
theorem skip_suffix (it : Octets) : skipOws it <:+ it ∧ skipToken it <:+ it :=
  ⟨List.dropWhile_suffix _, List.dropWhile_suffix _⟩

/-- Reading a parameter moves towards the end of the text. -/
theorem increment_suffix (it : Octets) : (ParamIter.increment it).1 <:+ it ∧
    ((ParamIter.increment it).2.isSome = true → (ParamIter.increment it).1.length < it.length) := by
  have spaces := (skip_suffix it).1
  rw [ParamIter.increment]
  cases first : skipOws it with
  | nil => exact ⟨List.nil_suffix, (fun found => by cases found)⟩
  | cons c tail =>
    rw [first] at spaces
    -- Any position behind the first octet will do.
    have behind : ∀ {rest : Octets}, rest <:+ tail → rest <:+ it ∧ rest.length < it.length := by
      intro rest within
      have shorter := within.length_le
      have all := spaces.length_le
      rw [List.length_cons] at all
      exact ⟨(within.trans (List.suffix_cons _ _)).trans spaces, by omega⟩
    -- The name and the white space around it lie behind the semicolon.
    have name : skipOws (skipToken (skipOws tail)) <:+ tail :=
      (skip_suffix _).1.trans ((skip_suffix _).2.trans (skip_suffix _).1)
    dsimp only
    split
    · exact ⟨spaces, (fun found => by cases found)⟩
    split
    · exact ⟨spaces, (fun found => by cases found)⟩
    -- Behind the name is the end, the next parameter or a value.
    cases second : skipOws (skipToken (skipOws tail)) with
    | nil =>
      have far := behind (List.nil_suffix (l := tail))
      exact ⟨far.1, fun _ => far.2⟩
    | cons e rest =>
      rw [second] at name
      dsimp only
      split
      · exact ⟨(behind name).1, fun _ => (behind name).2⟩
      split
      · exact ⟨spaces, (fun found => by cases found)⟩
      -- The value lies behind the sign.
      have value : skipOws rest <:+ tail :=
        (skip_suffix _).1.trans ((List.suffix_cons _ _).trans name)
      cases third : skipOws rest with
      | nil =>
        have far := behind (List.nil_suffix (l := tail))
        exact ⟨far.1, fun _ => far.2⟩
      | cons d rest' =>
        rw [third] at value
        dsimp only
        split
        · cases read : quotedRest rest' with
          | none => exact ⟨spaces, (fun found => by cases found)⟩
          | some parts =>
            have far := behind ((quotedRest_suffix read).trans ((List.suffix_cons _ _).trans value))
            exact ⟨far.1, fun _ => far.2⟩
        · split
          · exact ⟨spaces, (fun found => by cases found)⟩
          · have far := behind ((skip_suffix _).2.trans value)
            exact ⟨far.1, fun _ => far.2⟩

/-- A failure leaves the position behind the white space. -/
theorem increment_none {it rest : Octets} (read : ParamIter.increment it = (rest, none)) :
    rest = skipOws it := by
  rw [ParamIter.increment] at read
  -- Every branch that fails returns the position of the semicolon.
  cases first : skipOws it with
  | nil =>
    rw [first] at read
    cases read
    rfl
  | cons c tail =>
    rw [first] at read
    dsimp only at read
    repeat' split at read
    all_goals first | (cases read; rfl) | cases read

/-- Parameters are passed over towards the end of a text. -/
theorem skipParams_suffix (fuel : Nat) (it : Octets) : skipParams fuel it <:+ it := by
  -- The induction is on the rounds, each of which moves on or is the last.
  induction fuel generalizing it with
  | zero => exact List.suffix_rfl
  | succ fuel ih =>
    have moved := (increment_suffix it).1
    rw [skipParams]
    rcases read : ParamIter.increment it with ⟨rest, _ | param⟩
    · rw [read] at moved
      exact moved
    · rw [read] at moved
      exact (ih rest).trans moved

/-- The loop past the parameters ends where no more is read. -/
theorem skipParams_ends {fuel : Nat} {it : Octets} (enough : it.length < fuel) :
    (ParamIter.increment (skipParams fuel it)).2 = none := by
  induction fuel generalizing it with
  | zero => omega
  | succ fuel ih =>
    have moved := (increment_suffix it).2
    rw [skipParams]
    rcases read : ParamIter.increment it with ⟨rest, _ | param⟩
    · -- Where reading failed, it fails again.
      rw [increment_none read]
      show (ParamIter.increment (skipOws it)).2 = none
      rw [increment_skipOws, read]
    · rw [read] at moved
      -- A parameter that was read takes octets, so fewer rounds are enough behind it.
      exact ih (by have := moved rfl; simp only at this; omega)

/-- More rounds than there are octets find no more parameters. -/
theorem paramsFrom_enough {fuel more : Nat} {it : Octets} (enough : it.length ≤ fuel)
    (within : fuel ≤ more) : paramsFrom more it = paramsFrom fuel it := by
  induction fuel generalizing more it with
  | zero =>
    -- Without a round, there is no text either.
    obtain rfl := List.eq_nil_of_length_eq_zero (Nat.le_zero.mp enough)
    cases more <;> rfl
  | succ fuel ih =>
    obtain ⟨more, rfl⟩ := Nat.exists_eq_add_one_of_ne_zero (show more ≠ 0 by omega)
    have moved := (increment_suffix it).2
    rw [paramsFrom, paramsFrom]
    rcases read : ParamIter.increment it with ⟨rest, _ | param⟩
    · rfl
    · rw [read] at moved
      -- A parameter takes octets, so the rest needs one round less.
      have shorter : rest.length < it.length := moved rfl
      dsimp only
      rw [ih (by omega) (by omega)]

/-- The walk over parameters comes to its end. -/
theorem ParamListIter.collect_increment {it first : Octets} {v : Param} {fuel : Nat}
    (enough : it.length < fuel) :
    collect fuel (increment { v_ := v, it, first }) =
      (paramsFrom fuel it, { it := [], first := [] }) := by
  induction fuel generalizing it first v with
  | zero => omega
  | succ fuel ih =>
    have moved := (increment_suffix it).2
    rw [increment, paramsFrom]
    rcases read : ParamIter.increment it with ⟨rest, _ | ⟨name, value⟩⟩
    · -- Where nothing is read, the iterator is set to the end.
      simp [collect, isEnd]
    · rw [read] at moved
      have shorter : rest.length < it.length := moved rfl
      -- A parameter was read from something, so its position is not that of the end.
      have present : skipOws it ≠ [] := by
        intro none_
        rw [ParamIter.increment, none_] at read
        cases read
      dsimp only
      rw [collect, ih (by omega)]
      simp [isEnd, present]

/-- More rounds than there are octets find no more extensions. -/
theorem extsFrom_enough {fuel more : Nat} {needComma : Bool} {it : Octets}
    (enough : it.length ≤ fuel) (within : fuel ≤ more) :
    extsFrom more needComma it = extsFrom fuel needComma it := by
  induction fuel generalizing more needComma it with
  | zero =>
    obtain rfl := List.eq_nil_of_length_eq_zero (Nat.le_zero.mp enough)
    cases more <;> rfl
  | succ fuel ih =>
    obtain ⟨more, rfl⟩ := Nat.exists_eq_add_one_of_ne_zero (show more ≠ 0 by omega)
    rw [extsFrom, extsFrom]
    cases next : nextToken needComma it with
    | none => rfl
    | some p0 =>
      -- A name takes octets, and the parameters behind it give none back.
      obtain ⟨front, c, rest, rfl, -, rfl, token⟩ := nextOptToken_some (nextToken_some next)
      have shorter := skipToken_shorter token rest
      have passed := (skipParams_suffix ((skipToken (c :: rest)).length + 1)
        (skipToken (c :: rest))).length_le
      rw [List.length_append, List.length_cons] at enough
      dsimp only
      rw [ih (by omega) (by omega)]

/-- The walk over extensions comes to its end, and reads what there is of each. -/
theorem ExtListIter.collect_increment {it first : Octets} {v : Octets × Octets} {fuel : Nat}
    (within : it.length ≤ first.length) (enough : it.length < fuel) :
    ∃ l, collect fuel (increment { v_ := v, it_ := it, first_ := first }) =
        (l, { it_ := [], first_ := [] }) ∧
      l.map (fun e => (e.1, paramList e.2)) = extsFrom fuel (it.length != first.length) it ∧
      ∀ e ∈ l, e.2.length ≤ it.length := by
  induction fuel generalizing it first v with
  | zero => omega
  | succ fuel ih =>
    rw [increment, extsFrom]
    cases next : nextToken (it.length != first.length) it with
    | none => exact ⟨[], by simp [collect, isEnd], rfl, List.forall_mem_nil _⟩
    | some p0 =>
      obtain ⟨front, c, rest, rfl, -, rfl, token⟩ := nextOptToken_some (nextToken_some next)
      have shorter := skipToken_shorter token rest
      have passed := (skipParams_suffix ((skipToken (c :: rest)).length + 1)
        (skipToken (c :: rest))).length_le
      rw [List.length_append, List.length_cons] at enough
      dsimp only
      generalize skipToken (c :: rest) = behind at *
      generalize skipParams (behind.length + 1) behind = left at *
      -- Behind an extension a comma is asked for, since the position has moved.
      have gone : (left.length != (front ++ c :: rest).length) = true := by
        simp only [bne_iff_ne, List.length_append, List.length_cons]
        omega
      -- The rest of the walk is shorter.
      obtain ⟨l, walk, same, small⟩ := @ih left (front ++ c :: rest)
        ((c :: rest).takeWhile isTchar, behind.take (behind.length - left.length))
        (by rw [List.length_append, List.length_cons]; omega) (by omega)
      rw [gone] at same
      refine ⟨((c :: rest).takeWhile isTchar, behind.take (behind.length - left.length)) :: l,
        ?_, ?_, ?_⟩
      · rw [collect, walk]
        simp [isEnd]
      · rw [List.map_cons, same]
      · intro e there
        rw [List.length_append, List.length_cons]
        -- The text of the parameters lies within that of the list.
        rcases List.mem_cons.mp there with rfl | there
        · dsimp only
          rw [List.length_take]
          omega
        · have := small e there
          omega

/-- What iterating over a list and over the parameters of each extension yields, if it ends. -/
def iterateExts (fuel : Nat) (s : Octets) : Option (List (Octets × List Param)) :=
  let (l, last) := (ExtListIter.begin_ s).collect fuel
  if last.isEnd then
    l.mapM fun (name, params) =>
      let (params, last) := (ParamListIter.begin_ params).collect fuel
      if last.isEnd then some (name, params) else none
  else none

/-- Iterating ends, and yields the extensions that are read from the text. -/
theorem iterateExts_eq {fuel : Nat} {s : Octets} (enough : s.length < fuel) :
    iterateExts fuel s = some (extList s) := by
  obtain ⟨l, walk, same, small⟩ :=
    ExtListIter.collect_increment (v := ([], [])) (Nat.le_refl s.length) enough
  rw [bne_self_eq_false, extsFrom_enough (Nat.le_refl _) (Nat.le_of_lt enough)] at same
  rw [extList, ← same]
  -- Each walk over parameters ends as well.
  have params : ∀ e ∈ l, (ParamListIter.begin_ e.2).collect fuel =
      (paramList e.2, { it := [], first := [] }) := by
    intro e there
    have size := small e there
    rw [ParamListIter.begin_, ParamListIter.collect_increment (by omega), paramList,
      paramsFrom_enough (Nat.le_refl _) (by omega)]
  -- So no extension makes the whole fail.
  have ends : ∀ l' : List (Octets × Octets), (∀ e ∈ l', e ∈ l) →
      (l'.mapM fun (name, params) =>
        let (params, last) := (ParamListIter.begin_ params).collect fuel
        if last.isEnd then some (name, params) else none) =
      some (l'.map fun e => (e.1, paramList e.2)) := by
    intro l' inside
    induction l' with
    | nil => rfl
    | cons e l' ih =>
      rw [List.mapM_cons, ih fun d there => inside d (List.mem_cons_of_mem _ there)]
      simp [params e (inside e List.mem_cons_self), ParamListIter.isEnd]
  simp only [iterateExts, ExtListIter.begin_, walk, ExtListIter.isEnd]
  exact ends l fun e there => there

end Ends

/-! ## Reading what the grammar writes -/

section Params

variable {rest : Octets}

/-- What is behind parameters is no octet of a token, with further parameters before it. -/
theorem params_stop (stop : ∀ c ∈ rest.head?, isTchar c = false) (ps : List ParamText) :
    ∀ c ∈ (ps.flatMap ParamText.text ++ rest).head?, isTchar c = false := by
  -- The first octet is that of the rest, or white space or a semicolon in front of a parameter.
  cases ps with
  | nil => exact stop
  | cons p ps =>
    rw [List.flatMap_cons, ParamText.text, List.append_assoc, List.append_assoc]
    refine head_gap p.ahead.property ?_
    intro c there
    cases there
    decide

/-- Parameters start at a semicolon. -/
theorem params_next {ps : List ParamText} (some_ : ps ≠ []) (rest : Octets) :
    ∃ more, skipOws (ps.flatMap ParamText.text ++ rest) = octet ';' :: more := by
  obtain ⟨p, ps, rfl⟩ := List.exists_cons_of_ne_nil some_
  rw [List.flatMap_cons, List.append_assoc, skipOws_text]
  exact ⟨_, rfl⟩

/-- White space in front of parameters does not count. -/
theorem paramsFrom_skipOws (fuel : Nat) (it : Octets) :
    paramsFrom fuel (skipOws it) = paramsFrom fuel it := by
  cases fuel with
  | zero => rfl
  | succ fuel => rw [paramsFrom, paramsFrom, increment_skipOws]

/-- White space in front of parameters is passed over along with them. -/
theorem skipParams_skipOws {fuel : Nat} (some_ : 0 < fuel) (it : Octets) :
    skipParams fuel (skipOws it) = skipParams fuel it := by
  obtain ⟨fuel, rfl⟩ := Nat.exists_eq_add_one_of_ne_zero (Nat.ne_of_gt some_)
  rw [skipParams, skipParams, increment_skipOws]

/-- Nothing is read where white space ends the text. -/
theorem increment_space {gap : Octets} (space : IsSpace gap) :
    ParamIter.increment gap = ([], none) := by
  have none_ : skipOws gap = [] := List.dropWhile_eq_nil_iff.mpr space
  rw [ParamIter.increment, none_]

/-- Parameters in front of nothing but white space are read as they are. -/
theorem paramsFrom_text {ps : List ParamText} {gap : Octets} (space : IsSpace gap) {fuel : Nat}
    (enough : ps.length ≤ fuel) :
    paramsFrom fuel (ps.flatMap ParamText.text ++ gap) = ps.map ParamText.param := by
  -- The induction is on the parameters, one for each round.
  induction ps generalizing fuel with
  | nil =>
    cases fuel with
    | zero => rfl
    | succ fuel => rw [List.flatMap_nil, List.nil_append, paramsFrom, increment_space space]; rfl
  | cons p ps ih =>
    rw [List.length_cons] at enough
    obtain ⟨fuel, rfl⟩ := Nat.exists_eq_add_one_of_ne_zero (show fuel ≠ 0 by omega)
    -- White space behind the last parameter is no part of its name.
    have blank : ∀ c ∈ gap.head?, isTchar c = false := by
      intro c there
      exact (ows_plain (space c (List.mem_of_mem_head? there))).1
    have stop := params_stop blank ps
    rw [List.flatMap_cons, List.append_assoc, paramsFrom]
    by_cases valued : p.tail.isValued = true
    · rw [increment_valued p stop valued]
      dsimp only
      rw [ih (by omega), ParamTail.unquoted]
      rfl
    · have bare := ParamTail.bare valued
      -- Behind a name without a value stands the end or the next semicolon, so it is read.
      have next : skipOws (ps.flatMap ParamText.text ++ gap) = [] ∨
          ∃ more, skipOws (ps.flatMap ParamText.text ++ gap) = octet ';' :: more := by
        by_cases last : ps = []
        · rw [last]
          exact .inl (List.dropWhile_eq_nil_iff.mpr space)
        · exact .inr (params_next last gap)
      rw [increment_bare p stop bare next]
      dsimp only
      rw [paramsFrom_skipOws, ih (by omega)]
      simp [ParamText.param, bare, ParamTail.value]

/-- What may close an extension: the end of the text or a comma, behind white space. -/
def Closes (rest : Octets) : Prop :=
  (∀ c ∈ rest.head?, isTchar c = false) ∧
    (skipOws rest = [] ∨ ∃ more, skipOws rest = octet ',' :: more)

/-- No parameter is read from what closes an extension. -/
theorem Closes.increment (closes : Closes rest) :
    ParamIter.increment rest = (skipOws rest, none) := by
  have comma : (octet ',' != octet ';') = true := by decide
  rw [ParamIter.increment]
  -- Neither the end nor a comma opens a parameter.
  rcases closes.2 with next | ⟨more, next⟩
  · rw [next]
  · rw [next]
    simp only [comma, if_true]

/-- Parameters are passed over up to what closes them, unless the last has no value before a comma. -/
theorem skipParams_text {ps : List ParamText} (closes : Closes rest)
    (valued : skipOws rest = [] ∨ ∀ p ∈ ps.getLast?, p.tail.isValued = true) {fuel : Nat}
    (enough : ps.length < fuel) :
    skipParams fuel (ps.flatMap ParamText.text ++ rest) = skipOws rest := by
  -- The induction is on the parameters, and carries that the last of them is read.
  induction ps generalizing fuel with
  | nil =>
    obtain ⟨fuel, rfl⟩ := Nat.exists_eq_add_one_of_ne_zero (show fuel ≠ 0 by omega)
    rw [List.flatMap_nil, List.nil_append, skipParams, closes.increment]
  | cons p ps ih =>
    rw [List.length_cons] at enough
    obtain ⟨fuel, rfl⟩ := Nat.exists_eq_add_one_of_ne_zero (show fuel ≠ 0 by omega)
    have stop := params_stop closes.1 ps
    -- The last parameter is the same behind the first.
    have others : skipOws rest = [] ∨ ∀ p ∈ ps.getLast?, p.tail.isValued = true := by
      refine valued.imp id fun last q there => last q ?_
      cases ps with
      | nil => cases there
      | cons => exact there
    rw [List.flatMap_cons, List.append_assoc, skipParams]
    by_cases here : p.tail.isValued = true
    · rw [increment_valued p stop here]
      exact ih others (by omega)
    · have next : skipOws (ps.flatMap ParamText.text ++ rest) = [] ∨
          ∃ more, skipOws (ps.flatMap ParamText.text ++ rest) = octet ';' :: more := by
        by_cases last : ps = []
        · rw [last]
          -- The last parameter has no value, so only the end can follow it.
          rcases valued with none_ | valued
          · exact .inl none_
          · exact absurd (valued p (by simp [last])) here
        · exact .inr (params_next last rest)
      rw [increment_bare p stop (ParamTail.bare here) next]
      dsimp only
      rw [skipParams_skipOws (by omega)]
      exact ih others (by omega)

/-- A last parameter without a value is not passed over in front of a comma. -/
theorem skipParams_comma {ps : List ParamText} {p : ParamText}
    (stop : ∀ c ∈ rest.head?, isTchar c = false) (bare : p.tail = .none) {more : Octets}
    (next : skipOws rest = octet ',' :: more) {fuel : Nat} (enough : ps.length < fuel) :
    skipParams fuel ((ps ++ [p]).flatMap ParamText.text ++ rest) = p.body ++ rest := by
  -- The induction is on the parameters in front of the last, which are all read.
  induction ps generalizing fuel with
  | nil =>
    obtain ⟨fuel, rfl⟩ := Nat.exists_eq_add_one_of_ne_zero (show fuel ≠ 0 by omega)
    rw [List.nil_append, List.flatMap_singleton, skipParams, increment_comma p stop bare next]
  | cons q ps ih =>
    rw [List.length_cons] at enough
    obtain ⟨fuel, rfl⟩ := Nat.exists_eq_add_one_of_ne_zero (show fuel ≠ 0 by omega)
    have stop' := params_stop stop (ps ++ [p])
    rw [List.cons_append, List.flatMap_cons, List.append_assoc, skipParams]
    by_cases here : q.tail.isValued = true
    · rw [increment_valued q stop' here]
      exact ih (by omega)
    · -- A parameter still follows this one, so its missing value does no harm.
      rw [increment_bare q stop' (ParamTail.bare here) (.inr (params_next (by simp) rest))]
      dsimp only
      rw [skipParams_skipOws (by omega)]
      exact ih (by omega)

/-- The parameters of an extension are fewer than their octets. -/
theorem params_length (ps : List ParamText) : ps.length ≤ (ps.flatMap ParamText.text).length := by
  induction ps with
  | nil => exact Nat.le_refl _
  | cons p ps ih =>
    -- Each parameter has its semicolon.
    have body : 0 < p.text.length := by
      rw [ParamText.text, List.length_append, ParamText.body, List.length_cons]
      omega
    rw [List.flatMap_cons, List.length_append, List.length_cons]
    omega

end Params

section Exts

/-- The name of an extension is next where one may start. -/
theorem nextToken_name (name : Token) (x : Octets) :
    nextToken false (name.val ++ x) = some (name.val ++ x) := by
  obtain ⟨name, token⟩ := name
  obtain ⟨c, more, rfl⟩ := List.exists_cons_of_ne_nil token.1
  have letter := token.2 c List.mem_cons_self
  rw [List.cons_append, nextToken]
  simp [(tchar_plain letter).1, letter]

/-- The first octets of a text, up to what is left of it. -/
theorem take_front (front rest : Octets) :
    (front ++ rest).take ((front ++ rest).length - rest.length) = front := by
  rw [List.length_append, Nat.add_sub_cancel, List.take_left]

/-- An extension that ends in its name or in a value is read whole, and reading goes on behind it. -/
theorem extsFrom_text {e : ExtText} {rest : Octets} (closes : Closes rest)
    (valued : skipOws rest = [] ∨ e.Valued) (fuel : Nat) :
    extsFrom (fuel + 1) false (e.text ++ rest) = e.ext :: extsFrom fuel true (skipOws rest) := by
  obtain ⟨word, left⟩ := token_split e.name.property (params_stop closes.1 e.params)
  -- There are as many rounds as octets, and one more.
  have count := params_length e.params
  have passed := skipParams_text closes valued
    (show e.params.length < (e.params.flatMap ParamText.text ++ rest).length + 1 by
      rw [List.length_append]; omega)
  -- The text of the parameters includes the white space behind them.
  have slice : e.params.flatMap ParamText.text ++ rest =
      (e.params.flatMap ParamText.text ++ rest.takeWhile isOws) ++ skipOws rest := by
    rw [List.append_assoc, skipOws, List.takeWhile_append_dropWhile]
  have space : IsSpace (rest.takeWhile isOws) := fun c there => List.mem_takeWhile_imp there
  rw [ExtText.text, List.append_assoc, extsFrom, nextToken_name]
  simp only [word, left, passed]
  rw [slice, take_front, paramList, paramsFrom_text space (by rw [List.length_append]; omega)]
  rfl

/-- An extension whose last parameter has no value loses it in front of a comma, and is the last. -/
theorem extsFrom_comma {e : ExtText} {rest more : Octets}
    (stop : ∀ c ∈ rest.head?, isTchar c = false) (next : skipOws rest = octet ',' :: more)
    (bare : ¬e.Valued) (fuel : Nat) :
    extsFrom (fuel + 1) false (e.text ++ rest) =
      [(e.name.val, e.params.dropLast.map ParamText.param)] := by
  obtain ⟨p, last, unvalued⟩ : ∃ p ∈ e.params.getLast?, ¬p.tail.isValued = true := by
    simpa [ExtText.Valued] using bare
  obtain ⟨qs, params⟩ := List.getLast?_eq_some_iff.mp last
  obtain ⟨word, left⟩ := token_split e.name.property (params_stop stop e.params)
  -- The loop stops at the last parameter, which it does not pass over.
  have count := params_length e.params
  rw [params, List.length_append, List.length_singleton] at count
  have passed := skipParams_comma stop (ParamTail.bare unvalued) next
    (show qs.length < ((qs ++ [p]).flatMap ParamText.text ++ rest).length + 1 by
      rw [List.length_append]; omega)
  have slice : (qs ++ [p]).flatMap ParamText.text ++ rest =
      (qs.flatMap ParamText.text ++ p.ahead.val) ++ (p.body ++ rest) := by
    simp [ParamText.text]
  -- The semicolon of the parameter that is left opens no extension.
  have ended : extsFrom fuel true (p.body ++ rest) = [] := by
    cases fuel <;> rfl
  rw [ExtText.text, List.append_assoc, extsFrom, nextToken_name]
  simp only [word, left]
  rw [params, passed, slice, take_front, ended, paramList,
    paramsFrom_text p.ahead.property (by
      have := params_length qs
      rw [List.length_append]
      omega), List.dropLast_concat]

/-- The rest of a list closes the extension in front of it. -/
theorem closes_rest (rest : List RestItem) : Closes (rest.flatMap RestItem.text) ∧
    (rest ≠ [] → ∃ more, skipOws (rest.flatMap RestItem.text) = octet ',' :: more) := by
  have comma : isOws (octet ',') = false ∧ isTchar (octet ',') = false := by decide
  -- Behind the last extension stands the end, and behind any other a comma.
  cases rest with
  | nil => exact ⟨⟨nofun, .inl rfl⟩, fun some_ => absurd rfl some_⟩
  | cons item rest =>
    obtain ⟨gap, ext⟩ := item
    obtain ⟨more, form⟩ : ∃ more, (⟨gap, ext⟩ :: rest : List RestItem).flatMap RestItem.text =
        gap.val ++ octet ',' :: more := by
      cases ext with
      | none => exact ⟨rest.flatMap RestItem.text, by simp [RestItem.text]⟩
      | some e => exact ⟨e.1.val ++ e.2.text ++ rest.flatMap RestItem.text, by simp [RestItem.text]⟩
    have next : skipOws ((⟨gap, ext⟩ :: rest : List RestItem).flatMap RestItem.text) =
        octet ',' :: more := by
      rw [form, skipOws_append gap.property, skipOws, List.dropWhile_cons_of_neg (by simp [comma.1])]
    refine ⟨⟨?_, .inr ⟨more, next⟩⟩, fun _ => ⟨more, next⟩⟩
    rw [form]
    refine head_gap gap.property ?_
    intro c there
    cases there
    exact comma.2

/-- White space in front of extensions does not count. -/
theorem extsFrom_front {gap : Octets} (space : IsSpace gap) (fuel : Nat) (needComma : Bool)
    (it : Octets) : extsFrom fuel needComma (gap ++ it) = extsFrom fuel needComma it := by
  cases fuel with
  | zero => rfl
  | succ fuel => rw [extsFrom, extsFrom, nextToken_eq, nextToken_eq, nextOptToken_front space]

/-- A comma in front of extensions lets the next one follow. -/
theorem extsFrom_separator (fuel : Nat) (needComma : Bool) (it : Octets) :
    extsFrom fuel needComma (octet ',' :: it) = extsFrom fuel false it := by
  have comma : isOws (octet ',') = false ∧ isTchar (octet ',') = false ∧
      (octet ',' != octet ',') = false := by decide
  -- Whether a comma was asked for or not, this one answers.
  cases fuel with
  | zero => rfl
  | succ fuel => rw [extsFrom, extsFrom, nextToken]; simp [comma]

/-- White space that was passed over in front of extensions does not count. -/
theorem extsFrom_skipOws (fuel : Nat) (needComma : Bool) (it : Octets) :
    extsFrom fuel needComma (skipOws it) = extsFrom fuel needComma it := by
  have split : it.takeWhile isOws ++ skipOws it = it := List.takeWhile_append_dropWhile
  have blank : IsSpace (it.takeWhile isOws) := fun c there => List.mem_takeWhile_imp there
  have front := extsFrom_front blank fuel needComma (skipOws it)
  rw [split] at front
  exact front.symm

/-- One extension and the rest of a list are read as they are written, if no parameter is lost. -/
theorem extsFrom_list {e : ExtText} {rest : List RestItem} {exts : List (Octets × List Param)}
    {fuel : Nat}
    (others : extsFrom fuel true (rest.flatMap RestItem.text) = exts ↔ RestValued rest) :
    extsFrom (fuel + 1) false (e.text ++ rest.flatMap RestItem.text) = e.ext :: exts ↔
      (rest ≠ [] → e.Valued) ∧ RestValued rest := by
  obtain ⟨closes, next⟩ := closes_rest rest
  by_cases valued : rest ≠ [] → e.Valued
  · have whole : skipOws (rest.flatMap RestItem.text) = [] ∨ e.Valued := by
      by_cases last : rest = []
      · rw [last]
        exact .inl rfl
      · exact .inr (valued last)
    rw [extsFrom_text closes whole, extsFrom_skipOws, List.cons.injEq]
    exact ⟨fun same => ⟨valued, others.mp same.2⟩, fun both => ⟨rfl, others.mpr both.2⟩⟩
  · -- The parameter that is lost is missing from the first extension.
    have bare : ¬e.Valued := fun there => valued fun _ => there
    have some_ : rest ≠ [] := fun last => valued fun more => absurd last more
    obtain ⟨more, comma⟩ := next some_
    rw [extsFrom_comma closes.1 comma bare]
    refine ⟨fun same => ?_, fun both => absurd both.1 valued⟩
    have params : e.params.dropLast.map ParamText.param = e.params.map ParamText.param := by
      rw [List.cons.injEq] at same
      exact congrArg Prod.snd same.1
    -- The lists of parameters differ in length, since there is a last one.
    have sizes := congrArg List.length params
    have present : e.params ≠ [] := by
      intro none_
      exact bare (by simp [ExtText.Valued, none_])
    have positive := List.length_pos_iff.mpr present
    rw [List.length_map, List.length_map, List.length_dropLast] at sizes
    omega

/-- An extension takes at least one octet to write. -/
theorem ext_length (e : ExtText) : 0 < e.text.length := by
  have name := List.length_pos_iff.mpr e.name.property.1
  rw [ExtText.text, List.length_append]
  omega

/-- The rest of a list is read as it is written, if no parameter is lost in front of a comma. -/
theorem extsFrom_rest {rest : List RestItem} {fuel : Nat} {needComma : Bool}
    (enough : (rest.flatMap RestItem.text).length ≤ fuel) :
    extsFrom fuel needComma (rest.flatMap RestItem.text) = rest.filterMap RestItem.ext ↔
      RestValued rest := by
  -- The induction is on the items, of which those without an extension cost no round.
  induction rest generalizing fuel needComma with
  | nil => cases fuel <;> exact ⟨fun _ => trivial, fun _ => rfl⟩
  | cons item rest ih =>
    obtain ⟨gap, _ | ⟨behind, e⟩⟩ := item
    · rw [List.flatMap_cons, List.length_append, RestItem.text] at enough
      rw [List.flatMap_cons, RestItem.text, List.append_assoc, extsFrom_front gap.property,
        List.singleton_append, extsFrom_separator]
      exact ih (by omega)
    · have some_ := ext_length e
      rw [List.flatMap_cons, RestItem.text, List.length_append, List.length_append,
        List.length_cons, List.length_append] at enough
      obtain ⟨fuel, rfl⟩ := Nat.exists_eq_add_one_of_ne_zero (show fuel ≠ 0 by omega)
      rw [List.flatMap_cons, RestItem.text, List.append_assoc, extsFrom_front gap.property,
        List.cons_append, extsFrom_separator, List.append_assoc, extsFrom_front behind.property]
      exact extsFrom_list (ih (by omega))

end Exts

/--
Iterating over a list that the grammar writes ends, and yields the extensions that were written if
and only if each of them that a comma follows ends in its name or in a value.

A last parameter without a value is lost in front of a comma, and all that is behind it.
-/
theorem iterateExts_text (t : ExtListText) (more : Nat) :
    (iterateExts (t.text.length + 1 + more) t.text).isSome = true ∧
      (iterateExts (t.text.length + 1 + more) t.text = some t.exts ↔ t.Valued) := by
  -- The walk over the text ends, so only what it yields is left.
  rw [iterateExts_eq (by omega)]
  refine ⟨rfl, ?_⟩
  -- The commas in front of the first extension are passed over.
  have front : ∀ (commas : List Ows) (fuel : Nat) (it : Octets),
      extsFrom fuel false (commas.flatMap (fun gap => octet ',' :: gap.val) ++ it) =
        extsFrom fuel false it := by
    intro commas fuel it
    induction commas with
    | nil => rfl
    | cons gap commas ih =>
      rw [List.flatMap_cons, List.append_assoc, List.cons_append, extsFrom_separator,
        extsFrom_front gap.property, ih]
  have size : t.first.text.length + (t.rest.flatMap RestItem.text).length ≤ t.text.length := by
    rw [ExtListText.text, List.length_append, List.length_append]
    omega
  have some_ := ext_length t.first
  obtain ⟨fuel, enough⟩ := Nat.exists_eq_add_one_of_ne_zero (show t.text.length ≠ 0 by omega)
  rw [Option.some.injEq, extList, enough, ExtListText.text, front]
  -- The first extension needs no comma, and the rest of the list is read behind it.
  exact extsFrom_list (extsFrom_rest (by omega))

/-- A list whose first extension ends in a parameter without a value. -/
def bareBeforeComma : ExtListText where
  commas := []
  first := {
    name := ⟨octets "a", by decide +kernel⟩
    params := [{
      ahead := ⟨[], nofun⟩
      behind := ⟨[], nofun⟩
      name := ⟨octets "b", by decide +kernel⟩
      gap := ⟨[], nofun⟩
      tail := .none }] }
  rest := [(⟨[], nofun⟩, some (⟨[], nofun⟩, { name := ⟨octets "c", by decide +kernel⟩, params := [] }))]

/-- Of such a list, the parameter is lost, and so is the extension behind it. -/
theorem iterateExts_bareBeforeComma :
    bareBeforeComma.text = octets "a;b,c" ∧
      bareBeforeComma.exts = [(octets "a", [(octets "b", [])]), (octets "c", [])] ∧
      iterateExts 6 (octets "a;b,c") = some [(octets "a", [])] := by
  decide

end Beast.Http
