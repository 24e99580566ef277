import Mathlib.Data.List.Basic
import Beast.Http.Rfc7230

/-! Reading back an extension that was written with plain parameters. -/

namespace Beast.Http

/-- A nonempty run of token octets. -/
def IsToken (s : Octets) : Prop :=
  s ≠ [] ∧ ∀ c ∈ s, isTchar c = true

instance (s : Octets) : Decidable (IsToken s) :=
  inferInstanceAs (Decidable (s ≠ [] ∧ ∀ c ∈ s, isTchar c = true))

/-- A parameter as it is written behind an extension. -/
def renderParam (param : Param) : Octets :=
  octets "; " ++ param.1 ++ if param.2 = [] then [] else octets "=" ++ param.2

/-- An extension as it is written into a field value. -/
def renderExt (name : Octets) (params : List Param) : Octets :=
  name ++ params.flatMap renderParam

/-- A parameter that can be written without quotes. -/
def Plain (param : Param) : Prop :=
  IsToken param.1 ∧ (param.2 = [] ∨ IsToken param.2)

instance (param : Param) : Decidable (Plain param) :=
  inferInstanceAs (Decidable (IsToken param.1 ∧ (param.2 = [] ∨ IsToken param.2)))

/-- What may follow a parameter: nothing, or the semicolon of the next one. -/
def Closed (rest : Octets) : Prop :=
  rest = [] ∨ ∃ more, rest = octet ';' :: more

/-- An octet of a token is no white space, and none of the separators. -/
theorem tchar_plain {c : UInt8} (token : isTchar c = true) :
    isOws c = false ∧ (c == octet ';') = false ∧ (c == octet '=') = false ∧
      (c == dquote) = false := by
  obtain ⟨c⟩ := c
  revert c
  decide +kernel

/-- A token is read up to the first octet that cannot belong to it. -/
theorem token_split {s rest : Octets} (token : IsToken s)
    (stops : ∀ c ∈ rest.head?, isTchar c = false) :
    (s ++ rest).takeWhile isTchar = s ∧ skipToken (s ++ rest) = rest := by
  have all : ∀ c ∈ s, isTchar c = true := token.2
  have ended : rest.takeWhile isTchar = [] ∧ rest.dropWhile isTchar = rest := by
    cases rest with
    | nil => simp
    | cons c rest => simp [stops c (by simp)]
  constructor
  · rw [List.takeWhile_append_of_pos all, ended.1, List.append_nil]
  · rw [skipToken, List.dropWhile_append_of_pos all, ended.2]

/-- No white space stands in front of a token. -/
theorem skipOws_token {s rest : Octets} (token : IsToken s) : skipOws (s ++ rest) = s ++ rest := by
  obtain ⟨present, all⟩ := token
  obtain ⟨c, s, rfl⟩ := List.exists_cons_of_ne_nil present
  simp [skipOws, (tchar_plain (all c (by simp))).1]

/-- What closes a parameter is neither white space nor part of a token. -/
theorem Closed.stops {rest : Octets} (closed : Closed rest) :
    skipOws rest = rest ∧ ∀ c ∈ rest.head?, isTchar c = false := by
  rcases closed with rfl | ⟨more, rfl⟩
  · simp [skipOws]
  · have separator : isOws (octet ';') = false ∧ isTchar (octet ';') = false := by decide
    simp [skipOws, separator.1, separator.2]

/-- A parameter just written is read back, up to what follows it. -/
theorem increment_renderParam {param : Param} {rest : Octets} (plain : Plain param)
    (closed : Closed rest) :
    ParamIter.increment (renderParam param ++ rest) = (rest, some param) := by
  obtain ⟨name, value⟩ := param
  obtain ⟨named, valued⟩ := plain
  simp only at named valued
  obtain ⟨ows, stops⟩ := closed.stops
  have opening : octets "; " = [octet ';', octet ' '] := rfl
  have semicolon : isOws (octet ';') = false := by decide
  have space : isOws (octet ' ') = true := by decide
  have equals : isTchar (octet '=') = false ∧ isOws (octet '=') = false ∧
      (octet '=' == octet ';') = false := by decide
  have some_name : name.isEmpty = false := by simpa using named.1
  rcases valued with rfl | valued
  · -- Without a value, the name runs up to what follows.
    obtain ⟨taken, left⟩ := token_split named stops
    have start : skipOws (octet ' ' :: (name ++ rest)) = name ++ rest := by
      rw [skipOws, List.dropWhile_cons_of_pos space]
      exact skipOws_token named
    have first : skipOws (octet ';' :: octet ' ' :: (name ++ rest)) =
        octet ';' :: octet ' ' :: (name ++ rest) := by
      simp [skipOws, semicolon]
    simp only [renderParam, opening, ↓reduceIte, List.append_nil, List.cons_append,
      List.nil_append, ParamIter.increment, first, bne_self_eq_false, Bool.false_eq_true,
      start, taken, left, ows, some_name]
    rcases closed with rfl | ⟨more, rfl⟩
    · rfl
    · simp
  · -- The name ends at the equals sign, and the value at what follows.
    have bare : value ≠ [] := valued.1
    have some_value : value.isEmpty = false := by simpa using bare
    obtain ⟨v, more, form⟩ := List.exists_cons_of_ne_nil bare
    obtain ⟨taken, left⟩ := @token_split name (octet '=' :: (value ++ rest)) named
      (by simp [equals.1])
    obtain ⟨takenValue, leftValue⟩ := token_split valued stops
    have start : skipOws (octet ' ' :: (name ++ octet '=' :: (value ++ rest))) =
        name ++ octet '=' :: (value ++ rest) := by
      rw [skipOws, List.dropWhile_cons_of_pos space]
      exact skipOws_token named
    have first : skipOws (octet ';' :: octet ' ' :: (name ++ octet '=' :: (value ++ rest))) =
        octet ';' :: octet ' ' :: (name ++ octet '=' :: (value ++ rest)) := by
      simp [skipOws, semicolon]
    have middle : skipOws (octet '=' :: (value ++ rest)) = octet '=' :: (value ++ rest) := by
      simp [skipOws, equals.2.1]
    have unquoted : (v == dquote) = false := (tchar_plain (valued.2 v (by simp [form]))).2.2.2
    have shape : value ++ rest = v :: (more ++ rest) := by simp [form]
    have assigned : octets "=" = [octet '='] := rfl
    simp only [renderParam, opening, assigned, if_neg bare, List.cons_append, List.nil_append,
      List.append_assoc, ParamIter.increment, first, bne_self_eq_false, Bool.false_eq_true,
      ↓reduceIte, start, taken, left, some_name, middle, equals.2.2, skipOws_token valued]
    rw [shape]
    simp only [unquoted, Bool.false_eq_true, ↓reduceIte]
    rw [← shape, takenValue, leftValue, some_value]
    simp

/-- Parameters written one after another leave a text that closes the one in front of them. -/
theorem closed_params (params : List Param) : Closed (params.flatMap renderParam) := by
  cases params with
  | nil => exact Or.inl rfl
  | cons param params => exact Or.inr ⟨_, rfl⟩

/-- A parameter takes at least one octet to write. -/
theorem renderParam_length (param : Param) : 0 < (renderParam param).length := by
  have opening : octets "; " = [octet ';', octet ' '] := rfl
  simp only [renderParam, opening, List.length_append, List.length_cons, List.length_nil]
  omega

/-- There are no parameters in an empty text. -/
theorem increment_nil : ParamIter.increment [] = ([], none) := rfl

/-- A token value does not start with a quote, so it stands as it was written. -/
theorem token_unquoted {param : Param} (plain : Plain param) :
    (param.2.head? == some dquote) = false := by
  rcases plain.2 with bare | ⟨present, all⟩
  · simp [bare]
  · obtain ⟨v, more, form⟩ := List.exists_cons_of_ne_nil present
    have unquoted := (tchar_plain (all v (by simp [form]))).2.2.2
    simpa [form] using unquoted

/-- Plain parameters are read back in order. -/
theorem paramsFrom_render {params : List Param} (plain : ∀ p ∈ params, Plain p) {fuel : Nat}
    (enough : (params.flatMap renderParam).length ≤ fuel) :
    paramsFrom fuel (params.flatMap renderParam) = params := by
  induction params generalizing fuel with
  | nil => cases fuel <;> rfl
  | cons param params ih =>
    have positive := renderParam_length param
    rw [List.flatMap_cons, List.length_append] at enough
    obtain ⟨fuel, rfl⟩ := Nat.exists_eq_add_one_of_ne_zero (show fuel ≠ 0 by omega)
    rw [List.flatMap_cons, paramsFrom,
      increment_renderParam (plain param (by simp)) (closed_params params)]
    simp only [token_unquoted (plain param (by simp)), Bool.false_eq_true, ↓reduceIte]
    rw [ih (fun p inside => plain p (by simp [inside])) (by omega)]

/-- Moving past plain parameters moves past all of them. -/
theorem skipParams_render {params : List Param} (plain : ∀ p ∈ params, Plain p) {fuel : Nat}
    (enough : (params.flatMap renderParam).length ≤ fuel) :
    skipParams fuel (params.flatMap renderParam) = [] := by
  induction params generalizing fuel with
  | nil => cases fuel <;> rfl
  | cons param params ih =>
    have positive := renderParam_length param
    rw [List.flatMap_cons, List.length_append] at enough
    obtain ⟨fuel, rfl⟩ := Nat.exists_eq_add_one_of_ne_zero (show fuel ≠ 0 by omega)
    rw [List.flatMap_cons, skipParams,
      increment_renderParam (plain param (by simp)) (closed_params params)]
    exact ih (fun p inside => plain p (by simp [inside])) (by omega)

/-- A single extension with plain parameters is read back as it was written. -/
theorem extList_renderExt {name : Octets} {params : List Param} (named : IsToken name)
    (plain : ∀ p ∈ params, Plain p) : extList (renderExt name params) = [(name, params)] := by
  obtain ⟨taken, left⟩ := token_split named (closed_params params).stops.2
  obtain ⟨c, more, form⟩ := List.exists_cons_of_ne_nil named.1
  have letter : isTchar c = true := named.2 c (by simp [form])
  -- The first octet opens the extension, and nothing is left behind its parameters.
  have opens : nextToken false (name ++ params.flatMap renderParam) =
      some (name ++ params.flatMap renderParam) := by
    rw [form, List.cons_append, nextToken]
    simp [(tchar_plain letter).1, letter]
  have size : 0 < (renderExt name params).length := by
    simp [renderExt, form]
  obtain ⟨fuel, enough⟩ := Nat.exists_eq_add_one_of_ne_zero (Nat.ne_of_gt size)
  have finished : extsFrom fuel true [] = [] := by
    cases fuel <;> rfl
  rw [extList, enough, renderExt, extsFrom, opens]
  simp only [taken, left, skipParams_render plain (Nat.le_succ _), List.length_nil,
    Nat.sub_zero, List.take_length, finished, paramList,
    paramsFrom_render plain (Nat.le_refl _)]

/-- Text without white space at its ends is left alone by trimming. -/
theorem trim_eq {s : Octets} (front : ∀ c ∈ s.head?, isOws c = false)
    (back : ∀ c ∈ s.getLast?, isOws c = false) : trim s = s := by
  have started : skipOws s = s := by
    cases s with
    | nil => rfl
    | cons c s => simp [skipOws, front c (by simp)]
  have ended : s.reverse.dropWhile isOws = s.reverse := by
    cases reversed : s.reverse with
    | nil => rfl
    | cons c r =>
      have last : c ∈ s.getLast? := by
        rw [← List.head?_reverse, reversed]
        simp
      simp [back c last]
  rw [trim, started, ended, List.reverse_reverse]

/-- Text that was trimmed is left alone by trimming. -/
theorem trim_trim (s : Octets) : trim (trim s) = trim s := by
  have first : ∀ (l : Octets), ∀ c ∈ (l.dropWhile isOws).head?, isOws c = false := by
    intro l c head
    have not := List.head?_dropWhile_not isOws l
    rwa [Option.mem_def.mp head] at not
  refine trim_eq (fun c head => ?_) fun c last => ?_
  · -- What is cut off at the end leaves the first octet in place.
    obtain ⟨rest, split⟩ : trim s <+: skipOws s := by
      rw [trim, ← List.reverse_suffix, List.reverse_reverse]
      exact List.dropWhile_suffix isOws
    refine first s c ?_
    rw [← skipOws, ← split, List.head?_append, Option.mem_def.mp head]
    rfl
  · rw [trim, List.getLast?_reverse] at last
    exact first _ c last

/-- A text that ends in a token ends in an octet of a token. -/
theorem token_last {s : Octets} (front : Octets) (token : IsToken s) :
    ∀ c ∈ (front ++ s).getLast?, isTchar c = true := by
  intro c last
  rw [List.getLast?_append_of_ne_nil _ token.1] at last
  exact token.2 c (List.mem_of_getLast? last)

/-- An extension just written has no white space at its ends. -/
theorem trim_renderExt {name : Octets} {params : List Param} (named : IsToken name)
    (plain : ∀ p ∈ params, Plain p) : trim (renderExt name params) = renderExt name params := by
  have ends : ∀ c ∈ (renderExt name params).getLast?, isTchar c = true := by
    -- The last octet is one of the last parameter's value, or of its name, or of the extension's.
    rcases List.eq_nil_or_concat params with rfl | ⟨front, param, rfl⟩
    · simpa [renderExt] using token_last [] named
    · obtain ⟨paramName, value⟩ := plain param (by simp)
      rcases value with bare | valued
      · have text : renderExt name (front ++ [param]) =
            (name ++ front.flatMap renderParam ++ octets "; ") ++ param.1 := by
          simp [renderExt, renderParam, bare]
        rw [List.concat_eq_append, text]
        exact token_last _ paramName
      · have text : renderExt name (front ++ [param]) =
            (name ++ front.flatMap renderParam ++ octets "; " ++ param.1 ++ octets "=") ++
              param.2 := by
          simp [renderExt, renderParam, valued.1]
        rw [List.concat_eq_append, text]
        exact token_last _ valued
  obtain ⟨c, more, form⟩ := List.exists_cons_of_ne_nil named.1
  refine trim_eq ?_ (fun c last => (tchar_plain (ends c last)).1)
  intro first same
  have letter : isTchar c = true := named.2 c (by simp [form])
  simp only [renderExt, form, List.cons_append, List.head?_cons, Option.mem_def,
    Option.some.injEq] at same
  rw [← same]
  exact (tchar_plain letter).1

end Beast.Http
