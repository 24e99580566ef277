import Mathlib.Data.List.Induction
import Beast.Http.Delivery
import Beast.Http.HeaderParser
import Beast.Http.ListLaws
import Beast.Http.TakenHeader

/-! What the codings that a header names decide about its body. -/

namespace Beast.Http

section Grammar

/-- The inside of a quoted string. -/
inductive QuotedText : Octets → Prop
  | nil : QuotedText []
  | plain {c : UInt8} {s : Octets} (plain : isQdchar c = true) (rest : QuotedText s) :
      QuotedText (c :: s)
  | pair {c : UInt8} {s : Octets} (text : isQpchar c = true) (rest : QuotedText s) :
      QuotedText (backslash :: c :: s)

/-- The value of a parameter: nothing, or a token or a quoted string behind an equals sign. -/
inductive ParamValue : Octets → Prop
  | none : ParamValue []
  | token {front back value : Octets} (ahead : IsSpace front) (behind : IsSpace back)
      (token : IsToken value) : ParamValue (front ++ octet '=' :: (back ++ value))
  | quoted {front back value : Octets} (ahead : IsSpace front) (behind : IsSpace back)
      (text : QuotedText value) :
      ParamValue (front ++ octet '=' :: (back ++ dquote :: (value ++ [dquote])))

/-- The parameters behind the token of a coding. -/
inductive CodingParams : Octets → Prop
  | nil : CodingParams []
  | param {front back name value rest : Octets} (ahead : IsSpace front) (behind : IsSpace back)
      (named : IsToken name) (valued : ParamValue value) (others : CodingParams rest) :
      CodingParams (front ++ octet ';' :: (back ++ name ++ value ++ rest))

/--
A list of codings, each a token with the text of its parameters.

Commas stand between the codings, and may stand anywhere else; one must come first if it is needed.
-/
inductive Codings : Bool → List (Octets × Octets) → Octets → Prop
  | nil {needComma : Bool} : Codings needComma [] []
  | space {needComma : Bool} {l : List (Octets × Octets)} {c : UInt8} {s : Octets}
      (space : isOws c = true) (rest : Codings needComma l s) : Codings needComma l (c :: s)
  | comma {needComma : Bool} {l : List (Octets × Octets)} {s : Octets} (rest : Codings false l s) :
      Codings needComma l (octet ',' :: s)
  | coding {token params : Octets} {l : List (Octets × Octets)} {s : Octets}
      (named : IsToken token) (formed : CodingParams params) (rest : Codings true l s) :
      Codings false ((token, params) :: l) (token ++ params ++ s)

/-- Lists on both sides of a comma are one list. -/
theorem Codings.append {needComma : Bool} {l more : List (Octets × Octets)} {s it : Octets}
    (first : Codings needComma l s) (second : Codings false more it) :
    Codings needComma (l ++ more) (s ++ octet ',' :: it) := by
  induction first with
  | nil => exact .comma second
  | space space _ ih => exact .space space ih
  | comma _ ih => exact .comma ih
  | coding named formed _ ih =>
    rw [List.append_assoc]
    exact .coding named formed ih

/-- No octet of a token follows a coding. -/
theorem Codings.head {l : List (Octets × Octets)} {s : Octets} (list : Codings true l s) :
    ∀ c ∈ s.head?, isTchar c = false := by
  intro c there
  cases list with
  | nil => cases there
  | space space =>
    cases there
    exact (ows_plain space).1
  | comma =>
    cases there
    decide

/-- A parameter ends the list for a reader that knows none. -/
theorem CodingParams.stops {params : Octets} (formed : CodingParams params) (some_ : params ≠ [])
    (s : Octets) : nextToken true (params ++ s) = none ∧
      ∀ c ∈ (params ++ s).head?, isTchar c = false := by
  cases formed with
  | nil => exact absurd rfl some_
  | @param front back name value rest ahead =>
    refine ⟨?_, fun c there => ?_⟩
    · rw [List.append_assoc, nextToken_eq, nextOptToken_front ahead]
      rfl
    · cases front with
      | nil =>
        cases there
        decide
      | cons b front =>
        cases there
        exact (ows_plain (ahead c List.mem_cons_self)).1

/-- A token is read up to what does not belong to it. -/
theorem takeWhile_token {token it : Octets} (named : IsToken token)
    (stops : ∀ c ∈ it.head?, isTchar c = false) :
    (token ++ it).takeWhile isTchar = token ∧ skipToken (token ++ it) = it := by
  have all := named.2
  rw [skipToken, List.takeWhile_append_of_pos all, List.dropWhile_append_of_pos all]
  cases it with
  | nil => exact ⟨List.append_nil _, rfl⟩
  | cons c it =>
    have other : ¬isTchar c = true := by simp [stops c rfl]
    rw [List.takeWhile_cons_of_neg other, List.dropWhile_cons_of_neg other, List.append_nil]
    exact ⟨rfl, rfl⟩

/-- The tokens of a list are its codings, where only the last one has parameters. -/
theorem Codings.tokens {needComma : Bool} {l : List (Octets × Octets)} {s : Octets}
    (list : Codings needComma l s) (bare : ∀ coding ∈ l.dropLast, coding.2 = []) {fuel : Nat}
    (enough : s.length ≤ fuel) : tokensFrom fuel needComma s = l.map Prod.fst := by
  induction list generalizing fuel with
  | nil => cases fuel <;> rfl
  | @space needComma l c s space rest ih =>
    obtain ⟨fuel, rfl⟩ := Nat.exists_eq_add_one_of_ne_zero (show fuel ≠ 0 by rintro rfl; cases enough)
    rw [← ih bare (Nat.le_of_succ_le enough), tokensFrom, tokensFrom, nextToken, if_pos space]
  | @comma needComma l s rest ih =>
    obtain ⟨fuel, rfl⟩ := Nat.exists_eq_add_one_of_ne_zero (show fuel ≠ 0 by rintro rfl; cases enough)
    have plain : isOws (octet ',') = false ∧ isTchar (octet ',') = false := by decide
    rw [← ih bare (Nat.le_of_succ_le enough), tokensFrom, tokensFrom, nextToken, if_neg (by simp [plain]),
      if_neg (by simp [plain]), if_neg (by simp)]
  | @coding token params l s named formed rest ih =>
    obtain ⟨c, token', rfl⟩ := List.exists_cons_of_ne_nil named.1
    have first : isTchar c = true := named.2 c List.mem_cons_self
    have other : isOws c = false := by
      by_contra space
      simp [(ows_plain (by simpa using space)).1] at first
    obtain ⟨fuel, rfl⟩ := Nat.exists_eq_add_one_of_ne_zero (show fuel ≠ 0 by rintro rfl; cases enough)
    have next : nextToken false (c :: token' ++ params ++ s) = some (c :: token' ++ (params ++ s)) := by
      rw [List.append_assoc, List.cons_append, nextToken, if_neg (by simp [other]), if_pos first]
      rfl
    rw [tokensFrom, next]
    dsimp only
    by_cases none_ : params = []
    · -- Without parameters the rest is read like the front.
      subst none_
      obtain ⟨word, left⟩ := @takeWhile_token _ s named rest.head
      have bare' : ∀ each ∈ l.dropLast, each.2 = [] := by
        intro each there
        cases l with
        | nil => cases there
        | cons => exact bare each (List.mem_cons_of_mem _ there)
      have enough' : s.length ≤ fuel := by
        simp only [List.append_nil, List.length_append, List.length_cons] at enough
        omega
      rw [List.nil_append, word, left, ih bare' enough']
      rfl
    · -- With parameters it is the last coding.
      obtain ⟨ends, stops⟩ := formed.stops none_ s
      obtain ⟨word, left⟩ := takeWhile_token named stops
      obtain rfl : l = [] := by
        cases l with
        | nil => rfl
        | cons => exact absurd (bare _ List.mem_cons_self) none_
      rw [word, left]
      cases fuel with
      | zero => rfl
      | succ fuel =>
        rw [tokensFrom, ends]
        rfl

end Grammar

section Decision

variable {d : Derived}

/-- Whether the last of the names is chunked. -/
def EndsChunked (names : List Octets) : Prop :=
  ∃ last, names.getLast? = some last ∧ strieq "chunked" last = true

/-- How often chunked is among the names. -/
def timesChunked (names : List Octets) : Nat := names.countP (strieq "chunked")

/-- The values of the fields that name codings, in order. -/
def codingValues (fields : Fields) : List Octets :=
  (fields.filter fun field => isCoding field.1).map Prod.snd

/-- A value says that the body is chunked where chunked comes last and once. -/
theorem saysChunked_iff (value : Octets) : saysChunked value = true ↔
    EndsChunked (tokenList value) ∧ timesChunked (tokenList value) = 1 := by
  unfold saysChunked EndsChunked timesChunked
  rw [beq_iff_eq]
  induction tokenList value with
  | nil => simp
  | cons name names ih =>
    by_cases named : strieq "chunked" name = true
    · rw [List.dropWhile_cons_of_neg (by simp [named]), List.countP_cons_of_pos named]
      constructor
      · intro single
        obtain rfl : names = [] := List.eq_nil_of_length_eq_zero (by simpa using single)
        exact ⟨⟨name, rfl, named⟩, rfl⟩
      · rintro ⟨⟨last, ends, again⟩, once⟩
        -- A last name behind the first would be a second one.
        cases names with
        | nil => rfl
        | cons next names =>
          rw [List.getLast?_cons_cons] at ends
          have none_ := List.countP_eq_zero.mp (Nat.succ.inj once) last (List.mem_of_getLast? ends)
          exact absurd again none_
    · rw [List.dropWhile_cons_of_pos (by simp [named]), List.countP_cons_of_neg named, ih]
      cases names with
      | nil => simp [named]
      | cons next names => rw [List.getLast?_cons_cons]

/-- The last name of several lists is the last one of some list. -/
theorem endsChunked_flatMap {values : List Octets} (ends : EndsChunked (values.flatMap tokenList)) :
    ∃ value ∈ values, EndsChunked (tokenList value) := by
  induction values using List.reverseRecOn with
  | nil =>
    obtain ⟨last, none_, _⟩ := ends
    cases none_
  | append_singleton values value ih =>
    obtain ⟨last, same, named⟩ := ends
    rw [List.flatMap_append, List.flatMap_singleton, List.getLast?_append] at same
    cases own : (tokenList value).getLast? with
    | some a =>
      rw [own] at same
      exact ⟨value, by simp, a, own, by cases same; exact named⟩
    | none =>
      rw [own] at same
      obtain ⟨other, there, ends⟩ := ih ⟨last, same, named⟩
      exact ⟨other, List.mem_append_left _ there, ends⟩

/-- The body is chunked where the last field about its codings says so. -/
theorem fields_last {len : Nat} {fields : Fields} {after : Framing}
    (framed : Framing.fields ⟨len, false, false⟩ fields = some after) :
    after.chunked = true ↔
      ∃ value, (codingValues fields).getLast? = some value ∧ saysChunked value = true := by
  rw [(fields_said framed).2]
  constructor
  · rintro ⟨f, there, coding, said⟩
    obtain ⟨front, back, rfl⟩ := List.append_of_mem there
    refine ⟨f.2, ?_, said⟩
    rw [Framing.fields_append] at framed
    obtain ⟨before, _, rest⟩ := Option.bind_eq_some_iff.mp framed
    obtain ⟨between, first, rest⟩ := Option.bind_eq_some_iff.mp rest
    have noLength : isLength f.1 = false := by
      by_contra length
      have other : isCoding f.1 = false := strieq_other (by decide) (Bool.eq_true_of_not_eq_false length)
      rw [other] at coding
      cases coding
    -- Nothing about the codings is taken behind that field.
    rw [Framing.field, if_neg (by simp [noLength]), if_pos coding] at first
    split at first
    · cases first
    · cases first
      have others := (fields_settled (.inr rfl) rest).2
      have none_ : codingValues back = [] := by
        rw [codingValues, List.map_eq_nil_iff, List.filter_eq_nil_iff]
        exact fun f there => by simp [(others f there).2]
      have split : codingValues (front ++ f :: back) =
          codingValues front ++ f.2 :: codingValues back := by
        simp [codingValues, coding]
      rw [split, none_, List.getLast?_concat]
  · rintro ⟨value, last, said⟩
    obtain ⟨f, inside, rfl⟩ := List.mem_map.mp (List.mem_of_getLast? last)
    obtain ⟨there, coding⟩ := List.mem_filter.mp inside
    exact ⟨f, there, coding, said⟩

/-- A body has no length that is chunked. -/
theorem fields_alone {framing after : Framing}
    (alone : ¬(framing.sized = true ∧ framing.chunked = true)) {fields : Fields}
    (framed : framing.fields fields = some after) :
    ¬(after.sized = true ∧ after.chunked = true) := by
  induction fields generalizing framing with
  | nil =>
    cases framed
    exact alone
  | cons field fields ih =>
    obtain ⟨between, first, rest⟩ := Option.bind_eq_some_iff.mp framed
    refine ih ?_ rest
    unfold Framing.field at first
    split at first
    · split at first
      · cases first
      · rename_i fresh
        obtain ⟨v, _, rfl⟩ := Option.map_eq_some_iff.mp first
        simp_all
    · split at first
      · split at first
        · cases first
        · split at first <;> cases first <;> simp_all
      · cases first
        exact alone

/-- The lists of codings that the fields hold name what is read of their values. -/
theorem codings_names {lists : List (List (Octets × Octets))} {values : List Octets}
    (formed : List.Forall₂ (Codings false) lists values)
    (bare : ∀ list ∈ lists, ∀ coding ∈ list.dropLast, coding.2 = []) :
    lists.flatten.map Prod.fst = values.flatMap tokenList := by
  induction formed with
  | nil => rfl
  | @cons list value lists values first _ ih =>
    have own : tokenList value = list.map Prod.fst :=
      first.tokens (bare list List.mem_cons_self) (Nat.le_refl _)
    rw [List.flatten_cons, List.map_append, List.flatMap_cons, own,
      ih fun list there => bare list (List.mem_cons_of_mem _ there)]

/-- What fields that were accepted decide about the body. -/
structure Decided (fields : Fields) (chunked : Bool) : Prop where
  /-- Without parameters and repeated names the last field decides, read up to its first fault. -/
  read : (∀ value ∈ codingValues fields, octet ';' ∉ value) →
    timesChunked ((codingValues fields).flatMap tokenList) ≤ 1 →
    (chunked = true ↔ ∃ value, (codingValues fields).getLast? = some value ∧
      EndsChunked (tokenList value))
  /-- Lists without a fault, of which only the last coding has parameters, are read whole. -/
  formed : ∀ lists, List.Forall₂ (Codings false) lists (codingValues fields) →
    (∀ list ∈ lists, ∀ coding ∈ list.dropLast, coding.2 = []) →
    (EndsChunked (lists.flatten.map Prod.fst) ∧ timesChunked (lists.flatten.map Prod.fst) = 1 →
      chunked = true) ∧
    (chunked = true → EndsChunked (lists.flatten.map Prod.fst))
  /-- No field about the codings stands behind a length. -/
  behind : ∀ front field back, fields = front ++ field :: back → isLength field.1 = true →
    ∀ f ∈ back, isCoding f.1 = false
  /-- There is no length where the body is chunked. -/
  alone : chunked = true → ∀ f ∈ fields, isLength f.1 = false

/-- Fields that were looked at to the end decide so. -/
theorem fields_decided {len : Nat} {fields : Fields} {after : Framing}
    (framed : Framing.fields ⟨len, false, false⟩ fields = some after) :
    Decided fields after.chunked := by
  have last := fields_last framed
  have said := fields_said framed
  -- A value that ends so holds no second one, where no more than one is among all values.
  have single : ∀ value ∈ codingValues fields, EndsChunked (tokenList value) →
      timesChunked ((codingValues fields).flatMap tokenList) ≤ 1 → saysChunked value = true := by
    intro value there own most
    have within : timesChunked (tokenList value) ≤
        timesChunked ((codingValues fields).flatMap tokenList) :=
      (List.sublist_flatten_of_mem (List.mem_map_of_mem there)).countP_le
    obtain ⟨name, same, named⟩ := own
    have some_ : 0 < timesChunked (tokenList value) :=
      List.countP_pos_iff.mpr ⟨name, List.mem_of_getLast? same, named⟩
    exact (saysChunked_iff value).mpr ⟨⟨name, same, named⟩, by omega⟩
  constructor
  · intro _ most
    rw [last]
    constructor
    · rintro ⟨value, ends, own⟩
      exact ⟨value, ends, ((saysChunked_iff value).mp own).1⟩
    · rintro ⟨value, ends, own⟩
      exact ⟨value, ends, single value (List.mem_of_getLast? ends) own most⟩
  · intro lists formed bare
    rw [codings_names formed bare]
    constructor
    · rintro ⟨ends, once⟩
      obtain ⟨value, there, own⟩ := endsChunked_flatMap ends
      have own := single value there own (Nat.le_of_eq once)
      obtain ⟨f, inside, rfl⟩ := List.mem_map.mp there
      obtain ⟨there, coding⟩ := List.mem_filter.mp inside
      exact said.2.mpr ⟨f, there, coding, own⟩
    · intro chunked
      obtain ⟨value, ends, ended⟩ := last.mp chunked
      obtain ⟨name, same, named⟩ := ((saysChunked_iff value).mp ended).1
      obtain ⟨front, whole⟩ := List.getLast?_eq_some_iff.mp ends
      refine ⟨name, ?_, named⟩
      rw [whole, List.flatMap_append, List.flatMap_singleton, List.getLast?_append, same]
      rfl
  · rintro front field back rfl length f there
    rw [Framing.fields_append] at framed
    obtain ⟨before, _, rest⟩ := Option.bind_eq_some_iff.mp framed
    obtain ⟨between, first, rest⟩ := Option.bind_eq_some_iff.mp rest
    rw [Framing.field, if_pos length] at first
    split at first
    · cases first
    · obtain ⟨v, _, rfl⟩ := Option.map_eq_some_iff.mp first
      exact ((fields_settled (.inl rfl) rest).2 f there).2
  · intro chunked f there
    by_contra length
    have sized := said.1.mpr ⟨f, there, by simpa using length⟩
    exact fields_alone (by simp) framed ⟨sized, chunked⟩

/--
What is known of the body behind a header was decided by the fields of the header.

A value is read up to its first fault, and is not refused for it.
-/
theorem coding_decided {isRequest skipsBody : Bool} {len x n : Nat} {impl : d.State}
    {text : Octets} {q : BasicParser d}
    (accepted : Step.run (write isRequest text) (opened skipsBody len x impl) = (.ok n, q))
    (some_ : 0 < n) :
    ∃ line lines, text.take n = line ++ crlf ++ writeLines lines ++ crlf ∧ PlainLine line ∧
      PlainLines lines ∧ Decided (readFields lines).1 q.f_.flagChunked := by
  obtain ⟨p, fresh⟩ : ∃ p : BasicParser d, p = opened skipsBody len x impl := ⟨_, rfl⟩
  have state : p.state_ = .header ∧ p.skip_ = 0 ∧ p.f_.flagFinalChunk = false := by
    rw [fresh]
    exact opened_spec skipsBody len x impl
  have unsaid : p.toMessage.framing = ⟨len, false, false⟩ := by
    rw [fresh]
    cases skipsBody <;> rfl
  rw [← fresh] at accepted
  obtain ⟨line, lines, start, version, told, noted, decided, plain, plains, cut, taken⟩ :=
    write_taken state.1 (searched_fresh state.2.1 state.2.2 text) accepted some_
  refine ⟨line, lines, cut, plain, plains, ?_⟩
  have framed : p.toMessage.framing.fields (readFields lines).1 = some noted.framing := taken.framed
  rw [unsaid] at framed
  rw [taken.settled.2]
  exact fields_decided framed

/-- A request whose codings are split over two fields. -/
def splitCodings : Octets :=
  octets "GET / HTTP/1.1\r\nTransfer-Encoding: gzip\r\nTransfer-Encoding: chunked\r\n\r\n"

/-- What is known behind it was decided by both fields. -/
theorem coding_decided_split : ∃ q : BasicParser headerParser,
    (∃ line lines, splitCodings.take 71 = line ++ crlf ++ writeLines lines ++ crlf ∧
      PlainLine line ∧ PlainLines lines ∧ Decided (readFields lines).1 q.f_.flagChunked) ∧
    q.f_.flagChunked = true := by
  obtain ⟨p, fresh⟩ : ∃ p : BasicParser headerParser, p = opened false 0 0 ({} : BasicHeader) :=
    ⟨_, rfl⟩
  have taken : (Step.run (write true splitCodings) p).1 = .ok 71 := by
    rw [fresh]
    decide +kernel
  have chunked : (Step.run (write true splitCodings) p).2.f_.flagChunked = true := by
    rw [fresh]
    decide +kernel
  rcases ran : Step.run (write true splitCodings) p with ⟨r, q⟩
  rw [ran] at taken chunked
  subst taken
  rw [fresh] at ran
  exact ⟨q, coding_decided ran (by decide), chunked⟩

/-- A request whose field about the codings holds no list of them. -/
def faultyCodings : Octets := octets "GET / HTTP/1.1\r\nTransfer-Encoding: @\r\n\r\n"

/-- What is no token and no comma is no list. -/
theorem faulty_unlisted (l : List (Octets × Octets)) : ¬Codings false l (octets "@") := by
  generalize held : octets "@" = s
  intro list
  cases list with
  | nil => cases held
  | space space =>
    cases held
    exact absurd space (by decide)
  | comma => cases held
  | @coding token params l s named =>
    obtain ⟨c, token', rfl⟩ := List.exists_cons_of_ne_nil named.1
    have first : c = octet '@' := by
      have heads := congrArg List.head? held
      cases heads
      rfl
    have other := named.2 c List.mem_cons_self
    rw [first] at other
    cases other

/-- A field about the codings is not refused for a fault in its value. -/
theorem coding_unrefused : ¬∀ (text : Octets) (n : Nat) (q : BasicParser headerParser),
    Step.run (write true text) (opened false 0 0 ({} : BasicHeader)) = (.ok n, q) → 0 < n →
    ∀ value ∈ codingValues q.impl.fields, ∃ l, Codings false l value := by
  intro refused
  obtain ⟨p, fresh⟩ : ∃ p : BasicParser headerParser, p = opened false 0 0 ({} : BasicHeader) :=
    ⟨_, rfl⟩
  have taken : (Step.run (write true faultyCodings) p).1 = .ok 40 := by
    rw [fresh]
    decide +kernel
  have held : codingValues (@BasicHeader.fields (Step.run (write true faultyCodings) p).2.impl) =
      [octets "@"] := by
    rw [fresh]
    decide +kernel
  rcases ran : Step.run (write true faultyCodings) p with ⟨r, q⟩
  rw [ran] at taken held
  subst taken
  rw [fresh] at ran
  obtain ⟨l, list⟩ := refused _ _ q ran (by decide) (octets "@")
    (by rw [show codingValues _ = [octets "@"] from held]; exact List.mem_cons_self)
  exact faulty_unlisted l list

end Decision

end Beast.Http
