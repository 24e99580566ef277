import Beast.Http.Delivery
import Beast.Http.NumberLaws
import Beast.Http.TakenFields

/-! Which lengths the parser takes, and what it records of them. -/

namespace Beast.Http

variable {d : Derived}

/-- Whether a value is digits that denote a number of 64 bits. -/
def IsLengthValue (value : Octets) : Prop :=
  value ≠ [] ∧ value.all isDigit = true ∧ decimalValue value < 2 ^ 64

instance (value : Octets) : Decidable (IsLengthValue value) :=
  inferInstanceAs (Decidable (_ ∧ _))

/-- Whether fields leave open how long the body is. -/
def Unframed (fields : Fields) : Prop :=
  (∀ f ∈ fields, isLength f.1 = false) ∧
    ∀ f ∈ fields, isCoding f.1 = true → saysChunked f.2 = false

/-- Digits are text. -/
theorem digits_text {s : Octets} (digits : s.all isDigit = true) : s.all isText = true := by
  have each : ∀ c : UInt8, isDigit c = true → isText c = true := by
    intro c
    obtain ⟨c⟩ := c
    revert c
    decide +kernel
  rw [List.all_eq_true] at digits ⊢
  exact fun c there => each c (digits c there)

/-- Behind fields that were taken, the marks of a message say whether they leave the body open. -/
theorem unframed_iff {before : Fields} {m₀ m : Message d}
    (fresh : m₀.f_.flagContentLength = false ∧ m₀.f_.flagChunked = false)
    (read : Step.run (takeFields before) m₀ = (.ok (), m)) :
    Unframed before ↔ m.f_.flagContentLength = false ∧ m.f_.flagChunked = false := by
  have framed := takeFields_framing read
  rw [Message.framing, fresh.1, fresh.2] at framed
  -- Each mark was set by a field that says so.
  obtain ⟨sized, chunked⟩ := fields_said framed
  have noLength : m.f_.flagContentLength = false ↔ ∀ f ∈ before, isLength f.1 = false := by
    rw [← Bool.not_eq_true, show m.f_.flagContentLength = m.framing.sized from rfl, sized]
    simp
  have noChunks : m.f_.flagChunked = false ↔
      ∀ f ∈ before, isCoding f.1 = true → saysChunked f.2 = false := by
    rw [← Bool.not_eq_true, show m.f_.flagChunked = m.framing.chunked from rfl, chunked]
    simp
  rw [Unframed, noLength, noChunks]

/-- A field about the length is taken just where nothing else was said and its number is read. -/
theorem doField_length_ok {name value : Octets} (named : isLength name = true) (m u : Message d) :
    Step.run (doField name value) m = (.ok (), u) ↔
      (m.f_.flagContentLength = false ∧ m.f_.flagChunked = false) ∧
        (value ≠ [] ∧ value.all isDigit = true ∧ decimalValue value ≤ 18446744073709551609) ∧
        u = { m with len_ := decimalValue value, f_ := { m.f_ with flagContentLength := true } } := by
  have noConnection : (strieq "connection" name || strieq "proxy-connection" name) = false := by
    rw [strieq_other (by decide) named, strieq_other (by decide) named]
    rfl
  unfold isLength at named
  unfold doField
  rw [Step.run_get_bind, noConnection, named]
  simp only [Bool.false_eq_true, ↓reduceIte]
  by_cases text : value.all isText = true
  · rw [if_neg (by simp [text]), parseDec_eq]
    by_cases sized : m.f_.flagContentLength = true
    · simp [sized, fail]
    by_cases chunked : m.f_.flagChunked = true
    · simp [sized, chunked, fail]
    rw [if_neg sized, if_neg chunked]
    by_cases digits : value ≠ [] ∧ value.all isDigit = true ∧
        decimalValue value ≤ 18446744073709551609
    · rw [if_pos digits]
      simp only [setFlags, Step.run_modify_bind, Step.run_modify, Prod.mk.injEq, true_and]
      constructor
      · rintro rfl
        exact ⟨⟨by simpa using sized, by simpa using chunked⟩, digits, rfl⟩
      · rintro ⟨_, _, rfl⟩
        rfl
    · rw [if_neg digits]
      constructor
      · intro taken
        simp [fail] at taken
      · rintro ⟨_, fine, _⟩
        exact absurd fine digits
  · -- What is no text is not digits either.
    rw [if_pos (by simpa using text)]
    constructor
    · intro taken
      simp [fail] at taken
    · rintro ⟨_, ⟨_, digits, _⟩, _⟩
      exact absurd (digits_text digits) text

/--
A field about the length is taken only with digits that denote a number of 64 bits, which is
recorded, and behind fields that leave the body open.

Behind such fields, every such number but the last six is taken.
-/
theorem contentLength_exact {before : Fields} {m₀ m : Message d} {name value : Octets}
    (fresh : m₀.f_.flagContentLength = false ∧ m₀.f_.flagChunked = false)
    (read : Step.run (takeFields before) m₀ = (.ok (), m)) (named : isLength name = true) :
    (∀ u, Step.run (doField name value) m = (.ok (), u) →
      IsLengthValue value ∧ Unframed before ∧ u.len_ = decimalValue value ∧
        u.f_.flagContentLength = true) ∧
    (IsLengthValue value → decimalValue value < 2 ^ 64 - 6 → Unframed before →
      ∃ u, Step.run (doField name value) m = (.ok (), u)) := by
  have open_ := unframed_iff fresh read
  constructor
  · intro u taken
    obtain ⟨marks, ⟨some_, digits, within⟩, rfl⟩ := (doField_length_ok named m u).mp taken
    exact ⟨⟨some_, digits, by omega⟩, open_.mpr marks, rfl, rfl⟩
  · rintro ⟨some_, digits, _⟩ within unframed
    exact ⟨_, (doField_length_ok named m _).mpr
      ⟨open_.mp unframed, ⟨some_, digits, by omega⟩, rfl⟩⟩

/-- A length is taken behind another field, and recorded. -/
theorem contentLength_exact_host :
    let m₀ : Message accepting := { len_ := 0, impl := () }
    let before : Fields := [(octets "Host", octets "a")]
    let m := (Step.run (takeFields before) m₀).2
    (∀ u, Step.run (doField (octets "Content-Length") (octets "007")) m = (.ok (), u) →
      IsLengthValue (octets "007") ∧ Unframed before ∧ u.len_ = decimalValue (octets "007") ∧
        u.f_.flagContentLength = true) ∧
    (IsLengthValue (octets "007") → decimalValue (octets "007") < 2 ^ 64 - 6 → Unframed before →
      ∃ u, Step.run (doField (octets "Content-Length") (octets "007")) m = (.ok (), u)) := by
  intro m₀ before m
  exact @contentLength_exact accepting before m₀ m _ _ ⟨rfl, rfl⟩ rfl rfl

/-- A length of digits behind no other length is refused where the body is chunked. -/
theorem contentLength_chunked :
    let m₀ : Message accepting := { len_ := 0, impl := () }
    let before : Fields := [(octets "Transfer-Encoding", octets "chunked")]
    let m := (Step.run (takeFields before) m₀).2
    Step.run (takeFields before) m₀ = (.ok (), m) ∧
      ¬((∃ u, Step.run (doField (octets "Content-Length") (octets "5")) m = (.ok (), u)) ↔
        IsLengthValue (octets "5") ∧ ∀ f ∈ before, isLength f.1 = false) := by
  intro m₀ before m
  refine ⟨rfl, fun same => ?_⟩
  obtain ⟨u, taken⟩ := same.mpr (by decide +kernel)
  obtain ⟨marks, _⟩ := (doField_length_ok rfl m u).mp taken
  exact absurd marks.2 (by decide +kernel)

end Beast.Http
