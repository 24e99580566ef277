import Beast.Http.FramingLaws
import Beast.Http.Memory

/-! Fields that were taken: what each of them says about the body, and what they say together. -/

namespace Beast.Http

variable {d : Derived}

/-- A field that is taken makes of what is known of the body what it should. -/
theorem doField_framing {name value : Octets} {m u : Message d}
    (taken : Step.run (doField name value) m = (.ok (), u)) :
    m.framing.field (name, value) = some u.framing := by
  unfold doField at taken
  rw [Step.run_get_bind] at taken
  unfold Framing.field isLength isCoding
  by_cases connection : (strieq "connection" name || strieq "proxy-connection" name) = true
  · -- The field about the connection says nothing of the body.
    have noLength : strieq "content-length" name = false := by
      rcases Bool.or_eq_true_iff.mp connection with named | named
      · exact strieq_other (by decide) named
      · exact strieq_other (by decide) named
    have noCoding : strieq "transfer-encoding" name = false := by
      rcases Bool.or_eq_true_iff.mp connection with named | named
      · exact strieq_other (by decide) named
      · exact strieq_other (by decide) named
    rw [if_pos connection] at taken
    cases tokens : optTokenList value with
    | none => simp [tokens, fail] at taken
    | some list =>
      obtain ⟨_, _, _, sized, chunked⟩ := connectionTokens_same list m.f_
      simp only [tokens, setFlags, Step.run_modify, Prod.mk.injEq] at taken
      obtain rfl := taken.2
      simp only [noLength, noCoding, Bool.false_eq_true, ↓reduceIte, Message.framing, sized, chunked]
  · rw [if_neg connection] at taken
    by_cases text : (!value.all isText) = true
    · simp [text, fail] at taken
    rw [if_neg text] at taken
    by_cases length : strieq "content-length" name = true
    · simp only [length, ↓reduceIte] at taken ⊢
      by_cases sized : m.f_.flagContentLength = true
      · simp [sized, fail] at taken
      by_cases chunked : m.f_.flagChunked = true
      · simp [sized, chunked, fail] at taken
      rw [if_neg sized, if_neg chunked] at taken
      cases decimal : parseDec value with
      | none => simp [decimal, fail] at taken
      | some v =>
        simp only [decimal, setFlags, Step.run_modify_bind, Step.run_modify, Prod.mk.injEq] at taken
        obtain rfl := taken.2
        simp [Message.framing, sized, chunked]
    · simp only [length, Bool.false_eq_true, ↓reduceIte] at taken ⊢
      by_cases coding : strieq "transfer-encoding" name = true
      · simp only [coding, ↓reduceIte] at taken ⊢
        by_cases chunked : m.f_.flagChunked = true
        · simp [chunked, fail] at taken
        by_cases sized : m.f_.flagContentLength = true
        · simp [sized, chunked, fail] at taken
        rw [if_neg chunked, if_neg sized] at taken
        unfold saysChunked
        generalize (tokenList value).dropWhile (fun s => !strieq "chunked" s) = tokens at taken ⊢
        rcases tokens with _ | ⟨last, _ | ⟨next, tokens⟩⟩
        · cases taken
          simp [Message.framing, sized, chunked]
        · simp only [setFlags, Step.run_modify_bind, Step.run_modify, Prod.mk.injEq] at taken
          obtain rfl := taken.2
          simp [Message.framing, sized, chunked]
        · cases taken
          simp [Message.framing, sized, chunked]
      · simp only [coding, Bool.false_eq_true, ↓reduceIte] at taken ⊢
        split at taken
        · simp only [setFlags, Step.run_modify, Prod.mk.injEq] at taken
          obtain rfl := taken.2
          rfl
        · cases taken
          rfl

/-- Fields that are taken make of what is known of the body what they should. -/
theorem takeFields_framing {fields : Fields} {m u : Message d}
    (taken : Step.run (takeFields fields) m = (.ok (), u)) :
    m.framing.fields fields = some u.framing := by
  induction fields generalizing m with
  | nil =>
    cases taken
    rfl
  | cons field fields ih =>
    obtain ⟨name, value⟩ := field
    rw [takeFields] at taken
    obtain ⟨_, v, first, taken⟩ := Step.bind_ok taken
    obtain ⟨_, w, told, taken⟩ := Step.bind_ok taken
    -- The call touches the derived class alone.
    have same : w.framing = v.framing := by
      have only := invoke_spec (.on_field name value) v
      rw [told] at only
      dsimp only at only
      rw [only]
      rfl
    rw [Framing.fields, doField_framing first, Option.bind_some, ← same]
    exact ih taken

/-- Once the length or the coding is known, fields about either are refused. -/
theorem fields_settled {framing after : Framing} (known : framing.sized = true ∨ framing.chunked = true)
    {fields : Fields} (framed : framing.fields fields = some after) :
    after = framing ∧ ∀ f ∈ fields, isLength f.1 = false ∧ isCoding f.1 = false := by
  induction fields with
  | nil =>
    cases framed
    exact ⟨rfl, nofun⟩
  | cons field fields ih =>
    have settled : (framing.sized || framing.chunked) = true := Bool.or_eq_true_iff.mpr known
    rw [Framing.fields, Framing.field, if_pos settled, if_pos settled] at framed
    by_cases length : isLength field.1 = true
    · simp [length] at framed
    by_cases coding : isCoding field.1 = true
    · simp [length, coding] at framed
    rw [if_neg length, if_neg coding, Option.bind_some] at framed
    obtain ⟨same, others⟩ := ih framed
    refine ⟨same, fun f there => ?_⟩
    rcases List.mem_cons.mp there with rfl | there
    · exact ⟨by simpa using length, by simpa using coding⟩
    · exact others f there

/-- What is known behind the fields was said by one of them. -/
theorem fields_said {len : Nat} {fields : Fields} {after : Framing}
    (framed : Framing.fields ⟨len, false, false⟩ fields = some after) :
    (after.sized = true ↔ ∃ f ∈ fields, isLength f.1 = true) ∧
      (after.chunked = true ↔ ∃ f ∈ fields, isCoding f.1 = true ∧ saysChunked f.2 = true) := by
  induction fields generalizing len with
  | nil =>
    cases framed
    simp
  | cons field fields ih =>
    rw [Framing.fields] at framed
    obtain ⟨between, first, rest⟩ := Option.bind_eq_some_iff.mp framed
    unfold Framing.field at first
    by_cases length : isLength field.1 = true
    · -- The length settles everything, and nothing about the body follows.
      have noCoding : isCoding field.1 = false := strieq_other (by decide) length
      simp only [length, ↓reduceIte, Bool.or_self, Bool.false_eq_true] at first
      obtain ⟨v, _, rfl⟩ := Option.map_eq_some_iff.mp first
      obtain ⟨rfl, others⟩ := fields_settled (.inl rfl) rest
      refine ⟨iff_of_true rfl ⟨field, List.mem_cons_self, length⟩, iff_of_false (by simp) ?_⟩
      rintro ⟨f, there, coding, _⟩
      rcases List.mem_cons.mp there with rfl | there
      · simp [noCoding] at coding
      · simp [(others f there).2] at coding
    rw [if_neg length] at first
    by_cases coding : isCoding field.1 = true
    · simp only [coding, ↓reduceIte, Bool.or_self, Bool.false_eq_true] at first
      by_cases said : saysChunked field.2 = true
      · -- So does a coding that ends in chunked.
        rw [if_pos said] at first
        obtain rfl := Option.some.inj first
        obtain ⟨rfl, others⟩ := fields_settled (.inr rfl) rest
        refine ⟨iff_of_false (by simp) ?_, iff_of_true rfl ⟨field, List.mem_cons_self, coding, said⟩⟩
        rintro ⟨f, there, named⟩
        rcases List.mem_cons.mp there with rfl | there
        · exact length named
        · simp [(others f there).1] at named
      · rw [if_neg said] at first
        obtain rfl := Option.some.inj first
        obtain ⟨sized, chunked⟩ := ih rest
        simp [sized, chunked, length, said]
    · rw [if_neg coding] at first
      obtain rfl := Option.some.inj first
      obtain ⟨sized, chunked⟩ := ih rest
      simp [sized, chunked, length, coding]

/-- Where fields are taken, the length that one of them says is what is known behind them. -/
theorem fields_length {len : Nat} {fields : Fields} {after : Framing}
    (framed : Framing.fields ⟨len, false, false⟩ fields = some after) {field : Octets × Octets}
    (there : field ∈ fields) (named : isLength field.1 = true) :
    ∃ v, parseDec field.2 = some v ∧ after = ⟨v, true, false⟩ := by
  induction fields generalizing len with
  | nil => cases there
  | cons first fields ih =>
    rw [Framing.fields] at framed
    obtain ⟨between, taken, rest⟩ := Option.bind_eq_some_iff.mp framed
    unfold Framing.field at taken
    by_cases length : isLength first.1 = true
    · -- The length settles everything, and no other length follows.
      simp only [length, ↓reduceIte, Bool.or_self, Bool.false_eq_true] at taken
      obtain ⟨v, read, rfl⟩ := Option.map_eq_some_iff.mp taken
      obtain ⟨rfl, others⟩ := fields_settled (.inl rfl) rest
      rcases List.mem_cons.mp there with rfl | there
      · exact ⟨v, read, rfl⟩
      · rw [(others field there).1] at named
        cases named
    have behind : field ∈ fields := by
      rcases List.mem_cons.mp there with rfl | there
      · exact absurd named length
      · exact there
    rw [if_neg length] at taken
    by_cases coding : isCoding first.1 = true
    · simp only [coding, ↓reduceIte, Bool.or_self, Bool.false_eq_true] at taken
      by_cases said : saysChunked first.2 = true
      · -- A coding that ends in chunked admits no length behind it.
        rw [if_pos said] at taken
        obtain rfl := Option.some.inj taken
        rw [((fields_settled (.inr rfl) rest).2 field behind).1] at named
        cases named
      · rw [if_neg said] at taken
        obtain rfl := Option.some.inj taken
        exact ih rest behind
    · rw [if_neg coding] at taken
      obtain rfl := Option.some.inj taken
      exact ih rest behind

end Beast.Http
