import Beast.Http.Guarded
import Beast.Http.HeaderLines
import Beast.Http.ListLaws
import Beast.Http.Memory
import Mathlib.Tactic.Ring

/-! On the blocks that a parser cuts out, the walk over memory stays inside of them. -/

namespace Beast.Http.Guarded

variable {d : Derived}

/-- Positions that lie as they must stop nothing. -/
theorem inside_of {σ : Type} {there : Prop} [Decidable there] (holds : there) :
    inside (σ := σ) there = pure () :=
  if_pos holds

/-- An assertion that holds stops nothing. -/
theorem asserted_of {σ : Type} {claim : Prop} [Decidable claim] (holds : claim) :
    asserted (σ := σ) claim = pure () :=
  if_pos holds

/-- A loop over digits in front of another octet comes to the end of the value at that octet. -/
theorem parseDecLoop_eq (v : Nat) (value : Octets) {b : UInt8} (ends : isDigit b = false)
    (behind : Octets) :
    parseDecLoop v value.length (value ++ b :: behind) = .ok (Http.parseDecLoop v value) := by
  induction value generalizing v with
  | nil => simp [parseDecLoop, Http.parseDecLoop, ends]
  | cons c value ih =>
    have left : ((c :: value).length : Int) - 1 = value.length := by
      rw [List.length_cons]
      omega
    rw [List.cons_append, parseDecLoop, Http.parseDecLoop, left, ih]
    by_cases digit : isDigit c = true
    · simp only [digit, Bool.not_true, Bool.false_eq_true, ↓reduceIte]
      split <;> rfl
    · -- The loop ends within the value, which is no number then.
      have some_ : ((c :: value).length : Int) ≠ 0 := by
        rw [List.length_cons]
        omega
      simp only [digit, Bool.not_false, ↓reduceIte, if_neg some_]

/-- A number is read from a value alone where no digit stands behind it. -/
theorem parseDec_eq (value : Octets) {b : UInt8} (ends : isDigit b = false) (behind : Octets) :
    parseDec value (b :: behind) = .ok (Http.parseDec value) := by
  cases value with
  | nil => simp [parseDec, Http.parseDec, ends]
  | cons c value =>
    have left : ((c :: value).length : Int) - 1 = value.length := by
      rw [List.length_cons]
      omega
    rw [parseDec, Http.parseDec, List.cons_append]
    dsimp only
    rw [left, parseDecLoop_eq _ _ ends]
    split <;> rfl

/-- A list is read in no more rounds than it has octets, and one. -/
theorem optTokenList_eq (s : Octets) : optTokenList s = .ok (Http.optTokenList s) := by
  have rounds : ∀ {fuel : Nat} {needComma : Bool} {it : Octets}, it.length < fuel →
      optTokensFrom fuel needComma it = .ok (Http.optTokensFrom fuel needComma it) := by
    intro fuel
    induction fuel with
    | zero => exact fun short => absurd short (Nat.not_lt_zero _)
    | succ fuel ih =>
      intro needComma it enough
      rw [optTokensFrom, Http.optTokensFrom]
      cases next : nextOptToken needComma it with
      | error _ => rfl
      | ok r =>
        cases r with
        | none => rfl
        | some p0 =>
          obtain ⟨front, c, rest, rfl, _, rfl, token⟩ := nextOptToken_some next
          have shorter := skipToken_shorter token rest
          rw [List.length_append, List.length_cons] at enough
          dsimp only
          rw [ih (by omega)]
          rfl
  exact rounds (Nat.lt_succ_self _)

/-- Tokens are read in no more rounds than there are octets, and one. -/
theorem tokenList_eq (s : Octets) : tokenList s = .ok (Http.tokenList s) := by
  have rounds : ∀ {fuel : Nat} {needComma : Bool} {it : Octets}, it.length ≤ fuel →
      tokensFrom (fuel + 1) needComma it = .ok (Http.tokensFrom fuel needComma it) := by
    intro fuel
    induction fuel with
    | zero =>
      intro needComma it empty
      obtain rfl := List.eq_nil_of_length_eq_zero (Nat.le_zero.mp empty)
      rfl
    | succ fuel ih =>
      intro needComma it enough
      rw [tokensFrom, Http.tokensFrom]
      cases next : nextToken needComma it with
      | none => rfl
      | some p0 =>
        obtain ⟨front, c, rest, rfl, _, rfl, token⟩ := nextOptToken_some (nextToken_some next)
        have shorter := skipToken_shorter token rest
        rw [List.length_append, List.length_cons] at enough
        dsimp only
        rw [ih (by omega)]
        rfl
  exact rounds (Nat.le_refl _)

/-- A field is noted from its value alone where no digit stands behind it. -/
theorem doField_eq (name value : Octets) {b : UInt8} (ends : isDigit b = false)
    (behind : Octets) : doField (d := d) name value (b :: behind) = Http.doField name value := by
  unfold doField Http.doField
  rw [parseDec_eq value ends, optTokenList_eq, tokenList_eq]
  rfl

/-- What is left behind white space is what white space is dropped from. -/
theorem drop_takeWhile_ows (line : Octets) :
    line.drop (line.takeWhile isOws).length = skipOws line := by
  calc line.drop (line.takeWhile isOws).length
      = (line.takeWhile isOws ++ line.dropWhile isOws).drop (line.takeWhile isOws).length := by
        rw [List.takeWhile_append_dropWhile]
    _ = skipOws line := List.drop_left

/-- White space is no digit. -/
theorem isDigit_ows {c : UInt8} (space : isOws c = true) : isDigit c = false := by
  simp only [isOws, Bool.or_eq_true, beq_iff_eq] at space
  rcases space with rfl | rfl <;> decide

/-- No digit stands behind a value within its line. -/
theorem behind_value (content it : Octets) :
    ∃ b behind, (content ++ crlf ++ it).drop
        (content.length - (skipOws content).length + (trim content).length) = b :: behind ∧
      isDigit b = false := by
  -- White space stands in front of the value and behind it.
  obtain ⟨front, back, whole, _, spaces, place⟩ := trim_split content
  have cut : content ++ crlf ++ it = (front ++ trim content) ++ (back ++ crlf ++ it) := by
    conv_lhs => rw [whole]
    simp only [List.append_assoc]
  rw [cut, ← place, ← List.length_append, List.drop_left]
  cases back with
  | nil => exact ⟨13, [10] ++ it, rfl, by decide⟩
  | cons c back => exact ⟨c, back ++ crlf ++ it, rfl, isDigit_ows (spaces c List.mem_cons_self)⟩

/-- Continuation lines are joined within their lines. -/
theorem joinFolds_eq {lines : List Octets} (plains : PlainLines lines) (fuel : Nat) (s : Octets)
    (m : Message d) :
    Step.run (joinFolds fuel s (writeLines lines ++ crlf)) m =
      Step.run (Http.joinFolds fuel s (writeLines lines ++ crlf)) m := by
  induction fuel generalizing lines s m with
  | zero => rfl
  | succ fuel ih =>
    rw [joinFolds, Http.joinFolds, Step.run_bind_ok (isFold_lines plains m),
      Step.run_bind_ok (isFold_lines plains m)]
    cases lines with
    | nil => rfl
    | cons line lines =>
      have plain := (plains line List.mem_cons_self).2
      have spaces := @readWhile_line isOws rfl line (writeLines lines ++ crlf)
      rw [drop_takeWhile_ows] at spaces
      rw [writeLines_append, spaces, skipOws_line]
      split
      · rfl
      · rw [Step.run_lift_ok_bind, Step.run_bind_ok (readLine_lines plain.skipOws _ m),
          Step.run_bind_ok (readLine_lines plain.skipOws _ m)]
        exact ih plains.tail _ m

/-- Fields are read within the lines that hold them. -/
theorem parseFields_eq {lines : List Octets} (plains : PlainLines lines) (fuel : Nat)
    (m : Message d) :
    Step.run (parseFields fuel (writeLines lines ++ crlf)) m =
      Step.run (Http.parseFields fuel (writeLines lines ++ crlf)) m := by
  induction fuel generalizing lines m with
  | zero => rfl
  | succ fuel ih =>
    cases lines with
    | nil => rfl
    | cons line lines =>
      obtain ⟨some_, plain⟩ := plains line List.mem_cons_self
      have nameRead : parseName (line ++ crlf ++ (writeLines lines ++ crlf)) = .ok _ :=
        @readWhile_line (toFieldChar · != 0) rfl line _
      rw [parseFields, Http.parseFields, writeLines_append,
        Step.run_bind_ok (readLine_lines plain _ m), Step.run_bind_ok (readLine_lines plain _ m)]
      simp only [List.isEmpty_eq_false_iff.mpr some_, Bool.false_eq_true, ↓reduceIte, nameRead,
        Step.run_lift_ok_bind]
      generalize named : line.takeWhile (toFieldChar · != 0) = name
      have colon := readOctet_line (show octet ':' ≠ 13 by decide) (line.drop name.length)
        (writeLines lines ++ crlf)
      cases name with
      | nil => rfl
      | cons c name =>
        simp only [List.isEmpty_cons, Bool.false_eq_true, ↓reduceIte, colon, Step.run_lift_ok_bind]
        cases opens : (line.drop (c :: name).length).head? == some (octet ':') with
        | false => rfl
        | true =>
          -- The colon stands within the line, and the value behind it.
          have within : (c :: name).length + 1 ≤ line.length := by
            by_contra! short
            rw [List.drop_eq_nil_of_le (by omega)] at opens
            simp at opens
          have place : (line ++ crlf ++ (writeLines lines ++ crlf)).length -
              (line.drop ((c :: name).length + 1) ++ crlf ++ (writeLines lines ++ crlf)).length =
                (c :: name).length + 1 := by
            simp only [List.length_append, List.length_drop]
            omega
          dsimp only
          rw [if_pos rfl, List.drop_drop, place, inside_of within, Step.run_pure_bind,
            Step.run_bind_ok (isFold_lines plains.tail m),
            Step.run_bind_ok (isFold_lines plains.tail m)]
          generalize line.drop ((c :: name).length + 1) = content
          -- Behind a value, whatever it is, both go on alike.
          have tail : ∀ {value : Octets} {b : UInt8} {behind : Octets} {left : List Octets}
              (m : Message d), isDigit b = false → PlainLines left → Step.run (do
                doField (c :: name) value (b :: behind)
                invoke (.on_field (c :: name) value)
                parseFields fuel (writeLines left ++ crlf)) m =
              Step.run (do
                Http.doField (c :: name) value
                invoke (.on_field (c :: name) value)
                Http.parseFields fuel (writeLines left ++ crlf)) m := by
            intro value b behind left m ends plains
            rw [doField_eq _ _ ends]
            simp only [Step.run_bind, ih plains]
          split
          · obtain ⟨b, behind, cut, ends⟩ := behind_value content (writeLines lines ++ crlf)
            rw [cut]
            exact tail m ends plains.tail
          · -- The value goes on in the lines that continue it.
            have room := length_lines lines
            obtain ⟨front, left, ran, suffix, _⟩ := skipFolds_lines plains.tail
              (show lines.length < (writeLines lines ++ crlf).length + 1 by omega) content m
            have plains' : PlainLines left := fun l there => plains.tail l (suffix.subset there)
            rw [Step.run_bind_ok ran, Step.run_bind_ok ran]
            dsimp only
            split
            · exact tail m (by decide) plains'
            · have joined := joinFolds_lines plains' (Nat.lt_succ_of_le (length_lines left)) front m
              rw [Step.run_bind_ok ((joinFolds_eq plains' _ _ m).trans joined),
                Step.run_bind_ok joined]
              exact tail m (by decide) fun l there => plains' l (List.dropWhile_subset _ there)

/-- An outcome of a walk that stayed where it may look, with no assertion failed. -/
def Sound {α : Type} : Except Halt α → Prop
  | .ok _ => True
  | .error halt => halt ≠ .outside ∧ halt ≠ .assertion

/-- From a state, a walk does what another step does, and the outcome is sound. -/
structure Agrees {σ α : Type} (walk step : Step Halt σ α) (s : σ) : Prop where
  same : Step.run walk s = Step.run step s
  sound : Sound (Step.run step s).1

/-- A step that is not guarded agrees with itself where its outcome is sound. -/
theorem Agrees.refl {σ α : Type} {step : Step Halt σ α} {s : σ}
    (sound : Sound (Step.run step s).1) : Agrees step step s :=
  ⟨rfl, sound⟩

/-- Walks that agree with steps go on to agree. -/
theorem Agrees.bind {σ α β : Type} {walk step : Step Halt σ α} {f g : α → Step Halt σ β} {s : σ}
    (first : Agrees walk step s)
    (second : ∀ a t, Step.run step s = (.ok a, t) → Agrees (f a) (g a) t) :
    Agrees (walk >>= f) (step >>= g) s := by
  obtain ⟨same, sound⟩ := first
  rcases ran : Step.run step s with ⟨r, t⟩
  rw [ran] at same sound
  cases r with
  | error halt =>
    refine ⟨?_, ?_⟩
    · rw [Step.run_bind_error same, Step.run_bind_error ran]
    · rw [Step.run_bind_error ran]
      exact sound
  | ok a =>
    obtain ⟨same', sound'⟩ := second a t ran
    refine ⟨?_, ?_⟩
    · rw [Step.run_bind_ok same, Step.run_bind_ok ran, same']
    · rw [Step.run_bind_ok ran]
      exact sound'

/-- A check that stops nothing may be left out. -/
theorem Agrees.checked {σ α : Type} {there : Prop} [Decidable there] {f : Unit → Step Halt σ α}
    {step : Step Halt σ α} {s : σ} (holds : there) (behind : Agrees (f ()) step s) :
    Agrees (inside there >>= f) step s := by
  rw [inside_of holds]
  exact behind

/-- An assertion that holds may be left out. -/
theorem Agrees.asserted {σ α : Type} {claim : Prop} [Decidable claim] {f : Unit → Step Halt σ α}
    {step : Step Halt σ α} {s : σ} (holds : claim) (behind : Agrees (f ()) step s) :
    Agrees (asserted claim >>= f) step s := by
  rw [asserted_of holds]
  exact behind

/-- A walk that agrees on the message agrees as a walk of the parser. -/
theorem Agrees.onMessage {α : Type} {walk step : MessageStep d α} {p : BasicParser d}
    (agrees : Agrees walk step p.toMessage) : Agrees (onMessage walk) (onMessage step) p := by
  obtain ⟨same, sound⟩ := agrees
  refine ⟨?_, sound⟩
  simp only [Http.onMessage, Step.run_zoom, same]

theorem agrees_pure {σ α : Type} (a : α) (s : σ) :
    Agrees (pure a : Step Halt σ α) (pure a) s :=
  .refl trivial

theorem agrees_modify {σ : Type} (f : σ → σ) (s : σ) :
    Agrees (modify f : Step Halt σ PUnit) (modify f) s :=
  .refl trivial

theorem agrees_lift {σ α : Type} {r : Except Halt α} (sound : Sound r) (s : σ) :
    Agrees (Step.lift r : Step Halt σ α) (Step.lift r) s :=
  .refl sound

theorem agrees_fail {σ α : Type} (code : ErrorCode) (s : σ) :
    Agrees (fail (α := α) code) (fail code) s :=
  .refl ⟨nofun, nofun⟩

/-- The derived class refuses a call with an error code. -/
theorem agrees_invoke (c : Callback) (m : Message d) : Agrees (invoke c) (invoke c) m := by
  refine .refl ?_
  unfold invoke Step.run
  dsimp only
  cases (d.call m.impl c).2 with
  | none => trivial
  | some code => exact ⟨nofun, nofun⟩

/-- A field is noted, or refused with an error code. -/
theorem agrees_doField (name value : Octets) (m : Message d) :
    Agrees (Http.doField name value) (Http.doField name value) m := by
  have notes : ∀ (f : Flags → Flags) (m : Message d), Agrees (setFlags f) (setFlags f) m :=
    fun _ _ => .refl trivial
  unfold Http.doField
  refine .bind (.refl trivial) fun self _ _ => ?_
  repeat' first
    | with_reducible first
      | exact agrees_fail _ _
      | exact notes _ _
      | exact agrees_pure _ _
    | refine .bind (.refl trivial) fun _ _ _ => ?_
    | split

/-- Fields are taken one after another, or one is refused with an error code. -/
theorem agrees_takeFields (fields : Fields) (m : Message d) :
    Agrees (takeFields fields) (takeFields fields) m := by
  induction fields generalizing m with
  | nil => exact agrees_pure _ _
  | cons field fields ih =>
    exact (agrees_doField _ _ _).bind fun _ _ _ => (agrees_invoke _ _).bind fun _ t _ => ih t

section Lines

variable {lines : List Octets} {fuel : Nat}

/-- The walk over fields reads those in their lines. -/
theorem agrees_parseFields (plains : PlainLines lines) (enough : lines.length < fuel)
    (m : Message d) :
    Agrees (parseFields fuel (writeLines lines ++ crlf))
      (Http.parseFields fuel (writeLines lines ++ crlf)) m := by
  refine ⟨parseFields_eq plains fuel m, ?_⟩
  rw [parseFields_lines plains enough]
  refine (Agrees.bind (f := fun _ => endFields (readFields lines).2) (agrees_takeFields _ m) fun _ t _ => ?_).sound
  unfold endFields
  split
  · exact agrees_fail _ _
  · exact agrees_pure _ _

/-- The fields end where their lines do. -/
theorem parseFields_end (plains : PlainLines lines) (enough : lines.length < fuel)
    {m t : Message d} {it : Octets}
    (ran : Step.run (Http.parseFields fuel (writeLines lines ++ crlf)) m = (.ok it, t)) :
    it = [] := by
  rw [parseFields_lines plains enough] at ran
  obtain ⟨_, u, _, ended⟩ := Step.bind_ok ran
  unfold endFields at ended
  split at ended
  · cases ended
  · cases ended
    rfl

/-- The walk over fields comes to the end of their lines, and goes on from there. -/
theorem agrees_parseFields_bind (plains : PlainLines lines) (enough : lines.length < fuel)
    {α : Type} {f g : Octets → MessageStep d α} (m : Message d)
    (behind : ∀ t, Agrees (f []) (g []) t) :
    Agrees (parseFields fuel (writeLines lines ++ crlf) >>= f)
      (Http.parseFields fuel (writeLines lines ++ crlf) >>= g) m := by
  refine (agrees_parseFields plains enough m).bind fun it t ran => ?_
  rw [parseFields_end plains enough ran]
  exact behind t

end Lines

/-- How the message goes on is decided without a look at the octets. -/
theorem agrees_doHeader (isRequest : Bool) (status : Nat) (m : Message d) :
    Agrees (doHeader isRequest status) (doHeader isRequest status) m := by
  have flags : ∀ (f : Flags → Flags) (m : Message d), Agrees (setFlags f) (setFlags f) m :=
    fun _ _ => .refl trivial
  have changes : ∀ (f : Message d → Message d) (m : Message d),
      Agrees (modify f : MessageStep d PUnit) (modify f) m :=
    fun _ _ => .refl trivial
  unfold doHeader doHeaderRequest doHeaderResponse
  split
  all_goals
    refine .bind (.refl trivial) fun self t _ => ?_
    repeat' first
      | with_reducible first
        | exact flags _ _
        | exact changes _ _
      | refine .bind (.refl trivial) fun _ _ _ => ?_
      | split

/-- The walk over a header ends where the header does. -/
theorem agrees_parseHeaderBlock {line : Octets} {lines : List Octets} (plain : PlainLine line)
    (plains : PlainLines lines) (isRequest : Bool) (m : Message d) :
    Agrees (parseHeaderBlock isRequest (line ++ crlf ++ writeLines lines ++ crlf))
      (Http.parseHeaderBlock isRequest (line ++ crlf ++ writeLines lines ++ crlf)) m := by
  have room := length_lines lines
  unfold parseHeaderBlock Http.parseHeaderBlock
  rw [List.append_assoc (line ++ crlf)]
  rcases parseStartline_line (d := d) plain isRequest (writeLines lines ++ crlf) with
    ⟨code, refused⟩ | ⟨start, version, _, _, read⟩
  · refine .bind (.refl (by rw [refused]; exact ⟨nofun, nofun⟩)) fun a t ran => ?_
    rw [refused] at ran
    cases ran
  · -- The first line is told, and what follows it is left.
    have sound : Sound (Step.run (parseStartline isRequest
        (line ++ crlf ++ (writeLines lines ++ crlf))) m).1 := by
      rw [read]
      exact (Agrees.bind (f := fun _ => pure _) (agrees_invoke _ m) fun _ t _ =>
        agrees_pure _ t).sound
    refine .bind (.refl sound) fun a t ran => ?_
    rw [read] at ran
    obtain ⟨_, u, _, rest⟩ := Step.bind_ok ran
    cases rest
    have behind : ∀ t : Message d, Agrees (do
        let it ← parseFields ((writeLines lines ++ crlf).length + 1) (writeLines lines ++ crlf)
        asserted (it = [])
        doHeader isRequest start.status
        invoke .on_header
        if (← get).state_ == .complete then
          invoke .on_complete) (do
        let _ ← Http.parseFields ((writeLines lines ++ crlf).length + 1) (writeLines lines ++ crlf)
        doHeader isRequest start.status
        invoke .on_header
        if (← get).state_ == .complete then
          invoke .on_complete) t := by
      intro t
      refine agrees_parseFields_bind plains (by omega) t fun t => ?_
      refine .asserted rfl ?_
      refine (agrees_doHeader _ _ _).bind fun _ t _ => (agrees_invoke _ _).bind fun _ t _ => ?_
      refine .bind (.refl trivial) fun self t _ => ?_
      split
      · exact agrees_invoke _ _
      · exact agrees_pure _ _
    dsimp only
    split
    · exact .bind (.refl trivial) fun _ t _ => behind t
    · exact behind _

/-- What `parseTrailer` does behind the extension. -/
def parseTrailerBehind (p : Octets) : MessageStep d Unit := do
  let (true, p) ← Step.lift (parseCrlf p) | fail .bad_chunk
  let p ← parseFields (p.length + 1) p
  asserted (p = [])
  doComplete

/-- The walk over the rest of the last chunk ends where the trailer does. -/
theorem agrees_parseTrailer {block s : Octets} {lines : List Octets} {offset x : Nat}
    (plain : PlainLine s) (plains : PlainLines lines) (place : offset + s.length = x)
    (rest : block.drop offset = s ++ crlf ++ (writeLines lines ++ crlf)) (m : Message d) :
    Agrees (parseTrailer block offset x) (Http.parseTrailer block offset x) m := by
  have room := length_lines lines
  -- Behind the extension, or where there is none, the line ends.
  have behind : ∀ {s : Octets} (m : Message d), PlainLine s →
      Agrees (parseTrailerBehind (s ++ crlf ++ (writeLines lines ++ crlf)))
        (Http.parseTrailerBehind (s ++ crlf ++ (writeLines lines ++ crlf))) m := by
    intro s m plain
    unfold parseTrailerBehind Http.parseTrailerBehind
    rw [parseCrlf_line plain]
    refine .bind (.refl trivial) fun a t ran => ?_
    cases ran
    cases s with
    | cons c s => exact agrees_fail _ _
    | nil =>
      refine agrees_parseFields_bind plains (Nat.lt_succ_of_le room) m fun t => ?_
      exact .asserted rfl ((agrees_invoke _ _).bind fun _ t _ => agrees_modify _ _)
  have line : block.drop x = [] ++ crlf ++ (writeLines lines ++ crlf) := by
    rw [← place, ← List.drop_drop, rest, List.append_assoc, List.drop_left]
    rfl
  have long : x ≤ block.length := by
    by_contra! short
    rw [List.drop_eq_nil_of_le (Nat.le_of_lt short)] at line
    cases line
  unfold parseTrailer Http.parseTrailer
  obtain ⟨c, there⟩ := peek_line s (writeLines lines ++ crlf)
  rw [rest, there, line]
  refine .bind (.refl trivial) fun a t ran => ?_
  cases ran
  dsimp only
  split
  · refine .checked ⟨by omega, long⟩ ?_
    refine (agrees_modify _ _).bind fun _ t _ => (agrees_invoke _ _).bind fun _ t _ => ?_
    exact behind (s := []) t (List.forall_mem_nil _)
  · exact behind m plain

/-- The walk over the line of a chunk stays within the line. -/
theorem agrees_openChunk {p it s : Octets} {v term : Nat}
    (rest : it = s ++ crlf ++ p.drop term) (place : p.length - it.length + s.length = term - 2)
    (m : Message d) : Agrees (openChunk p it v term) (Http.openChunk p it v term) m := by
  unfold openChunk Http.openChunk
  obtain ⟨c, there⟩ := peek_line s (p.drop term)
  rw [← rest] at there
  rw [there]
  refine .bind (.refl trivial) fun a t ran => ?_
  cases ran
  dsimp only
  split
  · refine .checked (by omega) ?_
    exact (agrees_modify _ _).bind fun _ t _ => (agrees_invoke _ _).bind fun _ t _ =>
      agrees_modify _ _
  · split
    · exact (agrees_fail _ _).bind fun _ t _ => agrees_modify _ _
    · exact agrees_modify _ _

/-- A number is read within its line, or found missing or too large there. -/
theorem parseHex_within : StaysWithin parseHex fun _ => True := by
  have loop : ∀ v, StaysWithin (parseHexLoop v) fun _ => True := by
    intro v s it plain
    induction s generalizing v with
    | nil => exact ⟨some v, [], plain, trivial, by simp [parseHexLoop, crlf, unhex_return]⟩
    | cons c s ih =>
      have plain' : PlainLine s := fun b there => plain b (List.mem_cons_of_mem _ there)
      rw [List.cons_append, List.cons_append, parseHexLoop]
      cases unhex c with
      | none => exact ⟨some v, c :: s, plain, trivial, rfl⟩
      | some digit =>
        dsimp only
        split
        · exact ⟨none, s, plain', trivial, rfl⟩
        · exact ih _ plain'
  intro s it plain
  cases s with
  | nil => exact ⟨none, [], plain, trivial, by simp [parseHex, crlf, unhex_return]⟩
  | cons c s =>
    rw [List.cons_append, List.cons_append, parseHex]
    cases unhex c with
    | none => exact ⟨none, c :: s, plain, trivial, rfl⟩
    | some digit => exact loop _ s it fun b there => plain b (List.mem_cons_of_mem _ there)

/-- A number is read off the front of a text. -/
theorem parseHex_suffix {text it : Octets} {r : Option Nat} (read : parseHex text = .ok (r, it)) :
    it <:+ text := by
  have loop : ∀ {v : Nat} {text : Octets}, parseHexLoop v text = .ok (r, it) → it <:+ text := by
    intro v text read
    induction text generalizing v with
    | nil => simp [parseHexLoop] at read
    | cons c text ih =>
      rw [parseHexLoop] at read
      split at read
      · cases read
        exact List.suffix_refl _
      · dsimp only at read
        split at read
        · cases read
          exact List.suffix_cons _ _
        · exact (ih read).trans (List.suffix_cons _ _)
  cases text with
  | nil => simp [parseHex] at read
  | cons c text =>
    rw [parseHex] at read
    split at read
    · cases read
      exact List.suffix_refl _
    · exact (loop read).trans (List.suffix_cons _ _)

/-- What a search from the end of a line cuts out are the lines behind it. -/
theorem findEom_lines {rest : Octets} {n : Nat} (found : findEom (crlf ++ rest) = .found n) :
    ∃ lines, (crlf ++ rest).take n = crlf ++ (writeLines lines ++ crlf) ∧ PlainLines lines := by
  obtain ⟨line, lines, cut, plain, plains⟩ := findEom_split found
  cases line with
  | nil => exact ⟨lines, by rw [cut]; simp, plains⟩
  | cons c line =>
    -- The text opens with the end of a line, which no line holds.
    have opens := congrArg List.head? cut
    cases n with
    | zero => cases opens
    | succ n =>
      have same : (13 : UInt8) = c := Option.some.inj opens
      exact absurd same.symm (plain c List.mem_cons_self)

/-- The walk over the last chunk stays within what was found. -/
theorem agrees_parseLastChunk {p : BasicParser d} {first s rest : Octets} {n offset : Nat}
    (plain : PlainLine s) (ending : first.drop p.x_ = crlf ++ rest)
    (behind : first.drop offset = s ++ crlf ++ rest) (place : offset + s.length = p.x_)
    (within : p.skip_ ≤ first.length)
    (searched : (findEom (first.drop p.skip_)).shift p.skip_ =
      (findEom (first.drop p.x_)).shift p.x_) :
    Agrees (parseLastChunk first n offset) (Http.parseLastChunk first n offset) p := by
  unfold parseLastChunk Http.parseLastChunk
  refine .bind (.refl trivial) fun self t ran => ?_
  cases ran
  refine .checked within ?_
  cases found : findEom (first.drop p.skip_) with
  | bad => exact agrees_fail _ _
  | need =>
    dsimp only
    split
    · exact .refl trivial
    · exact agrees_pure _ _
  | found k =>
    cases found' : findEom (first.drop p.x_) with
    | bad => simp [found, found', Scan.shift] at searched
    | need => simp [found, found', Scan.shift] at searched
    | found j =>
      rw [found, found'] at searched
      have same : p.skip_ + k = p.x_ + j := by simpa [Scan.shift] using searched
      obtain ⟨lines, cut, plains⟩ := findEom_lines (ending ▸ found')
      have block : (first.take (p.skip_ + k)).drop offset =
          s ++ crlf ++ (writeLines lines ++ crlf) := by
        rw [List.drop_take, behind, same, ← place, List.append_assoc, List.append_assoc,
          show offset + s.length + j - offset = s.length + j by omega, List.take_length_add_append,
          cut]
      refine (Agrees.onMessage ?_).bind fun _ t _ => agrees_pure _ _
      exact agrees_parseTrailer plain plains place block p.toMessage

/-- The walk over the size of a chunk stays within its line, or goes on to the trailer. -/
theorem agrees_parseChunkSize {p : BasicParser d} {first line rest : Octets} {start : Nat}
    (plain : PlainLine line) (behind : first.drop start = line ++ crlf ++ rest) :
    Agrees (parseChunkSize first (first.drop start) (line.length + 2))
      (Http.parseChunkSize first (first.drop start) (line.length + 2)) p := by
  have long : first.length = start + line.length + 2 + rest.length := by
    have size := congrArg List.length behind
    simp only [List.length_drop, List.length_append, crlf, List.length_cons,
      List.length_nil] at size
    omega
  unfold parseChunkSize Http.parseChunkSize
  obtain ⟨v, s, plain', _, read⟩ := parseHex_within line rest plain
  rw [behind, read]
  refine .bind (.refl trivial) fun a t ran => ?_
  cases ran
  cases v with
  | none => exact agrees_fail _ _
  | some v =>
    have shorter := (parseHex_rest read).2
    simp only [List.length_append, crlf, List.length_cons, List.length_nil] at shorter
    have suffix : s ++ crlf ++ rest <:+ first :=
      (parseHex_suffix read).trans (behind ▸ List.drop_suffix start first)
    have rested := List.suffix_iff_eq_drop.mp suffix
    have size : (line ++ crlf ++ rest).length = line.length + 2 + rest.length := by
      simp only [List.length_append, crlf, List.length_cons, List.length_nil]
    have size' : (s ++ crlf ++ rest).length = s.length + 2 + rest.length := by
      simp only [List.length_append, crlf, List.length_cons, List.length_nil]
    dsimp only
    split
    · -- A chunk is opened, or its line refused.
      refine (Agrees.onMessage ?_).bind fun _ t _ => ?_
      · refine agrees_openChunk (s := s) ?_ (by omega) _
        rw [List.append_assoc line, List.drop_length_add_append]
        rfl
      · exact (agrees_modify _ _).bind fun _ t _ => agrees_pure _ _
    · -- The last chunk is looked for from the end of its line.
      refine .bind (agrees_modify _ _) fun _ t ran => ?_
      cases ran
      refine .bind (Agrees.onMessage (.refl trivial)) fun _ t ran => ?_
      cases ran
      refine agrees_parseLastChunk plain' ?_ rested.symm ?_ ?_ rfl
      · show first.drop (first.length - (line ++ crlf ++ rest).length + (line.length + 2) - 2) = _
        rw [show first.length - (line ++ crlf ++ rest).length + (line.length + 2) - 2 =
          start + line.length by omega, ← List.drop_drop, behind, List.append_assoc, List.drop_left]
      · show first.length - (s ++ crlf ++ rest).length + s.length =
          first.length - (line ++ crlf ++ rest).length + (line.length + 2) - 2
        omega
      · show first.length - (line ++ crlf ++ rest).length + (line.length + 2) - 2 ≤ first.length
        omega

/-- Where the next search starts lies within as many octets. -/
def Placed (p : BasicParser d) (n : Nat) : Prop :=
  match p.state_ with
  | .header => p.skip_ ≤ n
  | .chunk_header =>
    p.skip_ = 0 ∨
      p.skip_ + (if p.f_.flagExpectCRLF && !p.f_.flagFinalChunk then 2 else 0) ≤ n
  | _ => True

/-- The octets behind the earlier line ending stand at an offset. -/
theorem chunkBase_drop (expect : Bool) (text : Octets) :
    chunkBase expect text = text.drop (if expect then 2 else 0) := by
  cases expect <;> rfl

/-- The walk over the line of a chunk stays within the octets at hand. -/
theorem agrees_parseChunkLine {p : BasicParser d} {text : Octets} (chunk : p.state_ = .chunk_header)
    (searched : Searched p text) (placed : Placed p text.length) :
    Agrees (parseChunkLine text (chunkBase p.f_.flagExpectCRLF text))
      (Http.parseChunkLine text (chunkBase p.f_.flagExpectCRLF text)) p := by
  rw [Searched, chunk] at searched
  rw [Placed, chunk] at placed
  dsimp only at searched placed
  unfold parseChunkLine Http.parseChunkLine
  refine .bind (.refl trivial) fun self t ran => ?_
  cases ran
  by_cases final : p.f_.flagFinalChunk = true
  · -- The line of the last chunk is known, and only the end of its trailer is looked for.
    rw [if_pos final] at searched
    obtain ⟨⟨_, _, k, it, line, size, place⟩, resumed⟩ := searched
    obtain ⟨name, rest, base, plain, rfl⟩ := findEol_split line
    obtain ⟨_, s, plain', _, read⟩ := parseHex_within name rest plain
    rw [← base, size] at read
    cases read
    have suffix : s ++ crlf ++ rest <:+ text := by
      refine (parseHex_suffix size).trans ?_
      rw [chunkBase_drop]
      exact List.drop_suffix _ _
    have rested := List.suffix_iff_eq_drop.mp suffix
    have shorter := (parseHex_rest size).2
    have shortest := suffix.length_le
    have long : (chunkBase p.f_.flagExpectCRLF text).length ≤ text.length := by
      rw [chunkBase_drop, List.length_drop]
      omega
    have sizes : (s ++ crlf ++ rest).length = s.length + 2 + rest.length := by
      simp only [List.length_append, crlf, List.length_cons, List.length_nil]
    have sizes' : (chunkBase p.f_.flagExpectCRLF text).length = name.length + 2 + rest.length := by
      rw [base]
      simp only [List.length_append, crlf, List.length_cons, List.length_nil]
    simp only [final, Bool.not_true, Bool.false_eq_true, ↓reduceIte, size]
    refine .bind (.refl trivial) fun a t ran => ?_
    cases ran
    have place' : text.length - (s ++ crlf ++ rest).length + s.length = p.x_ := by omega
    refine agrees_parseLastChunk plain' ?_ rested.symm place' ?_ resumed
    · rw [← place', ← List.drop_drop, ← rested, List.append_assoc, List.drop_left]
    · simp only [final, Bool.not_true, Bool.and_false, Bool.false_eq_true, ↓reduceIte] at placed
      omega
  · rw [if_neg final] at searched
    have unfinished : p.f_.flagFinalChunk = false := by simpa using final
    simp only [unfinished, Bool.not_false, ↓reduceIte, Bool.and_true] at placed ⊢
    split
    · exact agrees_pure _ _
    · rename_i long
      have within : p.skip_ ≤ (chunkBase p.f_.flagExpectCRLF text).length := by
        rw [chunkBase_drop, List.length_drop] at long ⊢
        omega
      refine .checked within ?_
      cases found : findEol ((chunkBase p.f_.flagExpectCRLF text).drop p.skip_) with
      | bad => exact agrees_fail _ _
      | need => exact .refl trivial
      | found k =>
        rw [found] at searched
        obtain ⟨line, rest, base, plain, place⟩ := findEol_split searched.symm
        dsimp only
        rw [place]
        rw [chunkBase_drop] at base ⊢
        exact agrees_parseChunkSize plain base

/-- The walk over the header of a chunk stays within the octets at hand. -/
theorem agrees_parseChunkHeader {p : BasicParser d} {text : Octets}
    (chunk : p.state_ = .chunk_header) (searched : Searched p text)
    (placed : Placed p text.length) :
    Agrees (parseChunkHeader text) (Http.parseChunkHeader text) p := by
  have line := agrees_parseChunkLine chunk searched placed
  unfold parseChunkHeader Http.parseChunkHeader
  refine .bind (.refl trivial) fun self t ran => ?_
  cases ran
  cases expect : p.f_.flagExpectCRLF with
  | false =>
    rw [expect] at line
    exact line
  | true =>
    rw [expect] at line
    simp only [↓reduceIte]
    split
    · exact agrees_pure _ _
    · rename_i long
      obtain ⟨r, read⟩ : ∃ r, parseCrlf text = .ok r := by
        obtain _ | ⟨c, _ | ⟨e, it⟩⟩ := text
        · simp at long
        · simp at long
        · rw [parseCrlf_two]
          split
          · split <;> exact ⟨_, rfl⟩
          · exact ⟨_, rfl⟩
      rw [read]
      refine .bind (.refl trivial) fun a t ran => ?_
      cases ran
      obtain ⟨ended, it⟩ := r
      cases ended with
      | false => exact agrees_fail _ _
      | true =>
        rw [parseCrlf_drop read]
        exact line

/-- The walk over a header stays within the octets at hand. -/
theorem agrees_parseHeader {p : BasicParser d} {isRequest : Bool} {text : Octets}
    (within : p.skip_ ≤ text.length)
    (searched : (findEom (text.drop p.skip_)).shift p.skip_ = findEom text) :
    Agrees (parseHeader isRequest text) (Http.parseHeader isRequest text) p := by
  unfold parseHeader Http.parseHeader
  refine .bind (.refl trivial) fun self t ran => ?_
  cases ran
  split
  · exact agrees_pure _ _
  · refine .checked within ?_
    cases found : findEom (text.drop p.skip_) with
    | bad => exact agrees_fail _ _
    | need => exact .refl trivial
    | found k =>
      rw [found] at searched
      obtain ⟨line, lines, cut, plain, plains⟩ := findEom_split searched.symm
      dsimp only
      rw [cut]
      refine .bind (.refl trivial) fun _ t _ => (Agrees.onMessage ?_).bind fun _ t _ => agrees_pure _ _
      exact agrees_parseHeaderBlock plain plains isRequest _

/-- The body is announced, or refused with an error code. -/
theorem agrees_maybeDoBodyIndirect (m : Message d) :
    Agrees maybeDoBodyIndirect maybeDoBodyIndirect m := by
  unfold maybeDoBodyIndirect
  refine .bind (.refl trivial) fun self t _ => ?_
  split
  · exact agrees_pure _ _
  · refine .bind (agrees_modify _ _) fun _ t _ => ?_
    split <;> exact agrees_invoke _ _

/-- The body of a direct parser is announced, or the derived class throws. -/
theorem agrees_maybeDoBodyDirect (m : Message d) :
    Agrees maybeDoBodyDirect maybeDoBodyDirect m := by
  have told : ∀ (c : Callback) (m : Message d), Agrees (tell c) (tell c) m := by
    intro c m
    refine .refl ?_
    unfold tell Step.run
    dsimp only
    cases (d.call m.impl c).2 with
    | none => trivial
    | some code => exact ⟨nofun, nofun⟩
  unfold maybeDoBodyDirect
  refine .bind (.refl trivial) fun self t _ => ?_
  split
  · exact agrees_pure _ _
  · refine .bind (agrees_modify _ _) fun _ t _ => ?_
    split <;> exact told _ _

/-- Octets of a body are passed on as far as they are there. -/
theorem agrees_data {finish : ParserStep d Unit} (finishes : ∀ p, Agrees finish finish p)
    (text : Octets) (p : BasicParser d) : Agrees (do
      let self ← get
      let n := min self.len_ text.length
      let body := text.take n
      set { self with body_ := body }
      onMessage (passData body)
      if (← get).len_ == 0 then do
        finish
        return n
      else return n) (do
      let self ← get
      let n := min self.len_ text.length
      let body := text.take n
      set { self with body_ := body }
      onMessage (passData body)
      if (← get).len_ == 0 then do
        finish
        return n
      else return n) p := by
  refine .bind (.refl trivial) fun self t _ => .bind (.refl trivial) fun _ t _ => ?_
  refine (Agrees.onMessage ((agrees_invoke _ _).bind fun _ t _ => agrees_modify _ _)).bind
    fun _ t _ => .bind (.refl trivial) fun self t _ => ?_
  split
  · exact (finishes t).bind fun _ t _ => agrees_pure _ _
  · exact agrees_pure _ _

/-- A step on the message leaves the rest of the parser alone. -/
theorem onMessage_spec {α : Type} {m : MessageStep d α} {p q : BasicParser d} {r : Except Halt α}
    (ran : Step.run (Http.onMessage m) p = (r, q)) :
    ∃ s, Step.run m p.toMessage = (r, s) ∧ q = { p with toMessage := s } := by
  rw [Http.onMessage, Step.run_zoom] at ran
  cases ran
  exact ⟨_, rfl, rfl⟩

/-- A step that leaves the parser where it stands leaves its searches where they are. -/
theorem onMessage_place {α : Type} {m : MessageStep d α} (keeps : Step.Keeps Message.place m)
    {p q : BasicParser d} {r : Except Halt α} (ran : Step.run (Http.onMessage m) p = (r, q)) :
    q.place = p.place ∧ q.skip_ = p.skip_ ∧ q.x_ = p.x_ := by
  obtain ⟨s, first, rfl⟩ := onMessage_spec ran
  have same := keeps p.toMessage
  rw [first] at same
  exact ⟨same, rfl, rfl⟩

/-- A body is announced without a move. -/
theorem maybeDoBodyIndirect_place : Step.Keeps Message.place (maybeDoBodyIndirect (d := d)) := by
  unfold maybeDoBodyIndirect
  refine Step.keeps_bind Step.keeps_get fun self => ?_
  split
  · exact Step.keeps_pure _
  · refine Step.keeps_bind (setFlags_keeps fun _ => rfl) fun _ => ?_
    split <;> exact invoke_place _

/-- A body is announced to a direct reader without a move. -/
theorem maybeDoBodyDirect_place : Step.Keeps Message.place (maybeDoBodyDirect (d := d)) := by
  have told : ∀ c, Step.Keeps Message.place (tell (d := d) c) := by
    intro c m
    unfold tell Step.run
    dsimp only
    cases (d.call m.impl c).2 <;> rfl
  unfold maybeDoBodyDirect
  refine Step.keeps_bind Step.keeps_get fun self => ?_
  split
  · exact Step.keeps_pure _
  · refine Step.keeps_bind (setFlags_keeps fun _ => rfl) fun _ => ?_
    split <;> exact told _

/-- Only where the parser stands and where it searches say whether a text fits. -/
theorem Searched.move {p q : BasicParser d} {text : Octets} (searched : Searched p text)
    (same : q.place = p.place ∧ q.skip_ = p.skip_ ∧ q.x_ = p.x_) : Searched q text := by
  obtain ⟨place, skip, x⟩ := same
  simp only [Message.place, Prod.mk.injEq] at place
  exact searched.congr place.1 place.2.2 place.2.1 skip x

/-- Only where the parser stands and where it searches say where the search lies. -/
theorem Placed.move {p q : BasicParser d} {n : Nat} (placed : Placed p n)
    (same : q.place = p.place ∧ q.skip_ = p.skip_ ∧ q.x_ = p.x_) : Placed q n := by
  obtain ⟨place, skip, _⟩ := same
  simp only [Message.place, Prod.mk.injEq] at place
  unfold Placed at placed ⊢
  rw [place.1, place.2.1, place.2.2, skip]
  exact placed

/-- Behind the announcement of the body, the walk over the header of a chunk stays within. -/
theorem agrees_announced {p : BasicParser d} {text : Octets} {announce : MessageStep d Unit}
    (agrees : ∀ m, Agrees announce announce m) (keeps : Step.Keeps Message.place announce)
    (chunk : p.state_ = .chunk_header) (searched : Searched p text)
    (placed : Placed p text.length) :
    Agrees (do Http.onMessage announce; parseChunkHeader text)
      (do Http.onMessage announce; Http.parseChunkHeader text) p := by
  refine (Agrees.onMessage (agrees _)).bind fun _ t ran => ?_
  have same := onMessage_place keeps ran
  have state : t.state_ = p.state_ := congrArg Prod.fst same.1
  exact agrees_parseChunkHeader (state.trans chunk) (Searched.move searched same)
    (placed.move same)

/-- The walk of a write stays within the buffer. -/
theorem agrees_write {p : BasicParser d} {isRequest : Bool} {text : Octets}
    (searched : Searched p text) (placed : Placed p text.length) :
    Agrees (write isRequest text) (Http.write isRequest text) p := by
  unfold write Http.write
  refine .bind (.refl trivial) fun self t ran => ?_
  cases ran
  cases state : p.state_ with
  | header =>
    rw [Searched, state] at searched
    rw [Placed, state] at placed
    refine .bind (Agrees.onMessage (agrees_modify _ _)) fun _ t ran => ?_
    cases ran
    exact agrees_parseHeader placed searched.2
  | body =>
    refine .bind (Agrees.onMessage (agrees_maybeDoBodyIndirect _)) fun _ t _ => ?_
    exact agrees_data (fun p => Agrees.onMessage
      ((agrees_invoke _ _).bind fun _ t _ => agrees_modify _ _)) text t
  | body_to_eof =>
    refine .bind (Agrees.onMessage (agrees_maybeDoBodyIndirect _)) fun _ t _ => ?_
    exact (agrees_modify _ _).bind fun _ t _ => (Agrees.onMessage (agrees_invoke _ _)).bind
      fun _ t _ => agrees_pure _ _
  | chunk_header =>
    exact agrees_announced agrees_maybeDoBodyIndirect maybeDoBodyIndirect_place state searched
      placed
  | chunk_body => exact agrees_data (fun p => agrees_modify _ _) text p
  | complete => exact agrees_pure _ _

/-- The walk of a write to a direct parser stays within the buffer. -/
theorem agrees_writeDirect {p : BasicParser d} {isRequest : Bool} {text : Octets}
    (searched : Searched p text) (placed : Placed p text.length)
    (headed : p.state_ = .header ∨ p.state_ = .chunk_header) :
    Agrees (writeDirect isRequest text) (Http.writeDirect isRequest text) p := by
  unfold writeDirect Http.writeDirect
  refine .bind (.refl trivial) fun self t ran => ?_
  cases ran
  rcases headed with state | state
  · rw [Searched, state] at searched
    rw [Placed, state] at placed
    simp only [state, beq_self_eq_true, ↓reduceIte]
    refine .bind (Agrees.onMessage (agrees_modify _ _)) fun _ t ran => ?_
    cases ran
    exact agrees_parseHeader placed searched.2
  · rw [if_neg (by simp [state]), if_neg (by simp [state])]
    exact agrees_announced agrees_maybeDoBodyDirect maybeDoBodyDirect_place state searched placed

end Beast.Http.Guarded
