import Beast.Http.Rescan

/-! What a parser remembers from one buffer to the next stays right. -/

namespace Beast.Http

variable {d : Derived}

/-- Whether the last chunk is being parsed. -/
abbrev Message.finalChunk (m : Message d) : Bool :=
  m.f_.flagFinalChunk

/-- Where a parser stands: what it expects next, and how it looks for it. -/
abbrev Message.place (m : Message d) : ParseState × Bool × Bool :=
  (m.state_, m.f_.flagExpectCRLF, m.f_.flagFinalChunk)

/-- A call of the derived class touches nothing but the derived class. -/
theorem invoke_spec (c : Callback) (m : Message d) :
    (Step.run (invoke c) m).2 = { m with impl := (d.call m.impl c).1 } := by
  unfold invoke Step.run
  dsimp only
  cases (d.call m.impl c).2 <;> rfl

theorem invoke_place (c : Callback) : Step.Keeps Message.place (invoke (d := d) c) := by
  intro m
  rw [invoke_spec]

theorem invoke_keeps (c : Callback) : Step.Keeps Message.finalChunk (invoke (d := d) c) :=
  (invoke_place c).comp (·.2.2)

section Untouched

variable {γ : Type} {see : Message d → γ}

theorem fail_keeps {α : Type} (code : ErrorCode) : Step.Keeps see (fail (α := α) code) :=
  Step.keeps_stop _

theorem setFlags_keeps {f : Flags → Flags} (same : ∀ m, see { m with f_ := f m.f_ } = see m) :
    Step.Keeps see (setFlags f) :=
  Step.keeps_modify same

/-- Splitting off a line touches nothing. -/
theorem readLine_keeps (it : Octets) : Step.Keeps see (readLine it) := by
  unfold readLine
  split
  · exact fail_keeps _
  · exact Step.keeps_stop _
  · exact Step.keeps_pure _

theorem isFold_keeps (it : Octets) : Step.Keeps see (isFold it) :=
  Step.keeps_bind (Step.keeps_lift _) fun _ => Step.keeps_pure _

theorem skipFolds_keeps (fuel : Nat) (line it : Octets) :
    Step.Keeps see (skipFolds fuel line it) := by
  induction fuel generalizing line it with
  | zero => exact Step.keeps_stop _
  | succ fuel ih =>
    unfold skipFolds
    dsimp only
    repeat' first
      | with_reducible first
        | exact Step.keeps_pure _
        | exact isFold_keeps _
        | exact readLine_keeps _
        | exact ih _ _
      | refine Step.keeps_bind ?_ fun _ => ?_
      | split

theorem joinFolds_keeps (fuel : Nat) (s it : Octets) :
    Step.Keeps see (joinFolds fuel s it) := by
  induction fuel generalizing s it with
  | zero => exact Step.keeps_stop _
  | succ fuel ih =>
    unfold joinFolds
    repeat' first
      | with_reducible first
        | exact Step.keeps_pure _
        | exact isFold_keeps _
        | exact readLine_keeps _
        | exact ih _ _
      | refine Step.keeps_bind ?_ fun _ => ?_
      | split

end Untouched

/-- A start line does not set the mark of the last chunk. -/
theorem parseStartline_keeps (isRequest : Bool) (it : Octets) :
    Step.Keeps Message.finalChunk (parseStartline (d := d) isRequest it) := by
  unfold parseStartline parseRequestLine parseStatusLine
  repeat' first
    | with_reducible first
      | exact Step.keeps_pure _
      | exact Step.keeps_lift _
      | exact invoke_keeps _
      | exact fail_keeps _
    | refine Step.keeps_bind ?_ fun _ => ?_
    | split

/-- No token of a connection field says where the parser stands. -/
theorem connectionTokens_place (list : List Octets) (m : Message d) :
    Message.place { m with f_ := list.foldl connectionToken m.f_ } = m.place := by
  -- The induction is on the tokens, each of which sets one flag at most.
  induction list generalizing m with
  | nil => rfl
  | cons s list ih =>
    rw [List.foldl_cons, ih { m with f_ := connectionToken m.f_ s }]
    unfold connectionToken
    split
    · rfl
    · split
      · rfl
      · split <;> rfl

/-- No field moves the parser. -/
theorem doField_place (name value : Octets) :
    Step.Keeps Message.place (doField (d := d) name value) := by
  unfold doField
  -- No branch sets the state, or a flag that says where the parser stands.
  repeat' first
    | with_reducible first
      | exact Step.keeps_pure _
      | exact Step.keeps_get
      | exact fail_keeps _
      | exact setFlags_keeps fun _ => rfl
      | exact setFlags_keeps (connectionTokens_place _)
      | exact Step.keeps_modify fun _ => rfl
    | refine Step.keeps_bind ?_ fun _ => ?_
    | split

/-- No fields move the parser. -/
theorem parseFields_place (fuel : Nat) (it : Octets) :
    Step.Keeps Message.place (parseFields (d := d) fuel it) := by
  -- The induction is on the rounds of the loop, one for each field.
  induction fuel generalizing it with
  | zero => exact Step.keeps_stop _
  | succ fuel ih =>
    unfold parseFields
    repeat' first
      | with_reducible first
        | exact Step.keeps_pure _
        | exact Step.keeps_lift _
        | exact fail_keeps _
        | exact invoke_place _
        | exact doField_place _ _
        | exact isFold_keeps _
        | exact readLine_keeps _
        | exact skipFolds_keeps _ _ _
        | exact joinFolds_keeps _ _ _
        | exact ih _
      | refine Step.keeps_bind ?_ fun _ => ?_
      | split

/-- No fields set the mark of the last chunk. -/
theorem parseFields_keeps (fuel : Nat) (it : Octets) :
    Step.Keeps Message.finalChunk (parseFields (d := d) fuel it) :=
  (parseFields_place fuel it).comp (·.2.2)

theorem doHeader_keeps (isRequest : Bool) (status : Nat) :
    Step.Keeps Message.finalChunk (doHeader (d := d) isRequest status) := by
  unfold doHeader doHeaderRequest doHeaderResponse
  repeat' first
    | with_reducible first
      | exact Step.keeps_get
      | exact setFlags_keeps fun _ => rfl
      | exact Step.keeps_modify fun _ => rfl
    | refine Step.keeps_bind ?_ fun _ => ?_
    | split

/-- A header does not set the mark of the last chunk. -/
theorem parseHeaderBlock_keeps (isRequest : Bool) (block : Octets) :
    Step.Keeps Message.finalChunk (parseHeaderBlock (d := d) isRequest block) := by
  unfold parseHeaderBlock
  repeat' first
    | with_reducible first
      | exact Step.keeps_pure _
      | exact Step.keeps_get
      | exact invoke_keeps _
      | exact setFlags_keeps fun _ => rfl
      | exact parseStartline_keeps _ _
      | exact parseFields_keeps _ _
      | exact doHeader_keeps _ _
    | refine Step.keeps_bind ?_ fun _ => ?_
    | split

theorem doComplete_keeps : Step.Keeps Message.finalChunk (doComplete (d := d)) :=
  Step.keeps_bind (invoke_keeps _) fun _ => Step.keeps_modify fun _ => rfl

theorem passData_keeps (body : Octets) :
    Step.Keeps Message.finalChunk (passData (d := d) body) :=
  Step.keeps_bind (invoke_keeps _) fun _ => Step.keeps_modify fun _ => rfl

/-- Opening a chunk does not set the mark of the last chunk. -/
theorem openChunk_keeps (p it : Octets) (v term : Nat) :
    Step.Keeps Message.finalChunk (openChunk (d := d) p it v term) := by
  unfold openChunk
  repeat' first
    | with_reducible first
      | exact Step.keeps_pure _
      | exact Step.keeps_lift _
      | exact fail_keeps _
      | exact invoke_keeps _
      | exact Step.keeps_modify fun _ => rfl
    | refine Step.keeps_bind ?_ fun _ => ?_
    | split

/-- A parser that starts its searches at the front fits any text. -/
theorem searched_fresh {p : BasicParser d} (front : p.skip_ = 0)
    (unfinished : p.f_.flagFinalChunk = false) (text : Octets) : Searched p text := by
  unfold Searched
  cases p.state_ <;> simp [front, unfinished]

/-- Only the state, two flags and the places of the searches say whether a text fits. -/
theorem Searched.congr {p q : BasicParser d} {text : Octets} (searched : Searched p text)
    (state : q.state_ = p.state_) (final : q.f_.flagFinalChunk = p.f_.flagFinalChunk)
    (expect : q.f_.flagExpectCRLF = p.f_.flagExpectCRLF) (skip : q.skip_ = p.skip_)
    (x : q.x_ = p.x_) : Searched q text := by
  unfold Searched at searched ⊢
  rw [state, final, expect, skip, x]
  exact searched

/-- A sequence that starts on the message goes on where the message step did. -/
theorem onMessage_bind_ok {α β : Type} {m : MessageStep d α} {f : α → ParserStep d β}
    {p q : BasicParser d} {b : β} (ran : Step.run (onMessage m >>= f) p = (.ok b, q)) :
    ∃ a s, Step.run m p.toMessage = (.ok a, s) ∧
      Step.run (f a) { p with toMessage := s } = (.ok b, q) := by
  rw [Step.run_bind, onMessage, Step.run_zoom] at ran
  rcases first : Step.run m p.toMessage with ⟨r, s⟩
  rw [first] at ran
  cases r with
  | error halt => simp at ran
  | ok a => exact ⟨a, s, rfl, ran⟩

/-- The parse of a header leaves a memory that fits what it leaves of the text. -/
theorem remembers_parseHeader {isRequest : Bool} {p q : BasicParser d} {text : Octets} {n : Nat}
    (header : p.state_ = .header) (remembers : Remembers p text)
    (ran : Step.run (parseHeader isRequest text) p = (.ok n, q)) :
    Remembers q (text.drop n) := by
  have whole := remembers []
  rw [Searched, header, List.append_nil] at whole
  obtain ⟨unfinished, searched⟩ := whole
  unfold parseHeader at ran
  rw [Step.run_get_bind] at ran
  by_cases short : text.length < 4
  · rw [if_pos short] at ran
    cases ran
    exact remembers
  rw [if_neg short] at ran
  cases found : findEom (text.drop p.skip_) with
  | bad => simp [found, fail] at ran
  | need =>
    -- The last three octets may belong to the empty line, and are searched again.
    simp only [found, Step.run_set_bind] at ran
    cases ran
    intro more
    rw [Searched, header]
    rw [found] at searched
    exact ⟨unfinished, findEom_resume searched.symm (by dsimp only; omega) more⟩
  | found k =>
    simp only [found, Step.run_set_bind] at ran
    obtain ⟨_, s, block, rest⟩ := onMessage_bind_ok ran
    cases rest
    -- Behind the header nothing is searched, and the mark is as it was.
    have same := parseHeaderBlock_keeps isRequest (text.take (p.skip_ + k)) p.toMessage
    rw [block] at same
    exact fun more => searched_fresh rfl (same.trans unfinished) _

/-- Passing on data moves no search. -/
theorem remembers_data {finish : ParserStep d Unit} {p q : BasicParser d} {text : Octets}
    {n : Nat} (front : p.skip_ = 0) (unfinished : p.f_.flagFinalChunk = false)
    (finishes : ∀ p q : BasicParser d, Step.run finish p = (.ok (), q) →
      q.skip_ = p.skip_ ∧ q.f_.flagFinalChunk = p.f_.flagFinalChunk)
    (ran : Step.run (do
      let self ← get
      let n := min self.len_ text.length
      let body := text.take n
      set { self with body_ := body }
      onMessage (passData body)
      if (← get).len_ == 0 then do
        finish
        return n
      else return n) p = (.ok n, q)) : q.skip_ = 0 ∧ q.f_.flagFinalChunk = false := by
  simp only [Step.run_get_bind, Step.run_set_bind] at ran
  obtain ⟨_, s, passed, rest⟩ := onMessage_bind_ok ran
  -- Neither the data nor its end moves a search.
  have same := passData_keeps (text.take (min p.len_ text.length)) p.toMessage
  rw [passed] at same
  simp only [Step.run_get_bind] at rest
  split at rest
  · rw [Step.run_bind] at rest
    split at rest
    · rename_i finished
      cases rest
      obtain ⟨skip, final⟩ := finishes _ _ finished
      exact ⟨skip.trans front, final.trans (same.trans unfinished)⟩
    · simp at rest
  · cases rest
    exact ⟨front, same.trans unfinished⟩

/-- The octets behind the earlier line ending go on as the text does. -/
theorem chunkBase_append {expect : Bool} {text : Octets} (more : Octets)
    (enough : expect = true → 2 ≤ text.length) :
    chunkBase expect (text ++ more) = chunkBase expect text ++ more := by
  unfold chunkBase
  split
  · rename_i expected
    exact List.drop_append_of_le_length (enough expected)
  · rfl

/-- Two octets that are a line ending are read as one when the text goes on. -/
theorem parseCrlf_append {text : Octets} (ended : parseCrlf text = .ok (true, text.drop 2))
    (more : Octets) : parseCrlf (text ++ more) = .ok (true, (text ++ more).drop 2) := by
  obtain _ | ⟨c, _ | ⟨e, it⟩⟩ := text
  · simp [parseCrlf] at ended
  · by_cases first : c = 13 <;> simp [parseCrlf, first] at ended
  · rw [parseCrlf_two] at ended
    rw [List.cons_append, List.cons_append, parseCrlf_two]
    by_cases first : c = 13 <;> by_cases second : e = 10 <;> simp_all

/-- A line ending that was read takes two octets. -/
theorem parseCrlf_drop {text it : Octets} (read : parseCrlf text = .ok (true, it)) :
    it = text.drop 2 := by
  obtain _ | ⟨c, _ | ⟨e, it⟩⟩ := text
  · simp [parseCrlf] at read
  · by_cases first : c = 13 <;> simp [parseCrlf, first] at read
  · rw [parseCrlf_two] at read
    split at read
    · split at read
      · simpa using read.symm
      · simp at read
    · simp at read

/-- The line of the last chunk stays where it is when the text goes on. -/
theorem LastLine.append {expect : Bool} {text : Octets} {x : Nat} (last : LastLine expect text x)
    (more : Octets) : LastLine expect (text ++ more) x := by
  obtain ⟨enough, ended, k, it, line, size, placed⟩ := last
  -- The end of the chunk before lies in front of the line, and stays there.
  have base : chunkBase expect (text ++ more) = chunkBase expect text ++ more := by
    refine chunkBase_append more fun expected => ?_
    simp only [chunkBase, expected, ↓reduceIte, List.length_drop] at enough
    omega
  refine ⟨?_, fun expected => parseCrlf_append (ended expected) more, k, it ++ more, ?_, ?_, ?_⟩
  · rw [base, List.length_append]
    omega
  · rw [base, findEol_append (by simp [line]), line]
  · rw [base, parseHex_append size more]
  · rw [base, List.length_append, List.length_append]
    omega

/-- A line that opens with a number has at least one octet in front of its ending. -/
theorem findEol_number {text it : Octets} {n k : Nat} (line : findEol text = .found k)
    (size : parseHex text = .ok (some n, it)) : 3 ≤ k := by
  cases text with
  | nil => simp [findEol] at line
  | cons c text =>
    -- The first octet is a digit, and not the end of the line.
    have digit : c ≠ 13 := by
      rintro rfl
      rw [parseHex, unhex_return] at size
      simp at size
    rw [findEol_cons digit] at line
    cases rest : findEol text with
    | need => simp [rest, Scan.shift] at line
    | bad => simp [rest, Scan.shift] at line
    | found j =>
      have bounds := findEol_bounds rest
      simp only [rest, Scan.shift, Scan.found.injEq] at line
      omega

/-- The search for the end of the trailer may go on from the last three octets. -/
theorem LastLine.resume {expect : Bool} {text : Octets} {x : Nat} (last : LastLine expect text x)
    (unsettled : findEom (text.drop x) = .need) (more : Octets) :
    (findEom ((text ++ more).drop (text.length - 3))).shift (text.length - 3) =
      (findEom ((text ++ more).drop x)).shift x := by
  obtain ⟨enough, ended, k, it, line, size, placed⟩ := last
  have long := findEol_number line size
  have bounds := findEol_bounds line
  have within : (chunkBase expect text).length ≤ text.length := by
    unfold chunkBase
    split <;> simp
  -- The search for the trailer starts at the end of the line.
  have start : (text ++ more).drop x = text.drop x ++ more :=
    List.drop_append_of_le_length (by omega)
  by_cases behind : x + 3 ≤ text.length
  · -- Three octets or more follow the line, and none of them settled the search.
    have resumed := @findEom_resume _ unsettled (text.length - 3 - x)
      (by rw [List.length_drop]; omega) more
    rw [← start, List.drop_drop, show x + (text.length - 3 - x) = text.length - 3 by omega]
      at resumed
    rw [← resumed, shift_shift, show x + (text.length - 3 - x) = text.length - 3 by omega]
  · -- The line ends the text, so the search starts one octet in front of the line ending.
    obtain ⟨c, there, plain⟩ := findEol_plain line (show k - 3 + 2 < k by omega)
    -- The octet in front is the last one of the size or the extension, which ends no line.
    have place : text[text.length - 3]? = some c := by
      have offset : (chunkBase expect text)[k - 3]? =
          text[text.length - (chunkBase expect text).length + (k - 3)]? := by
        unfold chunkBase
        split
        · rw [List.getElem?_drop, List.length_drop]
          congr 1
          rename_i expected
          simp only [chunkBase, expected, ↓reduceIte, List.length_drop] at enough
          omega
        · simp
      rw [← there, offset]
      congr 1
      omega
    have front : (text ++ more).drop (text.length - 3) = c :: (text ++ more).drop x := by
      obtain ⟨inside, value⟩ := List.getElem?_eq_some_iff.mp place
      rw [List.drop_eq_getElem_cons (by rw [List.length_append]; omega),
        List.getElem_append_left inside, value]
      congr 2
      omega
    rw [front, findEom_cons plain, shift_shift]
    congr 1
    omega

/-- A message that is complete is marked so. -/
theorem doComplete_state {m s : Message d} (ran : Step.run doComplete m = (.ok (), s)) :
    s.state_ = .complete := by
  obtain ⟨_, t, _, rest⟩ := Step.bind_ok ran
  cases rest
  rfl

/-- What `parseTrailer` does behind the extension. -/
def parseTrailerBehind (p : Octets) : MessageStep d Unit := do
  let (true, p) ← Step.lift (parseCrlf p) | fail .bad_chunk
  let _ ← parseFields (p.length + 1) p
  doComplete

/-- The end of the trailer completes the message. -/
theorem parseTrailer_state {block : Octets} {offset x : Nat} {m s : Message d}
    (ran : Step.run (parseTrailer block offset x) m = (.ok (), s)) : s.state_ = .complete := by
  -- With an extension or without, the message is completed last.
  have behind : ∀ {p : Octets} {m : Message d},
      Step.run (parseTrailerBehind p) m = (.ok (), s) → s.state_ = .complete := by
    intro p m ran
    obtain ⟨⟨ended, p⟩, t, _, ran⟩ := Step.bind_ok ran
    cases ended with
    | false => simp [fail] at ran
    | true =>
      obtain ⟨p, t, _, ran⟩ := Step.bind_ok ran
      exact doComplete_state ran
  unfold parseTrailer at ran
  obtain ⟨c, t, _, ran⟩ := Step.bind_ok ran
  dsimp only at ran
  split at ran
  · obtain ⟨_, t, _, ran⟩ := Step.bind_ok ran
    obtain ⟨_, t, _, ran⟩ := Step.bind_ok ran
    exact behind ran
  · exact behind ran

/-- The search for the end of the trailer leaves a memory that fits. -/
theorem remembers_parseLastChunk {p q : BasicParser d} {first : Octets} {m n offset : Nat}
    (chunk : p.state_ = .chunk_header) (final : p.f_.flagFinalChunk = true)
    (last : LastLine p.f_.flagExpectCRLF first p.x_)
    (searched : ∀ more, (findEom ((first ++ more).drop p.skip_)).shift p.skip_ =
      (findEom ((first ++ more).drop p.x_)).shift p.x_)
    (ran : Step.run (parseLastChunk first m offset) p = (.ok n, q)) :
    Remembers q (first.drop n) := by
  have here := searched []
  rw [List.append_nil] at here
  unfold parseLastChunk at ran
  rw [Step.run_get_bind] at ran
  cases found : findEom (first.drop p.skip_) with
  | bad => simp [found, fail] at ran
  | need =>
    simp only [found] at ran
    rw [found] at here
    -- What was searched from the later place says the same as from the earlier one.
    have unsettled : findEom (first.drop p.x_) = .need := shift_eq_need.mp here.symm
    split at ran
    · rw [Step.run_set_bind] at ran
      cases ran
      intro more
      rw [Searched, chunk]
      dsimp only
      rw [if_pos final]
      exact ⟨last.append more, last.resume unsettled more⟩
    · cases ran
      intro more
      rw [Searched, chunk]
      dsimp only
      rw [if_pos final]
      exact ⟨last.append more, searched more⟩
  | found k =>
    simp only [found] at ran
    obtain ⟨_, s, trailer, rest⟩ := onMessage_bind_ok ran
    cases rest
    intro more
    rw [Searched, parseTrailer_state trailer]
    trivial

/-- The size of a chunk leaves a memory that fits. -/
theorem remembers_parseChunkSize {p q : BasicParser d} {first : Octets} {n k : Nat}
    (chunk : p.state_ = .chunk_header) (unfinished : p.f_.flagFinalChunk = false)
    (enough : 2 ≤ (chunkBase p.f_.flagExpectCRLF first).length)
    (ended : p.f_.flagExpectCRLF = true → parseCrlf first = .ok (true, first.drop 2))
    (line : findEol (chunkBase p.f_.flagExpectCRLF first) = .found k)
    (ran : Step.run (parseChunkSize first (chunkBase p.f_.flagExpectCRLF first) k) p =
      (.ok n, q)) : Remembers q (first.drop n) := by
  unfold parseChunkSize at ran
  obtain ⟨⟨v, it⟩, t, size, ran⟩ := Step.bind_ok ran
  rw [Step.run_lift] at size
  -- The size is read from a line that is complete.
  cases size' : parseHex (chunkBase p.f_.flagExpectCRLF first) with
  | error halt => simp [size'] at size
  | ok r =>
    rw [size'] at size
    cases size
    cases v with
    | none => simp [fail] at ran
    | some v =>
      dsimp only at ran
      split at ran
      · obtain ⟨_, s, opened, rest⟩ := onMessage_bind_ok ran
        rw [Step.run_modify_bind] at rest
        cases rest
        have same := openChunk_keeps (chunkBase p.f_.flagExpectCRLF first) it v k p.toMessage
        rw [opened] at same
        exact fun more => searched_fresh rfl (same.trans unfinished) _
      · -- The last chunk is marked, and both places are that of its line ending.
        rename_i zero
        obtain rfl : v = 0 := by simpa using zero
        rw [Step.run_modify_bind] at ran
        obtain ⟨_, s, marked, rest⟩ := onMessage_bind_ok ran
        cases marked
        refine remembers_parseLastChunk ?_ ?_ ?_ ?_ rest
        · exact chunk
        · rfl
        · exact ⟨enough, ended, k, it, line, size', rfl⟩
        · exact fun _ => rfl

/-- The line of a chunk leaves a memory that fits. -/
theorem remembers_parseChunkLine {p q : BasicParser d} {first : Octets} {n : Nat}
    (chunk : p.state_ = .chunk_header) (remembers : Remembers p first)
    (ended : p.f_.flagExpectCRLF = true → parseCrlf first = .ok (true, first.drop 2))
    (present : p.f_.flagExpectCRLF = true → 2 ≤ first.length)
    (ran : Step.run (parseChunkLine first (chunkBase p.f_.flagExpectCRLF first)) p =
      (.ok n, q)) : Remembers q (first.drop n) := by
  have whole := remembers []
  rw [Searched, chunk, List.append_nil] at whole
  dsimp only at whole
  unfold parseChunkLine at ran
  rw [Step.run_get_bind] at ran
  by_cases finished : p.f_.flagFinalChunk = true
  · -- The size is known, and only the end of the trailer is searched.
    rw [if_pos finished] at whole
    rw [if_neg (by simpa using finished)] at ran
    obtain ⟨⟨v, it⟩, t, size, ran⟩ := Step.bind_ok ran
    obtain ⟨k, it', line, zero, placed⟩ := whole.1.line
    rw [Step.run_lift, zero] at size
    cases size
    refine remembers_parseLastChunk chunk finished whole.1 (fun more => ?_) ran
    have searched := remembers more
    rw [Searched, chunk] at searched
    dsimp only at searched
    rw [if_pos finished] at searched
    exact searched.2
  · rw [if_neg finished] at whole
    rw [if_pos (by simpa using finished)] at ran
    by_cases short : (chunkBase p.f_.flagExpectCRLF first).length < 2
    · rw [if_pos short] at ran
      cases ran
      exact remembers
    rw [if_neg short] at ran
    cases found : findEol ((chunkBase p.f_.flagExpectCRLF first).drop p.skip_) with
    | bad => simp [found, fail] at ran
    | need =>
      -- The last octet may be the carriage return of the line, and is searched again.
      simp only [found, Step.run_set_bind] at ran
      cases ran
      intro more
      rw [Searched, chunk]
      dsimp only
      rw [if_neg finished, List.drop_zero, chunkBase_append more present]
      rw [found] at whole
      exact findEol_resume whole.symm (by omega) more
    | found k =>
      simp only [found] at ran
      rw [found] at whole
      exact remembers_parseChunkSize chunk (by simpa using finished) (by omega) ended
        whole.symm ran

/-- The header of a chunk leaves a memory that fits. -/
theorem remembers_parseChunkHeader {p q : BasicParser d} {first : Octets} {n : Nat}
    (chunk : p.state_ = .chunk_header) (remembers : Remembers p first)
    (ran : Step.run (parseChunkHeader first) p = (.ok n, q)) : Remembers q (first.drop n) := by
  unfold parseChunkHeader at ran
  rw [Step.run_get_bind] at ran
  -- Behind a chunk, the end of its data comes first.
  by_cases expect : p.f_.flagExpectCRLF = true
  · rw [if_pos expect] at ran
    by_cases short : first.length < 2
    · rw [if_pos short] at ran
      cases ran
      exact remembers
    rw [if_neg short] at ran
    obtain ⟨⟨ended, it⟩, t, crlf, ran⟩ := Step.bind_ok ran
    rw [Step.run_lift] at crlf
    cases ended with
    | false => simp [fail] at ran
    | true =>
      cases crlf' : parseCrlf first with
      | error halt => simp [crlf'] at crlf
      | ok r =>
        rw [crlf'] at crlf
        cases crlf
        obtain rfl : it = first.drop 2 := parseCrlf_drop crlf'
        have base : first.drop 2 = chunkBase p.f_.flagExpectCRLF first := by
          simp [chunkBase, expect]
        dsimp only at ran
        rw [base] at ran
        exact remembers_parseChunkLine chunk remembers (fun _ => crlf') (fun _ => by omega) ran
  · rw [if_neg expect] at ran
    have base : chunkBase p.f_.flagExpectCRLF first = first := by simp [chunkBase, expect]
    have ran' : Step.run (parseChunkLine first (chunkBase p.f_.flagExpectCRLF first)) p =
        (.ok n, q) := by
      rw [base]
      exact ran
    exact remembers_parseChunkLine chunk remembers (fun expected => absurd expected expect)
      (fun expected => absurd expected expect) ran'

/-- A write leaves a memory that fits what it leaves of the buffer. -/
theorem remembers_write {isRequest : Bool} {p q : BasicParser d} {text : Octets} {n : Nat}
    (remembers : Remembers p text)
    (ran : Step.run (write isRequest text) p = (.ok n, q)) : Remembers q (text.drop n) := by
  have whole := remembers []
  rw [Searched] at whole
  -- The end of the message moves no search.
  have completes : ∀ p q : BasicParser d, Step.run (onMessage doComplete) p = (.ok (), q) →
      q.skip_ = p.skip_ ∧ q.f_.flagFinalChunk = p.f_.flagFinalChunk := by
    intro p q ran
    have same := doComplete_keeps p.toMessage
    rw [onMessage, Step.run_zoom, Prod.mk.injEq] at ran
    obtain ⟨_, rfl⟩ := ran
    exact ⟨rfl, same⟩
  unfold write at ran
  rw [Step.run_get_bind] at ran
  -- Only in front of a header or of a chunk is anything searched.
  cases state : p.state_ with
  | header =>
    simp only [state] at ran
    obtain ⟨_, s, begun, rest⟩ := onMessage_bind_ok ran
    cases begun
    refine remembers_parseHeader ?_ (fun more => ?_) rest
    · exact state
    · exact (remembers more).congr rfl rfl rfl rfl rfl
  | body =>
    simp only [state] at ran whole
    obtain ⟨_, s, begun, rest⟩ := onMessage_bind_ok ran
    have same := maybeDoBody_spec begun
    have kept : s.f_.flagFinalChunk = p.f_.flagFinalChunk := by rw [same]
    obtain ⟨front, unfinished⟩ := @remembers_data d (onMessage doComplete)
      { p with toMessage := s } q text n whole.1 (kept.trans whole.2) completes rest
    exact fun more => searched_fresh front unfinished _
  | body_to_eof =>
    simp only [state] at ran whole
    obtain ⟨_, s, begun, rest⟩ := onMessage_bind_ok ran
    have same := maybeDoBody_spec begun
    unfold parseBodyToEof at rest
    rw [Step.run_modify_bind] at rest
    obtain ⟨_, t, called, rest⟩ := onMessage_bind_ok rest
    cases rest
    have kept := invoke_keeps (.on_data text) s
    rw [called] at kept
    have announced : s.f_.flagFinalChunk = p.f_.flagFinalChunk := by rw [same]
    have unfinished : t.f_.flagFinalChunk = false := kept.trans (announced.trans whole.2)
    intro more
    refine searched_fresh ?_ ?_ _
    · exact whole.1
    · exact unfinished
  | chunk_header =>
    simp only [state] at ran
    obtain ⟨_, s, begun, rest⟩ := onMessage_bind_ok ran
    have same := maybeDoBody_spec begun
    refine remembers_parseChunkHeader ?_ (fun more => ?_) rest
    · rw [same]
      exact state
    · -- The announcement touches no flag that the memory depends on.
      refine (remembers more).congr ?_ ?_ ?_ rfl rfl <;> rw [same]
  | chunk_body =>
    simp only [state] at ran whole
    obtain ⟨front, unfinished⟩ := @remembers_data d
      (modify fun self : BasicParser d => { self with body_ := [], state_ := .chunk_header })
      p q text n
      whole.1 whole.2 (fun p q ran => by cases ran; exact ⟨rfl, rfl⟩) ran
    exact fun more => searched_fresh front unfinished _
  | complete =>
    simp only [state] at ran
    cases ran
    exact remembers

end Beast.Http
