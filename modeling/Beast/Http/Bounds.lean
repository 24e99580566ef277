import Beast.Http.Delivery
import Beast.Http.GuardedLaws
import Beast.Http.Read

/-! A parser that is given what it left, with more behind it, looks at nothing else. -/

namespace Beast.Http

open Guarded (Agrees Sound Placed)

variable {d : Derived}

section Refused

/-- Where the rest of the last chunk is refused, the parser stays where it stands. -/
theorem parseTrailer_refused (block : Octets) (offset x : Nat) :
    Step.KeepsStopped Message.place (parseTrailer (d := d) block offset x) := by
  have completes : Step.KeepsStopped Message.place (doComplete (d := d)) :=
    Step.keepsStopped_bind (invoke_place _) fun _ => Step.keepsStopped_modify _
  unfold parseTrailer
  refine Step.keepsStopped_bind (Step.keeps_lift _) fun c => ?_
  dsimp only
  -- Fields leave the parser in its place, and only the end of the message moves it.
  have behind : ∀ p : Octets,
      Step.KeepsStopped Message.place (parseTrailerBehind (d := d) p) := by
    intro p
    unfold parseTrailerBehind
    refine Step.keepsStopped_bind (Step.keeps_lift _) fun a => ?_
    split
    · exact Step.keepsStopped_bind (parseFields_place _ _) fun _ => completes
    · exact (fail_keeps _).stopped
  split
  · refine Step.keepsStopped_bind (Step.keeps_modify fun _ => rfl) fun _ => ?_
    refine Step.keepsStopped_bind (invoke_place _) fun _ => ?_
    exact Step.keepsStopped_bind (Step.keeps_pure _) fun p => behind p
  · exact Step.keepsStopped_bind (Step.keeps_pure _) fun p => behind p

/-- Where the line of a chunk is refused, the parser stays where it stands. -/
theorem openChunk_refused (p it : Octets) (v term : Nat) :
    Step.KeepsStopped Message.place (openChunk (d := d) p it v term) := by
  unfold openChunk
  refine Step.keepsStopped_bind (Step.keeps_lift _) fun c => ?_
  dsimp only
  -- The place is changed by the last step alone, which is not refused.
  split
  · refine Step.keepsStopped_bind (Step.keeps_modify fun _ => rfl) fun _ => ?_
    exact Step.keepsStopped_bind (invoke_place _) fun _ => Step.keepsStopped_modify _
  · split
    · exact Step.keepsStopped_bind (fail_keeps _) fun _ => Step.keepsStopped_modify _
    · exact Step.keepsStopped_modify _

/-- A step that stopped on the message stopped with the message as it left it. -/
theorem onMessage_bind_error {α β : Type} {m : MessageStep d α} {f : α → ParserStep d β}
    {p q : BasicParser d} {halt : Halt} (ran : Step.run (onMessage m >>= f) p = (.error halt, q)) :
    (∃ s, Step.run m p.toMessage = (.error halt, s) ∧ q = { p with toMessage := s }) ∨
    ∃ a s, Step.run m p.toMessage = (.ok a, s) ∧
      Step.run (f a) { p with toMessage := s } = (.error halt, q) := by
  rw [Step.run_bind, onMessage, Step.run_zoom] at ran
  rcases first : Step.run m p.toMessage with ⟨r, s⟩
  rw [first] at ran
  cases r with
  | error halt =>
    cases ran
    exact .inl ⟨s, rfl, rfl⟩
  | ok a => exact .inr ⟨a, s, rfl, ran⟩

/-- A memory that fits goes on to fit where the parser stands and searches as before. -/
theorem Remembers.move {p q : BasicParser d} {text : Octets} (remembers : Remembers p text)
    (same : q.place = p.place ∧ q.skip_ = p.skip_ ∧ q.x_ = p.x_) : Remembers q text :=
  fun more => Guarded.Searched.move (remembers more) same

/-- A header that is refused leaves a memory that fits. -/
theorem refused_parseHeader {isRequest : Bool} {p q : BasicParser d} {text : Octets} {halt : Halt}
    (header : p.state_ = .header) (remembers : Remembers p text)
    (ran : Step.run (parseHeader isRequest text) p = (.error halt, q)) : Remembers q text := by
  have whole := remembers []
  rw [Searched, header] at whole
  unfold parseHeader at ran
  rw [Step.run_get_bind] at ran
  split at ran
  · cases ran
  · -- The header may be malformed, or be refused as a whole.
    cases found : findEom (text.drop p.skip_) with
    | bad =>
      rw [found] at ran
      cases ran
      exact remembers
    | need =>
      rw [found] at ran
      cases ran
    | found k =>
      rw [found, Step.run_set_bind] at ran
      rcases onMessage_bind_error ran with ⟨s, block, rfl⟩ | ⟨_, s, _, rest⟩
      · have same := parseHeaderBlock_keeps isRequest (text.take (p.skip_ + k)) p.toMessage
        rw [block] at same
        exact fun more => searched_fresh rfl (same.trans whole.1) _
      · cases rest

/-- A last chunk that is refused leaves a memory that fits. -/
theorem refused_parseLastChunk {p q : BasicParser d} {first : Octets} {n offset : Nat}
    {halt : Halt} (remembers : Remembers p first)
    (ran : Step.run (parseLastChunk first n offset) p = (.error halt, q)) :
    Remembers q first := by
  unfold parseLastChunk at ran
  rw [Step.run_get_bind] at ran
  cases found : findEom (first.drop p.skip_) with
  | bad =>
    rw [found] at ran
    cases ran
    exact remembers
  | need =>
    rw [found] at ran
    dsimp only at ran
    -- A search that waits is no refusal.
    split at ran <;> cases ran
  | found k =>
    rw [found] at ran
    rcases onMessage_bind_error ran with ⟨s, trailer, rfl⟩ | ⟨_, s, _, rest⟩
    · exact remembers.move ⟨parseTrailer_refused _ _ _ _ _ _ trailer, rfl, rfl⟩
    · cases rest

/-- A size of a chunk that is refused leaves a memory that fits. -/
theorem refused_parseChunkSize {p q : BasicParser d} {first : Octets} {k : Nat} {halt : Halt}
    (chunk : p.state_ = .chunk_header) (remembers : Remembers p first)
    (enough : 2 ≤ (chunkBase p.f_.flagExpectCRLF first).length)
    (ended : p.f_.flagExpectCRLF = true → parseCrlf first = .ok (true, first.drop 2))
    (line : findEol (chunkBase p.f_.flagExpectCRLF first) = .found k)
    (ran : Step.run (parseChunkSize first (chunkBase p.f_.flagExpectCRLF first) k) p =
      (.error halt, q)) : Remembers q first := by
  unfold parseChunkSize at ran
  obtain ⟨⟨v, it⟩, size⟩ := parseHex_line line
  rw [size, Step.run_lift_ok_bind] at ran
  cases v with
  | none =>
    cases ran
    exact remembers
  | some v =>
    dsimp only at ran
    split at ran
    · rcases onMessage_bind_error ran with ⟨s, opened, rfl⟩ | ⟨_, s, _, rest⟩
      · exact remembers.move ⟨openChunk_refused _ _ _ _ _ _ _ opened, rfl, rfl⟩
      · cases rest
    · -- The last chunk is marked, and both places are that of its line ending.
      rename_i zero
      obtain rfl : v = 0 := by simpa using zero
      rw [Step.run_modify_bind] at ran
      rcases onMessage_bind_error ran with ⟨s, marked, _⟩ | ⟨_, s, marked, rest⟩
      · cases marked
      · cases marked
        refine refused_parseLastChunk (fun more => ?_) rest
        have last : LastLine p.f_.flagExpectCRLF first
            (first.length - (chunkBase p.f_.flagExpectCRLF first).length + k - 2) :=
          ⟨enough, ended, k, it, line, size, rfl⟩
        rw [Searched]
        simp only [chunk, ↓reduceIte]
        exact ⟨last.append more, trivial⟩

/-- A line of a chunk that is refused leaves a memory that fits. -/
theorem refused_parseChunkLine {p q : BasicParser d} {first : Octets} {halt : Halt}
    (chunk : p.state_ = .chunk_header) (remembers : Remembers p first)
    (ended : p.f_.flagExpectCRLF = true → parseCrlf first = .ok (true, first.drop 2))
    (ran : Step.run (parseChunkLine first (chunkBase p.f_.flagExpectCRLF first)) p =
      (.error halt, q)) : Remembers q first := by
  have whole := remembers []
  rw [Searched, chunk, List.append_nil] at whole
  dsimp only at whole
  unfold parseChunkLine at ran
  rw [Step.run_get_bind] at ran
  -- The line of the last chunk is read again, and any other for the first time.
  by_cases finished : p.f_.flagFinalChunk = true
  · rw [if_pos finished] at whole
    rw [if_neg (by simpa using finished)] at ran
    obtain ⟨k, it, line, size, _⟩ := whole.1.line
    rw [size, Step.run_lift_ok_bind] at ran
    exact refused_parseLastChunk remembers ran
  · rw [if_neg finished] at whole
    rw [if_pos (by simpa using finished)] at ran
    split at ran
    · cases ran
    · cases found : findEol ((chunkBase p.f_.flagExpectCRLF first).drop p.skip_) with
      | bad =>
        rw [found] at ran
        cases ran
        exact remembers
      | need =>
        rw [found] at ran
        cases ran
      | found k =>
        rw [found] at ran whole
        exact refused_parseChunkSize chunk remembers (by omega) ended whole.symm ran

/-- A header of a chunk that is refused leaves a memory that fits. -/
theorem refused_parseChunkHeader {p q : BasicParser d} {first : Octets} {halt : Halt}
    (chunk : p.state_ = .chunk_header) (remembers : Remembers p first)
    (ran : Step.run (parseChunkHeader first) p = (.error halt, q)) : Remembers q first := by
  unfold parseChunkHeader at ran
  rw [Step.run_get_bind] at ran
  -- The line starts behind the end of the chunk before, where there was one.
  have base : ∀ expect : Bool, p.f_.flagExpectCRLF = expect →
      chunkBase p.f_.flagExpectCRLF first = if expect then first.drop 2 else first := by
    rintro _ rfl
    rfl
  by_cases expect : p.f_.flagExpectCRLF = true
  · rw [if_pos expect] at ran
    split at ran
    · cases ran
    · cases read : parseCrlf first with
      | error halt =>
        rw [read] at ran
        cases ran
        exact remembers
      | ok a =>
        obtain ⟨ended, it⟩ := a
        rw [read, Step.run_lift_ok_bind] at ran
        cases ended with
        | false =>
          cases ran
          exact remembers
        | true =>
          obtain rfl := parseCrlf_drop read
          have ran' : Step.run (parseChunkLine first (chunkBase p.f_.flagExpectCRLF first)) p =
              (.error halt, q) := by
            rw [base true expect]
            exact ran
          exact refused_parseChunkLine chunk remembers (fun _ => read) ran'
  · rw [if_neg expect] at ran
    have ran' : Step.run (parseChunkLine first (chunkBase p.f_.flagExpectCRLF first)) p =
        (.error halt, q) := by
      rw [base false (by simpa using expect)]
      exact ran
    exact refused_parseChunkLine chunk remembers (fun expected => absurd expected expect) ran'

end Refused

section Left

/-- What is left of a text that a write took octets from, or refused. -/
def unconsumed : Except Halt Nat → Octets → Octets
  | .ok n, text => text.drop n
  | .error _, text => text

/-- A header, or one that is refused, leaves a memory that fits. -/
theorem left_parseHeader {isRequest : Bool} {p q : BasicParser d} {text : Octets}
    {r : Except Halt Nat} (header : p.state_ = .header) (remembers : Remembers p text)
    (ran : Step.run (parseHeader isRequest text) p = (r, q)) :
    Remembers q (unconsumed r text) := by
  -- A write takes octets, or it is refused.
  cases r with
  | ok n => exact remembers_parseHeader header remembers ran
  | error halt => exact refused_parseHeader header remembers ran

/-- A header of a chunk, or one that is refused, leaves a memory that fits. -/
theorem left_parseChunkHeader {announce : MessageStep d Unit}
    (keeps : Step.Keeps Message.place announce) {p q : BasicParser d} {text : Octets}
    {r : Except Halt Nat} (chunk : p.state_ = .chunk_header) (remembers : Remembers p text)
    (ran : Step.run (do onMessage announce; parseChunkHeader text) p = (r, q)) :
    Remembers q (unconsumed r text) := by
  rw [Step.run_bind] at ran
  rcases announced : Step.run (onMessage announce) p with ⟨_ | _, t⟩
  · -- The body is refused before the octets are looked at.
    rw [announced] at ran
    cases ran
    exact remembers.move (Guarded.onMessage_place keeps announced)
  · rw [announced] at ran
    have same := Guarded.onMessage_place keeps announced
    have state : t.state_ = p.state_ := congrArg Prod.fst same.1
    cases r with
    | ok n => exact remembers_parseChunkHeader (state.trans chunk) (remembers.move same) ran
    | error halt => exact refused_parseChunkHeader (state.trans chunk) (remembers.move same) ran

/-- A parser within a body has no search under way. -/
def Unsearched (p : BasicParser d) : Nat × Bool := (p.skip_, p.f_.flagFinalChunk)

theorem onMessage_unsearched {α : Type} {m : MessageStep d α}
    (keeps : Step.Keeps Message.finalChunk m) : Step.Keeps Unsearched (onMessage m) :=
  fun p => congrArg (p.skip_, ·) (keeps p.toMessage)

/-- Octets of a body are passed on without a search. -/
theorem data_unsearched {finish : ParserStep d Unit} (finishes : Step.Keeps Unsearched finish)
    (text : Octets) : Step.Keeps (Unsearched (d := d)) (do
      let self ← get
      let n := min self.len_ text.length
      let body := text.take n
      set { self with body_ := body }
      onMessage (passData body)
      if (← get).len_ == 0 then do
        finish
        return n
      else return n) := by
  intro p
  -- Neither the data nor its end moves a search.
  have passed : ∀ (n : Nat) (body : Octets), Step.Keeps (Unsearched (d := d)) (do
      onMessage (passData body)
      if (← get).len_ == 0 then do
        finish
        return n
      else return n) := by
    intro n body
    refine Step.keeps_bind (onMessage_unsearched (passData_keeps body)) fun _ =>
      Step.keeps_bind Step.keeps_get fun self => ?_
    split
    · exact Step.keeps_bind finishes fun _ => Step.keeps_pure _
    · exact Step.keeps_pure _
  exact passed _ _ { p with body_ := text.take (min p.len_ text.length) }

/-- A step within a body leaves a memory that fits anything. -/
theorem left_body {α : Type} {m : ParserStep d α} (keeps : Step.Keeps Unsearched m)
    {p q : BasicParser d} {r : Except Halt α} (front : p.skip_ = 0)
    (unfinished : p.f_.flagFinalChunk = false) (ran : Step.run m p = (r, q)) (text : Octets) :
    Remembers q text := by
  have same := keeps p
  rw [ran] at same
  simp only [Unsearched, Prod.mk.injEq] at same
  exact fun more => searched_fresh (same.1.trans front) (same.2.trans unfinished) _

/-- A write, refused or not, leaves a memory that fits what it leaves of the text. -/
theorem left_write {isRequest : Bool} {p q : BasicParser d} {text : Octets} {r : Except Halt Nat}
    (remembers : Remembers p text) (ran : Step.run (write isRequest text) p = (r, q)) :
    Remembers q (unconsumed r text) := by
  have whole := remembers []
  rw [Searched] at whole
  -- The announcement of a body moves no search.
  have announced : Step.Keeps (Unsearched (d := d)) (onMessage maybeDoBodyIndirect) :=
    onMessage_unsearched (Guarded.maybeDoBodyIndirect_place.comp (·.2.2))
  unfold write at ran
  rw [Step.run_get_bind] at ran
  cases state : p.state_ with
  | header =>
    rw [state] at ran
    refine left_parseHeader ?_ (remembers.move ?_) ran
    · exact state
    · exact ⟨rfl, rfl, rfl⟩
  | body =>
    rw [state] at ran whole
    refine left_body (Step.keeps_bind announced fun _ => ?_) whole.1 whole.2 ran _
    exact data_unsearched (onMessage_unsearched doComplete_keeps) text
  | body_to_eof =>
    rw [state] at ran whole
    refine left_body (Step.keeps_bind announced fun _ => ?_) whole.1 whole.2 ran _
    refine Step.keeps_bind (Step.keeps_modify fun _ => rfl) fun _ => ?_
    exact Step.keeps_bind (onMessage_unsearched (invoke_keeps _)) fun _ => Step.keeps_pure _
  | chunk_header =>
    rw [state] at ran
    exact left_parseChunkHeader Guarded.maybeDoBodyIndirect_place state remembers ran
  | chunk_body =>
    rw [state] at ran whole
    refine left_body (m := parseChunkBody text) ?_ whole.1 whole.2 ran _
    have finishes : Step.Keeps (Unsearched (d := d))
        (modify fun self => { self with body_ := [], state_ := .chunk_header } :
          ParserStep d PUnit) :=
      Step.keeps_modify fun _ => rfl
    exact data_unsearched finishes text
  | complete =>
    rw [state] at ran
    cases ran
    exact remembers

/-- A write to a direct parser leaves a memory that fits what it leaves of the text. -/
theorem left_writeDirect {isRequest : Bool} {p q : BasicParser d} {text : Octets}
    {r : Except Halt Nat} (headed : p.state_ = .header ∨ p.state_ = .chunk_header)
    (remembers : Remembers p text)
    (ran : Step.run (writeDirect isRequest text) p = (r, q)) :
    Remembers q (unconsumed r text) := by
  unfold writeDirect at ran
  rw [Step.run_get_bind] at ran
  rcases headed with state | state
  · rw [if_pos (by simp [state])] at ran
    refine left_parseHeader ?_ (remembers.move ?_) ran
    · exact state
    · exact ⟨rfl, rfl, rfl⟩
  · rw [if_neg (by simp [state])] at ran
    exact left_parseChunkHeader Guarded.maybeDoBodyDirect_place state remembers ran

end Left

section Placed

/-- Behind any text and two line endings, a search for the end of a header is settled. -/
theorem findEom_settled (text : Octets) : findEom (text ++ (crlf ++ crlf)) ≠ .need := by
  -- The search shortens the text by one octet, or by three.
  induction size : text.length using Nat.strong_induction_on generalizing text with
  | _ size ih =>
    rcases findEom_cases text with
      short | ⟨c, it, rfl, other⟩ | ⟨e, it, rfl, other⟩ | ⟨e, it, rfl, other⟩ | ⟨g, it, rfl⟩
    · rcases short with rfl | rfl | rfl | rfl <;> decide
    · rw [List.cons_append, findEom_cons other, Ne, shift_eq_need]
      exact ih it.length (by simp [← size]) it rfl
    · simp only [List.cons_append]
      rw [findEom_line other, Ne, shift_eq_need]
      exact ih it.length (by simp only [← size, List.length_cons]; omega) it rfl
    · simp only [List.cons_append]
      rw [findEom_bad other]
      nofun
    · simp only [List.cons_append]
      rw [findEom_empty]
      split <;> nofun

/-- Behind any text and a line ending, a search for the end of a line is settled. -/
theorem findEol_settled (text : Octets) : findEol (text ++ crlf) ≠ .need := by
  induction text with
  | nil => decide
  | cons c text ih =>
    by_cases ending : c = 13
    · subst ending
      cases text with
      | nil => decide
      | cons e text =>
        simp only [List.cons_append]
        rw [findEol_return]
        split <;> nofun
    · rw [List.cons_append, findEol_cons ending, Ne, shift_eq_need]
      exact ih

/-- A search for the end of a header that may go on anywhere has not gone past the text. -/
theorem findEom_placed {text : Octets} {skip x : Nat} (within : x ≤ text.length)
    (resumes : ∀ more, (findEom ((text ++ more).drop skip)).shift skip =
      (findEom ((text ++ more).drop x)).shift x) : skip ≤ text.length := by
  by_contra! past
  -- Behind two line endings one search is settled, and the other one comes to their end.
  have both := resumes (crlf ++ crlf)
  have settled := findEom_settled (text.drop x)
  rw [← List.drop_append_of_le_length within] at settled
  have left : (text ++ (crlf ++ crlf)).drop skip = (crlf ++ crlf).drop (skip - text.length) := by
    rw [List.drop_append, List.drop_eq_nil_of_le (by omega), List.nil_append]
  have unsettled : findEom ((crlf ++ crlf).drop (skip - text.length)) = .need := by
    have ahead : 1 ≤ skip - text.length := by omega
    generalize skip - text.length = k at ahead
    match k with
    | 1 | 2 | 3 => decide
    | k + 4 =>
      rw [List.drop_eq_nil_of_le (by simp [crlf])]
      rfl
  rw [left, unsettled] at both
  exact settled (shift_eq_need.mp both.symm)

/-- A search for the end of a line that may go on anywhere has not gone past the text. -/
theorem findEol_placed {text : Octets} {skip : Nat}
    (resumes : (findEol ((text ++ crlf).drop skip)).shift skip = findEol (text ++ crlf)) :
    skip ≤ text.length := by
  by_contra! past
  have left : (text ++ crlf).drop skip = crlf.drop (skip - text.length) := by
    rw [List.drop_append, List.drop_eq_nil_of_le (by omega), List.nil_append]
  have unsettled : findEol (crlf.drop (skip - text.length)) = .need := by
    have ahead : 1 ≤ skip - text.length := by omega
    generalize skip - text.length = k at ahead
    match k with
    | 1 => decide
    | k + 2 =>
      rw [List.drop_eq_nil_of_le (by simp [crlf])]
      rfl
  rw [left, unsettled] at resumes
  exact findEol_settled text resumes.symm

/-- A memory that fits however the text goes on lies within the text. -/
theorem Remembers.placed {p : BasicParser d} {text : Octets} (remembers : Remembers p text) :
    Placed p text.length := by
  unfold Placed
  cases state : p.state_ with
  | header =>
    refine findEom_placed (Nat.zero_le _) fun more => ?_
    have searched := remembers more
    rw [Searched, state] at searched
    simpa using searched.2
  | chunk_header =>
    dsimp only
    by_cases final : p.f_.flagFinalChunk = true
    · have whole := remembers []
      rw [Searched, state, List.append_nil] at whole
      dsimp only at whole
      rw [if_pos final] at whole
      obtain ⟨k, it, line, size, place⟩ := whole.1.line
      have bounds := findEol_bounds line
      have within : (chunkBase p.f_.flagExpectCRLF text).length ≤ text.length := by
        rw [Guarded.chunkBase_drop, List.length_drop]
        omega
      have placed := @findEom_placed text p.skip_ p.x_ (by omega)
        fun more => by
          have searched := remembers more
          rw [Searched, state] at searched
          dsimp only at searched
          rw [if_pos final] at searched
          exact searched.2
      simp only [final, Bool.not_true, Bool.and_false, Bool.false_eq_true, ↓reduceIte]
      omega
    · -- The search is for the line behind the earlier line ending, wherever that will be.
      have unfinished : p.f_.flagFinalChunk = false := by simpa using final
      have resumes : ∀ more,
          (findEol ((chunkBase p.f_.flagExpectCRLF (text ++ more)).drop p.skip_)).shift p.skip_ =
            findEol (chunkBase p.f_.flagExpectCRLF (text ++ more)) := by
        intro more
        have searched := remembers more
        rw [Searched, state] at searched
        dsimp only at searched
        rwa [if_neg final] at searched
      have base : ∃ more, chunkBase p.f_.flagExpectCRLF (text ++ more) =
          chunkBase p.f_.flagExpectCRLF text ++ crlf := by
        by_cases short : text.length < (if p.f_.flagExpectCRLF then 2 else 0)
        · refine ⟨List.replicate ((if p.f_.flagExpectCRLF then 2 else 0) - text.length) 0 ++ crlf, ?_⟩
          rw [Guarded.chunkBase_drop, Guarded.chunkBase_drop, ← List.append_assoc,
            List.drop_eq_nil_of_le (Nat.le_of_lt short), List.drop_append_of_le_length, List.drop_eq_nil_of_le]
          · simp only [List.length_append, List.length_replicate]
            omega
          · simp only [List.length_append, List.length_replicate]
            omega
        · refine ⟨crlf, ?_⟩
          rw [Guarded.chunkBase_drop, Guarded.chunkBase_drop,
            List.drop_append_of_le_length (by omega)]
      obtain ⟨more, base⟩ := base
      have placed := resumes more
      rw [base] at placed
      have within := findEol_placed placed
      rw [Guarded.chunkBase_drop, List.length_drop] at within
      simp only [unfinished, Bool.not_false, Bool.and_true]
      omega
  | _ => trivial

end Placed

/-- Whether a sequence is parsed where it is, or fills the scratch buffer that it is copied to. -/
def Fits (p : FlatParser d) (buffers : List Octets) : Prop :=
  buffers.length ≤ 1 ∨ p.buf_.length ≤ buffers.flatten.length

/--
The parsers that a caller leads to who always presents what was left, with new octets behind it.

It may go on where a write was refused.
Within a body it may count octets off in other ways, which touch no search.
-/
inductive Presented (isRequest isDirect : Bool) (asked : FlatParser d → List Octets → Prop) :
    FlatParser d → Octets → Prop
  | new (skipsBody : Bool) (len x : Nat) (impl : d.State) :
      Presented isRequest isDirect asked { toBasicParser := opened skipsBody len x impl } []
  | write {p : FlatParser d} {pending more : Octets} {buffers : List Octets}
      (presented : Presented isRequest isDirect asked p pending)
      (given : buffers.flatten = pending ++ more) (holds : asked p buffers)
      (headed : isDirect = true → p.state_ = .header ∨ p.state_ = .chunk_header) :
      Presented isRequest isDirect asked
        (Step.run (Guarded.writeSequence isRequest isDirect buffers) p).2
        (unconsumed (Step.run (Guarded.writeSequence isRequest isDirect buffers) p).1
          buffers.flatten)
  | body {p q : FlatParser d} {pending left : Octets}
      (presented : Presented isRequest isDirect asked p pending)
      (within : inBody p.state_ = true) (skip : q.skip_ = p.skip_)
      (final : q.f_.flagFinalChunk = p.f_.flagFinalChunk) (buf : q.buf_ = p.buf_) :
      Presented isRequest isDirect asked q left

/-- A sequence that fits is parsed as its octets. -/
theorem Fits.flat {p : FlatParser d} {buffers : List Octets} (fits : Fits p buffers) :
    (maybeFlatten p.buf_ buffers).1 = buffers.flatten := by
  rw [maybeFlatten_fst]
  split
  · rfl
  · rw [List.drop_eq_nil_of_le (by unfold Fits at fits; omega), List.append_nil]

/-- The walk over a sequence that fits stays within it, and leaves a memory that fits what is left. -/
theorem writeSequence_step {isRequest isDirect : Bool} {p : FlatParser d} {buffers : List Octets}
    (fits : Fits p buffers) (remembers : Remembers p.toBasicParser buffers.flatten)
    (headed : isDirect = true → p.state_ = .header ∨ p.state_ = .chunk_header) :
    Sound (Step.run (Guarded.writeSequence isRequest isDirect buffers) p).1 ∧
      Remembers (Step.run (Guarded.writeSequence isRequest isDirect buffers) p).2.toBasicParser
        (unconsumed (Step.run (Guarded.writeSequence isRequest isDirect buffers) p).1
          buffers.flatten) := by
  have searched := remembers []
  rw [List.append_nil] at searched
  unfold Guarded.writeSequence
  simp only [Step.run, fits.flat]
  cases isDirect with
  | false =>
    obtain ⟨same, sound⟩ := @Guarded.agrees_write d _ isRequest _ searched remembers.placed
    simp only [Step.run, Bool.false_eq_true, ↓reduceIte] at same sound ⊢
    rw [same]
    exact ⟨sound, left_write remembers rfl⟩
  | true =>
    obtain ⟨same, sound⟩ :=
      @Guarded.agrees_writeDirect d _ isRequest _ searched remembers.placed (headed rfl)
    simp only [Step.run, ↓reduceIte] at same sound ⊢
    rw [same]
    exact ⟨sound, left_writeDirect (headed rfl) remembers rfl⟩

/-- Within a body nothing is being searched. -/
theorem unsearched {p : BasicParser d} {text : Octets} (within : inBody p.state_ = true)
    (searched : Searched p text) : p.skip_ = 0 ∧ p.f_.flagFinalChunk = false := by
  rw [Searched] at searched
  cases state : p.state_ with
  | body | body_to_eof | chunk_body => simpa only [state] using searched
  | header | chunk_header | complete => simp [inBody, state] at within

/-- Whatever was presented, the memory of the parser fits what is left of it. -/
theorem Presented.remembers {isRequest isDirect : Bool} {p : FlatParser d} {pending : Octets}
    (presented : Presented isRequest isDirect Fits p pending) :
    Remembers p.toBasicParser pending := by
  induction presented with
  | new skipsBody len x impl =>
    obtain ⟨_, skip, final⟩ := opened_spec skipsBody len x impl
    exact fun more => searched_fresh skip final _
  | write presented given fits headed ih =>
    exact (writeSequence_step fits (given ▸ ih.append _) headed).2
  | @body p q pending left presented within skip final buf ih =>
    -- Within a body no search is under way, and none is begun.
    have free := unsearched within (ih [])
    exact fun more => searched_fresh (skip.trans free.1) (final.trans free.2) _

/--
No write looks outside of the octets presented or fails an assertion, and each one ends.

This holds in every run whose sequences of buffers are parsed as their octets.
-/
theorem bounds_kept {isRequest isDirect : Bool} {p : FlatParser d} {pending more : Octets}
    {buffers : List Octets} (presented : Presented isRequest isDirect Fits p pending)
    (given : buffers.flatten = pending ++ more) (fits : Fits p buffers)
    (headed : isDirect = true → p.state_ = .header ∨ p.state_ = .chunk_header) :
    Sound (Step.run (Guarded.writeSequence isRequest isDirect buffers) p).1 :=
  (writeSequence_step fits (given ▸ presented.remembers.append more) headed).1

/-- The first buffers of a request are looked at within their bounds. -/
theorem bounds_kept_request :
    ∃ p : FlatParser everything, p.buf_ = [] ∧ Sound (Step.run (Guarded.writeSequence true false
      [octets "GET / HTTP/1.1\r\n", octets "\r\n"]) p).1 := by
  obtain ⟨p, new, presented⟩ : ∃ p : FlatParser everything, p.buf_ = [] ∧
      Presented true false Fits p [] := ⟨_, rfl, .new false 0 0 ()⟩
  refine ⟨p, new, bounds_kept presented (List.nil_append _).symm (.inr ?_) nofun⟩
  rw [new]
  exact Nat.zero_le _

/-- The line of a chunk whose extension has not ended. -/
def openLine : Octets := octets "1;" ++ List.replicate 44 (octet 'a')

/-- A header in front of the line of a chunk. -/
def chunkedHeader : Octets := octets "HTTP/1.1 200 OK\r\ntransfer-encoding:chunked\r\n\r\n"

/-- A parser that was given a header and the line of a chunk as two buffers. -/
def headedLine : FlatParser everything :=
  (Step.run (Guarded.writeSequence false false [chunkedHeader ++ openLine, []])
    { toBasicParser := opened false 0 0 () }).2

/-- The same parser behind the line of the chunk, which was given as two buffers again. -/
def staleLine : FlatParser everything :=
  (Step.run (Guarded.writeSequence false false [openLine, []]) headedLine).2

/-- Each time what was left is presented, and the line of the chunk is left in the end. -/
theorem staleLine_presented :
    Presented (d := everything) false false (fun _ _ => True) staleLine openLine := by
  have start : Presented (d := everything) false false (fun _ _ => True) _ [] :=
    .new false 0 0 ()
  have header := @Presented.write everything false false _ _ [] _ [chunkedHeader ++ openLine, []] start
    (List.nil_append _).symm trivial nofun
  have left : unconsumed (Step.run (Guarded.writeSequence false false [chunkedHeader ++ openLine, []])
      ({ toBasicParser := opened false 0 0 () } : FlatParser everything)).1
      [chunkedHeader ++ openLine, []].flatten = openLine := by decide +kernel
  rw [left] at header
  have line := @Presented.write everything false false _ _ openLine [] [openLine, []] header rfl
    trivial nofun
  have left : unconsumed (Step.run (Guarded.writeSequence false false [openLine, []]) headedLine).1
      [openLine, []].flatten = openLine := by decide +kernel
  rw [headedLine] at left
  rw [left] at line
  exact line

/-- The search for the end of that line then starts behind the octets that are presented. -/
theorem staleLine_outside :
    (Step.run (Guarded.writeSequence false false [openLine ++ crlf]) staleLine).1 =
      .error .outside := by decide +kernel

/-- Where the scratch buffer may be longer than a sequence, a write leaves its buffer. -/
theorem bounds_left : ¬∀ (d : Derived) (isRequest isDirect : Bool) (p : FlatParser d)
    (pending more : Octets) (buffers : List Octets),
    Presented isRequest isDirect (fun _ _ => True) p pending →
    buffers.flatten = pending ++ more →
    (isDirect = true → p.state_ = .header ∨ p.state_ = .chunk_header) →
    Sound (Step.run (Guarded.writeSequence isRequest isDirect buffers) p).1 := by
  intro kept
  have presented := staleLine_presented
  have outside := staleLine_outside
  generalize staleLine = p at presented outside
  have sound := kept everything false false p openLine crlf [openLine ++ crlf] presented
    List.flatten_singleton nofun
  rw [outside] at sound
  exact sound.1 rfl

end Beast.Http
