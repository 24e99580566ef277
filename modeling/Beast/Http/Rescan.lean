import Beast.Http.BasicParser
import Beast.Http.BasicParserBaseLaws

/-! The parser without its memory of earlier searches, which it refines. -/

namespace Beast.Http

variable {d : Derived}

/-- Parses the header, and looks for its end from its start. -/
def headerStep (isRequest : Bool) (text : Octets) : MessageStep d Nat :=
  if text.length < 4 then pure 0
  else match findEom text with
    | .bad => fail .bad_line_ending
    | .need => pure 0
    | .found n => do
      parseHeaderBlock isRequest (text.take n)
      return n

/-- Parses the last chunk, and looks for the end of the trailer from the line ending at an offset. -/
def lastChunkStep (first : Octets) (offset x : Nat) : MessageStep d Nat :=
  match (findEom (first.drop x)).shift x with
  | .bad => fail .bad_line_ending
  | .need => pure 0
  | .found term => do
    parseTrailer (first.take term) offset x
    return term

/-- Parses the size of a chunk, and opens the chunk or goes on to the trailer. -/
def chunkSizeStep (first p : Octets) (term : Nat) : MessageStep d Nat := do
  let (some v, it) ← Step.lift (parseHex p) | fail .bad_chunk
  let start := first.length - p.length
  if v != 0 then do
    openChunk p it v term
    return start + term
  else do
    setFlags fun f => { f with flagFinalChunk := true }
    lastChunkStep first (first.length - it.length) (start + term - 2)

/-- Parses the line of a chunk, and looks for its end from its start. -/
def chunkLineStep (first p : Octets) : MessageStep d Nat :=
  if p.length < 2 then pure 0
  else match findEol p with
    | .bad => fail .bad_line_ending
    | .need => pure 0
    | .found term => chunkSizeStep first p term

/-- Parses the header of a chunk, behind the line ending of the chunk before it. -/
def chunkStep (first : Octets) : MessageStep d Nat := do
  let self ← get
  if self.f_.flagExpectCRLF then
    if first.length < 2 then return 0
    else do
      let (true, p) ← Step.lift (parseCrlf first) | fail .bad_chunk
      chunkLineStep first p
  else chunkLineStep first first

/-- Passes on what is there of a body or chunk, and finishes it where nothing is left. -/
def dataStep (finish : MessageStep d Unit) (text : Octets) : MessageStep d Nat := do
  let self ← get
  let n := min self.len_ text.length
  passData (text.take n)
  if (← get).len_ == 0 then do
    finish
    return n
  else return n

/-- Passes on what is there of a body that only ends with the stream. -/
def toEofStep (text : Octets) : MessageStep d Nat := do
  invoke (.on_data text)
  return text.length

/-- What happens in a state before a buffer is looked at. -/
def beginStep (text : Octets) : ParseState → MessageStep d Unit
  | .header => setFlags fun f => { f with flagGotSome := f.flagGotSome || text.length > 0 }
  | .body | .body_to_eof | .chunk_header => maybeDoBodyIndirect
  | .chunk_body | .complete => pure ()

/-- What a buffer leads to in a state, once the body is announced. -/
def bufferStep (isRequest : Bool) (text : Octets) : ParseState → MessageStep d Nat
  | .header => headerStep isRequest text
  | .body => dataStep doComplete text
  | .body_to_eof => toEofStep text
  | .chunk_header => chunkStep text
  | .chunk_body => dataStep (modify fun self => { self with state_ := .chunk_header }) text
  | .complete => pure 0

/-- Parses as much of a buffer as can be consumed, from the message alone. -/
def rescan (isRequest : Bool) (text : Octets) : MessageStep d Nat := do
  let self ← get
  beginStep text self.state_
  bufferStep isRequest text self.state_

/-- What a step of the parser does, seen from the message. -/
def view {α : Type} (r : Except Halt α × BasicParser d) : Except Halt α × Message d :=
  (r.1, r.2.toMessage)

/-- The octets behind the line ending of the chunk before, where one is expected. -/
def chunkBase (expect : Bool) (text : Octets) : Octets :=
  if expect then text.drop 2 else text

/-- The line of the last chunk, as a parser has found it. -/
structure LastLine (expect : Bool) (text : Octets) (x : Nat) : Prop where
  enough : 2 ≤ (chunkBase expect text).length
  ended : expect = true → parseCrlf text = .ok (true, text.drop 2)
  line : ∃ k it, findEol (chunkBase expect text) = .found k ∧
    parseHex (chunkBase expect text) = .ok (some 0, it) ∧
    x = text.length - (chunkBase expect text).length + k - 2

/-- What the memory of a parser says about a text is what a search from the start would find. -/
def Searched (p : BasicParser d) (text : Octets) : Prop :=
  match p.state_ with
  | .header =>
    p.f_.flagFinalChunk = false ∧
      (findEom (text.drop p.skip_)).shift p.skip_ = findEom text
  | .chunk_header =>
    if p.f_.flagFinalChunk = true then
      LastLine p.f_.flagExpectCRLF text p.x_ ∧
        (findEom (text.drop p.skip_)).shift p.skip_ = (findEom (text.drop p.x_)).shift p.x_
    else
      (findEol ((chunkBase p.f_.flagExpectCRLF text).drop p.skip_)).shift p.skip_ =
        findEol (chunkBase p.f_.flagExpectCRLF text)
  | .body | .body_to_eof | .chunk_body => p.skip_ = 0 ∧ p.f_.flagFinalChunk = false
  | .complete => True

/-- The memory of a parser fits the octets it has left unconsumed, however they go on. -/
def Remembers (p : BasicParser d) (pending : Octets) : Prop :=
  ∀ more, Searched p (pending ++ more)

/-- A step on the message is seen as itself. -/
@[simp] theorem view_onMessage {α : Type} (m : MessageStep d α) (p : BasicParser d) :
    view (Step.run (onMessage m) p) = Step.run m p.toMessage := rfl

/-- A sequence that starts on the message is seen as itself where its continuation is. -/
theorem view_onMessage_bind {α β : Type} {m : MessageStep d α} {f : α → ParserStep d β}
    {g : α → MessageStep d β} {p : BasicParser d}
    (goes : ∀ a s, Step.run m p.toMessage = (.ok a, s) →
      view (Step.run (f a) { p with toMessage := s }) = Step.run (g a) s) :
    view (Step.run (onMessage m >>= f) p) = Step.run (m >>= g) p.toMessage := by
  rw [Step.run_bind, Step.run_bind]
  rcases ran : Step.run m p.toMessage with ⟨r, s⟩
  have whole : Step.run (onMessage m) p = (r, { p with toMessage := s }) := by
    simp only [onMessage, Step.run_zoom, ran]
  rw [whole]
  cases r with
  | error halt => rfl
  | ok a => exact goes a s ran

/-- A parser whose memory is right parses a header as a search from its start does. -/
theorem view_parseHeader {isRequest : Bool} {p : BasicParser d} {text : Octets}
    (searched : (findEom (text.drop p.skip_)).shift p.skip_ = findEom text) :
    view (Step.run (parseHeader isRequest text) p) =
      Step.run (headerStep isRequest text) p.toMessage := by
  unfold parseHeader headerStep
  rw [← searched]
  by_cases short : text.length < 4
  · simp [short, view]
  simp only [short, ↓reduceIte, Step.run_get_bind]
  cases found : findEom (text.drop p.skip_) with
  | need => rfl
  | bad => rfl
  | found k =>
    simp only [Scan.shift, Step.run_set_bind]
    exact view_onMessage_bind (fun _ _ _ => rfl)

/-- A parser whose memory is right parses the last chunk as a search from its line ending does. -/
theorem view_parseLastChunk {p : BasicParser d} {first : Octets} {n offset : Nat}
    (searched : (findEom (first.drop p.skip_)).shift p.skip_ =
      (findEom (first.drop p.x_)).shift p.x_) :
    view (Step.run (parseLastChunk first n offset) p) =
      Step.run (lastChunkStep first offset p.x_) p.toMessage := by
  unfold parseLastChunk lastChunkStep
  rw [← searched]
  simp only [Step.run_get_bind]
  cases found : findEom (first.drop p.skip_) with
  | need => by_cases long : n > 3 <;> simp [long, Scan.shift, view]
  | bad => rfl
  | found k =>
    simp only [Scan.shift]
    exact view_onMessage_bind (fun _ _ _ => rfl)

/-- The size of a chunk is taken alike by the parser and by the step without memory. -/
theorem view_parseChunkSize {p : BasicParser d} {first q : Octets} {term : Nat} :
    view (Step.run (parseChunkSize first q term) p) =
      Step.run (chunkSizeStep first q term) p.toMessage := by
  unfold parseChunkSize chunkSizeStep
  cases size : parseHex q with
  | error halt => rfl
  | ok r =>
    obtain ⟨v, it⟩ := r
    cases v with
    | none => rfl
    | some v =>
      simp only [Step.run_bind, Step.run_lift]
      by_cases last : v = 0
      · -- The size of the last chunk sets the place from which its trailer is searched.
        subst last
        simp only [bne_self_eq_false, Bool.false_eq_true, ↓reduceIte, Step.run_modify_bind]
        refine view_onMessage_bind (fun _ s _ => ?_)
        exact view_parseLastChunk rfl
      · have sized : (v != 0) = true := by simpa using last
        simp only [sized, ↓reduceIte]
        exact view_onMessage_bind (fun _ _ _ => rfl)

/-- The line of a chunk is searched for while its end is unknown. -/
theorem view_parseChunkLine_open {p : BasicParser d} {first q : Octets}
    (unfinished : p.f_.flagFinalChunk = false)
    (searched : (findEol (q.drop p.skip_)).shift p.skip_ = findEol q) :
    view (Step.run (parseChunkLine first q) p) =
      Step.run (chunkLineStep first q) p.toMessage := by
  unfold parseChunkLine chunkLineStep
  rw [← searched]
  simp only [Step.run_get_bind, unfinished, Bool.not_false, ↓reduceIte]
  by_cases short : q.length < 2
  · simp [short, view]
  simp only [short, ↓reduceIte]
  cases found : findEol (q.drop p.skip_) with
  | need => rfl
  | bad => rfl
  | found k => exact view_parseChunkSize

/-- The line of the last chunk, once known, is taken again and only its trailer searched. -/
theorem view_parseChunkLine_final {p : BasicParser d} {first q it : Octets} {k : Nat}
    (finished : p.f_.flagFinalChunk = true) (enough : 2 ≤ q.length)
    (line : findEol q = .found k) (size : parseHex q = .ok (some 0, it))
    (placed : p.x_ = first.length - q.length + k - 2)
    (searched : (findEom (first.drop p.skip_)).shift p.skip_ =
      (findEom (first.drop p.x_)).shift p.x_) :
    view (Step.run (parseChunkLine first q) p) =
      Step.run (chunkLineStep first q) p.toMessage := by
  have long : ¬q.length < 2 := by omega
  have same : { p.toMessage with f_ := { p.f_ with flagFinalChunk := true } } = p.toMessage := by
    rw [← finished]
  unfold parseChunkLine chunkLineStep chunkSizeStep
  simp only [Step.run_get_bind, finished, Bool.not_true, Bool.false_eq_true, ↓reduceIte, size,
    long, line, Step.run_lift_ok_bind, bne_self_eq_false, setFlags, Step.run_modify_bind, same]
  rw [← placed]
  exact view_parseLastChunk searched

/-- Announcing the body sets a flag, and may change the derived class, and nothing else. -/
theorem maybeDoBody_spec {m s : Message d} {r : Except Halt Unit}
    (ran : Step.run maybeDoBodyIndirect m = (r, s)) :
    s = { m with f_ := { m.f_ with flagOnBody := true }, impl := s.impl } := by
  unfold maybeDoBodyIndirect at ran
  rw [Step.run_get_bind] at ran
  by_cases announced : m.f_.flagOnBody = true
  · rw [if_pos announced] at ran
    cases ran
    rw [← announced]
  · rw [if_neg announced] at ran
    have called : ∀ c (n t : Message d) r, Step.run (invoke c) n = (r, t) →
        t = { n with impl := t.impl } := by
      intro c n t r ran
      unfold invoke Step.run at ran
      dsimp only at ran
      split at ran <;> cases ran <;> rfl
    simp only [setFlags, Step.run_modify_bind] at ran
    split at ran <;> exact called _ _ _ _ ran

/-- A parser whose memory is right parses the header of a chunk as a search from its start does. -/
theorem view_parseChunkHeader {p : BasicParser d} {text : Octets}
    (chunk : p.state_ = .chunk_header) (searched : Searched p text) :
    view (Step.run (parseChunkHeader text) p) = Step.run (chunkStep text) p.toMessage := by
  rw [Searched, chunk] at searched
  dsimp only at searched
  unfold parseChunkHeader chunkStep
  simp only [Step.run_get_bind]
  by_cases expect : p.f_.flagExpectCRLF = true
  · -- Behind an earlier chunk, its line ending comes first.
    simp only [expect] at searched
    simp only [expect, ↓reduceIte]
    by_cases short : text.length < 2
    · simp [short, view]
    simp only [short, ↓reduceIte]
    have behind : ∀ q, parseCrlf text = .ok (true, q) → q = text.drop 2 := by
      intro q crlf
      obtain _ | ⟨c, _ | ⟨e, it⟩⟩ := text
      · simp at short
      · simp at short
      · simp only [parseCrlf] at crlf
        split at crlf
        · simp at crlf
        · split at crlf
          · simp at crlf
          · simpa using crlf.symm
    cases crlf : parseCrlf text with
    | error halt => rfl
    | ok r =>
      obtain ⟨ended, q⟩ := r
      cases ended with
      | false => rfl
      | true =>
        obtain rfl := behind q crlf
        simp only [Step.run_bind, Step.run_lift]
        by_cases finished : p.f_.flagFinalChunk = true
        · rw [if_pos finished] at searched
          obtain ⟨⟨enough, _, k, it, line, size, placed⟩, resumed⟩ := searched
          exact view_parseChunkLine_final finished enough line size placed resumed
        · rw [if_neg finished] at searched
          exact view_parseChunkLine_open (by simpa using finished) searched
  · simp only [expect] at searched
    simp only [expect, Bool.false_eq_true, ↓reduceIte]
    by_cases finished : p.f_.flagFinalChunk = true
    · rw [if_pos finished] at searched
      obtain ⟨⟨enough, _, k, it, line, size, placed⟩, resumed⟩ := searched
      exact view_parseChunkLine_final finished enough line size placed resumed
    · rw [if_neg finished] at searched
      exact view_parseChunkLine_open (by simpa using finished) searched

/-- Passing on data is seen as itself. -/
theorem view_parseBody {p : BasicParser d} {text : Octets} :
    view (Step.run (parseBody text) p) = Step.run (dataStep doComplete text) p.toMessage := by
  unfold parseBody dataStep
  simp only [Step.run_get_bind, Step.run_set_bind]
  refine view_onMessage_bind (fun _ s _ => ?_)
  simp only [Step.run_get_bind]
  by_cases finished : s.len_ == 0
  · simp only [finished, ↓reduceIte]
    exact view_onMessage_bind (fun _ _ _ => rfl)
  · simp only [finished, Bool.false_eq_true, ↓reduceIte]
    rfl

/-- Passing on the data of a chunk is seen as itself. -/
theorem view_parseChunkBody {p : BasicParser d} {text : Octets} :
    view (Step.run (parseChunkBody text) p) =
      Step.run (dataStep (modify fun self => { self with state_ := .chunk_header }) text)
        p.toMessage := by
  unfold parseChunkBody dataStep
  simp only [Step.run_get_bind, Step.run_set_bind]
  refine view_onMessage_bind (fun _ s _ => ?_)
  simp only [Step.run_get_bind]
  by_cases finished : s.len_ == 0
  · simp only [finished, ↓reduceIte]
    rfl
  · simp only [finished, Bool.false_eq_true, ↓reduceIte]
    rfl

/-- A parser whose memory is right does to its message what the step without memory does. -/
theorem view_write {isRequest : Bool} {p : BasicParser d} {text : Octets}
    (searched : Searched p text) :
    view (Step.run (write isRequest text) p) = Step.run (rescan isRequest text) p.toMessage := by
  unfold write rescan
  simp only [Step.run_get_bind]
  cases state : p.state_ with
  | header =>
    rw [Searched, state] at searched
    exact view_onMessage_bind (fun _ _ _ => view_parseHeader searched.2)
  | body => exact view_onMessage_bind (fun _ _ _ => view_parseBody)
  | body_to_eof => exact view_onMessage_bind (fun _ _ _ => view_onMessage_bind fun _ _ _ => rfl)
  | chunk_header =>
    refine view_onMessage_bind (fun _ s ran => ?_)
    have same := maybeDoBody_spec ran
    refine view_parseChunkHeader (by rw [same]; exact state) ?_
    -- The announcement touches no flag that the memory depends on.
    rw [same]
    rw [Searched, state] at searched
    rw [Searched]
    simpa only [state] using searched
  | chunk_body => exact view_parseChunkBody
  | complete => rfl

end Beast.Http
