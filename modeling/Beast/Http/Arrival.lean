import Beast.Http.BodyLaws
import Beast.Http.Members
import Beast.Http.RoundTrip
import Mathlib.Tactic.Ring

/-! What a parser that puts messages together makes of a header that was written and of what follows. -/

namespace Beast.Http

variable {msg : Header} {body : Octets} {closes : Prop} {len x : Nat}

/--
Octets arrive as one message, and none of them is left.

Only a response may need the end of the stream as well, and only where it is known to come.
-/
def Arrives (msg : Header) (body : Octets) (closes : Prop) (len x : Nat) (text : Octets) : Prop :=
  ∃ o, Step.run (feed msg.is_request (text.length + 1) text)
      (opened (d := messageParser) false len x (newMessage msg.is_request)) = (.ok text.length, o) ∧
    o.impl = { msg, body } ∧
    (o.state_ = .complete ∨ msg.is_request = false ∧ closes ∧ ∃ o', Step.run writeEof o = (.ok (), o') ∧
      o'.state_ = .complete ∧ o'.impl = { msg, body })

/-- A message that the end of the stream completes. -/
def EndsWithStream (u : Message messageParser) : Prop :=
  u.state_ ≠ .header ∧ u.f_.flagContentLength = false ∧ u.f_.flagChunked = false

/-- The end of the stream completes a message whose size is not known, and adds nothing to it. -/
theorem writeEof_arrives {p : BasicParser messageParser} (open_ : p.state_ ≠ .complete) {self : Parsed}
    (told : p.impl = self) : EndsWithStream p.toMessage ↔ ∃ o', Step.run writeEof p = (.ok (), o') ∧
      o'.state_ = .complete ∧ o'.impl = self := by
  unfold writeEof EndsWithStream
  rw [Step.run_get_bind]
  by_cases header : p.state_ = .header
  · simp [header, fail]
  rw [if_neg (by simpa using header)]
  by_cases sized : (p.f_.flagContentLength || p.f_.flagChunked) = true
  · rw [if_pos sized, if_pos (by simpa using open_)]
    constructor
    · rintro ⟨-, length, chunked⟩
      simp [length, chunked] at sized
    · rintro ⟨o', ran, -⟩
      cases ran
  · rw [if_neg sized]
    have completed : Step.run (onMessage (d := messageParser) doComplete) p = (.ok (),
        { p with
          state_ := .complete
          impl := (messageParser.call p.impl .on_complete).1 }) := by
      unfold onMessage
      rw [Step.run_zoom, run_doComplete messageParser_obliging]
    rw [completed]
    refine ⟨fun _ => ⟨_, rfl, rfl, told⟩, fun _ => ⟨header, ?_⟩⟩
    simpa using sized

/-- Octets arrive where they lead to the message and nothing of them is left. -/
theorem arrives_iff {text : Octets} (some_ : text ≠ []) : Arrives msg body closes len x text ↔
    ∃ u : Message messageParser, Leaves msg.is_request text
        { len_ := len, impl := newMessage msg.is_request } (.ok ()) [] u ∧ u.impl = { msg, body } ∧
      (u.state_ = .complete ∨ msg.is_request = false ∧ closes ∧ EndsWithStream u) := by
  constructor
  · rintro ⟨o, fed, told, ends⟩
    refine ⟨o.toMessage, leaves_of_feed some_ fed, told, ?_⟩
    by_cases complete : o.state_ = .complete
    · exact .inl complete
    · rcases ends with ended | ⟨response, closed, ended⟩
      · exact absurd ended complete
      · exact .inr ⟨response, closed, (writeEof_arrives complete told).mpr ended⟩
  · rintro ⟨u, leaves, told, ends⟩
    have whole : text = text ++ [] := (List.append_nil text).symm
    rw [whole] at leaves
    obtain ⟨o, fed, rfl⟩ := @Leaves.feeds messageParser messageParser_seamless msg.is_request len x
      (newMessage msg.is_request) text [] u (by rw [← whole]; exact some_) leaves
    rw [← whole] at fed
    refine ⟨o, fed, told, ?_⟩
    by_cases complete : o.state_ = .complete
    · exact .inl complete
    · rcases ends with ended | ⟨response, closed, ended⟩
      · exact absurd ended complete
      · exact .inr ⟨response, closed, (writeEof_arrives complete told).mp ended⟩

/-- The announcement of a body adds nothing to a message. -/
theorem begun_parsed (m : Message messageParser) : m.begun.impl = m.impl := by
  unfold Message.begun
  split <;> rfl

/-- A body ends with the stream just in a response of which nothing is known of the body. -/
theorem stateBehind_toEof {framing : Framing} (toEof : stateBehind msg framing = .body_to_eof) :
    msg.is_request = false ∧ framing.sized = false ∧ framing.chunked = false := by
  unfold stateBehind at toEof
  repeat' split at toEof
  all_goals simp_all

/-- Chunks are awaited just where the body is known to be in chunks. -/
theorem stateBehind_chunked {framing : Framing} (chunked : stateBehind msg framing = .chunk_header) :
    framing.chunked = true := by
  unfold stateBehind at chunked
  repeat' split at chunked
  all_goals simp_all

/-- Pieces that are told are added to the body one after another. -/
theorem tells_pieces (pieces : List (List Octets)) (self : Parsed) :
    tells messageParser self
        (.on_body none :: (pieces.map (fun b => .on_data b.flatten) ++ [.on_complete])) =
      { self with body := self.body ++ pieces.flatten.flatten } := by
  induction pieces generalizing self with
  | nil => exact (congrArg (Parsed.mk self.msg) (List.append_nil self.body)).symm
  | cons b pieces ih =>
    have rest := ih (self.call (.on_data b.flatten))
    simp only [List.flatten_cons, List.flatten_append, ← List.append_assoc]
    exact rest

section Written

variable {framing : Framing} {sent : Octets}

theorem header_ne (it : Octets) : writeHeader msg ++ it ≠ [] :=
  fun nothing => writeHeader_ne (List.append_eq_nil_iff.mp nothing).1

/-- A header that was written puts the message together, and leads to its body. -/
theorem header_arrives (wellFormed : WellFormed msg)
    (framed : Framing.fields ⟨len, false, false⟩ msg.fields = some framing) (it : Octets) :
    ∃ m : Message messageParser,
      (∀ {left : Octets} {u : Message messageParser}, Leaves msg.is_request (writeHeader msg ++ it)
          { len_ := len, impl := newMessage msg.is_request } (.ok ()) left u ↔
        Leaves msg.is_request it m (.ok ()) left u) ∧
      m.state_ = stateBehind msg framing ∧ (m.state_ = .body → m.len_ = framing.len) ∧
      m.f_.flagContentLength = framing.sized ∧ m.f_.flagChunked = framing.chunked ∧
      m.impl = { msg } := by
  obtain ⟨m, taken, behind⟩ := header_taken messageParser_obliging wellFormed
    (frames_of_fields messageParser_obliging wellFormed.fields framed) (newMessage msg.is_request) it
  refine ⟨m, ⟨fun leaves => ?_, fun leaves => .step nofun (header_ne it) writeHeader_pos taken ?_⟩,
    behind.state, behind.length, behind.sized, behind.chunked, ?_⟩
  · -- The header is what is taken first.
    generalize all : writeHeader msg ++ it = text at leaves taken
    cases leaves with
    | complete ended => cases ended
    | empty => exact absurd all (header_ne it)
    | wait _ _ ran =>
      have size := congrArg Prod.fst (taken.symm.trans ran)
      have pos := @writeHeader_pos msg
      simp only [Except.ok.injEq] at size
      omega
    | step _ _ _ ran rest =>
      cases taken.symm.trans ran
      rw [← all, List.drop_left] at rest
      exact rest
  · rw [List.drop_left]
    exact leaves
  · exact behind.calls.trans (tells_header (fun f there => (wellFormed.fields f there).trimmed) framing)

/-- Where a field is refused, nothing arrives. -/
theorem arrives_refused (wellFormed : WellFormed msg)
    (framed : Framing.fields ⟨len, false, false⟩ msg.fields = none) :
    ¬Arrives msg body closes len x (writeHeader msg ++ sent) := by
  rw [arrives_iff (header_ne sent)]
  rintro ⟨u, leaves, _⟩
  obtain ⟨halt, v, refused⟩ := header_refused messageParser_obliging wellFormed
    (fun m known => refused_of_fields messageParser_obliging wellFormed.fields (by rw [known]; exact framed))
    (newMessage msg.is_request) sent
  obtain ⟨stopped, _⟩ := leaves.unique (.stop nofun (header_ne sent) refused)
  cases stopped

/-- Where a message ends with its header, it arrives just where nothing follows. -/
theorem arrives_complete (wellFormed : WellFormed msg)
    (framed : Framing.fields ⟨len, false, false⟩ msg.fields = some framing)
    (complete : stateBehind msg framing = .complete) :
    Arrives msg body closes len x (writeHeader msg ++ sent) ↔ sent = [] ∧ body = [] := by
  rw [arrives_iff (header_ne sent)]
  obtain ⟨m, leads, state, -, -, -, told⟩ := header_arrives wellFormed framed sent
  have ended := leads.mpr (.complete (state.trans complete))
  constructor
  · rintro ⟨u, leaves, whole, _⟩
    obtain ⟨_, rest, rfl⟩ := leaves.unique ended
    refine ⟨rest.symm, ?_⟩
    rw [told] at whole
    exact (congrArg Parsed.body whole).symm
  · rintro ⟨rfl, rfl⟩
    exact ⟨m, ended, told, .inl (state.trans complete)⟩

/-- A body of the length that was said arrives. -/
theorem arrives_sized (wellFormed : WellFormed msg)
    (framed : Framing.fields ⟨len, false, false⟩ msg.fields = some framing)
    (inBody : stateBehind msg framing = .body) (size : framing.len = body.length) (some_ : body ≠ []) :
    Arrives msg body closes len x (writeHeader msg ++ body) := by
  rw [arrives_iff (header_ne body)]
  obtain ⟨m, leads, state, length, -, -, told⟩ := header_arrives wellFormed framed body
  have here := state.trans inBody
  obtain ⟨u, leaves, complete, calls⟩ := @body_leaves messageParser m msg.is_request
    messageParser_obliging here body ((length here).trans size) some_ []
  rw [List.append_nil] at leaves
  refine ⟨u, leads.mpr leaves, ?_, .inl complete⟩
  rw [calls, begun_parsed, told]
  rfl

/-- A body that ends with the stream arrives where the stream is known to end. -/
theorem arrives_toEof (wellFormed : WellFormed msg)
    (framed : Framing.fields ⟨len, false, false⟩ msg.fields = some framing)
    (toEof : stateBehind msg framing = .body_to_eof) :
    Arrives msg body closes len x (writeHeader msg ++ body) ↔ closes := by
  rw [arrives_iff (header_ne body)]
  obtain ⟨response, unsized, unchunked⟩ := stateBehind_toEof toEof
  obtain ⟨m, leads, state, -, sized, chunked, told⟩ := header_arrives wellFormed framed body
  obtain ⟨u, leaves, goes, known, calls⟩ := @toEof_leaves messageParser m msg.is_request
    messageParser_obliging (state.trans toEof) body
  have whole : u.impl = { msg, body } := by
    rw [calls]
    split
    · rename_i none
      rw [told, none]
    · rw [begun_parsed, told]
      rfl
  constructor
  · rintro ⟨v, leaves', _, ended | ⟨_, closed, _⟩⟩
    · obtain ⟨_, _, rfl⟩ := (leads.mp leaves').unique leaves
      rw [goes] at ended
      cases ended
    · exact closed
  · intro closed
    refine ⟨u, leads.mpr leaves, whole, .inr ⟨response, closed, by simp [goes], ?_, ?_⟩⟩
    · exact (congrArg Framing.sized known).trans (sized.trans unsized)
    · exact (congrArg Framing.chunked known).trans (chunked.trans unchunked)

/-- Octets that are not in chunks do not arrive where chunks are awaited. -/
theorem arrives_unchunked (wellFormed : WellFormed msg)
    (framed : Framing.fields ⟨len, false, false⟩ msg.fields = some framing)
    (chunked : stateBehind msg framing = .chunk_header) :
    ¬Arrives msg body closes len x (writeHeader msg ++ body) := by
  rw [arrives_iff (header_ne body)]
  obtain ⟨m, leads, state, -, -, coded, told⟩ := header_arrives wellFormed framed body
  rintro ⟨u, leaves, whole, ends⟩
  have header := state.trans chunked
  -- All that is told of a body comes out of octets that are fewer.
  have before : ChunksTold [] m :=
    ⟨.inl header, coded.trans (stateBehind_chunked chunked), congrArg Parsed.body told⟩
  obtain ⟨body', behind, less⟩ := chunks_short (leads.mp leaves) rfl rfl before (by simp [header])
  obtain rfl : body' = body := behind.2.2.symm.trans (congrArg Parsed.body whole)
  rcases ends with complete | ⟨_, _, ended⟩
  · have short := less complete
    simp at short
  · exact absurd behind.2.1 (by simp [ended.2.2])

/-- Chunks arrive where none of them is empty. -/
theorem arrives_chunks (wellFormed : WellFormed msg)
    (framed : Framing.fields ⟨len, false, false⟩ msg.fields = some ⟨0, false, true⟩)
    (chunked : stateBehind msg ⟨0, false, true⟩ = .chunk_header) {pieces : List (List Octets)}
    (fits : ∀ b ∈ pieces, b.flatten.length < 2 ^ 64) :
    Arrives msg pieces.flatten.flatten closes len x (chunkedOctets msg pieces) ↔
      ∀ b ∈ pieces, b.flatten ≠ [] := by
  have frames := frames_of_fields messageParser_obliging wellFormed.fields framed
  have allowed : msg.is_request = true ∨ bodiless (startStatus msg) = false := by
    by_contra none
    rw [not_or, Bool.not_eq_true, Bool.not_eq_false] at none
    rw [stateBehind, none.1, none.2] at chunked
    cases chunked
  unfold chunkedOctets
  rw [arrives_iff (header_ne _)]
  constructor
  · rintro ⟨u, leaves, _⟩
    exact chunked_end messageParser_obliging wellFormed frames allowed fits leaves rfl
  · intro some_
    obtain ⟨u, leaves, complete, calls⟩ := @chunked_leaves messageParser msg pieces len
      (newMessage msg.is_request) messageParser_obliging wellFormed frames allowed
      (fun b there => ⟨some_ b there, fits b there⟩) []
    rw [List.append_nil] at leaves
    refine ⟨u, leaves, calls.trans ?_, .inl complete⟩
    have trimmed := fun f there => (wellFormed.fields f there).trimmed
    have header := tells_header trimmed ⟨0, false, true⟩
    have whole : tells messageParser (newMessage msg.is_request) (chunkedCallbacks msg pieces) =
        tells messageParser (tells messageParser (newMessage msg.is_request)
          (headerCallbacks msg ⟨0, false, true⟩))
          (.on_body none :: (pieces.map (fun b => .on_data b.flatten) ++ [.on_complete])) :=
      List.foldl_append
    refine whole.trans ?_
    rw [header]
    exact tells_pieces pieces { msg }

end Written

end Beast.Http
