import Beast.Http.WriteLaws
import Mathlib

/-! What is written of a message with a chunked body, and what a parser makes of it. -/

namespace Beast.Http

variable {d : Derived} {W : BodyWriter} {msg : Header} {pieces : List (List Octets)} {last : Bool}

/-- The one field about the coding of the body says that it is chunked, and nothing else. -/
def OnlyChunked (fields : Fields) : Prop :=
  ∃ front name value back, fields = front ++ (name, value) :: back ∧ isCoding name = true ∧
    (∀ f ∈ front ++ back, isCoding f.1 = false) ∧
    ∃ token, tokenList value = [token] ∧ strieq "chunked" token = true

/-- The field about the coding is the one that the writer looks for. -/
theorem isCoding_ciEqual (name : Octets) :
    ciEqual name (octets "Transfer-Encoding") = isCoding name := by
  unfold ciEqual isCoding strieq
  rw [Bool.beq_comm]
  rfl

/-- The field about the length is the one that the writer looks for. -/
theorem isLength_ciEqual (name : Octets) :
    ciEqual name (octets "Content-Length") = isLength name := by
  unfold ciEqual isLength strieq
  rw [Bool.beq_comm]
  rfl

/-- A message whose only coding is that it is chunked is written in chunks. -/
theorem OnlyChunked.chunked (only : OnlyChunked msg.fields) {w₀ w : W.State} :
    (initialized msg w₀ w).chunked = true := by
  obtain ⟨front, name, value, back, fields, coding, others, token, tokens, chunked⟩ := only
  have found : Fields.value msg.fields (octets "Transfer-Encoding") = value := by
    have none : List.find? (fun f : Octets × Octets => ciEqual f.1 (octets "Transfer-Encoding"))
        front = none := by
      rw [List.find?_eq_none]
      intro f there
      rw [isCoding_ciEqual, others f (List.mem_append_left _ there)]
      exact Bool.false_ne_true
    rw [fields, Fields.value, Fields.find, List.find?_append, none, List.find?_cons,
      isCoding_ciEqual, coding]
    rfl
  change tokenExists (Fields.value msg.fields (octets "Transfer-Encoding")) (octets "chunked") = true
  rw [found, tokenExists, tokens, List.any_cons, List.any_nil, Bool.or_false, ← chunked]
  rfl

/-- A message whose only coding is that it is chunked, without a length, frames its body so. -/
theorem OnlyChunked.frames (obliging : Obliging d) (wellFormed : WellFormed msg)
    (only : OnlyChunked msg.fields) (noLength : ∀ f ∈ msg.fields, isLength f.1 = false) (len : Nat) :
    Frames d msg.fields ⟨len, false, false⟩ ⟨0, false, true⟩ := by
  obtain ⟨front, name, value, back, fields, coding, others, token, tokens, chunked⟩ := only
  have formed := wellFormed.fields
  rw [fields] at formed noLength ⊢
  have tail : (tokenList value).dropWhile (fun s => !strieq "chunked" s) = [token] := by
    rw [tokens, List.dropWhile_cons, chunked]
    rfl
  have first : Frames d front ⟨len, false, false⟩ ⟨len, false, false⟩ := frames_other obliging _
    (fun f there => formed f (List.mem_append_left _ there))
    fun f there => ⟨noLength f (List.mem_append_left _ there), others f (List.mem_append_left _ there)⟩
  have here : Frames d [(name, value)] ⟨len, false, false⟩ ⟨0, false, true⟩ := frames_coding obliging
    (formed (name, value) (List.mem_append_right _ List.mem_cons_self)) coding tail
  have behind : Frames d back ⟨0, false, true⟩ ⟨0, false, true⟩ := frames_other obliging _
    (fun f there => formed f (List.mem_append_right _ (List.mem_cons_of_mem _ there)))
    fun f there => ⟨noLength f (List.mem_append_right _ (List.mem_cons_of_mem _ there)),
      others f (List.mem_append_right _ there)⟩
  exact first.append (here.append behind)

/-- There is a field about the coding. -/
theorem OnlyChunked.coded {fields : Fields} (only : OnlyChunked fields) :
    ∃ f ∈ fields, isCoding f.1 = true := by
  obtain ⟨front, name, value, back, rfl, coding, _⟩ := only
  exact ⟨(name, value), List.mem_append_right _ List.mem_cons_self, coding⟩

/-- Each field about the coding says that the body is chunked. -/
theorem OnlyChunked.each {fields : Fields} (only : OnlyChunked fields) :
    ∀ f ∈ fields, isCoding f.1 = true → SaysChunked f.2 := by
  obtain ⟨front, name, value, back, rfl, _, others, token, tokens, chunked⟩ := only
  intro f there coding
  have here : f = (name, value) := by
    by_contra other
    have elsewhere : f ∈ front ++ back := by
      simp only [List.mem_append, List.mem_cons] at there ⊢
      rcases there with front | here | back
      · exact .inl front
      · exact absurd here other
      · exact .inr back
    rw [others f elsewhere] at coding
    cases coding
  subst here
  refine ⟨token, ?_⟩
  rw [tokens, List.dropWhile_cons, chunked]
  rfl

/-- The calls that a message with a chunked body is told by. -/
def chunkedCallbacks (msg : Header) (pieces : List (List Octets)) : List Callback :=
  headerCallbacks msg ⟨0, false, true⟩ ++
    .on_body none :: (pieces.map (fun b => .on_data b.flatten) ++ [.on_complete])

/--
A message is written alike by a call and by an operation, and is parsed as itself.

The parser takes all of the octets and no more are needed. The body is that of the pieces.
-/
def RoundTrips (msg : Header) (w₀ : W.State) (pieces : List (List Octets)) (len x : Nat)
    (impl : d.State) : Prop :=
  ∃ r t t' o, Writes (writePreparation msg w₀ {}) (r, t) ∧
    AsyncWrites (writePreparation msg w₀ {}) (some r, t') ∧
    t.stream.written = t'.stream.written ∧
    Step.run (feed msg.is_request (t.stream.written.length + 1) t.stream.written)
      (opened false len x impl) = (.ok t.stream.written.length, o) ∧
    o.state_ = .complete ∧ o.impl = tells d impl (chunkedCallbacks msg pieces)

/-- The octets that both writers send for a message in chunks. -/
def chunkedOctets (msg : Header) (pieces : List (List Octets)) : Octets :=
  writeHeader msg ++ (chunks pieces ++ chunkEncodeFinal)

/-- Both writers send a message in chunks alike, where the last piece is said to be the last. -/
theorem chunked_sent {w₀ w : W.State} (only : OnlyChunked msg.fields) (init : W.init w₀ = (w, none))
    (yields : Yields W w pieces true) (fits : ∀ b ∈ pieces, b.flatten.length < 2 ^ 64) :
    ∃ r t t', Writes (writePreparation msg w₀ {}) (r, t) ∧
      AsyncWrites (writePreparation msg w₀ {}) (some r, t') ∧
      t.stream.written = chunkedOctets msg pieces ∧ t'.stream.written = chunkedOctets msg pieces := by
  have some_ : pieces ≠ [] := by
    cases yields <;> simp
  have sentPieces_ : sentPieces true pieces = chunks pieces := rfl
  obtain ⟨t, writes, written⟩ :=
    @writes_message W pieces true msg w₀ w init yields fits
  obtain ⟨⟨r, t'⟩, asyncWrites, sent⟩ :=
    @asyncWrites_message W pieces true msg w₀ w init yields fits
  rw [OpSends, if_pos rfl] at sent
  obtain ⟨result, written'⟩ := sent
  rw [only.chunked, if_neg some_, sentPieces_] at written
  rw [only.chunked, sentPieces_] at written'
  subst result
  exact ⟨_, t, t', writes, asyncWrites, written, written'⟩

/-- Where octets lead is where they lead at once, with the number of those that were used. -/
theorem Leaves.feeds (stream : Seamless d) {isRequest : Bool} {len x : Nat} {impl : d.State}
    {front left : Octets} {u : Message d} (some_ : front ++ left ≠ [])
    (leaves : Leaves isRequest (front ++ left) { len_ := len, impl := impl } (.ok ()) left u) :
    ∃ q, Step.run (Http.feed isRequest ((front ++ left).length + 1) (front ++ left))
      (opened false len x impl) = (.ok front.length, q) ∧ q.toMessage = u := by
  have new : (opened false len x impl).toMessage = { len_ := len, impl := impl } := rfl
  obtain ⟨header, start, unfinished⟩ := opened_spec false len x impl
  rw [← new] at leaves
  obtain ⟨whole, q, fed, outcome, behind, message⟩ := leaves.feed rfl
  cases whole with
  | error halt => cases outcome
  | ok n =>
    have within := feed_within stream (by simp [header]) some_
      (fun more => searched_fresh start unfinished _)
      (awaits_other (by simp [header]) (by simp [header])) fed
    have size := congrArg List.length behind
    rw [leftOf, List.length_drop, List.length_append] at size
    rw [List.length_append] at within
    obtain rfl : n = front.length := by omega
    exact ⟨q, fed, message⟩

/-- Where all octets are used, they lead to the message behind them, and nothing is left. -/
theorem leaves_of_feed {isRequest : Bool} {len x : Nat} {impl : d.State} {text : Octets}
    {q : BasicParser d} (some_ : text ≠ [])
    (fed : Step.run (feed isRequest (text.length + 1) text) (opened false len x impl) =
      (.ok text.length, q)) :
    Leaves isRequest text { len_ := len, impl := impl } (.ok ()) [] q.toMessage := by
  obtain ⟨header, start, unfinished⟩ := opened_spec (d := d) false len x impl
  have leaves := feed_leaves (by simp [header]) some_ (Nat.lt_succ_self _)
    (fun more => searched_fresh start unfinished _) fed
  rw [leftOf, List.drop_length] at leaves
  exact leaves

/-- A list either has no exception, or a first one. -/
theorem first_exception {α : Type} (fine : α → Prop) (list : List α) :
    (∀ a ∈ list, fine a) ∨
      ∃ front a back, list = front ++ a :: back ∧ (∀ b ∈ front, fine b) ∧ ¬fine a := by
  induction list with
  | nil => exact .inl nofun
  | cons a list ih =>
    by_cases here : fine a
    · rcases ih with all | ⟨front, b, back, rfl, before, bad⟩
      · refine .inl fun b there => ?_
        rcases List.mem_cons.mp there with rfl | there
        · exact here
        · exact all b there
      · refine .inr ⟨a :: front, b, back, rfl, fun c there => ?_, bad⟩
        rcases List.mem_cons.mp there with rfl | there
        · exact here
        · exact before c there
    · exact .inr ⟨[], a, list, rfl, nofun, here⟩

section Decoding

variable {len x : Nat} {impl : d.State}

/-- A header has octets. -/
theorem writeHeader_pos : 0 < (writeHeader msg).length := by
  simp only [writeHeader, crlf, List.length_append, List.length_cons]
  omega

theorem writeHeader_ne : writeHeader msg ≠ [] :=
  List.length_pos_iff.mp writeHeader_pos

/-- A message in chunks that are not empty is decoded up to the last one. -/
theorem chunked_leaves (obliging : Obliging d) (wellFormed : WellFormed msg)
    (frames : Frames d msg.fields ⟨len, false, false⟩ ⟨0, false, true⟩)
    (body : msg.is_request = true ∨ bodiless (startStatus msg) = false)
    (sized : ∀ b ∈ pieces, b.flatten ≠ [] ∧ b.flatten.length < 2 ^ 64) (it : Octets) :
    ∃ u, Leaves msg.is_request (writeHeader msg ++ (chunks pieces ++ (chunkEncodeFinal ++ it)))
        { len_ := len, impl := impl } (.ok ()) it u ∧
      u.state_ = .complete ∧ u.impl = tells d impl (chunkedCallbacks msg pieces) := by
  obtain ⟨m, taken, behind⟩ := header_taken obliging wellFormed frames impl
    (chunks pieces ++ (chunkEncodeFinal ++ it))
  have state : stateBehind msg ⟨0, false, true⟩ = .chunk_header := by
    unfold stateBehind
    rcases body with request | allowed
    · simp [request]
    · simp [allowed]
  have header : m.state_ = .chunk_header := behind.state.trans state
  have start : m.between = [] := by
    rw [Message.between, behind.expectCRLF]
    rfl
  have announced : m.begun.impl = (d.call m.impl (.on_body none)).1 := by
    rw [Message.begun, behind.onBody, behind.sized]
    rfl
  obtain ⟨u, leaves, complete, calls⟩ := @chunks_leave d msg.is_request m obliging pieces sized header it
  rw [start, List.nil_append] at leaves
  refine ⟨u, .step (by simp) ?_ writeHeader_pos taken ?_, complete, ?_⟩
  · exact fun nothing => writeHeader_ne (List.append_eq_nil_iff.mp nothing).1
  · rw [List.drop_left]
    exact leaves
  · rw [calls, announced, behind.calls]
    unfold chunkedCallbacks tells
    simp only [List.foldl_append, List.foldl_cons]

/-- A message in chunks is decoded to its end just where no chunk is empty. -/
theorem chunked_end (obliging : Obliging d) (wellFormed : WellFormed msg)
    (frames : Frames d msg.fields ⟨len, false, false⟩ ⟨0, false, true⟩)
    (body : msg.is_request = true ∨ bodiless (startStatus msg) = false)
    (fits : ∀ b ∈ pieces, b.flatten.length < 2 ^ 64) {left : Octets} {u : Message d}
    (leaves : Leaves msg.is_request (chunkedOctets msg pieces) { len_ := len, impl := impl }
      (.ok ()) left u) (all : left = []) : ∀ b ∈ pieces, b.flatten ≠ [] := by
  rcases first_exception (fun b : List Octets => b.flatten ≠ []) pieces with fine | exception
  · exact fine
  · -- The first piece that is empty is sent as the last chunk, and the rest is left.
    exfalso
    obtain ⟨front, b, back, rfl, before, nothing⟩ := exception
    obtain ⟨v, leaves', _⟩ := @chunked_leaves d msg front len impl obliging wellFormed frames body
      (fun b there => ⟨before b there, fits b (List.mem_append_left _ there)⟩)
      (chunks back ++ chunkEncodeFinal)
    have text : chunkedOctets msg (front ++ b :: back) =
        writeHeader msg ++ (chunks front ++ (chunkEncodeFinal ++ (chunks back ++ chunkEncodeFinal))) := by
      have empty := chunkOf_nothing (not_not.mp nothing)
      simp only [chunkedOctets, chunks, List.flatMap_append, List.flatMap_cons, empty,
        List.append_assoc]
    rw [text] at leaves
    obtain ⟨_, rest, _⟩ := leaves.unique leaves'
    rw [all] at rest
    have final : chunkEncodeFinal ≠ [] := by decide
    exact final (List.append_eq_nil_iff.mp rest.symm).2

/-- Where a status allows no body, nothing of one is taken. -/
theorem bodiless_leaves (obliging : Obliging d) (wellFormed : WellFormed msg) {framing : Framing}
    (frames : Frames d msg.fields ⟨len, false, false⟩ framing)
    (complete : stateBehind msg framing = .complete) (it : Octets) :
    ∃ u, Leaves msg.is_request (writeHeader msg ++ it) { len_ := len, impl := impl } (.ok ()) it u ∧
      u.state_ = .complete ∧ u.impl = tells d impl (headerCallbacks msg framing) := by
  obtain ⟨m, taken, behind⟩ := header_taken obliging wellFormed frames impl it
  have ended : m.state_ = .complete := behind.state.trans complete
  refine ⟨m, .step (by simp) ?_ writeHeader_pos taken ?_, ended, behind.calls⟩
  · exact fun nothing => writeHeader_ne (List.append_eq_nil_iff.mp nothing).1
  · rw [List.drop_left]
    exact .complete ended

end Decoding

/--
A message in chunks round-trips just where its framing and its pieces allow it.

It must not have a length as well, nor a status that allows no body. No piece may be empty, and the
writer must say with the last piece that it is the last.
-/
theorem chunked_round_trip_iff (stream : Seamless d) (obliging : Obliging d) (wellFormed : WellFormed msg)
    (only : OnlyChunked msg.fields) {w₀ w : W.State} (init : W.init w₀ = (w, none))
    (yields : Yields W w pieces last) (fits : ∀ b ∈ pieces, b.flatten.length < 2 ^ 64)
    (len x : Nat) (impl : d.State) :
    RoundTrips msg w₀ pieces len x impl ↔ (∀ f ∈ msg.fields, isLength f.1 = false) ∧
      (msg.is_request = true ∨ bodiless (startStatus msg) = false) ∧
      (∀ b ∈ pieces, b.flatten ≠ []) ∧ last = true := by
  have awaited : ∀ {it : Octets}, writeHeader msg ++ it ≠ [] :=
    fun nothing => writeHeader_ne (List.append_eq_nil_iff.mp nothing).1
  constructor
  · rintro ⟨r, t, t', o, writes, asyncWrites, same, decoded, complete, calls⟩
    -- An operation that has to be told behind the last piece is never resumed.
    have told : last = true := by
      by_contra untold
      obtain ⟨⟨r', v⟩, ends, sent⟩ :=
        @asyncWrites_message W pieces last msg w₀ w init yields fits
      rw [OpSends, if_neg untold] at sent
      have suspended := congrArg Prod.fst (asyncWrites.unique ends)
      rw [sent] at suspended
      cases suspended
    subst told
    obtain ⟨r', v, v', sends, _, written, _⟩ := chunked_sent only init yields fits
    have octets : t.stream.written = chunkedOctets msg pieces := by
      rw [congrArg (fun x => x.2.stream.written) (writes.unique sends)]
      exact written
    rw [octets] at decoded
    unfold chunkedOctets at decoded
    have leaves := leaves_of_feed awaited decoded
    have noLength : ∀ f ∈ msg.fields, isLength f.1 = false := by
      by_contra sized
      simp only [not_forall, Bool.not_eq_false] at sized
      obtain ⟨f, there, length⟩ := sized
      obtain ⟨halt, u, refused⟩ := @header_refused d obliging msg wellFormed len (fun m known =>
        takeFields_both obliging wellFormed.fields ⟨f, there, length⟩ only.coded only.each known) impl
        (chunks pieces ++ chunkEncodeFinal)
      obtain ⟨stopped, _⟩ := leaves.unique (.stop (fun ended => by cases ended) awaited refused)
      cases stopped
    have frames := only.frames obliging wellFormed noLength len
    have body : msg.is_request = true ∨ bodiless (startStatus msg) = false := by
      by_contra none
      rw [not_or, Bool.not_eq_true, Bool.not_eq_false] at none
      have ended : stateBehind msg ⟨0, false, true⟩ = .complete := by
        rw [stateBehind, none.1, none.2]
        rfl
      obtain ⟨u, leaves', _⟩ := @bodiless_leaves d msg len impl obliging wellFormed _ frames ended
        (chunks pieces ++ chunkEncodeFinal)
      obtain ⟨_, rest, _⟩ := leaves.unique leaves'
      have final : chunkEncodeFinal ≠ [] := by decide
      exact final (List.append_eq_nil_iff.mp rest.symm).2
    exact ⟨noLength, body, chunked_end obliging wellFormed frames body fits leaves rfl, rfl⟩
  · rintro ⟨noLength, body, some_, rfl⟩
    obtain ⟨r, t, t', writes, asyncWrites, written, written'⟩ := chunked_sent only init yields fits
    obtain ⟨u, leaves, complete, calls⟩ := @chunked_leaves d msg pieces len impl obliging wellFormed
      (only.frames obliging wellFormed noLength len) body (fun b there => ⟨some_ b there, fits b there⟩) []
    have whole : writeHeader msg ++ (chunks pieces ++ (chunkEncodeFinal ++ [])) =
        chunkedOctets msg pieces ++ [] := by
      simp only [chunkedOctets, List.append_nil]
    rw [whole] at leaves
    obtain ⟨q, fed, message⟩ := leaves.feeds stream (by rw [← whole]; exact awaited) (x := x)
    rw [List.append_nil] at fed
    refine ⟨r, t, t', q, writes, asyncWrites, written.trans written'.symm, ?_, ?_, ?_⟩
    · rw [written]
      exact fed
    · rw [message]
      exact complete
    · rw [message]
      exact calls

/-- A writer with a list of pieces, which says with the last of them that it is the last. -/
def listWriter : BodyWriter where
  State := List (List Octets)
  init pieces := (pieces, none)
  write pieces :=
    match pieces with
    | [] => ([], .nothing)
    | sequence :: pieces => (pieces, .buffers sequence pieces.isEmpty)

/-- A header of a response with a body in chunks. -/
def inChunks : Header where
  version := 11
  start := .response 200 (octets "OK")
  fields := [(octets "Transfer-Encoding", octets "chunked")]

/-- The grammar allows that header. -/
theorem inChunks_wellFormed : WellFormed inChunks where
  version := .inr rfl
  start := ⟨by decide, by decide, by decide +kernel⟩
  fields := by
    intro field there
    obtain rfl := List.mem_singleton.mp there
    exact ⟨by decide +kernel, by decide +kernel, by decide +kernel, by decide +kernel⟩

/-- It says that the body is in chunks. -/
theorem inChunks_only : OnlyChunked inChunks.fields :=
  ⟨[], _, _, [], rfl, by decide +kernel, nofun, octets "chunked", by decide +kernel, by decide +kernel⟩

/-- A response with two pieces round-trips. -/
theorem chunked_round_trip_pieces :
    RoundTrips (W := listWriter) (d := accepting) inChunks [[octets "ab"], [octets "c"]]
      [[octets "ab"], [octets "c"]] 0 0 () :=
  (chunked_round_trip_iff accepting_seamless (fun _ _ => rfl) inChunks_wellFormed inChunks_only rfl
    (.more rfl (.with_last rfl)) (by decide) 0 0 ()).mpr
    ⟨by decide +kernel, .inr (by decide), by decide, rfl⟩

/-- A response with an empty body in chunks is sent with two last chunks. -/
theorem chunked_round_trip_fails :
    ¬∀ (d : Derived) (W : BodyWriter) (msg : Header) (w₀ w : W.State) (pieces : List (List Octets))
      (last : Bool) (len x : Nat) (impl : d.State), Seamless d → Obliging d → WellFormed msg →
      OnlyChunked msg.fields → W.init w₀ = (w, none) → Yields W w pieces last →
      (∀ b ∈ pieces, b.flatten.length < 2 ^ 64) → RoundTrips msg w₀ pieces len x impl := by
  intro undone
  obtain ⟨r, t, t', o, writes, _, _, decoded, _⟩ := undone accepting listWriter inChunks [[]] [[]] [[]]
    true 0 0 () accepting_seamless (fun _ _ => rfl) inChunks_wellFormed inChunks_only rfl
    (.with_last rfl) (by decide)
  obtain ⟨⟨r', v⟩, ends, written⟩ := @Machine.ends_of_iterate _ _ (stepOf (writeMessage (W := listWriter)))
    10 (.inl (.init, writePreparation inChunks [[]] {}))
    (fun r => r.2.stream.written == writeHeader inChunks ++ chunkEncodeFinal ++ chunkEncodeFinal)
    (by decide +kernel)
  rw [congrArg (fun r => r.2.stream.written) (writes.unique ends), eq_of_beq written] at decoded
  have used := congrArg Prod.fst decoded
  dsimp only at used
  exact absurd used (by decide +kernel)

end Beast.Http
