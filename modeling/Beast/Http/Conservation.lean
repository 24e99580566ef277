import Beast.Http.ReadRuns

/-! A read delivers the octets of the message to its body, and keeps those behind it. -/

namespace Beast.Http

/-- A derived class that also keeps the octets of the body. -/
def bodied (d : Derived) : Derived where
  State := d.State × Octets
  call state c :=
    (((d.call state.1 c).1, match c with
      | .on_data s => state.2 ++ s
      | _ => state.2), (d.call state.1 c).2)

variable {d : Derived}

/-- The octets of the body that were kept. -/
def Message.stored (m : Message (bodied d)) : Octets := Prod.snd m.impl

/-- Keeping the body takes the data as one stream where the derived class does. -/
theorem bodied_seamless (stream : Seamless d) : Seamless (bodied d) where
  accepts state s := stream.accepts state.1 s
  joins state s t := by simp only [bodied, stream.joins, List.append_assoc]

/-- Keeping the body refuses nothing more than the derived class does. -/
theorem bodied_storing (store : Storing d) : Storing (bodied d) where
  toSeamless := bodied_seamless store.toSeamless
  begins state n := store.begins state.1 n
  completes state := store.completes state.1

/-- Presents octets to a parser as a whole, and tells it of their end where it expects more. -/
def parseAtOnce (isRequest : Bool) (text : Octets) : ParserStep d Nat := do
  let n ← feed isRequest (text.length + 1) text
  if (← get).state_ == .complete then return n
  else do
    writeEof
    return n

/-- The end of the stream is told to the message alone. -/
theorem writeEof_message {p q : BasicParser d} (same : p.toMessage = q.toMessage) :
    (Step.run writeEof p).1 = (Step.run writeEof q).1 ∧
      (Step.run writeEof p).2.toMessage = (Step.run writeEof q).2.toMessage := by
  unfold writeEof onMessage
  rw [Step.run_get_bind, Step.run_get_bind, same]
  split
  · exact ⟨rfl, same⟩
  · split
    · split
      · exact ⟨rfl, same⟩
      · exact ⟨rfl, same⟩
    · rw [Step.run_zoom, Step.run_zoom, same]
      exact ⟨rfl, rfl⟩

/-- What the end of the stream makes of a message: what is returned, and the state behind it. -/
def eofOf (m : Message d) : Except Halt Unit × ParseState :=
  if m.state_ = .header then (.error (.ec .partial_message), m.state_)
  else if m.f_.flagContentLength = true ∨ m.f_.flagChunked = true then
    if m.state_ = .complete then (.ok (), m.state_)
    else (.error (.ec .partial_message), m.state_)
  else (.ok (), .complete)

variable {p : BasicParser (bodied d)}

/-- The end of the stream adds nothing to the body. -/
theorem writeEof_spec (completes : ∀ state, (d.call state .on_complete).2 = none) :
    (Step.run writeEof p).1 = (eofOf p.toMessage).1 ∧
      (Step.run writeEof p).2.state_ = (eofOf p.toMessage).2 ∧
      (Step.run writeEof p).2.stored = p.stored := by
  have told : Step.run (invoke .on_complete) p.toMessage =
      (.ok (), { p.toMessage with impl := ((d.call (Prod.fst p.impl) .on_complete).1, p.stored) }) := by
    have accepted := completes (Prod.fst p.impl)
    unfold Step.run invoke bodied
    dsimp only
    rw [accepted]
    rfl
  unfold writeEof eofOf onMessage doComplete
  rw [Step.run_get_bind]
  by_cases header : p.state_ = .header
  · simp [header, fail]
  rw [if_neg (by simpa using header), if_neg header]
  by_cases sized : p.f_.flagContentLength = true ∨ p.f_.flagChunked = true
  · rw [if_pos (by simpa using sized), if_pos sized]
    by_cases complete : p.state_ = .complete
    · simp [complete]
    · simp [complete, fail]
  · rw [if_neg (by simpa using sized), if_neg sized, Step.run_zoom, Step.run_bind_ok told]
    exact ⟨rfl, rfl, rfl⟩

/-- What the body was announced to says the same of the end of the stream. -/
theorem announced_eofOf {m m' : Message d} (announced : Step.run maybeDoBodyIndirect m = (.ok (), m')) :
    eofOf m' = eofOf m := by
  have same := maybeDoBody_spec announced
  unfold eofOf
  rw [same]

/-- An announcement adds nothing to the body. -/
theorem announced_body {m m' : Message (bodied d)}
    (announced : Step.run maybeDoBodyIndirect m = (.ok (), m')) : m'.stored = m.stored := by
  have told : ∀ (n : Option Nat) (m : Message (bodied d)),
      (Step.run (invoke (.on_body n)) m).2.stored = m.stored := by
    intro n m
    rw [invoke_spec]
    rfl
  unfold maybeDoBodyIndirect setFlags at announced
  rw [Step.run_get_bind] at announced
  split at announced
  · cases announced
    rfl
  · rw [Step.run_modify_bind] at announced
    split at announced
    · have body := told (some m.len_) { m with f_ := { m.f_ with flagOnBody := true } }
      rwa [announced] at body
    · have body := told none { m with f_ := { m.f_ with flagOnBody := true } }
      rwa [announced] at body

/-- What a read makes of what a stream reports behind its octets. -/
def reportOf (ending : ErrorCode) (m : Message d) : Except Halt Unit × ParseState :=
  if ending = .eof then
    if m.f_.flagGotSome = true then eofOf m else (.error (.ec .end_of_stream), m.state_)
  else (.error (.ec ending), m.state_)

/-- A reader with a place for as many octets as are asked for. -/
def roomyReader : DirectReader where
  State := Unit
  prepare _ n := ((), some n)
  commit _ _ := ()
  bounded _ n k some_ prepared := by
    cases prepared
    exact ⟨some_, Nat.le_refl n⟩

/-- A reader with a place for one octet at a time. -/
def sparingReader : DirectReader where
  State := Unit
  prepare _ n := ((), some (min n 1))
  commit _ _ := ()
  bounded _ n k some_ prepared := by
    cases prepared
    exact ⟨Nat.le_min.mpr ⟨some_, Nat.le_refl 1⟩, Nat.min_le_left n 1⟩

/-- Accepting every call is what a direct reader asks for. -/
theorem accepting_storing : Storing accepting where
  toSeamless := accepting_seamless
  begins _ _ := rfl
  completes _ := rfl

/-- A new parser in front of octets in one piece, and of a stream that ends behind some more. -/
def waiting (R : DirectReader) (reader : R.State) (text : Octets) (input : List Octets) :
    ReadState (bodied accepting) R flatBuffer where
  toBasicParser := opened false 0 0 ((), [])
  r_ := reader
  buffer := { data := text, max_ := 65536 }
  stream := { input, ending := .eof }

/-- A reader with enough room, behind a buffer in one piece, loses nothing. -/
theorem roomy_fine {isDirect : Bool}
    (y : ReadPoint × ReadState (bodied accepting) roomyReader flatBuffer) : ¬Loses isDirect y := by
  obtain ⟨point, s⟩ := y
  cases point with
  | read_some =>
    rintro ⟨_, _, _, k, prepared, short⟩
    cases prepared
    exact Nat.lt_irrefl _ short
  | write =>
    rintro ⟨several, _⟩
    exact Nat.lt_irrefl 1 several
  | do_read => exact id

/-- Whether a call has a body of some octets. -/
def succeedsWith {R : DirectReader} {B : DynamicBuffer} (body : Octets)
    (r : Except Halt Nat × ReadState (bodied accepting) R B) : Bool :=
  match r.1 with
  | .ok n => n == 0 && r.2.stored == body
  | .error _ => false

theorem succeedsWith_spec {R : DirectReader} {B : DynamicBuffer} {body : Octets}
    {r : Except Halt Nat × ReadState (bodied accepting) R B} (succeeds : succeedsWith body r = true) :
    r.1 = .ok 0 ∧ r.2.stored = body := by
  unfold succeedsWith at succeeds
  split at succeeds
  · rename_i n ended
    simp only [Bool.and_eq_true, beq_iff_eq] at succeeds
    obtain ⟨rfl, body⟩ := succeeds
    exact ⟨ended, body⟩
  · cases succeeds

/-- A response whose body ends with the stream, with two octets of it in the buffer already. -/
def response : Octets := octets "HTTP/1.1 200 OK\r\n\r\nab"

section Bodies

variable {R R' : DirectReader} {B B' : DynamicBuffer} {s t v : ReadState (bodied d) R B}
  {s' t' : ReadState (bodied d) R' B'}

/-- What a stream reports behind its octets adds nothing to the body. -/
theorem Ending.spec {r : Except Halt Unit}
    (completes : ∀ state, (d.call state .on_complete).2 = none) (ending : Ending v r t) :
    (r, t.state_) = reportOf v.stream.ending v.toMessage ∧ t.stored = v.stored := by
  unfold reportOf
  cases ending with
  | eof reported got ended =>
    obtain ⟨outcome, state, body⟩ := writeEof_spec (p := v.toBasicParser) completes
    rw [ended] at outcome state body
    have some_ : v.f_.flagGotSome = true := got
    rw [if_pos reported, if_pos some_]
    exact ⟨Prod.ext outcome state, body⟩
  | nothing reported got same =>
    have none : v.f_.flagGotSome ≠ true := by
      intro some_
      rw [gotSome, some_] at got
      cases got
    rw [if_pos reported, if_neg none, same]
    exact ⟨rfl, rfl⟩
  | error reported same =>
    rw [if_neg reported, same]
    exact ⟨rfl, rfl⟩

/-- A body that was announced ahead makes no difference at the end of the stream. -/
theorem Ahead.same {u w : Message (bodied d)} (ahead : Ahead u w) (ending : ErrorCode) :
    reportOf ending w = reportOf ending u ∧ w.stored = u.stored := by
  rcases ahead with rfl | ⟨_, _, announced⟩
  · exact ⟨rfl, rfl⟩
  · refine ⟨?_, announced_body announced⟩
    have same := maybeDoBody_spec announced
    have got : w.f_.flagGotSome = u.f_.flagGotSome := by rw [same]
    have state : w.state_ = u.state_ := by rw [same]
    unfold reportOf
    rw [announced_eofOf announced, got, state]

/-- What a call comes to, in terms of where all of the octets lead. -/
inductive Settles (ending : ErrorCode) :
    Except Halt Unit → Message (bodied d) → Except Halt Nat → ReadState (bodied d) R B → Prop
  | whole {t : ReadState (bodied d) R B} (complete : t.state_ = .complete) :
      Settles ending (.ok ()) t.toMessage (.ok 0) t
  | stops {t : ReadState (bodied d) R B} {halt : Halt} :
      Settles ending (.error halt) t.toMessage (.error halt) t
  | ended {t : ReadState (bodied d) R B} {u : Message (bodied d)} {r : Except Halt Unit}
      (open_ : u.state_ ≠ .complete) (report : (r, t.state_) = reportOf ending u)
      (body : t.stored = u.stored) : Settles ending (.ok ()) u (r.map fun _ => 0) t

/-- A call that found room settles what all of its octets lead to. -/
theorem Outcome.settles {isRequest : Bool} {r : Except Halt Nat}
    (completes : ∀ state, (d.call state .on_complete).2 = none)
    (outcome : Outcome isRequest False s (r, t)) :
    ∃ r' left u, Leaves isRequest (s.data ++ s.stream.left) s.toMessage r' left u ∧
      Settles s.stream.ending r' u r t := by
  cases outcome with
  | whole left ended leaves =>
    have all := leaves t.stream.left
    rw [List.append_assoc, ← left] at all
    exact ⟨_, _, _, all, .whole ended⟩
  | stops left leaves =>
    have all := leaves t.stream.left
    rw [List.append_assoc, ← left] at all
    exact ⟨_, _, _, all, .stops⟩
  | @ended _ v u r left open_ leaves ahead reported ending =>
    obtain ⟨report, body⟩ := ending.spec completes
    obtain ⟨same, ahead⟩ := ahead.same s.stream.ending
    rw [reported, same] at report
    exact ⟨_, _, _, leaves, .ended open_ report (body.trans ahead)⟩
  | overflow short => exact short.elim
  | thrown short => exact short.elim

/-- Two calls that settle the same come to the same. -/
theorem Settles.same {ending : ErrorCode} {outcome : Except Halt Unit} {u : Message (bodied d)}
    {r r' : Except Halt Nat} (first : Settles ending outcome u r t)
    (second : Settles ending outcome u r' t') :
    r = r' ∧ t.stored = t'.stored ∧ t.state_ = t'.state_ := by
  cases first with
  | whole complete =>
    generalize message : t.toMessage = u at second
    cases second with
    | whole => exact ⟨rfl, rfl, rfl⟩
    | ended open_ => exact absurd (message ▸ complete) open_
  | stops =>
    generalize message : t.toMessage = u at second
    cases second with
    | stops => exact ⟨rfl, rfl, rfl⟩
  | ended open_ report body =>
    cases second with
    | whole complete => exact absurd complete open_
    | ended _ report' body' =>
      obtain ⟨rfl, state⟩ := Prod.mk.inj (report.trans report'.symm)
      exact ⟨rfl, body.trans body'.symm, state⟩

/-- A parser before its first octet stands at the start of a call. -/
theorem standing_new {isRequest isDirect skipsBody : Bool} {len x : Nat} {impl : (bodied d).State}
    (new : s.toBasicParser = opened skipsBody len x impl) :
    Standing isRequest isDirect (.read_some, s) := by
  obtain ⟨header, front, unfinished⟩ := opened_spec skipsBody len x impl
  have state : s.state_ = .header := by
    rw [congrArg BasicParser.toMessage new]
    exact header
  refine ⟨by simp [state], ?_, awaits_other (by simp [state]) (by simp [state]),
    ⟨fun other => absurd state other, fun other => ?_⟩, nofun, fun other => absurd rfl other, nofun⟩
  · change Remembers s.toBasicParser s.data
    rw [new]
    exact fun more => searched_fresh front unfinished _
  · rw [state] at other
    cases other

/--
A read delivers the first message of the octets, and nothing else, and keeps what follows it.

The octets are those in the buffer and those that arrive. What follows is in the buffer, or still to
arrive.
-/
def Conserves (isRequest : Bool) (s t : ReadState (bodied d) R B) : Prop :=
  ∃ first o, Step.run (parseAtOnce isRequest (s.data ++ s.stream.left)) s.toBasicParser =
      (.ok first, o) ∧ t.state_ = .complete ∧ o.state_ = .complete ∧ t.stored = o.stored ∧
    (s.data ++ s.stream.left).drop first = t.data ++ t.stream.left

/--
A read that succeeds neither loses octets nor takes them twice.

No body that ends with the stream may find more octets in the buffer than the reader has place for.
No sequence of buffers may be presented behind a longer one.
-/
theorem read_conserves (stream : Seamless d) {isRequest isDirect skipsBody : Bool} {len x n : Nat}
    {impl : d.State} (store : isDirect = true → Storing d)
    (new : s.toBasicParser = opened skipsBody len x (impl, []))
    (ended : Machine.Ends (readStep isRequest isDirect afterRead) (.inl (.read_some, s)) (.ok n, t))
    (fine : ∀ y, Machine.Visits (readStep isRequest isDirect afterRead) (.inl (.read_some, s)) y →
      ¬Loses isDirect y) : Conserves isRequest s t := by
  have outcome : Outcome isRequest True s (.ok n, t) :=
    read_outcome (bodied_seamless stream) (fun direct => bodied_storing (store direct))
      (standing_new new) ended fun y visited => ⟨fine y visited, fun _ => trivial⟩
  generalize result : (Except.ok n : Except Halt Nat) = r at outcome
  cases outcome with
  | whole left complete leaves =>
    have all := leaves t.stream.left
    rw [List.append_assoc, ← left] at all
    obtain ⟨whole, q, fed, outcome, behind, message⟩ := all.feed new
    cases whole with
    | error halt => cases outcome
    | ok first =>
      have done : q.state_ = .complete := by rw [message]; exact complete
      refine ⟨first, q, ?_, complete, done, congrArg Message.stored message.symm, behind.symm⟩
      unfold parseAtOnce
      rw [Step.run_bind_ok fed, Step.run_get_bind, if_pos (by simp [done])]
      rfl
  | stops => cases result
  | @ended _ v u r nor open_ leaves ahead reported ending =>
    obtain ⟨whole, q, fed, outcome, behind, message⟩ := leaves.feed new
    cases r with
    | error halt => cases result
    | ok _ =>
    cases whole with
    | error halt => cases outcome
    | ok first =>
      -- The end of the stream completes the message that the octets have led to, and adds nothing.
      cases ending with
      | eof reported got told =>
        have told' : (Step.run writeEof q).1 = .ok () ∧
            t.stored = (Step.run writeEof q).2.stored := by
          rcases ahead with same | ⟨store, _, announced⟩
          · obtain ⟨outcome, behind⟩ := writeEof_message (message.trans same.symm)
            rw [told] at outcome behind
            exact ⟨outcome, congrArg Message.stored behind.symm⟩
          · have completes := fun state => store.completes (state, [])
            obtain ⟨ends, _, here⟩ := writeEof_spec (p := v.toBasicParser) completes
            obtain ⟨ends', _, there⟩ := writeEof_spec (p := q) completes
            rw [told] at ends here
            refine ⟨?_, ?_⟩
            · rw [ends', message, ← announced_eofOf announced, ← ends]
            · rw [there, congrArg Message.stored message, ← announced_body announced]
              exact here
        have closed : q.state_ ≠ .complete := by rw [message]; exact open_
        have ended := Step.run_snd told'.1
        refine ⟨first, (Step.run writeEof q).2, ?_, writeEof_complete told,
          writeEof_complete ended, told'.2, ?_⟩
        · unfold parseAtOnce
          rw [Step.run_bind_ok fed, Step.run_get_bind, if_neg (by simpa using closed),
            Step.run_bind_ok ended]
          rfl
        · rw [nor, List.append_nil]
          exact behind.symm
  | overflow => cases result
  | thrown => cases result

/-- The body of a response is delivered whole to a reader with enough room. -/
theorem read_conserves_response : ∃ t, Conserves false (waiting roomyReader () response [[99]]) t ∧
    t.stored = octets "abc" := by
  obtain ⟨⟨r, t⟩, ended, succeeds⟩ := @Machine.ends_of_iterate _ _ (readStep false true afterRead)
    10 (.inl (.read_some, waiting roomyReader () response [[99]])) (succeedsWith (octets "abc"))
    (by decide +kernel)
  obtain ⟨rfl, body⟩ := succeedsWith_spec succeeds
  have new : (waiting roomyReader () response [[99]]).toBasicParser = opened false 0 0 ((), []) := rfl
  exact ⟨t, read_conserves accepting_seamless (fun _ => accepting_storing) new ended
    fun y _ => roomy_fine y, body⟩

/-- A reader with room for one octet loses every second one of those in the buffer. -/
theorem read_loses :
    ¬∀ (d : Derived) (R : DirectReader) (B : DynamicBuffer) (isRequest isDirect skipsBody : Bool)
      (len x n : Nat) (impl : d.State) (s t : ReadState (bodied d) R B), Seamless d →
      (isDirect = true → Storing d) → s.toBasicParser = opened skipsBody len x (impl, []) →
      Machine.Ends (readStep isRequest isDirect afterRead) (.inl (.read_some, s)) (.ok n, t) →
      Conserves isRequest s t := by
  intro conserves
  obtain ⟨⟨r, t⟩, ended, succeeds⟩ := @Machine.ends_of_iterate _ _ (readStep false true afterRead)
    10 (.inl (.read_some, waiting sparingReader () response [])) (succeedsWith (octets "a"))
    (by decide +kernel)
  obtain ⟨rfl, body⟩ := succeedsWith_spec succeeds
  obtain ⟨first, o, ran, _, _, stored, _⟩ := conserves _ _ _ false true false 0 0 0 () _ t
    accepting_seamless (fun _ => accepting_storing) rfl ended
  have whole : (Step.run (parseAtOnce false response) (opened (d := bodied accepting) false 0 0
    ((), []))).2.stored = octets "ab" := by decide +kernel
  have same : (Step.run (parseAtOnce false response) (opened (d := bodied accepting) false 0 0
    ((), []))) = (.ok first, o) := ran
  rw [same] at whole
  rw [body, whole] at stored
  exact absurd stored (by decide +kernel)

/--
A direct parser comes to the body, the state and the outcome of an indirect one.

It does so for the same octets, however they are split up between the buffers and the streams.
-/
theorem direct_agrees (store : Storing d) {isRequest skipsBody : Bool} {len x : Nat}
    {impl : d.State} {r r' : Except Halt Nat}
    (new : s.toBasicParser = opened skipsBody len x (impl, []))
    (new' : s'.toBasicParser = opened skipsBody len x (impl, []))
    (octets : s.data ++ s.stream.left = s'.data ++ s'.stream.left)
    (reported : s.stream.ending = s'.stream.ending)
    (direct : Machine.Ends (readStep isRequest true afterRead) (.inl (.read_some, s)) (r, t))
    (indirect : Machine.Ends (readStep isRequest false afterRead) (.inl (.read_some, s')) (r', t'))
    (fine : ∀ y, Machine.Visits (readStep isRequest true afterRead) (.inl (.read_some, s)) y →
      ¬Loses true y ∧ ¬Starves true y)
    (fine' : ∀ y, Machine.Visits (readStep isRequest false afterRead) (.inl (.read_some, s')) y →
      ¬Loses false y ∧ ¬Starves false y) :
    r = r' ∧ t.stored = t'.stored ∧ t.state_ = t'.state_ := by
  have outcome : Outcome isRequest False s (r, t) := read_outcome
    (bodied_seamless store.toSeamless) (fun _ => bodied_storing store) (standing_new new) direct fine
  have outcome' : Outcome isRequest False s' (r', t') :=
    read_outcome (bodied_seamless store.toSeamless) (fun direct => absurd direct (by simp))
      (standing_new new') indirect fine'
  obtain ⟨r₀, left, u, leaves, settles⟩ := outcome.settles store.completes
  obtain ⟨r₁, left', u', leaves', settles'⟩ := outcome'.settles store.completes
  have message : s.toMessage = s'.toMessage := by
    rw [congrArg BasicParser.toMessage new, congrArg BasicParser.toMessage new']
  rw [octets, message] at leaves
  rw [reported] at settles
  obtain ⟨rfl, _, rfl⟩ := leaves.unique leaves'
  exact settles.same settles'

/-- Whether a call finds room in the buffer where it stands. -/
def findsRoom (y : ReadPoint × ReadState (bodied accepting) roomyReader flatBuffer) : Bool :=
  match y with
  | (.do_read, s) => (s.buffer.prepare (s.buffer.read_size_helper 65536)).isSome
  | _ => true

/-- A reader with enough room, and a buffer with some, are not starved. -/
theorem findsRoom_spec {isDirect : Bool}
    {y : ReadPoint × ReadState (bodied accepting) roomyReader flatBuffer}
    (found : findsRoom y = true) : ¬Starves isDirect y := by
  obtain ⟨point, s⟩ := y
  cases point with
  | read_some =>
    rintro ⟨_, n, _, threw⟩
    cases threw
  | write => exact id
  | do_read =>
    intro starves
    have some_ : (s.buffer.prepare (s.buffer.read_size_helper 65536)).isSome = true := found
    have none_ : s.buffer.prepare (s.buffer.read_size_helper 65536) = none := starves
    rw [none_] at some_
    cases some_

/-- A response is the same to both parsers, in one piece or from the stream. -/
theorem direct_agrees_response : ∃ t t', Machine.Ends (readStep false true afterRead)
      (.inl (.read_some, waiting roomyReader () response [[99]])) (.ok 0, t) ∧
    Machine.Ends (readStep false false afterRead)
      (.inl (.read_some, waiting roomyReader () [] [response, [99]])) (.ok 0, t') ∧
    t.stored = t'.stored ∧ t.state_ = t'.state_ := by
  obtain ⟨⟨r, t⟩, direct, succeeds⟩ := @Machine.ends_of_iterate _ _ (readStep false true afterRead)
    10 (.inl (.read_some, waiting roomyReader () response [[99]])) (succeedsWith (octets "abc"))
    (by decide +kernel)
  obtain ⟨⟨r', t'⟩, indirect, succeeds'⟩ := @Machine.ends_of_iterate _ _
    (readStep false false afterRead) 20
    (.inl (.read_some, waiting roomyReader () [] [response, [99]])) (succeedsWith (octets "abc"))
    (by decide +kernel)
  obtain ⟨rfl, _⟩ := succeedsWith_spec succeeds
  obtain ⟨rfl, _⟩ := succeedsWith_spec succeeds'
  have room := fun y => @Machine.visits_of_passes _ _ (readStep false true afterRead) findsRoom 10
    (.inl (.read_some, waiting roomyReader () response [[99]])) y (by decide +kernel)
  have room' := fun y => @Machine.visits_of_passes _ _ (readStep false false afterRead) findsRoom 20
    (.inl (.read_some, waiting roomyReader () [] [response, [99]])) y (by decide +kernel)
  have new : (waiting roomyReader () response [[99]]).toBasicParser = opened false 0 0 ((), []) := rfl
  have new' : (waiting roomyReader () [] [response, [99]]).toBasicParser =
      opened false 0 0 ((), []) := rfl
  have agrees := direct_agrees accepting_storing new new' (by decide +kernel) rfl direct indirect
    (fun y visited => ⟨roomy_fine y, findsRoom_spec (room y visited)⟩)
    (fun y visited => ⟨roomy_fine y, findsRoom_spec (room' y visited)⟩)
  exact ⟨t, t', direct, indirect, agrees.2⟩

/-- A reader with room for one octet has another body than an indirect parser. -/
theorem direct_disagrees :
    ¬∀ (d : Derived) (R R' : DirectReader) (B B' : DynamicBuffer) (isRequest skipsBody : Bool)
      (len x n n' : Nat) (impl : d.State) (s t : ReadState (bodied d) R B)
      (s' t' : ReadState (bodied d) R' B'), Storing d →
      s.toBasicParser = opened skipsBody len x (impl, []) →
      s'.toBasicParser = opened skipsBody len x (impl, []) →
      s.data ++ s.stream.left = s'.data ++ s'.stream.left →
      s.stream.ending = s'.stream.ending →
      Machine.Ends (readStep isRequest true afterRead) (.inl (.read_some, s)) (.ok n, t) →
      Machine.Ends (readStep isRequest false afterRead) (.inl (.read_some, s')) (.ok n', t') →
      t.stored = t'.stored ∧ t.state_ = t'.state_ := by
  intro agrees
  obtain ⟨⟨r, t⟩, direct, succeeds⟩ := @Machine.ends_of_iterate _ _ (readStep false true afterRead)
    10 (.inl (.read_some, waiting sparingReader () response [])) (succeedsWith (octets "a"))
    (by decide +kernel)
  obtain ⟨⟨r', t'⟩, indirect, succeeds'⟩ := @Machine.ends_of_iterate _ _
    (readStep false false afterRead) 20
    (.inl (.read_some, waiting sparingReader () response [])) (succeedsWith (octets "ab"))
    (by decide +kernel)
  obtain ⟨rfl, body⟩ := succeedsWith_spec succeeds
  obtain ⟨rfl, body'⟩ := succeedsWith_spec succeeds'
  have same := (agrees accepting _ _ _ _ false false 0 0 0 0 () _ t _ t' accepting_storing rfl rfl
    rfl rfl direct indirect).1
  rw [body, body'] at same
  exact absurd same (by decide +kernel)

end Bodies

end Beast.Http
