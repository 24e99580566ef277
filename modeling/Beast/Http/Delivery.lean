import Beast.Http.Segments

/-! However a text is delivered in pieces, the parser does with it what it does with the whole. -/

namespace Beast.Http

variable {d : Derived}

/-- A message in any other state than those of known data awaits none. -/
theorem awaits_other {s : Message d} (body : s.state_ ≠ .body) (chunk : s.state_ ≠ .chunk_body) :
    Awaits s := by
  rintro (state | state)
  · exact absurd state body
  · exact absurd state chunk

/-- The data that is awaited depends on the state and on what is left. -/
theorem Awaits.congr {s t : Message d} (awaits : Awaits s) (state : t.state_ = s.state_)
    (len : t.len_ = s.len_) : Awaits t := by
  unfold Awaits at awaits ⊢
  rw [state, len]
  exact awaits

/-- A call of the derived class leaves what is awaited. -/
theorem invoke_awaits {c : Callback} {s t : Message d} {r : Except Halt Unit} (awaits : Awaits s)
    (ran : Step.run (invoke c) s = (r, t)) : Awaits t := by
  have same : t = { s with impl := (d.call s.impl c).1 } := by
    rw [← invoke_spec, ran]
  exact awaits.congr (by rw [same]) (by rw [same])

/-- A body is only announced with a size that is not zero. -/
theorem doHeader_awaits {isRequest : Bool} {status : Nat} {s t : Message d}
    {r : Except Halt Unit} (ran : Step.run (doHeader isRequest status) s = (r, t)) :
    Awaits t := by
  -- Every branch that announces a body of known size has tested that the size is not zero.
  cases isRequest with
  | true =>
    simp only [doHeader, doHeaderRequest, ↓reduceIte, Step.run_get_bind] at ran
    repeat' split at ran
    all_goals
      cases ran
      first
      | refine fun _ => ?_; assumption
      | refine awaits_other ?_ ?_ <;> simp
  | false =>
    simp only [doHeader, doHeaderResponse, Bool.false_eq_true, ↓reduceIte, Step.run_get_bind] at ran
    repeat' split at ran
    all_goals
      cases ran
      first
      | refine fun _ => ?_; assumption
      | refine awaits_other ?_ ?_ <;> simp

/-- A header that was parsed announces no empty body. -/
theorem parseHeaderBlock_awaits {isRequest : Bool} {block : Octets} {s t : Message d}
    (ran : Step.run (parseHeaderBlock isRequest block) s = (.ok (), t)) : Awaits t := by
  -- The decision is made behind the fields, whatever the start line was.
  have behind : ∀ {status : Nat} {it : Octets} {s : Message d}, Step.run (do
      let _ ← parseFields (it.length + 1) it
      doHeader isRequest status
      invoke .on_header
      if (← get).state_ == .complete then
        invoke .on_complete) s = (.ok (), t) → Awaits t := by
    intro status it s ran
    obtain ⟨_, u, _, ran⟩ := Step.bind_ok ran
    obtain ⟨_, v, decided, ran⟩ := Step.bind_ok ran
    obtain ⟨_, w, called, ran⟩ := Step.bind_ok ran
    have awaits := invoke_awaits (doHeader_awaits decided) called
    rw [Step.run_get_bind] at ran
    split at ran
    · exact invoke_awaits awaits ran
    · cases ran
      exact awaits
  unfold parseHeaderBlock at ran
  obtain ⟨⟨version, status, it⟩, u, _, ran⟩ := Step.bind_ok ran
  dsimp only at ran
  split at ran
  · obtain ⟨_, u, _, ran⟩ := Step.bind_ok ran
    exact behind ran
  · exact behind ran

/-- A chunk is only opened with the size that was read. -/
theorem openChunk_awaits {p it : Octets} {v term : Nat} {s t : Message d} (sized : v ≠ 0)
    (ran : Step.run (openChunk p it v term) s = (.ok (), t)) : Awaits t := by
  -- The state is set by the last step, on either side of the extension.
  have opened : ∀ {s : Message d}, Step.run (modify fun self : Message d =>
      { self with
        len_ := v
        f_ := { self.f_ with flagExpectCRLF := true }
        state_ := .chunk_body } : MessageStep d Unit) s = (.ok (), t) → Awaits t := by
    intro s ran
    cases ran
    exact fun _ => Nat.pos_of_ne_zero sized
  unfold openChunk at ran
  obtain ⟨c, u, _, ran⟩ := Step.bind_ok ran
  dsimp only at ran
  split at ran
  · obtain ⟨_, u, _, ran⟩ := Step.bind_ok ran
    obtain ⟨_, u, _, ran⟩ := Step.bind_ok ran
    exact opened ran
  · split at ran
    · obtain ⟨_, u, stopped, _⟩ := Step.bind_ok ran
      simp [fail] at stopped
    · exact opened ran

/-- The header of a chunk that was parsed opens no empty chunk. -/
theorem chunkStep_awaits {text : Octets} {s t : Message d} {n : Nat}
    (chunk : s.state_ = .chunk_header)
    (ran : Step.run (chunkStep text) s = (.ok n, t)) : Awaits t := by
  -- In front of a chunk no data is awaited, so a step that waits is harmless.
  have unchanged : Awaits s := awaits_other (by simp [chunk]) (by simp [chunk])
  -- The end of the chunk before, where there is one, is taken first.
  have line : ∀ {p : Octets}, Step.run (chunkLineStep text p) s = (.ok n, t) → Awaits t := by
    intro p ran
    unfold chunkLineStep at ran
    split at ran
    · cases ran
      exact unchanged
    split at ran
    · simp [fail] at ran
    · cases ran
      exact unchanged
    · unfold chunkSizeStep at ran
      obtain ⟨⟨v, it⟩, u, size, ran⟩ := Step.bind_ok ran
      obtain rfl : s = u := congrArg Prod.snd size
      cases v with
      | none => simp [fail] at ran
      | some v =>
        dsimp only at ran
        split at ran
        · rename_i sized
          obtain ⟨_, u, opened, ran⟩ := Step.bind_ok ran
          cases ran
          exact openChunk_awaits (by simpa using sized) opened
        · obtain ⟨_, u, marked, ran⟩ := Step.bind_ok ran
          cases marked
          unfold lastChunkStep at ran
          split at ran
          · simp [fail] at ran
          · cases ran
            exact unchanged.congr rfl rfl
          · obtain ⟨_, u, trailer, ran⟩ := Step.bind_ok ran
            cases ran
            -- Behind the last chunk the message is complete.
            have complete := parseTrailer_state trailer
            exact awaits_other (by simp [complete]) (by simp [complete])
  unfold chunkStep at ran
  rw [Step.run_get_bind] at ran
  split at ran
  · split at ran
    · cases ran
      exact unchanged
    · obtain ⟨⟨ended, it⟩, u, crlf, ran⟩ := Step.bind_ok ran
      obtain rfl : s = u := congrArg Prod.snd crlf
      cases ended with
      | false => simp [fail] at ran
      | true => exact line ran
  · exact line ran

/-- Data that was passed on was taken off the front of a text, up to its end or that of the data. -/
theorem dataStep_ok {finish : MessageStep d Unit} {text : Octets} {m t : Message d} {n : Nat}
    (ran : Step.run (dataStep finish text) m = (.ok n, t)) :
    n = min m.len_ text.length ∧
      (m.len_ ≤ text.length ∧ Step.run finish (m.take (text.take n)) = (.ok (), t) ∨
        text.length < m.len_ ∧ t = m.take (text.take n)) := by
  unfold dataStep at ran
  rw [Step.run_get_bind] at ran
  obtain ⟨_, u, passed, ran⟩ := Step.bind_ok ran
  unfold passData at passed
  obtain ⟨_, v, called, counted⟩ := Step.bind_ok passed
  -- The call touches the derived class alone, so what is counted off is known.
  have only := invoke_spec (.on_data (text.take (min m.len_ text.length))) m
  rw [called] at only
  cases counted
  dsimp only at only
  subst only
  have size : (text.take (min m.len_ text.length)).length = min m.len_ text.length := by
    rw [List.length_take]
    omega
  rw [Step.run_get_bind] at ran
  dsimp only at ran
  rw [size] at ran
  split at ran
  · rename_i ended
    rw [beq_iff_eq] at ended
    obtain ⟨_, w, finished, rest⟩ := Step.bind_ok ran
    cases rest
    refine ⟨rfl, .inl ⟨by omega, ?_⟩⟩
    unfold Message.take
    rw [size]
    exact finished
  · rename_i open_
    rw [beq_iff_eq] at open_
    cases ran
    refine ⟨rfl, .inr ⟨by omega, ?_⟩⟩
    unfold Message.take
    rw [size]

/-- Data that is awaited is left as long as the state is. -/
theorem dataStep_awaits {finish : MessageStep d Unit} {text : Octets} {s t : Message d} {n : Nat}
    (finishes : ∀ s t : Message d,
      Step.run finish s = (.ok (), t) → t.state_ ≠ .body ∧ t.state_ ≠ .chunk_body)
    (ran : Step.run (dataStep finish text) s = (.ok n, t)) : Awaits t := by
  obtain ⟨size, ⟨_, ended⟩ | ⟨more, rfl⟩⟩ := dataStep_ok ran
  · exact awaits_other (finishes _ _ ended).1 (finishes _ _ ended).2
  · -- The text was shorter than the data, so some of it is left.
    intro _
    simp only [Message.take, List.length_take]
    omega

/-- A buffer leaves some of the data whose end it did not reach. -/
theorem rescan_awaits {isRequest : Bool} {text : Octets} {s t : Message d}
    {n : Nat} (ran : Step.run (rescan isRequest text) s = (.ok n, t)) : Awaits t := by
  unfold rescan at ran
  rw [Step.run_get_bind] at ran
  obtain ⟨_, u, begun, ran⟩ := Step.bind_ok ran
  have state := (beginStep_spec begun).1
  -- Each state looks at the buffer in its own way.
  cases before : s.state_ with
  | header =>
    rw [before] at state
    simp only [before, bufferStep, headerStep] at ran
    split at ran
    · cases ran
      exact awaits_other (by simp [state]) (by simp [state])
    · split at ran
      · simp [fail] at ran
      · cases ran
        exact awaits_other (by simp [state]) (by simp [state])
      · obtain ⟨_, v, block, ran⟩ := Step.bind_ok ran
        cases ran
        exact parseHeaderBlock_awaits block
  | body =>
    simp only [before, bufferStep] at ran
    refine dataStep_awaits (fun s t ran => ?_) ran
    simp [doComplete_state ran]
  | body_to_eof =>
    rw [before] at state
    simp only [before, bufferStep] at ran
    obtain ⟨_, v, called, ran⟩ := Step.bind_ok ran
    cases ran
    exact invoke_awaits (awaits_other (by simp [state]) (by simp [state])) called
  | chunk_header =>
    rw [before] at state
    simp only [before, bufferStep] at ran
    exact chunkStep_awaits state ran
  | chunk_body =>
    simp only [before, bufferStep] at ran
    refine dataStep_awaits (fun s t ran => ?_) ran
    cases ran
    simp
  | complete =>
    rw [before] at state
    simp only [before, bufferStep] at ran
    cases ran
    exact awaits_other (by simp [state]) (by simp [state])

/-- How a message and an outcome come out of a text, when nothing is remembered between steps. -/
inductive Parses (isRequest : Bool) : Octets → Message d → Except Halt Unit → Message d → Prop
  | complete {text : Octets} {s : Message d} (ended : s.state_ = .complete) :
      Parses isRequest text s (.ok ()) s
  | empty {s : Message d} : Parses isRequest [] s (.ok ()) s
  | stop {text : Octets} {s t : Message d} {halt : Halt} (open_ : s.state_ ≠ .complete)
      (some : text ≠ []) (ran : Step.run (rescan isRequest text) s = (.error halt, t)) :
      Parses isRequest text s (.error halt) t
  | wait {text : Octets} {s t : Message d} (open_ : s.state_ ≠ .complete)
      (some : text ≠ []) (ran : Step.run (rescan isRequest text) s = (.ok 0, t)) :
      Parses isRequest text s (.ok ()) t
  | step {text : Octets} {s t u : Message d} {n : Nat} {r : Except Halt Unit}
      (open_ : s.state_ ≠ .complete) (some : text ≠ []) (took : 0 < n)
      (ran : Step.run (rescan isRequest text) s = (.ok n, t))
      (rest : Parses isRequest (text.drop n) t r u) : Parses isRequest text s r u

/-- How a text leads to an outcome, with what is left of it unless the outcome is an error. -/
inductive Leaves (isRequest : Bool) :
    Octets → Message d → Except Halt Unit → Octets → Message d → Prop
  | complete {text : Octets} {s : Message d} (ended : s.state_ = .complete) :
      Leaves isRequest text s (.ok ()) text s
  | empty {s : Message d} : Leaves isRequest [] s (.ok ()) [] s
  | stop {text : Octets} {s t : Message d} {halt : Halt} (open_ : s.state_ ≠ .complete)
      (some : text ≠ []) (ran : Step.run (rescan isRequest text) s = (.error halt, t)) :
      Leaves isRequest text s (.error halt) [] t
  | wait {text : Octets} {s t : Message d} (open_ : s.state_ ≠ .complete)
      (some : text ≠ []) (ran : Step.run (rescan isRequest text) s = (.ok 0, t)) :
      Leaves isRequest text s (.ok ()) text t
  | step {text left : Octets} {s t u : Message d} {n : Nat} {r : Except Halt Unit}
      (open_ : s.state_ ≠ .complete) (some : text ≠ []) (took : 0 < n)
      (ran : Step.run (rescan isRequest text) s = (.ok n, t))
      (rest : Leaves isRequest (text.drop n) t r left u) : Leaves isRequest text s r left u

/-- A text leads to an outcome with something left of it. -/
theorem parses_iff {isRequest : Bool} {text : Octets} {s u : Message d} {r : Except Halt Unit} :
    Parses isRequest text s r u ↔ ∃ left, Leaves isRequest text s r left u := by
  constructor
  · intro parsed
    induction parsed with
    | complete ended => exact ⟨_, .complete ended⟩
    | empty => exact ⟨_, .empty⟩
    | stop open_ some ran => exact ⟨_, .stop open_ some ran⟩
    | wait open_ some ran => exact ⟨_, .wait open_ some ran⟩
    | step open_ some took ran _ ih =>
      obtain ⟨left, rest⟩ := ih
      exact ⟨left, .step open_ some took ran rest⟩
  · rintro ⟨left, leaves⟩
    induction leaves with
    | complete ended => exact .complete ended
    | empty => exact .empty
    | stop open_ some ran => exact .stop open_ some ran
    | wait open_ some ran => exact .wait open_ some ran
    | step open_ some took ran _ ih => exact .step open_ some took ran ih

/-- A text leads to one outcome, and one end of it is left. -/
theorem Leaves.unique {isRequest : Bool} {text left left' : Octets} {s t u : Message d}
    {r r' : Except Halt Unit} (first : Leaves isRequest text s r left t)
    (second : Leaves isRequest text s r' left' u) : r = r' ∧ left = left' ∧ t = u := by
  -- The induction is on the first way, and each of its rules rules out the others for the second.
  induction first with
  | complete ended =>
    cases second with
    | complete => exact ⟨rfl, rfl, rfl⟩
    | empty => exact ⟨rfl, rfl, rfl⟩
    | stop open_ => exact absurd ended open_
    | wait open_ => exact absurd ended open_
    | step open_ => exact absurd ended open_
  | empty =>
    cases second with
    | complete => exact ⟨rfl, rfl, rfl⟩
    | empty => exact ⟨rfl, rfl, rfl⟩
    | stop _ some => exact absurd rfl some
    | wait _ some => exact absurd rfl some
    | step _ some => exact absurd rfl some
  | stop open_ some ran =>
    cases second with
    | complete ended => exact absurd ended open_
    | empty => exact absurd rfl some
    | stop _ _ ran' =>
      rw [ran] at ran'
      cases ran'
      exact ⟨rfl, rfl, rfl⟩
    | wait _ _ ran' => simp [ran] at ran'
    | step _ _ _ ran' => simp [ran] at ran'
  | wait open_ some ran =>
    cases second with
    | complete ended => exact absurd ended open_
    | empty => exact absurd rfl some
    | stop _ _ ran' => simp [ran] at ran'
    | wait _ _ ran' =>
      rw [ran] at ran'
      cases ran'
      exact ⟨rfl, rfl, rfl⟩
    | step _ _ took ran' =>
      rw [ran] at ran'
      cases ran'
      exact absurd took (by simp)
  | step open_ some took ran rest ih =>
    cases second with
    | complete ended => exact absurd ended open_
    | empty => exact absurd rfl some
    | stop _ _ ran' => simp [ran] at ran'
    | wait _ _ ran' =>
      rw [ran] at ran'
      cases ran'
      exact absurd took (by simp)
    | step _ _ _ ran' rest' =>
      rw [ran] at ran'
      cases ran'
      exact ih rest'

/-- A text leads to one outcome. -/
theorem Parses.unique {isRequest : Bool} {text : Octets} {s t u : Message d}
    {r r' : Except Halt Unit} (first : Parses isRequest text s r t)
    (second : Parses isRequest text s r' u) : r = r' ∧ t = u := by
  obtain ⟨_, first⟩ := parses_iff.mp first
  obtain ⟨_, second⟩ := parses_iff.mp second
  obtain ⟨outcome, _, message⟩ := first.unique second
  exact ⟨outcome, message⟩

/-- A step that stopped on a part of a text stops alike on the whole of it. -/
theorem rescan_stops (stream : Seamless d) {isRequest : Bool} {text : Octets} {s t : Message d}
    {halt : Halt} (awaits : Awaits s) (open_ : s.state_ ≠ .complete) (some : text ≠ [])
    (ran : Step.run (rescan isRequest text) s = (.error halt, t)) (more : Octets) :
    Step.run (rescan isRequest (text ++ more)) s = (.error halt, t) := by
  unfold rescan at ran ⊢
  rw [Step.run_get_bind] at ran ⊢
  rw [Step.run_bind] at ran ⊢
  rw [beginStep_append some]
  rcases begun : Step.run (beginStep text s.state_) s with ⟨r, u⟩
  rw [begun] at ran
  cases r with
  | error _ => exact ran
  | ok _ =>
    obtain ⟨state, len⟩ := beginStep_spec begun
    dsimp only at ran ⊢
    rw [← state] at ran open_ ⊢
    rcases bufferStep_goes stream (awaits.congr state len) open_ ran with stops | flows
    · exact stops more
    · exact absurd flows.took (by simp)

/--
What a step does when more follows its text: the same, or nothing yet, or what comes behind it.

The last is the case of a step that took all of its octets and flows on.
-/
theorem rescan_more (stream : Seamless d) {isRequest : Bool} {text : Octets} {s t : Message d}
    {n : Nat} (awaits : Awaits s) (open_ : s.state_ ≠ .complete) (some : text ≠ [])
    (ran : Step.run (rescan isRequest text) s = (.ok n, t)) (more : Octets) :
    (0 < n ∧ n ≤ text.length ∧ Step.run (rescan isRequest (text ++ more)) s = (.ok n, t)) ∨
      (n = 0 ∧ t.state_ ≠ .complete ∧ Step.run (rescan isRequest (text ++ more)) t =
        Step.run (rescan isRequest (text ++ more)) s) ∨
      (n = text.length ∧ t.state_ ≠ .complete ∧ (more ≠ [] →
        (Step.run (rescan isRequest more) t).1 ≠ .ok 0 ∧
          Step.run (rescan isRequest (text ++ more)) s =
            ((Step.run (rescan isRequest more) t).1.map (text.length + ·),
              (Step.run (rescan isRequest more) t).2))) := by
  have ran' := ran
  unfold rescan at ran'
  rw [Step.run_get_bind] at ran'
  obtain ⟨_, v, begun, ran'⟩ := Step.bind_ok ran'
  obtain ⟨state, len⟩ := beginStep_spec begun
  -- On a longer text the step does the same before it looks at the buffer, and does it once.
  have here : Step.run (rescan isRequest (text ++ more)) s =
      Step.run (bufferStep isRequest (text ++ more) v.state_) v := by
    unfold rescan
    rw [Step.run_get_bind, beginStep_append some, Step.run_bind_ok begun, state]
  have later : ∀ {w : Message d}, Pauses v w → ∀ text', Step.run (rescan isRequest text') w =
      Step.run (bufferStep isRequest text' v.state_) w := by
    intro w pauses text'
    unfold rescan
    rw [Step.run_get_bind, pauses.state, state,
      Step.run_bind_ok (beginStep_again some begun pauses text')]
  rw [← state] at ran'
  have openV : v.state_ ≠ .complete := by rwa [state]
  rcases bufferStep_goes stream (awaits.congr state len) openV ran' with goes | flows
  · rcases goes with ⟨took, within, same⟩ | ⟨pauses, again⟩
    · exact .inl ⟨took, within, here.trans (same more)⟩
    · refine .inr (.inl ⟨rfl, by rwa [pauses.state], ?_⟩)
      rw [here, later pauses]
      exact again more
  · obtain ⟨took, pauses, moves, joined⟩ := flows
    cases took
    refine .inr (.inr ⟨rfl, by rwa [pauses.state], fun follows => ⟨?_, ?_⟩⟩)
    · rw [later pauses]
      exact moves more follows
    · rw [here, later pauses]
      exact joined more follows

/-- What a step left of a text leads to what the whole text leads to. -/
theorem Leaves.join (stream : Seamless d) {isRequest : Bool} {text more left : Octets}
    {s t u : Message d} {n : Nat} {r : Except Halt Unit} (awaits : Awaits s)
    (open_ : s.state_ ≠ .complete) (some : text ≠ [])
    (ran : Step.run (rescan isRequest text) s = (.ok n, t))
    (rest : Leaves isRequest (text.drop n ++ more) t r left u) :
    Leaves isRequest (text ++ more) s r left u := by
  have someMore : text ++ more ≠ [] := by simp [some]
  rcases rescan_more stream awaits open_ some ran more with
    ⟨took, within, same⟩ | ⟨rfl, closed, same⟩ | ⟨rfl, closed, flows⟩
  · -- The step took what it takes of the whole text.
    refine .step open_ someMore took same ?_
    rwa [List.drop_append_of_le_length within]
  · -- The step waited, and starts over on the whole text.
    rw [List.drop_zero] at rest
    generalize whole : text ++ more = all at rest someMore same
    cases rest with
    | complete ended => exact absurd ended closed
    | empty => exact absurd rfl someMore
    | stop _ _ ran => exact .stop open_ someMore (same.symm.trans ran)
    | wait _ _ ran => exact .wait open_ someMore (same.symm.trans ran)
    | step _ _ took ran rest => exact .step open_ someMore took (same.symm.trans ran) rest
  · -- The step took all of its octets, and the next takes what would have come with them.
    have size : 0 < text.length := List.length_pos_iff.mpr some
    rw [List.drop_length, List.nil_append] at rest
    by_cases follows : more = []
    · subst follows
      rw [List.append_nil]
      exact .step open_ some size ran (by rwa [List.drop_length])
    obtain ⟨moves, both⟩ := flows follows
    cases rest with
    | complete ended => exact absurd ended closed
    | empty => exact absurd rfl follows
    | stop _ _ ran =>
      rw [ran] at both
      exact .stop open_ someMore both
    | wait _ _ ran => exact absurd (congrArg Prod.fst ran) moves
    | step _ _ took ran rest =>
      rw [ran] at both
      refine .step open_ someMore (Nat.add_pos_left size _) both ?_
      rwa [List.drop_append, List.drop_of_length_le (by omega), List.nil_append,
        Nat.add_sub_cancel_left]

/-- What a step left of a text leads to what the whole text leads to, whatever is left in the end. -/
theorem Parses.join (stream : Seamless d) {isRequest : Bool} {text more : Octets}
    {s t u : Message d} {n : Nat} {r : Except Halt Unit} (awaits : Awaits s)
    (open_ : s.state_ ≠ .complete) (some : text ≠ [])
    (ran : Step.run (rescan isRequest text) s = (.ok n, t))
    (rest : Parses isRequest (text.drop n ++ more) t r u) :
    Parses isRequest (text ++ more) s r u := by
  obtain ⟨left, rest⟩ := parses_iff.mp rest
  exact parses_iff.mpr ⟨left, rest.join stream awaits open_ some ran⟩

/-- Presents a buffer to a parser, and what is left of it, until no more of it is taken. -/
def feed (isRequest : Bool) : Nat → Octets → ParserStep d Nat
  | 0, _ => return 0
  | fuel + 1, buffer => do
    let n ← write isRequest buffer
    if n == 0 then return 0
    let buffer := buffer.drop n
    if (← get).state_ == .complete || buffer.isEmpty then return n
    return n + (← feed isRequest fuel buffer)

/--
How a parser may be given a text in pieces, and what comes of it.

Each buffer holds the octets that were left and some that are new, and is not empty.
It ends with an error, with the whole message, or where all octets were given and no more is taken.
-/
inductive Delivers (isRequest : Bool) :
    BasicParser d → Octets → Octets → Except Halt Unit → BasicParser d → Prop
  | done {p : BasicParser d} : Delivers isRequest p [] [] (.ok ()) p
  | complete {p : BasicParser d} {pending rest : Octets} (ended : p.state_ = .complete) :
      Delivers isRequest p pending rest (.ok ()) p
  | stop {p q : BasicParser d} {pending more rest : Octets} {halt : Halt}
      (open_ : p.state_ ≠ .complete) (some : pending ++ more ≠ [])
      (ran : Step.run (write isRequest (pending ++ more)) p = (.error halt, q)) :
      Delivers isRequest p pending (more ++ rest) (.error halt) q
  | wait {p q : BasicParser d} {pending more : Octets}
      (open_ : p.state_ ≠ .complete) (some : pending ++ more ≠ [])
      (ran : Step.run (write isRequest (pending ++ more)) p = (.ok 0, q)) :
      Delivers isRequest p pending more (.ok ()) q
  | step {p q o : BasicParser d} {pending more rest : Octets} {n : Nat} {r : Except Halt Unit}
      (open_ : p.state_ ≠ .complete) (some : pending ++ more ≠ [])
      (ran : Step.run (write isRequest (pending ++ more)) p = (.ok n, q))
      (others : Delivers isRequest q ((pending ++ more).drop n) rest r o) :
      Delivers isRequest p pending (more ++ rest) r o

/-- A parser that remembers what it searched does so when more has come. -/
theorem Remembers.append {p : BasicParser d} {pending : Octets} (remembers : Remembers p pending)
    (more : Octets) : Remembers p (pending ++ more) := by
  intro further
  rw [List.append_assoc]
  exact remembers (more ++ further)

/-- A write is seen as the step without memory on the same buffer. -/
theorem rescan_of_write {isRequest : Bool} {p q : BasicParser d} {text : Octets}
    {r : Except Halt Nat} (remembers : Remembers p text)
    (ran : Step.run (write isRequest text) p = (r, q)) :
    Step.run (rescan isRequest text) p.toMessage = (r, q.toMessage) := by
  have searched := remembers []
  rw [List.append_nil] at searched
  rw [← view_write searched, ran]
  rfl

/-- Whatever the pieces, they lead to what the octets left and to come lead to at once. -/
theorem Delivers.parses (stream : Seamless d) {isRequest : Bool} {p q : BasicParser d}
    {pending rest : Octets} {r : Except Halt Unit}
    (delivered : Delivers isRequest p pending rest r q) (remembers : Remembers p pending)
    (awaits : Awaits p.toMessage) :
    Parses isRequest (pending ++ rest) p.toMessage r q.toMessage := by
  -- The induction is on the writes, and carries that the parser remembers right what it searched.
  induction delivered with
  | done => exact .empty
  | complete ended => exact .complete ended
  | @stop p q pending more rest halt open_ some ran =>
    have stopped := rescan_of_write (remembers.append more) ran
    rw [← List.append_assoc]
    exact .stop open_ (by simp_all) (rescan_stops stream awaits open_ some stopped rest)
  | @wait p q pending more open_ some ran =>
    exact .wait open_ some (rescan_of_write (remembers.append more) ran)
  | @step p q o pending more rest n r open_ some ran others ih =>
    have taken := rescan_of_write (remembers.append more) ran
    rw [← List.append_assoc]
    refine Parses.join stream awaits open_ some taken (ih ?_ (rescan_awaits taken))
    exact remembers_write (remembers.append more) ran

/-- The loop that presents a whole buffer is one way of giving it. -/
theorem feed_delivers {isRequest : Bool} {fuel : Nat} {p q : BasicParser d}
    {pending more : Octets} {r : Except Halt Nat} (open_ : p.state_ ≠ .complete)
    (some : pending ++ more ≠ []) (enough : (pending ++ more).length < fuel)
    (ran : Step.run (feed isRequest fuel (pending ++ more)) p = (r, q)) :
    Delivers isRequest p pending more (r.map fun _ => ()) q := by
  -- Each round of the loop is one write, with nothing new behind it.
  induction fuel generalizing p pending more r with
  | zero => omega
  | succ fuel ih =>
    rw [feed, Step.run_bind] at ran
    rcases wrote : Step.run (write isRequest (pending ++ more)) p with ⟨r', q'⟩
    rw [wrote] at ran
    cases r' with
    | error halt =>
      cases ran
      have stopped := @Delivers.stop d isRequest p q pending more [] halt open_ some wrote
      rw [List.append_nil] at stopped
      exact stopped
    | ok n =>
      dsimp only at ran
      by_cases none : n = 0
      · subst none
        cases ran
        exact .wait open_ some wrote
      have size : 0 < (pending ++ more).length := List.length_pos_iff.mpr some
      rw [if_neg (by simpa using none), Step.run_get_bind] at ran
      rw [← List.append_nil more]
      refine .step open_ some wrote ?_
      split at ran
      · rename_i ends
        cases ran
        rw [Bool.or_eq_true, beq_iff_eq, List.isEmpty_iff] at ends
        rcases ends with ended | empty
        · exact .complete ended
        · rw [empty]
          exact .done
      · rename_i goes
        rw [Bool.or_eq_true, not_or, beq_iff_eq, List.isEmpty_iff] at goes
        rw [Step.run_bind] at ran
        rcases fed : Step.run (feed isRequest fuel ((pending ++ more).drop n)) q' with ⟨r', q''⟩
        rw [fed] at ran
        have same : q'' = q ∧ r'.map (fun _ => ()) = r.map (fun _ => ()) := by
          cases r' <;> cases ran <;> exact ⟨rfl, rfl⟩
        obtain ⟨rfl, outcome⟩ := same
        rw [← outcome]
        rw [← List.append_nil ((pending ++ more).drop n)] at fed
        refine ih goes.1 (by simpa using goes.2) ?_ fed
        rw [List.append_nil, List.length_drop]
        omega

/-- A parser before its first octet, with the option to expect no body or without it. -/
def opened (skipsBody : Bool) (len x : Nat) (impl : d.State) : BasicParser d :=
  let p : BasicParser d := { len_ := len, impl := impl, x_ := x }
  if skipsBody then (Step.run skipBody p).2 else p

/-- A parser before its first octet remembers nothing, and awaits the header. -/
theorem opened_spec (skipsBody : Bool) (len x : Nat) (impl : d.State) :
    (opened skipsBody len x impl).state_ = .header ∧
      (opened skipsBody len x impl).skip_ = 0 ∧
      (opened skipsBody len x impl).f_.flagFinalChunk = false := by
  cases skipsBody <;> exact ⟨rfl, rfl, rfl⟩

/-- The whole of an empty buffer changes nothing before the first octet. -/
theorem feed_nothing {isRequest : Bool} (skipsBody : Bool) (len x : Nat) (impl : d.State) :
    Step.run (feed isRequest 1 []) (opened skipsBody len x impl) =
      (.ok 0, opened skipsBody len x impl) := by
  cases skipsBody <;> rfl

/-- What is left of a text when so much of it was used, unless it was refused. -/
def leftOf : Except Halt Nat → Octets → Octets
  | .ok n, text => text.drop n
  | .error _, _ => []

/-- Presenting octets as a whole leads where they lead. -/
theorem feed_leaves {isRequest : Bool} {fuel : Nat} {p q : BasicParser d} {text : Octets}
    {r : Except Halt Nat} (open_ : p.state_ ≠ .complete) (some_ : text ≠ [])
    (enough : text.length < fuel) (remembers : Remembers p text)
    (ran : Step.run (feed isRequest fuel text) p = (r, q)) :
    Leaves isRequest text p.toMessage (r.map fun _ => ()) (leftOf r text) q.toMessage := by
  -- Each round of the loop is one step on what is left.
  induction fuel generalizing p text r with
  | zero => omega
  | succ fuel ih =>
    rw [feed, Step.run_bind] at ran
    rcases wrote : Step.run (write isRequest text) p with ⟨r', q'⟩
    have took := rescan_of_write remembers wrote
    rw [wrote] at ran
    cases r' with
    | error halt =>
      cases ran
      exact .stop open_ some_ took
    | ok n =>
      dsimp only at ran
      by_cases none : n = 0
      · subst none
        cases ran
        exact .wait open_ some_ took
      have size : 0 < text.length := List.length_pos_iff.mpr some_
      rw [if_neg (by simpa using none), Step.run_get_bind] at ran
      refine .step open_ some_ (Nat.pos_of_ne_zero none) took ?_
      split at ran
      · rename_i ends
        cases ran
        rw [Bool.or_eq_true, beq_iff_eq, List.isEmpty_iff] at ends
        rcases ends with ended | empty
        · exact .complete ended
        · change Leaves isRequest (text.drop n) q.toMessage (.ok ()) (text.drop n) q.toMessage
          rw [empty]
          exact .empty
      · rename_i goes
        rw [Bool.or_eq_true, not_or, beq_iff_eq, List.isEmpty_iff] at goes
        rw [Step.run_bind] at ran
        rcases fed : Step.run (feed isRequest fuel (text.drop n)) q' with ⟨r', q''⟩
        rw [fed] at ran
        -- A round that goes on has taken some octets.
        have shorter : (text.drop n).length < fuel := by
          rw [List.length_drop]
          omega
        have behind := remembers_write remembers wrote
        cases r' with
        | error halt =>
          cases ran
          exact ih goes.1 goes.2 shorter behind fed
        | ok k =>
          cases ran
          have rest := ih goes.1 goes.2 shorter behind fed
          simpa only [leftOf, List.drop_drop, Except.map] using rest

/-- Where octets lead is where they lead when they are presented as a whole. -/
theorem Leaves.feed {isRequest skipsBody : Bool} {len x : Nat} {impl : d.State}
    {text left : Octets} {r : Except Halt Unit} {p : BasicParser d} {u : Message d}
    (new : p = opened skipsBody len x impl)
    (leaves : Leaves isRequest text p.toMessage r left u) :
    ∃ whole q, Step.run (feed isRequest (text.length + 1) text) p = (whole, q) ∧
      r = whole.map (fun _ => ()) ∧ left = leftOf whole text ∧ q.toMessage = u := by
  subst new
  obtain ⟨header, front, unfinished⟩ := opened_spec skipsBody len x impl
  -- The empty text leads nowhere, and any other is fed round by round.
  by_cases none : text = []
  · subst none
    refine ⟨.ok 0, opened skipsBody len x impl, feed_nothing skipsBody len x impl, ?_⟩
    obtain ⟨rfl, rfl, rfl⟩ := leaves.unique .empty
    exact ⟨rfl, rfl, rfl⟩
  · rcases ran : Step.run (Http.feed isRequest (text.length + 1) text)
      (opened skipsBody len x impl) with ⟨whole, q⟩
    have fed := feed_leaves (by simp [header]) none (Nat.lt_succ_self _)
      (fun more => searched_fresh front unfinished _) ran
    obtain ⟨outcome, same, message⟩ := leaves.unique fed
    exact ⟨whole, q, rfl, outcome, same, message.symm⟩

/-- A step takes no more than there is. -/
theorem rescan_within (stream : Seamless d) {isRequest : Bool} {text : Octets} {s t : Message d}
    {n : Nat} (awaits : Awaits s) (open_ : s.state_ ≠ .complete) (some : text ≠ [])
    (ran : Step.run (rescan isRequest text) s = (.ok n, t)) : n ≤ text.length := by
  rcases rescan_more stream awaits open_ some ran [] with ⟨_, within, _⟩ | ⟨none, _⟩ | ⟨all, _⟩
  · exact within
  · omega
  · omega

/-- Presenting octets as a whole uses no more than there are. -/
theorem feed_within (stream : Seamless d) {isRequest : Bool} {fuel : Nat} {p q : BasicParser d}
    {text : Octets} {n : Nat} (open_ : p.state_ ≠ .complete) (some_ : text ≠ [])
    (remembers : Remembers p text) (awaits : Awaits p.toMessage)
    (ran : Step.run (feed isRequest fuel text) p = (.ok n, q)) : n ≤ text.length := by
  -- Each round takes no more than it was given, and hands on the rest.
  induction fuel generalizing p text n with
  | zero =>
    cases ran
    exact Nat.zero_le _
  | succ fuel ih =>
    rw [feed] at ran
    obtain ⟨k, q', wrote, ran⟩ := Step.bind_ok ran
    have took := rescan_of_write remembers wrote
    have within := rescan_within stream awaits open_ some_ took
    split at ran
    · cases ran
      exact Nat.zero_le _
    · rw [Step.run_get_bind] at ran
      split at ran
      · cases ran
        exact within
      · rename_i goes
        rw [Bool.or_eq_true, not_or, beq_iff_eq, List.isEmpty_iff] at goes
        obtain ⟨m, q'', fed, ran⟩ := Step.bind_ok ran
        cases ran
        have rest := ih goes.1 goes.2 (remembers_write remembers wrote) (rescan_awaits took) fed
        rw [List.length_drop] at rest
        omega

/-- However a text is given, a new parser comes to what it comes to with the whole of it. -/
theorem Delivers.feed (stream : Seamless d) {isRequest skipsBody : Bool} {len x : Nat}
    {impl : d.State} {text : Octets} {r : Except Halt Unit} {whole : Except Halt Nat}
    {q o : BasicParser d}
    (delivered : Delivers isRequest (opened skipsBody len x impl) [] text r q)
    (fed : Step.run (feed isRequest (text.length + 1) text) (opened skipsBody len x impl) =
      (whole, o)) : r = whole.map (fun _ => ()) ∧ q.toMessage = o.toMessage := by
  obtain ⟨header, front, unfinished⟩ := opened_spec skipsBody len x impl
  have remembers : Remembers (opened skipsBody len x impl) [] :=
    fun more => searched_fresh front unfinished _
  have awaits : Awaits (opened skipsBody len x impl).toMessage :=
    awaits_other (by simp [header]) (by simp [header])
  have pieces := delivered.parses stream remembers awaits
  -- The whole in one buffer is a delivery too, and a text leads to one outcome.
  have atOnce : Delivers isRequest (opened skipsBody len x impl) [] text
      (whole.map fun _ => ()) o := by
    by_cases some : text = []
    · subst some
      rw [List.length_nil, feed_nothing] at fed
      cases fed
      exact .done
    · exact feed_delivers (by simp [header]) (by simpa using some) (by simp) fed
  exact pieces.unique (atOnce.parses stream remembers awaits)

/-- The calls so far, the newest first, with one more: pieces of data are put together. -/
def record : List Callback → Callback → List Callback
  | .on_data s :: calls, .on_data t => .on_data (s ++ t) :: calls
  | calls, c => c :: calls

/-- A derived class that also keeps the calls made to it. -/
def recorded (d : Derived) : Derived where
  State := d.State × List Callback
  call state c := (((d.call state.1 c).1, record state.2 c), (d.call state.1 c).2)

/-- Two pieces of data are kept as one. -/
theorem record_joins (calls : List Callback) (s t : Octets) :
    record (record calls (.on_data s)) (.on_data t) = record calls (.on_data (s ++ t)) := by
  -- The newest call may be data that the piece is put behind.
  cases calls with
  | nil => rfl
  | cons c calls => cases c <;> simp [record]

/-- Keeping the calls takes the data as one stream where the derived class does. -/
theorem recorded_seamless (stream : Seamless d) : Seamless (recorded d) where
  accepts state s := stream.accepts state.1 s
  joins state s t := by
    obtain ⟨state, calls⟩ := state
    simp only [recorded, stream.joins, record_joins]

/--
Parsing a text in pieces is parsing it at once.

The calls to the derived class, the state and flags, and the error are those of one buffer.
-/
theorem delivery_agrees (stream : Seamless d) {isRequest skipsBody : Bool} {len x : Nat}
    {impl : d.State} {text : Octets} {r : Except Halt Unit} {whole : Except Halt Nat}
    {p q o : BasicParser (recorded d)} (new : p = opened skipsBody len x (impl, []))
    (delivered : Delivers isRequest p [] text r q)
    (atOnce : Step.run (feed isRequest (text.length + 1) text) p = (whole, o)) :
    q.impl.2 = o.impl.2 ∧ q.state_ = o.state_ ∧ q.f_ = o.f_ ∧ q.len_ = o.len_ ∧
      q.impl.1 = o.impl.1 ∧ r = whole.map fun _ => () := by
  subst new
  -- The calls are part of the message once they are recorded.
  obtain ⟨outcome, message⟩ := delivered.feed (recorded_seamless stream) atOnce
  refine ⟨?_, ?_, ?_, ?_, ?_, outcome⟩ <;> rw [message]

/-- A derived class that accepts every call. -/
def accepting : Derived where
  State := Unit
  call _ _ := ((), none)

/-- Accepting every call takes the data as one stream. -/
theorem accepting_seamless : Seamless accepting :=
  ⟨fun _ _ => rfl, fun _ _ _ => rfl⟩

/-- A request that is cut within its empty line is parsed as the whole of it is. -/
theorem delivery_agrees_request :
    let front := octets "GET / HTTP/1.1\r\nHost: a\r\n\r"
    let new := opened (d := recorded accepting) false 0 0 ((), [])
    let waiting := (Step.run (write true front) new).2
    let q := (Step.run (write true (front ++ [10])) waiting).2
    let o := (Step.run (feed true ((front ++ [10]).length + 1) (front ++ [10])) new).2
    q.impl.2 = o.impl.2 ∧ q.state_ = o.state_ ∧ q.f_ = o.f_ ∧ q.len_ = o.len_ ∧
      q.impl.1 = o.impl.1 ∧
      (.ok () : Except Halt Unit) = Except.map (fun _ => ()) (.ok (front ++ [10]).length) := by
  intro front new waiting q o
  have fresh : new = opened false 0 0 ((), []) := rfl
  have first : Step.run (write true front) new = (.ok 0, waiting) :=
    Step.run_snd (by decide +kernel)
  have second : Step.run (write true (front ++ [10])) waiting =
      (.ok (front ++ [10]).length, q) := Step.run_snd (by decide +kernel)
  have atOnce : Step.run (feed true ((front ++ [10]).length + 1) (front ++ [10])) new =
      (.ok (front ++ [10]).length, o) := Step.run_snd (by decide +kernel)
  have some : front ≠ [] := by decide +kernel
  have begins : new.state_ ≠ .complete := by decide +kernel
  have waits : waiting.state_ ≠ .complete := by decide +kernel
  have ended : q.state_ = .complete := by decide +kernel
  clear_value o q waiting new front
  have delivered : Delivers true new [] (front ++ ([10] ++ [])) (.ok ()) q :=
    .step begins some first (.step waits (by simp) second (.complete ended))
  exact delivery_agrees accepting_seamless fresh delivered atOnce
end Beast.Http
