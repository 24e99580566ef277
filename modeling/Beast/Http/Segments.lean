import Beast.Http.Memory

/-! A text that goes on is parsed as if it had been there from the start. -/

namespace Beast.Http

variable {d : Derived}

/-- A derived class that takes the octets of a body as one stream, and never refuses them. -/
structure Seamless (d : Derived) : Prop where
  accepts : ∀ state s, (d.call state (.on_data s)).2 = none
  joins : ∀ state s t,
    d.call (d.call state (.on_data s)).1 (.on_data t) = d.call state (.on_data (s ++ t))

/-- What stays of a message while a part of it is awaited. -/
structure Pauses (s s' : Message d) : Prop where
  state : s'.state_ = s.state_
  announced : s'.f_.flagOnBody = s.f_.flagOnBody
  begun : s'.f_.flagGotSome = s.f_.flagGotSome
  expects : s'.f_.flagExpectCRLF = s.f_.flagExpectCRLF

/-- How far a step that returned a value came in a text that may go on. -/
inductive Progress (m : Octets → MessageStep d Nat) (text : Octets) (s s' : Message d) :
    Nat → Prop
  /-- It took some octets, and takes them as well when others follow. -/
  | settled {n : Nat} (took : 0 < n) (within : n ≤ text.length)
      (same : ∀ more, Step.run (m (text ++ more)) s = (.ok n, s')) : Progress m text s s' n
  /-- It waits for more, and may start over from where it stopped. -/
  | waiting (pauses : Pauses s s')
      (again : ∀ more, Step.run (m (text ++ more)) s' = Step.run (m (text ++ more)) s) :
      Progress m text s s' 0

/-- A step stops on a text that goes on where it stopped on the text. -/
def Stops (m : Octets → MessageStep d Nat) (text : Octets) (s s' : Message d) (halt : Halt) :
    Prop :=
  ∀ more, Step.run (m (text ++ more)) s = (.error halt, s')

/-- A step that stopped, or came to wait, or took some octets, when more may follow. -/
def Goes (m : Octets → MessageStep d Nat) (text : Octets) (s s' : Message d) :
    Except Halt Nat → Prop
  | .error halt => Stops m text s s' halt
  | .ok n => Progress m text s s' n

/-- A step that took all octets, and takes what follows as it would have taken both at once. -/
structure Flows (m : Octets → MessageStep d Nat) (text : Octets) (s s' : Message d)
    (r : Except Halt Nat) : Prop where
  took : r = .ok text.length
  pauses : Pauses s s'
  moves : ∀ more, more ≠ [] → (Step.run (m more) s').1 ≠ .ok 0
  joined : ∀ more, more ≠ [] → Step.run (m (text ++ more)) s =
    ((Step.run (m more) s').1.map (text.length + ·), (Step.run (m more) s').2)

/-- A step goes on as another does that it agrees with where the message pauses. -/
theorem Goes.transfer {m m' : Octets → MessageStep d Nat} {text : Octets} {s s' : Message d}
    {r : Except Halt Nat} (goes : Goes m text s s' r)
    (agree : ∀ t, Pauses s t → ∀ more,
      Step.run (m' (text ++ more)) t = Step.run (m (text ++ more)) t) :
    Goes m' text s s' r := by
  -- The steps agree at the start, and wherever the first one came to wait.
  have here := agree s ⟨rfl, rfl, rfl, rfl⟩
  cases r with
  | error halt =>
    intro more
    rw [here]
    exact goes more
  | ok n =>
    rcases goes with ⟨took, within, same⟩ | ⟨pauses, again⟩
    · exact .settled took within fun more => (here more).trans (same more)
    · refine .waiting pauses fun more => ?_
      rw [here, agree s' pauses]
      exact again more

/-- A step that waited without a change may start over. -/
theorem Progress.unchanged {m : Octets → MessageStep d Nat} {text : Octets} {s : Message d} :
    Progress m text s s 0 :=
  .waiting ⟨rfl, rfl, rfl, rfl⟩ fun _ => rfl

/-- A step on a part of the text that is known to be there. -/
theorem run_return {m : MessageStep d Unit} {n : Nat} {s s' : Message d}
    {r : Except Halt Nat} (ran : Step.run (do m; return n) s = (r, s')) :
    (∃ halt, r = .error halt) ∨ r = .ok n := by
  rw [Step.run_bind] at ran
  split at ran
  · cases ran
    exact Or.inr rfl
  · cases ran
    exact Or.inl ⟨_, rfl⟩

/-- The header is parsed alike when more follows it. -/
theorem headerStep_append {isRequest : Bool} {text : Octets} (long : 4 ≤ text.length)
    (settled : findEom text ≠ .need) (more : Octets) :
    headerStep (d := d) isRequest (text ++ more) = headerStep isRequest text := by
  unfold headerStep
  -- A search that was settled is settled alike, and the block ends within the text.
  rw [findEom_append settled more, if_neg (by rw [List.length_append]; omega),
    if_neg (by omega)]
  cases found : findEom text with
  | need => rfl
  | bad => rfl
  | found n =>
    dsimp only
    rw [List.take_append_of_le_length (findEom_bounds found).2]

theorem headerStep_progress {isRequest : Bool} {text : Octets} {s s' : Message d} {n : Nat}
    (ran : Step.run (headerStep isRequest text) s = (.ok n, s')) :
    Progress (headerStep isRequest) text s s' n := by
  -- Four octets at least are wanted before anything is searched.
  by_cases short : text.length < 4
  · unfold headerStep at ran
    rw [if_pos short] at ran
    cases ran
    exact .unchanged
  cases found : findEom text with
  | need =>
    simp only [headerStep, short, found] at ran
    cases ran
    exact .unchanged
  | bad => simp [headerStep, short, found, fail] at ran
  | found k =>
    have bounds := findEom_bounds found
    -- What is taken is the block that was found.
    have taken : n = k := by
      simp only [headerStep, short, found] at ran
      simpa using run_return ran
    subst taken
    refine .settled (by omega) bounds.2 fun more => ?_
    rw [headerStep_append (by omega) (by simp [found]), ran]

theorem headerStep_stops {isRequest : Bool} {text : Octets} {s s' : Message d} {halt : Halt}
    (ran : Step.run (headerStep isRequest text) s = (.error halt, s')) :
    Stops (headerStep isRequest) text s s' halt := by
  by_cases short : text.length < 4
  · simp [headerStep, short] at ran
  intro more
  rw [headerStep_append (by omega) ?_, ran]
  -- A step that waits does not stop.
  intro waits
  simp [headerStep, short, waits] at ran

/-- The trailer is parsed alike when more follows it. -/
theorem lastChunkStep_append {first : Octets} {offset x : Nat} (inside : x ≤ first.length)
    (settled : findEom (first.drop x) ≠ .need) (more : Octets) :
    lastChunkStep (d := d) (first ++ more) offset x = lastChunkStep first offset x := by
  unfold lastChunkStep
  rw [List.drop_append_of_le_length inside, findEom_append settled more]
  cases found : findEom (first.drop x) with
  | need => rfl
  | bad => rfl
  | found k =>
    have bounds := (findEom_bounds found).2
    rw [List.length_drop] at bounds
    -- The trailer lies within the text.
    simp only [Scan.shift]
    rw [List.take_append_of_le_length (by omega)]

/-- The trailer is waited for, or taken from a text that holds it. -/
theorem lastChunkStep_ok {first : Octets} {offset x n : Nat} {s s' : Message d}
    (inside : x ≤ first.length)
    (ran : Step.run (lastChunkStep first offset x) s = (.ok n, s')) :
    (n = 0 ∧ s' = s) ∨ (0 < n ∧ n ≤ first.length ∧ findEom (first.drop x) ≠ .need) := by
  cases found : findEom (first.drop x) with
  | need =>
    simp only [lastChunkStep, found, Scan.shift] at ran
    cases ran
    exact Or.inl ⟨rfl, rfl⟩
  | bad => simp [lastChunkStep, found, Scan.shift, fail] at ran
  | found k =>
    have bounds := findEom_bounds found
    rw [List.length_drop] at bounds
    simp only [lastChunkStep, found, Scan.shift] at ran
    have taken : n = x + k := by simpa using run_return ran
    exact Or.inr ⟨by omega, by omega, by simp⟩

/-- A chunk is opened alike when more follows its line. -/
theorem openChunk_append {p it : Octets} {v term : Nat} (present : it ≠ [])
    (inside : term ≤ p.length) (more : Octets) :
    openChunk (d := d) (p ++ more) (it ++ more) v term = openChunk p it v term := by
  -- The octet behind the size is there already.
  have same : peek (it ++ more) = peek it := by
    cases it with
    | nil => exact absurd rfl present
    | cons c it => rfl
  unfold openChunk
  rw [List.take_append_of_le_length (by omega), List.length_append, List.length_append,
    Nat.add_sub_add_right, same]

/-- The size of a chunk is waited for, or taken alike when more follows the line. -/
theorem chunkSizeStep_append {first p : Octets} {term : Nat} (line : findEol p = .found term)
    (inside : p.length ≤ first.length) {s s' : Message d} {r : Except Halt Nat}
    (ran : Step.run (chunkSizeStep first p term) s = (r, s')) :
    (r = .ok 0 ∧ s' = { s with f_ := { s.f_ with flagFinalChunk := true } } ∧
      ∀ more, Step.run (chunkSizeStep (first ++ more) (p ++ more) term) s' =
        Step.run (chunkSizeStep (first ++ more) (p ++ more) term) s) ∨
    ((∀ n, r = .ok n → 0 < n ∧ n ≤ first.length) ∧
      ∀ more, Step.run (chunkSizeStep (first ++ more) (p ++ more) term) s = (r, s')) := by
  have bounds := findEol_bounds line
  obtain ⟨⟨size, it⟩, read⟩ := parseHex_line line
  -- The line is complete, so its size is read alike.
  have read' := parseHex_append read
  cases size with
  | none =>
    right
    simp only [chunkSizeStep, read, Step.run_lift_ok_bind, fail, Step.run_stop] at ran
    cases ran
    refine ⟨fun n ok => (by cases ok), fun more => ?_⟩
    simp only [chunkSizeStep, read', Step.run_lift_ok_bind, fail, Step.run_stop]
  | some v =>
    have rest := parseHex_rest read
    -- Offsets are counted from the end, and what follows cancels out.
    have start : ∀ more : Octets, (first ++ more).length - (p ++ more).length =
        first.length - p.length := by
      intro more
      rw [List.length_append, List.length_append]
      omega
    by_cases last : v = 0
    · subst last
      simp only [chunkSizeStep, read, Step.run_lift_ok_bind, bne_self_eq_false,
        Bool.false_eq_true, ↓reduceIte, setFlags, Step.run_modify_bind] at ran
      have within : first.length - p.length + term - 2 ≤ first.length := by omega
      have offset : ∀ more : Octets, (first ++ more).length - (it ++ more).length =
          first.length - it.length := by
        intro more
        rw [List.length_append, List.length_append]
        omega
      -- Where the search for the trailer is settled, the whole step is the same.
      have stays : findEom (first.drop (first.length - p.length + term - 2)) ≠ .need →
          ∀ more, Step.run (chunkSizeStep (first ++ more) (p ++ more) term) s = (r, s') := by
        intro settled more
        simp only [chunkSizeStep, read', Step.run_lift_ok_bind, bne_self_eq_false,
          Bool.false_eq_true, ↓reduceIte, setFlags, Step.run_modify_bind, start, offset]
        rw [lastChunkStep_append within settled, ran]
      cases r with
      | error halt =>
        refine Or.inr ⟨fun n ok => (by cases ok), stays ?_⟩
        intro waits
        simp [lastChunkStep, waits, Scan.shift] at ran
      | ok n =>
        obtain ⟨rfl, rfl⟩ | ⟨some, covered, settled⟩ := lastChunkStep_ok within ran
        · -- The mark of the last chunk is set again, which changes nothing.
          refine Or.inl ⟨rfl, rfl, fun more => ?_⟩
          simp only [chunkSizeStep, read', Step.run_lift_ok_bind, bne_self_eq_false,
            Bool.false_eq_true, ↓reduceIte, setFlags, Step.run_modify_bind]
        · exact Or.inr ⟨fun m ok => by cases ok; exact ⟨some, covered⟩, stays settled⟩
    · right
      -- A chunk with data needs no more than its line.
      have sized : (v != 0) = true := by simpa using last
      simp only [chunkSizeStep, read, Step.run_lift_ok_bind, sized, ↓reduceIte] at ran
      refine ⟨fun n ok => ?_, fun more => ?_⟩
      · subst ok
        have taken : n = first.length - p.length + term := by simpa using run_return ran
        omega
      · simp only [chunkSizeStep, read', Step.run_lift_ok_bind, sized, ↓reduceIte, start]
        rw [openChunk_append rest.1 bounds.2, ran]

/-- The line of a chunk is waited for, or taken alike when more follows. -/
theorem chunkLineStep_goes {base : Octets → Octets} {text : Octets} {s s' : Message d}
    {r : Except Halt Nat} (goes : ∀ more, base (text ++ more) = base text ++ more)
    (inside : (base text).length ≤ text.length)
    (ran : Step.run (chunkLineStep text (base text)) s = (r, s')) :
    Goes (fun text => chunkLineStep text (base text)) text s s' r := by
  unfold chunkLineStep at ran
  by_cases short : (base text).length < 2
  · rw [if_pos short] at ran
    cases ran
    exact .unchanged
  rw [if_neg short] at ran
  -- A text that is long enough stays so.
  have more_long : ∀ more : Octets, ¬(base text ++ more).length < 2 := by
    intro more
    rw [List.length_append]
    omega
  cases found : findEol (base text) with
  | need =>
    simp only [found] at ran
    cases ran
    exact .unchanged
  | bad =>
    simp only [found, fail, Step.run_stop] at ran
    cases ran
    intro more
    simp only [chunkLineStep, goes more, more_long more, ↓reduceIte, fail,
      findEol_append (show findEol (base text) ≠ .need by simp [found]) more, found, Step.run_stop]
  | found term =>
    simp only [found] at ran
    -- The end of the line is found at the same place.
    have line : ∀ more, chunkLineStep (d := d) (text ++ more) (base (text ++ more)) =
        chunkSizeStep (text ++ more) (base text ++ more) term := by
      intro more
      simp only [chunkLineStep, goes more, more_long more, ↓reduceIte,
        findEol_append (show findEol (base text) ≠ .need by simp [found]) more, found]
    obtain ⟨rfl, rfl, again⟩ | ⟨took, same⟩ := chunkSizeStep_append found inside ran
    · refine .waiting ⟨rfl, rfl, rfl, rfl⟩ fun more => ?_
      dsimp only
      rw [line more]
      exact again more
    · cases r with
      | error halt =>
        intro more
        dsimp only
        rw [line more]
        exact same more
      | ok n =>
        refine .settled (took n rfl).1 (took n rfl).2 fun more => ?_
        rw [line more]
        exact same more

/-- Two octets that are there are read alike when more follows. -/
theorem parseCrlf_more {text : Octets} (present : 2 ≤ text.length) (more : Octets) :
    parseCrlf (text ++ more) = (parseCrlf text).map fun r => (r.1, r.2 ++ more) := by
  -- Only the first two octets are looked at.
  obtain _ | ⟨c, _ | ⟨e, it⟩⟩ := text
  · simp at present
  · simp at present
  · rw [List.cons_append, List.cons_append, parseCrlf_two, parseCrlf_two]
    by_cases first : c = 13 <;> by_cases second : e = 10 <;> simp [first, second, Except.map]

/-- Two octets that are there are read. -/
theorem parseCrlf_reads {text : Octets} (present : 2 ≤ text.length) :
    ∃ ended it, parseCrlf text = .ok (ended, it) ∧ (ended = true → it = text.drop 2) := by
  obtain _ | ⟨c, _ | ⟨e, it⟩⟩ := text
  · simp at present
  · simp at present
  · rw [parseCrlf_two]
    by_cases first : c = 13 <;> by_cases second : e = 10 <;> simp [first, second]

/-- The header of a chunk is waited for, or taken alike when more follows. -/
theorem chunkStep_goes {text : Octets} {s s' : Message d} {r : Except Halt Nat}
    (ran : Step.run (chunkStep text) s = (r, s')) : Goes chunkStep text s s' r := by
  -- Behind a chunk, two octets have to be taken before the line.
  by_cases expect : s.f_.flagExpectCRLF = true
  · by_cases short : text.length < 2
    · simp only [chunkStep, Step.run_get_bind, expect, short, ↓reduceIte] at ran
      cases ran
      exact .unchanged
    obtain ⟨ended, it, read, behind⟩ := parseCrlf_reads (show 2 ≤ text.length by omega)
    have more_long : ∀ more : Octets, ¬(text ++ more).length < 2 := by
      intro more
      rw [List.length_append]
      omega
    have read' : ∀ more, parseCrlf (text ++ more) = .ok (ended, it ++ more) := by
      intro more
      rw [parseCrlf_more (by omega), read]
      rfl
    cases ended with
    | false =>
      simp only [chunkStep, Step.run_get_bind, expect, short, ↓reduceIte, read,
        Step.run_lift_ok_bind, fail, Step.run_stop] at ran
      cases ran
      intro more
      simp only [chunkStep, Step.run_get_bind, expect, more_long more, ↓reduceIte, read',
        Step.run_lift_ok_bind, fail, Step.run_stop]
    | true =>
      obtain rfl := behind rfl
      -- The line starts behind the two octets, whatever follows.
      have drops : ∀ more : Octets, (text ++ more).drop 2 = text.drop 2 ++ more :=
        fun more => List.drop_append_of_le_length (by omega)
      have here : Step.run (chunkStep text) s =
          Step.run (chunkLineStep text (text.drop 2)) s := by
        simp only [chunkStep, Step.run_get_bind, expect, short, ↓reduceIte, read,
          Step.run_lift_ok_bind]
      rw [here] at ran
      refine (@chunkLineStep_goes d (List.drop 2) text s s' r drops (by simp) ran).transfer ?_
      intro t pauses more
      simp only [chunkStep, Step.run_get_bind, pauses.expects.trans expect, more_long more,
        ↓reduceIte, read', Step.run_lift_ok_bind, drops]
  · simp only [chunkStep, Step.run_get_bind, expect, Bool.false_eq_true, ↓reduceIte] at ran
    refine (@chunkLineStep_goes d id text s s' r (fun _ => rfl) (by simp) ran).transfer ?_
    intro t pauses more
    simp only [chunkStep, Step.run_get_bind, pauses.expects, expect, Bool.false_eq_true,
      ↓reduceIte, id_eq]

/-- The header is waited for, or taken alike when more follows. -/
theorem headerStep_goes {isRequest : Bool} {text : Octets} {s s' : Message d}
    {r : Except Halt Nat} (ran : Step.run (headerStep isRequest text) s = (r, s')) :
    Goes (headerStep isRequest) text s s' r := by
  cases r with
  | error halt => exact headerStep_stops ran
  | ok n => exact headerStep_progress ran

/-- A derived class that takes data as one stream accepts each piece of it. -/
theorem run_onData (stream : Seamless d) (body : Octets) (s : Message d) :
    Step.run (invoke (.on_data body)) s =
      (.ok (), { s with impl := (d.call s.impl (.on_data body)).1 }) := by
  have accepted := stream.accepts s.impl body
  unfold invoke Step.run
  dsimp only
  rw [accepted]

/-- Data that is passed on is counted off. -/
theorem run_passData (stream : Seamless d) (body : Octets) (s : Message d) :
    Step.run (passData body) s = (.ok (),
      { s with impl := (d.call s.impl (.on_data body)).1, len_ := s.len_ - body.length }) := by
  rw [passData, Step.run_bind_ok (run_onData stream body s), Step.run_modify]

/-- What is left of a message when some octets of its data were taken. -/
def Message.take (s : Message d) (body : Octets) : Message d :=
  { s with impl := (d.call s.impl (.on_data body)).1, len_ := s.len_ - body.length }

/-- Data is taken as far as the body or chunk goes, which finishes where nothing is left. -/
theorem run_dataStep (stream : Seamless d) (finish : MessageStep d Unit) (text : Octets)
    (s : Message d) : Step.run (dataStep finish text) s =
      if s.len_ ≤ text.length then
        ((Step.run finish (s.take (text.take s.len_))).1.map (fun _ => s.len_),
          (Step.run finish (s.take (text.take s.len_))).2)
      else (.ok text.length, s.take text) := by
  unfold dataStep
  rw [Step.run_get_bind]
  dsimp only
  rw [Step.run_bind_ok (run_passData stream _ s), Step.run_get_bind]
  -- The text reaches the end of the data, or it is all data.
  by_cases whole : s.len_ ≤ text.length
  · have finished : (s.len_ - (text.take s.len_).length == 0) = true := by
      rw [List.length_take, Nat.min_eq_left whole]
      simp
    simp only [Nat.min_eq_left whole, finished, whole, ↓reduceIte, Step.run_bind]
    rcases ran : Step.run finish (s.take (text.take s.len_)) with ⟨r, t⟩
    have ran' := ran
    unfold Message.take at ran'
    rw [ran']
    cases r <;> rfl
  · have less : min s.len_ text.length = text.length := Nat.min_eq_right (by omega)
    have unfinished : ¬(s.len_ - text.length == 0) = true := by
      simp only [beq_iff_eq]
      omega
    simp only [less, List.take_length, unfinished, whole, ↓reduceIte]
    rfl

/-- The data of a body or chunk is taken alike in one piece and in two. -/
theorem dataStep_goes (stream : Seamless d) {finish : MessageStep d Unit} {text : Octets}
    {s s' : Message d} {r : Except Halt Nat} (left : 0 < s.len_)
    (ran : Step.run (dataStep finish text) s = (r, s')) :
    Goes (dataStep finish) text s s' r ∨ Flows (dataStep finish) text s s' r := by
  by_cases whole : s.len_ ≤ text.length
  · -- The octets that follow belong to what comes behind the data.
    left
    have same : ∀ more, Step.run (dataStep finish (text ++ more)) s = (r, s') := by
      intro more
      have longer : s.len_ ≤ (text ++ more).length := by
        rw [List.length_append]
        omega
      rw [← ran, run_dataStep stream, run_dataStep stream, if_pos whole, if_pos longer,
        List.take_append_of_le_length whole]
    cases r with
    | error halt => exact same
    | ok n =>
      have taken : n = s.len_ := by
        rw [run_dataStep stream, if_pos whole] at ran
        cases ended : (Step.run finish (s.take (text.take s.len_))).1 with
        | error halt => simp [ended, Except.map] at ran
        | ok _ =>
          rw [ended] at ran
          cases ran
          rfl
      exact .settled (by omega) (by omega) same
  · -- All of it is data, and so is some of what follows.
    right
    rw [run_dataStep stream, if_neg whole] at ran
    cases ran
    have len : (s.take text).len_ = s.len_ - text.length := rfl
    refine ⟨rfl, ⟨rfl, rfl, rfl, rfl⟩, fun more follows => ?_, fun more _ => ?_⟩
    · have some : 0 < more.length := List.length_pos_iff.mpr follows
      rw [run_dataStep stream, len]
      split
      · cases (Step.run finish ((s.take text).take (more.take (s.len_ - text.length)))).1 with
        | error halt => simp [Except.map]
        | ok _ =>
          simp only [Except.map, ne_eq, Except.ok.injEq]
          omega
      · simp only [ne_eq, Except.ok.injEq]
        omega
    -- Two pieces that are told of one after the other are told of as one.
    have pieces : ∀ body, (s.take text).take body = s.take (text ++ body) := by
      intro body
      simp only [Message.take, stream.joins, List.length_append, Nat.sub_sub]
    rw [run_dataStep stream, run_dataStep stream, len, List.length_append]
    -- The data may end in what follows.
    by_cases ends : s.len_ ≤ text.length + more.length
    · rw [if_pos ends, if_pos (by omega), List.take_append, List.take_of_length_le (by omega),
        pieces]
      cases (Step.run finish (s.take (text ++ more.take (s.len_ - text.length)))).1 with
      | error halt => rfl
      | ok _ =>
        simp only [Except.map]
        rw [show text.length + (s.len_ - text.length) = s.len_ by omega]
    · rw [if_neg ends, if_neg (by omega), pieces]
      rfl

/-- The data of a body that ends with the stream is taken alike in one piece and in two. -/
theorem toEofStep_flows (stream : Seamless d) {text : Octets} {s s' : Message d}
    {r : Except Halt Nat} (ran : Step.run (toEofStep text) s = (r, s')) :
    Flows toEofStep text s s' r := by
  -- Everything is data, and all of it is told of.
  have called : ∀ (text : Octets) (s : Message d), Step.run (toEofStep text) s =
      (.ok text.length, { s with impl := (d.call s.impl (.on_data text)).1 }) := by
    intro text s
    rw [toEofStep, Step.run_bind_ok (run_onData stream text s), Step.run_pure]
  rw [called] at ran
  cases ran
  refine ⟨rfl, ⟨rfl, rfl, rfl, rfl⟩, fun more follows => ?_, fun more _ => ?_⟩
  · rw [called]
    simpa using follows
  · rw [called, called, stream.joins, List.length_append]
    rfl

/-- While data of known size is awaited, some of it is left. -/
def Awaits (s : Message d) : Prop :=
  s.state_ = .body ∨ s.state_ = .chunk_body → 0 < s.len_

/-- What a buffer leads to is stopped, awaited or taken alike when more follows, or flows on. -/
theorem bufferStep_goes (stream : Seamless d) {isRequest : Bool} {text : Octets}
    {s s' : Message d} {r : Except Halt Nat} (awaits : Awaits s) (open_ : s.state_ ≠ .complete)
    (ran : Step.run (bufferStep isRequest text s.state_) s = (r, s')) :
    Goes (bufferStep isRequest · s.state_) text s s' r ∨
      Flows (bufferStep isRequest · s.state_) text s s' r := by
  -- Headers are settled or awaited, and data flows.
  cases state : s.state_ with
  | header =>
    rw [state] at ran
    exact Or.inl (headerStep_goes ran)
  | body =>
    rw [state] at ran
    exact dataStep_goes stream (awaits (Or.inl state)) ran
  | body_to_eof =>
    rw [state] at ran
    exact Or.inr (toEofStep_flows stream ran)
  | chunk_header =>
    rw [state] at ran
    exact Or.inl (chunkStep_goes ran)
  | chunk_body =>
    rw [state] at ran
    exact dataStep_goes stream (awaits (Or.inr state)) ran
  | complete => exact absurd state open_

/-- What happens before a buffer is looked at depends on its octets only in their presence. -/
theorem beginStep_append {text : Octets} (some : text ≠ []) (more : Octets) (st : ParseState) :
    beginStep (d := d) (text ++ more) st = beginStep text st := by
  have size : 0 < text.length := List.length_pos_iff.mpr some
  cases st with
  | header => simp only [beginStep, List.length_append, size, show text.length + more.length > 0 by omega]
  | body => rfl
  | body_to_eof => rfl
  | chunk_header => rfl
  | chunk_body => rfl
  | complete => rfl

/-- What happens before a buffer is looked at happens once. -/
theorem beginStep_again {text : Octets} {st : ParseState} {s t u : Message d} (some : text ≠ [])
    (begun : Step.run (beginStep text st) s = (.ok (), t)) (pauses : Pauses t u) (text' : Octets) :
    Step.run (beginStep text' st) u = (.ok (), u) := by
  -- A body that was announced is not announced again.
  have announced : Step.run maybeDoBodyIndirect s = (.ok (), t) →
      Step.run maybeDoBodyIndirect u = (.ok (), u) := by
    intro ran
    have flag : u.f_.flagOnBody = true := by
      rw [pauses.announced, maybeDoBody_spec ran]
    unfold maybeDoBodyIndirect
    rw [Step.run_get_bind, if_pos flag]
    rfl
  cases st with
  | header =>
    have size : 0 < text.length := List.length_pos_iff.mpr some
    cases begun
    have flag : u.f_.flagGotSome = true := by
      rw [pauses.begun]
      simp [size]
    simp only [beginStep, setFlags, Step.run_modify, flag, Bool.true_or]
    rw [← flag]
  | body => exact announced begun
  | body_to_eof => exact announced begun
  | chunk_header => exact announced begun
  | chunk_body => rfl
  | complete => rfl

/-- What happens before a buffer is looked at keeps the state and what is left of the data. -/
theorem beginStep_spec {text : Octets} {st : ParseState} {s t : Message d} {r : Except Halt Unit}
    (begun : Step.run (beginStep text st) s = (r, t)) :
    t.state_ = s.state_ ∧ t.len_ = s.len_ := by
  -- The announcement sets a flag and makes a call.
  have announced : Step.run maybeDoBodyIndirect s = (r, t) →
      t.state_ = s.state_ ∧ t.len_ = s.len_ := by
    intro ran
    rw [maybeDoBody_spec ran]
    exact ⟨rfl, rfl⟩
  cases st with
  | header =>
    cases begun
    exact ⟨rfl, rfl⟩
  | body => exact announced begun
  | body_to_eof => exact announced begun
  | chunk_header => exact announced begun
  | chunk_body =>
    cases begun
    exact ⟨rfl, rfl⟩
  | complete =>
    cases begun
    exact ⟨rfl, rfl⟩

end Beast.Http
