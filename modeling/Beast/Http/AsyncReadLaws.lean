import Beast.Http.AsyncRead
import Beast.Http.Delivery
import Beast.Http.ReadLaws

/-! The composed operations end as the blocking calls do, unless a reader has no room. -/

namespace Beast.Http

variable {d : Derived} {R : DirectReader} {B : DynamicBuffer} {isRequest isDirect : Bool}
  {after : After d R B} {s t : ReadState d R B}

/-- Whether the class or its reader throws `std::length_error` in what a call does next. -/
def Throws (isRequest isDirect : Bool) : ReadPoint × ReadState d R B → Prop
  | (.read_some, s) => bypasses isDirect s.state_ = true ∧
      (Step.run (if s.data.length > 0 then copyBody else prepareBody 65536) s).1 =
        .error .length_error
  | (.write, s) => (Step.run (writeData isRequest isDirect) s).1 = .error .length_error
  | (.do_read, _) => False

/-- The operations that go on where a call that blocks passes a label, and what they come to. -/
def Follows (isRequest isDirect : Bool) (after : After d R B) :
    (ReadPoint × ReadState d R B) ⊕ (Except Halt Nat × ReadState d R B) →
      Except Halt Nat × ReadState d R B → Prop
  | .inr r', r => r' = r
  | .inl (.read_some, s), r =>
    Machine.Ends (opStep isRequest isDirect after) (opStart isDirect s) r
  | .inl (.write, s), r =>
    -- An operation that has waited may call its handler at once, and any other has to post it.
    ∀ op : ReadOp, op.body = false → op.state = 0 ∨ op.state = 1 →
      Machine.Ends (opStep isRequest isDirect after)
        (followed (opActs isDirect after) (Step.run (op.writesBuffer isRequest isDirect none) s)) r
  | .inl (.do_read, s), r =>
    ∀ op : ReadOp, op.body = false → op.state = 0 ∨ op.state = 1 ∨ op.state = 2 →
      Machine.Ends (opStep isRequest isDirect after)
        (followed (opActs isDirect after) (Step.run (op.readsBuffer none) s)) r

/-- A handler that is called without an error goes on as the call that blocks does. -/
theorem ends_after {n : Nat} {r : Except Halt Nat × ReadState d R B}
    (follows : Follows isRequest isDirect after (startOver after n s) r) :
    Machine.Ends (opStep isRequest isDirect after)
      ((after n s).map (fun self => ((.new isDirect self, .starts), self)) id) r := by
  unfold startOver at follows
  cases goes : after n s with
  | inl u =>
    rw [goes] at follows
    exact follows
  | inr r' =>
    rw [goes] at follows
    exact Machine.ends_inr.mpr follows

/-- A handler that was posted is called with the error code that was posted. -/
theorem ends_posted {op : ReadOp} {ec : Option ErrorCode} {r : Except Halt Nat × ReadState d R B}
    (called : Machine.Ends (opStep isRequest isDirect after)
      (opActs isDirect after (op, .upcall ec) s) r) :
    Machine.Ends (opStep isRequest isDirect after) (opActs isDirect after (op.posts ec) s) r := by
  refine .step ?_
  have resumed : Step.run ((op.moves 99).resume isRequest isDirect [] ec) s =
      (.ok (op.moves 99, .upcall ec), s) := by
    unfold ReadOp.resume ReadOp.bodyOp ReadOp.bufferOp ReadOp.moves
    split <;> rfl
  show Machine.Ends _ (followed (opActs isDirect after) (Step.run _ s)) r
  rw [resumed]
  cases ec with
  | none => exact called
  | some ec => exact called

section Runs

variable {α β : Type} {m : ReadStep d R B α} {halt : Halt} {ec : ErrorCode} {a : α}

/-- Behind a step that succeeds, its value is known. -/
theorem run_reported_ok {f : Except ErrorCode α → ReadStep d R B β}
    (ran : Step.run m s = (.ok a, t)) :
    Step.run (reported m >>= f) s = Step.run (f (.ok a)) t := by
  have told : Step.run (reported m) s = (.ok (.ok a), t) := by
    unfold Step.run reported
    rw [ran]
  exact Step.run_bind_ok told

/-- Behind a step that reports an error code, the code is known. -/
theorem run_reported_ec {f : Except ErrorCode α → ReadStep d R B β}
    (ran : Step.run m s = (.error (.ec ec), t)) :
    Step.run (reported m >>= f) s = Step.run (f (.error ec)) t := by
  have told : Step.run (reported m) s = (.ok (.error ec), t) := by
    unfold Step.run reported
    rw [ran]
  exact Step.run_bind_ok told

/-- What stops a step has an error code, or it has none. -/
theorem Halt.coded (halt : Halt) : (∃ ec, halt = .ec ec) ∨ ∀ ec, halt ≠ .ec ec := by
  cases halt with
  | ec ec => exact .inl ⟨ec, rfl⟩
  | outside => exact .inr (by simp)
  | length_error => exact .inr (by simp)
  | assertion => exact .inr (by simp)

/-- Whatever stops a step without an error code stops what is behind it, too. -/
theorem run_reported_halt {f : Except ErrorCode α → ReadStep d R B β}
    (uncoded : ∀ ec, halt ≠ .ec ec) (ran : Step.run m s = (.error halt, t)) :
    Step.run (reported m >>= f) s = (.error halt, t) := by
  have told : Step.run (reported m) s = (.error halt, t) := by
    unfold Step.run reported
    rw [ran]
    cases halt with
    | ec ec => exact absurd rfl (uncoded ec)
    | outside => rfl
    | length_error => rfl
    | assertion => rfl
  exact Step.run_bind_error told

end Runs

/-- A handler is called, at once or where the call is posted. -/
theorem ends_called (op : ReadOp) {ec : Option ErrorCode} {r : Except Halt Nat × ReadState d R B}
    (called : Machine.Ends (opStep isRequest isDirect after)
      (opActs isDirect after (op, .upcall ec) s) r) :
    Machine.Ends (opStep isRequest isDirect after)
      (followed (opActs isDirect after)
        (Step.run (if op.state == 1 then pure (op, .upcall ec) else pure (op.posts ec)) s)) r := by
  split
  · exact called
  · exact ends_posted called

/-- Presenting the buffer is followed, by an operation that calls its handler or posts the call. -/
theorem follows_write {r : Except Halt Nat × ReadState d R B}
    (follows : Follows isRequest isDirect after
      (readStep isRequest isDirect after (.write, s)) r) :
    Follows isRequest isDirect after (.inl (.write, s)) r := by
  intro op buffer point
  unfold ReadOp.writesBuffer
  unfold readStep at follows
  dsimp only at follows
  rcases ran : Step.run (writeData isRequest isDirect) s with ⟨outcome, t⟩
  rw [ran] at follows
  cases outcome with
  | ok n =>
    rw [run_reported_ok ran]
    unfold followed at follows
    dsimp only at follows ⊢
    split
    · rename_i took
      rw [if_pos took] at follows
      exact ends_called (op.uses n) (ends_after follows)
    · rename_i none_
      rw [if_neg none_] at follows
      exact follows (op.uses n) buffer (point.imp_right .inl)
  | error halt =>
    obtain rfl := follows
    rcases halt.coded with ⟨ec, rfl⟩ | uncoded
    · rw [run_reported_ec ran]
      exact ends_called (op.uses 0) (.result _)
    · rw [run_reported_halt uncoded ran]
      exact .result _

/-- The end of the stream is told to the parser alike. -/
theorem ends_eof {γ : Type} {x : γ} {op : ReadOp} {r : Except Halt Nat × ReadState d R B}
    (next : γ → ReadState d R B →
      (ReadPoint × ReadState d R B) ⊕ (Except Halt Nat × ReadState d R B))
    (starts : next x = startOver after op.bytes_used)
    (follows : Follows isRequest isDirect after
      (followed next (Step.run (do onParser writeEof; return x) s)) r) :
    Machine.Ends (opStep isRequest isDirect after)
      (followed (opActs isDirect after) (Step.run op.ends s)) r := by
  unfold ReadOp.ends
  rcases ran : Step.run (onParser writeEof) s with ⟨outcome, t⟩
  rw [Step.run_bind, ran] at follows
  cases outcome with
  | ok _ =>
    rw [run_reported_ok ran]
    have behind : Follows isRequest isDirect after (next x t) r := follows
    rw [starts] at behind
    exact ends_after behind
  | error halt =>
    obtain rfl := follows
    rcases halt.coded with ⟨ec, rfl⟩ | uncoded
    · rw [run_reported_ec ran]
      exact .result _
    · rw [run_reported_halt uncoded ran]
      exact .result _

/-- What the operation on the buffer does when its read is done. -/
theorem bufferOp_arrived {op : ReadOp} (state : op.state = 4) (o : Octets)
    (ec : Option ErrorCode) : (op.bufferOp isRequest isDirect o ec : OpStep d R B) =
      match ec with
      | some .eof => do
        if gotSome (← get).toBasicParser then (op.uses 0).ends
        else return (op.uses 0, .upcall (some .end_of_stream))
      | some ec => return (op.uses 0, .upcall (some ec))
      | none => commitBuffer o >>= fun _ => (op.moves 1).writesBuffer isRequest isDirect none := by
  unfold ReadOp.bufferOp
  rw [state]
  rfl

/-- A read into the buffer is followed. -/
theorem follows_do_read {r : Except Halt Nat × ReadState d R B}
    (follows : Follows isRequest isDirect after
      (readStep isRequest isDirect after (.do_read, s)) r) :
    Follows isRequest isDirect after (.inl (.do_read, s)) r := by
  intro op buffer point
  have notThree : (op.state == 3) = false := by
    rcases point with state | state | state <;> simp [state]
  unfold ReadOp.readsBuffer
  unfold readStep doRead at follows
  dsimp only at follows
  rcases room : Step.run prepareBuffer s with ⟨outcome, u⟩
  cases outcome with
  | error halt =>
    -- The exception is reported in both, here by a handler that is posted.
    obtain ⟨rfl, rfl, _⟩ := prepareBuffer_error room
    have overflows : Step.run (caught prepareBuffer) u = (.error (.ec .buffer_overflow), u) := by
      unfold Step.run caught
      rw [room]
    have told : Step.run (orLengthError prepareBuffer) u = (.ok none, u) := by
      unfold Step.run orLengthError
      rw [room]
    rw [Step.run_bind_error overflows] at follows
    obtain rfl := follows
    rw [Step.run_bind_ok told]
    dsimp only
    rw [if_neg (by simp [notThree])]
    exact ends_posted (.result _)
  | ok size =>
    have succeeds : Step.run (caught prepareBuffer) s = (.ok size, u) := by
      unfold Step.run caught
      rw [room]
    have told : Step.run (orLengthError prepareBuffer) s = (.ok (some size), u) := by
      unfold Step.run orLengthError
      rw [room]
    rw [Step.run_bind_ok succeeds] at follows
    rw [Step.run_bind_ok told]
    refine .step ?_
    show Machine.Ends _ (followed (opActs isDirect after) (Step.run _ u)) r
    rcases read : u.stream.read_some size with ⟨o, ec, later⟩
    rw [run_readStream_bind read] at follows ⊢
    have resumed : (op.moves 4).resume isRequest isDirect o ec =
        ((op.moves 4).bufferOp isRequest isDirect o ec : OpStep d R B) := by
      unfold ReadOp.resume
      rw [if_neg (by simp [ReadOp.moves, buffer])]
    dsimp only at follows ⊢
    rw [resumed, bufferOp_arrived rfl]
    split
    · rw [Step.run_get_bind] at follows ⊢
      split
      · rename_i got
        rw [if_pos got] at follows
        exact ends_eof _ (by rfl) follows
      · rename_i got
        rw [if_neg got] at follows
        obtain rfl := follows
        exact .result _
    · rename_i ec notEof
      have failed : Follows isRequest isDirect after
          (.inr (.error (.ec ec), { u with stream := later })) r := by
        split at follows
        · rename_i same
          exact absurd (Option.some.inj same) notEof
        · rename_i same
          cases same
          exact follows
        · rename_i same
          cases same
      obtain rfl := failed
      exact .result _
    · exact follows ((op.moves 4).moves 1) buffer (.inr rfl)

/-- What an operation on the body does when it is started. -/
theorem bodyOp_starts {op : ReadOp} (state : op.state = 0) :
    (op.bodyOp [] none : OpStep d R B) = (do
      if (← get).data.length > 0 then do
        let n ← copyBody
        return (op.uses n).posts none
      else do
        let size ← prepareBody 65536
        return (op.moves 1, .async_read_some size)) := by
  unfold ReadOp.bodyOp
  simp only [state]

/-- What an operation on the buffer does when it is started. -/
theorem bufferOp_starts {op : ReadOp} (state : op.state = 0) :
    (op.bufferOp isRequest isDirect [] none : OpStep d R B) = (do
      if (← get).data.length = 0 then (op.moves 2).readsBuffer none
      else op.writesBuffer isRequest isDirect none) := by
  unfold ReadOp.bufferOp
  simp only [state]

/-- What the operation on the body does when its read is done. -/
theorem bodyOp_arrived {op : ReadOp} (state : op.state = 1) (o : Octets)
    (ec : Option ErrorCode) : (op.bodyOp o ec : OpStep d R B) =
      match ec with
      | some .eof => (op.uses 0).ends
      | some ec => return (op.uses 0, .upcall (some ec))
      | none => commitBody o >>= fun _ => pure (op.uses 0, .upcall none) := by
  unfold ReadOp.bodyOp
  rw [state]
  rfl

/-- An operation that is started on the body takes its first step there. -/
theorem ends_bodyStart {r : Except Halt Nat × ReadState d R B}
    (bypass : bypasses isDirect s.state_ = true)
    (ended : Machine.Ends (opStep isRequest isDirect after)
      (followed (opActs isDirect after)
        (Step.run ((ReadOp.new isDirect s).bodyOp [] none) s)) r) :
    Follows isRequest isDirect after (.inl (.read_some, s)) r := by
  refine .step ?_
  show Machine.Ends _ (followed (opActs isDirect after)
    (Step.run ((ReadOp.new isDirect s).resume isRequest isDirect [] none) s)) r
  unfold ReadOp.resume
  rw [if_pos (show (ReadOp.new isDirect s).body = true from bypass)]
  exact ended

/-- An operation that is started on the body does what a call does, unless the reader throws. -/
theorem follows_body {r : Except Halt Nat × ReadState d R B}
    (bypass : bypasses isDirect s.state_ = true)
    (fine : ¬Throws isRequest isDirect (.read_some, s))
    (follows : Follows isRequest isDirect after
      (readStep isRequest isDirect after (.read_some, s)) r) :
    Follows isRequest isDirect after (.inl (.read_some, s)) r := by
  refine ends_bodyStart bypass ?_
  unfold readStep at follows
  dsimp only at follows
  rw [if_pos bypass] at follows
  unfold readSomeBody at follows
  rw [bodyOp_starts rfl]
  rw [Step.run_get_bind] at follows ⊢
  change ¬(_ ∧ _) at fine
  by_cases waits : s.data.length > 0
  · rw [if_pos waits] at follows fine ⊢
    rcases ran : Step.run copyBody s with ⟨outcome, t⟩
    rw [ran] at follows
    cases outcome with
    | ok n =>
      rw [Step.run_bind_ok ran]
      exact ends_posted (ends_after follows)
    | error halt =>
      rw [Step.run_bind_error ran]
      exact Machine.ends_inr.mpr follows
  · rw [if_neg waits] at follows fine ⊢
    rcases room : Step.run (prepareBody 65536) s with ⟨outcome, u⟩
    cases outcome with
    | error halt =>
      have other : halt ≠ .length_error := by
        rintro rfl
        exact fine ⟨bypass, by rw [room]⟩
      have stops : Step.run (caught (prepareBody 65536)) s = (.error halt, u) := by
        unfold Step.run caught
        rw [room]
        cases halt with
        | length_error => exact absurd rfl other
        | ec ec => rfl
        | outside => rfl
        | assertion => rfl
      rw [Step.run_bind_error stops] at follows
      rw [Step.run_bind_error room]
      exact Machine.ends_inr.mpr follows
    | ok size =>
      have succeeds : Step.run (caught (prepareBody 65536)) s = (.ok size, u) := by
        unfold Step.run caught
        rw [room]
      rw [Step.run_bind_ok succeeds] at follows
      rw [Step.run_bind_ok room]
      refine .step ?_
      show Machine.Ends _ (followed (opActs isDirect after) (Step.run _ u)) r
      rcases read : u.stream.read_some size with ⟨o, ec, later⟩
      rw [run_readStream_bind read] at follows ⊢
      have again : ∀ op : ReadOp, op.body = true → op.resume isRequest isDirect o ec =
          (op.bodyOp o ec : OpStep d R B) := by
        intro op body
        unfold ReadOp.resume
        rw [if_pos body]
      dsimp only at follows ⊢
      rw [again _ bypass, bodyOp_arrived rfl]
      split
      · exact ends_eof _ (by rfl) follows
      · rename_i ec notEof
        have failed : Follows isRequest isDirect after
            (.inr (.error (.ec ec), { u with stream := later })) r := by
          split at follows
          · rename_i same
            exact absurd (Option.some.inj same) notEof
          · rename_i same
            cases same
            exact follows
          · rename_i same
            cases same
        obtain rfl := failed
        exact .result _
      · rcases ran : Step.run (commitBody o) { u with stream := later } with ⟨outcome, t⟩
        obtain ⟨rfl, _⟩ := commitBody_ok ran
        dsimp only at follows
        rw [Step.run_bind_ok ran] at follows ⊢
        exact ends_after follows

/-- An operation does what a call that blocks does, step by step, unless the reader throws. -/
theorem follows_step {x : ReadPoint × ReadState d R B} {r : Except Halt Nat × ReadState d R B}
    (fine : ¬Throws isRequest isDirect x)
    (follows : Follows isRequest isDirect after (readStep isRequest isDirect after x) r) :
    Follows isRequest isDirect after (.inl x) r := by
  obtain ⟨point, s⟩ := x
  cases point with
  | write => exact follows_write follows
  | do_read => exact follows_do_read follows
  | read_some =>
    by_cases bypass : bypasses isDirect s.state_ = true
    · exact follows_body bypass fine follows
    · refine .step ?_
      show Machine.Ends _ (followed (opActs isDirect after)
        (Step.run ((ReadOp.new isDirect s).resume isRequest isDirect [] none) s)) r
      have resumed : (ReadOp.new isDirect s).resume isRequest isDirect [] none =
          ((ReadOp.new isDirect s).bufferOp isRequest isDirect [] none : OpStep d R B) := by
        unfold ReadOp.resume
        rw [if_neg (show ¬(ReadOp.new isDirect s).body = true from bypass)]
      have other : (ReadOp.new isDirect s).body = false := by
        simpa [ReadOp.new] using bypass
      unfold readStep at follows
      dsimp only at follows
      rw [if_neg bypass] at follows
      rw [resumed, bufferOp_starts rfl, Step.run_get_bind]
      split
      · rename_i nothing
        rw [if_pos nothing] at follows
        exact follows _ other (.inr (.inr rfl))
      · rename_i some_
        rw [if_neg some_] at follows
        exact follows _ other (.inl rfl)

/-- Where the class or its reader throws, the exception escapes from the operation. -/
theorem throws_escapes {x : ReadPoint × ReadState d R B} (threw : Throws isRequest isDirect x) :
    ∃ t, Follows isRequest isDirect after (.inl x) (.error .length_error, t) := by
  obtain ⟨point, s⟩ := x
  cases point with
  | do_read => cases threw
  | write =>
    refine ⟨(Step.run (writeData isRequest isDirect) s).2, fun op _ _ => ?_⟩
    unfold ReadOp.writesBuffer
    rw [run_reported_halt (by simp) (Step.run_snd threw)]
    exact .result _
  | read_some =>
    obtain ⟨bypass, threw⟩ := threw
    by_cases waits : s.data.length > 0
    · rw [if_pos waits] at threw
      refine ⟨(Step.run copyBody s).2, ends_bodyStart bypass ?_⟩
      rw [bodyOp_starts rfl, Step.run_get_bind, if_pos waits,
        Step.run_bind_error (Step.run_snd threw)]
      exact .result _
    · rw [if_neg waits] at threw
      refine ⟨(Step.run (prepareBody 65536) s).2, ends_bodyStart bypass ?_⟩
      rw [bodyOp_starts rfl, Step.run_get_bind, if_neg waits,
        Step.run_bind_error (Step.run_snd threw)]
      exact .result _

/-- Where a call comes to a state in which the class throws, the exception escapes from the operation. -/
theorem visits_escapes {x : (ReadPoint × ReadState d R B) ⊕ (Except Halt Nat × ReadState d R B)}
    {y : ReadPoint × ReadState d R B}
    (visited : Machine.Visits (readStep isRequest isDirect after) x y)
    (threw : Throws isRequest isDirect y) :
    ∃ t, Follows isRequest isDirect after x (.error .length_error, t) := by
  induction visited with
  | here => exact throws_escapes threw
  | @later z y _ ih =>
    -- It is enough to look at the first state in which the class throws.
    by_cases here : Throws isRequest isDirect z
    · exact throws_escapes here
    · obtain ⟨t, follows⟩ := ih threw
      exact ⟨t, follows_step here follows⟩

/-- The end of the octets is refused with an error code. -/
theorem writeEof_coded {p q : BasicParser d} {halt : Halt}
    (ran : Step.run writeEof p = (.error halt, q)) : halt ≠ .length_error := by
  rintro rfl
  unfold writeEof at ran
  rw [Step.run_get_bind] at ran
  split at ran
  · cases ran
  · split at ran
    · split at ran <;> cases ran
    · rw [onMessage, Step.run_zoom, Prod.mk.injEq] at ran
      obtain ⟨done, rfl⟩ := ran
      unfold doComplete at done
      rw [Step.run_bind] at done
      unfold Step.run invoke at done
      dsimp only at done
      cases called : (d.call p.impl .on_complete).2 with
      | none => rw [called] at done; cases done
      | some e => rw [called] at done; cases done

/-- A read of the body stops with no exception, unless copying octets throws one. -/
theorem readSomeBody_coded {halt : Halt}
    (fine : ¬(Step.run (if s.data.length > 0 then copyBody else prepareBody 65536) s).1 =
      .error .length_error)
    (ran : Step.run readSomeBody s = (.error halt, t)) : halt ≠ .length_error := by
  unfold readSomeBody at ran
  rw [Step.run_get_bind] at ran
  split at ran
  · rename_i waits
    rw [if_pos waits] at fine
    rintro rfl
    exact fine (congrArg Prod.fst ran)
  · rcases room : Step.run (caught (prepareBody 65536)) s with ⟨outcome, u⟩
    cases outcome with
    | error halt' =>
      rw [Step.run_bind_error room] at ran
      cases ran
      rcases caught_error room with ⟨rfl, _⟩ | ⟨other, _⟩
      · simp
      · exact other
    | ok size =>
      rw [Step.run_bind_ok room] at ran
      rcases read : u.stream.read_some size with ⟨o, ec, later⟩
      rw [run_readStream_bind read] at ran
      dsimp only at ran
      split at ran
      · rw [Step.run_bind, run_onParser] at ran
        rcases ended : Step.run writeEof u.toBasicParser with ⟨outcome, p⟩
        rw [ended] at ran
        cases outcome with
        | ok _ => cases ran
        | error halt' =>
          cases ran
          exact writeEof_coded ended
      · cases ran
        simp
      · rcases committed : Step.run (commitBody o) { u with stream := later } with ⟨outcome, v⟩
        obtain ⟨rfl, _⟩ := commitBody_ok committed
        rw [Step.run_bind_ok committed] at ran
        cases ran

/-- What a call comes to in one step is no exception, unless the class or its reader throws. -/
theorem readStep_inr {x : ReadPoint × ReadState d R B} {r : Except Halt Nat × ReadState d R B}
    (calm : ∀ n s r, after n s = .inr r → r.1 ≠ .error .length_error)
    (fine : ¬Throws isRequest isDirect x) (ended : readStep isRequest isDirect after x = .inr r) :
    r.1 ≠ .error .length_error := by
  have settled : ∀ {n : Nat} {s : ReadState d R B}, startOver after n s = .inr r →
      r.1 ≠ .error .length_error := by
    intro n s ended
    unfold startOver at ended
    cases goes : after n s with
    | inl t => rw [goes] at ended; cases ended
    | inr r' =>
      rw [goes] at ended
      cases ended
      exact calm n s _ goes
  obtain ⟨point, s⟩ := x
  cases point with
  | write =>
    unfold readStep at ended
    dsimp only at ended
    rcases ran : Step.run (writeData isRequest isDirect) s with ⟨outcome, t⟩
    rw [ran] at ended
    cases outcome with
    | error halt =>
      cases ended
      intro threw
      exact fine ((congrArg Prod.fst ran).trans threw)
    | ok n =>
      simp only [followed] at ended
      split at ended
      · exact settled ended
      · cases ended
  | do_read =>
    unfold readStep at ended
    dsimp only at ended
    have spec := doRead_spec (s := s)
    rcases ran : Step.run doRead s with ⟨outcome, t⟩
    rw [ran] at ended spec
    cases outcome with
    | ok more =>
      cases more with
      | true => cases ended
      | false => exact settled ended
    | error halt =>
      cases ended
      rcases spec with ⟨rfl, _⟩ | ⟨_, _, _, ending⟩
      · simp
      · cases ending with
        | eof _ _ ended => simpa using writeEof_coded ended
        | nothing _ _ _ => simp
        | error _ _ => simp
  | read_some =>
    unfold readStep at ended
    dsimp only at ended
    split at ended
    · rename_i bypass
      rcases ran : Step.run readSomeBody s with ⟨outcome, t⟩
      rw [ran] at ended
      cases outcome with
      | ok n => exact settled ended
      | error halt =>
        cases ended
        have uncaught := readSomeBody_coded (fun threw => fine ⟨bypass, threw⟩) ran
        simpa using uncaught
    · split at ended <;> cases ended

/-- Both ways to read come to one outcome and one state, and no exception escapes from them. -/
def ReadsAlike (isRequest isDirect : Bool) (after : After d R B) (s : ReadState d R B) : Prop :=
  ∃ r, Machine.Ends (readStep isRequest isDirect after) (.inl (.read_some, s)) r ∧
    Machine.Ends (opStep isRequest isDirect after) (opStart isDirect s) r ∧
    r.1 ≠ .error .length_error

/-- Whether the class and its reader throw nothing while a call reads. -/
def Calms (isRequest isDirect : Bool) (after : After d R B) (s : ReadState d R B) : Prop :=
  ∀ x, Machine.Visits (readStep isRequest isDirect after) (.inl (.read_some, s)) x →
    ¬Throws isRequest isDirect x

/-- Both ways to read come to the same just where nothing is thrown. -/
theorem readsAlike_iff (fair : after.Fair)
    (calm : ∀ n s r, after n s = .inr r → r.1 ≠ .error .length_error) (s : ReadState d R B) :
    ReadsAlike isRequest isDirect after s ↔ Calms isRequest isDirect after s := by
  constructor
  · rintro ⟨r, _, ended, fine⟩ x visited threw
    obtain ⟨t, escapes⟩ := visits_escapes visited threw
    exact fine (by rw [ended.unique escapes])
  · intro calms
    obtain ⟨r, ended⟩ := @readStep_ends d R B isRequest isDirect after fair s
    refine ⟨r, ended, ?_, ?_⟩
    · exact ended.backward (P := Follows isRequest isDirect after) calms (fun _ => rfl)
        fun x r fine follows => follows_step fine follows
    · -- The invariant is that what has been come to is no exception.
      refine ended.backward (P := fun y r => (∀ r', y = .inr r' → r'.1 ≠ .error .length_error) →
        r.1 ≠ .error .length_error) calms (fun r fine => fine r rfl) ?_ (by simp)
      intro x r fine behind _
      exact behind fun r' ended => readStep_inr calm fine ended

/-- What a call to read a message returns is no exception. -/
theorem afterRead_calm (n : Nat) (s : ReadState d R B) (r : Except Halt Nat × ReadState d R B)
    (ended : afterRead n s = .inr r) : r.1 ≠ .error .length_error := by
  unfold afterRead at ended
  dsimp only at ended
  split at ended
  · cases ended
    simp
  · cases ended

/--
Reading a message, or a part of one, with an operation does what it does with a call that blocks.

It does so just where the class and its reader throw no `std::length_error` while the call reads.
-/
theorem async_read_agrees_iff (isRequest isDirect : Bool) (s : ReadState d R B) :
    (ReadsAlike isRequest isDirect afterRead s ↔ Calms isRequest isDirect afterRead s) ∧
      (ReadsAlike isRequest isDirect afterReadSome s ↔
        Calms isRequest isDirect afterReadSome s) := by
  refine ⟨readsAlike_iff afterRead_fair afterRead_calm s,
    readsAlike_iff afterReadSome_fair (fun n s r ended => ?_) s⟩
  cases ended
  simp

/-- A reader without room, such as one whose storage is full. -/
def fullReader : DirectReader where
  State := Unit
  prepare _ _ := ((), none)
  commit _ _ := ()
  bounded _ _ _ _ prepared := nomatch prepared

/-- A parser that has read the header of a response with a body, and waits for the body. -/
def awaitsBody : ReadState accepting fullReader flatBuffer where
  toBasicParser := (Step.run (writeDirect false
    (octets "HTTP/1.1 200 OK\r\nContent-Length: 5\r\n\r\n")) (opened false 0 0 ())).2
  r_ := ()
  buffer := { max_ := 65536 }
  stream := { input := [octets "hello"], ending := .eof }

/-- A reader without room lets its exception escape from an operation. -/
theorem async_read_throws :
    ¬∀ (d : Derived) (R : DirectReader) (B : DynamicBuffer) (isRequest isDirect : Bool)
      (s : ReadState d R B), ReadsAlike isRequest isDirect afterRead s := by
  intro agrees
  have calms := (readsAlike_iff afterRead_fair afterRead_calm awaitsBody).mp
    (agrees _ _ _ false true _)
  refine calms _ .here ⟨?_, ?_⟩
  · decide +kernel
  · decide +kernel

end Beast.Http
