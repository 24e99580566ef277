import Beast.Http.ReadLaws
import Beast.Http.WriteRuns

/-! The entry points for a body, which count octets off and search nothing. -/

namespace Beast.Http

variable {d : Derived} {R : DirectReader} {B : DynamicBuffer}

/-- What may be called for octets of a body that are not written to the parser. -/
inductive BodyCall
  | consume (n : Nat)
  | prepare_body (limit : Nat)
  | commit_body (s : Octets)
  | copy_body
  deriving DecidableEq, Repr

/-- The preconditions of a call; all but one are for direct parsers alone. -/
def BodyCall.ready (isDirect : Bool) (s : ReadState d R B) : BodyCall → Prop
  | .consume n => allowed isDirect s.toBasicParser (.consume n)
  | .prepare_body _ | .copy_body => isDirect = true
  | .commit_body o => isDirect = true ∧ s.f_.flagOnBody = true ∧ inBody s.state_ = true ∧
      (s.state_ = .body_to_eof ∨ o.length ≤ s.len_)

/-- What a call does, and the number of octets of the body that it takes. -/
def BodyCall.run : BodyCall → ReadStep d R B Nat
  | .consume n => do
    onParser (Beast.Http.consume n)
    return n
  | .prepare_body limit => do
    let _ ← prepareBody limit
    return 0
  | .commit_body o => do
    commitBody o
    return o.length
  | .copy_body => copyBody

/-- The octets that are left of a body whose size is known, when some more were taken. -/
structure CountedOff (n : Nat) (p q : BasicParser d) : Prop where
  sized : q.f_.flagContentLength = p.f_.flagContentLength
  state : q.state_ = .body ∨ q.state_ = .complete
  len : q.len_ + n = p.len_

variable {s t : ReadState d R B}

/-- Announcing a body takes no octets of it. -/
theorem Announces.bodyTaken {p q : BasicParser d} (announced : Announces p q)
    (inside : inBody p.state_ = true) : BodyTaken p q := by
  have begun := announces_indirect announced.1
  have same := begun.same
  have whole := announced.2
  refine ⟨inside, ?_, ?_, ?_, .inl ?_, ?_⟩
  · rw [whole]
  · rw [same]
  · rw [same]
  · rw [same]
  · rcases begun.calls with none_ | ⟨n, called⟩
    · exact ⟨[], nofun, none_⟩
    · exact ⟨[.on_body n], by simp [IsField], called⟩

/-- Announcing a body counts nothing off. -/
theorem Announces.countedOff {p q : BasicParser d} (announced : Announces p q)
    (body : p.state_ = .body) : CountedOff 0 p q := by
  have same := (announces_indirect announced.1).same
  refine ⟨?_, .inl ?_, ?_⟩
  · rw [same]
  · rw [same]
    exact body
  · rw [same]
    rfl

/-- The end of a message is told, and completes it unless that is refused. -/
theorem doComplete_run (m : Message d) :
    (Step.run doComplete m).2 = { m with
      state_ := (Step.run doComplete m).2.state_, impl := (d.call m.impl .on_complete).1 } ∧
    ((Step.run doComplete m).2.state_ = m.state_ ∨ (Step.run doComplete m).2.state_ = .complete) := by
  unfold doComplete
  rw [Step.run_bind]
  have called := invoke_spec .on_complete m
  cases done : Step.run (invoke .on_complete) m with
  | mk r u =>
    rw [done] at called
    dsimp only at called
    subst called
    cases r with
    | error e => exact ⟨rfl, .inl rfl⟩
    | ok a => exact ⟨rfl, .inr rfl⟩

/-- Octets that are passed on are taken off the body. -/
theorem passed_bodyTaken {p : BasicParser d} (inside : inBody p.state_ = true) (o : Octets) :
    BodyTaken p (passed p o) := by
  unfold passed
  -- The end of a body completes the message, and the end of a chunk leads on to the next.
  cases state : p.state_ with
  | body =>
    dsimp only
    split
    · obtain ⟨same, ends⟩ := doComplete_run (p.toMessage.take o)
      refine ⟨inside, rfl, ?_, ?_, ?_, [.on_data o, .on_complete], by simp [IsField], ?_⟩
      · dsimp only
        rw [same]
        rfl
      · dsimp only
        rw [same]
        rfl
      · exact ends.imp (fun same => same) fun done => .inl ⟨state, done⟩
      · dsimp only
        rw [same]
        rfl
    · exact ⟨inside, rfl, rfl, rfl, .inl rfl, [.on_data o], by simp [IsField], rfl⟩
  | chunk_body =>
    dsimp only
    split
    · exact ⟨inside, rfl, rfl, rfl, .inr (.inr ⟨state, rfl⟩), [.on_data o], by simp [IsField], rfl⟩
    · exact ⟨inside, rfl, rfl, rfl, .inl rfl, [.on_data o], by simp [IsField], rfl⟩
  | body_to_eof =>
    exact ⟨inside, rfl, rfl, rfl, .inl state.symm, [.on_data o], by simp [IsField], rfl⟩
  | header | chunk_header | complete => simp [inBody, state] at inside

/-- Octets that are passed on are counted off. -/
theorem passed_countedOff {p : BasicParser d} (body : p.state_ = .body) {o : Octets}
    (fits : o.length ≤ p.len_) : CountedOff o.length p (passed p o) := by
  unfold passed
  rw [body]
  dsimp only
  -- The last octets of the body complete the message as well.
  split
  · obtain ⟨same, ends⟩ := doComplete_run (p.toMessage.take o)
    refine ⟨?_, ends.imp_left fun kept => kept.trans body, ?_⟩
    · dsimp only
      rw [same]
      rfl
    · dsimp only
      rw [same]
      exact Nat.sub_add_cancel fits
  · exact ⟨rfl, .inl body, Nat.sub_add_cancel fits⟩

/-- The reader that prepares a buffer leaves the parser alone. -/
theorem onPrepare_leaves {n k : Nat} (ran : Step.run (onPrepare n) s = (.ok k, t)) :
    t.toBasicParser = s.toBasicParser ∧ (0 < n → k ≤ n) := by
  have bounds := R.bounded s.r_ n
  unfold Step.run onPrepare at ran
  split at ran
  · rename_i prepared
    cases ran
    exact ⟨rfl, fun some_ => (bounds _ some_ (congrArg Prod.snd prepared)).2⟩
  · cases ran

/-- Preparing a buffer for octets of a body announces the body. -/
theorem prepareBody_ok {limit k : Nat} (ran : Step.run (prepareBody limit) s = (.ok k, t)) :
    inBody s.state_ = true ∧ Announces s.toBasicParser t.toBasicParser := by
  -- The parser is not touched behind the announcement.
  have prepared : ∀ {p : BasicParser d} {n : Nat}, Announces s.toBasicParser p →
      Step.wlp (onPrepare n) (fun _ t => Announces s.toBasicParser t.toBasicParser)
        { s with toBasicParser := p } := by
    intro p n announced k t ran
    rw [(onPrepare_leaves ran).1]
    exact announced
  have both : Step.wlp (prepareBody limit) (fun _ t => inBody s.state_ = true ∧
      Announces s.toBasicParser t.toBasicParser) s := by
    unfold prepareBody
    refine Step.wlp_get_bind (Step.wlp_ite (fun _ => Step.wlp_stop) fun body => ?_)
    have inside : inBody s.state_ = true := by simpa using body
    refine Step.wlp_mono (wlp_announces fun p announced => ?_) fun _ _ announced => ⟨inside, announced⟩
    refine Step.wlp_get_bind (Step.wlp_ite (fun _ => prepared announced) fun _ => ?_)
    exact Step.wlp_ite (fun _ => Step.wlp_stop) fun _ => prepared announced
  exact both k t ran

/-- Copying octets of a body announces it and passes them on, no more than are left of it. -/
theorem copyBody_ok {n : Nat} (ran : Step.run copyBody s = (.ok n, t)) :
    inBody s.state_ = true ∧ ∃ p o, Announces s.toBasicParser p ∧ t.toBasicParser = passed p o ∧
      n = o.length ∧ (p.state_ = .body_to_eof ∨ o.length ≤ p.len_) := by
  have both : Step.wlp copyBody (fun n t => inBody s.state_ = true ∧ ∃ p o,
      Announces s.toBasicParser p ∧ t.toBasicParser = passed p o ∧ n = o.length ∧
        (p.state_ = .body_to_eof ∨ o.length ≤ p.len_)) s := by
    unfold copyBody
    refine Step.wlp_get_bind (Step.wlp_ite (fun _ => Step.wlp_stop) fun body => ?_)
    have inside : inBody s.state_ = true := by simpa using body
    refine wlp_announces fun p announced => ?_
    -- A body up to the end of the octets has no length to be counted off.
    refine Step.wlp_get_bind (Step.wlp_ite (fun toEof => ?_) fun _ => ?_)
    · have state : p.state_ = .body_to_eof := by simpa using toEof
      refine Step.wlp_bind fun k u prepared => ?_
      have same := (onPrepare_leaves prepared).1
      refine Step.wlp_modify_bind (Step.wlp_modify_bind (Step.wlp_pure ?_))
      refine ⟨inside, p, (s.data.take k), announced, ?_, rfl, .inl state⟩
      rw [passed_toEof state]
      dsimp only [ReadState.consume]
      rw [same]
      rfl
    · refine Step.wlp_ite (fun _ => Step.wlp_stop) fun more => ?_
      have left : 0 < p.len_ := by simpa [Nat.pos_iff_ne_zero] using more
      refine Step.wlp_bind fun k u prepared => ?_
      -- The room that was asked for is what is left of the body.
      obtain ⟨same, fits⟩ := onPrepare_leaves prepared
      refine Step.wlp_bind fun _ v committed => Step.wlp_pure ?_
      obtain ⟨_, _, _, _, parser⟩ := commitBody_ok committed
      refine ⟨inside, p, s.data.take k, announced, ?_, rfl, .inr ?_⟩
      · rw [parser, same]
        rfl
      · rw [List.length_take]
        exact Nat.le_trans (Nat.min_le_left _ _) (fits left)
  exact both n t ran

/-- Octets that were consumed without the parser are taken off the body. -/
theorem consume_bodyTaken {p : BasicParser d} (state : p.state_ = .body ∨ p.state_ = .chunk_body)
    (n : Nat) : BodyTaken p (Step.run (consume n) p).2 := by
  have inside : inBody p.state_ = true := by
    rcases state with state | state <;> rw [state] <;> rfl
  unfold consume
  rw [Step.run_modify]
  dsimp only
  -- What is left may be used up, and ends the body or the chunk.
  split
  · rcases state with state | state
    · rw [if_pos (by simp [state])]
      exact ⟨inside, rfl, rfl, rfl, .inr (.inl ⟨state, rfl⟩), [], nofun, rfl⟩
    · rw [if_neg (by simp [state])]
      exact ⟨inside, rfl, rfl, rfl, .inr (.inr ⟨state, rfl⟩), [], nofun, rfl⟩
  · exact ⟨inside, rfl, rfl, rfl, .inl rfl, [], nofun, rfl⟩

/-- Octets that were consumed without the parser are counted off. -/
theorem consume_countedOff {p : BasicParser d} (body : p.state_ = .body) {n : Nat} (fits : n ≤ p.len_) :
    CountedOff n p (Step.run (consume n) p).2 := by
  unfold consume
  rw [Step.run_modify]
  dsimp only
  split
  · rw [if_pos (by simp [body])]
    exact ⟨rfl, .inr rfl, Nat.sub_add_cancel fits⟩
  · exact ⟨rfl, .inl body, Nat.sub_add_cancel fits⟩

/-- A call for a body takes octets off it, and searches nothing. -/
theorem BodyCall.taken {isDirect : Bool} {c : BodyCall} {n : Nat} (ready : c.ready isDirect s)
    (ran : Step.run c.run s = (.ok n, t)) :
    Relation.TransGen BodyTaken s.toBasicParser t.toBasicParser := by
  cases c with
  | consume k =>
    cases ran
    exact .single (consume_bodyTaken ready.2 _)
  | prepare_body limit =>
    obtain ⟨_, u, prepared, rest⟩ := Step.bind_ok ran
    cases rest
    obtain ⟨inside, announced⟩ := prepareBody_ok prepared
    exact .single (announced.bodyTaken inside)
  | commit_body o =>
    obtain ⟨_, u, committed, rest⟩ := Step.bind_ok ran
    cases rest
    obtain ⟨_, _, _, _, parser⟩ := commitBody_ok committed
    rw [parser]
    exact .single (passed_bodyTaken ready.2.2.1 o)
  | copy_body =>
    obtain ⟨inside, p, o, announced, parser, _, _⟩ := copyBody_ok ran
    have begun := announced.bodyTaken inside
    rw [parser]
    -- Copying announces the body first, and then takes octets of it.
    refine .tail (.single begun) (passed_bodyTaken ?_ o)
    rw [announced.same.1]
    exact inside

/-- A call for a body whose size is known counts off what it takes. -/
theorem BodyCall.countedOff {isDirect : Bool} {c : BodyCall} {n : Nat} (ready : c.ready isDirect s)
    (body : s.state_ = .body) (ran : Step.run c.run s = (.ok n, t)) :
    CountedOff n s.toBasicParser t.toBasicParser := by
  cases c with
  | consume k =>
    cases ran
    exact consume_countedOff body ready.1
  | prepare_body limit =>
    obtain ⟨_, u, prepared, rest⟩ := Step.bind_ok ran
    cases rest
    exact (prepareBody_ok prepared).2.countedOff body
  | commit_body o =>
    obtain ⟨_, u, committed, rest⟩ := Step.bind_ok ran
    cases rest
    obtain ⟨_, _, _, _, parser⟩ := commitBody_ok committed
    rw [parser]
    refine passed_countedOff body (ready.2.2.2.resolve_left ?_)
    rw [body]
    simp
  | copy_body =>
    obtain ⟨_, p, o, announced, parser, rfl, fits⟩ := copyBody_ok ran
    have begun := announced.countedOff body
    have state : p.state_ = .body := announced.same.1.trans body
    -- The announcement takes nothing, so the octets that are passed on are all.
    have counted := passed_countedOff state (fits.resolve_left (by simp [state]))
    rw [parser]
    exact ⟨counted.sized.trans begun.sized, counted.state, counted.len.trans begun.len⟩

end Beast.Http
