import Beast.Http.Delivery
import Beast.Http.FieldLaws
import Beast.Http.ReadLaws

/-! What a direct parser does with octets is what an indirect one does when it is given them. -/

namespace Beast.Http

variable {d : Derived}

/-- A derived class with a direct reader: it takes the body, and refuses neither its start nor the end. -/
structure Storing (d : Derived) : Prop extends Seamless d where
  begins : ∀ state n, (d.call state (.on_body n)).2 = none
  completes : ∀ state, (d.call state .on_complete).2 = none

section Marks

/-- A property of the flags that mark the start of the message and of its body. -/
def Marks (G : Flags → Prop) : Prop :=
  ∀ f g : Flags, g.flagOnBody = f.flagOnBody → g.flagGotSome = f.flagGotSome → G f → G g

variable {G : Flags → Prop}

/-- Fields do not touch the marks. -/
theorem Marks.blind (marks : Marks G) : Blind (d := d) fun m => G m.f_ :=
  fun m _ f framed holds => marks m.f_ f framed.onBody framed.gotSome holds

/-- A call does not touch the marks. -/
theorem invoke_marks (c : Callback) : Step.Preserves (fun m => G m.f_) (invoke (d := d) c) := by
  intro m holds
  unfold Step.wp invoke Step.run
  dsimp only
  split <;> exact holds

theorem parseFields_marks (marks : Marks G) (fuel : Nat) (it : Octets) :
    Step.Preserves (fun m => G m.f_) (parseFields (d := d) fuel it) :=
  parseFields_preserves marks.blind (fun _ _ => invoke_marks _) fuel it

/-- Neither the size nor the state of a message is a mark. -/
theorem modify_marks {f : Message d → Message d} (marks : Marks G)
    (onBody : ∀ m, (f m).f_.flagOnBody = m.f_.flagOnBody)
    (gotSome : ∀ m, (f m).f_.flagGotSome = m.f_.flagGotSome) :
    Step.Preserves (fun m => G m.f_) (modify f : MessageStep d PUnit) :=
  Step.preserves_modify fun m holds => marks m.f_ (f m).f_ (onBody m) (gotSome m) holds

theorem doComplete_marks (marks : Marks G) :
    Step.Preserves (fun m => G m.f_) (doComplete (d := d)) :=
  Step.preserves_bind (invoke_marks _) fun _ => modify_marks marks (fun _ => rfl) fun _ => rfl

theorem parseTrailer_marks (marks : Marks G) (block : Octets) (offset x : Nat) :
    Step.Preserves (fun m => G m.f_) (parseTrailer (d := d) block offset x) := by
  unfold parseTrailer
  repeat' first
    | with_reducible first
      | exact Step.preserves_pure _
      | exact lift_preserves _
      | exact fail_preserves _
      | exact invoke_marks _
      | exact parseFields_marks marks _ _
      | exact doComplete_marks marks
      | exact modify_marks marks (fun _ => rfl) fun _ => rfl
    | refine Step.preserves_bind ?_ fun _ => ?_
    | split

theorem openChunk_marks (marks : Marks G) (p it : Octets) (v term : Nat) :
    Step.Preserves (fun m => G m.f_) (openChunk (d := d) p it v term) := by
  unfold openChunk
  dsimp only
  repeat' first
    | with_reducible first
      | exact Step.preserves_pure _
      | exact lift_preserves _
      | exact fail_preserves _
      | exact invoke_marks _
      | exact modify_marks marks (fun _ => rfl) fun _ => rfl
    | refine Step.preserves_bind ?_ fun _ => ?_
    | split

/-- The header of a chunk does not touch the marks. -/
theorem chunkStep_marks (marks : Marks G) (first : Octets) :
    Step.Preserves (fun m => G m.f_) (chunkStep (d := d) first) := by
  have last : ∀ (first : Octets) (offset x : Nat),
      Step.Preserves (fun m => G m.f_) (lastChunkStep (d := d) first offset x) := by
    intro first offset x
    unfold lastChunkStep
    split
    · exact fail_preserves _
    · exact Step.preserves_pure _
    · exact Step.preserves_bind (parseTrailer_marks marks _ _ _) fun _ => Step.preserves_pure _
  have line : ∀ first p : Octets,
      Step.Preserves (fun m => G m.f_) (chunkLineStep (d := d) first p) := by
    intro first p
    unfold chunkLineStep chunkSizeStep
    dsimp only
    repeat' first
      | with_reducible first
        | exact Step.preserves_pure _
        | exact lift_preserves _
        | exact fail_preserves _
        | exact openChunk_marks marks _ _ _ _
        | exact last _ _ _
        | exact setFlags_preserves marks.blind fun _ => ⟨rfl, rfl, id⟩
      | refine Step.preserves_bind ?_ fun _ => ?_
      | split
  unfold chunkStep
  repeat' first
    | with_reducible first
      | exact Step.preserves_pure _
      | exact Step.preserves_get
      | exact lift_preserves _
      | exact fail_preserves _
      | exact line _ _
    | refine Step.preserves_bind ?_ fun _ => ?_
    | split

/-- The start line is told without a change of the marks. -/
theorem parseStartline_marks (isRequest : Bool) (it : Octets) :
    Step.Preserves (fun m => G m.f_) (parseStartline (d := d) isRequest it) := by
  unfold parseStartline parseRequestLine parseStatusLine
  repeat' first
    | with_reducible first
      | exact Step.preserves_pure _
      | exact lift_preserves _
      | exact fail_preserves _
      | exact invoke_marks _
    | refine Step.preserves_bind ?_ fun _ => ?_
    | split

theorem doHeader_marks (marks : Marks G) (isRequest : Bool) (status : Nat) :
    Step.Preserves (fun m => G m.f_) (doHeader (d := d) isRequest status) := by
  unfold doHeader doHeaderRequest doHeaderResponse
  repeat' first
    | with_reducible first
      | exact Step.preserves_get
      | exact setFlags_preserves marks.blind fun _ => ⟨rfl, rfl, id⟩
      | exact modify_marks marks (fun _ => rfl) fun _ => rfl
    | refine Step.preserves_bind ?_ fun _ => ?_
    | split

/-- The header does not touch the marks. -/
theorem parseHeaderBlock_marks (marks : Marks G) (isRequest : Bool) (block : Octets) :
    Step.Preserves (fun m => G m.f_) (parseHeaderBlock (d := d) isRequest block) := by
  unfold parseHeaderBlock
  repeat' first
    | with_reducible first
      | exact Step.preserves_pure _
      | exact Step.preserves_get
      | exact invoke_marks _
      | exact parseStartline_marks _ _
      | exact parseFields_marks marks _ _
      | exact doHeader_marks marks _ _
      | exact setFlags_preserves marks.blind fun _ => ⟨rfl, rfl, id⟩
    | refine Step.preserves_bind ?_ fun _ => ?_
    | split

/-- Data does not touch the marks. -/
theorem dataStep_marks (marks : Marks G) {finish : MessageStep d Unit}
    (finishes : Step.Preserves (fun m => G m.f_) finish) (text : Octets) :
    Step.Preserves (fun m => G m.f_) (dataStep finish text) := by
  unfold dataStep passData
  dsimp only
  repeat' first
    | with_reducible first
      | exact Step.preserves_pure _
      | exact Step.preserves_get
      | exact invoke_marks _
      | exact finishes
      | exact modify_marks marks (fun _ => rfl) fun _ => rfl
    | refine Step.preserves_bind ?_ fun _ => ?_
    | split

/-- What a buffer leads to once the body is announced does not touch the marks. -/
theorem bufferStep_marks (marks : Marks G) (isRequest : Bool) (text : Octets) (st : ParseState) :
    Step.Preserves (fun m => G m.f_) (bufferStep (d := d) isRequest text st) := by
  cases st with
  | header =>
    unfold bufferStep headerStep
    dsimp only
    repeat' first
      | with_reducible first
        | exact Step.preserves_pure _
        | exact fail_preserves _
        | exact parseHeaderBlock_marks marks _ _
      | refine Step.preserves_bind ?_ fun _ => ?_
      | split
  | body => exact dataStep_marks marks (doComplete_marks marks) text
  | body_to_eof => exact Step.preserves_bind (invoke_marks _) fun _ => Step.preserves_pure _
  | chunk_header => exact chunkStep_marks marks text
  | chunk_body =>
    refine dataStep_marks marks ?_ text
    exact modify_marks marks (fun _ => rfl) fun _ => rfl
  | complete => exact Step.preserves_pure _

end Marks

/-- What is marked in each state: that octets have come, and that the body was announced. -/
structure Begun (m : Message d) : Prop where
  got : m.state_ ≠ .header → m.f_.flagGotSome = true
  announced : m.state_ = .chunk_body → m.f_.flagOnBody = true

/-- No header leads into a chunk. -/
theorem parseHeaderBlock_noChunk {isRequest : Bool} {block : Octets} {s t : Message d}
    (ran : Step.run (parseHeaderBlock isRequest block) s = (.ok (), t)) :
    t.state_ ≠ .chunk_body := by
  have called : ∀ {c : Callback} {m m' : Message d} {r : Except Halt Unit},
      Step.run (invoke c) m = (r, m') → m'.state_ = m.state_ := by
    intro c m m' r ran
    have same : m' = { m with impl := (d.call m.impl c).1 } := by
      rw [← invoke_spec, ran]
    rw [same]
  have decided : ∀ {status : Nat} {m m' : Message d},
      Step.run (doHeader isRequest status) m = (.ok (), m') → m'.state_ ≠ .chunk_body := by
    intro status m m' ran
    cases isRequest with
    | true =>
      simp only [doHeader, doHeaderRequest, ↓reduceIte, Step.run_get_bind] at ran
      repeat' split at ran
      all_goals cases ran; simp
    | false =>
      simp only [doHeader, doHeaderResponse, Bool.false_eq_true, ↓reduceIte,
        Step.run_get_bind] at ran
      repeat' split at ran
      all_goals cases ran; simp
  have behind : ∀ {status : Nat} {it : Octets} {s : Message d}, Step.run (do
      let _ ← parseFields (it.length + 1) it
      doHeader isRequest status
      invoke .on_header
      if (← get).state_ == .complete then
        invoke .on_complete) s = (.ok (), t) → t.state_ ≠ .chunk_body := by
    intro status it s ran
    obtain ⟨_, u, _, ran⟩ := Step.bind_ok ran
    obtain ⟨_, v, header, ran⟩ := Step.bind_ok ran
    obtain ⟨_, w, told, ran⟩ := Step.bind_ok ran
    have open_ : w.state_ ≠ .chunk_body := called told ▸ decided header
    rw [Step.run_get_bind] at ran
    split at ran
    · rw [called ran]
      exact open_
    · cases ran
      exact open_
  unfold parseHeaderBlock at ran
  obtain ⟨⟨version, status, it⟩, u, _, ran⟩ := Step.bind_ok ran
  dsimp only at ran
  split at ran
  · obtain ⟨_, u, _, ran⟩ := Step.bind_ok ran
    exact behind ran
  · exact behind ran

/-- A buffer that is not empty leaves the marks as they ought to be. -/
theorem rescan_begun {isRequest : Bool} {text : Octets} {s t : Message d} {n : Nat}
    (some_ : text ≠ []) (begun : Begun s)
    (ran : Step.run (rescan isRequest text) s = (.ok n, t)) : Begun t := by
  have kept : ∀ {G : Flags → Prop}, Marks G → ∀ {u : Message d}, G u.f_ →
      Step.run (bufferStep isRequest text s.state_) u = (.ok n, t) → G t.f_ := by
    intro G marks u holds ran
    have behind := bufferStep_marks marks isRequest text s.state_ u holds
    rwa [Step.wp_run ran] at behind
  have onBody : Marks fun f => f.flagOnBody = true := fun f g same _ set_ => same.trans set_
  have gotSome : Marks fun f => f.flagGotSome = true := fun f g _ same set_ => same.trans set_
  unfold rescan at ran
  rw [Step.run_get_bind] at ran
  obtain ⟨_, u, first, ran⟩ := Step.bind_ok ran
  have announces : ∀ {m m' : Message d}, Step.run maybeDoBodyIndirect m = (.ok (), m') →
      m'.f_.flagOnBody = true ∧ m'.f_.flagGotSome = m.f_.flagGotSome := by
    intro m m' ran
    rw [maybeDoBody_spec ran]
    exact ⟨rfl, rfl⟩
  cases state : s.state_ with
  | header =>
    rw [state] at first
    have size : 0 < text.length := List.length_pos_iff.mpr some_
    have got : u.f_.flagGotSome = true := by
      cases first
      simp [size]
    refine ⟨fun _ => kept gotSome got ran, fun chunk => ?_⟩
    rw [state] at ran
    unfold bufferStep headerStep at ran
    dsimp only at ran
    have same : u.state_ = .header := by
      rw [← state]
      exact (beginStep_spec first).1
    split at ran
    · cases ran
      rw [same] at chunk
      cases chunk
    · split at ran
      · cases ran
      · cases ran
        rw [same] at chunk
        cases chunk
      · obtain ⟨_, v, block, ran⟩ := Step.bind_ok ran
        cases ran
        exact absurd chunk (parseHeaderBlock_noChunk block)
  | body =>
    rw [state] at first
    obtain ⟨set_, same⟩ := announces first
    exact ⟨fun _ => kept gotSome (same.trans (begun.got (by simp [state]))) ran,
      fun _ => kept onBody set_ ran⟩
  | body_to_eof =>
    rw [state] at first
    obtain ⟨set_, same⟩ := announces first
    exact ⟨fun _ => kept gotSome (same.trans (begun.got (by simp [state]))) ran,
      fun _ => kept onBody set_ ran⟩
  | chunk_header =>
    rw [state] at first
    obtain ⟨set_, same⟩ := announces first
    exact ⟨fun _ => kept gotSome (same.trans (begun.got (by simp [state]))) ran,
      fun _ => kept onBody set_ ran⟩
  | chunk_body =>
    rw [state] at first
    cases first
    exact ⟨fun _ => kept gotSome (begun.got (by simp [state])) ran,
      fun _ => kept onBody (begun.announced state) ran⟩
  | complete =>
    rw [state] at first ran
    cases first
    cases ran
    exact begun

/-- A direct parser announces the body as an indirect one does. -/
theorem maybeDoBodyDirect_eq (store : Storing d) (m : Message d) :
    Step.run maybeDoBodyDirect m = Step.run maybeDoBodyIndirect m := by
  have same : ∀ (n : Option Nat) (m : Message d),
      Step.run (tell (.on_body n)) m = Step.run (invoke (.on_body n)) m := by
    intro n m
    have accepted := store.begins m.impl n
    unfold Step.run tell invoke
    dsimp only
    rw [accepted]
  unfold maybeDoBodyDirect maybeDoBodyIndirect setFlags
  rw [Step.run_get_bind, Step.run_get_bind]
  split
  · rfl
  · rw [Step.run_modify_bind, Step.run_modify_bind]
    split
    · exact same _ _
    · exact same _ _

/-- A direct parser takes a header, or that of a chunk, as an indirect one does. -/
theorem writeDirect_eq (store : Storing d) {isRequest : Bool} {text : Octets} {p : BasicParser d}
    (header : p.state_ = .header ∨ p.state_ = .chunk_header) :
    Step.run (writeDirect isRequest text) p = Step.run (write isRequest text) p := by
  unfold writeDirect write
  rw [Step.run_get_bind, Step.run_get_bind]
  rcases header with state | state
  · simp only [state]
    rfl
  · simp only [state]
    rw [if_neg (by simp), Step.run_bind, Step.run_bind]
    unfold onMessage
    rw [Step.run_zoom, Step.run_zoom, maybeDoBodyDirect_eq store]

/-- Octets that are passed on to a reader are taken from a buffer that holds just them. -/
theorem rescan_passed (store : Storing d) {isRequest : Bool} {o : Octets} {p q : BasicParser d}
    (begun : Begun p.toMessage) (announced : Announces p q) (inside : inBody p.state_ = true)
    (size : p.state_ = .body_to_eof ∨ o.length ≤ p.len_) :
    Step.run (rescan isRequest o) p.toMessage = (.ok o.length, (passed q o).toMessage) := by
  obtain ⟨same, len⟩ := announced.same
  have data : ∀ {finish : MessageStep d Unit} {m m' : Message d}, o.length ≤ m.len_ →
      (m.len_ - o.length = 0 → Step.run finish (m.take o) = (.ok (), m')) →
      Step.run (dataStep finish o) m =
        (.ok o.length, if m.len_ - o.length = 0 then m' else m.take o) := by
    intro finish m m' fits finishes
    rw [run_dataStep store.toSeamless]
    split
    · rename_i whole
      have all : m.len_ = o.length := by omega
      rw [all, List.take_length, finishes (by omega), if_pos (by omega)]
      rfl
    · rename_i part
      rw [if_neg (by omega)]
  unfold rescan
  rw [Step.run_get_bind]
  cases state : p.state_ with
  | header => simp [inBody, state] at inside
  | chunk_header => simp [inBody, state] at inside
  | complete => simp [inBody, state] at inside
  | body =>
    have fits : o.length ≤ q.len_ := by
      rcases size with toEof | fits
      · rw [state] at toEof
        cases toEof
      · rwa [len]
    have first : Step.run (beginStep o .body) p.toMessage = (.ok (), q.toMessage) := announced.1
    rw [Step.run_bind_ok first]
    have ended : Step.run doComplete (q.toMessage.take o) =
        (.ok (), (Step.run doComplete (q.toMessage.take o)).2) := by
      have accepted := store.completes (q.toMessage.take o).impl
      unfold doComplete
      have told : Step.run (invoke .on_complete) (q.toMessage.take o) = (.ok (),
          { q.toMessage.take o with
            impl := (d.call (q.toMessage.take o).impl .on_complete).1 }) := by
        unfold Step.run invoke
        dsimp only
        rw [accepted]
      rw [Step.run_bind_ok told]
      rfl
    show Step.run (dataStep doComplete o) q.toMessage = _
    rw [data fits fun _ => ended]
    unfold passed
    rw [same, state]
    rfl
  | body_to_eof =>
    have first : Step.run (beginStep o .body_to_eof) p.toMessage = (.ok (), q.toMessage) :=
      announced.1
    rw [Step.run_bind_ok first, passed_toEof (same.trans state)]
    show Step.run (toEofStep o) q.toMessage = _
    unfold toEofStep
    rw [Step.run_bind_ok (run_onData store.toSeamless o q.toMessage)]
    rfl
  | chunk_body =>
    -- The body was announced in front of the chunk, and is not announced again.
    have again : q.toMessage = p.toMessage := by
      have ran := announced.1
      unfold maybeDoBodyIndirect at ran
      rw [Step.run_get_bind, if_pos (begun.announced state)] at ran
      exact (congrArg Prod.snd ran).symm
    have fits : o.length ≤ q.len_ := by
      rcases size with toEof | fits
      · rw [state] at toEof
        cases toEof
      · rwa [len]
    have first : Step.run (beginStep o .chunk_body) p.toMessage = (.ok (), q.toMessage) := by
      rw [again]
      rfl
    rw [Step.run_bind_ok first]
    have finishes : Step.run (modify fun self => { self with state_ := .chunk_header } :
        MessageStep d Unit) (q.toMessage.take o) =
          (.ok (), { q.toMessage.take o with state_ := .chunk_header }) := rfl
    show Step.run (dataStep (modify fun self => { self with state_ := .chunk_header }) o)
      q.toMessage = _
    rw [data fits fun _ => finishes]
    unfold passed
    rw [same, state]
    rfl

end Beast.Http
