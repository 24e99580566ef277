import Beast.Http.ChunkHeads
import Beast.Http.TakenHeader

/-! The chunks of a message, and what is told of them. -/

namespace Beast.Http

variable {d : Derived}

/-- The extension of the chunk that was read last. -/
def chunkExtension (p : BasicParser d) : Octets := p.ext_

/-- The size and the extension in the head of a chunk. -/
def headOf (text : Octets) : Nat × Octets :=
  let size := match parseHex text with
    | .ok (some v, _) => v
    | _ => 0
  (size, lineExtension (text.takeWhile (· != 13)))

/-- The head of a chunk that a write took. -/
def Wrote.head (w : Wrote d) : Option (Nat × Octets) :=
  if w.before.state_ = .chunk_header ∧ 0 < w.n then
    some (headOf (chunkBase w.before.f_.flagExpectCRLF w.text))
  else none

/-- The chunk that a call tells of. -/
def chunkTold : Callback → Option (Nat × Octets)
  | .on_chunk n ext => some (n, ext)
  | _ => none

/-- The chunks that were told of, call by call. -/
def toldChunks (p : BasicParser (logged d)) : List (Nat × Octets) := p.impl.2.filterMap chunkTold

/-- The octets of a body that a call tells of. -/
def dataTold : Callback → Option Octets
  | .on_data s => some s
  | _ => none

/-- The octets of the body that were told of, call by call. -/
def toldData (p : BasicParser (logged d)) : List Octets := p.impl.2.filterMap dataTold

/-- The extension of the last chunk whose head was taken. -/
def lastExtension (l : List (Wrote d)) : Octets := ((l.filterMap Wrote.head).getLast?.map (·.2)).getD []

section Quiet

/-- Calls that tell of no chunk were made since a point in the log, and the extension is still the same. -/
def Quiet (log : List Callback) (ext : Octets) (m : Message (logged d)) : Prop :=
  Logs (fun c => chunkTold c = none) log m ∧ m.ext_ = ext

variable {log : List Callback} {ext : Octets}

/-- Where no call was made yet, all was quiet. -/
theorem quiet_nothing (m : Message (logged d)) : Quiet m.impl.2 m.ext_ m := ⟨logs_nothing m, rfl⟩

/-- Sizes and flags have no part in it. -/
theorem quiet_blind : Blind (d := logged d) (Quiet log ext) := fun _ _ _ _ quiet => quiet

/-- A call that tells of no chunk is quiet. -/
theorem invoke_quiet {c : Callback} (other : chunkTold c = none) :
    Step.Preserves (Quiet log ext) (invoke (d := logged d) c) := by
  intro m quiet
  rw [Step.wp, invoke_spec]
  exact ⟨quiet.1.call other rfl, quiet.2⟩

/-- What keeps the calls and the extension keeps it quiet. -/
theorem keeps_quiet {α : Type} {step : MessageStep (logged d) α}
    (keeps : Step.Keeps (fun m : Message (logged d) => (m.impl, m.ext_)) step) :
    Step.Preserves (Quiet log ext) step := by
  intro m quiet
  -- The log is a part of what the derived class holds.
  obtain ⟨impl, same⟩ := Prod.mk.inj (keeps m)
  rw [Step.wp]
  refine ⟨?_, same.trans quiet.2⟩
  obtain ⟨calls, made, all⟩ := quiet.1
  exact ⟨calls, by rw [impl]; exact made, all⟩

/-- What was quiet before a step that keeps it so is quiet behind it. -/
theorem Quiet.behind {α : Type} {step : MessageStep (logged d) α} {m t : Message (logged d)}
    {r : Except Halt α} (quiet : Quiet log ext m) (preserves : Step.Preserves (Quiet log ext) step)
    (ran : Step.run step m = (r, t)) : Quiet log ext t := by
  have holds := preserves m quiet
  rw [Step.wp, ran] at holds
  exact holds

/-- Fields are told of quietly. -/
theorem takeFields_quiet (fields : Fields) :
    Step.Preserves (Quiet log ext) (takeFields (d := logged d) fields) := by
  -- Each field is noted and told of, and neither tells of a chunk.
  induction fields with
  | nil => exact Step.preserves_pure _
  | cons field fields ih =>
    exact Step.preserves_bind (doField_preserves quiet_blind _ _) fun _ =>
      Step.preserves_bind (invoke_quiet rfl) fun _ => ih

/-- The decision on the body is made quietly. -/
theorem doHeader_quiet (isRequest : Bool) (status : Nat) :
    Step.Preserves (Quiet log ext) (doHeader (d := logged d) isRequest status) := by
  refine keeps_quiet ?_
  unfold doHeader doHeaderRequest doHeaderResponse
  repeat' first
    | with_reducible first
      | exact Step.keeps_get
      | exact setFlags_keeps fun _ => rfl
      | exact Step.keeps_modify fun _ => rfl
    | refine Step.keeps_bind ?_ fun _ => ?_
    | split

/-- The end of the header is told of quietly. -/
theorem finishHeader_quiet : Step.Preserves (Quiet log ext) (finishHeader (d := logged d)) := by
  unfold finishHeader
  refine Step.preserves_bind (invoke_quiet rfl) fun _ =>
    Step.preserves_bind Step.preserves_get fun self => ?_
  split
  · exact invoke_quiet rfl
  · exact Step.preserves_pure _

/-- The end of the message is told of quietly. -/
theorem doComplete_quiet : Step.Preserves (Quiet log ext) (doComplete (d := logged d)) :=
  Step.preserves_bind (invoke_quiet rfl) fun _ => Step.preserves_modify fun _ same => same

/-- A header that was taken was told of quietly. -/
theorem Taken.quiet {isRequest : Bool} {lines : List Octets} {start : StartLine} {version : Nat}
    {m told noted decided t : Message (logged d)}
    (taken : Taken isRequest lines start version m told noted decided t) (quiet : Quiet log ext m) :
    Quiet log ext t := by
  -- A header is accepted in steps, none of which tells of a chunk.
  have first : chunkTold (start.callback version) = none := by cases start <;> rfl
  have behind : Quiet log ext told := quiet.behind (invoke_quiet first) taken.tells
  have noted : Quiet log ext { told with f_ := noteVersion version told.f_ } := behind
  have fields := noted.behind (takeFields_quiet _) taken.takes
  have header := fields.behind (doHeader_quiet _ _) taken.decides
  exact header.behind finishHeader_quiet taken.finishes

/-- The announcement of a body tells of no chunk. -/
theorem AnnouncesBody.quiet {m t : Message (logged d)} (announces : AnnouncesBody m t) (quiet : Quiet log ext m) :
    Quiet log ext t :=
  ⟨announces.logs quiet.1 fun _ => rfl, by rw [announces.same]; exact quiet.2⟩

end Quiet

section Told

variable {isRequest isDirect : Bool} {w : Wrote (logged d)}

/-- A write that was quiet told of no chunk. -/
theorem Quiet.chunks (quiet : Quiet w.before.impl.2 w.before.ext_ w.after.toMessage) :
    toldChunks w.after = toldChunks w.before ∧
      chunkExtension w.after = chunkExtension w.before := by
  obtain ⟨⟨calls, made, all⟩, same⟩ := quiet
  refine ⟨?_, same⟩
  rw [toldChunks, made, List.filterMap_append, List.filterMap_eq_nil_iff.mpr all, List.append_nil]
  rfl

/-- A write that told of a chunk and was quiet before and behind the call told of that chunk alone. -/
theorem chunks_one {m told : Message (logged d)} {v : Nat} {ext e : Octets}
    (before : Quiet w.before.impl.2 e m)
    (tells : Step.run (tellChunk v ext) m = (.ok (), told))
    (after : Quiet told.impl.2 told.ext_ w.after.toMessage) (some_ : ext ≠ []) :
    toldChunks w.after = toldChunks w.before ++ [(v, ext)] ∧ chunkExtension w.after = ext := by
  unfold tellChunk at tells
  rw [if_neg (by simpa using some_), Step.run_modify_bind] at tells
  have only := invoke_spec (.on_chunk v ext) { m with ext_ := ext }
  rw [tells] at only
  dsimp only at only
  obtain ⟨⟨front, made, quiet⟩, _⟩ := before
  obtain ⟨⟨back, made', quiet'⟩, same⟩ := after
  -- In between there is the call for the chunk.
  have log : told.impl.2 = m.impl.2 ++ [.on_chunk v ext] := by
    rw [only]
    rfl
  refine ⟨?_, ?_⟩
  · rw [toldChunks, made', log, made, List.filterMap_append, List.filterMap_append,
      List.filterMap_append, List.filterMap_eq_nil_iff.mpr quiet, List.filterMap_eq_nil_iff.mpr quiet',
      List.append_nil, List.append_nil]
    rfl
  · rw [chunkExtension, same, only]

/-- The line of a chunk is found again in the text that it was taken from. -/
theorem headOf_line {line it : Octets} {v : Nat} (head : HeadLine line it v) :
    headOf (line ++ crlf ++ it) = (v, lineExtension line) := by
  -- The line is plain, so it ends at the first carriage return.
  have first : (line ++ crlf ++ it).takeWhile (· != 13) = line := by
    rw [List.append_assoc, List.takeWhile_append_of_pos fun c there => by simpa using head.plain c there]
    simp [crlf]
  unfold headOf
  rw [head.size, first]

/-- The head of a chunk is found behind the end of the chunk before. -/
theorem head_taken {m : Message (logged d)} (announced : AnnouncesBody w.before.toMessage m)
    (chunk : w.before.state_ = .chunk_header) (some_ : 0 < w.n) {line it : Octets} {v : Nat}
    (cut : w.text = m.between ++ line ++ crlf ++ it) (head : HeadLine line it v) :
    w.head = some (v, lineExtension line) := by
  have expect : m.f_.flagExpectCRLF = w.before.f_.flagExpectCRLF := by rw [announced.same]
  -- The end of the chunk before is passed over.
  have base : chunkBase w.before.f_.flagExpectCRLF w.text = line ++ crlf ++ it := by
    rw [cut, Message.between, expect, chunkBase]
    split <;> simp [crlf]
  rw [Wrote.head, if_pos ⟨chunk, some_⟩, base, headOf_line head]

/-- Whether the chunk whose head a write took, if any, has an extension. -/
def Wrote.Extended (w : Wrote d) : Prop := ∀ head ∈ w.head, head.2 ≠ []

/-- Data is passed on quietly where it is finished quietly. -/
theorem dataStep_quiet {log : List Callback} {ext : Octets} {finish : MessageStep (logged d) Unit}
    {text : Octets} {m t : Message (logged d)} {n : Nat} (quiet : Quiet log ext m)
    (finishes : Step.Preserves (Quiet log ext) finish)
    (ran : Step.run (dataStep finish text) m = (.ok n, t)) : Quiet log ext t := by
  -- The call for the data is quiet in any case.
  have passed : ∀ s, Quiet log ext (m.take s) := fun s => ⟨quiet.1.call rfl rfl, quiet.2⟩
  obtain ⟨_, ⟨_, finished⟩ | ⟨_, rfl⟩⟩ := dataStep_ok ran
  · exact (passed _).behind finishes finished
  · exact passed _

/-- A write of a header is quiet. -/
theorem quiet_header (ran : w.Ran isRequest isDirect) (header : w.before.state_ = .header) :
    Quiet w.before.impl.2 w.before.ext_ w.after.toMessage := by
  have wrote := (writeAny_header header w.text).symm.trans ran.ran
  by_cases some_ : 0 < w.n
  · obtain ⟨line, lines, start, version, told, noted, decided, -, -, -, taken⟩ :=
      write_taken header ran.searched wrote some_
    exact taken.quiet (quiet_nothing w.before.toMessage)
  · -- Where nothing is taken, the end of the header has not come.
    obtain ⟨_, same⟩ := ran.waits header (Nat.eq_zero_of_not_pos some_)
    rw [same]
    exact quiet_nothing w.before.toMessage

/-- A write to a parser that is not direct within a body is quiet. -/
theorem quiet_body (ran : w.Ran isRequest false) (inside : inBody w.before.state_ = true) :
    Quiet w.before.impl.2 w.before.ext_ w.after.toMessage := by
  obtain ⟨m, begun, data⟩ := ran.body inside
  -- The body may be announced, which is quiet too.
  have start : Quiet w.before.impl.2 w.before.ext_ m := by
    rcases begun with rfl | announced
    · exact quiet_nothing _
    · exact announced.quiet (quiet_nothing _)
  cases state : w.before.state_ with
  | body =>
    rw [state] at data
    exact dataStep_quiet start doComplete_quiet data
  | body_to_eof =>
    rw [state] at data
    obtain ⟨_, t, called, rest⟩ := Step.bind_ok data
    rw [← (Prod.mk.inj rest).2]
    exact start.behind (invoke_quiet rfl) called
  | chunk_body =>
    rw [state] at data
    have ends : Step.Preserves (Quiet w.before.impl.2 w.before.ext_)
        (modify fun self => { self with state_ := .chunk_header } : MessageStep (logged d) Unit) :=
      Step.preserves_modify fun _ same => same
    exact dataStep_quiet start ends data
  | header | chunk_header | complete => simp [inBody, state] at inside

/-- A write that takes no head of a chunk is quiet. -/
theorem quiet_write (ran : w.Ran isRequest isDirect) (none_ : w.head = none) :
    Quiet w.before.impl.2 w.before.ext_ w.after.toMessage := by
  by_cases header : w.before.state_ = .header
  · exact quiet_header ran header
  by_cases chunk : w.before.state_ = .chunk_header
  · obtain ⟨m, announced, ⟨_, same | same⟩ | ⟨some_, _⟩⟩ := ran.chunk chunk
    · rw [same]
      exact announced.quiet (quiet_nothing _)
    · rw [same]
      exact announced.quiet (quiet_nothing _)
    · -- Octets that are taken in front of a chunk are its head.
      simp [Wrote.head, chunk, some_] at none_
  cases isDirect with
  | true => exact absurd ran.ready (by simp [allowed, header, chunk])
  | false =>
    -- What is left are the states within a body.
    refine quiet_body ran ?_
    have ready : w.before.state_ ≠ .complete := ran.ready
    cases state : w.before.state_ <;> first | rfl | exact absurd state header | skip
    · exact absurd state chunk
    · exact absurd state ready

/-- A chunk is told of by itself where all else is quiet, and not at all where it has no extension. -/
theorem told_alone {m told : Message (logged d)} {v : Nat} {ext : Octets}
    (before : Quiet w.before.impl.2 w.before.ext_ m)
    (tells : Step.run (tellChunk v ext) m = (.ok (), told))
    (after : ∀ {log e}, Quiet log e told → Quiet log e w.after.toMessage) :
    if ext = [] then Quiet w.before.impl.2 w.before.ext_ w.after.toMessage
    else toldChunks w.after = toldChunks w.before ++ [(v, ext)] ∧ chunkExtension w.after = ext := by
  -- Without an extension, there is no call.
  split
  · rename_i none_
    subst none_
    cases tells
    exact after before
  · rename_i some_
    exact chunks_one before tells (after (quiet_nothing told)) some_

/-- The head of a chunk is told of where it has an extension, and passed over quietly where it has none. -/
theorem head_told (ran : w.Ran isRequest isDirect) {v : Nat} {ext : Octets}
    (taken : w.head = some (v, ext)) :
    if ext = [] then Quiet w.before.impl.2 w.before.ext_ w.after.toMessage
    else toldChunks w.after = toldChunks w.before ++ [(v, ext)] ∧ chunkExtension w.after = ext := by
  have headed : w.before.state_ = .chunk_header ∧ 0 < w.n := by
    by_contra other
    rw [Wrote.head, if_neg other] at taken
    cases taken
  obtain ⟨m, announced, ⟨none_, _⟩ | ⟨some_, head⟩⟩ := ran.chunk headed.1
  · omega
  have before : Quiet w.before.impl.2 w.before.ext_ m := announced.quiet (quiet_nothing _)
  -- The chunk has data, or is the last one with a trailer behind it.
  cases head with
  | opens sized cut size head tells left =>
    have same := head_taken announced headed.1 some_ cut head
    rw [taken, Option.some.injEq, Prod.mk.injEq] at same
    obtain ⟨rfl, rfl⟩ := same
    refine told_alone before tells fun quiet => ?_
    rw [left]
    exact quiet
  | ends cut size head plains trailed =>
    rw [List.append_assoc] at cut
    have same := head_taken announced headed.1 some_ cut head
    rw [taken, Option.some.injEq, Prod.mk.injEq] at same
    obtain ⟨rfl, rfl⟩ := same
    have final : Quiet w.before.impl.2 w.before.ext_ m.final := before
    refine told_alone final trailed.tells fun quiet => ?_
    -- Behind the call come the trailer and the end of the message.
    have parsed := quiet.behind (parseFields_preserves quiet_blind (fun _ _ => invoke_quiet rfl) _ _)
      trailed.parses
    exact parsed.behind doComplete_quiet trailed.completes

/-- A write tells of the chunk whose head it takes, if any, just where that has an extension. -/
theorem told_iff (ran : w.Ran isRequest isDirect) :
    toldChunks w.after = toldChunks w.before ++ w.head.toList ↔ w.Extended := by
  unfold Wrote.Extended
  cases taken : w.head with
  | none =>
    have none_ := (quiet_write ran taken).chunks.1
    simp [none_]
  | some head =>
    obtain ⟨v, ext⟩ := head
    have told := head_told ran taken
    split at told
    · rename_i none_
      have nothing := told.chunks.1
      simp [nothing, none_]
    · rename_i some_
      simp [told.1, some_]

/-- Behind a write, the extension is that of the chunk whose head it took, if any. -/
theorem ext_extended (ran : w.Ran isRequest isDirect) (extended : w.Extended) :
    chunkExtension w.after = (w.head.map (·.2)).getD (chunkExtension w.before) := by
  cases taken : w.head with
  | none => exact (quiet_write ran taken).chunks.2
  | some head =>
    obtain ⟨v, ext⟩ := head
    have told := head_told ran taken
    have some_ : ext ≠ [] := extended (v, ext) taken
    rw [if_neg some_] at told
    exact told.2

end Told

/-- Octets of a body are taken without a word on chunks. -/
theorem bodyTaken_quiet {p q : BasicParser (logged d)} (taken : Relation.TransGen BodyTaken p q) :
    toldChunks q = toldChunks p ∧ chunkExtension q = chunkExtension p := by
  have one : ∀ {p q : BasicParser (logged d)}, BodyTaken p q →
      toldChunks q = toldChunks p ∧ chunkExtension q = chunkExtension p := by
    intro p q taken
    obtain ⟨calls, other, told⟩ := taken.calls
    refine ⟨?_, taken.ext⟩
    have quiet : calls.filterMap chunkTold = [] := by
      refine List.filterMap_eq_nil_iff.mpr fun c there => ?_
      cases c <;> first | rfl | exact absurd rfl ((other _ there).2 _ _)
    rw [toldChunks, told, tells_logged, List.filterMap_append, quiet, List.append_nil]
    rfl
  induction taken with
  | single first => exact one first
  | tail _ last ih => exact ⟨(one last).1.trans ih.1, (one last).2.trans ih.2⟩

/-- A write goes on from the chunks and the extension that were known. -/
theorem writeRunStep_chunks {isRequest isDirect : Bool} {s t : BasicParser (logged d) × Octets}
    {w : Wrote (logged d)} (stepped : WriteRunStep isRequest isDirect s w t) :
    toldChunks w.before = toldChunks s.1 ∧ chunkExtension w.before = chunkExtension s.1 := by
  obtain ⟨_, ⟨before, _⟩ | ⟨_, taken⟩, _, _⟩ := stepped
  · rw [before]
    exact ⟨rfl, rfl⟩
  · exact bodyTaken_quiet taken

/-- The last extension is that of the chunk whose head was taken last, if any. -/
theorem lastExtension_snoc (l : List (Wrote d)) (w : Wrote d) :
    lastExtension (l ++ [w]) = (w.head.map (·.2)).getD (lastExtension l) := by
  unfold lastExtension
  rw [List.filterMap_append]
  cases head : w.head with
  | none => simp [head]
  | some head' => simp [head]

/-- While the head of a chunk is taken, no octets of a body are told of. -/
theorem head_silent {isRequest isDirect : Bool} {w : Wrote (logged d)} (ran : w.Ran isRequest isDirect)
    (taken : w.head ≠ none) : toldData w.after = toldData w.before := by
  have headed : w.before.state_ = .chunk_header ∧ 0 < w.n := by
    by_contra other
    exact taken (if_neg other)
  obtain ⟨m, announced, ⟨none_, _⟩ | ⟨_, head⟩⟩ := ran.chunk headed.1
  · omega
  · have start : Logs (fun c => dataTold c = none) w.before.impl.2 m :=
      announced.logs (logs_nothing _) fun _ => rfl
    obtain ⟨calls, made, all⟩ := head.logs (P := fun c => dataTold c = none) (fun _ _ => rfl)
      (fun _ _ => rfl) rfl start
    rw [toldData, made, List.filterMap_append, List.filterMap_eq_nil_iff.mpr all, List.append_nil]
    rfl

/-- Where each chunk of a run has an extension, all were told of, and the last extension is at hand. -/
theorem WriteRun.chunks_known {isRequest isDirect skipsBody : Bool} {len x : Nat} {impl : d.State}
    {l : List (Wrote (logged d))} {s : BasicParser (logged d) × Octets}
    (writes : WriteRun isRequest isDirect skipsBody len x (impl, []) l s) :
    (∀ w ∈ l, w.Extended) →
      toldChunks s.1 = l.filterMap Wrote.head ∧ chunkExtension s.1 = lastExtension l := by
  -- The induction is on the run, and the memory of its parser is right all along.
  have known : Remembers s.1 s.2 ∧ ((∀ w ∈ l, w.Extended) →
      toldChunks s.1 = l.filterMap Wrote.head ∧ chunkExtension s.1 = lastExtension l) := by
    refine Run.History.invariant (P := fun l s => Remembers s.1 s.2 ∧ ((∀ w ∈ l, w.Extended) →
      toldChunks s.1 = l.filterMap Wrote.head ∧ chunkExtension s.1 = lastExtension l)) writes ?_ ?_
    · exact ⟨opened_remembers (d := logged d) skipsBody len x (impl, []),
        fun _ => by cases skipsBody <;> exact ⟨rfl, rfl⟩⟩
    · rintro l s w t ⟨remembers, known⟩ stepped
      have ran := writeRunStep_ran remembers stepped
      obtain ⟨chunks, ext⟩ := writeRunStep_chunks stepped
      obtain ⟨_, _, _, rfl⟩ := stepped
      refine ⟨ran.left, fun extended => ?_⟩
      obtain ⟨told, last⟩ := known fun v there => extended v (List.mem_append_left _ there)
      have own : w.Extended := extended w (List.mem_append_right _ List.mem_cons_self)
      refine ⟨?_, ?_⟩
      · rw [(told_iff ran).mpr own, chunks, told, List.filterMap_append]
        cases head : w.head <;> simp [head]
      · rw [ext_extended ran own, ext, last, lastExtension_snoc]
  exact known.2

/--
In every run, each write tells of the chunk whose head it takes, and the last extension is at hand.

This holds just where each of the chunks has an extension.
-/
theorem chunks_reported_iff {isRequest isDirect skipsBody : Bool} {len x : Nat} {impl : d.State}
    {l : List (Wrote (logged d))} {s : BasicParser (logged d) × Octets}
    (writes : WriteRun isRequest isDirect skipsBody len x (impl, []) l s) :
    (∀ w ∈ l, toldChunks w.after = toldChunks w.before ++ w.head.toList ∧
        (w.head ≠ none → toldData w.after = toldData w.before)) ∧
      toldChunks s.1 = l.filterMap Wrote.head ∧ chunkExtension s.1 = lastExtension l ↔
      ∀ w ∈ l, w.Extended := by
  have ran := WriteRun.ran writes
  constructor
  · rintro ⟨told, -, -⟩ w there
    exact (told_iff (ran w there)).mp (told w there).1
  · intro extended
    exact ⟨fun w there => ⟨(told_iff (ran w there)).mpr (extended w there), head_silent (ran w there)⟩,
      writes.chunks_known extended⟩

/-- A header, a chunk with an extension, and a last chunk with another one. -/
def extendedChunks : Octets := chunkedHeader ++ octets "1;a\r\nx\r\n0;b\r\n\r\n"

/-- Of a message whose chunks have extensions, all are told of. -/
theorem chunks_reported_extended : ∃ (l : List (Wrote (logged accepting)))
    (s : BasicParser (logged accepting) × Octets),
    WriteRun false false false 0 0 ((), []) l s ∧ s.1.state_ = .complete ∧
      l.filterMap Wrote.head = [(1, octets ";a"), (0, octets ";b")] ∧
      ((∀ w ∈ l, toldChunks w.after = toldChunks w.before ++ w.head.toList ∧
          (w.head ≠ none → toldData w.after = toldData w.before)) ∧
        toldChunks s.1 = l.filterMap Wrote.head ∧ chunkExtension s.1 = lastExtension l ↔
        ∀ w ∈ l, w.Extended) := by
  obtain ⟨run, made⟩ : ∃ run, run = writeAll false (opened (d := logged accepting) false 0 0 ((), [])) []
    [extendedChunks, [], [], []] := ⟨_, rfl⟩
  have writes := writes_all (d := logged accepting) false ((), []) [extendedChunks, [], [], []]
  rw [← made] at writes
  refine ⟨run.1, run.2, writes, ?_, ?_, chunks_reported_iff writes⟩
  · rw [made]
    decide +kernel
  · rw [made]
    decide +kernel

/-- The head of a chunk without an extension, behind a header. -/
def bareChunk : Octets := chunkedHeader ++ octets "1\r\n"

/-- A chunk without an extension is not told of. -/
theorem chunk_unreported : ¬∀ (isRequest isDirect skipsBody : Bool) (len x : Nat)
    (l : List (Wrote (logged accepting))) (s : BasicParser (logged accepting) × Octets),
    WriteRun isRequest isDirect skipsBody len x ((), []) l s →
      (∀ w ∈ l, toldChunks w.after = toldChunks w.before ++ w.head.toList ∧
        (w.head ≠ none → toldData w.after = toldData w.before)) ∧
      toldChunks s.1 = l.filterMap Wrote.head ∧ chunkExtension s.1 = lastExtension l := by
  intro reported
  obtain ⟨run, made⟩ : ∃ run, run = writeAll false (opened (d := logged accepting) false 0 0 ((), [])) []
    [bareChunk, []] := ⟨_, rfl⟩
  have writes := writes_all (d := logged accepting) false ((), []) [bareChunk, []]
  rw [← made] at writes
  obtain ⟨-, told, -⟩ := reported _ _ _ _ _ _ _ writes
  have silent : toldChunks run.2.1 = [] ∧ run.1.filterMap Wrote.head = [(1, [])] := by
    rw [made]
    decide +kernel
  rw [silent.1, silent.2] at told
  cases told

end Beast.Http
