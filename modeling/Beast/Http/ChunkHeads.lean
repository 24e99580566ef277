import Beast.Http.ChunkLaws
import Beast.Http.GuardedLaws
import Beast.Http.WriteRuns

/-! The line of a chunk that was taken, taken apart, with the trailer behind the last one. -/

namespace Beast.Http

variable {d : Derived} {m t : Message d}

/-- The extension in the line of a chunk, from its semicolon on. -/
def lineExtension (line : Octets) : Octets := line.dropWhile (· != octet ';')

/-- The line of a chunk of some size, in front of what follows it. -/
structure HeadLine (line it : Octets) (v : Nat) : Prop where
  plain : PlainLine line
  size : parseHex (line ++ crlf ++ it) = .ok (some v, lineExtension line ++ crlf ++ it)

/-- What is told of a chunk before its data, which is nothing where it has no extension. -/
def tellChunk (v : Nat) (ext : Octets) : MessageStep d Unit :=
  if ext.isEmpty then pure ()
  else do
    modify fun self => { self with ext_ := ext }
    invoke (.on_chunk v ext)

/-- The message once the size of the last chunk is known. -/
def Message.final (m : Message d) : Message d :=
  { m with f_ := { m.f_ with flagFinalChunk := true } }

/-- Nothing but digits is read of a size. -/
theorem parseHex_digits {text it : Octets} {r : Option Nat} (read : parseHex text = .ok (r, it)) :
    ∃ digits, text = digits ++ it ∧ ∀ c ∈ digits, (unhex c).isSome = true := by
  have loop : ∀ {v : Nat} {text : Octets}, parseHexLoop v text = .ok (r, it) →
      ∃ digits, text = digits ++ it ∧ ∀ c ∈ digits, (unhex c).isSome = true := by
    intro v text read
    -- The loop takes one digit after the other, and stops at anything else.
    induction text generalizing v with
    | nil => simp [parseHexLoop] at read
    | cons c text ih =>
      rw [parseHexLoop] at read
      cases digit : unhex c with
      | none =>
        simp only [digit] at read
        cases read
        exact ⟨[], rfl, List.forall_mem_nil _⟩
      | some value =>
        simp only [digit] at read
        split at read
        · cases read
          exact ⟨[c], rfl, by simp [digit]⟩
        · obtain ⟨digits, rfl, all⟩ := ih read
          exact ⟨c :: digits, rfl, by simpa [digit] using all⟩
  cases text with
  | nil => simp [parseHex] at read
  | cons c text =>
    rw [parseHex] at read
    cases digit : unhex c with
    | none =>
      simp only [digit] at read
      cases read
      exact ⟨[], rfl, List.forall_mem_nil _⟩
    | some value =>
      simp only [digit] at read
      obtain ⟨digits, rfl, all⟩ := loop read
      exact ⟨c :: digits, rfl, by simpa [digit] using all⟩

/-- A size is read up to the extension, where it is followed by an extension or by nothing. -/
theorem headLine_of_size {line ext it : Octets} {v : Nat} (plain : PlainLine line)
    (size : parseHex (line ++ crlf ++ it) = .ok (some v, ext ++ crlf ++ it))
    (ends : ext = [] ∨ ext.head? = some (octet ';')) :
    HeadLine line it v ∧ lineExtension line = ext := by
  obtain ⟨digits, whole, all⟩ := parseHex_digits size
  -- The digits and the extension make up the line.
  have cut : line = digits ++ ext := by
    rw [← List.append_assoc, ← List.append_assoc] at whole
    exact List.append_cancel_right (List.append_cancel_right whole)
  have passed : lineExtension line = ext := by
    -- No digit is a semicolon, so the extension starts behind them.
    have none_ : ∀ c ∈ digits, (c != octet ';') = true := by
      intro c there
      by_contra same
      have digit := all c there
      rw [show c = octet ';' by simpa using same] at digit
      cases digit
    unfold lineExtension
    rw [cut, List.dropWhile_append_of_pos none_]
    rcases ends with rfl | opens
    · rfl
    · obtain ⟨rest, rfl⟩ := List.head?_eq_some_iff.mp opens
      rfl
  exact ⟨⟨plain, by rw [passed]; exact size⟩, passed⟩

/-- The octets behind an offset in a line are the extension that stands there. -/
theorem extension_cut {line ext it front : Octets} (suffix : ext <:+ line) :
    ((front ++ line ++ it).take (front.length + line.length)).drop
      (front.length + (line.length - ext.length)) = ext := by
  obtain ⟨digits, rfl⟩ := suffix
  rw [List.take_left' (List.length_append ..), ← List.drop_drop, List.drop_left,
    List.length_append, Nat.add_sub_cancel, List.drop_left]

/-- An extension is told of, or there is none. -/
theorem tellChunk_told {v : Nat} {ext : Octets} (opens : ext.head? = some (octet ';')) :
    tellChunk (d := d) v ext =
      (do modify fun self => { self with ext_ := ext }; invoke (.on_chunk v ext)) := by
  obtain ⟨rest, rfl⟩ := List.head?_eq_some_iff.mp opens
  rfl

/-- A chunk that was opened was told of. -/
theorem openChunk_taken {line ext it : Octets} {v : Nat} (suffix : ext <:+ line)
    (ran : Step.run (openChunk (line ++ crlf ++ it) (ext ++ crlf ++ it) v (line.length + 2)) m =
      (.ok (), t)) :
    (ext = [] ∨ ext.head? = some (octet ';')) ∧
      ∃ u, Step.run (tellChunk v ext) m = (.ok (), u) ∧ t = u.inChunk v := by
  have shorter := suffix.length_le
  -- The parser counts from the end of the text, and the line from its front.
  have offset : (line ++ crlf ++ it).length - (ext ++ crlf ++ it).length =
      line.length - ext.length := by
    simp only [List.length_append]
    omega
  have cut := @extension_cut line ext (crlf ++ it) [] suffix
  simp only [List.nil_append, List.length_nil, Nat.zero_add] at cut
  unfold openChunk at ran
  rw [offset, show line.length + 2 - 2 = line.length from rfl, List.append_assoc line] at ran
  dsimp only at ran
  rw [cut] at ran
  cases ext with
  | nil =>
    -- Behind the size comes the end of the line, and nothing is told.
    refine ⟨.inl rfl, m, rfl, ?_⟩
    rw [show line.length - ([] : Octets).length = line.length from rfl] at ran
    simp only [crlf, List.nil_append, List.cons_append, peek, Step.run_lift_ok_bind] at ran
    rw [if_neg (by decide), if_neg (by simp)] at ran
    cases ran
    rfl
  | cons c ext =>
    simp only [List.cons_append, peek, Step.run_lift_ok_bind] at ran
    by_cases semicolon : (c == octet ';') = true
    · have opens : (c :: ext).head? = some (octet ';') := by simpa using semicolon
      rw [if_pos semicolon] at ran
      obtain ⟨_, u, told, rest⟩ := Step.bind_ok ran
      obtain ⟨_, w, called, rest⟩ := Step.bind_ok rest
      cases rest
      refine ⟨.inr opens, w, ?_, rfl⟩
      rw [tellChunk_told opens, Step.run_bind_ok told]
      exact called
    · -- Anything else behind the size is refused.
      rw [if_neg semicolon, if_pos (by simp; simp at shorter; omega)] at ran
      obtain ⟨_, u, stopped, _⟩ := Step.bind_ok ran
      simp [fail] at stopped

/-- The end of a chunked message: the last chunk is told of, the trailer is parsed, and all is complete. -/
structure Trailed (ext : Octets) (lines : List Octets) (m told parsed t : Message d) : Prop where
  tells : Step.run (tellChunk 0 ext) m = (.ok (), told)
  parses : Step.run (parseFields ((writeLines lines ++ crlf).length + 1) (writeLines lines ++ crlf)) told =
    (.ok [], parsed)
  completes : Step.run doComplete parsed = (.ok (), t)

/-- Where fields are parsed, nothing is left of their lines. -/
theorem parseFields_rest {lines : List Octets} (plains : PlainLines lines) {it : Octets}
    (ran : Step.run (parseFields ((writeLines lines ++ crlf).length + 1) (writeLines lines ++ crlf)) m =
      (.ok it, t)) :
    it = [] ∧ (readFields lines).2 = false ∧
      Step.run (takeFields (readFields lines).1) m = (.ok (), t) := by
  rw [parseFields_lines plains (Nat.lt_succ_of_le (length_lines lines))] at ran
  obtain ⟨_, u, taken, ended⟩ := Step.bind_ok ran
  unfold endFields at ended
  split at ended
  · cases ended
  · rename_i whole
    cases ended
    exact ⟨rfl, by simpa using whole, taken⟩

/-- A trailer that was taken was taken part by part. -/
theorem parseTrailer_taken {front line ext : Octets} {lines : List Octets} (plains : PlainLines lines)
    (plain : PlainLine line) (suffix : ext <:+ line)
    (ran : Step.run (parseTrailer (front ++ line ++ crlf ++ (writeLines lines ++ crlf))
      (front.length + (line.length - ext.length)) (front.length + line.length)) m = (.ok (), t)) :
    (ext = [] ∨ ext.head? = some (octet ';')) ∧
      ∃ told parsed, Trailed ext lines m told parsed t := by
  have cut := @extension_cut line ext (crlf ++ (writeLines lines ++ crlf)) front suffix
  obtain ⟨rest, trailer⟩ : ∃ rest, rest = writeLines lines ++ crlf := ⟨_, rfl⟩
  rw [← trailer] at ran cut
  -- What is parsed are the extension, the end of the line, and the block behind it.
  have behind : (front ++ line ++ crlf ++ rest).drop (front.length + (line.length - ext.length)) =
      ext ++ crlf ++ rest := by
    obtain ⟨digits, rfl⟩ := suffix
    rw [← List.drop_drop, List.append_assoc, List.append_assoc, List.drop_left, List.length_append,
      Nat.add_sub_cancel, List.append_assoc, List.drop_left, List.append_assoc]
  have ended : (front ++ line ++ crlf ++ rest).drop (front.length + line.length) = crlf ++ rest := by
    rw [List.append_assoc, List.drop_left' (List.length_append ..)]
  -- Behind the line, the trailer is parsed up to its end.
  have trailed : ∀ {u : Message d}, Step.run (parseTrailerBehind (crlf ++ rest)) u = (.ok (), t) → ∃ parsed,
        Step.run (parseFields (rest.length + 1) rest) u = (.ok [], parsed) ∧
          Step.run doComplete parsed = (.ok (), t) := by
    intro u ran
    obtain ⟨_, _, read, ran⟩ := Step.bind_ok ran
    cases read
    obtain ⟨it, parsed, fields, completed⟩ := Step.bind_ok ran
    have none_ : it = [] := by
      rw [trailer] at fields
      exact (parseFields_rest plains fields).1
    exact ⟨parsed, none_ ▸ fields, completed⟩
  unfold parseTrailer at ran
  rw [behind, ended] at ran
  dsimp only at ran
  rw [List.append_assoc (front ++ line), cut] at ran
  -- The extension is told of before the trailer is parsed, where there is one.
  cases ext with
  | nil =>
    simp only [crlf, List.nil_append, List.cons_append, peek, Step.run_lift_ok_bind] at ran
    rw [if_neg (by decide)] at ran
    obtain ⟨parsed, fields, completed⟩ := trailed ran
    rw [trailer] at fields
    exact ⟨.inl rfl, m, parsed, rfl, fields, completed⟩
  | cons c ext =>
    simp only [List.cons_append, peek, Step.run_lift_ok_bind] at ran
    by_cases semicolon : (c == octet ';') = true
    · have opens : (c :: ext).head? = some (octet ';') := by simpa using semicolon
      rw [if_pos semicolon] at ran
      obtain ⟨_, u, told, ran⟩ := Step.bind_ok ran
      obtain ⟨_, w, called, ran⟩ := Step.bind_ok ran
      obtain ⟨parsed, fields, completed⟩ := trailed ran
      rw [trailer] at fields
      refine ⟨.inr opens, w, parsed, ?_, fields, completed⟩
      rw [tellChunk_told opens, Step.run_bind_ok told]
      exact called
    · -- Anything else behind the size is refused.
      rw [if_neg semicolon] at ran
      have other : c ≠ 13 := plain c (suffix.subset List.mem_cons_self)
      simp [parseCrlf, other, fail, Step.run_bind] at ran

/-- What a chunk head that was taken has done. -/
inductive HeadTaken (text : Octets) (n : Nat) (m t : Message d) : Prop
  | opens {line it : Octets} {v : Nat} {told : Message d} (some_ : v ≠ 0)
    (cut : text = m.between ++ line ++ crlf ++ it) (size : n = (m.between ++ line ++ crlf).length)
    (head : HeadLine line it v)
    (tells : Step.run (tellChunk v (lineExtension line)) m = (.ok (), told)) (left : t = told.inChunk v)
  | ends {line it : Octets} {lines : List Octets} {told parsed : Message d}
    (cut : text = m.between ++ line ++ crlf ++ (writeLines lines ++ crlf) ++ it)
    (size : n = (m.between ++ line ++ crlf ++ (writeLines lines ++ crlf)).length)
    (head : HeadLine line (writeLines lines ++ crlf ++ it) 0) (plains : PlainLines lines)
    (trailed : Trailed (lineExtension line) lines m.final told parsed t)

/-- The end of a line that was read stands in front of what is left. -/
theorem parseCrlf_read {text it : Octets} (read : parseCrlf text = .ok (true, it)) : text = crlf ++ it := by
  -- Fewer than two octets are too few.
  obtain _ | ⟨c, _ | ⟨e, rest⟩⟩ := text
  · simp [parseCrlf] at read
  · by_cases first : c = 13 <;> simp [parseCrlf, first] at read
  · rw [parseCrlf_two] at read
    split at read
    · rename_i first
      split at read
      · rename_i second
        cases read
        rw [first, second]
        rfl
      · cases read
    · cases read

/-- The trailer behind the last chunk is waited for, or taken part by part. -/
theorem lastChunkStep_taken {front line ext it : Octets} {n : Nat} (plain : PlainLine line)
    (suffix : ext <:+ line)
    (ran : Step.run (lastChunkStep (front ++ (line ++ crlf ++ it))
      (front.length + (line.length - ext.length)) (front.length + line.length)) m = (.ok n, t)) :
    n = 0 ∧ t = m ∨ ∃ lines it' told parsed, PlainLines lines ∧
      it = writeLines lines ++ crlf ++ it' ∧
      n = (front ++ line ++ crlf ++ (writeLines lines ++ crlf)).length ∧
      (ext = [] ∨ ext.head? = some (octet ';')) ∧ Trailed ext lines m told parsed t := by
  have whole : front ++ (line ++ crlf ++ it) = front ++ line ++ (crlf ++ it) := by
    simp only [List.append_assoc]
  have before : (front ++ (line ++ crlf ++ it)).take (front.length + line.length) = front ++ line := by
    rw [whole, List.take_left' (List.length_append ..)]
  have ended : (front ++ (line ++ crlf ++ it)).drop (front.length + line.length) = crlf ++ it := by
    rw [whole, List.drop_left' (List.length_append ..)]
  unfold lastChunkStep at ran
  rw [ended] at ran
  -- The end of the trailer may be missing, or not be reached.
  cases found : findEom (crlf ++ it) with
  | bad => simp [found, Scan.shift, fail] at ran
  | need =>
    rw [found] at ran
    cases ran
    exact .inl ⟨rfl, rfl⟩
  | found k =>
    rw [found] at ran
    obtain ⟨_, u, trailer, rest⟩ := Step.bind_ok ran
    cases rest
    obtain ⟨line', lines, cut, plain', plains⟩ := findEom_split found
    have bounds := findEom_bounds found
    -- The first of the lines that were found is what is left of the line of the chunk.
    have none_ : line' = [] := by
      cases line' with
      | nil => rfl
      | cons c line' =>
        obtain ⟨k, rfl⟩ := Nat.exists_eq_add_one_of_ne_zero (show k ≠ 0 by omega)
        have first := (List.cons.inj cut).1
        exact absurd first.symm (plain' c List.mem_cons_self)
    subst none_
    have parts : crlf ++ it = crlf ++ (writeLines lines ++ crlf ++ (crlf ++ it).drop k) := by
      conv_lhs => rw [← List.take_append_drop k (crlf ++ it), cut]
      simp only [List.nil_append, List.append_assoc]
    have split := List.append_cancel_left parts
    -- The text that is handed on ends where the trailer does.
    have block : (front ++ (line ++ crlf ++ it)).take (front.length + line.length + k) =
        front ++ line ++ crlf ++ (writeLines lines ++ crlf) := by
      rw [List.take_add, before, ended, cut]
      simp only [List.nil_append, List.append_assoc]
    have size := congrArg List.length block
    rw [block] at trailer
    obtain ⟨ends, told, parsed, trailed⟩ := parseTrailer_taken plains plain suffix trailer
    refine .inr ⟨lines, _, told, parsed, plains, split, ?_, ends, trailed⟩
    rw [← size, List.length_take, List.length_append, List.length_append, List.length_append]
    rw [List.length_append] at bounds
    omega

/-- The line of a chunk is waited for, or taken part by part. -/
theorem chunkLineStep_taken {p : Octets} {n : Nat}
    (ran : Step.run (chunkLineStep (m.between ++ p) p) m = (.ok n, t)) :
    n = 0 ∧ (t = m ∨ t = m.final) ∨ 0 < n ∧ HeadTaken (m.between ++ p) n m t := by
  obtain ⟨front, between⟩ : ∃ front, front = m.between := ⟨_, rfl⟩
  rw [← between] at ran ⊢
  unfold chunkLineStep at ran
  split at ran
  · cases ran
    exact .inl ⟨rfl, .inl rfl⟩
  cases found : findEol p with
  | bad => simp [found, fail] at ran
  | need =>
    rw [found] at ran
    cases ran
    exact .inl ⟨rfl, .inl rfl⟩
  | found k =>
    obtain ⟨line, it, rfl, plain, rfl⟩ := findEol_split found
    rw [found] at ran
    unfold chunkSizeStep at ran
    obtain ⟨⟨v, rest⟩, u, read, ran⟩ := Step.bind_ok ran
    rw [Step.run_lift, Prod.mk.injEq] at read
    obtain ⟨size, rfl⟩ := read
    obtain ⟨_, ext, _, _, stays⟩ := Guarded.parseHex_within line it plain
    obtain ⟨rfl, rfl⟩ := Prod.mk.inj (Except.ok.inj (size.symm.trans stays))
    have suffix : ext <:+ line := by
      obtain ⟨digits, whole⟩ := Guarded.parseHex_suffix size
      rw [← List.append_assoc, ← List.append_assoc] at whole
      exact ⟨digits, List.append_cancel_right (List.append_cancel_right whole)⟩
    have shorter := suffix.length_le
    have start : (front ++ (line ++ crlf ++ it)).length - (line ++ crlf ++ it).length = front.length := by
      rw [List.length_append]
      omega
    obtain _ | v := v
    · simp [fail] at ran
    dsimp only at ran
    rw [start] at ran
    by_cases last : v = 0
    · subst last
      rw [if_neg (by decide)] at ran
      have offset : (front ++ (line ++ crlf ++ it)).length - (ext ++ crlf ++ it).length =
          front.length + (line.length - ext.length) := by
        simp only [List.length_append]
        omega
      rw [offset, show front.length + (line.length + 2) - 2 = front.length + line.length from rfl] at ran
      obtain ⟨_, u, noted, ran⟩ := Step.bind_ok ran
      cases noted
      rcases lastChunkStep_taken plain suffix ran with ⟨none_, same⟩ |
        ⟨lines, it', told, parsed, plains, rfl, length, ends, trailed⟩
      · exact .inl ⟨none_, .inr same⟩
      · obtain ⟨head, rfl⟩ := headLine_of_size plain size ends
        refine .inr ⟨?_, HeadTaken.ends ?_ (by rw [length, between]) head plains trailed⟩
        · rw [length]
          simp only [List.length_append, crlf, List.length_cons]
          omega
        · rw [← between]
          simp only [List.append_assoc]
    · rw [if_pos (by simpa using last)] at ran
      obtain ⟨_, u, opened, rest⟩ := Step.bind_ok ran
      cases rest
      obtain ⟨ends, told, tells, left⟩ := openChunk_taken suffix opened
      obtain ⟨head, rfl⟩ := headLine_of_size plain size ends
      refine .inr ⟨by omega, HeadTaken.opens last ?_ ?_ head tells left⟩
      · rw [← between]
        simp only [List.append_assoc]
      · rw [← between]
        simp only [List.length_append, crlf, List.length_cons, List.length_nil]
        omega

/-- The head of a chunk is waited for, or taken part by part. -/
theorem chunkStep_taken {text : Octets} {n : Nat} (ran : Step.run (chunkStep text) m = (.ok n, t)) :
    n = 0 ∧ (t = m ∨ t = m.final) ∨ 0 < n ∧ HeadTaken text n m t := by
  -- What is taken starts behind the end of the chunk before, where there was one.
  have front : n = 0 ∧ t = m ∨ ∃ p, text = m.between ++ p := by
    unfold chunkStep at ran
    rw [Step.run_get_bind] at ran
    unfold Message.between
    split at ran
    · rename_i expect
      rw [if_pos expect]
      split at ran
      · cases ran
        exact .inl ⟨rfl, rfl⟩
      · obtain ⟨⟨ended, p⟩, u, read, ran⟩ := Step.bind_ok ran
        rw [Step.run_lift, Prod.mk.injEq] at read
        cases ended with
        | false => simp [fail] at ran
        | true => exact .inr ⟨p, parseCrlf_read read.1⟩
    · rename_i free
      rw [if_neg free]
      exact .inr ⟨text, rfl⟩
  -- Where the end of the chunk before has not come, nothing is taken.
  rcases front with ⟨none_, same⟩ | ⟨p, rfl⟩
  · exact .inl ⟨none_, .inl same⟩
  · rw [chunkStep_between] at ran
    exact chunkLineStep_taken ran

/-- A write in front of a chunk announces the body, and waits for the head of the chunk or takes it. -/
theorem Wrote.Ran.chunk {isRequest isDirect : Bool} {w : Wrote d} (ran : w.Ran isRequest isDirect)
    (chunk : w.before.state_ = .chunk_header) :
    ∃ m, AnnouncesBody w.before.toMessage m ∧
      (w.n = 0 ∧ (w.after.toMessage = m ∨ w.after.toMessage = m.final) ∨
        0 < w.n ∧ HeadTaken w.text w.n m w.after.toMessage) := by
  obtain ⟨m, begun, step⟩ := ran.head chunk
  exact ⟨m, begun, chunkStep_taken step⟩

section Logs

variable {P : Callback → Prop} {log : List Callback}

/-- Telling of a chunk is one call at most. -/
theorem tellChunk_logs (v : Nat) {ext : Octets} (kind : P (.on_chunk v ext)) :
    Step.Preserves (Logs P log) (tellChunk (d := logged d) v ext) := by
  unfold tellChunk
  split
  · exact Step.preserves_pure _
  · exact Step.preserves_bind (Step.preserves_modify fun _ same => same) fun _ => invoke_logs kind

/-- The head of a chunk is taken with calls that tell of the chunk, of fields and of the end alone. -/
theorem HeadTaken.logs {text : Octets} {n : Nat} {m t : Message (logged d)} (taken : HeadTaken text n m t)
    (chunks : ∀ v ext, P (.on_chunk v ext)) (fields : ∀ name value, P (.on_field name value))
    (ends : P .on_complete) (logs : Logs P log m) : Logs P log t := by
  cases taken with
  | opens _ _ _ _ tells left =>
    have told := logs.behind (tellChunk_logs _ (chunks _ _)) tells
    rw [left]
    exact told
  | ends _ _ _ _ trailed =>
    have final : Logs P log m.final := logs
    have told := final.behind (tellChunk_logs _ (chunks _ _)) trailed.tells
    have parsed := told.behind (parseFields_preserves (fun _ _ _ _ same => same)
      (fun _ _ => invoke_logs (fields _ _)) _ _) trailed.parses
    exact parsed.behind (doComplete_logs ends) trailed.completes

end Logs

end Beast.Http
