import Beast.Http.BasicParserBaseLaws
import Beast.Http.Header
import Beast.Http.Rescan
import Beast.Http.Rfc7230Laws

/-! A header that was written is parsed as the header that it was written from. -/

namespace Beast.Http

/-- A field that is written as it is read: a name, and a value with white space inside it only. -/
structure WellFormedField (name value : Octets) : Prop where
  named : IsToken name
  text : value.all isText = true
  trimmed : trim value = value
  list : strieq "connection" name = true ∨ strieq "proxy-connection" name = true →
    (optTokenList value).isSome = true

/-- A first line of words that belong there. -/
def WellFormedStart : StartLine → Prop
  | .request method target => IsToken method ∧ target ≠ [] ∧ ∀ c ∈ target, isPathchar c = true
  | .response status reason => 100 ≤ status ∧ status ≤ 999 ∧ ∀ c ∈ reason, isText c = true

/-- A header that the grammar allows. -/
structure WellFormed (msg : Header) : Prop where
  version : msg.version = 10 ∨ msg.version = 11
  start : WellFormedStart msg.start
  fields : ∀ field ∈ msg.fields, WellFormedField field.1 field.2

/-- What belongs in one place is read up to the first octet that does not. -/
theorem readWhile_append {kind : UInt8 → Bool} {s it : Octets} {c : UInt8}
    (all : ∀ b ∈ s, kind b = true) (stops : kind c = false) :
    readWhile kind (s ++ c :: it) = .ok (s, c :: it) := by
  induction s with
  | nil => simp [readWhile, stops]
  | cons b s ih =>
    have rest := ih fun b present => all b (List.mem_cons_of_mem _ present)
    simp [readWhile, all b List.mem_cons_self, rest]

/-- An octet of a token has a place in a field name, and is no end of a line. -/
theorem tchar_field {c : UInt8} (token : isTchar c = true) :
    (toFieldChar c != 0) = true ∧ c ≠ 13 ∧ c ≠ octet ':' := by
  obtain ⟨c⟩ := c
  revert c
  decide +kernel

/-- Text is no end of a line. -/
theorem text_line {c : UInt8} (text : isText c = true) : c ≠ 13 ∧ (c != 13 && isText c) = true := by
  obtain ⟨c⟩ := c
  revert c
  decide +kernel

/-- An octet of a request target is no end of a line. -/
theorem pathchar_line {c : UInt8} (path : isPathchar c = true) : c ≠ 13 := by
  obtain ⟨c⟩ := c
  revert c
  decide +kernel

/-- A version that was written is read. -/
theorem parseVersion_name {version : Nat} {it : Octets} (known : version = 10 ∨ version = 11) :
    parseVersion (versionName version ++ it) = .ok (some version, it) := by
  rcases known with rfl | rfl <;> rfl

/-- The digits of a status code, which has three of them. -/
theorem status_digits {status : Nat} (least : 100 ≤ status) (most : status ≤ 999) :
    octets (toString status) = [octet (status / 100).digitChar, octet (status / 10 % 10).digitChar,
      octet (status % 10).digitChar] := by
  have digits : (Nat.toDigits 10 status) =
      [(status / 100).digitChar, (status / 10 % 10).digitChar, (status % 10).digitChar] := by
    rw [Nat.toDigits_of_base_le (by omega) (by omega), Nat.toDigits_of_base_le (by omega) (by omega),
      Nat.toDigits_of_lt_base (by omega), Nat.div_div_eq_div_mul]
    rfl
  unfold octets
  rw [show (toString status).toList = Nat.toDigits 10 status from by simp [toString, Nat.repr],
    digits]
  rfl

/-- A digit that was written is read. -/
theorem readDigit_digitChar {n : Nat} {it : Octets} (small : n < 10) :
    readDigit (octet n.digitChar :: it) = .ok (some n, it) := by
  -- Ten digits, each checked by the reader.
  rcases n with _ | _ | _ | _ | _ | _ | _ | _ | _ | _ | n
  all_goals first | rfl | omega

/-- A status code that was written is read. -/
theorem parseStatus_write {status : Nat} {it : Octets} (least : 100 ≤ status)
    (most : status ≤ 999) : parseStatus (octets (toString status) ++ it) = .ok (some status, it) := by
  rw [status_digits least most]
  have first := fun it => @readDigit_digitChar (status / 100) it (by omega)
  have second := fun it => @readDigit_digitChar (status / 10 % 10) it (by omega)
  have third := fun it => @readDigit_digitChar (status % 10) it (by omega)
  have whole : 100 * (status / 100) + 10 * (status / 10 % 10) + status % 10 = status := by omega
  unfold parseStatus
  simp only [List.cons_append, List.nil_append, first, second, third, whole, bind, Except.bind]
  rfl

/-- A call of a derived class that takes every call. -/
def Obliging (d : Derived) : Prop :=
  ∀ state c, (d.call state c).2 = none

variable {d : Derived}

/-- Where every call is taken, a call changes the derived class alone. -/
theorem run_invoke (obliging : Obliging d) (c : Callback) (m : Message d) :
    Step.run (invoke c) m = (.ok (), { m with impl := (d.call m.impl c).1 }) := by
  have accepted := obliging m.impl c
  unfold Step.run invoke
  dsimp only
  rw [accepted]

/-- What a first line says is told, with its status or none. -/
def startCallback (msg : Header) : Callback :=
  match msg.start with
  | .request method target => .on_request method target msg.version
  | .response status reason => .on_response status reason msg.version

/-- The status of a response, or none. -/
def startStatus (msg : Header) : Nat :=
  match msg.start with
  | .request .. => 0
  | .response status _ => status

/-- A first line that was written is read, and told. -/
theorem parseStartline_write {msg : Header} (version : msg.version = 10 ∨ msg.version = 11)
    (start : WellFormedStart msg.start) (it : Octets) (m : Message d) :
    Step.run (parseStartline msg.is_request (writeStartLine msg ++ it)) m =
      Step.run (do
        invoke (startCallback msg)
        return (msg.version, startStatus msg, it)) m := by
  have space : isTchar 32 = false ∧ isPathchar 32 = false := by decide
  have blank : octets " " = [32] := rfl
  have spaced : ∀ it, readOctet (octet ' ') (32 :: it) = .ok (true, it) := fun _ => rfl
  have ended : ∀ it, parseCrlf (crlf ++ it) = .ok (true, it) := fun _ => rfl
  unfold writeStartLine startCallback startStatus Header.is_request parseStartline
  cases line : msg.start with
  | request method target =>
    rw [line] at start
    obtain ⟨⟨some_, token⟩, target_, path⟩ := start
    have methodRead : ∀ it, parseMethod (method ++ 32 :: it) = .ok (method, 32 :: it) :=
      fun it => readWhile_append token space.1
    have targetRead : ∀ it, parseTarget (target ++ 32 :: it) = .ok (target, 32 :: it) := by
      intro it
      unfold parseTarget
      rw [readWhile_append path space.2]
      rfl
    dsimp only
    simp only [blank, List.append_assoc, List.singleton_append, ↓reduceIte]
    unfold parseRequestLine
    simp only [List.cons_append, methodRead, targetRead, spaced, ended, parseVersion_name version,
      Step.run_bind, Step.run_lift, List.isEmpty_eq_false_iff.mpr some_,
      List.isEmpty_eq_false_iff.mpr target_, Bool.false_eq_true, ↓reduceIte]
    rcases told : Step.run (invoke (.on_request method target msg.version)) m with ⟨_ | _, s⟩
    · rfl
    · rfl
  | response status reason =>
    rw [line] at start
    obtain ⟨least, most, text⟩ := start
    have reasonRead : ∀ it, parseReason (reason ++ 13 :: it) = .ok (reason, 13 :: it) := by
      intro it
      have all : ∀ c ∈ reason, (c != 13 && isText c) = true := fun c there => (text_line (text c there)).2
      unfold parseReason
      rw [readWhile_append all rfl]
      rfl
    have returned : ∀ it, reason ++ (crlf ++ it) = reason ++ 13 :: (10 :: it) := fun _ => rfl
    have ended' : ∀ it, parseCrlf (13 :: 10 :: it) = .ok (true, it) := fun _ => rfl
    dsimp only
    simp only [blank, List.append_assoc, List.singleton_append, Bool.false_eq_true, ↓reduceIte]
    unfold parseStatusLine
    simp only [List.cons_append, spaced, returned, reasonRead, ended', parseVersion_name version,
      parseStatus_write least most, Step.run_bind, Step.run_lift]

/-- Fields that are there, one after another. -/
def takeFields : Fields → MessageStep d Unit
  | [] => return
  | (name, value) :: fields => do
    doField name value
    invoke (.on_field name value)
    takeFields fields

/-- The end of a line without a carriage return inside is found. -/
theorem findEol_write {line : Octets} (plain : ∀ c ∈ line, c ≠ 13) (it : Octets) :
    findEol (line ++ crlf ++ it) = .found (line.length + 2) := by
  induction line with
  | nil => rfl
  | cons c line ih =>
    have rest := ih fun b there => plain b (List.mem_cons_of_mem _ there)
    rw [List.cons_append, List.cons_append, findEol_cons (plain c List.mem_cons_self), rest]
    simp only [Scan.shift, List.length_cons, Scan.found.injEq]
    omega

/-- A line that was written is split off. -/
theorem readLine_write {line : Octets} (plain : ∀ c ∈ line, c ≠ 13) (it : Octets) (m : Message d) :
    Step.run (readLine (line ++ crlf ++ it)) m = (.ok (line, it), m) := by
  unfold readLine
  rw [findEol_write plain]
  have front : (line ++ crlf ++ it).take (line.length + 2 - 2) = line := by
    rw [List.append_assoc, Nat.add_sub_cancel, List.take_left]
  have back : (line ++ crlf ++ it).drop (line.length + 2) = it :=
    List.drop_left' (by simp [crlf])
  simp only [front, back]
  rfl

/-- What follows a field that was written is no continuation of it. -/
def Unfolded (it : Octets) : Prop :=
  ∃ c rest, it = c :: rest ∧ isOws c = false

/-- The fields behind a field, or the empty line, are no continuation of it. -/
theorem unfolded_fields {fields : Fields} (wellFormed : ∀ f ∈ fields, WellFormedField f.1 f.2)
    (it : Octets) : Unfolded (writeFields fields ++ crlf ++ it) := by
  cases fields with
  | nil => exact ⟨13, 10 :: it, rfl, rfl⟩
  | cons field fields =>
    obtain ⟨name, value⟩ := field
    obtain ⟨some_, token⟩ := (wellFormed (name, value) List.mem_cons_self).named
    obtain ⟨c, more, rfl⟩ := List.exists_cons_of_ne_nil some_
    have letter := token c List.mem_cons_self
    have noColon := (tchar_field letter).2.2
    refine ⟨c, more ++ (octets ": " ++ value ++ crlf ++ writeFields fields ++ crlf ++ it), ?_,
      (tchar_plain letter).1⟩
    rw [writeFields, if_neg (by simpa using noColon)]
    simp only [writeField, List.append_assoc, List.cons_append]

/-- The line of a field has no carriage return inside. -/
theorem field_line {name value : Octets} (wellFormed : WellFormedField name value) :
    ∀ c ∈ name ++ octets ": " ++ value, c ≠ 13 := by
  intro c there
  rw [List.mem_append, List.mem_append] at there
  rcases there with (inName | inside) | inValue
  · exact (tchar_field (wellFormed.named.2 c inName)).2.1
  · rintro rfl
    exact absurd inside (by decide)
  · exact (text_line (List.all_eq_true.mp wellFormed.text c inValue)).1

/-- Fields that were written are taken one after another. -/
theorem parseFields_write {fields : Fields} (wellFormed : ∀ f ∈ fields, WellFormedField f.1 f.2)
    {fuel : Nat} (enough : fields.length < fuel) (it : Octets) (m : Message d) :
    Step.run (parseFields fuel (writeFields fields ++ crlf ++ it)) m =
      Step.run (do takeFields fields; return it) m := by
  induction fields generalizing fuel m with
  | nil =>
    obtain ⟨fuel, rfl⟩ := Nat.exists_eq_add_one_of_ne_zero (Nat.pos_iff_ne_zero.mp enough)
    have line := @readLine_write d [] nofun it m
    unfold parseFields
    rw [writeFields, Step.run_bind_ok line]
    rfl
  | cons field fields ih =>
    obtain ⟨name, value⟩ := field
    obtain ⟨fuel, rfl⟩ := Nat.exists_eq_add_one_of_ne_zero (Nat.pos_iff_ne_zero.mp
      (Nat.zero_lt_of_lt enough))
    have formed := wellFormed (name, value) List.mem_cons_self
    obtain ⟨some_, token⟩ := formed.named
    have others := fun f there => wellFormed f (List.mem_cons_of_mem _ there)
    have noColon : ¬name.head? == some (octet ':') := by
      obtain ⟨c, more, rfl⟩ := List.exists_cons_of_ne_nil some_
      simpa using (tchar_field (token c List.mem_cons_self)).2.2
    have text : writeFields ((name, value) :: fields) ++ crlf ++ it =
        (name ++ octets ": " ++ value) ++ crlf ++ (writeFields fields ++ crlf ++ it) := by
      rw [writeFields, if_neg noColon]
      simp only [writeField, List.append_assoc]
    have nameRead : ∀ rest, parseName (name ++ octet ':' :: rest) = .ok (name, octet ':' :: rest) :=
      fun rest => readWhile_append (fun c there => (tchar_field (token c there)).1) rfl
    obtain ⟨c, rest, behind, noFold⟩ := unfolded_fields others it
    have lineSome : (name ++ octets ": " ++ value).isEmpty = false := by
      simp [List.isEmpty_eq_false_iff, some_]
    have nameLine : name ++ octets ": " ++ value ++ crlf ++ (writeFields fields ++ crlf ++ it) =
        name ++ octet ':' :: (32 :: (value ++ crlf ++ (writeFields fields ++ crlf ++ it))) := by
      simp only [List.append_assoc]
      rfl
    have content : (name ++ octets ": " ++ value).drop (name.length + 1) = 32 :: value := by
      rw [List.append_assoc, List.drop_append, List.drop_of_length_le (by omega)]
      simp [show octets ": " = [58, 32] from rfl]
    have trimmed : trim (32 :: value) = value := formed.trimmed
    have colon : ∀ rest, readOctet (octet ':') (octet ':' :: rest) = .ok (true, rest) := fun _ => rfl
    unfold parseFields
    rw [text, Step.run_bind_ok (readLine_write (field_line formed) _ m)]
    simp only [lineSome, nameLine, nameRead, colon, content, trimmed, Bool.false_eq_true, ↓reduceIte,
      Step.run_lift_ok_bind, List.isEmpty_eq_false_iff.mpr some_]
    have noFolded : Step.run (isFold (d := d) (writeFields fields ++ crlf ++ it)) m =
        (.ok false, m) := by
      rw [behind]
      unfold isFold peek
      rw [Step.run_lift_ok_bind, noFold]
      rfl
    rw [Step.run_bind_ok noFolded, if_pos (by rfl)]
    simp only [takeFields, Step.run_bind]
    -- What the field is taken for goes the same way on both sides.
    rcases Step.run (doField name value) m with ⟨_ | _, u⟩
    · rfl
    · dsimp only
      rcases Step.run (invoke (.on_field name value)) u with ⟨_ | _, v⟩
      · rfl
      · have rest := ih others (by simpa using enough) v
        rw [Step.run_bind] at rest
        exact rest

/-- Lines that were written, each with its end. -/
def writeLines (lines : List Octets) : Octets := lines.flatMap (· ++ crlf)

/-- The empty line behind other lines is found. -/
theorem findEom_write {line : Octets} (plain : ∀ c ∈ line, c ≠ 13) {lines : List Octets}
    (plains : ∀ l ∈ lines, l ≠ [] ∧ ∀ c ∈ l, c ≠ 13) (it : Octets) :
    findEom (line ++ crlf ++ writeLines lines ++ crlf ++ it) =
      .found (line ++ crlf ++ writeLines lines ++ crlf).length := by
  -- The search goes through one line after another, and through the octets of each.
  induction lines generalizing line with
  | nil =>
    induction line with
    | nil => rfl
    | cons c line ih =>
      have rest := ih fun b there => plain b (List.mem_cons_of_mem _ there)
      simp only [List.cons_append, findEom_cons (plain c List.mem_cons_self), rest, Scan.shift,
        List.length_cons, Scan.found.injEq]
      omega
  | cons next lines ih =>
    obtain ⟨some_, noReturn⟩ := plains next List.mem_cons_self
    obtain ⟨e, next, rfl⟩ := List.exists_cons_of_ne_nil some_
    have others := fun l there => plains l (List.mem_cons_of_mem _ there)
    have behind := @ih next (fun c there => noReturn c (List.mem_cons_of_mem _ there)) others
    induction line with
    | nil =>
      have opens := noReturn e List.mem_cons_self
      have text : [] ++ crlf ++ writeLines ((e :: next) :: lines) ++ crlf ++ it =
          13 :: 10 :: e :: (next ++ crlf ++ writeLines lines ++ crlf ++ it) := by
        simp [writeLines, crlf]
      rw [text, findEom_line opens, behind]
      simp only [Scan.shift, writeLines, crlf, List.flatMap_cons, List.length_append,
        List.length_cons, List.length_nil, Scan.found.injEq]
      omega
    | cons c line ihLine =>
      have rest := ihLine fun b there => plain b (List.mem_cons_of_mem _ there)
      simp only [List.cons_append, findEom_cons (plain c List.mem_cons_self), rest, Scan.shift,
        List.length_cons, Scan.found.injEq]
      omega

/-- The fields are written line by line. -/
theorem writeFields_lines {fields : Fields} (wellFormed : ∀ f ∈ fields, WellFormedField f.1 f.2) :
    ∃ lines, writeFields fields = writeLines lines ∧ fields.length ≤ (writeLines lines).length ∧
      ∀ l ∈ lines, l ≠ [] ∧ ∀ c ∈ l, c ≠ 13 := by
  induction fields with
  | nil => exact ⟨[], rfl, Nat.zero_le _, nofun⟩
  | cons field fields ih =>
    obtain ⟨name, value⟩ := field
    have formed := wellFormed (name, value) List.mem_cons_self
    obtain ⟨some_, token⟩ := formed.named
    obtain ⟨lines, written, enough, plains⟩ :=
      ih fun f there => wellFormed f (List.mem_cons_of_mem _ there)
    have noColon : ¬name.head? == some (octet ':') := by
      obtain ⟨c, more, rfl⟩ := List.exists_cons_of_ne_nil some_
      simpa using (tchar_field (token c List.mem_cons_self)).2.2
    refine ⟨(name ++ octets ": " ++ value) :: lines, ?_, ?_, fun l there => ?_⟩
    · rw [writeFields, if_neg noColon, written]
      simp [writeLines, writeField]
    · simp only [writeLines, List.flatMap_cons, List.length_append, List.length_cons, crlf] at enough ⊢
      omega
    · rcases List.mem_cons.mp there with rfl | there
      · exact ⟨by simp [some_], field_line formed⟩
      · exact plains l there

/-- A first line has no carriage return inside. -/
theorem startLine_line {msg : Header} (wellFormed : WellFormed msg) :
    ∃ line, writeStartLine msg = line ++ crlf ∧ ∀ c ∈ line, c ≠ 13 := by
  have version : ∀ c ∈ versionName msg.version, c ≠ 13 := by
    rcases wellFormed.version with known | known <;> rw [known] <;> decide +kernel
  have space : ∀ c ∈ octets " ", c ≠ 13 := by decide +kernel
  have start := wellFormed.start
  have both : ∀ {s t : Octets}, (∀ c ∈ s, c ≠ 13) → (∀ c ∈ t, c ≠ 13) → ∀ c ∈ s ++ t, c ≠ 13 := by
    intro s t first second c there
    rcases List.mem_append.mp there with here | here
    · exact first c here
    · exact second c here
  unfold writeStartLine
  cases line : msg.start with
  | request method target =>
    rw [line] at start
    obtain ⟨⟨_, token⟩, _, path⟩ := start
    exact ⟨_, rfl, both (both (both (both (fun c there => (tchar_field (token c there)).2.1) space)
      fun c there => pathchar_line (path c there)) space) version⟩
  | response status reason =>
    rw [line] at start
    obtain ⟨least, most, text⟩ := start
    have digit : ∀ n < 10, octet (Nat.digitChar n) ≠ 13 := by decide
    have digits : ∀ c ∈ octets (toString status), c ≠ 13 := by
      rw [status_digits least most]
      intro c there
      simp only [List.mem_cons, List.not_mem_nil, or_false] at there
      rcases there with rfl | rfl | rfl
      · exact digit _ (by omega)
      · exact digit _ (by omega)
      · exact digit _ (by omega)
    exact ⟨_, rfl, both (both (both (both version space) digits) space)
      fun c there => (text_line (text c there)).1⟩

/-- The flags once the version is noted. -/
def noteVersion (version : Nat) (f : Flags) : Flags :=
  if version ≥ 11 then { f with flagHTTP11 := true } else f

/-- A header that is there, taken part by part. -/
def takeHeader (msg : Header) : MessageStep d Unit := do
  invoke (startCallback msg)
  setFlags (noteVersion msg.version)
  takeFields msg.fields
  doHeader msg.is_request (startStatus msg)
  invoke .on_header
  if (← get).state_ == .complete then
    invoke .on_complete

/-- A header that was written is taken part by part, and nothing of what follows it. -/
theorem headerStep_write {msg : Header} (wellFormed : WellFormed msg) (it : Octets) (m : Message d) :
    Step.run (headerStep msg.is_request (writeHeader msg ++ it)) m =
      Step.run (do takeHeader msg; return (writeHeader msg).length) m := by
  obtain ⟨line, startLine, plain⟩ := startLine_line wellFormed
  obtain ⟨lines, written, enough, plains⟩ := writeFields_lines wellFormed.fields
  have text : writeHeader msg = line ++ crlf ++ writeLines lines ++ crlf := by
    rw [writeHeader, startLine, written]
  have long : ¬(writeHeader msg ++ it).length < 4 := by
    rw [text]
    simp only [crlf, List.length_append, List.length_cons]
    omega
  have found : findEom (writeHeader msg ++ it) = .found (writeHeader msg).length := by
    rw [text]
    exact findEom_write plain plains it
  have block : ∀ m : Message d, Step.run (parseHeaderBlock msg.is_request (writeHeader msg)) m =
      Step.run (takeHeader msg) m := by
    intro m
    have fields : ∀ m : Message d, Step.run
        (parseFields ((writeFields msg.fields ++ crlf).length + 1) (writeFields msg.fields ++ crlf)) m =
          Step.run (do takeFields msg.fields; return []) m := by
      intro m
      have taken := @parseFields_write d msg.fields wellFormed.fields
        ((writeFields msg.fields ++ crlf).length + 1)
        (by rw [written, List.length_append]; omega) [] m
      rwa [List.append_nil] at taken
    unfold parseHeaderBlock takeHeader
    rw [writeHeader, List.append_assoc, Step.run_bind,
      parseStartline_write wellFormed.version wellFormed.start, Step.run_bind, Step.run_bind]
    -- Behind the first line, both take the fields and decide from the same message.
    rcases Step.run (invoke (startCallback msg)) m with ⟨_ | _, u⟩
    · rfl
    · simp only [Step.run_pure]
      have behind : ∀ u : Message d, Step.run (do
          let _ ← parseFields ((writeFields msg.fields ++ crlf).length + 1)
            (writeFields msg.fields ++ crlf)
          doHeader msg.is_request (startStatus msg)
          invoke .on_header
          if (← get).state_ == .complete then
            invoke .on_complete) u = Step.run (do
          takeFields msg.fields
          doHeader msg.is_request (startStatus msg)
          invoke .on_header
          if (← get).state_ == .complete then
            invoke .on_complete) u := by
        intro u
        rw [Step.run_bind, fields, Step.run_bind, Step.run_bind]
        rcases Step.run (takeFields msg.fields) u with ⟨_ | _, v⟩ <;> rfl
      unfold setFlags noteVersion
      rw [Step.run_modify_bind]
      split
      · exact behind _
      · exact behind _
  unfold headerStep
  rw [if_neg long, found]
  dsimp only
  rw [List.take_left, Step.run_bind, Step.run_bind, block]

end Beast.Http
