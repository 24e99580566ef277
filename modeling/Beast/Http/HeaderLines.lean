import Beast.Http.HeaderLaws
import Beast.Http.NumberLaws
import Mathlib

/-! The lines of a header or trailer, and the fields that they hold. -/

namespace Beast.Http

variable {d : Derived}

/-- A line that no end of a line stands inside of. -/
def PlainLine (line : Octets) : Prop := ∀ c ∈ line, c ≠ 13

/-- Lines behind a first one: none is empty, and none holds the end of a line. -/
def PlainLines (lines : List Octets) : Prop := ∀ line ∈ lines, line ≠ [] ∧ PlainLine line

/-- A line that was found ends there. -/
theorem findEol_split {text : Octets} {k : Nat} (found : findEol text = .found k) :
    ∃ line it, text = line ++ crlf ++ it ∧ PlainLine line ∧ k = line.length + 2 := by
  induction text generalizing k with
  | nil => simp [findEol] at found
  | cons c text ih =>
    by_cases ending : c = 13
    · -- A carriage return ends the line only with a line feed behind it.
      subst ending
      cases text with
      | nil => simp [findEol_last] at found
      | cons e it =>
        rw [findEol_return] at found
        split at found
        · rename_i feed
          cases found
          exact ⟨[], it, by rw [feed]; rfl, List.forall_mem_nil _, rfl⟩
        · cases found
    · rw [findEol_cons ending] at found
      cases rest : findEol text with
      | need => simp [rest, Scan.shift] at found
      | bad => simp [rest, Scan.shift] at found
      | found j =>
        obtain ⟨line, it, rfl, plain, rfl⟩ := ih rest
        rw [rest] at found
        cases found
        refine ⟨c :: line, it, rfl, fun b there => ?_, by simp only [List.length_cons]; omega⟩
        rcases List.mem_cons.mp there with rfl | there
        · exact ending
        · exact plain b there

/-- The text in front of an empty line that was found is a line with others behind it. -/
theorem findEom_split {text : Octets} {n : Nat} (found : findEom text = .found n) :
    ∃ line lines, text.take n = line ++ crlf ++ writeLines lines ++ crlf ∧ PlainLine line ∧
      PlainLines lines := by
  induction size : text.length using Nat.strong_induction_on generalizing text n with
  | _ size ih =>
    rcases findEom_cases text with
      short | ⟨c, it, rfl, other⟩ | ⟨e, it, rfl, other⟩ | ⟨e, it, rfl, other⟩ | ⟨g, it, rfl⟩
    · rcases short with rfl | rfl | rfl | rfl <;> simp [findEom] at found
    · -- One more octet stands in the first line.
      rw [findEom_cons other] at found
      cases rest : findEom it with
      | need => simp [rest, Scan.shift] at found
      | bad => simp [rest, Scan.shift] at found
      | found k =>
        obtain ⟨line, lines, front, plain, plains⟩ :=
          ih it.length (by simp [← size]) rest rfl
        rw [rest] at found
        cases found
        refine ⟨c :: line, lines, ?_, fun b there => ?_, plains⟩
        · rw [Nat.add_comm, List.take_succ_cons, front]
          rfl
        · rcases List.mem_cons.mp there with rfl | there
          · exact other
          · exact plain b there
    · -- The first line is empty, and another one opens behind it.
      rw [findEom_line other] at found
      cases rest : findEom it with
      | need => simp [rest, Scan.shift] at found
      | bad => simp [rest, Scan.shift] at found
      | found k =>
        obtain ⟨line, lines, front, plain, plains⟩ :=
          ih it.length (by simp only [← size, List.length_cons]; omega) rest rfl
        rw [rest] at found
        cases found
        refine ⟨[], (e :: line) :: lines, ?_, List.forall_mem_nil _, fun l there => ?_⟩
        · rw [Nat.add_comm, List.take_succ_cons, List.take_succ_cons, List.take_succ_cons, front]
          simp [writeLines, crlf]
        · rcases List.mem_cons.mp there with rfl | there
          · refine ⟨List.cons_ne_nil _ _, fun b within => ?_⟩
            rcases List.mem_cons.mp within with rfl | within
            · exact other
            · exact plain b within
          · exact plains l there
    · simp [findEom_bad other] at found
    · rw [findEom_empty] at found
      split at found
      · rename_i feed
        cases found
        exact ⟨[], [], by simp [feed, writeLines, crlf], List.forall_mem_nil _, List.forall_mem_nil _⟩
      · cases found

/-- Whether a line continues the one in front of it. -/
def isFoldLine (line : Octets) : Bool := line.head?.any isOws

/-- The value of a field whose line goes on in others: each behind a space, but for empty ones at the front. -/
def foldedValue (content : Octets) (folds : List Octets) : Octets :=
  if folds.isEmpty then trim content
  else match ((content :: folds).map skipOws).dropWhile List.isEmpty with
    | [] => []
    | line :: more => line ++ more.flatMap (octet ' ' :: ·)

/-- The fields in lines, up to a line that opens none, and whether there is one. -/
def readFields : List Octets → Fields × Bool
  | [] => ([], false)
  | line :: lines =>
    let name := line.takeWhile (toFieldChar · != 0)
    if name.isEmpty || (line.drop name.length).head? != some (octet ':') then ([], true)
    else
      let value := foldedValue (line.drop (name.length + 1)) (lines.takeWhile isFoldLine)
      let behind := readFields (lines.dropWhile isFoldLine)
      ((name, value) :: behind.1, behind.2)
termination_by lines => lines.length
decreasing_by
  have shorter := (List.dropWhile_suffix isFoldLine (l := lines)).length_le
  simp only [List.length_cons]
  omega

/-- The line behind others that were written is split off. -/
theorem readLine_lines {line : Octets} (plain : PlainLine line) (it : Octets) (m : Message d) :
    Step.run (readLine (line ++ crlf ++ it)) m = (.ok (line, it), m) :=
  readLine_write plain it m

/-- A line is written in front of the others. -/
theorem writeLines_append (line : Octets) (lines : List Octets) :
    writeLines (line :: lines) ++ crlf = line ++ crlf ++ (writeLines lines ++ crlf) := by
  simp [writeLines]

/-- Each line takes at least two octets to write. -/
theorem length_lines (lines : List Octets) : lines.length ≤ (writeLines lines ++ crlf).length := by
  induction lines with
  | nil => exact Nat.zero_le _
  | cons line lines ih =>
    rw [writeLines_append, List.length_append, List.length_append]
    simp only [crlf, List.length_cons, List.length_nil, List.length_append] at ih ⊢
    omega

/-- What follows a field continues it just where the next line opens with white space. -/
theorem isFold_lines {lines : List Octets} (plains : PlainLines lines) (m : Message d) :
    Step.run (isFold (writeLines lines ++ crlf)) m =
      (.ok (lines.head?.any isFoldLine), m) := by
  cases lines with
  | nil => rfl
  | cons line lines =>
    obtain ⟨some_, _⟩ := plains line List.mem_cons_self
    obtain ⟨c, line, rfl⟩ := List.exists_cons_of_ne_nil some_
    rfl

/-- Lines behind others are as plain. -/
theorem PlainLines.tail {line : Octets} {lines : List Octets} (plains : PlainLines (line :: lines)) :
    PlainLines lines :=
  fun l there => plains l (List.mem_cons_of_mem _ there)

/-- White space in front of an octet that is none is passed over up to it. -/
theorem skipOws_line (line it : Octets) : skipOws (line ++ crlf ++ it) = skipOws line ++ crlf ++ it := by
  induction line with
  | nil => rfl
  | cons c line ih =>
    by_cases space : isOws c = true
    · simp only [skipOws, List.cons_append, List.dropWhile_cons_of_pos space] at ih ⊢
      exact ih
    · simp only [skipOws, List.cons_append, List.dropWhile_cons_of_neg space]

/-- What is left of a plain line behind its white space is plain. -/
theorem PlainLine.skipOws {line : Octets} (plain : PlainLine line) : PlainLine (skipOws line) :=
  fun c there => plain c (List.dropWhile_subset _ there)

/-- The continuation lines are joined to the value, each behind a space. -/
theorem joinFolds_lines {lines : List Octets} (plains : PlainLines lines) {fuel : Nat}
    (enough : lines.length < fuel) (s : Octets) (m : Message d) :
    Step.run (joinFolds fuel s (writeLines lines ++ crlf)) m =
      (.ok (s ++ ((lines.takeWhile isFoldLine).map skipOws).flatMap (octet ' ' :: ·),
        writeLines (lines.dropWhile isFoldLine) ++ crlf), m) := by
  induction lines generalizing fuel s with
  | nil =>
    obtain ⟨fuel, rfl⟩ := Nat.exists_eq_add_one_of_ne_zero (Nat.pos_iff_ne_zero.mp enough)
    rw [joinFolds, Step.run_bind_ok (isFold_lines plains m)]
    simp [writeLines]
  | cons line lines ih =>
    obtain ⟨fuel, rfl⟩ := Nat.exists_eq_add_one_of_ne_zero (Nat.pos_iff_ne_zero.mp
      (Nat.zero_lt_of_lt enough))
    have plain := (plains line List.mem_cons_self).2
    rw [joinFolds, Step.run_bind_ok (isFold_lines plains m)]
    by_cases fold : isFoldLine line = true
    · -- The line is joined behind a space, without the white space at its front.
      rw [if_neg (by simp [fold]), writeLines_append, skipOws_line,
        Step.run_bind_ok (readLine_lines plain.skipOws _ m), ih plains.tail (by simpa using enough), List.takeWhile_cons_of_pos fold,
        List.dropWhile_cons_of_pos fold]
      simp
    · rw [if_pos (by simp [fold]), List.takeWhile_cons_of_neg fold, List.dropWhile_cons_of_neg fold]
      simp

/-- Lines of white space are passed over, up to one that holds anything else or continues nothing. -/
theorem skipFolds_lines {lines : List Octets} (plains : PlainLines lines) {fuel : Nat}
    (enough : lines.length < fuel) (content : Octets) (m : Message d) :
    ∃ line left, Step.run (skipFolds fuel content (writeLines lines ++ crlf)) m =
        (.ok (line, writeLines left ++ crlf), m) ∧ left <:+ lines ∧
      left.dropWhile isFoldLine = lines.dropWhile isFoldLine ∧
      (line = [] → left = lines.dropWhile isFoldLine) ∧
      ((content :: lines.takeWhile isFoldLine).map skipOws).dropWhile List.isEmpty =
        if line.isEmpty then [] else line :: (left.takeWhile isFoldLine).map skipOws := by
  induction lines generalizing fuel content with
  | nil =>
    obtain ⟨fuel, rfl⟩ := Nat.exists_eq_add_one_of_ne_zero (Nat.pos_iff_ne_zero.mp enough)
    rw [skipFolds]
    by_cases blank : (skipOws content).isEmpty = true
    · refine ⟨[], [], ?_, List.suffix_refl _, rfl, fun _ => rfl, by simp [blank]⟩
      rw [if_neg (by simp [blank]), Step.run_bind_ok (isFold_lines plains m)]
      rfl
    · refine ⟨skipOws content, [], ?_, List.suffix_refl _, rfl, fun _ => rfl, by simp [blank]⟩
      rw [if_pos (by simp [blank])]
      rfl
  | cons next lines ih =>
    obtain ⟨fuel, rfl⟩ := Nat.exists_eq_add_one_of_ne_zero (Nat.pos_iff_ne_zero.mp
      (Nat.zero_lt_of_lt enough))
    have plain := (plains next List.mem_cons_self).2
    rw [skipFolds]
    by_cases blank : (skipOws content).isEmpty = true
    · rw [if_neg (by simp [blank]), Step.run_bind_ok (isFold_lines plains m)]
      by_cases fold : isFoldLine next = true
      · -- Nothing but white space so far, and another line continues it.
        obtain ⟨line, left, ran, suffix, same, none_, value⟩ :=
          ih plains.tail (by simpa using enough : lines.length < fuel) next
        refine ⟨line, left, ?_, suffix.trans (List.suffix_cons _ _), ?_, ?_, ?_⟩
        · rw [if_neg (by simp [fold]), writeLines_append, Step.run_bind_ok (readLine_lines plain _ m)]
          exact ran
        · rw [same, List.dropWhile_cons_of_pos fold]
        · rw [List.dropWhile_cons_of_pos fold]
          exact none_
        · rw [List.takeWhile_cons_of_pos fold, List.map_cons, List.dropWhile_cons_of_pos blank]
          exact value
      · refine ⟨[], next :: lines, ?_, List.suffix_refl _, rfl, fun _ => ?_, ?_⟩
        · rw [if_pos (by simp [fold])]
          rfl
        · rw [List.dropWhile_cons_of_neg fold]
        · rw [List.takeWhile_cons_of_neg fold]
          simp [blank]
    · refine ⟨skipOws content, next :: lines, ?_, List.suffix_refl _, rfl, fun none_ => ?_, ?_⟩
      · rw [if_pos (by simp [blank])]
        rfl
      · simp [none_] at blank
      · rw [List.map_cons, List.dropWhile_cons_of_neg (by simpa using blank),
          if_neg (by simpa using blank)]

/-- Octets of a kind are read within their line. -/
theorem readWhile_line {kind : UInt8 → Bool} (ends : kind 13 = false) (line it : Octets) :
    readWhile kind (line ++ crlf ++ it) = .ok (line.takeWhile kind,
      line.drop (line.takeWhile kind).length ++ crlf ++ it) := by
  induction line with
  | nil => simp [readWhile, crlf, ends]
  | cons c line ih =>
    by_cases letter : kind c = true
    · simp only [List.cons_append, readWhile, letter, ↓reduceIte, ih,
        List.takeWhile_cons_of_pos letter, List.length_cons, List.drop_succ_cons]
    · simp only [List.cons_append, readWhile, letter, Bool.false_eq_true, ↓reduceIte,
        List.takeWhile_cons_of_neg letter, List.length_nil, List.drop_zero]

/-- A given octet is read where the line goes on with it. -/
theorem readOctet_line {c : UInt8} (other : c ≠ 13) (s it : Octets) :
    readOctet c (s ++ crlf ++ it) = .ok (s.head? == some c,
      (if s.head? == some c then s.drop 1 else s) ++ crlf ++ it) := by
  cases s with
  | nil => simp [readOctet, peek, crlf, other.symm, bind, Except.bind, pure, Except.pure]
  | cons b s =>
    by_cases same : b = c
    · subst same
      simp [readOctet, peek, bind, Except.bind, pure, Except.pure]
    · simp [readOctet, peek, same, bind, Except.bind, pure, Except.pure]

/-- Behind a field, and the fields behind it, a malformed line is refused. -/
def endFields (malformed : Bool) : MessageStep d Octets :=
  if malformed then fail .bad_field else return []

/-- The fields that were read are taken, with those behind them. -/
theorem run_takeFields_cons {α : Type} (name value : Octets) (fields : Fields)
    (next : MessageStep d α) (m : Message d) :
    Step.run (do takeFields ((name, value) :: fields); next) m =
      Step.run (do
        doField name value
        invoke (.on_field name value)
        takeFields fields
        next) m := by
  simp only [takeFields, Step.run_bind]
  rcases Step.run (doField name value) m with ⟨_ | _, u⟩
  · rfl
  · dsimp only
    rcases Step.run (invoke (.on_field name value)) u with ⟨_ | _, v⟩ <;> rfl

/-- The fields of lines are taken one after another, up to a line that opens none. -/
theorem parseFields_lines {lines : List Octets} (plains : PlainLines lines) {fuel : Nat}
    (enough : lines.length < fuel) (m : Message d) :
    Step.run (parseFields fuel (writeLines lines ++ crlf)) m =
      Step.run (do
        takeFields (readFields lines).1
        endFields (readFields lines).2) m := by
  induction size : lines.length using Nat.strong_induction_on generalizing lines fuel m with
  | _ size ih =>
    obtain ⟨fuel, rfl⟩ := Nat.exists_eq_add_one_of_ne_zero (Nat.pos_iff_ne_zero.mp
      (Nat.zero_lt_of_lt enough))
    cases lines with
    | nil =>
      -- Only the empty line is left.
      have line := @readLine_lines d [] nofun [] m
      rw [List.append_nil, List.nil_append] at line
      rw [parseFields, readFields, writeLines, List.flatMap_nil, List.nil_append,
        Step.run_bind_ok line]
      rfl
    | cons line lines =>
      obtain ⟨some_, plain⟩ := plains line List.mem_cons_self
      have folds := fun m : Message d => isFold_lines plains.tail m
      have nameRead : parseName (line ++ crlf ++ (writeLines lines ++ crlf)) = .ok _ :=
        @readWhile_line (toFieldChar · != 0) rfl line _
      have shorter : (lines.dropWhile isFoldLine).length ≤ lines.length :=
        (List.dropWhile_suffix isFoldLine).length_le
      have plains' : PlainLines (lines.dropWhile isFoldLine) :=
        fun l there => plains.tail l (List.dropWhile_subset _ there)
      -- The lines behind the field and its continuations are read by induction.
      have behind : ∀ {fuel : Nat} (m : Message d), lines.length < fuel →
          Step.run (parseFields fuel (writeLines (lines.dropWhile isFoldLine) ++ crlf)) m =
            Step.run (do
              takeFields (readFields (lines.dropWhile isFoldLine)).1
              endFields (readFields (lines.dropWhile isFoldLine)).2) m := by
        intro fuel m enough
        refine ih _ ?_ plains' (by omega) m rfl
        simp only [List.length_cons] at size
        omega
      rw [parseFields, writeLines_append, Step.run_bind_ok (readLine_lines plain _ m), readFields]
      simp only [List.isEmpty_eq_false_iff.mpr some_, Bool.false_eq_true, ↓reduceIte, nameRead,
        Step.run_lift_ok_bind]
      generalize named : line.takeWhile (toFieldChar · != 0) = name
      have colon := readOctet_line (show octet ':' ≠ 13 by decide) (line.drop name.length)
        (writeLines lines ++ crlf)
      cases name with
      | nil => rfl
      | cons c name =>
        simp only [List.isEmpty_cons, Bool.false_eq_true, ↓reduceIte, colon, Step.run_lift_ok_bind,
          Bool.false_or]
        cases opens : (line.drop (c :: name).length).head? == some (octet ':') with
        | false =>
          simp only [bne, opens, Bool.not_false, ↓reduceIte]
          rfl
        | true =>
          simp only [bne, opens, Bool.not_true, Bool.false_eq_true, ↓reduceIte]
          rw [run_takeFields_cons, Step.run_bind_ok (folds m)]
          -- Behind the value, whatever it is, both go on alike.
          have tail : ∀ value, Step.run (do
                doField (c :: name) value
                invoke (.on_field (c :: name) value)
                parseFields fuel (writeLines (lines.dropWhile isFoldLine) ++ crlf)) m =
              Step.run (do
                doField (c :: name) value
                invoke (.on_field (c :: name) value)
                takeFields (readFields (lines.dropWhile isFoldLine)).1
                endFields (readFields (lines.dropWhile isFoldLine)).2) m := by
            intro value
            simp only [Step.run_bind]
            rcases Step.run (doField (c :: name) value) m with ⟨_ | _, u⟩
            · rfl
            · dsimp only
              rcases Step.run (invoke (.on_field (c :: name) value)) u with ⟨_ | _, v⟩
              · rfl
              · dsimp only
                rw [behind v (by simpa using enough), Step.run_bind]
          cases fold : lines.head?.any isFoldLine with
          | false =>
            -- The value ends with its line.
            have none_ : lines.takeWhile isFoldLine = [] ∧ lines.dropWhile isFoldLine = lines := by
              cases lines with
              | nil => exact ⟨rfl, rfl⟩
              | cons next lines => simp_all
            rw [none_.2] at tail
            simp only [none_.1, none_.2, foldedValue, List.isEmpty_nil, ↓reduceIte, Bool.not_false]
            exact tail _
          | true =>
            -- The value goes on in the lines that continue it.
            have some_ : (lines.takeWhile isFoldLine).isEmpty = false := by
              cases lines with
              | nil => simp at fold
              | cons next lines => simp_all
            have room := length_lines lines
            generalize line.drop ((c :: name).length + 1) = content
            obtain ⟨front, left, ran, suffix, same, none_, value⟩ := skipFolds_lines plains.tail
              (show lines.length < (writeLines lines ++ crlf).length + 1 by omega) content m
            rw [foldedValue, some_, value]
            simp only [Bool.not_true, Bool.false_eq_true, ↓reduceIte]
            rw [Step.run_bind_ok ran]
            by_cases blank : front = []
            · simp only [blank, List.isEmpty_nil, ↓reduceIte, none_ blank, Step.run_pure_bind]
              exact tail []
            · have room := length_lines left
              have joined := joinFolds_lines (fun l there => plains.tail l (suffix.subset there))
                (show left.length < (writeLines left ++ crlf).length + 1 by omega) front m
              rw [same] at joined
              simp only [List.isEmpty_eq_false_iff.mpr blank, Bool.false_eq_true, ↓reduceIte]
              rw [Step.run_bind_ok joined]
              exact tail _

/-- A first line as it may be read: its words belong there, and a status has at most three digits. -/
def ReadableStart : StartLine → Prop
  | .request method target => IsToken method ∧ target ≠ [] ∧ ∀ c ∈ target, isPathchar c = true
  | .response status reason => status ≤ 999 ∧ ∀ c ∈ reason, isText c = true

/-- A reader that stays within its line, whatever follows, and reads what it should. -/
def StaysWithin {α : Type} (r : Reader α) (P : α → Prop) : Prop :=
  ∀ s it, PlainLine s → ∃ a s', PlainLine s' ∧ P a ∧ r (s ++ crlf ++ it) = .ok (a, s' ++ crlf ++ it)

/-- What is left of a plain line is plain. -/
theorem PlainLine.drop {s : Octets} (plain : PlainLine s) (n : Nat) : PlainLine (s.drop n) :=
  fun c there => plain c (List.mem_of_mem_drop there)

/-- A run of octets of a kind stays within its line. -/
theorem readWhile_within {kind : UInt8 → Bool} (ends : kind 13 = false) :
    StaysWithin (readWhile kind) fun s => ∀ c ∈ s, kind c = true := by
  intro s it plain
  refine ⟨_, _, plain.drop _, fun c there => ?_, readWhile_line ends s it⟩
  exact List.mem_takeWhile_imp there

/-- A given octet is read within its line, or none is. -/
theorem readOctet_within {c : UInt8} (other : c ≠ 13) :
    StaysWithin (readOctet c) fun _ => True := by
  intro s it plain
  refine ⟨_, _, ?_, trivial, readOctet_line other s it⟩
  split
  · exact plain.drop 1
  · exact plain

/-- Octets are read one after another within their line. -/
theorem readOctets_within {text : Octets} (plain : PlainLine text) :
    StaysWithin (readOctets text) fun _ => True := by
  induction text with
  | nil => exact fun s it plain => ⟨true, s, plain, trivial, rfl⟩
  | cons c text ih =>
    intro s it within
    obtain ⟨b, s', within', _, read⟩ :=
      readOctet_within (plain c List.mem_cons_self) s it within
    cases b with
    | false => exact ⟨false, s', within', trivial, by rw [readOctets, read]; rfl⟩
    | true =>
      obtain ⟨b, s'', within'', _, rest⟩ :=
        ih (fun b there => plain b (List.mem_cons_of_mem _ there)) s' it within'
      exact ⟨b, s'', within'', trivial, by rw [readOctets, read]; exact rest⟩

/-- A digit is read within its line, or none is. -/
theorem readDigit_within : StaysWithin readDigit fun n => ∀ v, n = some v → v ≤ 9 := by
  intro s it plain
  cases s with
  | nil => exact ⟨none, [], plain, nofun, rfl⟩
  | cons c s =>
    by_cases digit : isDigit c = true
    · have small : c.toNat - (octet '0').toNat ≤ 9 := Nat.le_of_lt_succ (digitValue_lt digit)
      refine ⟨some _, s, fun b there => plain b (List.mem_cons_of_mem _ there),
        fun v same => ?_, by simp [readDigit, peek, digit, bind, Except.bind, pure, Except.pure]; rfl⟩
      cases same
      exact small
    · refine ⟨none, c :: s, plain, nofun, ?_⟩
      simp [readDigit, peek, digit, bind, Except.bind, pure, Except.pure]

/-- A version is read within its line, or none is. -/
theorem parseVersion_within : StaysWithin parseVersion fun _ => True := by
  intro s it plain
  have name : PlainLine (octets "HTTP/") := by
    unfold PlainLine
    decide +kernel
  obtain ⟨b, s₁, plain₁, _, read₁⟩ := readOctets_within name s it plain
  unfold parseVersion
  simp only [bind, Except.bind, pure, Except.pure, read₁]
  cases b with
  | false => exact ⟨none, s, plain, trivial, rfl⟩
  | true =>
    obtain ⟨major, s₂, plain₂, _, read₂⟩ := readDigit_within s₁ it plain₁
    simp only [read₂]
    cases major with
    | none => exact ⟨none, s₁, plain₁, trivial, rfl⟩
    | some major =>
      obtain ⟨b, s₃, plain₃, _, read₃⟩ :=
        readOctet_within (show octet '.' ≠ 13 by decide) s₂ it plain₂
      simp only [read₃]
      cases b with
      | false => exact ⟨none, s₂, plain₂, trivial, rfl⟩
      | true =>
        obtain ⟨minor, s₄, plain₄, _, read₄⟩ := readDigit_within s₃ it plain₃
        simp only [read₄]
        cases minor with
        | none => exact ⟨none, s₃, plain₃, trivial, rfl⟩
        | some minor => exact ⟨_, s₄, plain₄, trivial, rfl⟩

/-- A status is read within its line as a number of three digits, or none is. -/
theorem parseStatus_within : StaysWithin parseStatus fun n => ∀ v, n = some v → v ≤ 999 := by
  intro s it plain
  obtain ⟨a, s₁, plain₁, small₁, read₁⟩ := readDigit_within s it plain
  unfold parseStatus
  simp only [bind, Except.bind, pure, Except.pure, read₁]
  cases a with
  | none => exact ⟨none, s, plain, nofun, rfl⟩
  | some a =>
    obtain ⟨b, s₂, plain₂, small₂, read₂⟩ := readDigit_within s₁ it plain₁
    simp only [read₂]
    cases b with
    | none => exact ⟨none, s₁, plain₁, nofun, rfl⟩
    | some b =>
      obtain ⟨c, s₃, plain₃, small₃, read₃⟩ := readDigit_within s₂ it plain₂
      simp only [read₃]
      cases c with
      | none => exact ⟨none, s₂, plain₂, nofun, rfl⟩
      | some c =>
        refine ⟨_, s₃, plain₃, fun v same => ?_, rfl⟩
        cases same
        have first := small₁ a rfl
        have second := small₂ b rfl
        have third := small₃ c rfl
        omega

/-- The octet at a position within a line, or behind it, is there. -/
theorem peek_line (s it : Octets) : ∃ c, peek (s ++ crlf ++ it) = .ok c := by
  cases s with
  | nil => exact ⟨13, rfl⟩
  | cons c s => exact ⟨c, rfl⟩

/-- A request target is read within its line, and is empty where it does not belong there. -/
theorem parseTarget_within :
    StaysWithin parseTarget fun s => ∀ c ∈ s, isPathchar c = true := by
  intro s it plain
  obtain ⟨target, s', plain', path, read⟩ := @readWhile_within isPathchar rfl s it plain
  obtain ⟨c, there⟩ := peek_line s' it
  unfold parseTarget
  simp only [bind, Except.bind, pure, Except.pure, read, there]
  split
  · exact ⟨[], s', plain', nofun, rfl⟩
  · exact ⟨target, s', plain', path, rfl⟩

/-- A reason is read within its line, and is empty where it holds anything but text. -/
theorem parseReason_within : StaysWithin parseReason fun s => ∀ c ∈ s, isText c = true := by
  intro s it plain
  obtain ⟨reason, s', plain', text, read⟩ :=
    @readWhile_within (fun c => c != 13 && isText c) rfl s it plain
  obtain ⟨c, there⟩ := peek_line s' it
  unfold parseReason
  simp only [bind, Except.bind, pure, Except.pure, read, there]
  split
  · exact ⟨[], s', plain', nofun, rfl⟩
  · exact ⟨reason, s', plain', fun c there => (Bool.and_eq_true_iff.mp (text c there)).2, rfl⟩

/-- The end of a line is read behind the line, and nowhere within it. -/
theorem parseCrlf_line {s : Octets} (plain : PlainLine s) (it : Octets) :
    parseCrlf (s ++ crlf ++ it) = .ok (s.isEmpty, if s.isEmpty then it else s ++ crlf ++ it) := by
  cases s with
  | nil => rfl
  | cons c s =>
    have other := plain c List.mem_cons_self
    simp [parseCrlf, other]

/-- The call that tells a first line. -/
def StartLine.callback (start : StartLine) (version : Nat) : Callback :=
  match start with
  | .request method target => .on_request method target version
  | .response status reason => .on_response status reason version

/-- The status of a response, or none. -/
def StartLine.status : StartLine → Nat
  | .request .. => 0
  | .response status _ => status

/-- Whether a first line is that of a request. -/
def StartLine.is_request : StartLine → Bool
  | .request .. => true
  | .response .. => false

/-- A first line is refused for what it holds, or told, and what follows it is left. -/
theorem parseStartline_line {line : Octets} (plain : PlainLine line) (isRequest : Bool)
    (it : Octets) :
    (∃ code, ∀ m : Message d, Step.run (parseStartline isRequest (line ++ crlf ++ it)) m =
      (.error (.ec code), m)) ∨
    ∃ start version, ReadableStart start ∧ start.is_request = isRequest ∧
      ∀ m : Message d, Step.run (parseStartline isRequest (line ++ crlf ++ it)) m =
        Step.run (do
          invoke (start.callback version)
          return (version, start.status, it)) m := by
  have space : octet ' ' ≠ 13 := by decide
  cases isRequest with
  | true =>
    unfold parseStartline parseRequestLine
    simp only [↓reduceIte]
    obtain ⟨method, s₁, plain₁, token, read₁⟩ :=
      @readWhile_within isTchar (by decide) line it plain
    have methodRead : parseMethod (line ++ crlf ++ it) = .ok (method, s₁ ++ crlf ++ it) := read₁
    obtain ⟨b₂, s₂, plain₂, _, read₂⟩ := readOctet_within space s₁ it plain₁
    obtain ⟨target, s₃, plain₃, path, read₃⟩ := parseTarget_within s₂ it plain₂
    obtain ⟨b₄, s₄, plain₄, _, read₄⟩ := readOctet_within space s₃ it plain₃
    obtain ⟨version, s₅, plain₅, _, read₅⟩ := parseVersion_within s₄ it plain₄
    have ended := parseCrlf_line plain₅ it
    -- Each part is there, or the line is refused for it.
    cases method with
    | nil => exact .inl ⟨.bad_method, fun m => by
        simp only [Step.run_bind, Step.run_lift, methodRead]; rfl⟩
    | cons c method =>
      cases b₂ with
      | false => exact .inl ⟨.bad_method, fun m => by
          simp only [Step.run_bind, Step.run_lift, methodRead, read₂, List.isEmpty_cons,
            Bool.false_eq_true, ↓reduceIte]
          rfl⟩
      | true =>
        cases target with
        | nil => exact .inl ⟨.bad_path, fun m => by
            simp only [Step.run_bind, Step.run_lift, methodRead, read₂, read₃, List.isEmpty_cons,
              Bool.false_eq_true, ↓reduceIte]
            rfl⟩
        | cons e target =>
          cases b₄ with
          | false => exact .inl ⟨.bad_path, fun m => by
              simp only [Step.run_bind, Step.run_lift, methodRead, read₂, read₃, read₄,
                List.isEmpty_cons, Bool.false_eq_true, ↓reduceIte]
              rfl⟩
          | true =>
            cases version with
            | none => exact .inl ⟨.bad_version, fun m => by
                simp only [Step.run_bind, Step.run_lift, methodRead, read₂, read₃, read₄, read₅,
                  List.isEmpty_cons, Bool.false_eq_true, ↓reduceIte]
                rfl⟩
            | some version =>
              cases s₅ with
              | cons g s₅ => exact .inl ⟨.bad_version, fun m => by
                  simp only [Step.run_bind, Step.run_lift, methodRead, read₂, read₃, read₄, read₅,
                    ended, List.isEmpty_cons, Bool.false_eq_true, ↓reduceIte]
                  rfl⟩
              | nil =>
                refine .inr ⟨.request (c :: method) (e :: target), version,
                  ⟨⟨List.cons_ne_nil _ _, token⟩, List.cons_ne_nil _ _, path⟩, rfl, fun m => ?_⟩
                simp only [Step.run_bind, Step.run_lift, methodRead, read₂, read₃, read₄, read₅,
                  ended, List.isEmpty_cons, List.isEmpty_nil, Bool.false_eq_true, ↓reduceIte]
                rcases told : Step.run (invoke (.on_request (c :: method) (e :: target) version)) m
                  with ⟨_ | _, u⟩
                all_goals simp [StartLine.callback, StartLine.status, told]
  | false =>
    unfold parseStartline parseStatusLine
    simp only [Bool.false_eq_true, ↓reduceIte]
    obtain ⟨version, s₁, plain₁, _, read₁⟩ := parseVersion_within line it plain
    obtain ⟨b₂, s₂, plain₂, _, read₂⟩ := readOctet_within space s₁ it plain₁
    obtain ⟨status, s₃, plain₃, small, read₃⟩ := parseStatus_within s₂ it plain₂
    obtain ⟨b₄, s₄, plain₄, _, read₄⟩ := readOctet_within space s₃ it plain₃
    obtain ⟨reason, s₅, plain₅, text, read₅⟩ := parseReason_within s₄ it plain₄
    have ended := parseCrlf_line plain₅ it
    cases version with
    | none => exact .inl ⟨.bad_version, fun m => by
        simp only [Step.run_bind, Step.run_lift, read₁]; rfl⟩
    | some version =>
      cases b₂ with
      | false => exact .inl ⟨.bad_version, fun m => by
          simp only [Step.run_bind, Step.run_lift, read₁, read₂]; rfl⟩
      | true =>
        cases status with
        | none => exact .inl ⟨.bad_status, fun m => by
            simp only [Step.run_bind, Step.run_lift, read₁, read₂, read₃]; rfl⟩
        | some status =>
          cases b₄ with
          | false => exact .inl ⟨.bad_status, fun m => by
              simp only [Step.run_bind, Step.run_lift, read₁, read₂, read₃, read₄]; rfl⟩
          | true =>
            cases s₅ with
            | cons g s₅ => exact .inl ⟨.bad_reason, fun m => by
                simp only [Step.run_bind, Step.run_lift, read₁, read₂, read₃, read₄, read₅, ended]
                rfl⟩
            | nil =>
              refine .inr ⟨.response status reason, version, ⟨small status rfl, text⟩, rfl,
                fun m => ?_⟩
              simp only [read₁, read₂, read₃, read₄, read₅, ended, Step.run_bind, Step.run_lift]
              rcases told : Step.run (invoke (.on_response status reason version)) m with ⟨_ | _, u⟩
              all_goals simp [StartLine.callback, StartLine.status, told, Step.run_bind]

end Beast.Http
