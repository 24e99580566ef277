import Mathlib.Data.List.DropRight
import Beast.Http.ChunkHeads
import Beast.Http.ProtocolLaws
import Beast.Http.TakenHeader
import Beast.Http.WriteRuns

/-! The values of fields that are folded: what should be told of them, and what is. -/

namespace Beast.Http

/-- The lines of a field: what its first line holds behind the colon, and the lines that continue it. -/
structure FieldLines where
  name : Octets
  content : Octets
  folds : List Octets

/-- The lines of fields, field by field, up to a line that opens none. -/
def fieldLines : List Octets → List FieldLines
  | [] => []
  | line :: lines =>
    let name := line.takeWhile (toFieldChar · != 0)
    if name.isEmpty || (line.drop name.length).head? != some (octet ':') then []
    else
      { name
        content := line.drop (name.length + 1)
        folds := lines.takeWhile isFoldLine } :: fieldLines (lines.dropWhile isFoldLine)
termination_by lines => lines.length
decreasing_by
  have shorter := (List.dropWhile_suffix isFoldLine (l := lines)).length_le
  simp only [List.length_cons]
  omega

/-- The content of a field as it was sent, over all of its lines. -/
def FieldLines.text (field : FieldLines) : Octets :=
  field.content ++ field.folds.flatMap (crlf ++ ·)

/-- What stands behind an obs-fold, `OWS CRLF 1*( SP / HTAB )`, at the front of a text. -/
def behindFold (text : Octets) : Option Octets :=
  match skipOws text with
  | 13 :: 10 :: e :: it => if isOws e then some (skipOws it) else none
  | _ => none

/-- An obs-fold takes octets. -/
theorem behindFold_shorter {text it : Octets} (fold : behindFold text = some it) :
    it.length < text.length := by
  -- The end of the line and the white space behind it take three octets at least.
  have most := (List.dropWhile_suffix isOws (l := text)).length_le
  unfold behindFold skipOws at fold
  split at fold
  · rename_i e rest whole
    have less := (List.dropWhile_suffix isOws (l := rest)).length_le
    rw [whole, List.length_cons, List.length_cons, List.length_cons] at most
    split at fold
    · cases fold
      omega
    · cases fold
  · cases fold

/-- A text with each obs-fold in it replaced by a single space. -/
def replaceFolds (text : Octets) : Octets :=
  match _fold : behindFold text with
  | some it => octet ' ' :: replaceFolds it
  | none =>
    match text with
    | [] => []
    | c :: it => c :: replaceFolds it
termination_by text.length
decreasing_by
  · exact behindFold_shorter _fold
  · exact Nat.lt_succ_self _

/-- The value that should be told of a field: its content without folds, and trimmed. -/
def FieldLines.normalized (field : FieldLines) : Octets := trim (replaceFolds field.text)

/--
Lines that hold nothing, or of which the last one holds anything, and none ends in white space.

A line of white space is empty here, since white space at the front of a line does not count.
-/
def Cleanly (lines : List Octets) : Prop :=
  (∀ line ∈ lines, skipOws line = []) ∨
    (∀ line ∈ lines, ∀ c ∈ (skipOws line).getLast?, isOws c = false) ∧
      ∃ line ∈ lines.getLast?, skipOws line ≠ []

/-- A field on one line, or one whose lines join cleanly. -/
def FieldLines.FoldsCleanly (field : FieldLines) : Prop :=
  field.folds = [] ∨ Cleanly (field.content :: field.folds)

section Folds

/-- A text without the white space at its end. -/
def trimEnd (s : Octets) : Octets := s.rdropWhile isOws

/-- A text is trimmed at its front, and then at its end. -/
theorem trim_eq_trimEnd (s : Octets) : trim s = trimEnd (skipOws s) := rfl

/-- White space is trimmed off wholly. -/
theorem trimEnd_space {s : Octets} (space : skipOws s = []) : trimEnd s = [] :=
  List.rdropWhile_eq_nil_iff.mpr fun c there => List.dropWhile_eq_nil_iff.mp space c there

/-- What holds anything else keeps its first octet. -/
theorem trimEnd_cons {c : UInt8} {s : Octets} (some_ : skipOws (c :: s) ≠ []) :
    trimEnd (c :: s) = c :: trimEnd s := by
  unfold trimEnd List.rdropWhile
  rw [List.reverse_cons, List.dropWhile_append]
  -- Trimming reaches the first octet only where the rest is all white space.
  by_cases rest : (s.reverse.dropWhile isOws).isEmpty = true
  · -- Only the first octet can be another one.
    have other : isOws c = false := by
      by_contra space
      refine some_ (List.dropWhile_eq_nil_iff.mpr fun b there => ?_)
      rcases List.mem_cons.mp there with rfl | there
      · simpa using space
      · exact List.dropWhile_eq_nil_iff.mp (List.isEmpty_iff.mp rest) b (List.mem_reverse.mpr there)
    rw [if_pos rest, List.isEmpty_iff.mp rest, List.dropWhile_cons_of_neg (by simp [other])]
    rfl
  · -- Something else in the rest stops it before.
    rw [if_neg rest, List.reverse_append]
    rfl

/-- What is left alone by trimming does not end in white space. -/
theorem trimEnd_eq_self {s : Octets} : trimEnd s = s ↔ ∀ c ∈ s.getLast?, isOws c = false := by
  rw [trimEnd, List.rdropWhile_eq_self_iff]
  constructor
  · intro kept c there
    obtain ⟨some_, rfl⟩ := List.mem_getLast?_eq_getLast there
    simpa using kept some_
  · intro kept some_
    simpa using kept _ (List.getLast_mem_getLast? some_)

/-- Trimming takes octets away, if anything. -/
theorem trimEnd_length (s : Octets) : (trimEnd s).length ≤ s.length :=
  (List.rdropWhile_prefix isOws s).length_le

/-- Trimming that takes no octets leaves the text alone. -/
theorem trimEnd_of_length {s : Octets} (same : s.length ≤ (trimEnd s).length) : trimEnd s = s :=
  (List.rdropWhile_prefix isOws s).eq_of_length (Nat.le_antisymm (trimEnd_length s) same)

/-- A fold in front of a text is replaced. -/
theorem replaceFolds_some {text it : Octets} (fold : behindFold text = some it) :
    replaceFolds text = octet ' ' :: replaceFolds it := by
  rw [replaceFolds]
  split
  · simp_all
  · simp_all

/-- An octet that no fold starts with stays. -/
theorem replaceFolds_cons {c : UInt8} {it : Octets} (none_ : behindFold (c :: it) = none) :
    replaceFolds (c :: it) = c :: replaceFolds it := by
  rw [replaceFolds]
  split
  · simp_all
  · rfl

/-- A line without an end of a line in it has no fold in front. -/
theorem behindFold_plain {s : Octets} (plain : PlainLine s) : behindFold s = none := by
  unfold behindFold
  split
  · rename_i e rest whole
    exact absurd rfl (plain.skipOws 13 (by rw [whole]; exact List.mem_cons_self))
  · rfl

/-- Nothing is replaced in a line. -/
theorem replaceFolds_plain {s : Octets} (plain : PlainLine s) : replaceFolds s = s := by
  -- The induction is on the octets, none of which starts a fold.
  induction s with
  | nil =>
    rw [replaceFolds]
    rfl
  | cons c s ih =>
    rw [replaceFolds_cons (behindFold_plain plain),
      ih fun b there => plain b (List.mem_cons_of_mem _ there)]

/-- A line that goes on in another is told without the white space at its end, and one space behind it. -/
theorem replaceFolds_fold {s it : Octets} {e : UInt8} (plain : PlainLine s) (space : isOws e = true) :
    replaceFolds (s ++ crlf ++ e :: it) = trimEnd s ++ octet ' ' :: replaceFolds (skipOws it) := by
  -- The induction is on the octets of the line, which are kept up to the white space at its end.
  induction s with
  | nil =>
    have fold : behindFold ([] ++ crlf ++ e :: it) = some (skipOws it) := if_pos space
    exact replaceFolds_some fold
  | cons c s ih =>
    have tail : PlainLine s := fun b there => plain b (List.mem_cons_of_mem _ there)
    by_cases blank : skipOws (c :: s) = []
    · -- All of the line belongs to the fold.
      have fold : behindFold (c :: s ++ crlf ++ e :: it) = some (skipOws it) := by
        unfold behindFold
        rw [skipOws_line, blank]
        exact if_pos space
      rw [replaceFolds_some fold, trimEnd_space blank]
      rfl
    · -- No fold starts here, since an octet of the line comes before the end of it.
      have none_ : behindFold (c :: s ++ crlf ++ e :: it) = none := by
        obtain ⟨b, rest, whole⟩ := List.exists_cons_of_ne_nil blank
        have other := plain.skipOws b (by rw [whole]; exact List.mem_cons_self)
        unfold behindFold
        rw [skipOws_line, whole]
        split
        · rename_i same
          exact absurd (List.cons.inj same).1 other
        · rfl
      rw [trimEnd_cons blank]
      exact (replaceFolds_cons none_).trans (congrArg (c :: ·) (ih tail))

/-- Lines that are joined without the white space around each end of a line. -/
def joinTrimmed (line : Octets) : List Octets → Octets
  | [] => line
  | fold :: folds => trimEnd line ++ octet ' ' :: joinTrimmed (skipOws fold) folds

/-- Where each fold is replaced, the lines are joined without the white space around their ends. -/
theorem replaceFolds_text {line : Octets} {folds : List Octets} (plain : PlainLine line)
    (plains : PlainLines folds) (fold : ∀ l ∈ folds, isFoldLine l = true) :
    replaceFolds (line ++ folds.flatMap (crlf ++ ·)) = joinTrimmed line folds := by
  -- The induction is on the lines behind, each of which becomes the first of the rest.
  induction folds generalizing line with
  | nil =>
    rw [List.flatMap_nil, List.append_nil]
    exact replaceFolds_plain plain
  | cons next folds ih =>
    have opens := fold next List.mem_cons_self
    obtain ⟨e, it, rfl, space⟩ : ∃ e it, next = e :: it ∧ isOws e = true := by
      cases next with
      | nil => cases opens
      | cons e it => exact ⟨e, it, rfl, opens⟩
    have plain' := (plains _ List.mem_cons_self).2
    -- The fold takes the white space at the front of the next line along, which is not yet its end.
    have behind : skipOws (it ++ folds.flatMap (crlf ++ ·)) =
        skipOws (e :: it) ++ folds.flatMap (crlf ++ ·) := by
      rw [show skipOws (e :: it) = skipOws it from List.dropWhile_cons_of_pos space]
      cases folds with
      | nil => simp
      | cons l folds =>
        have split := skipOws_line it (l ++ folds.flatMap (crlf ++ ·))
        simpa only [List.flatMap_cons, List.append_assoc] using split
    have whole : line ++ ((e :: it) :: folds).flatMap (crlf ++ ·) =
        line ++ crlf ++ e :: (it ++ folds.flatMap (crlf ++ ·)) := by
      simp
    rw [whole, replaceFolds_fold plain space, behind,
      ih plain'.skipOws plains.tail fun l there => fold l (List.mem_cons_of_mem _ there)]
    rfl

/-- White space behind white space is passed over at once. -/
theorem skipOws_skipOws (s : Octets) : skipOws (skipOws s) = skipOws s :=
  List.dropWhile_idempotent ..

/-- Lines are not longer where white space at their ends is left out. -/
theorem joinTrimmed_length (line : Octets) (folds : List Octets) :
    (joinTrimmed line folds).length ≤ (line ++ (folds.map skipOws).flatMap (octet ' ' :: ·)).length := by
  -- Each line loses what is trimmed off it, and gains nothing.
  induction folds generalizing line with
  | nil => simp [joinTrimmed]
  | cons fold folds ih =>
    have rest := ih (skipOws fold)
    have less := trimEnd_length line
    simp only [joinTrimmed, List.map_cons, List.flatMap_cons, List.length_append, List.length_cons]
      at rest ⊢
    omega

/-- Lines are joined as they are just where none but the last ends in white space. -/
theorem joinTrimmed_eq {line : Octets} {folds : List Octets} :
    joinTrimmed line folds = line ++ (folds.map skipOws).flatMap (octet ' ' :: ·) ↔
      ∀ l ∈ (line :: folds.map skipOws).dropLast, trimEnd l = l := by
  -- The induction is on the lines behind, and the last of them is not trimmed.
  induction folds generalizing line with
  | nil => simp [joinTrimmed]
  | cons fold folds ih =>
    have rest := @ih (skipOws fold)
    rw [List.map_cons, List.dropLast_cons_cons, List.forall_mem_cons, ← rest, joinTrimmed]
    simp only [List.flatMap_cons]
    constructor
    · intro same
      -- What is as long as it can be is as it was.
      have sizes := congrArg List.length same
      have less := trimEnd_length line
      have most := joinTrimmed_length (skipOws fold) folds
      simp only [List.length_append, List.length_cons] at sizes most
      have kept : trimEnd line = line := trimEnd_of_length (by omega)
      rw [kept] at same
      exact ⟨kept, (List.cons.inj (List.append_cancel_left same)).2⟩
    · rintro ⟨kept, same⟩
      rw [kept, same]
      rfl

/-- Joined lines end as the last of them does, or in a space where that one is empty. -/
theorem joined_getLast {line m : Octets} {folds : List Octets} :
    (line ++ (folds ++ [m]).flatMap (octet ' ' :: ·)).getLast? = some (m.getLast?.getD (octet ' ')) := by
  rw [List.flatMap_append, List.flatMap_singleton, ← List.append_assoc, List.getLast?_append,
    List.getLast?_cons]
  rfl

/-- Joined lines are trimmed as they are just where no line ends in white space and the last is not empty. -/
theorem trimEnd_joined {line : Octets} {folds : List Octets} (some_ : line ≠ []) :
    trimEnd (joinTrimmed line folds) = line ++ (folds.map skipOws).flatMap (octet ' ' :: ·) ↔
      (∀ l ∈ line :: folds.map skipOws, trimEnd l = l) ∧
        ∃ l ∈ (line :: folds.map skipOws).getLast?, l ≠ [] := by
  have joined := @joinTrimmed_eq line folds
  have most := joinTrimmed_length line folds
  have space : isOws (octet ' ') = true := rfl
  -- A single line is trimmed at its end, and lines have a last one.
  rcases List.eq_nil_or_concat (folds.map skipOws) with none_ | ⟨front, m, last⟩
  · obtain rfl := List.map_eq_nil_iff.mp none_
    simp [joinTrimmed, some_]
  rw [List.concat_eq_append] at last
  have ends := @joined_getLast line m front
  rw [last] at joined most ⊢
  have dropped : (line :: (front ++ [m])).dropLast = line :: front := by
    rw [← List.cons_append, List.dropLast_concat]
  have lasts : (line :: (front ++ [m])).getLast? = some m := by
    rw [← List.cons_append, List.getLast?_concat]
  rw [dropped] at joined
  rw [lasts]
  -- What the joined lines end in says how the last line ends.
  have solid : trimEnd (line ++ (front ++ [m]).flatMap (octet ' ' :: ·)) =
      line ++ (front ++ [m]).flatMap (octet ' ' :: ·) ↔ m ≠ [] ∧ trimEnd m = m := by
    rw [trimEnd_eq_self, trimEnd_eq_self, ends]
    rcases List.eq_nil_or_concat m with rfl | ⟨s, c, rfl⟩
    · simp [space]
    · simp
  constructor
  · intro same
    have whole : trimEnd (joinTrimmed line folds) = joinTrimmed line folds :=
      trimEnd_of_length (by rw [same]; exact most)
    have kept := joined.mp (whole.symm.trans same)
    obtain ⟨some_, trimmed⟩ := solid.mp (by rw [← same]; exact List.rdropWhile_idempotent ..)
    refine ⟨fun l there => ?_, m, rfl, some_⟩
    rcases List.mem_append.mp (List.cons_append ▸ there : l ∈ (line :: front) ++ [m]) with
      early | late
    · exact kept l early
    · rw [List.mem_singleton.mp late]
      exact trimmed
  · rintro ⟨kept, l, there, some_⟩
    obtain rfl := Option.some.inj there
    have same := joined.mpr fun l early => kept l (List.mem_append_left [m] early)
    rw [same]
    exact solid.mpr ⟨some_, kept m (by simp)⟩

/-- The value that is told of a field with folds: its lines joined, but for empty ones at the front. -/
def joinedValue (lines : List Octets) : Octets :=
  match (lines.map skipOws).dropWhile List.isEmpty with
  | [] => []
  | line :: more => line ++ more.flatMap (octet ' ' :: ·)

/-- White space in front of lines that are joined is passed over in the first of them. -/
theorem skipOws_joined {line : Octets} (some_ : skipOws line ≠ []) (folds : List Octets) :
    skipOws (joinTrimmed line folds) = joinTrimmed (skipOws line) folds := by
  -- What holds anything else keeps it in front of the rest, whatever that is.
  have within : ∀ s, skipOws (trimEnd line ++ s) = trimEnd (skipOws line) ++ s := by
    intro s
    induction line with
    | nil => exact absurd rfl some_
    | cons c line ih =>
      rw [trimEnd_cons some_]
      unfold skipOws at some_ ih ⊢
      by_cases space : isOws c = true
      · rw [List.dropWhile_cons_of_pos space] at some_ ⊢
        rw [List.cons_append, List.dropWhile_cons_of_pos space]
        exact ih some_
      · rw [List.cons_append, List.dropWhile_cons_of_neg space, List.dropWhile_cons_of_neg space,
          trimEnd_cons (by rw [skipOws, List.dropWhile_cons_of_neg space]; exact List.cons_ne_nil _ _)]
        rfl
  cases folds with
  | nil => rfl
  | cons fold folds => exact within _

/-- White space in front of a line does not count. -/
theorem cleanly_skipOws {line : Octets} {lines : List Octets} :
    Cleanly (skipOws line :: lines) ↔ Cleanly (line :: lines) := by
  unfold Cleanly
  simp only [List.forall_mem_cons, skipOws_skipOws, List.getLast?_cons]
  -- The first line is the last one where there is no other.
  cases lines.getLast? <;> simp [skipOws_skipOws]

/-- Lines whose first one holds anything are told as they should be just where they join cleanly. -/
theorem joinedValue_front {line : Octets} {folds : List Octets} (some_ : skipOws line ≠ []) :
    joinedValue (line :: folds) = trim (joinTrimmed line folds) ↔ Cleanly (line :: folds) := by
  have value : joinedValue (line :: folds) =
      skipOws line ++ (folds.map skipOws).flatMap (octet ' ' :: ·) := by
    unfold joinedValue
    rw [List.map_cons, List.dropWhile_cons_of_neg (by simpa using some_)]
  rw [value, trim_eq_trimEnd, skipOws_joined some_, eq_comm, trimEnd_joined some_]
  -- The last of the lines holds anything just where it is not empty without its white space.
  have lasts : (∃ l ∈ (skipOws line :: folds.map skipOws).getLast?, l ≠ []) ↔
      ∃ l ∈ (line :: folds).getLast?, skipOws l ≠ [] := by
    rw [← List.map_cons, List.getLast?_map]
    simp
  unfold Cleanly
  rw [lasts, or_iff_right (fun blank => some_ (blank line List.mem_cons_self)), ← List.map_cons,
    List.forall_mem_map]
  simp only [trimEnd_eq_self]

/-- Lines are told without folds and trimmed just where they join cleanly. -/
theorem joinedValue_iff {line : Octets} {folds : List Octets} :
    joinedValue (line :: folds) = trim (joinTrimmed line folds) ↔ Cleanly (line :: folds) := by
  -- Empty lines in front are dropped one by one, up to one that holds anything.
  induction folds generalizing line with
  | nil =>
    by_cases blank : skipOws line = []
    · have value : joinedValue [line] = [] := by simp [joinedValue, blank]
      have told : trim (joinTrimmed line []) = [] := by
        rw [trim_eq_trimEnd, joinTrimmed, blank]
        rfl
      exact iff_of_true (value.trans told.symm) (.inl (by simp [blank]))
    · exact joinedValue_front blank
  | cons fold folds ih =>
    by_cases blank : skipOws line = []
    · -- An empty line in front says nothing, and neither does the space behind it.
      have value : joinedValue (line :: fold :: folds) = joinedValue (skipOws fold :: folds) := by
        simp [joinedValue, blank, skipOws_skipOws]
      have told : trim (joinTrimmed line (fold :: folds)) = trim (joinTrimmed (skipOws fold) folds) := by
        rw [joinTrimmed, trimEnd_space blank]
        rfl
      have clean : Cleanly (line :: fold :: folds) ↔ Cleanly (fold :: folds) := by
        unfold Cleanly
        simp [blank, List.getLast?_cons]
      rw [value, told, clean, ih, cleanly_skipOws]
    · exact joinedValue_front blank

/-- The value that is told of a field is the one that should be just where it folds cleanly. -/
theorem foldedValue_iff {field : FieldLines} (plain : PlainLine field.content)
    (plains : PlainLines field.folds) (fold : ∀ l ∈ field.folds, isFoldLine l = true) :
    foldedValue field.content field.folds = field.normalized ↔ field.FoldsCleanly := by
  unfold FieldLines.normalized FieldLines.text FieldLines.FoldsCleanly foldedValue
  rw [replaceFolds_text plain plains fold]
  -- On one line, the parser trims as it should.
  cases folds : field.folds with
  | nil => simp [joinTrimmed]
  | cons l folds =>
    rw [← joinedValue_iff, or_iff_right (List.cons_ne_nil _ _)]
    rfl

end Folds

section Lines

/-- The octets of a field as it was sent. -/
def FieldLines.octets (field : FieldLines) : Octets := field.name ++ octet ':' :: field.text ++ crlf

/-- A field that was sent as one: a name in front of a line, and only lines that continue it behind. -/
structure FieldLines.Formed (field : FieldLines) : Prop where
  named : IsToken field.name
  plain : PlainLine field.content
  plains : PlainLines field.folds
  continues : ∀ line ∈ field.folds, isFoldLine line = true

/-- A field is opened by a line whose name is followed by a colon. -/
theorem fieldLines_cons (line : Octets) (lines : List Octets) :
    let name := line.takeWhile (toFieldChar · != 0)
    (name = [] ∨ (line.drop name.length).head? ≠ some (octet ':')) ∧ fieldLines (line :: lines) = [] ∧
        readFields (line :: lines) = ([], true) ∨
      ∃ content, name ≠ [] ∧ line = name ++ octet ':' :: content ∧
        fieldLines (line :: lines) =
          ⟨name, content, lines.takeWhile isFoldLine⟩ :: fieldLines (lines.dropWhile isFoldLine) ∧
        readFields (line :: lines) =
          ((name, foldedValue content (lines.takeWhile isFoldLine)) ::
            (readFields (lines.dropWhile isFoldLine)).1, (readFields (lines.dropWhile isFoldLine)).2) := by
  intro name
  rw [fieldLines, readFields]
  -- A line opens a field where it has a name and a colon behind it.
  by_cases opens : (name.isEmpty || (line.drop name.length).head? != some (octet ':')) = true
  · refine .inl ⟨?_, if_pos opens, if_pos opens⟩
    simpa using opens
  · obtain ⟨named, colon⟩ : name ≠ [] ∧ (line.drop name.length).head? = some (octet ':') := by
      rw [Bool.or_eq_true, not_or, List.isEmpty_iff, bne_iff_ne, not_not] at opens
      exact opens
    refine .inr ⟨line.drop (name.length + 1), named, ?_, if_neg opens, if_neg opens⟩
    -- The name, the colon and the content make up the line.
    obtain ⟨back, cut⟩ : ∃ back, name ++ back = line := List.takeWhile_prefix _
    have behind := congrArg (List.drop name.length) cut
    rw [List.drop_left] at behind
    obtain ⟨rest, whole⟩ := List.head?_eq_some_iff.mp colon
    rw [← List.drop_drop, whole, List.drop_one, List.tail_cons, ← whole, ← behind]
    exact cut.symm

/-- The values that are told of fields are those of their lines. -/
theorem readFields_told (lines : List Octets) :
    (readFields lines).1 =
      (fieldLines lines).map fun field => (field.name, foldedValue field.content field.folds) := by
  -- The induction is on the number of lines, since a field takes those that continue it along.
  induction size : lines.length using Nat.strong_induction_on generalizing lines with
  | _ size ih =>
    cases lines with
    | nil => simp [readFields, fieldLines]
    | cons line lines =>
      rcases fieldLines_cons line lines with ⟨_, none_, read⟩ | ⟨content, _, _, opens, read⟩
      · rw [none_, read]
        rfl
      · have shorter := (List.dropWhile_suffix isFoldLine (l := lines)).length_le
        rw [opens, read, List.map_cons,
          ← ih _ (by rw [← size, List.length_cons]; omega) (lines.dropWhile isFoldLine) rfl]

/-- The first line is written in front of the others. -/
theorem writeLines_cons (line : Octets) (lines : List Octets) :
    writeLines (line :: lines) = line ++ crlf ++ writeLines lines :=
  List.flatMap_cons

/-- The ends of lines stand between lines as well as behind them. -/
theorem crlf_writeLines (lines : List Octets) :
    crlf ++ writeLines lines = lines.flatMap (crlf ++ ·) ++ crlf := by
  induction lines with
  | nil => rfl
  | cons line lines ih =>
    rw [List.flatMap_cons, List.append_assoc, ← ih, writeLines_cons]
    simp only [List.append_assoc]

/-- Fields that are read from plain lines are formed, and their octets are those of the lines. -/
theorem fieldLines_formed {lines : List Octets} (plains : PlainLines lines) :
    (∀ field ∈ fieldLines lines, field.Formed) ∧ ((readFields lines).2 = false →
      writeLines lines = (fieldLines lines).flatMap FieldLines.octets) := by
  -- The induction follows the fields: the lines of the first, and those behind it.
  induction size : lines.length using Nat.strong_induction_on generalizing lines with
  | _ size ih =>
    cases lines with
    | nil =>
      rw [fieldLines]
      exact ⟨nofun, fun _ => rfl⟩
    | cons line lines =>
      rcases fieldLines_cons line lines with ⟨_, none_, read⟩ | ⟨content, named, cut, opens, read⟩
      · rw [none_, read]
        exact ⟨nofun, nofun⟩
      · have shorter := (List.dropWhile_suffix isFoldLine (l := lines)).length_le
        have rest : PlainLines (lines.dropWhile isFoldLine) := fun l there =>
          plains.tail l (List.dropWhile_subset _ there)
        obtain ⟨formed, whole⟩ := ih _ (by rw [← size, List.length_cons]; omega) rest rfl
        have first := (plains line List.mem_cons_self).2
        rw [opens, read]
        refine ⟨fun field there => ?_, fun read => ?_⟩
        · rcases List.mem_cons.mp there with rfl | there
          · refine ⟨⟨named, ?_⟩, ?_, ?_, ?_⟩
            · exact fun c there => tchar_of_field
                (List.mem_takeWhile_imp (p := (toFieldChar · != 0)) there)
            · exact fun c there => first c (by rw [cut]; simp [there])
            · exact fun l there => plains.tail l (List.takeWhile_subset _ there)
            · exact fun l there => List.mem_takeWhile_imp there
          · exact formed field there
        · -- The lines that continue the field come first.
          have parts : writeLines lines = writeLines (lines.takeWhile isFoldLine) ++
              writeLines (lines.dropWhile isFoldLine) := by
            unfold writeLines
            rw [← List.flatMap_append, List.takeWhile_append_dropWhile]
          have field : writeLines (line :: lines.takeWhile isFoldLine) = FieldLines.octets
              ⟨line.takeWhile (toFieldChar · != 0), content, lines.takeWhile isFoldLine⟩ := by
            unfold FieldLines.octets FieldLines.text
            rw [writeLines_cons, List.append_assoc, crlf_writeLines]
            conv_lhs => rw [cut]
            simp only [List.append_assoc, List.cons_append]
          rw [List.flatMap_cons, ← whole read, ← field, writeLines_cons, writeLines_cons, parts]
          simp only [List.append_assoc]

end Lines

section Accepted

variable {d : Derived}

/-- Whether a write took a header block, or the trailer of a message. -/
def Wrote.EndsFields (w : Wrote d) : Prop :=
  w.before.state_ = .header ∧ 0 < w.n ∨ w.before.state_ = .chunk_header ∧ w.after.state_ = .complete

/--
A write that parsed a block of fields as some fields, and told of no others.

Each of them is noted and told of with the same value.
-/
def Wrote.Takes (w : Wrote (logged d)) (block : Octets) (told : Fields) : Prop :=
  ∃ m u : Message (logged d), Logs (¬IsField ·) w.before.impl.2 m ∧
    Step.run (parseFields (block.length + 1) block) m = (.ok [], u) ∧
    Step.run (takeFields told) m = (.ok (), u) ∧ Logs (¬IsField ·) u.impl.2 w.after.toMessage

/-- The fields that a write took are these, behind a first line that may have the end of a chunk in front. -/
def Wrote.Sends (w : Wrote d) (fields : List FieldLines) : Prop :=
  ∃ ended line, (ended = [] ∨ ended = crlf) ∧ PlainLine line ∧
    w.taken = ended ++ line ++ crlf ++ (fields.flatMap FieldLines.octets ++ crlf) ∧
    ∀ field ∈ fields, field.Formed

/-- A write that took fields with the values that should be told of them. -/
def Wrote.Normalizes (w : Wrote (logged d)) (fields : List FieldLines) : Prop :=
  w.Takes (fields.flatMap FieldLines.octets ++ crlf)
    (fields.map fun field => (field.name, field.normalized))

/-- The field that a call tells of. -/
def fieldOf : Callback → Option (Octets × Octets)
  | .on_field name value => some (name, value)
  | _ => none

/-- Calls that tell of no field have none to tell. -/
theorem fieldOf_other {calls : List Callback} (other : ∀ c ∈ calls, ¬IsField c) :
    calls.filterMap fieldOf = [] := by
  refine List.filterMap_eq_nil_iff.mpr fun c there => ?_
  have none_ := other c there
  cases c <;> first | rfl | exact absurd trivial none_

/-- The calls that tell of fields tell of just these. -/
theorem fieldOf_fields (fields : Fields) : (fieldCallbacks fields).filterMap fieldOf = fields := by
  unfold fieldCallbacks
  rw [List.filterMap_map]
  exact List.filterMap_some

/-- What a write tells of fields is in the log behind it. -/
theorem Wrote.Takes.told {w : Wrote (logged d)} {block : Octets} {told : Fields}
    (takes : w.Takes block told) :
    (w.after.impl.2.drop w.before.impl.2.length).filterMap fieldOf = told := by
  obtain ⟨m, u, ⟨front, before, other⟩, _, taken, ⟨back, after, other'⟩⟩ := takes
  -- In between, the log gained the calls for these fields and no others.
  have made := congrArg Prod.snd (takeFields_told taken).1
  rw [tells_logged, before] at made
  rw [after, made, List.append_assoc, List.append_assoc, List.drop_left, List.filterMap_append,
    List.filterMap_append, fieldOf_other other, fieldOf_other other', fieldOf_fields]
  simp

/-- Fields are taken with their normalized values just where each of them folds cleanly. -/
theorem takes_iff {w : Wrote (logged d)} {lines : List Octets} (plains : PlainLines lines)
    {m u : Message (logged d)} (before : Logs (¬IsField ·) w.before.impl.2 m)
    (parsed : Step.run (parseFields ((writeLines lines ++ crlf).length + 1) (writeLines lines ++ crlf)) m =
      (.ok [], u))
    (after : Logs (¬IsField ·) u.impl.2 w.after.toMessage) :
    ∃ fields : List FieldLines, writeLines lines = fields.flatMap FieldLines.octets ∧
      (∀ field ∈ fields, field.Formed) ∧
      (w.Normalizes fields ↔ ∀ field ∈ fields, field.FoldsCleanly) := by
  obtain ⟨_, read, taken⟩ := parseFields_rest plains parsed
  obtain ⟨formed, whole⟩ := fieldLines_formed plains
  refine ⟨fieldLines lines, whole read, formed, ?_⟩
  have told : w.Takes (writeLines lines ++ crlf) (readFields lines).1 :=
    ⟨m, u, before, parsed, taken, after⟩
  unfold Wrote.Normalizes
  rw [← whole read]
  -- What was told and what should be told agree field by field.
  have each : (readFields lines).1 = (fieldLines lines).map (fun field => (field.name, field.normalized)) ↔
      ∀ field ∈ fieldLines lines, field.FoldsCleanly := by
    rw [readFields_told, List.map_inj_left]
    refine forall₂_congr fun field there => ?_
    have own := formed field there
    rw [Prod.mk.injEq, ← foldedValue_iff own.plain own.plains own.continues]
    exact and_iff_right rfl
  rw [← each]
  constructor
  · intro takes
    exact told.told.symm.trans takes.told
  · intro same
    rw [← same]
    exact told

/-- What is told behind the fields of a header is no field. -/
theorem finishHeader_logs {log : List Callback} :
    Step.Preserves (Logs (¬IsField ·) log) (finishHeader (d := logged d)) := by
  unfold finishHeader
  refine Step.preserves_bind (invoke_logs (by simp [IsField])) fun _ =>
    Step.preserves_bind Step.preserves_get fun self => ?_
  -- A message without a body is complete behind its header, and is told of as such.
  split
  · exact invoke_logs (by simp [IsField])
  · exact Step.preserves_pure _

/-- A header block that was taken holds its fields behind its first line. -/
theorem Wrote.Ran.header {isRequest isDirect : Bool} {w : Wrote (logged d)}
    (ran : w.Ran isRequest isDirect)
    (header : w.before.state_ = .header) (some_ : 0 < w.n) :
    ∃ (line : Octets) (lines : List Octets) (m u : Message (logged d)), PlainLine line ∧
      PlainLines lines ∧ w.taken = line ++ crlf ++ (writeLines lines ++ crlf) ∧
      Logs (¬IsField ·) w.before.impl.2 m ∧
      Step.run (parseFields ((writeLines lines ++ crlf).length + 1) (writeLines lines ++ crlf)) m =
        (.ok [], u) ∧ Logs (¬IsField ·) u.impl.2 w.after.toMessage := by
  obtain ⟨line, lines, start, version, told, noted, decided, plain, plains, cut, taken⟩ :=
    write_taken header ran.searched ((writeAny_header header w.text).symm.trans ran.ran) some_
  refine ⟨line, lines, { told with f_ := noteVersion version told.f_ }, noted, plain, plains, ?_, ?_,
    ?_, ?_⟩
  · rw [Wrote.taken, cut, List.append_assoc (line ++ crlf)]
  · -- Only the start line is told of before the fields.
    have first : Logs (¬IsField ·) w.before.impl.2 told := by
      refine Logs.behind (invoke_logs ?_) ?_ taken.tells
      · cases start <;> simp [StartLine.callback, IsField]
      · exact logs_nothing w.before.toMessage
    exact first
  · rw [parseFields_lines plains (Nat.lt_succ_of_le (length_lines lines)),
      Step.run_bind_ok taken.takes, endFields, taken.whole]
    rfl
  · -- The decision on the body makes no call.
    have same : decided.impl = noted.impl := by
      have kept := doHeader_kept isRequest start.status noted
      rw [taken.decides] at kept
      exact congrArg Prod.fst kept
    have last : Logs (¬IsField ·) noted.impl.2 decided := by
      rw [← same]
      exact logs_nothing _
    exact last.behind finishHeader_logs taken.finishes

/-- A trailer that was taken holds its fields behind the line of the last chunk. -/
theorem Wrote.Ran.trailer {isRequest isDirect : Bool} {w : Wrote (logged d)}
    (ran : w.Ran isRequest isDirect)
    (chunk : w.before.state_ = .chunk_header) (complete : w.after.state_ = .complete) :
    ∃ (ended line : Octets) (lines : List Octets) (m u : Message (logged d)),
      (ended = [] ∨ ended = crlf) ∧ PlainLine line ∧ PlainLines lines ∧
      w.taken = ended ++ line ++ crlf ++ (writeLines lines ++ crlf) ∧
      Logs (¬IsField ·) w.before.impl.2 m ∧
      Step.run (parseFields ((writeLines lines ++ crlf).length + 1) (writeLines lines ++ crlf)) m =
        (.ok [], u) ∧ Logs (¬IsField ·) u.impl.2 w.after.toMessage := by
  obtain ⟨m, begun, step⟩ := ran.chunk chunk
  have state : m.state_ = .chunk_header := by
    rw [begun.same]
    exact chunk
  have announced : Logs (¬IsField ·) w.before.impl.2 m :=
    begun.logs (logs_nothing _) fun _ => by simp [IsField]
  -- Behind a chunk, the end of its data is taken first.
  have between : m.between = [] ∨ m.between = crlf := by
    unfold Message.between
    split
    · exact .inr rfl
    · exact .inl rfl
  -- The message is complete only where the last chunk was taken with its trailer.
  rcases step with ⟨_, same | same⟩ | ⟨_, head⟩
  · rw [same, state] at complete
    cases complete
  · rw [same] at complete
    exact absurd (state.symm.trans complete) (by simp)
  · cases head with
    | opens _ _ _ _ _ left =>
      rw [left] at complete
      cases complete
    | @ends line it lines told parsed cut size head plains trailed =>
      refine ⟨m.between, line, lines, told, parsed, between, head.plain, plains, ?_, ?_,
        trailed.parses, ?_⟩
      · rw [Wrote.taken, cut, size]
        exact List.take_left
      · have final : Logs (¬IsField ·) w.before.impl.2 m.final := announced
        exact final.behind (tellChunk_logs 0 (by simp [IsField])) trailed.tells
      · exact Logs.behind (doComplete_logs (by simp [IsField])) (logs_nothing _) trailed.completes

/--
In every run, the fields of a header or trailer are taken with the values that should be told of them.

This holds just where each of the fields folds cleanly.
-/
theorem field_values_iff {isRequest isDirect skipsBody : Bool} {len x : Nat}
    {impl : (logged d).State} {l : List (Wrote (logged d))} {s : BasicParser (logged d) × Octets}
    (writes : WriteRun isRequest isDirect skipsBody len x impl l s) :
    ∀ w ∈ l, w.EndsFields → ∃ fields, w.Sends fields ∧
      (w.Normalizes fields ↔ ∀ field ∈ fields, field.FoldsCleanly) := by
  intro w there accepted
  have ran := writes.ran w there
  -- Both kinds of blocks are lines behind a first one.
  rcases accepted with ⟨header, some_⟩ | ⟨chunk, complete⟩
  · obtain ⟨line, lines, m, u, plain, plains, cut, before, parsed, after⟩ := ran.header header some_
    obtain ⟨fields, whole, formed, values⟩ := takes_iff plains before parsed after
    rw [whole] at cut
    exact ⟨fields, ⟨[], line, .inl rfl, plain, cut, formed⟩, values⟩
  · obtain ⟨ended, line, lines, m, u, ends, plain, plains, cut, before, parsed, after⟩ :=
      ran.trailer chunk complete
    obtain ⟨fields, whole, formed, values⟩ := takes_iff plains before parsed after
    rw [whole] at cut
    exact ⟨fields, ⟨ended, line, ends, plain, cut, formed⟩, values⟩

end Accepted

/-- A request with one field, whose value is these lines. -/
def oneField (content : Octets) : Octets :=
  octets "GET / HTTP/1.1\r\na:" ++ content ++ octets "\r\n\r\n"

/-- A value that goes on in a second line is told without the fold. -/
theorem field_values_request : ∃ w : Wrote (logged accepting),
    w.text = oneField (octets " b\r\n c") ∧ w.EndsFields ∧ ∃ fields, w.Sends fields ∧
      (w.Normalizes fields ↔ ∀ field ∈ fields, field.FoldsCleanly) := by
  have taken : (Step.run (write true (oneField (octets " b\r\n c")))
      (opened (d := logged accepting) false 0 0 ((), []))).1 = .ok 28 := by decide +kernel
  obtain ⟨w, writes, before, text, n, _⟩ := writes_first taken
  have accepted : w.EndsFields := by
    refine .inl ⟨?_, by rw [n]; decide⟩
    rw [before]
    exact (opened_spec false 0 0 _).1
  exact ⟨w, text, accepted, field_values_iff writes w List.mem_cons_self accepted⟩

/-- A value that ends in a line of white space is told with a space at its end. -/
theorem field_values_blank : ¬∀ (isRequest isDirect skipsBody : Bool) (len x : Nat)
    (impl : (logged accepting).State) (l : List (Wrote (logged accepting)))
    (s : BasicParser (logged accepting) × Octets),
    WriteRun isRequest isDirect skipsBody len x impl l s → ∀ w ∈ l, w.EndsFields → ∀ fields, w.Sends fields →
      w.Normalizes fields := by
  intro normal
  have taken : (Step.run (write true (oneField (octets " b\r\n ")))
      (opened (d := logged accepting) false 0 0 ((), []))).1 = .ok 27 := by decide +kernel
  have told : ((Step.run (write true (oneField (octets " b\r\n ")))
      (opened (d := logged accepting) false 0 0 ((), []))).2.impl.2).filterMap fieldOf =
        [(octets "a", octets "b ")] := by decide +kernel
  obtain ⟨w, writes, before, text, n, after⟩ := writes_first taken
  have accepted : w.EndsFields := by
    refine .inl ⟨?_, by rw [n]; decide⟩
    rw [before]
    exact (opened_spec false 0 0 _).1
  obtain ⟨field, known⟩ : ∃ field : FieldLines, field = ⟨octets "a", octets " b", [octets " "]⟩ :=
    ⟨_, rfl⟩
  have formed : field.Formed := by
    rw [known]
    refine ⟨⟨by decide +kernel, by decide +kernel⟩, ?_, ?_, by decide +kernel⟩
    · unfold PlainLine
      decide +kernel
    · unfold PlainLines PlainLine
      decide +kernel
  have sends : w.Sends [field] := by
    refine ⟨[], octets "GET / HTTP/1.1", .inl rfl, ?_, ?_, by simpa using formed⟩
    · unfold PlainLine
      decide +kernel
    · rw [Wrote.taken, text, n, known]
      decide +kernel
  -- Without the space for the fold, the value would be a single letter.
  have value : field.normalized = octets "b" := by
    unfold FieldLines.normalized FieldLines.text
    rw [replaceFolds_text formed.plain formed.plains formed.continues, known]
    decide +kernel
  have takes := (normal _ _ _ _ _ _ _ _ writes w List.mem_cons_self accepted [field] sends).told
  rw [before, after] at takes
  have same := told.symm.trans takes
  rw [List.map_singleton, value, known] at same
  exact absurd same (by decide)

end Beast.Http
