import Beast.Core.StaticString
import Mathlib

/-! A string in an array of fixed size does what `std::string` does, as far as there is room. -/

namespace Beast

namespace StaticString

open Step (run run_bind run_bind_ok)
open StdString (atMost)

variable {N M : Nat} {α β : Type}

/-! ## The array -/

/-- Characters that fit are written in place of those that were there. -/
theorem run_place {i : Nat} {l : List α} (s : StaticString N α) (fits : i + l.length ≤ N + 1) :
    ∃ s', run (place i l) s = (.ok (), s') ∧ s'.n_ = s.n_ ∧
      s'.s_ = s.s_.take i ++ l ++ s.s_.drop (i + l.length) := by
  rw [run, place, dif_pos fits]
  exact ⟨_, rfl, rfl, rfl⟩

/-- A character is written as often as there is room for. -/
theorem run_fill {i n : Nat} (ch : α) (s : StaticString N α) (fits : i + n ≤ N + 1) :
    run (fill i n ch) s = run (place i (List.replicate n ch)) s := by
  rw [fill, if_pos fits]

/-- Characters of an array are read as they are there. -/
theorem run_chars {i n : Nat} (str : StaticString M α) (s : StaticString N α)
    (fits : i + n ≤ M + 1) : run (chars str i n) s = (.ok ((str.s_.drop i).take n), s) := by
  rw [chars, if_pos fits]
  rfl

@[simp] theorem run_setSize (n : Nat) (s : StaticString N α) :
    run (setSize n) s = (.ok (), { s with n_ := n }) := rfl

/-- There are as many characters as the string says. -/
theorem length_content [Zero α] {s : StaticString N α} (valid : s.Valid) :
    s.content.length = s.n_ := by
  have short := valid.short
  have size := s.fixed
  rw [content, List.length_take]
  omega

/-- Room is made behind the characters in front of a place. -/
theorem run_shift {s : StaticString N α} {pos count : Nat} (inside : pos ≤ s.n_)
    (fits : s.n_ + count ≤ N) (word : s.n_ + count < 2 ^ 64) :
    ∃ s', run (shift pos count) s = (.ok (), s') ∧ s'.n_ = s.n_ + count ∧
      s'.s_ = s.s_.take (pos + count) ++ (s.s_.drop pos).take (s.n_ - pos) ++
        s.s_.drop (s.n_ + count) := by
  have size := s.fixed
  have moved : ((s.s_.drop pos).take (s.n_ - pos)).length = s.n_ - pos := by
    rw [List.length_take, List.length_drop]
    omega
  obtain ⟨t, placed, -, array⟩ := run_place (i := pos + count)
    (l := (s.s_.drop pos).take (s.n_ - pos)) s (by omega)
  have behind : pos + count + (s.n_ - pos) = s.n_ + count := by omega
  rw [moved, behind] at array
  refine ⟨{ t with n_ := s.n_ + count }, ?_, rfl, array⟩
  have shifted : run (move (pos + count) pos (s.n_ - pos)) s = (.ok (), t) := by
    rw [move, Step.run_get_bind, run_bind_ok (run_chars _ _ (by omega)), placed]
  -- Neither of the two sums exceeds a word.
  rw [shift, Step.run_get_bind]
  dsimp only
  rw [Nat.mod_eq_of_lt (by omega : pos + count < 2 ^ 64), Nat.mod_eq_of_lt word,
    run_bind_ok shifted, run_setSize]

/-- Characters in front of a place, others, and those behind it, where room was made for these. -/
theorem inserted_text (a l : List α) {pos n : Nat} (inside : pos ≤ n) (long : n + l.length < a.length) :
    ((a.take (pos + l.length) ++ (a.drop pos).take (n - pos) ++ a.drop (n + l.length)).take pos ++ l ++
      (a.take (pos + l.length) ++ (a.drop pos).take (n - pos) ++ a.drop (n + l.length)).drop
        (pos + l.length)).take (n + l.length) =
      (a.take n).take pos ++ l ++ (a.take n).drop pos := by
  have front : (a.take (pos + l.length)).length = pos + l.length := by
    rw [List.length_take]
    omega
  have moved : ((a.drop pos).take (n - pos)).length = n - pos := by
    rw [List.length_take, List.length_drop]
    omega
  rw [List.append_assoc (a.take (pos + l.length)), List.drop_left' front]
  -- What is in front of the place was not written to.
  have same : (a.take (pos + l.length) ++ ((a.drop pos).take (n - pos) ++
      a.drop (n + l.length))).take pos = a.take pos := by
    rw [List.take_append_of_le_length (by omega), List.take_take, Nat.min_eq_left (by omega)]
  rw [same, List.take_take, Nat.min_eq_left inside, List.drop_take, ← List.append_assoc]
  refine List.take_left' ?_
  simp only [List.length_append, moved, List.length_take]
  omega

/-- A null behind the characters leaves them as they are. -/
theorem run_term [Zero α] (s : StaticString N α) (short : s.n_ ≤ N) :
    ∃ s', run term s = (.ok (), s') ∧ s'.Valid ∧ s'.content = s.content := by
  have size := s.fixed
  have front : (s.s_.take s.n_).length = s.n_ := by
    rw [List.length_take]
    omega
  obtain ⟨s', placed, count, array⟩ := run_place (i := s.n_) (l := [0]) s (by simpa using short)
  refine ⟨s', placed, ⟨by omega, ?_⟩, ?_⟩
  · -- The null comes right behind them.
    simp [array, count, front]
  · rw [content, content, array, count, List.append_assoc]
    exact List.take_left' front

/-- A part has as many characters as were asked for, or as there are. -/
theorem length_part {l ss : List α} {pos count : Nat} (found : StdString.part l pos count = .ok ss) :
    ss.length = min count (l.length - pos) := by
  unfold StdString.part at found
  split at found
  · cases found
  · cases found
    rw [List.length_take, List.length_drop]

/-! ## What an operation does -/

section Does

variable [Zero α]

/-- An operation makes a text and returns something, or it throws and leaves everything alone. -/
def Does (m : StringStep N α β) (s : StaticString N α) : Except Halt (List α × β) → Prop
  | .ok (t, b) => ∃ s', run m s = (.ok b, s') ∧ s'.Valid ∧ s'.content = t
  | .error e => run m s = (.error e, s)

/-- An operation that throws first does nothing. -/
theorem does_stop (e : Halt) (s : StaticString N α) :
    Does (Step.stop e : StringStep N α β) s (.error e) := rfl

/-- What an operation does depends on its run only. -/
theorem Does.congr {m m' : StringStep N α β} {s : StaticString N α}
    {want : Except Halt (List α × β)} (same : run m s = run m' s) (does : Does m' s want) :
    Does m s want := by
  unfold Does
  rw [same]
  exact does

/-- A text that is short enough is made. -/
theorem Does.short {m : StringStep N α β} {s : StaticString N α} {b : β} {t : List α}
    (does : Does m s (atMost N b t)) (fits : t.length ≤ N) :
    ∃ s', run m s = (.ok b, s') ∧ s'.Valid ∧ s'.content = t := by
  rwa [atMost, if_neg (Nat.not_lt.mpr fits)] at does

/-- A text that is too long is not made. -/
theorem Does.long {m : StringStep N α β} {s : StaticString N α} {b : β} {t : List α}
    (does : Does m s (atMost N b t)) (large : N < t.length) :
    run m s = (.error .length_error, s) := by
  rwa [atMost, if_pos large] at does

/-- What an operation returns may be changed behind it. -/
theorem Does.returns {γ : Type} {m : StringStep N α β} {s : StaticString N α} {b : β}
    {made : Except Halt (List α)} (does : Does m s (made >>= atMost N b)) (f : β → γ) :
    Does (m >>= fun b => pure (f b)) s (made >>= atMost N (f b)) := by
  cases made with
  | error e => exact Step.run_bind_error does
  | ok t =>
    change Does m s (atMost N b t) at does
    change Does _ s (atMost N (f b) t)
    unfold atMost at does ⊢
    split at does
    · rw [if_pos ‹_›]
      exact Step.run_bind_error does
    · rw [if_neg ‹_›]
      obtain ⟨s', ran, valid, made⟩ := does
      exact ⟨s', run_bind_ok ran, valid, made⟩

/-- Characters are written over others, and the string stays as long as it is. -/
theorem run_place_content {s : StaticString N α} (valid : s.Valid) {i : Nat} {l : List α}
    (inside : i + l.length ≤ s.n_) :
    ∃ s', run (place i l) s = (.ok (), s') ∧ s'.Valid ∧ s'.n_ = s.n_ ∧
      s'.content = s.content.take i ++ l ++ s.content.drop (i + l.length) := by
  have size := s.fixed
  have short := valid.short
  obtain ⟨s', placed, count, array⟩ := run_place (i := i) (l := l) s (by omega)
  have front : (s.s_.take i ++ l).length = i + l.length := by
    rw [List.length_append, List.length_take]
    omega
  refine ⟨s', placed, ⟨by omega, ?_⟩, count, ?_⟩
  · rw [array, count, List.getElem?_append_right (by omega), front, List.getElem?_drop, ← valid.null]
    congr 1
    omega
  · rw [content, array, count, List.take_append, front, List.take_of_length_le (by omega), content,
      List.take_take, Nat.min_eq_left (by omega), List.drop_take]

/-- A text that is short enough is written from the start on. -/
theorem does_assign (s : StaticString N α) (l : List α) :
    Does (do
      if N < l.length then Step.stop .length_error
      else
        setSize l.length
        place 0 l
        term : StringStep N α Unit) s (atMost N () l) := by
  unfold atMost
  split
  · exact does_stop _ s
  · rename_i fits
    obtain ⟨t, placed, count, array⟩ := run_place (i := 0) (l := l) { s with n_ := l.length }
      (by omega)
    have short : t.n_ ≤ N := by
      simp only at count
      omega
    obtain ⟨s', ended, valid, made⟩ := run_term t short
    refine ⟨s', ?_, valid, ?_⟩
    · rw [run_bind_ok (run_setSize _ _), run_bind_ok placed, ended]
    · rw [made, content, array, count]
      simp

/-- Characters are put in at a place of a string that is long enough. -/
theorem does_insert {s : StaticString N α} (valid : s.Valid) {pos : Nat} (inside : pos ≤ s.n_)
    {l : List α} (word : s.n_ + l.length < 2 ^ 64) :
    Does (do
      if N < (s.n_ + l.length) % 2 ^ 64 then Step.stop .length_error
      else
        shift pos l.length
        place pos l
        term : StringStep N α Unit) s
      (atMost N () (s.content.take pos ++ l ++ s.content.drop pos)) := by
  have size := s.fixed
  have short := valid.short
  have length := length_content valid
  have total : (s.content.take pos ++ l ++ s.content.drop pos).length = s.n_ + l.length := by
    simp only [List.length_append, List.length_take, List.length_drop, length]
    omega
  rw [atMost, total, Nat.mod_eq_of_lt word]
  split
  · exact does_stop _ s
  · rename_i fits
    obtain ⟨t, shifted, longer, room⟩ := run_shift inside (by omega) word
    obtain ⟨u, placed, count, array⟩ := run_place (i := pos) (l := l) t (by omega)
    obtain ⟨s', ended, valid', made⟩ := run_term u (by omega)
    refine ⟨s', ?_, valid', ?_⟩
    · rw [run_bind_ok shifted, run_bind_ok placed, ended]
    · -- The characters in front of the place are still there, and so are those that were moved.
      rw [made, content, array, count, longer, room]
      exact inserted_text s.s_ l inside (by omega)

/-! ## Parts of other strings -/

/-- The characters of a string are read from its array. -/
theorem run_chars_content (str : StaticString M α) (valid : str.Valid) (s : StaticString N α) :
    run (chars str 0 str.n_) s = (.ok str.content, s) := by
  have short := valid.short
  rw [run_chars str s (by omega)]
  rfl

/-- A part of a string is read from its array, or it starts behind the string. -/
theorem run_part (str : StaticString M α) (valid : str.Valid) (pos count : Nat)
    (s : StaticString N α) : run (part str pos count) s = (StdString.part str.content pos count, s) := by
  have short := valid.short
  rw [part, StdString.part, length_content valid]
  split
  · rfl
  · rename_i inside
    rw [run_chars str s (by omega), content, List.drop_take, List.take_take]

/-- What an operation does with a part of a string. -/
theorem does_part {str : StaticString M α} (valid : str.Valid) {pos count : Nat}
    {f : List α → StringStep N α β} {s : StaticString N α}
    {w : List α → Except Halt (List α × β)}
    (does : ∀ ss, StdString.part str.content pos count = .ok ss → Does (f ss) s (w ss)) :
    Does (part str pos count >>= f) s (StdString.part str.content pos count >>= w) := by
  have ran := run_part str valid pos count s
  cases found : StdString.part str.content pos count with
  | error e =>
    rw [found] at ran
    exact Step.run_bind_error ran
  | ok ss =>
    rw [found] at ran
    exact (does ss found).congr (run_bind_ok ran)

/-- What an operation does with a part of a view. -/
theorem does_viewPart {l : List α} {pos count : Nat} {f : List α → StringStep N α β}
    {s : StaticString N α} {w : List α → Except Halt (List α × β)}
    (does : ∀ ss, StdString.part l pos count = .ok ss → Does (f ss) s (w ss)) :
    Does (viewPart l pos count >>= f) s (StdString.part l pos count >>= w) := by
  unfold StdString.part at does ⊢
  unfold viewPart
  split
  · exact does_stop _ s
  · rw [if_neg ‹_›] at does
    exact does _ rfl

/-! ## The operations -/

theorem does_assignFill (s : StaticString N α) (count : Nat) (ch : α) :
    Does (assignFill count ch) s (atMost N () (List.replicate count ch)) := by
  refine (does_assign s _).congr ?_
  rw [assignFill, List.length_replicate]
  split
  · rfl
  · rename_i fits
    rw [run_bind_ok (run_setSize _ _), run_bind_ok (run_setSize _ _), run_bind, run_bind,
      run_fill _ _ (by omega)]

theorem does_takeOver (s : StaticString N α) {str : StaticString M α} (valid : str.Valid)
    (short : str.n_ ≤ N) :
    ∃ s', run (takeOver str) s = (.ok (), s') ∧ s'.Valid ∧ s'.content = str.content := by
  have size := str.fixed
  have within := valid.short
  have copied : ((str.s_.drop 0).take (str.n_ + 1)).length = str.n_ + 1 := by
    rw [List.length_take, List.length_drop]
    omega
  obtain ⟨s', placed, count, array⟩ := run_place (i := 0)
    (l := (str.s_.drop 0).take (str.n_ + 1)) { s with n_ := str.n_ } (by omega)
  dsimp only at count
  refine ⟨s', ?_, ⟨by omega, ?_⟩, ?_⟩
  · rw [takeOver, run_bind_ok (run_setSize _ _), run_bind_ok (run_chars _ _ (by omega)), placed]
  · -- The null was copied with the characters in front of it.
    rw [array, count, ← valid.null]
    simp only [List.take_zero, List.nil_append, List.drop_zero]
    rw [List.getElem?_append_left (by rw [List.length_take]; omega),
      List.getElem?_take_of_lt (by omega)]
  · rw [content, array, count, content]
    simp only [List.take_zero, List.nil_append, List.drop_zero]
    rw [List.take_append_of_le_length (by rw [List.length_take]; omega), List.take_take,
      Nat.min_eq_left (by omega)]

theorem does_assignCopy (s : StaticString N α) {str : StaticString N α} (valid : str.Valid) :
    Does (assignCopy str) s (atMost N () str.content) := by
  rw [atMost, length_content valid, if_neg (Nat.not_lt.mpr valid.short)]
  exact does_takeOver s valid valid.short

theorem does_assignString (s : StaticString N α) {str : StaticString M α} (valid : str.Valid) :
    Does (assignString str) s (atMost N () str.content) :=
  (does_assign s str.content).congr (run_bind_ok (run_chars_content str valid s))

theorem does_assign_char (s : StaticString N α) (ch : α) :
    Does (assign_char ch) s (atMost N () [ch]) := by
  refine (does_assign s [ch]).congr ?_
  have single : N < [ch].length ↔ N = 0 := by
    rw [List.length_singleton]
    omega
  simp only [single]
  rfl

/-- What is put in with an iterator is located by it. -/
theorem does_insertRangeAt {s : StaticString N α} (valid : s.Valid) {pos : Nat}
    (inside : pos ≤ s.n_) {l : List α} (word : s.n_ + l.length < 2 ^ 64) :
    Does (insertRangeAt pos l) s (StdString.insert s.content pos l >>= atMost N pos) := by
  rw [StdString.insert, length_content valid, if_neg (Nat.not_lt.mpr inside)]
  have inserted : Does _ s (pure _ >>= atMost N ()) := does_insert valid inside word
  refine (inserted.returns fun _ => pos).congr ?_
  rw [insertRangeAt, Step.run_get_bind]
  split
  · rfl
  · simp only [Step.bind_assoc]

theorem does_insertFillAt {s : StaticString N α} (valid : s.Valid) {pos count : Nat}
    (inside : pos ≤ s.n_) (word : s.n_ + count < 2 ^ 64) (ch : α) :
    Does (insertFillAt pos count ch) s
      (StdString.insert s.content pos (List.replicate count ch) >>= atMost N pos) := by
  have word' : s.n_ + (List.replicate count ch).length < 2 ^ 64 := by
    rwa [List.length_replicate]
  refine (does_insertRangeAt valid inside word').congr ?_
  rw [insertFillAt, insertRangeAt, Step.run_get_bind, Step.run_get_bind, List.length_replicate,
    Nat.mod_eq_of_lt word]
  split
  · rfl
  · rename_i fits
    obtain ⟨t, shifted, -, -⟩ := run_shift inside (by omega) word
    rw [run_bind_ok shifted, run_bind_ok shifted, run_bind, run_bind, run_fill _ _ (by omega)]

/-- A count that wraps around with the size is not told from a small one, and the characters are
written outside of the array. -/
theorem insertFillAt_wraps {s : StaticString N α} (valid : s.Valid) (small : N < 2 ^ 62)
    {pos count : Nat} (inside : pos ≤ s.n_) (word : count < 2 ^ 64)
    (wraps : 2 ^ 64 ≤ s.n_ + count) (ch : α) :
    (run (insertFillAt pos count ch) s).1 = .error .fault := by
  have short := valid.short
  have passes : ¬N < (s.n_ + count) % 2 ^ 64 := by omega
  rw [insertFillAt, Step.run_get_bind, if_neg passes, run_bind]
  rcases shifted : run (shift pos count) s with ⟨r, t⟩
  cases r with
  | ok _ =>
    -- The characters are more than the array has room for.
    have large : ¬pos + count ≤ N + 1 := by omega
    dsimp only
    rw [run_bind, fill, if_neg large]
    rfl
  | error e =>
    -- Those behind the place do not fit either.
    have size := s.fixed
    rw [shift, Step.run_get_bind] at shifted
    dsimp only at shifted ⊢
    rw [run_bind, move, Step.run_get_bind, run_bind_ok (run_chars _ _ (by omega))] at shifted
    unfold place run at shifted
    split at shifted
    · rename_i placed
      split at placed <;> cases placed
      cases shifted
    · rename_i stopped
      split at stopped <;> cases stopped
      cases shifted
      rfl

theorem does_insertChars {s : StaticString N α} (valid : s.Valid) {i : Nat} {l : List α}
    (word : s.n_ + l.length < 2 ^ 64) :
    Does (insertChars i l) s (StdString.insert s.content i l >>= atMost N ()) := by
  refine Does.congr (Step.run_get_bind _ s) ?_
  unfold StdString.insert
  rw [length_content valid]
  split
  · exact does_stop _ s
  · rename_i inside
    exact does_insert valid (Nat.not_lt.mp inside) word

theorem does_insertFill {s : StaticString N α} (valid : s.Valid) {index count : Nat} (ch : α)
    (word : s.n_ + count < 2 ^ 64) :
    Does (insertFill index count ch) s
      (StdString.insert s.content index (List.replicate count ch) >>= atMost N ()) := by
  refine Does.congr (Step.run_get_bind _ s) ?_
  by_cases behind : s.n_ < index
  · rw [StdString.insert, length_content valid, if_pos behind, if_pos behind]
    exact does_stop _ s
  · rw [if_neg behind]
    exact (does_insertFillAt valid (Nat.not_lt.mp behind) word ch).returns fun _ => ()

/-- The characters behind those that are erased are moved, with the null. -/
theorem does_erase {s : StaticString N α} (valid : s.Valid) (index count : Nat) :
    Does (erase index count) s (StdString.erase s.content index count >>= atMost N ()) := by
  have size := s.fixed
  have short := valid.short
  refine Does.congr (Step.run_get_bind _ s) ?_
  unfold StdString.erase
  rw [length_content valid]
  dsimp only
  split
  · exact does_stop _ s
  · rename_i inside
    obtain ⟨n, least⟩ : ∃ n, n = min count (s.n_ - index) := ⟨_, rfl⟩
    rw [← least]
    have moved : ((s.s_.drop (index + n)).take (s.n_ - (index + n) + 1)).length =
        s.n_ - (index + n) + 1 := by
      rw [List.length_take, List.length_drop]
      omega
    obtain ⟨t, placed, -, array⟩ := run_place (i := index)
      (l := (s.s_.drop (index + n)).take (s.n_ - (index + n) + 1)) s (by omega)
    have read : run (chars s (index + n) (s.n_ - (index + n) + 1)) s =
        (.ok ((s.s_.drop (index + n)).take (s.n_ - (index + n) + 1)), s) :=
      run_chars s s (by omega)
    have erased : run (move index (index + n) (s.n_ - (index + n) + 1)) s = (.ok (), t) := by
      rw [move, Step.run_get_bind, run_bind_ok read, placed]
    have front : (s.s_.take index).length = index := by
      rw [List.length_take]
      omega
    -- What is erased is what the other string erases, which may ask for more than there is.
    have same : s.content.drop (index + count) = s.content.drop (index + n) := by
      rcases Nat.le_total count (s.n_ - index) with few | many
      · rw [least, Nat.min_eq_left few]
      · have length := length_content valid
        rw [List.drop_eq_nil_of_le (by omega), List.drop_eq_nil_of_le (by omega)]
    have made : (s.content.take index ++ s.content.drop (index + n)).length = s.n_ - n := by
      have length := length_content valid
      simp only [List.length_append, List.length_take, List.length_drop, length]
      omega
    change Does _ s (atMost N () _)
    rw [same, atMost, made, if_neg (by omega)]
    refine ⟨{ t with n_ := s.n_ - n }, ?_, ⟨?_, ?_⟩, ?_⟩
    · rw [run_bind_ok erased, run_setSize]
    · dsimp only
      omega
    · have null := valid.null
      dsimp only
      rw [array, List.append_assoc, List.getElem?_append_right (by omega), front,
        List.getElem?_append_left (by omega), List.getElem?_take_of_lt (by omega),
        List.getElem?_drop, ← null]
      congr 1
      omega
    · rw [content]
      dsimp only
      rw [array, List.append_assoc, content, List.take_take, Nat.min_eq_left (by omega),
        List.drop_take, List.take_append, front, List.take_of_length_le (by omega),
        List.take_append_of_le_length (by omega), List.take_take]
      congr 3
      omega

theorem does_push_back {s : StaticString N α} (valid : s.Valid) (ch : α) :
    Does (push_back ch) s (atMost N () (s.content ++ [ch])) := by
  have size := s.fixed
  have length := length_content valid
  refine Does.congr (Step.run_get_bind _ s) ?_
  dsimp only
  rw [atMost, List.length_append, length, List.length_singleton]
  by_cases full : N ≤ s.n_
  · rw [if_pos full, if_pos (by omega)]
    exact does_stop _ s
  · rw [if_neg full, if_neg (by omega)]
    obtain ⟨t, placed, count, array⟩ := run_place (i := s.n_) (l := [ch])
      { s with n_ := s.n_ + 1 } (by rw [List.length_singleton]; omega)
    dsimp only at count
    obtain ⟨s', ended, valid', made⟩ := run_term t (by omega)
    refine ⟨s', ?_, valid', ?_⟩
    · rw [run_bind_ok (run_setSize _ _), run_bind_ok placed, ended]
    · rw [made, content, array, count]
      refine List.take_left' ?_
      rw [List.length_append, List.length_take, List.length_singleton]
      dsimp only
      omega

/-- A string that is made longer keeps its characters in front. -/
theorem run_resize {s : StaticString N α} {n : Nat} (fits : n ≤ N) :
    ∃ s', run (resize n) s = (.ok (), s') ∧ s'.Valid ∧ s'.content = s.s_.take n := by
  obtain ⟨s', ended, valid, made⟩ := run_term { s with n_ := n } fits
  refine ⟨s', ?_, valid, made⟩
  rw [resize, if_neg (Nat.not_lt.mpr fits), run_bind_ok (run_setSize _ _), ended]

theorem does_resizeFill {s : StaticString N α} (valid : s.Valid) (n : Nat) (c : α) :
    Does (resizeFill n c) s
      (atMost N () (s.content.take n ++ List.replicate (n - s.content.length) c)) := by
  have size := s.fixed
  have short := valid.short
  have length := length_content valid
  have total : (s.content.take n ++ List.replicate (n - s.content.length) c).length = n := by
    simp only [List.length_append, List.length_take, List.length_replicate, length]
    omega
  rw [atMost, total, resizeFill]
  split
  · exact does_stop _ s
  · rename_i fits
    -- Either way the array starts with what is asked for.
    have filled : ∃ t : StaticString N α,
        (∀ m : StringStep N α Unit,
          run (if s.n_ < n then do fill s.n_ (n - s.n_) c; m else m) s = run m t) ∧
        t.s_.take n = s.content.take n ++ List.replicate (n - s.content.length) c := by
      rw [length]
      split
      · obtain ⟨t, placed, -, array⟩ := run_place (i := s.n_)
          (l := List.replicate (n - s.n_) c) s (by rw [List.length_replicate]; omega)
        refine ⟨t, fun m => ?_, ?_⟩
        · rw [run_bind, run_fill _ _ (by omega), placed]
        · rw [array, List.take_of_length_le (l := s.content) (by omega), content]
          refine List.take_left' ?_
          rw [List.length_append, List.length_take, List.length_replicate]
          omega
      · refine ⟨s, fun m => rfl, ?_⟩
        rw [content, List.take_take, Nat.min_eq_left (by omega), Nat.sub_eq_zero_of_le (by omega),
          List.replicate_zero, List.append_nil]
    obtain ⟨t, ran, starts⟩ := filled
    obtain ⟨s', ended, valid', made⟩ := run_term { t with n_ := n } (by dsimp only; omega)
    refine ⟨s', ?_, valid', ?_⟩
    · rw [Step.run_get_bind]
      dsimp only
      rw [ran, run_bind_ok (run_setSize _ _), ended]
    · rw [made, content]
      exact starts

/-- Two strings exchange their characters by way of a copy of the second one. -/
theorem run_exchange {s : StaticString N α} {t : StaticString M α} {tmp : StaticString N α}
    (valid : s.Valid) (copied : tmp.Valid) (fits : s.n_ ≤ M) :
    ∃ s' str', run (exchange tmp) (s, t) = (.ok (), s', str') ∧ s'.Valid ∧
      s'.content = tmp.content ∧ str'.content = s.content := by
  obtain ⟨str', given, -, theirs⟩ := does_takeOver t valid fits
  obtain ⟨s', taken, valid', ours⟩ := does_takeOver s copied copied.short
  refine ⟨s', str', ?_, valid', ours, theirs⟩
  rw [exchange, Step.run_get_bind]
  dsimp only
  rw [run_bind_ok (by rw [Step.run_zoom, given] : run _ (s, t) = (.ok (), (s, str'))),
    Step.run_zoom, taken]

theorem does_swap {s str : StaticString N α} (valid : s.Valid) (other : str.Valid) :
    Does (paired swap str) s (atMost N (.other s.content) str.content) := by
  obtain ⟨tmp, made, copied, same⟩ := does_takeOver s other other.short
  obtain ⟨s', str', ran, valid', ours, theirs⟩ := run_exchange (t := str) valid copied valid.short
  rw [atMost, length_content other, if_neg (Nat.not_lt.mpr other.short), ← theirs]
  refine ⟨s', ?_, valid', by rw [ours, same]⟩
  have swapped : run swap (s, str) = (.ok (), s', str') := by
    rw [swap, Step.run_get_bind]
    dsimp only
    rw [assignCopy, StaticString.made, made, Step.run_pure_bind, ran]
  rw [run, paired, swapped]

theorem does_swapOther {s : StaticString N α} {str : StaticString M α} (valid : s.Valid)
    (other : str.Valid) :
    Does (paired swapOther str) s
      (if M < s.content.length then .error .length_error
        else atMost N (.other s.content) str.content) := by
  have unfolded : run (swapOther : Step Halt (StaticString N α × StaticString M α) Unit) (s, str) =
      run (if M < s.n_ then Step.stop .length_error
        else if N < str.n_ then Step.stop .length_error
        else made (assignString str) s >>= exchange) (s, str) := rfl
  rw [length_content valid, atMost, length_content other]
  by_cases large : M < s.n_
  · rw [if_pos large] at unfolded ⊢
    rw [Does, run, paired, unfolded, Step.run_stop]
  · rw [if_neg large] at unfolded ⊢
    by_cases small : N < str.n_
    · rw [if_pos small] at unfolded ⊢
      rw [Does, run, paired, unfolded, Step.run_stop]
    · rw [if_neg small] at unfolded ⊢
      have assigned := does_assignString s other
      rw [atMost, length_content other, if_neg small] at assigned
      obtain ⟨tmp, filled, copied, same⟩ := assigned
      obtain ⟨s', str', ran, valid', ours, theirs⟩ :=
        run_exchange (t := str) valid copied (Nat.not_lt.mp large)
      rw [made, filled, Step.run_pure_bind, ran] at unfolded
      refine ⟨s', ?_, valid', by rw [ours, same]⟩
      rw [← theirs, run, paired, unfolded]

/-! ## The end of a string -/

/-- What is put in behind all characters is appended. -/
theorem insert_end {s : StaticString N α} (valid : s.Valid) (l : List α) :
    StdString.insert s.content s.n_ l = .ok (s.content ++ l) := by
  have length := length_content valid
  rw [StdString.insert, length, if_neg (Nat.lt_irrefl _), List.take_of_length_le (by omega),
    List.drop_eq_nil_of_le (by omega), List.append_nil]

theorem does_appendChars {s : StaticString N α} (valid : s.Valid) {l : List α}
    (word : s.n_ + l.length < 2 ^ 64) :
    Does (insertChars s.n_ l) s (atMost N () (s.content ++ l)) := by
  have inserted := does_insertChars (i := s.n_) valid word
  rw [insert_end valid] at inserted
  exact inserted

theorem does_appendRange {s : StaticString N α} (valid : s.Valid) {l : List α}
    (word : s.n_ + l.length < 2 ^ 64) :
    Does (appendRange l) s (atMost N () (s.content ++ l)) := by
  have inserted := (does_insertRangeAt valid (Nat.le_refl _) word).returns fun _ => ()
  rw [insert_end valid] at inserted
  exact inserted

theorem does_appendFill {s : StaticString N α} (valid : s.Valid) {count : Nat} (ch : α)
    (word : s.n_ + count < 2 ^ 64) :
    Does (appendFill count ch) s (atMost N () (s.content ++ List.replicate count ch)) := by
  have inserted := (does_insertFillAt valid (Nat.le_refl _) word ch).returns fun _ => ()
  rw [insert_end valid] at inserted
  exact inserted

/-! ## Sequences of operations -/

/-- An operation that returns nothing else. -/
theorem Does.quiet {m : StringStep N α Unit} {s : StaticString N α}
    {r : Except Halt (List α)} (does : Does m s (r >>= atMost N ())) :
    Does (quiet m) s (r >>= atMost N .nothing) :=
  does.returns fun _ => (Output.nothing : Output α)

/-- An operation that returns an iterator. -/
theorem Does.located {m : StringStep N α Nat} {s : StaticString N α} {i : Nat}
    {made : Except Halt (List α)} (does : Does m s (made >>= atMost N i)) :
    Does (located m) s (made >>= atMost N (.iterator i)) :=
  does.returns (Output.iterator : Nat → Output α)

/-- An operation that puts in a part of another string. -/
theorem does_nested {m : StringStep N α Unit} {s : StaticString N α} {index : Nat}
    {ss : Except Halt (List α)}
    (does : Does m s (ss >>= fun ss => StdString.insert s.content index ss >>= atMost N ())) :
    Does (StaticString.quiet m) s (do
      let t ← StdString.insert s.content index (← ss)
      atMost N .nothing t) := by
  cases ss with
  | error e => exact Does.quiet (r := .error e) does
  | ok ss => exact Does.quiet (r := StdString.insert s.content index ss) does

/-- An operation that appends a part of another string. -/
theorem does_behind {m : StringStep N α Unit} {s : StaticString N α} {ss : Except Halt (List α)}
    (does : Does m s (ss >>= fun ss => atMost N () (s.content ++ ss))) :
    Does (StaticString.quiet m) s (ss >>= fun ss => atMost N .nothing (s.content ++ ss)) := by
  cases ss with
  | error e => exact Does.quiet (r := .error e) does
  | ok ss => exact Does.quiet (r := .ok (s.content ++ ss)) does

variable [DecidableEq α]

/-- The strings that an operation is given are valid ones. -/
def Op.Given : Op N α → Prop
  | .assignCopy str | .swap str => str.Valid
  | .assignString str | .assignSubstring str _ _ | .insertString _ str
  | .insertSubstring _ str _ _ | .appendString str | .appendSubstring str _ _
  | .swapOther str => str.Valid
  | _ => True

/-- The iterators that an operation is given are those of a string of so many characters. -/
def Op.Inside (size : Nat) : Op N α → Prop
  | .insertFillAt pos _ _ | .insertCharAt pos _ | .insertRangeAt pos _ => pos ≤ size
  | .eraseAt pos => pos < size
  | .eraseRangeAt first last => first ≤ last ∧ last ≤ size
  | _ => True

/-- How many characters an operation is asked to put in. -/
def Op.added : Op N α → Nat
  | .insertFillAt _ count _ | .insertFill _ count _ | .appendFill count _ => count
  | .insertCharAt _ _ => 1
  | .insertChars _ s | .insertRangeAt _ s | .insertView _ s | .appendChars s | .appendRange s
  | .appendView s => s.length
  | .insertCString _ s | .appendCString s => (StdString.cString s).length
  | .insertString _ str | .appendString str => str.n_
  | .insertSubstring _ str pos count | .appendSubstring str pos count => min count (str.n_ - pos)
  | .insertConvertible _ s pos count | .appendConvertible s pos count => min count (s.length - pos)
  | _ => 0

/-- What an operation is given makes sense, and the size it asks for fits into a word. -/
structure Op.Sound (op : Op N α) (s : StaticString N α) : Prop where
  given : op.Given
  inside : op.Inside s.n_
  word : s.n_ + op.added < 2 ^ 64

/-- The outcome of an operation, and the text behind it, are those of `std::string`. -/
def Op.AsStd (op : Op N α) (t : List α) (r : Except Halt (Output α)) (t' : List α) : Prop :=
  match StdString.perform t op with
  | .ok (made, out) => r = .ok out ∧ t' = made
  | .error e => r = .error e ∧ t' = t

/-- The outcome of an operation, and the text behind it, are those that are documented. -/
def Op.Meets (op : Op N α) (t : List α) (r : Except Halt (Output α)) (t' : List α) : Prop :=
  match op with
  -- Characters that are new are not initialized.
  | .resize n =>
    if N < n then r = .error .length_error ∧ t' = t
    else r = .ok .nothing ∧ t'.length = n ∧ t.take n <+: t'
  -- The end of the other string is out of range.
  | .appendSubstring str pos _ =>
    if str.content.length ≤ pos then r = .error .out_of_range ∧ t' = t else op.AsStd t r t'
  | _ => op.AsStd t r t'

/-- What an operation does is what its outcome and the text behind it show. -/
theorem Does.asStd {op : Op N α} {s : StaticString N α} (valid : s.Valid)
    (does : Does op.perform s (StdString.perform s.content op)) :
    (run op.perform s).2.Valid ∧
      op.AsStd s.content (run op.perform s).1 (run op.perform s).2.content := by
  unfold Op.AsStd
  cases wanted : StdString.perform s.content op with
  | error e =>
    rw [wanted] at does
    have ran : run op.perform s = (.error e, s) := does
    rw [ran]
    exact ⟨valid, rfl, rfl⟩
  | ok p =>
    rw [wanted] at does
    obtain ⟨s', ran, valid', made⟩ := does
    rw [ran]
    exact ⟨valid', rfl, made⟩

/-- The characters in front of the first null. -/
theorem take_length (l : List α) : l.take (length l) = StdString.cString l := by
  rw [length, StdString.cString]
  exact (List.prefix_iff_eq_take.mp (List.takeWhile_prefix _)).symm

/-- Every operation but two does what `std::string` does. -/
theorem does_perform {s : StaticString N α} (valid : s.Valid) (op : Op N α) (sound : op.Sound s)
    (resizes : ∀ n, op ≠ .resize n)
    (appends : ∀ {M} (str : StaticString M α) pos count,
      op = .appendSubstring str pos count → pos < str.content.length) :
    Does op.perform s (StdString.perform s.content op) := by
  obtain ⟨given, inside, word⟩ := sound
  cases op with
  | assignFill count ch => exact (does_assignFill s count ch).quiet (r := .ok _)
  | assignChars l => exact (does_assign s l).quiet (r := .ok _)
  | assignCopy str => exact (does_assignCopy s given).quiet (r := .ok _)
  | assignString str => exact (does_assignString s given).quiet (r := .ok _)
  | assignSubstring str pos count =>
    exact (does_part given fun ss _ => does_assign s ss).quiet
  | assignCString l =>
    refine Does.quiet (r := .ok _) ?_
    rw [← take_length]
    exact does_assign s _
  | assignRange l => exact (does_assign s l).quiet (r := .ok _)
  | assignView l => exact (does_assign s l).quiet (r := .ok _)
  | assignConvertible l pos count =>
    exact (does_viewPart fun ss _ => does_assign s ss).quiet
  | assign_char ch => exact (does_assign_char s ch).quiet (r := .ok _)
  | insertFillAt pos count ch => exact (does_insertFillAt valid inside word ch).located
  | insertCharAt pos ch => exact (does_insertFillAt valid inside word ch).located
  | insertFill index count ch => exact (does_insertFill valid ch word).quiet
  | insertChars index l => exact (does_insertChars valid word).quiet
  | insertCString index l =>
    refine Does.quiet ?_
    rw [← take_length]
    refine does_insertChars valid ?_
    rw [take_length]
    exact word
  | insertString index str =>
    refine Does.quiet ((does_insertChars valid ?_).congr (run_bind_ok (run_chars_content str given s)))
    rw [length_content given]
    exact word
  | insertSubstring index str index_str count =>
    have does := does_part given (f := fun ss => insertChars index ss) (s := s)
      (w := fun ss => StdString.insert s.content index ss >>= atMost N ()) fun ss found => by
        refine does_insertChars valid ?_
        rw [length_part found, length_content given]
        exact word
    exact does_nested does
  | insertRangeAt pos l => exact (does_insertRangeAt valid inside word).located
  | insertView index l => exact (does_insertChars valid word).quiet
  | insertConvertible index l index_str count =>
    have does := does_viewPart (f := fun ss => insertChars index ss) (s := s)
      (w := fun ss => StdString.insert s.content index ss >>= atMost N ()) fun ss found => by
        refine does_insertChars valid ?_
        rw [length_part found]
        exact word
    exact does_nested does
  | erase index count => exact (does_erase valid index count).quiet
  | eraseAt pos => exact ((does_erase valid pos 1).returns fun _ => pos).located
  | eraseRangeAt first last =>
    exact ((does_erase valid first (last - first)).returns fun _ => first).located
  | push_back ch => exact (does_push_back valid ch).quiet (r := .ok _)
  | appendFill count ch => exact (does_appendFill valid ch word).quiet (r := .ok _)
  | appendString str =>
    have word' : s.n_ + str.content.length < 2 ^ 64 := by
      rw [length_content given]
      exact word
    have does := (does_appendChars valid word').congr (run_bind_ok (run_chars_content str given s))
    exact Does.quiet (r := .ok _) (m := appendString str) does
  | appendSubstring str pos count =>
    have before := appends str pos count rfl
    have does := does_part given (f := fun ss => insertChars s.n_ ss) (s := s)
      (w := fun ss => atMost N () (s.content ++ ss)) fun ss found => by
        refine does_appendChars valid ?_
        rw [length_part found, length_content given]
        exact word
    refine does_behind (does.congr ?_)
    rw [length_content given] at before
    have read := run_chars (i := pos) (n := min count (str.n_ - pos)) str s
      (by have short := given.short; omega)
    rw [appendSubstring, part, if_neg (by omega), if_neg (by omega), run_bind_ok read,
      run_bind_ok read, Step.run_get_bind]
  | appendChars l => exact (does_appendChars valid word).quiet (r := .ok _)
  | appendCString l =>
    refine Does.quiet (r := .ok _) (m := appendCString l) ?_
    rw [← take_length]
    refine does_appendChars valid ?_
    rw [take_length]
    exact word
  | appendRange l => exact (does_appendRange valid word).quiet (r := .ok _)
  | appendView l => exact (does_appendChars valid word).quiet (r := .ok _)
  | appendConvertible l pos count =>
    have does := does_viewPart (f := fun ss => insertChars s.n_ ss) (s := s)
      (w := fun ss => atMost N () (s.content ++ ss)) fun ss found => by
        refine does_appendChars valid ?_
        rw [length_part found]
        exact word
    exact does_behind (m := appendConvertible l pos count) does
  | substr pos count =>
    have ran : run (Op.substr pos count : Op N α).perform s = _ :=
      run_bind (part s pos count) (fun ss => pure (Output.view ss)) s
    rw [run_part s valid] at ran
    change Does _ s (StdString.part s.content pos count >>= fun ss => pure (s.content, Output.view ss))
    cases found : StdString.part s.content pos count with
    | error e =>
      rw [found] at ran
      exact ran
    | ok ss =>
      rw [found] at ran
      exact ⟨s, ran, valid, rfl⟩
  | resize n => exact absurd rfl (resizes n)
  | resizeFill n c => exact (does_resizeFill valid n c).quiet (r := .ok _)
  | swap str => exact does_swap valid given
  | swapOther str => exact does_swapOther valid given

/-- An operation does what is documented, and leaves a string that is valid. -/
theorem perform_meets {s : StaticString N α} (valid : s.Valid) (op : Op N α) (sound : op.Sound s) :
    (run op.perform s).2.Valid ∧
      op.Meets s.content (run op.perform s).1 (run op.perform s).2.content := by
  have length := length_content valid
  cases op with
  | resize n =>
    unfold Op.Meets
    dsimp only
    by_cases large : N < n
    · have ran : run (Op.resize n : Op N α).perform s = (.error .length_error, s) := by
        rw [Op.perform, quiet, resize, if_pos large]
        rfl
      rw [if_pos large, ran]
      exact ⟨valid, rfl, rfl⟩
    · obtain ⟨s', resized, valid', made⟩ := run_resize (s := s) (Nat.not_lt.mp large)
      have ran : run (Op.resize n : Op N α).perform s = (.ok .nothing, s') := run_bind_ok resized
      have size := s.fixed
      rw [if_neg large, ran]
      refine ⟨valid', rfl, ?_, ?_⟩
      · rw [made, List.length_take]
        omega
      · -- The characters of the string are those of its array.
        rw [made, content, List.take_take]
        exact List.take_prefix_take_left (by omega)
  | appendSubstring str pos count =>
    unfold Op.Meets
    dsimp only
    by_cases behind : str.content.length ≤ pos
    · have ran : run (Op.appendSubstring str pos count : Op N α).perform s =
          (.error .out_of_range, s) := by
        rw [length_content sound.given] at behind
        rw [Op.perform, quiet, appendSubstring, if_pos behind]
        rfl
      rw [if_pos behind, ran]
      exact ⟨valid, rfl, rfl⟩
    · rw [if_neg behind]
      refine (does_perform valid _ sound nofun ?_).asStd valid
      intro M' str' pos' count' same
      cases same
      exact Nat.not_le.mp behind
  | _ => exact (does_perform valid _ sound nofun nofun).asStd valid

/-- The operations of a sequence are sound, each of them in the string that it comes to. -/
def AllSound (s : StaticString N α) : List (Op N α) → Prop
  | [] => True
  | op :: ops => op.Sound s ∧ AllSound (run op.perform s).2 ops

/-- What operations make of a text one after another, with what each of them returns. -/
inductive Documented : List α → List (Op N α) → List (Except Halt (Output α)) → List α → Prop
  | nil (t : List α) : Documented t [] [] t
  | cons {t u v : List α} {op : Op N α} {ops : List (Op N α)} {r : Except Halt (Output α)}
      {rs : List (Except Halt (Output α))} (first : op.Meets t r u)
      (rest : Documented u ops rs v) : Documented t (op :: ops) (r :: rs) v

/-- Any operations do what is documented, and leave a string that is valid. -/
theorem performAll_documented {s : StaticString N α} (valid : s.Valid) (ops : List (Op N α))
    (sound : AllSound s ops) :
    (performAll s ops).1.Valid ∧
      Documented s.content ops (performAll s ops).2 (performAll s ops).1.content := by
  -- The induction is on the operations, and carries that the string is valid.
  induction ops generalizing s with
  | nil => exact ⟨valid, .nil _⟩
  | cons op ops ih =>
    obtain ⟨first, later⟩ := sound
    obtain ⟨valid', meets⟩ := perform_meets valid op first
    obtain ⟨valid'', rest⟩ := ih valid' later
    exact ⟨valid'', .cons meets rest⟩

/-- It is so where some operations throw and others do not. -/
theorem performAll_documented_few :
    let s : StaticString 4 UInt8 := ⟨2, [97, 98, 0, 0, 0], rfl⟩
    let ops : List (Op 4 UInt8) := [.insertFill 1 2 120, .push_back 99, .erase 5 1, .resize 1]
    (performAll s ops).1.Valid ∧
      Documented s.content ops (performAll s ops).2 (performAll s ops).1.content := by
  refine performAll_documented ⟨by decide, by decide⟩ _ ?_
  exact ⟨⟨trivial, trivial, by decide⟩, ⟨trivial, trivial, by decide⟩,
    ⟨trivial, trivial, by decide⟩, ⟨trivial, trivial, by decide⟩, trivial⟩

/-- Characters that come back when a string is made longer are not those of `std::string`. -/
theorem resize_not_asStd :
    let s : StaticString 3 UInt8 := ⟨3, [120, 121, 122, 0], rfl⟩
    let op : Op 3 UInt8 := .resize 3
    let t := (run (Op.resize 0 : Op 3 UInt8).perform s).2
    ¬op.AsStd t.content (run op.perform t).1 (run op.perform t).2.content := by
  intro s op t asStd
  exact absurd asStd.2 (by decide)

end Does

end StaticString

end Beast
