import Mathlib.Tactic.Common

/-! Words of a code in which the first letter fixes the length of the word. -/

namespace PrefixCode

variable {α : Type*}

/-- A text that can be cut into words of the code. -/
def Spelled (word : List α → Prop) (text : List α) : Prop :=
  ∃ words : List (List α), words.flatten = text ∧ ∀ w ∈ words, word w

/-- Every word is nonempty, and its first letter tells how long it is. -/
def HeadedBy (word : List α → Prop) (width : α → Nat) : Prop :=
  ∀ w, word w → ∃ a rest, w = a :: rest ∧ w.length = width a

variable {word : List α → Prop} {width : α → Nat}

/-- The empty text has no words. -/
theorem spelled_nil : Spelled word [] :=
  ⟨[], rfl, by simp⟩

/-- A word may be put in front of a text. -/
theorem Spelled.cons {w text : List α} (named : word w) (spelled : Spelled word text) :
    Spelled word (w ++ text) := by
  obtain ⟨words, rfl, all⟩ := spelled
  exact ⟨w :: words, rfl, by simpa using ⟨named, all⟩⟩

/-- A larger code spells at least the same texts. -/
theorem Spelled.mono {other : List α → Prop} {text : List α} (spelled : Spelled word text)
    (wider : ∀ w, word w → other w) : Spelled other text := by
  obtain ⟨words, rfl, all⟩ := spelled
  exact ⟨words, rfl, fun w member => wider w (all w member)⟩

/-- The first letter of a text decides where its first word ends. -/
theorem spelled_cons_iff (headed : HeadedBy word width) {a : α} {text : List α} :
    Spelled word (a :: text) ↔
      word ((a :: text).take (width a)) ∧ Spelled word ((a :: text).drop (width a)) := by
  constructor
  · rintro ⟨words, joined, all⟩
    cases words with
    | nil => simp at joined
    | cons w words =>
      obtain ⟨b, rest, rfl, size⟩ := headed w (all w (by simp))
      simp only [List.flatten_cons, List.cons_append, List.cons.injEq] at joined
      obtain ⟨rfl, rfl⟩ := joined
      -- The first word takes exactly the letters that its own first letter asks for.
      have front : (b :: (rest ++ words.flatten)).take (width b) = b :: rest := by
        rw [← size, ← List.cons_append, List.take_left]
      have back : (b :: (rest ++ words.flatten)).drop (width b) = words.flatten := by
        rw [← size, ← List.cons_append, List.drop_left]
      rw [front, back]
      exact ⟨all _ (by simp), words, rfl, fun w member => all w (by simp [member])⟩
  · rintro ⟨named, spelled⟩
    simpa using spelled.cons named

/-- A word in front of a text neither helps nor hurts the rest of it. -/
theorem spelled_word_append (headed : HeadedBy word width) {w text : List α} (named : word w) :
    Spelled word (w ++ text) ↔ Spelled word text := by
  constructor
  · intro spelled
    obtain ⟨a, rest, rfl, size⟩ := headed w named
    rw [List.cons_append, spelled_cons_iff headed, ← List.cons_append, ← size,
      List.drop_left] at spelled
    exact spelled.2
  · exact Spelled.cons named

/-- Spelling the image of a text is spelling the text in words whose images are words. -/
theorem spelled_map_iff {β : Type*} {f : β → α} {text : List β} :
    Spelled word (text.map f) ↔ Spelled (fun w => word (w.map f)) text := by
  constructor
  · rintro ⟨words, joined, all⟩
    -- Each word of the image is the image of the letters it was made from.
    induction words generalizing text with
    | nil =>
      obtain rfl : text = [] := by simpa using joined.symm
      exact spelled_nil
    | cons w words ih =>
      obtain ⟨front, back, rfl, rfl, rest⟩ := List.map_eq_append_iff.mp joined.symm
      exact Spelled.cons (all _ (by simp))
        (ih rest.symm (fun v member => all v (by simp [member])))
  · rintro ⟨words, rfl, all⟩
    exact ⟨words.map (List.map f), by simp [List.map_flatten], by simpa using all⟩

end PrefixCode
