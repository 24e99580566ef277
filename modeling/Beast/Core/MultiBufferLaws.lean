import Mathlib.Algebra.BigOperators.Group.List.Basic
import Beast.Core.MultiBuffer

/-! What the buffer of elements holds, and what each operation does to it. -/

namespace Beast

section Elements

/-- The octets of elements, one behind another. -/
def joined (l : List Element) : Octets := l.flatMap Element.data

/-- The size of elements together. -/
def total (l : List Element) : Nat := (l.map Element.size).sum

/-- An element that holds as many octets as its size says, and some. -/
structure Element.Whole (e : Element) : Prop where
  length : e.data.length = e.size
  some_ : 0 < e.size

@[simp] theorem joined_nil : joined [] = [] := rfl

@[simp] theorem joined_cons (e : Element) (l : List Element) : joined (e :: l) = e.data ++ joined l :=
  rfl

@[simp] theorem joined_append (l k : List Element) : joined (l ++ k) = joined l ++ joined k :=
  List.flatMap_append

@[simp] theorem total_nil : total [] = 0 := rfl

@[simp] theorem total_cons (e : Element) (l : List Element) : total (e :: l) = e.size + total l := by
  simp [total]

@[simp] theorem total_append (l k : List Element) : total (l ++ k) = total l + total k := by
  simp [total]

/-- Whole elements hold as many octets as their sizes say. -/
theorem joined_length {l : List Element} (whole : ∀ e ∈ l, e.Whole) : (joined l).length = total l := by
  induction l with
  | nil => rfl
  | cons e l ih =>
    have first := (whole e List.mem_cons_self).length
    have rest := ih fun e there => whole e (List.mem_cons_of_mem _ there)
    rw [joined_cons, List.length_append, total_cons]
    omega

/-- The octets of a buffer that lost its first ones. -/
theorem Buffer.octets_advance (self : Buffer) (n : Nat) :
    (self.advance n).octets = self.octets.drop n := by
  unfold Buffer.octets Buffer.advance
  dsimp only
  rw [List.drop_take, List.drop_drop]
  by_cases within : n ≤ self.size
  · rw [Nat.min_eq_left within]
  · rw [show self.size - n = 0 by omega, List.take_zero, List.take_zero]

end Elements

namespace MultiBuffer

/-- Where the output ends, counted from the start of the element of `out_`. -/
def limit (self : MultiBuffer) : Nat := total self.outs_.dropLast + self.out_end_

/-- The octets that were committed and not consumed. -/
def content (self : MultiBuffer) : Octets :=
  (joined self.before_ ++ (joined self.outs_).take self.out_pos_).drop self.in_pos_

/-- The octets that may be written and committed. -/
def room (self : MultiBuffer) : Octets :=
  ((joined self.outs_).take self.limit).drop self.out_pos_

/-- What holds of the members between operations. -/
structure Valid (b : MultiBuffer) : Prop where
  whole : ∀ e ∈ b.list_, e.Whole
  front : ∀ e ∈ b.list_.head?, b.in_pos_ < e.size
  out : ∀ e ∈ b.outs_.head?, b.out_pos_ < e.size
  ended : b.outs_ = [] → b.out_pos_ = 0 ∧ b.out_end_ = 0
  back : ∀ e ∈ b.outs_.getLast?, b.out_end_ ≤ e.size
  order : b.before_ = [] → b.in_pos_ ≤ b.out_pos_
  last : ∀ e, b.outs_ = [e] → b.out_pos_ ≤ b.out_end_
  sized : b.in_size_ + b.in_pos_ = total b.before_ + b.out_pos_

/-- The input of elements in front of that of `out_` is what they hold, but for the first one. -/
theorem inputs {b : MultiBuffer} {l : List Element} {k : Nat} (whole : ∀ e ∈ l, e.Whole) (behind : 0 < k)
    (within : k + l.length ≤ b.before_.length) :
    bufferOctets ((l.zipIdx k).map fun (e, i) => b.inputOf i e) = joined l ∧
      buffer_size ((l.zipIdx k).map fun (e, i) => b.inputOf i e) = total l := by
  induction l generalizing k with
  | nil => exact ⟨rfl, rfl⟩
  | cons e l ih =>
    rw [List.length_cons] at within
    obtain ⟨octets, size⟩ := ih (fun e there => whole e (List.mem_cons_of_mem _ there))
      (Nat.succ_pos k) (by omega)
    have length := (whole e List.mem_cons_self).length
    have here : b.inputOf k e = Buffer.advance ⟨k, e.data, 0, e.size⟩ 0 := by
      unfold inputOf
      rw [if_neg (show k ≠ 0 by omega), if_pos]
      have other : k ≠ b.before_.length := by omega
      simp [other]
    simp only [List.zipIdx_cons, List.map_cons, here]
    constructor
    · rw [bufferOctets, List.flatMap_cons, Buffer.octets_advance, List.drop_zero, joined_cons, ← octets]
      simp [Buffer.octets, ← length, bufferOctets]
    · rw [total_cons, ← size]
      simp [buffer_size, Buffer.advance]

namespace Valid

variable {b : MultiBuffer} (valid : b.Valid)
include valid

theorem whole_before : ∀ e ∈ b.before_, e.Whole :=
  fun e there => valid.whole e (List.mem_append_left _ there)

theorem whole_outs : ∀ e ∈ b.outs_, e.Whole :=
  fun e there => valid.whole e (List.mem_append_right _ there)

/-- The output starts in front of where it ends, and ends within the elements. -/
theorem bounds : b.out_pos_ ≤ b.limit ∧ b.limit ≤ total b.outs_ := by
  unfold limit
  rcases List.eq_nil_or_concat b.outs_ with none_ | ⟨front, last, split⟩
  · obtain ⟨pos, stop⟩ := valid.ended none_
    rw [none_, pos, stop]
    exact ⟨Nat.le_refl _, Nat.le_refl _⟩
  · have back := valid.back last (by simp [split])
    rw [split, List.concat_eq_append, List.dropLast_concat, total_append, total_cons, total_nil]
    refine ⟨?_, by omega⟩
    cases front with
    | nil =>
      have single := valid.last last (by simpa using split)
      rw [total_nil]
      omega
    | cons e front =>
      have first := valid.out e (by simp [split])
      rw [total_cons]
      omega

/-- The output is as long as it should be. -/
theorem room_length : b.room.length = b.limit - b.out_pos_ := by
  have size := joined_length valid.whole_outs
  have bounds := valid.bounds
  rw [room, List.length_drop, List.length_take, size]
  omega

/-- The input is as long as it should be. -/
theorem content_length : b.content.length = b.in_size_ := by
  have size := joined_length valid.whole_before
  have size' := joined_length valid.whole_outs
  have bounds := valid.bounds
  have sized := valid.sized
  rw [content, List.length_drop, List.length_append, List.length_take, size, size']
  omega

/-- The first octets from the element of `out_` on lie in that element. -/
theorem taken {out : Element} {more : List Element} (outs : b.outs_ = out :: more) :
    (joined b.outs_).take b.out_pos_ = out.data.take b.out_pos_ := by
  have first := valid.out out (by simp [outs])
  have size := (valid.whole_outs out (by simp [outs])).length
  rw [outs, joined_cons, List.take_append_of_le_length (by omega)]

/-- The input of the element of `out_`. -/
theorem input_out {out : Element} {more : List Element} (outs : b.outs_ = out :: more) :
    (b.inputOf b.before_.length out).octets =
      ((joined b.outs_).take b.out_pos_).drop (if b.before_ = [] then b.in_pos_ else 0) ∧
    (b.inputOf b.before_.length out).size =
      b.out_pos_ - (if b.before_ = [] then b.in_pos_ else 0) := by
  have here : b.inputOf b.before_.length out = Buffer.advance ⟨b.before_.length, out.data, 0,
      b.out_pos_⟩ (if b.before_ = [] then b.in_pos_ else 0) := by
    unfold inputOf
    simp [outs]
  rw [here, Buffer.octets_advance, valid.taken outs]
  exact ⟨rfl, rfl⟩

/-- The buffers of the input hold what was committed and not consumed. -/
theorem data_content : bufferOctets b.data = b.content ∧ buffer_size b.data = b.in_size_ := by
  have sized := valid.sized
  have whole := valid.whole_before
  unfold data content
  cases before : b.before_ with
  | nil =>
    have order := valid.order before
    rw [before, total_nil] at sized
    cases outs : b.outs_ with
    | nil =>
      have ended := valid.ended outs
      simp [bufferOctets, buffer_size]
      omega
    | cons out more =>
      obtain ⟨octets, size⟩ := valid.input_out outs
      rw [before, if_pos rfl, outs] at octets
      rw [before, if_pos rfl] at size
      simp only [List.nil_append, List.take_succ_cons, List.take_zero, List.zipIdx_cons,
        List.zipIdx_nil, List.map_cons, List.map_nil, bufferOctets, buffer_size, List.flatMap_cons,
        List.flatMap_nil, List.append_nil, List.sum_cons, List.sum_nil, joined_nil]
      exact ⟨octets, by rw [show (b.inputOf 0 out).size = _ from size]; omega⟩
  | cons e before' =>
    have front := valid.front e (by simp [list_, before])
    have length := (whole e (by simp [before])).length
    -- The first element lost what was consumed of it.
    have first : b.inputOf 0 e = Buffer.advance ⟨0, e.data, 0, e.size⟩ b.in_pos_ := by
      unfold inputOf
      rw [if_pos rfl, if_pos]
      simp [before]
    obtain ⟨octets, size⟩ := inputs (k := 1)
      (fun e there => whole e (by rw [before]; exact List.mem_cons_of_mem _ there)) Nat.one_pos
      (show 1 + before'.length ≤ b.before_.length by rw [before, List.length_cons]; omega)
    -- The element of `out_` is there or not.
    have last : bufferOctets (((b.outs_.take 1).zipIdx (1 + before'.length)).map
          fun (e, i) => b.inputOf i e) = (joined b.outs_).take b.out_pos_ ∧
        buffer_size (((b.outs_.take 1).zipIdx (1 + before'.length)).map
          fun (e, i) => b.inputOf i e) = b.out_pos_ := by
      cases outs : b.outs_ with
      | nil => simp [bufferOctets, buffer_size, (valid.ended outs).1]
      | cons out more =>
        obtain ⟨octets, size⟩ := valid.input_out outs
        have place : b.before_.length = 1 + before'.length := by
          rw [before, List.length_cons]
          omega
        rw [place, if_neg (by simp [before])] at octets size
        rw [List.drop_zero, outs] at octets
        simp [bufferOctets, buffer_size, octets, size]
    have octets_first : (b.inputOf 0 e).octets = e.data.drop b.in_pos_ := by
      rw [first, Buffer.octets_advance]
      simp [Buffer.octets, ← length]
    have size_first : (b.inputOf 0 e).size = e.size - b.in_pos_ := by rw [first]; rfl
    rw [List.cons_append, List.zipIdx_cons, List.zipIdx_append, List.map_cons, List.map_append,
      joined_cons, List.append_assoc, List.drop_append_of_le_length (by omega)]
    rw [before, total_cons] at sized
    constructor
    · unfold bufferOctets at octets last ⊢
      rw [List.flatMap_cons, List.flatMap_append, octets, last.1, octets_first]
    · unfold buffer_size at size last ⊢
      rw [List.map_cons, List.sum_cons, List.map_append, List.sum_append, size, last.2, size_first]
      omega

end Valid

/-- The output of elements behind that of `out_` is what they hold, but for the end of the last. -/
theorem outputs {b : MultiBuffer} {l : List Element} {k : Nat} (whole : ∀ e ∈ l, e.Whole)
    (some_ : l ≠ []) (behind : b.before_.length < k) (within : k + l.length = b.list_.length) :
    bufferOctets ((l.zipIdx k).map fun (e, i) => b.outputOf i e) =
        (joined l).take (total l.dropLast + b.out_end_) ∧
      buffer_size ((l.zipIdx k).map fun (e, i) => b.outputOf i e) =
        total l.dropLast + b.out_end_ := by
  induction l generalizing k with
  | nil => exact absurd rfl some_
  | cons e l ih =>
    rw [List.length_cons] at within
    have length := (whole e List.mem_cons_self).length
    cases l with
    | nil =>
      rw [List.length_nil] at within
      have here : b.outputOf k e = Buffer.advance ⟨k, e.data, 0, b.out_end_⟩ 0 := by
        unfold outputOf
        rw [if_pos within, if_neg (show k ≠ b.before_.length by omega)]
      simp [bufferOctets, buffer_size, here, Buffer.octets, Buffer.advance]
    | cons next l =>
      obtain ⟨octets, size⟩ := ih (fun e there => whole e (List.mem_cons_of_mem _ there))
        (List.cons_ne_nil _ _) (by omega) (show k + 1 + (next :: l).length = _ by omega)
      have here : b.outputOf k e = Buffer.advance ⟨k, e.data, 0, e.size⟩ 0 := by
        unfold outputOf
        rw [List.length_cons] at within
        rw [if_neg (show ¬k + 1 = b.list_.length by omega), if_neg (show k ≠ b.before_.length by omega)]
      rw [List.dropLast_cons_cons, total_cons, joined_cons, Nat.add_assoc, ← length,
        List.take_length_add_append, ← octets, length, ← size, List.zipIdx_cons, List.map_cons]
      constructor
      · rw [bufferOctets, List.flatMap_cons]
        simp [here, Buffer.octets, Buffer.advance, ← length, bufferOctets]
      · simp [buffer_size, here, Buffer.advance]

namespace Valid

variable {b : MultiBuffer} (valid : b.Valid)
include valid

/-- The buffers of the output are the room that there is. -/
theorem output_room : bufferOctets b.output = b.room ∧
    buffer_size b.output = b.limit - b.out_pos_ := by
  have whole := valid.whole_outs
  unfold output room limit
  rcases outs : b.outs_ with _ | ⟨out, _ | ⟨next, more⟩⟩
  · simp [bufferOctets, buffer_size, valid.ended outs]
  · -- The output lies in one element.
    have here : b.outputOf b.before_.length out =
        Buffer.advance ⟨b.before_.length, out.data, 0, b.out_end_⟩ b.out_pos_ := by
      unfold outputOf
      rw [if_pos (by simp [list_, outs]), if_pos rfl]
    have octets_here : (b.outputOf b.before_.length out).octets =
        (out.data.take b.out_end_).drop b.out_pos_ := by
      rw [here, Buffer.octets_advance]
      rfl
    simp [bufferOctets, buffer_size, octets_here]
    simp [here, Buffer.advance]
  · have length := (whole out (by simp [outs])).length
    have first := valid.out out (by simp [outs])
    have here : b.outputOf b.before_.length out =
        Buffer.advance ⟨b.before_.length, out.data, 0, out.size⟩ b.out_pos_ := by
      unfold outputOf
      rw [if_neg (by simp [list_, outs]), if_pos rfl]
    obtain ⟨octets, size⟩ := @outputs b (next :: more) (b.before_.length + 1)
      (fun e there => whole e (by rw [outs]; exact List.mem_cons_of_mem _ there))
      (List.cons_ne_nil _ _) (Nat.lt_succ_self _) (by simp [list_, outs]; omega)
    have octets_here : (b.outputOf b.before_.length out).octets = out.data.drop b.out_pos_ := by
      rw [here, Buffer.octets_advance]
      simp [Buffer.octets, ← length]
    have size_here : (b.outputOf b.before_.length out).size = out.size - b.out_pos_ := by
      rw [here]
      rfl
    rw [List.dropLast_cons_cons, total_cons, joined_cons, Nat.add_assoc, ← length,
      List.take_length_add_append, List.drop_append_of_le_length (by omega), ← octets, length,
      List.zipIdx_cons, List.map_cons]
    constructor
    · rw [bufferOctets, List.flatMap_cons, octets_here]
      rfl
    · unfold buffer_size at size ⊢
      rw [List.map_cons, List.sum_cons, size, size_here]
      omega

/-- The members are as they must be. -/
theorem debug_check : b.debug_check = true := by
  have size := valid.data_content.2
  have sized := valid.sized
  unfold MultiBuffer.debug_check
  rw [size, beq_self_eq_true, Bool.true_and]
  rcases outs : b.outs_ with _ | ⟨out, more⟩
  · obtain ⟨pos, stop⟩ := valid.ended outs
    rcases before : b.before_ with _ | ⟨front, before'⟩
    · have order := valid.order before
      rw [before, total_nil] at sized
      simp only [list_, before, outs, List.append_nil, List.head?_nil, List.getLast?_nil]
      simp [pos, stop]
      omega
    · have first := valid.front front (by simp [list_, before])
      obtain ⟨last, there⟩ : ∃ last, (front :: before').getLast? = some last :=
        ⟨_, List.getLast?_eq_getLast_of_ne_nil (List.cons_ne_nil _ _)⟩
      simp [list_, before, outs, there, first, pos, stop]
  · obtain ⟨back, there⟩ : ∃ back, b.outs_.getLast? = some back := by
      rw [outs]
      exact ⟨_, List.getLast?_eq_getLast_of_ne_nil (List.cons_ne_nil _ _)⟩
    have last : b.list_.getLast? = some back := by
      rw [list_, List.getLast?_append, there]
      rfl
    obtain ⟨front, head⟩ : ∃ front, b.list_.head? = some front := by
      rw [list_, outs]
      cases b.before_ with
      | nil => exact ⟨_, rfl⟩
      | cons e before' => exact ⟨_, rfl⟩
    have first := valid.front front head
    have ends := valid.back back there
    have starts := valid.out out (by simp [outs])
    rw [last, head]
    dsimp only
    simp only [first, ends, starts, decide_true, Bool.true_and, Bool.and_eq_true, Bool.or_eq_true,
      Bool.not_eq_true', List.isEmpty_eq_false_iff, decide_eq_true_eq, beq_iff_eq]
    refine ⟨⟨?_, ?_⟩, ?_⟩
    · exact or_iff_not_imp_left.mpr fun none_ => valid.order (by simpa using none_)
    · refine or_iff_not_imp_left.mpr fun none_ => ?_
      have before : b.before_ = [] := by simpa using none_
      rw [before, total_nil] at sized
      omega
    · refine or_iff_not_imp_left.mpr fun none_ => valid.last out ?_
      rw [outs, show more = [] by simpa using none_]

end Valid

end MultiBuffer

end Beast
