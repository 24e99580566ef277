import Mathlib.Data.List.Basic
import Mathlib.Data.List.GetD
import Mathlib.Data.List.Induction
import Mathlib.Tactic.Common

/-! Elements that are kept in several lists, and their positions in all of them together. -/

namespace Chunks

variable {α β : Type} {xss : List (List α)} {i j p q : Nat}

/-- The number of elements in front of a list. -/
def off (xss : List (List α)) (i : Nat) : Nat := (xss.take i).flatten.length

/-- The number of elements of a list. -/
def width (xss : List (List α)) (i : Nat) : Nat := (xss.getD i []).length

@[simp] theorem off_zero : off xss 0 = 0 := by rw [off, List.take_zero, List.flatten_nil, List.length_nil]

theorem width_eq (inside : i < xss.length) : width xss i = xss[i].length := by
  rw [width, List.getD_eq_getElem _ _ inside]

/-- A list ends where the next one starts. -/
theorem off_succ (inside : i < xss.length) : off xss (i + 1) = off xss i + width xss i := by
  rw [off, List.take_succ_eq_append_getElem inside, List.flatten_append, List.length_append,
    List.flatten_singleton, width_eq inside, off]

theorem off_length : off xss xss.length = xss.flatten.length := by
  rw [off, List.take_length]

/-- Lists start in their order. -/
theorem off_mono (le : i ≤ j) : off xss i ≤ off xss j := by
  obtain ⟨rest, split⟩ : xss.take i <+: xss.take j := List.take_prefix_take_left le
  rw [off, off, ← split, List.flatten_append, List.length_append]
  exact Nat.le_add_right _ _

theorem off_le : off xss i ≤ xss.flatten.length := by
  conv_rhs => rw [← List.take_append_drop i xss, List.flatten_append, List.length_append]
  exact Nat.le_add_right _ _

/-- Where lists start does not depend on what lies behind them. -/
theorem off_append {yss : List (List α)} (within : i ≤ xss.length) :
    off (xss ++ yss) i = off xss i := by
  rw [off, List.take_append_of_le_length within, off]

/-- Lists of the same lengths start at the same positions. -/
theorem off_congr {yss : List (List β)} (same : xss.map List.length = yss.map List.length) :
    off xss i = off yss i := by
  rw [off, off, List.length_flatten, List.length_flatten, List.map_take, List.map_take, same]

theorem width_congr {yss : List (List β)} (same : xss.map List.length = yss.map List.length) :
    width xss i = width yss i := by
  have at_ : ∀ {γ : Type} (zss : List (List γ)), width zss i = (zss.map List.length).getD i 0 := by
    intro γ zss
    rw [width, List.getD_eq_getElem?_getD, List.getD_eq_getElem?_getD, List.getElem?_map]
    cases zss[i]? <;> rfl
  rw [at_, at_, same]

/-- The elements in front of a list, those of it, and those behind it. -/
theorem flatten_split (inside : i < xss.length) :
    xss.flatten = (xss.take i).flatten ++ (xss[i] ++ (xss.drop (i + 1)).flatten) := by
  rw [← List.flatten_cons, ← List.drop_eq_getElem_cons inside, ← List.flatten_append,
    List.take_append_drop]

/-- What lies behind a position within a list. -/
theorem drop_off (inside : i < xss.length) (within : p ≤ width xss i) :
    xss.flatten.drop (off xss i + p) = xss[i].drop p ++ (xss.drop (i + 1)).flatten := by
  rw [width_eq inside] at within
  rw [flatten_split inside, off, List.drop_length_add_append, List.drop_append_of_le_length within]

/-- What lies in front of a position within a list. -/
theorem take_off (inside : i < xss.length) (within : p ≤ width xss i) :
    xss.flatten.take (off xss i + p) = (xss.take i ++ [xss[i].take p]).flatten := by
  rw [width_eq inside] at within
  rw [flatten_split inside, off, List.take_length_add_append, List.take_append_of_le_length within,
    List.flatten_append, List.flatten_singleton]

/-! ## Windows -/

/-- The part of a list within a window, which starts in one list and ends in another. -/
def part (xss : List (List α)) (i p j q k : Nat) : List α :=
  ((xss.getD k []).take (if k = j then q else width xss k)).drop (if k = i then p else 0)

/-- Lists one after another. -/
theorem range'_map_getD (yss : List (List α)) (a : Nat) :
    (List.range' a (yss.length - a)).map (yss.getD · []) = yss.drop a := by
  refine List.ext_getElem (by simp) fun k left right => ?_
  rw [List.length_drop] at right
  rw [List.getElem_map, List.getElem_range', List.getElem_drop, Nat.one_mul,
    List.getD_eq_getElem _ _ (by omega)]

/-- The elements of a window are those between its two positions. -/
theorem window_eq (le : i ≤ j) (inside : j < xss.length) (within : q ≤ width xss j)
    (starts : p ≤ if i = j then q else width xss i) :
    ((List.range' i (j + 1 - i)).map (part xss i p j q)).flatten =
      (xss.flatten.take (off xss j + q)).drop (off xss i + p) := by
  rw [take_off inside within]
  have first : i < xss.length := by omega
  -- The lists up to the end of the window, of which the last one is cut off.
  generalize cut : xss.take j ++ [xss[j].take q] = yss
  have length : yss.length = j + 1 := by
    rw [← cut, List.length_append, List.length_take, List.length_singleton]
    omega
  have same : off xss i = off yss i := by
    rw [← cut, off_append (by rw [List.length_take]; omega), off, off, List.take_take,
      Nat.min_eq_left le]
  have at_ : ∀ k, k ≤ j → yss.getD k [] =
      (xss.getD k []).take (if k = j then q else width xss k) := by
    intro k within
    rw [← cut]
    rcases Nat.lt_or_eq_of_le within with lt | rfl
    · rw [List.getD_append _ _ _ _ (by rw [List.length_take]; omega), if_neg (by omega), width,
        List.take_length, List.getD_eq_getElem?_getD, List.getElem?_take_of_lt lt,
        ← List.getD_eq_getElem?_getD]
    · rw [List.getD_append_right _ _ _ _ (by rw [List.length_take]; omega), List.length_take,
        Nat.min_eq_left (by omega), Nat.sub_self, if_pos rfl, List.getD_eq_getElem _ _ inside]
      rfl
  have here : i < yss.length := by omega
  have reaches : p ≤ width yss i := by
    rw [width, at_ i le, List.length_take]
    by_cases last : i = j
    · rw [if_pos last] at starts ⊢
      rw [← width, last]
      omega
    · rw [if_neg last] at starts ⊢
      rw [← width]
      omega
  rw [same, drop_off here reaches, show j + 1 - i = (j - i) + 1 by omega, List.range'_succ,
    List.map_cons, List.flatten_cons]
  have rest : (List.range' (i + 1) (j - i)).map (part xss i p j q) = yss.drop (i + 1) := by
    rw [← range'_map_getD, length, show j + 1 - (i + 1) = j - i by omega]
    refine List.map_congr_left fun k there => ?_
    rw [List.mem_range'_1] at there
    rw [part, if_neg (by omega : k ≠ i), List.drop_zero, at_ k (by omega)]
  rw [rest, part, if_pos rfl, ← at_ i le, List.getD_eq_getElem _ _ here]

/-! ## Positions -/

/-- The elements of each list, by the list and the position within it. -/
def places (xss : List (List α)) : List (List (Nat × Nat)) :=
  xss.mapIdx fun i xs => (List.range xs.length).map fun j => (i, j)

/-- The element at a place. -/
def get (xss : List (List α)) (s : Nat × Nat) : Option α := (xss[s.1]?).bind (·[s.2]?)

/-- Sets the element at a place. -/
def set (xss : List (List α)) (s : Nat × Nat) (x : α) : List (List α) :=
  xss.modify s.1 fun xs => xs.set s.2 x

/-- There are as many places in each list as elements. -/
theorem places_lengths : (places xss).map List.length = xss.map List.length := by
  refine List.ext_getElem (by simp [places]) fun i left right => ?_
  simp [places]

theorem places_append (xs : List α) : places (xss ++ [xs]) =
    places xss ++ [(List.range xs.length).map fun j => (xss.length, j)] := by
  rw [places, List.mapIdx_append, List.mapIdx_cons, List.mapIdx_nil, Nat.zero_add, places]

theorem places_length : (places xss).length = xss.length := List.length_mapIdx

theorem places_flatten_length : (places xss).flatten.length = xss.flatten.length := by
  rw [List.length_flatten, List.length_flatten, places_lengths]

/-- The places depend on the lengths only. -/
theorem places_congr {yss : List (List α)} (same : xss.map List.length = yss.map List.length) :
    places xss = places yss := by
  have length : xss.length = yss.length := by
    simpa only [List.length_map] using congrArg List.length same
  refine List.ext_getElem (by rw [places_length, places_length, length]) fun i left right => ?_
  rw [places_length] at left right
  have here : xss[i].length = yss[i].length := by
    rw [← width_eq left, ← width_eq right, width_congr same]
  simp only [places, List.getElem_mapIdx, here]

/-- The elements at the places, one after another. -/
theorem map_get_places : (places xss).flatten.map (get xss) = xss.flatten.map some := by
  have rows : (places xss).map (List.map (get xss)) = xss.map (List.map some) := by
    refine List.ext_getElem (by simp [places]) fun i left right => ?_
    have inside : i < xss.length := by simpa using right
    refine List.ext_getElem (by simp [places]) fun j left right => ?_
    simp only [places, List.getElem_map, List.getElem_mapIdx, List.getElem_range, get,
      List.getElem?_eq_getElem inside, Option.bind_some]
    exact List.getElem?_eq_getElem _
  rw [List.map_flatten, rows, List.map_flatten]

/-- A list of places has the positions in their order. -/
theorem places_positions :
    (places xss).flatten.map (fun s => off xss s.1 + s.2) = List.range xss.flatten.length := by
  induction xss using List.reverseRecOn with
  | nil => rfl
  | append_singleton xss xs ih =>
    -- The places so far keep their positions.
    have front : (places xss).flatten.map (fun s => off (xss ++ [xs]) s.1 + s.2) =
        (places xss).flatten.map fun s => off xss s.1 + s.2 := by
      refine List.map_congr_left fun s there => ?_
      obtain ⟨row, inside, there⟩ := List.mem_flatten.mp there
      obtain ⟨i, within, rfl⟩ := List.mem_mapIdx.mp inside
      obtain ⟨j, -, rfl⟩ := List.mem_map.mp there
      rw [off_append (Nat.le_of_lt within)]
    rw [places_append, List.flatten_append, List.flatten_singleton, List.map_append, front, ih,
      List.flatten_append, List.flatten_singleton, List.length_append, List.range_add,
      List.map_map]
    refine congrArg _ (List.map_congr_left fun j _ => ?_)
    show off (xss ++ [xs]) xss.length + j = _
    rw [off_append (Nat.le_refl _), off_length]

/-- Setting an element within a list sets it at its position. -/
theorem flatten_set (inside : i < xss.length) (within : j < width xss i) (x : α) :
    (set xss (i, j) x).flatten = xss.flatten.set (off xss i + j) x := by
  rw [width_eq inside] at within
  rw [set, List.modify_eq_take_cons_drop inside, List.flatten_append, List.flatten_cons]
  rw [flatten_split inside, off, List.set_append_right _ _ (Nat.le_add_right _ _),
    Nat.add_sub_cancel_left, List.set_append_left _ _ within]

/-- Setting an element changes no length. -/
theorem set_lengths (s : Nat × Nat) (x : α) : (set xss s x).map List.length = xss.map List.length := by
  refine List.ext_getElem (by simp [set]) fun k left right => ?_
  simp only [set, List.getElem_map, List.getElem_modify]
  split <;> simp

/-- Setting the element at one of the places sets it at the position of that place. -/
theorem flatten_set_place {s : Nat × Nat} (at_ : (places xss).flatten[p]? = some s) (x : α) :
    (set xss s x).flatten = xss.flatten.set p x := by
  obtain ⟨row, inside, there⟩ := List.mem_flatten.mp (List.mem_of_getElem? at_)
  obtain ⟨i, within, rfl⟩ := List.mem_mapIdx.mp inside
  obtain ⟨j, below, rfl⟩ := List.mem_map.mp there
  rw [List.mem_range] at below
  -- The place is the one of its position.
  have position : off xss i + j = p := by
    have mapped := congrArg (·[p]?) (@places_positions _ xss)
    simp only [List.getElem?_map, at_, Option.map_some] at mapped
    have bound : p < xss.flatten.length := by
      rw [← places_flatten_length]
      exact (List.getElem?_eq_some_iff.mp at_).1
    rw [List.getElem?_range bound] at mapped
    exact Option.some.inj mapped
  rw [flatten_set within (by rw [width_eq within]; exact below), position]

end Chunks
