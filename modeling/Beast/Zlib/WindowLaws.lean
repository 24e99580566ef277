import Beast.Lib.Ring
import Beast.Zlib.Window
import Mathlib.Data.List.GetD

/-! The window holds the last octets that were written to it, and a copy reads those that it is to read. -/

namespace Beast.Zlib

variable {p : Nat → UInt8} {cap i n : Nat} {h xs : Octets} {w : HistoryWindow} {bits : Nat}

theorem store_own {j : Nat} (inside : j < xs.length) : xs[j]? = some (store p i xs (i + j)) := by
  rw [store, if_pos (by omega), Nat.add_sub_cancel_left, List.getD_eq_getElem _ _ inside]
  exact List.getElem?_eq_getElem inside

theorem store_others {q : Nat} (outside : q < i ∨ i + xs.length ≤ q) : store p i xs q = p q := by
  rw [store, if_neg (by omega)]

/-- Octets that fit before the end of memory are put at a place and behind it. -/
theorem put_store (fits : i + xs.length ≤ cap) : Ring.Put p (store p i xs) cap i xs := by
  refine ⟨fun j inside => ?_, fun q low apart => store_others ?_⟩
  · rw [Ring.behind, if_pos (by omega)]
    exact store_own inside
  · by_contra covered
    refine apart (q - i) (by omega) ?_
    rw [Ring.behind, if_pos (by omega)]
    omega

/-- Octets that do not fit are put at the end of memory and at its start. -/
theorem put_wrapped (inside : i < cap) (long : cap < i + xs.length) (few : xs.length < cap) :
    Ring.Put p (store (store p i (xs.take (cap - i))) 0 (xs.drop (cap - i))) cap i xs := by
  have front : (xs.take (cap - i)).length = cap - i := by
    rw [List.length_take]
    omega
  have back : (xs.drop (cap - i)).length = xs.length - (cap - i) := List.length_drop
  refine ⟨fun j less => ?_, fun q low apart => ?_⟩
  · rw [Ring.behind]
    split
    · rw [store_others (by omega), ← store_own (by omega), List.getElem?_take_of_lt (by omega)]
    · -- This octet is at the start of memory.
      have own := store_own (p := store p i (xs.take (cap - i))) (i := 0)
        (by omega : j - (cap - i) < (xs.drop (cap - i)).length)
      rw [List.getElem?_drop] at own
      rw [(by omega : i + j - cap = 0 + (j - (cap - i))), ← own]
      congr 1
      omega
  · have high : xs.length - (cap - i) ≤ q := by
      by_contra low'
      refine apart (q + (cap - i)) (by omega) ?_
      rw [Ring.behind, if_neg (by omega)]
      omega
    have first : q < i := by
      by_contra high'
      refine apart (q - i) (by omega) ?_
      rw [Ring.behind, if_pos (by omega)]
      omega
    rw [store_others (by omega), store_others (by omega)]

/-- A window keeps the last octets of a text, and starts at the start of its memory until it is full. -/
structure HistoryWindow.Keeps (w : HistoryWindow) (bits : Nat) (h : Octets) : Prop where
  valid : 8 ≤ bits ∧ bits ≤ 15
  capacity : w.capacity_ = 2 ^ bits
  size : w.size_ = min h.length w.capacity_
  holds : Ring.Holds w.p_ w.capacity_ w.i_ h w.size_
  filling : w.size_ < w.capacity_ → w.i_ = w.size_
  /-- Memory is only missing where nothing was written. -/
  empty : w.allocated = false → w.size_ = 0

/-- The capacity of a window is made for its bits. -/
def HistoryWindow.Made (w : HistoryWindow) : Prop :=
  8 ≤ w.bits_ ∧ w.bits_ ≤ 15 → w.capacity_ = 2 ^ w.bits_

/-- Powers of two that a window can have. -/
theorem capacity_bounds (valid : 8 ≤ bits ∧ bits ≤ 15) : 2 ^ 8 ≤ 2 ^ bits ∧ 2 ^ bits ≤ 2 ^ 15 :=
  ⟨Nat.pow_le_pow_right (by decide) valid.1, Nat.pow_le_pow_right (by decide) valid.2⟩

namespace HistoryWindow

/-- What a window holds does not depend on memory where it holds nothing. -/
theorem holds_fresh (inside : i < cap) (p : Nat → UInt8) (h : Octets) : Ring.Holds p cap i h 0 :=
  ⟨inside, Nat.zero_le _, Nat.zero_le _, fun _ _ _ => by omega⟩

/-- A window that was set up is empty. -/
theorem Made.reset (made : w.Made) (valid : 8 ≤ bits ∧ bits ≤ 15) :
    (w.reset bits).Keeps bits [] ∧ (w.reset bits).Made := by
  have bounds := capacity_bounds valid
  have small : bits % 2 ^ 8 = bits := Nat.mod_eq_of_lt (by omega)
  have capacity : (w.reset bits).capacity_ = 2 ^ bits ∧ (w.reset bits).bits_ = bits := by
    rw [HistoryWindow.reset]
    split
    · rw [small]
      exact ⟨Nat.mod_eq_of_lt (by omega), rfl⟩
    · rename_i same
      have same : w.bits_ = bits := Decidable.not_not.mp same
      exact ⟨by rw [← same] at valid ⊢; exact made valid, same⟩
  have start : (w.reset bits).i_ = 0 ∧ (w.reset bits).size_ = 0 := ⟨rfl, rfl⟩
  refine ⟨⟨valid, capacity.1, ?_, ?_, ?_, fun _ => start.2⟩, fun _ => by rw [capacity.1, capacity.2]⟩
  · rw [start.2]
    exact (Nat.zero_min _).symm
  · rw [start.1, start.2]
    exact holds_fresh (by omega) _ _
  · rw [start.1, start.2]
    exact fun _ => rfl

/-- Memory that is needed is there, and the window keeps what it kept. -/
theorem Keeps.allocate (keeps : w.Keeps bits h) (fresh : Nat → UInt8) :
    (w.allocate fresh).Keeps bits h ∧ (w.allocate fresh).allocated = true := by
  rw [HistoryWindow.allocate]
  cases allocated : w.allocated with
  | true => exact ⟨by simpa using keeps, by simpa using allocated⟩
  | false =>
    have none := keeps.empty allocated
    refine ⟨⟨keeps.valid, keeps.capacity, keeps.size, ?_, keeps.filling, fun _ => none⟩, rfl⟩
    have inside := keeps.holds.inside
    rw [none]
    exact holds_fresh inside _ _

/-- What is written is kept behind what was kept before. -/
theorem Keeps.write (keeps : w.Keeps bits h) (fresh : Nat → UInt8) (xs : Octets) :
    (w.write fresh xs).Keeps bits (h ++ xs) := by
  obtain ⟨keeps, allocated⟩ := keeps.allocate fresh
  rw [HistoryWindow.write]
  obtain ⟨w, same⟩ : ∃ w', w.allocate fresh = w' := ⟨_, rfl⟩
  rw [same] at keeps allocated ⊢
  dsimp only
  obtain ⟨valid, capacity, size, holds, filling, -⟩ := keeps
  have bounds := capacity_bounds valid
  have inside := holds.inside
  have total : (h ++ xs).length = h.length + xs.length := List.length_append
  rw [← capacity] at bounds
  split
  · -- The octets fill the whole window.
    rename_i enough
    refine ⟨valid, capacity, by dsimp only; omega, ?_, fun open_ => absurd open_ (Nat.lt_irrefl _),
      fun none => by rw [allocated] at none; cases none⟩
    have last : ((xs.drop (xs.length - w.capacity_)).take w.capacity_).length = w.capacity_ := by
      rw [List.length_take, List.length_drop]
      omega
    dsimp only
    refine Ring.holds_all (by omega) h enough fun j low => ?_
    have own := store_own (p := w.p_) (i := 0) (by omega :
      j < ((xs.drop (xs.length - w.capacity_)).take w.capacity_).length)
    rw [List.getElem?_take_of_lt low, List.getElem?_drop, Nat.zero_add] at own
    exact own
  · rename_i few
    have few := Nat.lt_of_not_le few
    split
    · -- They fit before the end of memory.
      rename_i fits
      have put := holds.put (put_store fits) few
      rw [← Ring.behind_mod inside (Nat.le_of_lt few)] at put
      have place := Nat.mod_lt (w.i_ + xs.length) (by omega : 0 < w.capacity_)
      have small : (w.i_ + xs.length) % w.capacity_ % 2 ^ 16 = (w.i_ + xs.length) % w.capacity_ :=
        Nat.mod_eq_of_lt (by omega)
      have size' : (if w.capacity_ - xs.length ≤ w.size_ then w.capacity_ else (w.size_ + xs.length) % 2 ^ 16) =
          min (w.size_ + xs.length) w.capacity_ := by
        split
        · omega
        · rw [Nat.mod_eq_of_lt (by omega)]
          omega
      refine ⟨valid, capacity, ?_, ?_, ?_, fun none => by rw [allocated] at none; cases none⟩
      · dsimp only
        omega
      · dsimp only
        rw [small, size']
        exact put
      · dsimp only
        rw [small, size']
        intro open_
        have same := filling (by omega)
        rw [Nat.mod_eq_of_lt (by omega)]
        omega
    · -- They wrap.
      rename_i long
      have back : ((xs.drop (w.capacity_ - w.i_)).take ((xs.length - (w.capacity_ - w.i_)) % 2 ^ 16)) =
          xs.drop (w.capacity_ - w.i_) := by
        rw [Nat.mod_eq_of_lt (by omega)]
        exact List.take_of_length_le (Nat.le_of_eq List.length_drop)
      have put := holds.put (put_wrapped inside (by omega) few) few
      have full : min (w.size_ + xs.length) w.capacity_ = w.capacity_ := by
        rcases Nat.lt_or_ge w.size_ w.capacity_ with open_ | closed
        · have same := filling open_
          omega
        · omega
      have place : Ring.behind w.capacity_ w.i_ xs.length = (xs.length - (w.capacity_ - w.i_)) % 2 ^ 16 := by
        rw [Nat.mod_eq_of_lt (by omega), Ring.behind, if_neg (by omega)]
        omega
      rw [full, place] at put
      refine ⟨valid, capacity, by dsimp only; omega, ?_, fun open_ => absurd open_ (Nat.lt_irrefl _),
        fun none => by rw [allocated] at none; cases none⟩
      dsimp only
      rw [back]
      exact put

/-- Octets in memory, from the one at a place on. -/
theorem fetch_eq (p : Nat → UInt8) (i n : Nat) : fetch p i n = (List.range n).map fun j => p (i + j) := by
  rw [fetch, List.range'_eq_map_range, List.map_map]
  rfl

/-- What is read are the octets from so far in front of the end of the text on. -/
theorem Keeps.read (keeps : w.Keeps bits h) {pos : Nat} (some_ : 1 ≤ n) (few : n ≤ pos) (last : pos ≤ w.size_) :
    w.toWindow.read pos n = (h.drop (h.length - pos)).take n := by
  obtain ⟨valid, capacity, -, holds, filling, -⟩ := keeps
  have bounds := capacity_bounds valid
  have inside := holds.inside
  have most := holds.most
  rw [← holds.slice few last]
  rw [← capacity] at bounds
  rw [Window.read]
  dsimp only
  split
  · -- The window is contiguous, and nothing wraps.
    rename_i contiguous
    rw [fetch_eq]
    refine List.map_congr_left fun j member => ?_
    have low := List.mem_range.mp member
    rw [Ring.before, if_pos (by omega), Ring.behind, if_pos (by omega)]
    congr 1
    omega
  · have place : ((w.i_ + 2 ^ 64 - pos) % 2 ^ 64 + w.capacity_) % 2 ^ 64 % w.capacity_ =
        Ring.before w.capacity_ w.i_ pos := by
      rw [← Ring.before_mod inside (by omega) (by omega)]
      congr 1
      omega
    rw [place]
    have inside' := Ring.before_lt inside (by omega : 1 ≤ pos) (by omega)
    obtain ⟨start, start_⟩ : ∃ start, Ring.before w.capacity_ w.i_ pos = start := ⟨_, rfl⟩
    rw [start_] at inside' ⊢
    split
    · rw [fetch_eq]
      refine List.map_congr_left fun j member => ?_
      have low := List.mem_range.mp member
      rw [Ring.behind, if_pos (by omega)]
    · -- The octets behind the end of memory are at its start.
      rename_i wraps
      rw [(by omega : n = (w.capacity_ - start) + (n - (w.capacity_ - start))), List.range_add, List.map_append,
        fetch_eq, fetch_eq, List.map_map]
      rw [(by omega : w.capacity_ - start + (n - (w.capacity_ - start)) - (w.capacity_ - start) =
        n - (w.capacity_ - start))]
      congr 1
      · refine List.map_congr_left fun j member => ?_
        have low := List.mem_range.mp member
        rw [Ring.behind, if_pos (by omega)]
      · refine List.map_congr_left fun j _ => ?_
        rw [Function.comp_apply, Ring.behind, if_neg (by omega)]
        congr 1
        omega

/-- A call leaves the capacity of a window made for its bits. -/
theorem Made.call (made : w.Made) (op : WindowOp) : (w.call op).Made := by
  cases op with
  | reset bits valid => exact (made.reset valid).2
  | write fresh xs =>
    have memory : (w.allocate fresh).Made := by
      rw [allocate]
      split
      · exact made
      · exact made
    rw [HistoryWindow.call, HistoryWindow.write]
    dsimp only
    split
    · exact memory
    · split
      · exact memory
      · exact memory

end HistoryWindow

/-- All that is written by some calls. -/
def written (writes : List ((Nat → UInt8) × Octets)) : Octets := (writes.map Prod.snd).flatten

namespace HistoryWindow

/-- A window after some calls that is set up, and to which octets are written, one call after another. -/
def after (before : List WindowOp) (bits : Nat) (writes : List ((Nat → UInt8) × Octets)) : HistoryWindow :=
  writes.foldl (fun w x => w.write x.1 x.2) ((before.foldl call init).reset bits)

/-- Every window that is reached by calls has a capacity that is made for its bits. -/
theorem made_calls (ops : List WindowOp) (made : w.Made) : (ops.foldl call w).Made := by
  induction ops generalizing w with
  | nil => exact made
  | cons op ops ih => exact ih (made.call op)

/-- All that is written is kept. -/
theorem Keeps.writes (keeps : w.Keeps bits h) (writes : List ((Nat → UInt8) × Octets)) :
    (writes.foldl (fun w x => w.write x.1 x.2) w).Keeps bits (h ++ written writes) := by
  induction writes generalizing w h with
  | nil => simpa [written] using keeps
  | cons x writes ih =>
    have kept := ih (keeps.write x.1 x.2)
    rw [List.append_assoc] at kept
    exact kept

end HistoryWindow

/-- Whatever was done to a window before it was set up, it is the history of what was written since: it has the size of
that, up to its capacity, and what is read from so far in front of the end was written there. -/
theorem window_is_history (before : List WindowOp) {bits : Nat} (valid : 8 ≤ bits ∧ bits ≤ 15)
    (writes : List ((Nat → UInt8) × Octets)) :
    (HistoryWindow.after before bits writes).capacity_ = 2 ^ bits ∧
      (HistoryWindow.after before bits writes).size_ =
        min (written writes).length (HistoryWindow.after before bits writes).capacity_ ∧
      ∀ pos n, 1 ≤ n → n ≤ pos → pos ≤ (HistoryWindow.after before bits writes).size_ →
        (HistoryWindow.after before bits writes).toWindow.read pos n =
          ((written writes).drop ((written writes).length - pos)).take n := by
  have made : HistoryWindow.init.Made := fun wrong => absurd wrong.1 (by decide)
  have keeps := ((HistoryWindow.made_calls before made).reset valid).1.writes writes
  rw [List.nil_append] at keeps
  exact ⟨keeps.capacity, keeps.size, fun pos n some_ few last => keeps.read some_ few last⟩

/-- A text of 250 and of ten octets. -/
def twoWrites : List ((Nat → UInt8) × Octets) :=
  [(fun _ => 0, List.replicate 250 1), (fun _ => 0, List.replicate 10 2)]

set_option maxRecDepth 2000 in
/-- A window of 256 octets, whose last octets are at both ends of its memory. -/
theorem window_is_history_wrapped :
    (HistoryWindow.after [.reset 9 (by decide)] 8 twoWrites).toWindow.read 12 6 = [1, 1, 2, 2, 2, 2] :=
  ((window_is_history [.reset 9 (by decide)] (by decide) twoWrites).2.2 12 6 (by decide) (by decide)
    (by decide)).trans (by decide)

end Beast.Zlib
