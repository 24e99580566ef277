import Beast.Core.CiCharTraits
import Mathlib.Tactic.Ring

/-! The window that keeps the last octets of the output, for what is copied from further back. -/

namespace Beast.Zlib

/-- The memory of the window, the place where it is written next, and how much of it is in use. -/
structure Window where
  p_ : Nat → UInt8
  i_ : Nat
  size_ : Nat
  capacity_ : Nat

/-- So many octets of memory, from some place on. -/
def fetch (p : Nat → UInt8) (i n : Nat) : Octets := (List.range' i n).map p

@[simp] theorem length_fetch (p : Nat → UInt8) (i n : Nat) : (fetch p i n).length = n := by
  simp [fetch]

/-- So many octets, from so far behind the place of the next one on. -/
def Window.read (w : Window) (pos n : Nat) : Octets :=
  let behind := (w.i_ + 2 ^ 64 - pos) % 2 ^ 64
  -- Where the window is contiguous, it ends at the place that is written next.
  if w.size_ ≤ w.i_ then fetch w.p_ behind n
  else
    let i := (behind + w.capacity_) % 2 ^ 64 % w.capacity_
    let m := w.capacity_ - i
    if n ≤ m then fetch w.p_ i n
    else fetch w.p_ i m ++ fetch w.p_ 0 (n - m)

/-- As many octets are read as are asked for. -/
@[simp] theorem Window.length_read (w : Window) (pos n : Nat) : (w.read pos n).length = n := by
  rw [read]
  split
  · exact length_fetch _ _ _
  · -- What does not fit before the end of memory is read from its start.
    simp only
    split
    · exact length_fetch _ _ _
    · rw [List.length_append, length_fetch, length_fetch]
      omega

/-- Memory with octets put at a place and behind it. -/
def store (p : Nat → UInt8) (i : Nat) (xs : Octets) : Nat → UInt8 := fun q =>
  if i ≤ q ∧ q < i + xs.length then xs.getD (q - i) 0 else p q

/-- The window with the number of bits that it was made for, and whether it has memory. -/
structure HistoryWindow extends Window where
  bits_ : Nat
  allocated : Bool

namespace HistoryWindow

/-- A window that was not set up yet. -/
def init : HistoryWindow where
  p_ := fun _ => 0
  i_ := 0
  size_ := 0
  capacity_ := 0
  bits_ := 0
  allocated := false

/-- Nothing is in the window any more. The memory stays for windows of one size. -/
def reset (w : HistoryWindow) (bits : Nat) : HistoryWindow :=
  let w := if w.bits_ ≠ bits then
      { w with allocated := false, bits_ := bits % 2 ^ 8, capacity_ := 2 ^ (bits % 2 ^ 8) % 2 ^ 16 }
    else w
  { w with i_ := 0, size_ := 0 }

/-- There is memory, which holds anything where it is new. -/
def allocate (w : HistoryWindow) (fresh : Nat → UInt8) : HistoryWindow :=
  if w.allocated then w else { w with p_ := fresh, allocated := true }

/-- Octets are put behind those in the window. -/
def write (w : HistoryWindow) (fresh : Nat → UInt8) (xs : Octets) : HistoryWindow :=
  let w := w.allocate fresh
  let n := xs.length
  if w.capacity_ ≤ n then
    { w with
      p_ := store w.p_ 0 ((xs.drop (n - w.capacity_)).take w.capacity_)
      i_ := 0
      size_ := w.capacity_ }
  else if w.i_ + n ≤ w.capacity_ then
    { w with
      p_ := store w.p_ w.i_ xs
      i_ := (w.i_ + n) % w.capacity_ % 2 ^ 16
      size_ := if w.capacity_ - n ≤ w.size_ then w.capacity_ else (w.size_ + n) % 2 ^ 16 }
  else
    -- What does not fit before the end of memory is put at its start.
    let m := w.capacity_ - w.i_
    let i := (n - m) % 2 ^ 16
    { w with
      p_ := store (store w.p_ w.i_ (xs.take m)) 0 ((xs.drop m).take i)
      i_ := i
      size_ := w.capacity_ }

end HistoryWindow

/-- What is done to a window: it is set up for so many bits, or octets are written. -/
inductive WindowOp where
  | reset (bits : Nat) (valid : 8 ≤ bits ∧ bits ≤ 15)
  | write (fresh : Nat → UInt8) (xs : Octets)

/-- One call. -/
def HistoryWindow.call (w : HistoryWindow) : WindowOp → HistoryWindow
  | .reset bits _ => w.reset bits
  | .write fresh xs => w.write fresh xs

end Beast.Zlib
