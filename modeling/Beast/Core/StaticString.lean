import Beast.Lib.Step
import Mathlib.Tactic.Ring

/-! Strings of characters in an array of fixed size, and what `std::string` would make of them. -/

namespace Beast

/-- Characters in an array with room for `N` of them and a null, and how many are in use. -/
structure StaticString (N : Nat) (α : Type) where
  n_ : Nat
  s_ : List α
  fixed : s_.length = N + 1

namespace StaticString

/-- Why an operation does not return: what it throws, or what the language does not define. -/
inductive Halt
  | length_error
  | out_of_range
  /-- An access outside of an array. -/
  | fault
  /-- A signed number that is too large. -/
  | overflow
  deriving DecidableEq, Repr

abbrev StringStep (N : Nat) (α : Type) := Step Halt (StaticString N α)

variable {N M : Nat} {α : Type}

/-- The characters in use. -/
def content (s : StaticString N α) : List α := s.s_.take s.n_

/-- A string that is no longer than it may be, and has a null behind its characters. -/
structure Valid [Zero α] (s : StaticString N α) : Prop where
  short : s.n_ ≤ N
  null : s.s_[s.n_]? = some 0

/-! ## The array -/

/-- Writes characters to the array. -/
def place (i : Nat) (l : List α) : StringStep N α Unit := fun s =>
  if fits : i + l.length ≤ N + 1 then
    (.ok (), { s with
      s_ := s.s_.take i ++ l ++ s.s_.drop (i + l.length)
      fixed := by
        have size := s.fixed
        simp only [List.length_append, List.length_take, List.length_drop]
        omega })
  else (.error .fault, s)

/-- Writes one character so many times. -/
def fill (i n : Nat) (ch : α) : StringStep N α Unit :=
  if i + n ≤ N + 1 then place i (List.replicate n ch) else Step.stop .fault

/-- Reads characters from an array. -/
def chars (str : StaticString M α) (i n : Nat) : StringStep N α (List α) :=
  if i + n ≤ M + 1 then return (str.s_.drop i).take n else Step.stop .fault

/-- Copies characters within the array, also where the two places overlap. -/
def move (dst src n : Nat) : StringStep N α Unit := do
  let l ← chars (← get) src n
  place dst l

/-- Sets the number of characters. -/
def setSize (n : Nat) : StringStep N α Unit := modify fun s => { s with n_ := n }

/-- Writes a null behind the characters. -/
def term [Zero α] : StringStep N α Unit := do place (← get).n_ [0]

/-- The number of characters in front of the first null. -/
def length [Zero α] [DecidableEq α] (s : List α) : Nat := (s.takeWhile (· ≠ 0)).length

/-- A part of a string, as `substr` gives it. -/
def part (str : StaticString M α) (pos count : Nat) : StringStep N α (List α) :=
  if str.n_ < pos then Step.stop .out_of_range else chars str pos (min count (str.n_ - pos))

/-- A part of a view, as its own `substr` gives it. -/
def viewPart (s : List α) (pos count : Nat) : StringStep N α (List α) :=
  if s.length < pos then Step.stop .out_of_range else return (s.drop pos).take count

/-! ## Operations -/

variable [Zero α]

/-- A string without characters, in memory that holds something. -/
def construct (mem : Nat → α) : StaticString N α where
  n_ := 0
  s_ := 0 :: (List.range N).map mem
  fixed := by rw [List.length_cons, List.length_map, List.length_range]

def assignFill (count : Nat) (ch : α) : StringStep N α Unit := do
  if N < count then Step.stop .length_error
  else
    setSize count
    fill 0 count ch
    term

/-- Assigns so many characters from a pointer on. -/
def assignChars (s : List α) : StringStep N α Unit := do
  if N < s.length then Step.stop .length_error
  else
    setSize s.length
    place 0 s
    term

/-- Copies what is in use of another string, with the null. -/
def takeOver (str : StaticString M α) : StringStep N α Unit := do
  setSize str.n_
  let l ← chars str 0 (str.n_ + 1)
  place 0 l

def assignCopy (str : StaticString N α) : StringStep N α Unit := takeOver str

def assignString (str : StaticString M α) : StringStep N α Unit := do
  let l ← chars str 0 str.n_
  assignChars l

def assignSubstring (str : StaticString M α) (pos count : Nat) : StringStep N α Unit := do
  let ss ← part str pos count
  assignChars ss

def assignCString [DecidableEq α] (s : List α) : StringStep N α Unit :=
  assignChars (s.take (length s))

/-- Assigns what lies between two iterators, one character after another. -/
def assignRange (s : List α) : StringStep N α Unit := do
  if N < s.length then Step.stop .length_error
  else
    setSize s.length
    place 0 s
    term

def assignView (s : List α) : StringStep N α Unit := assignChars s

def assignConvertible (s : List α) (pos count : Nat) : StringStep N α Unit := do
  let sv ← viewPart s pos count
  if N < sv.length then Step.stop .length_error
  else
    setSize sv.length
    place 0 sv
    term

def assign_char (ch : α) : StringStep N α Unit := do
  if N = 0 then Step.stop .length_error
  else
    setSize 1
    place 0 [ch]
    term

/-- Makes room for so many characters at a place. -/
def shift (index count : Nat) : StringStep N α Unit := do
  let size := (← get).n_
  move ((index + count) % 2 ^ 64) index (size - index)
  setSize ((size + count) % 2 ^ 64)

def insertFillAt (pos count : Nat) (ch : α) : StringStep N α Nat := do
  if N < ((← get).n_ + count) % 2 ^ 64 then Step.stop .length_error
  else
    shift pos count
    fill pos count ch
    term
    return pos

def insertCharAt (pos : Nat) (ch : α) : StringStep N α Nat := insertFillAt pos 1 ch

def insertFill (index count : Nat) (ch : α) : StringStep N α Unit := do
  if (← get).n_ < index then Step.stop .out_of_range
  else discard (insertFillAt index count ch)

def insertChars (index : Nat) (s : List α) : StringStep N α Unit := do
  if (← get).n_ < index then Step.stop .out_of_range
  else if N < ((← get).n_ + s.length) % 2 ^ 64 then Step.stop .length_error
  else
    shift index s.length
    place index s
    term

def insertCString [DecidableEq α] (index : Nat) (s : List α) : StringStep N α Unit :=
  insertChars index (s.take (length s))

def insertString (index : Nat) (str : StaticString M α) : StringStep N α Unit := do
  let l ← chars str 0 str.n_
  insertChars index l

def insertSubstring (index : Nat) (str : StaticString M α) (index_str count : Nat) :
    StringStep N α Unit := do
  let ss ← part str index_str count
  insertChars index ss

def insertRangeAt (pos : Nat) (s : List α) : StringStep N α Nat := do
  if N < ((← get).n_ + s.length) % 2 ^ 64 then Step.stop .length_error
  else
    shift pos s.length
    place pos s
    term
    return pos

def insertView (index : Nat) (s : List α) : StringStep N α Unit := insertChars index s

def insertConvertible (index : Nat) (s : List α) (index_str count : Nat) :
    StringStep N α Unit := do
  let str ← viewPart s index_str count
  insertChars index str

def erase (index count : Nat) : StringStep N α Unit := do
  let size := (← get).n_
  if size < index then Step.stop .out_of_range
  else
    let n := min count (size - index)
    move index (index + n) (size - (index + n) + 1)
    setSize (size - n)

def eraseAt (pos : Nat) : StringStep N α Nat := do
  erase pos 1
  return pos

def eraseRangeAt (first last : Nat) : StringStep N α Nat := do
  erase first (last - first)
  return first

def push_back (ch : α) : StringStep N α Unit := do
  let size := (← get).n_
  if N ≤ size then Step.stop .length_error
  else
    setSize (size + 1)
    place size [ch]
    term

def appendFill (count : Nat) (ch : α) : StringStep N α Unit := do
  discard (insertFillAt (← get).n_ count ch)

def appendString (str : StaticString M α) : StringStep N α Unit := do
  insertString (← get).n_ str

def appendSubstring (str : StaticString M α) (pos count : Nat) : StringStep N α Unit := do
  -- The valid range is up to the size, without it.
  if str.n_ ≤ pos then Step.stop .out_of_range
  else
    let ss ← chars str pos (min count (str.n_ - pos))
    insertChars (← get).n_ ss

def appendChars (s : List α) : StringStep N α Unit := do
  insertChars (← get).n_ s

def appendCString [DecidableEq α] (s : List α) : StringStep N α Unit := do
  insertCString (← get).n_ s

def appendRange (s : List α) : StringStep N α Unit := do
  discard (insertRangeAt (← get).n_ s)

def appendView (s : List α) : StringStep N α Unit := do
  insertView (← get).n_ s

def appendConvertible (s : List α) (pos count : Nat) : StringStep N α Unit := do
  insertConvertible (← get).n_ s pos count

def substr (pos count : Nat) : StringStep N α (List α) := do
  part (← get) pos count

/-- Changes the number of characters, and leaves those that are new as they are in the array. -/
def resize (n : Nat) : StringStep N α Unit := do
  if N < n then Step.stop .length_error
  else
    setSize n
    term

def resizeFill (n : Nat) (c : α) : StringStep N α Unit := do
  if N < n then Step.stop .length_error
  else
    let size := (← get).n_
    if size < n then fill size (n - size) c
    setSize n
    term

/-- Exchanges what is in use of two strings, by way of a third one. -/
def exchange (tmp : StaticString N α) : Step Halt (StaticString N α × StaticString M α) Unit := do
  let self := (← get).1
  Step.zoom Prod.snd (fun p str => (p.1, str)) (takeOver self)
  Step.zoom Prod.fst (fun p self => (self, p.2)) (takeOver tmp)

/-- Runs a step on a string of its own, and goes on with that. -/
def made (m : StringStep N α Unit) (s : StaticString N α) :
    Step Halt (StaticString N α × StaticString M α) (StaticString N α) :=
  match Step.run m s with
  | (.ok _, s) => return s
  | (.error e, _) => Step.stop e

def swap : Step Halt (StaticString N α × StaticString N α) Unit := do
  let (self, str) ← get
  -- The array of the third string starts as that of any other one does.
  let tmp ← made (assignCopy str) self
  exchange tmp

def swapOther : Step Halt (StaticString N α × StaticString M α) Unit := do
  let (self, str) ← get
  if M < self.n_ then Step.stop .length_error
  else if N < str.n_ then Step.stop .length_error
  else
    let tmp ← made (assignString str) self
    exchange tmp

/-! ## Sequences of operations -/

/-- An operation with its arguments. An iterator is the number of characters in front of it. -/
inductive Op (N : Nat) (α : Type)
  | assignFill (count : Nat) (ch : α)
  | assignChars (s : List α)
  | assignCopy (str : StaticString N α)
  | assignString {M : Nat} (str : StaticString M α)
  | assignSubstring {M : Nat} (str : StaticString M α) (pos count : Nat)
  | assignCString (s : List α)
  | assignRange (s : List α)
  | assignView (s : List α)
  | assignConvertible (s : List α) (pos count : Nat)
  | assign_char (ch : α)
  | insertFillAt (pos count : Nat) (ch : α)
  | insertCharAt (pos : Nat) (ch : α)
  | insertFill (index count : Nat) (ch : α)
  | insertChars (index : Nat) (s : List α)
  | insertCString (index : Nat) (s : List α)
  | insertString {M : Nat} (index : Nat) (str : StaticString M α)
  | insertSubstring {M : Nat} (index : Nat) (str : StaticString M α) (index_str count : Nat)
  | insertRangeAt (pos : Nat) (s : List α)
  | insertView (index : Nat) (s : List α)
  | insertConvertible (index : Nat) (s : List α) (index_str count : Nat)
  | erase (index count : Nat)
  | eraseAt (pos : Nat)
  | eraseRangeAt (first last : Nat)
  | push_back (ch : α)
  | appendFill (count : Nat) (ch : α)
  | appendString {M : Nat} (str : StaticString M α)
  | appendSubstring {M : Nat} (str : StaticString M α) (pos count : Nat)
  | appendChars (s : List α)
  | appendCString (s : List α)
  | appendRange (s : List α)
  | appendView (s : List α)
  | appendConvertible (s : List α) (pos count : Nat)
  | substr (pos count : Nat)
  | resize (n : Nat)
  | resizeFill (n : Nat) (c : α)
  | swap (str : StaticString N α)
  | swapOther {M : Nat} (str : StaticString M α)

/-- What an operation returns, or leaves in another string. -/
inductive Output (α : Type)
  | nothing
  | iterator (i : Nat)
  | view (s : List α)
  | other (s : List α)
  deriving DecidableEq, Repr

/-- Does an operation that returns nothing. -/
def quiet (m : StringStep N α Unit) : StringStep N α (Output α) := do
  m
  return .nothing

/-- Does an operation that returns an iterator. -/
def located (m : StringStep N α Nat) : StringStep N α (Output α) := do
  return .iterator (← m)

/-- Does an operation on two strings, of which the second one is an argument. -/
def paired (m : Step Halt (StaticString N α × StaticString M α) Unit) (str : StaticString M α) :
    StringStep N α (Output α) := fun self =>
  match Step.run m (self, str) with
  | (.ok _, self, str) => (.ok (.other str.content), self)
  | (.error e, self, _) => (.error e, self)

/-- Does an operation. -/
def Op.perform [DecidableEq α] : Op N α → StringStep N α (Output α)
  | .assignFill count ch => quiet (StaticString.assignFill count ch)
  | .assignChars s => quiet (StaticString.assignChars s)
  | .assignCopy str => quiet (StaticString.assignCopy str)
  | .assignString str => quiet (StaticString.assignString str)
  | .assignSubstring str pos count => quiet (StaticString.assignSubstring str pos count)
  | .assignCString s => quiet (StaticString.assignCString s)
  | .assignRange s => quiet (StaticString.assignRange s)
  | .assignView s => quiet (StaticString.assignView s)
  | .assignConvertible s pos count => quiet (StaticString.assignConvertible s pos count)
  | .assign_char ch => quiet (StaticString.assign_char ch)
  | .insertFillAt pos count ch => located (StaticString.insertFillAt pos count ch)
  | .insertCharAt pos ch => located (StaticString.insertCharAt pos ch)
  | .insertFill index count ch => quiet (StaticString.insertFill index count ch)
  | .insertChars index s => quiet (StaticString.insertChars index s)
  | .insertCString index s => quiet (StaticString.insertCString index s)
  | .insertString index str => quiet (StaticString.insertString index str)
  | .insertSubstring index str index_str count =>
    quiet (StaticString.insertSubstring index str index_str count)
  | .insertRangeAt pos s => located (StaticString.insertRangeAt pos s)
  | .insertView index s => quiet (StaticString.insertView index s)
  | .insertConvertible index s index_str count =>
    quiet (StaticString.insertConvertible index s index_str count)
  | .erase index count => quiet (StaticString.erase index count)
  | .eraseAt pos => located (StaticString.eraseAt pos)
  | .eraseRangeAt first last => located (StaticString.eraseRangeAt first last)
  | .push_back ch => quiet (StaticString.push_back ch)
  | .appendFill count ch => quiet (StaticString.appendFill count ch)
  | .appendString str => quiet (StaticString.appendString str)
  | .appendSubstring str pos count => quiet (StaticString.appendSubstring str pos count)
  | .appendChars s => quiet (StaticString.appendChars s)
  | .appendCString s => quiet (StaticString.appendCString s)
  | .appendRange s => quiet (StaticString.appendRange s)
  | .appendView s => quiet (StaticString.appendView s)
  | .appendConvertible s pos count => quiet (StaticString.appendConvertible s pos count)
  | .substr pos count => do return .view (← StaticString.substr pos count)
  | .resize n => quiet (StaticString.resize n)
  | .resizeFill n c => quiet (StaticString.resizeFill n c)
  | .swap str => paired StaticString.swap str
  | .swapOther str => paired StaticString.swapOther str

/-- Does one operation after another, and goes on behind those that throw. -/
def performAll [DecidableEq α] (s : StaticString N α) :
    List (Op N α) → StaticString N α × List (Except Halt (Output α))
  | [] => (s, [])
  | op :: ops =>
    let (r, s) := Step.run op.perform s
    let (s, rs) := performAll s ops
    (s, r :: rs)

end StaticString

/-! ## What it is for -/

namespace StdString

open StaticString (Halt Op Output)

variable {N : Nat} {α : Type} [Zero α] [DecidableEq α]

/-- A part of a text. -/
def part (s : List α) (pos count : Nat) : Except Halt (List α) :=
  if s.length < pos then .error .out_of_range else .ok ((s.drop pos).take count)

/-- A text with another one put in at a place. -/
def insert (t : List α) (index : Nat) (s : List α) : Except Halt (List α) :=
  if t.length < index then .error .out_of_range else .ok (t.take index ++ s ++ t.drop index)

/-- A text without so many characters from a place on. -/
def erase (t : List α) (index count : Nat) : Except Halt (List α) :=
  if t.length < index then .error .out_of_range
  else .ok (t.take index ++ t.drop (index + count))

/-- The text in front of the first null. -/
def cString (s : List α) : List α := s.takeWhile (· ≠ 0)

/-- A text that an operation makes, with what it returns, where it is no longer than it may be. -/
def atMost {β : Type} (N : Nat) (out : β) (t : List α) : Except Halt (List α × β) :=
  if N < t.length then .error .length_error else .ok (t, out)

/-- What an operation makes of a text, where texts are no longer than `N`. -/
def perform (t : List α) : Op N α → Except Halt (List α × Output α)
  | .assignFill count ch => atMost N .nothing (List.replicate count ch)
  | .assignChars s | .assignRange s | .assignView s => atMost N .nothing s
  | .assignCopy str => atMost N .nothing str.content
  | .assignString str => atMost N .nothing str.content
  | .assignSubstring str pos count => do atMost N .nothing (← part str.content pos count)
  | .assignCString s => atMost N .nothing (cString s)
  | .assignConvertible s pos count => do atMost N .nothing (← part s pos count)
  | .assign_char ch => atMost N .nothing [ch]
  | .insertFillAt pos count ch => do
    atMost N (.iterator pos) (← insert t pos (List.replicate count ch))
  | .insertCharAt pos ch => do atMost N (.iterator pos) (← insert t pos [ch])
  | .insertFill index count ch => do atMost N .nothing (← insert t index (List.replicate count ch))
  | .insertChars index s | .insertView index s => do atMost N .nothing (← insert t index s)
  | .insertCString index s => do atMost N .nothing (← insert t index (cString s))
  | .insertString index str => do atMost N .nothing (← insert t index str.content)
  | .insertSubstring index str index_str count => do
    atMost N .nothing (← insert t index (← part str.content index_str count))
  | .insertRangeAt pos s => do atMost N (.iterator pos) (← insert t pos s)
  | .insertConvertible index s index_str count => do
    atMost N .nothing (← insert t index (← part s index_str count))
  | .erase index count => do atMost N .nothing (← erase t index count)
  | .eraseAt pos => do atMost N (.iterator pos) (← erase t pos 1)
  | .eraseRangeAt first last => do atMost N (.iterator first) (← erase t first (last - first))
  | .push_back ch => atMost N .nothing (t ++ [ch])
  | .appendFill count ch => atMost N .nothing (t ++ List.replicate count ch)
  | .appendChars s | .appendRange s | .appendView s => atMost N .nothing (t ++ s)
  | .appendString str => atMost N .nothing (t ++ str.content)
  | .appendSubstring str pos count => do atMost N .nothing (t ++ (← part str.content pos count))
  | .appendCString s => atMost N .nothing (t ++ cString s)
  | .appendConvertible s pos count => do atMost N .nothing (t ++ (← part s pos count))
  | .substr pos count => do return (t, .view (← part t pos count))
  | .resize n => atMost N .nothing (t.take n ++ List.replicate (n - t.length) 0)
  | .resizeFill n c => atMost N .nothing (t.take n ++ List.replicate (n - t.length) c)
  | .swap str => atMost N (.other t) str.content
  | .swapOther (M := M) str =>
    if M < t.length then .error .length_error else atMost N (.other t) str.content

end StdString

end Beast
