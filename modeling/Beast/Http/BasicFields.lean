import Mathlib.Logic.Function.Basic
import Beast.Core.MultiBufferPool
import Beast.Http.Fields
import Beast.Lib.SortedIndex

/-! The container of fields: its elements, a list and an ordered set of them, and its objects. -/

namespace Beast.Http

open Function (update)

/-! ## The order of names -/

/-- A character as a number, which may be negative where `char` is signed. -/
def charValue (signedChar : Bool) (c : UInt8) : Int :=
  if signedChar then c.toInt8.toInt else c.toNat

/-- `std::lexicographical_compare`. -/
def lexicographicalCompare {α : Type} (less : α → α → Bool) : List α → List α → Bool
  | _, [] => false
  | [], _ :: _ => true
  | l :: lhs, r :: rhs =>
    if less l r then true
    else if less r l then false
    else lexicographicalCompare less lhs rhs

/-- Whether a string comes before another one, without regard to ASCII case. -/
def ciLess (signedChar : Bool) (lhs rhs : Octets) : Bool :=
  lexicographicalCompare
    (fun l r => charValue signedChar (tolower l) < charValue signedChar (tolower r)) lhs rhs

/-! ## Elements, and a set of them -/

/-- A field in memory, where both containers of an object link it. -/
structure Element where
  address : Nat
  first : Octets
  second : Octets
  deriving DecidableEq, Repr

namespace Element

/-- The name and the value of an element. -/
def data (e : Element) : Octets × Octets := (e.first, e.second)

/-- Elements that no later one comes before, by their names. -/
def Ordered (signedChar : Bool) (l : List Element) : Prop :=
  l.Pairwise fun a b => ciLess signedChar b.first a.first = false

end Element

/-- `boost::intrusive::multiset` under the order of names, by what its reference says of it. An
iterator is the element that it is at, or none at the end. -/
structure IntrusiveMultiset (signedChar : Bool) where
  Tree : Type
  /-- The elements in the order of iteration. -/
  elems : Tree → List Element
  size : Tree → Nat
  empty : Tree
  find : Tree → Octets → Option Element
  upper_bound : Tree → Octets → Option Element
  insert_before : Tree → Option Element → Element → Tree
  erase : Tree → Element → Tree
  next : Tree → Element → Option Element
  size_elems (s : Tree) : size s = (elems s).length
  elems_empty : elems empty = []
  /-- The first element of an equivalent name. -/
  find_first (s : Tree) (name : Octets) : Element.Ordered signedChar (elems s) →
    find s name = (elems s).find? fun e =>
      !ciLess signedChar e.first name && !ciLess signedChar name e.first
  /-- The first element of a greater name. -/
  upper_bound_first (s : Tree) (name : Octets) : Element.Ordered signedChar (elems s) →
    upper_bound s name = (elems s).find? fun e => ciLess signedChar name e.first
  elems_insert_before (s : Tree) (place : Option Element) (e : Element) :
    (∀ p ∈ place, p ∈ elems s) → e ∉ elems s →
    elems (insert_before s place e) = SortedIndex.insertBefore (elems s) place e
  elems_erase (s : Tree) (e : Element) :
    (elems s).Nodup → e ∈ elems s → elems (erase s e) = (elems s).erase e
  next_follower (s : Tree) (e : Element) :
    (elems s).Nodup → e ∈ elems s → next s e = SortedIndex.follower (elems s) e

/-- A set that is kept as a list of its elements. -/
def listMultiset (signedChar : Bool) : IntrusiveMultiset signedChar where
  Tree := List Element
  elems s := s
  size s := s.length
  empty := []
  find s name := s.find? fun e => !ciLess signedChar e.first name && !ciLess signedChar name e.first
  upper_bound s name := s.find? fun e => ciLess signedChar name e.first
  insert_before s place e := SortedIndex.insertBefore s place e
  erase s e := s.erase e
  next s e := SortedIndex.follower s e
  size_elems _ := rfl
  elems_empty := rfl
  find_first _ _ _ := rfl
  upper_bound_first _ _ _ := rfl
  elems_insert_before _ _ _ _ _ := rfl
  elems_erase _ _ _ _ := rfl
  next_follower _ _ _ _ := rfl

/-! ## One object -/

/-- An object: its allocator, and the containers of its fields. -/
structure BasicFields (A : Type) (Tree : Type) where
  member : A
  set_ : Tree
  list_ : List Element

namespace BasicFields

variable {A : Type} {signedChar : Bool} (multiset : IntrusiveMultiset signedChar)

/-- An object without fields. -/
def construct (alloc : A) : BasicFields A multiset.Tree := ⟨alloc, multiset.empty, []⟩

variable {multiset} (self other : BasicFields A multiset.Tree)

/-- What iteration visits. -/
def fields : Fields := self.list_.map Element.data

/-- The number of fields. -/
def size : Nat := multiset.size self.set_

/-- The first field of a name. -/
def find (name : Octets) : Option Element := multiset.find self.set_ name

/-- Whether there is a field of a name. -/
def fieldExists (name : Octets) : Bool := (multiset.find self.set_ name).isSome

/-- The value of the first field of a name: `operator[]`. -/
def index (name : Octets) : Octets :=
  match self.find name with
  | none => []
  | some it => it.second

/-- `std::distance`: the steps from an iterator to another one, which has to lie behind it. -/
def distance (set_ : multiset.Tree) (last : Option Element) : Nat → Option Element → Option Nat
  | 0, it => if it = last then some 0 else none
  | fuel + 1, it =>
    if it = last then some 0
    else match it with
      | none => none
      | some e => (distance set_ last fuel (multiset.next set_ e)).map (· + 1)

/-- The number of fields of a name. -/
def count (name : Octets) : Option Nat :=
  match multiset.find self.set_ name with
  | none => some 0
  | some it =>
    distance self.set_ (multiset.upper_bound self.set_ name) (multiset.size self.set_) (some it)

/-- Removes every field. -/
def clear : BasicFields A multiset.Tree := { self with set_ := multiset.empty, list_ := [] }

/-- Removes the elements up to an iterator, and counts them. -/
def eraseLoop (last : Option Element) : Nat → BasicFields A multiset.Tree → Element → Nat →
    Option (BasicFields A multiset.Tree × Nat)
  | 0, _, _, _ => none
  | fuel + 1, self, e, n =>
    let it := multiset.next self.set_ e
    let self := { self with set_ := multiset.erase self.set_ e, list_ := self.list_.erase e }
    if it = last then some (self, n)
    else match it with
      | none => none
      | some e => eraseLoop last fuel self e (n + 1)

/-- Removes the fields of a name, and says how many there were. -/
def erase (name : Octets) : Option (BasicFields A multiset.Tree × Nat) :=
  match multiset.find self.set_ name with
  | none => some (self, 0)
  | some e =>
    eraseLoop (multiset.upper_bound self.set_ name) (multiset.size self.set_) self e 1

section Memory

/-- How allocators find memory: an address at which no element of the object lies. -/
structure Memory (A : Type) where
  allocate : A → List Nat → Nat
  free (a : A) (used : List Nat) : allocate a used ∉ used

variable (memory : Memory A)

/-- Adds a field behind the others, and in the set behind those of its name. -/
def insert (name value : Octets) : BasicFields A multiset.Tree :=
  let value := trim value
  let p : Element := ⟨memory.allocate self.member (self.list_.map (·.address)), name, value⟩
  { self with
    set_ := multiset.insert_before self.set_ (multiset.upper_bound self.set_ name) p
    list_ := self.list_ ++ [p] }

/-- Sets a field in place of all others of its name. -/
def replace (name value : Octets) : Option (BasicFields A multiset.Tree) :=
  let value := trim value
  (self.erase name).map fun erased => erased.1.insert memory name value

/-- Adds the fields of a sequence. -/
def copyFrom (fs : Fields) : BasicFields A multiset.Tree :=
  fs.foldl (fun self e => self.insert memory e.1 e.2) self

/-- Both containers of another object, which gets what this one had. -/
def exchange : BasicFields A multiset.Tree × BasicFields A multiset.Tree :=
  ({ self with set_ := other.set_, list_ := other.list_ },
    { other with set_ := self.set_, list_ := self.list_ })

variable (traits : AllocTraits A)

/-- A copy of another object, with an allocator of its own. -/
def copyConstruct (other : BasicFields A multiset.Tree) : BasicFields A multiset.Tree :=
  (construct multiset (traits.select_on_container_copy_construction other.member)).copyFrom memory
    other.fields

/-- Takes the fields of another object in place of its own. -/
def copyAssign : BasicFields A multiset.Tree :=
  let self := self.clear
  if traits.propagate_on_container_copy_assignment then
    { self with member := other.member }.copyFrom memory other.fields
  else self.copyFrom memory other.fields

/-- Takes over both containers of another object, and its allocator. -/
def moveConstruct (other : BasicFields A multiset.Tree) :
    BasicFields A multiset.Tree × BasicFields A multiset.Tree :=
  (construct multiset other.member).exchange other

/-- Takes over both containers, or copies the fields where the allocators differ. -/
def moveAssign [DecidableEq A] : BasicFields A multiset.Tree × BasicFields A multiset.Tree :=
  let self := self.clear
  if traits.propagate_on_container_move_assignment then
    { self with member := other.member }.exchange other
  else if self.member ≠ other.member then (self.copyFrom memory other.fields, other.clear)
  else self.exchange other

end Memory

end BasicFields

/-! ## The objects of a program -/

/-- Two objects that are not the same. -/
structure Apart where
  into : Nat
  other : Nat
  distinct : into ≠ other

/-- What a program does with its objects, by their names. -/
inductive FieldsOp (A : Type)
  | construct (i : Nat) (alloc : A)
  /-- An object is made from a sequence of names and values. -/
  | constructFrom (i : Nat) (alloc : A) (range : Fields)
  | insert (i : Nat) (name value : Octets)
  | replace (i : Nat) (name value : Octets)
  | erase (i : Nat) (name : Octets)
  | clear (i : Nat)
  | copyConstruct (objects : Apart)
  | copyAssign (objects : Apart)
  /-- An object is made from one of another type, or set to it. -/
  | convertConstruct (objects : Apart) (alloc : A)
  | convertAssign (objects : Apart)
  | moveConstruct (objects : Apart)
  | moveAssign (objects : Apart)

/-- The objects of a program. -/
abbrev FieldsPool (A Tree : Type) := Nat → BasicFields A Tree

section Steps

variable {A : Type} [DecidableEq A] {signedChar : Bool} (multiset : IntrusiveMultiset signedChar)
  (memory : BasicFields.Memory A) (traits : AllocTraits A)

/-- What an operation makes of the objects, and the number that it reports. -/
def performFields (w : FieldsPool A multiset.Tree) :
    FieldsOp A → Option (FieldsPool A multiset.Tree × Option Nat)
  | .construct i alloc => some (update w i (BasicFields.construct multiset alloc), none)
  | .constructFrom i alloc range =>
    some (update w i ((BasicFields.construct multiset alloc).copyFrom memory range), none)
  | .insert i name value => some (update w i ((w i).insert memory name value), none)
  | .replace i name value => ((w i).replace memory name value).map fun o => (update w i o, none)
  | .erase i name => ((w i).erase name).map fun erased => (update w i erased.1, some erased.2)
  | .clear i => some (update w i (w i).clear, none)
  | .copyConstruct ⟨i, j, _⟩ =>
    some (update w i (BasicFields.copyConstruct memory traits (w j)), none)
  | .copyAssign ⟨i, j, _⟩ => some (update w i ((w i).copyAssign (w j) memory traits), none)
  | .convertConstruct ⟨i, j, _⟩ alloc =>
    some (update w i ((BasicFields.construct multiset alloc).copyFrom memory (w j).fields), none)
  | .convertAssign ⟨i, j, _⟩ =>
    some (update w i ((w i).clear.copyFrom memory (w j).fields), none)
  | .moveConstruct ⟨i, j, _⟩ =>
    let (self, other) := BasicFields.moveConstruct (w j)
    some (update (update w j other) i self, none)
  | .moveAssign ⟨i, j, _⟩ =>
    let (self, other) := (w i).moveAssign (w j) memory traits
    some (update (update w j other) i self, none)

/-- What a program makes of the objects, and the numbers that are reported to it. -/
def performAllFields (w : FieldsPool A multiset.Tree) :
    List (FieldsOp A) → Option (FieldsPool A multiset.Tree × List (Option Nat))
  | [] => some (w, [])
  | op :: ops =>
    (performFields multiset memory traits w op).bind fun (w, report) =>
      (performAllFields w ops).map fun (w, reports) => (w, report :: reports)

end Steps

/-! ## What the objects are for -/

namespace Fields

/-- The number of fields of a name. -/
def count (fields : Fields) (name : Octets) : Nat :=
  (fields.filter fun field => ciEqual field.1 name).length

/-- Adds the fields of a sequence. -/
def insertAll (fields range : Fields) : Fields :=
  range.foldl (fun fields e => fields.insert e.1 e.2) fields

end Fields

/-- What an operation makes of fields in the order of their insertion, and what it reports. -/
def FieldsOp.meaning {A : Type} (q : Nat → Fields) : FieldsOp A → (Nat → Fields) × Option Nat
  | .construct i _ => (update q i [], none)
  | .constructFrom i _ range => (update q i (Fields.insertAll [] range), none)
  | .insert i name value => (update q i ((q i).insert name value), none)
  | .replace i name value => (update q i ((q i).replace name value), none)
  | .erase i name => (update q i ((q i).erase name), some ((q i).count name))
  | .clear i => (update q i [], none)
  | .copyConstruct ⟨i, j, _⟩ | .copyAssign ⟨i, j, _⟩ | .convertConstruct ⟨i, j, _⟩ _
  | .convertAssign ⟨i, j, _⟩ => (update q i (q j), none)
  | .moveConstruct ⟨i, j, _⟩ | .moveAssign ⟨i, j, _⟩ => (update (update q j []) i (q j), none)

/-- What a program makes of fields, and what is reported to it. -/
def FieldsOp.meanings {A : Type} (q : Nat → Fields) :
    List (FieldsOp A) → (Nat → Fields) × List (Option Nat)
  | [] => (q, [])
  | op :: ops =>
    let (q, report) := op.meaning q
    let (q, reports) := FieldsOp.meanings q ops
    (q, report :: reports)

end Beast.Http
