import Mathlib.Data.FinEnum
import Mathlib.Data.List.Lex
import Mathlib.Data.List.Nodup
import Beast.Http.BasicFields
import Beast.Http.Rfc7230Laws

/-! The container of fields is a map in the order of insertion, without regard to ASCII case. -/

namespace Beast.Http

open Function (update)
open SortedIndex (Sorted same below above)

/-! ## The order of names -/

/-- Characters are told apart by their numbers. -/
theorem charValue_inj {signedChar : Bool} {c d : UInt8} :
    charValue signedChar c = charValue signedChar d ↔ c = d := by
  refine ⟨fun eq => ?_, fun eq => eq ▸ rfl⟩
  unfold charValue at eq
  cases signedChar with
  | false => exact UInt8.toNat_inj.mp (Int.ofNat_inj.mp (by simpa using eq))
  | true =>
    have eq : c.toInt8 = d.toInt8 := Int8.toInt_inj.mp (by simpa using eq)
    rw [← UInt8.toUInt8_toInt8 c, eq, UInt8.toUInt8_toInt8]

/-- A name as the numbers that it is compared by. -/
def caseKey (signedChar : Bool) (s : Octets) : List Int :=
  s.map fun c => charValue signedChar (tolower c)

/-- Comparing by numbers is comparing by the lists of them. -/
theorem lexicographicalCompare_iff {α : Type} (value : α → Int) (lhs rhs : List α) :
    lexicographicalCompare (fun l r => decide (value l < value r)) lhs rhs = true ↔
      lhs.map value < rhs.map value := by
  -- The first elements decide where they differ, and the others where they do not.
  induction lhs generalizing rhs with
  | nil =>
    cases rhs with
    | nil => simp [lexicographicalCompare]
    | cons r rhs => simp [lexicographicalCompare]
  | cons l lhs ih =>
    cases rhs with
    | nil => simp [lexicographicalCompare]
    | cons r rhs =>
      rw [lexicographicalCompare, List.map_cons, List.map_cons, List.cons_lt_cons_iff, ← ih]
      rcases lt_trichotomy (value l) (value r) with lt | eq | gt
      · simp [lt]
      · simp [eq]
      · simp [gt, gt.not_gt, gt.ne']

variable {signedChar : Bool}

/-- The order of names is that of the lists of their numbers. -/
theorem ciLess_iff {lhs rhs : Octets} :
    ciLess signedChar lhs rhs = true ↔ caseKey signedChar lhs < caseKey signedChar rhs :=
  lexicographicalCompare_iff (fun c => charValue signedChar (tolower c)) lhs rhs

theorem ciLess_false_iff {lhs rhs : Octets} :
    ciLess signedChar lhs rhs = false ↔ caseKey signedChar rhs ≤ caseKey signedChar lhs := by
  rw [← Bool.not_eq_true, ciLess_iff, not_lt]

/-- Names of which none comes before the other agree up to case. -/
theorem ciEqual_iff {lhs rhs : Octets} :
    ciEqual lhs rhs = true ↔ caseKey signedChar lhs = caseKey signedChar rhs := by
  have apart : Function.Injective (charValue signedChar) := fun _ _ => charValue_inj.mp
  have numbers : ∀ s : Octets, (s.map tolower).map (charValue signedChar) = caseKey signedChar s :=
    fun s => List.map_map ..
  rw [ciEqual, beq_iff_eq, ← apart.list_map.eq_iff, numbers, numbers]

/-! ## The set of an object -/

/-- The key of an element. -/
def Element.key (signedChar : Bool) (e : Element) : List Int := caseKey signedChar e.first

/-- Elements in order are sorted by their keys. -/
theorem Element.ordered_iff {l : List Element} :
    Element.Ordered signedChar l ↔ Sorted (Element.key signedChar) l := by
  unfold Element.Ordered Sorted
  simp only [ciLess_false_iff, Element.key]

/-- The elements of a name are those of its key. -/
theorem named_eq (l : List Element) (name : Octets) :
    l.filter (fun e => ciEqual e.first name) =
      same (Element.key signedChar) l (caseKey signedChar name) :=
  SortedIndex.filter_same fun _ => ciEqual_iff

variable {multiset : IntrusiveMultiset signedChar} {s : multiset.Tree}

/-- `find` gives the first of a key. -/
theorem find_eq (sorted : Sorted (Element.key signedChar) (multiset.elems s)) (name : Octets) :
    multiset.find s name =
      (same (Element.key signedChar) (multiset.elems s) (caseKey signedChar name)).head? := by
  rw [multiset.find_first s name (Element.ordered_iff.mpr sorted)]
  refine SortedIndex.find_same fun e => ?_
  -- Neither name comes before the other.
  rw [Bool.and_eq_true, Bool.not_eq_true', Bool.not_eq_true', ciLess_false_iff, ciLess_false_iff,
    and_comm]
  exact le_antisymm_iff.symm

/-- `upper_bound` gives the first element behind a key. -/
theorem upper_bound_eq (sorted : Sorted (Element.key signedChar) (multiset.elems s))
    (name : Octets) : multiset.upper_bound s name =
      (above (Element.key signedChar) (multiset.elems s) (caseKey signedChar name)).head? := by
  rw [multiset.upper_bound_first s name (Element.ordered_iff.mpr sorted)]
  exact SortedIndex.find_above fun _ => ciLess_iff

namespace BasicFields

variable {A : Type} {self : BasicFields A multiset.Tree} {front back : List Element}

/-- The element behind one comes first among the others, or in the rest. -/
theorem next_run {e : Element} {run : List Element} (nodup : (multiset.elems s).Nodup)
    (elems : multiset.elems s = front ++ e :: (run ++ back)) :
    multiset.next s e = (run ++ back).head? := by
  have apart : e ∉ front := by
    rw [elems] at nodup
    exact fun there => (List.disjoint_of_nodup_append nodup) there List.mem_cons_self
  rw [multiset.next_follower s e nodup (by rw [elems]; simp), elems,
    SortedIndex.follower_append apart]

/-- An element in front of the rest does not come first in it. -/
theorem apart_run {e : Element} {run : List Element} (nodup : (multiset.elems s).Nodup)
    (elems : multiset.elems s = front ++ e :: (run ++ back)) : some e ≠ back.head? := by
  intro first
  have there : e ∈ run ++ back := List.mem_append_right _ (List.mem_of_mem_head? first.symm)
  rw [elems] at nodup
  exact (List.nodup_cons.mp (List.nodup_append.mp nodup).2.1).1 there

/-- The steps from an element over some others are counted. -/
theorem distance_run {e : Element} {run : List Element} {fuel : Nat}
    (nodup : (multiset.elems s).Nodup) (elems : multiset.elems s = front ++ e :: (run ++ back))
    (enough : run.length < fuel) :
    distance s back.head? fuel (some e) = some (run.length + 1) := by
  -- The induction is on the elements that are passed, and takes a step of the fuel for each.
  induction run generalizing front e fuel with
  | nil =>
    obtain ⟨fuel, rfl⟩ : ∃ k, fuel = k + 1 := ⟨fuel - 1, by omega⟩
    rw [distance, if_neg (apart_run nodup elems)]
    rw [next_run nodup elems, List.nil_append]
    cases fuel <;> simp [distance]
  | cons e' run ih =>
    obtain ⟨fuel, rfl⟩ : ∃ k, fuel = k + 1 := ⟨fuel - 1, by omega⟩
    have rest : multiset.elems s = (front ++ [e]) ++ e' :: (run ++ back) := by
      rw [elems, List.append_assoc]
      rfl
    rw [List.length_cons] at enough
    rw [distance, if_neg (apart_run nodup elems)]
    rw [next_run nodup elems, List.cons_append, List.head?_cons,
      ih rest (by omega), Option.map_some, List.length_cons]

/-- What erasing an element leaves in the set. -/
theorem erase_run {e : Element} {rest : List Element} (nodup : (multiset.elems s).Nodup)
    (elems : multiset.elems s = front ++ e :: rest) :
    multiset.elems (multiset.erase s e) = front ++ rest := by
  have apart : e ∉ front := by
    rw [elems] at nodup
    exact fun there => (List.disjoint_of_nodup_append nodup) there List.mem_cons_self
  rw [multiset.elems_erase s e nodup (by rw [elems]; simp), elems,
    List.erase_append_right _ apart, List.erase_cons_head]

/-- The elements of a run are erased one by one, from the set and from the list. -/
theorem eraseLoop_run {e : Element} {run : List Element} {fuel n : Nat}
    (nodup : (multiset.elems self.set_).Nodup)
    (elems : multiset.elems self.set_ = front ++ e :: (run ++ back)) (enough : run.length < fuel) :
    ∃ o : BasicFields A multiset.Tree,
      eraseLoop back.head? fuel self e n = some (o, n + run.length) ∧ o.member = self.member ∧
      multiset.elems o.set_ = front ++ back ∧ o.list_ = self.list_.diff (e :: run) := by
  induction run generalizing self e fuel n with
  | nil =>
    obtain ⟨fuel, rfl⟩ : ∃ k, fuel = k + 1 := ⟨fuel - 1, by omega⟩
    rw [eraseLoop, next_run nodup elems]
    exact ⟨_, if_pos rfl, rfl, erase_run nodup elems, by rw [List.diff_cons, List.diff_nil]⟩
  | cons e' run ih =>
    obtain ⟨fuel, rfl⟩ : ∃ k, fuel = k + 1 := ⟨fuel - 1, by omega⟩
    have left := erase_run nodup elems
    -- What is left is a part of what was there, and the next element does not end the run.
    have nodup' : (multiset.elems (multiset.erase self.set_ e)).Nodup := by
      rw [left]
      rw [elems] at nodup
      exact nodup.sublist (List.Sublist.append_left (List.sublist_cons_self ..) _)
    rw [List.length_cons] at enough
    let shorter : BasicFields A multiset.Tree :=
      { self with set_ := multiset.erase self.set_ e, list_ := self.list_.erase e }
    obtain ⟨o, done, member, elems', list⟩ := @ih shorter e' fuel (n + 1) nodup' left (by omega)
    refine ⟨o, ?_, member, elems', ?_⟩
    · rw [eraseLoop, next_run nodup elems, List.cons_append, List.head?_cons,
        if_neg (apart_run nodup' left), List.length_cons,
        show n + (run.length + 1) = n + 1 + run.length by omega, ← done]
    · exact list.trans (List.diff_cons ..).symm

/-! ## What holds of an object -/

/-- A list and a set of the same elements, whose fields are given. -/
structure Holds (o : BasicFields A multiset.Tree) (fields : Fields) : Prop where
  iterated : o.fields = fields
  addresses : (o.list_.map (·.address)).Nodup
  elems : (multiset.elems o.set_).Perm o.list_
  sorted : Sorted (Element.key signedChar) (multiset.elems o.set_)
  /-- Within a name the set has the order of the list. -/
  named : ∀ k, same (Element.key signedChar) (multiset.elems o.set_) k =
    same (Element.key signedChar) o.list_ k
  trimmed : ∀ field ∈ fields, trim field.2 = field.2

/-- An object without fields. -/
theorem holds_empty {o : BasicFields A multiset.Tree} (set_ : o.set_ = multiset.empty)
    (list_ : o.list_ = []) : o.Holds [] where
  iterated := by rw [fields, list_, List.map_nil]
  addresses := by rw [list_]; exact List.nodup_nil
  elems := by rw [set_, list_, multiset.elems_empty]
  sorted := by rw [set_, multiset.elems_empty]; exact List.Pairwise.nil
  named _ := by rw [set_, list_, multiset.elems_empty]
  trimmed _ there := by simp at there

variable {fields : Fields} {name : Octets}

/-- What holds of an object does not depend on its allocator. -/
theorem Holds.of_containers {o o' : BasicFields A multiset.Tree} (holds : o.Holds fields)
    (set_ : o'.set_ = o.set_) (list_ : o'.list_ = o.list_) : o'.Holds fields where
  iterated := by rw [BasicFields.fields, list_]; exact holds.iterated
  addresses := list_ ▸ holds.addresses
  elems := by rw [set_, list_]; exact holds.elems
  sorted := set_ ▸ holds.sorted
  named := by rw [set_, list_]; exact holds.named
  trimmed := holds.trimmed

section One

variable (holds : self.Holds fields)
include holds

/-- Elements lie at different addresses. -/
theorem Holds.list_nodup : self.list_.Nodup := holds.addresses.of_map _

theorem Holds.elems_nodup : (multiset.elems self.set_).Nodup :=
  holds.elems.nodup_iff.mpr holds.list_nodup

/-- The fields of a name are those of the elements of its key. -/
theorem Holds.fields_named (name : Octets) :
    fields.filter (fun field => ciEqual field.1 name) =
      (same (Element.key signedChar) self.list_ (caseKey signedChar name)).map Element.data := by
  rw [← holds.iterated, BasicFields.fields, List.filter_map, ← named_eq]
  rfl

/-- `find` gives the first element of the name in the list. -/
theorem Holds.find (name : Octets) :
    self.find name = self.list_.find? fun e => ciEqual e.first name := by
  rw [BasicFields.find, find_eq holds.sorted, holds.named, ← named_eq, List.head?_filter]

/-- The field that `find` gives is the first of its name. -/
theorem Holds.find_data (name : Octets) : (self.find name).map Element.data = fields.find name := by
  rw [holds.find, ← holds.iterated, Fields.find, BasicFields.fields, List.find?_map]
  rfl

/-- The value that the object gives for a name. -/
theorem Holds.index (name : Octets) : self.index name = fields.value name := by
  rw [BasicFields.index, Fields.value, ← holds.find_data]
  cases self.find name with
  | none => rfl
  | some e => rfl

/-- The elements of a name lie in the set in one run. -/
theorem Holds.split (name : Octets) :
    multiset.elems self.set_ = below (Element.key signedChar) (multiset.elems self.set_)
        (caseKey signedChar name) ++
      (same (Element.key signedChar) self.list_ (caseKey signedChar name) ++
        above (Element.key signedChar) (multiset.elems self.set_) (caseKey signedChar name)) := by
  rw [← holds.named]
  exact holds.sorted.split _

/-- The object counts the fields of a name. -/
theorem Holds.count (name : Octets) : self.count name = some (fields.count name) := by
  have split := holds.split name
  rw [BasicFields.count, find_eq holds.sorted, upper_bound_eq holds.sorted, holds.named,
    multiset.size_elems, Fields.count, holds.fields_named, List.length_map]
  cases run : same (Element.key signedChar) self.list_ (caseKey signedChar name) with
  | nil => rfl
  | cons e run' =>
    rw [run] at split
    rw [List.head?_cons, List.length_cons]
    refine distance_run holds.elems_nodup split ?_
    have length := congrArg List.length split
    simp only [List.length_append, List.length_cons] at length
    omega

/-- The object without the elements of a name. -/
theorem Holds.others {o : BasicFields A multiset.Tree} {name : Octets}
    (elems : multiset.elems o.set_ =
      (multiset.elems self.set_).filter fun e => !ciEqual e.first name)
    (list_ : o.list_ = self.list_.filter fun e => !ciEqual e.first name) :
    o.Holds (fields.erase name) where
  -- The list and the set are filtered by the same test, which keeps all that relates them.
  iterated := by
    rw [BasicFields.fields, list_, ← holds.iterated, Fields.erase, BasicFields.fields,
      List.filter_map]
    rfl
  addresses := by
    rw [list_]
    exact holds.addresses.sublist (List.filter_sublist.map _)
  elems := by
    rw [elems, list_]
    exact holds.elems.filter _
  sorted := elems ▸ holds.sorted.filter _
  named k := by
    rw [elems, list_, SortedIndex.same_filter, SortedIndex.same_filter, holds.named]
  trimmed field there := holds.trimmed field (List.mem_of_mem_filter there)

/-- Every field of a name is removed, and the number of them is reported. -/
theorem Holds.erase (name : Octets) : ∃ o : BasicFields A multiset.Tree,
    self.erase name = some (o, fields.count name) ∧ o.member = self.member ∧
    o.Holds (fields.erase name) := by
  have split := holds.split name
  rw [BasicFields.erase, find_eq holds.sorted, upper_bound_eq holds.sorted, holds.named,
    multiset.size_elems, Fields.count, holds.fields_named, List.length_map]
  have tells : ∀ e : Element, (!ciEqual e.first name) = true ↔
      e.key signedChar ≠ caseKey signedChar name := by
    intro e
    rw [Bool.not_eq_true', ← Bool.not_eq_true, @ciEqual_iff signedChar]
    rfl
  have remain := SortedIndex.filter_others (l := multiset.elems self.set_) tells
  rw [holds.sorted.other] at remain
  cases run : same (Element.key signedChar) self.list_ (caseKey signedChar name) with
  | nil =>
    -- There is no field of the name, so none is left out.
    refine ⟨self, rfl, rfl, holds.others ?_ ?_⟩
    · rw [remain]
      rw [run, List.nil_append] at split
      exact split
    · refine (List.filter_eq_self.mpr fun e there => ?_).symm
      rw [tells]
      intro mine
      have found := SortedIndex.mem_same.mpr ⟨there, mine⟩
      rw [run] at found
      cases found
  | cons e run' =>
    rw [run] at split
    rw [List.head?_cons, List.length_cons]
    have enough : run'.length < (multiset.elems self.set_).length := by
      have length := congrArg List.length split
      simp only [List.length_append, List.length_cons] at length
      omega
    obtain ⟨o, done, member, elems, list⟩ := eraseLoop_run holds.elems_nodup split enough (n := 1)
    refine ⟨o, ?_, member, holds.others ?_ ?_⟩
    · rw [Nat.add_comm]
      exact done
    · rw [elems, remain]
    · rw [list, holds.list_nodup.sdiff_eq_filter]
      refine List.filter_congr fun a there => ?_
      rw [Bool.eq_iff_iff, tells, decide_eq_true_iff, ← run]
      exact not_congr ⟨SortedIndex.same_eq, fun mine => SortedIndex.mem_same.mpr ⟨there, mine⟩⟩

end One

/-! ## What operations keep -/

variable (memory : Memory A) {value : Octets}

/-- A field comes behind the others. -/
theorem Holds.insert (holds : self.Holds fields) (name value : Octets) :
    (self.insert memory name value).Holds (fields.insert name value) := by
  have fresh := memory.free self.member (self.list_.map (·.address))
  rw [BasicFields.insert, upper_bound_eq holds.sorted]
  generalize memory.allocate self.member (self.list_.map (·.address)) = address at fresh
  let p : Element := ⟨address, name, trim value⟩
  -- A fresh address makes the element one that is not there yet.
  have new : p ∉ multiset.elems self.set_ := fun there =>
    fresh (List.mem_map_of_mem (holds.elems.mem_iff.mp there))
  have placed := multiset.elems_insert_before self.set_
    (above (Element.key signedChar) (multiset.elems self.set_) (caseKey signedChar name)).head? p
    (fun q first => (List.mem_filter.mp (List.mem_of_mem_head? first)).1) new
  have key : p.key signedChar = caseKey signedChar name := rfl
  rw [← key] at placed ⊢
  refine ⟨?_, ?_, ?_, ?_, fun k => ?_, fun field there => ?_⟩
  · rw [BasicFields.fields, List.map_append, ← holds.iterated]
    rfl
  · rw [List.map_append, List.map_singleton]
    refine List.nodup_append.mpr ⟨holds.addresses, List.nodup_singleton _, ?_⟩
    rintro a there b last rfl
    rw [List.mem_singleton.mp last] at there
    exact fresh there
  · rw [placed]
    exact (holds.sorted.insert_perm p).trans (holds.elems.append_right _)
  · rw [placed]
    exact holds.sorted.insert_sorted p
  · rw [placed, holds.sorted.same_insert, holds.named, ← SortedIndex.same_append]
  · rcases List.mem_append.mp there with early | last
    · exact holds.trimmed field early
    · rw [List.mem_singleton.mp last]
      exact trim_trim value

/-- The fields of a sequence come behind the others. -/
theorem Holds.copyFrom (holds : self.Holds fields) (fs : Fields) :
    (self.copyFrom memory fs).Holds (fields.insertAll fs) := by
  induction fs generalizing self fields with
  | nil => exact holds
  | cons e fs ih => exact ih (holds.insert memory e.1 e.2)

/-- Fields of an object are copied as they are. -/
theorem insertAll_trimmed {fs : Fields} (trimmed : ∀ field ∈ fs, trim field.2 = field.2) :
    fields.insertAll fs = fields ++ fs := by
  induction fs generalizing fields with
  | nil => exact (List.append_nil _).symm
  | cons e fs ih =>
    have first := trimmed e List.mem_cons_self
    calc fields.insertAll (e :: fs) = (fields.insert e.1 e.2).insertAll fs := rfl
      _ = fields.insert e.1 e.2 ++ fs := ih fun field there => trimmed field (.tail _ there)
      _ = fields ++ e :: fs := by rw [Fields.insert, first, List.append_assoc]; rfl

/-- An object without fields that takes those of another object. -/
theorem Holds.copy {other : BasicFields A multiset.Tree} (empty : self.Holds [])
    (holds : other.Holds fields) : (self.copyFrom memory other.fields).Holds fields := by
  have all := empty.copyFrom memory fields
  rw [insertAll_trimmed holds.trimmed, List.nil_append] at all
  rw [holds.iterated]
  exact all

/-- A field that is set comes last, and no other one has its name. -/
theorem Holds.replace (holds : self.Holds fields) (name value : Octets) :
    ∃ o : BasicFields A multiset.Tree, self.replace memory name value = some o ∧
      o.Holds (fields.replace name value) := by
  obtain ⟨o, erased, -, remains⟩ := holds.erase name
  refine ⟨o.insert memory name (trim value), ?_, ?_⟩
  · rw [BasicFields.replace, erased]
    rfl
  · have set := remains.insert memory name (trim value)
    rwa [Fields.insert, trim_trim] at set

/-- An object loses its fields. -/
theorem holds_clear (self : BasicFields A multiset.Tree) : self.clear.Holds [] :=
  holds_empty rfl rfl

theorem holds_construct (alloc : A) : (construct multiset alloc).Holds [] :=
  holds_empty rfl rfl

variable (traits : AllocTraits A)

/-- An object gets the fields of another one. -/
theorem Holds.copyConstruct {other : BasicFields A multiset.Tree} (holds : other.Holds fields) :
    (BasicFields.copyConstruct memory traits other).Holds fields :=
  (holds_construct _).copy memory holds

theorem Holds.copyAssign (self : BasicFields A multiset.Tree)
    {other : BasicFields A multiset.Tree} (holds : other.Holds fields) :
    (self.copyAssign other memory traits).Holds fields := by
  unfold BasicFields.copyAssign
  dsimp only
  split_ifs with propagates
  · exact Holds.copy memory (holds_empty rfl rfl) holds
  · exact (holds_clear self).copy memory holds

/-- An object gets the fields of another one, which is left without any. -/
theorem Holds.moveConstruct {other : BasicFields A multiset.Tree} (holds : other.Holds fields) :
    (BasicFields.moveConstruct other).1.Holds fields ∧
      (BasicFields.moveConstruct other).2.Holds [] :=
  ⟨holds.of_containers rfl rfl, holds_empty rfl rfl⟩

theorem Holds.moveAssign [DecidableEq A] (self : BasicFields A multiset.Tree)
    {other : BasicFields A multiset.Tree} (holds : other.Holds fields) :
    (self.moveAssign other memory traits).1.Holds fields ∧
      (self.moveAssign other memory traits).2.Holds [] := by
  unfold BasicFields.moveAssign
  dsimp only
  split_ifs with propagates differ
  · exact ⟨holds.of_containers rfl rfl, holds_empty rfl rfl⟩
  · -- The allocators differ, so the fields are copied.
    exact ⟨(holds_clear self).copy memory holds, holds_clear other⟩
  · exact ⟨holds.of_containers rfl rfl, holds_empty rfl rfl⟩

/-- What can be read of an object, by the fields that it stands for. -/
structure Reads (o : BasicFields A multiset.Tree) (fields : Fields) : Prop where
  iteration : o.fields = fields
  /-- The set and the list hold the same elements. -/
  elements : (multiset.elems o.set_).Perm o.list_
  size : o.size = fields.length
  /-- The element that is found is the first of its name in the list. -/
  find (name : Octets) : o.find name = o.list_.find? fun e => ciEqual e.first name
  found (name : Octets) : (o.find name).map Element.data = fields.find name
  fieldExists (name : Octets) : o.fieldExists name = fields.fieldExists name
  index (name : Octets) : o.index name = fields.value name
  count (name : Octets) : o.count name = some (fields.count name)

theorem Holds.reads (holds : self.Holds fields) : self.Reads fields where
  iteration := holds.iterated
  elements := holds.elems
  size := by
    rw [BasicFields.size, multiset.size_elems, holds.elems.length_eq, ← holds.iterated,
      BasicFields.fields, List.length_map]
  find := holds.find
  found := holds.find_data
  fieldExists name := by
    rw [Fields.fieldExists, ← holds.find_data, Option.isSome_map]
    rfl
  index := holds.index
  count := holds.count

end BasicFields

/-! ## Whole programs -/

section Programs

variable {A : Type} {multiset : IntrusiveMultiset signedChar} {w : FieldsPool A multiset.Tree}
  {q : Nat → Fields}

/-- An object that changes stands for other fields. -/
theorem holds_update (hold : ∀ k, (w k).Holds (q k)) {o : BasicFields A multiset.Tree}
    {fields : Fields} (holds : o.Holds fields) (i : Nat) :
    ∀ k, (update w i o k).Holds (update q i fields k) := by
  intro k
  rcases eq_or_ne k i with rfl | other
  · rw [Function.update_self, Function.update_self]
    exact holds
  · rw [Function.update_of_ne other, Function.update_of_ne other]
    exact hold k

variable [DecidableEq A] (multiset) (memory : BasicFields.Memory A) (traits : AllocTraits A)

/-- An operation does to the objects what it does to the fields they stand for. -/
theorem performFields_meaning (hold : ∀ k, (w k).Holds (q k)) (op : FieldsOp A) :
    ∃ w', performFields multiset memory traits w op = some (w', (op.meaning q).2) ∧
      ∀ k, (w' k).Holds ((op.meaning q).1 k) := by
  -- Each operation is on one object, or takes from a second one.
  cases op with
  | construct i alloc => exact ⟨_, rfl, holds_update hold (BasicFields.holds_construct alloc) i⟩
  | constructFrom i alloc range =>
    exact ⟨_, rfl, holds_update hold ((BasicFields.holds_construct alloc).copyFrom memory range) i⟩
  | insert i name value => exact ⟨_, rfl, holds_update hold ((hold i).insert memory name value) i⟩
  | replace i name value =>
    obtain ⟨o, done, holds⟩ := (hold i).replace memory name value
    refine ⟨update w i o, ?_, holds_update hold holds i⟩
    rw [performFields, done]
    rfl
  | erase i name =>
    obtain ⟨o, done, -, holds⟩ := (hold i).erase name
    refine ⟨update w i o, ?_, holds_update hold holds i⟩
    rw [performFields, done]
    rfl
  | clear i => exact ⟨_, rfl, holds_update hold (BasicFields.holds_clear (w i)) i⟩
  | copyConstruct objects =>
    have holds := (hold objects.other).copyConstruct memory traits
    exact ⟨_, rfl, holds_update hold holds objects.into⟩
  | copyAssign objects =>
    have holds := (hold objects.other).copyAssign memory traits (w objects.into)
    exact ⟨_, rfl, holds_update hold holds objects.into⟩
  | convertConstruct objects alloc =>
    have holds := (BasicFields.holds_construct alloc).copy memory (hold objects.other)
    exact ⟨_, rfl, holds_update hold holds objects.into⟩
  | convertAssign objects =>
    have holds := (BasicFields.holds_clear (w objects.into)).copy memory
      (hold objects.other)
    exact ⟨_, rfl, holds_update hold holds objects.into⟩
  | moveConstruct objects =>
    obtain ⟨self, other⟩ := (hold objects.other).moveConstruct
    exact ⟨_, rfl, holds_update (holds_update hold other objects.other) self objects.into⟩
  | moveAssign objects =>
    obtain ⟨self, other⟩ := (hold objects.other).moveAssign memory traits (w objects.into)
    exact ⟨_, rfl, holds_update (holds_update hold other objects.other) self objects.into⟩

/-- So does a whole program. -/
theorem performAllFields_meanings (hold : ∀ k, (w k).Holds (q k)) (ops : List (FieldsOp A)) :
    ∃ w', performAllFields multiset memory traits w ops = some (w', (FieldsOp.meanings q ops).2) ∧
      ∀ k, (w' k).Holds ((FieldsOp.meanings q ops).1 k) := by
  induction ops generalizing w q with
  | nil => exact ⟨w, rfl, hold⟩
  | cons op ops ih =>
    obtain ⟨w₁, first, hold₁⟩ := performFields_meaning multiset memory traits hold op
    obtain ⟨w₂, rest, hold₂⟩ := ih hold₁
    refine ⟨w₂, ?_, hold₂⟩
    rw [performAllFields, first, Option.bind_some]
    dsimp only
    rw [rest]
    rfl

end Programs

end Beast.Http
