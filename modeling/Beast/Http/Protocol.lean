import Mathlib.Data.List.Induction
import Beast.Lib.Run
import Beast.Http.Members

/-! The order in which the parser calls the derived class. -/

namespace Beast.Http

/-- How far the calls of a message have come. -/
inductive Stage
  | start | fields | header | body | trailer | complete
  deriving DecidableEq, Repr

/-- Where a call leads, if it may be made; a trailer tells fields only where there are chunks. -/
def Stage.next (chunked : Bool) : Stage → Callback → Option Stage
  | .start, .on_request .. | .start, .on_response .. => some .fields
  | .fields, .on_field .. => some .fields
  | .fields, .on_header => some .header
  | .header, .on_body _ => some .body
  | .body, .on_data _ | .body, .on_chunk .. => some .body
  | .body, .on_field .. | .trailer, .on_field .. => if chunked then some .trailer else none
  | .header, .on_complete | .body, .on_complete | .trailer, .on_complete => some .complete
  | _, _ => none

/-- Where calls lead, one after another. -/
def stageOf (chunked : Bool) (calls : List Callback) : Option Stage :=
  calls.foldlM (Stage.next chunked) .start

/-- Where calls lead with one more. -/
theorem stageOf_snoc (chunked : Bool) (calls : List Callback) (c : Callback) :
    stageOf chunked (calls ++ [c]) = (stageOf chunked calls).bind (·.next chunked c) := by
  simp [stageOf, List.foldlM_append]

/-- What may be told of a message without chunks may be told of one with chunks. -/
theorem stageOf_chunked {calls : List Callback} {chunked : Bool} {stage : Stage}
    (leads : stageOf chunked calls = some stage) : stageOf true calls = some stage := by
  induction calls using List.reverseRecOn generalizing stage with
  | nil => exact leads
  | append_singleton calls c ih =>
    rw [stageOf_snoc] at leads ⊢
    obtain ⟨before, led, allowed⟩ := Option.bind_eq_some_iff.mp leads
    rw [ih led, Option.bind_some]
    cases chunked with
    | true => exact allowed
    | false =>
      unfold Stage.next at allowed ⊢
      split at allowed <;> simp_all

/-- Whether a call tells the start line. -/
def IsStart : Callback → Prop
  | .on_request .. | .on_response .. => True
  | _ => False

/-- Whether a call tells a field. -/
def IsField : Callback → Prop
  | .on_field .. => True
  | _ => False

/-- Whether a call tells of the body that was announced. -/
def IsData : Callback → Prop
  | .on_data _ | .on_chunk .. => True
  | _ => False

/-- The calls of a header: the start line, the fields, and the end. -/
def HeaderCalls (calls : List Callback) : Prop :=
  ∃ start fields, calls = start :: fields ++ [.on_header] ∧ IsStart start ∧
    ∀ c ∈ fields, IsField c

/-- The calls of a body that is announced at most once, with what is told of it. -/
def BodyCalls (calls : List Callback) : Prop :=
  calls = [] ∨ ∃ n data, calls = .on_body n :: data ∧ ∀ c ∈ data, IsData c

/-- The calls of a whole message, whose trailer holds fields only where it is chunked. -/
def MessageCalls (chunked : Bool) (calls : List Callback) : Prop :=
  ∃ header body trailer, calls = header ++ body ++ trailer ++ [.on_complete] ∧
    HeaderCalls header ∧ BodyCalls body ∧ (∀ c ∈ trailer, IsField c) ∧
    (trailer ≠ [] → chunked = true)

/-- What the calls so far are, at each stage. -/
def Told (chunked : Bool) : Stage → List Callback → Prop
  | .start, calls => calls = []
  | .fields, calls => ∃ start fields, calls = start :: fields ∧ IsStart start ∧
      ∀ c ∈ fields, IsField c
  | .header, calls => HeaderCalls calls
  | .body, calls => ∃ header body, calls = header ++ body ∧ HeaderCalls header ∧ BodyCalls body ∧
      body ≠ []
  | .trailer, calls => ∃ header body trailer, calls = header ++ body ++ trailer ∧
      HeaderCalls header ∧ BodyCalls body ∧ (∀ c ∈ trailer, IsField c) ∧ chunked = true
  | .complete, calls => MessageCalls chunked calls

/-- A call that may be made leads to calls of the next stage. -/
theorem told_next {chunked : Bool} {stage next : Stage} {calls : List Callback} {c : Callback}
    (told : Told chunked stage calls) (allowed : stage.next chunked c = some next) :
    Told chunked next (calls ++ [c]) := by
  have snoc : ∀ {P : Callback → Prop} {l : List Callback}, (∀ c ∈ l, P c) → P c →
      ∀ e ∈ l ++ [c], P e := by
    intro P l all last e member
    rcases List.mem_append.mp member with old | new
    · exact all e old
    · rw [List.mem_singleton.mp new]; exact last
  -- The cases are those of the automaton.
  unfold Stage.next at allowed
  split at allowed
  case h_1 | h_2 =>
    obtain rfl := Option.some.inj allowed
    cases told
    exact ⟨_, [], rfl, trivial, by simp⟩
  case h_3 =>
    obtain rfl := Option.some.inj allowed
    obtain ⟨start, fields, rfl, first, all⟩ := told
    exact ⟨start, _, rfl, first, snoc all trivial⟩
  case h_4 =>
    obtain rfl := Option.some.inj allowed
    obtain ⟨start, fields, rfl, first, all⟩ := told
    exact ⟨start, fields, rfl, first, all⟩
  case h_5 =>
    obtain rfl := Option.some.inj allowed
    exact ⟨calls, _, rfl, told, .inr ⟨_, [], rfl, by simp⟩, by simp⟩
  case h_6 | h_7 =>
    obtain rfl := Option.some.inj allowed
    obtain ⟨header, body, rfl, first, announced, some⟩ := told
    obtain rfl | ⟨n, data, rfl, all⟩ := announced
    · exact absurd rfl some
    · exact ⟨header, _, List.append_assoc .., first, .inr ⟨n, _, rfl, snoc all trivial⟩, by simp⟩
  case h_8 =>
    obtain ⟨chunks, allowed⟩ := Option.ite_none_right_eq_some.mp allowed
    obtain rfl := Option.some.inj allowed
    obtain ⟨header, body, rfl, first, announced, some⟩ := told
    exact ⟨header, body, [_], rfl, first, announced, by simp [IsField], chunks⟩
  case h_9 =>
    obtain ⟨chunks, allowed⟩ := Option.ite_none_right_eq_some.mp allowed
    obtain rfl := Option.some.inj allowed
    obtain ⟨header, body, trailer, rfl, first, announced, all, _⟩ := told
    exact ⟨header, body, _, List.append_assoc .., first, announced, snoc all trivial, chunks⟩
  case h_10 =>
    obtain rfl := Option.some.inj allowed
    exact ⟨calls, [], [], by simp, told, .inl rfl, by simp, by simp⟩
  case h_11 =>
    obtain rfl := Option.some.inj allowed
    obtain ⟨header, body, rfl, first, announced, some⟩ := told
    exact ⟨header, body, [], by simp, first, announced, by simp, by simp⟩
  case h_12 =>
    obtain rfl := Option.some.inj allowed
    obtain ⟨header, body, trailer, rfl, first, announced, all, chunks⟩ := told
    exact ⟨header, body, trailer, rfl, first, announced, all, fun _ => chunks⟩
  case h_13 => cases allowed

/-- Calls that the automaton accepts are those of the stage that they lead to. -/
theorem told_of_stage {chunked : Bool} {calls : List Callback} {stage : Stage}
    (leads : stageOf chunked calls = some stage) : Told chunked stage calls := by
  -- The induction takes the last call off.
  induction calls using List.reverseRecOn generalizing stage with
  | nil =>
    obtain rfl : Stage.start = stage := Option.some.inj leads
    rfl
  | append_singleton calls c ih =>
    rw [stageOf_snoc] at leads
    obtain ⟨before, led, allowed⟩ := Option.bind_eq_some_iff.mp leads
    exact told_next (ih led) allowed

/-- Calls that are accepted are the first calls of a message. -/
theorem messageCalls_of_stage {chunked : Bool} {calls : List Callback} {stage : Stage}
    (leads : stageOf chunked calls = some stage) :
    ∃ rest, MessageCalls chunked (calls ++ rest) ∧ (stage = .complete → rest = []) := by
  have told := told_of_stage leads
  cases stage with
  | start =>
    cases told
    exact ⟨[.on_request [] [] 0, .on_header, .on_complete],
      ⟨_, [], [], rfl, ⟨.on_request [] [] 0, [], rfl, trivial, by simp⟩, .inl rfl, by simp, by simp⟩,
      by simp⟩
  | fields =>
    obtain ⟨start, fields, rfl, first, all⟩ := told
    exact ⟨[.on_header, .on_complete],
      ⟨start :: fields ++ [.on_header], [], [], by simp, ⟨start, fields, rfl, first, all⟩, .inl rfl,
        by simp, by simp⟩, by simp⟩
  | header => exact ⟨[.on_complete], ⟨calls, [], [], by simp, told, .inl rfl, by simp, by simp⟩, by simp⟩
  | body =>
    obtain ⟨header, body, rfl, first, announced, _⟩ := told
    exact ⟨[.on_complete], ⟨header, body, [], by simp, first, announced, by simp, by simp⟩, by simp⟩
  | trailer =>
    obtain ⟨header, body, trailer, rfl, first, announced, all, chunks⟩ := told
    exact ⟨[.on_complete], ⟨header, body, trailer, rfl, first, announced, all, fun _ => chunks⟩,
      by simp⟩
  | complete => exact ⟨[], by rw [List.append_nil]; exact told, fun _ => rfl⟩

end Beast.Http
