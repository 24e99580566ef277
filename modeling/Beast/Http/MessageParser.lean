import Beast.Http.FramingLaws
import Beast.Http.Segments

/-! The parser class that puts a message together, with a reader that appends to the body. -/

namespace Beast.Http

/-- A message as far as it was parsed. -/
structure Parsed where
  msg : Header
  body : Octets := []
  deriving DecidableEq, Repr

/-- A message of either kind before anything of it is known. -/
def newMessage (isRequest : Bool) : Parsed where
  msg :=
    { version := 0
      start := if isRequest then .request [] [] else .response 0 []
      fields := [] }

/-- What a call adds to a message. -/
def Parsed.call (self : Parsed) : Callback → Parsed
  | .on_request method target version =>
    { self with msg := { self.msg with version, start := .request method target } }
  | .on_response status reason version =>
    { self with msg := { self.msg with version, start := .response status reason } }
  | .on_field name value =>
    { self with msg := { self.msg with fields := self.msg.fields.insert name value } }
  | .on_data s => { self with body := self.body ++ s }
  | .on_header | .on_body _ | .on_chunk _ _ | .on_complete => self

/-- The class that puts a message together. -/
def messageParser : Derived where
  State := Parsed
  call self c := (self.call c, none)

/-- It takes every call. -/
theorem messageParser_obliging : Obliging messageParser := fun _ _ => rfl

/-- It takes the octets of the body as one stream. -/
theorem messageParser_seamless : Seamless messageParser where
  accepts _ _ := rfl
  joins state s t := by
    simp only [messageParser, Parsed.call, List.append_assoc]

/-- Fields that are told are added one after another. -/
theorem tells_fields {fields : Fields} (trimmed : ∀ f ∈ fields, trim f.2 = f.2) (self : Parsed) :
    tells messageParser self (fieldCallbacks fields) =
      { self with msg := { self.msg with fields := self.msg.fields ++ fields } } := by
  induction fields generalizing self with
  | nil =>
    rw [List.append_nil]
    rfl
  | cons field fields ih =>
    have rest := ih (fun f there => trimmed f (List.mem_cons_of_mem _ there))
      (self.call (.on_field field.1 field.2))
    change tells messageParser (self.call (.on_field field.1 field.2)) (fieldCallbacks fields) = _
    rw [rest]
    simp only [Parsed.call, Fields.insert, trimmed field List.mem_cons_self, List.append_assoc,
      List.singleton_append]
    rfl

/-- A header that is told is put together as it is. -/
theorem tells_header {msg : Header} (trimmed : ∀ f ∈ msg.fields, trim f.2 = f.2) (framing : Framing) :
    tells messageParser (newMessage msg.is_request) (headerCallbacks msg framing) = { msg } := by
  have told := tells_fields trimmed ((newMessage msg.is_request).call (startCallback msg))
  have rest : ∀ self : Parsed, tells messageParser self (.on_header ::
      if stateBehind msg framing = .complete then [.on_complete] else []) = self := by
    intro self
    split <;> rfl
  have whole : tells messageParser (newMessage msg.is_request) (headerCallbacks msg framing) =
      tells messageParser (tells messageParser ((newMessage msg.is_request).call (startCallback msg))
        (fieldCallbacks msg.fields)) (.on_header ::
          if stateBehind msg framing = .complete then [.on_complete] else []) :=
    List.foldl_append
  refine whole.trans ((rest _).trans (told.trans ?_))
  obtain ⟨version, start, fields⟩ := msg
  cases start <;> rfl

end Beast.Http
