import Beast.Lib.Step

/-! Two runs of one step, from states that are told apart by nothing that the step looks at. -/

namespace Step

variable {ε σ α β ι : Type} {R : σ → σ → Prop} {S T : Except ε α → σ → σ → Prop}

/-- Two steps come to the same outcome, and leave states that are related as asked. -/
def AgreesAt (m n : Step ε σ α) (s t : σ) (S : Except ε α → σ → σ → Prop) : Prop :=
  (run n t).1 = (run m s).1 ∧ S (run m s).1 (run m s).2 (run n t).2

/-- From related states a step comes to one outcome, and leaves states related as asked. -/
def Agrees (R : σ → σ → Prop) (m : Step ε σ α) (S : Except ε α → σ → σ → Prop) : Prop :=
  ∀ s t, R s t → AgreesAt m m s t S

/-- From related states a step comes to one outcome, and leaves states that are related again. -/
def Twins (R : σ → σ → Prop) (m : Step ε σ α) : Prop :=
  Agrees R m fun _ => R

theorem twins_pure (a : α) : Twins R (pure a : Step ε σ α) := fun _ _ same => ⟨rfl, same⟩

theorem twins_stop (e : ε) : Twins R (stop e : Step ε σ α) := fun _ _ same => ⟨rfl, same⟩

/-- A change of the state that relates again what was related tells nothing. -/
theorem twins_modify {g : σ → σ} (keeps : ∀ s t, R s t → R (g s) (g t)) :
    Twins R (modify g : Step ε σ PUnit) :=
  fun s t same => ⟨rfl, keeps s t same⟩

/-- Steps that agree agree on everything that follows from what they agree on. -/
theorem agrees_mono {m : Step ε σ α} (agrees : Agrees R m S)
    (follows : ∀ r s t, S r s t → T r s t) : Agrees R m T :=
  fun s t same => ⟨(agrees s t same).1, follows _ _ _ (agrees s t same).2⟩

/-- A sequence agrees where its second step goes on from what its first one agrees on. -/
theorem agreesAt_bind {S : Except ε β → σ → σ → Prop} {m n : Step ε σ β} {f g : β → Step ε σ α}
    {s t : σ} (first : AgreesAt m n s t S)
    (goes : ∀ b s t, S (.ok b) s t → AgreesAt (f b) (g b) s t T)
    (stops : ∀ e s t, S (.error e) s t → T (.error e) s t) :
    AgreesAt (m >>= f) (n >>= g) s t T := by
  rcases one : run m s with ⟨r', s'⟩
  rcases other : run n t with ⟨r, t'⟩
  simp only [AgreesAt, run_bind, one, other] at first ⊢
  obtain ⟨rfl, related⟩ := first
  cases r with
  | error e => exact ⟨rfl, stops e s' t' related⟩
  | ok b => exact goes b s' t' related

/-- A sequence agrees where its second step goes on from what its first one agrees on. -/
theorem agrees_bind {S : Except ε β → σ → σ → Prop} {m : Step ε σ β} {f : β → Step ε σ α}
    (first : Agrees R m S) (goes : ∀ b, Agrees (S (.ok b)) (f b) T)
    (stops : ∀ e s t, S (.error e) s t → T (.error e) s t) : Agrees R (m >>= f) T :=
  fun s t same => agreesAt_bind (first s t same) (fun b s t => goes b s t) stops

/-- A sequence goes on from states that its first step relates again. -/
theorem agrees_then {m : Step ε σ β} {f : β → Step ε σ α} (first : Twins R m)
    (goes : ∀ b, Agrees R (f b) T) (stops : ∀ e s t, R s t → T (.error e) s t) :
    Agrees R (m >>= f) T :=
  agrees_bind first goes stops

/-- A sequence of steps that relate states again relates them again. -/
theorem twins_bind {m : Step ε σ β} {f : β → Step ε σ α} (first : Twins R m)
    (second : ∀ b, Twins R (f b)) : Twins R (m >>= f) :=
  agrees_bind first second fun _ _ _ same => same

/-- A step that looks at the state agrees where it goes on to steps that do. -/
theorem agrees_get {f : σ → Step ε σ α}
    (both : ∀ s t, R s t → AgreesAt (f s) (f t) s t S) : Agrees R (get >>= f) S :=
  both

/-- What a step sees of the state is the same in both, and so is what it goes on to. -/
theorem agrees_see {f : σ → Step ε σ α} (sees : ∀ s t, R s t → f t = f s)
    (goes : ∀ s, Agrees R (f s) S) : Agrees R (get >>= f) S := by
  intro s t same
  change AgreesAt (f s) (f t) s t S
  rw [sees s t same]
  exact goes s s t same

/-- A choice agrees where both of its steps do. -/
theorem agrees_ite {c : Prop} [Decidable c] {m n : Step ε σ α} (first : c → Agrees R m S)
    (second : ¬c → Agrees R n S) : Agrees R (if c then m else n) S := by
  split
  · exact first ‹_›
  · exact second ‹_›

/-- What a step agrees on from each of several relations it agrees on from all of them. -/
theorem twins_exists {R : ι → σ → σ → Prop} {m : Step ε σ α} (each : ∀ i, Twins (R i) m) :
    Twins (fun s t => ∃ i, R i s t) m := by
  rintro s t ⟨i, same⟩
  exact ⟨(each i s t same).1, i, (each i s t same).2⟩

end Step
