import Mathlib.Tactic.Common

/-! Steps that change a state, may stop on the way, and leave a state in either case. -/

/-- A step on states, which returns a value or stops with a reason. -/
def Step (ε σ α : Type) : Type := σ → Except ε α × σ

namespace Step

variable {ε σ τ α β : Type}

/-- Runs a step from a state. -/
def run (m : Step ε σ α) (s : σ) : Except ε α × σ := m s

instance : Monad (Step ε σ) where
  pure a := fun s => (.ok a, s)
  bind m f := fun s =>
    match m s with
    | (.ok a, s) => f a s
    | (.error e, s) => (.error e, s)

instance : MonadStateOf σ (Step ε σ) where
  get := fun s => (.ok s, s)
  set s := fun _ => (.ok (), s)
  modifyGet f := fun s => (.ok (f s).1, (f s).2)

/-- Stops for a reason. -/
def stop (e : ε) : Step ε σ α := fun s => (.error e, s)

/-- Goes on with a value that was computed without the state. -/
def lift (r : Except ε α) : Step ε σ α := fun s => (r, s)

/-- Works on a part of the state, and leaves the rest alone. -/
def zoom (part : σ → τ) (put : σ → τ → σ) (m : Step ε τ α) : Step ε σ α := fun s =>
  ((m (part s)).1, put s (m (part s)).2)

@[simp] theorem run_pure (a : α) (s : σ) : run (pure a : Step ε σ α) s = (.ok a, s) := rfl

@[simp] theorem run_stop (e : ε) (s : σ) : run (stop e : Step ε σ α) s = (.error e, s) := rfl

@[simp] theorem run_lift (r : Except ε α) (s : σ) : run (lift r : Step ε σ α) s = (r, s) := rfl

@[simp] theorem run_get (s : σ) : run (get : Step ε σ σ) s = (.ok s, s) := rfl

@[simp] theorem run_set (s' s : σ) : run (set s' : Step ε σ PUnit) s = (.ok ⟨⟩, s') := rfl

@[simp] theorem run_modify (f : σ → σ) (s : σ) :
    run (modify f : Step ε σ PUnit) s = (.ok ⟨⟩, f s) := rfl

/-- A sequence of two steps stops where the first one does. -/
theorem run_bind (m : Step ε σ α) (f : α → Step ε σ β) (s : σ) :
    run (m >>= f) s =
      match run m s with
      | (.ok a, s) => run (f a) s
      | (.error e, s) => (.error e, s) := rfl

/-- It does not matter how three steps are taken together. -/
theorem bind_assoc {γ : Type} (m : Step ε σ α) (f : α → Step ε σ β) (g : β → Step ε σ γ) :
    m >>= f >>= g = m >>= fun a => f a >>= g := by
  funext s
  change run _ s = run _ s
  rw [run_bind, run_bind, run_bind]
  rcases run m s with ⟨r, t⟩
  cases r <;> rfl

/-- A sequence goes on from the value and the state that its first step leaves. -/
theorem run_bind_ok {m : Step ε σ α} {f : α → Step ε σ β} {s s' : σ} {a : α}
    (first : run m s = (.ok a, s')) : run (m >>= f) s = run (f a) s' := by
  rw [run_bind, first]

/-- A sequence stops with the reason and the state of its first step. -/
theorem run_bind_error {m : Step ε σ α} {f : α → Step ε σ β} {s s' : σ} {e : ε}
    (first : run m s = (.error e, s')) : run (m >>= f) s = (.error e, s') := by
  rw [run_bind, first]

/-- The outcome of a step, with the state that it leaves. -/
theorem run_snd {m : Step ε σ α} {s : σ} {r : Except ε α} (outcome : (run m s).1 = r) :
    run m s = (r, (run m s).2) := by
  rw [← outcome]

/-- A sequence that did not stop ran both of its steps. -/
theorem bind_ok {m : Step ε σ α} {f : α → Step ε σ β} {s s' : σ} {b : β}
    (ran : run (m >>= f) s = (.ok b, s')) :
    ∃ a t, run m s = (.ok a, t) ∧ run (f a) t = (.ok b, s') := by
  rw [run_bind] at ran
  rcases first : run m s with ⟨r, t⟩
  rw [first] at ran
  cases r with
  | error e => simp at ran
  | ok a => exact ⟨a, t, rfl, ran⟩

@[simp] theorem run_get_bind (f : σ → Step ε σ β) (s : σ) :
    run (get >>= f) s = run (f s) s := rfl

@[simp] theorem run_pure_bind (a : α) (f : α → Step ε σ β) (s : σ) :
    run (pure a >>= f) s = run (f a) s := rfl

@[simp] theorem run_set_bind (s' : σ) (f : PUnit → Step ε σ β) (s : σ) :
    run (set s' >>= f) s = run (f ⟨⟩) s' := rfl

@[simp] theorem run_modify_bind (g : σ → σ) (f : PUnit → Step ε σ β) (s : σ) :
    run (modify g >>= f) s = run (f ⟨⟩) (g s) := rfl

@[simp] theorem run_lift_ok_bind (a : α) (f : α → Step ε σ β) (s : σ) :
    run (lift (.ok a) >>= f) s = run (f a) s := rfl

@[simp] theorem run_lift_error_bind (e : ε) (f : α → Step ε σ β) (s : σ) :
    run (lift (.error e) >>= f) s = (.error e, s) := rfl

@[simp] theorem run_stop_bind (e : ε) (f : α → Step ε σ β) (s : σ) :
    run (stop e >>= f) s = (.error e, s) := rfl

@[simp] theorem run_zoom (part : σ → τ) (put : σ → τ → σ) (m : Step ε τ α) (s : σ) :
    run (zoom part put m) s = ((run m (part s)).1, put s (run m (part s)).2) := rfl

section Keeps

variable {γ : Type} {f : σ → γ}

/-- What is seen of the state is the same before and after a step, whether it stops or not. -/
def Keeps (f : σ → γ) (m : Step ε σ α) : Prop :=
  ∀ s, f (run m s).2 = f s

theorem keeps_pure (a : α) : Keeps f (pure a : Step ε σ α) := fun _ => rfl

theorem keeps_stop (e : ε) : Keeps f (stop e : Step ε σ α) := fun _ => rfl

theorem keeps_lift (r : Except ε α) : Keeps f (lift r : Step ε σ α) := fun _ => rfl

theorem keeps_get : Keeps f (get : Step ε σ σ) := fun _ => rfl

/-- What is computed from something that is kept is kept. -/
theorem Keeps.comp {δ : Type} {m : Step ε σ α} (keeps : Keeps f m) (g : γ → δ) :
    Keeps (fun s => g (f s)) m :=
  fun s => congrArg g (keeps s)

/-- A change of the state keeps what it does not touch. -/
theorem keeps_modify {g : σ → σ} (same : ∀ s, f (g s) = f s) :
    Keeps f (modify g : Step ε σ PUnit) :=
  same

/-- A sequence keeps what both of its steps keep. -/
theorem keeps_bind {m : Step ε σ α} {g : α → Step ε σ β} (first : Keeps f m)
    (second : ∀ a, Keeps f (g a)) : Keeps f (m >>= g) := by
  intro s
  rw [run_bind]
  rcases ran : run m s with ⟨r, s'⟩
  have same : f s' = f s := by simpa only [ran] using first s
  cases r with
  | error e => exact same
  | ok a => rw [← same]; exact second a s'

/-- What is seen of the state is the same where a step stops. -/
def KeepsStopped (f : σ → γ) (m : Step ε σ α) : Prop :=
  ∀ s e t, run m s = (.error e, t) → f t = f s

theorem Keeps.stopped {m : Step ε σ α} (keeps : Keeps f m) : KeepsStopped f m := by
  intro s e t ran
  have same := keeps s
  rwa [ran] at same

theorem keepsStopped_modify (g : σ → σ) : KeepsStopped f (modify g : Step ε σ PUnit) := nofun

/-- A sequence stops with what is kept where its first step keeps it, and its second one stops so. -/
theorem keepsStopped_bind {m : Step ε σ α} {g : α → Step ε σ β} (first : Keeps f m)
    (second : ∀ a, KeepsStopped f (g a)) : KeepsStopped f (m >>= g) := by
  intro s e u ran
  rw [run_bind] at ran
  rcases ran' : run m s with ⟨r, t⟩
  have same := first s
  rw [ran'] at ran same
  cases r with
  | error e =>
    cases ran
    exact same
  | ok a => exact (second a t e u ran).trans same

end Keeps

section Wp

variable {Q R : Except ε α → σ → Prop} {P : σ → Prop}

/-- What must hold before a step for something to hold of its outcome and of the state behind it. -/
def wp (m : Step ε σ α) (Q : Except ε α → σ → Prop) (s : σ) : Prop :=
  Q (run m s).1 (run m s).2

/-- One thing is asked of the state where a step goes on, and another where it stops. -/
def orStop (goes stops : σ → Prop) : Except ε α → σ → Prop
  | .ok _, s => goes s
  | .error _, s => stops s

/-- What is asked of a step is asked of its outcome and of the state behind it. -/
theorem wp_run {m : Step ε σ α} {s t : σ} {r : Except ε α} (ran : run m s = (r, t)) :
    wp m Q s ↔ Q r t := by
  rw [wp, ran]

@[simp] theorem wp_pure (a : α) (s : σ) : wp (pure a : Step ε σ α) Q s ↔ Q (.ok a) s := Iff.rfl

@[simp] theorem wp_stop (e : ε) (s : σ) : wp (stop e : Step ε σ α) Q s ↔ Q (.error e) s := Iff.rfl

@[simp] theorem wp_get {Q : Except ε σ → σ → Prop} (s : σ) :
    wp (get : Step ε σ σ) Q s ↔ Q (.ok s) s := Iff.rfl

@[simp] theorem wp_set {Q : Except ε PUnit → σ → Prop} (s' s : σ) :
    wp (set s' : Step ε σ PUnit) Q s ↔ Q (.ok ⟨⟩) s' := Iff.rfl

@[simp] theorem wp_modify {Q : Except ε PUnit → σ → Prop} (g : σ → σ) (s : σ) :
    wp (modify g : Step ε σ PUnit) Q s ↔ Q (.ok ⟨⟩) (g s) := Iff.rfl

@[simp] theorem wp_get_bind (f : σ → Step ε σ α) (s : σ) :
    wp (get >>= f) Q s ↔ wp (f s) Q s := Iff.rfl

@[simp] theorem wp_set_bind (s' : σ) (f : PUnit → Step ε σ α) (s : σ) :
    wp (set s' >>= f) Q s ↔ wp (f ⟨⟩) Q s' := Iff.rfl

@[simp] theorem wp_modify_bind (g : σ → σ) (f : PUnit → Step ε σ α) (s : σ) :
    wp (modify g >>= f) Q s ↔ wp (f ⟨⟩) Q (g s) := Iff.rfl

@[simp] theorem wp_pure_bind (b : β) (f : β → Step ε σ α) (s : σ) :
    wp (pure b >>= f) Q s ↔ wp (f b) Q s := Iff.rfl

@[simp] theorem wp_stop_bind (e : ε) (f : β → Step ε σ α) (s : σ) :
    wp (stop e >>= f) Q s ↔ Q (.error e) s := Iff.rfl

/-- A sequence does what is asked where its first step comes to where its second step does. -/
theorem wp_bind {m : Step ε σ β} {f : β → Step ε σ α} {s : σ} :
    wp (m >>= f) Q s ↔
      wp m (fun r s => match r with
        | .ok b => wp (f b) Q s
        | .error e => Q (.error e) s) s := by
  unfold wp
  rw [run_bind]
  rcases run m s with ⟨r, t⟩
  cases r <;> rfl

/-- A value that was computed without the state leaves the state to what follows. -/
theorem wp_lift_bind {r : Except ε β} {f : β → Step ε σ α} {s : σ}
    (goes : ∀ b, r = .ok b → wp (f b) Q s) (stops : ∀ e, r = .error e → Q (.error e) s) :
    wp (lift r >>= f) Q s := by
  cases r with
  | ok b => exact goes b rfl
  | error e => exact stops e rfl

/-- A step that does what is asked does everything that follows from it. -/
theorem wp_mono {m : Step ε σ α} {s : σ} (asked : wp m Q s) (follows : ∀ r s, Q r s → R r s) :
    wp m R s :=
  follows _ _ asked

/-- A choice does what is asked where the step that is chosen does. -/
theorem wp_ite {c : Prop} [Decidable c] {m n : Step ε σ α} {s : σ} (first : c → wp m Q s)
    (second : ¬c → wp n Q s) : wp (if c then m else n) Q s := by
  split
  · exact first ‹_›
  · exact second ‹_›

/-- What must hold before a step for something to hold behind it, unless it stops. -/
def wlp (m : Step ε σ α) (Q : α → σ → Prop) (s : σ) : Prop :=
  ∀ a t, run m s = (.ok a, t) → Q a t

/-- A sequence does what is asked where its first step comes to where its second step does. -/
theorem wlp_bind {Q : α → σ → Prop} {m : Step ε σ β} {f : β → Step ε σ α} {s : σ}
    (both : wlp m (fun b t => wlp (f b) Q t) s) : wlp (m >>= f) Q s := by
  intro a u ran
  obtain ⟨b, t, first, second⟩ := bind_ok ran
  exact both b t first a u second

/-- A step that does what is asked does everything that follows from it. -/
theorem wlp_mono {Q R : α → σ → Prop} {m : Step ε σ α} {s : σ} (asked : wlp m Q s)
    (follows : ∀ a t, Q a t → R a t) : wlp m R s :=
  fun a t ran => follows a t (asked a t ran)

theorem wlp_pure {Q : α → σ → Prop} {a : α} {s : σ} (asked : Q a s) :
    wlp (pure a : Step ε σ α) Q s := by
  intro b t ran
  cases ran
  exact asked

theorem wlp_stop {Q : α → σ → Prop} {e : ε} {s : σ} : wlp (stop e : Step ε σ α) Q s := by
  intro b t ran
  cases ran

theorem wlp_modify {Q : PUnit → σ → Prop} {g : σ → σ} {s : σ} (asked : Q ⟨⟩ (g s)) :
    wlp (modify g : Step ε σ PUnit) Q s := by
  intro b t ran
  cases ran
  exact asked

theorem wlp_get_bind {Q : α → σ → Prop} {f : σ → Step ε σ α} {s : σ} (asked : wlp (f s) Q s) :
    wlp (get >>= f) Q s :=
  asked

theorem wlp_modify_bind {Q : α → σ → Prop} {g : σ → σ} {f : PUnit → Step ε σ α} {s : σ}
    (asked : wlp (f ⟨⟩) Q (g s)) : wlp (modify g >>= f) Q s :=
  asked

/-- A choice does what is asked where the step that is chosen does. -/
theorem wlp_ite {Q : α → σ → Prop} {c : Prop} [Decidable c] {m n : Step ε σ α} {s : σ}
    (first : c → wlp m Q s) (second : ¬c → wlp n Q s) : wlp (if c then m else n) Q s := by
  split
  · exact first ‹_›
  · exact second ‹_›

/-- What holds of the state before a step holds of it behind the step, stopped or not. -/
def Preserves (P : σ → Prop) (m : Step ε σ α) : Prop :=
  ∀ s, P s → wp m (fun _ => P) s

theorem preserves_pure (a : α) : Preserves P (pure a : Step ε σ α) := fun _ holds => holds

theorem preserves_stop (e : ε) : Preserves P (stop e : Step ε σ α) := fun _ holds => holds

theorem preserves_get : Preserves P (get : Step ε σ σ) := fun _ holds => holds

/-- A change of the state preserves what it establishes from itself. -/
theorem preserves_modify {g : σ → σ} (same : ∀ s, P s → P (g s)) :
    Preserves P (modify g : Step ε σ PUnit) :=
  same

/-- A sequence preserves what both of its steps preserve. -/
theorem preserves_bind {m : Step ε σ α} {g : α → Step ε σ β} (first : Preserves P m)
    (second : ∀ a, Preserves P (g a)) : Preserves P (m >>= g) := by
  intro s holds
  refine wp_bind.mpr (wp_mono (first s holds) fun r t behind => ?_)
  cases r with
  | error e => exact behind
  | ok a => exact second a t behind

/-- A sequence goes on from what its first step preserves. -/
theorem wp_preserves_bind {m : Step ε σ β} {f : β → Step ε σ α} {s : σ} (first : Preserves P m)
    (holds : P s) (second : ∀ b s, P s → wp (f b) Q s) (stops : ∀ e s, P s → Q (.error e) s) :
    wp (m >>= f) Q s := by
  refine wp_bind.mpr (wp_mono (first s holds) fun r t behind => ?_)
  cases r with
  | ok b => exact second b t behind
  | error e => exact stops e t behind

/-- What holds of the state before a step holds of it behind the step, unless it stops. -/
def Maintains (P : σ → Prop) (m : Step ε σ α) : Prop :=
  ∀ s, P s → wlp m (fun _ => P) s

theorem maintains_pure (a : α) : Maintains P (pure a : Step ε σ α) := fun _ holds => wlp_pure holds

theorem maintains_stop (e : ε) : Maintains P (stop e : Step ε σ α) := fun _ _ => wlp_stop

theorem maintains_get : Maintains P (get : Step ε σ σ) := by
  intro s holds a t ran
  cases ran
  exact holds

/-- A change of the state maintains what it establishes from itself. -/
theorem maintains_modify {g : σ → σ} (same : ∀ s, P s → P (g s)) : Maintains P (modify g : Step ε σ PUnit) :=
  fun s holds => wlp_modify (same s holds)

/-- A sequence maintains what both of its steps maintain. -/
theorem maintains_bind {m : Step ε σ α} {g : α → Step ε σ β} (first : Maintains P m)
    (second : ∀ a, Maintains P (g a)) : Maintains P (m >>= g) :=
  fun s holds => wlp_bind (wlp_mono (first s holds) fun a t behind => second a t behind)

/-- Work on a part maintains what follows from what it maintains of the part. -/
theorem maintains_zoom {part : σ → τ} {put : σ → τ → σ} {R : τ → Prop} {m : Step ε τ α} (inner : Maintains R m)
    (there : ∀ s, P s → R (part s)) (back : ∀ s t, P s → R t → P (put s t)) : Maintains P (zoom part put m) := by
  intro s holds a t ran
  rw [run_zoom] at ran
  obtain ⟨went, same⟩ := Prod.mk.injEq _ _ _ _ ▸ ran
  rw [← same]
  exact back s _ holds (inner _ (there s holds) a _ (Prod.ext went rfl))

end Wp

end Step
