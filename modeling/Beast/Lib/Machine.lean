import Mathlib.Tactic.Common

/-! Machines that take one step after another, until they come to a result. -/

namespace Machine

variable {σ τ ρ ρ' : Type} {step : σ → σ ⊕ ρ} {step' : τ → τ ⊕ ρ'} {x y z : σ ⊕ ρ} {r r' : ρ}

/-- What a machine comes to from a state, or has come to. -/
inductive Ends (step : σ → σ ⊕ ρ) : σ ⊕ ρ → ρ → Prop
  | result (r : ρ) : Ends step (.inr r) r
  | step {s : σ} {r : ρ} (rest : Ends step (step s) r) : Ends step (.inl s) r

/-- The states that a machine takes steps from. -/
inductive Visits (step : σ → σ ⊕ ρ) : σ ⊕ ρ → σ → Prop
  | here {s : σ} : Visits step (.inl s) s
  | later {s t : σ} (rest : Visits step (step s) t) : Visits step (.inl s) t

/-- A machine comes to one result. -/
theorem Ends.unique (first : Ends step x r) (second : Ends step x r') : r = r' := by
  induction first with
  | result r => cases second; rfl
  | step _ ih =>
    cases second with
    | step rest => exact ih rest

/-- What has come to a result has come to no other. -/
theorem ends_inr : Ends step (.inr r) r' ↔ r = r' := by
  constructor
  · intro ended
    cases ended
    rfl
  · rintro rfl
    exact .result r

/-- What a machine comes to from a state is what it comes to behind one step. -/
theorem ends_inl {s : σ} : Ends step (.inl s) r ↔ Ends step (step s) r := by
  constructor
  · intro ended
    cases ended with
    | step rest => exact rest
  · exact .step

/-- A machine comes to a result with the last of its steps. -/
theorem Ends.last (ended : Ends step x r) : x = .inr r ∨ ∃ s, step s = .inr r := by
  induction ended with
  | result r => exact .inl rfl
  | @step s _ _ ih =>
    rcases ih with here | later
    · exact .inr ⟨s, here⟩
    · exact .inr later

/--
What holds of every result holds of the states that lead there.

The states that are visited all meet the condition, and each step keeps the property backwards.
-/
theorem Ends.backward {P : σ ⊕ ρ → ρ → Prop} {meets : σ → Prop} (ended : Ends step x r)
    (all : ∀ s, Visits step x s → meets s) (last : ∀ r, P (.inr r) r)
    (back : ∀ s r, meets s → P (step s) r → P (.inl s) r) : P x r := by
  induction ended with
  | result r => exact last r
  | step rest ih =>
    refine back _ _ (all _ .here) (ih fun t visited => ?_)
    exact all t (.later visited)

/-- What a machine has come to behind so many steps at most. -/
def iterate (step : σ → σ ⊕ ρ) : Nat → σ ⊕ ρ → σ ⊕ ρ
  | _, .inr r => .inr r
  | 0, .inl s => .inl s
  | n + 1, .inl s => iterate step n (step s)

/-- Steps behind other steps are more of them. -/
theorem iterate_add {n m : Nat} {x : σ ⊕ ρ} : iterate step (n + m) x = iterate step m (iterate step n x) := by
  induction n generalizing x with
  | zero =>
    rw [Nat.zero_add]
    cases x <;> simp only [iterate]
  | succ n ih =>
    cases x with
    | inl s => rw [Nat.succ_add, iterate, ih, iterate]
    | inr r => simp only [iterate]

/-- What a machine has come to behind some steps is what it comes to. -/
theorem ends_iterate {n : Nat} {x : σ ⊕ ρ} {r : ρ} (ran : iterate step n x = .inr r) :
    Ends step x r := by
  induction n generalizing x with
  | zero =>
    cases x with
    | inl s => cases ran
    | inr r' =>
      cases ran
      exact .result r
  | succ n ih =>
    cases x with
    | inl s => exact .step (ih ran)
    | inr r' =>
      cases ran
      exact .result r

/-- A machine comes to a result that passes a test, where a run of some steps does. -/
theorem ends_of_iterate {n : Nat} {x : σ ⊕ ρ} {test : ρ → Bool}
    (passes : (iterate step n x).elim (fun _ => false) test = true) :
    ∃ r, Ends step x r ∧ test r = true := by
  rcases ran : iterate step n x with s | r
  · rw [ran] at passes
    cases passes
  · rw [ran] at passes
    exact ⟨r, ends_iterate ran, passes⟩

/-- Whether a machine comes to a result behind so many steps at most, through states that pass a test. -/
def passes (step : σ → σ ⊕ ρ) (test : σ → Bool) : Nat → σ ⊕ ρ → Bool
  | _, .inr _ => true
  | 0, .inl _ => false
  | n + 1, .inl s => test s && passes step test n (step s)

/-- Every state on the way passes the test. -/
theorem visits_of_passes {test : σ → Bool} {n : Nat} {x : σ ⊕ ρ} {s : σ}
    (checked : passes step test n x = true) (visited : Visits step x s) : test s = true := by
  induction n generalizing x with
  | zero =>
    cases visited with
    | here => cases checked
    | later => cases checked
  | succ n ih =>
    cases visited with
    | here => exact (Bool.and_eq_true_iff.mp checked).1
    | later rest => exact ih (Bool.and_eq_true_iff.mp checked).2 rest

/-- A machine comes to the same from two states, the second of which it passes behind the first. -/
def Leads (step : σ → σ ⊕ ρ) (x y : σ ⊕ ρ) : Prop :=
  ∀ r, Ends step x r → Ends step y r

theorem Leads.refl (x : σ ⊕ ρ) : Leads step x x := fun _ ended => ended

theorem Leads.trans (first : Leads step x y) (second : Leads step y z) : Leads step x z :=
  fun r ended => second r (first r ended)

/-- A state leads to what lies behind one step. -/
theorem leads_step {s : σ} {x : σ ⊕ ρ} (stepped : step s = x) : Leads step (.inl s) x := by
  intro r ended
  rw [← stepped]
  exact ends_inl.mp ended

/--
A machine comes to a result where another one does that it goes along with.

From related states both take steps to related states, or come to related results.
-/
theorem Ends.follow {R : σ → τ → Prop} {S : ρ → ρ' → Prop} {y : τ ⊕ ρ'}
    (along : ∀ s t, R s t → Sum.LiftRel R S (step s) (step' t)) (ended : Ends step x r)
    (related : Sum.LiftRel R S x y) : ∃ r', Ends step' y r' ∧ S r r' := by
  -- The induction is on the run of the first machine.
  induction ended generalizing y with
  | result r =>
    cases related with
    | inr same => exact ⟨_, .result _, same⟩
  | step _ ih =>
    cases related with
    | inl same =>
      obtain ⟨r', ended', same'⟩ := ih (along _ _ same)
      exact ⟨r', .step ended', same'⟩

/-- A machine comes to a result where each of its steps comes nearer to one. -/
theorem ends_of_decreasing {μ : Type} {less : μ → μ → Prop} (wellFounded : WellFounded less)
    (measure : σ → μ) {good : σ → Prop}
    (nearer : ∀ s t, good s → step s = .inl t → good t ∧ less (measure t) (measure s)) (s : σ)
    (first : good s) : ∃ r, Ends step (.inl s) r := by
  -- The induction is on the measure of the state.
  induction hm : measure s using wellFounded.induction generalizing s with
  | _ m ih =>
    subst hm
    cases stepped : step s with
    | inr r => exact ⟨r, .step (by rw [stepped]; exact .result r)⟩
    | inl t =>
      obtain ⟨fine, smaller⟩ := nearer s t first stepped
      obtain ⟨r, ended⟩ := ih _ smaller t fine rfl
      exact ⟨r, .step (by rw [stepped]; exact ended)⟩

end Machine
