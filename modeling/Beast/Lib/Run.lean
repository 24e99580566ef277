import Mathlib.Logic.Relation

/-! Runs of a system that takes one step after another, each under a condition. -/

namespace Run

variable {σ α : Type} {step : σ → α → σ → Prop} {meets : σ → α → Prop}

/-- One state is reached from another by steps that all meet a condition. -/
def Reaches (step : σ → α → σ → Prop) (meets : σ → α → Prop) : σ → σ → Prop :=
  Relation.ReflTransGen fun s t => ∃ a, meets s a ∧ step s a t

/-- What every step keeps under the condition holds in every state that is reached. -/
theorem Reaches.invariant {P : σ → Prop} {s t : σ} (reached : Reaches step meets s t)
    (kept : ∀ s a t, P s → meets s a → step s a t → P t) (first : P s) : P t := by
  -- The induction is on the run, from its front.
  induction reached with
  | refl => exact first
  | tail _ last ih =>
    obtain ⟨a, allowed, stepped⟩ := last
    exact kept _ a _ ih allowed stepped

/-- A run goes on with a step that meets the condition. -/
theorem Reaches.snoc {s t u : σ} {a : α} (reached : Reaches step meets s t) (allowed : meets t a)
    (stepped : step t a u) : Reaches step meets s u :=
  Relation.ReflTransGen.tail reached ⟨a, allowed, stepped⟩

/-- The steps that a run has taken from its first state, in their order. -/
inductive History (step : σ → α → σ → Prop) (first : σ) : List α → σ → Prop
  | start : History step first [] first
  | next {l : List α} {s t : σ} {a : α} (before : History step first l s) (stepped : step s a t) :
      History step first (l ++ [a]) t

/-- What each step keeps of the steps so far and the state holds of every run. -/
theorem History.invariant {P : List α → σ → Prop} {first s : σ} {l : List α}
    (run : History step first l s) (start : P [] first)
    (kept : ∀ l s a t, P l s → step s a t → P (l ++ [a]) t) : P l s := by
  induction run with
  | start => exact start
  | next _ stepped ih => exact kept _ _ _ _ ih stepped

/-- What follows of a step from what all steps keep holds of every step of a run. -/
theorem History.each {P : σ → Prop} {Q : α → Prop} {first s : σ} {l : List α}
    (run : History step first l s) (start : P first)
    (kept : ∀ s a t, P s → step s a t → P t ∧ Q a) : ∀ a ∈ l, Q a := by
  have both : P s ∧ ∀ a ∈ l, Q a := by
    refine run.invariant (P := fun l s => P s ∧ ∀ a ∈ l, Q a) ⟨start, nofun⟩ ?_
    intro l s a t held stepped
    obtain ⟨holds, all⟩ := held
    obtain ⟨next, last⟩ := kept s a t holds stepped
    refine ⟨next, fun b there => ?_⟩
    rcases List.mem_append.mp there with early | late
    · exact all b early
    · rw [List.mem_singleton.mp late]
      exact last
  exact both.2

end Run
