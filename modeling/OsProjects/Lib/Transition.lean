import Mathlib.Tactic.Common

/-! # Transition systems, runs and invariants

A transition system has initial states and labelled steps.  `T.Run P s` says that `s` is
reached by a run whose steps all meet the condition `P` (a condition on the state before the
step and its label); `T.Reachable s` drops the condition.  Every safety result of a client
goes through `Run.invariant`: an invariant that holds initially and is kept by every step
that meets `P` holds in every state of such a run. -/

namespace OsProjects

/-- Initial states and labelled steps. -/
structure TransitionSystem (σ α : Type) where
  init : σ → Prop
  step : σ → α → σ → Prop

namespace TransitionSystem

variable {σ α : Type} {T : TransitionSystem σ α} {P : σ → α → Prop} {I : σ → Prop}

/-- `s` is reached by a run whose steps all meet `P`. -/
inductive Run (T : TransitionSystem σ α) (P : σ → α → Prop) : σ → Prop
  | init {s : σ} : T.init s → Run T P s
  | step {s s' : σ} {a : α} : Run T P s → P s a → T.step s a s' → Run T P s'

/-- `s` is reached by some run. -/
def Reachable (T : TransitionSystem σ α) (s : σ) : Prop := T.Run (fun _ _ => True) s

/-- **Invariant rule.** -/
theorem Run.invariant (h₀ : ∀ s, T.init s → I s)
    (h₁ : ∀ s a s', I s → P s a → T.step s a s' → I s') {s : σ} (h : T.Run P s) : I s := by
  induction h with
  | init h => exact h₀ _ h
  | step _ hP hs ih => exact h₁ _ _ _ ih hP hs

end TransitionSystem

end OsProjects
