import Mathlib.Tactic.Common
/-!
# Runs of a step function

A system is a partial step function on states. A run takes steps that meet a side
condition on the state and the action; what every such step preserves holds in every
state of a run: `Run.invariant`.
-/

namespace Hayven.Lib

variable {σ α : Type} {step : σ → α → Option σ} {ok ok' : σ → α → Prop}

/-- The state is reached by steps that meet the condition. -/
inductive Run (step : σ → α → Option σ) (ok : σ → α → Prop) (start : σ) : σ → Prop
  | refl : Run step ok start start
  | tail {s t : σ} {a : α} : Run step ok start s → ok s a → step s a = some t → Run step ok start t

namespace Run
variable {s t u : σ}

/-- An invariant of the steps is an invariant of the runs. -/
theorem invariant {P : σ → Prop} (h : Run step ok s t) (hs : P s)
    (hstep : ∀ s a t, P s → ok s a → step s a = some t → P t) : P t := by
  induction h with
  | refl => exact hs
  | tail _ hok heq ih => exact hstep _ _ _ ih hok heq

theorem trans (h : Run step ok s t) (h' : Run step ok t u) : Run step ok s u := by
  induction h' with
  | refl => exact h
  | tail _ hok heq ih => exact ih.tail hok heq

theorem single {a : α} (hok : ok s a) (h : step s a = some t) : Run step ok s t := refl.tail hok h

theorem mono (h : Run step ok s t) (himp : ∀ s a, ok s a → ok' s a) : Run step ok' s t := by
  induction h with
  | refl => exact .refl
  | tail _ hok heq ih => exact ih.tail (himp _ _ hok) heq

end Run

/-- The actions in order, while each has a step that meets the condition. -/
def runAll (step : σ → α → Option σ) (allowed : σ → α → Bool) : σ → List α → Option σ
  | s, [] => some s
  | s, a :: as => if allowed s a then (step s a).bind fun t => runAll step allowed t as else none

theorem run_of_runAll {allowed : σ → α → Bool} (hok : ∀ s a, allowed s a = true → ok s a) (as : List α) :
    ∀ {s t : σ}, runAll step allowed s as = some t → Run step ok s t := by
  induction as with
  | nil =>
    intro s t h
    obtain rfl := Option.some.inj h
    exact .refl
  | cons a as ih =>
    intro s t h
    unfold runAll at h
    split at h
    · rename_i hallowed
      obtain ⟨u, hu, hrest⟩ := Option.bind_eq_some_iff.1 h
      exact (Run.single (hok s a hallowed) hu).trans (ih hrest)
    · cases h

end Hayven.Lib
