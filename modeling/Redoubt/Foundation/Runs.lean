import Mathlib.Logic.Relation

/-!
# Runs of a fallible step function

A system is a set of initial states and a step function that either stops or
yields the next state.  `Reached` collects the states of the runs whose every
step meets a condition on the state before it and on its label.
-/

namespace Redoubt.Foundation

variable {σ α ε : Type}

/-- States reached from an initial one by steps that all meet `allowed`. -/
inductive Reached (init : σ → Prop) (step : σ → α → Except ε σ)
    (allowed : σ → α → Prop) : σ → Prop where
  | start {state : σ} : init state → Reached init step allowed state
  | next {state after : σ} {label : α} :
      Reached init step allowed state → allowed state label →
      step state label = .ok after → Reached init step allowed after

namespace Reached

variable {init : σ → Prop} {step : σ → α → Except ε σ} {allowed : σ → α → Prop}

/-- The invariant rule: what holds initially and is kept by every allowed step
holds in every state reached. -/
theorem invariant {I : σ → Prop} (hinit : ∀ state, init state → I state)
    (hstep : ∀ state label after, I state → allowed state label →
      step state label = .ok after → I after)
    {state : σ} (hreach : Reached init step allowed state) : I state := by
  induction hreach with
  | start h => exact hinit _ h
  | next _ hallowed hnext ih => exact hstep _ _ _ ih hallowed hnext

/-- A weaker condition on the steps reaches at least as much. -/
theorem mono {weaker : σ → α → Prop} (himp : ∀ state label, allowed state label → weaker state label)
    {state : σ} (hreach : Reached init step allowed state) : Reached init step weaker state := by
  induction hreach with
  | start h => exact .start h
  | next _ hallowed hnext ih => exact .next ih (himp _ _ hallowed) hnext

end Reached

/-- The states of a run from a given state, by steps that all meet `allowed`. -/
def RunsTo (step : σ → α → Except ε σ) (allowed : σ → α → Prop) (first : σ) : σ → Prop :=
  Reached (fun state => state = first) step allowed

/-- Execute a list of labels as long as they pass a test and the system runs. -/
def runList (step : σ → α → Except ε σ) (pass : σ → α → Bool) (state : σ) : List α → Option σ
  | [] => some state
  | label :: rest =>
      if pass state label then
        match step state label with
        | .error _ => none
        | .ok after => runList step pass after rest
      else none

/-- A computed run whose test implies the condition reaches its last state. -/
theorem Reached.of_runList {init : σ → Prop} {step : σ → α → Except ε σ} {allowed : σ → α → Prop}
    {pass : σ → α → Bool} (hpass : ∀ state label, pass state label = true → allowed state label)
    (labels : List α) {first last : σ} (hfirst : Reached init step allowed first)
    (hrun : runList step pass first labels = some last) : Reached init step allowed last := by
  induction labels generalizing first with
  | nil =>
      cases hrun
      exact hfirst
  | cons label _ ih =>
      unfold runList at hrun
      split at hrun
      · rename_i hok
        split at hrun
        · cases hrun
        · rename_i after hstep
          exact ih (.next hfirst (hpass first label hok) hstep) hrun
      · cases hrun

end Redoubt.Foundation
