import Mathlib.Data.Option.Basic
import Mathlib.Logic.Relation

/-!
# Runs of a transition system

A system is given by its initial states and a relation between a state and the next one.
`Reaches` collects the states at the end of finite runs. Invariants and simulations are proved for
one step and carried along runs here; a system with a partial step function on labelled actions is
run by `execute`.
-/

namespace TransitionRuns

variable {σ τ α : Type*}

inductive Reaches (init : σ → Prop) (next : σ → σ → Prop) : σ → Prop
  | start {s : σ} (h : init s) : Reaches init next s
  | step {s t : σ} (hr : Reaches init next s) (hn : next s t) : Reaches init next t

section Rules

variable {init : σ → Prop} {next : σ → σ → Prop} {init' : τ → Prop} {next' : τ → τ → Prop}

/-- What holds initially and is kept by every step holds at the end of every run. The step may use
that the state before it is itself reached. -/
theorem Reaches.invariant {inv : σ → Prop} (h0 : ∀ s, init s → inv s)
    (hstep : ∀ s t, Reaches init next s → inv s → next s t → inv t) {s : σ}
    (h : Reaches init next s) : inv s := by
  induction h with
  | start h => exact h0 _ h
  | step hr hn ih => exact hstep _ _ hr ih hn

theorem Reaches.simulation {f : σ → τ} (h0 : ∀ s, init s → init' (f s))
    (hstep : ∀ s t, Reaches init next s → next s t → next' (f s) (f t)) {s : σ}
    (h : Reaches init next s) : Reaches init' next' (f s) := by
  induction h with
  | start h => exact .start (h0 _ h)
  | step hr hn ih => exact .step ih (hstep _ _ hr hn)

theorem Reaches.mono {next₂ : σ → σ → Prop} (himp : ∀ s t, next s t → next₂ s t) {s : σ}
    (h : Reaches init next s) : Reaches init next₂ s :=
  h.simulation (f := id) (fun _ h0 => h0) fun s t _ hn => himp s t hn

theorem Reaches.many {go : σ → σ → Prop} {s t : σ} (h : Reaches init next s)
    (hgo : Relation.ReflTransGen go s t) (himp : ∀ s t, go s t → next s t) :
    Reaches init next t := by
  induction hgo with
  | refl => exact h
  | tail _ hlast ih => exact .step ih (himp _ _ hlast)

end Rules

/-- The states of a run, the latest first. -/
inductive Trace (init : σ → Prop) (next : σ → σ → Prop) : List σ → Prop
  | start {s : σ} (h : init s) : Trace init next [s]
  | step {s t : σ} {past : List σ} (hr : Trace init next (s :: past)) (hn : next s t) :
      Trace init next (t :: s :: past)

theorem Trace.reaches {init : σ → Prop} {next : σ → σ → Prop} {s : σ} {past : List σ}
    (h : Trace init next (s :: past)) : Reaches init next s := by
  generalize hl : s :: past = l at h
  induction h generalizing s past with
  | start h =>
      cases hl
      exact .start h
  | step _ hn ih =>
      cases hl
      exact .step (ih rfl) hn

/-- The state after a list of actions, in order. -/
def execute (step : σ → α → Option σ) : σ → List α → Option σ
  | s, [] => some s
  | s, a :: as => (step s a).bind fun t => execute step t as

theorem Reaches.execute {init : σ → Prop} {step : σ → α → Option σ} {s t : σ} {as : List α}
    (h : Reaches init (fun s t => ∃ a, step s a = some t) s)
    (ht : TransitionRuns.execute step s as = some t) :
    Reaches init (fun s t => ∃ a, step s a = some t) t := by
  induction as generalizing s with
  | nil =>
      cases ht
      exact h
  | cons a as ih =>
      obtain ⟨u, hu, ht⟩ := Option.bind_eq_some_iff.mp ht
      exact ih (.step h ⟨a, hu⟩) ht

theorem Trace.execute {init : σ → Prop} {step : σ → α → Option σ} {s t : σ} {past : List σ}
    {as : List α} (h : Trace init (fun s t => ∃ a, step s a = some t) (s :: past))
    (ht : TransitionRuns.execute step s as = some t) :
    ∃ later, Trace init (fun s t => ∃ a, step s a = some t) (t :: later) := by
  induction as generalizing s past with
  | nil =>
      cases ht
      exact ⟨past, h⟩
  | cons a as ih =>
      obtain ⟨u, hu, ht⟩ := Option.bind_eq_some_iff.mp ht
      exact ih (.step h ⟨a, hu⟩) ht

/-- The step function that stops where a condition on the step is not met. -/
def checked (step : σ → α → Option σ) (good : σ → σ → Prop) [∀ s t, Decidable (good s t)] (s : σ)
    (a : α) : Option σ :=
  (step s a).filter fun t => decide (good s t)

theorem Reaches.execute_checked {init : σ → Prop} {step : σ → α → Option σ} {good : σ → σ → Prop}
    [∀ s t, Decidable (good s t)] {s t : σ} {as : List α}
    (h : Reaches init (fun s t => (∃ a, step s a = some t) ∧ good s t) s)
    (ht : TransitionRuns.execute (checked step good) s as = some t) :
    Reaches init (fun s t => (∃ a, step s a = some t) ∧ good s t) t := by
  induction as generalizing s with
  | nil =>
      cases ht
      exact h
  | cons a as ih =>
      obtain ⟨u, hu, ht⟩ := Option.bind_eq_some_iff.mp ht
      obtain ⟨hstep, hgood⟩ := Option.filter_eq_some_iff.mp hu
      exact ih (.step h ⟨⟨a, hstep⟩, of_decide_eq_true hgood⟩) ht

end TransitionRuns
