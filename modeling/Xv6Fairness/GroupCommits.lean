import Mathlib.Data.Set.Insert
import Mathlib.Logic.Function.Basic

/-!
# Stores with group commit

Clients write to a store within operations that may overlap. What they have written becomes
permanent for all of them at once, and only when no operation is under way. A crash takes the store
back to what is permanent.
-/

namespace GroupCommits

variable {ι α β : Type*} [DecidableEq α]

/-- What is permanent, what the clients read, and the clients that are in an operation. -/
structure Store (ι α β : Type*) where
  committed : α → β
  current : α → β
  busy : Set ι

inductive Event (ι α β : Type*)
  | enter (p : ι)
  | write (p : ι) (a : α) (b : β)
  | leave (p : ι)
  | commit
  | crash

namespace Store

inductive Step : Store ι α β → Event ι α β → Store ι α β → Prop
  | enter {s : Store ι α β} {p : ι} (h : p ∉ s.busy) :
      Step s (.enter p) { s with busy := insert p s.busy }
  | write {s : Store ι α β} {p : ι} (h : p ∈ s.busy) (a : α) (b : β) :
      Step s (.write p a b) { s with current := Function.update s.current a b }
  | leave {s : Store ι α β} {p : ι} (h : p ∈ s.busy) :
      Step s (.leave p) { s with busy := s.busy \ {p} }
  | commit {s : Store ι α β} (h : s.busy = ∅) : Step s .commit { s with committed := s.current }
  | crash {s : Store ι α β} : Step s .crash ⟨s.committed, s.committed, ∅⟩

/-- A step, or none. -/
def Moves (s : Store ι α β) : Option (Event ι α β) → Store ι α β → Prop
  | none, t => t = s
  | some e, t => Step s e t

structure Fresh (s : Store ι α β) : Prop where
  settled : s.current = s.committed
  idle : s.busy = ∅

/-- The store with values that are seen through `f`. -/
def view (f : (α → β) → α → β) (s : Store ι α β) : Store ι α β :=
  ⟨f s.committed, f s.current, s.busy⟩

variable {s t : Store ι α β} {e : Option (Event ι α β)}

theorem Moves.committed (h : s.Moves e t) :
    t.committed = s.committed ∨ s.busy = ∅ ∧ t.committed = s.current := by
  cases e with
  | none => exact .inl (congrArg Store.committed h)
  | some e =>
      cases h with
      | enter _ | write _ _ _ | leave _ | crash => exact .inl rfl
      | commit h => exact .inr ⟨h, rfl⟩

theorem Moves.view {f : (α → β) → α → β}
    (hwrite : ∀ p a b, e = some (.write p a b) →
      ∀ g, f (Function.update g a b) = Function.update (f g) a b)
    (h : s.Moves e t) : (s.view f).Moves e (t.view f) := by
  cases e with
  | none => exact congrArg (Store.view f) h
  | some e =>
      cases h with
      | enter h => exact .enter h
      | write h a b =>
          have hstep := Step.write (s := s.view f) h a b
          rw [Store.view, ← hwrite _ a b rfl] at hstep
          exact hstep
      | leave h => exact .leave h
      | commit h => exact .commit h
      | crash => exact .crash

end Store

end GroupCommits
