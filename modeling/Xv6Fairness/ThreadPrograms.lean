import Mathlib.Logic.Basic

/-!
# Programs of atomic actions

A program of a thread performs atomic actions, one after another, and goes on with their results.
What the thread knows and owns is its view. Rules say in which views an action is allowed and what
the view may be afterwards; a program is safe in a view when each of its actions is allowed in turn.
What a program does that nobody interrupts is a partial function.
-/

namespace ThreadPrograms

variable {Act : Type} {Res : Act → Type} {α β : Type} {V : Type*}

inductive Prog (Res : Act → Type) (α : Type) : Type
  | ret (a : α)
  | act (a : Act) (k : Res a → Prog Res α)

namespace Prog

def bind : Prog Res α → (α → Prog Res β) → Prog Res β
  | .ret a, f => f a
  | .act a k, f => .act a fun r => (k r).bind f

instance : Monad (Prog Res) where
  pure := .ret
  bind := .bind

def perform (a : Act) : Prog Res (Res a) := .act a .ret

/-- Each action is allowed by a rule, and `post` holds of the result and the view at the end. -/
def Safe (rule : V → (a : Act) → (Res a → V → Prop) → Prop) (post : α → V → Prop) :
    Prog Res α → V → Prop
  | .ret a, v => post a v
  | .act a k, v => ∃ R, rule v a R ∧ ∀ r w, R r w → (k r).Safe rule post w

variable {rule : V → (a : Act) → (Res a → V → Prop) → Prop} {post post' : α → V → Prop}
  {last : β → V → Prop} {x : Prog Res α} {f : α → Prog Res β} {v : V} {a : Act}

theorem Safe.perform {R : Res a → V → Prop} (h : rule v a R) : (perform a).Safe rule R v :=
  ⟨R, h, fun _ _ hr => hr⟩

theorem Safe.mono (h : x.Safe rule post v) (himp : ∀ b w, post b w → post' b w) :
    x.Safe rule post' v := by
  induction x generalizing v with
  | ret b => exact himp b v h
  | act a k ih =>
      obtain ⟨R, hR, hk⟩ := h
      exact ⟨R, hR, fun r w hr => ih r (hk r w hr)⟩

theorem Safe.bind (h : x.Safe rule post v) (hf : ∀ b w, post b w → (f b).Safe rule last w) :
    (x >>= f).Safe rule last v := by
  induction x generalizing v with
  | ret b => exact hf b v h
  | act a k ih =>
      obtain ⟨R, hR, hk⟩ := h
      exact ⟨R, hR, fun r w hr => ih r (hk r w hr)⟩

theorem Safe.act {R : Res a → V → Prop} {g : Res a → Prog Res β} (h : rule v a R)
    (hg : ∀ r w, R r w → (g r).Safe rule last w) : (Prog.perform a >>= g).Safe rule last v :=
  (Safe.perform h).bind hg

theorem bind_assoc {γ : Type} {g : β → Prog Res γ} :
    (x.bind f).bind g = x.bind fun a => (f a).bind g := by
  induction x with
  | ret b => rfl
  | act a k ih => exact congrArg (Prog.act a) (funext ih)

section Alone

variable {M : Type*} {exec : (a : Act) → M → Option (Res a × M)} {m m' : M}

/-- The run of a program that nobody interrupts. -/
def alone (exec : (a : Act) → M → Option (Res a × M)) : Prog Res α → M → Option (α × M)
  | .ret b, m => some (b, m)
  | .act a k, m => (exec a m).bind fun r => (k r.1).alone exec r.2

theorem alone_bind {b : α} (h : x.alone exec m = some (b, m')) :
    (x >>= f).alone exec m = (f b).alone exec m' := by
  induction x generalizing m with
  | ret c =>
      cases h
      rfl
  | act a k ih =>
      obtain ⟨r, hr, h⟩ := Option.bind_eq_some_iff.mp h
      change (exec a m).bind _ = _
      rw [hr]
      exact ih r.1 h

theorem alone_act {a : Act} {r : Res a} {g : Res a → Prog Res β} (h : exec a m = some (r, m')) :
    (perform a >>= g).alone exec m = (g r).alone exec m' := by
  change (exec a m).bind _ = _
  rw [h]
  rfl

end Alone

end Prog

end ThreadPrograms
