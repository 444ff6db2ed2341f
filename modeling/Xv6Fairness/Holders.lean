import Mathlib.Data.Option.Basic
import Mathlib.Logic.Function.Basic

/-!
# Who holds a lock

A lock names the member that holds it, and the place of a member says whether it is that one. A step
of one member takes the lock while nobody has it, drops it, or leaves it alone.
-/

namespace Holders

variable {ι κ : Type*} {holds : κ → Bool} {place : ι → κ} {lock : Option ι} {p q : ι} {x : κ}

/-- The place of a member tells whether it holds the lock. -/
def HeldBy (holds : κ → Bool) (place : ι → κ) (lock : Option ι) : Prop :=
  ∀ p, holds (place p) = true ↔ lock = some p

theorem HeldBy.unique (h : HeldBy holds place lock) (hp : holds (place p) = true)
    (hq : holds (place q) = true) : p = q :=
  Option.some.inj (((h p).mp hp).symm.trans ((h q).mp hq))

theorem HeldBy.not_of_free (h : HeldBy holds place none) (p : ι) : holds (place p) = false := by
  rw [← Bool.not_eq_true, h p]
  exact fun h => Option.some_ne_none p h.symm

variable [DecidableEq ι]

theorem HeldBy.take (h : HeldBy holds place none) (hx : holds x = true) :
    HeldBy holds (Function.update place p x) (some p) := by
  intro r
  by_cases hr : r = p
  · rw [hr, Function.update_self, hx]
    exact iff_of_true rfl rfl
  · rw [Function.update_of_ne hr, h.not_of_free r]
    exact iff_of_false Bool.false_ne_true fun heq => hr (Option.some.inj heq).symm

theorem HeldBy.drop (h : HeldBy holds place lock) (hp : holds (place p) = true)
    (hx : holds x = false) :
    HeldBy holds (Function.update place p x) none := by
  intro r
  by_cases hr : r = p
  · rw [hr, Function.update_self, hx]
    exact iff_of_false Bool.false_ne_true fun heq => Option.some_ne_none p heq.symm
  · rw [Function.update_of_ne hr]
    exact iff_of_false (fun hold => hr (h.unique hold hp)) fun heq => Option.some_ne_none r heq.symm

theorem HeldBy.stay (h : HeldBy holds place lock) (hx : holds x = holds (place p)) :
    HeldBy holds (Function.update place p x) lock := by
  intro r
  by_cases hr : r = p
  · rw [hr, Function.update_self, hx, h p]
  · rw [Function.update_of_ne hr, h r]

end Holders
