import Mathlib.Algebra.BigOperators.Ring.Finset
import Mathlib.Algebra.Order.BigOperators.Group.Finset

/-!
# Counts over a finite family

Sums and counts over all members of a finite type when one member changes.
-/

namespace Counting

open Finset

variable {ι M α : Type*} [Fintype ι] [DecidableEq ι] {p : ι}

theorem sum_exchange [AddCommMonoid M] {f g : ι → M} (h : ∀ q, q ≠ p → f q = g q) :
    ∑ q, f q + g p = ∑ q, g q + f p := by
  have hrest : ∑ q ∈ univ.erase p, f q = ∑ q ∈ univ.erase p, g q :=
    sum_congr rfl fun q hq => h q (ne_of_mem_erase hq)
  rw [← add_sum_erase univ f (mem_univ p), ← add_sum_erase univ g (mem_univ p), hrest]
  rw [add_right_comm, add_comm (f p), add_right_comm]

theorem card_filter_exchange {P Q : ι → Prop} [DecidablePred P] [DecidablePred Q]
    (h : ∀ q, q ≠ p → (P q ↔ Q q)) :
    #{q | P q} + (if Q p then 1 else 0) = #{q | Q q} + if P p then 1 else 0 := by
  rw [card_filter, card_filter]
  exact sum_exchange (f := fun q => if P q then 1 else 0) (g := fun q => if Q q then 1 else 0)
    fun q hq => by simp only [h q hq]

theorem card_filter_update (pc : ι → α) (P : α → Prop) [DecidablePred P] (p : ι) (x : α) :
    #{q | P (Function.update pc p x q)} + (if P (pc p) then 1 else 0) =
      #{q | P (pc q)} + if P x then 1 else 0 := by
  have h := card_filter_exchange (p := p) (P := fun q => P (Function.update pc p x q))
    (Q := fun q => P (pc q)) fun q hq => by rw [Function.update_of_ne hq]
  rwa [Function.update_self] at h

omit [DecidableEq ι] in
theorem card_filter_pos {P : ι → Prop} [DecidablePred P] (h : P p) : 0 < #{q | P q} :=
  card_pos.mpr ⟨p, mem_filter.mpr ⟨mem_univ p, h⟩⟩

omit [DecidableEq ι] in
theorem not_of_card_filter_eq_zero {P : ι → Prop} [DecidablePred P] (h : #{q | P q} = 0) (p : ι) :
    ¬ P p :=
  fun hp => (card_filter_pos hp).ne' h

end Counting
