import Mathlib.Data.List.Basic

/-!
# Steps that touch their own part of a state

A list of items is worked through, one step of a state for each. When a step changes and depends on
no more than the view of its own item, and the items are pairwise apart, every item finds its part
of the state as it was at the start and leaves it to the end as its own step made it.
-/

namespace LocalSteps

variable {ι σ ν α : Type*} {step : σ → ι → σ} {view : ι → σ → ν} {apart : ι → ι → Prop}

structure Local (step : σ → ι → σ) (view : ι → σ → ν) (apart : ι → ι → Prop) : Prop where
  symm : ∀ i j, apart i j → apart j i
  frame : ∀ i j s, apart i j → view j (step s i) = view j s
  congr : ∀ i s t, view i s = view i t → view i (step s i) = view i (step t i)

namespace Local

variable (h : Local step view apart) {l : List ι} {i : ι} {s : σ}

include h

theorem view_foldl_of_apart (hi : ∀ j ∈ l, apart j i) : view i (l.foldl step s) = view i s := by
  induction l generalizing s with
  | nil => rfl
  | cons j l ih =>
      rw [List.foldl_cons, ih fun k hk => hi k (List.mem_cons_of_mem j hk)]
      exact h.frame j i s (hi j List.mem_cons_self)

theorem view_foldl (hl : l.Pairwise apart) (hi : i ∈ l) :
    view i (l.foldl step s) = view i (step s i) := by
  induction l generalizing s with
  | nil => exact absurd hi List.not_mem_nil
  | cons j l ih =>
      obtain ⟨hj, hl⟩ := List.pairwise_cons.mp hl
      rw [List.foldl_cons]
      rcases List.mem_cons.mp hi with rfl | hi
      · exact h.view_foldl_of_apart fun k hk => h.symm i k (hj k hk)
      · rw [ih hl hi]
        exact h.congr i _ _ (h.frame j i s (hj i hi))

theorem foldl_collect {f : α → ν → α} (hl : l.Pairwise apart) (a : α) :
    l.foldl (fun p i => (f p.1 (view i p.2), step p.2 i)) (a, s) =
      (l.foldl (fun a i => f a (view i s)) a, l.foldl step s) := by
  induction l generalizing a s with
  | nil => rfl
  | cons j l ih =>
      obtain ⟨hj, hl⟩ := List.pairwise_cons.mp hl
      rw [List.foldl_cons, List.foldl_cons, List.foldl_cons, ih hl]
      congr 1
      apply List.foldl_ext
      intro b i hi
      rw [h.frame j i s (hj i hi)]

end Local

end LocalSteps
