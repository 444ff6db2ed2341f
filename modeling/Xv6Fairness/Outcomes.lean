import Mathlib.Data.List.Basic
import Mathlib.Order.Basic

/-!
# Outcomes of computations that may fail

A computation with `Except` either ends with a value or stops with an error. `Ends may x post` says
that `x` stops with one of the errors `may` only, and that its value satisfies `post`. The rules
follow the computation: sequence, branch, and loops over lists with an invariant.
-/

namespace Outcomes

universe u v

variable {ε : Type u} {α β σ : Type v}

theorem ok_bind (a : α) (f : α → Except ε β) : (Except.ok a >>= f) = f a := rfl

theorem ok_of_toOption {x : Except ε α} {a : α} (h : x.toOption = some a) : x = .ok a := by
  cases x with
  | error e => cases h
  | ok b =>
      cases h
      rfl

inductive Ends (may : ε → Prop) : Except ε α → (α → Prop) → Prop
  | ok {a : α} {post : α → Prop} (h : post a) : Ends may (.ok a) post
  | error {e : ε} {post : α → Prop} (h : may e) : Ends may (.error e) post

variable {may may' : ε → Prop} {x y : Except ε α} {f : α → Except ε β} {post post' : α → Prop}
  {post₂ : β → Prop}

theorem exists_of_bind_ok {b : β} (h : (x >>= f) = .ok b) : ∃ a, x = .ok a ∧ f a = .ok b := by
  cases x with
  | ok a => exact ⟨a, rfl, h⟩
  | error e => cases h

theorem Ends.of_ok {a : α} (h : Ends may x post) (hx : x = .ok a) : post a := by
  cases h with
  | ok h =>
      cases hx
      exact h
  | error h => cases hx

theorem Ends.of_error {e : ε} (h : Ends may x post) (hx : x = .error e) : may e := by
  cases h with
  | ok h => cases hx
  | error h =>
      cases hx
      exact h

theorem Ends.exists_ok (h : Ends (fun _ => False) x post) : ∃ a, x = .ok a ∧ post a := by
  cases h with
  | ok h => exact ⟨_, rfl, h⟩
  | error h => exact h.elim

theorem Ends.mono (h : Ends may x post) (hmay : ∀ e, may e → may' e)
    (hpost : ∀ a, post a → post' a) : Ends may' x post' := by
  cases h with
  | ok h => exact .ok (hpost _ h)
  | error h => exact .error (hmay _ h)

theorem Ends.with_eq (h : Ends may x post) : Ends may x fun a => x = .ok a ∧ post a := by
  cases h with
  | ok h => exact .ok ⟨rfl, h⟩
  | error h => exact .error h

theorem Ends.imp (h : Ends may x post) (hpost : ∀ a, post a → post' a) : Ends may x post' :=
  h.mono (fun _ => id) hpost

theorem Ends.of_never (h : Ends (fun _ => False) x post) : Ends may x post :=
  h.mono (fun _ => False.elim) fun _ => id

theorem Ends.bind (h : Ends may x post) (hf : ∀ a, post a → Ends may (f a) post₂) :
    Ends may (x >>= f) post₂ := by
  cases h with
  | ok h => exact hf _ h
  | error h => exact .error h

theorem Ends.mapError {ε' : Type u} {g : ε → ε'} {may₂ : ε' → Prop} (h : Ends may x post)
    (hmay : ∀ e, may e → may₂ (g e)) : Ends may₂ (x.mapError g) post := by
  cases h with
  | ok h => exact .ok h
  | error h => exact .error (hmay _ h)

theorem Ends.ite {c : Prop} [Decidable c] (hx : c → Ends may x post) (hy : ¬ c → Ends may y post) :
    Ends may (if c then x else y) post := by
  split_ifs with h
  · exact hx h
  · exact hy h

theorem Ends.foldlM {step : σ → β → Except ε σ} (inv : σ → Prop) {s : σ} (l : List β) (h : inv s)
    (hstep : ∀ s b, inv s → Ends may (step s b) inv) : Ends may (l.foldlM step s) inv := by
  induction l generalizing s with
  | nil => exact .ok h
  | cons b l ih =>
      rw [List.foldlM_cons]
      exact (hstep s b h).bind fun _ => ih

/-- A loop over the numbers below `n`. The invariant speaks of the number of passes. -/
theorem Ends.foldlM_range {step : σ → ℕ → Except ε σ} (inv : ℕ → σ → Prop) {s : σ} (n : ℕ)
    (h : inv 0 s) (hstep : ∀ k s, k < n → inv k s → Ends may (step s k) (inv (k + 1))) :
    Ends may ((List.range n).foldlM step s) (inv n) := by
  induction n with
  | zero => exact .ok h
  | succ n ih =>
      rw [List.range_succ, List.foldlM_append]
      apply (ih fun k s hk => hstep k s (Nat.lt_succ_of_lt hk)).bind
      intro t ht
      rw [List.foldlM_cons]
      exact (hstep n t (Nat.lt_succ_self n) ht).bind fun _ => .ok

theorem Ends.foldlM_finRange {n : ℕ} {step : σ → Fin n → Except ε σ} (inv : ℕ → σ → Prop) {s : σ}
    (h : inv 0 s) (hstep : ∀ (k : Fin n) s, inv k s → Ends may (step s k) (inv (k + 1))) :
    Ends may ((List.finRange n).foldlM step s) (inv n) := by
  induction n with
  | zero => exact .ok h
  | succ n ih =>
      rw [List.finRange_succ_last, List.foldlM_append, List.foldlM_map]
      apply (ih fun k s hk => hstep k.castSucc s hk).bind
      intro t ht
      rw [List.foldlM_cons]
      exact (hstep (Fin.last n) t ht).bind fun _ => .ok

end Outcomes
