import Mathlib.Algebra.Order.Group.Nat
import Mathlib.Data.List.Basic
import Mathlib.Logic.Function.Basic
import Mathlib.Tactic.Common

/-!
# Rings of cells with running counters

A ring of `cap` cells holds the last part of a history: the members from place `r` on. A member is
put into the cell of its place modulo `cap`. The counters of places may themselves wrap, at a number
above `cap`.
-/

namespace RingHistory

variable {α : Type*}

structure Holds (cap : ℕ) (data : ℕ → α) (r : ℕ) (history : List α) : Prop where
  le : r ≤ history.length
  room : history.length ≤ r + cap
  cell : ∀ k (hk : k < history.length), r ≤ k → data (k % cap) = history[k]

variable {cap r : ℕ} {data : ℕ → α} {history : List α} {b : α}

theorem holds_nil : Holds cap data 0 [] :=
  ⟨le_rfl, Nat.zero_le _, fun _ hk => absurd hk (Nat.not_lt_zero _)⟩

theorem mod_ne {k l : ℕ} (hkl : k < l) (hl : l < k + cap) : k % cap ≠ l % cap := by
  intro h
  have hdvd : cap ∣ l - k := Nat.dvd_of_mod_eq_zero (Nat.sub_mod_eq_zero_of_mod_eq h.symm)
  have hle := Nat.le_of_dvd (Nat.sub_pos_of_lt hkl) hdvd
  omega

theorem Holds.put (h : Holds cap data r history) (hroom : history.length < r + cap) :
    Holds cap (Function.update data (history.length % cap) b) r (history ++ [b]) := by
  have hlen : (history ++ [b]).length = history.length + 1 := by simp
  refine ⟨h.le.trans (by omega), by omega, fun k hk hr => ?_⟩
  by_cases hold : k < history.length
  · rw [Function.update_of_ne (mod_ne hold (by omega)), List.getElem_append_left hold]
    exact h.cell k hold hr
  · obtain rfl : k = history.length := by omega
    rw [Function.update_self, List.getElem_append_right le_rfl]
    simp

theorem Holds.get (h : Holds cap data r history) (hr : r < history.length) :
    data (r % cap) = history[r] ∧ Holds cap data (r + 1) history :=
  ⟨h.cell r hr le_rfl, hr, h.room.trans (by omega), fun k hk hrk => h.cell k hk (by omega)⟩

theorem counter_eq_iff {k l bound : ℕ} (hkl : k ≤ l) (hl : l < k + bound) :
    l % bound = k % bound ↔ l = k := by
  refine ⟨fun h => ?_, fun h => by rw [h]⟩
  by_contra hne
  exact mod_ne (lt_of_le_of_ne hkl (Ne.symm hne)) hl h.symm

end RingHistory
