import Xv6Fairness.Counting

/-!
# Slots that are counted and locked

Users may hold one slot each, and some of those who hold it have its lock. Every slot counts its
users and knows who has its lock. The rules follow what a user can do: take a slot, move on with it,
lock it, unlock it and drop it.
-/

namespace SlotHoldings

open Finset

variable {ι κ U : Type*} [Fintype ι] [DecidableEq κ]

structure Holdings (slot : U → Option κ) (Locks : U → Prop) (count : κ → ℕ) (lock : κ → Option ι)
    (use : ι → U) : Prop where
  count : ∀ i, count i = #{u | slot (use u) = some i}
  lock : ∀ i u, lock i = some u ↔ slot (use u) = some i ∧ Locks (use u)

variable {slot : U → Option κ} {Locks : U → Prop} {count count' : κ → ℕ} {lock lock' : κ → Option ι}
  {use : ι → U} {u v : ι} {i : κ} {y : U}

theorem Holdings.pos (h : Holdings slot Locks count lock use) (hu : slot (use u) = some i) :
    0 < count i := by
  rw [h.count]
  exact Counting.card_filter_pos (P := fun u => slot (use u) = some i) hu

theorem Holdings.only (h : Holdings slot Locks count lock use) (hi : count i = 1)
    (hu : slot (use u) = some i) (hv : slot (use v) = some i) : v = u := by
  rw [h.count, card_eq_one] at hi
  obtain ⟨w, hw⟩ := hi
  have hmem : ∀ p, slot (use p) = some i → p = w := fun p hp => by
    have hp' : p ∈ ({u | slot (use u) = some i} : Finset ι) := mem_filter.mpr ⟨mem_univ p, hp⟩
    rw [hw] at hp'
    exact mem_singleton.mp hp'
  rw [hmem v hv, hmem u hu]

theorem Holdings.holder (h : Holdings slot Locks count lock use) (hu : slot (use u) = some i)
    (hlocks : Locks (use u)) (hv : slot (use v) = some i) (hv' : Locks (use v)) : v = u :=
  Option.some_inj.mp (((h.lock i v).mpr ⟨hv, hv'⟩).symm.trans ((h.lock i u).mpr ⟨hu, hlocks⟩))

section Update

variable [DecidableEq ι] (h : Holdings slot Locks count lock use)
include h

theorem Holdings.update (hcount : ∀ j, j ≠ i → count' j = count j)
    (hlock : ∀ j, j ≠ i → lock' j = lock j)
    (hold : ∀ j, slot (use u) = some j → j = i) (hnew : ∀ j, slot y = some j → j = i)
    (hself : count' i + (if slot (use u) = some i then 1 else 0) =
      count i + if slot y = some i then 1 else 0)
    (hmine : lock' i = some u ↔ slot y = some i ∧ Locks y)
    (hothers : ∀ v, v ≠ u → (lock' i = some v ↔ lock i = some v)) :
    Holdings slot Locks count' lock' (Function.update use u y) := by
  refine ⟨fun j => ?_, fun j v => ?_⟩
  · have hsum := Counting.card_filter_update use (fun x => slot x = some j) u y
    by_cases hj : j = i
    · subst hj
      have hc := h.count j
      omega
    · rw [if_neg fun hu => hj (hold j hu), if_neg fun hy => hj (hnew j hy)] at hsum
      rw [hcount j hj, h.count j]
      omega
  · by_cases hv : v = u
    · rw [hv, Function.update_self]
      by_cases hj : j = i
      · rw [hj]
        exact hmine
      · rw [hlock j hj, h.lock]
        exact iff_of_false (fun hu => hj (hold j hu.1)) fun hy => hj (hnew j hy.1)
    · rw [Function.update_of_ne hv, ← h.lock]
      by_cases hj : j = i
      · rw [hj]
        exact hothers v hv
      · rw [hlock j hj]

theorem Holdings.take (hcount : ∀ j, j ≠ i → count' j = count j)
    (hlock : ∀ j, j ≠ i → lock' j = lock j)
    (hu : slot (use u) = none) (hy : slot y = some i) (hfree : ¬ Locks y)
    (hself : count' i = count i + 1) (hkeep : lock' i = lock i) :
    Holdings slot Locks count' lock' (Function.update use u y) := by
  apply h.update hcount hlock
  · intro j hj
    rw [hu] at hj
    cases hj
  · intro j hj
    exact Option.some_inj.mp (hj.symm.trans hy)
  · rw [hu, hy, if_pos rfl, hself]
    rfl
  · rw [hkeep, h.lock, hu]
    exact iff_of_false (fun hl => Option.some_ne_none i hl.1.symm) fun hl => hfree hl.2
  · intro v _
    rw [hkeep]

theorem Holdings.drop (hcount : ∀ j, j ≠ i → count' j = count j)
    (hlock : ∀ j, j ≠ i → lock' j = lock j)
    (hu : slot (use u) = some i) (hfree : ¬ Locks (use u)) (hy : slot y = none)
    (hself : count' i = count i - 1) (hkeep : lock' i = lock i) :
    Holdings slot Locks count' lock' (Function.update use u y) := by
  have hpos := h.pos hu
  apply h.update hcount hlock
  · intro j hj
    exact Option.some_inj.mp (hj.symm.trans hu)
  · intro j hj
    rw [hy] at hj
    cases hj
  · rw [hu, hy, if_pos rfl, hself, if_neg (Option.some_ne_none i).symm]
    omega
  · rw [hkeep, h.lock, hy]
    exact iff_of_false (fun hl => hfree hl.2) fun hl => Option.some_ne_none i hl.1.symm
  · intro v _
    rw [hkeep]

theorem Holdings.stay (hcount : ∀ j, count' j = count j) (hlock : ∀ j, lock' j = lock j)
    (hslot : slot y = slot (use u)) (hlocks : Locks y ↔ Locks (use u)) :
    Holdings slot Locks count' lock' (Function.update use u y) := by
  obtain rfl : count' = count := funext hcount
  obtain rfl : lock' = lock := funext hlock
  refine ⟨fun j => ?_, fun j v => ?_⟩
  · have hsum := Counting.card_filter_update use (fun x => slot x = some j) u y
    rw [hslot] at hsum
    rw [h.count]
    omega
  · rw [h.lock]
    by_cases hv : v = u
    · rw [hv, Function.update_self, hslot, hlocks]
    · rw [Function.update_of_ne hv]

theorem Holdings.acquire (hcount : ∀ j, count' j = count j) (hlock : ∀ j, j ≠ i → lock' j = lock j)
    (hu : slot (use u) = some i) (hy : slot y = some i) (hnone : lock i = none) (hlocks : Locks y)
    (hmine : lock' i = some u) : Holdings slot Locks count' lock' (Function.update use u y) := by
  apply h.update (fun j _ => hcount j) hlock
  · intro j hj
    exact Option.some_inj.mp (hj.symm.trans hu)
  · intro j hj
    exact Option.some_inj.mp (hj.symm.trans hy)
  · rw [hu, hy, hcount]
  · exact iff_of_true hmine ⟨hy, hlocks⟩
  · intro v hv
    rw [hmine, hnone]
    exact iff_of_false (fun hl => hv (Option.some_inj.mp hl).symm) (Option.some_ne_none v).symm

theorem Holdings.release (hcount : ∀ j, count' j = count j) (hlock : ∀ j, j ≠ i → lock' j = lock j)
    (hu : slot (use u) = some i) (hy : slot y = some i) (hlocks : Locks (use u)) (hfree : ¬ Locks y)
    (hnone : lock' i = none) : Holdings slot Locks count' lock' (Function.update use u y) := by
  have hmine : lock i = some u := (h.lock i u).mpr ⟨hu, hlocks⟩
  apply h.update (fun j _ => hcount j) hlock
  · intro j hj
    exact Option.some_inj.mp (hj.symm.trans hu)
  · intro j hj
    exact Option.some_inj.mp (hj.symm.trans hy)
  · rw [hu, hy, hcount]
  · rw [hnone]
    exact iff_of_false (Option.some_ne_none u).symm fun hl => hfree hl.2
  · intro v hv
    rw [hmine, hnone]
    exact iff_of_false (Option.some_ne_none v).symm fun hl => hv (Option.some_inj.mp hl).symm

end Update

end SlotHoldings
