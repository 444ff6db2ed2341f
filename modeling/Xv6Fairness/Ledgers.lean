import Mathlib.Data.List.Basic
import Mathlib.Data.List.Nodup

/-!
# Ledgers of resources

Every request for a resource has a number, and the resource that it grants is known by that number.
A ledger records what was granted and what was given back. Programs are followed by the list of what
they still owe.
-/

namespace Ledgers

structure Ledger where
  next : ℕ := 0
  taken : List ℕ := []
  dropped : List ℕ := []

namespace Ledger

def request (l : Ledger) (granted : Bool) : Option ℕ × Ledger :=
  if granted then (some l.next, ⟨l.next + 1, l.next :: l.taken, l.dropped⟩)
  else (none, ⟨l.next + 1, l.taken, l.dropped⟩)

def release (l : Ledger) (a : ℕ) : Ledger := ⟨l.next, l.taken, a :: l.dropped⟩

/-- Everything granted has been given back once, and nothing else. -/
structure Settled (l : Ledger) : Prop where
  once : ∀ a ∈ l.taken, l.dropped.count a = 1
  only : ∀ a ∈ l.dropped, a ∈ l.taken

/-- What is still to be given back. -/
structure Owes (l : Ledger) (xs : List ℕ) : Prop where
  perm : l.taken.Perm (xs ++ l.dropped)
  nodup : l.taken.Nodup
  below : ∀ a ∈ l.taken, a < l.next

variable {l : Ledger} {xs ys : List ℕ} {a : ℕ} {granted : Bool}

@[simp] theorem request_next : (l.request granted).2.next = l.next + 1 := by
  cases granted <;> rfl

@[simp] theorem release_next : (l.release a).next = l.next := rfl

theorem request_fst : (l.request granted).1 = if granted then some l.next else none := by
  cases granted <;> rfl

theorem Owes.start : Owes {} [] := ⟨.nil, List.nodup_nil, fun _ h => absurd h List.not_mem_nil⟩

theorem Owes.congr (h : l.Owes xs) (hperm : xs.Perm ys) : l.Owes ys :=
  ⟨h.perm.trans (hperm.append_right _), h.nodup, h.below⟩

theorem Owes.request (h : l.Owes xs) (granted : Bool) :
    (l.request granted).2.Owes ((l.request granted).1.toList ++ xs) := by
  cases granted with
  | false => exact ⟨h.perm, h.nodup, fun a ha => Nat.lt_succ_of_lt (h.below a ha)⟩
  | true =>
      refine ⟨h.perm.cons _, List.nodup_cons.mpr ⟨fun hmem => ?_, h.nodup⟩, fun a ha => ?_⟩
      · exact Nat.lt_irrefl _ (h.below _ hmem)
      · rcases List.mem_cons.mp ha with rfl | ha
        · exact Nat.lt_succ_self _
        · exact Nat.lt_succ_of_lt (h.below a ha)

theorem Owes.release (h : l.Owes (a :: xs)) : (l.release a).Owes xs :=
  ⟨h.perm.trans List.perm_middle.symm, h.nodup, h.below⟩

theorem Owes.settled_iff (h : l.Owes xs) : l.Settled ↔ xs = [] := by
  constructor
  · intro hsettled
    by_contra hne
    obtain ⟨a, ha⟩ := List.exists_mem_of_ne_nil xs hne
    have htaken : a ∈ l.taken := h.perm.mem_iff.mpr (List.mem_append_left _ ha)
    have hone := hsettled.once a htaken
    have hcount := h.perm.count_eq a
    rw [List.count_append, hone, List.count_eq_one_of_mem h.nodup htaken] at hcount
    have hpos := List.count_pos_iff.mpr ha
    omega
  · rintro rfl
    have hperm : l.taken.Perm l.dropped := h.perm
    refine ⟨fun a ha => ?_, fun a ha => hperm.mem_iff.mpr ha⟩
    rw [← hperm.count_eq a]
    exact List.count_eq_one_of_mem h.nodup ha

end Ledger

end Ledgers
