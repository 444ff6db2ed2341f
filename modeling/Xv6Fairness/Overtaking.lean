import Mathlib.Algebra.BigOperators.Group.Finset.Piecewise
import Mathlib.Algebra.Group.Action.Defs
import Mathlib.Algebra.Order.BigOperators.Group.Finset
import Mathlib.Data.Fintype.Basic

/-!
# Waiting and overtaking

Members of a finite set compete for a server. A snapshot says who is ready and who is ahead of
whom; a turn serves one ready member that is ahead of all others, or nobody, and other members may
become ready. For each waiting member the counters hold the turns it has been passed over, by whom,
and how often each other member has become ready ahead of it. The waiting time is bounded by the
number of such overtakings.
-/

namespace Overtaking

variable {ι : Type*}

structure Snapshot (ι : Type*) where
  ready : ι → Bool
  ahead : ι → ι → Bool

/-- A turn that serves `served`: the others keep their place, and only the member that is served
leaves. -/
structure Turn (s t : Snapshot ι) (served : Option ι) : Prop where
  stable : ∀ p q, s.ready p = true → s.ready q = true → t.ready p = true → t.ready q = true →
    t.ahead p q = s.ahead p q
  leaves : ∀ p, s.ready p = true → t.ready p = false → served = some p
  first : ∀ p, served = some p → s.ready p = true ∧ t.ready p = false ∧
    ∀ q, s.ready q = true → q ≠ p → s.ahead p q = true

/-- `q` goes on waiting. -/
def Waits (s t : Snapshot ι) (q : ι) : Bool := s.ready q && t.ready q

/-- `p` becomes ready ahead of `q`, which is waiting. -/
def Overtakes (s t : Snapshot ι) (p q : ι) : Bool :=
  Waits s t q && (!s.ready p && t.ready p && t.ahead p q)

/-- By waiting member: the turns that served another member, by member, and how often each other
member has overtaken it. -/
structure Counts (ι : Type*) where
  waits : ι → ℕ
  picks : ι → ι → ℕ
  entries : ι → ι → ℕ

def Counts.zero : Counts ι := ⟨fun _ => 0, fun _ _ => 0, fun _ _ => 0⟩

variable [DecidableEq ι]

/-- Every count of a member starts again when it is served or ceases to be ready. -/
def Counts.next (n : Counts ι) (s t : Snapshot ι) (served : Option ι) : Counts ι where
  waits q := if Waits s t q then n.waits q + (if served.isSome then 1 else 0) else 0
  picks q p := if Waits s t q then n.picks q p + (if served = some p then 1 else 0) else 0
  entries q p := if Waits s t q then n.entries q p + (if Overtakes s t p q then 1 else 0) else 0

variable [Fintype ι]

structure Inv (s : Snapshot ι) (n : Counts ι) : Prop where
  total : ∀ q, n.waits q = ∑ p, n.picks q p
  self : ∀ q, n.picks q q = 0
  /-- A member is served once for being ahead at first, and once for each overtaking. -/
  served : ∀ q p, p ≠ q →
    n.picks q p + (if s.ready p ∧ s.ready q ∧ s.ahead p q then 1 else 0) ≤ n.entries q p + 1
  /-- Between two overtakings a member is served. -/
  entered : ∀ q p, n.entries q p ≤ n.picks q p + if s.ready p then 1 else 0

omit [DecidableEq ι] in
theorem Inv.zero (s : Snapshot ι) : Inv s Counts.zero := by
  refine ⟨fun q => ?_, fun q => rfl, fun q p _ => ?_, fun q p => Nat.zero_le _⟩
  · simp [Counts.zero]
  · simp only [Counts.zero]
    split_ifs <;> omega

section Step

variable {s t : Snapshot ι} {served : Option ι} {n : Counts ι}

theorem Inv.next_total (hi : Inv s n) (q : ι) :
    (n.next s t served).waits q = ∑ p, (n.next s t served).picks q p := by
  simp only [Counts.next]
  split_ifs with hw hserved
  · obtain ⟨p, rfl⟩ := Option.isSome_iff_exists.mp hserved
    simp [Finset.sum_add_distrib, hi.total q]
  · have hnone : served = none := by simpa using hserved
    simp [hnone, hi.total q]
  · simp

theorem Inv.next_self (hi : Inv s n) (h : Turn s t served) (q : ι) :
    (n.next s t served).picks q q = 0 := by
  simp only [Counts.next]
  split_ifs with hw hserved
  · have hleft := (h.first q hserved).2.1
    simp [Waits, hleft] at hw
  · rw [hi.self q]
  · rfl

theorem Inv.next_served (hi : Inv s n) (h : Turn s t served) (q p : ι) (hne : p ≠ q) :
    (n.next s t served).picks q p + (if t.ready p ∧ t.ready q ∧ t.ahead p q then 1 else 0) ≤
      (n.next s t served).entries q p + 1 := by
  have hold := hi.served q p hne
  simp only [Counts.next]
  by_cases hw : Waits s t q = true
  · obtain ⟨hsq, htq⟩ : s.ready q = true ∧ t.ready q = true := by simpa [Waits] using hw
    simp only [hw, if_true]
    by_cases hserved : served = some p
    · -- it was ahead, and leaves
      obtain ⟨hsp, htp, hfirst⟩ := h.first p hserved
      have hahead := hfirst q hsq hne.symm
      rw [if_pos ⟨hsp, hsq, hahead⟩] at hold
      simp only [hserved, htp, if_true, Bool.false_eq_true, false_and, if_false]
      omega
    · by_cases hsp : s.ready p = true
      · have htp : t.ready p = true := by
          by_contra hleft
          exact hserved (h.leaves p hsp (by simpa using hleft))
        have hahead := h.stable p q hsp hsq htp htq
        have hno : Overtakes s t p q = false := by simp [Overtakes, hsp]
        simp only [hserved, hno, if_false, Bool.false_eq_true, hahead, htp, htq, hsp, hsq] at hold ⊢
        omega
      · have hfalse : s.ready p = false := by simpa using hsp
        simp only [hserved, if_false, Overtakes, hw, hfalse, Bool.not_false, Bool.true_and,
          Bool.and_eq_true, htq, true_and] at hold ⊢
        split_ifs at hold ⊢ <;> omega
  · have hnot : ¬ (t.ready q = true ∧ s.ready q = true) := fun hq => hw (by simp [Waits, hq])
    simp only [hw, if_false, Bool.false_eq_true]
    split_ifs <;> omega

theorem Inv.next_entered (hi : Inv s n) (h : Turn s t served) (q p : ι) :
    (n.next s t served).entries q p ≤
      (n.next s t served).picks q p + if t.ready p then 1 else 0 := by
  have hold := hi.entered q p
  simp only [Counts.next]
  by_cases hw : Waits s t q = true
  · simp only [hw, if_true]
    by_cases hserved : served = some p
    · obtain ⟨hsp, htp, -⟩ := h.first p hserved
      simp only [hserved, if_true, hsp, htp, Overtakes, Bool.not_true, Bool.false_and,
        Bool.and_false, Bool.false_eq_true, if_false] at hold ⊢
      omega
    · by_cases hsp : s.ready p = true
      · have htp : t.ready p = true := by
          by_contra hleft
          exact hserved (h.leaves p hsp (by simpa using hleft))
        simp only [hserved, if_false, hsp, htp, Overtakes, Bool.not_true, Bool.false_and,
          Bool.and_false, Bool.false_eq_true, if_true] at hold ⊢
        omega
      · have hfalse : s.ready p = false := by simpa using hsp
        simp only [hserved, if_false, hfalse, Bool.false_eq_true, Overtakes, hw, Bool.not_false,
          Bool.true_and, Bool.and_eq_true] at hold ⊢
        split_ifs with h1 h2
        · omega
        · exact absurd h1.1 h2
        · omega
        · omega
  · simp only [hw, if_false, Bool.false_eq_true]
    omega

theorem Inv.next (hi : Inv s n) (h : Turn s t served) : Inv t (n.next s t served) :=
  ⟨hi.next_total, hi.next_self h, hi.next_served h, hi.next_entered h⟩

end Step

/-- With at most `k` overtakings by each other member, a member is passed over at most `k + 1`
times by each. -/
theorem Inv.waits_le {s : Snapshot ι} {n : Counts ι} (hi : Inv s n) {k : ℕ}
    (hk : ∀ q p, p ≠ q → n.entries q p ≤ k)
    (q : ι) : n.waits q ≤ (Fintype.card ι - 1) * (k + 1) := by
  have hpick : ∀ p ∈ Finset.univ.erase q, n.picks q p ≤ k + 1 := by
    intro p hp
    have hserved := hi.served q p (Finset.ne_of_mem_erase hp)
    have hentries := hk q p (Finset.ne_of_mem_erase hp)
    omega
  calc n.waits q = ∑ p, n.picks q p := hi.total q
    _ = ∑ p ∈ Finset.univ.erase q, n.picks q p := by
        rw [← Finset.add_sum_erase _ _ (Finset.mem_univ q), hi.self q, Nat.zero_add]
    _ ≤ (Finset.univ.erase q).card * (k + 1) := by
        simpa only [smul_eq_mul] using Finset.sum_le_card_nsmul _ _ _ hpick
    _ = (Fintype.card ι - 1) * (k + 1) := by
        rw [Finset.card_erase_of_mem (Finset.mem_univ q), Finset.card_univ]

end Overtaking
