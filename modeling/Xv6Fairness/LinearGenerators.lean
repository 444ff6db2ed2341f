import Mathlib.Algebra.Ring.GeomSum
import Mathlib.Data.Finset.Card
import Mathlib.Data.Int.ModEq
import Mathlib.Dynamics.PeriodicPts.Defs
import Mathlib.RingTheory.Coprime.Lemmas
import Mathlib.Tactic.LinearCombination
import Mathlib.Tactic.Ring

/-!
# Linear congruential generators

Iterates of an affine map are geometric sums. When the multiplier is one more than a multiple of
four and the increment is odd, `n` steps come back to the start modulo `2^k` only if `2^k` divides
`n`. A map on finitely many values that comes back to every value after `N` steps and not before,
where `N` is how many values there are, visits them all.
-/

namespace LinearGenerators

open Finset

def affine (a c x : ℤ) : ℤ := a * x + c

section Iterates

variable {a c : ℤ}

theorem iterate_sub (a c x : ℤ) (n : ℕ) :
    (affine a c)^[n] x - x = (∑ i ∈ range n, a ^ i) * ((a - 1) * x + c) := by
  induction n with
  | zero => simp
  | succ n ih =>
      rw [Function.iterate_succ_apply', geom_sum_succ, affine]
      linear_combination a * ih

theorem geom_sum_double (a : ℤ) (m : ℕ) :
    ∑ i ∈ range (2 * m), a ^ i = (∑ i ∈ range m, a ^ i) * (1 + a ^ m) := by
  rw [two_mul, sum_range_add]
  simp only [pow_add, ← mul_sum]
  ring

theorem one_add_pow (ha : a % 4 = 1) (m : ℕ) : ∃ t, 1 + a ^ m = 2 * (2 * t + 1) := by
  have hmod : a ^ m ≡ 1 [ZMOD 4] := by
    have hpow : a ^ m ≡ 1 ^ m [ZMOD 4] := Int.ModEq.pow m ha
    rwa [one_pow] at hpow
  obtain ⟨t, ht⟩ := hmod.symm.dvd
  exact ⟨t, by linear_combination ht⟩

theorem two_pow_dvd_mul_odd (k : ℕ) (x t : ℤ) : (2 : ℤ) ^ k ∣ x * (2 * t + 1) ↔
    (2 : ℤ) ^ k ∣ x := by
  have hodd : IsCoprime (2 : ℤ) (2 * t + 1) := ⟨-t, 1, by ring⟩
  exact ⟨(IsCoprime.pow_left hodd).dvd_of_dvd_mul_right, fun h => h.mul_right _⟩

theorem two_pow_dvd_geom_sum (ha : a % 4 = 1) (k n : ℕ) :
    (2 : ℤ) ^ k ∣ ∑ i ∈ range n, a ^ i ↔ 2 ^ k ∣ n := by
  induction k generalizing n with
  | zero => simp
  | succ k ih =>
      rcases Nat.even_or_odd' n with ⟨m, rfl | rfl⟩
      · obtain ⟨t, ht⟩ := one_add_pow ha m
        have hsum : ∑ i ∈ range (2 * m), a ^ i = 2 * ((∑ i ∈ range m, a ^ i) * (2 * t + 1)) := by
          rw [geom_sum_double, ht]
          ring
        rw [hsum, pow_succ', pow_succ', mul_dvd_mul_iff_left two_ne_zero,
          Nat.mul_dvd_mul_iff_left two_pos, two_pow_dvd_mul_odd, ih]
      · obtain ⟨t, ht⟩ := one_add_pow ha m
        have hsum : ∑ i ∈ range (2 * m + 1), a ^ i =
            2 * (a * ((∑ i ∈ range m, a ^ i) * (2 * t + 1))) + 1 := by
          rw [geom_sum_succ, geom_sum_double, ht]
          ring
        have hleft : ¬ (2 : ℤ) ^ (k + 1) ∣ ∑ i ∈ range (2 * m + 1), a ^ i := by
          intro h
          have htwo := (Dvd.intro_left (2 ^ k) (pow_succ 2 k).symm).trans h
          rw [hsum] at htwo
          omega
        have hright : ¬ 2 ^ (k + 1) ∣ 2 * m + 1 := by
          intro h
          have htwo := (Dvd.intro_left (2 ^ k) (pow_succ 2 k).symm).trans h
          omega
        exact iff_of_false hleft hright

theorem two_pow_dvd_iterate_sub (ha : a % 4 = 1) (hc : c % 2 = 1) (k n : ℕ) (x : ℤ) :
    (2 : ℤ) ^ k ∣ (affine a c)^[n] x - x ↔ 2 ^ k ∣ n := by
  obtain ⟨s, hs⟩ : ∃ s, a - 1 = 2 * s := ⟨(a - 1) / 2, by omega⟩
  obtain ⟨d, hd⟩ : ∃ d, c = 2 * d + 1 := ⟨c / 2, by omega⟩
  have hodd : (a - 1) * x + c = 2 * (s * x + d) + 1 := by
    rw [hs, hd]
    ring
  rw [iterate_sub, hodd, two_pow_dvd_mul_odd, two_pow_dvd_geom_sum ha]

end Iterates

/-- Every value comes back after `N` steps, and not before. -/
def ReturnsEvery {α : Type*} (f : α → α) (N : ℕ) : Prop := ∀ x n, f^[n] x = x ↔ N ∣ n

section Periods

variable {α : Type*} {f : α → α} {N : ℕ}

theorem ReturnsEvery.iterate_eq_iff (h : ReturnsEvery f N) (x : α) (i j : ℕ) :
    f^[i] x = f^[j] x ↔ i ≡ j [MOD N] := by
  wlog hle : i ≤ j generalizing i j
  · rw [eq_comm, this j i (le_of_not_ge hle)]
    exact ⟨Nat.ModEq.symm, Nat.ModEq.symm⟩
  · obtain ⟨k, rfl⟩ := Nat.exists_eq_add_of_le hle
    rw [Nat.add_comm, Function.iterate_add_apply, eq_comm, h,
      Nat.modEq_iff_dvd' (Nat.le_add_left i k), Nat.add_sub_cancel]

variable (h : ReturnsEvery f N) (code : α → ℕ)
include h

theorem ReturnsEvery.injOn (hcode : Function.Injective code) (x : α) :
    Set.InjOn (fun n => code (f^[n] x)) (range N) := by
  intro i hi j hj heq
  have hmod := (h.iterate_eq_iff x i j).mp (hcode heq)
  exact Nat.ModEq.eq_of_lt_of_lt hmod (mem_range.mp hi) (mem_range.mp hj)

theorem ReturnsEvery.visits (hcode : Function.Injective code) (hlt : ∀ y, code y < N) (x y : α) :
    ∃ n < N, f^[n] x = y := by
  have hmaps : Set.MapsTo (fun n => code (f^[n] x)) (range N) (range N) :=
    fun n _ => mem_coe.mpr (mem_range.mpr (hlt _))
  have hsurj := surjOn_of_injOn_of_card_le _ hmaps (h.injOn code hcode x) le_rfl
  obtain ⟨n, hn, heq⟩ := hsurj (mem_coe.mpr (mem_range.mpr (hlt y)))
  exact ⟨n, mem_range.mp hn, hcode heq⟩

theorem ReturnsEvery.card_filter (hcode : Function.Injective code) (hlt : ∀ y, code y < N)
    (hall : ∀ m < N, ∃ y, code y = m) (p : ℕ → Prop) [DecidablePred p] (x : α) :
    #{n ∈ range N | p (code (f^[n] x))} = #{m ∈ range N | p m} := by
  apply card_nbij fun n => code (f^[n] x)
  · intro n hn
    rw [mem_coe, mem_filter] at hn ⊢
    exact ⟨mem_range.mpr (hlt _), hn.2⟩
  · exact (h.injOn code hcode x).mono (coe_subset.mpr (filter_subset _ _))
  · intro m hm
    rw [mem_coe, mem_filter] at hm
    obtain ⟨y, rfl⟩ := hall m (mem_range.mp hm.1)
    obtain ⟨n, hn, rfl⟩ := h.visits code hcode hlt x y
    exact ⟨n, mem_coe.mpr (mem_filter.mpr ⟨mem_range.mpr hn, hm.2⟩), rfl⟩

end Periods

theorem mul_add_div_of_lt {d r : ℕ} (q : ℕ) (hr : r < d) : (q * d + r) / d = q := by
  rw [Nat.mul_comm, Nat.mul_add_div (Nat.zero_lt_of_lt hr), Nat.div_eq_of_lt hr, Nat.add_zero]

theorem mul_add_lt {d k q r : ℕ} (hq : q < k) (hr : r < d) : q * d + r < k * d := by
  calc
    q * d + r < q * d + d := Nat.add_lt_add_left hr _
    _ = (q + 1) * d := (Nat.succ_mul _ _).symm
    _ ≤ k * d := Nat.mul_le_mul_right _ hq

/-- Below `k * m * d`, a digit stands as often as there are numbers before and behind it. -/
theorem card_digit (k m d v : ℕ) (hv : v < m) :
    #{x ∈ range (k * m * d) | x / d % m = v} = k * d := by
  have hcard : #(range k ×ˢ range d) = k * d := by
    rw [card_product, card_range, card_range]
  rw [← hcard]
  apply card_nbij' (fun x => (x / d / m, x % d)) fun p => (p.1 * m + v) * d + p.2
  · intro x hx
    rw [mem_coe, mem_filter, mem_range] at hx
    have hd : 0 < d := Nat.pos_of_lt_mul_left hx.1
    have hlow : x / d < k * m := Nat.div_lt_of_lt_mul (Nat.mul_comm _ _ ▸ hx.1)
    have hhigh : x / d / m < k := Nat.div_lt_of_lt_mul (Nat.mul_comm _ _ ▸ hlow)
    exact mem_coe.mpr (mk_mem_product (mem_range.mpr hhigh) (mem_range.mpr (Nat.mod_lt _ hd)))
  · intro p hp
    obtain ⟨hp, hr⟩ := mem_product.mp (mem_coe.mp hp)
    rw [mem_range] at hp hr
    rw [mem_coe, mem_filter, mem_range, mul_add_div_of_lt _ hr]
    exact ⟨mul_add_lt (mul_add_lt hp hv) hr, Nat.mul_add_mod_of_lt hv⟩
  · intro x hx
    rw [mem_coe, mem_filter] at hx
    change (x / d / m * m + v) * d + x % d = x
    rw [← hx.2, Nat.div_add_mod', Nat.div_add_mod']
  · intro p hp
    obtain ⟨hp, hr⟩ := mem_product.mp (mem_coe.mp hp)
    rw [mem_range] at hp hr
    change (((p.1 * m + v) * d + p.2) / d / m, ((p.1 * m + v) * d + p.2) % d) = p
    rw [mul_add_div_of_lt _ hr, mul_add_div_of_lt _ hv, Nat.mul_add_mod_of_lt hr]

end LinearGenerators
