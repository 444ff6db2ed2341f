import Mathlib.Tactic.NormNum.Pow
import Xv6Fairness.LinearGenerators
import Xv6Fairness.UserStrings

/-!
# The sequence of random numbers

The generator of the test programs multiplies by `1103515245` and adds `12345`, modulo `2^32`. The
numbers it returns are fifteen bits of the seed.
-/

namespace Xv6Fairness

open LinearGenerators Finset

namespace RandomNumbers

/-- `custom_srand`: whatever the seed was, it is replaced. -/
def customSrand (_seed newSeed : UInt32) : UInt32 := newSeed

/-- The seed that a call leaves. -/
def nextSeed (seed : UInt32) : UInt32 := (customRand seed).2

def seedAfter (seed : UInt32) (calls : ℕ) : UInt32 := nextSeed^[calls] seed

/-- What is returned after so many earlier calls. -/
def returned (seed : UInt32) (calls : ℕ) : UInt32 := (customRand (seedAfter seed calls)).1

section Seeds

variable {seed : UInt32}

theorem toNat_nextSeed (seed : UInt32) :
    (nextSeed seed).toNat = (seed.toNat * 1103515245 + 12345) % 2 ^ 32 := by
  change (seed * 1103515245 + 12345).toNat = _
  rw [UInt32.toNat_add, UInt32.toNat_mul]
  exact Nat.mod_add_mod _ _ _

theorem nextSeed_modEq (seed : UInt32) :
    ((nextSeed seed).toNat : ℤ) ≡ affine 1103515245 12345 seed.toNat [ZMOD 2 ^ 32] := by
  rw [toNat_nextSeed, affine, Int.mul_comm]
  exact_mod_cast Int.natCast_modEq_iff.mpr (Nat.mod_modEq (seed.toNat * 1103515245 + 12345)
    (2 ^ 32))

theorem seedAfter_modEq (seed : UInt32) (calls : ℕ) :
    ((seedAfter seed calls).toNat : ℤ) ≡
      (affine 1103515245 12345)^[calls] seed.toNat [ZMOD 2 ^ 32] := by
  induction calls with
  | zero => rfl
  | succ calls ih =>
      rw [seedAfter, Function.iterate_succ_apply', Function.iterate_succ_apply']
      exact (nextSeed_modEq _).trans ((ih.mul_left _).add_right _)

theorem toNat_eq_iff_modEq {s t : UInt32} : (s.toNat : ℤ) ≡ t.toNat [ZMOD 2 ^ 32] ↔ s = t := by
  have hs : s.toNat < 2 ^ 32 := s.toNat_lt
  have ht : t.toNat < 2 ^ 32 := t.toNat_lt
  constructor
  · intro h
    have hnat : s.toNat ≡ t.toNat [MOD 2 ^ 32] := Int.natCast_modEq_iff.mp h
    exact UInt32.toNat_inj.mp (hnat.eq_of_lt_of_lt hs ht)
  · rintro rfl
    rfl

theorem nextSeed_returnsEvery : ReturnsEvery nextSeed (2 ^ 32) := by
  intro seed calls
  have hmod := seedAfter_modEq seed calls
  rw [← two_pow_dvd_iterate_sub (a := 1103515245) (c := 12345) rfl rfl 32 calls seed.toNat,
    ← Int.modEq_iff_dvd, ← toNat_eq_iff_modEq]
  exact ⟨fun h => h.symm.trans hmod, fun h => hmod.trans h.symm⟩

theorem toNat_returned (seed : UInt32) (calls : ℕ) :
    (returned seed calls).toNat = (seedAfter (nextSeed seed) calls).toNat / 65536 % 32768 := by
  rw [seedAfter, ← Function.iterate_succ_apply, Function.iterate_succ_apply']
  exact UInt32.toNat_mod _ _

end Seeds

/-- The seeds come back after `2^32` calls and not before, each seed is among them, and each of the
`2^15` numbers is returned equally often. -/
structure FullPeriod (seed : UInt32) : Prop where
  repeats : ∀ i j, seedAfter seed i = seedAfter seed j ↔ i ≡ j [MOD 2 ^ 32]
  visits : ∀ s, ∃ calls < 2 ^ 32, seedAfter seed calls = s
  returned_lt : ∀ calls, returned seed calls < 32768
  returned_card : ∀ v < 32768, #{calls ∈ range (2 ^ 32) | returned seed calls = v} = 2 ^ 17

theorem custom_rand_full_period (seed newSeed : UInt32) :
    FullPeriod (customSrand seed newSeed) := by
  generalize customSrand seed newSeed = s
  have hinj : Function.Injective UInt32.toNat := fun _ _ => UInt32.toNat_inj.mp
  have hlt : ∀ y : UInt32, y.toNat < 2 ^ 32 := UInt32.toNat_lt
  have hall : ∀ m < 2 ^ 32, ∃ y : UInt32, y.toNat = m :=
    fun m hm => ⟨UInt32.ofNat m, UInt32.toNat_ofNat_of_lt' hm⟩
  constructor
  · exact nextSeed_returnsEvery.iterate_eq_iff s
  · exact nextSeed_returnsEvery.visits UInt32.toNat hinj hlt s
  · intro calls
    rw [UInt32.lt_iff_toNat_lt, toNat_returned]
    exact Nat.mod_lt _ (by decide)
  · intro v hv
    have hv : v.toNat < 32768 := UInt32.lt_iff_toNat_lt.mp hv
    have hiff (calls : ℕ) : returned s calls = v ↔
        (nextSeed^[calls] (nextSeed s)).toNat / 65536 % 32768 = v.toNat := by
      rw [← UInt32.toNat_inj, toNat_returned, seedAfter]
    have hcard := nextSeed_returnsEvery.card_filter UInt32.toNat hinj hlt hall
      (fun m => m / 65536 % 32768 = v.toNat) (nextSeed s)
    simp only [hiff]
    rw [hcard]
    exact card_digit 2 32768 65536 v.toNat hv

end RandomNumbers

end Xv6Fairness
