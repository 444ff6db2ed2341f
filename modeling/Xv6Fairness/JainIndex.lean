import Mathlib.Algebra.BigOperators.Ring.Finset
import Mathlib.Algebra.Order.BigOperators.Group.List
import Mathlib.Tactic.LinearCombination
import Mathlib.Tactic.Linarith
import Xv6Fairness.ThroughputNormalisation

/-!
# The fairness index of a round

`J_cpu` is Jain's index of the execution times, scaled by a million and rounded down. The square of
the sum times a million leaves 32 bits as soon as the times sum up to 66 ticks.
-/

namespace Xv6Fairness

section Squares

theorem sum_sq_sub (a b : ℤ) (l : List ℤ) :
    (l.map fun t => (a * t - b) ^ 2).sum =
      a ^ 2 * (l.map (· ^ 2)).sum - 2 * a * b * l.sum + l.length * b ^ 2 := by
  induction l with
  | nil => simp
  | cons t l ih =>
      simp only [List.map_cons, List.sum_cons, List.length_cons, ih]
      push_cast
      ring

theorem variance_eq (l : List ℤ) :
    (l.map fun t => (l.length * t - l.sum) ^ 2).sum =
      l.length * (l.length * (l.map (· ^ 2)).sum - l.sum ^ 2) := by
  rw [sum_sq_sub]
  ring

theorem sq_sum_le (l : List ℤ) : l.sum ^ 2 ≤ l.length * (l.map (· ^ 2)).sum := by
  cases l with
  | nil => simp
  | cons t l =>
      have hnonneg : 0 ≤ ((t :: l).map fun u => ((t :: l).length * u - (t :: l).sum) ^ 2).sum := by
        apply List.sum_nonneg
        intro x hx
        obtain ⟨u, -, rfl⟩ := List.mem_map.mp hx
        positivity
      have hpos : (0 : ℤ) < (t :: l).length := by
        rw [List.length_cons]
        positivity
      rw [variance_eq] at hnonneg
      exact sub_nonneg.mp (nonneg_of_mul_nonneg_right hnonneg hpos)

theorem sq_sum_eq_iff (l : List ℤ) :
    l.sum ^ 2 = l.length * (l.map (· ^ 2)).sum ↔ ∀ t ∈ l, ∀ u ∈ l, t = u := by
  constructor
  · intro h t ht u hu
    have hlen : (l.length : ℤ) ≠ 0 := by
      exact_mod_cast (List.length_pos_of_mem ht).ne'
    have hzero : (l.map fun t => (l.length * t - l.sum) ^ 2).sum = 0 := by
      rw [variance_eq, h, sub_self, mul_zero]
    have hmember : ∀ t ∈ l, l.length * t = l.sum := by
      intro t ht
      have hle : (l.length * t - l.sum) ^ 2 ≤ (l.map fun t => (l.length * t - l.sum) ^ 2).sum := by
        apply List.single_le_sum
        · intro x hx
          obtain ⟨u, -, rfl⟩ := List.mem_map.mp hx
          positivity
        · exact List.mem_map_of_mem ht
      rw [hzero] at hle
      exact sub_eq_zero.mp (pow_eq_zero_iff two_ne_zero |>.mp (le_antisymm hle (by positivity)))
    exact mul_left_cancel₀ hlen ((hmember t ht).trans (hmember u hu).symm)
  · intro h
    cases l with
    | nil => rfl
    | cons t l =>
        obtain heq := List.eq_replicate_of_mem fun u hu => h u hu t List.mem_cons_self
        rw [heq]
        simp only [List.sum_replicate, List.map_replicate, List.length_replicate, nsmul_eq_mul]
        ring

end Squares

/-- Jain's index of a list, scaled and rounded down. -/
def jainIndex (l : List ℕ) : ℕ := 1000000 * l.sum ^ 2 / (l.length * (l.map (· ^ 2)).sum)

section Index

variable (l : List ℕ)

theorem cast_sum : (l.map Nat.cast).sum = (l.sum : ℤ) := (Nat.cast_list_sum l).symm

theorem cast_sum_sq : ((l.map Nat.cast).map (· ^ 2)).sum = (((l.map (· ^ 2)).sum : ℕ) : ℤ) := by
  rw [Nat.cast_list_sum, List.map_map, List.map_map]
  congr 2

theorem sq_sum_le_nat : l.sum ^ 2 ≤ l.length * (l.map (· ^ 2)).sum := by
  have hint := sq_sum_le (l.map Nat.cast)
  rw [List.length_map, cast_sum, cast_sum_sq] at hint
  exact_mod_cast hint

theorem sq_sum_eq_iff_nat :
    l.sum ^ 2 = l.length * (l.map (· ^ 2)).sum ↔ ∀ t ∈ l, ∀ u ∈ l, t = u := by
  have hint := sq_sum_eq_iff (l.map Nat.cast)
  rw [List.length_map, cast_sum, cast_sum_sq] at hint
  simp only [List.forall_mem_map, Nat.cast_inj] at hint
  rw [← hint]
  exact_mod_cast Iff.rfl

theorem sum_sq_le : (l.map (· ^ 2)).sum ≤ l.sum ^ 2 := by
  induction l with
  | nil => simp
  | cons t l ih =>
      rw [List.map_cons, List.sum_cons, List.sum_cons]
      nlinarith [Nat.zero_le (t * l.sum)]

theorem sum_sq_pos {l : List ℕ} (h : ∃ t ∈ l, t ≠ 0) : 0 < (l.map (· ^ 2)).sum := by
  obtain ⟨t, ht, hne⟩ := h
  have hle : t ^ 2 ≤ (l.map (· ^ 2)).sum := List.single_le_sum (fun _ _ => Nat.zero_le _) _
    (List.mem_map_of_mem ht)
  exact (Nat.pow_pos (Nat.pos_of_ne_zero hne)).trans_le hle

variable {l} (h : ∃ t ∈ l, t ≠ 0)

include h

theorem denominator_pos : 0 < l.length * (l.map (· ^ 2)).sum := by
  have hpos := sum_sq_pos h
  obtain ⟨t, ht, -⟩ := h
  exact Nat.mul_pos (List.length_pos_of_mem ht) hpos

omit h in
theorem jainIndex_le : jainIndex l ≤ 1000000 := by
  apply Nat.div_le_of_le_mul
  rw [Nat.mul_comm _ 1000000]
  exact Nat.mul_le_mul_left _ (sq_sum_le_nat l)

theorem le_jainIndex : 1000000 / l.length ≤ jainIndex l := by
  rw [jainIndex, ← Nat.mul_div_mul_right _ _ (sum_sq_pos h)]
  exact Nat.div_le_div_right (Nat.mul_le_mul_left _ (sum_sq_le l))

theorem jainIndex_eq_iff : jainIndex l = 1000000 ↔ ∀ t ∈ l, ∀ u ∈ l, t = u := by
  rw [← sq_sum_eq_iff_nat]
  have hpos := denominator_pos h
  constructor
  · intro heq
    refine (sq_sum_le_nat l).antisymm (not_lt.mp fun hlt => ?_)
    have hless : jainIndex l < 1000000 := by
      apply Nat.div_lt_of_lt_mul
      rw [Nat.mul_comm _ 1000000]
      exact Nat.mul_lt_mul_of_pos_left hlt (by decide)
    exact hless.ne heq
  · intro heq
    rw [jainIndex, heq]
    exact Nat.mul_div_cancel _ hpos

end Index

section Stored

variable (m : Measurements)

/-- The execution times as numbers. -/
def ticks : List ℕ := m.times.map Int32.toNatClampNeg

/-- `J_cpu_scaled` ought to be Jain's index: between one n-th and one, and one for equal times only.
-/
def FairnessExact (s : Metrics) : Prop :=
  let value := (measure m s).1.jCpuScaled.toNat
  value = jainIndex (ticks m) ∧ 1000000 / m.times.length ≤ value ∧ value ≤ 1000000 ∧
    (value = 1000000 ↔ ∀ t ∈ m.times, ∀ u ∈ m.times, t = u)

theorem foldl_add_toNat {α : Type} (f : α → UInt32) (g : α → ℕ) (l : List α)
    (h : ∀ t ∈ l, (f t).toNat = g t % 2 ^ 32) (acc : UInt32) :
    (l.foldl (fun sum t => sum + f t) acc).toNat = (acc.toNat + (l.map g).sum) % 2 ^ 32 := by
  induction l generalizing acc with
  | nil =>
      rw [List.foldl_nil, List.map_nil, List.sum_nil, Nat.add_zero, Nat.mod_eq_of_lt acc.toNat_lt]
  | cons t l ih =>
      rw [List.foldl_cons, ih (fun u hu => h u (List.mem_cons_of_mem _ hu)), UInt32.toNat_add,
        h t List.mem_cons_self, List.map_cons, List.sum_cons, Nat.add_mod_mod, Nat.mod_add_mod,
        Nat.add_assoc]

variable {m} {s : Metrics} (hnonneg : ∀ t ∈ m.times, 0 ≤ t)

include hnonneg

theorem sumExecTimes_toNat : (sumExecTimes m).toNat = (ticks m).sum % 2 ^ 32 := by
  have hsum := foldl_add_toNat Int32.toUInt32 Int32.toNatClampNeg m.times (fun t ht => by
    rw [← Int32.toNat_toUInt32_of_le (hnonneg t ht), Nat.mod_eq_of_lt t.toUInt32.toNat_lt]) 0
  rw [UInt32.toNat_zero, Nat.zero_add] at hsum
  exact hsum

theorem sumExecTimesSq_toNat :
    (sumExecTimesSq m).toNat = ((ticks m).map (· ^ 2)).sum % 2 ^ 32 := by
  have hsum := foldl_add_toNat (fun t : Int32 => (t * t).toUInt32)
      (fun t => t.toNatClampNeg ^ 2) m.times
    (fun t ht => by
      change (t.toUInt32 * t.toUInt32).toNat = _
      rw [UInt32.toNat_mul, Int32.toNat_toUInt32_of_le (hnonneg t ht), Nat.pow_two]) 0
  rw [UInt32.toNat_zero, Nat.zero_add] at hsum
  rw [ticks, List.map_map]
  exact hsum

theorem ticks_equal_iff :
    (∀ t ∈ ticks m, ∀ u ∈ ticks m, t = u) ↔ ∀ t ∈ m.times, ∀ u ∈ m.times, t = u := by
  rw [ticks, List.forall_mem_map]
  refine forall₂_congr fun t ht => ?_
  rw [List.forall_mem_map]
  refine forall₂_congr fun u hu => ⟨fun heq => ?_, congrArg _⟩
  have hlt := Int32.le_iff_toInt_le.mp (hnonneg t ht)
  have hlu := Int32.le_iff_toInt_le.mp (hnonneg u hu)
  have hzero : (0 : Int32).toInt = 0 := rfl
  rw [Int32.toNatClampNeg, Int32.toNatClampNeg] at heq
  rw [← Int32.toInt_inj]
  omega

variable (hsome : ∃ t ∈ m.times, t ≠ 0)

include hsome

theorem ticks_ne_zero : ∃ t ∈ ticks m, t ≠ 0 := by
  obtain ⟨t, ht, hne⟩ := hsome
  refine ⟨_, List.mem_map_of_mem ht, fun hzero => hne ?_⟩
  have hle := Int32.le_iff_toInt_le.mp (hnonneg t ht)
  have hz : (0 : Int32).toInt = 0 := rfl
  rw [← Int32.toInt_inj]
  rw [Int32.toNatClampNeg] at hzero
  omega

theorem jCpu_stored (hfits : (ticks m).length * ((ticks m).map (· ^ 2)).sum < 2 ^ 32) :
    (measure m s).1.jCpuScaled.toNat =
      1000000 * (ticks m).sum ^ 2 % 2 ^ 32 / ((ticks m).length * ((ticks m).map (· ^ 2)).sum) := by
  have hticks := ticks_ne_zero hnonneg hsome
  have hq := sum_sq_pos hticks
  have hd := denominator_pos hticks
  have hlen : (ticks m).length = m.times.length := List.length_map _
  have hn : m.times.length ≤ 20 := m.completed_eq ▸ m.completed_le
  have hsq : (sumExecTimesSq m).toNat = ((ticks m).map (· ^ 2)).sum := by
    rw [sumExecTimesSq_toNat hnonneg]
    exact Nat.mod_eq_of_lt ((Nat.le_mul_of_pos_left _ (Nat.pos_of_mul_pos_right hd)).trans_lt hfits)
  have hden : (UInt32.ofNat m.times.length * sumExecTimesSq m).toNat =
      (ticks m).length * ((ticks m).map (· ^ 2)).sum := by
    rw [UInt32.toNat_mul, UInt32.toNat_ofNat', hsq, Nat.mod_mul_mod, ← hlen, Nat.mod_eq_of_lt hfits]
  have hnum : (sumExecTimes m * (sumExecTimes m * SCALE_FACTOR)).toNat =
      1000000 * (ticks m).sum ^ 2 % 2 ^ 32 := by
    rw [UInt32.toNat_mul, UInt32.toNat_mul, sumExecTimes_toNat hnonneg]
    change (ticks m).sum % 2 ^ 32 * ((ticks m).sum % 2 ^ 32 * 1000000 % 2 ^ 32) % 2 ^ 32 = _
    rw [Nat.mod_mul_mod, Nat.mod_mul_mod, Nat.mul_mod_mod]
    congr 1
    ring
  have hsquares : 0 < sumExecTimesSq m := by
    rw [UInt32.lt_iff_toNat_lt, hsq]
    exact hq
  have hpos : 0 < UInt32.ofNat m.times.length * sumExecTimesSq m := by
    rw [UInt32.lt_iff_toNat_lt, hden]
    exact hd
  have hquot : (sumExecTimes m * (sumExecTimes m * SCALE_FACTOR) /
      (UInt32.ofNat m.times.length * sumExecTimesSq m)).toNat =
        1000000 * (ticks m).sum ^ 2 % 2 ^ 32 /
          ((ticks m).length * ((ticks m).map (· ^ 2)).sum) := by
    rw [UInt32.toNat_div, hnum, hden]
  have hle : 1000000 * (ticks m).sum ^ 2 % 2 ^ 32 /
      ((ticks m).length * ((ticks m).map (· ^ 2)).sum) ≤ 1000000 :=
    (Nat.div_le_div_right (Nat.mod_le _ _)).trans jainIndex_le
  have hmeasured : jCpuMeasured m = some (sumExecTimes m * (sumExecTimes m * SCALE_FACTOR) /
      (UInt32.ofNat m.times.length * sumExecTimesSq m)) := by
    rw [← clamp_of_le (hquot.trans_le hle)]
    exact if_pos ⟨hsquares, hpos⟩
  have hstored : (measure m s).1.jCpuScaled = (jCpuMeasured m).getD s.jCpuScaled :=
    congrArg Metrics.jCpuScaled (playRound_fst m s)
  rw [hstored, hmeasured, Option.getD_some, hquot]

/-- With a sum of at most 65 ticks the index is exact. With a greater one it is not, as long as the
squares fit into 32 bits. -/
theorem fairness_exact_iff :
    ((ticks m).sum ≤ 65 → FairnessExact m s) ∧
      ((ticks m).length * ((ticks m).map (· ^ 2)).sum < 2 ^ 32 → FairnessExact m s →
        (ticks m).sum ≤ 65) := by
  have hticks := ticks_ne_zero hnonneg hsome
  have hd := denominator_pos hticks
  have hlen : (ticks m).length = m.times.length := List.length_map _
  have hn : m.times.length ≤ 20 := m.completed_eq ▸ m.completed_le
  constructor
  · intro hsum
    have hsq : (ticks m).sum ^ 2 ≤ 65 ^ 2 := Nat.pow_le_pow_left hsum 2
    have hq := sum_sq_le (ticks m)
    have hfits : (ticks m).length * ((ticks m).map (· ^ 2)).sum < 2 ^ 32 := by
      rw [hlen]
      nlinarith
    have hvalue : (measure m s).1.jCpuScaled.toNat = jainIndex (ticks m) := by
      rw [jCpu_stored hnonneg hsome hfits, jainIndex, Nat.mod_eq_of_lt]
      omega
    rw [FairnessExact, hvalue, ← hlen, ← ticks_equal_iff hnonneg]
    exact ⟨rfl, le_jainIndex hticks, jainIndex_le, jainIndex_eq_iff hticks⟩
  · rintro hfits ⟨hvalue, -⟩
    rw [jCpu_stored hnonneg hsome hfits, jainIndex] at hvalue
    by_contra hsum
    have hsq : 66 ^ 2 ≤ (ticks m).sum ^ 2 := Nat.pow_le_pow_left (not_le.mp hsum) 2
    have hbig : 2 ^ 32 ≤ 1000000 * (ticks m).sum ^ 2 := by omega
    have hquot : 1000000 * (ticks m).sum ^ 2 % 2 ^ 32 /
        ((ticks m).length * ((ticks m).map (· ^ 2)).sum) + 1 ≤
          1000000 * (ticks m).sum ^ 2 / ((ticks m).length * ((ticks m).map (· ^ 2)).sum) := by
      rw [← Nat.add_div_right _ hd]
      apply Nat.div_le_div_right
      have hsmaller := Nat.mod_add_div (1000000 * (ticks m).sum ^ 2) (2 ^ 32)
      have hquotient : 1 ≤ 1000000 * (ticks m).sum ^ 2 / 2 ^ 32 :=
        (Nat.one_le_div_iff (by decide)).mpr hbig
      omega
    omega

end Stored

/-- A round whose processes take the given times. -/
def timedRound (times : List Int32) (h : times.length ≤ MAX_PROCS) : Measurements where
  completed := times.length
  executionTime := times.sum
  totals := 0
  times := times
  completed_eq := rfl
  completed_le := h
  processes_le := Nat.zero_le _

theorem fairness_exact_iff_65_ticks :
    FairnessExact (timedRound [5, 0, 12, 20, 28] (by decide)) Metrics.initial := by
  have hall : ([5, 0, 12, 20, 28] : List Int32).all (fun t => decide (0 ≤ t)) = true := by decide
  refine (fairness_exact_iff (fun t ht => ?_) ⟨5, List.mem_cons_self, by decide⟩).1 ?_
  · exact of_decide_eq_true (List.all_eq_true.mp hall t ht)
  · decide +kernel

def loneRound (time : Int32) : Measurements := timedRound [time] (by decide : 1 ≤ MAX_PROCS)

theorem loneRound_nonneg {time : Int32} (h : 0 ≤ time) : ∀ t ∈ (loneRound time).times, 0 ≤ t := by
  intro t ht
  rwa [List.mem_singleton.mp ht]

/-- From 66 ticks on the square times a million wraps: a single process gets 0.014011. -/
theorem lone_process_unfair : (∀ t ∈ (loneRound 66).times, 0 ≤ t) ∧
    (∃ t ∈ (loneRound 66).times, t ≠ 0) ∧
    (measure (loneRound 66) Metrics.initial).1.jCpuScaled = 14011 ∧
    ¬ FairnessExact (loneRound 66) Metrics.initial := by
  refine ⟨loneRound_nonneg (by decide), ⟨66, List.mem_singleton_self _, by decide⟩,
    by decide +kernel, fun h => ?_⟩
  have hvalue := h.1
  revert hvalue
  decide +kernel

end Xv6Fairness
