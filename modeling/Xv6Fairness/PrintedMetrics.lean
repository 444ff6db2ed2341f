import Mathlib.Data.Rat.Cast.Order
import Mathlib.Tactic.FieldSimp
import Mathlib.Tactic.NormNum
import Xv6Fairness.ByteStrings
import Xv6Fairness.RoundIsolation

/-!
# Printed metrics

A metric is printed as `0.` and the six digits of its value modulo `SCALE_FACTOR`. A value below
`SCALE_FACTOR` reads back as itself; `SCALE_FACTOR`, which stands for 1.0, reads back as zero. Which
rounds reach it is told by their measurements and by the extrema before them.
-/

namespace Xv6Fairness

open ByteStrings

/-- `for (int i = 5; i >= 0; i--)` from index `i - 1` down. -/
def digitLoop : ℕ → UInt32 → Bytes → Bytes
  | 0, _, buffer => buffer
  | i + 1, number, buffer =>
    digitLoop i (number / 10) (buffer.set i (48 + number % 10).toUInt8)

/-- The text of `print_with_leading_zeros`, which does not look at `width`. -/
def printWithLeadingZeros (number : UInt32) (_width : ℕ) : Bytes :=
  (digitLoop 6 number (List.replicate 7 0)).takeWhile (· ≠ 0)

/-- The text behind the name of a metric. -/
def metricText (digits : UInt32) : Bytes := [48, 46] ++ printWithLeadingZeros digits 6

/-- The number that a sequence of digits denotes. -/
def numeral (text : Bytes) : ℕ := text.foldl (fun n c => 10 * n + (c.toNat - 48)) 0

/-- The number that a text with a decimal point denotes. -/
def decimalValue (text : Bytes) : ℚ :=
  numeral (text.takeWhile (· ≠ 46)) +
    numeral ((text.dropWhile (· ≠ 46)).drop 1) / 10 ^ ((text.dropWhile (· ≠ 46)).drop 1).length

def digits : ℕ → UInt32 → Bytes
  | 0, _ => []
  | k + 1, number => digits k (number / 10) ++ [(48 + number % 10).toUInt8]

theorem digit_toNat (number : UInt32) :
    (48 + number % 10).toUInt8.toNat = 48 + number.toNat % 10 := by
  have hmod : (number % 10).toNat = number.toNat % 10 := UInt32.toNat_mod _ _
  rw [UInt32.toNat_toUInt8, UInt32.toNat_add, hmod]
  change (48 + number.toNat % 10) % 2 ^ 32 % 2 ^ 8 = _
  omega

theorem length_digits (k : ℕ) (number : UInt32) : (digits k number).length = k := by
  induction k generalizing number with
  | zero => rfl
  | succ k ih => rw [digits, List.length_append, ih, List.length_singleton]

theorem digits_ne_zero {k : ℕ} {number : UInt32} {c : UInt8} (h : c ∈ digits k number) : c ≠ 0 := by
  induction k generalizing number with
  | zero => cases h
  | succ k ih =>
      rcases List.mem_append.mp h with h | h
      · exact ih h
      · rintro rfl
        have hdigit := digit_toNat number
        rw [← List.mem_singleton.mp h] at hdigit
        change 0 = 48 + _ at hdigit
        omega

theorem numeral_digits (k : ℕ)
    (number : UInt32) : numeral (digits k number) = number.toNat % 10 ^ k := by
  induction k generalizing number with
  | zero => exact (Nat.mod_one _).symm
  | succ k ih =>
      have hdiv : (number / 10).toNat = number.toNat / 10 := UInt32.toNat_div _ _
      have hrest := ih (number / 10)
      rw [numeral] at hrest ⊢
      rw [digits, List.foldl_append, hrest, List.foldl_cons, List.foldl_nil, digit_toNat, hdiv,
        Nat.add_sub_cancel_left, pow_succ', Nat.mod_mul]
      exact Nat.add_comm _ _

theorem digitLoop_eq (k : ℕ) (number : UInt32) (pre rest : Bytes) (h : pre.length = k) :
    digitLoop k number (pre ++ rest) = digits k number ++ rest := by
  induction k generalizing number pre rest with
  | zero => rw [List.eq_nil_of_length_eq_zero h, digitLoop, digits]
  | succ k ih =>
      obtain ⟨pre, c, rfl⟩ : ∃ l c, pre = l ++ [c] := by
        refine ⟨pre.dropLast, pre.getLast ?_, (List.dropLast_append_getLast _).symm⟩
        rintro rfl
        cases h
      have hlen : pre.length = k := by
        rw [List.length_append, List.length_singleton] at h
        omega
      rw [digitLoop, List.append_assoc, List.set_append_right _ _ (by omega), hlen, Nat.sub_self,
        List.singleton_append, List.set_cons_zero, ih _ _ _ hlen, digits, List.append_assoc,
        List.singleton_append]

theorem printWithLeadingZeros_eq (number : UInt32) (width : ℕ) :
    printWithLeadingZeros number width = digits 6 number := by
  have hloop := digitLoop_eq 6 number (List.replicate 6 0) [0] rfl
  have hbuffer : List.replicate 7 (0 : UInt8) = List.replicate 6 0 ++ [0] := rfl
  rw [printWithLeadingZeros, hbuffer, hloop, List.takeWhile_append_of_pos fun c hc => ?_]
  · exact List.append_nil _
  · rw [decide_eq_true_iff]
    exact digits_ne_zero hc

theorem decimalValue_metricText (x : UInt32) :
    decimalValue (metricText x) = ((x.toNat % 1000000 : ℕ) : ℚ) / 1000000 := by
  rw [metricText, printWithLeadingZeros_eq]
  have hwhole : ([48, 46] ++ digits 6 x).takeWhile (· ≠ 46) = [48] := rfl
  have hfrac : (([48, 46] ++ digits 6 x).dropWhile (· ≠ 46)).drop 1 = digits 6 x := rfl
  have hzero : numeral [48] = 0 := rfl
  rw [decimalValue, hwhole, hfrac, hzero, numeral_digits, length_digits]
  norm_num

theorem metricText_exact_iff (v : UInt32) :
    decimalValue (metricText (v % SCALE_FACTOR)) = (v.toNat : ℚ) / 1000000 ↔ v < SCALE_FACTOR := by
  have hmod : (v % SCALE_FACTOR).toNat = v.toNat % 1000000 := UInt32.toNat_mod _ _
  have hscale : SCALE_FACTOR.toNat = 1000000 := rfl
  rw [decimalValue_metricText, hmod, Nat.mod_mod, div_left_inj' (by norm_num), Nat.cast_inj,
    UInt32.lt_iff_toNat_lt, hscale]
  constructor
  · intro h
    rw [← h]
    exact Nat.mod_lt _ (by decide)
  · exact Nat.mod_eq_of_lt

/-- The line denotes the metric that is stored, divided by `SCALE_FACTOR`. -/
def Line.Exact (t : Metrics) : Line → Prop
  | .normThroughput x => decimalValue (metricText x) = (t.normThroughput.toNat : ℚ) / 1000000
  | .eFs x => decimalValue (metricText x) = (t.eFsScaled.toNat : ℚ) / 1000000
  | .mOver x => decimalValue (metricText x) = (t.mOverScaled.toNat : ℚ) / 1000000
  | .jCpu x => decimalValue (metricText x) = (t.jCpuScaled.toNat : ℚ) / 1000000
  | .sPerform x => ∃ v, Xv6Fairness.sPerform t = some v ∧
      decimalValue (metricText x) = (v.toNat : ℚ) / 1000000
  | _ => True

/-- All lines that the round prints, up to the report of `main`, are exact. -/
def PrintedExact (m : Measurements) (s : Metrics) : Prop :=
  ∀ line ∈ (playRound m s).2, line.Exact (playRound m s).1

/-- The throughput is the lowest so far, or so near to it that the quotient is zero. -/
def NormAtTop (m : Measurements) (s : Metrics) : Prop :=
  let now := (currentThroughput m).toNat
  let lo := min now s.minThroughput.toNat
  let hi := max now s.maxThroughput.toNat
  lo < hi ∧ (now - lo) * 1000000 % 2 ^ 32 < hi - lo

/-- The I/O processes report one tick in all. -/
def EFsAtTop (m : Measurements) : Prop :=
  0 < m.totals.numIo ∧ m.totals.write + m.totals.read + m.totals.delete = 1

def MOverAtTop (m : Measurements) : Prop := m.totals.alloc + m.totals.free = 1

/-- As for execution times that are all equal, where nothing wraps. -/
def JCpuAtTop (m : Measurements) : Prop :=
  let sum := (sumExecTimes m).toNat
  let denominator := m.times.length * (sumExecTimesSq m).toNat % 2 ^ 32
  0 < (sumExecTimesSq m).toNat ∧ 0 < denominator ∧
    denominator * 1000000 ≤ sum * (sum * 1000000) % 2 ^ 32

section Lines

variable {m : Measurements} {s t : Metrics} {x y : UInt32}

theorem lt_iff_toNat : x < y ↔ x.toNat < y.toNat := UInt32.lt_iff_toNat_lt

theorem scale_toNat : SCALE_FACTOR.toNat = 1000000 := rfl

theorem clamp_toNat : (clamp x).toNat = min x.toNat 1000000 := by
  rw [clamp, ← scale_toNat]
  split_ifs with h
  · rw [lt_iff_toNat] at h
    omega
  · rw [lt_iff_toNat] at h
    omega

theorem clamp_lt_iff : clamp x < SCALE_FACTOR ↔ x.toNat < 1000000 := by
  rw [lt_iff_toNat, clamp_toNat, scale_toNat]
  omega

theorem min_toNat : (updateExtrema m s).minThroughput.toNat =
    min (currentThroughput m).toNat s.minThroughput.toNat := by
  change (if currentThroughput m < s.minThroughput then currentThroughput m
    else s.minThroughput).toNat = _
  split_ifs with h
  · rw [lt_iff_toNat] at h
    omega
  · rw [lt_iff_toNat] at h
    omega

theorem max_toNat : (updateExtrema m s).maxThroughput.toNat =
    max (currentThroughput m).toNat s.maxThroughput.toNat := by
  change (if s.maxThroughput < currentThroughput m then currentThroughput m
    else s.maxThroughput).toNat = _
  split_ifs with h
  · rw [lt_iff_toNat] at h
    omega
  · rw [lt_iff_toNat] at h
    omega

theorem norm_lt_iff {now lo hi : UInt32} (hlo : lo.toNat ≤ now.toNat) (hhi : now.toNat ≤ hi.toNat)
    (hlt : lo.toNat < hi.toNat) :
    clamp (SCALE_FACTOR - (now - lo) * SCALE_FACTOR / (hi - lo)) < SCALE_FACTOR ↔
      ¬ (now.toNat - lo.toNat) * 1000000 % 2 ^ 32 < hi.toNat - lo.toNat := by
  have hnum : ((now - lo) * SCALE_FACTOR).toNat = (now.toNat - lo.toNat) * 1000000 % 2 ^ 32 := by
    rw [UInt32.toNat_mul, UInt32.toNat_sub_of_le _ _ (UInt32.le_iff_toNat_le.mpr hlo)]
    rfl
  have hden : (hi - lo).toNat = hi.toNat - lo.toNat :=
    UInt32.toNat_sub_of_le _ _ (UInt32.le_iff_toNat_le.mpr hlt.le)
  have hquot : ((now - lo) * SCALE_FACTOR / (hi - lo)).toNat =
      ((now.toNat - lo.toNat) * 1000000 % 2 ^ 32) / (hi.toNat - lo.toNat) := by
    rw [UInt32.toNat_div, hnum, hden]
  have hle : ((now.toNat - lo.toNat) * 1000000 % 2 ^ 32) / (hi.toNat - lo.toNat) ≤ 1000000 := by
    refine Nat.div_le_of_le_mul ((Nat.mod_le _ _).trans ?_)
    exact Nat.mul_le_mul_right _ (Nat.sub_le_sub_right hhi _)
  have hsub : (SCALE_FACTOR - (now - lo) * SCALE_FACTOR / (hi - lo)).toNat = 1000000 -
      ((now.toNat - lo.toNat) * 1000000 % 2 ^ 32) / (hi.toNat - lo.toNat) := by
    rw [UInt32.toNat_sub_of_le _ _ (UInt32.le_iff_toNat_le.mpr (by rw [hquot]; exact hle)), hquot]
    rfl
  rw [clamp_lt_iff, hsub, ← Nat.div_eq_zero_iff_lt (Nat.sub_pos_of_lt hlt)]
  omega

theorem throughput_exact
    (ht : t.normThroughput = (normMeasured m (updateExtrema m s)).getD s.normThroughput) :
    (∀ line ∈ (measureThroughput m s).2, line.Exact t) ↔ ¬ NormAtTop m s := by
  have hwarning : ∀ line ∈ (if 0 < m.executionTime then ([] : List Line) else [.noExecutionTime]),
      line.Exact t := by
    intro line hline
    split_ifs at hline
    · cases hline
    · rw [List.mem_singleton.mp hline]
      trivial
  have hout : (measureThroughput m s).2 =
      (if 0 < m.executionTime then [] else [.noExecutionTime]) ++
      (normalise m (updateExtrema m s)).2 := rfl
  rw [hout, List.forall_mem_append, and_iff_right hwarning, normalise]
  have hmin : (updateExtrema m s).minThroughput.toNat = _ := min_toNat
  have hmax : (updateExtrema m s).maxThroughput.toNat = _ := max_toNat
  by_cases h : (updateExtrema m s).minThroughput < (updateExtrema m s).maxThroughput
  · have hnat := lt_iff_toNat.mp h
    have hd : 0 < (updateExtrema m s).maxThroughput - (updateExtrema m s).minThroughput := by
      rw [lt_iff_toNat, UInt32.toNat_sub_of_le _ _ (UInt32.le_iff_toNat_le.mpr hnat.le)]
      exact Nat.sub_pos_of_lt hnat
    rw [normMeasured, if_pos h, Option.getD_some] at ht
    rw [if_pos h]
    dsimp only
    rw [if_pos hd, List.forall_mem_singleton, Line.Exact, ht, metricText_exact_iff,
      norm_lt_iff (by omega) (by omega) hnat, NormAtTop, ← hmin, ← hmax]
    exact not_congr (and_iff_right hnat).symm
  · rw [if_neg h]
    refine iff_of_true (fun line hline => absurd hline List.not_mem_nil) fun htop => ?_
    rw [lt_iff_toNat, hmin, hmax] at h
    exact h htop.1

theorem quotient_lt_iff : SCALE_FACTOR / x < SCALE_FACTOR ↔ x ≠ 1 := by
  rw [lt_iff_toNat, UInt32.toNat_div, scale_toNat, Ne, ← UInt32.toNat_inj]
  change 1000000 / x.toNat < 1000000 ↔ x.toNat ≠ 1
  rcases Nat.lt_or_ge x.toNat 2 with h | h
  · rcases (by omega : x.toNat = 0 ∨ x.toNat = 1) with h | h
    · rw [h]
      decide
    · rw [h]
      decide
  · refine iff_of_true (Nat.div_lt_self (by decide) h) (by omega)

theorem eFs_exact (ht : t.eFsScaled = (eFsMeasured m).getD s.eFsScaled) (s' : Metrics) :
    (∀ line ∈ (measureEFs m s').2, line.Exact t) ↔ ¬ EFsAtTop m := by
  rw [measureEFs, EFsAtTop]
  by_cases hio : 0 < m.totals.numIo
  · by_cases htime : 0 < m.totals.write + m.totals.read + m.totals.delete
    · rw [eFsMeasured, if_pos ⟨hio, htime⟩, Option.getD_some] at ht
      rw [if_pos hio]
      dsimp only
      rw [if_pos htime, List.forall_mem_singleton, Line.Exact, ht, metricText_exact_iff,
        quotient_lt_iff]
      exact not_congr (and_iff_right hio).symm
    · rw [if_pos hio]
      dsimp only
      rw [if_neg htime, List.forall_mem_singleton]
      refine iff_of_true trivial fun h => htime ?_
      rw [h.2]
      decide
  · rw [if_neg hio, List.forall_mem_singleton]
    exact iff_of_true trivial fun h => hio h.1

theorem mOver_exact (ht : t.mOverScaled = (mOverMeasured m).getD s.mOverScaled) (s' : Metrics) :
    (∀ line ∈ (measureMOver m s').2, line.Exact t) ↔ ¬ MOverAtTop m := by
  rw [measureMOver, MOverAtTop]
  by_cases htime : 0 < m.totals.alloc + m.totals.free
  · rw [mOverMeasured, if_pos htime, Option.getD_some] at ht
    dsimp only
    rw [if_pos htime, List.forall_mem_singleton, Line.Exact, ht, metricText_exact_iff,
      quotient_lt_iff]
  · dsimp only
    rw [if_neg htime, List.forall_mem_singleton]
    refine iff_of_true trivial fun h => htime ?_
    rw [h]
    decide

theorem jCpu_exact (ht : t.jCpuScaled = (jCpuMeasured m).getD s.jCpuScaled) (s' : Metrics) :
    (∀ line ∈ (measureJCpu m s').2, line.Exact t) ↔ ¬ JCpuAtTop m := by
  have hden : (UInt32.ofNat m.times.length * sumExecTimesSq m).toNat =
      m.times.length * (sumExecTimesSq m).toNat % 2 ^ 32 := by
    rw [UInt32.toNat_mul, UInt32.toNat_ofNat', Nat.mod_mul_mod]
  have hnum : (sumExecTimes m * (sumExecTimes m * SCALE_FACTOR)).toNat =
      (sumExecTimes m).toNat * ((sumExecTimes m).toNat * 1000000) % 2 ^ 32 := by
    rw [UInt32.toNat_mul, UInt32.toNat_mul, Nat.mul_mod_mod, scale_toNat]
  rw [measureJCpu, JCpuAtTop]
  by_cases hsq : 0 < sumExecTimesSq m
  · by_cases hd : 0 < UInt32.ofNat m.times.length * sumExecTimesSq m
    · have hsq' : 0 < (sumExecTimesSq m).toNat := lt_iff_toNat.mp hsq
      have hd' : 0 < m.times.length * (sumExecTimesSq m).toNat % 2 ^ 32 := hden ▸ lt_iff_toNat.mp hd
      have hmeasured : jCpuMeasured m = some (clamp (sumExecTimes m *
          (sumExecTimes m * SCALE_FACTOR) / (UInt32.ofNat m.times.length * sumExecTimesSq m))) :=
        if_pos ⟨hsq, hd⟩
      rw [hmeasured, Option.getD_some] at ht
      simp only [if_pos hsq, if_pos hd, List.forall_mem_singleton, Line.Exact]
      rw [ht, metricText_exact_iff, clamp_lt_iff, UInt32.toNat_div, hnum, hden, ← not_le,
        Nat.le_div_iff_mul_le hd', Nat.mul_comm]
      exact not_congr ⟨fun h => ⟨hsq', hd', h⟩, fun h => h.2.2⟩
    · simp only [if_pos hsq, if_neg hd, List.forall_mem_singleton]
      refine iff_of_true trivial fun h => hd (lt_iff_toNat.mpr ?_)
      rw [hden]
      exact h.2.1
  · simp only [if_neg hsq, List.forall_mem_singleton]
    exact iff_of_true trivial fun h => hsq (lt_iff_toNat.mpr h.1)

/-- The four metrics that `main` adds up stay at or below `SCALE_FACTOR`. -/
structure Bounded (t : Metrics) : Prop where
  norm : t.normThroughput.toNat ≤ 1000000
  jCpu : t.jCpuScaled.toNat ≤ 1000000
  eFs : t.eFsScaled.toNat ≤ 1000000
  mOver : t.mOverScaled.toNat ≤ 1000000

theorem getD_le {measured : Option UInt32} {kept : UInt32}
    (h : ∀ x, measured = some x → x.toNat ≤ 1000000) (hkept : kept.toNat ≤ 1000000) :
    (measured.getD kept).toNat ≤ 1000000 := by
  cases measured with
  | none => exact hkept
  | some x => exact h x rfl

theorem Bounded.playRound (h : Bounded s) (m : Measurements) : Bounded (playRound m s).1 := by
  have hclamp : ∀ x, (clamp x).toNat ≤ 1000000 := fun x => by
    rw [clamp_toNat]
    exact min_le_right _ _
  have hquot : ∀ x, (SCALE_FACTOR / x).toNat ≤ 1000000 := fun x => by
    rw [UInt32.toNat_div]
    exact Nat.div_le_self _ _
  rw [playRound_fst]
  refine ⟨getD_le (fun x hx => ?_) h.norm, getD_le (fun x hx => ?_) h.jCpu,
    getD_le (fun x hx => ?_) h.eFs, getD_le (fun x hx => ?_) h.mOver⟩
  · rw [normMeasured] at hx
    split_ifs at hx
    rw [← Option.some_inj.mp hx]
    exact hclamp _
  · rw [jCpuMeasured] at hx
    split_ifs at hx
    rw [← Option.some_inj.mp hx]
    exact hclamp _
  · rw [eFsMeasured] at hx
    split_ifs at hx
    rw [← Option.some_inj.mp hx]
    exact hquot _
  · rw [mOverMeasured] at hx
    split_ifs at hx
    rw [← Option.some_inj.mp hx]
    exact hquot _

theorem after_bounded (rounds : List Measurements) : Bounded (after rounds) := by
  induction rounds using List.reverseRecOn with
  | nil => exact ⟨Nat.zero_le _, Nat.zero_le _, Nat.zero_le _, Nat.zero_le _⟩
  | append_singleton rounds m ih =>
      rw [after_append]
      exact ih.playRound m

theorem report_exact (h : Bounded t) (hnorm : t.normThroughput.toNat < 1000000) :
    ∀ line ∈ report t, line.Exact t := by
  rw [report]
  cases hs : sPerform t with
  | none =>
      intro line hline
      rcases List.mem_cons.mp hline with rfl | hline
      · exact trivial
      · rw [List.mem_singleton.mp hline]
        exact trivial
  | some v =>
      intro line hline
      rcases List.mem_cons.mp hline with rfl | hline
      · refine ⟨v, hs, (metricText_exact_iff v).mpr ?_⟩
        rw [sPerform] at hs
        split_ifs at hs
        rw [← Option.some_inj.mp hs, clamp_lt_iff]
        have hnorm' := h.norm
        have hjCpu := h.jCpu
        have heFs := h.eFs
        have hmOver := h.mOver
        simp only [UInt32.toNat_add, UInt32.toNat_div]
        change (((t.normThroughput.toNat / 4 + t.jCpuScaled.toNat / 4) % 2 ^ 32 +
          t.eFsScaled.toNat / 4) % 2 ^ 32 + t.mOverScaled.toNat / 4) % 2 ^ 32 < 1000000
        omega
      · rw [List.mem_singleton.mp hline]
        exact trivial

/-- Where the normalised throughput that is stored is 1.0, the round has measured it. -/
theorem norm_lt_of_not_atTop (earlier : List Measurements) (m : Measurements)
    (h : ¬ NormAtTop m (after earlier)) :
    (playRound m (after earlier)).1.normThroughput.toNat < 1000000 := by
  rw [← after_append]
  cases hmeasured : normMeasured m (updateExtrema m (after earlier)) with
  | none =>
      rw [after_norm_of_none hmeasured]
      decide
  | some v =>
      rw [after_normThroughput, hmeasured, Option.getD_some]
      rw [normMeasured] at hmeasured
      split_ifs at hmeasured with hlt
      have hmin : (updateExtrema m (after earlier)).minThroughput.toNat = _ := min_toNat
      have hmax : (updateExtrema m (after earlier)).maxThroughput.toNat = _ := max_toNat
      have hnat := lt_iff_toNat.mp hlt
      rw [← scale_toNat, ← lt_iff_toNat, ← Option.some_inj.mp hmeasured,
        norm_lt_iff (by omega) (by omega) hnat]
      rw [NormAtTop, ← hmin, ← hmax] at h
      exact fun hless => h ⟨hnat, hless⟩

theorem printed_exact_split (m : Measurements) (s : Metrics) :
    PrintedExact m s ↔ (¬ NormAtTop m s ∧ ¬ EFsAtTop m ∧ ¬ MOverAtTop m ∧ ¬ JCpuAtTop m) ∧
      ∀ line ∈ report (playRound m s).1, line.Exact (playRound m s).1 := by
  have hround := playRound_fst m s
  have hout : (playRound m s).2 = (measureThroughput m s).2 ++
      (measureEFs m (measureThroughput m s).1).2 ++
      (measureMOver m (measureEFs m (measureThroughput m s).1).1).2 ++
      (measureJCpu m (measureMOver m (measureEFs m (measureThroughput m s).1).1).1).2 ++
      [.roundTime m.executionTime] ++ report (playRound m s).1 := rfl
  have hthroughput := throughput_exact (m := m) (s := s) (t := (playRound m s).1) (by rw [hround])
  have heFs := eFs_exact (m := m) (s := s) (t := (playRound m s).1) (by rw [hround])
  have hmOver := mOver_exact (m := m) (s := s) (t := (playRound m s).1) (by rw [hround])
  have hjCpu := jCpu_exact (m := m) (s := s) (t := (playRound m s).1) (by rw [hround])
  have htime : Line.Exact (playRound m s).1 (.roundTime m.executionTime) := trivial
  rw [PrintedExact, hout, List.forall_mem_append, List.forall_mem_append, List.forall_mem_append,
    List.forall_mem_append, List.forall_mem_append, List.forall_mem_singleton, hthroughput, heFs,
    hmOver, hjCpu]
  constructor
  · rintro ⟨⟨⟨⟨⟨hnorm, hio⟩, hmem⟩, hcpu⟩, -⟩, hreport⟩
    exact ⟨⟨hnorm, hio, hmem, hcpu⟩, hreport⟩
  · rintro ⟨⟨hnorm, hio, hmem, hcpu⟩, hreport⟩
    exact ⟨⟨⟨⟨⟨hnorm, hio⟩, hmem⟩, hcpu⟩, htime⟩, hreport⟩

/-- In every sequence of rounds the metric lines of a round read back as the stored metrics exactly
where none of the four metrics that it measures comes to 1.0. -/
theorem printed_exact_iff (earlier : List Measurements) (m : Measurements) :
    PrintedExact m (after earlier) ↔
      ¬ NormAtTop m (after earlier) ∧ ¬ EFsAtTop m ∧ ¬ MOverAtTop m ∧ ¬ JCpuAtTop m := by
  rw [printed_exact_split]
  refine ⟨And.left, fun h => ⟨h, ?_⟩⟩
  exact report_exact ((after_bounded earlier).playRound m) (norm_lt_of_not_atTop earlier m h.1)

end Lines

/-- Of two rounds of 1000 and 2000 ticks the second has the lowest throughput so far. -/
def slowRound (time : Int32) : Measurements := roundWith time ⟨5, 3, 1, 2, 2, 10, 10⟩ (by decide)

/-- The greater of two stored values is printed as the smaller number. -/
theorem slowest_round_printed_zero :
    ¬ PrintedExact (slowRound 2000) (after [slowRound 1000]) ∧
    (after [slowRound 1000, slowRound 2000]).normThroughput = 1000000 ∧
    decimalValue (metricText ((after [slowRound 1000, slowRound 2000]).normThroughput %
      SCALE_FACTOR)) = 0 ∧
    decimalValue (metricText (999999 % SCALE_FACTOR)) = 999999 / 1000000 := by
  have hnorm : (after [slowRound 1000, slowRound 2000]).normThroughput = 1000000 := by
    decide +kernel
  have htop : NormAtTop (slowRound 2000) (after [slowRound 1000]) := by
    rw [NormAtTop]
    decide +kernel
  refine ⟨fun h => ((printed_exact_split _ _).mp h).1.1 htop, hnorm, ?_, ?_⟩
  · have hzero : (1000000 % SCALE_FACTOR).toNat % 1000000 = 0 := rfl
    rw [hnorm, decimalValue_metricText, hzero]
    norm_num
  · have hbelow : (999999 % SCALE_FACTOR).toNat % 1000000 = 999999 := rfl
    rw [decimalValue_metricText, hbelow]
    norm_num

end Xv6Fairness
