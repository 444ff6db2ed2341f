import Mathlib.Order.Bounds.Basic
import Xv6Fairness.ExperimentRound
import Xv6Fairness.RoundStatistics

/-!
# The metrics of a round

`run_experiment` turns the measurements of a round into four numbers scaled by a million. The
extrema of the throughput are globals, and the four numbers live in `main`, outside its loop: a
metric that a round cannot compute keeps the value it had. Everything is 32-bit arithmetic.
-/

namespace Xv6Fairness

def SCALE_FACTOR : UInt32 := 1000000

def UINT_MAX : UInt32 := ~~~0

/-- What a round has measured when it comes to the metrics: the count and the times of the children
it waited for and the totals of their statistics. -/
structure Measurements where
  completed : ℕ
  executionTime : Int32
  totals : Totals
  times : List Int32
  completed_eq : completed = times.length
  completed_le : completed ≤ MAX_PROCS
  processes_le : totals.processes ≤ times.length

/-- The two globals and the four numbers that `main` passes to `run_experiment`. -/
@[ext]
structure Metrics where
  minThroughput : UInt32
  maxThroughput : UInt32
  jCpuScaled : UInt32
  eFsScaled : UInt32
  mOverScaled : UInt32
  normThroughput : UInt32

def Metrics.initial : Metrics := ⟨UINT_MAX, 0, 0, 0, 0, 0⟩

/-- A scaled value is cut at 1.0. -/
def clamp (x : UInt32) : UInt32 := if SCALE_FACTOR < x then SCALE_FACTOR else x

section Round

variable (m : Measurements) (s : Metrics)

def currentThroughput : UInt32 :=
  if 0 < m.executionTime then
    UInt32.ofNat m.completed * SCALE_FACTOR / m.executionTime.toUInt32
  else 0

def updateExtrema : Metrics :=
  let current := currentThroughput m
  { s with
    minThroughput := if current < s.minThroughput then current else s.minThroughput
    maxThroughput := if s.maxThroughput < current then current else s.maxThroughput }

def normalise : Metrics × List Line :=
  if s.minThroughput < s.maxThroughput then
    let numerator := (currentThroughput m - s.minThroughput) * SCALE_FACTOR
    let denominator := s.maxThroughput - s.minThroughput
    if 0 < denominator then
      let norm := clamp (SCALE_FACTOR - numerator / denominator)
      ({ s with normThroughput := norm }, [.normThroughput (norm % SCALE_FACTOR)])
    else (s, [.noThroughputRange])
  else (s, [])

def measureThroughput : Metrics × List Line :=
  let warning := if 0 < m.executionTime then [] else [.noExecutionTime]
  let (s, out) := normalise m (updateExtrema m s)
  (s, warning ++ out)

def measureEFs : Metrics × List Line :=
  if 0 < m.totals.numIo then
    let totalIoTime := m.totals.write + m.totals.read + m.totals.delete
    if 0 < totalIoTime then
      let eFs := SCALE_FACTOR / totalIoTime
      ({ s with eFsScaled := eFs }, [.eFs (eFs % SCALE_FACTOR)])
    else (s, [.noIoTime])
  else (s, [.noIoProcesses])

def measureMOver : Metrics × List Line :=
  let totalMemTime := m.totals.alloc + m.totals.free
  if 0 < totalMemTime then
    let mOver := SCALE_FACTOR / totalMemTime
    ({ s with mOverScaled := mOver }, [.mOver (mOver % SCALE_FACTOR)])
  else (s, [.noMemTime])

def sumExecTimes : UInt32 := m.times.foldl (fun sum t => sum + t.toUInt32) 0

def sumExecTimesSq : UInt32 := m.times.foldl (fun sum t => sum + (t * t).toUInt32) 0

def measureJCpu : Metrics × List Line :=
  if 0 < sumExecTimesSq m then
    let sumExecTimesScaled := sumExecTimes m * SCALE_FACTOR
    let numerator := sumExecTimes m * sumExecTimesScaled
    let denominator := UInt32.ofNat m.times.length * sumExecTimesSq m
    if 0 < denominator then
      let jCpu := clamp (numerator / denominator)
      ({ s with jCpuScaled := jCpu }, [.jCpu (jCpu % SCALE_FACTOR)])
    else (s, [.noJDenominator])
  else (s, [.noSquares])

/-- `run_experiment` from the throughput on. -/
def measure : Metrics × List Line :=
  let (s, throughput) := measureThroughput m s
  let (s, eFs) := measureEFs m s
  let (s, mOver) := measureMOver m s
  let (s, jCpu) := measureJCpu m s
  (s, throughput ++ eFs ++ mOver ++ jCpu ++ [.roundTime m.executionTime])

/-- The overall performance that `main` reports, if it reports one. -/
def sPerform : Option UInt32 :=
  if 0 < s.normThroughput ∧ 0 < s.jCpuScaled ∧ 0 < s.eFsScaled ∧ 0 < s.mOverScaled then
    some (clamp (s.normThroughput / 4 + s.jCpuScaled / 4 + s.eFsScaled / 4 + s.mOverScaled / 4))
  else none

def report : List Line :=
  match sPerform s with
  | some value => [.sPerform (value % SCALE_FACTOR), .separator]
  | none => [.noSPerform, .separator]

/-- One pass of the loop of `main`. -/
def playRound : Metrics × List Line :=
  let (s, out) := measure m s
  (s, out ++ report s)

end Round

section Measured

variable (m : Measurements) (s : Metrics)

def eFsMeasured : Option UInt32 :=
  if 0 < m.totals.numIo ∧ 0 < m.totals.write + m.totals.read + m.totals.delete then
    some (SCALE_FACTOR / (m.totals.write + m.totals.read + m.totals.delete))
  else none

def mOverMeasured : Option UInt32 :=
  if 0 < m.totals.alloc + m.totals.free then
    some (SCALE_FACTOR / (m.totals.alloc + m.totals.free))
  else none

def jCpuMeasured : Option UInt32 :=
  let denominator := UInt32.ofNat m.times.length * sumExecTimesSq m
  if 0 < sumExecTimesSq m ∧ 0 < denominator then
    some (clamp (sumExecTimes m * (sumExecTimes m * SCALE_FACTOR) / denominator))
  else none

/-- The normalised throughput where the extrema differ, for the extrema that include the round. -/
def normMeasured : Option UInt32 :=
  if s.minThroughput < s.maxThroughput then
    some (clamp (SCALE_FACTOR - (currentThroughput m - s.minThroughput) * SCALE_FACTOR /
      (s.maxThroughput - s.minThroughput)))
  else none

theorem measureEFs_fst :
    (measureEFs m s).1 = { s with eFsScaled := (eFsMeasured m).getD s.eFsScaled } := by
  rw [measureEFs, eFsMeasured]
  by_cases hio : 0 < m.totals.numIo
  · by_cases ht : 0 < m.totals.write + m.totals.read + m.totals.delete
    · rw [if_pos hio, if_pos ht, if_pos ⟨hio, ht⟩]
      rfl
    · rw [if_pos hio, if_neg ht, if_neg fun h => ht h.2]
      rfl
  · rw [if_neg hio, if_neg fun h => hio h.1]
    rfl

theorem measureMOver_fst :
    (measureMOver m s).1 = { s with mOverScaled := (mOverMeasured m).getD s.mOverScaled } := by
  rw [measureMOver, mOverMeasured]
  by_cases ht : 0 < m.totals.alloc + m.totals.free
  · rw [if_pos ht, if_pos ht]
    rfl
  · rw [if_neg ht, if_neg ht]
    rfl

theorem measureJCpu_fst :
    (measureJCpu m s).1 = { s with jCpuScaled := (jCpuMeasured m).getD s.jCpuScaled } := by
  by_cases hsq : 0 < sumExecTimesSq m
  · by_cases hd : 0 < UInt32.ofNat m.times.length * sumExecTimesSq m
    · have hmeasured : jCpuMeasured m = some (clamp (sumExecTimes m *
          (sumExecTimes m * SCALE_FACTOR) /
            (UInt32.ofNat m.times.length * sumExecTimesSq m))) := by
        have hboth := And.intro hsq hd
        simp only [jCpuMeasured, if_pos hboth]
      rw [hmeasured, Option.getD_some]
      simp only [measureJCpu, if_pos hsq, if_pos hd]
    · have hboth : ¬ (0 < sumExecTimesSq m ∧ 0 < UInt32.ofNat m.times.length * sumExecTimesSq m) :=
        fun h => hd h.2
      simp only [measureJCpu, jCpuMeasured, if_pos hsq, if_neg hd, if_neg hboth, Option.getD_none]
  · have hboth : ¬ (0 < sumExecTimesSq m ∧ 0 < UInt32.ofNat m.times.length * sumExecTimesSq m) :=
      fun h => hsq h.1
    simp only [measureJCpu, jCpuMeasured, if_neg hsq, if_neg hboth, Option.getD_none]

theorem normalise_fst :
    (normalise m s).1 = { s with normThroughput := (normMeasured m s).getD s.normThroughput } := by
  rw [normalise, normMeasured]
  by_cases h : s.minThroughput < s.maxThroughput
  · have hd : 0 < s.maxThroughput - s.minThroughput := by
      rw [UInt32.lt_iff_toNat_lt] at h ⊢
      rw [UInt32.toNat_sub_of_le _ _ (UInt32.le_iff_toNat_le.mpr h.le)]
      exact Nat.sub_pos_of_lt h
    rw [if_pos h, if_pos hd, if_pos h, Option.getD_some]
  · rw [if_neg h, if_neg h]
    rfl

theorem playRound_fst :
    (playRound m s).1 =
      { updateExtrema m s with
        jCpuScaled := (jCpuMeasured m).getD s.jCpuScaled
        eFsScaled := (eFsMeasured m).getD s.eFsScaled
        mOverScaled := (mOverMeasured m).getD s.mOverScaled
        normThroughput := (normMeasured m (updateExtrema m s)).getD s.normThroughput } := by
  have hplay : (playRound m s).1 = (measureJCpu m (measureMOver m (measureEFs m
      (normalise m (updateExtrema m s)).1).1).1).1 := rfl
  rw [hplay, measureJCpu_fst, measureMOver_fst, measureEFs_fst, normalise_fst]
  rfl

end Measured

/-- The state of `main` after a sequence of rounds. -/
def after (rounds : List Measurements) : Metrics :=
  rounds.foldl (fun s m => (playRound m s).1) .initial

theorem after_append (rounds : List Measurements) (m : Measurements) :
    after (rounds ++ [m]) = (playRound m (after rounds)).1 := by
  rw [after, List.foldl_append]
  rfl

end Xv6Fairness
