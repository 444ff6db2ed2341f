import Xv6Fairness.RoundMetrics

/-!
# What a round takes over from the rounds before it

The four metrics are declared outside the loop of `main`, so that a metric which a round does not
measure enters its overall performance with an older value. Two histories with the same extrema are
told apart by a round exactly if it normalises its throughput, measures no zero and leaves one of
the other metrics as it was.
-/

namespace Xv6Fairness

section Kept

variable {m : Measurements} {s s' : Metrics}

theorem updateExtrema_congr (hmin : s.minThroughput = s'.minThroughput)
    (hmax : s.maxThroughput = s'.maxThroughput) :
    (updateExtrema m s).minThroughput = (updateExtrema m s').minThroughput ∧
      (updateExtrema m s).maxThroughput = (updateExtrema m s').maxThroughput := by
  rw [updateExtrema, updateExtrema, hmin, hmax]
  exact ⟨rfl, rfl⟩

theorem normMeasured_congr (hmin : s.minThroughput = s'.minThroughput)
    (hmax : s.maxThroughput = s'.maxThroughput) : normMeasured m s = normMeasured m s' := by
  rw [normMeasured, normMeasured, hmin, hmax]

theorem updateExtrema_min_le : (updateExtrema m s).minThroughput ≤ s.minThroughput := by
  change (if currentThroughput m < s.minThroughput then currentThroughput m
    else s.minThroughput) ≤ s.minThroughput
  split_ifs with h
  · exact UInt32.le_of_lt h
  · exact UInt32.le_refl _

theorem le_updateExtrema_max : s.maxThroughput ≤ (updateExtrema m s).maxThroughput := by
  change s.maxThroughput ≤ (if s.maxThroughput < currentThroughput m then currentThroughput m
    else s.maxThroughput)
  split_ifs with h
  · exact UInt32.le_of_lt h
  · exact UInt32.le_refl _

theorem after_norm_eq_zero (rounds : List Measurements)
    (h : ¬ (after rounds).minThroughput < (after rounds).maxThroughput) :
    (after rounds).normThroughput = 0 := by
  induction rounds using List.reverseRecOn with
  | nil => rfl
  | append_singleton rounds m ih =>
      rw [after_append, playRound_fst] at h ⊢
      change ¬ (updateExtrema m (after rounds)).minThroughput <
        (updateExtrema m (after rounds)).maxThroughput at h
      have hbefore : ¬ (after rounds).minThroughput < (after rounds).maxThroughput := by
        intro hlt
        apply h
        exact UInt32.lt_of_le_of_lt updateExtrema_min_le
          (UInt32.lt_of_lt_of_le hlt le_updateExtrema_max)
      change (normMeasured m (updateExtrema m (after rounds))).getD _ = 0
      rw [normMeasured, if_neg h]
      exact ih hbefore

theorem sPerform_eq_none (h : s.normThroughput = 0 ∨ s.jCpuScaled = 0 ∨ s.eFsScaled = 0 ∨
    s.mOverScaled = 0) : sPerform s = none := by
  have hzero : ∀ x : UInt32, x = 0 → ¬ 0 < x := by
    rintro x rfl
    decide
  apply if_neg
  rintro ⟨hnorm, hj, he, hm⟩
  rcases h with h | h | h | h
  · exact hzero _ h hnorm
  · exact hzero _ h hj
  · exact hzero _ h he
  · exact hzero _ h hm

end Kept

/-- The metrics that enter the overall performance, given the extrema before the round, come from
the round alone, or one that does is zero. -/
def Isolated (m : Measurements) (s : Metrics) : Prop :=
  normMeasured m (updateExtrema m s) = none ∨ normMeasured m (updateExtrema m s) = some 0 ∨
    jCpuMeasured m = some 0 ∨ eFsMeasured m = some 0 ∨ mOverMeasured m = some 0 ∨
    ((jCpuMeasured m).isSome ∧ (eFsMeasured m).isSome ∧ (mOverMeasured m).isSome)

section After

variable {m : Measurements} {earlier earlier' : List Measurements}

theorem after_jCpu : (after (earlier ++ [m])).jCpuScaled =
    (jCpuMeasured m).getD (after earlier).jCpuScaled := by
  rw [after_append, playRound_fst]

theorem after_eFs : (after (earlier ++ [m])).eFsScaled =
    (eFsMeasured m).getD (after earlier).eFsScaled := by
  rw [after_append, playRound_fst]

theorem after_mOver : (after (earlier ++ [m])).mOverScaled =
    (mOverMeasured m).getD (after earlier).mOverScaled := by
  rw [after_append, playRound_fst]

theorem after_normThroughput : (after (earlier ++ [m])).normThroughput =
    (normMeasured m (updateExtrema m (after earlier))).getD (after earlier).normThroughput := by
  rw [after_append, playRound_fst]

theorem after_norm_of_none (h : normMeasured m (updateExtrema m (after earlier)) = none) :
    (after (earlier ++ [m])).normThroughput = 0 := by
  apply after_norm_eq_zero
  intro hlt
  rw [after_append, playRound_fst] at hlt
  rw [normMeasured, if_pos hlt] at h
  exact absurd h (Option.some_ne_none _)

theorem sPerform_of_isolated (hmin : (after earlier').minThroughput = (after earlier).minThroughput)
    (hmax : (after earlier').maxThroughput = (after earlier).maxThroughput)
    (h : Isolated m (after earlier)) :
    sPerform (after (earlier' ++ [m])) = sPerform (after (earlier ++ [m])) := by
  have hextrema := updateExtrema_congr (m := m) hmin hmax
  have hnorm : normMeasured m (updateExtrema m (after earlier')) =
      normMeasured m (updateExtrema m (after earlier)) :=
    normMeasured_congr hextrema.1 hextrema.2
  rcases h with h | h | h | h | h | ⟨hj, he, hm⟩
  · rw [sPerform_eq_none (Or.inl (after_norm_of_none h)),
      sPerform_eq_none (Or.inl (after_norm_of_none (hnorm.trans h)))]
  · have hzero : ∀ rounds, normMeasured m (updateExtrema m (after rounds)) = some 0 →
        sPerform (after (rounds ++ [m])) = none := by
      intro rounds hrounds
      apply sPerform_eq_none
      left
      rw [after_normThroughput, hrounds]
      rfl
    rw [hzero earlier h, hzero earlier' (hnorm.trans h)]
  · have hzero : ∀ rounds, sPerform (after (rounds ++ [m])) = none := by
      intro rounds
      apply sPerform_eq_none
      right
      left
      rw [after_jCpu, h]
      rfl
    rw [hzero, hzero]
  · have hzero : ∀ rounds, sPerform (after (rounds ++ [m])) = none := by
      intro rounds
      apply sPerform_eq_none
      right
      right
      left
      rw [after_eFs, h]
      rfl
    rw [hzero, hzero]
  · have hzero : ∀ rounds, sPerform (after (rounds ++ [m])) = none := by
      intro rounds
      apply sPerform_eq_none
      right
      right
      right
      rw [after_mOver, h]
      rfl
    rw [hzero, hzero]
  · obtain ⟨j, hj⟩ := Option.isSome_iff_exists.mp hj
    obtain ⟨e, he⟩ := Option.isSome_iff_exists.mp he
    obtain ⟨o, hm⟩ := Option.isSome_iff_exists.mp hm
    cases hn : normMeasured m (updateExtrema m (after earlier)) with
    | none =>
        rw [sPerform_eq_none (Or.inl (after_norm_of_none hn)),
          sPerform_eq_none (Or.inl (after_norm_of_none (hnorm.trans hn)))]
    | some n =>
        have hn' := hnorm.trans hn
        rw [sPerform, sPerform]
        simp only [after_jCpu, after_eFs, after_mOver, after_normThroughput, hj, he, hm, hn, hn',
          Option.getD_some]

end After

/-- A round of the same throughput in which every child works on files and on memory. -/
def busyTwin (m : Measurements) : Measurements where
  completed := max 1 m.completed
  executionTime := if m.completed = 0 then 0 else m.executionTime
  totals := ⟨1, 0, 0, 1, 0, 1, 0⟩
  times := List.replicate (max 1 m.completed) 1
  completed_eq := List.length_replicate.symm
  completed_le := max_le (by decide) m.completed_le
  processes_le := by
    rw [List.length_replicate]
    exact le_max_left _ _

/-- A round of the same throughput in which no time is measured. -/
def idleTwin (m : Measurements) : Measurements where
  completed := m.completed
  executionTime := m.executionTime
  totals := 0
  times := List.replicate m.completed 0
  completed_eq := List.length_replicate.symm
  completed_le := m.completed_le
  processes_le := Nat.zero_le _

/-- A round of which only the number of children is known. -/
def blankRound (c : Fin 21) : Measurements where
  completed := c
  executionTime := 0
  totals := 0
  times := List.replicate c 0
  completed_eq := List.length_replicate.symm
  completed_le := Nat.le_of_lt_succ c.isLt
  processes_le := Nat.zero_le _

section Twins

variable (m : Measurements)

theorem currentThroughput_busyTwin : currentThroughput (busyTwin m) = currentThroughput m := by
  by_cases h : m.completed = 0
  · have htime : (busyTwin m).executionTime = 0 := if_pos h
    have hbusy : currentThroughput (busyTwin m) = 0 := by
      rw [currentThroughput, htime]
      exact if_neg (by decide)
    rw [hbusy, currentThroughput, h]
    split_ifs
    · rw [← UInt32.toNat_inj, UInt32.toNat_div, UInt32.toNat_mul]
      change 0 = (0 * SCALE_FACTOR.toNat % 2 ^ 32) / _
      rw [Nat.zero_mul, Nat.zero_mod, Nat.zero_div]
    · rfl
  · have htime : (busyTwin m).executionTime = m.executionTime := if_neg h
    have hcount : (busyTwin m).completed = m.completed :=
      max_eq_right (Nat.one_le_iff_ne_zero.mpr h)
    rw [currentThroughput, currentThroughput, htime, hcount]

theorem currentThroughput_idleTwin : currentThroughput (idleTwin m) = currentThroughput m := rfl

theorem busyTwin_measured : jCpuMeasured (busyTwin m) = some SCALE_FACTOR ∧
    eFsMeasured (busyTwin m) = some SCALE_FACTOR ∧
    mOverMeasured (busyTwin m) = some SCALE_FACTOR := by
  have h : ∀ c, jCpuMeasured (busyTwin (blankRound c)) = some SCALE_FACTOR ∧
      eFsMeasured (busyTwin (blankRound c)) = some SCALE_FACTOR ∧
      mOverMeasured (busyTwin (blankRound c)) = some SCALE_FACTOR := by decide +kernel
  exact h ⟨m.completed, Nat.lt_succ_of_le m.completed_le⟩

theorem idleTwin_measured : jCpuMeasured (idleTwin m) = none ∧ eFsMeasured (idleTwin m) = none ∧
    mOverMeasured (idleTwin m) = none := by
  have h : ∀ c, jCpuMeasured (idleTwin (blankRound c)) = none ∧
      eFsMeasured (idleTwin (blankRound c)) = none ∧
      mOverMeasured (idleTwin (blankRound c)) = none := by decide +kernel
  exact h ⟨m.completed, Nat.lt_succ_of_le m.completed_le⟩

theorem after_map_extrema {twin : Measurements → Measurements}
    (htwin : ∀ m, currentThroughput (twin m) = currentThroughput m) (rounds : List Measurements) :
    (after (rounds.map twin)).minThroughput = (after rounds).minThroughput ∧
      (after (rounds.map twin)).maxThroughput = (after rounds).maxThroughput := by
  induction rounds using List.reverseRecOn with
  | nil => exact ⟨rfl, rfl⟩
  | append_singleton rounds m ih =>
      rw [List.map_append, List.map_singleton, after_append, after_append, playRound_fst,
        playRound_fst]
      change (updateExtrema (twin m) (after (rounds.map twin))).minThroughput =
          (updateExtrema m (after rounds)).minThroughput ∧
        (updateExtrema (twin m) (after (rounds.map twin))).maxThroughput =
          (updateExtrema m (after rounds)).maxThroughput
      rw [updateExtrema, updateExtrema, htwin, ih.1, ih.2]
      exact ⟨rfl, rfl⟩

theorem after_map_busyTwin {rounds : List Measurements} (h : rounds ≠ []) :
    (after (rounds.map busyTwin)).jCpuScaled = SCALE_FACTOR ∧
      (after (rounds.map busyTwin)).eFsScaled = SCALE_FACTOR ∧
      (after (rounds.map busyTwin)).mOverScaled = SCALE_FACTOR := by
  obtain ⟨earlier, m, rfl⟩ := (List.eq_nil_or_concat' rounds).resolve_left h
  obtain ⟨hj, he, hm⟩ := busyTwin_measured m
  rw [List.map_append, List.map_singleton, after_jCpu, after_eFs, after_mOver, hj, he, hm]
  exact ⟨rfl, rfl, rfl⟩

theorem after_map_idleTwin (rounds : List Measurements) :
    (after (rounds.map idleTwin)).jCpuScaled = 0 ∧ (after (rounds.map idleTwin)).eFsScaled = 0 ∧
      (after (rounds.map idleTwin)).mOverScaled = 0 := by
  induction rounds using List.reverseRecOn with
  | nil => exact ⟨rfl, rfl, rfl⟩
  | append_singleton rounds m ih =>
      obtain ⟨hj, he, hm⟩ := idleTwin_measured m
      rw [List.map_append, List.map_singleton, after_jCpu, after_eFs, after_mOver, hj, he, hm]
      exact ih

end Twins

theorem currentThroughput_lt (m : Measurements) : currentThroughput m < UINT_MAX := by
  have hc : m.completed ≤ 20 := m.completed_le
  rw [UInt32.lt_iff_toNat_lt, currentThroughput]
  split_ifs
  · rw [UInt32.toNat_div, UInt32.toNat_mul, UInt32.toNat_ofNat']
    apply (Nat.div_le_self _ _).trans_lt
    change m.completed % 2 ^ 32 * 1000000 % 2 ^ 32 < 4294967295
    omega
  · decide

theorem normMeasured_first (m : Measurements) :
    normMeasured m (updateExtrema m (after [])) = none := by
  apply if_neg
  change ¬ (if currentThroughput m < UINT_MAX then currentThroughput m else UINT_MAX) <
    (if 0 < currentThroughput m then currentThroughput m else 0)
  rw [if_pos (currentThroughput_lt m)]
  split_ifs
  · exact UInt32.lt_irrefl _
  · rw [UInt32.lt_iff_toNat_lt]
    exact Nat.not_lt_zero _

theorem getD_pos {measured : Option UInt32} {kept : UInt32} (h : measured ≠ some 0)
    (hkept : 0 < kept) : 0 < measured.getD kept := by
  cases measured with
  | none => exact hkept
  | some x =>
      apply UInt32.pos_iff_ne_zero.mpr
      exact fun hx => h (congrArg some hx)

theorem sPerform_of_busy {earlier : List Measurements} {m : Measurements} (hne : earlier ≠ [])
    (hnone : normMeasured m (updateExtrema m (after earlier)) ≠ none)
    (hn : normMeasured m (updateExtrema m (after earlier)) ≠ some 0)
    (hj : jCpuMeasured m ≠ some 0) (he : eFsMeasured m ≠ some 0) (ho : mOverMeasured m ≠ some 0) :
    sPerform (after (earlier.map busyTwin ++ [m])) ≠ none := by
  obtain ⟨hmin, hmax⟩ := after_map_extrema currentThroughput_busyTwin earlier
  have hextrema := updateExtrema_congr (m := m) hmin hmax
  have hnorm : normMeasured m (updateExtrema m (after (earlier.map busyTwin))) =
      normMeasured m (updateExtrema m (after earlier)) :=
    normMeasured_congr hextrema.1 hextrema.2
  obtain ⟨hkj, hke, hko⟩ := after_map_busyTwin hne
  obtain ⟨n, hsome⟩ := Option.ne_none_iff_exists'.mp hnone
  have hscale : 0 < SCALE_FACTOR := by decide
  have hpos : 0 < (after (earlier.map busyTwin ++ [m])).normThroughput ∧
      0 < (after (earlier.map busyTwin ++ [m])).jCpuScaled ∧
      0 < (after (earlier.map busyTwin ++ [m])).eFsScaled ∧
      0 < (after (earlier.map busyTwin ++ [m])).mOverScaled := by
    rw [after_normThroughput, after_jCpu, after_eFs, after_mOver, hnorm, hkj, hke, hko]
    refine ⟨?_, getD_pos hj hscale, getD_pos he hscale, getD_pos ho hscale⟩
    rw [hsome] at hn ⊢
    exact UInt32.pos_iff_ne_zero.mpr fun hx => hn (congrArg some hx)
  rw [sPerform, if_pos hpos]
  exact Option.some_ne_none _

theorem sPerform_of_idle {earlier : List Measurements} {m : Measurements}
    (h : ¬ ((jCpuMeasured m).isSome ∧ (eFsMeasured m).isSome ∧ (mOverMeasured m).isSome)) :
    sPerform (after (earlier.map idleTwin ++ [m])) = none := by
  obtain ⟨hkj, hke, hko⟩ := after_map_idleTwin earlier
  apply sPerform_eq_none
  right
  rw [after_jCpu, after_eFs, after_mOver, hkj, hke, hko]
  cases hj : jCpuMeasured m with
  | none => exact Or.inl rfl
  | some j =>
      cases he : eFsMeasured m with
      | none => exact Or.inr (Or.inl rfl)
      | some e =>
          cases ho : mOverMeasured m with
          | none => exact Or.inr (Or.inr rfl)
          | some o =>
              rw [hj, he, ho] at h
              exact absurd ⟨rfl, rfl, rfl⟩ h

/-- All histories with the same extrema let a round report the same exactly if it is isolated. -/
theorem sPerform_eq_iff_isolated (earlier : List Measurements) (m : Measurements) :
    (∀ earlier' : List Measurements,
      (after earlier').minThroughput = (after earlier).minThroughput →
      (after earlier').maxThroughput = (after earlier).maxThroughput →
      sPerform (after (earlier' ++ [m])) = sPerform (after (earlier ++ [m]))) ↔
      Isolated m (after earlier) := by
  constructor
  · intro hsame
    by_contra hnot
    obtain ⟨hnone, hn, hj, he, ho, hall⟩ : normMeasured m (updateExtrema m (after earlier)) ≠ none ∧
        normMeasured m (updateExtrema m (after earlier)) ≠ some 0 ∧ jCpuMeasured m ≠ some 0 ∧
        eFsMeasured m ≠ some 0 ∧ mOverMeasured m ≠ some 0 ∧
        ¬ ((jCpuMeasured m).isSome ∧ (eFsMeasured m).isSome ∧ (mOverMeasured m).isSome) := by
      simpa only [Isolated, not_or] using hnot
    have hne : earlier ≠ [] := by
      rintro rfl
      exact hnone (normMeasured_first m)
    obtain ⟨hbmin, hbmax⟩ := after_map_extrema currentThroughput_busyTwin earlier
    obtain ⟨himin, himax⟩ := after_map_extrema currentThroughput_idleTwin earlier
    have hbusy := hsame (earlier.map busyTwin) hbmin hbmax
    have hidle := hsame (earlier.map idleTwin) himin himax
    rw [sPerform_of_idle hall] at hidle
    exact sPerform_of_busy hne hnone hn hj he ho (hbusy.trans hidle.symm)
  · exact fun h earlier' hmin hmax => sPerform_of_isolated hmin hmax h

/-- Twenty children that take the whole round, with the totals of their statistics. -/
def roundWith (time : Int32) (totals : Totals) (h : totals.processes ≤ 20) : Measurements where
  completed := 20
  executionTime := time
  totals := totals
  times := List.replicate 20 time
  completed_eq := rfl
  completed_le := le_rfl
  processes_le := h

/-- The third round reads no times of files: whether it reports depends on the second one. -/
theorem sPerform_depends_on_history :
    let quiet := roundWith 1000 0 (by decide)
    let files := roundWith 900 ⟨5, 3, 1, 2, 1, 14, 6⟩ (by decide)
    let noFiles := roundWith 900 ⟨0, 0, 0, 2, 1, 0, 6⟩ (by decide)
    let last := roundWith 950 ⟨0, 0, 0, 4, 3, 0, 6⟩ (by decide)
    (after [quiet, files]).minThroughput = (after [quiet, noFiles]).minThroughput ∧
      (after [quiet, files]).maxThroughput = (after [quiet, noFiles]).maxThroughput ∧
      sPerform (after ([quiet, files] ++ [last])) ≠
        sPerform (after ([quiet, noFiles] ++ [last])) := by
  decide +kernel

end Xv6Fairness
