import Xv6Fairness.RoundMetrics

/-!
# Normalised throughput

The scaled throughput of a round fits into 32 bits, and the globals hold the extrema of all rounds
so far. The product from which the normalised throughput is divided out does not always fit: it is
exact as long as the throughput of the round is less than 2^32 / SCALE_FACTOR above the lowest.
-/

namespace Xv6Fairness

/-- Completed processes per tick, scaled by a million, over the integers. -/
def scaled (m : Measurements) : ℕ := m.completed * 1000000 / m.executionTime.toNatClampNeg

section Throughput

variable {m : Measurements}

theorem scaled_le (m : Measurements) : scaled m ≤ 20000000 := by
  have hc : m.completed ≤ 20 := m.completed_le
  have hdiv : scaled m ≤ m.completed * 1000000 := Nat.div_le_self _ _
  omega

theorem currentThroughput_toNat (h : 0 < m.executionTime) :
    (currentThroughput m).toNat = scaled m := by
  have hc : m.completed ≤ 20 := m.completed_le
  have hnum : (UInt32.ofNat m.completed * SCALE_FACTOR).toNat = m.completed * 1000000 := by
    rw [UInt32.toNat_mul, UInt32.toNat_ofNat']
    change m.completed % 2 ^ 32 * 1000000 % 2 ^ 32 = m.completed * 1000000
    omega
  rw [currentThroughput, if_pos h, UInt32.toNat_div, hnum,
    Int32.toNat_toUInt32_of_le (Int32.le_of_lt h)]
  rfl

end Throughput

/-- The globals hold the least and the greatest throughput of the rounds, if there were any. -/
structure ExtremaInv (rounds : List Measurements) (s : Metrics) : Prop where
  min_le : ∀ m ∈ rounds, s.minThroughput.toNat ≤ scaled m
  le_max : ∀ m ∈ rounds, scaled m ≤ s.maxThroughput.toNat
  min_mem : (rounds = [] ∧ s.minThroughput = UINT_MAX) ∨
    ∃ m ∈ rounds, scaled m = s.minThroughput.toNat
  max_mem : (rounds = [] ∧ s.maxThroughput = 0) ∨ ∃ m ∈ rounds, scaled m = s.maxThroughput.toNat

section Extrema

variable {rounds : List Measurements} {m : Measurements} {s : Metrics}

theorem updateExtrema_min (h : 0 < m.executionTime) :
    (updateExtrema m s).minThroughput.toNat = min (scaled m) s.minThroughput.toNat := by
  change (if currentThroughput m < s.minThroughput then currentThroughput m
    else s.minThroughput).toNat = _
  rw [← currentThroughput_toNat h]
  split_ifs with hlt
  · rw [UInt32.lt_iff_toNat_lt] at hlt
    omega
  · rw [UInt32.lt_iff_toNat_lt] at hlt
    omega

theorem updateExtrema_max (h : 0 < m.executionTime) :
    (updateExtrema m s).maxThroughput.toNat = max (scaled m) s.maxThroughput.toNat := by
  change (if s.maxThroughput < currentThroughput m then currentThroughput m
    else s.maxThroughput).toNat = _
  rw [← currentThroughput_toNat h]
  split_ifs with hlt
  · rw [UInt32.lt_iff_toNat_lt] at hlt
    omega
  · rw [UInt32.lt_iff_toNat_lt] at hlt
    omega

theorem ExtremaInv.playRound (hs : ExtremaInv rounds s) (h : 0 < m.executionTime) :
    ExtremaInv (rounds ++ [m]) (playRound m s).1 := by
  have hmin : (Xv6Fairness.playRound m s).1.minThroughput.toNat =
      min (scaled m) s.minThroughput.toNat := by
    rw [playRound_fst]
    exact updateExtrema_min h
  have hmax : (Xv6Fairness.playRound m s).1.maxThroughput.toNat =
      max (scaled m) s.maxThroughput.toNat := by
    rw [playRound_fst]
    exact updateExtrema_max h
  have hlast : m ∈ rounds ++ [m] := List.mem_append_right _ List.mem_cons_self
  have hle := scaled_le m
  constructor
  · intro n hn
    rw [hmin]
    rcases List.mem_append.mp hn with hn | hn
    · exact (min_le_right _ _).trans (hs.min_le n hn)
    · rw [List.mem_singleton.mp hn]
      exact min_le_left _ _
  · intro n hn
    rw [hmax]
    rcases List.mem_append.mp hn with hn | hn
    · exact (hs.le_max n hn).trans (le_max_right _ _)
    · rw [List.mem_singleton.mp hn]
      exact le_max_left _ _
  · right
    rw [hmin]
    rcases hs.min_mem with ⟨-, hu⟩ | ⟨n, hn, heq⟩
    · have htop : s.minThroughput.toNat = 4294967295 := by
        rw [hu]
        rfl
      exact ⟨m, hlast, by omega⟩
    · rcases le_total (scaled m) s.minThroughput.toNat with hlt | hlt
      · exact ⟨m, hlast, (min_eq_left hlt).symm⟩
      · exact ⟨n, List.mem_append_left _ hn, by omega⟩
  · right
    rw [hmax]
    rcases hs.max_mem with ⟨-, hz⟩ | ⟨n, hn, heq⟩
    · have hbot : s.maxThroughput.toNat = 0 := by
        rw [hz]
        rfl
      exact ⟨m, hlast, by omega⟩
    · rcases le_total (scaled m) s.maxThroughput.toNat with hlt | hlt
      · exact ⟨n, List.mem_append_left _ hn, by omega⟩
      · exact ⟨m, hlast, (max_eq_left hlt).symm⟩

theorem after_extremaInv (h : ∀ m ∈ rounds, 0 < m.executionTime) :
    ExtremaInv rounds (after rounds) := by
  induction rounds using List.reverseRecOn with
  | nil =>
      constructor
      · exact fun m hm => absurd hm List.not_mem_nil
      · exact fun m hm => absurd hm List.not_mem_nil
      · exact Or.inl ⟨rfl, rfl⟩
      · exact Or.inl ⟨rfl, rfl⟩
  | append_singleton rounds m ih =>
      rw [after_append]
      apply (ih fun n hn => h n (List.mem_append_left _ hn)).playRound
      exact h m (List.mem_append_right _ List.mem_cons_self)

end Extrema

/-- The normalised throughput over the integers. -/
def normalised (current least greatest : ℕ) : ℕ :=
  1000000 - (current - least) * 1000000 / (greatest - least)

theorem normalised_antitone {current current' : ℕ} (least greatest : ℕ) (h : current ≤ current') :
    normalised current' least greatest ≤ normalised current least greatest := by
  apply Nat.sub_le_sub_left
  apply Nat.div_le_div_right
  exact Nat.mul_le_mul_right _ (Nat.sub_le_sub_right h _)

/-- Where the product does not wrap the quotient is exact, and a wrapped product changes it. -/
theorem wrapped_quotient_iff {d range : ℕ} (hd : d ≤ range) (hpos : 0 < range)
    (hrange : range ≤ 20000000) :
    1000000 - d * 1000000 % 2 ^ 32 / range = 1000000 - d * 1000000 / range ↔
      d * 1000000 < 2 ^ 32 := by
  constructor
  · intro h
    by_contra hbig
    have hsmaller : d * 1000000 % 2 ^ 32 + range ≤ d * 1000000 := by omega
    have hquot : d * 1000000 % 2 ^ 32 / range + 1 ≤ d * 1000000 / range := by
      rw [← Nat.add_div_right _ hpos]
      exact Nat.div_le_div_right hsmaller
    have hle : d * 1000000 / range ≤ 1000000 := by
      apply Nat.div_le_of_le_mul
      exact Nat.mul_le_mul_right _ hd
    omega
  · intro h
    rw [Nat.mod_eq_of_lt h]

theorem clamp_of_le {x : UInt32} (h : x.toNat ≤ 1000000) : clamp x = x := by
  have hnot : ¬ SCALE_FACTOR < x := by
    rw [UInt32.lt_iff_toNat_lt]
    exact Nat.not_lt.mpr h
  exact if_neg hnot

section Value

variable {m : Measurements} {s : Metrics}

/-- What the division of the wrapped product leaves, for extrema that include the round. -/
theorem normMeasured_toNat (h : 0 < m.executionTime) (hmin : s.minThroughput.toNat ≤ scaled m)
    (hmax : scaled m ≤ s.maxThroughput.toNat) (hlt : s.minThroughput < s.maxThroughput) :
    ∃ norm, normMeasured m s = some norm ∧ norm.toNat =
      1000000 - (scaled m - s.minThroughput.toNat) * 1000000 % 2 ^ 32 /
        (s.maxThroughput.toNat - s.minThroughput.toNat) := by
  have hcur := currentThroughput_toNat h
  have hlt' := UInt32.lt_iff_toNat_lt.mp hlt
  have hd : (currentThroughput m - s.minThroughput).toNat = scaled m - s.minThroughput.toNat := by
    rw [UInt32.toNat_sub_of_le _ _ (UInt32.le_iff_toNat_le.mpr (by omega)), hcur]
  have hrange : (s.maxThroughput - s.minThroughput).toNat =
      s.maxThroughput.toNat - s.minThroughput.toNat :=
    UInt32.toNat_sub_of_le _ _ (UInt32.le_iff_toNat_le.mpr hlt'.le)
  have hquot : ((currentThroughput m - s.minThroughput) * SCALE_FACTOR /
      (s.maxThroughput - s.minThroughput)).toNat =
        (scaled m - s.minThroughput.toNat) * 1000000 % 2 ^ 32 /
          (s.maxThroughput.toNat - s.minThroughput.toNat) := by
    rw [UInt32.toNat_div, UInt32.toNat_mul, hd, hrange]
    rfl
  have hle : (scaled m - s.minThroughput.toNat) * 1000000 % 2 ^ 32 /
      (s.maxThroughput.toNat - s.minThroughput.toNat) ≤ 1000000 := by
    apply Nat.div_le_of_le_mul
    apply (Nat.mod_le _ _).trans
    exact Nat.mul_le_mul_right _ (Nat.sub_le_sub_right hmax _)
  have hle' : (currentThroughput m - s.minThroughput) * SCALE_FACTOR /
      (s.maxThroughput - s.minThroughput) ≤ SCALE_FACTOR := by
    rw [UInt32.le_iff_toNat_le, hquot]
    exact hle
  have hsub : (SCALE_FACTOR - (currentThroughput m - s.minThroughput) * SCALE_FACTOR /
      (s.maxThroughput - s.minThroughput)).toNat =
        1000000 - (scaled m - s.minThroughput.toNat) * 1000000 % 2 ^ 32 /
          (s.maxThroughput.toNat - s.minThroughput.toNat) := by
    rw [UInt32.toNat_sub_of_le _ _ hle', hquot]
    rfl
  refine ⟨_, if_pos hlt, ?_⟩
  rw [clamp_of_le (hsub.trans_le (Nat.sub_le _ _)), hsub]

end Value

section Exact

variable (earlier : List Measurements) (m : Measurements)

/-- What the extrema and the normalised throughput ought to be after a round: a round with a lower
throughput between the same extrema would have got no less. -/
def Exact : Prop :=
  let s := after (earlier ++ [m])
  IsLeast {t | ∃ n ∈ earlier ++ [m], scaled n = t} s.minThroughput.toNat ∧
    IsGreatest {t | ∃ n ∈ earlier ++ [m], scaled n = t} s.maxThroughput.toNat ∧
    (s.minThroughput < s.maxThroughput →
      s.normThroughput.toNat =
        normalised (scaled m) s.minThroughput.toNat s.maxThroughput.toNat ∧
      s.normThroughput ≤ SCALE_FACTOR ∧
      ∀ m' : Measurements, 0 < m'.executionTime → scaled m' ≤ scaled m →
        (after (earlier ++ [m'])).minThroughput = s.minThroughput →
        (after (earlier ++ [m'])).maxThroughput = s.maxThroughput →
        s.normThroughput ≤ (after (earlier ++ [m'])).normThroughput)

/-- The throughput of the round is not far above that of an earlier one. -/
def Fits : Prop := ∀ n ∈ earlier, (scaled m - scaled n) * 1000000 < 2 ^ 32

variable {earlier m}

theorem fits_of_le {m' : Measurements} (h : scaled m' ≤ scaled m) (hm : Fits earlier m) :
    Fits earlier m' := by
  intro n hn
  have hle : (scaled m' - scaled n) * 1000000 ≤ (scaled m - scaled n) * 1000000 :=
    Nat.mul_le_mul_right _ (Nat.sub_le_sub_right h _)
  exact hle.trans_lt (hm n hn)

variable (hpos : ∀ n ∈ earlier ++ [m], 0 < n.executionTime)

include hpos

theorem fits_iff : Fits earlier m ↔
    (scaled m - (after (earlier ++ [m])).minThroughput.toNat) * 1000000 < 2 ^ 32 := by
  have hinv := after_extremaInv hpos
  constructor
  · intro h
    rcases hinv.min_mem with ⟨hnil, -⟩ | ⟨n, hn, heq⟩
    · exact absurd hnil (List.append_ne_nil_of_right_ne_nil _ (List.cons_ne_nil _ _))
    · rw [← heq]
      rcases List.mem_append.mp hn with hn | hn
      · exact h n hn
      · rw [List.mem_singleton.mp hn, Nat.sub_self]
        decide
  · intro h n hn
    have hle := hinv.min_le n (List.mem_append_left _ hn)
    have hmul : (scaled m - scaled n) * 1000000 ≤
        (scaled m - (after (earlier ++ [m])).minThroughput.toNat) * 1000000 :=
      Nat.mul_le_mul_right _ (Nat.sub_le_sub_left hle _)
    exact hmul.trans_lt h

theorem after_norm
    (hlt : (after (earlier ++ [m])).minThroughput < (after (earlier ++ [m])).maxThroughput) :
    (after (earlier ++ [m])).normThroughput.toNat =
      1000000 - (scaled m - (after (earlier ++ [m])).minThroughput.toNat) * 1000000 % 2 ^ 32 /
        ((after (earlier ++ [m])).maxThroughput.toNat -
          (after (earlier ++ [m])).minThroughput.toNat) := by
  have hinv := after_extremaInv hpos
  have hm : m ∈ earlier ++ [m] := List.mem_append_right _ List.mem_cons_self
  have hmin := hinv.min_le m hm
  have hmax := hinv.le_max m hm
  rw [after_append, playRound_fst] at hlt hmin hmax ⊢
  obtain ⟨norm, hnorm, heq⟩ := normMeasured_toNat (s := updateExtrema m (after earlier))
    (hpos m hm) hmin hmax hlt
  rw [hnorm]
  exact heq

theorem after_max_le : (after (earlier ++ [m])).maxThroughput.toNat ≤ 20000000 := by
  rcases (after_extremaInv hpos).max_mem with ⟨hnil, -⟩ | ⟨n, -, heq⟩
  · exact absurd hnil (List.append_ne_nil_of_right_ne_nil _ (List.cons_ne_nil _ _))
  · rw [← heq]
    exact scaled_le n

/-- With different extrema the stored value is the normalised one exactly if the round fits. -/
theorem after_norm_eq_iff
    (hlt : (after (earlier ++ [m])).minThroughput < (after (earlier ++ [m])).maxThroughput) :
    (after (earlier ++ [m])).normThroughput.toNat =
      normalised (scaled m) (after (earlier ++ [m])).minThroughput.toNat
        (after (earlier ++ [m])).maxThroughput.toNat ↔ Fits earlier m := by
  have hm : m ∈ earlier ++ [m] := List.mem_append_right _ List.mem_cons_self
  have hmax := (after_extremaInv hpos).le_max m hm
  have hlt' := UInt32.lt_iff_toNat_lt.mp hlt
  have htop := after_max_le hpos
  rw [after_norm hpos hlt, fits_iff hpos, normalised]
  exact wrapped_quotient_iff (Nat.sub_le_sub_right hmax _) (by omega) (by omega)

theorem fits_of_not_lt
    (hlt : ¬ (after (earlier ++ [m])).minThroughput < (after (earlier ++ [m])).maxThroughput) :
    Fits earlier m := by
  have hmax := (after_extremaInv hpos).le_max m (List.mem_append_right _ List.mem_cons_self)
  have hle := UInt32.le_iff_toNat_le.mp (UInt32.not_lt.mp hlt)
  rw [fits_iff hpos, Nat.sub_eq_zero_of_le (hmax.trans hle)]
  decide

theorem exact_iff_fits : Exact earlier m ↔ Fits earlier m := by
  have hinv := after_extremaInv hpos
  have hne : earlier ++ [m] ≠ [] := List.append_ne_nil_of_right_ne_nil _ (List.cons_ne_nil _ _)
  constructor
  · rintro ⟨-, -, hnorm⟩
    by_cases hlt :
        (after (earlier ++ [m])).minThroughput < (after (earlier ++ [m])).maxThroughput
    · exact (after_norm_eq_iff hpos hlt).mp (hnorm hlt).1
    · exact fits_of_not_lt hpos hlt
  · intro hfits
    refine ⟨⟨hinv.min_mem.resolve_left fun h => hne h.1, ?_⟩,
      ⟨hinv.max_mem.resolve_left fun h => hne h.1, ?_⟩, fun hlt => ?_⟩
    · rintro t ⟨n, hn, rfl⟩
      exact hinv.min_le n hn
    · rintro t ⟨n, hn, rfl⟩
      exact hinv.le_max n hn
    · have hnorm := (after_norm_eq_iff hpos hlt).mpr hfits
      refine ⟨hnorm, ?_, ?_⟩
      · rw [UInt32.le_iff_toNat_le, hnorm]
        exact Nat.sub_le _ _
      · intro m' hm' hle hmin hmax
        have hpos' : ∀ n ∈ earlier ++ [m'], 0 < n.executionTime := by
          intro n hn
          rcases List.mem_append.mp hn with hn | hn
          · exact hpos n (List.mem_append_left _ hn)
          · rwa [List.mem_singleton.mp hn]
        have hnorm' := (after_norm_eq_iff hpos' (by rwa [hmin, hmax])).mpr (fits_of_le hle hfits)
        rw [UInt32.le_iff_toNat_le, hnorm, hnorm', hmin, hmax]
        exact normalised_antitone _ _ hle

end Exact

/-- In a run every round is exact exactly if every round fits. -/
theorem rounds_exact_iff (rounds : List Measurements) (hpos : ∀ m ∈ rounds, 0 < m.executionTime) :
    (∀ earlier m, earlier ++ [m] <+: rounds → Exact earlier m) ↔
      ∀ earlier m, earlier ++ [m] <+: rounds → Fits earlier m := by
  have hround : ∀ earlier m, earlier ++ [m] <+: rounds →
      (Exact earlier m ↔ Fits earlier m) :=
    fun earlier m h => exact_iff_fits fun n hn => hpos n (h.subset hn)
  constructor
  · exact fun h earlier m hm => (hround earlier m hm).mp (h earlier m hm)
  · exact fun h earlier m hm => (hround earlier m hm).mpr (h earlier m hm)

/-- A round in which all twenty processes take the whole time. -/
def fullRound (time : Int32) : Measurements where
  completed := 20
  executionTime := time
  totals := 0
  times := List.replicate 20 time
  completed_eq := List.length_replicate.symm
  completed_le := le_refl MAX_PROCS
  processes_le := Nat.zero_le _

theorem rounds_exact_iff_two_rounds :
    Exact [] (fullRound 1000) ∧ Exact [fullRound 1000] (fullRound 900) := by
  suffices h : ∀ earlier m, earlier ++ [m] <+: [fullRound 1000, fullRound 900] →
      Exact earlier m from
    ⟨h [] (fullRound 1000) ⟨[fullRound 900], rfl⟩, h [fullRound 1000] (fullRound 900) ⟨[], rfl⟩⟩
  apply (rounds_exact_iff [fullRound 1000, fullRound 900] (by decide +kernel)).mpr
  intro earlier m h n hn
  have hpairs : ∀ m ∈ [fullRound 1000, fullRound 900], ∀ n ∈ [fullRound 1000, fullRound 900],
      (scaled m - scaled n) * 1000000 < 2 ^ 32 := by decide +kernel
  have hm := h.subset (List.mem_append_right earlier List.mem_cons_self)
  exact hpairs m hm n (h.subset (List.mem_append_left _ hn))

/-- From 20000 to 25000 processes per million ticks the product wraps: the fastest round so far gets
0.858994 instead of 0. -/
theorem fast_round_not_exact : (∀ m ∈ [fullRound 1000, fullRound 800], 0 < m.executionTime) ∧
    ¬ Exact [fullRound 1000] (fullRound 800) := by
  constructor
  · decide +kernel
  · rintro ⟨-, -, hnorm⟩
    have hvalue := (hnorm (by decide +kernel)).1
    revert hvalue
    decide +kernel

end Xv6Fairness
