import Mathlib.Algebra.Order.Ring.Nat
import Mathlib.Tactic.GCongr
import Mathlib.Tactic.Linarith
import Mathlib.Tactic.NormNum.Pow
import Mathlib.Tactic.Ring

/-!
# A scaled ratio by parts

`calculate_scaled_ratio` is to compute `a * a * scale / (b * c)` and splits `a` into its quotient
and its remainder by `b`. The three quotients it adds up are those of `a * a * scale / (b * b * c)`,
so it falls short of a ratio that is not zero unless `b` is one.
-/

namespace Xv6Fairness

namespace ScaledRatio

/-- `x / y` of unsigned numbers; `none` is the trap. -/
def udiv (x y : UInt32) : Option UInt32 := if y = 0 then none else some (x / y)

def umod (x y : UInt32) : Option UInt32 := if y = 0 then none else some (x % y)

def calculateScaledRatio (a b c scale : UInt32) : Option UInt32 :=
  if c = 0 ∨ b = 0 then some 0
  else do
    let aScaled ← udiv a b
    let remainderA ← umod a b
    let temp ← udiv (aScaled * aScaled * scale) c
    let cross ← udiv (2 * aScaled * remainderA * scale) c
    let square ← udiv (remainderA * remainderA * scale) (b * b * c)
    let adjustment := cross + square
    return temp + adjustment

/-- The formula of the comment, over the integers. -/
def ratio (a b c scale : ℕ) : ℕ := a * a * scale / (b * c)

/-- What is added up instead, over the integers. -/
def parts (a b c scale : ℕ) : ℕ :=
  a / b * (a / b) * scale / c +
    (2 * (a / b) * (a % b) * scale / c + a % b * (a % b) * scale / (b * b * c))

/-- Every product on the way and the ratio itself fit into 32 bits. -/
structure Fits (a b c scale : ℕ) : Prop where
  quotient : a / b * (a / b) < 2 ^ 32
  quotientScaled : a / b * (a / b) * scale < 2 ^ 32
  double : 2 * (a / b) < 2 ^ 32
  cross : 2 * (a / b) * (a % b) < 2 ^ 32
  crossScaled : 2 * (a / b) * (a % b) * scale < 2 ^ 32
  remainder : a % b * (a % b) < 2 ^ 32
  remainderScaled : a % b * (a % b) * scale < 2 ^ 32
  divisor : b * b < 2 ^ 32
  divisorTimes : b * b * c < 2 ^ 32
  value : ratio a b c scale < 2 ^ 32

section Parts

variable {a b c scale : ℕ}

theorem numerator_eq (a b scale : ℕ) : a * a * scale =
    b * b * (a / b * (a / b) * scale) + b * (2 * (a / b) * (a % b) * scale) +
      a % b * (a % b) * scale := by
  have hsplit : a = b * (a / b) + a % b := (Nat.div_add_mod a b).symm
  generalize a / b = q at *
  generalize a % b = r at *
  rw [hsplit]
  ring

theorem cross_le (a b scale : ℕ) : b * (2 * (a / b) * (a % b) * scale) ≤
    b * b * (a / b * (a / b) * scale) + a % b * (a % b) * scale := by
  have hsq := Nat.mul_le_mul_right scale (two_mul_le_add_sq (b * (a / b)) (a % b))
  calc
    b * (2 * (a / b) * (a % b) * scale) = 2 * (b * (a / b)) * (a % b) * scale := by ring
    _ ≤ ((b * (a / b)) ^ 2 + (a % b) ^ 2) * scale := hsq
    _ = b * b * (a / b * (a / b) * scale) + a % b * (a % b) * scale := by ring

theorem floors_le (a b c scale : ℕ) :
    b * b * c * (a / b * (a / b) * scale / c) + b * c * (2 * (a / b) * (a % b) * scale / c) +
      b * b * c * (a % b * (a % b) * scale / (b * b * c)) ≤ a * a * scale := by
  have hfirst := Nat.mul_le_mul_left (b * b) (Nat.mul_div_le (a / b * (a / b) * scale) c)
  have hcross := Nat.mul_le_mul_left b (Nat.mul_div_le (2 * (a / b) * (a % b) * scale) c)
  have hlast := Nat.mul_div_le (a % b * (a % b) * scale) (b * b * c)
  rw [← Nat.mul_assoc] at hfirst hcross
  rw [numerator_eq a b scale]
  exact Nat.add_le_add (Nat.add_le_add hfirst hcross) hlast

theorem parts_le_ratio (a scale : ℕ) (hb : 0 < b) (hc : 0 < c) :
    parts a b c scale ≤ ratio a b c scale := by
  have hfloors := floors_le a b c scale
  rw [parts, ratio, Nat.le_div_iff_mul_le (Nat.mul_pos hb hc)]
  generalize a / b * (a / b) * scale / c = x at *
  generalize 2 * (a / b) * (a % b) * scale / c = y at *
  generalize a % b * (a % b) * scale / (b * b * c) = z at *
  have hone : b * c ≤ b * b * c := Nat.mul_le_mul_right c (Nat.le_mul_of_pos_left b hb)
  calc
    (x + (y + z)) * (b * c) = b * c * x + b * c * y + b * c * z := by ring
    _ ≤ b * b * c * x + b * c * y + b * b * c * z := by gcongr
    _ ≤ a * a * scale := hfloors

theorem parts_one (a c scale : ℕ) : parts a 1 c scale = ratio a 1 c scale := by
  simp [parts, ratio, Nat.mod_one]

theorem ratio_eq_zero_of_parts (hb : 2 ≤ b) (hc : 0 < c)
    (h : parts a b c scale = ratio a b c scale) :
    ratio a b c scale = 0 := by
  have hpos : 0 < b * c := Nat.mul_pos (by omega) hc
  have hfloors := floors_le a b c scale
  have hmean := cross_le a b scale
  have hnum := numerator_eq a b scale
  have hcross := Nat.mul_div_le (2 * (a / b) * (a % b) * scale) c
  have hup : a * a * scale < b * c * (ratio a b c scale + 1) := Nat.lt_mul_div_succ _ hpos
  rw [← h, parts] at hup ⊢
  generalize a / b * (a / b) * scale = A at *
  generalize 2 * (a / b) * (a % b) * scale = B at *
  generalize a % b * (a % b) * scale = C at *
  generalize A / c = x at *
  generalize C / (b * b * c) = z at *
  -- The first and the last quotient count with a factor `b` in the ratio.
  have houter : b * (x + z) < x + z + 1 := by
    have hlt : b * c * (b * (x + z) + B / c) < b * c * (x + z + 1 + B / c) := by
      calc
        b * c * (b * (x + z) + B / c) = b * b * c * x + b * c * (B / c) + b * b * c * z := by ring
        _ ≤ a * a * scale := hfloors
        _ < b * c * (x + (B / c + z) + 1) := hup
        _ = b * c * (x + z + 1 + B / c) := by ring
    exact Nat.lt_of_add_lt_add_right (Nat.lt_of_mul_lt_mul_left hlt)
  have htwo := Nat.mul_le_mul_right (x + z) hb
  have hx : x = 0 := by omega
  have hz : z = 0 := by omega
  subst hx hz
  -- The one in the middle is at most half of the ratio.
  have hmiddle : 2 * (B / c) < B / c + 1 := by
    have hlt : b * c * (2 * (B / c)) < b * c * (B / c + 1) := by
      calc
        b * c * (2 * (B / c)) = b * (2 * (c * (B / c))) := by ring
        _ ≤ b * (2 * B) := by gcongr
        _ = b * B + b * B := by ring
        _ ≤ a * a * scale := by omega
        _ < b * c * (0 + (B / c + 0) + 1) := hup
        _ = b * c * (B / c + 1) := by ring
    exact Nat.lt_of_mul_lt_mul_left hlt
  omega

theorem parts_eq_ratio_iff (hb : 0 < b) (hc : 0 < c) :
    parts a b c scale = ratio a b c scale ↔ b = 1 ∨ a * a * scale < b * c := by
  constructor
  · intro h
    rcases Nat.lt_or_ge b 2 with hone | htwo
    · exact Or.inl (by omega)
    · have hzero := ratio_eq_zero_of_parts htwo hc h
      exact Or.inr ((Nat.div_eq_zero_iff_lt (Nat.mul_pos hb hc)).mp hzero)
  · rintro (rfl | hlt)
    · exact parts_one a c scale
    · have hle := parts_le_ratio a scale hb hc
      have hzero : ratio a b c scale = 0 := Nat.div_eq_of_lt hlt
      omega

end Parts

section Words

variable {a b c scale : UInt32}

theorem toNat_mul_of_lt {x y : UInt32} {m n : ℕ} (hx : x.toNat = m) (hy : y.toNat = n)
    (h : m * n < 2 ^ 32) : (x * y).toNat = m * n := by
  rw [UInt32.toNat_mul, hx, hy, Nat.mod_eq_of_lt h]

theorem calculateScaledRatio_eq (a scale : UInt32) (hb : b ≠ 0) (hc : c ≠ 0) :
    calculateScaledRatio a b c scale = if b * b * c = 0 then none
    else some (a / b * (a / b) * scale / c +
      (2 * (a / b) * (a % b) * scale / c + a % b * (a % b) * scale / (b * b * c))) := by
  rw [calculateScaledRatio, if_neg (not_or_intro hc hb)]
  simp only [udiv, umod, if_neg hb, if_neg hc, Option.bind_eq_bind, Option.bind_some]
  split_ifs
  · rfl
  · rfl

theorem calculateScaledRatio_parts (hb : b ≠ 0) (hc : c ≠ 0)
    (h : Fits a.toNat b.toNat c.toNat scale.toNat) :
    ∃ r, calculateScaledRatio a b c scale = some r ∧
      r.toNat = parts a.toNat b.toNat c.toNat scale.toNat := by
  have hbpos : 0 < b.toNat := Nat.pos_of_ne_zero fun hz => hb (UInt32.toNat_inj.mp hz)
  have hcpos : 0 < c.toNat := Nat.pos_of_ne_zero fun hz => hc (UInt32.toNat_inj.mp hz)
  have hq : (a / b).toNat = a.toNat / b.toNat := UInt32.toNat_div a b
  have hr : (a % b).toNat = a.toNat % b.toNat := UInt32.toNat_mod a b
  have hdiv := toNat_mul_of_lt (toNat_mul_of_lt rfl rfl h.divisor) rfl h.divisorTimes
  have hdivpos : b * b * c ≠ 0 := by
    intro hz
    rw [hz] at hdiv
    exact (Nat.mul_pos (Nat.mul_pos hbpos hbpos) hcpos).ne hdiv
  have hfirst := toNat_mul_of_lt (toNat_mul_of_lt hq hq h.quotient) rfl h.quotientScaled
  have hdouble := toNat_mul_of_lt (x := 2) rfl hq h.double
  have hcross := toNat_mul_of_lt (toNat_mul_of_lt hdouble hr h.cross) rfl h.crossScaled
  have hlast := toNat_mul_of_lt (toNat_mul_of_lt hr hr h.remainder) rfl h.remainderScaled
  have hle := parts_le_ratio a.toNat scale.toNat hbpos hcpos
  have hlt := h.value
  refine ⟨_, (calculateScaledRatio_eq a scale hb hc).trans (if_neg hdivpos), ?_⟩
  rw [UInt32.toNat_add, UInt32.toNat_add, UInt32.toNat_div, UInt32.toNat_div, UInt32.toNat_div,
    hfirst, hcross, hlast, hdiv, Nat.add_mod_mod]
  exact Nat.mod_eq_of_lt (hle.trans_lt hlt)

end Words

/-- What the comments promise: no trap, zero where a divisor is zero, and the ratio as long as it
and all products fit. -/
def ComputesRatio (a b c scale : UInt32) : Prop :=
  ∃ r, calculateScaledRatio a b c scale = some r ∧ (b = 0 ∨ c = 0 → r = 0) ∧
    (b ≠ 0 → c ≠ 0 → Fits a.toNat b.toNat c.toNat scale.toNat →
      r.toNat = ratio a.toNat b.toNat c.toNat scale.toNat)

theorem computes_ratio_iff (a b c scale : UInt32) : ComputesRatio a b c scale ↔
    b = 0 ∨ c = 0 ∨ b * b * c ≠ 0 ∧ (b = 1 ∨
      a.toNat * a.toNat * scale.toNat < b.toNat * c.toNat ∨
      ¬ Fits a.toNat b.toNat c.toNat scale.toNat) := by
  by_cases hzero : b = 0 ∨ c = 0
  · have hcalc : calculateScaledRatio a b c scale = some 0 := if_pos hzero.symm
    have hleft : ComputesRatio a b c scale :=
      ⟨0, hcalc, fun _ => rfl, fun hb hc => absurd hzero (not_or_intro hb hc)⟩
    exact iff_of_true hleft (by tauto)
  · obtain ⟨hb, hc⟩ := not_or.mp hzero
    have hbpos : 0 < b.toNat := Nat.pos_of_ne_zero fun hz => hb (UInt32.toNat_inj.mp hz)
    have hcpos : 0 < c.toNat := Nat.pos_of_ne_zero fun hz => hc (UInt32.toNat_inj.mp hz)
    have hone : b = 1 ↔ b.toNat = 1 := UInt32.toNat_inj.symm
    rw [or_iff_right hb, or_iff_right hc, hone]
    constructor
    · rintro ⟨r, hr, -, hratio⟩
      constructor
      · intro hz
        rw [calculateScaledRatio_eq a scale hb hc, if_pos hz] at hr
        exact absurd hr (Option.some_ne_none r).symm
      · by_cases hfits : Fits a.toNat b.toNat c.toNat scale.toNat
        · obtain ⟨t, ht, hparts⟩ := calculateScaledRatio_parts hb hc hfits
          obtain rfl : r = t := Option.some_inj.mp (hr.symm.trans ht)
          have heq := hparts.symm.trans (hratio hb hc hfits)
          exact ((parts_eq_ratio_iff hbpos hcpos).mp heq).imp_right Or.inl
        · exact Or.inr (Or.inr hfits)
    · rintro ⟨hz, hcond⟩
      have hcalc := (calculateScaledRatio_eq a scale hb hc).trans (if_neg hz)
      refine ⟨_, hcalc, fun h => absurd h hzero, fun _ _ hfits => ?_⟩
      obtain ⟨t, ht, hparts⟩ := calculateScaledRatio_parts hb hc hfits
      rw [Option.some_inj.mp (hcalc.symm.trans ht), hparts]
      rcases hcond with h | h | h
      · exact (parts_eq_ratio_iff hbpos hcpos).mpr (Or.inl h)
      · exact (parts_eq_ratio_iff hbpos hcpos).mpr (Or.inr h)
      · exact absurd hfits h

/-- `2 * 2 * 1 / (2 * 1)` comes out as one, and the square of `65536` is a divisor of zero. -/
theorem scaled_ratio_wrong : ¬ ComputesRatio 2 2 1 1 ∧ Fits 2 2 1 1 ∧
    calculateScaledRatio 2 2 1 1 = some 1 ∧ ratio 2 2 1 1 = 2 ∧
    calculateScaledRatio 1 65536 1 1 = none := by
  have hfits : Fits 2 2 1 1 := by constructor <;> decide
  have hone : calculateScaledRatio 2 2 1 1 = some 1 := by decide
  refine ⟨?_, hfits, hone, by decide, by decide⟩
  rintro ⟨r, hr, -, hratio⟩
  obtain rfl : r = 1 := Option.some_inj.mp (hr.symm.trans hone)
  exact absurd (hratio (by decide) (by decide) hfits) (by decide)

end ScaledRatio

end Xv6Fairness
