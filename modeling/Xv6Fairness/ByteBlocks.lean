import Mathlib.Tactic.Ring
import Mathlib.Data.Nat.ModEq
import Mathlib.Tactic.IntervalCases

/-!
# Blocks of bytes

A block is an array of a fixed number of bytes. Parts of it are overwritten by `patch`, and numbers
of a given width are kept in it with the least significant byte first. A block is also an array of
bits, eight to a byte.
-/

namespace ByteBlocks

abbrev Block (n : ℕ) := Fin n → UInt8

namespace Block

variable {n : ℕ} (b : Block n) (o m w v : ℕ) (src : ℕ → UInt8)

def byteAt (i : ℕ) : UInt8 := if h : i < n then b ⟨i, h⟩ else 0

/-- `memmove(b + o, src, m)`. -/
def patch : Block n := fun j => if o ≤ j ∧ j < o + m then src (j - o) else b j

/-- The number in the `w` bytes from `o` on. -/
def getWord : ℕ → ℕ → ℕ
  | 0, _ => 0
  | w + 1, o => (b.byteAt o).toNat + 256 * getWord w (o + 1)

def putWord : Block n := b.patch o w fun k => UInt8.ofNat (v / 256 ^ k)

variable {b o m w v src} {b' : Block n} {i o' w' : ℕ}

theorem byteAt_of_le (h : n ≤ i) : b.byteAt i = 0 := dif_neg (not_lt.mpr h)

theorem byteAt_patch (h : i < n) :
    (b.patch o m src).byteAt i = if o ≤ i ∧ i < o + m then src (i - o) else b.byteAt i := by
  rw [byteAt, byteAt, dif_pos h, dif_pos h, patch]

theorem byteAt_patch_of_mem (h : i < n) (ho : o ≤ i) (hm : i < o + m) :
    (b.patch o m src).byteAt i = src (i - o) := by
  rw [byteAt_patch h, if_pos ⟨ho, hm⟩]

theorem byteAt_patch_of_not_mem (h : i < o ∨ o + m ≤ i) :
    (b.patch o m src).byteAt i = b.byteAt i := by
  by_cases hi : i < n
  · rw [byteAt_patch hi, if_neg (by omega)]
  · rw [byteAt_of_le (not_lt.mp hi), byteAt_of_le (not_lt.mp hi)]

theorem getWord_congr (h : ∀ i, o ≤ i → i < o + w → b.byteAt i = b'.byteAt i) :
    b.getWord w o = b'.getWord w o := by
  induction w generalizing o with
  | zero => rfl
  | succ w ih =>
      rw [getWord, getWord, h o le_rfl (by omega), ih fun i hi hw => h i (by omega) (by omega)]

theorem getWord_zero : getWord (fun _ => 0 : Block n) w o = 0 := by
  induction w generalizing o with
  | zero => rfl
  | succ w ih =>
      have hbyte : byteAt (fun _ => 0 : Block n) o = 0 := by
        rw [byteAt]
        split_ifs <;> rfl
      rw [getWord, hbyte, ih]
      rfl

theorem getWord_patch_of_disjoint (h : o + w ≤ o' ∨ o' + m ≤ o) :
    (b.patch o' m src).getWord w o = b.getWord w o :=
  getWord_congr fun _ hi hw => byteAt_patch_of_not_mem (by omega)

theorem getWord_putWord_of_disjoint (h : o + w ≤ o' ∨ o' + w' ≤ o) :
    (b.putWord o' w' v).getWord w o = b.getWord w o :=
  getWord_patch_of_disjoint h

theorem getWord_eq_mod (hn : o + w ≤ n)
    (h : ∀ k < w, b.byteAt (o + k) = UInt8.ofNat (v / 256 ^ k)) :
    b.getWord w o = v % 256 ^ w := by
  induction w generalizing o v with
  | zero => rw [getWord, Nat.pow_zero, Nat.mod_one]
  | succ w ih =>
      have hfirst : (b.byteAt o).toNat = v % 256 := by
        have h0 := h 0 (by omega)
        rw [Nat.add_zero, Nat.pow_zero, Nat.div_one] at h0
        rw [h0, UInt8.toNat_ofNat']
      have hrest : b.getWord w (o + 1) = v / 256 % 256 ^ w := by
        apply ih (by omega)
        intro k hk
        rw [Nat.div_div_eq_div_mul, Nat.mul_comm, ← Nat.pow_succ, ← h (k + 1) (by omega)]
        congr 1
        omega
      rw [getWord, hfirst, hrest, Nat.pow_succ, Nat.mul_comm (256 ^ w), Nat.mod_mul]

theorem getWord_putWord (hn : o + w ≤ n) : (b.putWord o w v).getWord w o = v % 256 ^ w := by
  apply getWord_eq_mod hn
  intro k hk
  rw [putWord, byteAt_patch_of_mem (by omega) (by omega) (by omega), Nat.add_sub_cancel_left]

theorem getWord_putWord_of_lt (hn : o + w ≤ n) (hv : v < 256 ^ w) :
    (b.putWord o w v).getWord w o = v := by
  rw [getWord_putWord hn, Nat.mod_eq_of_lt hv]

section Bits

/-- `1 << (k % 8)`. -/
def mask (k : ℕ) : UInt8 := 1 <<< UInt8.ofNat (k % 8)

variable (b) (k : ℕ)

def HasBit : Prop := b.byteAt (k / 8) &&& mask k ≠ 0

instance : Decidable (b.HasBit k) := inferInstanceAs (Decidable (_ ≠ _))

def setBit : Block n := b.patch (k / 8) 1 fun _ => b.byteAt (k / 8) ||| mask k

def clearBit : Block n := b.patch (k / 8) 1 fun _ => b.byteAt (k / 8) &&& ~~~mask k

variable {b k} {l : ℕ}

theorem mask_toBitVec : (mask k).toBitVec = BitVec.twoPow 8 (k % 8) := by
  have hk : k % 8 < 8 := Nat.mod_lt _ (by decide)
  have hshift : (UInt8.ofNat (k % 8)).toBitVec % 8 = BitVec.ofNat 8 (k % 8) := by
    apply BitVec.eq_of_toNat_eq
    rw [BitVec.toNat_umod, UInt8.toNat_toBitVec, UInt8.toNat_ofNat', BitVec.toNat_ofNat]
    change k % 8 % 256 % 8 = _ % 256
    omega
  rw [mask, UInt8.toBitVec_shiftLeft, hshift]
  generalize k % 8 = j at hk
  interval_cases j <;> rfl

theorem hasBit_iff : b.HasBit k ↔ (b.byteAt (k / 8)).toBitVec.getLsbD (k % 8) = true := by
  have hk : k % 8 < 8 := Nat.mod_lt _ (by decide)
  have hone : BitVec.twoPow 8 (k % 8) ≠ 0#8 := by
    intro h
    have hbit := congrArg (fun v => v.getLsbD (k % 8)) h
    simp only [BitVec.getLsbD_twoPow, hk, BitVec.getLsbD_zero, decide_true, Bool.and_self] at hbit
    cases hbit
  rw [HasBit, ne_eq, ← UInt8.toBitVec_inj, UInt8.toBitVec_and, mask_toBitVec, BitVec.and_twoPow]
  split_ifs with h
  · exact iff_of_true hone h
  · exact iff_of_false (fun hne => hne rfl) h

theorem hasBit_congr (h : b.byteAt (k / 8) = b'.byteAt (k / 8)) : b.HasBit k ↔ b'.HasBit k := by
  rw [HasBit, h, HasBit]

theorem eq_iff_of_div_eq (h : l / 8 = k / 8) : l = k ↔ k % 8 = l % 8 := by omega

theorem hasBit_setBit (hk : k / 8 < n) : (b.setBit k).HasBit l ↔ l = k ∨ b.HasBit l := by
  by_cases hl : l / 8 = k / 8
  · have hmod : l % 8 < 8 := Nat.mod_lt _ (by decide)
    have hbyte : (b.setBit k).byteAt (l / 8) = b.byteAt (l / 8) ||| mask k := by
      rw [setBit, hl, byteAt_patch_of_mem hk le_rfl (Nat.lt_succ_self _)]
    rw [hasBit_iff, hasBit_iff, hbyte, UInt8.toBitVec_or, mask_toBitVec, BitVec.getLsbD_or,
      Bool.or_eq_true, BitVec.getLsbD_twoPow, Bool.and_eq_true, decide_eq_true_iff,
      decide_eq_true_iff, eq_iff_of_div_eq hl, or_comm]
    exact or_congr_left (and_iff_right (Nat.mod_lt _ (by decide)))
  · have hbyte : (b.setBit k).byteAt (l / 8) = b.byteAt (l / 8) :=
      byteAt_patch_of_not_mem (by omega)
    rw [hasBit_congr hbyte, or_iff_right]
    rintro rfl
    exact hl rfl

theorem hasBit_clearBit (hk : k / 8 < n) : (b.clearBit k).HasBit l ↔ l ≠ k ∧ b.HasBit l := by
  by_cases hl : l / 8 = k / 8
  · have hmod : l % 8 < 8 := Nat.mod_lt _ (by decide)
    have hbyte : (b.clearBit k).byteAt (l / 8) = b.byteAt (l / 8) &&& ~~~mask k := by
      rw [clearBit, hl, byteAt_patch_of_mem hk le_rfl (Nat.lt_succ_self _)]
    rw [hasBit_iff, hasBit_iff, hbyte, UInt8.toBitVec_and, UInt8.toBitVec_not, mask_toBitVec,
      BitVec.getLsbD_and, Bool.and_eq_true, BitVec.getLsbD_not, BitVec.getLsbD_twoPow, ne_eq,
      eq_iff_of_div_eq hl, and_comm, decide_eq_true hmod, Bool.true_and,
      decide_eq_true (Nat.mod_lt k (by decide : 0 < 8)), Bool.true_and, Bool.not_eq_true',
      decide_eq_false_iff_not]
  · have hbyte : (b.clearBit k).byteAt (l / 8) = b.byteAt (l / 8) :=
      byteAt_patch_of_not_mem (by omega)
    rw [hasBit_congr hbyte, and_iff_right]
    rintro rfl
    exact hl rfl

end Bits

end Block

end ByteBlocks
