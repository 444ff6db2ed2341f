import Mathlib.Data.List.Range
import Mathlib.Tactic.NormNum.Pow
import Xv6Fairness.CellCopies

/-!
# The two `memmove` functions

The one of the kernel copies from the last byte on when the source lies below the destination and
reaches into it. The one of the user library always copies from the first byte on.
-/

namespace Xv6Fairness

open CellCopies

namespace MemoryMoves

abbrev Memory := UInt32 → UInt8

/-- `while(n-- > 0) *d++ = *s++`. -/
def copyUp (m : Memory) (d s : UInt32) : ℕ → Memory
  | 0 => m
  | n + 1 => copyUp (Function.update m d (m s)) (d + 1) (s + 1) n

/-- `while(n-- > 0) *--d = *--s`. -/
def copyDown (m : Memory) (d s : UInt32) : ℕ → Memory
  | 0 => m
  | n + 1 => copyDown (Function.update m (d - 1) (m (s - 1))) (d - 1) (s - 1) n

/-- `memmove` of the kernel, with the pointer it returns. -/
def Kernel.memmove (m : Memory) (dst src n : UInt32) : UInt32 × Memory :=
  let s := src
  let d := dst
  if s < d ∧ s + n > d then (dst, copyDown m (d + n) (s + n) n.toNat)
  else (dst, copyUp m d s n.toNat)

/-- `memmove` of the user library: its `n` is signed, and nothing is copied below zero. -/
def User.memmove (m : Memory) (vdst vsrc : UInt32) (n : Int32) : UInt32 × Memory :=
  (vdst, copyUp m vdst vsrc n.toNatClampNeg)

/-- The destination holds what the source held, and nothing else has changed. -/
def moved (m : Memory) (dst src : UInt32) (n : ℕ) : Memory := fun a =>
  if dst.toNat ≤ a.toNat ∧ a.toNat < dst.toNat + n then m (src + (a - dst)) else m a

/-- Where the source reaches into a destination above it, the bytes there are those it begins with.
-/
def Repeats (m : Memory) (dst src : UInt32) (n : ℕ) : Prop :=
  src < dst → ∀ i, dst.toNat + i < src.toNat + n →
    m (dst + UInt32.ofNat i) = m (src + UInt32.ofNat i)

/-- The cells of a copy between two addresses, in some order. -/
def copied (m : Memory) (dst src : UInt32) (l : List ℕ) : Memory :=
  copyCells (fun i => dst + UInt32.ofNat i) (fun i => src + UInt32.ofNat i) m l

section Loops

variable {m t : Memory} {dst src d s : UInt32} {i j n : ℕ}

theorem copied_of_ne {l : List ℕ} {a : UInt32} (h : ∀ i ∈ l, dst + UInt32.ofNat i ≠ a) :
    copied m dst src l a = m a := copyCells_of_ne h

theorem copyUp_eq : copyUp m d s n = copied m d s (List.range n) := by
  induction n generalizing m d s with
  | zero => rfl
  | succ n ih =>
      have hzero (a : UInt32) : a + UInt32.ofNat 0 = a := UInt32.add_zero a
      have hnext (a : UInt32) :
          (fun i => a + UInt32.ofNat i) ∘ Nat.succ = fun i => a + 1 + UInt32.ofNat i := by
        funext i
        change a + UInt32.ofNat (i + 1) = a + UInt32.ofNat 1 + UInt32.ofNat i
        rw [add_ofNat_add, Nat.add_comm]
      rw [copyUp, ih, List.range_succ_eq_map, copied, copied, copyCells_cons, copyCells_map, hnext,
        hnext, hzero, hzero]

theorem copyDown_eq : copyDown m (d + UInt32.ofNat n) (s + UInt32.ofNat n) n =
    copied m d s (List.range n).reverse := by
  induction n generalizing m with
  | zero => rfl
  | succ n ih =>
      have hback (a : UInt32) : a + UInt32.ofNat (n + 1) - 1 = a + UInt32.ofNat n := by
        rw [← add_ofNat_add]
        exact UInt32.add_sub_cancel _ _
      rw [copyDown, hback, hback, ih, List.range_succ, List.reverse_concat]
      rfl

theorem place_ne (hi : d.toNat + i < 2 ^ 32) (hj : s.toNat + j < 2 ^ 32)
    (hne : d.toNat + i ≠ s.toNat + j) : d + UInt32.ofNat i ≠ s + UInt32.ofNat j := by
  intro h
  apply hne
  rw [← toNat_add_ofNat hi, ← toNat_add_ofNat hj, h]

theorem range_split (h : i < n) : ∃ after, List.range n = List.range i ++ i :: after ∧
    ∀ j ∈ after, i < j ∧ j < n := by
  obtain ⟨k, rfl⟩ := Nat.exists_eq_add_of_lt h
  refine ⟨(List.range k).map fun j => i + (j + 1), ?_, ?_⟩
  · rw [Nat.add_assoc, List.range_add, List.range_succ_eq_map, List.map_cons, List.map_map]
    rfl
  · intro j hj
    obtain ⟨x, hx, rfl⟩ := List.mem_map.mp hj
    have hlt := List.mem_range.mp hx
    omega

theorem eq_moved_iff (hd : dst.toNat + n ≤ 2 ^ 32)
    (hframe : ∀ a, (∀ i < n, dst + UInt32.ofNat i ≠ a) → t a = m a) :
    t = moved m dst src n ↔ ∀ i < n, t (dst + UInt32.ofNat i) = m (src + UInt32.ofNat i) := by
  constructor
  · rintro rfl i hi
    have hto := toNat_add_ofNat (a := dst) (i := i) (by omega)
    rw [moved, if_pos (by omega), UInt32.add_comm dst, UInt32.add_sub_cancel]
  · intro h
    funext a
    rw [moved]
    by_cases ha : dst.toNat ≤ a.toNat ∧ a.toNat < dst.toNat + n
    · have hle : dst ≤ a := UInt32.le_iff_toNat_le.mpr ha.1
      have hsub : UInt32.ofNat (a.toNat - dst.toNat) = a - dst := by
        rw [← UInt32.toNat_sub_of_le _ _ hle, UInt32.ofNat_toNat]
      have hat := h (a.toNat - dst.toNat) (by omega)
      rw [hsub, UInt32.add_comm dst, UInt32.sub_add_cancel] at hat
      rw [if_pos ha, hat]
    · rw [if_neg ha]
      apply hframe
      rintro i hi rfl
      rw [toNat_add_ofNat (by omega)] at ha
      omega

/-- A memory after a copy in any order in which no byte is written before it is read. -/
theorem copied_moved {l : List ℕ} (hd : dst.toNat + n ≤ 2 ^ 32) (hl : ∀ i, i ∈ l ↔ i < n)
    (h : l.Pairwise fun i j => dst + UInt32.ofNat i ≠ dst + UInt32.ofNat j ∧
      dst + UInt32.ofNat i ≠ src + UInt32.ofNat j) :
    copied m dst src l = moved m dst src n := by
  rw [eq_moved_iff hd fun a ha => copied_of_ne fun i hi => ha i ((hl i).mp hi)]
  exact fun i hi => copyCells_of_pairwise h ((hl i).mpr hi)

theorem copyUp_moved (hd : dst.toNat + n ≤ 2 ^ 32) (hs : src.toNat + n ≤ 2 ^ 32)
    (h : ∀ i < n, ∀ j < i, dst.toNat + j ≠ src.toNat + i) :
    copyUp m dst src n = moved m dst src n := by
  rw [copyUp_eq]
  apply copied_moved hd fun i => List.mem_range
  apply List.pairwise_lt_range.imp_of_mem
  intro j i _ hi hlt
  have hin := List.mem_range.mp hi
  exact ⟨place_ne (by omega) (by omega) (by omega), place_ne (by omega) (by omega) (h i hin j hlt)⟩

/-- Downwards, a destination above the source is written behind what is still to be read. -/
theorem copyDown_moved (hd : dst.toNat + n ≤ 2 ^ 32) (h : src.toNat < dst.toNat) :
    copyDown m (dst + UInt32.ofNat n) (src + UInt32.ofNat n) n = moved m dst src n := by
  rw [copyDown_eq]
  apply copied_moved hd fun i => List.mem_reverse.trans List.mem_range
  rw [List.pairwise_reverse]
  apply List.pairwise_lt_range.imp_of_mem
  intro i j _ hj hlt
  have hjn := List.mem_range.mp hj
  exact ⟨place_ne (by omega) (by omega) (by omega), place_ne (by omega) (by omega) (by omega)⟩

theorem copyUp_final (hd : dst.toNat + n ≤ 2 ^ 32) (h : src.toNat < dst.toNat) (hi : i < n) :
    copyUp m dst src n (dst + UInt32.ofNat i) = copyUp m dst src n (src + UInt32.ofNat i) := by
  obtain ⟨after, hsplit, hafter⟩ := range_split hi
  rw [copyUp_eq, hsplit]
  apply copyCells_final
  · intro j hj
    have := hafter j hj
    exact place_ne (by omega) (by omega) (by omega)
  · intro j hj
    have hle : i ≤ j ∧ j < n := by
      rcases List.mem_cons.mp hj with rfl | hj
      · exact ⟨le_rfl, hi⟩
      · exact ⟨(hafter j hj).1.le, (hafter j hj).2⟩
    exact place_ne (by omega) (by omega) (by omega)

theorem copyUp_moved_iff (hd : dst.toNat + n ≤ 2 ^ 32) (hs : src.toNat + n ≤ 2 ^ 32) :
    copyUp m dst src n = moved m dst src n ↔ Repeats m dst src n := by
  by_cases hlt : src.toNat < dst.toNat
  · have hframe : ∀ a, (∀ i < n, dst + UInt32.ofNat i ≠ a) → copyUp m dst src n a = m a := by
      intro a ha
      rw [copyUp_eq]
      exact copied_of_ne fun i hi => ha i (List.mem_range.mp hi)
    have hfinal := fun i (hi : i < n) => copyUp_final (m := m) hd hlt hi
    -- The byte of the source `dst - src` further on is the byte of the destination.
    have hsame : ∀ i, src + UInt32.ofNat (dst.toNat - src.toNat + i) = dst + UInt32.ofNat i := by
      intro i
      have hback : src + UInt32.ofNat (dst.toNat - src.toNat) = dst := by
        rw [← UInt32.toNat_inj, toNat_add_ofNat (by have := dst.toNat_lt; omega)]
        omega
      rw [← add_ofNat_add, hback]
    rw [eq_moved_iff hd hframe]
    constructor
    · intro h _ i hi
      have hmem : dst.toNat - src.toNat + i < n := by omega
      rw [← hsame, ← h _ hmem, hfinal _ hmem, hsame, h i (by omega)]
    · intro h i
      induction i using Nat.strong_induction_on with
      | _ i ih =>
          intro hi
          rw [hfinal i hi]
          by_cases hbelow : src.toNat + i < dst.toNat
          · apply hframe
            intro j hj
            exact place_ne (by omega) (by omega) (by omega)
          · obtain ⟨j, rfl⟩ : ∃ j, i = dst.toNat - src.toNat + j :=
              ⟨i - (dst.toNat - src.toNat), by omega⟩
            rw [hsame, ih j (by omega) (by omega)]
            exact (h (UInt32.lt_iff_toNat_lt.mpr hlt) j (by omega)).symm
  · have hrepeats : Repeats m dst src n := fun h => absurd (UInt32.lt_iff_toNat_lt.mp h) hlt
    exact iff_of_true (copyUp_moved hd hs fun i _ j hj => by omega) hrepeats

theorem kernel_moved (hn : n < 2 ^ 32) (hd : dst.toNat + n ≤ 2 ^ 32) (hs : src.toNat + n ≤ 2 ^ 32) :
    (Kernel.memmove m dst src (UInt32.ofNat n)).2 = moved m dst src n := by
  have hto : (UInt32.ofNat n).toNat = n := UInt32.toNat_ofNat_of_lt' hn
  have hdst := dst.toNat_lt
  rw [Kernel.memmove, hto]
  split_ifs with h
  · exact copyDown_moved hd (UInt32.lt_iff_toNat_lt.mp h.1)
  · apply copyUp_moved hd hs
    intro i hi j hj heq
    have hlt : src < dst := UInt32.lt_iff_toNat_lt.mpr (by omega)
    have hadd : (src + UInt32.ofNat n).toNat = src.toNat + n := toNat_add_ofNat (by omega)
    exact h ⟨hlt, UInt32.lt_iff_toNat_lt.mpr (by omega)⟩

end Loops

theorem memmove_agree_iff (m : Memory) (dst src : UInt32) (n : ℕ) (hn : n < 2 ^ 31)
    (hd : dst.toNat + n ≤ 2 ^ 32) (hs : src.toNat + n ≤ 2 ^ 32) :
    ((User.memmove m dst src (Int32.ofNat n)).2 = (Kernel.memmove m dst src (UInt32.ofNat n)).2 ∧
      (Kernel.memmove m dst src (UInt32.ofNat n)).2 = moved m dst src n) ↔
      Repeats m dst src n := by
  have hkernel := kernel_moved (m := m) (by omega) hd hs
  have huser : (User.memmove m dst src (Int32.ofNat n)).2 = copyUp m dst src n := by
    rw [User.memmove, Int32.toNatClampNeg_ofNat_of_lt hn]
  rw [hkernel, huser, and_iff_left rfl]
  exact copyUp_moved_iff hd hs

/-- A gap between the ranges. -/
theorem memmove_agree_iff_apart :
    (User.memmove (fun a => a.toUInt8) 8200 8192 (Int32.ofNat 8)).2 =
      (Kernel.memmove (fun a => a.toUInt8) 8200 8192 (UInt32.ofNat 8)).2 :=
  ((memmove_agree_iff _ 8200 8192 8 (by decide) (by decide) (by decide)).mpr fun _ i hi => by
    change 8200 + i < 8192 + 8 at hi
    omega).1

/-- Two bytes are moved one place up. -/
theorem user_memmove_smears :
    ¬ ((User.memmove (fun a => a.toUInt8) 8193 8192 (Int32.ofNat 2)).2 =
        (Kernel.memmove (fun a => a.toUInt8) 8193 8192 (UInt32.ofNat 2)).2 ∧
      (Kernel.memmove (fun a => a.toUInt8) 8193 8192 (UInt32.ofNat 2)).2 =
        moved (fun a => a.toUInt8) 8193 8192 2) := by
  rintro ⟨h, -⟩
  have hbyte : (0 : UInt8) = 1 := congrFun h 8194
  exact absurd hbyte (by decide)

end MemoryMoves

end Xv6Fairness
