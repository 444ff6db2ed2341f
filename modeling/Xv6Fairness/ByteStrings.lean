import Mathlib.Data.Nat.Digits.Lemmas
import Mathlib.Data.List.Induction

/-!
# Byte buffers and decimal numerals

A buffer is the list of its bytes and a pointer into it is an offset, or, where it is only read
from, the list of the bytes from it to the end of the buffer. A store outside the buffer fails.
Numerals are written with the most significant digit first and are read back by Horner's rule.
-/

namespace ByteStrings

abbrev Bytes := List UInt8

/-- The bytes of a text of ASCII characters. -/
def ascii (s : List Char) : Bytes := s.map fun c => UInt8.ofNat c.toNat

section Buffers

variable {b pre post room : Bytes} {c x : UInt8} {i : ℕ}

def store (b : Bytes) (i : ℕ) (c : UInt8) : Option Bytes :=
  if i < b.length then some (b.set i c) else none

theorem store_of_lt (h : i < b.length) : store b i c = some (b.set i c) := by
  rw [store, if_pos h]

theorem store_append_cons : store (pre ++ x :: post) pre.length c = some (pre ++ c :: post) := by
  have h : pre.length < (pre ++ x :: post).length := by
    rw [List.length_append, List.length_cons]
    omega
  rw [store_of_lt h, List.set_append_right _ _ le_rfl, Nat.sub_self, List.set_cons_zero]

/-- Storing at the end of what is written so far uses up one byte of the room left. -/
theorem store_append (h : 0 < room.length) :
    store (pre ++ room) pre.length c = some (pre ++ c :: room.drop 1) := by
  cases room with
  | nil => exact absurd h (lt_irrefl 0)
  | cons y room => exact store_append_cons

theorem mem_of_store {b' : Bytes} (h : store b i c = some b') : c ∈ b' := by
  rw [store] at h
  split_ifs at h with hi
  cases h
  exact List.mem_set hi c

end Buffers

/-- The text of a buffer that holds a terminated string. -/
def cString (b : Bytes) : Bytes := b.takeWhile (· ≠ 0)

theorem cString_append_zero {s rest : Bytes}
    (h : ∀ c ∈ s, c ≠ 0) : cString (s ++ 0 :: rest) = s := by
  rw [cString, List.takeWhile_append_of_pos (by simpa using h),
    List.takeWhile_cons_of_neg (by simp),
    List.append_nil]

theorem eq_cString_append {b : Bytes} (h : (cString b).length < b.length) :
    ∃ rest, b = cString b ++ 0 :: rest := by
  have hb : cString b ++ b.dropWhile (· ≠ 0) = b := List.takeWhile_append_dropWhile
  have hlen := congrArg List.length hb
  rw [List.length_append] at hlen
  obtain ⟨c, rest, hc⟩ := List.exists_cons_of_length_pos
    (by omega : 0 < (b.dropWhile fun c => decide (c ≠ 0)).length)
  have hne : (b.dropWhile fun c => decide (c ≠ 0)) ≠ [] := by
    rw [hc]
    exact List.cons_ne_nil c rest
  have hzero := List.head_dropWhile_not _ hne
  simp only [hc, List.head_cons, decide_eq_false_iff_not, not_not] at hzero
  refine ⟨rest, ?_⟩
  rw [← hzero, ← hc, hb]

def IsDigit (c : UInt8) : Prop := 48 ≤ c ∧ c ≤ 57

instance (c : UInt8) : Decidable (IsDigit c) := inferInstanceAs (Decidable (_ ∧ _))

theorem isDigit_iff {c : UInt8} : IsDigit c ↔ 48 ≤ c.toNat ∧ c.toNat ≤ 57 := by
  rw [IsDigit, UInt8.le_iff_toNat_le, UInt8.le_iff_toNat_le]
  rfl

def digitByte (d : ℕ) : UInt8 := UInt8.ofNat (48 + d)

section Digits

variable {d m n : ℕ}

theorem digitByte_toNat (h : d < 10) : (digitByte d).toNat = 48 + d := by
  rw [digitByte, UInt8.toNat_ofNat']
  omega

theorem isDigit_digitByte (h : d < 10) : IsDigit (digitByte d) := by
  rw [isDigit_iff, digitByte_toNat h]
  omega

def decimal (n : ℕ) : Bytes :=
  if n = 0 then [digitByte 0] else ((Nat.digits 10 n).map digitByte).reverse

theorem decimal_of_ne_zero (h : n ≠ 0) : decimal n = ((Nat.digits 10 n).map digitByte).reverse :=
  if_neg h

theorem isDigit_of_mem_decimal {c : UInt8} (h : c ∈ decimal n) : IsDigit c := by
  by_cases hn : n = 0
  · rw [decimal, if_pos hn, List.mem_singleton] at h
    rw [h]
    exact isDigit_digitByte (by omega)
  · rw [decimal_of_ne_zero hn, List.mem_reverse, List.mem_map] at h
    obtain ⟨d, hd, rfl⟩ := h
    exact isDigit_digitByte (Nat.digits_lt_base (by omega) hd)

theorem decimal_length_le {k : ℕ} (hk : 0 < k) (h : n < 10 ^ k) : (decimal n).length ≤ k := by
  by_cases hn : n = 0
  · rw [decimal, if_pos hn]
    exact hk
  · rw [decimal_of_ne_zero hn, List.length_reverse, List.length_map]
    exact (Nat.digits_length_le_iff (by omega) n).mpr h

theorem decimal_length_pos : 0 < (decimal n).length := by
  by_cases hn : n = 0
  · rw [decimal, if_pos hn]
    exact Nat.one_pos
  · rw [decimal_of_ne_zero hn, List.length_reverse, List.length_map]
    exact List.length_pos_of_ne_nil (Nat.digits_ne_nil_iff_ne_zero.mpr hn)

/-- Horner's rule over the digits of a text. -/
def decimalValue (v : ℕ) (s : Bytes) : ℕ := s.foldl (fun v c => v * 10 + (c.toNat - 48)) v

theorem decimalValue_digits {l : List ℕ} (h : ∀ d ∈ l, d < 10) :
    decimalValue 0 (l.map digitByte).reverse = Nat.ofDigits 10 l := by
  rw [decimalValue, List.foldl_reverse]
  induction l with
  | nil => rfl
  | cons d l ih =>
      have hd : (digitByte d).toNat = 48 + d := digitByte_toNat (h d List.mem_cons_self)
      rw [List.map_cons, List.foldr_cons, ih fun e he => h e (List.mem_cons_of_mem d he), hd,
        Nat.ofDigits_cons]
      omega

theorem decimalValue_decimal (n : ℕ) : decimalValue 0 (decimal n) = n := by
  by_cases hn : n = 0
  · rw [decimal, if_pos hn, hn]
    rfl
  · rw [decimal_of_ne_zero hn, decimalValue_digits fun d hd => Nat.digits_lt_base (by omega) hd,
      Nat.ofDigits_digits]

theorem decimal_injective (h : decimal m = decimal n) : m = n := by
  rw [← decimalValue_decimal m, h, decimalValue_decimal]

end Digits

end ByteStrings
