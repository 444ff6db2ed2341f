import Mathlib.Tactic.NormNum.Pow
import Xv6Fairness.ByteStrings

/-!
# The string routines and random numbers of the test programs

Numbers are turned into digits from the last one on and the digits are reversed in place;
`custom_atoi` reads them back in signed arithmetic. A pointer that is written through is a buffer
with an offset. Every access is checked: `none` is an access outside the buffer.
-/

namespace Xv6Fairness

open ByteStrings

def swapLoop (buf : Bytes) (str i j : ℕ) : Option Bytes :=
  if _h : i < j then do
    let temp ← buf[str + i]?
    let last ← buf[str + j]?
    let buf ← store buf (str + i) last
    let buf ← store buf (str + j) temp
    swapLoop buf str (i + 1) (j - 1)
  else some buf
termination_by j - i

def reverseString (buf : Bytes) (str length : ℕ) : Option Bytes := swapLoop buf str 0 (length - 1)

def writeDigits (num : UInt32) (buf : Bytes) (str i : ℕ) : Option (Bytes × ℕ) :=
  if _h : 0 < num then do
    let buf ← store buf (str + i) (48 + num % 10).toUInt8
    writeDigits (num / 10) buf str (i + 1)
  else some (buf, i)
termination_by num.toNat
decreasing_by
  rw [UInt32.lt_iff_toNat_lt] at _h
  rw [UInt32.toNat_div]
  exact Nat.div_lt_self _h (by decide)

def intToStr (num : UInt32) (buf : Bytes) (str : ℕ) : Option (Bytes × ℕ) := do
  let (buf, i) ← if num = 0 then do
      let buf ← store buf str 48
      pure (buf, 1)
    else do
      let (buf, i) ← writeDigits num buf str 0
      let buf ← reverseString buf str i
      pure (buf, i)
  let buf ← store buf (str + i) 0
  pure (buf, i)

/-- `while (prefix[i] != '\0') filename[i++] = prefix[i]`. -/
def copyText : Bytes → Bytes → ℕ → Option (Bytes × ℕ)
  | [], _, _ => none
  | c :: text, buf, i =>
    if c ≠ 0 then do
      let buf ← store buf i c
      copyText text buf (i + 1)
    else some (buf, i)

/-- `for (j = 0; j < count; j++) filename[i++] = text[j]`. -/
def copyBytes : ℕ → Bytes → Bytes → ℕ → Option (Bytes × ℕ)
  | 0, _, buf, i => some (buf, i)
  | _ + 1, [], _, _ => none
  | count + 1, c :: text, buf, i => do
    let buf ← store buf i c
    copyBytes count text buf (i + 1)

def buildFilename (filename : Bytes) (pidStr : Vector UInt8 12) (pid : Int32) (text : Bytes) :
    Option Bytes := do
  let (filename, i) ← copyText text filename 0
  let (pidStr, pidLen) ← intToStr pid.toUInt32 pidStr.toList 0
  let (filename, i) ← copyBytes pidLen pidStr filename i
  let (filename, i) ← copyBytes 4 (ascii ['.', 't', 'x', 't']) filename i
  store filename i 0

/-- `custom_atoi` in the middle of its loop. A byte from 128 on is negative as a `char` and ends the
loop as well. -/
def atoiLoop (n : Int32) : Bytes → Option Int32
  | [] => none
  | c :: s => if IsDigit c then atoiLoop (n * 10 + (Int32.ofNat c.toNat - 48)) s else some n

def customAtoi (s : Bytes) : Option Int32 := atoiLoop 0 s

section Reverse

variable (pre mid post : Bytes)

theorem swapLoop_eq {str i j : ℕ} (hi : pre.length = str + i) (hj : j = i + mid.length - 1) :
    swapLoop (pre ++ mid ++ post) str i j = some (pre ++ mid.reverse ++ post) := by
  induction mid using List.bidirectionalRec generalizing pre post i j with
  | nil =>
      rw [swapLoop, dif_neg (by rw [List.length_nil] at hj; omega)]
      rfl
  | singleton a =>
      rw [swapLoop, dif_neg (by rw [List.length_singleton] at hj; omega)]
      rfl
  | cons_append a mid b ih =>
      rw [List.length_cons, List.length_append, List.length_singleton] at hj
      have hij : i < j := by omega
      have hlast : str + j = (pre ++ a :: mid).length := by
        rw [List.length_append, List.length_cons]
        omega
      have hfirst : (pre ++ (a :: (mid ++ [b])) ++ post)[str + i]? = some a := by
        rw [← hi]
        simp
      have hend : (pre ++ (a :: (mid ++ [b])) ++ post)[str + j]? = some b := by
        rw [hlast]
        simp
      have hswap : store (pre ++ (a :: (mid ++ [b])) ++ post) (str + i) b =
          some ((pre ++ b :: mid) ++ b :: post) := by
        rw [← hi]
        have h : store (pre ++ a :: (mid ++ b :: post)) pre.length b =
            some (pre ++ b :: (mid ++ b :: post)) := store_append_cons
        simpa using h
      have hback : store ((pre ++ b :: mid) ++ b :: post) (str + j) a =
          some ((pre ++ b :: mid) ++ a :: post) := by
        have hlen : str + j = (pre ++ b :: mid).length := by
          rw [hlast, List.length_append, List.length_append]
          rfl
        rw [hlen]
        exact store_append_cons
      have hrest : swapLoop ((pre ++ [b]) ++ mid ++ a :: post) str (i + 1) (j - 1) =
          some ((pre ++ [b]) ++ mid.reverse ++ a :: post) := by
        apply ih
        · rw [List.length_append, List.length_singleton]
          omega
        · omega
      rw [swapLoop, dif_pos hij, hfirst, hend]
      simp only [Option.bind_eq_bind, Option.bind_some, hswap, hback]
      simpa using hrest

theorem reverseString_eq :
    reverseString (pre ++ mid ++ post) pre.length mid.length =
      some (pre ++ mid.reverse ++ post) :=
  swapLoop_eq pre mid post (Nat.add_zero _).symm (by rw [Nat.zero_add])

end Reverse

section Numerals

variable (num : UInt32) (pre : Bytes) {room : Bytes}

theorem digit_toUInt8 : (48 + num % 10).toUInt8 = digitByte (num.toNat % 10) := by
  have hd : num.toNat % 10 < 10 := Nat.mod_lt _ (by decide)
  apply UInt8.toNat.inj
  rw [digitByte_toNat hd, UInt32.toNat_toUInt8, UInt32.toNat_add, UInt32.toNat_mod]
  change (48 + num.toNat % 10) % 2 ^ 32 % 2 ^ 8 = 48 + num.toNat % 10
  omega

theorem writeDigits_eq {str i : ℕ} (hi : pre.length = str + i)
    (hroom : (Nat.digits 10 num.toNat).length ≤ room.length) :
    writeDigits num (pre ++ room) str i =
      some (pre ++ (Nat.digits 10 num.toNat).map digitByte ++
        room.drop (Nat.digits 10 num.toNat).length, i + (Nat.digits 10 num.toNat).length) := by
  induction hn : num.toNat using Nat.strong_induction_on generalizing num pre room i with
  | _ n ih =>
      rw [writeDigits]
      by_cases h : 0 < num
      · have hpos : 0 < num.toNat := UInt32.lt_iff_toNat_lt.mp h
        have hdiv : (num / 10).toNat = num.toNat / 10 := UInt32.toNat_div _ _
        have hdigits : Nat.digits 10 n = n % 10 :: Nat.digits 10 (n / 10) :=
          Nat.digits_def' (by omega) (by omega)
        rw [hn, hdigits, List.length_cons] at hroom
        have hstore : store (pre ++ room) (str + i) (48 + num % 10).toUInt8 =
            some (pre ++ digitByte (n % 10) :: room.drop 1) := by
          rw [← hi, digit_toUInt8, hn]
          exact store_append (by omega)
        have hrest : writeDigits (num / 10) ((pre ++ [digitByte (n % 10)]) ++ room.drop 1) str
            (i + 1) = some
              ((pre ++ [digitByte (n % 10)]) ++ (Nat.digits 10 (n / 10)).map digitByte ++
              (room.drop 1).drop (Nat.digits 10 (n / 10)).length,
              i + 1 + (Nat.digits 10 (n / 10)).length) := by
          apply ih (n / 10) (by omega)
          · rw [List.length_append, List.length_singleton]
            omega
          · rw [hdiv, hn, List.length_drop]
            omega
          · rw [hdiv, hn]
        rw [dif_pos h, hstore, hdigits]
        simpa [List.drop_drop, Nat.add_comm 1, Nat.add_assoc] using hrest
      · have hzero : n = 0 := by
          rw [UInt32.lt_iff_toNat_lt] at h
          change ¬ 0 < num.toNat at h
          omega
        rw [dif_neg h, hzero]
        simp

theorem store_terminator {text : Bytes} (h : text.length < room.length) :
    store (pre ++ text ++ room.drop text.length) (pre.length + text.length) 0 =
      some (pre ++ text ++ 0 :: room.drop (text.length + 1)) := by
  have hstore : store ((pre ++ text) ++ room.drop text.length) (pre ++ text).length 0 =
      some ((pre ++ text) ++ 0 :: (room.drop text.length).drop 1) := by
    apply store_append
    rw [List.length_drop]
    omega
  rwa [List.length_append, List.drop_drop] at hstore

theorem intToStr_eq (hroom : (decimal num.toNat).length < room.length) :
    intToStr num (pre ++ room) pre.length =
      some (pre ++ decimal num.toNat ++ 0 :: room.drop ((decimal num.toNat).length + 1),
        (decimal num.toNat).length) := by
  by_cases h : num = 0
  · have hdec : decimal num.toNat = [48] := by rw [h]; rfl
    rw [hdec] at hroom ⊢
    have hstore : store (pre ++ room) pre.length 48 = some (pre ++ [48] ++ room.drop 1) := by
      rw [List.append_assoc]
      exact store_append (by rw [List.length_singleton] at hroom; omega)
    have hend := store_terminator pre hroom
    rw [intToStr, if_pos h]
    simp only [Option.bind_eq_bind, Option.pure_def, hstore, Option.bind_some]
    simp only [List.length_singleton] at hend ⊢
    rw [hend]
    rfl
  · have hn : num.toNat ≠ 0 := fun hz => h (UInt32.toNat.inj hz)
    have hdec := decimal_of_ne_zero hn
    have hlen : (decimal num.toNat).length = (Nat.digits 10 num.toNat).length := by
      rw [hdec, List.length_reverse, List.length_map]
    have hdigits :=
      writeDigits_eq num pre (Nat.add_zero pre.length).symm (hlen.symm.trans_le hroom.le)
    have hrev := reverseString_eq pre ((Nat.digits 10 num.toNat).map digitByte)
      (room.drop (Nat.digits 10 num.toNat).length)
    have hend := store_terminator pre hroom
    rw [← hdec, List.length_map, ← hlen] at hrev
    rw [Nat.zero_add, ← hlen] at hdigits
    rw [intToStr, if_neg h]
    simp only [Option.bind_eq_bind, Option.pure_def, hdigits, hrev, hend, Option.bind_some]

end Numerals

section Filenames

variable (pre text junk : Bytes) {room : Bytes}

theorem copyText_eq (htext : ∀ c ∈ text, c ≠ 0) (hroom : text.length ≤ room.length) :
    copyText (text ++ 0 :: junk) (pre ++ room) pre.length =
      some (pre ++ text ++ room.drop text.length, (pre ++ text).length) := by
  induction text generalizing pre room with
  | nil => simp [copyText]
  | cons c text ih =>
      rw [List.length_cons] at hroom
      have hstore : store (pre ++ room) pre.length c = some ((pre ++ [c]) ++ room.drop 1) := by
        rw [List.append_assoc]
        exact store_append (by omega)
      have hdrop : text.length ≤ (room.drop 1).length := by
        rw [List.length_drop]
        omega
      have hrest := ih (pre ++ [c]) (fun d hd => htext d (List.mem_cons_of_mem c hd)) hdrop
      rw [List.length_append, List.length_singleton] at hrest
      rw [List.cons_append, copyText, if_pos (htext c List.mem_cons_self)]
      simp only [Option.bind_eq_bind, hstore, Option.bind_some, hrest]
      simp

theorem copyBytes_eq (hroom : text.length ≤ room.length) :
    copyBytes text.length (text ++ junk) (pre ++ room) pre.length =
      some (pre ++ text ++ room.drop text.length, (pre ++ text).length) := by
  induction text generalizing pre room with
  | nil => simp [copyBytes]
  | cons c text ih =>
      rw [List.length_cons] at hroom
      have hstore : store (pre ++ room) pre.length c = some ((pre ++ [c]) ++ room.drop 1) := by
        rw [List.append_assoc]
        exact store_append (by omega)
      have hdrop : text.length ≤ (room.drop 1).length := by
        rw [List.length_drop]
        omega
      have hrest := ih (pre ++ [c]) hdrop
      rw [List.length_append, List.length_singleton] at hrest
      rw [List.length_cons, List.cons_append, copyBytes]
      simp only [Option.bind_eq_bind, hstore, Option.bind_some, hrest]
      simp

/-- The name that `build_filename` puts into its buffer. -/
def filenameOf (text : Bytes) (pid : Int32) : Bytes :=
  text ++ decimal pid.toUInt32.toNat ++ ascii ['.', 't', 'x', 't']

theorem decimal_uint32_length (num : UInt32) : (decimal num.toNat).length ≤ 10 :=
  decimal_length_le (by omega) (num.toNat_lt.trans (by norm_num))

/-- A prefix of up to 17 characters leaves room for the longest pid, the extension and the
terminator. -/
theorem buildFilename_eq {filename : Bytes} (hroom : filename.length = 32)
    (pidStr : Vector UInt8 12) (pid : Int32) {text : Bytes} (htext : ∀ c ∈ text, c ≠ 0)
    (hlen : text.length ≤ 17) :
    ∃ b, buildFilename filename pidStr pid (text ++ [0]) = some b ∧
      cString b = filenameOf text pid ∧ b.length = 32 := by
  have hd : (decimal pid.toUInt32.toNat).length ≤ 10 := decimal_uint32_length _
  have hpid : pidStr.toList.length = 12 := Vector.length_toList
  have hcopy := copyText_eq [] text [] htext (by omega : text.length ≤ filename.length)
  have hnum := intToStr_eq pid.toUInt32 []
    (by omega : (decimal pid.toUInt32.toNat).length < pidStr.toList.length)
  have happend := copyBytes_eq text (decimal pid.toUInt32.toNat)
    (0 :: pidStr.toList.drop ((decimal pid.toUInt32.toNat).length + 1))
    (by rw [List.length_drop]; omega :
      (decimal pid.toUInt32.toNat).length ≤ (filename.drop text.length).length)
  have hext := copyBytes_eq (text ++ decimal pid.toUInt32.toNat) (ascii ['.', 't', 'x', 't']) []
    (by rw [List.length_drop, List.length_drop]; change 4 ≤ _; omega :
      (ascii ['.', 't', 'x', 't']).length ≤
        ((filename.drop text.length).drop (decimal pid.toUInt32.toNat).length).length)
  have hend : store (filenameOf text pid ++ ((filename.drop text.length).drop
      (decimal pid.toUInt32.toNat).length).drop (ascii ['.', 't', 'x', 't']).length)
      (filenameOf text pid).length 0 = _ := store_append (by
    rw [List.length_drop, List.length_drop, List.length_drop]
    change 0 < filename.length - _ - _ - 4
    omega)
  simp only [List.nil_append, List.append_nil, List.length_nil] at hcopy hnum hext
  rw [show (ascii ['.', 't', 'x', 't']).length = 4 from rfl] at hext hend
  change copyBytes 4 _ _ _ = some (filenameOf text pid ++ _, (filenameOf text pid).length) at hext
  refine ⟨filenameOf text pid ++ 0 :: (((filename.drop text.length).drop
    (decimal pid.toUInt32.toNat).length).drop 4).drop 1, ?_, ?_, ?_⟩
  · simp only [buildFilename, Option.bind_eq_bind, hcopy, hnum, happend, hext, hend,
      Option.bind_some]
  · apply cString_append_zero
    intro c hc
    rw [filenameOf, List.mem_append, List.mem_append] at hc
    rcases hc with (hc | hc) | hc
    · exact htext c hc
    · intro hz
      have hdig := isDigit_iff.mp (isDigit_of_mem_decimal hc)
      rw [hz] at hdig
      exact absurd hdig.1 (by decide)
    · revert c
      decide +kernel
  · have hname : (filenameOf text pid).length =
        text.length + (decimal pid.toUInt32.toNat).length + 4 := by
      rw [filenameOf, List.length_append, List.length_append]
      rfl
    rw [List.length_append, List.length_cons, List.length_drop, List.length_drop, List.length_drop,
      List.length_drop, hname]
    omega

end Filenames

section Reading

variable {s rest : Bytes} {c : UInt8}

theorem atoiLoop_eq (h : ∀ d ∈ s, IsDigit d) (hc : ¬ IsDigit c) (v : ℕ) :
    atoiLoop (Int32.ofNat v) (s ++ c :: rest) = some (Int32.ofNat (decimalValue v s)) := by
  induction s generalizing v with
  | nil => exact if_neg hc
  | cons d s ih =>
      have hd : IsDigit d := h d List.mem_cons_self
      have hstep : Int32.ofNat v * 10 + (Int32.ofNat d.toNat - 48) =
          Int32.ofNat (v * 10 + (d.toNat - 48)) := by
        rw [Int32.ofNat_add, Int32.ofNat_mul, Int32.ofNat_sub _ _ (isDigit_iff.mp hd).1]
        rfl
      rw [List.cons_append, atoiLoop, if_pos hd, hstep,
        ih fun e he => h e (List.mem_cons_of_mem d he)]
      rfl

/-- The digits of a number are read back modulo 2^32, past 2^31 as a negative `int`. -/
theorem customAtoi_decimal (num : UInt32) (hc : ¬ IsDigit c) :
    (customAtoi (decimal num.toNat ++ c :: rest)).map Int32.toUInt32 = some num := by
  have hread : customAtoi (decimal num.toNat ++ c :: rest) =
      some (Int32.ofNat (decimalValue 0 (decimal num.toNat))) :=
    atoiLoop_eq (fun _ hd => isDigit_of_mem_decimal hd) hc 0
  rw [decimalValue_decimal] at hread
  rw [hread, Option.map_some, Int32.toUInt32_ofNat', UInt32.ofNat_toNat]

theorem customAtoi_isSome (h : 0 ∈ s) : (customAtoi s).isSome := by
  rw [customAtoi]
  generalize (0 : Int32) = n
  induction s generalizing n with
  | nil => exact absurd h List.not_mem_nil
  | cons c s ih =>
      rw [atoiLoop]
      split_ifs with hc
      · apply ih
        rcases List.mem_cons.mp h with hz | hs
        · rw [← hz] at hc
          exact absurd hc (by decide)
        · exact hs
      · rfl

end Reading

/-- `custom_rand`, with the seed it leaves. -/
def customRand (seed : UInt32) : UInt32 × UInt32 :=
  let seed := seed * 1103515245 + 12345
  (seed / 65536 % 32768, seed)

end Xv6Fairness
