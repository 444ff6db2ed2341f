import Xv6Fairness.ByteStrings

/-!
# Formatted output

Programs print with `printf`, which goes over its format with a state, and the kernel prints with
`cprintf`, which looks one byte ahead. Both read the format as a sequence of literal bytes and
conversions, and both write numbers with a buffer of 16 bytes from the last digit on.
-/

namespace Xv6Fairness

namespace PrintedFormats

open ByteStrings

/-- The arguments behind the format, and the string at each address. -/
structure Args where
  ap : ℕ → UInt32
  string : UInt32 → Bytes

def null : Bytes := ascii ['(', 'n', 'u', 'l', 'l', ')']

def upper : Bytes :=
  ascii ['0', '1', '2', '3', '4', '5', '6', '7', '8', '9', 'A', 'B', 'C', 'D', 'E', 'F']

def lower : Bytes :=
  ascii ['0', '1', '2', '3', '4', '5', '6', '7', '8', '9', 'a', 'b', 'c', 'd', 'e', 'f']

/-- The loop over the digits, which ends with the number of passes that its first argument bounds. A
store outside of the buffer fails. -/
def digitLoop (digits : Bytes) (base : ℕ) : ℕ → Bytes → ℕ → ℕ → Option (Bytes × ℕ)
  | 0, _, _, _ => none
  | n + 1, buf, i, x => do
    let buf ← store buf i (digits.getD (x % base) 0)
    if x / base ≠ 0 then digitLoop digits base n buf (i + 1) (x / base)
    else some (buf, i + 1)

def isNegative (xx : UInt32) : Bool := 2 ^ 31 ≤ xx.toNat

def printint (digits : Bytes) (xx : UInt32) (base : ℕ) (sgn : Bool) : Option Bytes := do
  let neg := sgn && isNegative xx
  let x := if neg then -xx else xx
  let (buf, i) ← digitLoop digits base 32 (List.replicate 16 0) 0 x.toNat
  if neg then do
    let buf ← store buf i 45
    some (buf.take (i + 1)).reverse
  else some (buf.take i).reverse

/-- The loop of `printf`, with the state and the index of the next argument. -/
def printfLoop (a : Args) : Bool → ℕ → Bytes → Option Bytes
  | _, _, [] => some []
  | false, k, c :: fmt =>
    if c = 37 then printfLoop a true k fmt
    else do
      let rest ← printfLoop a false k fmt
      some (c :: rest)
  | true, k, c :: fmt =>
    if c = 100 then do
      let text ← printint upper (a.ap k) 10 true
      let rest ← printfLoop a false (k + 1) fmt
      some (text ++ rest)
    else if c = 120 ∨ c = 112 then do
      let text ← printint upper (a.ap k) 16 false
      let rest ← printfLoop a false (k + 1) fmt
      some (text ++ rest)
    else if c = 115 then do
      let text := if a.ap k = 0 then null else a.string (a.ap k)
      let rest ← printfLoop a false (k + 1) fmt
      some (text ++ rest)
    else if c = 99 then do
      let rest ← printfLoop a false (k + 1) fmt
      some ((a.ap k).toUInt8 :: rest)
    else if c = 37 then do
      let rest ← printfLoop a false k fmt
      some (c :: rest)
    else do
      let rest ← printfLoop a false k fmt
      some (37 :: c :: rest)

def printf (a : Args) (fmt : Bytes) : Option Bytes := printfLoop a false 0 fmt

/-- The loop of `cprintf`, from the next argument on. -/
def cprintfLoop (a : Args) : ℕ → Bytes → Option Bytes
  | _, [] => some []
  | k, c :: fmt =>
    if c ≠ 37 then do
      let rest ← cprintfLoop a k fmt
      some (c :: rest)
    else
      match fmt with
      | [] => some []
      | c :: fmt =>
        if c = 100 then do
          let text ← printint lower (a.ap k) 10 true
          let rest ← cprintfLoop a (k + 1) fmt
          some (text ++ rest)
        else if c = 120 ∨ c = 112 then do
          let text ← printint lower (a.ap k) 16 false
          let rest ← cprintfLoop a (k + 1) fmt
          some (text ++ rest)
        else if c = 115 then do
          let text := if a.ap k = 0 then null else a.string (a.ap k)
          let rest ← cprintfLoop a (k + 1) fmt
          some (text ++ rest)
        else if c = 37 then do
          let rest ← cprintfLoop a k fmt
          some (37 :: rest)
        else do
          let rest ← cprintfLoop a k fmt
          some (37 :: c :: rest)

def cprintf (a : Args) (fmt : Bytes) : Option Bytes := cprintfLoop a 0 fmt

inductive Piece
  | literal (c : UInt8)
  | conversion (c : UInt8)

/-- A `%` at the end says nothing. -/
def pieces : Bytes → List Piece
  | [] => []
  | c :: fmt =>
    if c = 37 then
      match fmt with
      | [] => []
      | c :: fmt => .conversion c :: pieces fmt
    else .literal c :: pieces fmt

/-- The numeral with the most significant digit first. -/
def numeral (digits : Bytes) (base x : ℕ) : Bytes :=
  ((if x = 0 then [0] else Nat.digits base x).map fun d => digits.getD d 0).reverse

/-- The decimal numeral of a number with its sign. -/
def signed (digits : Bytes) (xx : UInt32) : Bytes :=
  if isNegative xx then 45 :: numeral digits 10 (2 ^ 32 - xx.toNat) else numeral digits 10 xx.toNat

/-- `chars` says whether there are conversions of single bytes. The second value is the number of
arguments that are used. -/
def Piece.text (digits : Bytes) (chars : Bool) (a : Args) (k : ℕ) : Piece → Bytes × ℕ
  | .literal c => ([c], 0)
  | .conversion c =>
    if c = 100 then (signed digits (a.ap k), 1)
    else if c = 120 ∨ c = 112 then (numeral digits 16 (a.ap k).toNat, 1)
    else if c = 115 then (if a.ap k = 0 then null else a.string (a.ap k), 1)
    else if c = 99 ∧ chars then ([(a.ap k).toUInt8], 1)
    else if c = 37 then ([37], 0)
    else ([37, c], 0)

def text (digits : Bytes) (chars : Bool) (a : Args) : ℕ → List Piece → Bytes
  | _, [] => []
  | k, p :: ps => (p.text digits chars a k).1 ++ text digits chars a
      (k + (p.text digits chars a k).2) ps

section Numbers

variable {digits pre room : Bytes} {base n f x : ℕ} {xx : UInt32} {sgn : Bool}

theorem digits_of_lt (hbase : 1 < base) (hx : x / base = 0) :
    (if x = 0 then [0] else Nat.digits base x) = [x % base] := by
  by_cases hzero : x = 0
  · simp [hzero]
  · rw [if_neg hzero, Nat.digits_def' hbase (Nat.pos_of_ne_zero hzero), hx, Nat.digits_zero]

theorem digits_of_ge (hbase : 1 < base) (hx : x / base ≠ 0) :
    (if x = 0 then [0] else Nat.digits base x) =
      x % base :: if x / base = 0 then [0] else Nat.digits base (x / base) := by
  have hpos : x ≠ 0 := by
    rintro rfl
    exact hx (Nat.zero_div base)
  rw [if_neg hpos, if_neg hx, Nat.digits_def' hbase (Nat.pos_of_ne_zero hpos)]

theorem digitLoop_spec (digits pre : Bytes) (f : ℕ) (hbase : 1 < base) (hn : x < base ^ n)
    (hroom : n ≤ room.length) (hpos : 0 < n) :
    ∃ rest, digitLoop digits base (n + f) (pre ++ room) pre.length x =
      some (pre ++ (numeral digits base x).reverse ++ rest,
        (pre ++ (numeral digits base x).reverse).length) ∧
      rest.length + (numeral digits base x).length = room.length := by
  induction n generalizing pre room x with
  | zero => exact absurd hpos (lt_irrefl 0)
  | succ n ih =>
    have hstore : store (pre ++ room) pre.length (digits.getD (x % base) 0) =
        some (pre ++ digits.getD (x % base) 0 :: room.drop 1) := store_append (by omega)
    have hlength : (room.drop 1).length + 1 = room.length := by
      rw [List.length_drop]
      omega
    rw [Nat.add_right_comm, digitLoop, hstore, Option.bind_eq_bind, Option.bind_some]
    by_cases hx : x / base = 0
    · have hdigits := digits_of_lt hbase hx
      refine ⟨room.drop 1, ?_, ?_⟩
      · simp [hx, numeral, hdigits]
      · simpa [numeral, hdigits] using hlength
    · have hdigits := digits_of_ge hbase hx
      have hlt : x / base < base ^ n := by
        rw [Nat.div_lt_iff_lt_mul (by omega), ← Nat.pow_succ]
        exact hn
      have hn0 : 0 < n := by
        rcases Nat.eq_zero_or_pos n with rfl | h
        · exact absurd (Nat.lt_one_iff.mp (by simpa using hlt)) hx
        · exact h
      obtain ⟨rest, hloop, hrest⟩ := ih (pre ++ [digits.getD (x % base) 0]) hlt
        (by omega : n ≤ (room.drop 1).length) hn0
      refine ⟨rest, ?_, ?_⟩
      · rw [if_pos hx]
        have hpre : pre ++ digits.getD (x % base) 0 :: room.drop 1 =
            pre ++ [digits.getD (x % base) 0] ++ room.drop 1 := by simp
        have hindex : pre.length + 1 = (pre ++ [digits.getD (x % base) 0]).length := by simp
        rw [hpre, hindex, hloop]
        simp [numeral, hdigits]
      · simp only [numeral, hdigits, List.length_reverse, List.length_map,
          List.length_cons] at hrest ⊢
        omega

theorem numeral_length_le (digits : Bytes) (hbase : 1 < base) (hn : x < base ^ n) (hpos : 0 < n) :
    (numeral digits base x).length ≤ n := by
  unfold numeral
  split_ifs with hx
  · simpa [Nat.one_le_iff_ne_zero, Nat.pos_iff_ne_zero] using hpos
  · simpa using (Nat.digits_length_le_iff hbase x).mpr hn

theorem neg_toNat (h : isNegative xx = true) : (-xx).toNat = 2 ^ 32 - xx.toNat := by
  have hle : 2 ^ 31 ≤ xx.toNat := by simpa [isNegative] using h
  have hlt := xx.toNat_lt
  have hsize : UInt32.size = 2 ^ 32 := rfl
  rw [UInt32.toNat_neg, hsize, Nat.mod_eq_of_lt (by omega)]

/-- The buffer is long enough for a sign and for every number that has at most 15 digits. -/
theorem printint_eq (hbase : 1 < base) (hn : 2 ^ 32 ≤ base ^ n) (hpos : 0 < n) (hle : n ≤ 15) :
    printint digits xx base sgn = some
      (if sgn && isNegative xx then 45 :: numeral digits base (2 ^ 32 - xx.toNat)
        else numeral digits base xx.toNat) := by
  have hloop : ∀ x : UInt32, ∃ rest :
      Bytes, digitLoop digits base 32 (List.replicate 16 0) 0 x.toNat =
      some ((numeral digits base x.toNat).reverse ++ rest,
        (numeral digits base x.toNat).reverse.length) ∧
      0 < rest.length := by
    intro x
    have hx : x.toNat < base ^ n := lt_of_lt_of_le x.toNat_lt hn
    have hlength := numeral_length_le digits hbase hx hpos
    have hroom : n ≤ (List.replicate 16 (0 : UInt8)).length := by
      rw [List.length_replicate]
      omega
    obtain ⟨rest, hrun, hrest⟩ := digitLoop_spec digits [] (32 - n) hbase hx hroom hpos
    rw [List.length_replicate] at hrest
    rw [Nat.add_sub_cancel' (by omega)] at hrun
    exact ⟨rest, hrun, by omega⟩
  cases hneg : sgn && isNegative xx with
  | false =>
    obtain ⟨rest, hrun, -⟩ := hloop xx
    simp only [printint, hneg, Bool.false_eq_true, if_false, hrun, Option.bind_eq_bind,
      Option.bind_some]
    rw [List.take_left, List.reverse_reverse]
  | true =>
    obtain ⟨rest, hrun, hrest⟩ := hloop (-xx)
    have hstore : store ((numeral digits base (-xx).toNat).reverse ++ rest)
        (numeral digits base (-xx).toNat).reverse.length 45 =
        some ((numeral digits base (-xx).toNat).reverse ++ 45 :: rest.drop 1) := store_append hrest
    have hbuf : (numeral digits base (-xx).toNat).reverse ++ 45 :: rest.drop 1 =
        ((numeral digits base (-xx).toNat).reverse ++ [45]) ++ rest.drop 1 := by simp
    have hlen : (numeral digits base (-xx).toNat).reverse.length + 1 =
        ((numeral digits base (-xx).toNat).reverse ++ [45]).length := by simp
    simp only [printint, hneg, if_true, hrun, Option.bind_eq_bind, Option.bind_some, hstore]
    rw [hbuf, hlen, List.take_left, List.reverse_append, List.reverse_reverse,
      neg_toNat (Bool.and_eq_true_iff.mp hneg).2]
    rfl

theorem printint_decimal : printint digits xx 10 true = some (signed digits xx) :=
  printint_eq (n := 10) (by decide) (by decide) (by decide) (by decide)

theorem printint_hex : printint digits xx 16 false = some (numeral digits 16 xx.toNat) :=
  printint_eq (n := 8) (by decide) (by decide) (by decide) (by decide)

end Numbers

section Formats

variable {a : Args} {k : ℕ} {fmt : Bytes}

@[simp] theorem pieces_literal {c : UInt8}
    (h : c ≠ 37) : pieces (c :: fmt) = .literal c :: pieces fmt := by
  cases fmt <;> simp [pieces, h]

@[simp] theorem pieces_conversion {c : UInt8} :
    pieces (37 :: c :: fmt) = .conversion c :: pieces fmt := by
  simp [pieces]

theorem printfLoop_eq : printfLoop a false k fmt = some (text upper true a k (pieces fmt)) := by
  induction fmt using pieces.induct generalizing k with
  | case1 => rfl
  | case2 => rfl
  | case3 c fmt ih =>
    simp only [printfLoop, pieces_conversion, if_true, text, Piece.text, printint_decimal,
      printint_hex, ih,
      Option.bind_eq_bind, Option.bind_some, and_true]
    split_ifs <;> simp_all
  | case4 c fmt hc ih =>
    simp [printfLoop, hc, text, Piece.text, ih]

theorem cprintfLoop_eq : cprintfLoop a k fmt = some (text lower false a k (pieces fmt)) := by
  induction fmt using pieces.induct generalizing k with
  | case1 => rfl
  | case2 => simp [cprintfLoop, pieces, text]
  | case3 c fmt ih =>
    rw [cprintfLoop]
    simp only [pieces_conversion, ne_eq, not_true_eq_false, if_false, text, Piece.text,
      printint_decimal, printint_hex, ih, Option.bind_eq_bind, Option.bind_some, Bool.false_eq_true,
        and_false]
    split_ifs <;> simp_all
  | case4 c fmt hc ih =>
    have hliteral : cprintfLoop a k (c :: fmt) = (cprintfLoop a k fmt).bind fun rest =>
        some (c :: rest) := by
      cases fmt with
      | nil => simp [cprintfLoop, hc]
      | cons d fmt =>
        rw [cprintfLoop]
        simp [hc]
    simp [hliteral, hc, text, Piece.text, ih]

/-- Programs and the kernel print what the format says, for every format and all arguments. They
differ in the letters of hexadecimal digits, and in the conversion of single bytes, which the kernel
does not know. -/
theorem formats_printed (a : Args) (fmt : Bytes) :
    printf a fmt = some (text upper true a 0 (pieces fmt)) ∧
      cprintf a fmt = some (text lower false a 0 (pieces fmt)) :=
  ⟨printfLoop_eq, cprintfLoop_eq⟩

end Formats

end PrintedFormats

end Xv6Fairness
