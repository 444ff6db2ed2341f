import Mathlib.Data.Nat.Find
import Mathlib.Data.UInt
import Mathlib.Tactic.Common
import Xv6Fairness.CellCopies
import Xv6Fairness.Parameters

/-!
# The arguments of system calls

A process hands over the address of its stack, and everything else is found from there: a word of
the stack is a number, the start of a buffer or the start of a string. Addresses are words of 32
bits. What is read of the memory is recorded.
-/

namespace Xv6Fairness

open CellCopies

namespace SyscallArguments

structure Proc where
  sz : UInt32
  /-- `tf->esp`. -/
  esp : UInt32
  mem : UInt32 → UInt8

/-- What a function returns, what it stores for its caller and the addresses it reads. -/
structure Fetched where
  ret : Int32
  stored : Option UInt32
  reads : List UInt32

variable (p : Proc)

/-- The word at an address, with its lowest byte first. -/
def Proc.word (addr : UInt32) : UInt32 :=
  (p.mem addr).toUInt32 + (p.mem (addr + 1)).toUInt32 * 2 ^ 8 +
    (p.mem (addr + 2)).toUInt32 * 2 ^ 16 + (p.mem (addr + 3)).toUInt32 * 2 ^ 24

def fetchint (addr : UInt32) : Fetched :=
  if addr ≥ p.sz ∨ addr + 4 > p.sz then ⟨-1, none, []⟩
  else ⟨0, some (p.word addr), [addr, addr + 1, addr + 2, addr + 3]⟩

theorem toNat_succ_of_lt {s ep : UInt32} (h : s < ep) : (s + 1).toNat = s.toNat + 1 := by
  have hlt : s.toNat < ep.toNat := UInt32.lt_iff_toNat_lt.mp h
  have hep : ep.toNat < 2 ^ 32 := ep.toNat_lt
  rw [UInt32.toNat_add]
  exact Nat.mod_eq_of_lt (by simp; omega)

/-- The loop of `fetchstr`: where the string ends, and what is read. -/
def scan (mem : UInt32 → UInt8) (ep s : UInt32) : Option UInt32 × List UInt32 :=
  if s < ep then
    if mem s = 0 then (some s, [s])
    else ((scan mem ep (s + 1)).1, s :: (scan mem ep (s + 1)).2)
  else (none, [])
termination_by ep.toNat - s.toNat
decreasing_by
  all_goals
    have hlt : s.toNat < ep.toNat := UInt32.lt_iff_toNat_lt.mp ‹s < ep›
    have hs := toNat_succ_of_lt ‹s < ep›
    omega

def fetchstr (addr : UInt32) : Fetched :=
  if addr ≥ p.sz then ⟨-1, none, []⟩
  else match scan p.mem p.sz addr with
    | (some s, reads) => ⟨(s - addr).toInt32, some addr, reads⟩
    | (none, reads) => ⟨-1, some addr, reads⟩

def argint (n : UInt32) : Fetched := fetchint p (p.esp + 4 + 4 * n)

def argptr (n : UInt32) (size : Int32) : Fetched :=
  match argint p n with
  | ⟨ret, i, reads⟩ =>
    if ret < 0 then ⟨-1, none, reads⟩
    else match i with
    | none => ⟨-1, none, reads⟩
    | some i =>
      if size < 0 ∨ i ≥ p.sz ∨ i + size.toUInt32 > p.sz then ⟨-1, none, reads⟩
      else ⟨0, some i, reads⟩

def argstr (n : UInt32) : Fetched :=
  match argint p n with
  | ⟨ret, addr, reads⟩ =>
    if ret < 0 then ⟨-1, none, reads⟩
    else match addr with
    | none => ⟨-1, none, reads⟩
    | some addr => { fetchstr p addr with reads := reads ++ (fetchstr p addr).reads }

/-- The bytes of a range lie below the end of the process, with addresses that do not wrap. -/
def Proc.Below (addr : UInt32) (len : ℕ) : Prop := ∀ k < len, addr.toNat + k < p.sz.toNat

/-- A function succeeds exactly under `P`. It then stores `value`, and it never reads too far. -/
structure Checks (f : Fetched) (P : Prop) (value : UInt32) : Prop where
  succeeds : 0 ≤ f.ret ↔ P
  stored : 0 ≤ f.ret → f.stored = some value
  reads : ∀ x ∈ f.reads, x < p.sz

variable {p} {addr n : UInt32} {size : Int32} {P : Prop} {f : Fetched} {value : UInt32}

theorem Checks.of_fail (hret : f.ret = -1) (hP : ¬ P) (hreads : ∀ x ∈ f.reads, x < p.sz) :
    Checks p f P value := by
  have hneg : ¬ 0 ≤ f.ret := hret ▸ by decide
  exact ⟨iff_of_false hneg hP, fun h => absurd h hneg, hreads⟩

theorem Checks.of_success (hret : 0 ≤ f.ret) (hP : P) (hstored : f.stored = some value)
    (hreads : ∀ x ∈ f.reads, x < p.sz) : Checks p f P value :=
  ⟨iff_of_true hret hP, fun _ => hstored, hreads⟩

theorem toInt_toInt32 {x : UInt32} (h : x.toNat < 2 ^ 31) : x.toInt32.toInt = x.toNat := by
  change x.toBitVec.toInt = x.toBitVec.toNat
  exact BitVec.toInt_eq_toNat_of_lt (by change 2 * x.toNat < 2 ^ 32; omega)

theorem toNat_toUInt32 {x : Int32} (h : 0 ≤ x) : x.toUInt32.toNat = x.toInt.toNat := by
  have hnonneg : 0 ≤ x.toInt := Int32.le_iff_toInt_le.mp h
  have hcond : x.toInt = if 2 * x.toUInt32.toNat < 2 ^ 32 then (x.toUInt32.toNat : ℤ)
      else x.toUInt32.toNat - 2 ^ 32 := BitVec.toInt_eq_toNat_cond x.toBitVec
  have hlt : x.toUInt32.toNat < 2 ^ 32 := x.toUInt32.toNat_lt
  split_ifs at hcond <;> omega

theorem below_iff {len : ℕ} (hlen : len ≠ 0) : p.Below addr len ↔
    addr.toNat + len ≤ p.sz.toNat := by
  constructor
  · intro h
    have hlast := h (len - 1) (by omega)
    omega
  · intro h k hk
    omega

theorem toNat_add_of_below {k : ℕ} (h : p.Below addr (k + 1)) :
    (addr + UInt32.ofNat k).toNat = addr.toNat + k := by
  have hk := h k (Nat.lt_succ_self k)
  have hsz : p.sz.toNat < 2 ^ 32 := p.sz.toNat_lt
  exact toNat_add_ofNat (by omega)

theorem fetchint_checks (hsz : p.sz < KERNBASE) :
    Checks p (fetchint p addr) (p.Below addr 4) (p.word addr) := by
  have hlt : p.sz.toNat < 2 ^ 31 := UInt32.lt_iff_toNat_lt.mp hsz
  have haddr : addr.toNat < 2 ^ 32 := addr.toNat_lt
  rw [fetchint]
  by_cases hbad : addr ≥ p.sz ∨ addr + 4 > p.sz
  · rw [if_pos hbad]
    refine .of_fail rfl ?_ fun x hx => absurd hx List.not_mem_nil
    rw [below_iff (by decide)]
    rw [ge_iff_le, gt_iff_lt, UInt32.le_iff_toNat_le, UInt32.lt_iff_toNat_lt,
      UInt32.toNat_add] at hbad
    change _ ∨ _ < (addr.toNat + 4) % 2 ^ 32 at hbad
    omega
  · rw [if_neg hbad]
    rw [ge_iff_le, gt_iff_lt, UInt32.le_iff_toNat_le, UInt32.lt_iff_toNat_lt,
      UInt32.toNat_add] at hbad
    change ¬ (_ ∨ _ < (addr.toNat + 4) % 2 ^ 32) at hbad
    have hbelow : p.Below addr 4 := (below_iff (by decide)).mpr (by omega)
    have hread : ∀ k < 4, addr + UInt32.ofNat k < p.sz := by
      intro k hk
      rw [UInt32.lt_iff_toNat_lt, toNat_add_of_below fun j hj => hbelow j (by omega)]
      exact hbelow k hk
    refine .of_success (Int32.le_refl 0) hbelow rfl fun x hx => ?_
    simp only [List.mem_cons, List.not_mem_nil, or_false] at hx
    rcases hx with rfl | rfl | rfl | rfl
    · simpa using hread 0 (by decide)
    · exact hread 1 (by decide)
    · exact hread 2 (by decide)
    · exact hread 3 (by decide)

theorem eq_or_succ_le {s x : UInt32} (hsx : s ≤ x) : x = s ∨ s + 1 ≤ x := by
  rw [UInt32.le_iff_toNat_le] at hsx
  by_cases heq : x.toNat = s.toNat
  · exact .inl (UInt32.toNat_inj.mp heq)
  · have hlt : s < x := UInt32.lt_iff_toNat_lt.mpr (by omega)
    refine .inr ?_
    rw [UInt32.le_iff_toNat_le, toNat_succ_of_lt hlt]
    omega

theorem scan_spec (mem : UInt32 → UInt8) (ep s : UInt32) :
    (∀ x ∈ (scan mem ep s).2, x < ep) ∧
      (∀ e, (scan mem ep s).1 = some e →
        s ≤ e ∧ e < ep ∧ mem e = 0 ∧ ∀ x, s ≤ x → x < e → mem x ≠ 0) ∧
      ((scan mem ep s).1 = none → ∀ x, s ≤ x → x < ep → mem x ≠ 0) := by
  induction s using scan.induct mem ep with
  | case1 s hs h0 =>
      rw [scan, if_pos hs, if_pos h0]
      refine ⟨fun x hx => ?_, fun e he => ?_, fun h => by cases h⟩
      · exact List.mem_singleton.mp hx ▸ hs
      · cases he
        exact ⟨UInt32.le_refl s, hs, h0, fun x hsx hxs => absurd hxs (UInt32.not_lt.mpr hsx)⟩
  | case2 s hs h0 ih =>
      obtain ⟨hreads, hfound, hnone⟩ := ih
      have hle : s ≤ s + 1 := by
        rw [UInt32.le_iff_toNat_le, toNat_succ_of_lt hs]
        omega
      rw [scan, if_pos hs, if_neg h0]
      refine ⟨fun x hx => ?_, fun e he => ?_, fun h x hsx hx => ?_⟩
      · rcases List.mem_cons.mp hx with rfl | hx
        · exact hs
        · exact hreads x hx
      · obtain ⟨hse, he', hzero, hbefore⟩ := hfound e he
        refine ⟨UInt32.le_trans hle hse, he', hzero, fun x hsx hx => ?_⟩
        rcases eq_or_succ_le hsx with rfl | hsx
        · exact h0
        · exact hbefore x hsx hx
      · rcases eq_or_succ_le hsx with rfl | hsx
        · exact h0
        · exact hnone h x hsx hx
  | case3 s hs =>
      rw [scan, if_neg hs]
      refine ⟨fun x hx => absurd hx List.not_mem_nil, ?_, fun _ x hsx hx => ?_⟩
      · rintro e ⟨⟩
      · exact absurd (UInt32.lt_of_le_of_lt hsx hx) hs

/-- The string at an address ends below the end of the process. -/
def Proc.Terminated (p : Proc) (addr : UInt32) : Prop :=
  ∃ k, p.Below addr (k + 1) ∧ p.mem (addr + UInt32.ofNat k) = 0

theorem fetchstr_checks (hsz : p.sz < KERNBASE) :
    Checks p (fetchstr p addr) (p.Terminated addr) addr := by
  have hlt : p.sz.toNat < 2 ^ 31 := UInt32.lt_iff_toNat_lt.mp hsz
  rw [fetchstr]
  by_cases hbad : addr ≥ p.sz
  · rw [if_pos hbad]
    refine .of_fail rfl ?_ fun x hx => absurd hx List.not_mem_nil
    rintro ⟨k, hbelow, -⟩
    have h0 := hbelow 0 (Nat.succ_pos k)
    rw [ge_iff_le, UInt32.le_iff_toNat_le] at hbad
    omega
  · obtain ⟨hreads, hfound, hnone⟩ := scan_spec p.mem p.sz addr
    rw [if_neg hbad]
    cases hscan : scan p.mem p.sz addr with
    | mk e reads =>
      rw [hscan] at hreads hfound hnone
      cases e with
      | none =>
          refine .of_fail rfl ?_ hreads
          rintro ⟨k, hbelow, hzero⟩
          have hk := toNat_add_of_below hbelow
          refine hnone rfl _ ?_ ?_ hzero
          · rw [UInt32.le_iff_toNat_le, hk]
            omega
          · rw [UInt32.lt_iff_toNat_lt, hk]
            exact hbelow k (Nat.lt_succ_self k)
      | some e =>
          obtain ⟨hle, he, hzero, -⟩ := hfound e rfl
          rw [UInt32.le_iff_toNat_le] at hle
          rw [UInt32.lt_iff_toNat_lt] at he
          have hsub : (e - addr).toNat = e.toNat - addr.toNat :=
            UInt32.toNat_sub_of_le _ _ (UInt32.le_iff_toNat_le.mpr hle)
          have hend : addr + UInt32.ofNat (e.toNat - addr.toNat) = e := by
            rw [← hsub, UInt32.ofNat_toNat, UInt32.add_comm, UInt32.sub_add_cancel]
          refine .of_success ?_ ⟨e.toNat - addr.toNat, fun k hk => by omega, ?_⟩ rfl hreads
          · rw [Int32.le_iff_toInt_le, toInt_toInt32 (by omega)]
            exact Int.natCast_nonneg _
          · rw [hend]
            exact hzero

theorem argptr_checks (hsz : p.sz < KERNBASE) :
    Checks p (argptr p n size)
      (p.Below (p.esp + 4 + 4 * n) 4 ∧ p.word (p.esp + 4 + 4 * n) < p.sz ∧ 0 ≤ size ∧
        p.Below (p.word (p.esp + 4 + 4 * n)) size.toInt.toNat)
      (p.word (p.esp + 4 + 4 * n)) := by
  obtain ⟨hsucceeds, hstored, hreads⟩ := @fetchint_checks p (p.esp + 4 + 4 * n) hsz
  rw [argptr, argint]
  cases hf : fetchint p (p.esp + 4 + 4 * n) with
  | mk ret i reads =>
    rw [hf] at hsucceeds hstored hreads
    dsimp only at hsucceeds hstored hreads ⊢
    by_cases hret : ret < 0
    · rw [if_pos hret]
      exact .of_fail rfl (fun h => Int32.not_lt.mpr (hsucceeds.mpr h.1) hret) hreads
    · have hi := hstored (Int32.not_lt.mp hret)
      have hword := hsucceeds.mp (Int32.not_lt.mp hret)
      rw [if_neg hret, hi]
      dsimp only
      rw [hi] at hstored
      have hlt : p.sz.toNat < 2 ^ 31 := UInt32.lt_iff_toNat_lt.mp hsz
      by_cases hsize : 0 ≤ size
      · have hmax : size.toInt < 2 ^ 31 := size.toInt_lt
        have hwords := toNat_toUInt32 hsize
        by_cases hbad : size < 0 ∨ p.word (p.esp + 4 + 4 * n) ≥ p.sz ∨
            p.word (p.esp + 4 + 4 * n) + size.toUInt32 > p.sz
        · rw [if_pos hbad]
          refine .of_fail rfl (fun h => ?_) hreads
          obtain ⟨-, hptr, -, hbuf⟩ := h
          rw [UInt32.lt_iff_toNat_lt] at hptr
          rw [or_iff_right (Int32.not_lt.mpr hsize), ge_iff_le, gt_iff_lt, UInt32.le_iff_toNat_le,
            UInt32.lt_iff_toNat_lt, UInt32.toNat_add] at hbad
          have hlast := hbuf (size.toInt.toNat - 1)
          omega
        · rw [if_neg hbad]
          rw [or_iff_right (Int32.not_lt.mpr hsize), not_or, ge_iff_le, gt_iff_lt, UInt32.not_le,
            UInt32.lt_iff_toNat_lt, UInt32.lt_iff_toNat_lt, UInt32.toNat_add] at hbad
          refine .of_success (Int32.le_refl 0) ⟨hword, ?_, hsize, fun k hk => ?_⟩ rfl hreads
          · exact UInt32.lt_iff_toNat_lt.mpr hbad.1
          · omega
      · rw [if_pos (.inl (Int32.not_le.mp hsize))]
        exact .of_fail rfl (fun h => hsize h.2.2.1) hreads

theorem argstr_checks (hsz : p.sz < KERNBASE) :
    Checks p (argstr p n)
      (p.Below (p.esp + 4 + 4 * n) 4 ∧ p.Terminated (p.word (p.esp + 4 + 4 * n)))
      (p.word (p.esp + 4 + 4 * n)) := by
  obtain ⟨hsucceeds, hstored, hreads⟩ := @fetchint_checks p (p.esp + 4 + 4 * n) hsz
  rw [argstr, argint]
  cases hf : fetchint p (p.esp + 4 + 4 * n) with
  | mk ret i reads =>
    rw [hf] at hsucceeds hstored hreads
    dsimp only at hsucceeds hstored hreads ⊢
    by_cases hret : ret < 0
    · rw [if_pos hret]
      exact .of_fail rfl (fun h => Int32.not_lt.mpr (hsucceeds.mpr h.1) hret) hreads
    · have hword := hsucceeds.mp (Int32.not_lt.mp hret)
      obtain ⟨hstring, hstart, hbytes⟩ := @fetchstr_checks p (p.word (p.esp + 4 + 4 * n)) hsz
      rw [if_neg hret, hstored (Int32.not_lt.mp hret)]
      refine ⟨hstring.trans (and_iff_right hword).symm, hstart, fun x hx => ?_⟩
      exact (List.mem_append.mp hx).elim (hreads x) (hbytes x)

/-- The four bytes of a word, and those of a buffer or of a string up to its end, are checked
against the end of the process without wrapping, and what lies within it is accepted. -/
theorem arguments_checked (hsz : p.sz < KERNBASE) (n : UInt32) (size : Int32) :
    let addr := p.esp + 4 + 4 * n
    Checks p (argint p n) (p.Below addr 4) (p.word addr) ∧
      Checks p (argptr p n size) (p.Below addr 4 ∧ p.word addr < p.sz ∧ 0 ≤ size ∧
        p.Below (p.word addr) size.toInt.toNat) (p.word addr) ∧
      Checks p (argstr p n) (p.Below addr 4 ∧ p.Terminated (p.word addr)) (p.word addr) :=
  ⟨fetchint_checks hsz, argptr_checks hsz, argstr_checks hsz⟩

/-- The last word of the memory points to its last byte. -/
def edgeProc : Proc where
  sz := 8192
  esp := 8184
  mem x := if x = 8188 then 0xff else if x = 8189 then 0x1f else 0

theorem arguments_checked_edge :
    0 ≤ (argint edgeProc 0).ret ∧ 0 ≤ (argptr edgeProc 0 1).ret ∧ 0 ≤ (argstr edgeProc 0).ret := by
  obtain ⟨hint, hptr, hstr⟩ := arguments_checked (p := edgeProc) (by decide) 0 1
  have hbelow : edgeProc.Below 8188 4 := (below_iff (by decide)).mpr (by decide)
  have hbyte : edgeProc.Below 8191 1 := (below_iff (by decide)).mpr (by decide)
  have haddr : edgeProc.esp + 4 + 4 * 0 = 8188 := by decide
  have hword : edgeProc.word 8188 = 8191 := by decide +kernel
  rw [haddr, hword] at hptr hstr
  rw [haddr] at hint
  exact ⟨hint.succeeds.mpr hbelow, hptr.succeeds.mpr ⟨hbelow, by decide, by decide, hbyte⟩,
    hstr.succeeds.mpr ⟨hbelow, 0, hbyte, by decide +kernel⟩⟩

end SyscallArguments

end Xv6Fairness
