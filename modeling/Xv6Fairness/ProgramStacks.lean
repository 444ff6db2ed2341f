import Mathlib.Data.List.GetD
import Xv6Fairness.ProgramImages

/-!
# The stack of a new program

The page of the stack is the last one of the image. The strings go to its end, one below the other,
and below them what `main` finds: a return address, the number of the arguments and a pointer to the
pointers to the strings.
-/

namespace Xv6Fairness

open Outcomes Ownership

namespace VirtualMemory

variable {endFrame : ℕ} {κ : Type*} {others : κ → ℕ} {s t u : Space} {f v : ℕ} {p : Pte} {X : Page}

/-- The page with other contents. -/
def Space.setPage (s : Space) (f : ℕ) (X : Page) : Space :=
  { s with page := Function.update s.page f X }

theorem setPage_self : s.setPage f (s.page f) = s := by
  rw [Space.setPage, Function.update_eq_self]

theorem setPage_page : (s.setPage f X).page f = X := Function.update_self _ _ _

theorem setPage_setPage {Y : Page} : (s.setPage f X).setPage f Y = s.setPage f Y := by
  rw [Space.setPage, Space.setPage, Space.setPage]
  dsimp only
  rw [Function.update_idem]

/-- Bytes from an offset on. -/
def Page.write (X : Page) (off : ℕ) (buf : ℕ → UInt8) (n : ℕ) : Page :=
  fun i => if off ≤ i ∧ i < off + n then buf (i - off) else X i

theorem copyout_in_page {va len : UInt32} {buf : ℕ → UInt8} (hp : s.pte va.toNat = some p)
    (hlen : 0 < len.toNat) (hfit : va.toNat % 4096 + len.toNat ≤ 4096) :
    s.copyout va buf len = some (if p.perm &&& PTE_U = 0 then (-1, s) else
      (0, s.setPage p.frame ((s.page p.frame).write (va.toNat % 4096) buf len.toNat))) := by
  have hpos : 0 < len := UInt32.lt_iff_toNat_lt.mpr hlen
  rw [Space.copyout, if_pos hpos]
  dsimp only
  by_cases hu : p.perm &&& PTE_U = 0
  · have hnot : ¬ s.Accessible va := by
      rintro ⟨q, hq, hqu⟩
      rw [hp] at hq
      cases hq
      exact hqu hu
    have htable : s.HasTable va := by
      obtain ⟨x, hx, -⟩ := Option.bind_eq_some_iff.mp hp
      exact Option.isSome_iff_exists.mpr ⟨x, hx⟩
    rw [uva2ka_of_not_accessible hnot, if_pos htable, if_pos hu]
  · have hchunk : chunk va len = len := by
      apply UInt32.toNat_inj.mp
      rw [toNat_chunk]
      omega
    rw [uva2ka_of_accessible hp hu, if_neg hu]
    dsimp only
    rw [hchunk, UInt32.sub_self, copyout_zero, toNat_offset]
    rfl

/-- What a string takes with its end, in whole words. -/
def room (arg : List UInt8) : ℕ := (arg.length + 4) / 4 * 4

def rooms (argv : List (List UInt8)) : ℕ := (argv.map room).sum

/-- The strings lie one below the other from `hi` down to `lo`. -/
def Placed (X : Page) : ℕ → List (List UInt8) → List UInt32 → ℕ → Prop
  | hi, [], [], lo => lo = hi
  | hi, arg :: args, a :: as, lo => a.toNat % 4 = 0 ∧ a.toNat + arg.length + 1 ≤ hi ∧
      (∀ j ≤ arg.length, X ((a.toNat + j) % 4096) = Space.cstring arg j) ∧
      Placed X a.toNat args as lo
  | _, _, _, _ => False

theorem toNat_pushed {sp : UInt32} {arg : List UInt8} (hsp : sp.toNat % 4 = 0)
    (hroom : room arg ≤ sp.toNat) :
    (Space.pushed sp arg).toNat = sp.toNat - room arg := by
  have hlt := sp.toNat_lt
  rw [room] at hroom ⊢
  rw [Space.pushed, UInt32.toNat_mul, UInt32.toNat_div, UInt32.toNat_sub, UInt32.toNat_ofNat']
  change (2 ^ 32 - (arg.length + 1) % 2 ^ 32 + sp.toNat) % 2 ^ 32 / 4 * 4 % 2 ^ 32 = _
  omega

theorem pushArgs_spec : ∀ (argv : List (List UInt8)) (s : Space) (sp : UInt32)
    (strings : List UInt32),
    s.pte (PGSIZE * v) = some p → sp.toNat % 4 = 0 → 4096 * v + rooms argv ≤ sp.toNat →
    sp.toNat ≤ 4096 * (v + 1) →
    ∃ r X, s.pushArgs sp strings argv = .ok (r, s.setPage p.frame X) ∧
      (p.perm &&& PTE_U ≠ 0 → strings.length + argv.length ≤ MAXARG → r.isSome) ∧
      ∀ sp' strings', r = some (sp', strings') → sp'.toNat = sp.toNat - rooms argv ∧
        (∀ a, sp.toNat ≤ a → a < 4096 * (v + 1) → X (a % 4096) = s.page p.frame (a % 4096)) ∧
        ∃ new, strings' = strings ++ new ∧ Placed X sp.toNat argv new sp'.toNat
  | [], s, sp, strings, _, _, _, _ => by
      refine ⟨some (sp, strings), s.page p.frame, ?_, fun _ _ => rfl, ?_⟩
      · rw [setPage_self]
        rfl
      · intro sp' strings' heq
        cases heq
        exact ⟨rfl, fun _ _ _ => rfl, [], (List.append_nil _).symm, rfl⟩
  | arg :: args, s, sp, strings, hp, hsp, hroom, htop => by
      have hrooms : rooms (arg :: args) = room arg + rooms args := List.sum_cons
      have hlen : arg.length + 1 ≤ room arg := by
        rw [room]
        omega
      have hword : room arg % 4 = 0 := Nat.mul_mod_left _ _
      rw [hrooms] at hroom
      have hnat : (Space.pushed sp arg).toNat = sp.toNat - room arg := toNat_pushed hsp (by omega)
      rw [Space.pushArgs]
      by_cases hmax : MAXARG ≤ strings.length
      · rw [if_pos hmax]
        refine ⟨none,
          s.page p.frame, by rw [setPage_self], fun _ hle => ?_, fun _ _ hr => by cases hr⟩
        rw [List.length_cons] at hle
        omega
      · rw [if_neg hmax]
        have hsize : (UInt32.ofNat (arg.length + 1)).toNat = arg.length + 1 := by
          have hlt := sp.toNat_lt
          rw [UInt32.toNat_ofNat']
          omega
        have hpage : s.pte (Space.pushed sp arg).toNat = some p := by
          rw [← hp]
          refine pte_congr ?_
          change _ = 4096 * v / 4096
          omega
        have hcopy := @copyout_in_page s p (Space.pushed sp arg) (UInt32.ofNat (arg.length + 1))
          (Space.cstring arg) hpage (by omega) (by omega)
        dsimp only
        rw [hcopy]
        by_cases hu : p.perm &&& PTE_U = 0
        · rw [if_pos hu]
          exact ⟨none, s.page p.frame, by rw [setPage_self]; rfl, fun huser => absurd hu huser,
            fun _ _ hr => by cases hr⟩
        · rw [if_neg hu]
          dsimp only
          rw [if_neg (lt_irrefl 0), hsize]
          obtain ⟨r, X, hrun, hsome, hpost⟩ := pushArgs_spec args
            (s.setPage p.frame ((s.page p.frame).write ((Space.pushed sp arg).toNat % 4096)
              (Space.cstring arg) (arg.length + 1))) (Space.pushed sp arg)
            (strings ++ [Space.pushed sp arg]) hp (by omega) (by omega) (by omega)
          rw [setPage_setPage] at hrun
          refine ⟨r, X, hrun, fun huser hle => hsome huser ?_, fun sp' strings' hr => ?_⟩
          · rw [List.length_append, List.length_singleton]
            rw [List.length_cons] at hle
            omega
          obtain ⟨hsp', hsame, new, hstrings, hplaced⟩ := hpost sp' strings' hr
          rw [setPage_page] at hsame
          refine ⟨by omega, fun a ha hlt => ?_, Space.pushed sp arg :: new, ?_, by omega, by omega,
            fun j hj => ?_, hplaced⟩
          · rw [hsame a (by omega) hlt, Page.write, if_neg (by omega)]
          · rw [hstrings, List.append_assoc]
            rfl
          · rw [hsame _ (by omega) (by omega), Page.write, if_pos (by omega)]
            congr 1
            omega

/-- What is known of a string by its number. -/
structure Slotted (X : Page) (lo hi : ℕ) (a : UInt32) (arg : List UInt8) : Prop where
  aligned : a.toNat % 4 = 0
  lo_le : lo ≤ a.toNat
  le_hi : a.toNat + arg.length + 1 ≤ hi
  bytes : ∀ j ≤ arg.length, X ((a.toNat + j) % 4096) = Space.cstring arg j

theorem Slotted.mono {lo hi hi' : ℕ} {a : UInt32} {arg : List UInt8} (h : Slotted X lo hi a arg)
    (hle : hi ≤ hi') : Slotted X lo hi' a arg :=
  ⟨h.aligned, h.lo_le, h.le_hi.trans hle, h.bytes⟩

theorem Placed.index : ∀ {argv : List (List UInt8)} {as : List UInt32}
    {lo hi : ℕ}, Placed X hi argv as lo →
    as.length = argv.length ∧ lo ≤ hi ∧
      (∀ i < argv.length, Slotted X lo hi (as.getD i 0) (argv.getD i [])) ∧
      ∀ i j, i < j → j < argv.length →
        (as.getD j 0).toNat + (argv.getD j []).length + 1 ≤ (as.getD i 0).toNat
  | [], [], lo, hi, h => by
      obtain rfl : lo = hi := h
      exact ⟨rfl, le_rfl, fun i hi => absurd hi (Nat.not_lt_zero i),
        fun i j _ hj => absurd hj (Nat.not_lt_zero j)⟩
  | arg :: args, a :: as, lo, hi, ⟨haligned, hle, hbytes, hplaced⟩ => by
      obtain ⟨hlen, hlo, hall, hpair⟩ := Placed.index hplaced
      refine ⟨congrArg Nat.succ hlen, by omega, fun i hi' => ?_, fun i j hij hj => ?_⟩
      · cases i with
        | zero => exact ⟨haligned, hlo, hle, hbytes⟩
        | succ i => exact (hall i (Nat.lt_of_succ_lt_succ hi')).mono (by omega)
      · cases j with
        | zero => exact absurd hij (Nat.not_lt_zero i)
        | succ j =>
            cases i with
            | zero => exact (hall j (Nat.lt_of_succ_lt_succ hj)).le_hi
            | succ i => exact hpair i j (Nat.lt_of_succ_lt_succ hij) (Nat.lt_of_succ_lt_succ hj)

theorem Placed.congr {Y : Page} : ∀ {argv : List (List UInt8)} {as : List UInt32} {lo hi : ℕ},
    Placed X hi argv as lo → (∀ a, lo ≤ a → a < hi → Y (a % 4096) = X (a % 4096)) →
    Placed Y hi argv as lo
  | [], [], _, _, h, _ => h
  | arg :: args, a :: as, lo, hi, ⟨haligned, hle, hbytes, hplaced⟩, hsame => by
      have hlo := hplaced.index.2.1
      refine ⟨haligned, hle, fun j hj => ?_, hplaced.congr fun b hb hlt => hsame b hb (by omega)⟩
      rw [hsame _ (by omega) (by omega), hbytes j hj]

def Space.wordAt (s : Space) (a : ℕ) : Option UInt32 := do
  let b₀ ← s.byteAt a
  let b₁ ← s.byteAt (a + 1)
  let b₂ ← s.byteAt (a + 2)
  let b₃ ← s.byteAt (a + 3)
  some (UInt32.ofNat (b₀.toNat + 2 ^ 8 * b₁.toNat + 2 ^ 16 * b₂.toNat + 2 ^ 24 * b₃.toNat))

/-- A string of C. -/
structure StringAt (t : Space) (a : UInt32) (arg : List UInt8) : Prop where
  aligned : a.toNat % 4 = 0
  bytes : ∀ j < arg.length, t.byteAt (a.toNat + j) = some (arg.getD j 0)
  terminated : t.byteAt (a.toNat + arg.length) = some 0

/-- The stack pointer is in the last page below `sz`, with a page below it that user code has no
access to. From there on lie a return address, the number of arguments, a pointer to what comes
next, the pointers to the strings and 0. Behind these lie the strings, the first one last. -/
structure Started (argv : List (List UInt8)) (sz sp : UInt32) (t : Space) : Prop where
  aligned : sp.toNat % 4 = 0
  inside : sz.toNat ≤ sp.toNat + PGSIZE
  below : sp.toNat + 16 + 4 * argv.length ≤ sz.toNat
  guard : ∃ p, t.pte (sz.toNat - 2 * PGSIZE) = some p ∧ p.perm &&& PTE_U = 0
  return_address : t.wordAt sp.toNat = some 0xffffffff
  argc : t.wordAt (sp.toNat + 4) = some (UInt32.ofNat argv.length)
  pointer : t.wordAt (sp.toNat + 8) = some (sp + 12)
  null : t.wordAt (sp.toNat + 12 + 4 * argv.length) = some 0
  strings : ∃ as : List UInt32, as.length = argv.length ∧
    (∀ i < argv.length, t.wordAt (sp.toNat + 12 + 4 * i) = some (as.getD i 0) ∧
      StringAt t (as.getD i 0) (argv.getD i []) ∧
      sp.toNat + 16 + 4 * argv.length ≤ (as.getD i 0).toNat ∧
      (as.getD i 0).toNat + (argv.getD i []).length + 1 ≤ sz.toNat) ∧
    ∀ i j, i < j → j < argv.length →
      (as.getD j 0).toNat + (argv.getD j []).length + 1 ≤ (as.getD i 0).toNat

theorem wordAt_congr {a : ℕ} (h : ∀ j < 4, t.byteAt (a + j) = s.byteAt (a + j)) :
    t.wordAt a = s.wordAt a := by
  rw [Space.wordAt, Space.wordAt, ← Nat.add_zero a, h 0 (by decide), Nat.add_zero, h 1 (by decide),
    h 2 (by decide), h 3 (by decide)]

theorem Started.congr {argv : List (List UInt8)} {sz sp : UInt32} (h : Started argv sz sp s)
    (hbyte : ∀ a < sz.toNat, t.byteAt a = s.byteAt a) (hpte : ∀ a, t.pte a = s.pte a) :
    Started argv sz sp t := by
  have hbelow := h.below
  have hword : ∀ a, a + 4 ≤ sp.toNat + 16 + 4 * argv.length → t.wordAt a = s.wordAt a := fun a ha =>
    wordAt_congr fun j hj => hbyte _ (by omega)
  obtain ⟨as, hlen, hall, hpair⟩ := h.strings
  refine ⟨h.aligned, h.inside, h.below, ?_, ?_, ?_, ?_, ?_, as, hlen, fun i hi => ?_, hpair⟩
  · rw [hpte]
    exact h.guard
  · rw [hword _ (by omega), h.return_address]
  · rw [hword _ (by omega), h.argc]
  · rw [hword _ (by omega), h.pointer]
  · rw [hword _ (by omega), h.null]
  · obtain ⟨hptr, hstring, hlo, hhi⟩ := hall i hi
    refine ⟨?_, ⟨hstring.aligned, fun j hj => ?_, ?_⟩, hlo, hhi⟩
    · rw [hword _ (by omega), hptr]
    · rw [hbyte _ (by omega), hstring.bytes j hj]
    · rw [hbyte _ (by omega), hstring.terminated]

section Words

variable {ws : List UInt32} {k j : ℕ}

theorem words_eq (hj : j < 4) :
    (Space.words ws (4 * k + j)).toNat = (ws.getD k 0).toNat / 2 ^ (8 * j) % 2 ^ 8 := by
  have hk : (4 * k + j) / 4 = k := by omega
  have hmod : (4 * k + j) % 4 = j := by omega
  have hshift : (UInt32.ofNat (8 * j)).toNat % 32 = 8 * j := by
    rw [UInt32.toNat_ofNat']
    omega
  rw [Space.words, hk, hmod, UInt32.toNat_toUInt8, UInt32.toNat_shiftRight, hshift,
    Nat.shiftRight_eq_div_pow]

theorem word_of_bytes :
    UInt32.ofNat ((Space.words ws (4 * k)).toNat + 2 ^ 8 * (Space.words ws (4 * k + 1)).toNat +
    2 ^ 16 * (Space.words ws (4 * k + 2)).toNat + 2 ^ 24 * (Space.words ws (4 * k + 3)).toNat) =
    ws.getD k 0 := by
  have h₀ := @words_eq ws k 0 (by decide)
  have h₁ := @words_eq ws k 1 (by decide)
  have h₂ := @words_eq ws k 2 (by decide)
  have h₃ := @words_eq ws k 3 (by decide)
  have hlt := (ws.getD k 0).toNat_lt
  apply UInt32.toNat_inj.mp
  rw [Nat.add_zero] at h₀
  rw [UInt32.toNat_ofNat', h₀, h₁, h₂, h₃]
  omega

theorem wordAt_words {a n : ℕ} {t : Space}
    (hbytes : ∀ i < n, t.byteAt (a + i) = some (Space.words ws i))
    (hk : 4 * k + 4 ≤ n) : t.wordAt (a + 4 * k) = some (ws.getD k 0) := by
  have hbyte : ∀ j < 4, t.byteAt (a + 4 * k + j) = some (Space.words ws (4 * k + j)) :=
    fun j hj => by
    rw [Nat.add_assoc]
    exact hbytes _ (by omega)
  rw [Space.wordAt, ← Nat.add_zero (a + 4 * k), hbyte 0 (by decide), Nat.add_zero,
    hbyte 1 (by decide),
    hbyte 2 (by decide), hbyte 3 (by decide)]
  exact congrArg some word_of_bytes

end Words

section Ustack

variable {sp : UInt32} {strings : List UInt32}

/-- The room for `ustack` on the stack. -/
def frameSize (strings : List UInt32) : UInt32 := (3 + UInt32.ofNat strings.length + 1) * 4

theorem toNat_frameSize (h : strings.length < 2 ^ 20) :
    (frameSize strings).toNat = 4 * (strings.length + 4) := by
  rw [frameSize, UInt32.toNat_mul, UInt32.toNat_add, UInt32.toNat_add, UInt32.toNat_ofNat']
  change (((3 + strings.length % 2 ^ 32) % 2 ^ 32 + 1) % 2 ^ 32 * 4) % 2 ^ 32 = _
  omega

theorem ustack_pointer : sp - (UInt32.ofNat strings.length + 1) * 4 =
    sp - frameSize strings + 12 := by
  have hlt := sp.toNat_lt
  apply UInt32.toNat_inj.mp
  rw [frameSize, UInt32.toNat_sub, UInt32.toNat_add, UInt32.toNat_sub, UInt32.toNat_mul,
    UInt32.toNat_mul,
    UInt32.toNat_add, UInt32.toNat_add, UInt32.toNat_add]
  change (2 ^ 32 - ((UInt32.ofNat strings.length).toNat + 1) % 2 ^ 32 * 4 % 2 ^ 32 + sp.toNat)
    % 2 ^ 32 =
    ((2 ^ 32 - (((3 + (UInt32.ofNat strings.length).toNat) % 2 ^ 32 + 1) % 2 ^ 32 * 4) % 2 ^ 32 +
      sp.toNat) %
      2 ^ 32 + 12) % 2 ^ 32
  omega

theorem ustack_string {i : ℕ} (hi : i < strings.length) :
    (Space.ustack sp strings).getD (3 + i) 0 = strings.getD i 0 := by
  have hshift : (Space.ustack sp strings).getD (3 + i) 0 = (strings ++ [0]).getD i 0 := by
    rw [Nat.add_comm]
    rfl
  rw [hshift]
  exact List.getD_append _ _ _ _ hi

theorem ustack_null : (Space.ustack sp strings).getD (3 + strings.length) 0 = 0 := by
  have hshift : (Space.ustack sp strings).getD (3 + strings.length) 0 =
      (strings ++ [0]).getD strings.length 0 := by
    rw [Nat.add_comm]
    rfl
  rw [hshift, List.getD_append_right _ _ _ _ le_rfl, Nat.sub_self]
  rfl

end Ustack

theorem started {argv : List (List UInt8)} {strings : List UInt32} {sz sp : UInt32} {t : Space}
    (hsz : sz.toNat = 4096 * (v + 1)) (hp : t.pte (PGSIZE * v) = some p)
    (hguard : ∃ q, t.pte (sz.toNat - 2 * PGSIZE) = some q ∧ q.perm &&& PTE_U = 0)
    (hsp : sp.toNat % 4 = 0) (hlow : 4096 * v + 4 * (argv.length + 4) ≤ sp.toNat)
    (hplaced : Placed (t.page p.frame) sz.toNat argv strings sp.toNat)
    (hframe : ∀ i < 4 * (argv.length + 4),
      t.page p.frame ((sp.toNat - 4 * (argv.length + 4) + i) % 4096) =
      Space.words (Space.ustack sp strings) i) : Started argv sz (sp - frameSize strings) t := by
  obtain ⟨hlen, hle, hall, hpair⟩ := hplaced.index
  have hlt := sz.toNat_lt
  have hbase : (sp - frameSize strings).toNat = sp.toNat - 4 * (argv.length + 4) := by
    rw [UInt32.toNat_sub, toNat_frameSize (by omega), hlen]
    omega
  have hbyte : ∀ a, 4096 * v ≤ a → a < 4096 * (v + 1) →
      t.byteAt a = some (t.page p.frame (a % 4096)) := by
    intro a hlo hhi
    have hpte : t.pte a = some p := by
      rw [← hp]
      refine pte_congr ?_
      change _ = 4096 * v / 4096
      omega
    rw [Space.byteAt, hpte]
    rfl
  have hbytes : ∀ i < 4 * (argv.length + 4), t.byteAt ((sp - frameSize strings).toNat + i) =
      some (Space.words (Space.ustack sp strings) i) := fun i hi => by
    rw [hbase, hbyte _ (by omega) (by omega), hframe i hi]
  have hword : ∀ k < argv.length + 4, t.wordAt ((sp - frameSize strings).toNat + 4 * k) =
      some ((Space.ustack sp strings).getD k 0) := fun k hk => wordAt_words hbytes (by omega)
  refine ⟨by omega,
    ?_, by omega, hguard, hword 0 (by omega), ?_, ?_, ?_, strings, hlen,
    fun i hi => ⟨?_, ?_, ?_, ?_⟩,
    hpair⟩
  · change _ ≤ _ + 4096
    omega
  · rw [← hlen]
    exact hword 1 (by omega)
  · rw [← ustack_pointer]
    exact hword 2 (by omega)
  · have hnull := hword (3 + strings.length) (by omega)
    rw [ustack_null, hlen, Nat.mul_add, ← Nat.add_assoc] at hnull
    exact hnull
  · have hstring := hword (3 + i) (by omega)
    rw [ustack_string (by omega), Nat.mul_add, ← Nat.add_assoc] at hstring
    exact hstring
  · have hslot := hall i hi
    have hlo := hslot.lo_le
    have hhi := hslot.le_hi
    refine ⟨hslot.aligned, fun j hj => ?_, ?_⟩
    · rw [hbyte _ (by omega) (by omega), hslot.bytes j hj.le]
      rfl
    · rw [hbyte _ (by omega) (by omega), hslot.bytes _ le_rfl, Space.cstring,
        List.getD_eq_default _ _ le_rfl]
  · have hlo := (hall i hi).lo_le
    omega
  · exact (hall i hi).le_hi

/-- The bytes that the arguments and `ustack` take. -/
def argsSize (argv : List (List UInt8)) : ℕ := rooms argv + 4 * (argv.length + 4)

theorem not_user (perm : UInt32) : (perm &&& ~~~PTE_U) &&& PTE_U = 0 := by
  rw [UInt32.and_assoc, show ~~~PTE_U &&& PTE_U = 0 by decide, UInt32.and_zero]

theorem rooms_mod {argv : List (List UInt8)} : rooms argv % 4 = 0 := by
  induction argv with
  | nil => rfl
  | cons arg args ih =>
      have hrooms : rooms (arg :: args) = room arg + rooms args := List.sum_cons
      have hword : room arg % 4 = 0 := Nat.mul_mod_left _ _
      omega

variable [DecidableEq κ]

theorem clearpteu_spec (h : Under endFrame others s f 0 t) (hv : v < userPages)
    (hp : t.pte (PGSIZE * v) = some p) {uva : UInt32} (huva : uva.toNat = PGSIZE * v) :
    ∃ u, t.clearpteu uva = .ok u ∧ Under endFrame others s f 0 u ∧
      ∀ w, u.pte (PGSIZE * w) = if w = v then some { p with perm := p.perm &&& ~~~PTE_U }
        else t.pte (PGSIZE * w) := by
  have hwalk : (t.walkpgdir (PGSIZE * v) false).1 = true := walkpgdir_iff.mpr (isSome_of_pte hp)
  refine ⟨_, ?_, h.protect hv hp (p.perm &&& ~~~PTE_U), fun w => pte_setPte (isSome_of_pte hp)⟩
  rw [Space.clearpteu, huva, if_pos hwalk, hp]
  rfl

omit [DecidableEq κ] in
theorem Under.setPage (h : Under endFrame others s f 0 t) (hv : v < userPages)
    (hp : t.pte (PGSIZE * v) = some p)
    (X : Page) : Under endFrame others s f 0 (t.setPage p.frame X) :=
  h.write hv hp X

/-- Whether the pages for the stack are there and the arguments are not too many. -/
def StackFits (endFrame : ℕ) (t : Space) (sz : UInt32) (argv : List (List UInt8)) : Prop :=
  argv.length ≤ MAXARG ∧ ∃ r u, r ≠ 0 ∧
    t.allocuvm endFrame (PGROUNDUP sz) (PGROUNDUP sz + 2 * 4096) = .ok (r, u) ∧
    ∀ p, u.pte (r.toNat - PGSIZE) = some p → p.perm &&& PTE_U ≠ 0

theorem buildStack_spec (h : Under endFrame others s f 0 t) {sz : UInt32} (himage : Image sz t)
    {argv : List (List UInt8)} (hfits : argsSize argv ≤ PGSIZE) :
    ∃ r u, t.buildStack endFrame sz argv = .ok (r, u) ∧ Under endFrame others s f 0 u ∧
      (StackFits endFrame t sz argv → r.isSome) ∧
      ∀ sz' sp, r = some (sz', sp) → Image sz' u ∧ Started argv sz' sp u := by
  change rooms argv + 4 * (argv.length + 4) ≤ 4096 at hfits
  have hround := himage.round_up
  have hmul := PGROUNDUP_toNat himage.size
  change (PGROUNDUP sz).toNat = 4096 * _ at hmul
  set n := (sz.toNat + 4095) / 4096 with hn
  have hsize : (PGROUNDUP sz).toNat ≤ 4096 * 524288 := hround.size
  have hnew : (PGROUNDUP sz + 2 * 4096).toNat = 4096 * (n + 1 + 1) := by
    rw [UInt32.toNat_add, hmul]
    change (4096 * n + 8192) % 2 ^ 32 = _
    omega
  obtain ⟨r, u, hrun, hu, hgrown⟩ := h.allocuvm hround (PGROUNDUP sz + 2 * 4096)
  rw [Space.buildStack, hrun, ok_bind]
  dsimp only
  by_cases hzero : r = 0
  · rw [if_pos hzero]
    refine ⟨none, u, rfl, hu, fun ⟨_, r', u', hne, hrun', _⟩ => ?_, fun _ _ hr => by cases hr⟩
    rw [hrun] at hrun'
    cases hrun'
    exact absurd hzero hne
  · rw [if_neg hzero]
    obtain ⟨himage', -, hle, hor⟩ := hgrown hzero
    have hr : r.toNat = 4096 * (n + 1 + 1) := by
      have hle' := UInt32.le_iff_toNat_le.mp hle
      rcases hor with rfl | rfl
      · omega
      · exact hnew
    obtain ⟨hguardlt, g, hg⟩ := himage'.exists_pte (v := n) (by change 4096 * n < _; omega)
    obtain ⟨htoplt, p, hp⟩ := himage'.exists_pte (v := n + 1) (by change 4096 * (n + 1) < _; omega)
    have huva : (r - 2 * 4096).toNat = PGSIZE * n := by
      rw [UInt32.toNat_sub, hr]
      change (2 ^ 32 - 8192 + 4096 * (n + 1 + 1)) % 2 ^ 32 = 4096 * n
      have hsz := himage'.size
      change _ ≤ 4096 * 524288 at hsz
      omega
    obtain ⟨x, hclear, hx, hpte⟩ := clearpteu_spec hu hguardlt hg huva
    have himagex : Image r x := ⟨himage'.size, fun w hw => by
      rw [hpte, ← himage'.mapped w hw]
      split_ifs with hwn
      · rw [hwn, hg]
        exact iff_of_true rfl rfl
      · rfl⟩
    have hpx : x.pte (PGSIZE * (n + 1)) = some p := by
      rw [hpte, if_neg (by omega), hp]
    have hguard : ∃ q, x.pte (r.toNat - 2 * PGSIZE) = some q ∧ q.perm &&& PTE_U = 0 := by
      have haddr : r.toNat - 2 * PGSIZE = PGSIZE * n := by
        rw [hr]
        change 4096 * (n + 1 + 1) - 8192 = 4096 * n
        omega
      rw [haddr, hpte, if_pos rfl]
      exact ⟨_, rfl, not_user g.perm⟩
    have huser : StackFits endFrame t sz argv → p.perm &&& PTE_U ≠ 0 := by
      rintro ⟨-, r', u', -, hrun', hperm⟩
      rw [hrun] at hrun'
      cases hrun'
      have haddr : r.toNat - PGSIZE = PGSIZE * (n + 1) := by
        rw [hr]
        change 4096 * (n + 1 + 1) - 4096 = 4096 * (n + 1)
        omega
      exact hperm p (haddr ▸ hp)
    obtain ⟨image, X, hpush, hsome, hpost⟩ := pushArgs_spec argv x r [] hpx (by omega) (by omega)
        (by omega)
    rw [hclear, ok_bind, hpush, ok_bind]
    dsimp only
    have hxX := hx.setPage htoplt hpx X
    cases image with
    | none =>
        refine ⟨none, _, rfl, hxX, fun hfit => ?_, fun _ _ hr => by cases hr⟩
        exact hsome (huser hfit) ((Nat.zero_add _).trans_le hfit.1)
    | some image =>
        obtain ⟨sp, strings⟩ := image
        obtain ⟨hsp, -, new, hnewstrings, hplaced⟩ := hpost sp strings rfl
        rw [List.nil_append] at hnewstrings
        subst hnewstrings
        have hlen := hplaced.index.1
        have hmod := @rooms_mod argv
        have hfs : (frameSize strings).toNat = 4 * (argv.length + 4) := by
          rw [toNat_frameSize (by omega), hlen]
        have hbase : (sp - frameSize strings).toNat = sp.toNat - 4 * (argv.length + 4) := by
          have hlt := sp.toNat_lt
          rw [UInt32.toNat_sub, hfs]
          omega
        have hpage : (x.setPage p.frame X).pte (sp - frameSize strings).toNat = some p := by
          rw [← hpx]
          refine (pte_congr (s := x) ?_)
          change _ = 4096 * (n + 1) / 4096
          omega
        have hcopy := @copyout_in_page (x.setPage p.frame X) p (sp - frameSize strings)
            (frameSize strings)
          (Space.words (Space.ustack sp strings)) hpage (by omega) (by omega)
        dsimp only
        rw [← frameSize, hcopy]
        by_cases hzero' : p.perm &&& PTE_U = 0
        · rw [if_pos hzero']
          exact ⟨none, _, rfl, hxX, fun hfit => absurd hzero' (huser hfit),
            fun _ _ hr => by cases hr⟩
        · rw [if_neg hzero', setPage_setPage]
          dsimp only
          rw [if_neg (lt_irrefl 0)]
          refine ⟨_, _, rfl, hx.setPage htoplt hpx _, fun _ => rfl, fun sz' sp' hr' => ?_⟩
          cases hr'
          refine ⟨himagex.congr fun _ => rfl, started (v := n + 1) (p := p) hr hpx hguard (by omega)
            (by omega)
            ?_ ?_⟩
          · refine hplaced.congr fun a hlo hhi => ?_
            rw [setPage_page, setPage_page, Page.write, if_neg (by omega)]
          · intro i hi
            have hoff : (sp.toNat - 4 * (argv.length + 4) + i) % 4096 -
                (sp - frameSize strings).toNat % 4096 =
                i := by
              omega
            rw [setPage_page, Page.write, if_pos (by omega), hoff]

end VirtualMemory

end Xv6Fairness
