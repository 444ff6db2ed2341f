import Mathlib.Data.Fintype.Basic
import Xv6Fairness.AddressSpaces
import Xv6Fairness.ProcessTable
import Xv6Fairness.UserCopies

/-!
# Forking a process

`fork` takes a slot of the process table, a page for the kernel stack, a directory with the kernel
and a page for each page of the parent. Any of these may be the one that the allocator does not
have. Then the pages that were taken are given back and the slot is unused again.
-/

namespace Xv6Fairness

open Outcomes

namespace VirtualMemory

namespace Space

variable (endFrame : ℕ) (pgdir : ℕ → Option PageTable)

/-- One pass of the loop of `copyuvm` over the tables of the parent: whether the page is copied. -/
def copyStep (s : Space) (i : ℕ) : Except Panic (Bool × Space) :=
  let parent : Space := { s with pgdir := pgdir }
  if (parent.walkpgdir i false).1 then
    match parent.pte i with
    | none => .error .notPresent
    | some p => match s.kalloc with
      | (none, s) => .ok (false, s)
      | (some mem, s) => do
        let (r, s) ← (s.memmove mem 0 (s.page p.frame) PGSIZE).mappages
            (UInt32.ofNat i) 4096 mem p.perm
        if r < 0 then do
          let s ← s.kfree endFrame mem
          .ok (false, s)
        else .ok (true, s)
  else .error .shouldExist

def copyLoop (s : Space) (sz i : ℕ) : Except Panic (Bool × Space) :=
  if i < sz then do
    let (copied, s) ← s.copyStep endFrame pgdir i
    if copied then copyLoop s sz (nextPage i) else .ok (false, s)
  else .ok (true, s)
termination_by sz - i
decreasing_by
  have hlt := lt_nextPage i
  omega

def copyuvm (s : Space) (sz data : UInt32) : Except Panic (Option ℕ × Space) := do
  let (d, s) ← s.setupkvm endFrame data
  match d with
  | none => .ok (none, s)
  | some d => do
    let (copied, s) ← s.copyLoop endFrame pgdir sz.toNat 0
    if copied then .ok (some d, s)
    else do
      let s ← s.freevm endFrame d
      .ok (none, s)

end Space

/-- The saved registers that are set in the kernel, and the others. -/
structure Trapframe where
  eax : UInt32
  eip : UInt32
  esp : UInt32
  regs : List UInt32

/-- The page of a directory, 0 for none, and its entries. -/
structure Directory where
  frame : ℕ
  tables : ℕ → Option PageTable

structure Proc where
  sz : UInt32
  pgdir : Directory
  kstack : ℕ
  state : ProcState
  pid : ℤ
  priority : ℤ
  parent : Option (Fin NPROC)
  tf : Trapframe
  ofile : Fin NOFILE → Option ℕ
  cwd : ℕ
  name : List UInt8

/-- The process table, the reference counts of files and inodes, and the memory. -/
structure Machine where
  proc : Fin NPROC → Proc
  nextpid : ℤ
  fileRef : ℕ → ℕ
  inodeRef : ℕ → ℕ
  freelist : List ℕ
  page : ℕ → Page

namespace Machine

variable (endFrame : ℕ) (data : UInt32) (m : Machine)

/-- The address space of a process. -/
def space (k : Fin NPROC) : Space where
  sz := (m.proc k).sz
  pgdir := (m.proc k).pgdir.tables
  freelist := m.freelist
  page := m.page

def setProc (k : Fin NPROC) (p : Proc) : Machine := { m with proc := Function.update m.proc k p }

theorem setProc_self (k : Fin NPROC) (p : Proc) : (m.setProc k p).proc k = p :=
  Function.update_self _ _ _

theorem setProc_of_ne {k l : Fin NPROC} (h : l ≠ k)
    (p : Proc) : (m.setProc k p).proc l = m.proc l :=
  Function.update_of_ne h _ _

def setMemory (s : Space) : Machine := { m with freelist := s.freelist, page := s.page }

def allocproc : Option (Fin NPROC) × Machine :=
  match (List.finRange NPROC).find? fun k => (m.proc k).state = .unused with
  | none => (none, m)
  | some k =>
    let p : Proc := { m.proc k with state := .embryo, pid := m.nextpid, priority := 10 }
    match (m.space k).kalloc with
    | (none, s) =>
      (none, { (m.setMemory s).setProc k { p with kstack := 0, state := .unused } with
        nextpid := succInt m.nextpid })
    | (some kstack, s) =>
      (some k, { (m.setMemory s).setProc k { p with kstack := kstack } with
        nextpid := succInt m.nextpid })

/-- `filedup` and what is done with its result. -/
def dupFile (cur np : Fin NPROC) (m : Machine) (i : Fin NOFILE) : Except Panic Machine :=
  match (m.proc cur).ofile i with
  | none => .ok m
  | some f =>
    if m.fileRef f < 1 then .error .filedup
    else
      let ofile := Function.update (m.proc np).ofile i (some f)
      .ok { m.setProc np { m.proc np with ofile := ofile } with
        fileRef := Function.update m.fileRef f (m.fileRef f + 1) }

def idup (i : ℕ) : Machine := { m with inodeRef := Function.update m.inodeRef i (m.inodeRef i + 1) }

def fork (cur : Fin NPROC) : Except Panic (ℤ × Machine) :=
  match m.allocproc with
  | (none, m) => .ok (-1, m)
  | (some np, m) => do
    let curproc := m.proc cur
    let (d, s) ← (m.space cur).blank.copyuvm endFrame curproc.pgdir.tables curproc.sz data
    match d with
    | none => do
      let s ← s.kfree endFrame (m.proc np).kstack
      .ok (-1, (m.setMemory s).setProc np
        { m.proc np with pgdir := ⟨0, fun _ => none⟩, kstack := 0, state := .unused })
    | some d => do
      let m := (m.setMemory s).setProc np { m.proc np with
        pgdir := ⟨d, s.pgdir⟩, sz := curproc.sz, parent := some cur,
          tf := { curproc.tf with eax := 0 } }
      let m ← (List.finRange NOFILE).foldlM (dupFile cur np) m
      let m := (m.idup curproc.cwd).setProc np
        { m.proc np with cwd := curproc.cwd, name := curproc.name }
      .ok ((m.proc np).pid, m.setProc np { m.proc np with state := .runnable })

end Machine

variable {endFrame : ℕ} {κ : Type*} [DecidableEq κ] {others : κ → ℕ} {s t u : Space}
  {hand f v w : ℕ}

/-- The pages below `v` have been copied and no others are mapped. -/
structure CopiedTo (s : Space) (v : ℕ) (t : Space) : Prop where
  copies : ∀ w < v, ∃ p q, s.pte (PGSIZE * w) = some p ∧ t.pte (PGSIZE * w) = some q ∧
    q.perm = p.perm ∧
    ∀ o < PGSIZE, t.page q.frame o = s.page p.frame o
  beyond : ∀ w < userPages, v ≤ w → t.pte (PGSIZE * w) = none

theorem copyStep_spec (h : Inv endFrame others s hand)
    (hu : Under endFrame (refs others s hand) s f 0 t)
    (hc : CopiedTo s v t) (hv : v < userPages) {p : Pte} (hp : s.pte (PGSIZE * v) = some p) :
    ∃ b u, t.copyStep endFrame s.pgdir (PGSIZE * v) = .ok (b, u) ∧
      Under endFrame (refs others s hand) s f 0 u ∧ (b = true → CopiedTo s (v + 1) u) := by
  have hpte : ∀ a, ({ t with pgdir := s.pgdir } : Space).pte a = s.pte a := fun _ => rfl
  have htable : (s.pgdir (PDX (PGSIZE * v))).isSome := isSome_of_pte hp
  have hwalk : (({ t with pgdir := s.pgdir } : Space).walkpgdir (PGSIZE * v) false).1 = true := by
    rw [Space.walkpgdir, if_pos htable]
  rw [Space.copyStep]
  dsimp only
  rw [if_pos hwalk, hpte, hp]
  dsimp only
  cases hfree : t.freelist with
  | nil =>
      rw [Space.kalloc, hfree]
      exact ⟨false, t, rfl, hu, fun h => by cases h⟩
  | cons mem rest =>
      have hmem := hu.inv.head_ne_zero hfree
      have hnot : ∀ g, g ∉ t.freelist → g ≠ mem := by
        rintro g hg rfl
        refine hg ?_
        rw [hfree]
        exact List.mem_cons_self
      have hparent : t.page p.frame = s.page p.frame := hu.keeps _ (h.frame_not_mem hv hp)
      rw [Space.kalloc, hfree]
      dsimp only
      set t₁ := ({ t with freelist := rest } : Space).memmove mem 0 (t.page p.frame) PGSIZE with ht₁
      have hu₁ : Under endFrame (refs others s hand) s f mem t₁ := hu.take hfree _
      have hnew : ∀ o < PGSIZE, t₁.page mem o = s.page p.frame o := by
        intro o ho
        rw [← hparent]
        refine (congrFun (Function.update_self _ _ _) o).trans ?_
        rw [if_pos ⟨Nat.zero_le o, by omega⟩]
        rfl
      have hold : ∀ w < userPages, ∀ q, t.pte (PGSIZE * w) = some q →
          t₁.page q.frame = t.page q.frame :=
        fun w hw q hq => Function.update_of_ne (hnot _ (hu.inv.frame_not_mem hw hq)) _ _
      obtain ⟨r, u, hrun, ⟨rfl, hu₂, -⟩ | ⟨rfl, hu₂, hmapped, hpte'⟩⟩ :=
        hu₁.mappages hmem hv (hc.beyond v hv le_rfl) p.perm
      · obtain ⟨hkfree, hu₃⟩ := hu₂.kfree hmem
        rw [hrun, ok_bind]
        dsimp only
        rw [if_pos (by decide), hkfree, ok_bind]
        exact ⟨false, _, rfl, hu₃, fun h => by cases h⟩
      · rw [hrun, ok_bind]
        refine ⟨true, u, rfl, hu₂, fun _ => ⟨fun w hw => ?_, fun w hw hvw => ?_⟩⟩
        · by_cases hwv : w = v
          · rw [hwv]
            refine ⟨p, _, hp, hpte', rfl, fun o ho => ?_⟩
            rw [hmapped.page]
            exact hnew o ho
          · obtain ⟨p', q, hp', hq, hperm, hbytes⟩ := hc.copies w (by omega)
            refine ⟨p', q, hp', (hmapped.kept w hwv).trans hq, hperm, fun o ho => ?_⟩
            rw [hmapped.page, hold w (by omega) q hq]
            exact hbytes o ho
        · exact (hmapped.kept w (by omega)).trans (hc.beyond w hw (by omega))

theorem copyLoop_spec (h : Inv endFrame others s hand) {sz : ℕ} (hsz : sz ≤ PGSIZE * userPages)
    (hpresent : ∀ v, PGSIZE * v < sz → (s.pte (PGSIZE * v)).isSome) (n : ℕ) : ∀ (t : Space) (v : ℕ),
    sz ≤ PGSIZE * v + n → (∀ w < v, PGSIZE * w < sz) → Under endFrame (refs others s hand) s f 0 t →
    CopiedTo s v t → ∃ b u, t.copyLoop endFrame s.pgdir sz (PGSIZE * v) = .ok (b, u) ∧
      Under endFrame (refs others s hand) s f 0 u ∧
      (b = true → ∃ w, (∀ x, x < w ↔ PGSIZE * x < sz) ∧ CopiedTo s w u) := by
  induction n using Nat.strong_induction_on with
  | _ n ih =>
      intro t v hn hbelow hu hc
      by_cases hv : PGSIZE * v < sz
      · have hvu : v < userPages := Nat.lt_of_mul_lt_mul_left (hv.trans_le hsz)
        have hmul : PGSIZE * (v + 1) = PGSIZE * v + 4096 := Nat.mul_succ _ _
        obtain ⟨p, hp⟩ := Option.isSome_iff_exists.mp (hpresent v hv)
        obtain ⟨b, u, hrun, hu', hc'⟩ := copyStep_spec h hu hc hvu hp
        rw [Space.copyLoop, if_pos hv, hrun, ok_bind]
        dsimp only
        cases b with
        | false => exact ⟨false, u, rfl, hu', fun h => by cases h⟩
        | true =>
            rw [if_pos rfl, nextPage_page]
            refine ih (n - 4096) (by omega) u (v + 1) (by omega) (fun w hw => ?_) hu' (hc' rfl)
            rcases Nat.lt_succ_iff_lt_or_eq.mp hw with hw | rfl
            · exact hbelow w hw
            · exact hv
      · rw [Space.copyLoop, if_neg hv]
        refine ⟨true, t, rfl, hu, fun _ => ⟨v, fun x => ⟨hbelow x, fun hx => ?_⟩, hc⟩⟩
        by_contra hvx
        have hmul : PGSIZE * v ≤ PGSIZE * x := Nat.mul_le_mul_left _ (not_lt.mp hvx)
        omega

theorem copyuvm_spec (h : Inv endFrame others s hand) {data : UInt32} (hdata : Linked data)
    (hsz : s.sz < KERNBASE)
    (hpresent : ∀ v, PGSIZE * v < s.sz.toNat → (s.pte (PGSIZE * v)).isSome) :
    ∃ d t, s.blank.copyuvm endFrame s.pgdir s.sz data = .ok (d, t) ∧
      ((d = none ∧ t = t.blank ∧ Inv endFrame (refs others s hand) t 0 ∧ Keeps s t) ∨
        ∃ f w, d = some f ∧ Under endFrame (refs others s hand) s f 0 t ∧
          (∀ x, x < w ↔ PGSIZE * x < s.sz.toNat) ∧ CopiedTo s w t) := by
  obtain ⟨d, t, hsetup, hcases⟩ := setupkvm_spec h.blank hdata
  rw [Space.copyuvm, hsetup, ok_bind]
  rcases hcases with ⟨rfl, hblank, hinv, -, hkeeps⟩ | ⟨f, rfl, hunder, hnone⟩
  · exact ⟨none, t, rfl, .inl ⟨rfl, hblank, hinv, hkeeps⟩⟩
  · obtain ⟨b, u, hrun, hu, hcopied⟩ := copyLoop_spec h (UInt32.lt_iff_toNat_lt.mp hsz).le hpresent
      s.sz.toNat t 0 (Nat.le_add_left _ _) (fun w hw => absurd hw (Nat.not_lt_zero w)) hunder
      ⟨fun w hw => absurd hw (Nat.not_lt_zero w), fun w hw _ => hnone w hw⟩
    rw [Nat.mul_zero] at hrun
    dsimp only
    rw [hrun, ok_bind]
    dsimp only
    cases b with
    | true =>
        obtain ⟨w, hw, hc⟩ := hcopied rfl
        exact ⟨some f, u, rfl, .inr ⟨f, w, rfl, hu, hw, hc⟩⟩
    | false =>
        obtain ⟨x, hfreevm, hblank, hinv, -, hkeeps⟩ := hu.freevm
        rw [if_neg Bool.false_ne_true, hfreevm, ok_bind]
        exact ⟨none, x, rfl, .inl ⟨rfl, hblank, hinv, hkeeps⟩⟩

/-- A process whose pages below its size are present, and that holds its open files. -/
structure Forkable (endFrame : ℕ) (others : κ → ℕ) (m : Machine) (cur : Fin NPROC) : Prop where
  used : (m.proc cur).state ≠ .unused
  inv : Inv endFrame others (m.space cur) 0
  size : (m.proc cur).sz < KERNBASE
  present : ∀ v, PGSIZE * v < (m.proc cur).sz.toNat → ((m.space cur).pte (PGSIZE * v)).isSome
  files : ∀ i f, (m.proc cur).ofile i = some f → 1 ≤ m.fileRef f

/-- What a process can see of its memory is as before. -/
structure SameMemory (m : Machine) (cur : Fin NPROC) (t : Machine) : Prop where
  proc : t.proc cur = m.proc cur
  contents : ∀ v < userPages, ∀ p, (m.space cur).pte (PGSIZE * v) = some p →
    t.page p.frame = m.page p.frame

structure Forked (m : Machine) (cur np : Fin NPROC) (t : Machine) : Prop where
  unused : (m.proc np).state = .unused
  runnable : (t.proc np).state = .runnable
  size : (t.proc np).sz = (m.proc cur).sz
  addresses : ∀ v < userPages, ((t.space np).pte (PGSIZE * v)).isSome ↔
    ((m.space cur).pte (PGSIZE * v)).isSome ∧ PGSIZE * v < (m.proc cur).sz.toNat
  copies : ∀ v < userPages, ∀ p q, (m.space cur).pte (PGSIZE * v) = some p →
    (t.space np).pte (PGSIZE * v) = some q →
    q.perm = p.perm ∧ q.frame ∈ m.freelist ∧ ∀ o < PGSIZE, t.page q.frame o = m.page p.frame o
  distinct : ∀ v < userPages, ∀ w < userPages, ∀ p q, (t.space np).pte (PGSIZE * v) = some p →
    (t.space np).pte (PGSIZE * w) = some q → p.frame = q.frame → v = w
  parent : SameMemory m cur t

structure CleanedUp (m : Machine) (cur : Fin NPROC) (t : Machine) : Prop where
  free : ∀ f, f ∈ t.freelist ↔ f ∈ m.freelist
  files : t.fileRef = m.fileRef
  inodes : t.inodeRef = m.inodeRef
  slots : ∀ k, (t.proc k).state = (m.proc k).state
  parent : SameMemory m cur t

section Fork

variable {m t : Machine} {cur np : Fin NPROC} {data : UInt32}

theorem allocproc_cases (m : Machine) :
    (m.allocproc = (none, m)) ∨ ∃ np, (m.proc np).state = .unused ∧
      ((m.freelist = [] ∧ ∃ t, m.allocproc = (none, t) ∧ t.freelist = m.freelist ∧ t.page = m.page ∧
          t.fileRef = m.fileRef ∧ t.inodeRef = m.inodeRef ∧ (t.proc np).state = .unused ∧
          ∀ k, k ≠ np → t.proc k = m.proc k) ∨
        ∃ f rest t, m.freelist = f :: rest ∧ m.allocproc = (some np, t) ∧ t.freelist = rest ∧
          t.page = m.page ∧ t.fileRef = m.fileRef ∧ t.inodeRef = m.inodeRef ∧
          (t.proc np).kstack = f ∧
          (t.proc np).pid = m.nextpid ∧ ∀ k, k ≠ np → t.proc k = m.proc k) := by
  rw [Machine.allocproc]
  cases hfind : (List.finRange NPROC).find? fun k => (m.proc k).state = .unused with
  | none => exact .inl rfl
  | some np =>
      have hunused : (m.proc np).state = .unused := of_decide_eq_true (List.find?_some hfind :)
      have hother : ∀ (p : Proc) (k : Fin NPROC), k ≠ np →
          Function.update m.proc np p k = m.proc k :=
        fun p k hk => Function.update_of_ne hk _ _
      refine .inr ⟨np, hunused, ?_⟩
      dsimp only
      rw [Space.kalloc]
      cases hfree : m.freelist with
      | nil =>
          refine .inl ⟨rfl, ?_⟩
          rw [show (m.space np).freelist = [] from hfree]
          refine ⟨_, rfl, hfree, rfl, rfl, rfl, ?_, hother _⟩
          exact congrArg Proc.state (Function.update_self np _ m.proc)
      | cons f rest =>
          refine .inr ⟨f, rest, ?_⟩
          rw [show (m.space np).freelist = f :: rest from hfree]
          refine ⟨_, rfl, rfl, rfl, rfl, rfl, rfl, ?_, ?_, hother _⟩
          · exact congrArg Proc.kstack (Function.update_self np _ m.proc)
          · exact congrArg Proc.pid (Function.update_self np _ m.proc)

/-- Only the files of the child and the counts change. -/
structure Duped (m : Machine) (cur np : Fin NPROC) (t : Machine) : Prop where
  freelist : t.freelist = m.freelist
  page : t.page = m.page
  cur : t.proc cur = m.proc cur
  child : ∃ ofile, t.proc np = { m.proc np with ofile := ofile }
  refs : ∀ f, m.fileRef f ≤ t.fileRef f

theorem dupFiles_spec (hne : cur ≠ np)
    (hfiles : ∀ i f, (m.proc cur).ofile i = some f → 1 ≤ m.fileRef f) :
    ∃ t, (List.finRange NOFILE).foldlM (Machine.dupFile cur np) m = .ok t ∧ Duped m cur np t := by
  refine (Ends.foldlM_finRange (fun _ t => Duped m cur np t)
    ⟨rfl, rfl, rfl, ⟨(m.proc np).ofile, rfl⟩, fun _ => le_rfl⟩ fun i t ht => ?_).exists_ok
  rw [Machine.dupFile, ht.cur]
  cases hfile : (m.proc cur).ofile i with
  | none => exact .ok ht
  | some f =>
      have href := hfiles i f hfile
      have hle := ht.refs f
      obtain ⟨ofile, hchild⟩ := ht.child
      dsimp only
      rw [if_neg (by omega)]
      refine .ok ⟨ht.freelist, ht.page, ?_, ⟨Function.update (t.proc np).ofile i (some f), ?_⟩,
        fun g => ?_⟩
      · exact (Function.update_of_ne hne _ _).trans ht.cur
      · rw [hchild]
        exact Function.update_self _ _ _
      · have hg := ht.refs g
        dsimp only
        rw [Function.update_apply]
        split_ifs with heq
        · rw [heq] at hg ⊢
          omega
        · exact hg

/-- The address space of the parent with what the allocator has left. -/
def Machine.rest (m : Machine) (cur : Fin NPROC) (l : List ℕ) : Space where
  sz := (m.proc cur).sz
  pgdir := (m.proc cur).pgdir.tables
  freelist := l
  page := m.page

theorem kernelStack_given_back {rest : List ℕ} {kstack : ℕ} (h : Forkable endFrame others m cur)
    (hfree : m.freelist = kstack :: rest) (hblank : u = u.blank)
    (hinv : Inv endFrame (refs others (m.rest cur rest) kstack) u 0)
    (hkeeps : Keeps (m.rest cur rest) u) :
    u.kfree endFrame kstack = .ok (u.release kstack) ∧
      (∀ f, f ∈ (u.release kstack).freelist ↔ f ∈ m.freelist) ∧
      ∀ v < userPages, ∀ p, (m.space cur).pte (PGSIZE * v) = some p →
        (u.release kstack).page p.frame = m.page p.frame := by
  have hstack : Inv endFrame others (m.rest cur rest) kstack := h.inv.kalloc hfree
  have hne := h.inv.head_ne_zero hfree
  rw [hblank] at hinv
  obtain ⟨hkfree, hfinal⟩ := (Inv.unblank hstack.user hstack.table hinv).kfree hne
  have hfreed := h.inv.free_congr hfinal rfl
  refine ⟨kfree_congr hkfree u, hfreed, fun v hv p hp => ?_⟩
  have hnot : p.frame ≠ kstack := by
    rintro heq
    exact hfinal.frame_not_mem hv hp (heq ▸ List.mem_cons_self)
  exact (Function.update_of_ne hnot _ _).trans (hkeeps _ (hstack.frame_not_mem hv hp))

theorem forked {rest : List ℕ} {kstack f w : ℕ} {s : Space} (h : Forkable endFrame others m cur)
    (hfree : m.freelist = kstack :: rest) (hunused : (m.proc np).state = .unused)
    (hu : Under endFrame (refs others (m.rest cur rest) kstack) (m.rest cur rest) f 0 s)
    (hw : ∀ x, x < w ↔ PGSIZE * x < (m.proc cur).sz.toNat) (hc : CopiedTo (m.rest cur rest) w s)
    (hcur : t.proc cur = m.proc cur) (hnp : (t.proc np).state = .runnable)
    (hsz : (t.proc np).sz = (m.proc cur).sz) (hpgdir : (t.proc np).pgdir.tables = s.pgdir)
    (hpage : t.page = s.page) : Forked m cur np t := by
  have hstack : Inv endFrame others (m.rest cur rest) kstack := h.inv.kalloc hfree
  have hparent : ∀ a, (m.rest cur rest).pte a = (m.space cur).pte a := fun _ => rfl
  have hchild : ∀ a, (t.space np).pte a = s.pte a := fun a => by
    rw [Space.pte, Space.pte, Machine.space, hpgdir]
  have hbelow : ∀ v < userPages, ∀ q, s.pte (PGSIZE * v) = some q → v < w := by
    intro v hv q hq
    by_contra hvw
    rw [hc.beyond v hv (not_lt.mp hvw)] at hq
    cases hq
  refine ⟨hunused, hnp, hsz, fun v hv => ?_, fun v hv p q hp hq => ?_,
    fun v hv x hx p q hp hq heq => ?_,
    ⟨hcur, fun v hv p hp => ?_⟩⟩
  · rw [hchild]
    constructor
    · intro hsome
      obtain ⟨q, hq⟩ := Option.isSome_iff_exists.mp hsome
      have hlt := (hw v).mp (hbelow v hv q hq)
      exact ⟨h.present v hlt, hlt⟩
    · rintro ⟨-, hlt⟩
      obtain ⟨-, q, -, hq, -, -⟩ := hc.copies v ((hw v).mpr hlt)
      rw [hq]
      rfl
  · rw [hchild] at hq
    obtain ⟨p', q', hp', hq', hperm, hbytes⟩ := hc.copies v (hbelow v hv q hq)
    rw [hparent, hp] at hp'
    rw [hq] at hq'
    cases hp'
    cases hq'
    refine ⟨hperm, ?_, fun o ho => ?_⟩
    · rw [hfree]
      exact List.mem_cons_of_mem _ (hu.user_fresh hv hq)
    · rw [hpage]
      exact hbytes o ho
  · rw [hchild] at hp hq
    have hpref := @refs_user _ (withDir f (refs others (m.rest cur rest) kstack)) s 0 v p hv hp
    have hqref := @refs_user _ (withDir f (refs others (m.rest cur rest) kstack)) s 0 x q hx hq
    have hne := hu.inv.user v hv p hp
    have hslots := hu.inv.owns.unique (.user v) (.user x) (hpref ▸ hne)
        (hpref.trans (heq.trans hqref.symm))
    exact Slot.user.inj hslots
  · rw [hpage]
    exact hu.keeps _ (hstack.frame_not_mem hv hp)

/-- `fork` copies the parent, or it gives back all that it took. -/
theorem fork_copies_or_cleans_up (h : Forkable endFrame others m cur) (hdata : Linked data) :
    ∃ r t, m.fork endFrame data cur = .ok (r, t) ∧
      ((r = -1 ∧ CleanedUp m cur t) ∨ ∃ np, r = m.nextpid ∧ Forked m cur np t) := by
  rw [Machine.fork]
  rcases allocproc_cases m with halloc | ⟨np, hunused,
    ⟨hnil, t, halloc, hlist, hpage, hfiles, hinodes,
    hnp, hprocs⟩ | ⟨kstack, rest, m₁, hfree, halloc, hlist, hpage, hfiles, hinodes, hstack,
      hpid, hprocs⟩⟩
  · rw [halloc]
    exact ⟨-1, m, rfl, .inl ⟨rfl, fun _ => Iff.rfl, rfl, rfl, fun _ => rfl, rfl,
      fun _ _ _ _ => rfl⟩⟩
  · have hne : cur ≠ np := fun heq => h.used (heq ▸ hunused)
    rw [halloc]
    refine ⟨-1, t, rfl, .inl ⟨rfl, fun f => by rw [hlist], hfiles, hinodes, fun k => ?_,
      hprocs cur hne, fun _ _ _ _ => by rw [hpage]⟩⟩
    by_cases hk : k = np
    · rw [hk, hnp, hunused]
    · rw [hprocs k hk]
  · have hne : cur ≠ np := fun heq => h.used (heq ▸ hunused)
    have hcur := hprocs cur hne
    have hspace : m₁.space cur = m.rest cur rest := by
      rw [Machine.space, Machine.rest, hcur, hlist, hpage]
    have hinv : Inv endFrame others (m.rest cur rest) kstack := h.inv.kalloc hfree
    obtain ⟨d, s, hcopy, ⟨rfl, hblank, hinvs, hkeeps⟩ | ⟨f, w, rfl, hu, hw, hc⟩⟩ :=
      copyuvm_spec hinv hdata h.size h.present
    · obtain ⟨hkfree, hfreed, hsame⟩ := kernelStack_given_back h hfree hblank hinvs hkeeps
      have hrun : (m₁.space cur).blank.copyuvm endFrame (m₁.proc cur).pgdir.tables
          (m₁.proc cur).sz data =
          .ok (none, s) := by
        rw [hspace, hcur]
        exact hcopy
      rw [halloc]
      dsimp only
      rw [hrun, ok_bind]
      dsimp only
      rw [hstack, hkfree, ok_bind]
      refine ⟨-1, _, rfl, .inl ⟨rfl, hfreed, hfiles, hinodes, fun k => ?_, ?_, hsame⟩⟩
      · change (Function.update m₁.proc np _ k).state = _
        by_cases hk : k = np
        · rw [hk, Function.update_self, hunused]
        · rw [Function.update_of_ne hk, hprocs k hk]
      · exact (Function.update_of_ne hne _ _).trans hcur
    · have hrun : (m₁.space cur).blank.copyuvm endFrame (m₁.proc cur).pgdir.tables
        (m₁.proc cur).sz data =
          .ok (some f, s) := by
        rw [hspace, hcur]
        exact hcopy
      rw [halloc]
      dsimp only
      rw [hrun, ok_bind]
      dsimp only
      obtain ⟨m₂, hm₂⟩ : ∃ m₂, m₂ = (m₁.setMemory s).setProc np { m₁.proc np with
          pgdir := ⟨f, s.pgdir⟩, sz := (m₁.proc cur).sz, parent := some cur,
          tf := { (m₁.proc cur).tf with eax := 0 } } := ⟨_, rfl⟩
      rw [← hm₂]
      have hcur₂ : m₂.proc cur = m.proc cur := by
        rw [hm₂]
        exact (Function.update_of_ne hne _ _).trans hcur
      have hnp₂ : m₂.proc np = { m₁.proc np with
          pgdir := ⟨f, s.pgdir⟩, sz := (m₁.proc cur).sz, parent := some cur,
          tf := { (m₁.proc cur).tf with eax := 0 } } := by
        rw [hm₂]
        exact Function.update_self _ _ _
      have hrefs₂ : m₂.fileRef = m.fileRef := by
        rw [hm₂]
        exact hfiles
      obtain ⟨m₃, hdup, hd⟩ := dupFiles_spec (m := m₂) hne fun i g hg => by
        rw [hcur₂] at hg
        rw [hrefs₂]
        exact h.files i g hg
      obtain ⟨ofile, hchild⟩ := hd.child
      rw [hdup, ok_bind]
      refine ⟨_, _, rfl, .inr ⟨np, ?_, forked h hfree hunused hu hw hc ?_ ?_ ?_ ?_ ?_⟩⟩
      · rw [Machine.setProc_self, hchild, hnp₂]
        exact hpid
      · rw [Machine.setProc_of_ne _ hne, Machine.setProc_of_ne _ hne]
        exact hd.cur.trans hcur₂
      · rw [Machine.setProc_self]
      · rw [Machine.setProc_self, Machine.setProc_self, hchild, hnp₂, hcur]
      · rw [Machine.setProc_self, Machine.setProc_self, hchild, hnp₂]
      · exact hd.page.trans (congrArg Machine.page hm₂)

end Fork

def initSlot : Fin NPROC := ⟨0, by rw [NPROC]; decide⟩

/-- A process with one page beside unused slots and free pages. -/
def oneProcess : Machine where
  proc k :=
    { sz := 4096
      pgdir := ⟨3, onePage.pgdir⟩
      kstack := 4
      state := if k = initSlot then .running else .unused
      pid := 1
      priority := 10
      parent := none
      tf := ⟨0, 0, 4096, []⟩
      ofile := fun i => if i.val < 3 then some 0 else none
      cwd := 1
      name := [] }
  nextpid := 2
  fileRef f := if f = 0 then 3 else 0
  inodeRef i := if i = 1 then 2 else 0
  freelist := roomy.freelist
  page := onePage.page

theorem oneProcess_forkable : Forkable 1 (withDir 3 beyond) oneProcess initSlot := by
  refine ⟨?_, roomy_inv, by decide, fun v hv => ?_, fun i f hf => ?_⟩
  · change (if initSlot = initSlot then ProcState.running else .unused) ≠ .unused
    rw [if_pos rfl]
    decide
  · refine (onePage_sound.mapped v ?_).mpr hv
    have hsmall : PGSIZE * v < 4096 := hv
    change v < 524288
    change 4096 * v < 4096 at hsmall
    omega
  · change (if i.val < 3 then some 0 else none) = some f at hf
    split_ifs at hf
    cases hf
    decide

theorem fork_one_process : ∃ r t, oneProcess.fork 1 0x80108000 initSlot = .ok (r, t) ∧
    ((r = -1 ∧ CleanedUp oneProcess initSlot t) ∨
      ∃ np, r = oneProcess.nextpid ∧ Forked oneProcess initSlot np t) :=
  fork_copies_or_cleans_up oneProcess_forkable ⟨by decide, by decide, by decide⟩

end VirtualMemory

end Xv6Fairness
