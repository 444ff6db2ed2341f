import Mathlib.Order.Interval.Finset.Nat
import Xv6Fairness.MemoryIsolation

/-!
# The memory at boot

Before the first process runs, `main` frees the pages behind the kernel, makes the page directory of
the kernel and the cpuStacks of the other CPUs, frees the rest of the memory, and makes the first
process. Every page behind the kernel is free then or has one use, and this is where the runs of the
kernel begin.
-/

namespace Xv6Fairness

open Ownership TransitionRuns
open VirtualMemory (PDX PTX PGSIZE PGROUNDUP PHYSTOP NPTENTRIES P2V V2P Space Panic Linked Inv
  Under PageTable stopFrame userPages userPerm nextPage lt_nextPage initSlot withDir)

namespace BootMemory

inductive Halt
  | panic (p : Panic)
  | outOfMemory   -- `userinit: out of memory?`
  | fault         -- a page at 0 is used

def panics {α : Type} : Except Panic α → Except Halt α
  | .error p => .error (.panic p)
  | .ok a => .ok a

theorem ok_of_panics {α : Type} {x : Except Panic α} {a : α}
    (h : panics x = .ok a) : x = .ok a := by
  cases x with
  | error p => cases h
  | ok b =>
    cases h
    rfl

section Code

variable (endFrame : ℕ)

/-- The loop of `freerange`, whose addresses do not wrap below `P2V(PHYSTOP)`. -/
def freeLoop (vend a : ℕ) (s : Space) : Except Panic Space :=
  if nextPage a ≤ vend then
    match s.kfree endFrame ((V2P (UInt32.ofNat a)).toNat / PGSIZE) with
    | .error p => .error p
    | .ok s => freeLoop vend (nextPage a) s
  else .ok s
termination_by vend - a
decreasing_by
  have hgo : nextPage a ≤ vend := ‹_›
  exact Nat.sub_lt_sub_left ((lt_nextPage a).trans_le hgo) (lt_nextPage a)

def freerange (vstart vend : UInt32) (s : Space) : Except Panic Space :=
  freeLoop endFrame vend.toNat (PGROUNDUP vstart).toNat s

/-- `switchkvm` would load the page directory 0. -/
def kvmalloc (data : UInt32) (s : Space) : Except Halt (ℕ × Space) := do
  match ← panics (s.blank.setupkvm endFrame data) with
  | (none, _) => .error .fault
  | (some kpgdir, s) => .ok (kpgdir, s)

/-- A stack for each of the other CPUs. The result of `kalloc` is not looked at. -/
def startothers : ℕ → Space → Except Halt (List ℕ × Space)
  | 0, s => .ok ([], s)
  | n + 1, s =>
    match s.kalloc with
    | (none, _) => .error .fault
    | (some stack, s) => do
      let (cpuStacks, s) ← startothers n s
      .ok (stack :: cpuStacks, s)

/-- The tables of the first process, which have 1024 entries. -/
def tables (s : Space) : SharedMemory.Pgdir where
  tables i := (s.pgdir i).map fun t => ⟨t.frame, fun k => if k < NPTENTRIES then t.pte k else none⟩
  live := true

/-- What is in memory when the first process has been made. -/
def firstProcess (kstack pgdir : ℕ) (s : Space) : SharedMemory.Memory where
  freelist := s.freelist
  pgdir d := if d = pgdir then some (tables s) else none
  pipe _ := none
  file _ := ⟨0, none⟩
  proc k := if k = initSlot then ⟨.runnable, kstack, pgdir, 4096, 1, none, false, fun _ => none⟩
    else ⟨.unused, 0, 0, 0, 0, none, false, fun _ => none⟩
  nextpid := 2
  lock := none

/-- The results of `kalloc` and `mappages` are not looked at. -/
def inituvm (s : Space) : Except Halt Space :=
  match s.kalloc with
  | (none, _) => .error .fault
  | (some mem, s) => do
    let (_, s) ← panics ((s.memset mem 0).mappages 0 4096 mem userPerm)
    .ok s

/-- `allocproc` finds the first entry of the process table, and its result is not looked at. -/
def userinit (data : UInt32) (s : Space) : Except Halt SharedMemory.Memory :=
  match s.kalloc with
  | (none, _) => .error .fault
  | (some kstack, s) => do
    match ← panics (s.blank.setupkvm endFrame data) with
    | (none, _) => .error .outOfMemory
    | (some pgdir, s) =>
      let s ← inituvm s
      .ok (firstProcess kstack pgdir s)

end Code

/-- The first page behind the kernel, which ends at `kend`. -/
def firstFrame (kend : UInt32) : ℕ := (V2P (PGROUNDUP kend)).toNat / PGSIZE

/-- What the kernel has made before the first process runs. -/
structure Boot where
  system : SharedMemory.System
  kpgdir : ℕ
  ktables : ℕ → Option PageTable
  cpuStacks : List ℕ

/-- What `main` does with the memory, from where the boot loader leaves it. -/
def main (ncpu : ℕ) (kend data : UInt32) (s : Space) : Except Halt Boot := do
  let s ← panics (freerange (firstFrame kend) kend (P2V 0x400000) s)   -- kinit1
  let (kpgdir, s) ← kvmalloc (firstFrame kend) data s
  let ktables := s.pgdir
  let (cpuStacks, s) ← startothers (ncpu - 1) s
  let s ← panics (freerange (firstFrame kend) (P2V 0x400000) (P2V PHYSTOP) s)   -- kinit2
  let m ← userinit (firstFrame kend) data s
  .ok ⟨⟨m, fun _ => none⟩, kpgdir, ktables, cpuStacks⟩

variable {endFrame lo hi : ℕ} {s t : Space} {data : UInt32} {f : ℕ}

structure Free (endFrame hi : ℕ) (s : Space) : Prop where
  nodup : s.freelist.Nodup
  range : ∀ f ∈ s.freelist, endFrame ≤ f ∧ f < hi

/-- Everything else is in use for something. -/
def taken (endFrame : ℕ) (s : Space) (f : ℕ) : ℕ :=
  if endFrame ≤ f ∧ f < stopFrame ∧ f ∉ s.freelist then f else 0

theorem Free.inv (h : Free endFrame hi s) (hpos : 0 < endFrame) (hhi : hi ≤ stopFrame) :
    Inv endFrame (taken endFrame s) s.blank 0 := by
  have hlt : ∀ f ∈ s.freelist, f < stopFrame := fun f hf => (h.range f hf).2.trans_le hhi
  refine VirtualMemory.Inv.of_owns h.nodup hlt ⟨hpos, fun f hf => ?_, fun k hk => ?_,
    fun k l hk hkl => ?_⟩
  · constructor
    · intro hused
      by_cases hlow : f < endFrame
      · exact .inl hlow
      · exact .inr ⟨.other f, if_pos ⟨not_lt.mp hlow, hf, hused⟩⟩
    · rintro (hlow | ⟨k, rfl⟩) hfree
      · exact absurd (h.range f hfree).1 (not_le.mpr hlow)
      · rw [VirtualMemory.refs_blank] at hfree
        cases k with
        | other k =>
          simp only [taken] at hfree
          split_ifs at hfree with hk
          · exact hk.2.2 hfree
          · exact absurd (h.range 0 hfree).1 (not_le.mpr hpos)
        | _ => exact absurd (h.range 0 hfree).1 (not_le.mpr hpos)
  · rw [VirtualMemory.refs_blank] at hk ⊢
    cases k with
    | other k =>
      simp only [taken] at hk ⊢
      split_ifs at hk ⊢ with hin
      · exact ⟨hin.1, hin.2.1⟩
      · exact absurd rfl hk
    | _ => exact absurd rfl hk
  · rw [VirtualMemory.refs_blank] at hk
    rw [VirtualMemory.refs_blank, VirtualMemory.refs_blank] at hkl
    cases k with
    | other k =>
      cases l with
      | other l =>
        simp only [taken] at hk hkl
        split_ifs at hk hkl with hin hin'
        · rw [hkl]
        · exact absurd hkl hk
        · exact absurd rfl hk
        · exact absurd rfl hk
      | _ => exact absurd hkl hk
    | _ => exact absurd rfl hk

theorem Free.of_subset (h : Free endFrame hi s) (hnodup : t.freelist.Nodup)
    (hsub : ∀ f ∈ t.freelist, f ∈ s.freelist) : Free endFrame hi t :=
  ⟨hnodup, fun f hf => h.range f (hsub f hf)⟩

theorem frame_of_page {f : ℕ} (h : f < stopFrame) :
    (V2P (UInt32.ofNat (KERNBASE.toNat + PGSIZE * f))).toNat / PGSIZE = f := by
  have hlt : f < 0xE000 := h
  rw [V2P, UInt32.toNat_sub, UInt32.toNat_ofNat']
  change (2 ^ 32 - 0x80000000 + (0x80000000 + 4096 * f) % 2 ^ 32) % 2 ^ 32 / 4096 = f
  omega

theorem freeLoop_spec {n lo hi : ℕ} (h : Free endFrame lo s) (hlo : endFrame ≤ lo)
    (hn : lo + n = hi)
    (hhi : hi ≤ stopFrame) :
    ∃ t, freeLoop endFrame (KERNBASE.toNat + PGSIZE * hi) (KERNBASE.toNat + PGSIZE * lo) s = .ok t ∧
      Free endFrame hi t ∧ ∀ f, f ∈ t.freelist ↔ f ∈ s.freelist ∨ lo ≤ f ∧ f < hi := by
  induction n generalizing lo s with
  | zero =>
    obtain rfl : lo = hi := hn
    refine ⟨s, ?_, h, fun f => ⟨.inl, ?_⟩⟩
    · rw [freeLoop, if_neg (not_le.mpr (lt_nextPage _))]
    · rintro (hf | hf)
      · exact hf
      · omega
  | succ n ih =>
    have hlt : lo < stopFrame := by omega
    have hnext : nextPage (KERNBASE.toNat + PGSIZE * lo) = KERNBASE.toNat + PGSIZE * (lo + 1) := by
      rw [Nat.mul_succ, nextPage, Nat.add_assoc]
    have hgo : nextPage (KERNBASE.toNat + PGSIZE * lo) ≤ KERNBASE.toNat + PGSIZE * hi := by
      rw [hnext]
      exact Nat.add_le_add_left (Nat.mul_le_mul_left _ (by omega)) _
    have hfree : s.kfree endFrame lo = .ok (s.release lo) := if_neg (by omega)
    have hfreed : Free endFrame (lo + 1) (s.release lo) := by
      refine ⟨List.nodup_cons.mpr ⟨fun hmem => lt_irrefl _ (h.range lo hmem).2, h.nodup⟩,
        fun f hf => ?_⟩
      rcases List.mem_cons.mp hf with rfl | hf
      · omega
      · have hrange := h.range f hf
        omega
    obtain ⟨t, hloop, ht, hmem⟩ := ih hfreed (by omega) (by omega)
    refine ⟨t, ?_, ht, fun f => (hmem f).trans ?_⟩
    · rw [freeLoop, if_pos hgo, frame_of_page hlt, hfree, hnext]
      exact hloop
    · have hcons : f ∈ (s.release lo).freelist ↔ f = lo ∨ f ∈ s.freelist := List.mem_cons
      rw [hcons]
      by_cases hf : f ∈ s.freelist
      · simp [hf]
      · simp only [hf, or_false, false_or]
        omega

/-- A slot of the directory under construction, not of what was there before. -/
def Own : VirtualMemory.Slot (Option ℕ) → Prop
  | .other (some _) => False
  | _ => True

theorem mem_of_own (h : Inv endFrame (withDir f (taken endFrame s)) t 0)
    {k : VirtualMemory.Slot (Option ℕ)}
    (hk : Own k) (hne : VirtualMemory.refs (withDir f (taken endFrame s)) t 0 k ≠ 0) :
    VirtualMemory.refs (withDir f (taken endFrame s)) t 0 k ∈ s.freelist := by
  by_contra hnot
  obtain ⟨hlo, hhi⟩ := h.owns.range k hne
  have htaken : VirtualMemory.refs (withDir f (taken endFrame s)) t 0 k =
      VirtualMemory.refs (withDir f (taken endFrame s)) t 0
        (.other (some (VirtualMemory.refs (withDir f (taken endFrame s)) t 0 k))) :=
    (if_pos ⟨hlo, hhi, hnot⟩ : taken endFrame s _ = _).symm
  rw [h.owns.unique _ _ hne htaken] at hk
  exact hk

theorem exists_own (h : Inv endFrame (withDir g (taken endFrame s)) t 0) (hs : Free endFrame hi s)
    (hhi : hi ≤ stopFrame) (hf : f ∈ s.freelist) (hnot : f ∉ t.freelist) :
    ∃ k, Own k ∧ VirtualMemory.refs (withDir g (taken endFrame s)) t 0 k = f ∧ f ≠ 0 := by
  have hrange := hs.range f hf
  have hpos := h.owns.pos
  rcases (h.owns.used_iff f (hrange.2.trans_le hhi)).mp hnot with hlow | ⟨k, hk⟩
  · exact absurd hrange.1 (not_le.mpr hlow)
  · refine ⟨k, ?_, hk, by omega⟩
    cases k with
    | other k =>
      cases k with
      | none => trivial
      | some k =>
        change taken endFrame s k = f at hk
        rw [taken] at hk
        split_ifs at hk with hin
        · exact hin.2.2 (hk ▸ hf)
        · omega
    | _ => trivial

inductive BootUse
  | kpgdir
  | ktable (i : ℕ)
  | stack (i : ℕ)   -- of another CPU
  | process (u : SharedMemory.Use)

def Boot.page (b : Boot) : BootUse → Option ℕ
  | .kpgdir => some b.kpgdir
  | .ktable i => (b.ktables i).map PageTable.frame
  | .stack i => b.cpuStacks[i]?
  | .process u => b.system.memory.page u

/-- The page directory of the kernel. -/
def kernelPages (kpgdir : ℕ) (ktables : ℕ → Option PageTable) : BootUse → Option ℕ
  | .kpgdir => some kpgdir
  | .ktable i => (ktables i).map PageTable.frame
  | _ => none

/-- The page directory of the kernel and the cpuStacks of the other CPUs. -/
def cpuPages (kpgdir : ℕ) (ktables : ℕ → Option PageTable) (cpuStacks : List ℕ) : BootUse → Option ℕ
  | .stack i => cpuStacks[i]?
  | u => kernelPages kpgdir ktables u

theorem kvmalloc_spec (h : Free endFrame hi s) (hpos : 0 < endFrame) (hhi : hi ≤ stopFrame)
    (hfree : Accounted endFrame hi s.freelist fun _ : BootUse => none) (hdata : Linked data)
    (hlength : 65 < s.freelist.length) :
    ∃ kpgdir t, kvmalloc endFrame data s = .ok (kpgdir, t) ∧
      Accounted endFrame hi t.freelist (kernelPages kpgdir t.pgdir) ∧
      s.freelist.length ≤ t.freelist.length + 65 := by
  obtain ⟨kpgdir, t, hrun, hunder, hlow, hleft⟩ :=
    VirtualMemory.setupkvm_some (h.inv hpos hhi) hdata hlength
  have hinv := hunder.inv
  have hslot : ∀ u f, kernelPages kpgdir t.pgdir u = some f → ∃ k, Own k ∧
      VirtualMemory.refs (withDir kpgdir (taken endFrame s)) t 0 k = f ∧ f ≠ 0 ∧
      u = match k with
        | .table i => .ktable i
        | _ => .kpgdir := by
    intro u f hu
    cases u with
    | kpgdir =>
      cases hu
      exact ⟨.other none, trivial, rfl, hunder.dir, rfl⟩
    | ktable i =>
      obtain ⟨x, hx, rfl⟩ := Option.map_eq_some_iff.mp hu
      refine ⟨.table i, trivial, ?_, hinv.table i x hx, rfl⟩
      change ((t.pgdir i).map PageTable.frame).getD 0 = x.frame
      rw [hx]
      rfl
    | _ => cases hu
  refine ⟨kpgdir, t, ?_, hfree.take hinv.nodup hunder.free_subset (fun _ _ hu => by cases hu)
    (fun u f hu => .inr ?_) (fun u u' f _ hu hu' => ?_) (fun f hf hnot => ?_), hleft⟩
  · rw [kvmalloc, hrun]
    rfl
  · obtain ⟨k, hk, rfl, hne, -⟩ := hslot u f hu
    exact ⟨mem_of_own hinv hk hne, hinv.owns.used_refs hne⟩
  · obtain ⟨k, -, hk, hne, rfl⟩ := hslot u f hu
    obtain ⟨k', -, hk', -, rfl⟩ := hslot u' f hu'
    rw [hinv.owns.unique k k' (hk ▸ hne) (hk.trans hk'.symm)]
  · obtain ⟨k, hk, href, hne⟩ := exists_own hinv h hhi hf hnot
    cases k with
    | user v =>
      have hpte : t.pte (PGSIZE * v) = none ∨ ¬ v < userPages := by
        by_cases hv : v < userPages
        · refine .inl ?_
          rw [Space.pte, hlow _ (by rw [VirtualMemory.PDX_page]; exact Nat.div_lt_of_lt_mul hv)]
          rfl
        · exact .inr hv
      rw [VirtualMemory.refs] at href
      rcases hpte with hpte | hv
      · rw [hpte] at href
        exact absurd (href.symm.trans (ite_self 0)) hne
      · rw [if_neg hv] at href
        exact absurd href.symm hne
    | table i =>
      rw [VirtualMemory.refs] at href
      cases hx : t.pgdir i with
      | none =>
        rw [hx] at href
        exact absurd href.symm hne
      | some x =>
        rw [hx] at href
        refine ⟨.ktable i, ?_⟩
        rw [kernelPages, hx]
        exact congrArg some href
    | hand => exact absurd href.symm hne
    | other k =>
      cases k with
      | none => exact ⟨.kpgdir, congrArg some href⟩
      | some k => exact absurd hk id

theorem startothers_spec (n : ℕ) : ∀ {s : Space}, n ≤ s.freelist.length →
    ∃ cpuStacks t, startothers n s = .ok (cpuStacks, t) ∧ s.freelist = cpuStacks ++ t.freelist ∧
      cpuStacks.length = n := by
  induction n with
  | zero =>
    intro s _
    exact ⟨[], s, rfl, rfl, rfl⟩
  | succ n ih =>
    intro s hlength
    cases hfree : s.freelist with
    | nil =>
      rw [hfree] at hlength
      exact absurd hlength (Nat.not_succ_le_zero n)
    | cons stack rest =>
      rw [hfree, List.length_cons] at hlength
      obtain ⟨cpuStacks, t, hrun, happend, hn⟩ := ih (s := { s with freelist := rest })
        (Nat.le_of_succ_le_succ hlength)
      refine ⟨stack :: cpuStacks, t, ?_, congrArg (stack :: ·) happend, congrArg (· + 1) hn⟩
      rw [startothers, Space.kalloc, hfree]
      dsimp only
      rw [hrun]
      rfl

theorem stacks_accounted {kpgdir : ℕ} {ktables : ℕ → Option PageTable}
    {cpuStacks free free' : List ℕ}
    (h : Accounted endFrame hi free (kernelPages kpgdir ktables))
    (hfree : free = cpuStacks ++ free') :
    Accounted endFrame hi free' (cpuPages kpgdir ktables cpuStacks) := by
  have hnodup : (cpuStacks ++ free').Nodup := hfree ▸ h.nodup
  have hdisjoint := List.nodup_append.mp hnodup
  have hmem : ∀ f, f ∈ free ↔ f ∈ cpuStacks ∨ f ∈ free' := fun f => by rw [hfree, List.mem_append]
  have hcases : ∀ u f, cpuPages kpgdir ktables cpuStacks u = some f →
      kernelPages kpgdir ktables u = some f ∨ ∃ i, u = .stack i ∧ cpuStacks[i]? = some f := by
    intro u f hu
    cases u with
    | stack i => exact .inr ⟨i, rfl, hu⟩
    | _ => exact .inl hu
  have hstack : ∀ u f, f ∈ free → cpuPages kpgdir ktables cpuStacks u = some f →
      ∃ i, u = .stack i ∧ cpuStacks[i]? = some f := fun u f hf hu =>
    (hcases u f hu).resolve_left fun hold => (h.held_range u f hold).2.2 hf
  refine h.take hdisjoint.2.1 (fun f hf => (hmem f).mpr (.inr hf)) (fun u f hu => ?_)
    (fun u f hu => ?_)
    (fun u u' f hf hu hu' => ?_) (fun f hf hnot => ?_)
  · cases u with
    | stack i => cases hu
    | _ => exact hu
  · rcases hcases u f hu with hold | ⟨i, -, hi⟩
    · exact .inl hold
    · have hf := List.mem_of_getElem? hi
      exact .inr ⟨(hmem f).mpr (.inl hf), fun hf' => hdisjoint.2.2 f hf f hf' rfl⟩
  · obtain ⟨i, rfl, hiu⟩ := hstack u f hf hu
    obtain ⟨j, rfl, hju⟩ := hstack u' f hf hu'
    obtain ⟨hi, hiu⟩ := List.getElem?_eq_some_iff.mp hiu
    obtain ⟨hj, hju⟩ := List.getElem?_eq_some_iff.mp hju
    rw [(hdisjoint.1.getElem_inj_iff).mp (hiu.trans hju.symm)]
  · obtain ⟨i, hi, hget⟩ := List.mem_iff_getElem.mp (((hmem f).mp hf).resolve_right hnot)
    exact ⟨.stack i, List.getElem?_eq_some_iff.mpr ⟨hi, hget⟩⟩

open SharedMemory (Use)

variable {kstack pgdir : ℕ}

/-- The slot that names the page of a use. -/
def slot (kstack : ℕ) : Use → VirtualMemory.Slot (Option ℕ)
  | .user _ i k => .user (NPTENTRIES * i + k)
  | .table _ i => .table i
  | .pgdir _ => .other none
  | .kstack _ => .other (some kstack)
  | .pipe _ => .hand

/-- The use of the first process that a slot is for. -/
def use (pgdir : ℕ) : VirtualMemory.Slot (Option ℕ) → Use
  | .user v => .user pgdir (v / NPTENTRIES) (v % NPTENTRIES)
  | .table i => .table pgdir i
  | .other none => .pgdir pgdir
  | .other (some _) => .kstack initSlot
  | .hand => .pipe 0

theorem page_user {d i k : ℕ} (h : (firstProcess kstack pgdir s).page (.user d i k) = some f) :
    d = pgdir ∧ i < SharedMemory.userTables ∧ k < NPTENTRIES ∧
      ∃ q, s.pte (PGSIZE * (NPTENTRIES * i + k)) = some q ∧ q.frame = f := by
  simp only [SharedMemory.Memory.page] at h
  split_ifs at h with hi
  obtain ⟨c, hc, hq⟩ := Option.bind_eq_some_iff.mp h
  simp only [firstProcess] at hc
  split_ifs at hc with hd
  cases hc
  obtain ⟨q, hentry, hframe⟩ := Option.map_eq_some_iff.mp hq
  obtain ⟨x, hx, hpte⟩ := Option.bind_eq_some_iff.mp hentry
  obtain ⟨t, ht, rfl⟩ := Option.map_eq_some_iff.mp hx
  dsimp only at hpte
  split_ifs at hpte with hk
  refine ⟨hd, hi, hk, q, ?_, hframe⟩
  have hk' : k < 1024 := hk
  have hPDX : PDX (PGSIZE * (NPTENTRIES * i + k)) = i := by
    rw [VirtualMemory.PDX_page]
    change (1024 * i + k) / 1024 = i
    omega
  have hPTX : PTX (PGSIZE * (NPTENTRIES * i + k)) = k := by
    rw [VirtualMemory.PTX_page]
    change (1024 * i + k) % 1024 = k
    omega
  rw [Space.pte, hPDX, hPTX, ht]
  exact hpte

theorem page_slot {others : ℕ → ℕ} {hand : ℕ} (h : Inv endFrame (withDir pgdir others) s hand)
    (hpgdir : pgdir ≠ 0) (hkstack : kstack ≠ 0) (hothers : others kstack = kstack) {u : Use}
    (hu : (firstProcess kstack pgdir s).page u = some f) :
    u = use pgdir (slot kstack u) ∧ f ≠ 0 ∧
      VirtualMemory.refs (withDir pgdir others) s hand (slot kstack u) = f := by
  cases u with
  | user d i k =>
    obtain ⟨rfl, hi, hk, q, hq, rfl⟩ := page_user hu
    have hi' : i < 512 := hi
    have hk' : k < 1024 := hk
    have hv : NPTENTRIES * i + k < userPages := by
      change 1024 * i + k < 0x80000
      omega
    have hdiv : (NPTENTRIES * i + k) / NPTENTRIES = i := by
      change (1024 * i + k) / 1024 = i
      omega
    have hmod : (NPTENTRIES * i + k) % NPTENTRIES = k := by
      change (1024 * i + k) % 1024 = k
      omega
    exact ⟨by rw [slot, use, hdiv, hmod], h.user _ hv q hq, VirtualMemory.refs_user hv hq⟩
  | table d i =>
    simp only [SharedMemory.Memory.page] at hu
    obtain ⟨c, hc, hframe⟩ := Option.bind_eq_some_iff.mp hu
    simp only [firstProcess] at hc
    split_ifs at hc with hd
    cases hc
    obtain ⟨x, hx, rfl⟩ := Option.map_eq_some_iff.mp hframe
    obtain ⟨t, ht, rfl⟩ := Option.map_eq_some_iff.mp hx
    refine ⟨by rw [slot, use, hd], h.table i t ht, ?_⟩
    rw [slot, VirtualMemory.refs, ht]
    rfl
  | pgdir d =>
    simp only [SharedMemory.Memory.page] at hu
    obtain ⟨c, hc, rfl⟩ := Option.map_eq_some_iff.mp hu
    simp only [firstProcess] at hc
    split_ifs at hc with hd
    subst hd
    exact ⟨rfl, hpgdir, rfl⟩
  | kstack k =>
    simp only [SharedMemory.Memory.page, firstProcess] at hu
    by_cases hk : k = initSlot
    · subst hk
      simp only [if_true, if_neg hkstack, Option.some.injEq] at hu
      subst hu
      exact ⟨rfl, hkstack, hothers⟩
    · simp [hk] at hu
  | pipe g => cases hu

theorem page_of_own {others : ℕ → ℕ} {k : VirtualMemory.Slot (Option ℕ)} (hk : Own k)
    (href : VirtualMemory.refs (withDir pgdir others) s 0 k = f) (hne : f ≠ 0) :
    (firstProcess kstack pgdir s).page (use pgdir k) = some f := by
  have hdir : (firstProcess kstack pgdir s).pgdir pgdir = some (tables s) := if_pos rfl
  cases k with
  | user v =>
    rw [VirtualMemory.refs] at href
    split_ifs at href with hv
    · cases hpte : s.pte (PGSIZE * v) with
      | none =>
        rw [hpte] at href
        exact absurd href.symm hne
      | some q =>
        rw [hpte] at href
        have hframe : q.frame = f := href
        obtain ⟨t, ht, hq⟩ := Option.bind_eq_some_iff.mp hpte
        rw [VirtualMemory.PDX_page] at ht
        rw [VirtualMemory.PTX_page] at hq
        have hlow : v / NPTENTRIES < SharedMemory.userTables := Nat.div_lt_of_lt_mul hv
        have hentry : (tables s).entry (v / NPTENTRIES) (v % NPTENTRIES) = some q := by
          refine Option.bind_eq_some_iff.mpr ⟨_, Option.map_eq_some_iff.mpr ⟨t, ht, rfl⟩, ?_⟩
          exact (if_pos (Nat.mod_lt v (by decide))).trans hq
        rw [use, SharedMemory.Memory.page, if_pos hlow, hdir, Option.bind_some, hentry]
        exact congrArg some hframe
    · exact absurd href.symm hne
  | table i =>
    rw [VirtualMemory.refs] at href
    cases ht : s.pgdir i with
    | none =>
      rw [ht] at href
      exact absurd href.symm hne
    | some t =>
      rw [ht] at href
      have hframe : t.frame = f := href
      have htable : (tables s).tables i =
          some ⟨t.frame, fun k => if k < NPTENTRIES then t.pte k else none⟩ := by
        rw [tables]
        dsimp only
        rw [ht]
        rfl
      rw [use, SharedMemory.Memory.page, hdir, Option.bind_some, if_pos (by rfl), htable]
      exact congrArg some hframe
  | hand => exact absurd href.symm hne
  | other k =>
    cases k with
    | none =>
      rw [use, SharedMemory.Memory.page, hdir]
      exact congrArg some href
    | some k => exact absurd hk id

theorem firstProcess_booted {others : ℕ → ℕ} {hand : ℕ}
    (h : Inv endFrame (withDir pgdir others) s hand)
    (hpgdir : pgdir ≠ 0) (hkstack : kstack ≠ 0) (hothers : others kstack = kstack)
    (hdata : Linked data) :
    SharedMemory.System.Booted endFrame data ⟨firstProcess kstack pgdir s, fun _ => none⟩ := by
  have hinit : (firstProcess kstack pgdir s).proc initSlot =
      ⟨.runnable, kstack, pgdir, 4096, 1, none, false, fun _ => none⟩ := by simp [firstProcess]
  constructor
  case pos => exact h.owns.pos
  case linked => exact hdata
  case idle => exact fun _ => rfl
  case lock => rfl
  case init => rw [hinit]
  case sz =>
    rw [hinit]
    exact (by decide : (4096 : UInt32) ≤ KERNBASE)
  case unused =>
    intro k hk
    simp [firstProcess, hk]
  case pgdir =>
    intro d c hc
    rw [hinit]
    simp only [firstProcess] at hc
    split_ifs at hc with hd
    exact hd
  case live =>
    rw [hinit]
    exact ⟨tables s, if_pos rfl, rfl⟩
  case pipe => exact fun _ => rfl
  case file => exact fun _ => rfl
  case apart =>
    constructor
    case nodup => exact h.nodup
    case unique =>
      intro u u' f hu hu'
      obtain ⟨huse, hf, hslot⟩ := page_slot h hpgdir hkstack hothers hu.1
      obtain ⟨huse', -, hslot'⟩ := page_slot h hpgdir hkstack hothers hu'.1
      rw [huse, huse', h.owns.unique _ _ (hslot ▸ hf) (hslot.trans hslot'.symm)]
    case used =>
      intro u f hu
      obtain ⟨-, hf, hslot⟩ := page_slot h hpgdir hkstack hothers hu.1
      have hused := h.owns.used_refs (hslot ▸ hf)
      rwa [hslot] at hused

theorem mappages_zero {r : ℤ} {perm : UInt32} (hlength : 0 < s.freelist.length)
    (hrun : s.mappages 0 4096 f perm = .ok (r, t)) : r = 0 := by
  have hwalk : (s.walkpgdir (0 : UInt32).toNat true).1 = true := by
    rw [Space.walkpgdir]
    by_cases htable : (s.pgdir (PDX (0 : UInt32).toNat)).isSome
    · rw [if_pos htable]
    · rw [if_neg htable, if_pos rfl]
      cases hfree : s.freelist with
      | nil =>
        rw [hfree] at hlength
        exact absurd hlength (lt_irrefl 0)
      | cons g rest =>
        rw [Space.kalloc, hfree]
  change s.mapLoop 0 f perm 0 = .ok (r, t) at hrun
  rw [Space.mapLoop] at hrun
  cases hw : s.walkpgdir (0 : UInt32).toNat true with
  | mk b u =>
    rw [hw] at hwalk hrun
    obtain rfl : b = true := hwalk
    dsimp only at hrun
    split_ifs at hrun
    cases hrun
    rfl

theorem inituvm_spec {others : ℕ → ℕ} (h : Under endFrame others s pgdir 0 t)
    (hnone : ∀ v < userPages, t.pte (PGSIZE * v) = none) (hlength : 1 < t.freelist.length) :
    ∃ u, inituvm t = .ok u ∧ Under endFrame others s pgdir 0 u := by
  unfold inituvm Space.kalloc
  cases hfree : t.freelist with
  | nil => simp [hfree] at hlength
  | cons mem rest =>
    rw [hfree, List.length_cons] at hlength
    have htake := h.take hfree fun _ => 0
    have hpage :
        (Space.pte { t with freelist := rest, page := Function.update t.page mem fun _ => 0 }
        (PGSIZE * 0)) = none := hnone 0 (by decide)
    obtain ⟨r, u, hmap, hmapped⟩ := htake.mappages (h.inv.head_ne_zero hfree)
      (by decide : 0 < userPages) hpage userPerm
    have hzero : UInt32.ofNat (PGSIZE * 0) = 0 := rfl
    rw [hzero] at hmap
    have hrun : panics
        ((({ t with freelist := rest } : Space).memset mem 0).mappages 0 4096 mem userPerm) =
        .ok (r, u) := by
      rw [Space.memset, hmap]
      rfl
    have hr : r = 0 := mappages_zero (Nat.lt_of_succ_lt_succ hlength) hmap
    dsimp only
    rw [hrun]
    rcases hmapped with ⟨hneg, -⟩ | ⟨-, hunder, -⟩
    · rw [hr] at hneg
      cases hneg
    · exact ⟨u, rfl, hunder⟩

theorem userinit_spec {kpgdir : ℕ} {ktables : ℕ → Option PageTable} {cpuStacks : List ℕ}
    (h : Free endFrame stopFrame s) (hpos : 0 < endFrame) (hdata : Linked data)
    (hlength : 67 < s.freelist.length)
    (hfree : Accounted endFrame stopFrame s.freelist (cpuPages kpgdir ktables cpuStacks)) :
    ∃ m, userinit endFrame data s = .ok m ∧
    SharedMemory.System.Booted endFrame data ⟨m, fun _ => none⟩ ∧
      Accounted endFrame stopFrame m.freelist
        (Boot.page ⟨⟨m, fun _ => none⟩, kpgdir, ktables, cpuStacks⟩) := by
  unfold userinit Space.kalloc
  cases hcons : s.freelist with
  | nil => simp [hcons] at hlength
  | cons kstack rest =>
    have hnodup : (kstack :: rest).Nodup := hcons ▸ h.nodup
    have hrange := h.range kstack (hcons ▸ List.mem_cons_self)
    rw [hcons, List.length_cons] at hlength
    let s₁ : Space := { s with freelist := rest }
    have hs₁ : Free endFrame stopFrame s₁ :=
      h.of_subset (List.nodup_cons.mp hnodup).2 fun g hg => by
      rw [hcons]
      exact List.mem_cons_of_mem kstack hg
    have htaken : taken endFrame s₁ kstack = kstack :=
      if_pos ⟨hrange.1, hrange.2, (List.nodup_cons.mp hnodup).1⟩
    have hs₁' : 65 < s₁.freelist.length := (by omega : 65 < rest.length)
    obtain ⟨pgdir, t, hrun, hunder, hlow, hleft⟩ :=
      VirtualMemory.setupkvm_some (hs₁.inv hpos le_rfl) hdata hs₁'
    have hleft' : rest.length ≤ t.freelist.length + 65 := hleft
    have hnone : ∀ v < userPages, t.pte (PGSIZE * v) = none := fun v hv => by
      rw [Space.pte, hlow _ (by rw [VirtualMemory.PDX_page]; exact Nat.div_lt_of_lt_mul hv)]
      rfl
    obtain ⟨u, hinit, hu⟩ := inituvm_spec hunder hnone (by omega)
    have hinv := hu.inv
    have hkstack : kstack ≠ 0 := by omega
    refine ⟨firstProcess kstack pgdir u, ?_,
      firstProcess_booted hinv hunder.dir hkstack htaken hdata, ?_⟩
    · dsimp only
      have hsetup : panics (s₁.blank.setupkvm endFrame data) =
          .ok (some pgdir, t) := by rw [hrun]; rfl
      rw [hsetup]
      change (inituvm t).bind _ = _
      rw [hinit]
      rfl
    · have hkeep : ∀ f ∈ u.freelist, f ∈ rest := hu.free_subset
      have hnot : kstack ∉ u.freelist := fun hf => (List.nodup_cons.mp hnodup).1 (hkeep kstack hf)
      have hold : ∀ v f, (∃ w, v = .process w) ∨ f ∈ kstack :: rest →
          cpuPages kpgdir ktables cpuStacks v ≠ some f := by
        rintro v f (⟨w, rfl⟩ | hf) hv
        · cases hv
        · exact (hfree.held_range v f hv).2.2 (hcons ▸ hf)
      have hpage : ∀ v f, Boot.page ⟨⟨firstProcess kstack pgdir u, fun _ => none⟩, kpgdir, ktables,
          cpuStacks⟩ v = some f → cpuPages kpgdir ktables cpuStacks v = some f ∨
            ∃ w, v = .process w ∧ (firstProcess kstack pgdir u).page w = some f := by
        intro v f hv
        cases v with
        | process w => exact .inr ⟨w, rfl, hv⟩
        | _ => exact .inl hv
      refine (hcons ▸ hfree).take hinv.nodup (fun f hf => List.mem_cons_of_mem kstack (hkeep f hf))
        (fun v f hv => ?_) (fun v f hv => ?_) (fun v v' f hf hv hv' => ?_) (fun f hf hnotf => ?_)
      · cases v with
        | process w => cases hv
        | _ => exact hv
      · refine (hpage v f hv).imp_right ?_
        rintro ⟨w, -, hw⟩
        obtain ⟨huse, hne, href⟩ := page_slot hinv hunder.dir hkstack htaken hw
        have hused := hinv.owns.used_refs (href ▸ hne)
        rw [href] at hused
        refine ⟨?_, hused⟩
        by_cases hown : Own (slot kstack w)
        · have hmem := mem_of_own hinv hown (href ▸ hne)
          rw [href] at hmem
          exact List.mem_cons_of_mem kstack hmem
        · cases w with
          | kstack k =>
            obtain rfl : kstack = f := htaken.symm.trans href
            exact List.mem_cons_self
          | _ => exact absurd trivial hown
      · obtain ⟨w, rfl, hw⟩ := (hpage v f hv).resolve_left (hold v f (.inr hf))
        obtain ⟨w', rfl, hw'⟩ := (hpage v' f hv').resolve_left (hold v' f (.inr hf))
        obtain ⟨huse, hne, href⟩ := page_slot hinv hunder.dir hkstack htaken hw
        obtain ⟨huse', -, href'⟩ := page_slot hinv hunder.dir hkstack htaken hw'
        rw [huse, huse', hinv.owns.unique _ _ (href ▸ hne) (href.trans href'.symm)]
      · rcases List.mem_cons.mp hf with rfl | hf
        · refine ⟨.process (.kstack initSlot), ?_⟩
          change (if ((firstProcess f pgdir u).proc initSlot).kstack = 0 then none
            else some ((firstProcess f pgdir u).proc initSlot).kstack) = some f
          have hslot : ((firstProcess f pgdir u).proc initSlot).kstack = f := by simp [firstProcess]
          rw [hslot, if_neg hkstack]
        · obtain ⟨k, hk, href, hne⟩ := exists_own hinv hs₁ le_rfl hf hnotf
          exact ⟨.process (use pgdir k), page_of_own hk href hne⟩

variable {kend : UInt32}

/-- The kernel is linked above `KERNBASE` and leaves 72 pages of the first 4 MB: 65 for the page
directory of the kernel and 7 for the stacks of the other CPUs. -/
structure Fits (kend : UInt32) : Prop where
  above : KERNBASE < kend
  below : kend ≤ P2V 0x3B8000

theorem Fits.page (h : Fits kend) :
    (PGROUNDUP kend).toNat = KERNBASE.toNat + PGSIZE * firstFrame kend ∧
      0 < firstFrame kend ∧ firstFrame kend ≤ 952 := by
  have habove : 0x80000000 < kend.toNat := UInt32.lt_iff_toNat_lt.mp h.above
  have hbelow : kend.toNat ≤ 0x803B8000 := UInt32.le_iff_toNat_le.mp h.below
  have hround : (PGROUNDUP kend).toNat = (kend.toNat + 4095) / 4096 * 4096 := by
    rw [PGROUNDUP, UInt32.toNat_mul, UInt32.toNat_div, UInt32.toNat_add]
    change ((kend.toNat + 4095) % 4294967296 / 4096 * 4096) % 4294967296 = _
    omega
  have hframe : firstFrame kend = (kend.toNat + 4095) / 4096 - 0x80000 := by
    rw [firstFrame, V2P, UInt32.toNat_sub, hround]
    change (2 ^ 32 - 0x80000000 + (kend.toNat + 4095) / 4096 * 4096) % 2 ^ 32 / 4096 = _
    omega
  rw [hround, hframe]
  change _ = 0x80000000 + 4096 * _ ∧ _
  omega

theorem length_of_range (h : ∀ f, lo ≤ f → f < hi → f ∈ s.freelist) :
    hi - lo ≤ s.freelist.length := by
  have hsub : Finset.Ico lo hi ⊆ s.freelist.toFinset := fun f hf =>
    List.mem_toFinset.mpr (h f (Finset.mem_Ico.mp hf).1 (Finset.mem_Ico.mp hf).2)
  have hcard := Finset.card_le_card hsub
  rw [Nat.card_Ico] at hcard
  exact hcard.trans (List.toFinset_card_le _)

theorem kinit1_spec (h : Fits kend) (hfree : s.freelist = []) :
    ∃ t, freerange (firstFrame kend) kend (P2V 0x400000) s = .ok t ∧ Free (firstFrame kend) 1024 t ∧
      Accounted (firstFrame kend) 1024 t.freelist (fun _ : BootUse => none) ∧
      71 < t.freelist.length := by
  obtain ⟨hround, hpos, hle⟩ := h.page
  have hempty : Free (firstFrame kend) (firstFrame kend) s := by
    constructor <;> simp [hfree]
  obtain ⟨t, hloop, ht, hmem⟩ := freeLoop_spec hempty le_rfl
    (Nat.add_sub_cancel' (hle.trans (by decide : 952 ≤ 1024))) (by decide)
  have hall : ∀ f, firstFrame kend ≤ f → f < 1024 → f ∈ t.freelist := fun f hlo hhi =>
    (hmem f).mpr (.inr ⟨hlo, hhi⟩)
  have hlength := length_of_range hall
  refine ⟨t, ?_, ht,
    ⟨ht.nodup, ht.range, fun _ _ hu => (by cases hu), fun _ _ _ hu => (by cases hu),
    fun f hlo hhi hnot => absurd (hall f hlo hhi) hnot⟩, by omega⟩
  rw [freerange, hround]
  exact hloop

theorem kinit2_spec {held : BootUse → Option ℕ} (h : Accounted endFrame 1024 s.freelist held)
    (hle : endFrame ≤ 1024) :
    ∃ t, freerange endFrame (P2V 0x400000) (P2V PHYSTOP) s = .ok t ∧ Free endFrame stopFrame t ∧
      Accounted endFrame stopFrame t.freelist held ∧ 67 < t.freelist.length := by
  obtain ⟨t, hloop, ht, hmem⟩ :=
    freeLoop_spec ⟨h.nodup, h.range⟩ hle (Nat.add_sub_cancel' (by decide)) le_rfl
  have hlength : stopFrame - 1024 ≤ t.freelist.length :=
    length_of_range fun f hlo hhi => (hmem f).mpr (.inr ⟨hlo, hhi⟩)
  exact ⟨t, hloop, ht, h.extend hle (by decide) ht.nodup hmem, lt_of_lt_of_le (by decide) hlength⟩

theorem main_userinit {ncpu : ℕ} (hncpu : ncpu ≤ NCPU) (hkend : Fits kend) (hdata : Linked data)
    (hfree : s.freelist = []) :
    ∃ t kpgdir ktables cpuStacks, Free (firstFrame kend) stopFrame t ∧ 67 < t.freelist.length ∧
      Accounted (firstFrame kend) stopFrame t.freelist (cpuPages kpgdir ktables cpuStacks) ∧
      cpuStacks.length = ncpu - 1 ∧ ∀ m, userinit (firstFrame kend) data t = .ok m →
        main ncpu kend data s = .ok ⟨⟨m, fun _ => none⟩, kpgdir, ktables, cpuStacks⟩ := by
  obtain ⟨-, hpos, hle⟩ := hkend.page
  change ncpu ≤ 8 at hncpu
  obtain ⟨s₁, hkinit1, h₁, hall, hlength₁⟩ := kinit1_spec hkend hfree
  obtain ⟨kpgdir, s₂, hkvmalloc, h₂, hlength₂⟩ :=
    kvmalloc_spec h₁ hpos (by decide) hall hdata (by omega)
  obtain ⟨cpuStacks, s₃, hstart, happend, hcount⟩ := startothers_spec (ncpu - 1) (s := s₂)
      (by omega)
  obtain ⟨s₄, hkinit2, h₄, hall₄, hlength₄⟩ :=
    kinit2_spec (stacks_accounted h₂ happend) (hle.trans (by decide))
  refine ⟨s₄, kpgdir, s₂.pgdir, cpuStacks, h₄, hlength₄, hall₄, hcount, fun m hinit => ?_⟩
  unfold main
  simp only [hkinit1, hkvmalloc, hstart, hkinit2, hinit, panics, Outcomes.ok_bind]

theorem exists_inv {x y : SharedMemory.System} (hbooted : x.Booted endFrame data)
    (hy : Reaches (fun z => z = x) (SharedMemory.System.Step data endFrame) y) :
    ∃ view, SharedMemory.Inv view y := by
  have hreached : Reaches (SharedMemory.System.Booted endFrame data)
      (SharedMemory.System.Step data endFrame) y :=
    hy.simulation (f := id) (fun z hz => hz ▸ hbooted) fun _ _ _ hstep => hstep
  exact SharedMemory.Inv.reached hreached

/-- From power-on the kernel comes to its first process. Every page between the kernel and `PHYSTOP`
is free then or has exactly one use: the page directory of the kernel, the stack of one of the other
CPUs, or the first process. The runs of the kernel begin in this state, and whatever its processes
do from then on, no page is in use for two things or free and in use. -/
theorem boot_isolates {ncpu : ℕ} (hncpu : ncpu ≤ NCPU) (hkend : Fits kend) (hdata : Linked data)
    (hfree : s.freelist = []) :
    ∃ b, main ncpu kend data s = .ok b ∧
      Accounted (firstFrame kend) stopFrame b.system.memory.freelist b.page ∧
      b.cpuStacks.length = ncpu - 1 ∧ b.system.Booted (firstFrame kend) data ∧
      ∀ y, Reaches (fun z => z = b.system) (SharedMemory.System.Step data (firstFrame kend)) y →
      y.Apart := by
  obtain ⟨t, kpgdir, ktables, cpuStacks, ht, hlength, hall, hcount, hmain⟩ :=
    main_userinit hncpu hkend hdata hfree
  obtain ⟨m, hinit, hbooted, hpages⟩ := userinit_spec ht hkend.page.2.1 hdata hlength hall
  refine ⟨_, hmain m hinit, hpages, hcount, hbooted, fun y hy => ?_⟩
  obtain ⟨view, hview⟩ := exists_inv hbooted hy
  exact hview.apart

theorem boot_isolates_two_cpus :
    ∃ b, main 2 0x801154A8 0x80108000 ⟨0, fun _ => none, [], fun _ _ => 0⟩ = .ok b ∧
      Accounted (firstFrame 0x801154A8) stopFrame b.system.memory.freelist b.page ∧
      b.cpuStacks.length = 1 ∧ b.system.Booted (firstFrame 0x801154A8) 0x80108000 ∧
      ∀ y, Reaches (fun z => z = b.system)
        (SharedMemory.System.Step 0x80108000 (firstFrame 0x801154A8)) y → y.Apart :=
  boot_isolates (by decide) ⟨by decide, by decide⟩ ⟨by decide, by decide, by decide⟩ rfl

end BootMemory

end Xv6Fairness
