import Xv6Fairness.BootMemory
import Xv6Fairness.EntryGuards

/-!
# What user mode can reach

The entries with `PTE_U` of all page directories are for addresses below `KERNBASE` and for pages of
the allocator, from power-on and along every run. So user mode never reaches the text or the data of
the kernel, nor a device, nor a page that is in use for anything else.
-/

namespace Xv6Fairness

open TransitionRuns
open VirtualMemory (PDX PTE_U stopFrame Pte PageTable Space Linked Kmap)

namespace SharedMemory

/-- Every entry that user mode can use is for a page of the allocator, and below `KERNBASE`. -/
def Pgdir.Fenced (endFrame : ℕ) (c : Pgdir) : Prop :=
  ∀ i j q, c.entry i j = some q → SharedMemory.Fenced endFrame i q

structure Memory.Fenced (endFrame : ℕ) (m : Memory) : Prop where
  freelist : ∀ f ∈ m.freelist, Ram endFrame f
  pgdir : ∀ d c, m.pgdir d = some c → c.Fenced endFrame
  sz : ∀ k, (m.proc k).sz ≤ KERNBASE

section Steps

variable {endFrame d f : ℕ} {data : UInt32} {m m' : Memory} {c : Pgdir} {p k : Fin NPROC}
  {a : Action}
  {r : a.Res} {R : a.Res → Unit → Prop} {s t : System}

theorem Pgdir.Fenced.setPde (h : c.Fenced endFrame) (i : ℕ) : (c.setPde i f).Fenced endFrame := by
  intro l j q hq
  rw [Pgdir.entry, Pgdir.setPde] at hq
  dsimp only at hq
  by_cases hli : l = i
  · subst hli
    rw [Function.update_self] at hq
    cases hq
  · rw [Function.update_of_ne hli] at hq
    exact h l j q hq

theorem Pgdir.Fenced.setPte (h : c.Fenced endFrame) (n : ℕ) {q : Option Pte}
    (hq : ∀ q', q = some q' → SharedMemory.Fenced endFrame (PDX n) q') :
    (c.setPte n q).Fenced endFrame := by
  intro i j q' hentry
  rw [Pgdir.entry, Pgdir.setPte] at hentry
  dsimp only at hentry
  by_cases hi : i = PDX n
  · subst hi
    rw [Function.update_self] at hentry
    obtain ⟨t', ht', hpte⟩ := Option.bind_eq_some_iff.mp hentry
    obtain ⟨t, ht, rfl⟩ := Option.map_eq_some_iff.mp ht'
    rw [PageTable.set_pte] at hpte
    split_ifs at hpte
    · exact hq q' hpte
    · exact h _ j q' (Option.bind_eq_some_iff.mpr ⟨t, ht, hpte⟩)
  · rw [Function.update_of_ne hi] at hentry
    exact h i j q' hentry

namespace Memory.Fenced

theorem setPgdir (h : m.Fenced endFrame) {x : Option Pgdir}
    (hx : ∀ c, x = some c → c.Fenced endFrame) :
    (m.setPgdir d x).Fenced endFrame := by
  refine ⟨h.freelist, fun e c hc => ?_, h.sz⟩
  by_cases hed : e = d
  · subst hed
    exact hx c (Memory.setPgdir_self.symm.trans hc)
  · exact h.pgdir e c ((Memory.setPgdir_of_ne hed).symm.trans hc)

theorem mapPgdir (h : m.Fenced endFrame) {g : Pgdir → Pgdir}
    (hg : ∀ c, c.Fenced endFrame → (g c).Fenced endFrame) :
    (m.setPgdir d ((m.pgdir d).map g)).Fenced endFrame := by
  refine h.setPgdir fun c hc => ?_
  obtain ⟨c', hc', rfl⟩ := Option.map_eq_some_iff.mp hc
  exact hg c' (h.pgdir d c' hc')

theorem setProc (h : m.Fenced endFrame) {x : Proc} (hx : x.sz ≤ KERNBASE) :
    (m.setProc k x).Fenced endFrame := by
  refine ⟨h.freelist, h.pgdir, fun l => ?_⟩
  by_cases hlk : l = k
  · subst hlk
    rw [Memory.setProc_self]
    exact hx
  · rw [Memory.setProc_of_ne hlk]
    exact h.sz l

theorem free (h : m.Fenced endFrame) (hf : Ram endFrame f) : (m.free f).Fenced endFrame := by
  refine ⟨fun g hg => ?_, fun d c hc => ?_, h.sz⟩
  · rcases List.mem_cons.mp hg with rfl | hg
    · exact hf
    · exact h.freelist g hg
  · by_cases hdf : d = f
    · subst hdf
      rw [Memory.free_pgdir_self] at hc
      cases hc
    · exact h.pgdir d c ((Memory.free_pgdir_of_ne hdf).symm.trans hc)

theorem takeUnused (h : m.Fenced endFrame) : m.takeUnused.2.Fenced endFrame := by
  rw [Memory.takeUnused]
  split
  · exact h
  · rename_i l hl
    have hset := h.setProc (k := l) (x := { m.proc l with state := .embryo, pid := m.nextpid })
        (h.sz l)
    exact ⟨hset.freelist, hset.pgdir, hset.sz⟩

theorem run (h : m.Fenced endFrame) (ha : guard endFrame () a R)
    (hrun : Memory.run endFrame p a m = some (r, m')) : m'.Fenced endFrame ∧ R r () := by
  cases a with
  | kalloc =>
      rw [Memory.run] at hrun
      split at hrun
      · cases hrun
        exact ⟨h, ha none fun f hf => by cases hf⟩
      · rename_i f rest hfree
        cases hrun
        refine ⟨⟨fun g hg => h.freelist g ?_, h.pgdir, h.sz⟩, ha (some f) fun g hg => ?_⟩
        · rw [hfree]
          exact List.mem_cons_of_mem f hg
        · cases hg
          refine h.freelist f ?_
          rw [hfree]
          exact List.mem_cons_self
  | kfree f =>
      rw [Memory.run, Option.ite_none_left_eq_some, not_or, not_lt, not_le] at hrun
      obtain ⟨hf, hrun⟩ := hrun
      cases hrun
      exact ⟨h.free hf, ha ()⟩
  | load d | findZombie | setFile i f b | newPipe f =>
      cases hrun
      exact ⟨⟨h.freelist, h.pgdir, h.sz⟩, ha _⟩
  | newPgdir d =>
      cases hrun
      refine ⟨h.setPgdir fun c hc => ?_, ha ()⟩
      cases hc
      intro i j q hq
      cases hq
  | setPde d i f =>
      cases hrun
      exact ⟨h.mapPgdir fun c hc => hc.setPde i, ha ()⟩
  | setPte d n q =>
      cases hrun
      cases q with
      | none =>
          refine ⟨h.mapPgdir fun c hc => hc.setPte n fun q hq => ?_, ha ()⟩
          cases hq
      | some q =>
          refine ⟨h.mapPgdir fun c hc => hc.setPte n fun q' hq => ?_, ha.2⟩
          cases hq
          exact ha.1
  | retire d =>
      cases hrun
      exact ⟨h.mapPgdir fun c hc => hc, ha ()⟩
  | acquire | release =>
      rw [Memory.run, Option.ite_none_right_eq_some] at hrun
      cases hrun.2
      exact ⟨⟨h.freelist, h.pgdir, h.sz⟩, ha ()⟩
  | takeUnused =>
      have hm : m.takeUnused.2 = m' := congrArg Prod.snd (Option.some_inj.mp hrun)
      rw [← hm]
      exact ⟨h.takeUnused, ha _⟩
  | proc k =>
      cases hrun
      exact ⟨h, ha _ (h.sz k)⟩
  | store k w =>
      cases hrun
      cases w with
      | sz n => exact ⟨h.setProc ha.1, ha.2⟩
      | kstack | pgdir | state | parent | forget | ofile => exact ⟨h.setProc (h.sz k), ha ()⟩
  | filealloc =>
      have hm : m.filealloc.2 = m' := congrArg Prod.snd (Option.some_inj.mp hrun)
      rw [← hm, Memory.filealloc]
      refine ⟨?_, ha _⟩
      split <;> exact ⟨h.freelist, h.pgdir, h.sz⟩
  | filedup i =>
      rw [Memory.run, Option.ite_none_left_eq_some] at hrun
      cases hrun.2
      exact ⟨⟨h.freelist, h.pgdir, h.sz⟩, ha ()⟩
  | fileput i =>
      rw [Memory.run, Option.ite_none_left_eq_some] at hrun
      obtain ⟨-, hrun⟩ := hrun
      split_ifs at hrun <;> cases hrun <;> exact ⟨⟨h.freelist, h.pgdir, h.sz⟩, ha _⟩
  | closeEnd f b =>
      rw [Memory.run] at hrun
      split at hrun <;> cases hrun
      exact ⟨⟨h.freelist, h.pgdir, h.sz⟩, ha _⟩
  | panic => cases hrun

theorem exited (h : m.Fenced endFrame) (p : Fin NPROC) : (m.exited p).Fenced endFrame := by
  refine ⟨h.freelist, h.pgdir, fun k => ?_⟩
  rw [show ((m.exited p).proc k).sz = (m.proc k).sz from congrArg Known.sz
    (Memory.exited_proc m p k).1]
  exact h.sz k

end Memory.Fenced

/-- The memory is fenced, and what is left of each system call keeps to the guard. -/
structure System.Fenced (endFrame : ℕ) (s : System) : Prop where
  memory : s.memory.Fenced endFrame
  thread : ∀ p x, s.thread p = some x → Guards endFrame x

theorem System.Fenced.setThread (h : s.Fenced endFrame) {x : Option (Kernel Next)}
    (hm : m.Fenced endFrame)
    (hx : ∀ y, x = some y → Guards endFrame y) :
    System.Fenced endFrame ⟨m, Function.update s.thread p x⟩ := by
  refine ⟨hm, fun k y hy => ?_⟩
  by_cases hkp : k = p
  · subst hkp
    change Function.update s.thread k x k = some y at hy
    rw [Function.update_self] at hy
    exact hx y hy
  · change Function.update s.thread p x k = some y at hy
    rw [Function.update_of_ne hkp] at hy
    exact h.thread k y hy

theorem System.Fenced.step (h : s.Fenced endFrame) (hstep : s.Step data endFrame t) :
    t.Fenced endFrame := by
  cases hstep with
  | call c hidle halive =>
      refine h.setThread h.memory fun y hy => ?_
      cases hy
      exact c.guards
  | act hthread hrun =>
      obtain ⟨R, ha, hk⟩ := h.thread _ _ hthread
      obtain ⟨hm, hr⟩ := h.memory.run ha hrun
      refine h.setThread hm fun y hy => ?_
      cases hy
      exact hk _ _ hr
  | leave hthread => exact h.setThread h.memory fun y hy => by cases hy
  | wakeup hthread =>
      refine h.setThread h.memory fun y hy => ?_
      cases hy
      exact guards_wait
  | exit hthread => exact h.setThread (h.memory.exited _) fun y hy => by cases hy
  | @turn p st halive hst => exact ⟨h.memory.setProc (h.memory.sz p), h.thread⟩

theorem System.Fenced.reached (hidle : ∀ p, s.thread p = none) (hmem : s.memory.Fenced endFrame)
    (h : Reaches (fun z => z = s) (System.Step data endFrame) t) : t.Fenced endFrame := by
  refine h.invariant (fun z hz => ?_) fun _ _ _ hz hstep => hz.step hstep
  subst hz
  refine ⟨hmem, fun p x hx => ?_⟩
  rw [hidle] at hx
  cases hx

end Steps

/-- The free pages belong to the allocator and the entries of the page directory are fenced. -/
structure Built (endFrame : ℕ) (s : Space) : Prop where
  freelist : ∀ f ∈ s.freelist, Ram endFrame f
  entry : ∀ i t, s.pgdir i = some t → ∀ j q, t.pte j = some q → Fenced endFrame i q

section Boot

variable {endFrame f d n : ℕ} {va perm data kend : UInt32} {s t : Space} {r : ℤ}

namespace Built

theorem blank (h : ∀ f ∈ s.freelist, Ram endFrame f) : Built endFrame s.blank := by
  refine ⟨h, fun i t ht => ?_⟩
  cases ht

theorem kalloc (h : Built endFrame s) :
    Built endFrame s.kalloc.2 ∧ ∀ f, s.kalloc.1 = some f → Ram endFrame f := by
  rw [Space.kalloc]
  split
  · refine ⟨h, fun f hf => ?_⟩
    cases hf
  · rename_i f rest hfree
    have hall : ∀ g ∈ f :: rest, Ram endFrame g := hfree ▸ h.freelist
    refine ⟨⟨fun g hg => hall g (List.mem_cons_of_mem f hg), h.entry⟩, fun g hg => ?_⟩
    cases hg
    exact hall f List.mem_cons_self

theorem walkpgdir (h : Built endFrame s) (a : ℕ) : Built endFrame (s.walkpgdir a true).2 := by
  have hpop := h.kalloc.1
  rw [Space.walkpgdir]
  split_ifs
  · exact h
  · split
    · rename_i u hu
      rw [hu] at hpop
      exact hpop
    · rename_i g u hu
      rw [hu] at hpop
      refine ⟨hpop.freelist, fun i t ht j q hq => ?_⟩
      dsimp only at ht
      by_cases hi : i = PDX a
      · subst hi
        rw [Function.update_self] at ht
        cases ht
        cases hq
      · rw [Function.update_of_ne hi] at ht
        exact hpop.entry i t ht j q hq
  · exact h

theorem setPte (h : Built endFrame s) {a : ℕ} {q : Pte} (hq : Fenced endFrame (PDX a) q) :
    Built endFrame (s.setPte a (some q)) := by
  refine ⟨h.freelist, fun i t ht j q' hpte => ?_⟩
  rw [Space.setPte] at ht
  dsimp only at ht
  by_cases hi : i = PDX a
  · subst hi
    rw [Function.update_self] at ht
    obtain ⟨t', ht', rfl⟩ := Option.map_eq_some_iff.mp ht
    rw [PageTable.set_pte] at hpte
    split_ifs at hpte
    · cases hpte
      exact hq
    · exact h.entry _ t' ht' j q' hpte
  · rw [Function.update_of_ne hi] at ht
    exact h.entry i t ht j q' hpte

theorem mapPage (h : Built endFrame s) (hq : Fenced endFrame (PDX va.toNat) ⟨f, perm⟩)
    (hrun : s.mapLoop va f perm 0 = .ok (r, t)) : Built endFrame t := by
  have hwalk := h.walkpgdir va.toNat
  rw [Space.mapLoop] at hrun
  split at hrun
  · rename_i u hu
    cases hrun
    rwa [hu] at hwalk
  · rename_i u hu
    rw [hu] at hwalk
    split_ifs at hrun
    cases hrun
    exact hwalk.setPte hq

theorem mapLoop (h : Built endFrame s) (hperm : Closed perm)
    (hrun : s.mapLoop va f perm n = .ok (r, t)) : Built endFrame t := by
  induction n generalizing s va f with
  | zero => exact h.mapPage (.inl hperm) hrun
  | succ n ih =>
      have hwalk := h.walkpgdir va.toNat
      rw [Space.mapLoop] at hrun
      split at hrun
      · rename_i u hu
        cases hrun
        rwa [hu] at hwalk
      · rename_i u hu
        rw [hu] at hwalk
        split_ifs at hrun
        exact ih (hwalk.setPte (.inl hperm)) hrun

theorem mapKernel {ks : List Kmap} (h : Built endFrame s) (hks : ∀ k ∈ ks, Closed k.perm)
    (hrun : s.mapKernel ks = .ok (r, t)) : Built endFrame t := by
  induction ks generalizing s with
  | nil =>
      cases hrun
      exact h
  | cons k ks ih =>
      obtain ⟨⟨r', u⟩, hmap, hrun⟩ := Outcomes.exists_of_bind_ok hrun
      have hu := h.mapLoop (hks k List.mem_cons_self) hmap
      dsimp only at hrun
      split_ifs at hrun
      · cases hrun
        exact hu
      · exact ih hu (fun l hl => hks l (List.mem_cons_of_mem k hl)) hrun

end Built

theorem setupkvm_built (h : ∀ f ∈ s.freelist, Ram endFrame f)
    (hrun : s.setupkvm endFrame data = .ok (some d, t)) : Built endFrame t := by
  rw [Space.setupkvm] at hrun
  cases hfree : s.freelist with
  | nil =>
      rw [Space.kalloc, hfree] at hrun
      cases hrun
  | cons g rest =>
      rw [Space.kalloc, hfree] at hrun
      dsimp only at hrun
      split_ifs at hrun
      obtain ⟨⟨r, u⟩, hmap, hrun⟩ := Outcomes.exists_of_bind_ok hrun
      have hstart : Built endFrame ({ s with freelist := rest } : Space).blank :=
        .blank fun g' hg => h g' (hfree ▸ List.mem_cons_of_mem g hg)
      have hu := hstart.mapKernel kmap_closed hmap
      dsimp only at hrun
      split_ifs at hrun
      · obtain ⟨u', -, hrun⟩ := Outcomes.exists_of_bind_ok hrun
        cases hrun
      · cases hrun
        exact hu

theorem inituvm_built (h : Built endFrame s) (hrun : BootMemory.inituvm s = .ok t) :
    Built endFrame t := by
  obtain ⟨hpop, hram⟩ := h.kalloc
  rw [BootMemory.inituvm] at hrun
  split at hrun
  · cases hrun
  · rename_i mem u hu
    rw [hu] at hpop hram
    obtain ⟨⟨r, v⟩, hmap, hrun⟩ := Outcomes.exists_of_bind_ok hrun
    cases hrun
    have hclean : Built endFrame (u.memset mem 0) := ⟨hpop.freelist, hpop.entry⟩
    exact hclean.mapPage (.inr ⟨by decide, hram mem rfl⟩) (BootMemory.ok_of_panics hmap)

theorem Built.firstProcess (h : Built endFrame s) (kstack pgdir : ℕ) :
    (BootMemory.firstProcess kstack pgdir s).Fenced endFrame := by
  refine ⟨h.freelist, fun d c hc i j q hq => ?_, fun k => ?_⟩
  · simp only [BootMemory.firstProcess] at hc
    split_ifs at hc
    cases hc
    obtain ⟨t', ht', hpte⟩ := Option.bind_eq_some_iff.mp hq
    obtain ⟨t, ht, rfl⟩ := Option.map_eq_some_iff.mp ht'
    dsimp only at hpte
    split_ifs at hpte
    exact h.entry i t ht j q hpte
  · simp only [BootMemory.firstProcess]
    split_ifs
    · exact (by decide : (4096 : UInt32) ≤ KERNBASE)
    · exact (by decide : (0 : UInt32) ≤ KERNBASE)

theorem userinit_fenced {m : Memory} (h : ∀ f ∈ s.freelist, Ram endFrame f)
    (hrun : BootMemory.userinit endFrame data s = .ok m) : m.Fenced endFrame := by
  rw [BootMemory.userinit] at hrun
  cases hfree : s.freelist with
  | nil =>
      rw [Space.kalloc, hfree] at hrun
      cases hrun
  | cons kstack rest =>
      rw [Space.kalloc, hfree] at hrun
      obtain ⟨⟨r, u⟩, hsetup, hrun⟩ := Outcomes.exists_of_bind_ok hrun
      cases r with
      | none => cases hrun
      | some pgdir =>
          have hrest : ∀ g ∈ rest, Ram endFrame g :=
            fun g hg => h g (hfree ▸ List.mem_cons_of_mem kstack hg)
          have hu : Built endFrame u := setupkvm_built hrest (BootMemory.ok_of_panics hsetup)
          obtain ⟨v, hinit, hrun⟩ := Outcomes.exists_of_bind_ok hrun
          cases hrun
          exact (inituvm_built hu hinit).firstProcess kstack pgdir

/-- From power-on the kernel comes to its first process, and whatever its processes do from then on,
user mode never reaches an address from `KERNBASE` on, nor a page outside of the memory of the
allocator, such as those of the kernel. What a process outside of the kernel can reach is in use for
the one address and for nothing else. -/
theorem user_reach {ncpu : ℕ} (hncpu : ncpu ≤ NCPU) (hkend : BootMemory.Fits kend)
    (hdata : Linked data) (hfree : s.freelist = []) :
    ∃ b, BootMemory.main ncpu kend data s = .ok b ∧
      ∀ y, Reaches (fun z => z = b.system) (System.Step data (BootMemory.firstFrame kend)) y →
        ∀ d c i j q, y.memory.pgdir d = some c → c.entry i j = some q → q.perm &&& PTE_U ≠ 0 →
          i < userTables ∧ BootMemory.firstFrame kend ≤ q.frame ∧ q.frame < stopFrame ∧
            ∀ k, Away y k → (y.memory.proc k).pgdir = d →
              q.frame ∉ y.memory.freelist ∧ ∀ u, y.InUse u q.frame → u = .user d i j := by
  obtain ⟨t, kpgdir, ktables, cpuStacks, ht, hlength, hall, -, hmain⟩ :=
    BootMemory.main_userinit hncpu hkend hdata hfree
  obtain ⟨m, hinit, hbooted, -⟩ := BootMemory.userinit_spec ht hkend.page.2.1 hdata hlength hall
  refine ⟨_, hmain m hinit, fun y hy d c i j q hc hq huser => ?_⟩
  have hfenced := System.Fenced.reached (fun _ => rfl) (userinit_fenced ht.range hinit) hy
  rcases hfenced.memory.pgdir d c hc i j q hq with hclosed | ⟨hi, hlow, hhigh⟩
  · exact absurd hclosed huser
  · refine ⟨hi, hlow, hhigh, fun k hk hd => ?_⟩
    obtain ⟨view, hview⟩ := BootMemory.exists_inv hbooted hy
    subst hd
    have hin := hview.inUse hk hc hi hq
    exact ⟨hview.apart.used _ _ hin, fun u hu => hview.apart.unique _ _ _ hu hin⟩

theorem user_reach_two_cpus :
    ∃ b, BootMemory.main 2 0x801154A8 0x80108000 ⟨0, fun _ => none, [], fun _ _ => 0⟩ = .ok b ∧
      ∀ y, Reaches (fun z => z = b.system)
      (System.Step 0x80108000 (BootMemory.firstFrame 0x801154A8)) y →
        ∀ d c i j q, y.memory.pgdir d = some c → c.entry i j = some q → q.perm &&& PTE_U ≠ 0 →
          i < userTables ∧ BootMemory.firstFrame 0x801154A8 ≤ q.frame ∧ q.frame < stopFrame ∧
            ∀ k, Away y k → (y.memory.proc k).pgdir = d →
              q.frame ∉ y.memory.freelist ∧ ∀ u, y.InUse u q.frame → u = .user d i j :=
  user_reach (by decide) ⟨by decide, by decide⟩ ⟨by decide, by decide, by decide⟩ rfl

end Boot

end SharedMemory

end Xv6Fairness
