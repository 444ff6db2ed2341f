import Mathlib.Logic.Relation
import Xv6Fairness.ForkRuns

/-!
# The address space of a process

While a process is not in the kernel, the others run system calls, grow and shrink, fork, exec and
exit. What they do never reaches its entry of the process table or its page directory, and the pages
that its entries name stay in use for it.
-/

namespace Xv6Fairness

open ThreadPrograms ExclusivePlaces TransitionRuns
open VirtualMemory (Pte initSlot PGSIZE NPDENTRIES)

namespace SharedMemory

/-- The fields of the process that lead to its memory, and its page directory. -/
def Memory.space (m : Memory) (k : Fin NPROC) : Known × Option Pgdir :=
  ((m.proc k).known, m.pgdir (m.proc k).pgdir)

namespace Action

/-- The page directory that an action changes, or the page that it frees. -/
def page : Action → Option ℕ
  | .kfree f => some f
  | .newPgdir d => some d
  | .setPde d _ _ => some d
  | .setPte d _ _ => some d
  | .retire d => some d
  | _ => none

end Action

variable {endFrame : ℕ} {data : UInt32} {view : Fin NPROC → View} {v : View} {m m' : Memory}
  {p k : Fin NPROC} {d f : ℕ} {s t : System} {a : Action} {R : a.Res → View → Prop} {r : a.Res}

theorem Memory.takeUnused_snd (m : Memory) :
    m.takeUnused.2.pgdir = m.pgdir ∧
      ∀ k, (m.proc k).state ≠ .unused → m.takeUnused.2.proc k = m.proc k := by
  rw [Memory.takeUnused]
  cases hfind : (List.finRange NPROC).find? fun k => (m.proc k).state = .unused with
  | none => exact ⟨rfl, fun _ _ => rfl⟩
  | some l =>
      refine ⟨rfl, fun k hk => Memory.setProc_of_ne ?_⟩
      rintro rfl
      have hunused := List.find?_some hfind
      exact hk (of_decide_eq_true hunused)

theorem Memory.filealloc_snd (m : Memory) :
    m.filealloc.2.pgdir = m.pgdir ∧ m.filealloc.2.proc = m.proc := by
  rw [Memory.filealloc]
  split <;> exact ⟨rfl, rfl⟩

theorem Memory.run_reach (hrun : Memory.run endFrame p a m = some (r, m')) :
    (a.page ≠ some d → m'.pgdir d = m.pgdir d) ∧
      ((m.proc k).state ≠ .unused →
        m'.proc k = m.proc k ∨ ∃ w, a = .store k w ∧ m'.proc k = w.apply (m.proc k)) := by
  have hpage : a.page ≠ some d → ∀ e, a.page = some e → d ≠ e := fun h e he hde => h (hde ▸ he)
  cases a with
  | kalloc =>
      rw [Memory.run] at hrun
      split at hrun <;> cases hrun <;> exact ⟨fun _ => rfl, fun _ => .inl rfl⟩
  | kfree g =>
      rw [Memory.run, Option.ite_none_left_eq_some] at hrun
      cases hrun.2
      exact ⟨fun h => Memory.free_pgdir_of_ne (hpage h g rfl), fun _ => .inl rfl⟩
  | newPgdir e | setPde e _ _ | setPte e _ _ | retire e =>
      cases hrun
      exact ⟨fun h => Memory.setPgdir_of_ne (hpage h e rfl), fun _ => .inl rfl⟩
  | load e | findZombie | proc l | setFile i g b | newPipe g =>
      cases hrun
      exact ⟨fun _ => rfl, fun _ => .inl rfl⟩
  | store l w =>
      cases hrun
      refine ⟨fun _ => rfl, fun _ => ?_⟩
      by_cases hkl : k = l
      · subst hkl
        exact .inr ⟨w, rfl, Memory.setProc_self⟩
      · exact .inl (Memory.setProc_of_ne hkl)
  | acquire | release =>
      rw [Memory.run, Option.ite_none_right_eq_some] at hrun
      cases hrun.2
      exact ⟨fun _ => rfl, fun _ => .inl rfl⟩
  | takeUnused =>
      have hm : m.takeUnused.2 = m' := congrArg Prod.snd (Option.some_inj.mp hrun)
      rw [← hm, m.takeUnused_snd.1]
      exact ⟨fun _ => rfl, fun hk => .inl (m.takeUnused_snd.2 k hk)⟩
  | filealloc =>
      have hm : m.filealloc.2 = m' := congrArg Prod.snd (Option.some_inj.mp hrun)
      rw [← hm, m.filealloc_snd.1, m.filealloc_snd.2]
      exact ⟨fun _ => rfl, fun _ => .inl rfl⟩
  | filedup i =>
      rw [Memory.run, Option.ite_none_left_eq_some] at hrun
      cases hrun.2
      exact ⟨fun _ => rfl, fun _ => .inl rfl⟩
  | fileput i =>
      rw [Memory.run, Option.ite_none_left_eq_some] at hrun
      obtain ⟨-, hrun⟩ := hrun
      split_ifs at hrun <;> cases hrun <;> exact ⟨fun _ => rfl, fun _ => .inl rfl⟩
  | closeEnd g b =>
      rw [Memory.run] at hrun
      split at hrun <;> cases hrun
      exact ⟨fun _ => rfl, fun _ => .inl rfl⟩
  | panic => cases hrun

theorem Rule.page (h : Rule p v a R) (hpage : a.page = some f) (hne : a = .kfree f → f ≠ 0) :
    ∃ u, v.Has f u := by
  cases h with
  | unmap hT _ =>
      cases hpage
      exact ⟨_, .dir hT⟩
  | dropKstack _ _ => cases hpage
  | plain hstale h =>
      have hclear : ∀ x, v.stale = some x → ∀ u : Mine, x.mine ≠ u := fun x hx => by
        rw [hstale] at hx
        cases hx
      cases h with
      | kfree hf | newPgdir hf =>
          cases hpage
          exact ⟨_, .hand hf⟩
      | kfreeUser hT hi hq =>
          cases hpage
          exact ⟨_, .leaf hT (.user hi hq) fun x hx => hclear x hx _⟩
      | kfreeTable hT _ ht hi =>
          cases hpage
          exact ⟨_, .leaf hT (.table ht (.inr hi)) fun x hx => hclear x hx _⟩
      | kfreeKstack he =>
          cases hpage
          exact ⟨_, .kstack he (hne rfl) fun x hx => hclear x hx _⟩
      | kfreeBuffer hf =>
          cases hpage
          exact ⟨_, .buffer hf⟩
      | kfreeDir hT | setPde hT _ | map hT _ | mapKernel hT _ | protect hT _ | retire hT _ =>
          cases hpage
          exact ⟨_, .dir hT⟩
      | _ => cases hpage

/-- A process stores to entries that it has, apart from the fields that lead nowhere. -/
theorem Rule.entry {w : Store} {R : Unit → View → Prop} (h : Rule p v (.store k w) R) :
    (v.claims.known k).isSome = true ∨
      ∀ y, (w.apply y).known = y.known ∧ (w.apply y).state = y.state := by
  cases h with
  | dropKstack he _ => exact .inl (Option.isSome_iff_exists.mpr ⟨_, he⟩)
  | plain _ h =>
      cases h with
      | setKstack he _ | noKstack he | setPgdir he | setSz he | setUnused he _ _ _
      | setRunnable he _ _ _ _ _ =>
          exact .inl (Option.isSome_iff_exists.mpr ⟨_, he⟩)
      | store h => exact .inr h

/-- A step of the scheduler or of a process other than `k`. -/
def System.Aside (data : UInt32) (endFrame : ℕ) (k : Fin NPROC) (s t : System) : Prop :=
  s.Step data endFrame t ∧ t.thread k = s.thread k

/-- The process is not in the kernel and has not exited. -/
structure Away (s : System) (k : Fin NPROC) : Prop where
  idle : s.thread k = none
  alive : Alive (s.memory.proc k).state

namespace Inv

variable (h : Inv view s)

include h

theorem home (hk : Away s k) : ∃ T, (view k).tree (s.memory.proc k).pgdir = some T ∧
    s.memory.pgdir (s.memory.proc k).pgdir = some T.dir ∧ T.dir.live = true := by
  obtain ⟨e, T, he, hT, hlive, -⟩ := (h.idle k hk.idle).2 (h.control.alive k hk.alive)
  have hpgdir : (s.memory.proc k).pgdir = e.pgdir := congrArg Known.pgdir (h.control.known k k e he)
  rw [hpgdir]
  exact ⟨T, hT, (h.pages.dirs _ _).mpr ⟨k, by rw [View.pgdir, hT]; rfl⟩, hlive⟩

theorem not_has (hk : Away s k) (hpk : p ≠ k)
    {u : Mine} : ¬ (view p).Has (s.memory.proc k).pgdir u := by
  intro hu
  obtain ⟨T, hT, -⟩ := h.home hk
  have hplace := h.pages.places _ (.thread k .dir) (.thread p u) (View.Has.dir hT) hu
  cases hplace
  exact hpk rfl

theorem act_space (hpos : 0 < endFrame) (hk : Away s k) (hpk : p ≠ k) {y : a.Res → Kernel Next}
    (hthread : s.thread p = some (.act a y))
    (hrun : Memory.run endFrame p a s.memory = some (r, m)) :
    m.space k = s.memory.space k ∧ (m.proc k).state = (s.memory.proc k).state := by
  obtain ⟨⟨R, hrule, -⟩, -⟩ := h.running p _ hthread
  have hused : (s.memory.proc k).state ≠ .unused := fun heq => by
    have halive := hk.alive
    rw [heq] at halive
    rcases halive with halive | halive | halive <;> cases halive
  obtain ⟨hdir, hproc⟩ := Memory.run_reach (d := (s.memory.proc k).pgdir) (k := k) hrun
  have hpage : a.page ≠ some (s.memory.proc k).pgdir := fun hpage => by
    obtain ⟨u, hu⟩ := hrule.page hpage fun heq hzero => by
      subst heq
      rw [Memory.run, Option.ite_none_left_eq_some] at hrun
      exact hrun.1 (.inl (hzero ▸ hpos))
    exact h.not_has hk hpk hu
  have hentry : (m.proc k).known = (s.memory.proc k).known ∧
      (m.proc k).state = (s.memory.proc k).state := by
    rcases hproc hused with heq | ⟨w, rfl, heq⟩
    · rw [heq]
      exact ⟨rfl, rfl⟩
    · rcases hrule.entry with hknown | hsame
      · obtain ⟨e, he⟩ := Option.isSome_iff_exists.mp hknown
        exact absurd (h.control.only (h.control.alive k hk.alive) he).symm hpk
      · rw [heq]
        exact hsame _
  have hpgdir : (m.proc k).pgdir = (s.memory.proc k).pgdir := congrArg Known.pgdir hentry.1
  refine ⟨?_, hentry.2⟩
  rw [Memory.space, Memory.space, hentry.1, hpgdir, hdir hpage]

theorem aside (hpos : 0 < endFrame) (hk : Away s k) (hstep : s.Aside data endFrame k t) :
    t.memory.space k = s.memory.space k ∧ Away t k := by
  obtain ⟨hstep, hsame⟩ := hstep
  have hidle := hsame.trans hk.idle
  cases hstep with
  | call c hc halive => exact ⟨rfl, hidle, hk.alive⟩
  | leave hthread | wakeup hthread => exact ⟨rfl, hidle, hk.alive⟩
  | @act p a y r m hthread hrun =>
      have hpk : p ≠ k := by
        rintro rfl
        rw [hk.idle] at hthread
        cases hthread
      obtain ⟨hspace, hstate⟩ := h.act_space hpos hk hpk hthread hrun
      exact ⟨hspace, hidle, hstate ▸ hk.alive⟩
  | @exit p hthread =>
      have hkp : k ≠ p := by
        rintro rfl
        rw [hk.idle] at hthread
        cases hthread
      obtain ⟨hknown, hstate⟩ := Memory.exited_proc s.memory p k
      rw [if_neg hkp] at hstate
      have hpgdir : ((s.memory.exited p).proc k).pgdir = (s.memory.proc k).pgdir :=
        congrArg Known.pgdir hknown
      refine ⟨?_, hidle, hstate.symm ▸ hk.alive⟩
      change (s.memory.exited p).space k = s.memory.space k
      rw [Memory.space, Memory.space, hknown, hpgdir]
      rfl
  | @turn p st halive hst =>
      by_cases hkp : k = p
      · subst hkp
        refine ⟨?_, hidle, ?_⟩
        · rw [Memory.space, Memory.setProc_self]
          rfl
        · rw [Memory.setProc_self]
          exact hst
      · refine ⟨?_, hidle, ?_⟩
        · rw [Memory.space, Memory.setProc_of_ne hkp]
          rfl
        · rw [Memory.setProc_of_ne hkp]
          exact hk.alive

theorem inUse (hk : Away s k) {c : Pgdir} (hc : s.memory.pgdir (s.memory.proc k).pgdir = some c)
    {i j : ℕ}
    {q : Pte} (hi : i < userTables) (hq : c.entry i j = some q) :
    s.InUse (.user (s.memory.proc k).pgdir i j) q.frame := by
  refine ⟨?_, fun p x hx hclears => ?_⟩
  · rw [Memory.page, if_pos hi, hc]
    exact congrArg (Option.map Pte.frame) hq
  · obtain ⟨a, y, rfl, -⟩ := hclears
    obtain ⟨⟨R, hrule, -⟩, -⟩ := h.running p _ hx
    obtain ⟨u, hu⟩ := hrule.page rfl fun heq => by cases heq
    refine h.not_has hk ?_ hu
    rintro rfl
    rw [hk.idle] at hx
    cases hx

end Inv

/-- Between two of its system calls, whatever the others do, a process keeps its memory, and no page
of it is free or in use for anything else. -/
theorem private_space (h : Reaches (System.Booted endFrame data) (System.Step data endFrame) s)
    (hk : Away s k) (hrun : Relation.ReflTransGen (System.Aside data endFrame k) s t) :
    t.memory.space k = s.memory.space k ∧ Away t k ∧ ∀ c i j q,
      t.memory.pgdir (t.memory.proc k).pgdir = some c → i < userTables → c.entry i j = some q →
        q.frame ∉ t.memory.freelist ∧
          ∀ u, t.InUse u q.frame → u = .user (t.memory.proc k).pgdir i j := by
  have hpos : 0 < endFrame := h.invariant (fun _ hs => hs.pos) fun _ _ _ hpos _ => hpos
  have hstep : Reaches (System.Booted endFrame data) (System.Step data endFrame) t ∧
      t.memory.space k = s.memory.space k ∧ Away t k := by
    induction hrun with
    | refl => exact ⟨h, rfl, hk⟩
    | tail _ hnext ih =>
        obtain ⟨hreach, hspace, hk⟩ := ih
        obtain ⟨view, hview⟩ := Inv.reached hreach
        obtain ⟨hspace', hk'⟩ := hview.aside hpos hk hnext
        exact ⟨.step hreach hnext.1, hspace'.trans hspace, hk'⟩
  obtain ⟨hreach, hspace, hk'⟩ := hstep
  refine ⟨hspace, hk', fun c i j q hc hi hq => ?_⟩
  obtain ⟨view, hview⟩ := Inv.reached hreach
  have hin := hview.inUse hk' hc hi hq
  exact ⟨hview.apart.used _ _ hin, fun u hu => hview.apart.unique _ _ _ hu hin⟩

/-- Another slot than two given ones. -/
theorem exists_slot (k l : Fin NPROC) : ∃ q, q ≠ k ∧ q ≠ l := by
  have hcard : ({k, l} : Finset (Fin NPROC)).card < Fintype.card (Fin NPROC) := by
    refine (Finset.card_le_two).trans_lt ?_
    rw [Fintype.card_fin, NPROC]
    decide
  obtain ⟨q, hq⟩ := Finset.exists_mem_notMem_of_card_lt_card
    (hcard.trans_eq (Finset.card_univ).symm)
  refine ⟨q, fun h => hq.2 ?_, fun h => hq.2 ?_⟩
  · rw [h]
    exact Finset.mem_insert_self _ _
  · rw [h]
    exact Finset.mem_insert_of_mem (Finset.mem_singleton_self _)

/-- The first process forks a child and goes back to its program. -/
theorem child_reached : ∃ np s, Reaches (System.Booted 1 0x80108000) (System.Step 0x80108000 1) s ∧
    Away s initSlot ∧ np ≠ initSlot ∧ s.thread np = none ∧
      (s.memory.proc np).state = .runnable ∧ s.memory.lock = none ∧
      (∃ k, (s.memory.proc k).state = .unused) ∧ s.memory.freelist ≠ [] := by
  have hturn : Reaches (System.Booted 1 0x80108000) (System.Step 0x80108000 1)
      ⟨smallRunning, fun _ => none⟩ :=
    .step (.start smallSystem_booted) (.turn (.inr (.inl rfl)) (.inr (.inr rfl)))
  have hcall := Reaches.step hturn (.call (p := initSlot) .fork rfl (.inr (.inr rfl)))
  have hother : ∀ k, k ≠ initSlot → (smallRunning.proc k).state = .unused :=
    fun k hk => by
      rw [smallRunning, Memory.setProc_of_ne hk]
      exact (smallMemory_proc hk).1
  obtain ⟨q, hq, -⟩ := exists_slot initSlot initSlot
  have hsz : (smallRunning.proc initSlot).sz = 4096 := by
    rw [smallRunning, Memory.setProc_self]
    rfl
  have hfull : ∀ w, PGSIZE * w < (smallRunning.proc initSlot).sz.toNat →
      (smallDir.pte (PGSIZE * w)).isSome := fun w hw => by
    rw [hsz] at hw
    change 4096 * w < 4096 at hw
    obtain rfl : w = 0 := by omega
    rfl
  have hpages : ∀ f ∈ smallRunning.freelist, smallRunning.pgdir f = none := fun f hf => by
    have hge : 6 ≤ f := (List.mem_range'_1.mp hf).1
    exact if_neg (by omega)
  have hsize : (smallRunning.proc initSlot).sz.toNat ≤ PGSIZE * 1 := by
    rw [hsz]
    decide
  have hroom : NPDENTRIES + (1 + 1) + 2 ≤ smallRunning.freelist.length := by
    rw [show smallRunning.freelist.length = 1100 from List.length_range']
    decide
  obtain ⟨np, r, m, hrun, hnp, hchild, hlock, hproc, hfree⟩ := fork_alone 1 initSlot
    smallSystem_booted.linked rfl ⟨q, hother q hq⟩ (by decide) rfl (by rw [hsz]; decide) hfull
    hsize (fun fd i hi => by cases hi) hpages hroom
  have hne : np ≠ initSlot := by
    rintro rfl
    cases hnp
  have hforked : Reaches (System.Booted 1 0x80108000) (System.Step 0x80108000 1)
      ⟨m, Function.update (fun _ => none) initSlot (some (.ret (.user r)))⟩ :=
    hcall.many (System.steps_alone 1 initSlot hrun (fun r => .ret (.user r)) fun _ => none)
      fun _ _ h => h.1
  have hdone : (Function.update (fun _ => none) initSlot (some (.ret (.user r))) :
      Fin NPROC → Option (Kernel Next)) initSlot = some (.ret (.user r)) :=
    Function.update_self _ _ _
  have hback := Reaches.step hforked (.leave (s := ⟨m, _⟩) (p := initSlot) (r := r) hdone)
  obtain ⟨k, hk, hkp⟩ := exists_slot initSlot np
  refine ⟨np, _, hback, ⟨?_, .inr (.inr ?_)⟩, hne, ?_, hchild, hlock, ⟨k, ?_⟩,
    List.ne_nil_of_length_pos hfree⟩
  · rw [System.setThread]
    dsimp only
    rw [Function.update_self]
  · exact (congrArg Proc.state (hproc _ hne.symm)).trans rfl
  · rw [System.setThread]
    dsimp only
    rw [Function.update_of_ne hne, Function.update_of_ne hne]
  · exact (congrArg Proc.state (hproc k hkp)).trans (hother k hk)

/-- While the child is in `allocproc` the memory of the first process stays as it is. -/
theorem private_space_child : ∃ s t f, Reaches (System.Booted 1 0x80108000)
    (System.Step 0x80108000 1) s ∧
    Relation.ReflTransGen (System.Aside 0x80108000 1 initSlot) s t ∧
      s.memory.freelist = f :: t.memory.freelist ∧
      t.memory.space initSlot = s.memory.space initSlot ∧
      Away t initSlot := by
  obtain ⟨np, s, hreach, haway, hne, hidle, hchild, hlock, hunused, hfree⟩ := child_reached
  cases hlist : s.memory.freelist with
  | nil => exact absurd hlist hfree
  | cons f fl =>
      obtain ⟨k, m, hrun, -, hbeside⟩ := allocproc_alone 1 np hlock hunused hlist
      have hcall : System.Aside 0x80108000 1 initSlot s
          (s.setThread np (some (Call.fork.prog 0x80108000 np))) :=
        ⟨.call .fork hidle (.inr (.inl hchild)), Function.update_of_ne hne.symm _ _⟩
      have hprog : ∃ K, Call.fork.prog 0x80108000 np = allocproc.bind K := ⟨_, Prog.bind_assoc⟩
      obtain ⟨K, hK⟩ := hprog
      rw [hK] at hcall
      have hsteps : Relation.ReflTransGen (System.Aside 0x80108000 1 initSlot) _ _ :=
        (System.steps_alone 1 np hrun K s.thread).lift id fun _ _ h => ⟨h.1, h.2 _ hne.symm⟩
      have hall := hsteps.head hcall
      obtain ⟨hspace, haway', -⟩ := private_space hreach haway hall
      exact ⟨s, _, f, hreach, hall, hlist.trans (congrArg (f :: ·) hbeside.freelist.symm), hspace,
        haway'⟩

end SharedMemory

end Xv6Fairness
