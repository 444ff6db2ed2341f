import Xv6Fairness.CpuInvariant

/-!
# The machine refines the life of its processes

A process inside a critical section is RUNNING, so the body of the section is a step of that
process in the abstract system; all other steps of the machine are steps of the abstract system
too, or leave it where it is. With the lock free, the CPU invariant says that RUNNING and being
some CPU's `c->proc` are the same.
-/

namespace Xv6Fairness
namespace Machine

variable {κ : Type}

/-- A process that holds the lock is still where it was in `fork` when it asked for the lock.
`wait` is left out: a thread comes back into it from its sleep. -/
def OpInv (s : Machine κ) : Prop :=
  ∀ c p op, s.cpu c = ⟨some p, .crit op⟩ → op ≠ .wait → s.mayStart p op = true

theorem mayStart_congr {s t : Machine κ} {p : Slot} (hfork : (t.thread p).fork = (s.thread p).fork)
    (hinit : t.ptable.initproc = s.ptable.initproc) (op : Op) :
    t.mayStart p op = s.mayStart p op := by
  cases op <;> simp only [mayStart, hfork, hinit]

variable [DecidableEq κ]

/-- One CPU changes, and it does not enter a critical section; the threads of the other CPUs'
processes stay where they are in `fork`. -/
theorem OpInv.update {s t : Machine κ} {c : κ} {x : Cpu} (ho : OpInv s)
    (hcpu : t.cpu = Function.update s.cpu c x) (hx : ∀ op, op ≠ .wait → x.loc ≠ .crit op)
    (hfork : ∀ d q, d ≠ c → (s.cpu d).proc = some q → (t.thread q).fork = (s.thread q).fork)
    (hinit : t.ptable.initproc = s.ptable.initproc) : OpInv t := by
  intro d q op hd hop
  by_cases hdc : d = c
  · subst hdc
    rw [hcpu, Function.update_self] at hd
    exact absurd (by rw [hd]) (hx op hop)
  · rw [hcpu, Function.update_of_ne hdc] at hd
    rw [mayStart_congr (hfork d q hdc (by rw [hd])) hinit]
    exact ho d q op hd hop

omit [DecidableEq κ] in
theorem setFork_thread (s : Machine κ) (p : Slot) (phase : ForkPhase) (q : Slot) :
    ((s.setFork p phase).thread q).fork = if q = p then phase else (s.thread q).fork := by
  unfold setFork
  by_cases h : q = p
  · subst h
    simp
  · simp [h]

theorem sched_thread (s : Machine κ) (c : κ) (p : Slot) (r : Resume) (q : Slot) :
    ((s.sched c p r).thread q).fork = (s.thread q).fork := by
  change (Function.update s.thread p { s.thread p with resume := r } q).fork = _
  by_cases h : q = p
  · subst h
    simp
  · simp [h]

theorem OpInv.body {s : Machine κ} {c : κ} {p : Slot} {op : Op} (hi : CpuInv s) (ho : OpInv s)
    (hc : s.cpu c = ⟨some p, .crit op⟩) : OpInv (s.body c p op) := by
  have hne : ∀ d q, d ≠ c → (s.cpu d).proc = some q → q ≠ p := by
    rintro d q hd hq rfl
    exact hd (hi.inj d c q hq (by rw [hc]))
  have hfork : ∀ phase d q, d ≠ c → (s.cpu d).proc = some q →
      ((s.setFork p phase).thread q).fork = (s.thread q).fork := fun phase d q hd hq => by
    rw [setFork_thread, if_neg (hne d q hd hq)]
  cases op with
  | allocproc =>
      cases h : allocproc s.ptable with
      | none =>
          simp only [Machine.body, h]
          exact ho.update rfl (by simp) (fun _ _ _ _ => rfl) rfl
      | some r =>
          simp only [Machine.body, h]
          exact ho.update rfl (by simp) (hfork _) (allocproc_eq_some h).2.2.2.2
  | makeRunnable =>
      cases hph : (s.thread p).fork with
      | filled np =>
          simp only [Machine.body, hph]
          exact ho.update rfl (by simp) (hfork _) rfl
      | none =>
          simpa only [Machine.body, hph] using ho
      | allocated np =>
          simpa only [Machine.body, hph] using ho
  | exit => exact ho.update rfl (by simp) (fun _ _ _ _ => rfl) rfl
  | wait =>
      cases h : waitScan p s.proc (List.finRange NPROC) false with
      | found q =>
          simp only [Machine.body, waitTurn, h]
          exact ho.update rfl (by simp) (fun _ _ _ _ => rfl) rfl
      | noZombie havekids =>
          simp only [Machine.body, waitTurn, h]
          split_ifs
          · exact ho.update rfl (by simp) (fun _ _ _ _ => rfl) rfl
          · exact ho.update rfl (by simp) (fun _ _ _ _ => sched_thread _ _ _ _ _) rfl
  | kill pid =>
      refine ho.update rfl (by simp) (fun _ _ _ _ => rfl) ?_
      change (kill pid s.ptable).1.initproc = _
      rcases kill_cases pid s.ptable with ⟨-, h⟩ | ⟨r, -, -, h⟩ <;> rw [h]
  | wakeup addr => exact ho.update rfl (by simp) (fun _ _ _ _ => rfl) rfl
  | yield => exact ho.update rfl (by simp) (fun _ _ _ _ => sched_thread _ _ _ _ _) rfl
  | sleep addr => exact ho.update rfl (by simp) (fun _ _ _ _ => sched_thread _ _ _ _ _) rfl
  | setpriority pid priority =>
      refine ho.update rfl (by simp) (fun _ _ _ _ => rfl) ?_
      change (setpriority pid priority s.ptable).1.initproc = _
      rcases setpriority_cases pid priority s.ptable with ⟨-, h⟩ | ⟨r, -, -, h⟩ <;> rw [h]

theorem OpInv.step {s t : Machine κ} {a : Act κ} (hi : CpuInv s) (hf : s.life.ForkInv)
    (ho : OpInv s) (h : s.step a = some t) : OpInv t := by
  have hself : ∀ c, s.cpu = Function.update s.cpu c (s.cpu c) := fun c => by simp
  cases step_move h with
  | age hl => exact ho.update rfl (by simp) (fun _ _ _ _ => rfl) rfl
  | acquire hl hfree => exact ho.update rfl (by simp) (fun _ _ _ _ => rfl) rfl
  | interrupt hl hfree => exact ho.update rfl (by simp) (fun _ _ _ _ => rfl) rfl
  | wakeup hl => exact ho.update rfl (by simp) (fun _ _ _ _ => rfl) rfl
  | selectNone hl hn => exact ho.update rfl (by simp) (fun _ _ _ _ => rfl) rfl
  | select hl hp => exact ho.update rfl (by simp) (fun _ _ _ _ => rfl) rfl
  | clear hl => exact ho.update rfl (by simp) (fun _ _ _ _ => rfl) rfl
  | unlock hl => exact ho.update rfl (by simp) (fun _ _ _ _ => rfl) rfl
  | leave hl => exact ho.update rfl (by simp) (fun _ _ _ _ => rfl) rfl
  | @enter c p op hc hfree hop =>
      intro d q op' hd hop'
      by_cases hdc : d = c
      · subst hdc
        have he : (⟨some p, .crit op⟩ : Cpu) = ⟨some q, .crit op'⟩ := by
          rw [← hd]
          simp [setLoc, setCpu, hc]
        cases he
        rw [← hop]
        exact mayStart_congr rfl rfl op
      · rw [← ho d q op' (by rw [← hd]; simp [setLoc, setCpu, hdc]) hop']
        exact mayStart_congr rfl rfl op'
  | body hc => exact ho.body hi hc
  | resume hc hr => exact ho.update rfl (by simp) (fun _ _ _ _ => rfl) rfl
  | resumeSleep hc hr => exact ho.update rfl (by simp) (fun _ _ _ _ => rfl) rfl
  | resumeWait hc hr =>
      exact ho.update rfl (by rintro op hop ⟨⟩; exact hop rfl) (fun _ _ _ _ => rfl) rfl
  | @forkFail c p np hc hph =>
      refine ho.update (hself c) (by simp [hc]) (fun d q hd hq => ?_) rfl
      have hne : q ≠ p := by
        rintro rfl
        exact hd (hi.inj d c q hq (by rw [hc]))
      rw [setFork_thread, if_neg hne]
      rfl
  | @forkFill c p np hc hph =>
      refine ho.update (hself c) (by simp [hc]) (fun d q hd hq => ?_) rfl
      have hne : q ≠ p := by
        rintro rfl
        exact hd (hi.inj d c q hq (by rw [hc]))
      have hnp : q ≠ np := by
        rintro rfl
        exact hi.embryo_not_current (fork_child_embryo hf hph rfl) hq
      rw [setFork_thread, if_neg hne]
      simp [setProc, hnp]
  | @fault c p hc => exact ho.update (hself c) (by simp [hc]) (fun _ _ _ _ => rfl) rfl

omit [DecidableEq κ] in
theorem life_setFork (s : Machine κ) (p : Slot) (phase : ForkPhase) :
    (s.setFork p phase).life = s.life.setFork p phase := by
  have hfork : (fun q => ((s.setFork p phase).thread q).fork) =
      Function.update (fun q => (s.thread q).fork) p phase := by
    funext q
    rw [setFork_thread, Function.update_apply]
  unfold life
  rw [hfork]
  rfl

omit [DecidableEq κ] in
theorem life_setProc (s : Machine κ) (proc : Slot → Proc Slot) :
    (s.setProc proc).life = s.life.setProc proc := rfl

omit [DecidableEq κ] in
theorem life_record (s : Machine κ) (e : Event) : (s.record e).life = s.life.record e := rfl

theorem life_setLoc (s : Machine κ) (c : κ) (loc : Loc) : (s.setLoc c loc).life = s.life := rfl

theorem life_sched (s : Machine κ) (c : κ) (p : Slot) (r : Resume) :
    (s.sched c p r).life = s.life := by
  have hfork : (fun q => ((s.sched c p r).thread q).fork) = fun q => (s.thread q).fork :=
    funext fun q => sched_thread s c p r q
  unfold life
  rw [hfork]
  rfl

theorem life_body {s : Machine κ} {c : κ} {p : Slot} {op : Op} (hi : CpuInv s) (ho : OpInv s)
    (hc : s.cpu c = ⟨some p, .crit op⟩) : Life.Step s.life (s.body c p op).life := by
  have hp : (s.life.proc p).state = .running :=
    hi.active_running (by rw [hc]; rfl) (by rw [hc])
  cases op with
  | allocproc =>
      have hf : (s.thread p).fork = .none := by
        simpa [mayStart] using ho c p _ hc (by simp)
      cases h : allocproc s.ptable with
      | none =>
          simp only [Machine.body, h]
          exact .stutter
      | some r =>
          simp only [Machine.body, h, life_setLoc, life_record, life_setFork]
          exact .allocate hp hf h
  | makeRunnable =>
      cases hph : (s.thread p).fork with
      | filled np =>
          simp only [Machine.body, hph, life_setLoc, life_record, life_setFork, life_setProc]
          exact .makeRunnable hp hph
      | none =>
          simp only [Machine.body, hph]
          exact .stutter
      | allocated np =>
          simp only [Machine.body, hph]
          exact .stutter
  | exit =>
      have hm : (s.thread p).fork = .none ∧ p ≠ s.ptable.initproc := by
        simpa [mayStart] using ho c p _ hc (by simp)
      exact .exit hp hm.1 hm.2
  | wait =>
      cases h : waitScan p s.proc (List.finRange NPROC) false with
      | found q =>
          simp only [Machine.body, waitTurn, h]
          exact .reap hp h
      | noZombie havekids =>
          simp only [Machine.body, waitTurn, h]
          split_ifs with hk
          · have hk' : havekids = false ∨ (s.proc p).killed = true := by simpa using hk
            exact .waitFail hp h hk'
          · rw [life_sched]
            exact .waitSleep hp h
  | kill pid => exact .kill pid
  | wakeup addr => exact .wakeup addr
  | yield =>
      simp only [Machine.body, life_sched]
      exact .yield hp
  | sleep addr =>
      simp only [Machine.body, life_sched]
      exact .sleep addr hp
  | setpriority pid priority => exact .setpriority pid priority

theorem life_step {s t : Machine κ} {a : Act κ} (hi : CpuInv s) (ho : OpInv s)
    (h : s.step a = some t) : Life.Step s.life t.life := by
  have hrun : ∀ {c : κ} {p : Slot} {loc : Loc}, s.cpu c = ⟨some p, loc⟩ → loc.active = true →
      (s.life.proc p).state = .running := fun hc hloc =>
    hi.active_running (by rw [hc]; exact hloc) (by rw [hc])
  cases step_move h with
  | age hl => exact .age
  | acquire hl hfree => exact .stutter
  | interrupt hl hfree => exact .stutter
  | wakeup hl => exact .wakeup _
  | selectNone hl hn => exact .stutter
  | select hl hp => exact .select (highestPriorityProc_eq_some hp).1
  | clear hl => exact .stutter
  | unlock hl => exact .stutter
  | leave hl => exact .stutter
  | enter hc hfree hop => exact .stutter
  | body hc => exact life_body hi ho hc
  | resume hc hr => exact .stutter
  | resumeSleep hc hr => exact .tidy (hrun hc rfl)
  | resumeWait hc hr => exact .tidy (hrun hc rfl)
  | forkFail hc hph =>
      rw [life_setFork, life_setProc]
      exact .forkFail (hrun hc rfl) hph
  | @forkFill c p np hc hph =>
      have hnew : (fun q => (Function.update s.thread np {} q).fork) =
          Function.update (fun q => (s.thread q).fork) np .none := by
        funext q
        by_cases hq : q = np <;> simp [hq]
      have hlife : ({ s with thread := Function.update s.thread np {} } : Machine κ).life =
          s.life.setFork np .none := by
        unfold life
        rw [hnew]
        rfl
      rw [life_setFork, life_setProc, hlife]
      exact .forkFill (hrun hc rfl) hph
  | fault hc => exact .fault (hrun hc rfl)

/-- The invariants that the refinement rests on. -/
structure Sound (s : Machine κ) : Prop where
  cpu : CpuInv s
  op : OpInv s
  fork : s.life.ForkInv

theorem Sound.step {s t : Machine κ} {a : Act κ} (h : Sound s) (hst : s.step a = some t) :
    Sound t :=
  ⟨h.cpu.step h.fork hst, h.op.step h.cpu h.fork hst,
    h.fork.change (life_step h.cpu h.op hst).change⟩

omit [DecidableEq κ] in
theorem Initial.life {s : Machine κ} (h : Initial s) : s.life.Initial := by
  obtain ⟨ht, -, hlog, hthread, -⟩ := h
  refine ⟨ht, fun p => ?_, hlog⟩
  change (s.thread p).fork = .none
  rw [hthread]

omit [DecidableEq κ] in
theorem Initial.cpuInv {s : Machine κ} (h : Initial s) : CpuInv s := by
  obtain ⟨ht, hlock, -, -, hcpu⟩ := h
  refine ⟨fun c => ?_, fun c => ?_, fun p hp => ?_, fun c d p hc hd => ?_⟩
  · rcases (hcpu c).2 with hl | hl <;> simp [hl, hlock, Loc.holding]
  · rcases (hcpu c).2 with hl | hl <;> simp [Cpu.Ok, hl, Loc.active, (hcpu c).1]
  · rw [proc, ht, userinit_eq.1] at hp
    simp only [setState, modify_state] at hp
    split_ifs at hp
  · rw [(hcpu c).1] at hc
    cases hc

omit [DecidableEq κ] in
theorem Initial.opInv {s : Machine κ} (h : Initial s) : OpInv s := by
  intro c p op hc
  have hnone := (h.2.2.2.2 c).1
  rw [hc] at hnone
  cases hnone

theorem Reachable.sound {s : Machine κ} (h : Reachable s) : Sound s := by
  induction h with
  | start h => exact ⟨h.cpuInv, h.opInv, h.life.forkInv⟩
  | step hr hn ih =>
      obtain ⟨a, hst⟩ := hn
      exact ih.step hst

theorem Reachable.lifeStep {s t : Machine κ} (h : Reachable s) (hn : Next s t) :
    s.life.Step t.life := by
  obtain ⟨a, hst⟩ := hn
  exact life_step h.sound.cpu h.sound.op hst

theorem Reachable.life {s : Machine κ} (h : Reachable s) : s.life.Reachable :=
  h.simulation (fun _ h0 => h0.life) fun _ _ hr hn => Reachable.lifeStep hr hn

/-- With `ptable.lock` free, a process is RUNNING if and only if it is the current process of
some CPU, and then of only one; processes in any other state are current nowhere. -/
theorem running_iff_current {s : Machine κ} (h : Reachable s) (hfree : s.lock = none) :
    (∀ p, (s.proc p).state = .running ↔ ∃ c, (s.cpu c).proc = some p) ∧
      (∀ c d p, (s.cpu c).proc = some p → (s.cpu d).proc = some p → c = d) ∧
      ∀ c p, (s.proc p).state ∈
        [ProcState.unused, .embryo, .sleeping, .runnable, .zombie] → (s.cpu c).proc ≠ some p := by
  have hi := (Reachable.sound h).cpu
  have hcurrent : ∀ c p, (s.cpu c).proc = some p → (s.proc p).state = .running := by
    intro c p hp
    rcases hi.current_state hp with hrun | ⟨hb, -⟩
    · exact hrun
    · have hhold := (hi.lock c).mp (by rw [hb]; rfl)
      rw [hfree] at hhold
      cases hhold
  refine ⟨fun p => ⟨hi.running p, fun ⟨c, hc⟩ => hcurrent c p hc⟩, hi.inj, fun c p hp hc => ?_⟩
  rw [hcurrent c p hc] at hp
  simp at hp

/-- Two CPUs; the first has run one pass of its scheduling loop. -/
theorem running_iff_current_first_pass :
    ∃ s : Machine (Fin 2), Reachable s ∧ (s.cpu 0).proc = some 0 ∧
      ((s.proc 0).state = .running ↔ ∃ c, (s.cpu c).proc = some 0) := by
  have hrun : ((TransitionRuns.execute step (boot (Fin 2))
      [.age 0, .acquire 0, .select 0, .resume 0, .release 0]).any fun s =>
        decide (s.lock = none ∧ (s.cpu 0).proc = some 0)) = true := by decide +kernel
  obtain ⟨s, hs, hprop⟩ := (Option.any_eq_true _ _).mp hrun
  obtain ⟨hfree, hproc⟩ := of_decide_eq_true hprop
  have hreach : Reachable s := TransitionRuns.Reaches.execute (.start boot_initial) hs
  exact ⟨s, hreach, hproc, (running_iff_current hreach hfree).1 0⟩

/-- A pass of the loop of `scheduler()` under `ptable.lock` selects a process if and only if one is
RUNNABLE: one with the least priority value, in the first slot of those. Nothing but its state
changes in the table. -/
theorem scheduler_choice {s : Machine κ} (h : Reachable s) {c : κ} (hl : (s.cpu c).loc = .scan) :
    ∃ t, s.step (.select c) = some t ∧
      ((∃ p, (t.cpu c).proc = some p) ↔ ∃ q, (s.proc q).state = .runnable) ∧
      (∀ p, (t.cpu c).proc = some p → (s.proc p).state = .runnable ∧
        (∀ q, (s.proc q).state = .runnable → (s.proc p).priority ≤ (s.proc q).priority) ∧
        (∀ q, (s.proc q).state = .runnable → (s.proc q).priority = (s.proc p).priority → p ≤ q) ∧
        t.ptable = { s.ptable with
          proc := Function.update s.proc p { s.proc p with state := .running } }) ∧
      ((t.cpu c).proc = none → t.ptable = s.ptable) := by
  have hidle : (s.cpu c).proc = none := by
    have hok := (Reachable.sound h).cpu.ok c
    simpa [Cpu.Ok, hl, Loc.active] using hok
  cases hbest : highestPriorityProc s.proc with
  | none =>
      have hstep : s.step (.select c) = some (s.setLoc c .unlock) := by
        simp [step, hl, hbest]
      have hcpu : ((s.setLoc c .unlock).cpu c).proc = none := by
        simp [setLoc, setCpu, hidle]
      refine ⟨_, hstep, ?_, fun p hp => ?_, fun _ => rfl⟩
      · rw [hcpu]
        refine iff_of_false ?_ ?_
        · rintro ⟨p, hp⟩
          exact Option.some_ne_none p hp.symm
        · rintro ⟨q, hq⟩
          exact highestPriorityProc_eq_none hbest q hq
      · rw [hcpu] at hp
        cases hp
  | some b =>
      obtain ⟨hrun, hfirst⟩ := highestPriorityProc_eq_some hbest
      have hstep : s.step (.select c) =
          some ((s.setProc (setState .running b s.proc)).setCpu c ⟨some b, .resumed⟩) := by
        simp [step, hl, hbest]
      have hcpu :
          (((s.setProc (setState .running b s.proc)).setCpu c ⟨some b, .resumed⟩).cpu c).proc =
            some b := by
        simp [setCpu]
      refine ⟨_, hstep, ?_, fun p hp => ?_, fun hnone => ?_⟩
      · exact iff_of_true ⟨b, hcpu⟩ ⟨b, hrun⟩
      · obtain rfl : b = p := Option.some.inj (hcpu.symm.trans hp)
        refine ⟨hrun, fun q hq => ?_, fun q hq heq => ?_, ?_⟩
        · rcases hfirst q hq with hlt | ⟨heq, -⟩
          · exact hlt.le
          · exact heq.le
        · rcases hfirst q hq with hlt | ⟨-, hle⟩
          · exact absurd heq hlt.ne'
          · exact hle
        · rfl
      · rw [hcpu] at hnone
        cases hnone

/-- The first pass after booting selects the first process. -/
theorem scheduler_choice_first_pass : ∃ s t : Machine Unit, Reachable s ∧
    s.step (.select ()) = some t ∧ ∃ p, (t.cpu ()).proc = some p ∧
    (s.proc p).state = .runnable := by
  have hrun : ((TransitionRuns.execute step (boot Unit) [.age (), .acquire ()]).any fun s =>
      decide ((s.cpu ()).loc = .scan ∧ (s.proc 0).state = .runnable)) = true := by decide +kernel
  obtain ⟨s, hs, hprop⟩ := (Option.any_eq_true _ _).mp hrun
  obtain ⟨hloc, hrunnable⟩ := of_decide_eq_true hprop
  have hreach : Reachable s := TransitionRuns.Reaches.execute (.start boot_initial) hs
  obtain ⟨t, hstep, hiff, hchosen, -⟩ := scheduler_choice hreach hloc
  obtain ⟨p, hp⟩ := hiff.mpr ⟨0, hrunnable⟩
  exact ⟨s, t, hreach, hstep, p, hp, (hchosen p hp).1⟩

end Machine
end Xv6Fairness
