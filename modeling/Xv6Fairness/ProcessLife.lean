import Xv6Fairness.SchedulerMachine

/-!
# The life of a process

An abstract system over the process table alone: every critical section of `proc.c`, and every
store made without the lock, is one atomic step of the process that executes it. CPUs, the lock
and the switches between kernel threads are gone; what is left of a kernel thread is how far it is
inside `fork`. The machine of CPUs is shown to refine this system, so what holds along every run
here holds of every interleaving there.
-/

namespace Xv6Fairness

structure Life where
  table : Ptable
  fork : Slot → ForkPhase
  log : List Event

namespace Life

abbrev proc (v : Life) : Slot → Proc Slot := v.table.proc

def setProc (v : Life) (proc : Slot → Proc Slot) : Life :=
  { v with table := { v.table with proc := proc } }

def setFork (v : Life) (p : Slot) (phase : ForkPhase) : Life :=
  { v with fork := Function.update v.fork p phase }

def record (v : Life) (e : Event) : Life := { v with log := e :: v.log }

/-- Steps of the RUNNING process `p`, of the scheduler (`age`, `select`), or of any process. -/
inductive Step (v : Life) : Life → Prop
  | stutter : Step v v
  | age : Step v (v.setProc (age v.proc))
  | select {p : Slot} (hp : (v.proc p).state = .runnable) :
      Step v (v.setProc (setState .running p v.proc))
  | allocate {p np : Slot} {t : Ptable} (hp : (v.proc p).state = .running)
      (hf : v.fork p = .none) (h : allocproc v.table = some (np, t)) :
      Step v (({ v with table := t }.setFork p (.allocated np)).record
        (.allocated np v.table.nextpid))
  | forkFail {p np : Slot} (hp : (v.proc p).state = .running) (hf : v.fork p = .allocated np) :
      Step v ((v.setProc (setState .unused np v.proc)).setFork p .none)
  | forkFill {p np : Slot} (hp : (v.proc p).state = .running) (hf : v.fork p = .allocated np) :
      Step v (((v.setFork np .none).setProc (setParent (some p) np v.proc)).setFork p
        (.filled np))
  | makeRunnable {p np : Slot} (hp : (v.proc p).state = .running) (hf : v.fork p = .filled np) :
      Step v (((v.setProc (setState .runnable np v.proc)).setFork p .none).record
        (.forked (v.proc p).pid (v.proc np).pid))
  | exit {p : Slot} (hp : (v.proc p).state = .running) (hf : v.fork p = .none)
      (hinit : p ≠ v.table.initproc) :
      Step v ({ v with table := exitProc p v.table }.record (.exited (v.proc p).pid))
  | reap {p q : Slot} (hp : (v.proc p).state = .running)
      (h : waitScan p v.proc (List.finRange NPROC) false = .found q) :
      Step v ((v.setProc (reap q v.proc)).record (.reaped (v.proc p).pid (v.proc q).pid))
  | waitFail {p : Slot} {havekids : Bool} (hp : (v.proc p).state = .running)
      (h : waitScan p v.proc (List.finRange NPROC) false = .noZombie havekids)
      (hk : havekids = false ∨ (v.proc p).killed = true) :
      Step v (v.record (.waitFailed (v.proc p).pid))
  | waitSleep {p : Slot} {havekids : Bool} (hp : (v.proc p).state = .running)
      (h : waitScan p v.proc (List.finRange NPROC) false = .noZombie havekids) :
      Step v (v.setProc (fallAsleep (.proc p) p v.proc))
  | kill (pid : ℤ) :
      Step v ({ v with table := (kill pid v.table).1 }.record (.killed pid (kill pid v.table).2))
  | wakeup (addr : ℕ) : Step v (v.setProc (wakeup1 (some (.other addr)) v.proc))
  | yield {p : Slot} (hp : (v.proc p).state = .running) : Step v (v.setProc (giveUp p v.proc))
  | sleep {p : Slot} (addr : ℕ) (hp : (v.proc p).state = .running) :
      Step v (v.setProc (fallAsleep (.other addr) p v.proc))
  | tidy {p : Slot} (hp : (v.proc p).state = .running) : Step v (v.setProc (tidyUp p v.proc))
  | setpriority (pid priority : ℤ) :
      Step v { v with table := (setpriority pid priority v.table).1 }
  | fault {p : Slot} (hp : (v.proc p).state = .running) :
      Step v ((v.setProc (modify p (fun x => { x with killed := true }) v.proc)).record
        (.faulted p (v.proc p).pid))

end Life

/-- Stages in the life of a slot. -/
inductive Stage
  | free | embryo | alive | zombie
  deriving DecidableEq

def ProcState.stage : ProcState → Stage
  | .unused => .free
  | .embryo => .embryo
  | .sleeping | .runnable | .running => .alive
  | .zombie => .zombie

namespace ProcState

@[simp] theorem stage_eq_free {st : ProcState} : st.stage = .free ↔ st = .unused := by
  cases st <;> simp [stage]

@[simp] theorem stage_eq_embryo {st : ProcState} : st.stage = .embryo ↔ st = .embryo := by
  cases st <;> simp [stage]

@[simp] theorem stage_eq_zombie {st : ProcState} : st.stage = .zombie ↔ st = .zombie := by
  cases st <;> simp [stage]

end ProcState

namespace Life

def stage (v : Life) (p : Slot) : Stage := (v.proc p).state.stage

abbrev pid (v : Life) (p : Slot) : ℤ := (v.proc p).pid

abbrev parent (v : Life) (p : Slot) : Option Slot := (v.proc p).parent

section Projections

variable (v : Life) (proc : Slot → Proc Slot) (p q : Slot) (phase : ForkPhase) (e : Event)

@[simp] theorem setProc_proc : (v.setProc proc).proc = proc := rfl
@[simp] theorem setFork_proc : (v.setFork p phase).proc = v.proc := rfl
@[simp] theorem record_proc : (v.record e).proc = v.proc := rfl
@[simp] theorem setProc_fork : (v.setProc proc).fork = v.fork := rfl
@[simp] theorem record_fork : (v.record e).fork = v.fork := rfl
@[simp] theorem setProc_log : (v.setProc proc).log = v.log := rfl
@[simp] theorem setFork_log : (v.setFork p phase).log = v.log := rfl
@[simp] theorem record_log : (v.record e).log = e :: v.log := rfl
@[simp] theorem stage_setProc : (v.setProc proc).stage p = (proc p).state.stage := rfl
@[simp] theorem stage_setFork : (v.setFork p phase).stage q = v.stage q := rfl
@[simp] theorem stage_record : (v.record e).stage p = v.stage p := rfl

end Projections

/-- Asleep in `wait`. -/
def InWait (v : Life) (p : Slot) : Prop :=
  (v.proc p).state = .sleeping ∧ (v.proc p).chan = some (.proc p)

/-- A step after which the same processes exist, with the same parents. -/
structure Quiet (v w : Life) : Prop where
  stage : ∀ p, w.stage p = v.stage p
  pid : ∀ p, w.pid p = v.pid p
  parent : ∀ p, w.parent p = v.parent p
  fork : w.fork = v.fork
  nextpid : w.table.nextpid = v.table.nextpid
  initproc : w.table.initproc = v.table.initproc
  inWait : ∀ p, w.InWait p → v.InWait p ∨ ∀ q, v.parent q = some p → v.stage q ≠ .zombie
  log : w.log = v.log ∨ (∃ pid ret, w.log = .killed pid ret :: v.log) ∨
    (∃ p pid, w.log = .faulted p pid :: v.log) ∨ ∃ p, w.log = .waitFailed (v.pid p) :: v.log ∧
      (v.proc p).state = .running ∧
      (∀ q, v.parent q = some p → v.stage q ≠ .zombie) ∧
        ((∀ q, v.parent q ≠ some p) ∨ (v.proc p).killed = true)

/-- A step that changes stages, pids, parents and the phases of `fork` as given. -/
structure Effect (v w : Life) (stage : Slot → Stage) (pid : Slot → ℤ)
    (parent : Slot → Option Slot) (fork : Slot → ForkPhase) (log : List Event) : Prop where
  stage : ∀ p, w.stage p = stage p
  pid : ∀ p, w.pid p = pid p
  parent : ∀ p, w.parent p = parent p
  fork : w.fork = fork
  log : w.log = log
  initproc : w.table.initproc = v.table.initproc
  inWait : ∀ p, w.InWait p → v.InWait p

open Function in
/-- The steps by what they change. -/
inductive Change (v w : Life) : Prop
  | quiet (h : Quiet v w)
  | allocate {p np : Slot} (hp : v.stage p = .alive) (hf : v.fork p = .none)
      (hnp : v.stage np = .free) (hnext : w.table.nextpid = succInt v.table.nextpid)
      (h : Effect v w (update v.stage np .embryo) (update v.pid np v.table.nextpid) v.parent
        (update v.fork p (.allocated np)) (.allocated np v.table.nextpid :: v.log))
  | forkFail {p np : Slot} (hp : v.stage p = .alive) (hf : v.fork p = .allocated np)
      (hnext : w.table.nextpid = v.table.nextpid)
      (h : Effect v w (update v.stage np .free) v.pid v.parent (update v.fork p .none) v.log)
  | forkFill {p np : Slot} (hp : v.stage p = .alive) (hf : v.fork p = .allocated np)
      (hnext : w.table.nextpid = v.table.nextpid)
      (h : Effect v w v.stage v.pid (update v.parent np (some p))
        (update (update v.fork np .none) p (.filled np)) v.log)
  | makeRunnable {p np : Slot} (hp : v.stage p = .alive) (hf : v.fork p = .filled np)
      (hnext : w.table.nextpid = v.table.nextpid)
      (h : Effect v w (update v.stage np .alive) v.pid v.parent (update v.fork p .none)
        (.forked (v.pid p) (v.pid np) :: v.log))
  | exit {p : Slot} (hp : v.stage p = .alive) (hf : v.fork p = .none)
      (hinit : p ≠ v.table.initproc) (hnext : w.table.nextpid = v.table.nextpid)
      (h : Effect v w (update v.stage p .zombie) v.pid
        (fun q => if v.parent q = some p then some v.table.initproc else v.parent q) v.fork
        (.exited (v.pid p) :: v.log))
      (hwake : ∀ i, w.InWait i → v.parent p ≠ some i ∧
        ((∃ q, v.parent q = some p ∧ v.stage q = .zombie) → i ≠ v.table.initproc))
  | reap {p q : Slot} (hp : v.stage p = .alive) (hparent : v.parent q = some p)
      (hq : v.stage q = .zombie) (hnext : w.table.nextpid = v.table.nextpid)
      (h : Effect v w (update v.stage q .free) (update v.pid q 0) (update v.parent q none) v.fork
        (.reaped (v.pid p) (v.pid q) :: v.log))

/-- Stores into the table alone that keep stages, pids, parents and sleepers in `wait`. -/
theorem Quiet.of_proc {v : Life} {proc : Slot → Proc Slot}
    (hstage : ∀ p, (proc p).state.stage = v.stage p)
    (hpid : ∀ p, (proc p).pid = (v.proc p).pid)
    (hparent : ∀ p, (proc p).parent = (v.proc p).parent)
    (hwait : ∀ p, (proc p).state = .sleeping → (proc p).chan = some (.proc p) →
      v.InWait p ∨ ∀ q, (v.proc q).parent = some p → v.stage q ≠ .zombie) :
    Quiet v (v.setProc proc) :=
  ⟨hstage, hpid, hparent, rfl, rfl, rfl, fun p hp => hwait p hp.1 hp.2, Or.inl rfl⟩

theorem stage_running {v : Life} {p : Slot} (hp : (v.proc p).state = .running) :
    v.stage p = .alive := by
  rw [Life.stage, hp]
  rfl

theorem Quiet.of_modify {v : Life} {p : Slot} {f : Proc Slot → Proc Slot}
    (hstage : (f (v.proc p)).state.stage = v.stage p) (hpid : (f (v.proc p)).pid = (v.proc p).pid)
    (hparent : (f (v.proc p)).parent = (v.proc p).parent)
    (hwait : (f (v.proc p)).state = .sleeping → (f (v.proc p)).chan = some (.proc p) →
      v.InWait p ∨ ∀ q, (v.proc q).parent = some p → v.stage q ≠ .zombie) :
    Quiet v (v.setProc (modify p f v.proc)) := by
  refine Quiet.of_proc (fun q => ?_) (fun q => ?_) (fun q => ?_) fun q hs hc => ?_
  · by_cases hq : q = p
    · rw [hq, modify_self, hstage]
    · rw [modify_of_ne hq, Life.stage]
  · by_cases hq : q = p
    · rw [hq, modify_self, hpid]
    · rw [modify_of_ne hq]
  · by_cases hq : q = p
    · rw [hq, modify_self, hparent]
    · rw [modify_of_ne hq]
  · by_cases hq : q = p
    · subst hq
      rw [modify_self] at hs hc
      exact hwait hs hc
    · rw [modify_of_ne hq] at hs hc
      exact Or.inl ⟨hs, hc⟩

theorem Quiet.wakeup1 (v : Life) (addr : ℕ) :
    Quiet v (v.setProc (wakeup1 (some (.other addr)) v.proc)) := by
  refine Quiet.of_proc (fun p => ?_) (wakeup1_pid _ _) (wakeup1_parent _ _) fun p hs hc => ?_
  · rw [wakeup1_state, Life.stage]
    split_ifs with h
    · rw [h.1]
      rfl
    · rfl
  · rw [wakeup1_chan] at hc
    rw [wakeup1_state] at hs
    split_ifs at hs
    exact Or.inl ⟨hs, hc⟩

theorem Quiet.kill (v : Life) (pid : ℤ) :
    Quiet v ({ v with table := (kill pid v.table).1 }.record
      (.killed pid (kill pid v.table).2)) := by
  have hk : Quiet v { v with table := (Xv6Fairness.kill pid v.table).1 } := by
    rcases kill_cases pid v.table with ⟨-, h⟩ | ⟨p, -, -, h⟩
    · rw [h]
      exact Quiet.of_proc (fun _ => rfl) (fun _ => rfl) (fun _ => rfl) fun p hs hc =>
        Or.inl ⟨hs, hc⟩
    · rw [h]
      refine Quiet.of_modify ?_ rfl rfl fun hs hc => Or.inl ⟨?_, hc⟩
      · dsimp only
        split_ifs with hs
        · rw [Life.stage, hs]
          rfl
        · rfl
      · dsimp only at hs
        split_ifs at hs
        exact hs
  exact ⟨hk.stage, hk.pid, hk.parent, hk.fork, hk.nextpid, hk.initproc, hk.inWait,
    Or.inr (Or.inl ⟨pid, _, rfl⟩)⟩

theorem stage_modify {v : Life} {p : Slot} (f : Proc Slot → Proc Slot) (q : Slot) :
    (modify p f v.proc q).state.stage =
      if q = p then (f (v.proc p)).state.stage else v.stage q := by
  rw [modify_state]
  split_ifs with h
  · rw [h]
  · rfl

theorem stage_exit (v : Life) (p q : Slot) :
    ((exitProc p v.table).proc q).state.stage = if q = p then .zombie else v.stage q := by
  split_ifs with h
  · rw [h, exitProc_state_self]
    rfl
  · rcases exitProc_state_cases p v.table h with h | ⟨h1, h2⟩
    · rw [h, Life.stage]
    · rw [h2, Life.stage, h1]
      rfl

theorem Effect.of_modify {v w : Life} (p : Slot) (f : Proc Slot → Proc Slot)
    (hproc : w.proc = modify p f v.proc) {fork : Slot → ForkPhase} {log : List Event}
    (hfork : w.fork = fork) (hlog : w.log = log) (hinit : w.table.initproc = v.table.initproc)
    (hwait : (f (v.proc p)).state = .sleeping → (f (v.proc p)).chan = some (.proc p) →
      v.InWait p) :
    Effect v w (Function.update v.stage p (f (v.proc p)).state.stage)
      (Function.update v.pid p (f (v.proc p)).pid)
      (Function.update v.parent p (f (v.proc p)).parent) fork log := by
  refine ⟨fun q => ?_, fun q => ?_, fun q => ?_, hfork, hlog, hinit, fun q hq => ?_⟩
  · rw [Life.stage, hproc, stage_modify, Function.update_apply]
  · rw [Life.pid, hproc, modify_pid, Function.update_apply]
    split_ifs with h
    · rw [h]
    · rfl
  · rw [Life.parent, hproc, modify_parent, Function.update_apply]
    split_ifs with h
    · rw [h]
    · rfl
  · rw [InWait, hproc, modify_state, modify_chan] at hq
    by_cases h : q = p
    · subst h
      rw [if_pos rfl, if_pos rfl] at hq
      exact hwait hq.1 hq.2
    · rw [if_neg h, if_neg h] at hq
      exact hq

/-- `exit` leaves asleep in `wait` neither the parent nor, when it hands over a zombie, init. -/
theorem exit_inWait {v : Life} {p i : Slot}
    (hi : InWait ({ v with table := exitProc p v.table }.record (.exited (v.pid p))) i) :
    v.InWait i ∧ v.parent p ≠ some i ∧
      ((∃ q, v.parent q = some p ∧ v.stage q = .zombie) → i ≠ v.table.initproc) := by
  obtain ⟨hs, hc⟩ := hi
  have hne : i ≠ p := by
    rintro rfl
    rw [record_proc, exitProc_state_self] at hs
    cases hs
  rw [record_proc, exitProc_state p v.table hne] at hs
  rw [record_proc, exitProc_chan] at hc
  split_ifs at hs with hcond
  have hno := fun h => hcond ⟨hs, h⟩
  refine ⟨⟨hs, hc⟩, fun hparent => hno (Or.inl ?_), fun ⟨q, hq, hz⟩ hinit => hno (Or.inr ?_)⟩
  · rw [hc, show (v.table.proc p).parent = some i from hparent, Option.map_some]
  · exact ⟨⟨q, hq, ProcState.stage_eq_zombie.mp hz⟩, by rw [hc, hinit]⟩

theorem Effect.exit (v : Life) (p : Slot) :
    Effect v ({ v with table := exitProc p v.table }.record (.exited (v.pid p)))
      (Function.update v.stage p .zombie) v.pid
      (fun q => if v.parent q = some p then some v.table.initproc else v.parent q) v.fork
      (.exited (v.pid p) :: v.log) := by
  refine ⟨fun q => ?_, exitProc_pid p v.table, exitProc_parent p v.table, rfl, rfl, rfl,
    fun q hq => (exit_inWait hq).1⟩
  rw [Function.update_apply]
  exact stage_exit v p q

theorem Step.change {v w : Life} (h : Step v w) : Change v w := by
  cases h with
  | stutter =>
      exact .quiet (Quiet.of_proc (fun _ => rfl) (fun _ => rfl) (fun _ => rfl) fun p hs hc =>
        Or.inl ⟨hs, hc⟩)
  | age =>
      have hage {β : Type} (g : Proc Slot → β) (hg : ∀ x n, g { x with priority := n } = g x)
          (p : Slot) : g (Xv6Fairness.age v.proc p) = g (v.proc p) := age_field g hg v.proc p
      refine .quiet (Quiet.of_proc (fun p => ?_) (hage _ fun _ _ => rfl) (hage _ fun _ _ => rfl)
        fun p hs hc => Or.inl ⟨?_, ?_⟩)
      · rw [hage Proc.state (fun _ _ => rfl), Life.stage]
      · rwa [hage Proc.state (fun _ _ => rfl)] at hs
      · rwa [hage Proc.chan (fun _ _ => rfl)] at hc
  | select hp =>
      exact .quiet (Quiet.of_modify (by rw [Life.stage, hp]; rfl) rfl rfl fun hs _ => by cases hs)
  | @allocate p np t hp hf h =>
      obtain ⟨hfree, -, hproc, hnext, hinit⟩ := allocproc_eq_some h
      let w := ({ v with table := t }.setFork p (.allocated np)).record
        (.allocated np v.table.nextpid)
      have heff := Effect.of_modify (w := w) np _ hproc rfl rfl hinit (by simp)
      rw [Function.update_eq_self] at heff
      exact .allocate (stage_running hp) hf (ProcState.stage_eq_free.mpr hfree) hnext heff
  | @forkFail p np hp hf =>
      let w := (v.setProc (setState .unused np v.proc)).setFork p .none
      have heff := Effect.of_modify (w := w) np (fun x => { x with state := .unused }) rfl rfl rfl
        rfl (by simp)
      rw [Function.update_eq_self, Function.update_eq_self] at heff
      exact .forkFail (stage_running hp) hf rfl heff
  | @forkFill p np hp hf =>
      let w := ((v.setFork np .none).setProc (setParent (some p) np v.proc)).setFork p (.filled np)
      have heff := Effect.of_modify (w := w) np (fun x => { x with parent := some p }) rfl rfl rfl
        rfl fun hs hc => ⟨hs, hc⟩
      have hstage : Function.update v.stage np ((v.proc np).state.stage) = v.stage :=
        Function.update_eq_self np v.stage
      rw [Function.update_eq_self, hstage] at heff
      exact .forkFill (stage_running hp) hf rfl heff
  | @makeRunnable p np hp hf =>
      let w := ((v.setProc (setState .runnable np v.proc)).setFork p .none).record
        (.forked (v.pid p) (v.pid np))
      have heff := Effect.of_modify (w := w) np (fun x => { x with state := .runnable }) rfl rfl rfl
        rfl (by simp)
      rw [Function.update_eq_self, Function.update_eq_self] at heff
      exact .makeRunnable (stage_running hp) hf rfl heff
  | exit hp hf hinit =>
      exact .exit (stage_running hp) hf hinit rfl (Effect.exit v _) fun i hi => (exit_inWait hi).2
  | @reap p q hp h =>
      obtain ⟨hparent, hz⟩ := waitScan_found h
      let w := (v.setProc (Xv6Fairness.reap q v.proc)).record (.reaped (v.pid p) (v.pid q))
      have heff := Effect.of_modify (w := w) q
        (fun x => { x with pid := 0, parent := none, killed := false, state := .unused }) rfl rfl
        rfl rfl (by simp)
      exact .reap (stage_running hp) hparent (ProcState.stage_eq_zombie.mpr hz) rfl heff
  | @waitFail p havekids hp h hk =>
      have hzombie : ∀ q, v.parent q = some p → v.stage q ≠ .zombie := fun q hq hz =>
        (waitScan_noZombie h).1 q (List.mem_finRange q) hq (ProcState.stage_eq_zombie.mp hz)
      refine .quiet ⟨fun _ => rfl, fun _ => rfl, fun _ => rfl, rfl, rfl, rfl,
        fun q hq => Or.inl hq, Or.inr (Or.inr (Or.inr ⟨p, rfl, hp, hzombie, ?_⟩))⟩
      rcases hk with hk | hk
      · refine Or.inl fun q hq => ?_
        have hkids := (waitScan_noZombie h).2.mpr (Or.inr ⟨q, List.mem_finRange q, hq⟩)
        rw [hk] at hkids
        cases hkids
      · exact Or.inr hk
  | waitSleep hp h =>
      refine .quiet (Quiet.of_modify (by rw [Life.stage, hp]; rfl) rfl rfl fun _ _ => Or.inr ?_)
      intro q hq hz
      exact (waitScan_noZombie h).1 q (List.mem_finRange q) hq (ProcState.stage_eq_zombie.mp hz)
  | kill pid => exact .quiet (Quiet.kill v pid)
  | wakeup addr => exact .quiet (Quiet.wakeup1 v addr)
  | yield hp =>
      exact .quiet (Quiet.of_modify (by rw [Life.stage, hp]; rfl) rfl rfl fun hs _ => by cases hs)
  | sleep addr hp =>
      exact .quiet (Quiet.of_modify (by rw [Life.stage, hp]; rfl) rfl rfl fun _ hc => by cases hc)
  | tidy hp => exact .quiet (Quiet.of_modify rfl rfl rfl fun _ hc => by cases hc)
  | setpriority pid priority =>
      rcases setpriority_cases pid priority v.table with ⟨-, h⟩ | ⟨p, -, -, h⟩
      · rw [h]
        exact .quiet (Quiet.of_proc (fun _ => rfl) (fun _ => rfl) (fun _ => rfl) fun p hs hc =>
          Or.inl ⟨hs, hc⟩)
      · rw [h]
        exact .quiet (Quiet.of_modify rfl rfl rfl fun hs hc => Or.inl ⟨hs, hc⟩)
  | @fault p hp =>
      have hq : Quiet v (v.setProc (modify p (fun x => { x with killed := true }) v.proc)) :=
        Quiet.of_modify rfl rfl rfl fun hs hc => Or.inl ⟨hs, hc⟩
      exact .quiet ⟨hq.stage, hq.pid, hq.parent, hq.fork, hq.nextpid, hq.initproc, hq.inWait,
        Or.inr (Or.inr (Or.inl ⟨p, _, rfl⟩))⟩

/-- The slot that a thread inside `fork` owns is EMBRYO, and no other thread owns it. -/
structure ForkInv (v : Life) : Prop where
  embryo : ∀ p np, (v.fork p).child = some np → v.stage np = .embryo
  inj : ∀ p q np, (v.fork p).child = some np → (v.fork q).child = some np → p = q

theorem ForkInv.embryo_state {v : Life} (hi : ForkInv v) {p np : Slot}
    (h : (v.fork p).child = some np) : (v.proc np).state = .embryo :=
  ProcState.stage_eq_embryo.mp (hi.embryo p np h)

theorem ForkInv.update {v w : Life} (hi : ForkInv v) (p : Slot)
    (hother : ∀ q np, q ≠ p → (w.fork q).child = some np → (v.fork q).child = some np)
    (hkeep : ∀ q np, q ≠ p → (v.fork q).child = some np → w.stage np = .embryo)
    (hown : ∀ np, (w.fork p).child = some np →
      w.stage np = .embryo ∧ ∀ q, q ≠ p → (v.fork q).child ≠ some np) : ForkInv w := by
  refine ⟨fun q np h => ?_, fun q r np hq hr => ?_⟩
  · by_cases hqp : q = p
    · exact (hown np (hqp ▸ h)).1
    · exact hkeep q np hqp (hother q np hqp h)
  · by_cases hqp : q = p
    · by_cases hrp : r = p
      · rw [hqp, hrp]
      · exact absurd (hother r np hrp hr) ((hown np (hqp ▸ hq)).2 r hrp)
    · by_cases hrp : r = p
      · exact absurd (hother q np hqp hq) ((hown np (hrp ▸ hr)).2 q hqp)
      · exact hi.inj q r np (hother q np hqp hq) (hother r np hrp hr)

theorem ForkInv.finish {v w : Life} (hi : ForkInv v) {p np : Slot} {st : Stage}
    (hf : (v.fork p).child = some np) (hstage : ∀ q, w.stage q = Function.update v.stage np st q)
    (hfork : w.fork = Function.update v.fork p .none) : ForkInv w := by
  refine hi.update p (fun q r hq hr => ?_) (fun q r hq hr => ?_) fun r hr => ?_
  · rwa [hfork, Function.update_of_ne hq] at hr
  · have hne : r ≠ np := fun he => hq (hi.inj q p np (he ▸ hr) hf)
    rw [hstage, Function.update_of_ne hne, hi.embryo q r hr]
  · rw [hfork, Function.update_self] at hr
    cases hr

theorem ForkInv.change {v w : Life} (hi : ForkInv v) (hc : Change v w) : ForkInv w := by
  cases hc with
  | quiet h =>
      refine ⟨fun p np hp => ?_, fun p q np hp hq => ?_⟩
      · rw [h.fork] at hp
        rw [h.stage]
        exact hi.embryo p np hp
      · rw [h.fork] at hp hq
        exact hi.inj p q np hp hq
  | @allocate p np hp hf hnp hnext h =>
      refine hi.update p (fun q r hq hr => ?_) (fun q r hq hr => ?_) fun r hr => ?_
      · rwa [h.fork, Function.update_of_ne hq] at hr
      · rw [h.stage, Function.update_apply]
        split_ifs
        · rfl
        · exact hi.embryo q r hr
      · rw [h.fork, Function.update_self] at hr
        cases hr
        refine ⟨by rw [h.stage, Function.update_self], fun q hq hr => ?_⟩
        rw [hi.embryo q np hr] at hnp
        cases hnp
  | @forkFail p np hp hf hnext h =>
      exact hi.finish (by rw [hf]; rfl) h.stage h.fork
  | @forkFill p np hp hf hnext h =>
      have hown : (v.fork p).child = some np := by rw [hf]; rfl
      refine hi.update p (fun q r hq hr => ?_) (fun q r hq hr => ?_) fun r hr => ?_
      · rw [h.fork, Function.update_of_ne hq, Function.update_apply] at hr
        split_ifs at hr
        · cases hr
        · exact hr
      · rw [h.stage, hi.embryo q r hr]
      · rw [h.fork, Function.update_self] at hr
        cases hr
        exact ⟨by rw [h.stage, hi.embryo p np hown], fun q hq hr => hq (hi.inj q p np hr hown)⟩
  | @makeRunnable p np hp hf hnext h => exact hi.finish (by rw [hf]; rfl) h.stage h.fork
  | @exit p hp hf hinit hnext h hwake =>
      refine hi.update p (fun q r hq hr => by rwa [h.fork] at hr)
        (fun q r hq hr => ?_) fun r hr => ?_
      · rw [h.stage, Function.update_apply]
        split_ifs with hrp
        · rw [← hrp, hi.embryo q r hr] at hp
          cases hp
        · exact hi.embryo q r hr
      · rw [h.fork, hf] at hr
        cases hr
  | @reap p q hp hparent hq hnext h =>
      refine ⟨fun r s hr => ?_, fun r s t hr hs => ?_⟩
      · rw [h.fork] at hr
        rw [h.stage, Function.update_apply]
        split_ifs with hsq
        · rw [← hsq, hi.embryo r s hr] at hq
          cases hq
        · exact hi.embryo r s hr
      · rw [h.fork] at hr hs
        exact hi.inj r s t hr hs

def Initial (v : Life) : Prop := v.table = userinit ∧ (∀ p, v.fork p = .none) ∧ v.log = []

abbrev Reachable : Life → Prop := TransitionRuns.Reaches Initial Step

/-- Invariants of the life of processes need only look at the steps by what they change. -/
theorem Reachable.invariant {inv : Life → Prop} (h0 : ∀ v, Initial v → inv v)
    (hchange : ∀ v w, Reachable v → inv v → Change v w → inv w) {v : Life} (h : Reachable v) :
    inv v :=
  TransitionRuns.Reaches.invariant h0 (fun v w hr hi hn => hchange v w hr hi hn.change) h

theorem Initial.forkInv {v : Life} (h : Initial v) : ForkInv v := by
  refine ⟨fun p np hc => ?_, fun p q np hp _ => ?_⟩
  · rw [h.2.1 p] at hc
    cases hc
  · rw [h.2.1 p] at hp
    cases hp

theorem Reachable.forkInv {v : Life} (h : Reachable v) : ForkInv v :=
  Reachable.invariant (fun _ => Initial.forkInv) (fun _ _ _ hi hc => hi.change hc) h

end Life
end Xv6Fairness
