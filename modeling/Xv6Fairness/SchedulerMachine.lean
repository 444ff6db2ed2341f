import Xv6Fairness.ProcessTable
import Xv6Fairness.TransitionRuns

/-!
# CPUs, kernel threads and ptable.lock

The machine interleaves the CPUs of an xv6 kernel at the points where they take or release
`ptable.lock`. The lock belongs to a CPU, as in `holding`; `swtch` moves that CPU between its
scheduler and a kernel thread while the lock stays taken, so each critical section is spread over
the step that takes the lock, its body, the switches and the step that releases it.

A kernel thread outside these critical sections may start any operation, except that a thread
inside `fork` finishes it before it can call `fork`, `wait` or `exit`. Stores made without the
lock (by `fork` into the slot it was given, by `trap` into its own slot, by the loop in front of
the scheduler's `for(;;)`) are steps of their own. An interrupt handler that calls `wakeup` runs
on the thread it interrupts, or in the scheduler of an idle CPU.
-/

namespace Xv6Fairness

/-- Operations of a process that take `ptable.lock`. -/
inductive Op
  | allocproc
  | makeRunnable      -- the last critical section of fork
  | exit
  | wait
  | kill (pid : ℤ)
  | wakeup (addr : ℕ)
  | yield
  | sleep (addr : ℕ)  -- sleep(chan, lk) with lk other than ptable.lock
  | setpriority (pid priority : ℤ)
  deriving DecidableEq

/-- Where a CPU executes. -/
inductive Loc
  | boot              -- scheduler(), in front of its ageing loop
  | loop              -- scheduler(), before acquire
  | intr (addr : ℕ)   -- an interrupt in scheduler(), after acquire in wakeup()
  | scan              -- scheduler(), after acquire
  | back              -- scheduler(), swtch has returned
  | unlock            -- scheduler(), before release
  | thread            -- its process, outside ptable.lock
  | crit (op : Op)    -- its process, after acquire
  | resumed           -- its process, swtch has returned into it
  | leave             -- its process, before release
  deriving DecidableEq

/-- `struct cpu`: the process running on the CPU, and where the CPU executes. -/
structure Cpu where
  proc : Option Slot
  loc : Loc
  deriving DecidableEq

/-- Progress of a kernel thread inside `fork`, with the slot `allocproc` gave it. -/
inductive ForkPhase
  | none
  | allocated (np : Slot)   -- memory not copied yet
  | filled (np : Slot)      -- np->parent set
  deriving DecidableEq

def ForkPhase.child : ForkPhase → Option Slot
  | .none => Option.none
  | .allocated np => some np
  | .filled np => some np

/-- Where a kernel thread continues when `swtch` returns into it. -/
inductive Resume
  | forkret | yield | sleep | wait
  deriving DecidableEq

structure KThread where
  fork : ForkPhase := .none
  resume : Resume := .forkret
  deriving DecidableEq

/-- What the calls have done so far, by pid. -/
inductive Event
  | allocated (p : Slot) (pid : ℤ)
  | forked (parent child : ℤ)
  | exited (pid : ℤ)
  | reaped (parent child : ℤ)
  | waitFailed (pid : ℤ)
  | killed (pid ret : ℤ)
  | faulted (p : Slot) (pid : ℤ)
  deriving DecidableEq

/-- `log` is a history of results, latest first; no step reads it. -/
structure Machine (κ : Type) where
  ptable : Ptable
  lock : Option κ
  cpu : κ → Cpu
  thread : Slot → KThread
  log : List Event

namespace Machine

variable {κ : Type} [DecidableEq κ]

/-- The process table of the machine. -/
abbrev proc (s : Machine κ) : Slot → Proc Slot := s.ptable.proc

def setProc (s : Machine κ) (proc : Slot → Proc Slot) : Machine κ :=
  { s with ptable := { s.ptable with proc := proc } }

def setCpu (s : Machine κ) (c : κ) (x : Cpu) : Machine κ :=
  { s with cpu := Function.update s.cpu c x }

def setLoc (s : Machine κ) (c : κ) (loc : Loc) : Machine κ :=
  s.setCpu c { s.cpu c with loc := loc }

def setFork (s : Machine κ) (p : Slot) (phase : ForkPhase) : Machine κ :=
  { s with thread := Function.update s.thread p { s.thread p with fork := phase } }

def record (s : Machine κ) (e : Event) : Machine κ := { s with log := e :: s.log }

/-- `sched()`: the thread of `p` will continue at `resume`, the CPU in its scheduler. -/
def sched (s : Machine κ) (c : κ) (p : Slot) (resume : Resume) : Machine κ :=
  { s with thread := Function.update s.thread p { s.thread p with resume := resume } }.setLoc c
    .back

/-- Operations a thread may start where it is. `exit` panics on init. -/
def mayStart (s : Machine κ) (p : Slot) : Op → Bool
  | .allocproc | .wait => (s.thread p).fork = .none
  | .exit => (s.thread p).fork = .none ∧ p ≠ s.ptable.initproc
  | .makeRunnable => match (s.thread p).fork with
    | .filled _ => true
    | _ => false
  | _ => true

/-- One turn of the `for(;;)` of `wait`. -/
def waitTurn (s : Machine κ) (c : κ) (p : Slot) : Machine κ :=
  match waitScan p s.proc (List.finRange NPROC) false with
  | .found q =>
    ((s.setProc (reap q s.proc)).record (.reaped (s.proc p).pid (s.proc q).pid)).setLoc c .leave
  | .noZombie havekids =>
    if !havekids || (s.proc p).killed then (s.record (.waitFailed (s.proc p).pid)).setLoc c .leave
    else (s.setProc (fallAsleep (.proc p) p s.proc)).sched c p .wait

/-- The body of a critical section that process `p` runs on CPU `c`. -/
def body (s : Machine κ) (c : κ) (p : Slot) : Op → Machine κ
  | .allocproc => match allocproc s.ptable with
    | none => s.setLoc c .leave
    | some (np, t) =>
      (({ s with ptable := t }.setFork p (.allocated np)).record
        (.allocated np s.ptable.nextpid)).setLoc c .leave
  | .makeRunnable => match (s.thread p).fork with
    | .filled np =>
      (((s.setProc (setState .runnable np s.proc)).setFork p .none).record
        (.forked (s.proc p).pid (s.proc np).pid)).setLoc c .leave
    | _ => s
  | .exit =>
    ({ s with ptable := exitProc p s.ptable }.record (.exited (s.proc p).pid)).setLoc c .back
  | .wait => s.waitTurn c p
  | .kill pid =>
    ({ s with ptable := (kill pid s.ptable).1 }.record
      (.killed pid (kill pid s.ptable).2)).setLoc c .leave
  | .wakeup addr => (s.setProc (wakeup1 (some (.other addr)) s.proc)).setLoc c .leave
  | .yield => (s.setProc (giveUp p s.proc)).sched c p .yield
  | .sleep addr => (s.setProc (fallAsleep (.other addr) p s.proc)).sched c p .sleep
  | .setpriority pid priority =>
    { s with ptable := (setpriority pid priority s.ptable).1 }.setLoc c .leave

end Machine

/-- Steps, each of one CPU. -/
inductive Act (κ : Type)
  | age (c : κ)
  | acquire (c : κ)
  | interrupt (c : κ) (addr : ℕ)
  | wakeup (c : κ)
  | select (c : κ)
  | clear (c : κ)
  | release (c : κ)
  | enter (c : κ) (op : Op)
  | body (c : κ)
  | resume (c : κ)
  | forkFail (c : κ)
  | forkFill (c : κ)
  | fault (c : κ)
  deriving DecidableEq

namespace Machine

variable {κ : Type} [DecidableEq κ]

/-- The process whose thread CPU `c` executes at location `loc`. -/
def runs (s : Machine κ) (c : κ) (loc : Loc) : Option Slot :=
  if (s.cpu c).loc = loc then (s.cpu c).proc else none

def step (s : Machine κ) : Act κ → Option (Machine κ)
  | .age c =>
    if (s.cpu c).loc = .boot then some ((s.setProc (age s.proc)).setLoc c .loop) else none
  | .acquire c =>
    if (s.cpu c).loc = .loop ∧ s.lock = none then some ({ s with lock := some c }.setLoc c .scan)
    else none
  -- interrupts are enabled between sti() and acquire
  | .interrupt c addr =>
    if (s.cpu c).loc = .loop ∧ s.lock = none then
      some ({ s with lock := some c }.setLoc c (.intr addr))
    else none
  | .wakeup c => match (s.cpu c).loc with
    | .intr addr => some ((s.setProc (wakeup1 (some (.other addr)) s.proc)).setLoc c .unlock)
    | _ => none
  | .select c =>
    if (s.cpu c).loc = .scan then
      match highestPriorityProc s.proc with
      | none => some (s.setLoc c .unlock)
      | some p => some ((s.setProc (setState .running p s.proc)).setCpu c ⟨some p, .resumed⟩)
    else none
  | .clear c => if (s.cpu c).loc = .back then some (s.setCpu c ⟨none, .unlock⟩) else none
  | .release c =>
    match (s.cpu c).loc with
    | .unlock => some ({ s with lock := none }.setLoc c .loop)
    | .leave => some ({ s with lock := none }.setLoc c .thread)
    | _ => none
  | .enter c op => do
    let p ← s.runs c .thread
    if s.lock = none ∧ s.mayStart p op then some ({ s with lock := some c }.setLoc c (.crit op))
    else none
  | .body c => match s.cpu c with
    | ⟨some p, .crit op⟩ => some (s.body c p op)
    | _ => none
  | .resume c => do
    let p ← s.runs c .resumed
    match (s.thread p).resume with
    | .forkret | .yield => some (s.setLoc c .leave)
    | .sleep => some ((s.setProc (tidyUp p s.proc)).setLoc c .leave)
    | .wait => some ((s.setProc (tidyUp p s.proc)).setLoc c (.crit .wait))
  -- kalloc or copyuvm returned 0: np->state = UNUSED, without the lock
  | .forkFail c => do
    let p ← s.runs c .thread
    match (s.thread p).fork with
    | .allocated np => some ((s.setProc (setState .unused np s.proc)).setFork p .none)
    | _ => none
  -- the context returns to forkret, memory and files are copied, np->parent = curproc
  | .forkFill c => do
    let p ← s.runs c .thread
    match (s.thread p).fork with
    | .allocated np =>
      some (({ s with thread := Function.update s.thread np {} }.setProc
        (setParent (some p) np s.proc)).setFork p (.filled np))
    | _ => none
  -- trap: myproc()->killed = 1
  | .fault c => do
    let p ← s.runs c .thread
    some ((s.setProc (modify p (fun x => { x with killed := true }) s.proc)).record
      (.faulted p (s.proc p).pid))

/-- `Move s a t` spells out every way in which the step `a` can lead from `s` to `t`. -/
inductive Move (s : Machine κ) : Act κ → Machine κ → Prop
  | age {c : κ} (hl : (s.cpu c).loc = .boot) :
      Move s (.age c) ((s.setProc (age s.proc)).setLoc c .loop)
  | acquire {c : κ} (hl : (s.cpu c).loc = .loop) (hfree : s.lock = none) :
      Move s (.acquire c) ({ s with lock := some c }.setLoc c .scan)
  | interrupt {c : κ} {addr : ℕ} (hl : (s.cpu c).loc = .loop) (hfree : s.lock = none) :
      Move s (.interrupt c addr) ({ s with lock := some c }.setLoc c (.intr addr))
  | wakeup {c : κ} {addr : ℕ} (hl : (s.cpu c).loc = .intr addr) :
      Move s (.wakeup c) ((s.setProc (wakeup1 (some (.other addr)) s.proc)).setLoc c .unlock)
  | selectNone {c : κ} (hl : (s.cpu c).loc = .scan) (hn : highestPriorityProc s.proc = none) :
      Move s (.select c) (s.setLoc c .unlock)
  | select {c : κ} {p : Slot} (hl : (s.cpu c).loc = .scan)
      (hp : highestPriorityProc s.proc = some p) :
      Move s (.select c) ((s.setProc (setState .running p s.proc)).setCpu c ⟨some p, .resumed⟩)
  | clear {c : κ} (hl : (s.cpu c).loc = .back) : Move s (.clear c) (s.setCpu c ⟨none, .unlock⟩)
  | unlock {c : κ} (hl : (s.cpu c).loc = .unlock) :
      Move s (.release c) ({ s with lock := none }.setLoc c .loop)
  | leave {c : κ} (hl : (s.cpu c).loc = .leave) :
      Move s (.release c) ({ s with lock := none }.setLoc c .thread)
  | enter {c : κ} {p : Slot} {op : Op} (hc : s.cpu c = ⟨some p, .thread⟩) (hfree : s.lock = none)
      (hop : s.mayStart p op = true) :
      Move s (.enter c op) ({ s with lock := some c }.setLoc c (.crit op))
  | body {c : κ} {p : Slot} {op : Op} (hc : s.cpu c = ⟨some p, .crit op⟩) :
      Move s (.body c) (s.body c p op)
  | resume {c : κ} {p : Slot} (hc : s.cpu c = ⟨some p, .resumed⟩)
      (hr : (s.thread p).resume = .forkret ∨ (s.thread p).resume = .yield) :
      Move s (.resume c) (s.setLoc c .leave)
  | resumeSleep {c : κ} {p : Slot} (hc : s.cpu c = ⟨some p, .resumed⟩)
      (hr : (s.thread p).resume = .sleep) :
      Move s (.resume c) ((s.setProc (tidyUp p s.proc)).setLoc c .leave)
  | resumeWait {c : κ} {p : Slot} (hc : s.cpu c = ⟨some p, .resumed⟩)
      (hr : (s.thread p).resume = .wait) :
      Move s (.resume c) ((s.setProc (tidyUp p s.proc)).setLoc c (.crit .wait))
  | forkFail {c : κ} {p np : Slot} (hc : s.cpu c = ⟨some p, .thread⟩)
      (hf : (s.thread p).fork = .allocated np) :
      Move s (.forkFail c) ((s.setProc (setState .unused np s.proc)).setFork p .none)
  | forkFill {c : κ} {p np : Slot} (hc : s.cpu c = ⟨some p, .thread⟩)
      (hf : (s.thread p).fork = .allocated np) :
      Move s (.forkFill c) (({ s with thread := Function.update s.thread np {} }.setProc
        (setParent (some p) np s.proc)).setFork p (.filled np))
  | fault {c : κ} {p : Slot} (hc : s.cpu c = ⟨some p, .thread⟩) :
      Move s (.fault c) ((s.setProc (modify p (fun x => { x with killed := true }) s.proc)).record
        (.faulted p (s.proc p).pid))

omit [DecidableEq κ] in
theorem runs_eq_some {s : Machine κ} {c : κ} {loc : Loc} {p : Slot} (h : s.runs c loc = some p) :
    s.cpu c = ⟨some p, loc⟩ := by
  unfold runs at h
  split_ifs at h with hl
  rw [← h, ← hl]

theorem step_move {s t : Machine κ} {a : Act κ} (h : s.step a = some t) : Move s a t := by
  cases a with
  | age c =>
      obtain ⟨hl, h⟩ := Option.ite_none_right_eq_some.mp h
      cases h
      exact .age hl
  | acquire c =>
      obtain ⟨hl, h⟩ := Option.ite_none_right_eq_some.mp h
      cases h
      exact .acquire hl.1 hl.2
  | interrupt c addr =>
      obtain ⟨hl, h⟩ := Option.ite_none_right_eq_some.mp h
      cases h
      exact .interrupt hl.1 hl.2
  | wakeup c =>
      dsimp only [step] at h
      split at h <;> cases h
      exact .wakeup ‹_›
  | select c =>
      obtain ⟨hl, h⟩ := Option.ite_none_right_eq_some.mp h
      split at h <;> cases h
      · exact .selectNone hl ‹_›
      · exact .select hl ‹_›
  | clear c =>
      obtain ⟨hl, h⟩ := Option.ite_none_right_eq_some.mp h
      cases h
      exact .clear hl
  | release c =>
      dsimp only [step] at h
      split at h <;> cases h
      · exact .unlock ‹_›
      · exact .leave ‹_›
  | enter c op =>
      obtain ⟨p, hp, h⟩ := Option.bind_eq_some_iff.mp h
      obtain ⟨hl, h⟩ := Option.ite_none_right_eq_some.mp h
      cases h
      exact .enter (runs_eq_some hp) hl.1 hl.2
  | body c =>
      dsimp only [step] at h
      split at h <;> cases h
      exact .body ‹_›
  | resume c =>
      obtain ⟨p, hp, h⟩ := Option.bind_eq_some_iff.mp h
      have hc := runs_eq_some hp
      cases hr : (s.thread p).resume <;> simp only [hr] at h <;> cases h
      · exact .resume hc (Or.inl hr)
      · exact .resume hc (Or.inr hr)
      · exact .resumeSleep hc hr
      · exact .resumeWait hc hr
  | forkFail c =>
      obtain ⟨p, hp, h⟩ := Option.bind_eq_some_iff.mp h
      split at h <;> cases h
      exact .forkFail (runs_eq_some hp) ‹_›
  | forkFill c =>
      obtain ⟨p, hp, h⟩ := Option.bind_eq_some_iff.mp h
      split at h <;> cases h
      exact .forkFill (runs_eq_some hp) ‹_›
  | fault c =>
      obtain ⟨p, hp, h⟩ := Option.bind_eq_some_iff.mp h
      cases h
      exact .fault (runs_eq_some hp)

/-- The first process is RUNNABLE; a CPU is in front of its ageing loop or has passed it while
the table was still empty. -/
def Initial (s : Machine κ) : Prop :=
  s.ptable = userinit ∧ s.lock = none ∧ s.log = [] ∧ (∀ p, s.thread p = {}) ∧
    ∀ c, (s.cpu c).proc = none ∧ ((s.cpu c).loc = .boot ∨ (s.cpu c).loc = .loop)

/-- The machine with every CPU in front of its ageing loop. -/
def boot (κ : Type) : Machine κ where
  ptable := userinit
  lock := none
  cpu _ := ⟨none, .boot⟩
  thread _ := {}
  log := []

omit [DecidableEq κ] in
theorem boot_initial : (boot κ).Initial :=
  ⟨rfl, rfl, rfl, fun _ => rfl, fun _ => ⟨rfl, Or.inl rfl⟩⟩

def Next (s t : Machine κ) : Prop := ∃ a, s.step a = some t

/-- States of all interleavings. -/
abbrev Reachable : Machine κ → Prop := TransitionRuns.Reaches Initial Next

end Machine
end Xv6Fairness
