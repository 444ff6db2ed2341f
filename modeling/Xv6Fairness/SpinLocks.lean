import Mathlib.Data.Fintype.Basic
import Mathlib.Data.Int.Basic
import Mathlib.Logic.Function.Basic
import Xv6Fairness.ThreadPrograms
import Xv6Fairness.TransitionRuns

/-!
# What the kernel does with its spin locks

Between system calls, interrupts and switches of threads, every function of the kernel is what it
does with spin locks and with the interrupts of its CPU: the program of its `acquire`, `release`,
`sleep` and `sched`. What the data decide, which branch is taken and how often a loop is gone
through, is left open.
-/

namespace Xv6Fairness

namespace SpinLocks

open ThreadPrograms

inductive Lock
  | ptable | kmem | cons | tickslock | idelock | log | bcache | icache | ftable
  | pipe (p : ℕ)
  | sleeplock (lk : ℕ)   -- lk->lk
  deriving DecidableEq

/-- The functions that a thread calls without a spin lock. What only calls them, as `iput` does, is
a sequence of such calls. -/
inductive Call
  | critical (l : Lock) 
       -- allocproc, fork, kill, kalloc, kfree, filealloc, iget, log_write, cprintf, ..
  | myproc
  | switchuvm
  | wait
  | acquiresleep (lk : ℕ)
  | releasesleep (lk : ℕ)
  | holdingsleep (lk : ℕ)
  | bget (lk : ℕ)
  | brelse (lk : ℕ)
  | iderw (lk : ℕ)
  | beginOp
  | endOp
  | endCommit
  | pipeclose (p : ℕ)
  | pipewrite (p : ℕ)
  | piperead (p : ℕ)
  | consoleread
  | sysSleep

/-- `choose` and `which` stand for the data, and `zombie` for `curproc->state = ZOMBIE`. -/
inductive Op
  | pushcli
  | popcli
  | mycpu
  | owner (l : Lock)   -- lock->locked && lock->cpu == mycpu()
  | xchg (l : Lock)    -- the loop of acquire
  | unlock (l : Lock)
  | ncli
  | readeflags         -- readeflags()&FL_IF
  | intena
  | setIntena (b : Bool)
  | swtch
  | sti
  | iret
  | zombie
  | choose
  | which
  | panic (s : String)

@[reducible] def Op.Res : Op → Type
  | owner _ | readeflags | intena => Bool
  | ncli => ℤ
  | choose => ℕ
  | which => Call
  | _ => Unit

abbrev Script := Prog Op.Res Unit

abbrev op (a : Op) : Prog Op.Res a.Res := Prog.perform a

def onlyIf (b : Bool) (f : Script) : Script := if b then f else return ()

def holding (l : Lock) : Prog Op.Res Bool := do
  op .pushcli
  let r ← op (.owner l)
  op .popcli
  return r

def acquire (l : Lock) : Script := do
  op .pushcli
  if ← holding l then op (.panic "acquire")
  op (.xchg l)

def release (l : Lock) : Script := do
  if !(← holding l) then op (.panic "release")
  op (.unlock l)
  op .popcli

def myproc : Script := do
  op .pushcli
  op .mycpu
  op .popcli

def sched : Script := do
  myproc
  if !(← holding .ptable) then op (.panic "sched ptable.lock")
  if (← op .ncli) ≠ 1 then op (.panic "sched locks")
  if ← op .readeflags then op (.panic "sched interruptible")
  let intena ← op .intena
  op .swtch
  op (.setIntena intena)

def sleep (lk : Lock) : Script := do
  myproc
  onlyIf (lk ≠ .ptable) do
    acquire .ptable
    release lk
  sched
  onlyIf (lk ≠ .ptable) do
    release .ptable
    acquire lk

def wakeup : Script := do
  acquire .ptable
  release .ptable

def yield : Script := do
  acquire .ptable
  myproc
  sched
  release .ptable

/-- The first process initialises the file system as well, with calls of their own. -/
def forkret : Script := do
  release .ptable
  op .iret

/-- A critical section in which nothing else happens. -/
def critical (l : Lock) : Script := do
  acquire l
  release l

def times (f : Script) : ℕ → Script
  | 0 => return ()
  | n + 1 => do
    f
    times f n

def often (f : Script) : Script := do
  times f (← op .choose)

def perhaps (f : Script) : Script := do
  if (← op .choose) ≠ 0 then f

def kalloc : Script := critical .kmem

def kfree : Script := critical .kmem

def cprintf : Script := critical .cons

def switchuvm : Script := do
  op .pushcli
  op .mycpu
  op .popcli

def wait : Script := do
  myproc
  acquire .ptable
  often (sleep .ptable)
  perhaps do
    kfree
    often kfree   -- freevm
  release .ptable

def acquiresleep (lk : ℕ) : Script := do
  acquire (.sleeplock lk)
  often (sleep (.sleeplock lk))
  myproc
  release (.sleeplock lk)

def releasesleep (lk : ℕ) : Script := do
  acquire (.sleeplock lk)
  wakeup
  release (.sleeplock lk)

def holdingsleep (lk : ℕ) : Script := do
  acquire (.sleeplock lk)
  perhaps myproc
  release (.sleeplock lk)

def bget (lk : ℕ) : Script := do
  critical .bcache
  acquiresleep lk

def brelse (lk : ℕ) : Script := do
  holdingsleep lk
  releasesleep lk
  critical .bcache

def iderw (lk : ℕ) : Script := do
  holdingsleep lk
  acquire .idelock
  often (sleep .idelock)
  release .idelock

def beginOp : Script := do
  acquire .log
  often (sleep .log)
  release .log

/-- The calls of `commit` are calls of their own, and so is what comes behind them. -/
def endOp : Script := do
  acquire .log
  perhaps wakeup
  release .log

/-- What `end_op` does behind `commit`. -/
def endCommit : Script := do
  acquire .log
  wakeup
  release .log

def pipeclose (p : ℕ) : Script := do
  acquire (.pipe p)
  wakeup
  release (.pipe p)
  perhaps kfree

def pipewrite (p : ℕ) : Script := do
  acquire (.pipe p)
  often do
    myproc
    wakeup
    sleep (.pipe p)
  perhaps myproc
  perhaps wakeup   -- not where it returns -1
  release (.pipe p)

def piperead (p : ℕ) : Script := do
  acquire (.pipe p)
  often do
    myproc
    sleep (.pipe p)
  perhaps myproc
  perhaps wakeup   -- not where it returns -1
  release (.pipe p)

def consoleread : Script := do
  acquire .cons
  often do
    myproc
    sleep .cons
  perhaps myproc
  release .cons

def sysSleep : Script := do
  acquire .tickslock
  often do
    myproc
    sleep .tickslock
  perhaps myproc
  release .tickslock

def Call.script : Call → Script
  | critical l => SpinLocks.critical l
  | myproc => SpinLocks.myproc
  | switchuvm => SpinLocks.switchuvm
  | wait => SpinLocks.wait
  | acquiresleep lk => SpinLocks.acquiresleep lk
  | releasesleep lk => SpinLocks.releasesleep lk
  | holdingsleep lk => SpinLocks.holdingsleep lk
  | bget lk => SpinLocks.bget lk
  | brelse lk => SpinLocks.brelse lk
  | iderw lk => SpinLocks.iderw lk
  | beginOp => SpinLocks.beginOp
  | endOp => SpinLocks.endOp
  | endCommit => SpinLocks.endCommit
  | pipeclose p => SpinLocks.pipeclose p
  | pipewrite p => SpinLocks.pipewrite p
  | piperead p => SpinLocks.piperead p
  | consoleread => SpinLocks.consoleread
  | sysSleep => SpinLocks.sysSleep

/-- The files are closed by calls. -/
def exit : Script := do
  myproc
  often do (← op .which).script
  acquire .ptable
  op .zombie
  sched
  op (.panic "zombie exit")

def ideintr : Script := do
  acquire .idelock
  perhaps wakeup
  release .idelock

def consoleintr : Script := do
  acquire .cons
  often wakeup
  release .cons
  perhaps (often cprintf)   -- procdump

inductive Irq
  | timer | ide | ide1 | input | spurious | fault
  deriving DecidableEq

/-- `trap`, where it is not for a system call. `proc` says that the CPU runs a process, and `user`
that it runs it in user space. -/
def trap (irq : Irq) (proc user : Bool) : Script := do
  match irq with
  | .timer => do
      op .mycpu
      perhaps do
        acquire .tickslock
        wakeup
        release .tickslock
  | .ide => ideintr
  | .ide1 => pure ()
  | .input => consoleintr
  | .spurious => do
      op .mycpu
      cprintf
  | .fault => do
      often myproc
      op .mycpu
      cprintf
  often myproc
  onlyIf (proc && user) (perhaps exit)
  often myproc
  onlyIf (proc && irq = .timer) yield
  often myproc
  onlyIf (proc && user) (perhaps exit)

/-- One turn of `for(;;)`. The CPU gets its process with `swtch`. -/
def scheduler : Script := do
  op .sti
  acquire .ptable
  perhaps do
    switchuvm
    op .swtch
  release .ptable

/-- The process of the CPU, or none in the scheduler, and its interrupts. -/
structure Cpu (ι : Type) where
  proc : Option ι
  eflags : Bool
  ncli : ℤ
  intena : Bool

/-- The CPUs execute threads and schedulers. -/
inductive Agent (κ ι : Type)
  | scheduler (c : κ)
  | thread (i : ι)
  deriving DecidableEq

/-- `todo` is what each thread and each scheduler has still to do. -/
structure System (κ ι : Type) where
  lock : Lock → Option κ
  cpu : κ → Cpu ι
  todo : Agent κ ι → Script
  zombie : ι → Bool

inductive Action (κ ι : Type)
  | run (c : κ) (n : ℕ) (a : Call) (i : ι) 
       -- with the choice of the data and the thread that is switched to
  | call (c : κ) (a : Call)
  | exit (c : κ)
  | schedule (c : κ)                 -- the next turn of for(;;)
  | interrupt (c : κ) (irq : Irq) (user : Bool)
  | spawn (i : ι)                    -- allocproc has given the thread a new context

variable {κ ι : Type} [DecidableEq κ] [DecidableEq ι] [Fintype κ]

namespace System

def setCpu (s : System κ ι) (c : κ) (x : Cpu ι) : System κ ι :=
  { s with cpu := Function.update s.cpu c x }

def setLock (s : System κ ι) (l : Lock) (o : Option κ) : System κ ι :=
  { s with lock := Function.update s.lock l o }

def agent (s : System κ ι) (c : κ) : Agent κ ι :=
  match (s.cpu c).proc with
  | some i => .thread i
  | none => .scheduler c

def script (s : System κ ι) (c : κ) : Script := s.todo (s.agent c)

def setScript (s : System κ ι) (c : κ) (x : Script) : System κ ι :=
  { s with todo := Function.update s.todo (s.agent c) x }

/-- `mycpu()` in front of what is done with it. -/
def mycpu (s : System κ ι) (c : κ) (t : System κ ι) : Option (Except String (System κ ι)) :=
  if (s.cpu c).eflags then some (.error "mycpu called with interrupts enabled\n") else some (.ok t)

/-- One operation of a CPU; an error is a panic. The thread that the scheduler switches to runs
nowhere and is no zombie. -/
def exec (s : System κ ι) (c : κ) (n : ℕ) (call : Call) (i : ι) :
    (a : Op) → (a.Res → Script) → Option (Except String (System κ ι))
  | .pushcli, k =>
    let x := s.cpu c
    some (.ok ((s.setScript c (k ())).setCpu c { x with
      eflags := false, ncli := x.ncli + 1, intena := if x.ncli = 0 then x.eflags else x.intena }))
  | .popcli, k =>
    let x := s.cpu c
    if x.eflags then some (.error "popcli - interruptible")
    else if x.ncli - 1 < 0 then some (.error "popcli")
    else some (.ok ((s.setScript c (k ())).setCpu c { x with
      ncli := x.ncli - 1, eflags := x.ncli - 1 = 0 ∧ x.intena = true }))
  | .mycpu, k => s.mycpu c (s.setScript c (k ()))
  | .owner l, k => s.mycpu c (s.setScript c (k (s.lock l = some c)))
  | .xchg l, k =>
    if s.lock l = none then some (.ok ((s.setScript c (k ())).setLock l (some c))) else none
  | .unlock l, k => some (.ok ((s.setScript c (k ())).setLock l none))
  | .ncli, k => s.mycpu c (s.setScript c (k (s.cpu c).ncli))
  | .readeflags, k => some (.ok (s.setScript c (k (s.cpu c).eflags)))
  | .intena, k => s.mycpu c (s.setScript c (k (s.cpu c).intena))
  | .setIntena b, k => s.mycpu c ((s.setScript c (k ())).setCpu c { s.cpu c with intena := b })
  | .swtch, k =>
    match (s.cpu c).proc with
    | some _ => some (.ok ((s.setScript c (k ())).setCpu c { s.cpu c with proc := none }))
    | none =>
      if s.zombie i = true ∨ ∃ d, (s.cpu d).proc = some i then none
      else some (.ok ((s.setScript c (k ())).setCpu c { s.cpu c with proc := some i }))
  | .sti, k => some (.ok ((s.setScript c (k ())).setCpu c { s.cpu c with eflags := true }))
  | .iret, k => some (.ok ((s.setScript c (k ())).setCpu c { s.cpu c with eflags := true }))
  | .zombie, k =>
    match (s.cpu c).proc with
    | some j => some (.ok { s.setScript c (k ()) with zombie := Function.update s.zombie j true })
    | none => none
  | .choose, k => some (.ok (s.setScript c (k n)))
  | .which, k => some (.ok (s.setScript c (k call)))
  | .panic msg, _ => some (.error msg)

/-- The CPU is in no function that has to do with spin locks, and may be in user space. -/
def resting (s : System κ ι) (c : κ) : Bool :=
  match (s.cpu c).proc, s.script c with
  | some _, .ret () => true
  | _, _ => false

def step (s : System κ ι) : Action κ ι → Option (Except String (System κ ι))
  | .run c n call i =>
    match s.script c with
    | .act a k => s.exec c n call i a k
    | .ret () => none
  | .call c a => if s.resting c then some (.ok (s.setScript c a.script)) else none
  | .exit c => if s.resting c then some (.ok (s.setScript c SpinLocks.exit)) else none
  | .schedule c =>
    match (s.cpu c).proc, s.script c with
    | none, .ret () => some (.ok (s.setScript c SpinLocks.scheduler))
    | _, _ => none
  | .interrupt c irq user =>
    -- faults in the kernel are left out
    if (s.cpu c).eflags ∧ (user → s.resting c) ∧ (irq = .fault → user) then
      let x : Script := do
        trap irq (s.cpu c).proc.isSome user
        op .iret
        s.script c
      some (.ok ((s.setScript c x).setCpu c { s.cpu c with eflags := false }))
    else none
  | .spawn i =>
    if ∃ d, (s.cpu d).proc = some i then none
    else some (.ok { s with
      todo := Function.update s.todo (.thread i) forkret,
        zombie := Function.update s.zombie i false })

/-- The next state, where the action is no panic. -/
def after (s : System κ ι) (a : Action κ ι) : Option (System κ ι) :=
  match s.step a with
  | some (.ok t) => some t
  | _ => none

/-- The CPUs are in front of their schedulers, and the threads have been made. -/
def Initial (s : System κ ι) : Prop :=
  (∀ l, s.lock l = none) ∧ (∀ c, (s.cpu c).proc = none ∧ (s.cpu c).ncli = 0) ∧
    (∀ c, s.todo (.scheduler c) = .ret ()) ∧ ∀ i, s.todo (.thread i) = forkret ∧ s.zombie i = false

abbrev Reachable : System κ ι → Prop :=
  TransitionRuns.Reaches Initial fun s t => ∃ a, s.after a = some t

/-- The CPU is in the loop of `acquire` for a lock that is taken. -/
def Spins (s : System κ ι) (c : κ) (l : Lock) : Prop := (∃ k, s.script c = .act (.xchg l) k) ∧
    s.lock l ≠ none

end System

end SpinLocks

end Xv6Fairness
