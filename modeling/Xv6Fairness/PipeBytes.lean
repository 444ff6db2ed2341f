import Mathlib.Data.Fintype.Basic
import Xv6Fairness.Holders
import Xv6Fairness.ProcessTable
import Xv6Fairness.RingHistory
import Xv6Fairness.TransitionRuns

/-!
# Pipes

Any number of processes write into a pipe, read from it, close its ends and are killed. The lock of
the pipe is taken and released by steps of their own, and so is `ptable.lock` where `sleep` holds it
across the release of the lock of the pipe; the other critical sections of `ptable.lock` are one
step each. The bytes that writers store and readers get are recorded.
-/

namespace Xv6Fairness

namespace Pipes

open Holders RingHistory TransitionRuns

def PIPESIZE : ℕ := 512

structure Pipe where
  data : ℕ → UInt8
  nread : UInt32
  nwrite : UInt32
  readopen : Bool
  writeopen : Bool

/-- The channel `&p->nread`. -/
def nreadChan {ι : Type} : Chan ι := .other 0

/-- The channel `&p->nwrite`. -/
def nwriteChan {ι : Type} : Chan ι := .other 1

namespace Pipe

variable (q : Pipe)

def Full : Prop := q.nwrite = q.nread + UInt32.ofNat PIPESIZE

def Empty : Prop := q.nread = q.nwrite

instance : Decidable q.Full := inferInstanceAs (Decidable (_ = _))

instance : Decidable q.Empty := inferInstanceAs (Decidable (_ = _))

/-- `p->data[p->nwrite++ % PIPESIZE] = b` -/
def put (b : UInt8) : Pipe :=
  { q with
    data := Function.update q.data (q.nwrite.toNat % PIPESIZE) b
    nwrite := q.nwrite + 1 }

/-- `p->data[p->nread++ % PIPESIZE]`: the byte, and the pipe after it. -/
def get : UInt8 × Pipe := (q.data (q.nread.toNat % PIPESIZE), { q with nread := q.nread + 1 })

def close (writable : Bool) : Pipe :=
  if writable then { q with writeopen := false } else { q with readopen := false }

/-- The end that is written to, or the end that is read from, is open. -/
def isOpen (writable : Bool) : Bool := if writable then q.writeopen else q.readopen

end Pipe

/-- Where a process is in `pipewrite`, `piperead` or `pipeclose`. -/
inductive Pc
  | idle
  | writeEnter (msg : List UInt8) (i : ℕ)    -- before acquire, also in sleep()
  | writeLoop (msg : List UInt8) (i : ℕ)
  | writeFull (msg : List UInt8) (i : ℕ)     -- before wakeup in the loop
  | writeSleep (msg : List UInt8) (i : ℕ)    -- before sleep()
  | writeFalling (msg : List UInt8) (i : ℕ)  -- in sleep(), after release(lk)
  | writeAsleep (msg : List UInt8) (i : ℕ)
  | writeDone (msg : List UInt8)             -- before wakeup behind the loop
  | writeLeave (ret : ℤ)                     -- before release
  | readEnter (n : ℕ)
  | readWhile (n : ℕ)
  | readSleep (n : ℕ)
  | readFalling (n : ℕ)
  | readAsleep (n : ℕ)
  | readLoop (n i : ℕ)
  | readDone (n i : ℕ)                       -- before wakeup
  | readLeave (n : ℕ) (ret : ℤ)              -- before release
  | closeEnter (writable : Bool)
  | closeMark (writable : Bool)
  | closeWake (writable : Bool)              -- before wakeup
  | closeLeave (writable : Bool)             -- before release, and kfree at the second end
  deriving DecidableEq

inductive Op (ι : Type)
  | acquire
  | release
  | test
  | put (b : UInt8)
  | get
  | close (writable : Bool)
  | wakeup (chan : Chan ι)
  | sleepLock               -- acquire(&ptable.lock); release(lk)
  | fallAsleep (chan : Chan ι)
  | resume
  deriving DecidableEq

section Code

variable {ι : Type}

/-- What a process does next, and where it is after that. -/
def Pc.next (q : Pipe) (killed : Bool) : Pc → Option (Op ι × Pc)
  | .idle => none
  | .writeEnter msg i => some (.acquire, .writeLoop msg i)
  | .writeLoop msg i =>
    match msg[i]? with
    | none => some (.test, .writeDone msg)
    | some b =>
      if q.Full then
        if q.readopen = false ∨ killed = true then some (.test, .writeLeave (-1))
        else some (.test, .writeFull msg i)
      else some (.put b, .writeLoop msg (i + 1))
  | .writeFull msg i => some (.wakeup nreadChan, .writeSleep msg i)
  | .writeSleep msg i => some (.sleepLock, .writeFalling msg i)
  | .writeFalling msg i => some (.fallAsleep nwriteChan, .writeAsleep msg i)
  | .writeAsleep msg i => some (.resume, .writeEnter msg i)
  | .writeDone msg => some (.wakeup nreadChan, .writeLeave msg.length)
  | .writeLeave _ => some (.release, .idle)
  | .readEnter n => some (.acquire, .readWhile n)
  | .readWhile n =>
    if q.Empty ∧ q.writeopen = true then
      if killed = true then some (.test, .readLeave n (-1)) else some (.test, .readSleep n)
    else some (.test, .readLoop n 0)
  | .readSleep n => some (.sleepLock, .readFalling n)
  | .readFalling n => some (.fallAsleep nreadChan, .readAsleep n)
  | .readAsleep n => some (.resume, .readEnter n)
  | .readLoop n i =>
    if i < n ∧ ¬ q.Empty then some (.get, .readLoop n (i + 1)) else some (.test, .readDone n i)
  | .readDone n i => some (.wakeup nwriteChan, .readLeave n i)
  | .readLeave _ _ => some (.release, .idle)
  | .closeEnter w => some (.acquire, .closeMark w)
  | .closeMark w => some (.close w, .closeWake w)
  | .closeWake w => some (.wakeup (if w then nreadChan else nwriteChan), .closeLeave w)
  | .closeLeave _ => some (.release, .idle)

end Code

/-- The process writes to the pipe, or it reads from it. -/
def Pc.Uses (writable : Bool) : Pc → Bool
  | .writeEnter _ _ | .writeLoop _ _ | .writeFull _ _ | .writeSleep _ _ | .writeFalling _ _
  | .writeAsleep _ _ | .writeDone _ | .writeLeave _ => writable
  | .readEnter _ | .readWhile _ | .readSleep _ | .readFalling _ | .readAsleep _ | .readLoop _ _
  | .readDone _ _ | .readLeave _ _ => !writable
  | _ => false

def Pc.Closes (writable : Bool) : Pc → Bool
  | .closeEnter w | .closeMark w | .closeWake w | .closeLeave w => w = writable
  | _ => false

/-- The process waits for the lock, and may be preempted. -/
def Pc.Enters : Pc → Bool
  | .writeEnter _ _ | .readEnter _ | .closeEnter _ => true
  | _ => false

/-- The bytes in `stored` and `delivered` are those that the calls have stored into the pipe and
have got from it, in that order; no step reads them. -/
structure State (ι : Type) where
  pipe : Pipe
  lock : Option ι
  ptableLock : Option ι   -- in sleep() only
  proc : ι → Proc ι
  pc : ι → Pc
  stored : List UInt8
  delivered : List UInt8

inductive Act (ι : Type)
  | write (p : ι) (msg : List UInt8)
  | read (p : ι) (n : ℕ)
  | close (p : ι) (writable : Bool)   -- by fileclose, for the last descriptor of the end
  | kill (p : ι)
  | other (p : ι) (x : Proc ι)        -- what happens to a process outside the critical sections
  | run (p : ι)

namespace State

variable {ι : Type} [DecidableEq ι] [Fintype ι] (s : State ι)

def goto (p : ι) (pc : Pc) : State ι := { s with pc := Function.update s.pc p pc }

omit [Fintype ι] in
def exec (p : ι) : Op ι → Option (State ι)
  | .acquire => if s.lock = none then some { s with lock := some p } else none
  | .release => some { s with lock := none }
  | .test => some s
  | .put b => some { s with pipe := s.pipe.put b, stored := s.stored ++ [b] }
  | .get => some { s with pipe := s.pipe.get.2, delivered := s.delivered ++ [s.pipe.get.1] }
  | .close w => some { s with pipe := s.pipe.close w }
  | .wakeup chan => if s.ptableLock = none then some { s with proc := wakeup1 (some chan) s.proc }
      else none
  | .sleepLock => if s.ptableLock = none then some { s with lock := none, ptableLock := some p }
      else none
  | .fallAsleep chan =>
    some { s with proc := Xv6Fairness.fallAsleep chan p s.proc, ptableLock := none }
  | .resume =>
    if s.ptableLock = none ∧ (s.proc p).state = .runnable then
      some { s with proc := tidyUp p (setState .running p s.proc) }
    else none

/-- A process that calls has a descriptor of the end, and keeps it until it returns. -/
def mayUse (writable : Bool) : Prop :=
  s.pipe.isOpen writable = true ∧ ∀ q, (s.pc q).Closes writable = false

instance (writable : Bool) : Decidable (s.mayUse writable) := inferInstanceAs (Decidable (_ ∧ _))

def mayCall (p : ι) : Prop := s.pc p = .idle ∧ (s.proc p).state ≠ .sleeping

instance (p : ι) : Decidable (s.mayCall p) := inferInstanceAs (Decidable (_ ∧ _))

def step : Act ι → Option (State ι)
  | .write p msg => if s.mayCall p ∧ s.mayUse true then some (s.goto p (.writeEnter msg 0))
      else none
  | .read p n => if s.mayCall p ∧ s.mayUse false then some (s.goto p (.readEnter n)) else none
  | .close p w =>
    if s.mayCall p ∧ s.mayUse w ∧ ∀ q, (s.pc q).Uses w = false then some (s.goto p (.closeEnter w))
    else none
  | .kill p => if s.ptableLock = none then some { s with proc := killProc p s.proc } else none
  | .other p x =>
    if s.pc p = .idle ∨ (s.pc p).Enters = true ∧ x.state ≠ .sleeping then
      some { s with proc := Function.update s.proc p x }
    else none
  | .run p => do
    let (op, pc) ← (s.pc p).next s.pipe (s.proc p).killed
    let t ← s.exec p op
    some (t.goto p pc)

end State

/-- `pipealloc` has made the pipe. -/
structure Initial {ι : Type} (s : State ι) : Prop where
  nread : s.pipe.nread = 0
  nwrite : s.pipe.nwrite = 0
  readopen : s.pipe.readopen = true
  writeopen : s.pipe.writeopen = true
  lock : s.lock = none
  ptableLock : s.ptableLock = none
  pc : ∀ p, s.pc p = .idle
  stored : s.stored = []
  delivered : s.delivered = []

section Moves

variable {ι : Type} [DecidableEq ι] [Fintype ι]

/-- `Move s a t` spells out the ways in which a step leads from `s` to `t`. -/
inductive Move (s : State ι) : Act ι → State ι → Prop
  | start {a : Act ι} {p : ι} {pc : Pc} (w : Bool) (hp : s.pc p = .idle)
      (hawake : (s.proc p).state ≠ .sleeping) (huse : s.mayUse w) (henters : pc.Enters = true)
      (hpc : pc.Uses w = true ∨ pc.Closes w = true ∧ ∀ q, (s.pc q).Uses w = false)
      (hother : pc.Uses (!w) = false ∧ pc.Closes (!w) = false) : Move s a (s.goto p pc)
  | kill {p : ι} (hfree : s.ptableLock = none) : Move s (.kill p)
      { s with proc := killProc p s.proc }
  | other {p : ι} {x : Proc ι}
      (hp : s.pc p = .idle ∨ (s.pc p).Enters = true ∧ x.state ≠ .sleeping) :
      Move s (.other p x) { s with proc := Function.update s.proc p x }
  | run {p : ι} {op : Op ι} {pc : Pc} {t : State ι}
      (hnext : (s.pc p).next s.pipe (s.proc p).killed = some (op, pc))
        (hexec : s.exec p op = some t) :
      Move s (.run p) (t.goto p pc)

theorem step_move {s t : State ι} {a : Act ι} (h : s.step a = some t) : Move s a t := by
  cases a with
  | write p msg =>
      obtain ⟨⟨hcall, huse⟩, h⟩ := Option.ite_none_right_eq_some.mp h
      cases h
      exact .start true hcall.1 hcall.2 huse rfl (.inl rfl) ⟨rfl, rfl⟩
  | read p n =>
      obtain ⟨⟨hcall, huse⟩, h⟩ := Option.ite_none_right_eq_some.mp h
      cases h
      exact .start false hcall.1 hcall.2 huse rfl (.inl rfl) ⟨rfl, rfl⟩
  | close p w =>
      obtain ⟨⟨hcall, huse, hnone⟩, h⟩ := Option.ite_none_right_eq_some.mp h
      cases h
      refine .start w hcall.1 hcall.2 huse rfl (.inr ⟨decide_eq_true rfl, hnone⟩) ⟨rfl, ?_⟩
      cases w <;> rfl
  | kill p =>
      obtain ⟨hfree, h⟩ := Option.ite_none_right_eq_some.mp h
      cases h
      exact .kill hfree
  | other p x =>
      obtain ⟨hp, h⟩ := Option.ite_none_right_eq_some.mp h
      cases h
      exact .other hp
  | run p =>
      obtain ⟨⟨op, pc⟩, hnext, h⟩ := Option.bind_eq_some_iff.mp h
      obtain ⟨u, hexec, h⟩ := Option.bind_eq_some_iff.mp h
      cases h
      exact .run hnext hexec

end Moves

/-- The process holds the lock of the pipe. -/
def Pc.Locks : Pc → Bool
  | .writeLoop _ _ | .writeFull _ _ | .writeSleep _ _ | .writeDone _ | .writeLeave _ | .readWhile _
  | .readSleep _ | .readLoop _ _ | .readDone _ _ | .readLeave _ _ | .closeMark _ | .closeWake _
  | .closeLeave _ => true
  | _ => false

/-- The process holds `ptable.lock` in `sleep`. -/
def Pc.Falls : Pc → Bool
  | .writeFalling _ _ | .readFalling _ => true
  | _ => false

namespace Op

variable {ι : Type}

/-- Which of the locks a process holds before an operation. -/
def before : Op ι → Bool × Bool
  | .acquire | .resume => (false, false)
  | .fallAsleep _ => (false, true)
  | _ => (true, false)

/-- Which of the locks a process holds after an operation. -/
def after : Op ι → Bool × Bool
  | .release | .resume | .fallAsleep _ => (false, false)
  | .sleepLock => (false, true)
  | _ => (true, false)

/-- The pipe after an operation. -/
def pipe (q : Pipe) : Op ι → Pipe
  | .put b => q.put b
  | .get => q.get.2
  | .close w => q.close w
  | _ => q

theorem pipe_eq {q : Pipe} {op : Op ι} (h : op.before.1 = false) : op.pipe q = q := by
  cases op
  all_goals first | rfl | cases h

end Op

section Code

variable {ι : Type} {q : Pipe} {killed : Bool} {pc pc' : Pc} {op : Op ι}

/-- The branches of the code, with what they have tested. -/
inductive Branch (q : Pipe) (killed : Bool) : Pc → Op ι → Pc → Prop
  | writeEnter {msg i} : Branch q killed (.writeEnter msg i) .acquire (.writeLoop msg i)
  | written {msg i}
      (hi : msg.length ≤ i) : Branch q killed (.writeLoop msg i) .test (.writeDone msg)
  | abandoned {msg i} (hi : i < msg.length) (hfull : q.Full)
      (hleave : q.readopen = false ∨ killed = true) :
      Branch q killed (.writeLoop msg i) .test (.writeLeave (-1))
  | full {msg i} (hfull : q.Full) (hstay : ¬ (q.readopen = false ∨ killed = true)) :
      Branch q killed (.writeLoop msg i) .test (.writeFull msg i)
  | put {msg i b} (hfull : ¬ q.Full) : Branch q killed (.writeLoop msg i) (.put b)
      (.writeLoop msg (i + 1))
  | writeFull {msg i} : Branch q killed (.writeFull msg i) (.wakeup nreadChan) (.writeSleep msg i)
  | writeSleep {msg i} : Branch q killed (.writeSleep msg i) .sleepLock (.writeFalling msg i)
  | writeFalling {msg i} : Branch q killed (.writeFalling msg i) (.fallAsleep nwriteChan)
      (.writeAsleep msg i)
  | writeAsleep {msg i} : Branch q killed (.writeAsleep msg i) .resume (.writeEnter msg i)
  | writeDone {msg} : Branch q killed (.writeDone msg) (.wakeup nreadChan) (.writeLeave msg.length)
  | writeLeave {ret} : Branch q killed (.writeLeave ret) .release .idle
  | readEnter {n} : Branch q killed (.readEnter n) .acquire (.readWhile n)
  | readKilled {n} (hwait : q.Empty ∧ q.writeopen = true) (hkilled : killed = true) :
      Branch q killed (.readWhile n) .test (.readLeave n (-1))
  | readWaits {n} (hwait : q.Empty ∧ q.writeopen = true) :
      Branch q killed (.readWhile n) .test (.readSleep n)
  | readGoes {n} (hwait : ¬ (q.Empty ∧ q.writeopen = true)) :
      Branch q killed (.readWhile n) .test (.readLoop n 0)
  | readSleep {n} : Branch q killed (.readSleep n) .sleepLock (.readFalling n)
  | readFalling {n} : Branch q killed (.readFalling n) (.fallAsleep nreadChan) (.readAsleep n)
  | readAsleep {n} : Branch q killed (.readAsleep n) .resume (.readEnter n)
  | get {n i} (hi : i < n)
      (hempty : ¬ q.Empty) : Branch q killed (.readLoop n i) .get (.readLoop n (i + 1))
  | stop {n i} (hstop : ¬ (i < n ∧ ¬ q.Empty)) :
      Branch q killed (.readLoop n i) .test (.readDone n i)
  | readDone {n i} : Branch q killed (.readDone n i) (.wakeup nwriteChan) (.readLeave n i)
  | readLeave {n ret} : Branch q killed (.readLeave n ret) .release .idle
  | closeEnter {w} : Branch q killed (.closeEnter w) .acquire (.closeMark w)
  | closeMark {w} : Branch q killed (.closeMark w) (.close w) (.closeWake w)
  | closeWake {w} : Branch q killed (.closeWake w) (.wakeup (if w then nreadChan else nwriteChan))
      (.closeLeave w)
  | closeLeave {w} : Branch q killed (.closeLeave w) .release .idle

theorem branch_of_next (h : pc.next q killed = some (op, pc')) : Branch q killed pc op pc' := by
  cases pc with
  | idle => cases h
  | writeLoop msg i =>
      rw [Pc.next] at h
      split at h
      · next hb =>
          cases h
          exact .written (List.getElem?_eq_none_iff.mp hb)
      · next b hb =>
          split_ifs at h with hfull hleave
          · cases h
            exact .abandoned (List.getElem?_eq_some_iff.mp hb).1 hfull hleave
          · cases h
            exact .full hfull hleave
          · cases h
            exact .put hfull
  | readWhile n =>
      rw [Pc.next] at h
      split_ifs at h with hwait hkilled
      · cases h
        exact .readKilled hwait hkilled
      · cases h
        exact .readWaits hwait
      · cases h
        exact .readGoes hwait
  | readLoop n i =>
      rw [Pc.next] at h
      split_ifs at h with hget
      · cases h
        exact .get hget.1 hget.2
      · cases h
        exact .stop hget
  | _ =>
      cases h
      constructor

theorem next_places (h : pc.next q killed = some (op, pc')) :
    (pc.Locks, pc.Falls) = op.before ∧ (pc'.Locks, pc'.Falls) = op.after := by
  cases branch_of_next h
  all_goals exact ⟨rfl, rfl⟩

theorem Enters.places (h : pc.Enters = true) : pc.Locks = false ∧ pc.Falls = false := by
  cases pc
  all_goals
    simp only [Pc.Enters, Bool.false_eq_true] at h
    try exact ⟨rfl, rfl⟩

theorem next_put {b : UInt8} (h : pc.next q killed = some ((.put b : Op ι), pc')) :
    ¬ q.Full ∧ ∃ msg i, pc = .writeLoop msg i ∧ pc' = .writeLoop msg (i + 1) := by
  cases branch_of_next h with
  | put hfull => exact ⟨hfull, _, _, rfl, rfl⟩

theorem next_get (h : pc.next q killed = some ((.get : Op ι), pc')) :
    ¬ q.Empty ∧ ∃ n i, pc = .readLoop n i ∧ pc' = .readLoop n (i + 1) := by
  cases branch_of_next h with
  | get _ hempty => exact ⟨hempty, _, _, rfl, rfl⟩

theorem next_close {w : Bool} (h : pc.next q killed = some ((.close w : Op ι), pc')) :
    pc = .closeMark w ∧ pc' = .closeWake w := by
  cases branch_of_next h with
  | closeMark => exact ⟨rfl, rfl⟩

end Code

section Locks

variable {ι : Type} [DecidableEq ι] [Fintype ι] {s t : State ι}

structure Locked (s : State ι) : Prop where
  lock : HeldBy Pc.Locks s.pc s.lock
  ptableLock : HeldBy Pc.Falls s.pc s.ptableLock

omit [DecidableEq ι] [Fintype ι] in
theorem Initial.locked (h : Initial s) : Locked s := by
  refine ⟨fun p => ?_, fun p => ?_⟩
  · rw [h.pc p, h.lock]
    exact iff_of_false Bool.false_ne_true nofun
  · rw [h.pc p, h.ptableLock]
    exact iff_of_false Bool.false_ne_true nofun

omit [Fintype ι] in
theorem exec_pc {p : ι} {op : Op ι} (h : s.exec p op = some t) : t.pc = s.pc := by
  cases op
  all_goals
    simp only [State.exec, Option.ite_none_right_eq_some, Option.some.injEq] at h
    first | exact h ▸ rfl | exact h.2 ▸ rfl

omit [Fintype ι] in
theorem exec_pipe {p : ι} {op : Op ι} (h : s.exec p op = some t) : t.pipe = op.pipe s.pipe := by
  cases op
  all_goals
    simp only [State.exec, Option.ite_none_right_eq_some, Option.some.injEq] at h
    first | exact h ▸ rfl | exact h.2 ▸ rfl

omit [Fintype ι] in
theorem Locked.run {p : ι} {op : Op ι} {pc : Pc} (hs : Locked s)
    (hbefore : ((s.pc p).Locks, (s.pc p).Falls) = op.before)
    (hafter : (pc.Locks, pc.Falls) = op.after)
    (hexec : s.exec p op = some t) : Locked (t.goto p pc) := by
  have hlocks : (s.pc p).Locks = op.before.1 := congrArg Prod.fst hbefore
  have hfalls : (s.pc p).Falls = op.before.2 := congrArg Prod.snd hbefore
  have hlocks' : pc.Locks = op.after.1 := congrArg Prod.fst hafter
  have hfalls' : pc.Falls = op.after.2 := congrArg Prod.snd hafter
  have hL := hs.lock
  have hF := hs.ptableLock
  cases op with
  | acquire =>
      obtain ⟨hfree, h⟩ := Option.ite_none_right_eq_some.mp hexec
      cases h
      rw [hfree] at hL
      exact ⟨hL.take hlocks', hF.stay (hfalls'.trans hfalls.symm)⟩
  | release =>
      cases hexec
      exact ⟨hL.drop hlocks hlocks', hF.stay (hfalls'.trans hfalls.symm)⟩
  | sleepLock =>
      obtain ⟨hfree, h⟩ := Option.ite_none_right_eq_some.mp hexec
      cases h
      rw [hfree] at hF
      exact ⟨hL.drop hlocks hlocks', hF.take hfalls'⟩
  | fallAsleep chan =>
      cases hexec
      exact ⟨hL.stay (hlocks'.trans hlocks.symm), hF.drop hfalls hfalls'⟩
  | wakeup chan | resume =>
      obtain ⟨-, h⟩ := Option.ite_none_right_eq_some.mp hexec
      cases h
      exact ⟨hL.stay (hlocks'.trans hlocks.symm), hF.stay (hfalls'.trans hfalls.symm)⟩
  | test | put b | get | close w =>
      cases hexec
      exact ⟨hL.stay (hlocks'.trans hlocks.symm), hF.stay (hfalls'.trans hfalls.symm)⟩

theorem Locked.step {a : Act ι} (hs : Locked s) (h : s.step a = some t) : Locked t := by
  cases step_move h with
  | start w hp _ _ henters _ _ =>
      obtain ⟨hlocks, hfalls⟩ := Enters.places henters
      refine ⟨hs.lock.stay (hlocks.trans ?_), hs.ptableLock.stay (hfalls.trans ?_)⟩
      · rw [hp]
        rfl
      · rw [hp]
        rfl
  | kill hfree => exact ⟨hs.lock, hs.ptableLock⟩
  | other hp => exact ⟨hs.lock, hs.ptableLock⟩
  | run hnext hexec => exact hs.run (next_places hnext).1 (next_places hnext).2 hexec

end Locks

section Bytes

variable {ι : Type} [DecidableEq ι] [Fintype ι] {s t : State ι}

structure Bytes (s : State ι) : Prop where
  holds : Holds PIPESIZE s.pipe.data s.delivered.length s.stored
  delivered : s.delivered <+: s.stored
  nread : s.pipe.nread.toNat = s.delivered.length % 2 ^ 32
  nwrite : s.pipe.nwrite.toNat = s.stored.length % 2 ^ 32

omit [DecidableEq ι] [Fintype ι]

theorem Bytes.empty_iff (h : Bytes s) : s.pipe.Empty ↔ s.stored.length = s.delivered.length := by
  have hlt : s.stored.length < s.delivered.length + 2 ^ 32 := by
    have hroom : s.stored.length ≤ s.delivered.length + 512 := h.holds.room
    omega
  rw [← counter_eq_iff h.holds.le hlt, ← h.nread, ← h.nwrite, UInt32.toNat_inj]
  exact eq_comm

theorem Bytes.full_iff (h : Bytes s) : s.pipe.Full ↔
    s.stored.length = s.delivered.length + PIPESIZE := by
  have hle : s.stored.length ≤ s.delivered.length + PIPESIZE := h.holds.room
  have hlt : s.delivered.length + PIPESIZE < s.stored.length + 2 ^ 32 := by
    have hle : s.delivered.length ≤ s.stored.length := h.holds.le
    unfold PIPESIZE
    omega
  have hsum : (s.pipe.nread + UInt32.ofNat PIPESIZE).toNat =
      (s.delivered.length + PIPESIZE) % 2 ^ 32 := by
    rw [UInt32.toNat_add, h.nread]
    exact (Nat.add_mod _ _ _).symm
  rw [eq_comm, ← counter_eq_iff hle hlt, ← hsum, ← h.nwrite, UInt32.toNat_inj]
  exact eq_comm

theorem Bytes.count (h : Bytes s) :
    (s.pipe.nwrite - s.pipe.nread).toNat = s.stored.length - s.delivered.length := by
  have hle : s.delivered.length ≤ s.stored.length := h.holds.le
  have hroom : s.stored.length ≤ s.delivered.length + 512 := h.holds.room
  rw [UInt32.toNat_sub, h.nread, h.nwrite]
  omega

theorem Initial.bytes (h : Initial s) : Bytes s := by
  refine ⟨?_, ?_, ?_, ?_⟩
  · rw [h.delivered, h.stored]
    exact holds_nil
  · rw [h.delivered]
    exact List.nil_prefix
  · rw [h.nread, h.delivered]
    rfl
  · rw [h.nwrite, h.stored]
    rfl

variable [DecidableEq ι]

theorem Bytes.put {b : UInt8} {p : ι} (h : Bytes s) (hfull : ¬ s.pipe.Full)
    (hexec : s.exec p (.put b) = some t) : Bytes t := by
  cases hexec
  have hroom : s.stored.length < s.delivered.length + PIPESIZE :=
    lt_of_le_of_ne h.holds.room fun heq => hfull (h.full_iff.mpr heq)
  have hcell : s.pipe.nwrite.toNat % PIPESIZE = s.stored.length % PIPESIZE := by
    rw [h.nwrite]
    exact Nat.mod_mod_of_dvd _ ⟨2 ^ 23, rfl⟩
  refine ⟨?_, h.delivered.trans (List.prefix_append _ _), h.nread, ?_⟩
  · change Holds PIPESIZE (Function.update s.pipe.data (s.pipe.nwrite.toNat % PIPESIZE) b) _ _
    rw [hcell]
    exact h.holds.put hroom
  · change (s.pipe.nwrite + 1).toNat = _
    rw [UInt32.toNat_add, h.nwrite, List.length_append]
    exact (Nat.add_mod _ _ _).symm

theorem Bytes.get {p : ι} (h : Bytes s) (hempty : ¬ s.pipe.Empty) (hexec : s.exec p .get = some t) :
    Bytes t := by
  cases hexec
  have hr : s.delivered.length < s.stored.length :=
    lt_of_le_of_ne h.holds.le fun heq => hempty (h.empty_iff.mpr heq.symm)
  obtain ⟨hbyte, hholds⟩ := h.holds.get hr
  have hcell : s.pipe.get.1 = s.stored[s.delivered.length] := by
    have hmod : s.pipe.nread.toNat % PIPESIZE = s.delivered.length % PIPESIZE := by
      rw [h.nread]
      exact Nat.mod_mod_of_dvd _ ⟨2 ^ 23, rfl⟩
    exact (congrArg s.pipe.data hmod).trans hbyte
  have hlen : (s.delivered ++ [s.pipe.get.1]).length = s.delivered.length + 1 := by simp
  refine ⟨?_, ?_, ?_, h.nwrite⟩
  · change Holds PIPESIZE s.pipe.data (s.delivered ++ [s.pipe.get.1]).length s.stored
    rw [hlen]
    exact hholds
  · change s.delivered ++ [s.pipe.get.1] <+: s.stored
    have htake : s.delivered ++ [s.stored[s.delivered.length]] =
        s.stored.take s.delivered.length ++ [s.stored[s.delivered.length]] :=
      congrArg (· ++ [s.stored[s.delivered.length]]) (List.prefix_iff_eq_take.mp h.delivered)
    rw [hcell, htake, List.take_append_getElem hr]
    exact List.take_prefix _ _
  · change (s.pipe.nread + 1).toNat = (s.delivered ++ [s.pipe.get.1]).length % 2 ^ 32
    rw [UInt32.toNat_add, h.nread, hlen]
    exact (Nat.add_mod _ _ _).symm

theorem Bytes.run {p : ι} {op : Op ι} {pc : Pc} {killed : Bool} (h : Bytes s)
    (hnext : (s.pc p).next s.pipe killed = some (op, pc)) (hexec : s.exec p op = some t) :
    Bytes t := by
  cases op with
  | put b => exact h.put (next_put hnext).1 hexec
  | get => exact h.get (next_get hnext).1 hexec
  | close w =>
      cases hexec
      cases w
      · exact ⟨h.holds, h.delivered, h.nread, h.nwrite⟩
      · exact ⟨h.holds, h.delivered, h.nread, h.nwrite⟩
  | acquire | wakeup chan | sleepLock | resume =>
      obtain ⟨-, h⟩ := Option.ite_none_right_eq_some.mp hexec
      cases h
      exact ⟨h.holds, h.delivered, h.nread, h.nwrite⟩
  | release | test | fallAsleep chan =>
      cases hexec
      exact ⟨h.holds, h.delivered, h.nread, h.nwrite⟩

variable [Fintype ι]

theorem Bytes.step {a : Act ι} (hs : Bytes s) (h : s.step a = some t) : Bytes t := by
  cases step_move h with
  | start | kill | other => exact ⟨hs.holds, hs.delivered, hs.nread, hs.nwrite⟩
  | run hnext hexec =>
      obtain ⟨hholds, hdelivered, hnread, hnwrite⟩ := hs.run hnext hexec
      exact ⟨hholds, hdelivered, hnread, hnwrite⟩

end Bytes

namespace Pipe

def AtEnd (q : Pipe) : Prop := q.Empty ∧ q.writeopen = false

/-- What a reader that has got nothing so far knows about the pipe. -/
def Knows (q : Pipe) : Pc → Prop
  | .readLoop _ 0 => ¬ q.Empty ∨ q.writeopen = false
  | .readDone n 0 => 0 < n → q.AtEnd
  | .readLeave n ret => ret = 0 → 0 < n → q.AtEnd
  | _ => True

end Pipe

section EndOfFile

variable {ι : Type} [DecidableEq ι] [Fintype ι] {s t : State ι} {q : Pipe} {pc pc' : Pc} {op : Op ι}

omit [DecidableEq ι] [Fintype ι] in
theorem knows_of_not_locks (h : pc.Locks = false) : q.Knows pc := by
  cases pc
  all_goals first | exact trivial | cases h

omit [DecidableEq ι] [Fintype ι] in
theorem knows_next {killed : Bool} (h : q.Knows pc) (hnext : pc.next q killed = some (op, pc')) :
    (op.pipe q).Knows pc' := by
  cases branch_of_next hnext with
  | readKilled => exact nofun
  | readGoes hwait =>
      by_cases hempty : q.Empty
      · exact .inr (Bool.eq_false_iff.mpr fun hopen => hwait ⟨hempty, hopen⟩)
      · exact .inl hempty
  | @stop n i hstop =>
      cases i with
      | zero =>
          intro hn
          have hempty : q.Empty := not_not.mp fun hne => hstop ⟨hn, hne⟩
          exact ⟨hempty, h.resolve_left (not_not_intro hempty)⟩
      | succ i => exact trivial
  | @readDone n i =>
      cases i with
      | zero => exact fun _ => h
      | succ i => exact fun hret => absurd hret (by omega)
  | _ => exact trivial

theorem knows_step {a : Act ι} (hs : Locked s) (hknows : ∀ p, s.pipe.Knows (s.pc p))
    (h : s.step a = some t) : ∀ p, t.pipe.Knows (t.pc p) := by
  cases step_move h with
  | @start _ p pc w hp _ _ henters _ _ =>
      intro r
      change s.pipe.Knows (Function.update s.pc p pc r)
      by_cases hr : r = p
      · rw [hr, Function.update_self]
        exact knows_of_not_locks (Enters.places henters).1
      · rw [Function.update_of_ne hr]
        exact hknows r
  | kill | other => exact hknows
  | @run p op pc u hnext hexec =>
      intro r
      change u.pipe.Knows (Function.update u.pc p pc r)
      rw [exec_pipe hexec, exec_pc hexec]
      by_cases hr : r = p
      · rw [hr, Function.update_self]
        exact knows_next (hknows p) hnext
      · rw [Function.update_of_ne hr]
        by_cases hlocks : (s.pc r).Locks = true
        · have hfree : (s.pc p).Locks = false :=
            Bool.eq_false_iff.mpr fun hp => hr (hs.lock.unique hlocks hp)
          have hbefore : op.before.1 = false := by
            rw [← congrArg Prod.fst (next_places hnext).1]
            exact hfree
          rw [Op.pipe_eq hbefore]
          exact hknows r
        · exact knows_of_not_locks (Bool.eq_false_iff.mpr hlocks)

end EndOfFile

section Runs

variable {ι : Type} [DecidableEq ι] [Fintype ι] {s : State ι}

def Reachable : State ι → Prop := Reaches Initial fun s t => ∃ a, s.step a = some t

structure Kept (s : State ι) : Prop where
  locked : Locked s
  bytes : Bytes s
  knows : ∀ p, s.pipe.Knows (s.pc p)

omit [DecidableEq ι] [Fintype ι] in
theorem Initial.kept (h : Initial s) : Kept s := by
  refine ⟨h.locked, h.bytes, fun p => ?_⟩
  rw [h.pc p]
  exact trivial

theorem Kept.step {t : State ι} {a : Act ι} (hs : Kept s) (h : s.step a = some t) : Kept t :=
  ⟨hs.locked.step h, hs.bytes.step h, knows_step hs.locked hs.knows h⟩

theorem Reachable.kept (h : Reachable s) : Kept s :=
  Reaches.invariant (fun _ h0 => h0.kept) (fun _ _ _ hs ⟨_, h⟩ => hs.step h) h

/-- The bytes come out once and in order, and nothing is read only at the end of the file. -/
theorem bytes_in_order (h : Reachable s) :
    s.delivered <+: s.stored ∧
      (s.pipe.nwrite - s.pipe.nread).toNat = s.stored.length - s.delivered.length ∧
      s.stored.length - s.delivered.length ≤ PIPESIZE ∧
      ∀ p n, s.pc p = .readLeave n 0 → 0 < n → s.pipe.Empty ∧ s.pipe.writeopen = false := by
  obtain ⟨-, hbytes, hknows⟩ := h.kept
  refine ⟨hbytes.delivered, hbytes.count, ?_, fun p n hp hn => ?_⟩
  · have hroom : s.stored.length ≤ s.delivered.length + PIPESIZE := hbytes.holds.room
    omega
  · have hp' := hknows p
    rw [hp] at hp'
    exact hp' rfl hn

def made : State (Fin 2) where
  pipe := { data := fun _ => 0, nread := 0, nwrite := 0, readopen := true, writeopen := true }
  lock := none
  ptableLock := none
  proc := fun _ => { state := .running }
  pc := fun _ => .idle
  stored := []
  delivered := []

theorem made_initial : Initial made := ⟨rfl, rfl, rfl, rfl, rfl, rfl, fun _ => rfl, rfl, rfl⟩

/-- Two bytes go through the pipe before the write end is closed. -/
theorem bytes_in_order_close : ∃ s : State (Fin 2), Reachable s ∧ s.stored.length = 2 ∧
    s.delivered <+: s.stored ∧ s.pipe.Empty ∧ s.pipe.writeopen = false := by
  let acts : List (Act (Fin 2)) := .write 0 [5, 6] :: List.replicate 6 (.run 0) ++
    .read 1 3 :: List.replicate 7 (.run 1) ++ .close 0 true :: List.replicate 4 (.run 0) ++
    .read 1 2 :: List.replicate 4 (.run 1)
  have hrun : (execute State.step made acts).any (fun s => decide (s.stored.length = 2 ∧
      s.pc 1 = .readLeave 2 0)) = true := by decide +kernel
  obtain ⟨s, hs, hdec⟩ := (Option.any_eq_true _ _).mp hrun
  obtain ⟨hlen, hpc⟩ := of_decide_eq_true hdec
  have hreach : Reachable s := Reaches.execute (.start made_initial) hs
  obtain ⟨hpre, -, -, hend⟩ := bytes_in_order hreach
  exact ⟨s, hreach, hlen, hpre, hend 1 2 hpc (by decide)⟩

end Runs

end Pipes

end Xv6Fairness
