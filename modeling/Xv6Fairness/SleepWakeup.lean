import Xv6Fairness.ProcessTable
import Xv6Fairness.TransitionRuns

/-!
# sleep and wakeup around a condition

Processes that follow the protocol of `sleep(chan, lk)` and `wakeup(chan)`: a condition is tested
and changed under the lock `lk` only, a process sleeps when it finds it false, and a process that
has made it true calls `wakeup(chan)` before it lets go of `lk`. The steps are those of the C code
between two operations on `lk` or on `ptable.lock`; `lk` is `ptable.lock` itself or another lock.
-/

namespace Xv6Fairness

namespace SleepWakeup

inductive LockId
  | ptable | other
  deriving DecidableEq

/-- Who holds a lock: a process, or the scheduler to which `sched` has switched. -/
inductive Owner (ι : Type)
  | proc (p : ι)
  | scheduler
  deriving DecidableEq

/-- Where a process is. In the critical section of `lk`, `made` says that it has made the
condition true there, `woke` that it has called `wakeup(chan)` there. -/
inductive Pc
  | outside
  | inside (made woke : Bool)
  | wakeLocked (made woke : Bool)   -- wakeup(), after acquire
  | wakeLeave (made : Bool)         -- wakeup(), before release
  | sleepCall                       -- sleep(), before sleeplock1
  | sleepBoth                       -- sleep(), before release(lk)
  | goSleep                         -- sleep(), before the stores
  | switching                       -- sleep(), before sched()
  | asleep
  | resumed                         -- sleep(), sched() has returned
  | leaveSleep                      -- sleep(), before sleeplock2
  | relock                          -- sleep(), before acquire(lk)
  | crit                            -- another call, after acquire(&ptable.lock)
  | critLeave                       -- another call, before release
  deriving DecidableEq

inductive Op (ι : Type)
  | acquire (l : LockId)
  | release (l : LockId)
  | testFalse
  | change (b : Bool)
  | wakeup1 (chan : Chan ι)
  | fallAsleep
  | sched
  | select
  | tidyUp
  | kill (q : ι)

structure State (ι : Type) where
  proc : ι → Proc ι
  lock : LockId → Option (Owner ι)
  cond : Bool
  pc : ι → Pc

variable {ι : Type} (lk : LockId) (chan : Chan ι)

/-- The control flow of a process: `Code a op b` leads from `a` over `op` to `b`. A process that
holds `ptable.lock` as `lk` calls `wakeup1` itself. -/
inductive Code : Pc → Op ι → Pc → Prop
  | enter : Code .outside (.acquire lk) (.inside false false)
  | change (made woke b : Bool) : Code (.inside made woke) (.change b) (.inside (made || b) woke)
  | leave (made woke : Bool) (h : made = true → woke = true) :
      Code (.inside made woke) (.release lk) .outside
  | wakeup1 (made woke : Bool) (hlk : lk = .ptable) :
      Code (.inside made woke) (.wakeup1 chan) (.inside made true)
  | wakeAcquire (made woke : Bool) (hlk : lk ≠ .ptable) :
      Code (.inside made woke) (.acquire .ptable) (.wakeLocked made woke)
  | wake (made woke : Bool) (hlk : lk ≠ .ptable) :
      Code (.wakeLocked made woke) (.wakeup1 chan) (.wakeLeave made)
  | wakeRelease (made : Bool) (hlk : lk ≠ .ptable) :
      Code (.wakeLeave made) (.release .ptable) (.inside made true)
  | sleep (made woke : Bool) (hlk : lk = .ptable) : Code (.inside made woke) .testFalse .goSleep
  | sleepOther (made woke : Bool) (hlk : lk ≠ .ptable) :
      Code (.inside made woke) .testFalse .sleepCall
  | sleeplock1 (hlk : lk ≠ .ptable) : Code .sleepCall (.acquire .ptable) .sleepBoth
  | sleepRelease (hlk : lk ≠ .ptable) : Code .sleepBoth (.release lk) .goSleep
  | fallAsleep : Code .goSleep .fallAsleep .switching
  | sched : Code .switching .sched .asleep
  | select : Code .asleep .select .resumed
  | tidyUp (hlk : lk = .ptable) : Code .resumed .tidyUp (.inside false false)
  | tidyUpOther (hlk : lk ≠ .ptable) : Code .resumed .tidyUp .leaveSleep
  | sleeplock2 (hlk : lk ≠ .ptable) : Code .leaveSleep (.release .ptable) .relock
  | relock (hlk : lk ≠ .ptable) : Code .relock (.acquire lk) (.inside false false)
  | critEnter : Code .outside (.acquire .ptable) .crit
  | kill (q : ι) : Code .crit (.kill q) .critLeave
  | wakeupOther (c : Chan ι) : Code .crit (.wakeup1 c) .critLeave
  | critLeave : Code .critLeave (.release .ptable) .outside

section Execution

variable [DecidableEq ι]

/-- When process `p` can execute an operation. -/
def Op.Guard (s : State ι) (p : ι) : Op ι → Prop
  | .acquire l => s.lock l = none
  | .testFalse => s.cond = false
  | .select => s.lock .ptable = some .scheduler ∧ (s.proc p).state = .runnable
  | _ => True

def Op.lock (p : ι) (lock : LockId → Option (Owner ι)) : Op ι → LockId → Option (Owner ι)
  | .acquire l => Function.update lock l (some (.proc p))
  | .release l => Function.update lock l none
  | .sched => Function.update lock .ptable (some .scheduler)
  | .select => Function.update lock .ptable (some (.proc p))
  | _ => lock

def Op.proc (p : ι) (proc : ι → Proc ι) : Op ι → ι → Proc ι
  | .wakeup1 c => Xv6Fairness.wakeup1 (some c) proc
  | .fallAsleep => Xv6Fairness.fallAsleep chan p proc
  | .select => setState .running p proc
  | .tidyUp => Xv6Fairness.tidyUp p proc
  | .kill q => killProc q proc
  | _ => proc

def Op.cond (cond : Bool) : Op ι → Bool
  | .change b => b
  | _ => cond

/-- Process `p` executes `op` and goes on at `pc`. -/
def State.exec (s : State ι) (p : ι) (op : Op ι) (pc : Pc) : State ι where
  proc := op.proc chan p s.proc
  lock := op.lock p s.lock
  cond := op.cond s.cond
  pc := Function.update s.pc p pc

/-- Steps of the processes, and of the scheduler, which takes and drops `ptable.lock`. -/
inductive Step (s : State ι) : State ι → Prop
  | run {p : ι} {op : Op ι} {pc : Pc} (hcode : Code lk chan (s.pc p) op pc)
      (hguard : op.Guard s p) : Step s (s.exec chan p op pc)
  | acquire (hfree : s.lock .ptable = none) :
      Step s { s with lock := Function.update s.lock .ptable (some .scheduler) }
  | release (hheld : s.lock .ptable = some .scheduler) :
      Step s { s with lock := Function.update s.lock .ptable none }

/-- Asleep on the channel. -/
def SleepsOn (s : State ι) (p : ι) : Prop :=
  (s.proc p).state = .sleeping ∧ (s.proc p).chan = some chan

/-- Nobody is at work around the condition yet. -/
def Initial (s : State ι) : Prop :=
  (∀ l, s.lock l = none) ∧ (∀ p, s.pc p = .outside) ∧ ∀ p, ¬ SleepsOn chan s p

abbrev Reachable : State ι → Prop := TransitionRuns.Reaches (Initial chan) (Step lk chan)

end Execution

/-- The locks a process holds at a place. -/
def Pc.holds (l : LockId) : Pc → Prop
  | .inside _ _ | .sleepCall => l = lk
  | .wakeLocked _ _ | .wakeLeave _ | .sleepBoth => l = lk ∨ l = .ptable
  | .goSleep | .switching | .resumed | .leaveSleep | .crit | .critLeave => l = .ptable
  | .outside | .asleep | .relock => False

/-- Locks held after an operation by a process that held `held` before. -/
def Op.locks (held : LockId → Prop) (l : LockId) : Op ι → Prop
  | .acquire l' => held l ∨ l = l'
  | .release l' => held l ∧ l ≠ l'
  | .sched => held l ∧ l ≠ .ptable
  | .select => held l ∨ l = .ptable
  | _ => held l

variable {lk chan}

theorem Code.holds {a b : Pc} {op : Op ι} (h : Code lk chan a op b) (l : LockId) :
    b.holds lk l ↔ op.locks (fun l => a.holds lk l) l := by
  cases h <;> simp only [Pc.holds, Op.locks] <;> grind

theorem Code.releases {a b : Pc} {l : LockId} (h : Code lk chan a (.release l) b) :
    a.holds lk l := by
  cases h <;> simp [Pc.holds]

theorem Code.switches {a b : Pc} (h : Code lk chan a .sched b) : a.holds lk .ptable := by
  cases h
  rfl

theorem Op.lock_self (op : Op ι) (p : ι) (lock : LockId → Option (Owner ι)) (l : LockId) :
    op.lock p lock l = some (.proc p) ↔ op.locks (fun l => lock l = some (.proc p)) l := by
  cases op <;> simp only [Op.lock, Op.locks] <;> grind

variable [DecidableEq ι]

/-- The locks are held as the places of the processes say. -/
def Held (lk : LockId) (s : State ι) : Prop :=
  ∀ l p, s.lock l = some (.proc p) ↔ (s.pc p).holds lk l

omit [DecidableEq ι] in
theorem Held.unique {s : State ι} (hi : Held lk s) {l : LockId} {p q : ι}
    (hp : (s.pc p).holds lk l) (hq : (s.pc q).holds lk l) : p = q := by
  have hlock := (hi l p).mpr hp
  rw [(hi l q).mpr hq] at hlock
  cases hlock
  rfl

omit [DecidableEq ι] in
theorem Op.lock_other {s : State ι} {p q : ι} {op : Op ι} {b : Pc} (hi : Held lk s)
    (hcode : Code lk chan (s.pc p) op b) (hguard : op.Guard s p) (hq : q ≠ p) (l : LockId) :
    op.lock p s.lock l = some (.proc q) ↔ s.lock l = some (.proc q) := by
  cases op with
  | acquire l' =>
      have hfree : s.lock l' = none := hguard
      simp only [Op.lock]
      grind
  | release l' =>
      have hp := (hi l' p).mpr hcode.releases
      simp only [Op.lock]
      grind
  | sched =>
      have hp := (hi .ptable p).mpr hcode.switches
      simp only [Op.lock]
      grind
  | select =>
      have hsched := hguard.1
      simp only [Op.lock]
      grind
  | testFalse | change | wakeup1 | fallAsleep | tidyUp | kill => rfl

theorem Held.step {s t : State ι} (hi : Held lk s) (h : Step lk chan s t) : Held lk t := by
  intro l q
  cases h with
  | @run p op pc hcode hguard =>
      change op.lock p s.lock l = some (.proc q) ↔ (Function.update s.pc p pc q).holds lk l
      by_cases hq : q = p
      · subst hq
        have hlocks : (fun l => s.lock l = some (.proc q)) = fun l => (s.pc q).holds lk l :=
          funext fun l => propext (hi l q)
        rw [Function.update_self, Op.lock_self, hcode.holds, hlocks]
      · rw [Function.update_of_ne hq, Op.lock_other hi hcode hguard hq, hi l q]
  | acquire hfree =>
      rw [← hi l q]
      grind
  | release hheld =>
      rw [← hi l q]
      grind

theorem Op.sleepsOn {s : State ι} {p q : ι} {op : Op ι} {b : Pc}
    (hs : SleepsOn chan (s.exec chan p op b) q) : SleepsOn chan s q ∨ op = .fallAsleep ∧ q = p := by
  obtain ⟨hs, hc⟩ := hs
  cases op with
  | acquire | release | testFalse | change | sched => exact Or.inl ⟨hs, hc⟩
  | wakeup1 c =>
      simp only [State.exec, Op.proc, wakeup1_state, wakeup1_chan] at hs hc
      split_ifs at hs
      exact Or.inl ⟨hs, hc⟩
  | fallAsleep =>
      simp only [State.exec, Op.proc, Xv6Fairness.fallAsleep, modify_state, modify_chan] at hs hc
      by_cases hq : q = p
      · exact Or.inr ⟨rfl, hq⟩
      · rw [if_neg hq] at hs hc
        exact Or.inl ⟨hs, hc⟩
  | select =>
      simp only [State.exec, Op.proc, setState, modify_state, modify_chan] at hs hc
      split_ifs at hs hc
      exact Or.inl ⟨hs, hc⟩
  | tidyUp =>
      simp only [State.exec, Op.proc, Xv6Fairness.tidyUp, modify_state, modify_chan] at hs hc
      split_ifs at hs hc
      exact Or.inl ⟨hs, hc⟩
  | kill r =>
      simp only [State.exec, Op.proc, killProc, modify_state, modify_chan] at hs hc
      split_ifs at hs hc
      · exact Or.inl ⟨hs, hc⟩
      · exact Or.inl ⟨hs, hc⟩

theorem Op.wakeup1_sleepsOn (s : State ι) (p q : ι) (b : Pc) :
    ¬ SleepsOn chan (s.exec chan p (.wakeup1 chan) b) q := by
  rintro ⟨hs, hc⟩
  simp only [State.exec, Op.proc, wakeup1_state, wakeup1_chan] at hs hc
  split_ifs at hs with h
  exact h ⟨hs, hc⟩

/-- About to sleep on the channel without holding `lk`, or asleep on it. -/
def Committed (chan : Chan ι) (s : State ι) (p : ι) : Prop :=
  s.pc p = .goSleep ∨ SleepsOn chan s p

def Pc.made : Pc → Bool
  | .inside made _ | .wakeLocked made _ | .wakeLeave made => made
  | _ => false

def Pc.woke : Pc → Bool
  | .inside _ woke | .wakeLocked _ woke => woke
  | .wakeLeave _ => true
  | _ => false

omit [DecidableEq ι] in
theorem Pc.holds_of_made {a : Pc} (h : a.made = true) : a.holds lk lk := by
  cases a <;> simp [Pc.made, Pc.holds] at h ⊢

omit [DecidableEq ι] in
theorem Pc.holds_of_woke {a : Pc} (h : a.woke = true) : a.holds lk lk := by
  cases a <;> simp [Pc.woke, Pc.holds] at h ⊢

section Flow

variable {a b : Pc} {op : Op ι}

omit [DecidableEq ι] in
theorem Code.changes {c : Bool} (h : Code lk chan a (.change c : Op ι) b) : a.holds lk lk := by
  cases h
  rfl

omit [DecidableEq ι] in
theorem Code.wakes (h : Code lk chan a op b) (hb : b.woke = true) :
    a.woke = true ∨ op = .wakeup1 chan ∧ a.holds lk .ptable := by
  cases h <;> simp_all [Pc.woke, Pc.holds]

omit [DecidableEq ι] in
theorem Code.makes {cond : Bool} (h : Code lk chan a op b) (hcond : op.cond cond = true) :
    b.made = true ∨ cond = true := by
  cases h <;> simp_all [Pc.made, Op.cond]

omit [DecidableEq ι] in
/-- A process forgets that it has made the condition true when it leaves after `wakeup`, or goes
to sleep on the condition, which is false again. -/
theorem Code.keeps {s : State ι} {p : ι} (h : Code lk chan a op b) (hguard : op.Guard s p)
    (ha : a.made = true) : b.made = true ∨ a.woke = true ∨ s.cond = false := by
  cases h <;> simp_all [Pc.made, Pc.woke, Op.Guard]

end Flow

structure Inv (lk : LockId) (chan : Chan ι) (s : State ι) : Prop where
  held : Held lk s
  tested : ∀ p, s.pc p = .sleepCall ∨ s.pc p = .sleepBoth → s.cond = false
  woken : ∀ p q, (s.pc p).woke = true → ¬ Committed chan s q
  made : ∀ q, s.cond = true → Committed chan s q → ∃ p, (s.pc p).made = true

section Run

variable {s : State ι} {p : ι} {op : Op ι} {b : Pc} (hi : Inv lk chan s)
  (hcode : Code lk chan (s.pc p) op b) (hguard : op.Guard s p)
include hi hcode hguard

/-- A process commits itself to sleep while it holds `lk` and the condition is false. -/
theorem Inv.commit {q : ι} (hq : Committed chan (s.exec chan p op b) q) : Committed chan s q ∨
    q = p ∧ b = .goSleep ∧ (s.pc p).holds lk lk ∧ s.cond = false ∧ op.cond s.cond = false := by
  rcases hq with hq | hq
  · by_cases hqp : q = p
    · subst hqp
      have hb : b = .goSleep := by simpa [State.exec] using hq
      subst hb
      right
      have htested := hi.tested q
      generalize hpc : s.pc q = a at hcode htested
      cases hcode with
      | sleep made woke hlk => exact ⟨rfl, rfl, rfl, hguard, hguard⟩
      | sleepRelease hlk =>
          have hfalse := htested (Or.inr rfl)
          exact ⟨rfl, rfl, Or.inl rfl, hfalse, hfalse⟩
    · left
      left
      simpa [State.exec, hqp] using hq
  · left
    rcases Op.sleepsOn hq with hs | ⟨rfl, rfl⟩
    · exact Or.inr hs
    · left
      generalize s.pc q = a at hcode
      cases hcode
      rfl

theorem Inv.run_tested (q : ι) (hq : Function.update s.pc p b q = .sleepCall ∨
    Function.update s.pc p b q = .sleepBoth) : op.cond s.cond = false := by
  by_cases hqp : q = p
  · subst hqp
    rw [Function.update_self] at hq
    have htested := hi.tested q
    generalize s.pc q = a at hcode htested
    cases hcode with
    | sleepOther made woke hlk => exact hguard
    | sleeplock1 hlk => exact htested (Or.inl rfl)
    | _ => simp at hq
  · rw [Function.update_of_ne hqp] at hq
    have hfalse := hi.tested q hq
    have hlock : (s.pc q).holds lk lk := by
      rcases hq with hq | hq <;> simp [hq, Pc.holds]
    cases op with
    | change c =>
        have hp : (s.pc p).holds lk lk := hcode.changes
        exact absurd (hi.held.unique hlock hp) hqp
    | _ => exact hfalse

theorem Inv.run_woken (r q : ι) (hr : (Function.update s.pc p b r).woke = true) :
    ¬ Committed chan (s.exec chan p op b) q := by
  intro hq
  by_cases hrp : r = p
  · subst hrp
    rw [Function.update_self] at hr
    rcases hcode.wakes hr with hwoke | ⟨rfl, hlock⟩
    · rcases hi.commit hcode hguard hq with hq | ⟨-, rfl, -⟩
      · exact hi.woken r q hwoke hq
      · cases hr
    · rcases hq with hq | hq
      · -- `q` would hold `ptable.lock` beside the process inside `wakeup1`
        by_cases hqr : q = r
        · subst hqr
          have hb : b = .goSleep := by simpa [State.exec] using hq
          rw [hb] at hr
          cases hr
        · have hpc : s.pc q = .goSleep := by simpa [State.exec, hqr] using hq
          have hq' : (s.pc q).holds lk .ptable := by rw [hpc]; rfl
          exact hqr (hi.held.unique hq' hlock)
      · exact Op.wakeup1_sleepsOn s r q b hq
  · rw [Function.update_of_ne hrp] at hr
    rcases hi.commit hcode hguard hq with hq | ⟨-, -, hlock, -⟩
    · exact hi.woken r q hr hq
    · exact hrp (hi.held.unique (Pc.holds_of_woke hr) hlock)

theorem Inv.run_made (q : ι) (hcond : op.cond s.cond = true)
    (hq : Committed chan (s.exec chan p op b) q) :
    ∃ r, (Function.update s.pc p b r).made = true := by
  rcases hi.commit hcode hguard hq with hqs | ⟨-, -, -, -, hfalse⟩
  · rcases hcode.makes hcond with hb | hconds
    · exact ⟨p, by rw [Function.update_self, hb]⟩
    · obtain ⟨r, hr⟩ := hi.made q hconds hqs
      by_cases hrp : r = p
      · subst hrp
        rcases hcode.keeps hguard hr with hb | hwoke | hfalse
        · exact ⟨r, by rw [Function.update_self, hb]⟩
        · exact absurd hqs (hi.woken r q hwoke)
        · rw [hfalse] at hconds
          cases hconds
      · exact ⟨r, by rw [Function.update_of_ne hrp, hr]⟩
  · rw [hfalse] at hcond
    cases hcond

end Run

theorem Inv.step {s t : State ι} (hi : Inv lk chan s) (h : Step lk chan s t) : Inv lk chan t := by
  have hheld := hi.held.step h
  cases h with
  | run hcode hguard =>
      exact ⟨hheld, hi.run_tested hcode hguard, hi.run_woken hcode hguard,
        hi.run_made hcode hguard⟩
  | acquire hfree => exact ⟨hheld, hi.tested, hi.woken, hi.made⟩
  | release hheld' => exact ⟨hheld, hi.tested, hi.woken, hi.made⟩

omit [DecidableEq ι] in
theorem Initial.inv {s : State ι} (h : Initial chan s) : Inv lk chan s := by
  obtain ⟨hlock, hpc, hsleep⟩ := h
  have hnone : ∀ q, ¬ Committed chan s q := by
    rintro q (hq | hq)
    · rw [hpc] at hq
      cases hq
    · exact hsleep q hq
  refine ⟨fun l p => ?_, fun p hp => ?_, fun p q _ => hnone q, fun q _ hq => absurd hq (hnone q)⟩
  · rw [hlock, hpc]
    simp [Pc.holds]
  · rw [hpc] at hp
    simp at hp

/-- In every interleaving, while a process sleeps on the channel and the condition is true, a
process that has made it true is still inside its critical section of `lk`. -/
theorem no_lost_wakeup {s : State ι} (h : Reachable lk chan s) {p : ι}
    (hs : (s.proc p).state = .sleeping) (hc : (s.proc p).chan = some chan)
    (hcond : s.cond = true) : ∃ q, s.lock lk = some (.proc q) ∧ (s.pc q).made = true := by
  have hi : Inv lk chan s :=
    h.invariant (fun _ => Initial.inv) fun _ _ _ hi hn => hi.step hn
  obtain ⟨q, hq⟩ := hi.made p hcond (Or.inr ⟨hs, hc⟩)
  exact ⟨q, (hi.held lk q).mpr (Pc.holds_of_made hq), hq⟩

/-- Process 0 sleeps under another lock; process 1 has made the condition true and has not called
`wakeup` yet. -/
theorem no_lost_wakeup_before_wakeup : ∃ s : State (Fin 2),
    Reachable .other (.other 0) s ∧ (s.proc 0).state = .sleeping ∧ s.cond = true ∧
      ∃ q, s.lock .other = some (.proc q) ∧ (s.pc q).made = true := by
  let s : State (Fin 2) := ⟨fun _ => {}, fun _ => none, false, fun _ => .outside⟩
  have h0 : Reachable .other (.other 0) s :=
    .start ⟨fun _ => rfl, fun _ => rfl, fun _ h => nomatch h.1⟩
  have h1 := h0.step (.run (p := 0) .enter rfl)
  have h2 := h1.step (.run (p := 0) (.sleepOther false false (by decide)) rfl)
  have h3 := h2.step (.run (p := 0) (.sleeplock1 (by decide)) rfl)
  have h4 := h3.step (.run (p := 0) (.sleepRelease (by decide)) trivial)
  have h5 := h4.step (.run (p := 0) .fallAsleep trivial)
  have h6 := h5.step (.run (p := 0) .sched trivial)
  have h7 := h6.step (.run (p := 1) .enter rfl)
  have h8 := h7.step (.run (p := 1) (.change false false true) trivial)
  exact ⟨_, h8, rfl, rfl, no_lost_wakeup h8 (p := 0) rfl rfl rfl⟩

end SleepWakeup
end Xv6Fairness
