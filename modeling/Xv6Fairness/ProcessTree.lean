import Xv6Fairness.CpuOwnership
import Mathlib.Algebra.Order.Ring.Int

/-!
# Parents, pids and the accounts of `wait`

Invariants of the life of processes: who the parent of a slot is while `fork` fills it and after
its parent has exited, which pids are in use, how often a pid has exited and been reaped, and who
is asleep in `wait`. At the end they are read off for every interleaving of the machine.
-/

namespace Xv6Fairness

namespace Event

def isAllocation : Event → Bool
  | .allocated _ _ => true
  | _ => false

def isExit (n : ℤ) : Event → Bool
  | .exited m => m = n
  | _ => false

def isReap (n : ℤ) : Event → Bool
  | .reaped _ m => m = n
  | _ => false

end Event

/-- Processes created so far: init, and one for each pid `allocproc` has handed out since. -/
def created (log : List Event) : ℕ := log.countP Event.isAllocation + 1

def exits (log : List Event) (n : ℤ) : ℕ := log.countP (Event.isExit n)

def reaps (log : List Event) (n : ℤ) : ℕ := log.countP (Event.isReap n)

/-- By the calls so far, `a` is the parent of `b`: it forked it, or it is init and the process
that forked it has exited. -/
def Lineage (log : List Event) (a b : ℤ) : Prop :=
  .forked a b ∈ log ∨ a = 1 ∧ ∃ f, .forked f b ∈ log ∧ .exited f ∈ log

section Accounts

variable (log : List Event) (n : ℤ)

theorem created_cons (e : Event) :
    created (e :: log) = created log + if e.isAllocation = true then 1 else 0 := by
  simp only [created, List.countP_cons]
  omega

theorem exits_cons (e : Event) :
    exits (e :: log) n = exits log n + if e.isExit n = true then 1 else 0 := List.countP_cons

theorem reaps_cons (e : Event) :
    reaps (e :: log) n = reaps log n + if e.isReap n = true then 1 else 0 := List.countP_cons

variable {log}

theorem Lineage.mono {log' : List Event} {a b : ℤ} (h : Lineage log a b)
    (hsub : ∀ e ∈ log, e ∈ log') : Lineage log' a b := by
  rcases h with h | ⟨ha, f, hf, hx⟩
  · exact Or.inl (hsub _ h)
  · exact Or.inr ⟨ha, f, hsub _ hf, hsub _ hx⟩

theorem Lineage.cons {a b : ℤ} (h : Lineage log a b) (e : Event) : Lineage (e :: log) a b :=
  h.mono fun _ he => List.mem_cons_of_mem _ he

theorem Lineage.orphan {a b : ℤ} (h : Lineage log a b) : Lineage (.exited a :: log) 1 b := by
  rcases h with h | ⟨-, f, hf, hx⟩
  · exact Or.inr ⟨rfl, a, List.mem_cons_of_mem _ h, List.mem_cons_self⟩
  · exact Or.inr ⟨rfl, f, List.mem_cons_of_mem _ hf, List.mem_cons_of_mem _ hx⟩

end Accounts

namespace Life

/-- Made RUNNABLE by `fork`, or init, and not reaped yet. -/
def Started (v : Life) (p : Slot) : Prop := v.stage p = .alive ∨ v.stage p = .zombie

/-- Parents by stage, with what the threads inside `fork` have filled in. -/
structure Family (stage : Slot → Stage) (parent : Slot → Option Slot) (fork : Slot → ForkPhase)
    (init : Slot) : Prop where
  fork_alive : ∀ p, fork p ≠ .none → stage p = .alive
  free_parent : ∀ p, stage p = .free → parent p = none
  allocated : ∀ p np, fork p = .allocated np → parent np = none
  filled : ∀ p np, fork p = .filled np → parent np = some p
  embryo_parent : ∀ p q, stage p = .embryo → parent p = some q → fork q = .filled p
  init_alive : stage init = .alive
  init_parent : parent init = none
  irrefl : ∀ p, parent p ≠ some p
  parent_alive : ∀ p, stage p = .alive ∨ stage p = .zombie → p ≠ init →
    ∃ q, parent p = some q ∧ stage q = .alive

def TreeInv (v : Life) : Prop := Family v.stage v.parent v.fork v.table.initproc

theorem TreeInv.change {v w : Life} (hf : ForkInv v) (hi : TreeInv v) (hc : Change v w) :
    TreeInv w := by
  cases hc with
  | quiet h =>
      rw [TreeInv, funext h.stage, funext h.parent, h.fork, h.initproc]
      exact hi
  | @allocate p np hp hforkp hnp hnext h =>
      rw [TreeInv, funext h.stage, funext h.parent, h.fork, h.initproc]
      have hnone := hi.free_parent np hnp
      constructor
      · grind [hi.fork_alive]
      · grind [hi.free_parent]
      · grind [hi.allocated]
      · grind [hi.filled]
      · grind [hi.embryo_parent]
      · grind [hi.init_alive]
      · grind [hi.init_parent]
      · grind [hi.irrefl]
      · grind [hi.parent_alive]
  | @forkFail p np hp hforkp hnext h =>
      rw [TreeInv, funext h.stage, funext h.parent, h.fork, h.initproc]
      have hnp : v.stage np = .embryo := hf.embryo p np (by rw [hforkp]; rfl)
      have hnone := hi.allocated p np hforkp
      constructor
      · grind [hi.fork_alive]
      · grind [hi.free_parent]
      · grind [hi.allocated]
      · grind [hi.filled]
      · grind [hi.embryo_parent]
      · grind [hi.init_alive]
      · grind [hi.init_parent]
      · grind [hi.irrefl]
      · grind [hi.parent_alive]
  | @forkFill p np hp hforkp hnext h =>
      rw [TreeInv, funext h.stage, funext h.parent, h.fork, h.initproc]
      have hnp : v.stage np = .embryo := hf.embryo p np (by rw [hforkp]; rfl)
      have hnone := hi.allocated p np hforkp
      have hown : ∀ q, v.fork q = .allocated np → q = p := fun q hq =>
        hf.inj q p np (by rw [hq]; rfl) (by rw [hforkp]; rfl)
      constructor
      · grind [hi.fork_alive]
      · grind [hi.free_parent]
      · grind [hi.allocated]
      · grind [hi.filled]
      · grind [hi.embryo_parent, hi.fork_alive]
      · grind [hi.init_alive]
      · grind [hi.init_parent, hi.init_alive]
      · grind [hi.irrefl]
      · grind [hi.parent_alive]
  | @makeRunnable p np hp hforkp hnext h =>
      rw [TreeInv, funext h.stage, funext h.parent, h.fork, h.initproc]
      have hnp : v.stage np = .embryo := hf.embryo p np (by rw [hforkp]; rfl)
      have hparent := hi.filled p np hforkp
      constructor
      · grind [hi.fork_alive]
      · grind [hi.free_parent]
      · grind [hi.allocated]
      · grind [hi.filled]
      · grind [hi.embryo_parent]
      · grind [hi.init_alive]
      · grind [hi.init_parent]
      · grind [hi.irrefl]
      · grind [hi.parent_alive]
  | @exit p hp hforkp hinit hnext h hwake =>
      rw [TreeInv, funext h.stage, funext h.parent, h.fork, h.initproc]
      constructor
      · grind [hi.fork_alive]
      · grind [hi.free_parent]
      · grind [hi.allocated]
      · grind [hi.filled]
      · grind [hi.embryo_parent]
      · grind [hi.init_alive]
      · grind [hi.init_parent]
      · grind [hi.irrefl, hi.init_parent]
      · intro q hq hne
        by_cases hqp : v.parent q = some p
        · exact ⟨v.table.initproc, if_pos hqp, by grind [hi.init_alive]⟩
        · grind [hi.parent_alive]
  | @reap p q hp hparent hq hnext h =>
      rw [TreeInv, funext h.stage, funext h.parent, h.fork, h.initproc]
      have hfilled : ∀ r, v.fork r ≠ .filled q := fun r hr => by
        have hembryo := hf.embryo r q (by rw [hr]; rfl)
        rw [hq] at hembryo
        cases hembryo
      constructor
      · grind [hi.fork_alive]
      · grind [hi.free_parent]
      · grind [hi.allocated]
      · grind [hi.filled]
      · grind [hi.embryo_parent]
      · grind [hi.init_alive]
      · grind [hi.init_parent]
      · grind [hi.irrefl]
      · grind [hi.parent_alive]

theorem Initial.stage {v : Life} (h : Initial v) (p : Slot) :
    v.stage p = if p = 0 then .alive else .free := by
  rw [Life.stage, Life.proc, h.1, userinit_eq.1, setState, modify_state]
  by_cases hp : p = 0 <;> simp [hp, ProcState.stage]

theorem Initial.parent {v : Life} (h : Initial v) (p : Slot) : v.parent p = none := by
  rw [Life.parent, Life.proc, h.1, userinit_eq.1, setState, modify_parent, modify_parent]
  split_ifs <;> rfl

theorem Initial.pid {v : Life} (h : Initial v) : v.pid 0 = 1 := by
  rw [Life.pid, Life.proc, h.1, userinit_eq.1]
  simp [setState]

theorem Initial.initproc {v : Life} (h : Initial v) : v.table.initproc = 0 := by
  rw [h.1, userinit_eq.2.2]

theorem Initial.treeInv {v : Life} (h : Initial v) : TreeInv v := by
  have hfork := h.2.1
  have hstage := h.stage
  have hparent := h.parent
  have hinit := h.initproc
  constructor <;> grind

structure PidInv (v : Life) : Prop where
  nextpid : v.table.nextpid = ((created v.log : ℤ) + 1).bmod (2 ^ 32)
  range : created v.log < 2 ^ 31 → ∀ p, v.stage p ≠ .free →
    1 ≤ v.pid p ∧ v.pid p ≤ created v.log
  inj : created v.log < 2 ^ 31 → ∀ p q, v.stage p ≠ .free → v.stage q ≠ .free →
    v.pid p = v.pid q → p = q

theorem PidInv.keep {v w : Life} (hi : PidInv v) (hnext : w.table.nextpid = v.table.nextpid)
    (hcreated : created w.log = created v.log)
    (hheld : ∀ p, w.stage p ≠ .free → v.stage p ≠ .free ∧ w.pid p = v.pid p) : PidInv w := by
  refine ⟨by rw [hnext, hcreated, hi.nextpid], fun hfew p hp => ?_, fun hfew p q hp hq he => ?_⟩
  · obtain ⟨hp, hpid⟩ := hheld p hp
    rw [hcreated] at hfew ⊢
    rw [hpid]
    exact hi.range hfew p hp
  · obtain ⟨hp, hpidp⟩ := hheld p hp
    obtain ⟨hq, hpidq⟩ := hheld q hq
    rw [hcreated] at hfew
    rw [hpidp, hpidq] at he
    exact hi.inj hfew p q hp hq he

/-- As long as few processes have been created, `nextpid` is above every pid in use. -/
theorem PidInv.nextpid_eq {v : Life} (hi : PidInv v) (hfew : created v.log + 1 < 2 ^ 31) :
    v.table.nextpid = created v.log + 1 := by
  rw [hi.nextpid]
  apply Int.bmod_eq_of_le <;> omega

theorem Quiet.counts {v w : Life} (h : Quiet v w) :
    created w.log = created v.log ∧ ∀ n, exits w.log n = exits v.log n ∧
      reaps w.log n = reaps v.log n := by
  rcases h.log with h | ⟨pid, ret, h⟩ | ⟨p, pid, h⟩ | ⟨p, h, -⟩ <;>
    simp [h, created_cons, exits_cons, reaps_cons, Event.isAllocation, Event.isExit, Event.isReap]

theorem PidInv.change {v w : Life} (hf : ForkInv v) (hi : PidInv v) (hc : Change v w) :
    PidInv w := by
  cases hc with
  | quiet h =>
      apply hi.keep h.nextpid h.counts.1
      intro p hp
      rw [h.stage] at hp
      exact ⟨hp, h.pid p⟩
  | @allocate p np hp hforkp hnp hnext h =>
      have hcreated : created w.log = created v.log + 1 := by
        simp [h.log, created_cons, Event.isAllocation]
      have hstage := h.stage
      have hpid := h.pid
      refine ⟨?_, fun hfew q hq => ?_, fun hfew q r hq hr he => ?_⟩
      · rw [hnext, hi.nextpid, hcreated, succInt, Int.bmod_add_bmod]
        push_cast
        rfl
      · have hnext := hi.nextpid_eq (by omega)
        have hrange := hi.range (by omega)
        grind
      · have hnext := hi.nextpid_eq (by omega)
        have hrange := hi.range (by omega)
        have hinj := hi.inj (by omega)
        grind
  | @forkFail p np hp hforkp hnext h =>
      apply hi.keep hnext (by rw [h.log])
      intro q hq
      grind [h.stage q, h.pid q]
  | @forkFill p np hp hforkp hnext h =>
      apply hi.keep hnext (by rw [h.log])
      intro q hq
      exact ⟨h.stage q ▸ hq, h.pid q⟩
  | @makeRunnable p np hp hforkp hnext h =>
      have hnp : v.stage np = .embryo := hf.embryo p np (by rw [hforkp]; rfl)
      apply hi.keep hnext (by simp [h.log, created_cons, Event.isAllocation])
      intro q hq
      grind [h.stage q, h.pid q]
  | @exit p hp hforkp hinit hnext h hwake =>
      apply hi.keep hnext (by simp [h.log, created_cons, Event.isAllocation])
      intro q hq
      grind [h.stage q, h.pid q]
  | @reap p q hp hparent hq hnext h =>
      apply hi.keep hnext (by simp [h.log, created_cons, Event.isAllocation])
      intro r hr
      grind [h.stage r, h.pid r]

theorem Initial.pidInv {v : Life} (h : Initial v) : PidInv v := by
  have hstage := h.stage
  have hpid := h.pid
  have hcreated : created v.log = 1 := by rw [h.2.2]; rfl
  refine ⟨?_, fun _ p hp => ?_, fun _ p q hp hq _ => ?_⟩
  · rw [h.1, userinit_eq.2.1, hcreated]
    rfl
  · grind
  · grind

/-- A pid in use has not been reaped and has exited if its slot is ZOMBIE; a pid that has been
given up has been reaped as often as it has exited. -/
structure ReapInv (v : Life) : Prop where
  held : ∀ p, v.stage p ≠ .free → reaps v.log (v.pid p) = 0 ∧
    exits v.log (v.pid p) = if v.stage p = .zombie then 1 else 0
  gone : ∀ n, (∀ p, v.stage p ≠ .free → v.pid p ≠ n) →
    reaps v.log n = exits v.log n ∧ exits v.log n ≤ 1
  fresh : ∀ n : ℤ, created v.log < n → exits v.log n = 0

/-- No exit, no reap, and every pid in use stays in use at the same stage of its account. -/
theorem ReapInv.keep {v w : Life} (hi : ReapInv v) (hcreated : created w.log = created v.log)
    (hcounts : ∀ n, exits w.log n = exits v.log n ∧ reaps w.log n = reaps v.log n)
    (hheld : ∀ p, w.stage p ≠ .free → v.stage p ≠ .free ∧ w.pid p = v.pid p ∧
      (w.stage p = .zombie ↔ v.stage p = .zombie))
    (hlost : ∀ p, v.stage p ≠ .free → w.stage p = .free → v.stage p ≠ .zombie) : ReapInv w := by
  refine ⟨fun p hp => ?_, fun n hn => ?_, fun n hn => ?_⟩
  · obtain ⟨hp, hpid, hz⟩ := hheld p hp
    rw [hpid, (hcounts _).1, (hcounts _).2]
    have := hi.held p hp
    grind
  · rw [(hcounts n).1, (hcounts n).2]
    by_cases hin : ∀ p, v.stage p ≠ .free → v.pid p ≠ n
    · exact hi.gone n hin
    · push Not at hin
      obtain ⟨p, hp, rfl⟩ := hin
      have hfree : w.stage p = .free := by grind
      have hacc := hi.held p hp
      rw [if_neg (hlost p hp hfree)] at hacc
      omega
  · rw [(hcounts n).1]
    exact hi.fresh n (hcreated ▸ hn)

theorem ReapInv.change {v w : Life} (hf : ForkInv v) (hp : PidInv v) (hi : ReapInv v)
    (hfew : created w.log < 2 ^ 31) (hc : Change v w) : ReapInv w := by
  cases hc with
  | quiet h =>
      apply hi.keep h.counts.1 h.counts.2
      · intro p hp
        rw [h.stage] at hp ⊢
        exact ⟨hp, h.pid p, Iff.rfl⟩
      · intro p hp hfree
        rw [h.stage] at hfree
        exact absurd hfree hp
  | @allocate p np halive hforkp hnp hnext h =>
      have hcreated : created w.log = created v.log + 1 := by
        simp [h.log, created_cons, Event.isAllocation]
      have hcounts : ∀ n, exits w.log n = exits v.log n ∧ reaps w.log n = reaps v.log n := by
        simp [h.log, exits_cons, reaps_cons, Event.isExit, Event.isReap]
      have hnew := hp.nextpid_eq (by omega)
      have hrange := hp.range (by omega)
      have hstage := h.stage
      have hpid := h.pid
      refine ⟨fun q hq => ?_, fun n hn => ?_, fun n hn => ?_⟩
      · rw [(hcounts _).1, (hcounts _).2]
        by_cases hqn : q = np
        · have hgone := hi.gone v.table.nextpid fun r hr => by grind
          have hfresh := hi.fresh v.table.nextpid (by omega)
          grind
        · have := hi.held q
          grind
      · rw [(hcounts n).1, (hcounts n).2]
        apply hi.gone n
        intro q hq
        have := hn q
        grind
      · rw [(hcounts n).1]
        exact hi.fresh n (by omega)
  | @forkFail p np halive hforkp hnext h =>
      have hnp : v.stage np = .embryo := hf.embryo p np (by rw [hforkp]; rfl)
      have hstage := h.stage
      have hpid := h.pid
      apply hi.keep (by rw [h.log]) (by simp [h.log])
      · grind
      · grind
  | @forkFill p np halive hforkp hnext h =>
      have hstage := h.stage
      have hpid := h.pid
      apply hi.keep (by rw [h.log]) (by simp [h.log])
      · grind
      · grind
  | @makeRunnable p np halive hforkp hnext h =>
      have hnp : v.stage np = .embryo := hf.embryo p np (by rw [hforkp]; rfl)
      have hstage := h.stage
      have hpid := h.pid
      apply hi.keep (by simp [h.log, created_cons, Event.isAllocation])
        (by simp [h.log, exits_cons, reaps_cons, Event.isExit, Event.isReap])
      · grind
      · grind
  | @exit p halive hforkp hinit hnext h hwake =>
      have hcreated : created w.log = created v.log := by
        simp [h.log, created_cons, Event.isAllocation]
      have hreaps : ∀ n, reaps w.log n = reaps v.log n := by
        simp [h.log, reaps_cons, Event.isReap]
      have hexits : ∀ n, exits w.log n = exits v.log n + if v.pid p = n then 1 else 0 := by
        simp [h.log, exits_cons, Event.isExit]
      have hinj := hp.inj (by omega)
      have hrange := hp.range (by omega)
      have hstage := h.stage
      have hpid := h.pid
      refine ⟨fun q hq => ?_, fun n hn => ?_, fun n hn => ?_⟩
      · rw [hexits, hreaps]
        have := hi.held q
        grind
      · have hne := hn p
        have hgone := hi.gone n fun q hq => by
          have := hn q
          grind
        rw [hexits, hreaps, if_neg (by grind)]
        exact hgone
      · rw [hexits, if_neg]
        · exact hi.fresh n (by omega)
        · have := hrange p
          grind
  | @reap p q halive hparent hq hnext h =>
      have hcreated : created w.log = created v.log := by
        simp [h.log, created_cons, Event.isAllocation]
      have hexits : ∀ n, exits w.log n = exits v.log n := by
        simp [h.log, exits_cons, Event.isExit]
      have hreaps : ∀ n, reaps w.log n = reaps v.log n + if v.pid q = n then 1 else 0 := by
        simp [h.log, reaps_cons, Event.isReap]
      have hinj := hp.inj (by omega)
      have hstage := h.stage
      have hpid := h.pid
      refine ⟨fun r hr => ?_, fun n hn => ?_, fun n hn => ?_⟩
      · rw [hexits, hreaps]
        have := hi.held r
        grind
      · rw [hexits, hreaps]
        by_cases hn' : v.pid q = n
        · have := hi.held q
          grind
        · have hgone := hi.gone n fun r hr => by
            have := hn r
            grind
          rw [if_neg hn']
          exact hgone
      · rw [hexits]
        exact hi.fresh n (by omega)

theorem Initial.reapInv {v : Life} (h : Initial v) : ReapInv v := by
  have hlog : v.log = [] := h.2.2
  have hstage := h.stage
  constructor
  · intro p hp
    rw [hlog, if_neg (by grind)]
    exact ⟨rfl, rfl⟩
  · intro n _
    rw [hlog]
    exact ⟨rfl, Nat.zero_le 1⟩
  · intro n _
    rw [hlog]
    rfl

structure KinInv (v : Life) : Prop where
  init : v.pid v.table.initproc = 1
  kin : ∀ p q, v.Started p → v.parent p = some q → Lineage v.log (v.pid q) (v.pid p)
  reaped : ∀ a b, .reaped a b ∈ v.log → Lineage v.log a b
  forked : ∀ a n, .forked a n ∈ v.log → (∃ x, .reaped x n ∈ v.log) ∨
    ∃ p, v.Started p ∧ p ≠ v.table.initproc ∧ v.pid p = n

theorem log_mono {v w : Life} {P : Event → Prop}
    (hlog : w.log = v.log ∨ ∃ e, w.log = e :: v.log ∧ P e) : ∀ e ∈ v.log, e ∈ w.log := by
  rcases hlog with h | ⟨e, h, -⟩ <;> rw [h]
  · exact fun _ he => he
  · exact fun _ he => List.mem_cons_of_mem _ he

/-- The log grows by at most an event that neither forks nor reaps; kinship is inherited. -/
theorem KinInv.keep {v w : Life} (hi : KinInv v) (hinit : w.table.initproc = v.table.initproc)
    (hpidInit : w.pid v.table.initproc = v.pid v.table.initproc)
    (hlog : w.log = v.log ∨ ∃ e, w.log = e :: v.log ∧ (∀ a n, e ≠ .forked a n) ∧
      ∀ a n, e ≠ .reaped a n)
    (hstarted : ∀ p, v.Started p → w.Started p ∧ w.pid p = v.pid p)
    (hkin : ∀ p q, w.Started p → w.parent p = some q → Lineage w.log (w.pid q) (w.pid p)) :
    KinInv w := by
  have hforked : ∀ a n, .forked a n ∈ w.log → .forked a n ∈ v.log := by
    rcases hlog with h | ⟨e, h, he, -⟩
    · simp [h]
    · intro a n hmem
      rw [h, List.mem_cons] at hmem
      exact hmem.resolve_left (he a n).symm
  have hreaped : ∀ a n, .reaped a n ∈ w.log ↔ .reaped a n ∈ v.log := by
    rcases hlog with h | ⟨e, h, -, he⟩
    · simp [h]
    · intro a n
      rw [h, List.mem_cons, or_iff_right (he a n).symm]
  refine ⟨by rw [hinit, hpidInit, hi.init], hkin, fun a b hab => ?_, fun a n han => ?_⟩
  · exact (hi.reaped a b ((hreaped a b).mp hab)).mono (log_mono hlog)
  · rcases hi.forked a n (hforked a n han) with ⟨x, hx⟩ | ⟨p, hp, hne, hpid⟩
    · exact Or.inl ⟨x, (hreaped x n).mpr hx⟩
    · exact Or.inr ⟨p, (hstarted p hp).1, hinit ▸ hne, by rw [(hstarted p hp).2, hpid]⟩

theorem TreeInv.stage_parent {v : Life} (ht : TreeInv v) {p q : Slot} (hp : v.Started p)
    (hq : v.parent p = some q) : v.stage q = .alive := by
  have hne : p ≠ v.table.initproc := by
    rintro rfl
    rw [ht.init_parent] at hq
    cases hq
  obtain ⟨r, hr, halive⟩ := ht.parent_alive p hp hne
  rw [hq] at hr
  cases hr
  exact halive

open Function in
theorem KinInv.makeRunnable {v w : Life} (hf : ForkInv v) (ht : TreeInv v) (hi : KinInv v)
    {p np : Slot}
    (hforkp : v.fork p = .filled np)
    (h : Effect v w (update v.stage np .alive) v.pid v.parent (update v.fork p .none)
      (.forked (v.pid p) (v.pid np) :: v.log)) : KinInv w := by
  have hinit := ht.init_alive
  have hnp : v.stage np = .embryo := hf.embryo p np (by rw [hforkp]; rfl)
  have hfilled := ht.filled p np hforkp
  have hstage := h.stage
  refine ⟨?_, fun q r hq hr => ?_, fun a b hab => ?_, fun a n han => ?_⟩
  · rw [h.initproc, h.pid, hi.init]
  · rw [h.parent] at hr
    rw [h.pid, h.pid, h.log]
    by_cases hqn : q = np
    · subst hqn
      rw [hfilled] at hr
      cases hr
      exact Or.inl List.mem_cons_self
    · exact (hi.kin q r (by grind [Started]) hr).cons _
  · rw [h.log, List.mem_cons] at hab
    rw [h.log]
    exact (hi.reaped a b (hab.resolve_left nofun)).cons _
  · rw [h.log, List.mem_cons] at han
    rw [h.log]
    rcases han with he | han
    · cases he
      exact Or.inr ⟨np, by grind [Started], by grind [h.initproc], h.pid np⟩
    · rcases hi.forked a n han with ⟨x, hx⟩ | ⟨q, hq, hne, hpid⟩
      · exact Or.inl ⟨x, List.mem_cons_of_mem _ hx⟩
      · exact Or.inr ⟨q, by grind [Started], h.initproc ▸ hne, by rw [h.pid, hpid]⟩

open Function in
theorem KinInv.reap {v w : Life} (ht : TreeInv v) (hi : KinInv v) {p q : Slot}
    (hq : v.parent q = some p)
    (hz : v.stage q = .zombie)
    (h : Effect v w (update v.stage q .free) (update v.pid q 0) (update v.parent q none) v.fork
      (.reaped (v.pid p) (v.pid q) :: v.log)) : KinInv w := by
  have hinit := ht.init_alive
  have hstage := h.stage
  have hpid := h.pid
  refine ⟨?_, fun r t hr ht' => ?_, fun a b hab => ?_, fun a n han => ?_⟩
  · rw [h.initproc, hpid, Function.update_of_ne (by grind), hi.init]
  · have hrv : v.Started r := by grind [Started]
    have hrq : r ≠ q := by grind [Started]
    rw [h.parent, Function.update_of_ne hrq] at ht'
    have htv := ht.stage_parent hrv ht'
    rw [hpid, hpid, h.log, Function.update_of_ne hrq, Function.update_of_ne (by grind)]
    exact (hi.kin r t hrv ht').cons _
  · rw [h.log, List.mem_cons] at hab
    rw [h.log]
    rcases hab with he | hab
    · cases he
      exact (hi.kin q p (Or.inr hz) hq).cons _
    · exact (hi.reaped a b hab).cons _
  · rw [h.log, List.mem_cons] at han
    rw [h.log]
    rcases hi.forked a n (han.resolve_left nofun) with ⟨x, hx⟩ | ⟨r, hr, hne, hpidr⟩
    · exact Or.inl ⟨x, List.mem_cons_of_mem _ hx⟩
    · by_cases hrq : r = q
      · subst hrq
        rw [← hpidr]
        exact Or.inl ⟨_, List.mem_cons_self⟩
      · exact Or.inr ⟨r, by grind [Started], h.initproc ▸ hne, by
          rw [hpid, Function.update_of_ne hrq, hpidr]⟩

theorem KinInv.change {v w : Life} (hf : ForkInv v) (ht : TreeInv v) (hi : KinInv v)
    (hc : Change v w) : KinInv w := by
  have hchild : ∀ p np, (v.fork p).child = some np → v.stage np = .embryo := hf.embryo
  have hinit := ht.init_alive
  have hfree : ∀ p, v.stage p = .free → ¬ v.Started p := by
    rintro p hp (h | h) <;> rw [hp] at h <;> cases h
  cases hc with
  | quiet h =>
      have hstarted : ∀ p, w.Started p ↔ v.Started p := fun p => by rw [Started, Started, h.stage]
      have hlog : w.log = v.log ∨ ∃ e, w.log = e :: v.log ∧ (∀ a n, e ≠ .forked a n) ∧
          ∀ a n, e ≠ .reaped a n := by
        rcases h.log with h | ⟨pid, ret, h⟩ | ⟨p, pid, h⟩ | ⟨p, h, -⟩
        · exact Or.inl h
        · exact Or.inr ⟨_, h, by simp, by simp⟩
        · exact Or.inr ⟨_, h, by simp, by simp⟩
        · exact Or.inr ⟨_, h, by simp, by simp⟩
      apply hi.keep h.initproc (h.pid _) hlog
      · exact fun p hp => ⟨(hstarted p).mpr hp, h.pid p⟩
      · intro p q hp hq
        rw [h.parent] at hq
        rw [h.pid, h.pid]
        exact (hi.kin p q ((hstarted p).mp hp) hq).mono (log_mono hlog)
  | @allocate p np halive hforkp hnp hnext h =>
      have hstage := h.stage
      have hpid := h.pid
      apply hi.keep h.initproc (by grind) (Or.inr ⟨_, h.log, by simp, by simp⟩)
      · grind [Started]
      · intro q r hq hr
        rw [h.parent] at hr
        have hqv : v.Started q := by grind [Started]
        have hrv := ht.stage_parent hqv hr
        rw [hpid q, hpid r, h.log, Function.update_of_ne (by grind),
          Function.update_of_ne (by grind [Started])]
        exact (hi.kin q r hqv hr).cons _
  | @forkFail p np halive hforkp hnext h =>
      have hnp := hchild p np (by rw [hforkp]; rfl)
      have hstage := h.stage
      apply hi.keep h.initproc (h.pid _) (Or.inl h.log)
      · grind [Started, h.pid]
      · intro q r hq hr
        rw [h.parent] at hr
        rw [h.pid, h.pid, h.log]
        exact hi.kin q r (by grind [Started]) hr
  | @forkFill p np halive hforkp hnext h =>
      have hnp := hchild p np (by rw [hforkp]; rfl)
      have hstage := h.stage
      have hparent := h.parent
      apply hi.keep h.initproc (h.pid _) (Or.inl h.log)
      · grind [Started, h.pid]
      · intro q r hq hr
        rw [h.pid, h.pid, h.log]
        exact hi.kin q r (by grind [Started]) (by grind [Started])
  | makeRunnable _ hforkp _ h => exact hi.makeRunnable hf ht hforkp h
  | @exit p halive hforkp hne hnext h hwake =>
      have hstage := h.stage
      apply hi.keep h.initproc (h.pid _) (Or.inr ⟨_, h.log, by simp, by simp⟩)
      · grind [Started, h.pid]
      · intro q r hq hr
        have hqv : v.Started q := by grind [Started]
        rw [h.parent] at hr
        rw [h.pid, h.pid, h.log]
        by_cases hqp : v.parent q = some p
        · rw [if_pos hqp] at hr
          cases hr
          rw [hi.init]
          exact (hi.kin q p hqv hqp).orphan
        · rw [if_neg hqp] at hr
          exact (hi.kin q r hqv hr).cons _
  | reap _ hq hz _ h => exact hi.reap ht hq hz h

theorem Initial.kinInv {v : Life} (h : Initial v) : KinInv v := by
  have hlog : v.log = [] := h.2.2
  refine ⟨by rw [h.initproc, h.pid], fun p q _ hq => ?_, fun a b hab => ?_, fun a n han => ?_⟩
  · rw [h.parent p] at hq
    cases hq
  · rw [hlog] at hab
    cases hab
  · rw [hlog] at han
    cases han

/-- Nobody sleeps in `wait` past a dead child. -/
def WaitInv (v : Life) : Prop := ∀ i q, v.InWait i → v.parent q = some i → v.stage q ≠ .zombie

theorem WaitInv.change {v w : Life} (hf : ForkInv v) (ht : TreeInv v) (hi : WaitInv v)
    (hc : Change v w) : WaitInv w := by
  intro i q hw hq
  cases hc with
  | quiet h =>
      rw [h.parent] at hq
      rw [h.stage]
      rcases h.inWait i hw with hv | hnone
      · exact hi i q hv hq
      · exact hnone q hq
  | @allocate p np halive hforkp hnp hnext h =>
      rw [h.parent] at hq
      rw [h.stage, Function.update_apply]
      split_ifs
      · simp
      · exact hi i q (h.inWait i hw) hq
  | @forkFail p np halive hforkp hnext h =>
      rw [h.parent] at hq
      rw [h.stage, Function.update_apply]
      split_ifs
      · simp
      · exact hi i q (h.inWait i hw) hq
  | @forkFill p np halive hforkp hnext h =>
      have hnp : v.stage np = .embryo := hf.embryo p np (by rw [hforkp]; rfl)
      rw [h.parent, Function.update_apply] at hq
      rw [h.stage]
      split_ifs at hq with hqn
      · simp [hqn, hnp]
      · exact hi i q (h.inWait i hw) hq
  | @makeRunnable p np halive hforkp hnext h =>
      rw [h.parent] at hq
      rw [h.stage, Function.update_apply]
      split_ifs
      · simp
      · exact hi i q (h.inWait i hw) hq
  | @exit p halive hforkp hne hnext h hwake =>
      obtain ⟨hparent, hzombie⟩ := hwake i hw
      rw [h.parent] at hq
      rw [h.stage, Function.update_apply]
      by_cases hqp : q = p
      · -- the parent of the exiting process has been woken, and it is not the process itself
        subst hqp
        rw [if_neg (ht.irrefl q)] at hq
        exact absurd hq hparent
      · rw [if_neg hqp]
        split_ifs at hq with hchild
        · cases hq
          exact fun hz => hzombie ⟨q, hchild, hz⟩ rfl
        · exact hi i q (h.inWait i hw) hq
  | @reap p r halive hr hz hnext h =>
      rw [h.parent, Function.update_apply] at hq
      rw [h.stage, Function.update_apply]
      split_ifs at hq ⊢ with hqr
      exact hi i q (h.inWait i hw) hq

theorem Initial.waitInv {v : Life} (h : Initial v) : WaitInv v := by
  intro i q _ hq
  rw [h.parent q] at hq
  cases hq

section Runs

variable {v : Life}

theorem Reachable.treeInv (h : Reachable v) : TreeInv v :=
  h.invariant (fun _ => Initial.treeInv) fun _ _ hr hi hc => hi.change hr.forkInv hc

theorem Reachable.pidInv (h : Reachable v) : PidInv v :=
  h.invariant (fun _ => Initial.pidInv) fun _ _ hr hi hc => hi.change hr.forkInv hc

theorem Reachable.kinInv (h : Reachable v) : KinInv v :=
  h.invariant (fun _ => Initial.kinInv) fun _ _ hr hi hc =>
    hi.change hr.forkInv (Reachable.treeInv hr) hc

theorem Reachable.waitInv (h : Reachable v) : WaitInv v :=
  h.invariant (fun _ => Initial.waitInv) fun _ _ hr hi hc =>
    hi.change hr.forkInv (Reachable.treeInv hr) hc

end Runs

theorem Change.created_le {v w : Life} (hc : Change v w) : created v.log ≤ created w.log := by
  cases hc with
  | quiet h => exact h.counts.1.ge
  | allocate _ _ _ _ h | makeRunnable _ _ _ h | exit _ _ _ _ h _ | reap _ _ _ _ h =>
      rw [h.log, created_cons]
      omega
  | forkFail _ _ _ h | forkFill _ _ _ h => rw [h.log]

theorem Reachable.reapInv {v : Life} (h : Reachable v) (hfew : created v.log < 2 ^ 31) :
    ReapInv v := by
  induction h with
  | start h0 => exact h0.reapInv
  | step hr hn ih =>
      have hc := hn.change
      have hinv := ih (hc.created_le.trans_lt hfew)
      exact hinv.change (Reachable.forkInv hr) (Reachable.pidInv hr) hfew hc

theorem ReapInv.account {v : Life} (hi : ReapInv v) (n : ℤ) :
    reaps v.log n ≤ exits v.log n ∧ exits v.log n ≤ 1 ∧
      (reaps v.log n < exits v.log n ↔ ∃ p, v.stage p = .zombie ∧ v.pid p = n) := by
  by_cases hz : ∃ p, v.stage p = .zombie ∧ v.pid p = n
  · obtain ⟨p, hp, rfl⟩ := hz
    obtain ⟨hreaps, hexits⟩ := hi.held p (by simp [hp])
    rw [if_pos hp] at hexits
    exact ⟨by omega, by omega, iff_of_true (by omega) ⟨p, hp, rfl⟩⟩
  · have heq : reaps v.log n = exits v.log n ∧ exits v.log n ≤ 1 := by
      by_cases hheld : ∀ p, v.stage p ≠ .free → v.pid p ≠ n
      · exact hi.gone n hheld
      · push Not at hheld
        obtain ⟨p, hp, rfl⟩ := hheld
        obtain ⟨hreaps, hexits⟩ := hi.held p hp
        rw [if_neg fun h => hz ⟨p, h, rfl⟩] at hexits
        omega
    exact ⟨by omega, by omega, iff_of_false (by omega) hz⟩

theorem Change.of_reaped {v w : Life} (hc : Change v w) {a b : ℤ}
    (hlog : w.log = .reaped a b :: v.log) : ∃ p q, v.pid p = a ∧ v.pid q = b ∧
      v.stage p = .alive ∧ v.parent q = some p ∧ v.stage q = .zombie ∧ w.stage q = .free := by
  cases hc with
  | quiet h => rcases h.log with h | ⟨pid, ret, h⟩ | ⟨p, pid, h⟩ | ⟨p, h, -⟩ <;> simp [h] at hlog
  | allocate _ _ _ _ h | makeRunnable _ _ _ h | exit _ _ _ _ h _ => simp [h.log] at hlog
  | forkFail _ _ _ h | forkFill _ _ _ h => simp [h.log] at hlog
  | @reap p q halive hq hz hnext h =>
      rw [h.log] at hlog
      cases hlog
      exact ⟨p, q, rfl, rfl, halive, hq, hz, by rw [h.stage, Function.update_self]⟩

theorem Change.of_waitFailed {v w : Life} (hc : Change v w) {n : ℤ}
    (hlog : w.log = .waitFailed n :: v.log) : ∃ p, v.pid p = n ∧ (v.proc p).state = .running ∧
      (∀ q, v.parent q = some p → v.stage q ≠ .zombie) ∧
        ((∀ q, v.parent q ≠ some p) ∨ (v.proc p).killed = true) := by
  cases hc with
  | quiet h =>
      rcases h.log with h | ⟨pid, ret, h⟩ | ⟨p, pid, h⟩ | ⟨p, h, hp⟩
      · simp [h] at hlog
      · simp [h] at hlog
      · simp [h] at hlog
      · rw [h] at hlog
        cases hlog
        exact ⟨p, rfl, hp⟩
  | allocate _ _ _ _ h | makeRunnable _ _ _ h | exit _ _ _ _ h _ => simp [h.log] at hlog
  | forkFail _ _ _ h | forkFill _ _ _ h | reap _ _ _ _ h => simp [h.log] at hlog

end Life

namespace Machine

variable {κ : Type} [DecidableEq κ]

/-- In every run that creates fewer than `2 ^ 31` processes: processes have distinct pids; a
process that `fork` has made RUNNABLE is in the table with a live parent until it is reaped; an
exited process is reaped at most once, and is ZOMBIE until then; `wait` reaps a ZOMBIE child of
its caller; it fails only when none of them is ZOMBIE, without children or when killed; and nobody
sleeps in `wait` while one of its children is ZOMBIE. -/
theorem children_reaped_once {s : Machine κ} (h : Reachable s) (hfew : created s.log < 2 ^ 31) :
    (∀ p q, (s.proc p).state ≠ .unused → (s.proc q).state ≠ .unused →
      (s.proc p).pid = (s.proc q).pid → p = q) ∧
    (∀ a n, .forked a n ∈ s.log → (∀ x, .reaped x n ∉ s.log) →
      ∃ p q, (s.proc p).pid = n ∧ (s.proc p).state ≠ .unused ∧ (s.proc p).parent = some q ∧
        (s.proc q).state ≠ .unused ∧ (s.proc q).state ≠ .zombie) ∧
    (∀ n, reaps s.log n ≤ exits s.log n ∧ exits s.log n ≤ 1 ∧
      (reaps s.log n < exits s.log n ↔ ∃ p, (s.proc p).state = .zombie ∧ (s.proc p).pid = n)) ∧
    (∀ t a b, Next s t → t.log = .reaped a b :: s.log → Lineage s.log a b ∧
      ∃ p q, (s.proc p).pid = a ∧ (s.proc q).pid = b ∧ (s.proc q).parent = some p ∧
        (s.proc q).state = .zombie ∧ (t.proc q).state = .unused) ∧
    (∀ t n, Next s t → t.log = .waitFailed n :: s.log → ∃ p, (s.proc p).pid = n ∧
      (s.proc p).state = .running ∧
        (∀ q, (s.proc q).parent = some p → (s.proc q).state ≠ .zombie) ∧
          ((∀ q, (s.proc q).parent ≠ some p) ∨ (s.proc p).killed = true)) ∧
    ∀ p q, (s.proc p).state = .sleeping → (s.proc p).chan = some (.proc p) →
      (s.proc q).parent = some p → (s.proc q).state ≠ .zombie := by
  have hl := h.life
  have htree := hl.treeInv
  have hkin := hl.kinInv
  have hreap := hl.reapInv hfew
  have hused : ∀ p, (s.proc p).state ≠ .unused ↔ s.life.stage p ≠ .free :=
    fun p => not_congr ProcState.stage_eq_free.symm
  have hzombie : ∀ p, s.life.stage p = .zombie ↔ (s.proc p).state = .zombie :=
    fun p => ProcState.stage_eq_zombie
  refine ⟨fun p q hp hq he => ?_, fun a n hforked hkept => ?_, fun n => ?_, fun t a b hn hlog => ?_,
    fun t n hn hlog => ?_, fun p q hs hc hq hz => ?_⟩
  · exact hl.pidInv.inj hfew p q ((hused p).mp hp) ((hused q).mp hq) he
  · obtain ⟨x, hx⟩ | ⟨p, hp, hne, hpid⟩ := hkin.forked a n hforked
    · exact absurd hx (hkept x)
    · obtain ⟨q, hq, halive⟩ := htree.parent_alive p hp hne
      refine ⟨p, q, hpid, (hused p).mpr ?_, hq, (hused q).mpr ?_, fun hz => ?_⟩
      · rcases hp with hp | hp <;> simp [hp]
      · simp [halive]
      · rw [← hzombie, halive] at hz
        cases hz
  · obtain ⟨hle, hone, hiff⟩ := hreap.account n
    exact ⟨hle, hone, hiff.trans (exists_congr fun p => and_congr_left' (hzombie p))⟩
  · obtain ⟨p, q, hpa, hqb, -, hq, hz, hfree⟩ := (h.lifeStep hn).change.of_reaped hlog
    refine ⟨?_, p, q, hpa, hqb, hq, (hzombie q).mp hz, ProcState.stage_eq_free.mp hfree⟩
    rw [← hpa, ← hqb]
    exact hkin.kin q p (Or.inr hz) hq
  · obtain ⟨p, hpid, hrun, hnone, hwhy⟩ := (h.lifeStep hn).change.of_waitFailed hlog
    exact ⟨p, hpid, hrun, fun q hq hz => hnone q hq ((hzombie q).mpr hz), hwhy⟩
  · exact hl.waitInv p q ⟨hs, hc⟩ hq ((hzombie q).mpr hz)

/-- One CPU: init forks a child and waits; the child exits and is reaped. -/
theorem children_reaped_once_one_child : ∃ s : Machine (Fin 1), Reachable s ∧
    Event.reaped 1 2 ∈ s.log ∧ reaps s.log 2 ≤ exits s.log 2 ∧ exits s.log 2 ≤ 1 := by
  have hrun : ((TransitionRuns.execute step (boot (Fin 1))
      [.age 0, .acquire 0, .select 0, .resume 0, .release 0,
        .enter 0 .allocproc, .body 0, .release 0, .forkFill 0, .enter 0 .makeRunnable, .body 0,
        .release 0, .enter 0 .wait, .body 0, .clear 0, .release 0,
        .acquire 0, .select 0, .resume 0, .release 0, .enter 0 .exit, .body 0, .clear 0, .release 0,
        .acquire 0, .select 0, .resume 0, .body 0]).any fun s =>
      decide (created s.log < 2 ^ 31 ∧ Event.reaped 1 2 ∈ s.log)) = true := by decide +kernel
  obtain ⟨s, hs, hprop⟩ := (Option.any_eq_true _ _).mp hrun
  obtain ⟨hfew, hreaped⟩ := of_decide_eq_true hprop
  have hreach : Reachable s := TransitionRuns.Reaches.execute (.start boot_initial) hs
  obtain ⟨-, -, haccount, -⟩ := children_reaped_once hreach hfew
  exact ⟨s, hreach, hreaped, (haccount 2).1, (haccount 2).2.1⟩

end Machine
end Xv6Fairness
