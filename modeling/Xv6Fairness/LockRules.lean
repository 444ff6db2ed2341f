import Xv6Fairness.SpinLocks

/-!
# The rules of the spin locks

A function is in order when it takes locks by rising rank, releases what it holds, and switches with
`ptable.lock` alone. Every function that the kernel calls without a lock is in order, and so is
every interrupt.
-/

namespace Xv6Fairness

namespace SpinLocks

open ThreadPrograms Prog

/-- What is taken behind other locks has a higher rank. -/
def Lock.rank : Lock → ℕ
  | .ptable => 1
  | .kmem => 2
  | _ => 0

theorem Lock.rank_le (l : Lock) : l.rank ≤ 2 := by
  cases l <;> simp [rank]

/-- What a CPU holds, how many more calls of `pushcli` it has made, and whether its interrupts were
on before the first of them. -/
structure View where
  held : List Lock
  extra : ℕ
  irq : Bool
  zombie : Bool

namespace View

/-- The interrupts are off. -/
def off (v : View) : Bool := !v.held.isEmpty || v.extra != 0

def eflags (v : View) : Bool := !v.off && v.irq

abbrev free (b : Bool) : View := ⟨[], 0, b, false⟩

abbrev switched (b : Bool) : View := ⟨[.ptable], 0, b, false⟩

end View

def rule (v : View) : (a : Op) → (a.Res → View → Prop) → Prop
  | .pushcli, R => R () { v with extra := v.extra + 1 }
  | .popcli, R => ∃ n, v.extra = n + 1 ∧ R () { v with extra := n }
  | .mycpu, R => v.eflags = false ∧ R () v
  | .owner l, R => v.eflags = false ∧ R (decide (l ∈ v.held)) v
  | .xchg l, R => (∃ n, v.extra = n + 1 ∧ R () { v with held := l :: v.held, extra := n }) ∧
      l ∉ v.held ∧
      ∀ h ∈ v.held, h.rank < l.rank
  | .unlock l, R => l ∈ v.held ∧ v.zombie = false ∧
      R () { v with held := v.held.erase l, extra := v.extra + 1 }
  | .ncli, R => v.eflags = false ∧ R (v.held.length + v.extra) v
  | .readeflags, R => R v.eflags v
  | .intena, R => v.off = true ∧ R v.irq v
  | .setIntena b, R => v.off = true ∧ R () { v with irq := b }
  | .swtch, R => v.held = [.ptable] ∧ v.extra = 0 ∧
      (v.zombie = false → ∀ b, R () { v with irq := b })
  | .sti, R => v.off = false ∧ R () { v with irq := true }
  | .iret, R => v.off = false ∧ R () { v with irq := true }
  | .zombie, R => v.held ≠ [] ∧ R () { v with zombie := true }
  | .choose, R => ∀ n, R n v
  | .which, R => ∀ a, R a v
  | .panic _, _ => False

section Rules

variable {α β : Type} {f g : Script} {v w : View} {b z : Bool} {l lk : Lock} {H : List Lock} {n : ℕ}
  {post : Unit → View → Prop}

@[simp] theorem View.eflags_extra :
    View.eflags ⟨H, n + 1, b, z⟩ = false := by simp [View.eflags, View.off]

@[simp] theorem View.eflags_held :
    View.eflags ⟨l :: H, n, b, z⟩ = false := by simp [View.eflags, View.off]

theorem next {a : Op} {last : β → View → Prop} {k : a.Res → Prog Op.Res β}
    (h : rule v a fun r w => (k r).Safe rule last w) : (op a >>= k).Safe rule last v :=
  .act h fun _ _ => id

/-- `f` leads from one view to another. -/
abbrev Leads (f : Script) (v w : View) : Prop := f.Safe rule (fun _ u => u = w) v

abbrev Keeps (f : Script) (v : View) : Prop := Leads f v v

theorem Leads.next {last : β → View → Prop} {k : Unit → Prog Op.Res β} (h : Leads f v w)
    (hk : (k ()).Safe rule last w) : (f >>= k).Safe rule last v := by
  apply h.bind
  rintro ⟨⟩ u rfl
  exact hk

theorem keeps_pure : Keeps (pure ()) v := rfl

theorem keeps_times (h : Keeps f v) (n : ℕ) : Keeps (times f n) v := by
  induction n with
  | zero => exact keeps_pure
  | succ n ih => exact h.next ih

theorem keeps_often (h : Keeps f v) : Keeps (often f) v :=
  next fun n => keeps_times h n

theorem perhaps_safe (h : f.Safe rule post v) (hv : post () v) : (perhaps f).Safe rule post v :=
  next fun n => by
    change (if n ≠ 0 then f else pure ()).Safe rule post v
    split_ifs
    · exact h
    · exact hv

theorem keeps_perhaps (h : Keeps f v) : Keeps (perhaps f) v := perhaps_safe h rfl

theorem keeps_myproc : Keeps myproc v :=
  next (next ⟨View.eflags_extra, next ⟨v.extra, rfl, rfl⟩⟩)

theorem holding_safe : (holding l).Safe rule (fun r w => r = decide (l ∈ v.held) ∧ w = v) v :=
  next (next ⟨View.eflags_extra, next ⟨v.extra, rfl, rfl, rfl⟩⟩)

theorem acquire_leads (hl : l ∉ H) (hrank : ∀ h ∈ H, h.rank < l.rank) :
    Leads (acquire l) ⟨H, n, b, z⟩ ⟨l :: H, n, b, z⟩ := by
  apply next
  apply holding_safe.bind
  rintro r u ⟨rfl, rfl⟩
  simp only [hl, decide_false, Bool.false_eq_true, if_false]
  apply Safe.perform
  exact ⟨⟨n, rfl, rfl⟩, hl, hrank⟩

theorem release_leads (hl : l ∈ H) :
    Leads (release l) ⟨H, n, b, false⟩ ⟨H.erase l, n, b, false⟩ := by
  apply holding_safe.bind
  rintro r u ⟨rfl, rfl⟩
  simp only [hl, decide_true, Bool.not_true, Bool.false_eq_true, if_false]
  apply next
  refine ⟨hl, rfl, ?_⟩
  apply Safe.perform
  exact ⟨n, rfl, rfl⟩

theorem sched_keeps : Keeps sched (.switched b) := by
  apply keeps_myproc.next
  apply holding_safe.bind
  rintro r u ⟨rfl, rfl⟩
  refine next ⟨View.eflags_held, ?_⟩
  refine next ?_
  refine next ⟨rfl, ?_⟩
  refine next ⟨rfl, rfl, fun _ c => ?_⟩
  apply Safe.perform
  exact ⟨rfl, rfl⟩

theorem sched_zombie : sched.Safe rule (fun _ _ => False) ⟨[.ptable], 0, b, true⟩ := by
  apply keeps_myproc.next
  apply holding_safe.bind
  rintro r u ⟨rfl, rfl⟩
  refine next ⟨View.eflags_held, ?_⟩
  refine next ?_
  refine next ⟨rfl, ?_⟩
  exact next ⟨rfl, rfl, fun h => by cases h⟩

theorem wakeup_keeps (h : ∀ l ∈ H, l.rank = 0) : Keeps wakeup ⟨H, 0, b, false⟩ := by
  have hnot : Lock.ptable ∉ H := fun hmem => by cases h _ hmem
  apply (acquire_leads hnot fun l hl => by rw [h l hl]; decide).next
  have hrelease := release_leads (b := b) (n := 0) (List.mem_cons_self (a := Lock.ptable) (l := H))
  rwa [List.erase_cons_head] at hrelease

theorem critical_keeps (h : ∀ k ∈ H, k.rank < l.rank) : Keeps (critical l) ⟨H, 0, b, false⟩ := by
  have hnot : l ∉ H := fun hmem => lt_irrefl _ (h _ hmem)
  apply (acquire_leads hnot h).next
  have hrelease := release_leads (b := b) (n := 0) (List.mem_cons_self (a := l) (l := H))
  rwa [List.erase_cons_head] at hrelease

theorem sleep_keeps (h : lk.rank = 0) : Keeps (sleep lk) ⟨[lk], 0, b, false⟩ := by
  have hne : lk ≠ .ptable := fun heq => by
    rw [heq] at h
    cases h
  unfold sleep
  simp only [hne, ne_eq, not_false_eq_true, decide_true, onlyIf, if_true]
  have hlock : Leads (acquire .ptable) ⟨[lk], 0, b, false⟩ ⟨[.ptable, lk], 0, b, false⟩ := by
    apply acquire_leads
    · simpa using Ne.symm hne
    · intro l hl
      rw [List.mem_singleton.mp hl, h]
      decide
  have hgive : Leads (release lk) ⟨[.ptable, lk], 0, b, false⟩ (.switched b) := by
    have hrelease := release_leads (b := b) (n := 0) (l := lk) (H := [.ptable, lk]) (by simp)
    rwa [List.erase_cons_tail (by simpa using Ne.symm hne), List.erase_cons_head] at hrelease
  have hunlock : Leads (release .ptable) (.switched b) (.free b) :=
    release_leads (List.mem_singleton.mpr rfl)
  have hback : Leads (acquire lk) (.free b) ⟨[lk], 0, b, false⟩ := acquire_leads (by simp) (by simp)
  apply keeps_myproc.next
  have hgo : Leads (do acquire .ptable; release lk) ⟨[lk], 0, b, false⟩ (.switched b) :=
    hlock.next hgive
  apply hgo.next
  apply sched_keeps.next
  exact hunlock.next hback

theorem sleep_ptable_keeps : Keeps (sleep .ptable) (.switched b) := by
  unfold sleep
  simp only [ne_eq, not_true_eq_false, decide_false, onlyIf, Bool.false_eq_true, if_false]
  exact keeps_myproc.next (sched_keeps.next keeps_pure)

theorem locked : Leads (acquire l) (.free b) ⟨[l], 0, b, false⟩ := acquire_leads (by simp) (by simp)

theorem unlocked : Leads (release l) ⟨[l], 0, b, false⟩ (.free b) := by
  have hrelease := release_leads (b := b) (n := 0) (List.mem_singleton.mpr (rfl : l = l))
  rwa [List.erase_cons_head] at hrelease

theorem wakeup_keeps_one (h : l.rank = 0) : Keeps wakeup ⟨[l], 0, b, false⟩ :=
  wakeup_keeps fun k hk => by rwa [List.mem_singleton.mp hk]

theorem critical_keeps_free : Keeps (critical l) (.free b) := critical_keeps (by simp)

theorem yield_keeps : Keeps yield (.free b) :=
  locked.next (keeps_myproc.next (sched_keeps.next unlocked))

theorem forkret_leads : Leads forkret (.switched b) (.free true) :=
  unlocked.next (Safe.perform ⟨rfl, rfl⟩)

theorem wait_keeps : Keeps wait (.free b) := by
  have hkfree : Keeps kfree (.switched b) := critical_keeps fun k hk => by
    rw [List.mem_singleton.mp hk]
    decide
  have hfree : Keeps (perhaps do kfree; often kfree) (.switched b) :=
    keeps_perhaps (hkfree.next (keeps_often hkfree))
  exact keeps_myproc.next
    (locked.next ((keeps_often sleep_ptable_keeps).next (hfree.next unlocked)))

theorem acquiresleep_keeps {k : ℕ} : Keeps (acquiresleep k) (.free b) :=
  locked.next ((keeps_often (sleep_keeps rfl)).next (keeps_myproc.next unlocked))

theorem releasesleep_keeps {k : ℕ} : Keeps (releasesleep k) (.free b) :=
  locked.next ((wakeup_keeps_one rfl).next unlocked)

theorem holdingsleep_keeps {k : ℕ} : Keeps (holdingsleep k) (.free b) :=
  locked.next ((keeps_perhaps keeps_myproc).next unlocked)

theorem Call.script_safe (a : Call) :
    a.script.Safe rule (fun _ w => w = .free b) (.free b) := by
  cases a with
  | critical l => exact critical_keeps_free
  | myproc => exact keeps_myproc
  | switchuvm => exact keeps_myproc
  | wait => exact wait_keeps
  | acquiresleep lk => exact acquiresleep_keeps
  | releasesleep lk => exact releasesleep_keeps
  | holdingsleep lk => exact holdingsleep_keeps
  | bget lk => exact critical_keeps_free.next acquiresleep_keeps
  | brelse lk => exact holdingsleep_keeps.next (releasesleep_keeps.next critical_keeps_free)
  | iderw lk =>
      exact holdingsleep_keeps.next (locked.next ((keeps_often (sleep_keeps rfl)).next unlocked))
  | beginOp => exact locked.next ((keeps_often (sleep_keeps rfl)).next unlocked)
  | endOp => exact locked.next ((keeps_perhaps (wakeup_keeps_one rfl)).next unlocked)
  | endCommit => exact locked.next ((wakeup_keeps_one rfl).next unlocked)
  | pipeclose p =>
      exact locked.next
        ((wakeup_keeps_one rfl).next (unlocked.next (keeps_perhaps critical_keeps_free)))
  | pipewrite p =>
      have hpass : Keeps (do SpinLocks.myproc; wakeup; sleep (.pipe p)) ⟨[.pipe p], 0, b, false⟩ :=
        keeps_myproc.next ((wakeup_keeps_one rfl).next (sleep_keeps rfl))
      exact locked.next ((keeps_often hpass).next
        ((keeps_perhaps keeps_myproc).next ((keeps_perhaps (wakeup_keeps_one rfl)).next unlocked)))
  | piperead p =>
      have hpass : Keeps (do SpinLocks.myproc; sleep (.pipe p)) ⟨[.pipe p], 0, b, false⟩ :=
        keeps_myproc.next (sleep_keeps rfl)
      exact locked.next ((keeps_often hpass).next
        ((keeps_perhaps keeps_myproc).next ((keeps_perhaps (wakeup_keeps_one rfl)).next unlocked)))
  | consoleread | sysSleep =>
      have hpass {l : Lock}
          (h : l.rank = 0) : Keeps (do SpinLocks.myproc; sleep l) ⟨[l], 0, b, false⟩ :=
        keeps_myproc.next (sleep_keeps h)
      exact locked.next
        ((keeps_often (hpass rfl)).next ((keeps_perhaps keeps_myproc).next unlocked))

theorem exit_safe : exit.Safe rule (fun _ _ => False) (.free b) := by
  have hcall : Keeps (do (← op .which).script) (.free b) := next fun a => a.script_safe
  apply keeps_myproc.next
  apply (keeps_often hcall).next
  apply locked.next
  apply next
  refine ⟨by simp, ?_⟩
  exact sched_zombie.bind fun _ _ h => h.elim

theorem keeps_onlyIf {c : Bool} (hf : Keeps f v) : Keeps (onlyIf c f) v := by
  unfold onlyIf
  split_ifs
  · exact hf
  · exact keeps_pure

theorem trap_keeps (irq : Irq) (proc user : Bool) : Keeps (trap irq proc user) (.free false) := by
  have hmyproc : Keeps (often myproc) (.free false) := keeps_often keeps_myproc
  have hexit : Keeps (perhaps exit) (.free false) :=
    keeps_perhaps (exit_safe.mono fun _ _ h => h.elim)
  have htail : Keeps (do
      often myproc
      onlyIf (proc && user) (perhaps exit)
      often myproc
      onlyIf (proc && irq = .timer) yield
      often myproc
      onlyIf (proc && user) (perhaps exit)) (.free false) := by
    apply hmyproc.next
    apply (keeps_onlyIf hexit).next
    apply hmyproc.next
    apply (keeps_onlyIf yield_keeps).next
    apply hmyproc.next
    exact keeps_onlyIf hexit
  cases irq with
  | timer =>
    have hticks : Keeps (do acquire .tickslock; wakeup; release .tickslock) (.free false) :=
      locked.next ((wakeup_keeps_one rfl).next unlocked)
    exact next ⟨rfl, (keeps_perhaps hticks).next htail⟩
  | ide =>
    have hintr : Keeps ideintr (.free false) :=
      locked.next ((keeps_perhaps (wakeup_keeps_one rfl)).next unlocked)
    exact hintr.next htail
  | ide1 => exact htail
  | input =>
    have hintr : Keeps consoleintr (.free false) := by
      apply locked.next
      apply (keeps_often (wakeup_keeps_one rfl)).next
      apply unlocked.next
      exact keeps_perhaps (keeps_often critical_keeps_free)
    exact hintr.next htail
  | spurious => exact next ⟨rfl, critical_keeps_free.next htail⟩
  | fault => exact hmyproc.next (next ⟨rfl, critical_keeps_free.next htail⟩)

/-- The scheduler may come back with the interrupts off: the last `pushcli` is that of another
thread. -/
theorem scheduler_safe : scheduler.Safe rule (fun _ w => ∃ c, w = .free c) (.free b) := by
  refine next ⟨rfl, ?_⟩
  apply locked.next
  have hturn : Prog.Safe rule (fun _ w => ∃ c, w = .switched c) (do switchuvm; op .swtch)
      (.switched true) := by
    apply keeps_myproc.next
    apply Safe.perform
    exact ⟨rfl, rfl, fun _ c => ⟨c, rfl⟩⟩
  have hturns : Prog.Safe rule (fun _ w => ∃ c, w = .switched c) (perhaps do switchuvm; op .swtch)
      (.switched true) := perhaps_safe hturn ⟨true, rfl⟩
  apply hturns.bind
  rintro ⟨⟩ u ⟨c, rfl⟩
  exact unlocked.mono fun _ _ h => ⟨c, h⟩

end Rules

end SpinLocks

end Xv6Fairness
