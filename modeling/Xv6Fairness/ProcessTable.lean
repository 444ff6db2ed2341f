import Mathlib.Algebra.GroupWithZero.Nat
import Mathlib.Data.Int.Basic
import Mathlib.Data.List.Induction
import Mathlib.Logic.Function.Basic
import Mathlib.Order.Fin.Basic
import Mathlib.Tactic.SplitIfs
import Mathlib.Tactic.Tauto
import Mathlib.Data.Vector.Basic

/-!
# The process table and the critical sections of proc.c

Each definition is the effect on `ptable` of one stretch of `proc.c` that runs under
`ptable.lock`, under the name of its C function. Of `struct proc` the fields are kept that these
stretches read or write; memory, files and the saved registers of a process are not.
-/

namespace Xv6Fairness

@[irreducible] def NPROC : ℕ := 64

/-- A `struct proc *` into `ptable.proc`. -/
abbrev Slot := Fin NPROC

inductive ProcState
  | unused | embryo | sleeping | runnable | running | zombie
  deriving DecidableEq, Repr

/-- Sleep channels: the address of a `struct proc`, on which only `wait` sleeps, or any other
kernel address. -/
inductive Chan (ι : Type*)
  | proc (p : ι)
  | other (addr : ℕ)
  deriving DecidableEq, Repr

structure Proc (ι : Type*) where
  state : ProcState := .unused
  pid : ℤ := 0
  parent : Option ι := none
  chan : Option (Chan ι) := none
  killed : Bool := false
  priority : ℤ := 0
  deriving DecidableEq, Repr

/-- `ptable.proc` with the globals `nextpid` and `initproc`. -/
structure Ptable where
  proc : Slot → Proc Slot
  nextpid : ℤ
  initproc : Slot

section Entries

variable {ι : Type*}

/-- The loop of `scheduler()` in front of its `for(;;)`. -/
def age (proc : ι → Proc ι) : ι → Proc ι := fun p =>
  if (proc p).state = .runnable ∧ 0 < (proc p).priority then
    { proc p with priority := (proc p).priority - 1 }
  else proc p

theorem age_field {β : Type*} (g : Proc ι → β) (hg : ∀ x n, g { x with priority := n } = g x)
    (proc : ι → Proc ι) (p : ι) : g (age proc p) = g (proc p) := by
  unfold age
  split_ifs
  · exact hg _ _
  · rfl

variable [DecidableEq ι]

/-- Stores into the one entry `p`. -/
def modify (p : ι) (f : Proc ι → Proc ι) (proc : ι → Proc ι) : ι → Proc ι :=
  Function.update proc p (f (proc p))

theorem modify_apply (p : ι) (f : Proc ι → Proc ι) (proc : ι → Proc ι) (q : ι) :
    modify p f proc q = if q = p then f (proc q) else proc q := by
  by_cases h : q = p
  · subst h
    simp [modify]
  · simp [modify, h]

@[simp] theorem modify_self (p : ι) (f : Proc ι → Proc ι) (proc : ι → Proc ι) :
    modify p f proc p = f (proc p) := by simp [modify]

@[simp] theorem modify_of_ne {p q : ι} (h : q ≠ p) (f : Proc ι → Proc ι) (proc : ι → Proc ι) :
    modify p f proc q = proc q := by simp [modify, h]

theorem modify_field {β : Type*} (g : Proc ι → β) {p : ι} {f : Proc ι → Proc ι}
    (hg : ∀ x, g (f x) = g x) (proc : ι → Proc ι) (q : ι) :
    g (modify p f proc q) = g (proc q) := by
  rw [modify_apply]
  split_ifs
  · exact hg _
  · rfl

section ModifyFields

variable (p : ι) (f : Proc ι → Proc ι) (proc : ι → Proc ι) (q : ι)

@[simp] theorem modify_state :
    (modify p f proc q).state = if q = p then (f (proc q)).state else (proc q).state := by
  rw [modify_apply, apply_ite Proc.state]

@[simp] theorem modify_pid :
    (modify p f proc q).pid = if q = p then (f (proc q)).pid else (proc q).pid := by
  rw [modify_apply, apply_ite Proc.pid]

@[simp] theorem modify_parent :
    (modify p f proc q).parent = if q = p then (f (proc q)).parent else (proc q).parent := by
  rw [modify_apply, apply_ite Proc.parent]

@[simp] theorem modify_chan :
    (modify p f proc q).chan = if q = p then (f (proc q)).chan else (proc q).chan := by
  rw [modify_apply, apply_ite Proc.chan]

@[simp] theorem modify_killed :
    (modify p f proc q).killed = if q = p then (f (proc q)).killed else (proc q).killed := by
  rw [modify_apply, apply_ite Proc.killed]

@[simp] theorem modify_priority :
    (modify p f proc q).priority =
      if q = p then (f (proc q)).priority else (proc q).priority := by
  rw [modify_apply, apply_ite Proc.priority]

end ModifyFields

/-- `wakeup1(chan)`. -/
def wakeup1 (chan : Option (Chan ι)) (proc : ι → Proc ι) : ι → Proc ι := fun p =>
  if (proc p).state = .sleeping ∧ (proc p).chan = chan then { proc p with state := .runnable }
  else proc p

theorem wakeup1_field {β : Type*} (g : Proc ι → β) (hg : ∀ x st, g { x with state := st } = g x)
    (chan : Option (Chan ι)) (proc : ι → Proc ι)
      (p : ι) : g (wakeup1 chan proc p) = g (proc p) := by
  unfold wakeup1
  split_ifs
  · exact hg _ _
  · rfl

theorem wakeup1_state (chan : Option (Chan ι)) (proc : ι → Proc ι) (p : ι) :
    (wakeup1 chan proc p).state =
      if (proc p).state = .sleeping ∧ (proc p).chan = chan then .runnable else (proc p).state := by
  unfold wakeup1
  split_ifs <;> rfl

@[simp] theorem wakeup1_pid (chan : Option (Chan ι)) (proc : ι → Proc ι) (p : ι) :
    (wakeup1 chan proc p).pid = (proc p).pid := wakeup1_field _ (fun _ _ => rfl) chan proc p

@[simp] theorem wakeup1_parent (chan : Option (Chan ι)) (proc : ι → Proc ι) (p : ι) :
    (wakeup1 chan proc p).parent = (proc p).parent := wakeup1_field _ (fun _ _ => rfl) chan proc p

@[simp] theorem wakeup1_chan (chan : Option (Chan ι)) (proc : ι → Proc ι) (p : ι) :
    (wakeup1 chan proc p).chan = (proc p).chan := wakeup1_field _ (fun _ _ => rfl) chan proc p

@[simp] theorem wakeup1_killed (chan : Option (Chan ι)) (proc : ι → Proc ι) (p : ι) :
    (wakeup1 chan proc p).killed = (proc p).killed := wakeup1_field _ (fun _ _ => rfl) chan proc p

def setState (st : ProcState) (p : ι) : (ι → Proc ι) → ι → Proc ι :=
  modify p fun x => { x with state := st }

def setParent (parent : Option ι) (p : ι) : (ι → Proc ι) → ι → Proc ι :=
  modify p fun x => { x with parent := parent }

/-- The stores of `sleep(chan, lk)` before `sched()`. -/
def fallAsleep (chan : Chan ι) (p : ι) : (ι → Proc ι) → ι → Proc ι :=
  modify p fun x => { x with chan := some chan, state := .sleeping }

/-- The store of `sleep` after `sched()` has returned. -/
def tidyUp (p : ι) : (ι → Proc ι) → ι → Proc ι :=
  modify p fun x => { x with chan := none }

/-- The stores of `yield` before `sched()`. -/
def giveUp (p : ι) : (ι → Proc ι) → ι → Proc ι :=
  modify p fun x =>
    { x with
      priority := if 0 < x.priority then x.priority - 1 else x.priority
      state := .runnable }

/-- The stores of `kill` into the slot it has found. -/
def killProc (p : ι) : (ι → Proc ι) → ι → Proc ι :=
  modify p fun x =>
    { x with
      killed := true
      state := if x.state = .sleeping then .runnable else x.state }

/-- What `wait` stores into the slot of the child it has found. -/
def reap (p : ι) : (ι → Proc ι) → ι → Proc ι :=
  modify p fun x => { x with pid := 0, parent := none, killed := false, state := .unused }

section KilledFlag

variable (st : ProcState) (parent : Option ι) (chan : Chan ι) (p : ι) (proc : ι → Proc ι) (q : ι)

@[simp] theorem setState_killed : (setState st p proc q).killed = (proc q).killed := by
  simp [setState]

@[simp] theorem setParent_killed : (setParent parent p proc q).killed = (proc q).killed := by
  simp [setParent]

@[simp] theorem fallAsleep_killed : (fallAsleep chan p proc q).killed = (proc q).killed := by
  simp [fallAsleep]

@[simp] theorem tidyUp_killed : (tidyUp p proc q).killed = (proc q).killed := by
  simp [tidyUp]

@[simp] theorem giveUp_killed : (giveUp p proc q).killed = (proc q).killed := by
  simp [giveUp]

end KilledFlag

end Entries

/-- `nextpid++` on a 32-bit `int`. -/
def succInt (n : ℤ) : ℤ := (n + 1).bmod (2 ^ 32)

/-- The critical section of `allocproc`: the slot it takes and the table afterwards. -/
def allocproc (t : Ptable) : Option (Slot × Ptable) :=
  match Fin.find? fun p => decide ((t.proc p).state = .unused) with
  | none => none
  | some p =>
    some (p,
      { t with
        proc := modify p (fun x => { x with state := .embryo, pid := t.nextpid, priority := 10 })
          t.proc
        nextpid := succInt t.nextpid })

theorem allocproc_eq_some {t t' : Ptable} {p : Slot} (h : allocproc t = some (p, t')) :
    (t.proc p).state = .unused ∧ (∀ q < p, (t.proc q).state ≠ .unused) ∧
      t'.proc = modify p (fun x => { x with state := .embryo, pid := t.nextpid, priority := 10 })
        t.proc ∧
      t'.nextpid = succInt t.nextpid ∧ t'.initproc = t.initproc := by
  unfold allocproc at h
  split at h
  · cases h
  · rename_i q hq
    obtain ⟨hp, hfirst⟩ := Fin.find?_eq_some_iff.mp hq
    cases h
    exact ⟨by simpa using hp, fun r hr => by simpa using hfirst r hr, rfl, rfl, rfl⟩

/-- One turn of the loop of `exit` that passes abandoned children to init. -/
def passToInit (curproc initproc : Slot) (proc : Slot → Proc Slot) (p : Slot) :
    Slot → Proc Slot :=
  if (proc p).parent = some curproc then
    let proc := setParent (some initproc) p proc
    if (proc p).state = .zombie then wakeup1 (some (.proc initproc)) proc else proc
  else proc

/-- The critical section of `exit` up to `sched()`. -/
def exitProc (curproc : Slot) (t : Ptable) : Ptable :=
  -- Parent might be sleeping in wait().
  let proc := wakeup1 ((t.proc curproc).parent.map .proc) t.proc
  let proc := (List.finRange NPROC).foldl (passToInit curproc t.initproc) proc
  { t with proc := setState .zombie curproc proc }

/-- A field that neither re-parenting nor waking stores into. -/
structure Untouched {β : Type*} (g : Proc Slot → β) : Prop where
  parent : ∀ x parent, g { x with parent := parent } = g x
  state : ∀ x state, g { x with state := state } = g x

theorem passToInit_field {β : Type*} {g : Proc Slot → β} (hg : Untouched g)
    (curproc initproc : Slot) (proc : Slot → Proc Slot) (p q : Slot) :
    g (passToInit curproc initproc proc p q) = g (proc q) := by
  have hp : g (setParent (some initproc) p proc q) = g (proc q) :=
    modify_field g (fun x => hg.parent x _) proc q
  unfold passToInit
  split_ifs
  · dsimp only
    split_ifs
    · exact (wakeup1_field g hg.state _ _ q).trans hp
    · exact hp
  · rfl

theorem passToInit_parent (curproc initproc : Slot) (proc : Slot → Proc Slot) (p q : Slot) :
    (passToInit curproc initproc proc p q).parent =
      if q = p ∧ (proc q).parent = some curproc then some initproc else (proc q).parent := by
  by_cases hc : (proc p).parent = some curproc
  · have hset : (passToInit curproc initproc proc p q).parent =
        (setParent (some initproc) p proc q).parent := by
      simp only [passToInit, if_pos hc]
      split_ifs
      · exact wakeup1_parent _ _ q
      · rfl
    rw [hset, setParent, modify_parent]
    by_cases hq : q = p
    · subst hq
      simp [hc]
    · simp [hq]
  · rw [passToInit, if_neg hc, if_neg]
    rintro ⟨rfl, h⟩
    exact hc h

theorem passToInit_state (curproc initproc : Slot) (proc : Slot → Proc Slot) (p q : Slot) :
    (passToInit curproc initproc proc p q).state =
      if ((proc p).parent = some curproc ∧ (proc p).state = .zombie) ∧
          (proc q).state = .sleeping ∧ (proc q).chan = some (.proc initproc) then .runnable
      else (proc q).state := by
  have hs : ∀ r, (setParent (some initproc) p proc r).state = (proc r).state :=
    fun r => by simp [setParent]
  have hch : ∀ r, (setParent (some initproc) p proc r).chan = (proc r).chan :=
    fun r => by simp [setParent]
  by_cases hc : (proc p).parent = some curproc
  · by_cases hz : (proc p).state = .zombie
    · simp only [passToInit, hc, if_true, hs, hz, wakeup1_state, hch, true_and]
    · simp only [passToInit, hc, if_true, hs, hz, if_false, and_false, false_and]
  · simp only [passToInit, hc, if_false, false_and]

section ExitLoop

variable (curproc initproc : Slot) {l : List Slot} (proc : Slot → Proc Slot) (q : Slot)

theorem foldl_passToInit_field {β : Type*} {g : Proc Slot → β} (hg : Untouched g) :
    g (l.foldl (passToInit curproc initproc) proc q) = g (proc q) := by
  induction l generalizing proc with
  | nil => rfl
  | cons p rest ih => rw [List.foldl_cons, ih, passToInit_field hg]

theorem foldl_passToInit_parent (hl : l.Nodup) :
    (l.foldl (passToInit curproc initproc) proc q).parent =
      if q ∈ l ∧ (proc q).parent = some curproc then some initproc else (proc q).parent := by
  induction l generalizing proc with
  | nil => simp
  | cons p rest ih =>
      obtain ⟨hp, hrest⟩ := List.nodup_cons.mp hl
      rw [List.foldl_cons, ih _ hrest, passToInit_parent]
      by_cases hq : q = p
      · subst hq
        simp [hp]
      · simp [hq]

theorem foldl_passToInit_state (hl : l.Nodup) :
    (l.foldl (passToInit curproc initproc) proc q).state =
      if (∃ p ∈ l, (proc p).parent = some curproc ∧ (proc p).state = .zombie) ∧
          (proc q).state = .sleeping ∧ (proc q).chan = some (.proc initproc) then .runnable
      else (proc q).state := by
  induction l generalizing proc with
  | nil => simp
  | cons p rest ih =>
      obtain ⟨hp, hrest⟩ := List.nodup_cons.mp hl
      have hzombie : ∀ r, (passToInit curproc initproc proc p r).state = .zombie ↔
          (proc r).state = .zombie := by
        intro r
        rw [passToInit_state]
        split_ifs with h
        · simp [h.2.1]
        · rfl
      have hparent : ∀ r ∈ rest, (passToInit curproc initproc proc p r).parent =
          (proc r).parent := by
        intro r hr
        have hne : r ≠ p := fun he => hp (he ▸ hr)
        simp [passToInit_parent, hne]
      have hchan : (passToInit curproc initproc proc p q).chan = (proc q).chan :=
        passToInit_field ⟨fun _ _ => rfl, fun _ _ => rfl⟩ curproc initproc proc p q
      have hex : (∃ r ∈ rest, (passToInit curproc initproc proc p r).parent = some curproc ∧
            (passToInit curproc initproc proc p r).state = .zombie) ↔
          ∃ r ∈ rest, (proc r).parent = some curproc ∧ (proc r).state = .zombie :=
        exists_congr fun r => and_congr_right fun hr => by rw [hparent r hr, hzombie r]
      rw [List.foldl_cons, ih _ hrest, hchan]
      by_cases hw : ((proc p).parent = some curproc ∧ (proc p).state = .zombie) ∧
          (proc q).state = .sleeping ∧ (proc q).chan = some (.proc initproc)
      · have hwoken : (passToInit curproc initproc proc p q).state = .runnable := by
          rw [passToInit_state, if_pos hw]
        rw [hwoken, if_neg (by simp), if_pos ⟨⟨p, List.mem_cons_self, hw.1⟩, hw.2⟩]
      · have hkept : (passToInit curproc initproc proc p q).state = (proc q).state := by
          rw [passToInit_state, if_neg hw]
        rw [hkept]
        refine if_congr ?_ rfl rfl
        rw [hex]
        simp only [List.mem_cons, or_and_right, exists_or, exists_eq_left]
        tauto

end ExitLoop

section Exit

variable (curproc : Slot) (t : Ptable) (q : Slot)

theorem exitProc_field {β : Type*} {g : Proc Slot → β} (hg : Untouched g) :
    g ((exitProc curproc t).proc q) = g (t.proc q) := by
  have hw := wakeup1_field g hg.state ((t.proc curproc).parent.map .proc) t.proc q
  have hf := foldl_passToInit_field (l := List.finRange NPROC) curproc t.initproc
    (wakeup1 ((t.proc curproc).parent.map .proc) t.proc) q hg
  exact (modify_field g (fun x => hg.state x _) _ q).trans (hf.trans hw)

@[simp] theorem exitProc_pid : ((exitProc curproc t).proc q).pid = (t.proc q).pid :=
  exitProc_field curproc t q ⟨fun _ _ => rfl, fun _ _ => rfl⟩

@[simp] theorem exitProc_chan : ((exitProc curproc t).proc q).chan = (t.proc q).chan :=
  exitProc_field curproc t q ⟨fun _ _ => rfl, fun _ _ => rfl⟩

@[simp] theorem exitProc_killed : ((exitProc curproc t).proc q).killed = (t.proc q).killed :=
  exitProc_field curproc t q ⟨fun _ _ => rfl, fun _ _ => rfl⟩

@[simp] theorem exitProc_priority :
    ((exitProc curproc t).proc q).priority = (t.proc q).priority :=
  exitProc_field curproc t q ⟨fun _ _ => rfl, fun _ _ => rfl⟩

theorem exitProc_parent : ((exitProc curproc t).proc q).parent =
    if (t.proc q).parent = some curproc then some t.initproc else (t.proc q).parent := by
  rw [exitProc, setState, modify_field Proc.parent (fun _ => by rfl),
    foldl_passToInit_parent _ _ _ _ (List.nodup_finRange _)]
  simp

@[simp] theorem exitProc_state_self : ((exitProc curproc t).proc curproc).state = .zombie := by
  simp [exitProc, setState]

variable {q}

/-- Only sleepers change state besides the exiting process: its parent, and init when it is
handed a child that has already exited. -/
theorem exitProc_state (hq : q ≠ curproc) : ((exitProc curproc t).proc q).state =
    if (t.proc q).state = .sleeping ∧ ((t.proc q).chan = (t.proc curproc).parent.map .proc ∨
        (∃ p, (t.proc p).parent = some curproc ∧ (t.proc p).state = .zombie) ∧
          (t.proc q).chan = some (.proc t.initproc)) then .runnable
    else (t.proc q).state := by
  let woken := wakeup1 ((t.proc curproc).parent.map .proc) t.proc
  have hparent : ∀ p, (woken p).parent = (t.proc p).parent := wakeup1_parent _ _
  have hchan : (woken q).chan = (t.proc q).chan := wakeup1_chan _ _ q
  have hzombie : ∀ p, (woken p).state = .zombie ↔ (t.proc p).state = .zombie := by
    intro p
    simp only [woken, wakeup1_state]
    split_ifs with h <;> simp [h]
  have hloop : ((exitProc curproc t).proc q).state =
      ((List.finRange NPROC).foldl (passToInit curproc t.initproc) woken q).state := by
    simp [exitProc, setState, hq, woken]
  rw [hloop, foldl_passToInit_state _ _ _ _ (List.nodup_finRange _)]
  simp only [List.mem_finRange, true_and, hparent, hzombie, hchan]
  simp only [woken, wakeup1_state]
  by_cases hex : ∃ p, (t.proc p).parent = some curproc ∧ (t.proc p).state = .zombie
  · simp only [hex, true_and]
    split_ifs <;> simp_all
  · simp only [hex, false_and, or_false, if_false]

theorem exitProc_state_cases (hq : q ≠ curproc) :
    ((exitProc curproc t).proc q).state = (t.proc q).state ∨
      (t.proc q).state = .sleeping ∧ ((exitProc curproc t).proc q).state = .runnable := by
  rw [exitProc_state curproc t hq]
  split_ifs with h
  · exact Or.inr ⟨h.1, rfl⟩
  · exact Or.inl rfl

end Exit

/-- Outcome of one scan of `wait`: an exited child, or whether there are children at all. -/
inductive WaitScan
  | found (p : Slot)
  | noZombie (havekids : Bool)
  deriving DecidableEq

/-- The scan of `wait` over the slots that are left, with `havekids` so far. -/
def waitScan (curproc : Slot) (proc : Slot → Proc Slot) : List Slot → Bool → WaitScan
  | [], havekids => .noZombie havekids
  | p :: rest, havekids =>
    if (proc p).parent ≠ some curproc then waitScan curproc proc rest havekids
    else if (proc p).state = .zombie then .found p
    else waitScan curproc proc rest true

theorem waitScan_found {curproc p : Slot} {proc : Slot → Proc Slot} {l : List Slot} {b : Bool}
    (h : waitScan curproc proc l b = .found p) :
    (proc p).parent = some curproc ∧ (proc p).state = .zombie := by
  induction l generalizing b with
  | nil => cases h
  | cons q rest ih =>
      rw [waitScan] at h
      split_ifs at h with hparent hzombie
      · exact ih h
      · cases h
        exact ⟨not_not.mp hparent, hzombie⟩
      · exact ih h

theorem waitScan_noZombie {curproc : Slot} {proc : Slot → Proc Slot} {l : List Slot}
    {b havekids : Bool} (h : waitScan curproc proc l b = .noZombie havekids) :
    (∀ p ∈ l, (proc p).parent = some curproc → (proc p).state ≠ .zombie) ∧
      (havekids = true ↔ b = true ∨ ∃ p ∈ l, (proc p).parent = some curproc) := by
  induction l generalizing b with
  | nil =>
      cases h
      simp
  | cons q rest ih =>
      rw [waitScan] at h
      split_ifs at h with hparent hzombie
      · obtain ⟨h1, h2⟩ := ih h
        simp [hparent, h2]
        exact h1
      · obtain ⟨h1, h2⟩ := ih h
        simp [not_not.mp hparent, hzombie, h2]
        exact h1

/-- `kill(pid)`: the table afterwards and the value returned. -/
def kill (pid : ℤ) (t : Ptable) : Ptable × ℤ :=
  match Fin.find? fun p => decide ((t.proc p).pid = pid) with
  | none => (t, -1)
  | some p => ({ t with proc := killProc p t.proc }, 0)

theorem kill_cases (pid : ℤ) (t : Ptable) :
    (∀ p, (t.proc p).pid ≠ pid) ∧ kill pid t = (t, -1) ∨
      ∃ p, (t.proc p).pid = pid ∧ (∀ q < p, (t.proc q).pid ≠ pid) ∧
        kill pid t = ({ t with proc := killProc p t.proc }, 0) := by
  unfold kill
  split
  · rename_i h
    exact Or.inl ⟨by simpa using h, rfl⟩
  · rename_i p h
    obtain ⟨hp, hfirst⟩ := Fin.find?_eq_some_iff.mp h
    exact Or.inr ⟨p, by simpa using hp, fun q hq => by simpa using hfirst q hq, rfl⟩

/-- `setpriority(pid, priority)`. -/
def setpriority (pid priority : ℤ) (t : Ptable) : Ptable × ℤ :=
  match Fin.find? fun p => decide ((t.proc p).pid = pid) with
  | none => (t, -1)
  | some p => ({ t with proc := modify p (fun x => { x with priority := priority }) t.proc }, 0)

theorem setpriority_cases (pid priority : ℤ) (t : Ptable) :
    (∀ p, (t.proc p).pid ≠ pid) ∧ setpriority pid priority t = (t, -1) ∨
      ∃ p, (t.proc p).pid = pid ∧ (∀ q < p, (t.proc q).pid ≠ pid) ∧
        setpriority pid priority t =
          ({ t with proc := modify p (fun x => { x with priority := priority }) t.proc }, 0) := by
  unfold setpriority
  split
  · rename_i h
    exact Or.inl ⟨by simpa using h, rfl⟩
  · rename_i p h
    obtain ⟨hp, hfirst⟩ := Fin.find?_eq_some_iff.mp h
    exact Or.inr ⟨p, by simpa using hp, fun q hq => by simpa using hfirst q hq, rfl⟩

/-- One turn of the selection loop of `scheduler()`. -/
def selectTurn (proc : Slot → Proc Slot) (best : Option Slot) (p : Slot) : Option Slot :=
  if (proc p).state ≠ .runnable then best
  else match best with
    | none => some p
    | some b => if (proc p).priority < (proc b).priority then some p else some b

/-- `highest_priority_proc` after the selection loop of `scheduler()`. -/
def highestPriorityProc (proc : Slot → Proc Slot) : Option Slot :=
  (List.finRange NPROC).foldl (selectTurn proc) none

/-- Slot `p` is served no later than `q` when both are RUNNABLE: by priority value, ties by
slot. -/
def Precedes (proc : Slot → Proc Slot) (p q : Slot) : Prop :=
  (proc p).priority < (proc q).priority ∨ (proc p).priority = (proc q).priority ∧ p ≤ q

/-- What the selection loop knows of the slots it has visited. -/
def BestOf (proc : Slot → Proc Slot) (l : List Slot) : Option Slot → Prop
  | none => ∀ p ∈ l, (proc p).state ≠ .runnable
  | some b => (proc b).state = .runnable ∧ b ∈ l ∧
      ∀ q ∈ l, (proc q).state = .runnable → Precedes proc b q

theorem selectTurn_bestOf {proc : Slot → Proc Slot} {l : List Slot} {best : Option Slot} {p : Slot}
    (hl : ∀ q ∈ l, q < p) (h : BestOf proc l best) :
    BestOf proc (l ++ [p]) (selectTurn proc best p) := by
  unfold selectTurn
  by_cases hrun : (proc p).state = .runnable
  · rw [if_neg (not_not.mpr hrun)]
    cases best with
    | none =>
        refine ⟨hrun, by simp, fun q hq hqrun => ?_⟩
        rcases List.mem_append.mp hq with hq | hq
        · exact absurd hqrun (h q hq)
        · cases List.mem_singleton.mp hq
          exact Or.inr ⟨rfl, Fin.le_refl _⟩
    | some b =>
        obtain ⟨hb, hmem, hmin⟩ := h
        have hbp := hl b hmem
        dsimp only
        split_ifs with hlt
        · refine ⟨hrun, by simp, fun q hq hqrun => ?_⟩
          rcases List.mem_append.mp hq with hq | hq
          · rcases hmin q hq hqrun with hbq | ⟨hbq, -⟩
            · exact Or.inl (Int.lt_trans hlt hbq)
            · exact Or.inl (hbq ▸ hlt)
          · cases List.mem_singleton.mp hq
            exact Or.inr ⟨rfl, Fin.le_refl _⟩
        · refine ⟨hb, by simp [hmem], fun q hq hqrun => ?_⟩
          rcases List.mem_append.mp hq with hq | hq
          · exact hmin q hq hqrun
          · cases List.mem_singleton.mp hq
            by_cases hne : (proc b).priority < (proc p).priority
            · exact Or.inl hne
            · exact Or.inr ⟨by omega, Fin.le_of_lt hbp⟩
  · rw [if_pos hrun]
    cases best with
    | none =>
        intro q hq
        rcases List.mem_append.mp hq with hq | hq
        · exact h q hq
        · cases List.mem_singleton.mp hq
          exact hrun
    | some b =>
        obtain ⟨hb, hmem, hmin⟩ := h
        refine ⟨hb, by simp [hmem], fun q hq hqrun => ?_⟩
        rcases List.mem_append.mp hq with hq | hq
        · exact hmin q hq hqrun
        · cases List.mem_singleton.mp hq
          exact absurd hqrun hrun

theorem foldl_selectTurn_bestOf (proc : Slot → Proc Slot) (l : List Slot)
    (hl : l.Pairwise (· < ·)) : BestOf proc l (l.foldl (selectTurn proc) none) := by
  induction l using List.reverseRecOn with
  | nil => simp [BestOf]
  | append_singleton l p ih =>
      rw [List.foldl_append]
      obtain ⟨hl, -, hp⟩ := List.pairwise_append.mp hl
      exact selectTurn_bestOf (fun q hq => hp q hq p (by simp)) (ih hl)

theorem highestPriorityProc_eq_none {proc : Slot → Proc Slot}
    (h : highestPriorityProc proc = none) (p : Slot) : (proc p).state ≠ .runnable := by
  have hbest := foldl_selectTurn_bestOf proc _ (List.pairwise_lt_finRange NPROC)
  unfold highestPriorityProc at h
  rw [h] at hbest
  exact hbest p (List.mem_finRange p)

theorem highestPriorityProc_eq_some {proc : Slot → Proc Slot} {b : Slot}
    (h : highestPriorityProc proc = some b) :
    (proc b).state = .runnable ∧
      ∀ q, (proc q).state = .runnable → Precedes proc b q := by
  have hbest := foldl_selectTurn_bestOf proc _ (List.pairwise_lt_finRange NPROC)
  unfold highestPriorityProc at h
  rw [h] at hbest
  exact ⟨hbest.1, fun q hq => hbest.2.2 q (List.mem_finRange q) hq⟩

instance : NeZero NPROC := ⟨by simp [NPROC]⟩

/-- The table and globals before the first process. -/
def emptyTable : Ptable where
  proc _ := {}
  nextpid := 1
  initproc := 0

/-- The table after `userinit()`. -/
def userinit : Ptable :=
  match allocproc emptyTable with
  | none => emptyTable
  | some (p, t) => { t with proc := setState .runnable p t.proc, initproc := p }

theorem userinit_eq : userinit.proc = setState .runnable 0
      (modify 0 (fun x => { x with state := .embryo, pid := 1, priority := 10 }) fun _ => {}) ∧
    userinit.nextpid = 2 ∧ userinit.initproc = 0 := by
  have hfind : (Fin.find? fun p => decide ((emptyTable.proc p).state = .unused)) =
      some (0 : Slot) := Fin.find?_eq_some_iff.mpr ⟨by simp [emptyTable], by simp⟩
  unfold userinit allocproc
  rw [hfind]
  exact ⟨rfl, rfl, rfl⟩

end Xv6Fairness
