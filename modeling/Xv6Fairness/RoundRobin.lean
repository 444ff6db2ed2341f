import Mathlib.Algebra.Order.BigOperators.Group.Finset
import Mathlib.Data.Fintype.Basic
import Xv6Fairness.SchedulerWaiting

/-!
# The scheduler that goes round

The kernel that the other one was made from differs in its scheduler: the loop over the process
table runs every RUNNABLE process that it comes to, while it keeps its place in the table. No
process waits longer than one round of each CPU.
-/

namespace Xv6Fairness

namespace RoundRobin

open Machine

variable {κ : Type} [DecidableEq κ]

/-- The machine, and for each CPU the index of `p` in the loop of `scheduler`. -/
structure Kernel (κ : Type) where
  machine : Machine κ
  index : κ → ℕ

namespace Kernel

def setIndex (s : Kernel κ) (c : κ) (i : ℕ) : Kernel κ :=
  { s with index := Function.update s.index c i }

/-- The steps of `scheduler` are its own, and there is no `setpriority`. All other functions are
those of `Machine`; the priority that some of them store is not in this kernel, and nothing here
reads it. -/
def step (s : Kernel κ) : Act κ → Option (Kernel κ)
  | .age c =>
    if (s.machine.cpu c).loc = .boot then some { s with machine := s.machine.setLoc c .loop }
    else none
  | .acquire c => (s.machine.step (.acquire c)).map fun m => { s with machine := m }.setIndex c 0
  | .select c =>
    if (s.machine.cpu c).loc = .scan then
      if h : s.index c < NPROC then
        let p : Slot := ⟨s.index c, h⟩
        if (s.machine.proc p).state ≠ .runnable then some (s.setIndex c (s.index c + 1))
        else some { s with
          machine := (s.machine.setProc (setState .running p s.machine.proc)).setCpu c
            ⟨some p, .resumed⟩ }
      else some { s with machine := s.machine.setLoc c .unlock }
    else none
  | .clear c =>
    if (s.machine.cpu c).loc = .back then
      some ({ s with machine := s.machine.setCpu c ⟨none, .scan⟩ }.setIndex c (s.index c + 1))
    else none
  | .enter c op => match op with
    | .setpriority _ _ => none
    | op => (s.machine.step (.enter c op)).map fun m => { s with machine := m }
  | a => (s.machine.step a).map fun m => { s with machine := m }

/-- The process that a step of the scheduler runs. -/
def served (s : Kernel κ) : Act κ → Option Slot
  | .select c =>
    if h : s.index c < NPROC then
      if (s.machine.proc ⟨s.index c, h⟩).state = .runnable then some ⟨s.index c, h⟩ else none
    else none
  | _ => none

/-- The CPU whose loop goes on to the next slot. -/
def passes (s : Kernel κ) : Act κ → Option κ
  | .select c => if s.index c < NPROC then some c else none
  | _ => none

/-- CPUs in front of their loops, and the first process. -/
def Initial (s : Kernel κ) : Prop := s.machine.Initial ∧ ∀ c, s.index c = 0

def Next (s t : Kernel κ) : Prop := ∃ a, s.step a = some t

abbrev Reachable : Kernel κ → Prop := TransitionRuns.Reaches Initial Next

end Kernel

section Soundness

variable {s t : Machine κ} {c : κ} {p : Slot}

theorem sound_select (hs : Sound s) (hl : (s.cpu c).loc = .scan)
    (hp : (s.proc p).state = .runnable) :
    Sound ((s.setProc (setState .running p s.proc)).setCpu c ⟨some p, .resumed⟩) where
  cpu := hs.cpu.select hl hp
  op := hs.op.update rfl (by simp) (fun _ _ _ _ => rfl) rfl
  fork := hs.fork.change (Life.Step.change (.select hp))

theorem sound_loc {x : Cpu} (hs : Sound s) (hcpu : CpuInv (s.setCpu c x))
    (hx : ∀ op, x.loc ≠ .crit op) :
    Sound (s.setCpu c x) where
  cpu := hcpu
  op := hs.op.update rfl (fun op _ => hx op) (fun _ _ _ _ => rfl) rfl
  fork := hs.fork

theorem cpu_back (hi : CpuInv s) (hl : (s.cpu c).loc = .back) :
    CpuInv (s.setCpu c ⟨none, .scan⟩) := by
  have h := hi.clear hl
  have hsame : ∀ d, ((s.setCpu c ⟨none, .unlock⟩).cpu d).proc =
      ((s.setCpu c ⟨none, .scan⟩).cpu d).proc := by
    intro d
    by_cases hd : d = c <;> simp [setCpu, hd]
  refine ⟨fun d => ?_, fun d => ?_, fun q hq => ?_, fun d e q hd he => ?_⟩
  · rw [← show (s.setCpu c ⟨none, .unlock⟩).lock = (s.setCpu c ⟨none, .scan⟩).lock from rfl,
      ← h.lock d]
    by_cases hd : d = c <;> simp [setCpu, hd, Loc.holding]
  · have hok := h.ok d
    by_cases hd : d = c
    · subst hd
      simp [setCpu, Cpu.Ok, Loc.active]
    · simpa [setCpu, hd] using hok
  · obtain ⟨d, hd⟩ := h.running q hq
    exact ⟨d, (hsame d).symm.trans hd⟩
  · exact h.inj d e q ((hsame d).trans hd) ((hsame e).trans he)

theorem setsPriority_state {a : Act κ} (h : s.step a = some t) (hset : s.setsPriority a = true)
    (q : Slot) :
    (t.proc q).state = (s.proc q).state := by
  cases Machine.step_move h with
  | @body c p op hc =>
      cases op with
      | setpriority pid priority =>
          change ((setpriority pid priority s.ptable).1.proc q).state = _
          rcases setpriority_cases pid priority s.ptable with ⟨-, h⟩ | ⟨r, -, -, h⟩ <;> simp [h]
      | _ => simp [setsPriority, hc] at hset
  | _ => simp [setsPriority] at hset

/-- Outside the loop over the table, in it, or in a process that it runs. -/
inductive Phase
  | outside | scanning | running
  deriving DecidableEq

def phase : Loc → Phase
  | .boot | .loop | .intr _ | .unlock => .outside
  | .scan => .scanning
  | _ => .running

omit [DecidableEq κ] in
theorem phase_congr (h : t.cpu = s.cpu)
    (d : κ) : phase (t.cpu d).loc = phase (s.cpu d).loc := by rw [h]

theorem phase_update {x : Cpu} (h : t.cpu = Function.update s.cpu c x)
    (hx : phase x.loc = phase (s.cpu c).loc)
    (d : κ) : phase (t.cpu d).loc = phase (s.cpu d).loc := by
  rw [h]
  by_cases hd : d = c
  · subst hd
    simpa using hx
  · simp [hd]

theorem phase_body {op : Op} (hc : s.cpu c = ⟨some p, .crit op⟩) (d : κ) :
    phase ((s.body c p op).cpu d).loc = phase (s.cpu d).loc := by
  have hleave : ∀ {m : Machine κ}, m.cpu = s.cpu →
      phase ((m.setLoc c .leave).cpu d).loc = phase (s.cpu d).loc :=
    fun {m} hm => phase_update (t := m.setLoc c .leave) (x := { m.cpu c with loc := .leave })
      (by rw [← hm]; rfl) (by simp [hc, phase]) d
  have hback : ∀ {m : Machine κ}, m.cpu = s.cpu →
      phase ((m.setLoc c .back).cpu d).loc = phase (s.cpu d).loc :=
    fun {m} hm => phase_update (t := m.setLoc c .back) (x := { m.cpu c with loc := .back })
      (by rw [← hm]; rfl) (by simp [hc, phase]) d
  cases op with
  | allocproc => cases h : allocproc s.ptable <;> simp only [Machine.body, h] <;> exact hleave rfl
  | makeRunnable =>
      cases h : (s.thread p).fork with
      | filled np =>
          simp only [Machine.body, h]
          exact hleave rfl
      | none => simp only [Machine.body, h]
      | allocated np => simp only [Machine.body, h]
  | wait =>
      simp only [Machine.body, waitTurn]
      split
      · exact hleave rfl
      · split_ifs
        · exact hleave rfl
        · exact hback rfl
  | exit => exact hback rfl
  | kill pid => exact hleave rfl
  | wakeup addr => exact hleave rfl
  | yield => exact hback rfl
  | sleep addr => exact hback rfl
  | setpriority pid priority => exact hleave rfl

theorem phase_step {a : Act κ} (h : s.step a = some t) (hacquire : ∀ c, a ≠ .acquire c)
    (hselect : ∀ c, a ≠ .select c) (hclear : ∀ c, a ≠ .clear c) (d : κ) :
    phase (t.cpu d).loc = phase (s.cpu d).loc := by
  cases Machine.step_move h with
  | acquire => exact absurd rfl (hacquire _)
  | selectNone | select => exact absurd rfl (hselect _)
  | clear => exact absurd rfl (hclear _)
  | age hl => exact phase_update rfl (by simp [hl, phase]) d
  | interrupt hl => exact phase_update rfl (by simp [hl, phase]) d
  | wakeup hl => exact phase_update rfl (by simp [hl, phase]) d
  | unlock hl => exact phase_update rfl (by simp [hl, phase]) d
  | leave hl => exact phase_update rfl (by simp [hl, phase]) d
  | enter hc => exact phase_update rfl (by simp [hc, phase]) d
  | body hc => exact phase_body hc d
  | resume hc => exact phase_update rfl (by simp [hc, phase]) d
  | resumeSleep hc => exact phase_update rfl (by simp [hc, phase]) d
  | resumeWait hc => exact phase_update rfl (by simp [hc, phase]) d
  | forkFail | forkFill | fault => exact phase_congr rfl d

end Soundness

namespace Kernel

variable {s t : Kernel κ} {a : Act κ} {c : κ}

/-- What a step of this scheduler can do. -/
inductive Move (s : Kernel κ) : Act κ → Kernel κ → Prop
  | age {c : κ} (hl : (s.machine.cpu c).loc = .boot) :
      Move s (.age c) { s with machine := s.machine.setLoc c .loop }
  | acquire {c : κ} {m : Machine κ} (hm : s.machine.step (.acquire c) = some m) :
      Move s (.acquire c) ({ s with machine := m }.setIndex c 0)
  | skip {c : κ} (hl : (s.machine.cpu c).loc = .scan) (hi : s.index c < NPROC)
      (hp : (s.machine.proc ⟨s.index c, hi⟩).state ≠ .runnable) :
      Move s (.select c) (s.setIndex c (s.index c + 1))
  | select {c : κ} {p : Slot} (hl : (s.machine.cpu c).loc = .scan) (hi : s.index c = p)
      (hp : (s.machine.proc p).state = .runnable) :
      Move s (.select c) { s with
        machine := (s.machine.setProc (setState .running p s.machine.proc)).setCpu c
          ⟨some p, .resumed⟩ }
  | finish {c : κ} (hl : (s.machine.cpu c).loc = .scan) (hi : ¬ s.index c < NPROC) :
      Move s (.select c) { s with machine := s.machine.setLoc c .unlock }
  | clear {c : κ} (hl : (s.machine.cpu c).loc = .back) :
      Move s (.clear c)
        ({ s with machine := s.machine.setCpu c ⟨none, .scan⟩ }.setIndex c (s.index c + 1))
  | other {a : Act κ} {m : Machine κ} (hm : s.machine.step a = some m) (hage : ∀ c, a ≠ .age c)
      (hacquire : ∀ c, a ≠ .acquire c) (hselect : ∀ c, a ≠ .select c) (hclear : ∀ c, a ≠ .clear c) :
      Move s a { s with machine := m }

theorem step_move (h : s.step a = some t) : Move s a t := by
  have hother : ∀ a : Act κ, (s.machine.step a).map (fun m => { s with machine := m }) = some t →
      (∀ c, a ≠ .age c) → (∀ c, a ≠ .acquire c) → (∀ c, a ≠ .select c) → (∀ c, a ≠ .clear c) →
      Move s a t := by
    intro a h hage hacquire hselect hclear
    obtain ⟨m, hm, rfl⟩ := Option.map_eq_some_iff.mp h
    exact .other hm hage hacquire hselect hclear
  cases a with
  | age c =>
      obtain ⟨hl, h⟩ := Option.ite_none_right_eq_some.mp h
      cases h
      exact .age hl
  | acquire c =>
      obtain ⟨m, hm, rfl⟩ := Option.map_eq_some_iff.mp h
      exact .acquire hm
  | select c =>
      obtain ⟨hl, h⟩ := Option.ite_none_right_eq_some.mp h
      by_cases hi : s.index c < NPROC
      · rw [dif_pos hi] at h
        dsimp only at h
        split_ifs at h with hp
        · cases h
          exact .skip hl hi hp
        · cases h
          exact .select hl rfl (not_not.mp hp)
      · rw [dif_neg hi] at h
        cases h
        exact .finish hl hi
  | clear c =>
      obtain ⟨hl, h⟩ := Option.ite_none_right_eq_some.mp h
      cases h
      exact .clear hl
  | enter c op =>
      cases op with
      | setpriority pid priority => cases h
      | _ => exact hother _ h (by simp) (by simp) (by simp) (by simp)
  | _ => exact hother _ h (by simp) (by simp) (by simp) (by simp)

omit [DecidableEq κ] in
theorem Initial.sound (h : Initial s) : Sound s.machine :=
  ⟨h.1.cpuInv, h.1.opInv, h.1.life.forkInv⟩

theorem sound_step (hs : Sound s.machine) (h : s.step a = some t) : Sound t.machine := by
  cases step_move h with
  | age hl =>
      exact sound_loc hs (hs.cpu.stay .loop rfl rfl (by simp [hl, Loc.active, Loc.holding])
        (by simp)
        (by simp [hl]) fun _ => rfl) (by simp)
  | acquire hm => exact hs.step hm
  | skip hl hi hp => exact hs
  | select hl hi hp => exact sound_select hs hl hp
  | finish hl hi =>
      exact sound_loc hs (hs.cpu.stay .unlock rfl rfl (by simp [hl, Loc.active, Loc.holding])
        (by simp)
        (by simp [hl]) fun _ => rfl) (by simp)
  | clear hl => exact sound_loc hs (cpu_back hs.cpu hl) (by simp)
  | other hm => exact hs.step hm

theorem step_keeps_ready (hs : Sound s.machine) (h : s.step a = some t) {q : Slot}
    (hq : (s.machine.proc q).state = .runnable) :
    (t.machine.proc q).state = .runnable ∨ s.served a = some q := by
  cases step_move h with
  | age | skip | finish | clear => exact .inl hq
  | acquire hm => exact .inl (Machine.step_keeps_ready hs hm (by simp) (by simp) rfl hq).1
  | @select c p hl hi hp =>
      by_cases hqp : q = p
      · subst hqp
        have hlt : s.index c < NPROC := hi.trans_lt q.isLt
        have heq : (⟨s.index c, hlt⟩ : Slot) = q := Fin.ext hi
        right
        rw [served, dif_pos hlt, heq, if_pos hq]
      · left
        change (setState .running p s.machine.proc q).state = _
        simpa [setState, hqp] using hq
  | other hm hage hacquire hselect hclear =>
      left
      cases hset : s.machine.setsPriority a with
      | false => exact (Machine.step_keeps_ready hs hm hage hselect hset hq).1
      | true => exact (setsPriority_state hm hset q).trans hq

def phase (s : Kernel κ) (c : κ) : Phase := RoundRobin.phase (s.machine.cpu c).loc

theorem NPROC_pos : 0 < NPROC := by
  unfold NPROC
  omega

/-- How far the loop of a CPU has come: it has passed the slot of the process that it runs. -/
def place (s : Kernel κ) (c : κ) : ℕ := if s.phase c = .running then s.index c + 1 else s.index c

/-- What the phase of a CPU says of its index. -/
def Placed : Phase → ℕ → Prop
  | .outside, i => i = 0 ∨ i = NPROC
  | .scanning, i => i ≤ NPROC
  | .running, i => i < NPROC

/-- How many slots the loop of `c` has before it until it comes to `q`. -/
def gap (s : Kernel κ) (c : κ) (q : Slot) : ℕ := (q + (NPROC - s.place c)) % NPROC

omit [DecidableEq κ] in
theorem place_le (h : Placed (s.phase c) (s.index c)) : s.place c ≤ NPROC := by
  unfold place
  cases hphase : s.phase c <;> rw [hphase] at h <;> simp only [Placed, NPROC] at h ⊢ <;>
    simp <;> omega

omit [DecidableEq κ] in
theorem gap_lt (s : Kernel κ) (c : κ) (q : Slot) : s.gap c q < NPROC := Nat.mod_lt _ NPROC_pos

/-- A step takes the loops that it passes a slot with to the next one, and leaves the others where
they are. -/
theorem place_step (hi : ∀ c, Placed (s.phase c) (s.index c)) (h : s.step a = some t) (d : κ) :
    Placed (t.phase d) (t.index d) ∧
      (t.place d = s.place d + (if s.passes a = some d then 1 else 0) ∨
        s.passes a = none ∧ s.place d = NPROC ∧ t.place d = 0) := by
  have hsame : t.phase d = s.phase d → t.index d = s.index d → s.passes a ≠ some d →
      Placed (t.phase d) (t.index d) ∧
        (t.place d = s.place d + (if s.passes a = some d then 1 else 0) ∨
          s.passes a = none ∧ s.place d = NPROC ∧ t.place d = 0) := by
    intro hphase hindex hpasses
    refine ⟨?_, .inl ?_⟩
    · rw [hphase, hindex]
      exact hi d
    · simp [place, hphase, hindex, hpasses]
  have hown := hi d
  unfold place phase at *
  cases step_move h with
  | @age c hl =>
      refine hsame ?_ rfl (by simp [passes])
      exact phase_update rfl (by simp [hl, RoundRobin.phase]) d
  | @acquire c m hm =>
      cases Machine.step_move hm with
      | acquire hl hfree =>
          by_cases hd : d = c
          · subst hd
            simp only [hl, RoundRobin.phase, Placed] at hown
            rcases hown with hzero | hend
            · simp [setIndex, setLoc, setCpu, hl, RoundRobin.phase, Placed, hzero, passes]
            · simp [setIndex, setLoc, setCpu, hl, RoundRobin.phase, Placed, hend, passes]
          · exact hsame (by simp [setIndex, setLoc, setCpu, hd]) (by simp [setIndex, hd])
              (by simp [passes])
  | @skip c hl hidx hp =>
      by_cases hd : d = c
      · subst hd
        have hle : s.index d + 1 ≤ NPROC := hidx
        simp [setIndex, hl, RoundRobin.phase, Placed, hidx, hle, passes]
      · exact hsame rfl (by simp [setIndex, hd]) (by simp [passes, Ne.symm hd])
  | @select c p hl hidx hp =>
      have hlt : s.index c < NPROC := hidx.trans_lt p.isLt
      by_cases hd : d = c
      · subst hd
        simp [setCpu, hl, RoundRobin.phase, Placed, hlt, passes]
      · exact hsame (by simp [setCpu, setProc, hd]) rfl (by simp [passes, Ne.symm hd])
  | @finish c hl hidx =>
      by_cases hd : d = c
      · subst hd
        simp only [hl, RoundRobin.phase, Placed] at hown
        simp [setLoc, setCpu, hl, RoundRobin.phase, Placed, hidx, passes]
        omega
      · exact hsame (by simp [setLoc, setCpu, hd]) rfl (by simp [passes, hidx])
  | @clear c hl =>
      by_cases hd : d = c
      · subst hd
        simp only [hl, RoundRobin.phase, Placed] at hown
        simp [setIndex, setCpu, hl, RoundRobin.phase, Placed, passes]
        omega
      · exact hsame (by simp [setIndex, setCpu, hd]) (by simp [setIndex, hd]) (by simp [passes])
  | @other a m hm hage hacquire hselect hclear =>
      refine hsame (phase_step hm hacquire hselect hclear d) rfl ?_
      cases a with
      | select c => exact absurd rfl (hselect c)
      | _ => simp [passes]

theorem place_ne_of_waits (h : s.step a = some t) (hpasses : s.passes a = some c) {q : Slot}
    (hs : (s.machine.proc q).state = .runnable) (ht : (t.machine.proc q).state = .runnable) :
    (q : ℕ) ≠ s.place c := by
  cases step_move h with
  | @skip d hl hidx hp =>
      simp [passes, hidx] at hpasses
      subst hpasses
      intro hq
      have hplace : s.place d = s.index d := by simp [place, phase, hl, RoundRobin.phase]
      have heq : (⟨s.index d, hidx⟩ : Slot) = q := Fin.ext (hplace.symm.trans hq.symm)
      exact hp (heq ▸ hs)
  | @select d p hl hidx hp =>
      simp [passes, hidx] at hpasses
      subst hpasses
      intro hq
      have hplace : s.place d = s.index d := by simp [place, phase, hl, RoundRobin.phase]
      obtain rfl : p = q := Fin.ext (hidx.symm.trans (hplace.symm.trans hq.symm))
      change (setState .running p s.machine.proc p).state = _ at ht
      simp [setState] at ht
  | @finish d hl hidx => simp [passes, hidx] at hpasses
  | @other a m hm hage hacquire hselect hclear =>
      cases a with
      | select d => exact absurd rfl (hselect d)
      | _ => simp [passes] at hpasses
  | _ => simp [passes] at hpasses

/-- Each slot that a loop passes brings it nearer to every process that goes on waiting. -/
theorem gap_step (hi : ∀ c, Placed (s.phase c) (s.index c)) (h : s.step a = some t) {q : Slot}
    (hs : (s.machine.proc q).state = .runnable) (ht : (t.machine.proc q).state = .runnable)
    (d : κ) :
    t.gap d q + (if s.passes a = some d then 1 else 0) = s.gap d q := by
  have hle := place_le (hi d)
  have hlt : (q : ℕ) < NPROC := q.isLt
  obtain ⟨hplaced, hstep⟩ := place_step hi h d
  have hle' := place_le hplaced
  unfold gap
  unfold NPROC at *
  split_ifs at hstep ⊢ with hpasses
  · have hne := place_ne_of_waits h hpasses hs ht
    rcases hstep with hstep | ⟨hnone, -⟩
    · omega
    · rw [hnone] at hpasses
      cases hpasses
  · omega

end Kernel

/-- By CPU and waiting process: the slots that the loop of the CPU has passed, and the processes
that it has run. -/
structure Watched (κ : Type) where
  kernel : Kernel κ
  passed : κ → Slot → ℕ
  picked : κ → Slot → ℕ

namespace Watched

/-- The counts of a process start again when it is served or ceases to be RUNNABLE. -/
def next (x : Watched κ) (a : Act κ) (t : Kernel κ) : Watched κ where
  kernel := t
  passed c q :=
    if (x.kernel.machine.proc q).state = .runnable ∧ (t.machine.proc q).state = .runnable then
      x.passed c q + if x.kernel.passes a = some c then 1 else 0
    else 0
  picked c q :=
    if (x.kernel.machine.proc q).state = .runnable ∧ (t.machine.proc q).state = .runnable then
      x.picked c q + if x.kernel.passes a = some c ∧ (x.kernel.served a).isSome then 1 else 0
    else 0

def step (x : Watched κ) (a : Act κ) : Option (Watched κ) := (x.kernel.step a).map (x.next a)

def Initial (x : Watched κ) : Prop := x.kernel.Initial ∧ (∀ c q, x.passed c q = 0) ∧
    ∀ c q, x.picked c q = 0

abbrev Reachable : Watched κ → Prop := TransitionRuns.Reaches Initial fun x y => ∃ a,
    x.step a = some y

structure Inv (x : Watched κ) : Prop where
  sound : Sound x.kernel.machine
  placed : ∀ c, Kernel.Placed (x.kernel.phase c) (x.kernel.index c)
  picked_le : ∀ c q, x.picked c q ≤ x.passed c q
  passed_lt : ∀ c q, x.passed c q + x.kernel.gap c q < NPROC

variable {x y : Watched κ} {a : Act κ}

omit [DecidableEq κ] in
theorem Inv.start (h : Initial x) : Inv x := by
  obtain ⟨hkernel, hpassed, hpicked⟩ := h
  refine ⟨hkernel.sound, fun c => ?_, fun c q => ?_, fun c q => ?_⟩
  · have hphase : x.kernel.phase c = .outside := by
      rcases (hkernel.1.2.2.2.2 c).2 with hl | hl <;> simp [Kernel.phase, hl, phase]
    rw [hphase]
    exact .inl (hkernel.2 c)
  · rw [hpicked, hpassed]
  · rw [hpassed, Nat.zero_add]
    exact Kernel.gap_lt _ _ _

theorem Inv.step (h : Inv x) (hn : x.step a = some y) : Inv y := by
  obtain ⟨t, ht, rfl⟩ := Option.map_eq_some_iff.mp hn
  refine ⟨Kernel.sound_step h.sound ht, fun c => (Kernel.place_step h.placed ht c).1, fun c q => ?_,
    fun c q => ?_⟩
  · have hle := h.picked_le c q
    by_cases hpasses : x.kernel.passes a = some c
    · simp only [next, hpasses, true_and, if_true]
      split_ifs <;> omega
    · simp only [next, hpasses, false_and, if_false]
      split_ifs <;> omega
  · have hlt := h.passed_lt c q
    simp only [next]
    split_ifs with hwaits hpasses
    · have hgap := Kernel.gap_step h.placed ht hwaits.1 hwaits.2 c
      rw [if_pos hpasses] at hgap
      change _ + t.gap c q < _
      omega
    · have hgap := Kernel.gap_step h.placed ht hwaits.1 hwaits.2 c
      rw [if_neg hpasses] at hgap
      change _ + t.gap c q < _
      omega
    · rw [Nat.zero_add]
      exact Kernel.gap_lt _ _ _

theorem Reachable.inv (h : Reachable x) : Inv x :=
  h.invariant (fun _ h0 => .start h0) fun _ _ _ hx ⟨_, hn⟩ => hx.step hn

/-- A RUNNABLE process stays RUNNABLE until a CPU runs it, and until then no CPU goes once round the
table: each runs fewer than `NPROC` other processes. -/
theorem round_robin [Fintype κ] (h : Reachable x) (q : Slot) :
    (∀ c, x.picked c q ≤ x.passed c q ∧ x.passed c q < NPROC) ∧
      ∑ c, x.picked c q ≤ Fintype.card κ * (NPROC - 1) ∧
      ∀ a y, x.step a = some y → (x.kernel.machine.proc q).state = .runnable →
        (y.kernel.machine.proc q).state = .runnable ∨ x.kernel.served a = some q := by
  have hinv := h.inv
  have hpassed : ∀ c, x.passed c q < NPROC :=
    fun c => (Nat.le_add_right _ _).trans_lt (hinv.passed_lt c q)
  refine ⟨fun c => ⟨hinv.picked_le c q, hpassed c⟩, ?_, fun a y hstep hq => ?_⟩
  · calc ∑ c, x.picked c q
        ≤ ∑ _c : κ, (NPROC - 1) :=
          Finset.sum_le_sum fun c _ => (hinv.picked_le c q).trans (Nat.le_sub_one_of_lt (hpassed c))
      _ = Fintype.card κ * (NPROC - 1) := by simp
  · obtain ⟨t, ht, rfl⟩ := Option.map_eq_some_iff.mp hstep
    exact Kernel.step_keeps_ready hinv.sound ht hq

/-- Init forks two children and yields, and one of them is run while the other waits. -/
def twoChildren : List (Act Bool) :=
  [.age false, .acquire false, .select false, .resume false, .release false,
    .enter false .allocproc, .body false, .release false, .forkFill false,
    .enter false .makeRunnable, .body false, .release false,
    .enter false .allocproc, .body false, .release false, .forkFill false,
    .enter false .makeRunnable, .body false, .release false,
    .enter false .yield, .body false, .clear false, .select false]

theorem round_robin_two_children : ∃ x : Watched Bool, Reachable x ∧ x.picked false 2 = 1 ∧
    x.passed false 2 < NPROC ∧ ∑ c, x.picked c 2 ≤ 2 * (NPROC - 1) := by
  have hrun : ((TransitionRuns.execute step ⟨⟨Machine.boot Bool, fun _ => 0⟩, fun _ _ => 0,
      fun _ _ => 0⟩
      twoChildren).any fun x => decide (x.picked false 2 = 1)) = true := by
    decide +kernel
  obtain ⟨x, hx, hprop⟩ := (Option.any_eq_true _ _).mp hrun
  have hreach : Reachable x :=
    TransitionRuns.Reaches.execute
      (.start ⟨⟨boot_initial, fun _ => rfl⟩, fun _ _ => rfl, fun _ _ => rfl⟩) hx
  obtain ⟨hpassed, hsum, -⟩ := round_robin hreach 2
  exact ⟨x, hreach, of_decide_eq_true hprop, (hpassed false).2, hsum⟩

end Watched

end RoundRobin

end Xv6Fairness
