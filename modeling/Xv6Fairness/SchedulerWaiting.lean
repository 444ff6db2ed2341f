import Xv6Fairness.CpuOwnership
import Xv6Fairness.Overtaking

/-!
# How long a RUNNABLE process waits

On a single CPU, every pass of `scheduler()` serves the RUNNABLE process of lowest priority value,
ties by slot. Priority values change in `yield` of the running process and in a loop that each CPU
runs once before its first pass, so a waiting process keeps its value while others come back ahead
of it. Where they do so only by yielding with a value above 0, they do it ten times at most, and
every process is selected in time. A process that yields at 0, or that is woken up again and again,
starves a process of the same initial priority.
-/

namespace Xv6Fairness

instance (proc : Slot → Proc Slot) (p q : Slot) : Decidable (Precedes proc p q) := by
  unfold Precedes
  infer_instance

namespace Machine

section Waiting

variable {κ : Type}

/-- The RUNNABLE processes, and who is served before whom. -/
def queue (s : Machine κ) : Overtaking.Snapshot Slot where
  ready p := decide ((s.proc p).state = .runnable)
  ahead p q := decide (Precedes s.proc p q)

/-- The process that a step of the scheduler selects. -/
def served (s : Machine κ) : Act κ → Option Slot
  | .select _ => highestPriorityProc s.proc
  | _ => none

/-- The step is the critical section of `setpriority`. -/
def setsPriority (s : Machine κ) : Act κ → Bool
  | .body c => match (s.cpu c).loc with
    | .crit (.setpriority _ _) => true
    | _ => false
  | _ => false

theorem modify_keeps_ready {proc : Slot → Proc Slot} {q : Slot} {f : Proc Slot → Proc Slot}
    (hq : (proc q).state = .runnable →
      (f (proc q)).state = .runnable ∧ (f (proc q)).priority = (proc q).priority)
    {p : Slot} (hp : (proc p).state = .runnable) :
    (modify q f proc p).state = .runnable ∧
      (modify q f proc p).priority = (proc p).priority := by
  by_cases h : p = q
  · subst h
    rw [modify_self]
    exact hq hp
  · rw [modify_of_ne h]
    exact ⟨hp, rfl⟩

theorem wakeup1_keeps_ready (chan : Option (Chan Slot)) {proc : Slot → Proc Slot} {p : Slot}
    (hp : (proc p).state = .runnable) : (wakeup1 chan proc p).state = .runnable ∧
      (wakeup1 chan proc p).priority = (proc p).priority := by
  simp [wakeup1, hp]

/-- What a step does to an entry of the table: the priority value of a process only falls, when it
yields or ages. -/
inductive EntryStep (x y : Proc Slot) : Prop
  | keep (hpriority : y.priority = x.priority) (hrunning : x.state = .running → y.state ≠ .runnable)
      (hlive : x.state = .unused ∨ x.state = .embryo →
        y.state = .unused ∨ y.state = .embryo ∨ y.state = .runnable)
  | alloc (hunused : x.state = .unused) (hembryo : y.state = .embryo) (hpriority : y.priority = 10)
  | lower (hstate : x.state = .running ∨ x.state = .runnable) (hrunnable : y.state = .runnable)
      (hpriority : y.priority = if 0 < x.priority then x.priority - 1 else x.priority)

theorem EntryStep.same {x y : Proc Slot} (hstate : y.state = x.state)
    (hpriority : y.priority = x.priority) :
    EntryStep x y := by
  refine .keep hpriority (fun h => ?_) fun h => ?_
  · rw [hstate, h]
    decide
  · rw [hstate]
    exact h.elim .inl fun h => .inr (.inl h)

theorem EntryStep.wake {x y : Proc Slot} (hstate : x.state ≠ .running)
    (hrunnable : y.state = .runnable)
    (hpriority : y.priority = x.priority) : EntryStep x y :=
  .keep hpriority (fun h => absurd h hstate) fun _ => .inr (.inr hrunnable)

theorem EntryStep.stop {x y : Proc Slot}
    (hstate : x.state ≠ .unused ∧ x.state ≠ .embryo ∨ y.state = .unused)
    (hstopped : y.state ≠ .runnable) (hpriority : y.priority = x.priority) : EntryStep x y := by
  refine .keep hpriority (fun _ => hstopped) fun h => ?_
  rcases hstate with ⟨hunused, hembryo⟩ | hunused
  · exact h.elim (fun h => absurd h hunused) fun h => absurd h hembryo
  · exact .inl hunused

theorem EntryStep.le {x y : Proc Slot} (h : EntryStep x y) (hx : x.state = .runnable) :
    y.priority ≤ x.priority := by
  cases h with
  | keep hpriority => exact hpriority.le
  | alloc hunused =>
      rw [hx] at hunused
      cases hunused
  | lower _ _ hpriority =>
      rw [hpriority]
      split_ifs <;> omega

theorem EntryStep.modify {proc : Slot → Proc Slot} {q : Slot} {f : Proc Slot → Proc Slot}
    (h : EntryStep (proc q) (f (proc q))) (p : Slot) : EntryStep (proc p) (modify q f proc p) := by
  by_cases hp : p = q
  · subst hp
    rwa [modify_self]
  · rw [modify_of_ne hp]
    exact .same rfl rfl

theorem EntryStep.wakeup1 (chan : Option (Chan Slot)) (proc : Slot → Proc Slot) (p : Slot) :
    EntryStep (proc p) (wakeup1 chan proc p) := by
  unfold Xv6Fairness.wakeup1
  split_ifs with h
  · exact .wake (by rw [h.1]; decide) rfl rfl
  · exact .same rfl rfl

theorem EntryStep.age (proc : Slot → Proc Slot) (p : Slot) : EntryStep (proc p) (age proc p) := by
  unfold Xv6Fairness.age
  split_ifs with h
  · exact .lower (.inr h.1) h.1 (if_pos h.2).symm
  · exact .same rfl rfl

variable [DecidableEq κ]

theorem body_entry {s : Machine κ} (hs : Sound s) {c : κ} {p : Slot} {op : Op}
    (hc : s.cpu c = ⟨some p, .crit op⟩) (hset : s.setsPriority (.body c) = false) (q : Slot) :
    EntryStep (s.proc q) ((s.body c p op).proc q) := by
  have hrun : (s.proc p).state = .running := hs.cpu.active_running (by rw [hc]; rfl) (by rw [hc])
  have hlive : (s.proc p).state ≠ .unused ∧ (s.proc p).state ≠ .embryo := by
    rw [hrun]
    exact ⟨by decide, by decide⟩
  cases op with
  | allocproc =>
      cases h : allocproc s.ptable with
      | none =>
          simp only [Machine.body, h]
          exact .same rfl rfl
      | some r =>
          obtain ⟨hfree, -, hproc, -⟩ := allocproc_eq_some h
          simp only [Machine.body, h]
          change EntryStep _ (r.2.proc q)
          rw [hproc]
          refine EntryStep.modify ?_ q
          exact .alloc hfree rfl rfl
  | makeRunnable =>
      cases hph : (s.thread p).fork with
      | filled np =>
          simp only [Machine.body, hph]
          change EntryStep _ (setState .runnable np s.proc q)
          refine EntryStep.modify ?_ q
          refine .wake ?_ rfl rfl
          rw [fork_child_embryo hs.fork hph rfl]
          decide
      | none =>
          simp only [Machine.body, hph]
          exact .same rfl rfl
      | allocated np =>
          simp only [Machine.body, hph]
          exact .same rfl rfl
  | exit =>
      by_cases hq : q = p
      · subst hq
        refine .stop (.inl hlive) ?_ (exitProc_priority q s.ptable q)
        change ((exitProc q s.ptable).proc q).state ≠ _
        simp [exitProc, setState]
      · rcases exitProc_state_cases p s.ptable hq with h | ⟨hsleep, h⟩
        · exact .same h (exitProc_priority p s.ptable q)
        · exact .wake (by rw [hsleep]; decide) h (exitProc_priority p s.ptable q)
  | wait =>
      cases h : waitScan p s.proc (List.finRange NPROC) false with
      | found r =>
          simp only [Machine.body, waitTurn, h]
          change EntryStep _ (reap r s.proc q)
          refine EntryStep.modify ?_ q
          exact .stop (.inr rfl) (fun h => by cases h) rfl
      | noZombie havekids =>
          simp only [Machine.body, waitTurn, h]
          split_ifs
          · exact .same rfl rfl
          · change EntryStep _ (fallAsleep (.proc p) p s.proc q)
            refine EntryStep.modify ?_ q
            exact .stop (.inl hlive) (fun h => by cases h) rfl
  | kill pid =>
      rcases kill_cases pid s.ptable with ⟨-, h⟩ | ⟨r, -, -, h⟩
      · change EntryStep _ ((kill pid s.ptable).1.proc q)
        rw [h]
        exact .same rfl rfl
      · change EntryStep _ ((kill pid s.ptable).1.proc q)
        rw [h]
        change EntryStep _ (killProc r s.proc q)
        refine EntryStep.modify ?_ q
        by_cases hsleep : (s.proc r).state = .sleeping
        · exact .wake (by rw [hsleep]; decide) (if_pos hsleep) rfl
        · exact .same (if_neg hsleep) rfl
  | wakeup addr => exact EntryStep.wakeup1 _ _ q
  | yield =>
      change EntryStep _ (giveUp p s.proc q)
      refine EntryStep.modify ?_ q
      exact .lower (.inl hrun) rfl rfl
  | sleep addr =>
      change EntryStep _ (fallAsleep (.other addr) p s.proc q)
      refine EntryStep.modify ?_ q
      exact .stop (.inl hlive) (fun h => by cases h) rfl
  | setpriority pid priority => simp [setsPriority, hc] at hset

theorem step_entry {s t : Machine κ} {a : Act κ} (hs : Sound s) (h : s.step a = some t)
    (hset : s.setsPriority a = false) (q : Slot) : EntryStep (s.proc q) (t.proc q) := by
  cases step_move h with
  | age hl => exact EntryStep.age _ q
  | acquire | interrupt | clear | unlock | leave | enter | resume | selectNone =>
      exact .same rfl rfl
  | @select c p hl hp =>
      obtain ⟨hrun, -⟩ := highestPriorityProc_eq_some hp
      change EntryStep _ (setState .running p s.proc q)
      refine EntryStep.modify ?_ q
      refine .stop (.inl ?_) (fun h => by cases h) rfl
      rw [hrun]
      exact ⟨by decide, by decide⟩
  | wakeup hl => exact EntryStep.wakeup1 _ _ q
  | body hc => exact body_entry hs hc hset q
  | @resumeSleep c p hc hr | @resumeWait c p hc hr =>
      change EntryStep _ (tidyUp p s.proc q)
      refine EntryStep.modify ?_ q
      exact .same rfl rfl
  | @forkFail c p np hc hph =>
      change EntryStep _ (setState .unused np s.proc q)
      refine EntryStep.modify ?_ q
      exact .stop (.inr rfl) (fun h => by cases h) rfl
  | @forkFill c p np hc hph =>
      change EntryStep _ (setParent (some p) np s.proc q)
      refine EntryStep.modify ?_ q
      exact .same rfl rfl
  | @fault c p hc =>
      change EntryStep _ (modify p (fun x => { x with killed := true }) s.proc q)
      refine EntryStep.modify ?_ q
      exact .same rfl rfl

theorem body_keeps_ready {s : Machine κ} {c : κ} {p : Slot} {op : Op}
    (hc : s.cpu c = ⟨some p, .crit op⟩) (hrun : (s.proc p).state = .running)
    (hset : s.setsPriority (.body c) = false) {q : Slot} (hq : (s.proc q).state = .runnable) :
    ((s.body c p op).proc q).state = .runnable ∧
      ((s.body c p op).proc q).priority = (s.proc q).priority := by
  have hself : ∀ f : Proc Slot → Proc Slot, (s.proc p).state = .runnable →
      (f (s.proc p)).state = .runnable ∧ (f (s.proc p)).priority = (s.proc p).priority := by
    intro f h
    rw [hrun] at h
    cases h
  cases op with
  | allocproc =>
      cases h : allocproc s.ptable with
      | none =>
          simp only [Machine.body, h]
          exact ⟨hq, rfl⟩
      | some r =>
          obtain ⟨hfree, -, hproc, -⟩ := allocproc_eq_some h
          simp only [Machine.body, h]
          change (r.2.proc q).state = _ ∧ (r.2.proc q).priority = _
          rw [hproc]
          apply modify_keeps_ready _ hq
          intro hr
          rw [hfree] at hr
          cases hr
  | makeRunnable =>
      cases hph : (s.thread p).fork with
      | filled np =>
          simp only [Machine.body, hph]
          exact modify_keeps_ready (fun _ => ⟨rfl, rfl⟩) hq
      | none =>
          simp only [Machine.body, hph]
          exact ⟨hq, trivial⟩
      | allocated np =>
          simp only [Machine.body, hph]
          exact ⟨hq, trivial⟩
  | exit =>
      have hne : q ≠ p := by
        rintro rfl
        rw [hrun] at hq
        cases hq
      refine ⟨?_, exitProc_priority p s.ptable q⟩
      rcases exitProc_state_cases p s.ptable hne with h | ⟨h, -⟩
      · exact h.trans hq
      · rw [hq] at h
        cases h
  | wait =>
      cases h : waitScan p s.proc (List.finRange NPROC) false with
      | found r =>
          simp only [Machine.body, waitTurn, h]
          apply modify_keeps_ready _ hq
          intro hr
          rw [(waitScan_found h).2] at hr
          cases hr
      | noZombie havekids =>
          simp only [Machine.body, waitTurn, h]
          split_ifs
          · exact ⟨hq, rfl⟩
          · exact modify_keeps_ready (hself _) hq
  | kill pid =>
      rcases kill_cases pid s.ptable with ⟨-, h⟩ | ⟨r, -, -, h⟩
      · change ((kill pid s.ptable).1.proc q).state = _ ∧
          ((kill pid s.ptable).1.proc q).priority = _
        rw [h]
        exact ⟨hq, rfl⟩
      · change ((kill pid s.ptable).1.proc q).state = _ ∧
          ((kill pid s.ptable).1.proc q).priority = _
        rw [h]
        exact modify_keeps_ready (fun hr => by simp [hr]) hq
  | wakeup addr => exact wakeup1_keeps_ready _ hq
  | yield => exact modify_keeps_ready (hself _) hq
  | sleep addr => exact modify_keeps_ready (hself _) hq
  | setpriority pid priority => simp [setsPriority, hc] at hset

/-- Outside the scheduler and `setpriority`, RUNNABLE processes stay RUNNABLE with the priority
they have. -/
theorem step_keeps_ready {s t : Machine κ} {a : Act κ} (hs : Sound s) (h : s.step a = some t)
    (hage : ∀ c, a ≠ .age c) (hselect : ∀ c, a ≠ .select c) (hset : s.setsPriority a = false)
    {q : Slot} (hq : (s.proc q).state = .runnable) :
    (t.proc q).state = .runnable ∧ (t.proc q).priority = (s.proc q).priority := by
  cases step_move h with
  | age hl => exact absurd rfl (hage _)
  | selectNone hl hn => exact absurd rfl (hselect _)
  | select hl hp => exact absurd rfl (hselect _)
  | acquire | interrupt | clear | unlock | leave | enter | resume => exact ⟨hq, rfl⟩
  | wakeup hl => exact wakeup1_keeps_ready _ hq
  | body hc =>
      have hrun := hs.cpu.active_running (by rw [hc]; rfl) (by rw [hc])
      exact body_keeps_ready hc hrun hset hq
  | resumeSleep hc hr => exact modify_keeps_ready (fun hr => ⟨hr, rfl⟩) hq
  | resumeWait hc hr => exact modify_keeps_ready (fun hr => ⟨hr, rfl⟩) hq
  | forkFail hc hph =>
      apply modify_keeps_ready _ hq
      intro hr
      rw [fork_child_embryo hs.fork hph rfl] at hr
      cases hr
  | forkFill hc hph => exact modify_keeps_ready (fun hr => ⟨hr, rfl⟩) hq
  | fault hc => exact modify_keeps_ready (fun hr => ⟨hr, rfl⟩) hq

theorem precedes_congr {proc proc' : Slot → Proc Slot} {p q : Slot}
    (hp : (proc' p).priority = (proc p).priority) (hq : (proc' q).priority = (proc q).priority) :
    Precedes proc' p q ↔ Precedes proc p q := by
  unfold Precedes
  rw [hp, hq]

omit [DecidableEq κ] in
theorem turn_of_keeps {s t : Machine κ}
    (hkeep : ∀ q, (s.proc q).state = .runnable →
      (t.proc q).state = .runnable ∧ (t.proc q).priority = (s.proc q).priority) :
    Overtaking.Turn s.queue t.queue none := by
  refine ⟨fun p q hp hq _ _ => ?_, fun p hp hleft => ?_, fun p hp => nomatch hp⟩
  · have hp' := hkeep p (of_decide_eq_true hp)
    have hq' := hkeep q (of_decide_eq_true hq)
    exact decide_eq_decide.mpr (precedes_congr hp'.2 hq'.2)
  · have hp' := hkeep p (of_decide_eq_true hp)
    exact absurd hp'.1 (of_decide_eq_false hleft)

theorem turn_select {s : Machine κ} {c : κ} {p : Slot} (hp : highestPriorityProc s.proc = some p) :
    Overtaking.Turn s.queue
    ((s.setProc (setState .running p s.proc)).setCpu c ⟨some p, .resumed⟩).queue
      (some p) := by
  obtain ⟨hrun, hfirst⟩ := highestPriorityProc_eq_some hp
  have hstate : ∀ q, q ≠ p → (setState .running p s.proc q).state = (s.proc q).state :=
    fun q hq => by simp [setState, hq]
  have hpriority : ∀ q, (setState .running p s.proc q).priority = (s.proc q).priority :=
    fun q => by simp [setState]
  refine ⟨fun q r _ _ _ _ => ?_, fun q hq hleft => ?_, fun q hq => ?_⟩
  · exact decide_eq_decide.mpr (precedes_congr (hpriority q) (hpriority r))
  · by_contra hne
    have hqp : q ≠ p := fun h => hne (by rw [h])
    have hnot := of_decide_eq_false hleft
    change (setState .running p s.proc q).state ≠ _ at hnot
    rw [hstate q hqp] at hnot
    exact hnot (of_decide_eq_true hq)
  · cases hq
    refine ⟨decide_eq_true hrun, ?_, fun q hq _ => decide_eq_true (hfirst q (of_decide_eq_true hq))⟩
    apply decide_eq_false
    change (setState .running p s.proc p).state ≠ _
    simp [setState]

theorem body_lock (s : Machine κ) (c : κ) (p : Slot) (op : Op) :
    (s.body c p op).lock = s.lock := by
  cases op with
  | allocproc => cases h : allocproc s.ptable <;> simp only [Machine.body, h] <;> rfl
  | makeRunnable =>
      cases h : (s.thread p).fork with
      | filled np =>
          simp only [Machine.body, h]
          rfl
      | none => simp only [Machine.body, h]
      | allocated np => simp only [Machine.body, h]
  | wait =>
      simp only [Machine.body, waitTurn]
      split
      · rfl
      · split_ifs <;> rfl
  | _ => rfl

end Waiting

/-- The machine of one CPU, with the waiting times counted beside it. -/
structure Watched where
  machine : Machine Unit
  counts : Overtaking.Counts Slot

namespace Watched

def Initial (x : Watched) : Prop := x.machine.Initial ∧ x.counts = .zero

/-- A step of the machine other than the critical section of `setpriority`. -/
def step (x : Watched) (a : Act Unit) : Option Watched :=
  if x.machine.setsPriority a then none
  else (x.machine.step a).map fun t =>
    ⟨t, x.counts.next x.machine.queue t.queue (x.machine.served a)⟩

theorem step_eq_some {x y : Watched} {a : Act Unit} : x.step a = some y ↔
    x.machine.setsPriority a = false ∧ x.machine.step a = some y.machine ∧
      y.counts = x.counts.next x.machine.queue y.machine.queue (x.machine.served a) := by
  obtain ⟨t, n⟩ := y
  unfold step
  cases x.machine.setsPriority a
  · simp only [Bool.false_eq_true, if_false, Option.map_eq_some_iff, true_and]
    constructor
    · rintro ⟨u, hu, hy⟩
      cases hy
      exact ⟨hu, rfl⟩
    · rintro ⟨hu, hn⟩
      exact ⟨t, hu, by rw [hn]⟩
  · simp

def Next (x y : Watched) : Prop := ∃ a, x.step a = some y

abbrev Reachable : Watched → Prop := TransitionRuns.Reaches Initial Next

end Watched

theorem step_loc_ne_boot {s t : Machine Unit} {a : Act Unit} (hs : Sound s)
    (h : s.step a = some t) : (t.cpu ()).loc ≠ .boot := by
  have ht := (hs.step h).cpu
  cases step_move h with
  | @body c p op hc =>
      intro hl
      have hlock : (s.body c p op).lock = some c := by
        rw [body_lock]
        exact (hs.cpu.lock c).mp (by rw [hc]; rfl)
      have hhold := (ht.lock c).mpr hlock
      rw [show c = () from rfl, hl] at hhold
      cases hhold
  | forkFail hc hph | forkFill hc hph =>
      change (s.cpu ()).loc ≠ .boot
      simp [show s.cpu () = _ from hc]
  | fault hc =>
      change (s.cpu ()).loc ≠ .boot
      simp [show s.cpu () = _ from hc]
  | _ => simp [setLoc, setCpu, setProc]

theorem Reachable.boot_ptable {s : Machine Unit} (h : Reachable s)
    (hl : (s.cpu ()).loc = .boot) : s.ptable = userinit := by
  cases h with
  | start h0 => exact h0.1
  | step hr hn =>
      obtain ⟨a, hst⟩ := hn
      exact absurd hl (step_loc_ne_boot (Reachable.sound hr) hst)

theorem Reachable.turn {s t : Machine Unit} (h : Reachable s) {a : Act Unit}
    (hst : s.step a = some t) (hset : s.setsPriority a = false) :
    Overtaking.Turn s.queue t.queue (s.served a) := by
  by_cases hselect : ∃ c, a = .select c
  · obtain ⟨c, rfl⟩ := hselect
    cases step_move hst with
    | selectNone hl hn =>
        rw [served, hn]
        exact turn_of_keeps fun q hq => ⟨hq, rfl⟩
    | select hl hp =>
        rw [served, hp]
        exact turn_select hp
  · have hnone : s.served a = none := by
      cases a <;> simp_all [served]
    rw [hnone]
    by_cases hage : ∃ c, a = .age c
    · obtain ⟨c, rfl⟩ := hage
      cases step_move hst with
      | age hl =>
          -- init is alone, and everybody keeps the state it has
          have hstate : ∀ p, (age s.proc p).state = (s.proc p).state :=
            age_field Proc.state (fun _ _ => rfl) s.proc
          have hinit : ∀ p, (s.proc p).state = .runnable → p = 0 := by
            intro p hp
            rw [Machine.proc, h.boot_ptable hl, userinit_eq.1, setState, modify_state] at hp
            by_contra hne
            simp [hne] at hp
          refine ⟨fun p q hp hq _ _ => ?_, fun p hp hleft => ?_, by rintro p ⟨⟩⟩
          · rw [hinit p (of_decide_eq_true hp), hinit q (of_decide_eq_true hq)]
            exact decide_eq_decide.mpr (iff_of_true (Or.inr ⟨rfl, Fin.le_refl _⟩)
              (Or.inr ⟨rfl, Fin.le_refl _⟩))
          · have hnot : (age s.proc p).state ≠ .runnable := of_decide_eq_false hleft
            rw [hstate p] at hnot
            exact absurd (of_decide_eq_true hp) hnot
    · apply turn_of_keeps
      intro q hq
      exact step_keeps_ready h.sound hst (fun c hc => hage ⟨c, hc⟩)
        (fun c hc => hselect ⟨c, hc⟩) hset hq

namespace Watched

theorem Reachable.machine {x : Watched} (h : Reachable x) : x.machine.Reachable :=
  h.simulation (fun _ h0 => h0.1) fun _ _ _ hn => by
    obtain ⟨a, hn⟩ := hn
    exact ⟨a, (step_eq_some.mp hn).2.1⟩

theorem Reachable.inv {x : Watched} (h : Reachable x) :
    Overtaking.Inv x.machine.queue x.counts := by
  induction h with
  | start h0 =>
      rw [h0.2]
      exact .zero _
  | step hr hn ih =>
      obtain ⟨a, hn⟩ := hn
      obtain ⟨hset, hst, hcounts⟩ := step_eq_some.mp hn
      rw [hcounts]
      exact ih.next ((Reachable.machine hr).turn hst hset)

/-- In the step, whoever becomes RUNNABLE comes behind every process that is waiting, or is the
running process in `yield` with a value above 0. -/
def Orderly (s t : Machine Unit) : Prop :=
  ∀ p, (s.proc p).state ≠ .runnable → (t.proc p).state = .runnable →
    ((s.proc p).state = .running ∧ 0 < (s.proc p).priority) ∨
      ∀ q, (s.proc q).state = .runnable → Precedes s.proc q p

instance (s t : Machine Unit) : Decidable (Orderly s t) := by
  unfold Orderly
  infer_instance

/-- States of the runs whose steps are all orderly. -/
abbrev OrderlyReachable : Watched → Prop :=
  TransitionRuns.Reaches Initial fun x y => Next x y ∧ Orderly x.machine y.machine

theorem Reachable.priority {x : Watched} (h : Reachable x) (p : Slot) :
    0 ≤ (x.machine.proc p).priority ∧ (x.machine.proc p).priority ≤ 10 := by
  induction h with
  | start h0 =>
      rw [Machine.proc, h0.1.1, userinit_eq.1, setState]
      by_cases hp : p = 0
      · subst hp
        simp
      · simp [hp]
  | @step x y hr hn ih =>
      obtain ⟨a, hn⟩ := hn
      obtain ⟨hset, hst, -⟩ := step_eq_some.mp hn
      cases step_entry (Reachable.machine hr).sound hst hset p with
      | keep hpriority => rwa [hpriority]
      | alloc _ _ hpriority => rw [hpriority]; omega
      | lower _ _ hpriority =>
          rw [hpriority]
          split_ifs <;> omega

/-- Each overtaking of `q` by `p` has cost `p` one of its ten priority values, until `p` comes
behind `q`. -/
structure Paid (x : Watched) (q p : Slot) : Prop where
  entries : x.counts.entries q p ≤ 10
  paid : (x.machine.proc p).state ≠ .unused → (x.machine.proc p).state ≠ .embryo →
    ¬ ((x.machine.proc q).state = .runnable ∧ (x.machine.proc p).state = .runnable ∧
      Precedes x.machine.proc q p) →
    x.counts.entries q p + (x.machine.proc p).priority ≤ 10

theorem precedes_antisymm {proc : Slot → Proc Slot} {p q : Slot} (hpq : Precedes proc p q)
    (hqp : Precedes proc q p) : p = q := by
  rcases hpq with hlt | ⟨heq, hle⟩
  · rcases hqp with hlt' | ⟨heq', -⟩ <;> omega
  · rcases hqp with hlt' | ⟨-, hle'⟩
    · omega
    · exact Fin.le_antisymm hle hle'

theorem Paid.stay {x y : Watched} {p q : Slot} {served : Option Slot} (hne : p ≠ q) (h : Paid x q p)
    (hturn : Overtaking.Turn x.machine.queue y.machine.queue served)
    (hentry : EntryStep (x.machine.proc p) (y.machine.proc p))
    (hcount : y.counts.entries q p = x.counts.entries q p)
    (hq : (x.machine.proc q).state = .runnable)
    (hq' : (y.machine.proc q).state = .runnable) (hp : (x.machine.proc p).state = .runnable) :
    Paid y q p := by
  have hle := hentry.le hp
  have hlive : (x.machine.proc p).state ≠ .unused ∧ (x.machine.proc p).state ≠ .embryo := by
    rw [hp]
    exact ⟨by decide, by decide⟩
  refine ⟨hcount ▸ h.entries, fun _ _ hnot => ?_⟩
  have hahead : ¬ Precedes x.machine.proc q p := by
    intro hpre
    by_cases hp' : (y.machine.proc p).state = .runnable
    · have hstable := hturn.stable q p (decide_eq_true hq) (decide_eq_true hp) (decide_eq_true hq')
        (decide_eq_true hp')
      exact hnot ⟨hq', hp', of_decide_eq_true (hstable.trans (decide_eq_true hpre))⟩
    · have hserved := hturn.leaves p (decide_eq_true hp) (decide_eq_false hp')
      have hfirst := (hturn.first p hserved).2.2 q (decide_eq_true hq) hne.symm
      exact hne (precedes_antisymm (of_decide_eq_true hfirst) hpre)
  have hpaid := h.paid hlive.1 hlive.2 fun hboth => hahead hboth.2.2
  rw [hcount]
  omega

theorem Paid.enter {x y : Watched} {p q : Slot} (hne : p ≠ q) (h : Paid x q p)
    (ho : Orderly x.machine y.machine) (hentry : EntryStep (x.machine.proc p) (y.machine.proc p))
    (hlow : 0 ≤ (y.machine.proc p).priority)
    (hqle : (y.machine.proc q).priority ≤ (x.machine.proc q).priority)
    (hcount : y.counts.entries q p ≤ x.counts.entries q p + 1)
    (hahead : ¬ Precedes y.machine.proc p q → y.counts.entries q p = x.counts.entries q p)
    (hq : (x.machine.proc q).state = .runnable) (hq' : (y.machine.proc q).state = .runnable)
    (hp : (x.machine.proc p).state ≠ .runnable) (hp' : (y.machine.proc p).state = .runnable) :
    Paid y q p := by
  by_cases hyields : (x.machine.proc p).state = .running ∧ 0 < (x.machine.proc p).priority
  · -- it has paid for this overtaking
    have hpaid := h.paid (by rw [hyields.1]; decide)
        (by rw [hyields.1]; decide) fun hboth => hp hboth.2.1
    have hpriority : (y.machine.proc p).priority = (x.machine.proc p).priority - 1 := by
      cases hentry with
      | keep _ hrunning => exact absurd hp' (hrunning hyields.1)
      | alloc _ hembryo =>
          rw [hp'] at hembryo
          cases hembryo
      | lower _ _ hpriority => rw [hpriority, if_pos hyields.2]
    refine ⟨by omega, fun _ _ _ => by omega⟩
  · have hbehind := (ho p hp hp').resolve_left hyields q hq
    have hpriority : (y.machine.proc p).priority = (x.machine.proc p).priority := by
      cases hentry with
      | keep hpriority => exact hpriority
      | alloc _ hembryo =>
          rw [hp'] at hembryo
          cases hembryo
      | lower hstate _ hpriority =>
          rw [hpriority, if_neg fun hpos => hyields ⟨hstate.resolve_right hp, hpos⟩]
    have hbehind' : Precedes y.machine.proc q p := by
      rcases hbehind with hlt | ⟨heq, hle⟩
      · exact .inl (by omega)
      · rcases hqle.lt_or_eq with hlt | hsame
        · exact .inl (by omega)
        · exact .inr ⟨by omega, hle⟩
    have hsame := hahead fun hpre => hne (precedes_antisymm hpre hbehind')
    exact ⟨hsame ▸ h.entries, fun _ _ hnot => absurd ⟨hq', hp', hbehind'⟩ hnot⟩

theorem Paid.next {x y : Watched} {p q : Slot} (hne : p ≠ q) (hr : Reachable x) (hn : Next x y)
    (ho : Orderly x.machine y.machine) (h : Paid x q p) : Paid y q p := by
  have hbounds := Reachable.priority (hr.step hn) p
  obtain ⟨a, hn⟩ := hn
  obtain ⟨hset, hst, hcounts⟩ := step_eq_some.mp hn
  have hentry := fun r => step_entry (Reachable.machine hr).sound hst hset r
  have hcount : y.counts.entries q p = if Overtaking.Waits x.machine.queue y.machine.queue q then
      x.counts.entries q p +
        (if Overtaking.Overtakes x.machine.queue y.machine.queue p q then 1 else 0)
      else 0 := by rw [hcounts]; rfl
  by_cases hw : Overtaking.Waits x.machine.queue y.machine.queue q = true
  · have hq : (x.machine.proc q).state = .runnable ∧ (y.machine.proc q).state = .runnable := by
      simpa [Overtaking.Waits, queue] using hw
    have hover : Overtaking.Overtakes x.machine.queue y.machine.queue p q = true ↔
        (x.machine.proc p).state ≠ .runnable ∧ (y.machine.proc p).state = .runnable ∧
          Precedes y.machine.proc p q := by
      rw [Overtaking.Overtakes, hw]
      simp [queue, and_assoc]
    rw [if_pos hw] at hcount
    by_cases hp : (x.machine.proc p).state = .runnable
    · rw [if_neg fun ho => (hover.mp ho).1 hp] at hcount
      exact h.stay hne ((Reachable.machine hr).turn hst hset) (hentry p) hcount hq.1 hq.2 hp
    · by_cases hp' : (y.machine.proc p).state = .runnable
      · refine h.enter hne ho (hentry p) hbounds.1 ((hentry q).le hq.1) ?_
          (fun hnot => ?_) hq.1 hq.2 hp hp'
        · rw [hcount]
          split_ifs <;> omega
        · rw [hcount, if_neg fun ho => hnot (hover.mp ho).2.2, Nat.add_zero]
      · rw [if_neg fun ho => hp' (hover.mp ho).2.1, Nat.add_zero] at hcount
        refine ⟨hcount ▸ h.entries, fun hunused hembryo _ => ?_⟩
        rw [hcount]
        cases hentry p with
        | keep hpriority _ hlive =>
            have hdead : ∀ hx : (x.machine.proc p).state = .unused ∨
                (x.machine.proc p).state = .embryo, False :=
              fun hx => (hlive hx).elim hunused fun hy => hy.elim hembryo hp'
            rw [hpriority]
            exact h.paid (fun hx => hdead (.inl hx))
              (fun hx => hdead (.inr hx)) fun hboth => hp hboth.2.1
        | alloc _ hy => exact absurd hy hembryo
        | lower _ hy => exact absurd hy hp'
  · rw [if_neg hw] at hcount
    refine ⟨by omega, fun _ _ _ => ?_⟩
    rw [hcount]
    omega

theorem OrderlyReachable.paid {x : Watched} (h : OrderlyReachable x) {p q : Slot} (hne : p ≠ q) :
    Paid x q p := by
  induction h with
  | @start x h0 =>
      have hzero : x.counts.entries q p = 0 := by rw [h0.2]; rfl
      have hle := (Reachable.priority (.start h0) p).2
      refine ⟨by omega, fun _ _ _ => ?_⟩
      rw [hzero]
      omega
  | @step x y hr hn ih => exact ih.next hne (hr.mono fun _ _ hn => hn.1) hn.1 hn.2

/-- Where nobody but a process that yields with a value above 0 comes back ahead of a waiting one,
every process is selected after at most `(NPROC - 1) * 11` passes that select another one. -/
theorem waits_le_of_orderly {x : Watched} (h : OrderlyReachable x) (q : Slot) :
    x.counts.waits q ≤ (NPROC - 1) * (10 + 1) := by
  have hi := Reachable.inv (h.mono fun _ _ hn => hn.1)
  have hbound := hi.waits_le (fun q p hne => (h.paid hne).entries) q
  rwa [Fintype.card_fin] at hbound

/-- The machine at boot, with nothing counted yet. -/
def boot : Watched := ⟨Machine.boot Unit, .zero⟩

theorem boot_reachable : Reachable boot := .start ⟨boot_initial, rfl⟩

/-- Init forks a child, yields, and overtakes the child once. -/
theorem waits_le_of_orderly_one_yield : ∃ x, Reachable x ∧ x.counts.waits 1 = 1 ∧
    x.counts.waits 1 ≤ (NPROC - 1) * (10 + 1) := by
  have hrun : ((TransitionRuns.execute
      (TransitionRuns.checked step fun x y => Orderly x.machine y.machine) boot
      [.age (), .acquire (), .select (), .resume (), .release (), .enter () .allocproc, .body (),
        .release (), .forkFill (), .enter () .makeRunnable, .body (), .release (),
        .enter () .yield, .body (), .clear (), .release (), .acquire (), .select ()]).any fun x =>
      decide (x.counts.waits 1 = 1)) = true := by decide +kernel
  obtain ⟨x, hx, hprop⟩ := (Option.any_eq_true _ _).mp hrun
  have hreach : OrderlyReachable x :=
    TransitionRuns.Reaches.execute_checked (.start ⟨boot_initial, rfl⟩) hx
  exact ⟨x, hreach.mono fun _ _ hn => hn.1, of_decide_eq_true hprop, waits_le_of_orderly hreach 1⟩

/-- Init, at slot 0, has the CPU or will be selected next, while its child at slot 1 waits with
the initial priority. -/
structure Hog (cpu : Cpu) (lock : Option Unit) (st : ProcState) (n : ℕ) (x : Watched) : Prop where
  reachable : Reachable x
  cpu : x.machine.cpu () = cpu
  lock : x.machine.lock = lock
  state : (x.machine.proc 0).state = st
  priority : (x.machine.proc 0).priority ≤ 10
  resume : (x.machine.thread 0).resume = .forkret ∨ (x.machine.thread 0).resume = .yield
  child : (x.machine.proc 1).state = .runnable ∧ (x.machine.proc 1).priority = 10
  others : ∀ p, p ≠ 0 → p ≠ 1 → (x.machine.proc p).state ≠ .runnable
  waits : x.counts.waits 1 = n

theorem slot_one_ne_zero : (1 : Slot) ≠ 0 := by decide +kernel

theorem Hog.next {cpu cpu' : Cpu} {lock lock' : Option Unit} {st st' : ProcState} {n : ℕ}
    {x : Watched} (h : Hog cpu lock st n x) (a : Act Unit) {t : Machine Unit}
    (hst : x.machine.step a = some t) (hset : x.machine.setsPriority a = false)
    (hcpu : t.cpu () = cpu') (hlock : t.lock = lock') (hstate : (t.proc 0).state = st')
    (hpriority : (t.proc 0).priority ≤ 10)
    (hresume : (t.thread 0).resume = (x.machine.thread 0).resume ∨ (t.thread 0).resume = .yield)
    (hkeep : ∀ p, p ≠ 0 → t.proc p = x.machine.proc p) :
    ∃ y, Hog cpu' lock' st' (n + if (x.machine.served a).isSome then 1 else 0) y := by
  have hchild : t.proc 1 = x.machine.proc 1 := hkeep 1 slot_one_ne_zero
  let m := x.counts.next x.machine.queue t.queue (x.machine.served a)
  refine ⟨⟨t, m⟩, h.reachable.step ⟨a, step_eq_some.mpr ⟨hset, hst, rfl⟩⟩, hcpu, hlock, hstate,
    hpriority, ?_, ?_, fun p h0 h1 => ?_, ?_⟩
  · rcases hresume with hr | hr
    · change (t.thread 0).resume = _ ∨ _
      rw [hr]
      exact h.resume
    · exact Or.inr hr
  · change (t.proc 1).state = _ ∧ _
    rw [hchild]
    exact h.child
  · change (t.proc p).state ≠ _
    rw [hkeep p h0]
    exact h.others p h0 h1
  · have hw : Overtaking.Waits x.machine.queue t.queue 1 = true := by
      simp [Overtaking.Waits, queue, hchild, h.child.1]
    change (if Overtaking.Waits _ _ _ then _ else _) = _
    rw [if_pos hw, h.waits]

theorem Hog.move {cpu cpu' : Cpu} {lock lock' : Option Unit} {st : ProcState} {n : ℕ} {x : Watched}
    (h : Hog cpu lock st n x) (a : Act Unit) {t : Machine Unit}
    (hst : x.machine.step a = some t) (hset : x.machine.setsPriority a = false)
    (hserved : x.machine.served a = none)
    (ht : t.cpu () = cpu' ∧ t.lock = lock' ∧ t.ptable = x.machine.ptable ∧
      t.thread = x.machine.thread) : ∃ y, Hog cpu' lock' st n y := by
  obtain ⟨hcpu, hlock, htable, hthread⟩ := ht
  have hproc : t.proc = x.machine.proc := congrArg Ptable.proc htable
  have hnext := h.next a hst hset hcpu hlock (by rw [hproc, h.state])
      (by rw [hproc]; exact h.priority)
    (Or.inl (by rw [hthread])) (fun p _ => by rw [hproc])
  rw [hserved] at hnext
  exact hnext

/-- The selection loop finds init: its priority value is at most that of its child. -/
theorem Hog.selects {cpu : Cpu} {lock : Option Unit} {n : ℕ} {x : Watched}
    (h : Hog cpu lock .runnable n x) : highestPriorityProc x.machine.proc = some 0 := by
  cases hp : highestPriorityProc x.machine.proc with
  | none => exact absurd h.state (highestPriorityProc_eq_none hp 0)
  | some p =>
      obtain ⟨hrun, hfirst⟩ := highestPriorityProc_eq_some hp
      by_cases h0 : p = 0
      · rw [h0]
      · have h1 : p = 1 := by
          by_contra h1
          exact h.others p h0 h1 hrun
        subst h1
        have hlow := h.priority
        have hchild := h.child.2
        rcases hfirst 0 h.state with hlt | ⟨-, hle⟩
        · omega
        · exact absurd (Fin.le_antisymm hle (Fin.zero_le _)) h0

theorem Hog.yields {n : ℕ} {x : Watched} (h : Hog ⟨some 0, .crit .yield⟩ (some ()) .running n x) :
    ∃ y, Hog ⟨some 0, .back⟩ (some ()) .runnable n y := by
  have hst : x.machine.step (.body ()) = some (x.machine.body () 0 .yield) := by
    simp only [Machine.step, h.cpu]
  apply h.next (.body ()) hst
  · simp [setsPriority, h.cpu]
  · simp [Machine.body, sched, setLoc, setCpu, setProc, h.cpu]
  · exact h.lock
  · change (giveUp 0 x.machine.proc 0).state = _
    simp [giveUp]
  · have hlow := h.priority
    change (giveUp 0 x.machine.proc 0).priority ≤ 10
    simp only [giveUp, modify_self]
    split_ifs <;> omega
  · right
    simp [Machine.body, sched, setLoc, setCpu, setProc]
  · intro p hp
    change giveUp 0 x.machine.proc p = _
    simp [giveUp, hp]

theorem Hog.selected {n : ℕ} {x : Watched} (h : Hog ⟨none, .scan⟩ (some ()) .runnable n x) :
    ∃ y, Hog ⟨some 0, .resumed⟩ (some ()) .running (n + 1) y := by
  have hfirst := h.selects
  let t := (x.machine.setProc (setState .running 0 x.machine.proc)).setCpu () ⟨some 0, .resumed⟩
  have hst : x.machine.step (.select ()) = some t := by
    simp only [Machine.step, h.cpu, hfirst, if_true, t]
  have hproc : t.proc = setState .running 0 x.machine.proc := rfl
  have hcpu : t.cpu () = ⟨some 0, .resumed⟩ := by simp [t, setCpu]
  have hstate : (t.proc 0).state = .running := by simp [hproc, setState]
  have hnext := h.next (.select ()) hst rfl hcpu h.lock hstate
    (by simpa [hproc, setState] using h.priority) (Or.inl rfl)
    fun p hp => by simp [hproc, setState, hp]
  simpa only [served, hfirst, Option.isSome_some, if_true] using hnext

theorem Hog.pass {n : ℕ} {x : Watched} (h : Hog ⟨some 0, .thread⟩ none .running n x) :
    ∃ y, Hog ⟨some 0, .thread⟩ none .running (n + 1) y := by
  obtain ⟨x₁, h₁⟩ : ∃ y, Hog ⟨some 0, .crit .yield⟩ (some ()) .running n y := by
    apply h.move (.enter () .yield)
      (t := { x.machine with lock := some () }.setLoc () (.crit .yield))
    · simp [Machine.step, runs, h.cpu, h.lock, mayStart]
    · rfl
    · rfl
    · simp [setLoc, setCpu, h.cpu]
  obtain ⟨x₂, h₂⟩ := h₁.yields
  obtain ⟨x₃, h₃⟩ : ∃ y, Hog ⟨none, .unlock⟩ (some ()) .runnable n y := by
    apply h₂.move (.clear ()) (t := x₂.machine.setCpu () ⟨none, .unlock⟩)
    · simp [Machine.step, h₂.cpu]
    · rfl
    · rfl
    · simp [setCpu, h₂.lock]
  obtain ⟨x₄, h₄⟩ : ∃ y, Hog ⟨none, .loop⟩ none .runnable n y := by
    apply h₃.move (.release ()) (t := { x₃.machine with lock := none }.setLoc () .loop)
    · simp [Machine.step, h₃.cpu]
    · rfl
    · rfl
    · simp [setLoc, setCpu, h₃.cpu]
  obtain ⟨x₅, h₅⟩ : ∃ y, Hog ⟨none, .scan⟩ (some ()) .runnable n y := by
    apply h₄.move (.acquire ()) (t := { x₄.machine with lock := some () }.setLoc () .scan)
    · simp [Machine.step, h₄.cpu, h₄.lock]
    · rfl
    · rfl
    · simp [setLoc, setCpu, h₄.cpu]
  obtain ⟨x₆, h₆⟩ := h₅.selected
  obtain ⟨x₇, h₇⟩ : ∃ y, Hog ⟨some 0, .leave⟩ (some ()) .running (n + 1) y := by
    apply h₆.move (.resume ()) (t := x₆.machine.setLoc () .leave)
    · rcases h₆.resume with hr | hr <;> simp [Machine.step, runs, h₆.cpu, hr]
    · rfl
    · rfl
    · simp [setLoc, setCpu, h₆.cpu, h₆.lock]
  apply h₇.move (.release ()) (t := { x₇.machine with lock := none }.setLoc () .thread)
  · simp [Machine.step, h₇.cpu]
  · rfl
  · rfl
  · simp [setLoc, setCpu, h₇.cpu]

theorem hog_zero : ∃ x, Hog ⟨some 0, .thread⟩ none .running 0 x := by
  have hrun : ((TransitionRuns.execute step boot
      [.age (), .acquire (), .select (), .resume (), .release (), .enter () .allocproc, .body (),
        .release (), .forkFill (), .enter () .makeRunnable, .body (), .release ()]).any fun x =>
      decide (x.machine.cpu () = ⟨some 0, .thread⟩ ∧ x.machine.lock = none ∧
        (x.machine.proc 0).state = .running ∧ (x.machine.proc 0).priority ≤ 10 ∧
        (x.machine.thread 0).resume = .forkret ∧ (x.machine.proc 1).state = .runnable ∧
        (x.machine.proc 1).priority = 10 ∧
        (∀ p, p ≠ 0 → p ≠ 1 → (x.machine.proc p).state ≠ .runnable) ∧ x.counts.waits 1 = 0)) =
      true := by decide +kernel
  obtain ⟨x, hx, hprop⟩ := (Option.any_eq_true _ _).mp hrun
  obtain ⟨hcpu, hlock, hstate, hpriority, hresume, hready, hten, hothers, hwaits⟩ :=
    of_decide_eq_true hprop
  exact ⟨x, TransitionRuns.Reaches.execute boot_reachable hx, hcpu, hlock, hstate, hpriority,
    Or.inl hresume, ⟨hready, hten⟩, hothers, hwaits⟩

theorem hog (n : ℕ) : ∃ x, Hog ⟨some 0, .thread⟩ none .running n x := by
  induction n with
  | zero => exact hog_zero
  | succ n ih =>
      obtain ⟨x, hx⟩ := ih
      exact hx.pass

/-- Init forks a child and keeps yielding: no bound holds of the passes the child waits. -/
theorem starvation : ¬ ∃ B : ℕ, ∀ x, Reachable x → ∀ q, x.counts.waits q ≤ B := by
  rintro ⟨B, hB⟩
  obtain ⟨x, hx⟩ := hog (B + 1)
  have hle := hB x hx.reachable 1
  rw [hx.waits] at hle
  omega

end Watched

end Machine
end Xv6Fairness
