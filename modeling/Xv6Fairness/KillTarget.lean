import Xv6Fairness.CpuOwnership

/-!
# Whom kill and setpriority hit

`kill` compares pids without looking at the state of a slot, and `allocproc` keeps the `killed`
flag of the slot it takes. Where a flag can come from is read off the history: a process in use is
marked because `kill` was called with its pid, because it faulted, or because its slot was marked
before. Runs in which no free slot is hit and no marked slot is taken are the ones in which a kill
hits only the process it names.
-/

namespace Xv6Fairness

namespace Event

def isKill (n : ℤ) : Event → Bool
  | .killed m _ => m = n
  | _ => false

def isFault (p : Slot) : Event → Bool
  | .faulted q _ => q = p
  | _ => false

def isAllocationOf (p : Slot) : Event → Bool
  | .allocated q _ => q = p
  | _ => false

end Event

/-- An event of the given kind has happened after slot `p` was last handed out by `allocproc`. -/
def since (p : Slot) (hit : Event → Bool) : List Event → Bool
  | [] => false
  | e :: log => hit e || (!e.isAllocationOf p && since p hit log)

section Since

variable {p : Slot} {hit : Event → Bool} {log log' : List Event}

theorem since_cons_hit {e : Event} (h : hit e = true) : since p hit (e :: log) = true := by
  rw [since, h, Bool.true_or]

theorem since_extend (hlog : log' = log ∨ ∃ e, log' = e :: log ∧ e.isAllocationOf p = false)
    (h : since p hit log = true) : since p hit log' = true := by
  rcases hlog with rfl | ⟨e, rfl, he⟩
  · exact h
  · rw [since, he, h]
    exact Bool.or_true _

end Since

namespace Life

variable {v w : Life}

theorem Step.killed (h : Step v w) (p : Slot) (hk : (w.proc p).killed = true) :
    (v.proc p).killed = true ∨
      (∃ ret, w.log = .killed (v.pid p) ret :: v.log) ∨
      ∃ pid, w.log = .faulted p pid :: v.log ∧ (v.proc p).state = .running := by
  cases h with
  | stutter => exact Or.inl hk
  | age =>
      rw [setProc_proc, age_field Proc.killed (fun _ _ => rfl)] at hk
      exact Or.inl hk
  | select hp | makeRunnable hp hf | waitSleep hp h | yield hp | sleep addr hp | tidy hp =>
      exact Or.inl (by simpa using hk)
  | forkFail hp hf | forkFill hp hf => exact Or.inl (by simpa using hk)
  | allocate hp hf h =>
      obtain ⟨-, -, hproc, -⟩ := allocproc_eq_some h
      rw [record_proc, setFork_proc, Life.proc, hproc] at hk
      exact Or.inl (by simpa using hk)
  | exit hp hf hinit =>
      rw [record_proc, exitProc_killed] at hk
      exact Or.inl hk
  | reap hp h =>
      rw [record_proc, setProc_proc, Xv6Fairness.reap, modify_killed] at hk
      split_ifs at hk
      exact Or.inl hk
  | waitFail hp h hw => exact Or.inl hk
  | kill pid =>
      rcases kill_cases pid v.table with ⟨-, h⟩ | ⟨q, hq, -, h⟩
      · rw [record_proc, Life.proc, h] at hk
        exact Or.inl hk
      · by_cases hpq : p = q
        · right
          left
          exact ⟨_, by rw [hpq, Life.pid, Life.proc, hq]; rfl⟩
        · rw [record_proc, Life.proc, h] at hk
          change (modify q _ v.proc p).killed = true at hk
          rw [modify_of_ne hpq] at hk
          exact Or.inl hk
  | wakeup addr =>
      rw [setProc_proc, wakeup1_killed] at hk
      exact Or.inl hk
  | setpriority pid priority =>
      rcases setpriority_cases pid priority v.table with ⟨-, h⟩ | ⟨q, -, -, h⟩
      · rw [Life.proc, h] at hk
        exact Or.inl hk
      · rw [Life.proc, h] at hk
        exact Or.inl (by simpa using hk)
  | @fault q hp =>
      by_cases hpq : p = q
      · right
        right
        exact ⟨_, by rw [hpq]; rfl, hpq ▸ hp⟩
      · rw [record_proc, setProc_proc, modify_of_ne hpq] at hk
        exact Or.inl hk

/-- What is in use after a step was in use before it under the same pid, or it has just been
allocated. -/
theorem Change.inUse (hf : ForkInv v) (hc : Change v w) {p : Slot} (hp : w.stage p ≠ .free) :
    (v.stage p ≠ .free ∧ w.pid p = v.pid p ∧ (w.stage p = .embryo → v.stage p = .embryo) ∧
      (w.log = v.log ∨ ∃ e, w.log = e :: v.log ∧ e.isAllocationOf p = false)) ∨
      ∃ pid, w.log = .allocated p pid :: v.log := by
  cases hc with
  | quiet h =>
      rw [h.stage] at hp
      refine Or.inl ⟨hp, h.pid p, fun he => by rwa [h.stage] at he, ?_⟩
      rcases h.log with h | ⟨pid, ret, h⟩ | ⟨q, pid, h⟩ | ⟨q, h, -⟩
      · exact Or.inl h
      · exact Or.inr ⟨_, h, rfl⟩
      · exact Or.inr ⟨_, h, rfl⟩
      · exact Or.inr ⟨_, h, rfl⟩
  | @allocate q np hq hforkq hnp hnext h =>
      by_cases hpn : p = np
      · right
        exact ⟨_, by rw [h.log, hpn]⟩
      · left
        have hstage := h.stage p
        have hpid := h.pid p
        rw [Function.update_of_ne hpn] at hstage hpid
        rw [hstage] at hp ⊢
        exact ⟨hp, hpid, id, Or.inr ⟨_, h.log, by simp [Event.isAllocationOf, Ne.symm hpn]⟩⟩
  | @forkFail q np hq hforkq hnext h =>
      left
      have hstage := h.stage p
      have hpn : p ≠ np := by
        rintro rfl
        rw [Function.update_self] at hstage
        exact hp hstage
      rw [Function.update_of_ne hpn] at hstage
      rw [hstage] at hp ⊢
      exact ⟨hp, h.pid p, id, Or.inl h.log⟩
  | @forkFill q np hq hforkq hnext h =>
      left
      rw [h.stage] at hp ⊢
      exact ⟨hp, h.pid p, id, Or.inl h.log⟩
  | @makeRunnable q np hq hforkq hnext h =>
      left
      have hnp : v.stage np = .embryo := hf.embryo q np (by rw [hforkq]; rfl)
      have hstage := h.stage p
      by_cases hpn : p = np
      · subst hpn
        refine ⟨by simp [hnp], h.pid p, fun _ => hnp, Or.inr ⟨_, h.log, rfl⟩⟩
      · rw [Function.update_of_ne hpn] at hstage
        rw [hstage] at hp ⊢
        exact ⟨hp, h.pid p, id, Or.inr ⟨_, h.log, rfl⟩⟩
  | @exit q hq hforkq hinit hnext h hwake =>
      left
      have hstage := h.stage p
      by_cases hpq : p = q
      · subst hpq
        rw [Function.update_self] at hstage
        refine ⟨by simp [hq], h.pid p, fun he => ?_, Or.inr ⟨_, h.log, rfl⟩⟩
        rw [hstage] at he
        cases he
      · rw [Function.update_of_ne hpq] at hstage
        rw [hstage] at hp ⊢
        exact ⟨hp, h.pid p, id, Or.inr ⟨_, h.log, rfl⟩⟩
  | @reap q r hq hr hz hnext h =>
      left
      have hstage := h.stage p
      have hpr : p ≠ r := by
        rintro rfl
        rw [Function.update_self] at hstage
        exact hp hstage
      have hpid := h.pid p
      rw [Function.update_of_ne hpr] at hstage hpid
      rw [hstage] at hp ⊢
      exact ⟨hp, hpid, id, Or.inr ⟨_, h.log, rfl⟩⟩

/-- A marked slot in use was hit by a kill of its own pid since it was handed out, or its process
has faulted since. -/
def MarkInv (v : Life) : Prop := ∀ p, v.stage p ≠ .free → (v.proc p).killed = true →
  since p (Event.isKill (v.pid p)) v.log = true ∨
    v.stage p ≠ .embryo ∧ since p (Event.isFault p) v.log = true

theorem MarkInv.step (hf : ForkInv v) (hi : MarkInv v) (h : Step v w)
    (hclean : ∀ p pid, w.log = .allocated p pid :: v.log → (v.proc p).killed = false) :
    MarkInv w := by
  intro p hp hk
  have hdone : ∀ pid, w.log = .allocated p pid :: v.log → (v.proc p).killed ≠ true :=
    fun pid hlog => by simp [hclean p pid hlog]
  rcases h.killed p hk with hkv | ⟨ret, hlog⟩ | ⟨pid, hlog, hrun⟩
  · rcases h.change.inUse hf hp with ⟨hpv, hpid, hemb, hlog⟩ | ⟨pid, hlog⟩
    · rw [hpid]
      rcases hi p hpv hkv with hkill | ⟨hne, hfault⟩
      · exact Or.inl (since_extend hlog hkill)
      · exact Or.inr ⟨fun he => hne (hemb he), since_extend hlog hfault⟩
    · exact absurd hkv (hdone pid hlog)
  · left
    rcases h.change.inUse hf hp with ⟨-, hpid, -⟩ | ⟨pid, hlog'⟩
    · rw [hlog, hpid]
      exact since_cons_hit (by simp [Event.isKill])
    · rw [hlog'] at hlog
      cases hlog
  · right
    rcases h.change.inUse hf hp with ⟨-, -, hemb, -⟩ | ⟨pid', hlog'⟩
    · refine ⟨fun he => ?_, ?_⟩
      · have he' := hemb he
        rw [stage_running hrun] at he'
        cases he'
      · rw [hlog]
        exact since_cons_hit (by simp [Event.isFault])
    · rw [hlog'] at hlog
      cases hlog

theorem Initial.markInv (h : Initial v) : MarkInv v := by
  intro p _ hk
  rw [Life.proc, h.1, userinit_eq.1, setState, modify_killed, modify_killed] at hk
  simp at hk

theorem Step.of_killed (h : Step v w) {pid ret : ℤ} (hlog : w.log = .killed pid ret :: v.log) :
    w.table = (Xv6Fairness.kill pid v.table).1 ∧ ret = (Xv6Fairness.kill pid v.table).2 := by
  cases h with
  | kill n =>
      rw [record_log] at hlog
      cases hlog
      exact ⟨rfl, rfl⟩
  | stutter | age | select | forkFail | forkFill | waitSleep | wakeup | yield | sleep | tidy
  | setpriority => simp at hlog
  | allocate | makeRunnable | exit | reap | waitFail | fault => simp at hlog

theorem Step.of_forked (h : Step v w) {a n : ℤ} (hlog : w.log = .forked a n :: v.log) :
    ∃ p np, v.fork p = .filled np ∧ v.pid np = n ∧ (w.proc np).state = .runnable ∧
      (w.proc np).killed = (v.proc np).killed := by
  cases h with
  | @makeRunnable p np hp hf =>
      rw [record_log] at hlog
      cases hlog
      exact ⟨p, np, hf, rfl, by simp [setState], by simp⟩
  | stutter | age | select | forkFail | forkFill | waitSleep | wakeup | yield | sleep | tidy
  | setpriority => simp at hlog
  | allocate | kill | exit | reap | waitFail | fault => simp at hlog

end Life

/-- What `kill` is for: it returns 0 if and only if a process holds the pid, marks that process
alone, and otherwise touches nothing. -/
def KillsNamed (pid : ℤ) (t : Ptable) : Prop :=
  ((kill pid t).2 = 0 ↔ ∃ p, (t.proc p).state ≠ .unused ∧ (t.proc p).pid = pid) ∧
    ((kill pid t).2 = 0 → ∃ p, (t.proc p).state ≠ .unused ∧ (t.proc p).pid = pid ∧
      ((kill pid t).1.proc p).killed = true ∧ ∀ q, q ≠ p → (kill pid t).1.proc q = t.proc q) ∧
    ((kill pid t).2 ≠ 0 → (kill pid t).1 = t)

/-- The first slot that holds the pid, if there is one, is in use. -/
def FirstInUse (pid : ℤ) (t : Ptable) : Prop :=
  ∀ p, (t.proc p).pid = pid → (∀ q < p, (t.proc q).pid ≠ pid) → (t.proc p).state ≠ .unused

theorem first_unique {pid : ℤ} {t : Ptable} {p q : Slot} (hp : (t.proc p).pid = pid)
    (hfirst : ∀ r < p, (t.proc r).pid ≠ pid) (hq : (t.proc q).pid = pid)
    (hfirst' : ∀ r < q, (t.proc r).pid ≠ pid) : q = p := by
  by_contra hne
  rcases Fin.lt_or_lt_of_ne hne with hlt | hgt
  · exact hfirst q hlt hq
  · exact hfirst' p hgt hp

theorem killsNamed_of_firstInUse {pid : ℤ} {t : Ptable} (h : FirstInUse pid t) :
    KillsNamed pid t := by
  unfold KillsNamed
  rcases kill_cases pid t with ⟨hnone, hk⟩ | ⟨p, hp, hfirst, hk⟩
  · rw [hk]
    refine ⟨iff_of_false (by simp) ?_, fun hret => absurd hret (by simp), fun _ => rfl⟩
    rintro ⟨p, -, hp⟩
    exact hnone p hp
  · have huse := h p hp hfirst
    rw [hk]
    refine ⟨iff_of_true rfl ⟨p, huse, hp⟩, fun _ => ⟨p, huse, hp, ?_, fun q hq => ?_⟩,
      fun hret => absurd rfl hret⟩
    · simp [killProc]
    · simp [killProc, hq]

/-- A free slot that holds the pid first is hit in place of any process, unless it is marked
already. -/
theorem not_killsNamed {pid : ℤ} {t : Ptable} {p : Slot} (hp : (t.proc p).pid = pid)
    (hfirst : ∀ q < p, (t.proc q).pid ≠ pid) (hfree : (t.proc p).state = .unused)
    (hmark : (t.proc p).killed = false) : ¬ KillsNamed pid t := by
  rintro ⟨-, hret, -⟩
  rcases kill_cases pid t with ⟨hnone, -⟩ | ⟨r, hr, hfirstr, hk⟩
  · exact hnone p hp
  · have hrp : r = p := by
      by_contra hne
      rcases Fin.lt_or_lt_of_ne hne with hlt | hgt
      · exact hfirst r hlt hr
      · exact hfirstr p hgt hp
    rw [hk] at hret
    obtain ⟨q, huse, -, -, hsame⟩ := hret rfl
    have hqp : p ≠ q := by
      rintro rfl
      exact huse hfree
    have hmarked := congrArg Proc.killed (hsame p hqp)
    simp [killProc, hrp, hmark] at hmarked

/-- What `setpriority` is for: it returns 0 if and only if a process holds the pid, gives that
process alone the priority, and otherwise returns -1 and touches nothing. -/
def SetsNamed (pid priority : ℤ) (t : Ptable) : Prop :=
  ((setpriority pid priority t).2 = 0 ↔ ∃ p, (t.proc p).state ≠ .unused ∧ (t.proc p).pid = pid) ∧
    ((setpriority pid priority t).2 = 0 → ∃ p, (t.proc p).state ≠ .unused ∧ (t.proc p).pid = pid ∧
      (setpriority pid priority t).1 =
        { t with proc := modify p (fun x => { x with priority := priority }) t.proc }) ∧
    ((setpriority pid priority t).2 ≠ 0 →
      (setpriority pid priority t).2 = -1 ∧ (setpriority pid priority t).1 = t)

/-- A process holds the pid and has the priority, and so has the first slot with that pid. -/
def AlreadySet (pid priority : ℤ) (t : Ptable) : Prop :=
  (∃ p, (t.proc p).state ≠ .unused ∧ (t.proc p).pid = pid ∧ (t.proc p).priority = priority) ∧
    ∀ q, (t.proc q).pid = pid → (∀ r < q, (t.proc r).pid ≠ pid) → (t.proc q).priority = priority

theorem modify_priority_same {t : Ptable} {p : Slot} {priority : ℤ}
    (h : (t.proc p).priority = priority) :
    { t with proc := modify p (fun x => { x with priority := priority }) t.proc } = t := by
  have hself : modify p (fun x => { x with priority := priority }) t.proc = t.proc := by
    rw [modify, ← h]
    exact Function.update_eq_self p t.proc
  rw [hself]

theorem setsNamed_iff (pid priority : ℤ) (t : Ptable) :
    SetsNamed pid priority t ↔ FirstInUse pid t ∨ AlreadySet pid priority t := by
  unfold SetsNamed
  rcases setpriority_cases pid priority t with ⟨hnone, hset⟩ | ⟨q, hq, hfirst, hset⟩
  · rw [hset]
    refine iff_of_true ⟨iff_of_false (by simp) ?_, fun hret => absurd hret (by simp),
      fun _ => ⟨rfl, rfl⟩⟩ (Or.inl fun p hp => absurd hp (hnone p))
    rintro ⟨p, -, hp⟩
    exact hnone p hp
  · rw [hset]
    by_cases huse : (t.proc q).state = .unused
    · constructor
      · rintro ⟨-, hret, -⟩
        obtain ⟨p, hlive, hp, hsame⟩ := hret rfl
        have hne : p ≠ q := by
          rintro rfl
          exact hlive huse
        have hproc := congrArg Ptable.proc hsame
        have hatq := congrArg Proc.priority (congrFun hproc q)
        have hatp := congrArg Proc.priority (congrFun hproc p)
        simp only [modify_self, modify_of_ne hne, modify_of_ne hne.symm] at hatq hatp
        refine Or.inr ⟨⟨p, hlive, hp, hatp⟩, fun r hr hfirst' => ?_⟩
        rw [first_unique hq hfirst hr hfirst']
        exact hatq.symm
      · rintro (hfirstUse | ⟨⟨p, hlive, hp, hprio⟩, hfirstPrio⟩)
        · exact absurd huse (hfirstUse q hq hfirst)
        · refine ⟨iff_of_true rfl ⟨p, hlive, hp⟩, fun _ => ⟨p, hlive, hp, ?_⟩,
            fun hret => absurd rfl hret⟩
          rw [modify_priority_same hprio, modify_priority_same (hfirstPrio q hq hfirst)]
    · refine iff_of_true ⟨iff_of_true rfl ⟨q, huse, hq⟩, fun _ => ⟨q, huse, hq, rfl⟩,
        fun hret => absurd rfl hret⟩ (Or.inl fun p hp hfirst' => ?_)
      rw [first_unique hq hfirst hp hfirst']
      exact huse

/-- The condition that a kill and an `allocproc` need on the table they find. -/
def Event.Clean (t : Ptable) : Event → Prop
  | .killed pid _ => FirstInUse pid t
  | .allocated np _ => (t.proc np).killed = false
  | _ => True

instance (pid : ℤ) (t : Ptable) : Decidable (FirstInUse pid t) := by
  unfold FirstInUse
  infer_instance

instance (e : Event) (t : Ptable) : Decidable (e.Clean t) := by
  cases e <;> unfold Event.Clean <;> infer_instance

namespace Machine

variable {κ : Type} [DecidableEq κ]

/-- The step is no kill that finds a free slot first and no `allocproc` that takes a marked
slot. -/
def Clean (s t : Machine κ) : Prop := ∀ e, t.log = e :: s.log → e.Clean s.ptable

instance (s t : Machine κ) : Decidable (Clean s t) :=
  decidable_of_iff (∀ e ∈ t.log.head?, t.log = e :: s.log → e.Clean s.ptable)
    ⟨fun h e he => h e (by rw [he]; rfl) he, fun h e _ he => h e he⟩

/-- States of the runs whose steps are all clean. -/
abbrev CleanReachable : Machine κ → Prop :=
  TransitionRuns.Reaches Initial fun s t => Next s t ∧ Clean s t

theorem CleanReachable.reachable {s : Machine κ} (h : CleanReachable s) : Reachable s :=
  h.mono fun _ _ hn => hn.1

theorem CleanReachable.markInv {s : Machine κ} (h : CleanReachable s) : s.life.MarkInv := by
  induction h with
  | start h0 => exact h0.life.markInv
  | step hr hn ih =>
      have hreach := CleanReachable.reachable hr
      exact ih.step hreach.sound.fork (hreach.lifeStep hn.1) fun p pid hlog => hn.2 _ hlog

/-- In every run of clean steps a kill hits the process it names and nothing else, and a process
that `fork` makes RUNNABLE is marked only if `kill` was called with its pid after `allocproc` gave
it that pid. Processes in use are marked later only by such a kill or by a fault of their own. -/
theorem kill_hits_named {s : Machine κ} (h : CleanReachable s) :
    (∀ t pid ret, Next s t → Clean s t → t.log = .killed pid ret :: s.log →
      KillsNamed pid s.ptable ∧ t.ptable = (kill pid s.ptable).1 ∧
        ret = (kill pid s.ptable).2) ∧
    (∀ t a n, Next s t → t.log = .forked a n :: s.log → ∃ np, (s.proc np).pid = n ∧
      (t.proc np).state = .runnable ∧
        ((t.proc np).killed = true → since np (Event.isKill n) s.log = true)) ∧
    ∀ p, (s.proc p).state ≠ .unused → (s.proc p).killed = true →
      since p (Event.isKill (s.proc p).pid) s.log = true ∨
      since p (Event.isFault p) s.log = true := by
  have hreach := h.reachable
  have hmark := h.markInv
  refine ⟨fun t pid ret hn hclean hlog => ?_, fun t a n hn hlog => ?_, fun p hp hk => ?_⟩
  · obtain ⟨htable, hret⟩ := (hreach.lifeStep hn).of_killed hlog
    exact ⟨killsNamed_of_firstInUse (hclean _ hlog), htable, hret⟩
  · obtain ⟨p, np, hf, hpid, hrun, hk⟩ := (hreach.lifeStep hn).of_forked hlog
    have hembryo : s.life.stage np = .embryo :=
      hreach.sound.fork.embryo p np (by rw [hf]; rfl)
    refine ⟨np, hpid, hrun, fun hkt => ?_⟩
    rcases hmark np (by simp [hembryo]) (hk ▸ hkt) with hkill | ⟨hne, -⟩
    · rw [← hpid]
      exact hkill
    · exact absurd hembryo hne
  · have huse : s.life.stage p ≠ .free := fun hfree => hp (ProcState.stage_eq_free.mp hfree)
    rcases hmark p huse hk with hkill | ⟨-, hfault⟩
    · exact Or.inl hkill
    · exact Or.inr hfault

/-- One CPU: init forks a child, kills it while it is EMBRYO, and finishes the fork. -/
theorem kill_hits_named_embryo : ∃ s : Machine (Fin 1), CleanReachable s ∧
    Event.killed 2 0 ∈ s.log ∧ ∀ p, (s.proc p).state ≠ .unused → (s.proc p).killed = true →
      since p (Event.isKill (s.proc p).pid) s.log = true ∨
      since p (Event.isFault p) s.log = true := by
  have hrun : ((TransitionRuns.execute (TransitionRuns.checked step Clean) (boot (Fin 1))
      [.age 0, .acquire 0, .select 0, .resume 0, .release 0, .enter 0 .allocproc, .body 0,
        .release 0, .enter 0 (.kill 2), .body 0, .release 0, .forkFill 0, .enter 0 .makeRunnable,
        .body 0]).any fun s => decide (Event.killed 2 0 ∈ s.log)) = true := by decide +kernel
  obtain ⟨s, hs, hprop⟩ := (Option.any_eq_true _ _).mp hrun
  have hreach : CleanReachable s :=
    TransitionRuns.Reaches.execute_checked (.start boot_initial) hs
  exact ⟨s, hreach, of_decide_eq_true hprop, (kill_hits_named hreach).2.2⟩

/-- One CPU: init is alone and kills pid 0, which no process has. The call returns 0, and the
child that init forks next is marked without a kill of its pid. -/
theorem kill_zero_marks_next_child :
    (∃ s t : Machine (Fin 1), Reachable s ∧ Next s t ∧ t.log = .killed 0 0 :: s.log ∧
      ¬ KillsNamed 0 s.ptable) ∧
    ∃ s : Machine (Fin 1), Reachable s ∧ ∃ p a, Event.forked a (s.proc p).pid ∈ s.log ∧
      (s.proc p).state = .runnable ∧ (s.proc p).killed = true ∧
        since p (Event.isKill (s.proc p).pid) s.log = false := by
  constructor
  · have hrun : ((TransitionRuns.execute step (boot (Fin 1))
        [.age 0, .acquire 0, .select 0, .resume 0, .release 0, .enter 0 (.kill 0)]).any fun s =>
        decide ((s.proc 1).pid = 0 ∧ (∀ q < (1 : Slot), (s.proc q).pid ≠ 0) ∧
          (s.proc 1).state = .unused ∧ (s.proc 1).killed = false) &&
        (s.step (.body 0)).any fun t => decide (t.log = .killed 0 0 :: s.log)) = true := by
      decide +kernel
    obtain ⟨s, hs, hprop⟩ := (Option.any_eq_true _ _).mp hrun
    obtain ⟨hslot, hnext⟩ := (Bool.and_eq_true _ _).mp hprop
    obtain ⟨hpid, hfirst, hfree, hmark⟩ := of_decide_eq_true hslot
    obtain ⟨t, ht, hlog⟩ := (Option.any_eq_true _ _).mp hnext
    have hreach : Reachable s := TransitionRuns.Reaches.execute (.start boot_initial) hs
    exact ⟨s, t, hreach, ⟨.body 0, ht⟩, of_decide_eq_true hlog,
      not_killsNamed hpid hfirst hfree hmark⟩
  · have hrun : ((TransitionRuns.execute step (boot (Fin 1))
        [.age 0, .acquire 0, .select 0, .resume 0, .release 0, .enter 0 (.kill 0), .body 0,
          .release 0, .enter 0 .allocproc, .body 0, .release 0, .forkFill 0,
          .enter 0 .makeRunnable, .body 0]).any fun s =>
        decide (∃ p, Event.forked 1 (s.proc p).pid ∈ s.log ∧ (s.proc p).state = .runnable ∧
          (s.proc p).killed = true ∧ since p (Event.isKill (s.proc p).pid) s.log = false)) =
        true := by decide +kernel
    obtain ⟨s, hs, hprop⟩ := (Option.any_eq_true _ _).mp hrun
    obtain ⟨p, hp⟩ := of_decide_eq_true hprop
    have hreach : Reachable s := TransitionRuns.Reaches.execute (.start boot_initial) hs
    exact ⟨s, hreach, p, 1, hp⟩

/-- In every reachable table `setpriority` gives the process that holds the pid the priority, and
nothing else, exactly when the first slot with the pid is in use or nothing is left to change. -/
theorem setpriority_hits_named {s : Machine κ} (h : Reachable s) :
    (∀ pid priority, SetsNamed pid priority s.ptable ↔
      FirstInUse pid s.ptable ∨ AlreadySet pid priority s.ptable) ∧
    ∀ c p pid priority, s.cpu c = ⟨some p, .crit (.setpriority pid priority)⟩ →
      ∃ t, s.step (.body c) = some t ∧ Reachable t ∧
        t.ptable = (setpriority pid priority s.ptable).1 := by
  refine ⟨fun pid priority => setsNamed_iff pid priority s.ptable, fun c p pid priority hc => ?_⟩
  have hstep : s.step (.body c) = some (s.body c p (.setpriority pid priority)) := by
    simp only [step, hc]
  exact ⟨_, hstep, .step h ⟨_, hstep⟩, rfl⟩

/-- Init alone gives itself, as pid 1, the priority 3. -/
theorem setpriority_hits_named_init : SetsNamed 1 3 (boot (Fin 1)).ptable := by
  refine ((setpriority_hits_named (.start boot_initial)).1 1 3).mpr (Or.inl ?_)
  decide +kernel

/-- No process holds pid 0, yet the first free slot takes the priority. -/
theorem setpriority_zero_hits_free_slot :
    ∃ s : Machine (Fin 1), Reachable s ∧ ¬ SetsNamed 0 5 s.ptable := by
  refine ⟨boot (Fin 1), .start boot_initial, fun h => ?_⟩
  have hlive : (setpriority 0 5 (boot (Fin 1)).ptable).2 = 0 ∧
      ¬ ∃ p, ((boot (Fin 1)).ptable.proc p).state ≠ .unused ∧
        ((boot (Fin 1)).ptable.proc p).pid = 0 := by
    decide +kernel
  exact hlive.2 (h.1.mp hlive.1)

end Machine
end Xv6Fairness
