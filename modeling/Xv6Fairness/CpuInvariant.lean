import Xv6Fairness.ProcessLife

/-!
# What the place of a CPU says of the lock and of its process

The invariant relates, for every CPU, the place where it executes to the holder of `ptable.lock`
and to the state of its process. Every step of the machine keeps it, also the steps that hand the
lock across `swtch`.
-/

namespace Xv6Fairness

/-- Places at which the CPU holds `ptable.lock`. -/
def Loc.holding : Loc → Bool
  | .boot | .loop | .thread => false
  | _ => true

/-- Places at which a CPU executes its process. -/
def Loc.active : Loc → Bool
  | .thread | .crit _ | .resumed | .leave => true
  | _ => false

/-- What the place of a CPU says of its process. -/
def Cpu.Ok (proc : Slot → Proc Slot) (x : Cpu) : Prop :=
  if x.loc.active then ∃ p, x.proc = some p ∧ (proc p).state = .running
  else if x.loc = .back then
    ∃ p, x.proc = some p ∧ (proc p).state ∈ [ProcState.sleeping, .runnable, .zombie]
  else x.proc = none

namespace Machine

variable {κ : Type}

structure CpuInv (s : Machine κ) : Prop where
  lock : ∀ c, (s.cpu c).loc.holding = true ↔ s.lock = some c
  ok : ∀ c, (s.cpu c).Ok s.proc
  running : ∀ p, (s.proc p).state = .running → ∃ c, (s.cpu c).proc = some p
  inj : ∀ c d p, (s.cpu c).proc = some p → (s.cpu d).proc = some p → c = d

/-- The machine without its CPUs. -/
def life (s : Machine κ) : Life := ⟨s.ptable, fun p => (s.thread p).fork, s.log⟩

theorem fork_child_embryo {s : Machine κ} (hf : s.life.ForkInv) {p np : Slot} {phase : ForkPhase}
    (h : (s.thread p).fork = phase) (hc : phase.child = some np) :
    (s.proc np).state = .embryo := by
  refine hf.embryo_state (p := p) ?_
  change (s.thread p).fork.child = some np
  rw [h, hc]

theorem CpuInv.active_running {s : Machine κ} (hi : CpuInv s) {c : κ} {p : Slot}
    (hl : (s.cpu c).loc.active = true) (hp : (s.cpu c).proc = some p) :
    (s.proc p).state = .running := by
  have hok := hi.ok c
  rw [Cpu.Ok, if_pos hl] at hok
  obtain ⟨q, hq, hrun⟩ := hok
  rw [hp] at hq
  cases hq
  exact hrun

theorem CpuInv.current_state {s : Machine κ} (hi : CpuInv s) {c : κ} {p : Slot}
    (hp : (s.cpu c).proc = some p) :
    (s.proc p).state = .running ∨ (s.cpu c).loc = .back ∧
      (s.proc p).state ∈ [ProcState.sleeping, .runnable, .zombie] := by
  have hok := hi.ok c
  unfold Cpu.Ok at hok
  split_ifs at hok with ha hb
  · exact Or.inl (hi.active_running ha hp)
  · obtain ⟨q, hq, hst⟩ := hok
    rw [hp] at hq
    cases hq
    exact Or.inr ⟨hb, hst⟩
  · rw [hp] at hok
    cases hok

theorem CpuInv.unique_holder {s : Machine κ} (hi : CpuInv s) {c d : κ}
    (hc : (s.cpu c).loc.holding = true) (hd : (s.cpu d).loc.holding = true) : c = d := by
  have h1 := (hi.lock c).mp hc
  have h2 := (hi.lock d).mp hd
  rw [h1] at h2
  exact Option.some.inj h2

theorem CpuInv.other_running {s : Machine κ} (hi : CpuInv s) {c d : κ} {p : Slot}
    (hc : (s.cpu c).loc.holding = true) (hne : d ≠ c) (hp : (s.cpu d).proc = some p) :
    (s.proc p).state = .running := by
  rcases hi.current_state hp with h | ⟨hb, -⟩
  · exact h
  · exact absurd (hi.unique_holder (by rw [hb]; rfl) hc) hne

theorem CpuInv.embryo_not_current {s : Machine κ} (hi : CpuInv s) {c : κ} {p : Slot}
    (hp : (s.proc p).state = .embryo) : (s.cpu c).proc ≠ some p := by
  intro hc
  rcases hi.current_state hc with h | ⟨-, h⟩ <;> simp [hp] at h

theorem CpuInv.store {s t : Machine κ} (hi : CpuInv s) (hcpu : t.cpu = s.cpu)
    (hlock : t.lock = s.lock)
    (hkeep : ∀ d p, (s.cpu d).proc = some p → (t.proc p).state = (s.proc p).state)
    (hrun : ∀ p, (t.proc p).state = .running → (s.proc p).state = .running) : CpuInv t := by
  refine ⟨fun c => ?_, fun c => ?_, fun p hp => ?_, fun c d p hc hd => ?_⟩
  · rw [hcpu, hlock, hi.lock c]
  · have hok := hi.ok c
    rw [hcpu]
    unfold Cpu.Ok at hok ⊢
    split_ifs at hok ⊢
    · obtain ⟨p, hp, hst⟩ := hok
      exact ⟨p, hp, (hkeep c p hp).trans hst⟩
    · obtain ⟨p, hp, hst⟩ := hok
      exact ⟨p, hp, by rwa [hkeep c p hp]⟩
    · exact hok
  · rw [hcpu]
    exact hi.running p (hrun p hp)
  · rw [hcpu] at hc hd
    exact hi.inj c d p hc hd

variable [DecidableEq κ]

theorem CpuInv.update {s t : Machine κ} {c : κ} {x : Cpu} (hi : CpuInv s)
    (hcpu : t.cpu = Function.update s.cpu c x)
    (hlock : x.loc.holding = true ↔ t.lock = some c)
    (hother : ∀ d, d ≠ c → (t.lock = some d ↔ s.lock = some d))
    (hok : x.Ok t.proc)
    (hkeep : ∀ d, d ≠ c → ∀ p, (s.cpu d).proc = some p → (t.proc p).state = (s.proc p).state)
    (hrun : ∀ p, (t.proc p).state = .running →
      x.proc = some p ∨ (s.proc p).state = .running ∧ (s.cpu c).proc ≠ some p)
    (hnew : ∀ p, x.proc = some p → ∀ d, d ≠ c → (s.cpu d).proc ≠ some p) : CpuInv t := by
  have hself : t.cpu c = x := by rw [hcpu, Function.update_self]
  have hne : ∀ d, d ≠ c → t.cpu d = s.cpu d := fun d hd => by
    rw [hcpu, Function.update_of_ne hd]
  refine ⟨fun d => ?_, fun d => ?_, fun p hp => ?_, fun d e p hd he => ?_⟩
  · by_cases hd : d = c
    · subst hd
      rw [hself]
      exact hlock
    · rw [hne d hd, hi.lock d, hother d hd]
  · by_cases hd : d = c
    · subst hd
      rwa [hself]
    · have hsok := hi.ok d
      rw [hne d hd]
      unfold Cpu.Ok at hsok ⊢
      split_ifs at hsok ⊢
      · obtain ⟨p, hp, hst⟩ := hsok
        exact ⟨p, hp, (hkeep d hd p hp).trans hst⟩
      · obtain ⟨p, hp, hst⟩ := hsok
        exact ⟨p, hp, by rwa [hkeep d hd p hp]⟩
      · exact hsok
  · rcases hrun p hp with h | ⟨h, hc⟩
    · exact ⟨c, by rw [hself, h]⟩
    · obtain ⟨d, hd⟩ := hi.running p h
      have hdc : d ≠ c := fun he => hc (he ▸ hd)
      exact ⟨d, by rw [hne d hdc, hd]⟩
  · by_cases h1 : d = c
    · by_cases h2 : e = c
      · rw [h1, h2]
      · subst h1
        rw [hself] at hd
        rw [hne e h2] at he
        exact absurd he (hnew p hd e h2)
    · by_cases h2 : e = c
      · subst h2
        rw [hself] at he
        rw [hne d h1] at hd
        exact absurd hd (hnew p he d h1)
      · rw [hne d h1] at hd
        rw [hne e h2] at he
        exact hi.inj d e p hd he

/-- A step that leaves the CPU with its process, in the scheduler or in the process as before. -/
theorem CpuInv.move {s t : Machine κ} {c : κ} (hi : CpuInv s) (loc : Loc)
    (hcpu : t.cpu = Function.update s.cpu c { s.cpu c with loc := loc })
    (hclass : loc.active = (s.cpu c).loc.active) (hb : loc ≠ .back) (hb' : (s.cpu c).loc ≠ .back)
    (hlock : loc.holding = true ↔ t.lock = some c)
    (hother : ∀ d, d ≠ c → (t.lock = some d ↔ s.lock = some d))
    (hkeep : ∀ d p, (s.cpu d).proc = some p → (t.proc p).state = (s.proc p).state)
    (hrun : ∀ p, (t.proc p).state = .running → (s.proc p).state = .running) : CpuInv t := by
  refine hi.update hcpu hlock hother ?_ (fun d _ => hkeep d) ?_ ?_
  · have hok := hi.ok c
    unfold Cpu.Ok at hok ⊢
    rw [hclass, if_neg hb]
    rw [if_neg hb'] at hok
    split_ifs at hok ⊢
    · obtain ⟨p, hp, hst⟩ := hok
      exact ⟨p, hp, (hkeep c p hp).trans hst⟩
    · exact hok
  · intro p hp
    by_cases hc : (s.cpu c).proc = some p
    · exact Or.inl hc
    · exact Or.inr ⟨hrun p hp, hc⟩
  · intro p hp d hd he
    exact hd (hi.inj d c p he hp)

theorem CpuInv.stay {s t : Machine κ} {c : κ} (hi : CpuInv s) (loc : Loc)
    (hcpu : t.cpu = Function.update s.cpu c { s.cpu c with loc := loc }) (hlock : t.lock = s.lock)
    (hclass : loc.active = (s.cpu c).loc.active ∧ loc.holding = (s.cpu c).loc.holding)
    (hb : loc ≠ .back) (hb' : (s.cpu c).loc ≠ .back)
    (hkeep : ∀ p, (t.proc p).state = (s.proc p).state) : CpuInv t := by
  refine hi.move loc hcpu hclass.1 hb hb' ?_ ?_ (fun _ p _ => hkeep p) fun p hp => ?_
  · rw [hclass.2, hi.lock c, hlock]
  · intro d _
    rw [hlock]
  · rwa [hkeep p] at hp

theorem CpuInv.take {s t : Machine κ} {c : κ} (hi : CpuInv s) (loc : Loc) (hfree : s.lock = none)
    (hcpu : t.cpu = Function.update s.cpu c { s.cpu c with loc := loc }) (hlock : t.lock = some c)
    (hclass : loc.active = (s.cpu c).loc.active ∧ loc.holding = true)
    (hb : loc ≠ .back) (hb' : (s.cpu c).loc ≠ .back) (hproc : t.proc = s.proc) : CpuInv t := by
  refine hi.move loc hcpu hclass.1 hb hb' ?_ ?_ (fun _ p _ => by rw [hproc]) fun p hp => ?_
  · rw [hclass.2, hlock]
    simp
  · intro d hd
    simp [hlock, hfree, Ne.symm hd]
  · rwa [hproc] at hp

theorem CpuInv.drop {s t : Machine κ} {c : κ} (hi : CpuInv s) (loc : Loc)
    (hhold : (s.cpu c).loc.holding = true)
    (hcpu : t.cpu = Function.update s.cpu c { s.cpu c with loc := loc }) (hlock : t.lock = none)
    (hclass : loc.active = (s.cpu c).loc.active ∧ loc.holding = false)
    (hb : loc ≠ .back) (hb' : (s.cpu c).loc ≠ .back) (hproc : t.proc = s.proc) : CpuInv t := by
  have hc : s.lock = some c := (hi.lock c).mp hhold
  refine hi.move loc hcpu hclass.1 hb hb' ?_ ?_ (fun _ p _ => by rw [hproc]) fun p hp => ?_
  · rw [hclass.2, hlock]
    simp
  · intro d hd
    simp [hlock, hc, Ne.symm hd]
  · rwa [hproc] at hp

/-- While a process holds the lock, only stores that keep the set of RUNNING slots are made in
its critical section. -/
theorem CpuInv.critical {s t : Machine κ} {c : κ} (hi : CpuInv s) (loc : Loc)
    (hact : (s.cpu c).loc.active = true) (hhold : (s.cpu c).loc.holding = true)
    (hcpu : t.cpu = Function.update s.cpu c { s.cpu c with loc := loc }) (hlock : t.lock = s.lock)
    (hloc : loc.active = true ∧ loc.holding = true)
    (hrun : ∀ q, (t.proc q).state = .running ↔ (s.proc q).state = .running) : CpuInv t := by
  refine hi.move loc hcpu ?_ ?_ ?_ ?_ ?_ ?_ fun q => (hrun q).mp
  · rw [hloc.1, hact]
  · rintro rfl
    cases hloc.1
  · intro hl
    rw [hl] at hact
    cases hact
  · rw [hloc.2, hlock, ← hi.lock c, hhold]
  · intro d _
    rw [hlock]
  · intro d q hq
    have hq' : (s.proc q).state = .running := by
      by_cases hd : d = c
      · subst hd
        exact hi.active_running hact hq
      · exact hi.other_running hhold hd hq
    rw [hq', (hrun q).mpr hq']

theorem CpuInv.switch {s t : Machine κ} {c : κ} {p : Slot} {op : Op} (hi : CpuInv s)
    (hc : s.cpu c = ⟨some p, .crit op⟩)
    (hcpu : t.cpu = Function.update s.cpu c { s.cpu c with loc := .back })
    (hlock : t.lock = s.lock)
    (hp : (t.proc p).state ∈ [ProcState.sleeping, .runnable, .zombie])
    (hrun : ∀ q, q ≠ p → ((t.proc q).state = .running ↔ (s.proc q).state = .running)) :
    CpuInv t := by
  have hl : (s.cpu c).loc = .crit op := by rw [hc]
  have hhold : (s.cpu c).loc.holding = true := by rw [hl]; rfl
  have hcp : (s.cpu c).proc = some p := by rw [hc]
  have hpr : (t.proc p).state ≠ .running := by
    intro h
    rw [h] at hp
    simp at hp
  refine hi.update hcpu ?_ ?_ ?_ ?_ ?_ ?_
  · rw [hlock, ← hi.lock c, hhold]
    simp [Loc.holding]
  · intro d _
    rw [hlock]
  · exact ⟨p, hcp, hp⟩
  · intro d hd q hq
    have hne : q ≠ p := fun he => hd (hi.inj d c p (he ▸ hq) hcp)
    have hq' := hi.other_running hhold hd hq
    rw [hq', (hrun q hne).mpr hq']
  · intro q hq
    have hne : q ≠ p := fun he => hpr (he ▸ hq)
    exact Or.inr ⟨(hrun q hne).mp hq, by rw [hcp]; exact fun h => hne (Option.some.inj h).symm⟩
  · intro q hq d hd he
    exact hd (hi.inj d c q he hq)

theorem wakeup1_running (chan : Option (Chan Slot)) (proc : Slot → Proc Slot) (q : Slot) :
    (wakeup1 chan proc q).state = .running ↔ (proc q).state = .running := by
  rw [wakeup1_state]
  split_ifs with h
  · simp [h.1]
  · rfl

theorem modify_running {proc : Slot → Proc Slot} {p : Slot} {f : Proc Slot → Proc Slot}
    (hp : (f (proc p)).state = .running ↔ (proc p).state = .running) (q : Slot) :
    (modify p f proc q).state = .running ↔ (proc q).state = .running := by
  rw [modify_state]
  split_ifs with hq
  · rw [hq, hp]
  · rfl

theorem CpuInv.body {s : Machine κ} {c : κ} {p : Slot} {op : Op} (hi : CpuInv s)
    (hf : s.life.ForkInv)
    (hc : s.cpu c = ⟨some p, .crit op⟩) : CpuInv (s.body c p op) := by
  have hact : (s.cpu c).loc.active = true := by rw [hc]; rfl
  have hhold : (s.cpu c).loc.holding = true := by rw [hc]; rfl
  cases op with
  | allocproc =>
      cases h : allocproc s.ptable with
      | none =>
          simp only [Machine.body, h]
          exact hi.critical _ hact hhold rfl rfl ⟨rfl, rfl⟩ fun q => Iff.rfl
      | some r =>
          obtain ⟨hun, -, hproc, -⟩ := allocproc_eq_some h
          simp only [Machine.body, h]
          refine hi.critical _ hact hhold rfl rfl ⟨rfl, rfl⟩ fun q => ?_
          change (r.2.proc q).state = .running ↔ _
          rw [hproc]
          exact modify_running (by simp [hun]) q
  | makeRunnable =>
      cases hph : (s.thread p).fork with
      | filled np =>
          have hnp := fork_child_embryo hf hph rfl
          simp only [Machine.body, hph]
          exact hi.critical _ hact hhold rfl rfl ⟨rfl, rfl⟩ (modify_running (by simp [hnp]))
      | none =>
          simpa only [Machine.body, hph] using hi
      | allocated np =>
          simpa only [Machine.body, hph] using hi
  | exit =>
      refine hi.switch hc rfl rfl ?_ fun q hq => ?_
      · change ((exitProc p s.ptable).proc p).state ∈ _
        simp
      · change ((exitProc p s.ptable).proc q).state = .running ↔ _
        rcases exitProc_state_cases p s.ptable hq with h | ⟨h1, h2⟩
        · rw [h]
        · simp [h1, h2]
  | wait =>
      cases h : waitScan p s.proc (List.finRange NPROC) false with
      | found q =>
          obtain ⟨-, hz⟩ := waitScan_found h
          simp only [Machine.body, waitTurn, h]
          exact hi.critical _ hact hhold rfl rfl ⟨rfl, rfl⟩ (modify_running (by simp [hz]))
      | noZombie havekids =>
          simp only [Machine.body, waitTurn, h]
          split_ifs
          · exact hi.critical _ hact hhold rfl rfl ⟨rfl, rfl⟩ fun q => Iff.rfl
          · refine hi.switch hc rfl rfl ?_ fun q hq => ?_
            · change (fallAsleep (.proc p) p s.proc p).state ∈ _
              simp [fallAsleep]
            · change (fallAsleep (.proc p) p s.proc q).state = .running ↔ _
              simp [fallAsleep, hq]
  | kill pid =>
      refine hi.critical _ hact hhold rfl rfl ⟨rfl, rfl⟩ fun q => ?_
      change ((kill pid s.ptable).1.proc q).state = .running ↔ _
      rcases kill_cases pid s.ptable with ⟨-, h⟩ | ⟨r, -, -, h⟩
      · rw [h]
      · rw [h]
        refine modify_running ?_ q
        dsimp only
        split_ifs with hs <;> simp [hs]
  | wakeup addr => exact hi.critical _ hact hhold rfl rfl ⟨rfl, rfl⟩ (wakeup1_running _ _)
  | yield =>
      refine hi.switch hc rfl rfl ?_ fun q hq => ?_
      · change (giveUp p s.proc p).state ∈ _
        simp [giveUp]
      · change (giveUp p s.proc q).state = .running ↔ _
        simp [giveUp, hq]
  | sleep addr =>
      refine hi.switch hc rfl rfl ?_ fun q hq => ?_
      · change (fallAsleep (.other addr) p s.proc p).state ∈ _
        simp [fallAsleep]
      · change (fallAsleep (.other addr) p s.proc q).state = .running ↔ _
        simp [fallAsleep, hq]
  | setpriority pid priority =>
      refine hi.critical _ hact hhold rfl rfl ⟨rfl, rfl⟩ fun q => ?_
      change ((setpriority pid priority s.ptable).1.proc q).state = .running ↔ _
      rcases setpriority_cases pid priority s.ptable with ⟨-, h⟩ | ⟨r, -, -, h⟩
      · rw [h]
      · rw [h]
        exact modify_running Iff.rfl q

theorem CpuInv.select {s : Machine κ} {c : κ} {p : Slot} (hi : CpuInv s)
    (hl : (s.cpu c).loc = .scan) (hp : (s.proc p).state = .runnable) :
    CpuInv ((s.setProc (setState .running p s.proc)).setCpu c ⟨some p, .resumed⟩) := by
  have hhold : (s.cpu c).loc.holding = true := by rw [hl]; rfl
  have hnone : (s.cpu c).proc = none := by
    have hok := hi.ok c
    simpa [Cpu.Ok, hl, Loc.active] using hok
  have hother : ∀ d, d ≠ c → (s.cpu d).proc ≠ some p := by
    intro d hd he
    have hrun := hi.other_running hhold hd he
    rw [hp] at hrun
    cases hrun
  refine hi.update rfl ?_ (fun _ _ => Iff.rfl) ?_ ?_ ?_ ?_
  · change _ ↔ s.lock = some c
    rw [← hi.lock c, hhold]
    simp [Loc.holding]
  · refine ⟨p, rfl, ?_⟩
    change (setState .running p s.proc p).state = .running
    simp [setState]
  · intro d hd q hq
    have hne : q ≠ p := fun he => hother d hd (he ▸ hq)
    change (setState .running p s.proc q).state = _
    simp [setState, hne]
  · intro q hq
    by_cases hne : q = p
    · exact Or.inl (by rw [hne])
    · change (setState .running p s.proc q).state = .running at hq
      refine Or.inr ⟨by simpa [setState, hne] using hq, ?_⟩
      rw [hnone]
      simp
  · intro q hq d hd
    cases hq
    exact hother d hd

theorem CpuInv.clear {s : Machine κ} {c : κ} (hi : CpuInv s) (hl : (s.cpu c).loc = .back) :
    CpuInv (s.setCpu c ⟨none, .unlock⟩) := by
  have hok := hi.ok c
  rw [Cpu.Ok, if_neg (by simp [hl, Loc.active]), if_pos hl] at hok
  obtain ⟨q, hq, hst⟩ := hok
  refine hi.update rfl ?_ (fun _ _ => Iff.rfl) rfl (fun _ _ _ _ => rfl) ?_ ?_
  · change _ ↔ s.lock = some c
    rw [← hi.lock c, hl]
    simp [Loc.holding]
  · intro p hp
    change (s.proc p).state = .running at hp
    refine Or.inr ⟨hp, fun he => ?_⟩
    rw [hq] at he
    cases he
    rw [hp] at hst
    simp at hst
  · intro p hp
    cases hp

theorem CpuInv.step {s t : Machine κ} {a : Act κ} (hi : CpuInv s) (hf : s.life.ForkInv)
    (h : s.step a = some t) : CpuInv t := by
  cases step_move h with
  | age hl =>
      exact hi.stay .loop rfl rfl (by rw [hl]; exact ⟨rfl, rfl⟩) (by simp) (by simp [hl])
        (age_field Proc.state (fun _ _ => rfl) _)
  | acquire hl hfree =>
      exact hi.take .scan hfree rfl rfl (by rw [hl]; exact ⟨rfl, rfl⟩) (by simp)
        (by simp [hl]) rfl
  | interrupt hl hfree =>
      exact hi.take _ hfree rfl rfl (by rw [hl]; exact ⟨rfl, rfl⟩) (by simp) (by simp [hl]) rfl
  | @wakeup c addr hl =>
      have hhold : (s.cpu c).loc.holding = true := by rw [hl]; rfl
      have hidle : (s.cpu c).proc = none := by simpa [Cpu.Ok, hl, Loc.active] using hi.ok c
      refine hi.move .unlock rfl (by rw [hl]; rfl) (by simp) (by simp [hl]) ?_ (fun _ _ => Iff.rfl)
        (fun d p hp => ?_) fun p hp => (wakeup1_running _ _ p).mp hp
      · exact iff_of_true rfl ((hi.lock c).mp hhold)
      · have hd : d ≠ c := by
          rintro rfl
          rw [hidle] at hp
          cases hp
        have hrun := hi.other_running hhold hd hp
        rw [hrun]
        exact (wakeup1_running _ _ p).mpr hrun
  | selectNone hl hn =>
      exact hi.stay .unlock rfl rfl (by rw [hl]; exact ⟨rfl, rfl⟩) (by simp)
        (by simp [hl]) fun _ => rfl
  | select hl hp => exact hi.select hl (highestPriorityProc_eq_some hp).1
  | clear hl => exact hi.clear hl
  | unlock hl =>
      exact hi.drop .loop (by rw [hl]; rfl) rfl rfl (by rw [hl]; exact ⟨rfl, rfl⟩)
        (by simp) (by simp [hl]) rfl
  | leave hl =>
      exact hi.drop .thread (by rw [hl]; rfl) rfl rfl (by rw [hl]; exact ⟨rfl, rfl⟩)
        (by simp) (by simp [hl]) rfl
  | @enter c p op hc hfree hop =>
      exact hi.take (.crit op) hfree rfl rfl (by rw [hc]; exact ⟨rfl, rfl⟩) (by simp)
        (by simp [hc]) rfl
  | body hc => exact hi.body hf hc
  | resume hc hr =>
      exact hi.critical .leave (by rw [hc]; rfl) (by rw [hc]; rfl) rfl rfl ⟨rfl, rfl⟩
        fun _ => Iff.rfl
  | resumeSleep hc hr =>
      exact hi.critical .leave (by rw [hc]; rfl) (by rw [hc]; rfl) rfl rfl ⟨rfl, rfl⟩
        (modify_running Iff.rfl)
  | resumeWait hc hr =>
      exact hi.critical (.crit .wait) (by rw [hc]; rfl) (by rw [hc]; rfl) rfl rfl
        ⟨rfl, rfl⟩ (modify_running Iff.rfl)
  | @forkFail c p np hc hph =>
      have hnp := fork_child_embryo hf hph rfl
      refine hi.store rfl rfl (fun d q hq => ?_) fun q hq => ?_
      · have hne : q ≠ np := fun he => hi.embryo_not_current hnp (he ▸ hq)
        change (setState .unused np s.proc q).state = _
        simp [setState, hne]
      · change (setState .unused np s.proc q).state = .running at hq
        by_cases hne : q = np
        · simp [setState, hne] at hq
        · simpa [setState, hne] using hq
  | @forkFill c p np hc hph =>
      have hst : ∀ q, (setParent (some p) np s.proc q).state = (s.proc q).state := by
        simp [setParent]
      exact hi.store rfl rfl (fun _ q _ => hst q) fun q hq => (hst q).symm.trans hq
  | @fault c p hc =>
      have hst : ∀ q, (modify p (fun x => { x with killed := true }) s.proc q).state =
          (s.proc q).state := by simp
      exact hi.store rfl rfl (fun _ q _ => hst q) fun q hq => (hst q).symm.trans hq

end Machine
end Xv6Fairness
