import Xv6Fairness.PipeBytes

/-!
# Who sleeps on a pipe

A process that sleeps on a pipe, or is about to, waits for a change that has not happened yet, or
the process that has made the change holds the lock and will call `wakeup`. One exit of `pipewrite`
breaks this: a writer that has stored bytes, finds the pipe full and is killed returns without a
`wakeup`.
-/

namespace Xv6Fairness

namespace Pipes

open Holders TransitionRuns

/-- The pipe gives those that use the end nothing to do but wait. -/
def Pipe.Stuck (q : Pipe) (writable : Bool) : Prop :=
  if writable then q.Full ∧ q.readopen = true else q.Empty ∧ q.writeopen = true

/-- The channel on which those that use the end sleep. -/
def sleepChan {ι : Type} (writable : Bool) : Chan ι := if writable then nwriteChan else nreadChan

namespace Pc

/-- The process has found the pipe stuck and still holds the lock. -/
def Bound (writable : Bool) : Pc → Bool
  | .writeFull _ _ | .writeSleep _ _ => writable
  | .readSleep _ => !writable
  | _ => false

def FallsOn (writable : Bool) : Pc → Bool
  | .writeFalling _ _ => writable
  | .readFalling _ => !writable
  | _ => false

def SleepsOn (writable : Bool) : Pc → Bool
  | .writeAsleep _ _ => writable
  | .readAsleep _ => !writable
  | _ => false

/-- The process wakes up those that sleep on the end before it releases the lock. -/
def Owes (writable : Bool) : Pc → Bool
  | .writeLoop _ _ | .writeFull _ _ | .writeDone _ => !writable
  | .readLoop _ _ | .readDone _ _ => writable
  | .closeWake w => w != writable
  | _ => false

/-- A killed writer that finds the pipe full. -/
def Abandons (q : Pipe) (killed : Bool) : Pc → Prop
  | .writeLoop msg i => i < msg.length ∧ q.Full ∧ q.readopen = true ∧ killed = true
  | _ => False

instance (q : Pipe) (killed : Bool) (pc : Pc) : Decidable (pc.Abandons q killed) := by
  unfold Abandons
  split <;> infer_instance

end Pc

section Code

variable {ι : Type} {q : Pipe} {killed w : Bool} {pc pc' : Pc} {op : Op ι}

theorem next_owes (h : pc.next q killed = some (op, pc')) (howes : pc.Owes w = true) :
    pc'.Owes w = true ∨ op = .wakeup (sleepChan w) ∨
      w = false ∧ (q.readopen = false ∨ pc.Abandons q killed) := by
  cases branch_of_next h with
  | abandoned hi hfull hleave =>
      obtain rfl : w = false := by simpa [Pc.Owes] using howes
      by_cases hopen : q.readopen = false
      · exact .inr (.inr ⟨rfl, .inl hopen⟩)
      · exact .inr (.inr ⟨rfl, .inr ⟨hi, hfull, Bool.eq_true_of_not_eq_false hopen,
          hleave.resolve_left hopen⟩⟩)
  | written | full | put | get | stop => exact .inl howes
  | writeFull | writeDone =>
      obtain rfl : w = false := by simpa [Pc.Owes] using howes
      exact .inr (.inl rfl)
  | readDone =>
      obtain rfl : w = true := howes
      exact .inr (.inl rfl)
  | @closeWake w' =>
      refine .inr (.inl ?_)
      cases w <;> cases w' <;> first | rfl | cases howes
  | _ => cases howes

theorem next_stuck (h : pc.next q killed = some (op, pc')) (hstuck : q.Stuck w) :
    (op.pipe q).Stuck w ∨ pc'.Owes w = true := by
  cases op with
  | put b =>
      obtain ⟨hfull, msg, i, rfl, rfl⟩ := next_put h
      cases w
      · exact .inr rfl
      · exact absurd hstuck.1 hfull
  | get =>
      obtain ⟨hempty, n, i, rfl, rfl⟩ := next_get h
      cases w
      · exact absurd hstuck.1 hempty
      · exact .inr rfl
  | close w' =>
      obtain ⟨rfl, rfl⟩ : pc = .closeMark w' ∧ pc' = .closeWake w' := next_close h
      cases w <;> cases w'
      · exact .inl hstuck
      · exact .inr rfl
      · exact .inr rfl
      · exact .inl hstuck
  | _ => exact .inl hstuck

theorem next_bound (h : pc.next q killed = some (op, pc')) (hbound : pc.Bound w = true → q.Stuck w)
    (hbound' : pc'.Bound w = true) : op.pipe q = q ∧ q.Stuck w := by
  cases branch_of_next h with
  | full hfull hstay =>
      obtain rfl : w = true := hbound'
      exact ⟨rfl, hfull, Bool.eq_true_of_not_eq_false fun hclosed => hstay (.inl hclosed)⟩
  | writeFull => exact ⟨rfl, hbound hbound'⟩
  | readWaits hwait =>
      obtain rfl : w = false := by simpa [Pc.Bound] using hbound'
      exact ⟨rfl, hwait⟩
  | _ => cases hbound'

theorem next_fallsOn (h : pc.next q killed = some (op, pc')) (hfalls : pc'.FallsOn w = true) :
    op = .sleepLock ∧ pc.Bound w = true := by
  cases branch_of_next h with
  | writeSleep | readSleep => exact ⟨rfl, hfalls⟩
  | _ => cases hfalls

theorem next_sleepsOn (h : pc.next q killed = some (op, pc')) (hsleeps : pc'.SleepsOn w = true) :
    op = .fallAsleep (sleepChan w) ∧ pc.FallsOn w = true := by
  cases branch_of_next h with
  | writeFalling =>
      obtain rfl : w = true := hsleeps
      exact ⟨rfl, rfl⟩
  | readFalling =>
      obtain rfl : w = false := by simpa [Pc.SleepsOn] using hsleeps
      exact ⟨rfl, rfl⟩
  | _ => cases hsleeps

theorem next_wakes (h : pc.next q killed = some (op, pc')) (hsleeps : pc.SleepsOn w = true) :
    op = .resume := by
  cases branch_of_next h with
  | writeAsleep | readAsleep => rfl
  | _ => cases hsleeps

theorem next_falls {chan : Chan ι} (h : pc.next q killed = some (.fallAsleep chan, pc')) :
    ∃ w, pc'.SleepsOn w = true := by
  cases branch_of_next h with
  | writeFalling => exact ⟨true, rfl⟩
  | readFalling => exact ⟨false, rfl⟩

theorem next_uses (h : pc.next q killed = some (op, pc')) (huses : pc'.Uses w = true) :
    pc.Uses w = true ∧ ∀ w', op ≠ .close w' := by
  cases branch_of_next h
  all_goals first | (cases huses; done) | exact ⟨huses, nofun⟩

theorem next_closes (h : pc.next q killed = some (op, pc')) (hcloses : pc'.Closes w = true) :
    pc.Closes w = true := by
  cases branch_of_next h
  all_goals first | exact hcloses | cases hcloses

theorem Op.isOpen_pipe (hop : ∀ w', op ≠ .close w') :
    (op.pipe q).isOpen w = q.isOpen w := by
  cases op with
  | close w' => exact absurd rfl (hop w')
  | _ => rfl

end Code

theorem Pc.locks_of_bound {w : Bool} {pc : Pc} (h : pc.Bound w = true) : pc.Locks = true := by
  cases pc
  all_goals first | rfl | cases h

theorem Pc.locks_of_owes {w : Bool} {pc : Pc} (h : pc.Owes w = true) : pc.Locks = true := by
  cases pc
  all_goals first | rfl | cases h

theorem Pc.not_closes_of_uses {w w' : Bool} {pc : Pc}
    (h : pc.Uses w = true) : pc.Closes w' = false := by
  cases pc
  all_goals first | rfl | cases h

theorem Pc.uses_of_fallsOn {w : Bool} {pc : Pc} (h : pc.FallsOn w = true) : pc.Uses w = true := by
  cases pc
  all_goals first | exact h | cases h

theorem Pc.uses_of_sleepsOn {w : Bool} {pc : Pc} (h : pc.SleepsOn w = true) : pc.Uses w = true := by
  cases pc
  all_goals first | exact h | cases h

theorem Pc.sleepsOn_of_uses {w w' : Bool} {pc : Pc} (h : pc.SleepsOn w' = true)
    (huses : pc.Uses w = true) : pc.SleepsOn w = true := by
  cases pc
  all_goals first | exact huses | cases h

theorem Pc.not_owes_of_fallsOn {w w' : Bool} {pc : Pc} (h : pc.FallsOn w = true) :
    pc.Owes w' = false := by
  cases pc
  all_goals first | rfl | cases h

theorem Pc.falls_of_fallsOn {w : Bool} {pc : Pc} (h : pc.FallsOn w = true) : pc.Falls = true := by
  cases pc
  all_goals first | rfl | cases h

section Sleepers

variable {ι : Type} [DecidableEq ι] [Fintype ι] {s t : State ι} {p r : ι} {op : Op ι} {pc : Pc}
  {w : Bool}

/-- The process sleeps in a call that uses the end, or is about to. -/
def State.Rests (s : State ι) (p : ι) (w : Bool) : Prop :=
  (s.pc p).FallsOn w = true ∨ (s.pc p).SleepsOn w = true ∧ (s.proc p).state = .sleeping

instance (s : State ι) (p : ι) (w : Bool) : Decidable (s.Rests p w) :=
  inferInstanceAs (Decidable (_ ∨ _ ∧ _))

omit [DecidableEq ι] [Fintype ι] in
theorem uses_of_rests (h : s.Rests p w) : (s.pc p).Uses w = true := by
  rcases h with h | ⟨h, -⟩
  · exact Pc.uses_of_fallsOn h
  · exact Pc.uses_of_sleepsOn h

/-- What a step does to the entries of processes that sleep behind it. -/
structure Disturbs (s t : State ι) (op : Option (Op ι)) (r : ι) : Prop where
  state : (s.proc r).state = .sleeping
  chan : (t.proc r).chan = (s.proc r).chan
  wakeup : ∀ chan, op = some (.wakeup chan) → (s.proc r).chan ≠ some chan

omit [Fintype ι] in
theorem exec_proc (h : s.exec p op = some t) (hr : r ≠ p ∨ ∀ chan, op ≠ .fallAsleep chan)
    (hsleep : (t.proc r).state = .sleeping) : Disturbs s t (some op) r := by
  cases op with
  | wakeup chan =>
      obtain ⟨-, h⟩ := Option.ite_none_right_eq_some.mp h
      cases h
      have hstate := wakeup1_state (some chan) s.proc r
      split_ifs at hstate with hwoken
      · cases hsleep.symm.trans hstate
      · have hsleep' : (s.proc r).state = .sleeping := hstate.symm.trans hsleep
        refine ⟨hsleep', wakeup1_chan _ _ _, ?_⟩
        rintro c ⟨⟩ hchan
        exact hwoken ⟨hsleep', hchan⟩
  | resume =>
      obtain ⟨⟨-, hrun⟩, h⟩ := Option.ite_none_right_eq_some.mp h
      cases h
      by_cases hrp : r = p
      · subst hrp
        simp [tidyUp, setState] at hsleep
      · have hproc : tidyUp p (setState .running p s.proc) r = s.proc r := by
          simp [tidyUp, setState, hrp]
        change (tidyUp p (setState .running p s.proc) r).state = _ at hsleep
        rw [hproc] at hsleep
        refine ⟨hsleep, congrArg Proc.chan hproc, ?_⟩
        rintro c ⟨⟩
  | fallAsleep chan =>
      cases h
      have hrp : r ≠ p := hr.resolve_right fun hop => hop chan rfl
      have hproc : fallAsleep chan p s.proc r = s.proc r := modify_of_ne hrp _ _
      change (fallAsleep chan p s.proc r).state = _ at hsleep
      rw [hproc] at hsleep
      refine ⟨hsleep, congrArg Proc.chan hproc, ?_⟩
      rintro c ⟨⟩
  | acquire | sleepLock =>
      obtain ⟨-, h⟩ := Option.ite_none_right_eq_some.mp h
      cases h
      refine ⟨hsleep, rfl, ?_⟩
      rintro c ⟨⟩
  | release | test | put b | get | close w =>
      cases h
      refine ⟨hsleep, rfl, ?_⟩
      rintro c ⟨⟩

/-- Where sleepers are, and what they wait for. -/
structure Placed (s : State ι) : Prop where
  channel : ∀ p w, (s.pc p).SleepsOn w = true → (s.proc p).state = .sleeping →
    (s.proc p).chan = some (sleepChan w)
  awake : ∀ p, (s.proc p).state = .sleeping → s.pc p = .idle ∨ ∃ w, (s.pc p).SleepsOn w = true

omit [DecidableEq ι] [Fintype ι] in
theorem Initial.placed (h : Initial s) : Placed s := by
  refine ⟨fun p w hp => ?_, fun p _ => .inl (h.pc p)⟩
  rw [h.pc p] at hp
  cases hp

theorem Pc.not_sleepsOn_of_enters {pc : Pc} (h : pc.Enters = true) : pc.SleepsOn w = false := by
  cases pc
  all_goals first | rfl | cases h

theorem Placed.step {a : Act ι} (hs : Placed s) (h : s.step a = some t) : Placed t := by
  cases step_move h with
  | @start _ p pc _ hp hawake _ henters _ _ =>
      refine ⟨fun r w hr hsleep => ?_, fun r hsleep => ?_⟩
      · change (Function.update s.pc p pc r).SleepsOn w = true at hr
        by_cases hrp : r = p
        · rw [hrp, Function.update_self, Pc.not_sleepsOn_of_enters henters] at hr
          cases hr
        · rw [Function.update_of_ne hrp] at hr
          exact hs.channel r w hr hsleep
      · change Function.update s.pc p pc r = .idle ∨ _
        have hrp : r ≠ p := fun heq => hawake (heq ▸ hsleep)
        change _ ∨ ∃ w, (Function.update s.pc p pc r).SleepsOn w = true
        rw [Function.update_of_ne hrp]
        exact hs.awake r hsleep
  | @kill p hfree =>
      have hproc : ∀ r, (killProc p s.proc r).state = .sleeping →
          (s.proc r).state = .sleeping ∧ (killProc p s.proc r).chan = (s.proc r).chan := by
        intro r hsleep
        rw [killProc, modify_state] at hsleep
        refine ⟨?_, by simp [killProc]⟩
        split_ifs at hsleep
        all_goals exact hsleep
      refine ⟨fun r w hr hsleep => ?_, fun r hsleep => hs.awake r (hproc r hsleep).1⟩
      obtain ⟨hsleep', hchan⟩ := hproc r hsleep
      exact hchan.trans (hs.channel r w hr hsleep')
  | @other p x hp =>
      refine ⟨fun r w hr hsleep => ?_, fun r hsleep => ?_⟩
      · have hrp : r ≠ p := by
          rintro rfl
          rcases hp with hp | ⟨hp, -⟩
          · have hr' : (s.pc r).SleepsOn w = true := hr
            rw [hp] at hr'
            cases hr'
          · exact Bool.false_ne_true ((Pc.not_sleepsOn_of_enters hp).symm.trans hr)
        change (Function.update s.proc p x r).state = _ at hsleep
        change (Function.update s.proc p x r).chan = _
        rw [Function.update_of_ne hrp] at hsleep ⊢
        exact hs.channel r w hr hsleep
      · change (Function.update s.proc p x r).state = _ at hsleep
        by_cases hrp : r = p
        · rw [hrp, Function.update_self] at hsleep
          rw [hrp]
          exact .inl (hp.resolve_right fun h => h.2 hsleep)
        · rw [Function.update_of_ne hrp] at hsleep
          exact hs.awake r hsleep
  | @run p op pc u hnext hexec =>
      have hpc := exec_pc hexec
      refine ⟨fun r w hr hsleep => ?_, fun r hsleep => ?_⟩
      · change (Function.update u.pc p pc r).SleepsOn w = true at hr
        change (u.proc r).state = .sleeping at hsleep
        change (u.proc r).chan = _
        by_cases hrp : r = p
        · rw [hrp, Function.update_self] at hr
          obtain ⟨rfl, -⟩ := next_sleepsOn hnext hr
          cases hexec
          rw [hrp]
          simp [fallAsleep]
        · rw [Function.update_of_ne hrp, hpc] at hr
          obtain ⟨hsleep', hchan, -⟩ := exec_proc hexec (.inl hrp) hsleep
          exact hchan.trans (hs.channel r w hr hsleep')
      · change Function.update u.pc p pc r = .idle ∨
          ∃ w, (Function.update u.pc p pc r).SleepsOn w = true
        change (u.proc r).state = .sleeping at hsleep
        by_cases hrp : r = p
        · subst hrp
          rw [Function.update_self]
          by_cases hfall : ∀ chan, op ≠ .fallAsleep chan
          · exfalso
            obtain ⟨hsleep', -, -⟩ := exec_proc hexec (.inr hfall) hsleep
            rcases hs.awake r hsleep' with hidle | ⟨w, hw⟩
            · rw [hidle] at hnext
              cases hnext
            · cases next_wakes hnext hw
              obtain ⟨⟨-, hrun⟩, -⟩ := Option.ite_none_right_eq_some.mp hexec
              cases hsleep'.symm.trans hrun
          · obtain ⟨chan, hop⟩ := not_forall_not.mp hfall
            subst hop
            exact .inr (next_falls hnext)
        · rw [Function.update_of_ne hrp, hpc]
          exact hs.awake r (exec_proc hexec (.inl hrp) hsleep).state

end Sleepers

section Ends

variable {ι : Type} [DecidableEq ι] [Fintype ι] {s t : State ι}

/-- An end in use is open and nobody closes it. -/
def Open (s : State ι) : Prop := ∀ p w, (s.pc p).Uses w = true → s.mayUse w

omit [DecidableEq ι] [Fintype ι] in
theorem Initial.open (h : Initial s) : Open s := by
  intro p w hp
  rw [h.pc p] at hp
  cases hp

theorem Open.step {a : Act ι} (hs : Open s) (h : s.step a = some t) : Open t := by
  cases step_move h with
  | @start _ p pc w hp _ huse henters hpc hother =>
      have huses : ∀ w', pc.Uses w' = true → w' = w := fun w' h => by
        by_contra hne
        rw [Bool.eq_not_of_ne hne, hother.1] at h
        cases h
      have hcloses : ∀ w', pc.Closes w' = true → w' = w := fun w' h => by
        by_contra hne
        rw [Bool.eq_not_of_ne hne, hother.2] at h
        cases h
      intro r w' hr
      change (Function.update s.pc p pc r).Uses w' = true at hr
      by_cases hrp : r = p
      · rw [hrp, Function.update_self] at hr
        obtain rfl := huses w' hr
        refine ⟨huse.1, fun q => ?_⟩
        change (Function.update s.pc p pc q).Closes w' = false
        by_cases hqp : q = p
        · rw [hqp, Function.update_self]
          exact Pc.not_closes_of_uses hr
        · rw [Function.update_of_ne hqp]
          exact huse.2 q
      · rw [Function.update_of_ne hrp] at hr
        refine ⟨(hs r w' hr).1, fun q => ?_⟩
        change (Function.update s.pc p pc q).Closes w' = false
        by_cases hqp : q = p
        · rw [hqp, Function.update_self]
          by_contra hclose
          have hclose' := Bool.eq_true_of_not_eq_false hclose
          obtain rfl := hcloses w' hclose'
          rcases hpc with hpc | ⟨-, hnone⟩
          · exact hclose (Pc.not_closes_of_uses hpc)
          · exact Bool.false_ne_true ((hnone r).symm.trans hr)
        · rw [Function.update_of_ne hqp]
          exact (hs r w' hr).2 q
  | kill | other => exact hs
  | @run p op pc u hnext hexec =>
      have hpc := exec_pc hexec
      intro r w hr
      have huse : s.mayUse w := by
        change (Function.update u.pc p pc r).Uses w = true at hr
        by_cases hrp : r = p
        · rw [hrp, Function.update_self] at hr
          exact hs p w (next_uses hnext hr).1
        · rw [Function.update_of_ne hrp, hpc] at hr
          exact hs r w hr
      refine ⟨?_, fun q => ?_⟩
      · change u.pipe.isOpen w = true
        rw [exec_pipe hexec]
        by_cases hop : ∀ w', op ≠ .close w'
        · rw [Op.isOpen_pipe hop]
          exact huse.1
        · obtain ⟨w', hop⟩ := not_forall_not.mp hop
          subst hop
          have hmark := (next_close hnext).1
          have hne : w' ≠ w := fun heq => by
            have hclosed := huse.2 p
            rw [hmark, heq] at hclosed
            simp [Pc.Closes] at hclosed
          have hopen := huse.1
          cases w <;> cases w' <;> first | exact hopen | exact absurd rfl hne
      · change (Function.update u.pc p pc q).Closes w = false
        by_cases hqp : q = p
        · rw [hqp, Function.update_self]
          by_contra hclose
          exact Bool.false_ne_true ((huse.2 p).symm.trans
            (next_closes hnext (Bool.eq_true_of_not_eq_false hclose)))
        · rw [Function.update_of_ne hqp, hpc]
          exact huse.2 q

end Ends

section Waits

variable {ι : Type} [DecidableEq ι] [Fintype ι] {s t u : State ι} {p r : ι} {op : Op ι} {pc : Pc}
  {w : Bool}

structure Waits (s : State ι) : Prop where
  bound : ∀ p w, (s.pc p).Bound w = true → s.pipe.Stuck w
  rests : ∀ p w, s.Rests p w → s.pipe.Stuck w ∨ ∃ q, (s.pc q).Owes w = true

/-- No killed writer leaves a full pipe while a process sleeps in `piperead`, or is about to. -/
def LeavesNone (s : State ι) : Act ι → Prop
  | .run p => (s.pc p).Abandons s.pipe (s.proc p).killed → ∀ r, ¬ s.Rests r false
  | _ => True

instance (s : State ι) : DecidablePred (LeavesNone s) := fun a =>
  match a with
  | .run _ => inferInstanceAs (Decidable (_ → _))
  | .write _ _ | .read _ _ | .close _ _ | .kill _ | .other _ _ => inferInstanceAs (Decidable True)

omit [DecidableEq ι] [Fintype ι] in
theorem Initial.waits (h : Initial s) : Waits s := by
  refine ⟨fun p w hp => ?_, fun p w hp => ?_⟩
  · rw [h.pc p] at hp
    cases hp
  · rw [State.Rests, h.pc p] at hp
    rcases hp with hp | ⟨hp, -⟩
    · cases hp
    · cases hp

omit [Fintype ι] in
theorem rests_before (hlocked : Locked s) (hplaced : Placed s) (hexec : s.exec p op = some u)
    (hrp : r ≠ p) (hr : (u.goto p pc).Rests r w) : s.Rests r w ∧ op ≠ .wakeup (sleepChan w) := by
  have hpc : (u.goto p pc).pc r = s.pc r :=
    (Function.update_of_ne hrp _ _).trans (congrFun (exec_pc hexec) r)
  rw [State.Rests, hpc] at hr
  rcases hr with hfalls | ⟨hsleeps, hstate⟩
  · refine ⟨.inl hfalls, ?_⟩
    rintro rfl
    obtain ⟨hfree, -⟩ := Option.ite_none_right_eq_some.mp hexec
    have hheld := (hlocked.ptableLock r).mp (Pc.falls_of_fallsOn hfalls)
    cases hfree.symm.trans hheld
  · obtain ⟨hstate', -, hwoken⟩ := exec_proc hexec (.inl hrp) hstate
    refine ⟨.inr ⟨hsleeps, hstate'⟩, ?_⟩
    rintro rfl
    exact hwoken _ rfl (hplaced.channel r w hsleeps hstate')

omit [Fintype ι] in
theorem Waits.run {killed : Bool} (hs : Waits s) (hlocked : Locked s) (hplaced : Placed s)
    (hopen : Open s) (hnext : (s.pc p).next s.pipe killed = some (op, pc))
    (hexec : s.exec p op = some u)
    (hleave : (s.pc p).Abandons s.pipe killed → ∀ r, ¬ s.Rests r false) : Waits (u.goto p pc) := by
  have hself : (u.goto p pc).pc p = pc := Function.update_self _ _ _
  have hother : ∀ r, r ≠ p → (u.goto p pc).pc r = s.pc r := fun r hrp =>
    (Function.update_of_ne hrp _ _).trans (congrFun (exec_pc hexec) r)
  have hpipe : (u.goto p pc).pipe = op.pipe s.pipe := exec_pipe (t := u) hexec
  refine ⟨fun r w hr => ?_, fun r w hr => ?_⟩
  · rw [hpipe]
    by_cases hrp : r = p
    · rw [hrp, hself] at hr
      obtain ⟨heq, hstuck⟩ := next_bound hnext (hs.bound p w) hr
      rw [heq]
      exact hstuck
    · rw [hother r hrp] at hr
      have hfree : (s.pc p).Locks = false := Bool.eq_false_iff.mpr fun hp =>
        hrp (hlocked.lock.unique (Pc.locks_of_bound hr) hp)
      have hbefore : op.before.1 = false := by
        rw [← congrArg Prod.fst (next_places hnext).1]
        exact hfree
      rw [Op.pipe_eq hbefore]
      exact hs.bound r w hr
  · have hafter (hcause : s.pipe.Stuck w ∨ ∃ q, q ≠ p ∧ (s.pc q).Owes w = true) :
        (u.goto p pc).pipe.Stuck w ∨ ∃ q, ((u.goto p pc).pc q).Owes w = true := by
      rcases hcause with hstuck | ⟨q, hqp, howes⟩
      · rw [hpipe]
        refine (next_stuck hnext hstuck).imp_right fun howes => ⟨p, ?_⟩
        rw [hself]
        exact howes
      · refine .inr ⟨q, ?_⟩
        rw [hother q hqp]
        exact howes
    by_cases hrp : r = p
    · rw [State.Rests, hrp, hself] at hr
      rcases hr with hfalls | ⟨hsleeps, -⟩
      · exact hafter (.inl (hs.bound p w (next_fallsOn hnext hfalls).2))
      · have hfalls := (next_sleepsOn hnext hsleeps).2
        refine hafter ((hs.rests p w (.inl hfalls)).imp_right fun ⟨q, howes⟩ => ⟨q, ?_, howes⟩)
        rintro rfl
        rw [Pc.not_owes_of_fallsOn hfalls] at howes
        cases howes
    · obtain ⟨hr', hwoken⟩ := rests_before hlocked hplaced hexec hrp hr
      rcases hs.rests r w hr' with hstuck | ⟨q, howes⟩
      · exact hafter (.inl hstuck)
      · by_cases hqp : q = p
        · subst hqp
          rcases next_owes hnext howes with howes' | hwakes | ⟨rfl, hclosed | habandons⟩
          · refine .inr ⟨q, ?_⟩
            rw [hself]
            exact howes'
          · exact absurd hwakes hwoken
          · have hopened : s.pipe.readopen = true := (hopen r false (uses_of_rests hr')).1
            cases hclosed.symm.trans hopened
          · exact absurd hr' (hleave habandons r)
        · exact hafter (.inr ⟨q, hqp, howes⟩)

omit [DecidableEq ι] [Fintype ι] in
theorem Waits.still (hs : Waits s) (hpipe : t.pipe = s.pipe)
    (hbound : ∀ p w, (t.pc p).Bound w = true → (s.pc p).Bound w = true)
    (hrests : ∀ p w, t.Rests p w → s.Rests p w)
    (howes : ∀ p w, (s.pc p).Owes w = true → (t.pc p).Owes w = true) : Waits t := by
  refine ⟨fun p w hp => ?_, fun p w hp => ?_⟩
  · rw [hpipe]
    exact hs.bound p w (hbound p w hp)
  · rw [hpipe]
    exact (hs.rests p w (hrests p w hp)).imp_right fun ⟨q, hq⟩ => ⟨q, howes q w hq⟩

theorem Waits.step {a : Act ι} (hs : Waits s) (hlocked : Locked s) (hplaced : Placed s)
    (hopen : Open s) (hleave : LeavesNone s a) (h : s.step a = some t) : Waits t := by
  cases step_move h with
  | @start _ p pc _ hp _ _ henters _ _ =>
      have hcases (r : ι) : r = p ∧ (s.goto p pc).pc r = pc ∨ (s.goto p pc).pc r = s.pc r := by
        by_cases hrp : r = p
        · exact .inl ⟨hrp, hrp ▸ Function.update_self _ _ _⟩
        · exact .inr (Function.update_of_ne hrp _ _)
      refine hs.still rfl (fun r w hr => ?_) (fun r w hr => ?_) fun r w hr => ?_
      · rcases hcases r with ⟨-, heq⟩ | heq
        · rw [heq] at hr
          cases (Enters.places henters).1.symm.trans (Pc.locks_of_bound hr)
        · rwa [heq] at hr
      · rcases hcases r with ⟨-, heq⟩ | heq
        · rw [State.Rests, heq] at hr
          rcases hr with hr | ⟨hr, -⟩
          · cases (Enters.places henters).2.symm.trans (Pc.falls_of_fallsOn hr)
          · cases (Pc.not_sleepsOn_of_enters henters).symm.trans hr
        · rwa [State.Rests, heq] at hr
      · rcases hcases r with ⟨hrp, -⟩ | heq
        · rw [hrp, hp] at hr
          cases hr
        · rwa [heq]
  | @kill p hfree =>
      refine hs.still rfl (fun _ _ hr => hr) (fun r w hr => ?_) fun _ _ hr => hr
      refine hr.imp_right fun ⟨hsleeps, hstate⟩ => ⟨hsleeps, ?_⟩
      change (killProc p s.proc r).state = _ at hstate
      rw [killProc, modify_state] at hstate
      split_ifs at hstate
      all_goals exact hstate
  | @other p x hp =>
      refine hs.still rfl (fun _ _ hr => hr) (fun r w hr => ?_) fun _ _ hr => hr
      refine hr.imp_right fun ⟨hsleeps, hstate⟩ => ⟨hsleeps, ?_⟩
      have hrp : r ≠ p := by
        rintro rfl
        rcases hp with hp | ⟨hp, -⟩
        · have hsleeps' : (s.pc r).SleepsOn w = true := hsleeps
          rw [hp] at hsleeps'
          cases hsleeps'
        · cases (Pc.not_sleepsOn_of_enters hp).symm.trans hsleeps
      exact (congrArg Proc.state (Function.update_of_ne hrp _ _)).symm.trans hstate
  | @run p op pc u hnext hexec =>
      exact hs.run hlocked hplaced hopen hnext hexec hleave

end Waits

section Stores

variable {ι : Type} [DecidableEq ι] [Fintype ι] {s t : State ι} {p : ι} {msg : List UInt8} {i k : ℕ}

/-- The writer `p` has stored `k` bytes more and is still in its loop. -/
structure Stores (s : State ι) (p : ι) (msg : List UInt8) (i k : ℕ) (t : State ι) : Prop where
  ptableLock : t.ptableLock = s.ptableLock
  proc : t.proc = s.proc
  other : ∀ r, r ≠ p → t.pc r = s.pc r
  pc : t.pc p = .writeLoop msg (i + k)
  nread : t.pipe.nread = s.pipe.nread
  nwrite : t.pipe.nwrite = s.pipe.nwrite + UInt32.ofNat k

theorem step_of_next {op : Op ι} {pc : Pc}
    (hnext : (s.pc p).next s.pipe (s.proc p).killed = some (op, pc))
    (hexec : s.exec p op = some t) : s.step (.run p) = some (t.goto p pc) := by
  rw [State.step, hnext]
  change (s.exec p op).bind (fun t => some (t.goto p pc)) = _
  rw [hexec, Option.bind_some]

theorem exists_stores_one (hpc : s.pc p = .writeLoop msg i) (hi : i < msg.length)
    (hroom : ¬ s.pipe.Full) : ∃ t, s.step (.run p) = some t ∧ Stores s p msg i 1 t := by
  obtain ⟨b, hb⟩ : ∃ b, msg[i]? = some b := ⟨_, List.getElem?_eq_getElem hi⟩
  have hnext : (s.pc p).next s.pipe (s.proc p).killed =
      some ((.put b : Op ι), .writeLoop msg (i + 1)) := by
    rw [hpc, Pc.next, hb]
    exact if_neg hroom
  refine ⟨_, step_of_next hnext rfl, rfl, rfl, fun r hr => ?_, ?_, rfl, rfl⟩
  · exact Function.update_of_ne hr _ _
  · exact Function.update_self _ _ _

omit [DecidableEq ι] [Fintype ι] in
theorem Stores.trans {j : ℕ} {u : State ι} (h : Stores s p msg i j t)
    (h' : Stores t p msg (i + j) k u) :
    Stores s p msg i (j + k) u where
  ptableLock := h'.ptableLock.trans h.ptableLock
  proc := h'.proc.trans h.proc
  other r hr := (h'.other r hr).trans (h.other r hr)
  pc := h'.pc.trans (by rw [Nat.add_assoc])
  nread := h'.nread.trans h.nread
  nwrite := by rw [h'.nwrite, h.nwrite, UInt32.ofNat_add, UInt32.add_assoc]

theorem exists_stores (hpc : s.pc p = .writeLoop msg i) (hlen : i + k ≤ msg.length)
    (hroom : ∀ j < k, s.pipe.nwrite + UInt32.ofNat j ≠ s.pipe.nread + UInt32.ofNat PIPESIZE) :
    ∃ t, execute State.step s (List.replicate k (.run p)) = some t ∧ Stores s p msg i k t := by
  induction k generalizing s i with
  | zero => exact ⟨s, rfl, rfl, rfl, fun _ _ => rfl, hpc, rfl, (UInt32.add_zero _).symm⟩
  | succ k ih =>
      have hfirst : ¬ s.pipe.Full := by
        intro hfull
        exact hroom 0 (Nat.succ_pos k) ((UInt32.add_zero _).trans hfull)
      obtain ⟨t, hstep, ht⟩ := exists_stores_one hpc (by omega) hfirst
      have hroom' : ∀ j < k,
          t.pipe.nwrite + UInt32.ofNat j ≠ t.pipe.nread + UInt32.ofNat PIPESIZE := by
        intro j hj
        rw [ht.nread, ht.nwrite, UInt32.add_assoc, ← UInt32.ofNat_add, Nat.add_comm 1 j]
        exact hroom (j + 1) (by omega)
      obtain ⟨u, hrun, hu⟩ := ih ht.pc (by omega) hroom'
      refine ⟨u, ?_, Nat.add_comm 1 k ▸ ht.trans hu⟩
      rw [List.replicate_succ, execute, hstep, Option.bind_some, hrun]

theorem exists_leaves {b : UInt8} (hpc : s.pc p = .writeLoop msg i) (hb : msg[i]? = some b)
    (hfull : s.pipe.Full) (hlock : s.ptableLock = none) :
    ∃ t, execute State.step s [.kill p, .run p, .run p] = some t ∧ t.lock = none ∧
      t.pipe = s.pipe ∧ ∀ r, r ≠ p → t.pc r = s.pc r ∧ t.proc r = s.proc r := by
  have hkill : s.step (.kill p) = some { s with proc := killProc p s.proc } := if_pos hlock
  generalize hu : ({ s with proc := killProc p s.proc } : State ι) = u at hkill
  have hnext : (u.pc p).next u.pipe (u.proc p).killed =
      some ((.test : Op ι), .writeLeave (-1)) := by
    subst hu
    dsimp only
    have hkilled : (killProc p s.proc p).killed = true := by simp [killProc]
    rw [hpc, Pc.next, hb]
    dsimp only
    rw [if_pos hfull, if_pos (Or.inr hkilled)]
  have hleave : u.step (.run p) = some (u.goto p (.writeLeave (-1))) := step_of_next hnext rfl
  have hgone : (u.goto p (.writeLeave (-1))).pc p = .writeLeave (-1) := Function.update_self _ _ _
  have hrelease := step_of_next (t := { u.goto p (.writeLeave (-1)) with lock := none })
    (congrArg (Pc.next _ _) hgone) rfl
  have hrun : execute State.step s [.kill p, .run p, .run p] =
      some (({ u.goto p (.writeLeave (-1)) with lock := none } : State ι).goto p .idle) := by
    rw [execute, hkill, Option.bind_some, execute, hleave, Option.bind_some, execute, hrelease]
    rfl
  subst hu
  refine ⟨_, hrun, rfl, rfl, fun r hr => ⟨?_, ?_⟩⟩
  · exact (Function.update_of_ne hr _ _).trans (Function.update_of_ne hr _ _)
  · change killProc p s.proc r = s.proc r
    exact modify_of_ne hr _ _

end Stores

section Runs

variable {ι : Type} [DecidableEq ι] [Fintype ι] {s : State ι}

/-- Runs in which no killed writer leaves a full pipe to a reader that sleeps. -/
def ServedReachable : State ι → Prop :=
  Reaches Initial fun s t => ∃ a, LeavesNone s a ∧ s.step a = some t

structure Attended (s : State ι) : Prop where
  locked : Locked s
  placed : Placed s
  opened : Open s
  waits : Waits s

omit [DecidableEq ι] [Fintype ι] in
theorem Initial.attended (h : Initial s) : Attended s :=
  ⟨h.locked, h.placed, h.open, h.waits⟩

theorem ServedReachable.attended (h : ServedReachable s) : Attended s :=
  Reaches.invariant (fun _ h0 => h0.attended)
    (fun _ _ _ hs ⟨_, hleave, h⟩ => ⟨hs.locked.step h, hs.placed.step h, hs.opened.step h,
      hs.waits.step hs.locked hs.placed hs.opened hleave h⟩) h

omit [DecidableEq ι] [Fintype ι] in
theorem Attended.stuck (hs : Attended s) (hlock : s.lock = none) {p : ι} {w : Bool}
    (hp : (s.pc p).Uses w = true) (hsleep : (s.proc p).state = .sleeping) : s.pipe.Stuck w := by
  have hsleeps : (s.pc p).SleepsOn w = true := by
    rcases hs.placed.awake p hsleep with hidle | ⟨w', hw'⟩
    · rw [hidle] at hp
      cases hp
    · exact Pc.sleepsOn_of_uses hw' hp
  rcases hs.waits.rests p w (.inr ⟨hsleeps, hsleep⟩) with hstuck | ⟨q, howes⟩
  · exact hstuck
  · have hheld := (hs.locked.lock q).mp (Pc.locks_of_owes howes)
    cases hlock.symm.trans hheld

/-- No process sleeps on a pipe that it could use. -/
theorem sleepers_stuck (h : ServedReachable s) (hlock : s.lock = none) (p : ι)
    (hsleep : (s.proc p).state = .sleeping) :
    ((s.pc p).Uses false = true → s.pipe.Empty ∧ s.pipe.writeopen = true) ∧
      ((s.pc p).Uses true = true → s.pipe.Full ∧ s.pipe.readopen = true) :=
  ⟨fun hp => h.attended.stuck hlock hp hsleep, fun hp => h.attended.stuck hlock hp hsleep⟩

/-- A reader sleeps in a run in which every step meets the condition. -/
theorem sleepers_stuck_reader : ∃ s : State (Fin 2), ServedReachable s ∧ s.lock = none ∧
    (s.proc 1).state = .sleeping ∧ s.pipe.Empty ∧ s.pipe.writeopen = true := by
  let step (s : State (Fin 2)) (a : Act (Fin 2)) : Option (State (Fin 2)) :=
    if LeavesNone s a then s.step a else none
  let acts : List (Act (Fin 2)) := .read 1 1 :: List.replicate 4 (.run 1)
  have hrun : (execute step made acts).any (fun s => decide (s.lock = none ∧
      (s.proc 1).state = .sleeping ∧ (s.pc 1).Uses false = true)) = true := by decide +kernel
  obtain ⟨s, hs, hdec⟩ := (Option.any_eq_true _ _).mp hrun
  obtain ⟨hlock, hsleep, huses⟩ := of_decide_eq_true hdec
  have hreach : ServedReachable s :=
    Reaches.mono (fun _ _ ⟨a, h⟩ => ⟨a, Option.ite_none_right_eq_some.mp h⟩)
      (Reaches.execute (.start made_initial) hs)
  exact ⟨s, hreach, hlock, hsleep, (sleepers_stuck hreach hlock 1 hsleep).1 huses⟩

/-- A reader sleeps; a writer fills the pipe, is killed and returns. -/
theorem reader_left : ∃ s : State (Fin 2), Reachable s ∧ s.lock = none ∧
    (s.proc 1).state = .sleeping ∧ (s.pc 1).Uses false = true ∧ ¬ s.pipe.Empty := by
  let msg : List UInt8 := List.replicate 513 0
  let acts : List (Act (Fin 2)) := .read 1 1 :: List.replicate 4 (.run 1) ++ [.write 0 msg, .run 0]
  have hrun : (execute State.step made acts).any (fun s => decide (s.pc 0 = .writeLoop msg 0 ∧
      s.ptableLock = none ∧ (s.proc 1).state = .sleeping ∧ (s.pc 1).Uses false = true ∧
      s.pipe.nread = 0 ∧ s.pipe.nwrite = 0)) = true := by decide +kernel
  obtain ⟨s, hs, hdec⟩ := (Option.any_eq_true _ _).mp hrun
  obtain ⟨hpc, hptable, hsleep, huses, hnread, hnwrite⟩ := of_decide_eq_true hdec
  have hroom : ∀ j < 512, s.pipe.nwrite + UInt32.ofNat j ≠
      s.pipe.nread + UInt32.ofNat PIPESIZE := by
    intro j hj h
    rw [hnread, hnwrite, UInt32.zero_add, UInt32.zero_add, ← UInt32.toNat_inj,
      UInt32.toNat_ofNat_of_lt' (hj.trans (by decide))] at h
    exact hj.ne h
  have hlen : msg.length = 513 := List.length_replicate
  have hlast : msg[0 + 512]? = some 0 := by
    rw [List.getElem?_replicate_of_lt (by decide)]
  obtain ⟨t, ht, hstores⟩ := exists_stores (k := 512) hpc (by omega) hroom
  have hwritten : t.pipe.nwrite = UInt32.ofNat 512 := by
    rw [hstores.nwrite, hnwrite, UInt32.zero_add]
  have hread : t.pipe.nread = 0 := hstores.nread.trans hnread
  have hfull : t.pipe.Full := by
    rw [Pipe.Full, hwritten, hread, UInt32.zero_add, PIPESIZE]
  obtain ⟨u, hu, hlock, hpipe, hother⟩ := exists_leaves hstores.pc hlast hfull
    (hstores.ptableLock.trans hptable)
  have hreach : Reachable u :=
    Reaches.execute (Reaches.execute (Reaches.execute (.start made_initial) hs) ht) hu
  have hone : (1 : Fin 2) ≠ 0 := by decide
  refine ⟨u, hreach, hlock, ?_, ?_, ?_⟩
  · rw [(hother 1 hone).2, hstores.proc]
    exact hsleep
  · rw [(hother 1 hone).1, hstores.other 1 hone]
    exact huses
  · rw [hpipe, Pipe.Empty, hwritten, hread]
    decide

end Runs

end Pipes

end Xv6Fairness
