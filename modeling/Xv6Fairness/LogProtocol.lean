import Xv6Fairness.Counting
import Xv6Fairness.DiskLayout
import Xv6Fairness.TransitionRuns

/-!
# Entering and leaving log transactions

Processes run operations between `begin_op` and `end_op`; the last one to leave commits for all. The
steps are those of the C code between two operations on `log.lock`, with the tests that `log_write`
makes before it takes the lock as steps of their own. `sleep` lets go of the lock and falls asleep
in one step, and a process asleep may also be woken for other reasons.
-/

namespace Xv6Fairness

namespace LogProtocol

open Counting Finset

inductive Panic
  | tooBig | outsideTrans | committing
  deriving DecidableEq

/-- Where a process is. -/
inductive Pc
  | outside
  | beginOp                   -- begin_op(), at the head of the loop
  | asleep                    -- begin_op(), in sleep()
  | inOp
  | logWrite (b : UInt32)     -- log_write(), at the first test
  | sized (b : UInt32)        -- log_write(), at the second test
  | tested (b : UInt32)       -- log_write(), before acquire
  | commit
  | writeLog (tail : ℕ)
  | writeHead
  | installTrans (tail : ℕ)
  | clear                     -- commit(), before log.lh.n = 0
  | clearHead                 -- commit(), before the last write_head()
  | commitDone                -- end_op(), before the second acquire
  deriving DecidableEq

/-- Between `begin_op` and `end_op`. -/
def Pc.InOp : Pc → Prop
  | .inOp | .logWrite _ | .sized _ | .tested _ => True
  | _ => False

/-- After the first part of the `end_op` that commits. -/
def Pc.Commits : Pc → Prop
  | .commit | .writeLog _ | .writeHead | .installTrans _ | .clear | .clearHead | .commitDone => True
  | _ => False

/-- After `log.lh.n = 0` in `commit`, or past a `commit` that had nothing to do. -/
def Pc.Cleared : Pc → Prop
  | .clearHead | .commitDone => True
  | _ => False

/-- The block of a `log_write` under way. -/
def Pc.calling : Pc → Finset UInt32
  | .logWrite b | .sized b | .tested b => {b}
  | _ => ∅

instance : DecidablePred Pc.InOp := fun pc => by
  cases pc <;> first | exact .isTrue trivial | exact .isFalse not_false

instance : DecidablePred Pc.Commits := fun pc => by
  cases pc <;> first | exact .isTrue trivial | exact .isFalse not_false

/-- `lh` holds the first `lh.n` entries of `log.lh.block`, `logged` the blocks that a process has
logged since its `begin_op`. -/
structure State (ι : Type) where
  pc : ι → Pc
  lh : List UInt32
  outstanding : ℤ
  committing : Bool
  panicked : Option Panic
  logged : ι → Finset UInt32

inductive Action (ι : Type)
  | beginOp (p : ι)
  | logWrite (p : ι) (b : UInt32)
  | endOp (p : ι)
  | run (p : ι)
  | wake (p : ι)

/-- The loop of `log_write` that looks for the block and appends it where it is not found. -/
def absorb (lh : List UInt32) (b : UInt32) : List UInt32 := if b ∈ lh then lh else lh ++ [b]

variable {ι : Type} [DecidableEq ι]

namespace State

variable (s : State ι) (p : ι)

def goto (pc : Pc) : State ι := { s with pc := Function.update s.pc p pc }

theorem goto_pc (x : Pc) (q : ι) : (s.goto p x).pc q = if q = p then x else s.pc q :=
  Function.update_apply _ _ _ _

def panic (why : Panic) : State ι := { s with panicked := some why }

/-- `wakeup(&log)`. -/
def wakeup : State ι :=
  { s with pc := fun q => if s.pc q = .asleep then .beginOp else s.pc q }

omit [DecidableEq ι] in
theorem wakeup_pc (q : ι) :
    s.wakeup.pc q = if s.pc q = .asleep then .beginOp else s.pc q := rfl

/-- One pass of the loop of `begin_op`. -/
def tryBegin : State ι :=
  if s.committing then s.goto p .asleep
  else if (s.lh.length : ℤ) + (s.outstanding + 1) * MAXOPBLOCKS > LOGSIZE then s.goto p .asleep
  else { s.goto p .inOp with
    outstanding := s.outstanding + 1
    logged := Function.update s.logged p ∅ }

def append (b : UInt32) : State ι :=
  { s.goto p .inOp with
    lh := absorb s.lh b
    logged := Function.update s.logged p (insert b (s.logged p)) }

/-- The first part of `end_op`. -/
def endOp : State ι :=
  let s := { s with outstanding := s.outstanding - 1 }
  if s.committing then s.panic .committing
  else if s.outstanding = 0 then { s.goto p .commit with committing := true }
  else (s.goto p .outside).wakeup

theorem endOp_eq (h : s.committing = false) :
    s.endOp p =
      if s.outstanding - 1 = 0 then
        { s.goto p .commit with outstanding := s.outstanding - 1, committing := true }
      else { s.goto p .outside with outstanding := s.outstanding - 1 }.wakeup :=
  if_neg (Bool.eq_false_iff.mp h)

def finish : State ι := { s.goto p .outside with committing := false }.wakeup

def run (size : ℤ) : Option (State ι) :=
  match s.pc p with
  | .outside | .asleep | .inOp => none
  | .beginOp => some (s.tryBegin p)
  | .logWrite b =>
    some (if (LOGSIZE : ℤ) ≤ s.lh.length ∨ size - 1 ≤ s.lh.length then s.panic .tooBig
      else s.goto p (.sized b))
  | .sized b => some (if s.outstanding < 1 then s.panic .outsideTrans else s.goto p (.tested b))
  | .tested b => some (s.append p b)
  | .commit => some (s.goto p (if 0 < s.lh.length then .writeLog 0 else .commitDone))
  | .writeLog tail =>
    some (s.goto p (if tail < s.lh.length then .writeLog (tail + 1) else .writeHead))
  | .writeHead => some (s.goto p (.installTrans 0))
  | .installTrans tail =>
    some (s.goto p (if tail < s.lh.length then .installTrans (tail + 1) else .clear))
  | .clear => some { s.goto p .clearHead with lh := [] }
  | .clearHead => some (s.goto p .commitDone)
  | .commitDone => some (s.finish p)

end State

/-- Nothing runs on after a panic. -/
def step (size : ℤ) (s : State ι) (a : Action ι) : Option (State ι) :=
  if s.panicked ≠ none then none
  else match a with
    | .beginOp p => if s.pc p = .outside then some (s.goto p .beginOp) else none
    | .logWrite p b => if s.pc p = .inOp then some (s.goto p (.logWrite b)) else none
    | .endOp p => if s.pc p = .inOp then some (s.endOp p) else none
    | .run p => s.run p size
    | .wake p => if s.pc p = .asleep then some (s.goto p .beginOp) else none

def start : State ι where
  pc _ := .outside
  lh := []
  outstanding := 0
  committing := false
  panicked := none
  logged _ := ∅

abbrev Reachable (size : ℤ) : State ι → Prop :=
  TransitionRuns.Reaches (· = start) fun s t => ∃ a, step size s a = some t

section Alone

variable [Fintype ι]

structure Inv (s : State ι) : Prop where
  outstanding : s.outstanding = #{p | (s.pc p).InOp}
  committers : #{p | (s.pc p).Commits} = if s.committing then 1 else 0
  alone : s.committing = true → s.outstanding = 0
  empty : s.committing = false → s.outstanding = 0 → s.lh = []
  cleared : ∀ p, (s.pc p).Cleared → s.lh = []
  panicked : s.panicked = none ∨ s.panicked = some .tooBig

theorem Pc.Cleared.commits {pc : Pc} (h : pc.Cleared) : pc.Commits := by
  cases pc <;> trivial

namespace Inv

variable {s : State ι} (hi : Inv s) {p : ι}

include hi

omit [DecidableEq ι] in
theorem of_inOp (hp : (s.pc p).InOp) : 0 < s.outstanding ∧ s.committing = false := by
  have hpos : 0 < s.outstanding := by
    rw [hi.outstanding, Int.natCast_pos]
    exact card_filter_pos hp
  refine ⟨hpos, Bool.eq_false_iff.mpr fun hc => ?_⟩
  have h0 := hi.alone hc
  omega

omit [DecidableEq ι] in
theorem of_commits (hp : (s.pc p).Commits) : s.committing = true ∧ s.outstanding = 0 := by
  have hc : s.committing = true := by
    by_contra hc
    have h0 := hi.committers
    rw [if_neg hc] at h0
    exact not_of_card_filter_eq_zero h0 p hp
  exact ⟨hc, hi.alone hc⟩

omit [DecidableEq ι] in
theorem outstanding_nonneg : 0 ≤ s.outstanding := by
  rw [hi.outstanding]
  exact Int.natCast_nonneg _

theorem update {x : Pc} {lh : List UInt32} {outstanding : ℤ} {committing : Bool}
    {logged : ι → Finset UInt32}
    (hout : outstanding + (if (s.pc p).InOp then 1 else 0) =
      s.outstanding + if x.InOp then 1 else 0)
    (hcommit : (if committing then 1 else 0) + (if (s.pc p).Commits then 1 else 0) =
      (if s.committing then 1 else 0) + if x.Commits then 1 else 0)
    (halone : committing = true → outstanding = 0)
    (hempty : committing = false → outstanding = 0 → lh = [])
    (hcleared : ∀ q, (s.pc q).Cleared ∨ x.Cleared → lh = []) :
    Inv ⟨Function.update s.pc p x, lh, outstanding, committing, s.panicked, logged⟩ := by
  have h₁ := card_filter_update s.pc Pc.InOp p x
  have h₂ := card_filter_update s.pc Pc.Commits p x
  have hop := hi.outstanding
  have hcm := hi.committers
  refine ⟨?_, ?_, halone, hempty, ?_, hi.panicked⟩
  · change outstanding = (#{q | (Function.update s.pc p x q).InOp} : ℤ)
    split_ifs at hout h₁ <;> omega
  · change #{q | (Function.update s.pc p x q).Commits} = if committing then 1 else 0
    omega
  · intro q hq
    change (Function.update s.pc p x q).Cleared at hq
    by_cases hqp : q = p
    · subst hqp
      rw [Function.update_self] at hq
      exact hcleared q (.inr hq)
    · rw [Function.update_of_ne hqp] at hq
      exact hcleared q (.inl hq)

theorem goto {x : Pc} (hop : x.InOp ↔ (s.pc p).InOp) (hcommit : x.Commits ↔ (s.pc p).Commits)
    (hclear : x.Cleared → s.lh = []) : Inv (s.goto p x) := by
  apply hi.update
  · simp only [hop]
  · simp only [hcommit]
  · exact hi.alone
  · exact hi.empty
  · intro q hq
    rcases hq with hq | hq
    · exact hi.cleared q hq
    · exact hclear hq

omit [DecidableEq ι] in
theorem wakeup : Inv s.wakeup := by
  have hop : ∀ q, (s.wakeup.pc q).InOp ↔ (s.pc q).InOp := fun q => by
    rw [State.wakeup_pc]
    split_ifs with h
    · rw [h]
      exact Iff.rfl
    · exact Iff.rfl
  have hcommit : ∀ q, (s.wakeup.pc q).Commits ↔ (s.pc q).Commits := fun q => by
    rw [State.wakeup_pc]
    split_ifs with h
    · rw [h]
      exact Iff.rfl
    · exact Iff.rfl
  refine ⟨?_, ?_, hi.alone, hi.empty, ?_, hi.panicked⟩
  · simp only [hop]
    exact hi.outstanding
  · simp only [hcommit]
    exact hi.committers
  · intro q hq
    rw [State.wakeup_pc] at hq
    split_ifs at hq with h
    · exact absurd hq not_false
    · exact hi.cleared q hq

theorem tryBegin (hp : s.pc p = .beginOp) : Inv (s.tryBegin p) := by
  have hsleep : Inv (s.goto p .asleep) := by
    apply hi.goto
    · rw [hp]
      exact Iff.rfl
    · rw [hp]
      exact Iff.rfl
    · exact False.elim
  have hpos := hi.outstanding_nonneg
  rw [State.tryBegin]
  split_ifs with hc
  · exact hsleep
  · exact hsleep
  · have hnc : s.committing = false := Bool.eq_false_iff.mpr hc
    apply hi.update
    · rw [hp]
      exact add_zero _
    · rw [hp]
      rfl
    · exact fun h => absurd h hc
    · intro _ h0
      change s.outstanding + 1 = 0 at h0
      omega
    · intro q hq
      rcases hq with hq | hq
      · exact hi.cleared q hq
      · exact hq.elim

theorem append {b : UInt32} (hp : s.pc p = .tested b) : Inv (s.append p b) := by
  obtain ⟨hpos, hnc⟩ := hi.of_inOp (p := p) (by rw [hp]; trivial)
  apply hi.update
  · rw [hp]
    rfl
  · rw [hp]
    rfl
  · exact hi.alone
  · intro _ h0
    change s.outstanding = 0 at h0
    omega
  · intro q hq
    rcases hq with hq | hq
    · rw [(hi.of_commits hq.commits).1] at hnc
      exact absurd hnc (by decide)
    · exact hq.elim

theorem endOp (hp : s.pc p = .inOp) : Inv (s.endOp p) := by
  obtain ⟨hpos, hnc⟩ := hi.of_inOp (p := p) (by rw [hp]; trivial)
  rw [State.endOp_eq s p hnc]
  split_ifs with h
  · apply hi.update
    · rw [hp]
      change s.outstanding - 1 + 1 = s.outstanding + 0
      omega
    · rw [hp, hnc]
      rfl
    · exact fun _ => h
    · exact fun h => absurd h (by decide)
    · intro q hq
      rcases hq with hq | hq
      · exact hi.cleared q hq
      · exact hq.elim
  · apply wakeup
    apply hi.update
    · rw [hp]
      change s.outstanding - 1 + 1 = s.outstanding + 0
      omega
    · rw [hp]
      rfl
    · exact fun hc => absurd (hnc.symm.trans hc) Bool.false_ne_true
    · exact fun _ h0 => absurd h0 h
    · intro q hq
      rcases hq with hq | hq
      · exact hi.cleared q hq
      · exact hq.elim

theorem clear (hp : s.pc p = .clear) : Inv { s.goto p .clearHead with lh := [] } := by
  obtain ⟨hc, hout⟩ := hi.of_commits (p := p) (by rw [hp]; trivial)
  apply hi.update
  · rw [hp]
    rfl
  · rw [hp]
    rfl
  · exact hi.alone
  · exact fun _ _ => rfl
  · exact fun _ _ => rfl

theorem finish (hp : s.pc p = .commitDone) : Inv (s.finish p) := by
  obtain ⟨hc, hout⟩ := hi.of_commits (p := p) (by rw [hp]; trivial)
  have hlh := hi.cleared p (by rw [hp]; trivial)
  apply wakeup
  apply hi.update
  · rw [hp]
    rfl
  · rw [hp, hc]
    rfl
  · exact fun h => absurd h (by decide)
  · exact fun _ _ => hlh
  · exact fun _ _ => hlh

omit [DecidableEq ι] in
theorem panic : Inv (s.panic .tooBig) :=
  ⟨hi.outstanding, hi.committers, hi.alone, hi.empty, hi.cleared, .inr rfl⟩

end Inv

/-- What a step can do. -/
inductive Change (size : ℤ) (s : State ι) : Action ι → State ι → Prop
  | move {a : Action ι} {p : ι} {x : Pc} (hop : x.InOp ↔ (s.pc p).InOp)
      (hcommit : x.Commits ↔ (s.pc p).Commits) (hclear : x.Cleared → s.lh = [])
      (hnew : ∀ b, x ≠ .logWrite b) (hcalling : x.calling ⊆ (s.pc p).calling)
      (hawake : x ≠ .asleep) : Change size s a (s.goto p x)
  | called {p : ι} {b : UInt32} (hp : s.pc p = .inOp) :
      Change size s (.logWrite p b) (s.goto p (.logWrite b))
  | sized {p : ι} {b : UInt32} (hp : s.pc p = .logWrite b) :
      Change size s (.run p) (s.goto p (.sized b))
  | tooBig {p : ι} {b : UInt32} (hp : s.pc p = .logWrite b)
      (hfull : (LOGSIZE : ℤ) ≤ s.lh.length ∨ size - 1 ≤ s.lh.length) :
      Change size s (.run p) (s.panic .tooBig)
  | tryBegin {p : ι} (hp : s.pc p = .beginOp) : Change size s (.run p) (s.tryBegin p)
  | append {p : ι} {b : UInt32} (hp : s.pc p = .tested b) : Change size s (.run p) (s.append p b)
  | endOp {p : ι} (hp : s.pc p = .inOp) : Change size s (.endOp p) (s.endOp p)
  | clear {p : ι} (hp : s.pc p = .clear) :
      Change size s (.run p) { s.goto p .clearHead with lh := [] }
  | finish {p : ι} (hp : s.pc p = .commitDone) : Change size s (.run p) (s.finish p)

section Steps

variable {size : ℤ} {s t : State ι} {a : Action ι}

omit [Fintype ι] in
theorem Change.of_move {p : ι} {x y : Pc} (hp : s.pc p = y) (hop : x.InOp ↔ y.InOp)
    (hcommit : x.Commits ↔ y.Commits) (hclear : x.Cleared → s.lh = [])
    (hnew : ∀ b, x ≠ .logWrite b) (hcalling : x.calling ⊆ y.calling) (hawake : x ≠ .asleep) :
    Change size s a (s.goto p x) := by
  subst hp
  exact .move hop hcommit hclear hnew hcalling hawake

theorem Inv.change_run (hi : Inv s) {p : ι} (h : s.run p size = some t) :
    Change size s (.run p) t := by
  rw [State.run] at h
  cases hp : s.pc p with
  | outside | asleep | inOp =>
      rw [hp] at h
      cases h
  | beginOp =>
      rw [hp] at h
      cases h
      exact .tryBegin hp
  | logWrite b =>
      rw [hp] at h
      simp only at h
      split_ifs at h with hfull
      · cases h
        exact .tooBig hp hfull
      · cases h
        exact .sized hp
  | sized b =>
      have hpos := (hi.of_inOp (p := p) (by rw [hp]; trivial)).1
      rw [hp] at h
      simp only at h
      rw [if_neg (by omega)] at h
      cases h
      exact .of_move hp Iff.rfl Iff.rfl False.elim (by simp) subset_rfl (by simp)
  | tested b =>
      rw [hp] at h
      cases h
      exact .append hp
  | commit =>
      rw [hp] at h
      cases h
      apply Change.of_move hp <;> split_ifs with hn
      · exact Iff.rfl
      · exact Iff.rfl
      · exact Iff.rfl
      · exact Iff.rfl
      · exact False.elim
      · exact fun _ => List.eq_nil_of_length_eq_zero (by omega)
      · simp
      · simp
      · exact subset_rfl
      · exact subset_rfl
      · simp
      · simp
  | writeLog tail =>
      rw [hp] at h
      cases h
      apply Change.of_move hp <;> split_ifs <;>
        first | exact Iff.rfl | exact False.elim | exact subset_rfl | simp
  | writeHead =>
      rw [hp] at h
      cases h
      exact .of_move hp Iff.rfl Iff.rfl False.elim (by simp) subset_rfl (by simp)
  | installTrans tail =>
      rw [hp] at h
      cases h
      apply Change.of_move hp <;> split_ifs <;>
        first | exact Iff.rfl | exact False.elim | exact subset_rfl | simp
  | clear =>
      rw [hp] at h
      cases h
      exact .clear hp
  | clearHead =>
      rw [hp] at h
      cases h
      exact .of_move hp Iff.rfl Iff.rfl (fun _ => hi.cleared p (by rw [hp]; trivial)) (by simp)
        subset_rfl (by simp)
  | commitDone =>
      rw [hp] at h
      cases h
      exact .finish hp

theorem Inv.change (hi : Inv s) (h : step size s a = some t) : Change size s a t := by
  rw [LogProtocol.step.eq_def] at h
  split_ifs at h
  cases a with
  | beginOp p =>
      obtain ⟨hp, h⟩ := Option.ite_none_right_eq_some.mp h
      cases h
      exact .of_move hp Iff.rfl Iff.rfl False.elim (by simp) subset_rfl (by simp)
  | logWrite p b =>
      obtain ⟨hp, h⟩ := Option.ite_none_right_eq_some.mp h
      cases h
      exact .called hp
  | endOp p =>
      obtain ⟨hp, h⟩ := Option.ite_none_right_eq_some.mp h
      cases h
      exact .endOp hp
  | run p => exact hi.change_run h
  | wake p =>
      obtain ⟨hp, h⟩ := Option.ite_none_right_eq_some.mp h
      cases h
      exact .of_move hp Iff.rfl Iff.rfl False.elim (by simp) subset_rfl (by simp)

theorem Inv.step (hi : Inv s) (h : Change size s a t) : Inv t := by
  cases h with
  | move hop hcommit hclear _ _ _ => exact hi.goto hop hcommit hclear
  | called hp | sized hp =>
      apply hi.goto
      · rw [hp]
        exact Iff.rfl
      · rw [hp]
        exact Iff.rfl
      · exact False.elim
  | tooBig _ _ => exact hi.panic
  | tryBegin hp => exact hi.tryBegin hp
  | append hp => exact hi.append hp
  | endOp hp => exact hi.endOp hp
  | clear hp => exact hi.clear hp
  | finish hp => exact hi.finish hp

omit [DecidableEq ι] in
theorem start_inv : Inv (start : State ι) where
  outstanding := (Int.natCast_eq_zero.mpr (card_eq_zero.mpr (filter_eq_empty_iff.mpr
    fun _ _ => not_false))).symm
  committers := card_eq_zero.mpr (filter_eq_empty_iff.mpr fun _ _ => not_false)
  alone _ := rfl
  empty _ _ := rfl
  cleared _ _ := rfl
  panicked := .inl rfl

theorem Reachable.inv (h : Reachable size s) : Inv s := by
  apply h.invariant
  · rintro s rfl
    exact start_inv
  · rintro s t _ hi ⟨a, hstep⟩
    exact hi.step (hi.change hstep)

/-- A process asleep in `begin_op` has somebody left to wake it. -/
def Attended (s : State ι) : Prop :=
  ∀ p, s.pc p = .asleep → s.committing = true ∨ 0 < s.outstanding

omit [Fintype ι] in
theorem goto_pc_asleep {p q : ι} {x : Pc} (h : (s.goto p x).pc q = .asleep) :
    x = .asleep ∨ s.pc q = .asleep := by
  rw [State.goto_pc] at h
  split_ifs at h
  · exact .inl h
  · exact .inr h

omit [Fintype ι] [DecidableEq ι] in
theorem wakeup_pc_ne_asleep (q : ι) : s.wakeup.pc q ≠ .asleep := by
  rw [State.wakeup_pc]
  split_ifs with h
  · exact Pc.noConfusion
  · exact h

omit [DecidableEq ι] in
theorem Inv.outstanding_pos_of_full (hi : Inv s) (hc : s.committing ≠ true)
    (hfull : (s.lh.length : ℤ) + (s.outstanding + 1) * MAXOPBLOCKS > LOGSIZE) :
    0 < s.outstanding := by
  by_contra h
  have hzero : s.outstanding = 0 := le_antisymm (not_lt.mp h) hi.outstanding_nonneg
  rw [hi.empty (Bool.eq_false_iff.mpr hc) hzero, hzero] at hfull
  exact absurd hfull (by decide)

theorem Attended.step (hi : Inv s) (ha : Attended s) (h : Change size s a t) : Attended t := by
  intro q hq
  cases h with
  | move _ _ _ _ _ hawake =>
      rcases goto_pc_asleep hq with hx | hq
      · exact absurd hx hawake
      · exact ha q hq
  | called _ | sized _ =>
      rcases goto_pc_asleep hq with hx | hq
      · exact Pc.noConfusion hx
      · exact ha q hq
  | tooBig _ _ => exact ha q hq
  | tryBegin hp =>
      have hpos := hi.outstanding_nonneg
      rw [State.tryBegin] at hq ⊢
      split_ifs at hq ⊢ with hc hfull
      · exact .inl hc
      · exact .inr (hi.outstanding_pos_of_full hc hfull)
      · exact .inr (Int.lt_add_one_of_le hpos)
  | append hp =>
      exact .inr (hi.of_inOp (by rw [hp]; trivial)).1
  | @endOp p hp =>
      obtain ⟨hpos, hnc⟩ := hi.of_inOp (p := p) (by rw [hp]; trivial)
      rw [State.endOp_eq s p hnc]
      split_ifs with h
      · exact .inl rfl
      · refine .inr ?_
        change 0 < s.outstanding - 1
        omega
  | clear _ =>
      rcases goto_pc_asleep hq with hx | hq
      · exact Pc.noConfusion hx
      · exact ha q hq
  | finish _ => exact absurd hq (wakeup_pc_ne_asleep q)

theorem Reachable.attended (h : Reachable size s) : Attended s := by
  induction h with
  | start h =>
      cases h
      exact fun _ hp => Pc.noConfusion hp
  | step hr hn ih =>
      obtain ⟨a, hstep⟩ := hn
      have hi := Reachable.inv hr
      exact ih.step hi (hi.change hstep)

theorem Change.lh_of_committing (hi : Inv s) (hc : s.committing = true) (h : Change size s a t) :
    t.lh = s.lh ∨ ∃ p, a = .run p ∧ s.pc p = .clear := by
  cases h with
  | move _ _ _ _ _ _ | called _ | sized _ | tooBig _ _ | finish _ => exact .inl rfl
  | tryBegin _ =>
      rw [State.tryBegin, if_pos hc]
      exact .inl rfl
  | append hp =>
      have hnc := (hi.of_inOp (by rw [hp]; trivial)).2
      exact absurd (hnc.symm.trans hc) Bool.false_ne_true
  | endOp hp =>
      have hnc := (hi.of_inOp (by rw [hp]; trivial)).2
      exact absurd (hnc.symm.trans hc) Bool.false_ne_true
  | @clear p hp => exact .inr ⟨p, rfl, hp⟩

/-- A commit has the log to itself and nobody is left asleep in `begin_op`. -/
theorem commit_alone (h : Reachable size s) :
    (s.committing = true → s.outstanding = 0 ∧ ∀ p, ¬ (s.pc p).InOp) ∧
      (s.committing = true → ∀ a t, step size s a = some t →
        t.lh = s.lh ∨ ∃ p, a = .run p ∧ s.pc p = .clear) ∧
      s.panicked ≠ some .committing ∧
      ∀ p, s.pc p = .asleep → s.committing = true ∨ 0 < s.outstanding := by
  have hi := h.inv
  refine ⟨fun hc => ⟨hi.alone hc, fun p hp => ?_⟩, fun hc a t hstep => ?_, ?_, h.attended⟩
  · exact absurd ((hi.of_inOp hp).2.symm.trans hc) Bool.false_ne_true
  · exact (hi.change hstep).lh_of_committing hi hc
  · rcases hi.panicked with hp | hp
    · rw [hp]
      decide
    · rw [hp]
      decide

end Steps

/-- Process 0 commits a block while process 1 sleeps in `begin_op`. -/
theorem commit_alone_one_block :
    ∃ s : State (Fin 2), Reachable mkfs.nlog s ∧ s.committing = true ∧ s.lh = [60] ∧
      s.pc 1 = .asleep ∧ s.outstanding = 0 := by
  have hrun : ((TransitionRuns.execute (step mkfs.nlog) (start : State (Fin 2))
      [.beginOp 0, .run 0, .logWrite 0 60, .run 0, .run 0, .run 0, .beginOp 1, .endOp 0, .run 0,
        .run 1]).any fun s => decide (s.committing = true ∧ s.lh = [60] ∧ s.pc 1 = .asleep)) =
      true := by
    decide +kernel
  obtain ⟨s, hs, hprop⟩ := (Option.any_eq_true _ _).mp hrun
  obtain ⟨hc, hlh, hp⟩ := of_decide_eq_true hprop
  have hreach : Reachable mkfs.nlog s := TransitionRuns.Reaches.execute (.start rfl) hs
  exact ⟨s, hreach, hc, hlh, hp, ((commit_alone hreach).1 hc).1⟩

/-- Every operation logs at most `MAXOPBLOCKS` blocks. -/
def Disciplined (s : State ι) : Action ι → Prop
  | .logWrite p b => (insert b (s.logged p)).card ≤ MAXOPBLOCKS
  | _ => True

instance (s : State ι) : (a : Action ι) → Decidable (Disciplined s a)
  | .logWrite p b => inferInstanceAs (Decidable ((insert b (s.logged p)).card ≤ MAXOPBLOCKS))
  | .beginOp _ | .endOp _ | .run _ | .wake _ => .isTrue trivial

/-- Steps of operations that keep to `MAXOPBLOCKS`. -/
def operate (size : ℤ) (s : State ι) (a : Action ι) : Option (State ι) :=
  if Disciplined s a then step size s a else none

section Room

variable {size : ℤ} {s t : State ι} {a : Action ι} {k n : ℕ}

theorem mem_absorb {lh : List UInt32} {b x : UInt32} : x ∈ absorb lh b ↔ x = b ∨ x ∈ lh := by
  rw [absorb]
  split_ifs with h
  · exact ⟨.inr, fun hx => hx.elim (fun hb => hb ▸ h) id⟩
  · rw [List.mem_append, List.mem_singleton, or_comm]

theorem nodup_absorb {lh : List UInt32} (h : lh.Nodup) (b : UInt32) : (absorb lh b).Nodup := by
  rw [absorb]
  split_ifs with hb
  · exact h
  · exact List.concat_eq_append ▸ h.concat hb

theorem Change.nodup (hi : Inv s) (h : Change size s a t) (hs : s.lh.Nodup) : t.lh.Nodup := by
  cases h with
  | move _ _ _ _ _ _ | called _ | sized _ | tooBig _ _ | finish _ => exact hs
  | tryBegin _ =>
      rw [State.tryBegin]
      split_ifs <;> exact hs
  | append _ => exact nodup_absorb hs _
  | endOp hp =>
      rw [State.endOp_eq _ _ (hi.of_inOp (by rw [hp]; trivial)).2]
      split_ifs <;> exact hs
  | clear _ => exact List.nodup_nil

theorem Pc.calling_of_not_inOp {pc : Pc} (h : ¬ pc.InOp) : pc.calling = ∅ := by
  cases pc <;> first | rfl | exact absurd trivial h

/-- The blocks that an operation of at most `k` blocks may still log. -/
def reserve (k : ℕ) (s : State ι) (p : ι) : ℕ :=
  if (s.pc p).InOp then k - (s.logged p).card else 0

/-- What is logged and what the operations, of at most `k` blocks each, may still log are together
at most `n` blocks. -/
structure Reserved (k n : ℕ) (s : State ι) : Prop where
  allowed : ∀ p, (s.pc p).InOp → (s.logged p ∪ (s.pc p).calling).card ≤ k
  own : ∀ p, (s.pc p).InOp → ∀ b ∈ s.logged p, b ∈ s.lh
  room : s.lh.length + ∑ p, reserve k s p ≤ n

theorem Reserved.update (hr : Reserved k n s) {p : ι} {x : Pc} {lh : List UInt32}
    {own : Finset UInt32} (hpc : t.pc = Function.update s.pc p x) (hlh : t.lh = lh)
    (hlogged : t.logged = Function.update s.logged p own)
    (hcard : x.InOp → (own ∪ x.calling).card ≤ k) (hown : x.InOp → ∀ b ∈ own, b ∈ lh)
    (hkept : ∀ q, q ≠ p → (s.pc q).InOp → ∀ b ∈ s.lh, b ∈ lh)
    (hroom : lh.length + ∑ q, reserve k s q + (if x.InOp then k - own.card else 0) ≤
      n + reserve k s p) : Reserved k n t := by
  have hsum : ∑ q, reserve k t q + reserve k s p = ∑ q, reserve k s q + reserve k t p := by
    apply sum_exchange
    intro q hq
    rw [reserve, reserve, hpc, hlogged, Function.update_of_ne hq, Function.update_of_ne hq]
  have hself : reserve k t p = if x.InOp then k - own.card else 0 := by
    rw [reserve, hpc, hlogged, Function.update_self, Function.update_self]
  refine ⟨fun q => ?_, fun q => ?_, ?_⟩
  · rw [hpc, hlogged]
    by_cases hq : q = p
    · subst hq
      rwa [Function.update_self, Function.update_self]
    · rw [Function.update_of_ne hq, Function.update_of_ne hq]
      exact hr.allowed q
  · rw [hpc, hlogged, hlh]
    by_cases hq : q = p
    · subst hq
      rwa [Function.update_self, Function.update_self]
    · rw [Function.update_of_ne hq, Function.update_of_ne hq]
      exact fun hop b hb => hkept q hq hop b (hr.own q hop b hb)
  · rw [hlh]
    rw [← hself] at hroom
    omega

theorem Reserved.goto (hr : Reserved k n s) {p : ι} {x : Pc}
    (hpc : t.pc = Function.update s.pc p x) (hlh : t.lh = s.lh) (hlogged : t.logged = s.logged)
    (hop : x.InOp → (s.pc p).InOp) (hcard : x.InOp → (s.logged p ∪ x.calling).card ≤ k) :
    Reserved k n t := by
  apply hr.update hpc hlh (hlogged.trans (Function.update_eq_self p s.logged).symm) hcard
  · exact fun hx => hr.own p (hop hx)
  · exact fun _ _ _ _ hb => hb
  · have hold := hr.room
    by_cases hx : x.InOp
    · have hself : reserve k s p = k - (s.logged p).card := if_pos (hop hx)
      rw [if_pos hx, hself]
      omega
    · rw [if_neg hx]
      omega

theorem Reserved.leave (hr : Reserved k n s) {p : ι} {x : Pc}
    (hpc : t.pc = Function.update s.pc p x) (hlh : t.lh = s.lh) (hlogged : t.logged = s.logged)
    (hx : ¬ x.InOp) : Reserved k n t :=
  hr.goto hpc hlh hlogged (fun h => absurd h hx) fun h => absurd h hx

omit [DecidableEq ι] in
theorem Reserved.wakeup (hr : Reserved k n s) : Reserved k n s.wakeup := by
  have hop : ∀ q, (s.wakeup.pc q).InOp ↔ (s.pc q).InOp := fun q => by
    rw [State.wakeup_pc]
    split_ifs with h
    · rw [h]
      exact Iff.rfl
    · exact Iff.rfl
  have hcalling : ∀ q, (s.wakeup.pc q).calling = (s.pc q).calling := fun q => by
    rw [State.wakeup_pc]
    split_ifs with h
    · rw [h]
      rfl
    · rfl
  refine ⟨fun q hq => ?_, fun q hq => hr.own q ((hop q).mp hq), ?_⟩
  · rw [hcalling]
    exact hr.allowed q ((hop q).mp hq)
  · simp only [reserve, hop]
    exact hr.room

omit [DecidableEq ι] in
theorem Reserved.idle (hi : Inv s) (hc : s.committing = false) (h0 : s.outstanding = 0) :
    Reserved k n s := by
  have hnone : ∀ p, ¬ (s.pc p).InOp := fun p hp => (hi.of_inOp hp).1.ne' h0
  refine ⟨fun p hp => absurd hp (hnone p), fun p hp => absurd hp (hnone p), ?_⟩
  have hzero : ∀ p, reserve k s p = 0 := fun p => if_neg (hnone p)
  rw [sum_congr rfl fun p _ => hzero p, sum_const_zero, hi.empty hc h0]
  exact Nat.zero_le _

/-- An operation gets in where there is room for all of its blocks and those of the others. -/
theorem Reserved.enter (hi : Inv s) (hr : Reserved k n s) {p : ι}
    (hroom : (s.lh.length : ℤ) + (s.outstanding + 1) * k ≤ n) :
    Reserved k n { s.goto p .inOp with
      outstanding := s.outstanding + 1
      logged := Function.update s.logged p ∅ } := by
  have hsum : ∑ q, reserve k s q ≤ #{q | (s.pc q).InOp} * k := by
    rw [card_filter, sum_mul]
    apply sum_le_sum
    intro q _
    rw [reserve]
    split_ifs
    · rw [Nat.one_mul]
      exact Nat.sub_le _ _
    · exact Nat.zero_le _
  have hall : s.lh.length + (#{q | (s.pc q).InOp} * k + k) ≤ n := by
    rw [hi.outstanding, add_mul, one_mul] at hroom
    exact_mod_cast hroom
  refine hr.update rfl rfl rfl (fun _ => Nat.zero_le _)
    (fun _ b hb => absurd hb (notMem_empty b)) (fun _ _ _ _ hb => hb) ?_
  rw [if_pos (by trivial), card_empty]
  change s.lh.length + _ + (k - 0) ≤ _
  omega

theorem Reserved.append (hr : Reserved k n s) {p : ι} {b : UInt32} (hp : s.pc p = .tested b) :
    Reserved k n (s.append p b) := by
  have hop : (s.pc p).InOp := by rw [hp]; trivial
  have hcard : (insert b (s.logged p)).card ≤ k := by
    have h := hr.allowed p hop
    rw [hp] at h
    rwa [insert_eq, union_comm]
  apply hr.update rfl rfl rfl
  · intro _
    change (insert b (s.logged p) ∪ ∅).card ≤ _
    rwa [union_empty]
  · intro _ c hc
    rcases mem_insert.mp hc with rfl | hc
    · exact mem_absorb.mpr (.inl rfl)
    · exact mem_absorb.mpr (.inr (hr.own p hop c hc))
  · exact fun _ _ _ c hc => mem_absorb.mpr (.inr hc)
  · have hself : reserve k s p = k - (s.logged p).card := if_pos hop
    have hold := hr.room
    change (absorb s.lh b).length + _ + (k - (insert b (s.logged p)).card) ≤ _
    rw [hself, absorb.eq_def]
    split_ifs with hb
    · have hle := card_le_card (subset_insert b (s.logged p))
      omega
    · have hnew : b ∉ s.logged p := fun h => hb (hr.own p hop b h)
      rw [card_insert_of_notMem hnew] at hcard ⊢
      rw [List.length_append, List.length_singleton]
      omega

theorem Reserved.step (hi : Inv s) (hr : Reserved k n s) (h : Change size s a t)
    (hd : ∀ p b, a = .logWrite p b → (insert b (s.logged p)).card ≤ k)
    (hroom : (s.lh.length : ℤ) + (s.outstanding + 1) * MAXOPBLOCKS ≤ LOGSIZE →
      (s.lh.length : ℤ) + (s.outstanding + 1) * k ≤ n) : Reserved k n t := by
  cases h with
  | @move _ p x hop _ _ _ hcalling _ =>
      refine hr.goto (t := s.goto p x) rfl rfl rfl hop.mp fun hx => ?_
      exact (card_le_card (union_subset_union_right hcalling)).trans (hr.allowed p (hop.mp hx))
  | @called p b hp =>
      have hop : (s.pc p).InOp := by rw [hp]; trivial
      refine hr.goto (t := s.goto p (.logWrite b)) rfl rfl rfl (fun _ => hop) fun _ => ?_
      have hcard := hd p b rfl
      rwa [insert_eq, union_comm] at hcard
  | @sized p b hp =>
      have hop : (s.pc p).InOp := by rw [hp]; trivial
      refine hr.goto (t := s.goto p (.sized b)) rfl rfl rfl (fun _ => hop) fun _ => ?_
      have h := hr.allowed p hop
      rwa [hp] at h
  | tooBig _ _ => exact ⟨hr.allowed, hr.own, hr.room⟩
  | @tryBegin p hp =>
      rw [State.tryBegin]
      split_ifs with hc hfull
      · exact hr.leave rfl rfl rfl not_false
      · exact hr.leave rfl rfl rfl not_false
      · exact hr.enter hi (hroom (not_lt.mp hfull))
  | append hp => exact hr.append hp
  | endOp hp =>
      rw [State.endOp_eq _ _ (hi.of_inOp (by rw [hp]; trivial)).2]
      split_ifs
      · exact hr.leave rfl rfl rfl not_false
      · exact Reserved.wakeup (hr.leave rfl rfl rfl not_false)
  | @clear p hp =>
      have hidle : ∀ q, ¬ (s.pc q).InOp := fun q hq => by
        have hpos := (hi.of_inOp hq).1
        rw [(hi.of_commits (p := p) (by rw [hp]; trivial)).2] at hpos
        exact lt_irrefl 0 hpos
      refine hr.update (t := { s.goto p .clearHead with lh := [] }) rfl rfl
        (Function.update_eq_self p s.logged).symm (fun h => h.elim) (fun h => h.elim)
        (fun q _ hq => absurd hq (hidle q)) ?_
      have hold := hr.room
      change 0 + ∑ q, reserve k s q + 0 ≤ _
      omega
  | finish _ => exact Reserved.wakeup (hr.leave rfl rfl rfl not_false)

abbrev OperationReachable (size : ℤ) : State ι → Prop :=
  TransitionRuns.Reaches (· = start) fun s t => ∃ a, operate size s a = some t

omit [Fintype ι] in
theorem operate_eq_some : operate size s a = some t ↔ Disciplined s a ∧ step size s a = some t :=
  Option.ite_none_right_eq_some

theorem OperationReachable.reserved (h : OperationReachable size s) :
    Inv s ∧ Reserved MAXOPBLOCKS LOGSIZE s := by
  apply h.invariant
  · rintro s rfl
    exact ⟨start_inv, .idle start_inv rfl rfl⟩
  · rintro s t _ ⟨hi, hr⟩ ⟨a, hstep⟩
    obtain ⟨hd, hstep⟩ := operate_eq_some.mp hstep
    refine ⟨hi.step (hi.change hstep), hr.step hi (hi.change hstep) ?_ id⟩
    rintro p b rfl
    exact hd

theorem OperationReachable.length_le (h : OperationReachable size s) : s.lh.length ≤ LOGSIZE :=
  (Nat.le_add_right _ _).trans h.reserved.2.room

/-- The calls of `log_write` since no operation was open: their blocks, the latest first, and the
most distinct blocks that one operation has passed. -/
structure Group where
  blocks : List UInt32
  most : ℕ

/-- What a step from `s` to `t` makes of the calls. -/
def Group.next (g : Group) (s t : State ι) (a : Action ι) : Group :=
  if t.outstanding = 0 then ⟨[], 0⟩
  else match a with
    | .logWrite p b => ⟨b :: g.blocks, max g.most (insert b (s.logged p)).card⟩
    | _ => g

/-- A call that has not made its first test is the only one for its block. -/
def Pc.Single (blocks : List UInt32) : Pc → Prop
  | .logWrite c => blocks.count c = 1
  | _ => True

instance (blocks : List UInt32) : DecidablePred (Pc.Single blocks) := fun pc => by
  cases pc <;> first | exact .isTrue trivial | exact inferInstanceAs (Decidable (_ = _))

/-- The callers of `log_write` ask for little: the operations of a group for `log.size - 2` blocks
together; or for `log.size - 1`, and nobody asks for a block again once all of them are asked for;
or each for less than `MAXOPBLOCKS`. -/
def Modest (g : Group) (s : State ι) : Action ι → Prop
  | .logWrite p b =>
      ((insert b g.blocks.toFinset).card : ℤ) ≤ mkfs.nlog - 2 ∨
        ((insert b g.blocks.toFinset).card : ℤ) ≤ mkfs.nlog - 1 ∧ b ∉ g.blocks ∧
          (∀ q, (s.pc q).Single g.blocks) ∨
        max g.most (insert b (s.logged p)).card < MAXOPBLOCKS
  | _ => True

instance (g : Group) (s : State ι) : (a : Action ι) → Decidable (Modest g s a)
  | .logWrite _ _ => inferInstanceAs (Decidable (_ ∨ _ ∨ _))
  | .beginOp _ | .endOp _ | .run _ | .wake _ => .isTrue trivial

structure Recorded (ι : Type) where
  state : State ι
  group : Group

/-- Steps of callers that ask for little, on a disk laid out by `mkfs`. -/
def record (r : Recorded ι) (a : Action ι) : Option (Recorded ι) :=
  if Modest r.group r.state a then
    (step mkfs.nlog r.state a).map fun t => ⟨t, r.group.next r.state t a⟩
  else none

abbrev ModestReachable : Recorded ι → Prop :=
  TransitionRuns.Reaches (· = ⟨start, ⟨[], 0⟩⟩) fun r u => ∃ a, record r a = some u

theorem record_eq_some {r u : Recorded ι} :
    record r a = some u ↔ Modest r.group r.state a ∧ step mkfs.nlog r.state a = some u.state ∧
      u.group = r.group.next r.state u.state a := by
  rw [record, Option.ite_none_right_eq_some, Option.map_eq_some_iff]
  constructor
  · rintro ⟨hm, t, ht, rfl⟩
    exact ⟨hm, ht, rfl⟩
  · rintro ⟨hm, ht, hg⟩
    exact ⟨hm, u.state, ht, by rw [← hg]⟩

variable {g : Group}

/-- The calls of `log_write(b)` under way. -/
def callers (s : State ι) (b : UInt32) : ℕ := #{p | b ∈ (s.pc p).calling}

/-- What is logged and what is on its way into the log was asked for. -/
def Asked (s : State ι) (g : Group) : Prop :=
  ∀ b, (if b ∈ s.lh then 1 else 0) + callers s b ≤ g.blocks.count b

omit [DecidableEq ι] in
theorem callers_mono (h : ∀ q, (t.pc q).calling ⊆ (s.pc q).calling) (b : UInt32) :
    callers t b ≤ callers s b :=
  card_le_card (monotone_filter_right _ fun q _ hq => h q hq)

omit [DecidableEq ι] in
theorem Asked.mono (h : Asked s g) (hlh : t.lh = s.lh)
    (hcalling : ∀ q, (t.pc q).calling ⊆ (s.pc q).calling) : Asked t g := by
  intro b
  rw [hlh]
  exact (Nat.add_le_add_left (callers_mono hcalling b) _).trans (h b)

theorem Asked.goto (h : Asked s g) {p : ι} {x : Pc} (hpc : t.pc = Function.update s.pc p x)
    (hlh : t.lh = s.lh) (hx : x.calling ⊆ (s.pc p).calling) : Asked t g := by
  apply h.mono hlh
  intro q
  rw [hpc]
  by_cases hq : q = p
  · subst hq
    rwa [Function.update_self]
  · rw [Function.update_of_ne hq]

omit [DecidableEq ι] in
theorem Asked.wakeup (h : Asked s g) : Asked s.wakeup g := by
  refine h.mono rfl fun q => ?_
  rw [State.wakeup_pc]
  split_ifs
  · exact empty_subset _
  · exact subset_rfl

omit [DecidableEq ι] in
theorem Asked.idle (hi : Inv s) (hc : s.committing = false) (h0 : s.outstanding = 0) :
    Asked s g := by
  intro b
  have hnone : callers s b = 0 := by
    apply card_eq_zero.mpr
    apply filter_eq_empty_iff.mpr
    intro p _
    rw [Pc.calling_of_not_inOp fun hp => (hi.of_inOp hp).1.ne' h0]
    exact notMem_empty b
  rw [hnone, hi.empty hc h0]
  exact Nat.zero_le _

theorem Asked.called (h : Asked s g) {p : ι} {b : UInt32} (hp : s.pc p = .inOp) (most : ℕ) :
    Asked (s.goto p (.logWrite b)) ⟨b :: g.blocks, most⟩ := by
  intro c
  have hupd : callers (s.goto p (.logWrite b)) c + (if c ∈ (s.pc p).calling then 1 else 0) =
      callers s c + if c ∈ (Pc.logWrite b).calling then 1 else 0 :=
    card_filter_update s.pc (fun x => c ∈ x.calling) p (.logWrite b)
  have hnone : c ∉ Pc.inOp.calling := notMem_empty c
  rw [hp, if_neg hnone] at hupd
  have hold := h c
  have hiff : c ∈ (Pc.logWrite b).calling ↔ b = c := by
    rw [eq_comm]
    exact mem_singleton
  simp only [hiff] at hupd
  change (if c ∈ s.lh then 1 else 0) + _ ≤ (b :: g.blocks).count c
  rw [List.count_cons, beq_eq_decide]
  simp only [decide_eq_true_eq]
  omega

theorem Asked.append (h : Asked s g) {p : ι} {b : UInt32} (hp : s.pc p = .tested b) :
    Asked (s.append p b) g := by
  intro c
  have hupd : callers (s.append p b) c + (if c ∈ (s.pc p).calling then 1 else 0) =
      callers s c + if c ∈ Pc.inOp.calling then 1 else 0 :=
    card_filter_update s.pc (fun x => c ∈ x.calling) p .inOp
  have hnone : c ∉ Pc.inOp.calling := notMem_empty c
  have hiff : c ∈ (Pc.tested b).calling ↔ c = b := mem_singleton
  rw [hp, if_neg hnone] at hupd
  have hold := h c
  change (if c ∈ absorb s.lh b then 1 else 0) + _ ≤ _
  simp only [hiff, mem_absorb] at hupd ⊢
  by_cases hc : c = b
  · rw [if_pos hc] at hupd
    rw [if_pos (.inl hc)]
    omega
  · rw [if_neg hc] at hupd
    simp only [hc, false_or]
    omega

omit [DecidableEq ι] in
theorem Asked.subset (h : Asked s g) : s.lh.toFinset ⊆ g.blocks.toFinset := by
  intro b hb
  have hle := h b
  rw [if_pos (List.mem_toFinset.mp hb)] at hle
  apply List.mem_toFinset.mpr
  apply List.count_pos_iff.mp
  omega

/-- The calls of a group ask for little. -/
def Group.Small (g : Group) (s : State ι) : Prop :=
  g.blocks.toFinset.card ≤ 28 ∨
    g.blocks.toFinset.card ≤ 29 ∧ (∀ q, (s.pc q).Single g.blocks) ∨ g.most < MAXOPBLOCKS

/-- The log of callers that ask for little. -/
structure Fits (s : State ι) (g : Group) : Prop where
  nodup : s.lh.Nodup
  asked : s.committing = false → Asked s g
  reserved : s.committing = false → g.most < MAXOPBLOCKS → Reserved 9 28 s
  small : g.Small s
  length : s.lh.length ≤ 29
  panicked : s.panicked ≠ some .tooBig

omit [DecidableEq ι] in
theorem length_le_of_small (hnodup : s.lh.Nodup) (hasked : Asked s g)
    (hreserved : g.most < MAXOPBLOCKS → Reserved 9 28 s) (hsmall : g.Small s) :
    s.lh.length ≤ 29 := by
  have hcard : s.lh.length ≤ g.blocks.toFinset.card := by
    rw [← List.toFinset_card_of_nodup hnodup]
    exact card_le_card hasked.subset
  rcases hsmall with h | ⟨h, -⟩ | h
  · omega
  · omega
  · have hroom := (hreserved h).room
    omega

omit [DecidableEq ι] in
theorem Fits.length_lt (hi : Inv s) (h : Fits s g) {p : ι} {b : UInt32}
    (hp : s.pc p = .logWrite b) :
    s.lh.length ≤ 28 := by
  have hnc := (hi.of_inOp (p := p) (by rw [hp]; trivial)).2
  have hasked := h.asked hnc
  have hcard : s.lh.length = s.lh.toFinset.card := (List.toFinset_card_of_nodup h.nodup).symm
  rcases h.small with hg | ⟨hg, hsingle⟩ | hg
  · exact hcard ▸ (card_le_card hasked.subset).trans hg
  · -- `b` is asked for once, by this call, and so is not in the log
    have hb := hasked b
    have hpos : 0 < callers s b :=
      card_filter_pos (p := p) (by rw [hp]; exact mem_singleton_self b)
    have hcount : g.blocks.count b = 1 := by
      have hq := hsingle p
      rwa [hp] at hq
    have hnew : b ∉ s.lh := fun hmem => by
      rw [if_pos hmem] at hb
      omega
    have hmem : b ∈ g.blocks.toFinset :=
      List.mem_toFinset.mpr (List.count_pos_iff.mp (by omega))
    have hsub : s.lh.toFinset ⊆ g.blocks.toFinset.erase b :=
      subset_erase.mpr ⟨hasked.subset, fun h => hnew (List.mem_toFinset.mp h)⟩
    have hle := card_le_card hsub
    rw [card_erase_of_mem hmem] at hle
    omega
  · have hroom := (h.reserved hnc hg).room
    omega

omit [Fintype ι] in
theorem step_logWrite {p : ι} {b : UInt32} (h : step size s (.logWrite p b) = some t) :
    s.pc p = .inOp ∧ t = s.goto p (.logWrite b) := by
  rw [step] at h
  split_ifs at h with _ hp
  cases h
  exact ⟨hp, rfl⟩

theorem Fits.called (h : Fits s g) {p : ι} {b : UInt32} (hp : s.pc p = .inOp)
    (hm : Modest g s (.logWrite p b)) :
    Fits (s.goto p (.logWrite b)) ⟨b :: g.blocks, max g.most (insert b (s.logged p)).card⟩ := by
  have hop : (s.pc p).InOp := by rw [hp]; trivial
  refine ⟨h.nodup, fun hc => (h.asked hc).called hp _, fun hc hmost => ?_, ?_, h.length, h.panicked⟩
  · have hr := h.reserved hc ((le_max_left _ _).trans_lt hmost)
    refine hr.goto (t := s.goto p (.logWrite b)) rfl rfl rfl (fun _ => hop) fun _ => ?_
    have hcard := (le_max_right _ _).trans_lt hmost
    rw [insert_eq, union_comm] at hcard
    exact Nat.le_of_lt_succ hcard
  · rcases hm with hm | ⟨hm, hnew, hsingle⟩ | hm
    · refine .inl ?_
      rw [List.toFinset_cons]
      change _ ≤ (30 : ℤ) - 2 at hm
      omega
    · refine .inr (.inl ⟨?_, fun q => ?_⟩)
      · rw [List.toFinset_cons]
        change _ ≤ (30 : ℤ) - 1 at hm
        omega
      · rw [State.goto_pc]
        split_ifs
        · change (b :: g.blocks).count b = 1
          rw [List.count_cons_self, List.count_eq_zero_of_not_mem hnew]
        · have hq := hsingle q
          cases hpc : s.pc q with
          | logWrite c =>
              rw [hpc] at hq
              change (b :: g.blocks).count c = 1
              have hne : b ≠ c := by
                rintro rfl
                exact hnew (List.count_pos_iff.mp (hq ▸ Nat.one_pos))
              rw [List.count_cons_of_ne hne]
              exact hq
          | outside | beginOp | asleep | inOp | sized | tested | commit | writeLog | writeHead
          | installTrans | clear | clearHead | commitDone => trivial
    · exact .inr (.inr hm)

omit [Fintype ι] [DecidableEq ι] in
theorem Group.Small.mono (h : g.Small s)
    (hpc : ∀ q c, t.pc q = .logWrite c → s.pc q = .logWrite c) : g.Small t := by
  rcases h with h | ⟨h, hsingle⟩ | h
  · exact .inl h
  · refine .inr (.inl ⟨h, fun q => ?_⟩)
    cases hq : t.pc q with
    | logWrite c =>
        have hold := hsingle q
        rwa [hpc q c hq] at hold
    | outside | beginOp | asleep | inOp | sized | tested | commit | writeLog | writeHead
    | installTrans | clear | clearHead | commitDone => trivial
  · exact .inr (.inr h)

omit [Fintype ι] in
theorem logWrite_of_goto {p q : ι} {x : Pc} {c : UInt32} (hx : ∀ b, x ≠ .logWrite b)
    (hpc : t.pc = Function.update s.pc p x) (h : t.pc q = .logWrite c) : s.pc q = .logWrite c := by
  rw [hpc, Function.update_apply] at h
  split_ifs at h
  · exact absurd h (hx c)
  · exact h

omit [Fintype ι] [DecidableEq ι] in
theorem logWrite_of_wakeup {q : ι} {c : UInt32} (h : s.wakeup.pc q = .logWrite c) :
    s.pc q = .logWrite c := by
  rw [State.wakeup_pc] at h
  split_ifs at h
  exact h

theorem Change.logWrite_of (hi : Inv s) (h : Change size s a t) (ha : ∀ p b, a ≠ .logWrite p b)
    {q : ι} {c : UInt32} (hq : t.pc q = .logWrite c) : s.pc q = .logWrite c := by
  cases h with
  | move _ _ _ hnew _ _ => exact logWrite_of_goto hnew rfl hq
  | called _ => exact absurd rfl (ha _ _)
  | tooBig _ _ => exact hq
  | sized _ | append _ | clear _ => exact logWrite_of_goto (by simp) rfl hq
  | tryBegin _ =>
      rw [State.tryBegin] at hq
      split_ifs at hq <;> exact logWrite_of_goto (by simp) rfl hq
  | endOp hp =>
      rw [State.endOp_eq _ _ (hi.of_inOp (by rw [hp]; trivial)).2] at hq
      split_ifs at hq
      · exact logWrite_of_goto (by simp) rfl hq
      · exact logWrite_of_goto (by simp) rfl (logWrite_of_wakeup hq)
  | finish _ => exact logWrite_of_goto (by simp) rfl (logWrite_of_wakeup hq)

theorem Asked.step (hi : Inv s) (h : Asked s g) (hchange : Change size s a t)
    (ha : ∀ p b, a ≠ .logWrite p b) (hc : t.committing = false) : Asked t g := by
  cases hchange with
  | move _ _ _ _ hcalling _ => exact h.goto rfl rfl hcalling
  | called _ => exact absurd rfl (ha _ _)
  | sized hp => exact h.goto rfl rfl (by rw [hp]; exact subset_rfl)
  | tooBig _ _ => exact h
  | tryBegin _ =>
      rw [State.tryBegin]
      split_ifs <;> exact h.goto rfl rfl (empty_subset _)
  | append hp => exact h.append hp
  | endOp hp =>
      rw [State.endOp_eq _ _ (hi.of_inOp (by rw [hp]; trivial)).2]
      split_ifs
      · exact h.goto rfl rfl (empty_subset _)
      · exact Asked.wakeup (h.goto rfl rfl (empty_subset _))
  | clear hp =>
      have hc' : s.committing = true := (hi.of_commits (by rw [hp]; trivial)).1
      exact absurd (hc'.symm.trans hc) (by decide)
  | finish _ => exact Asked.wakeup (h.goto rfl rfl (empty_subset _))

theorem Change.committing_of (hi : Inv s) (h : Change size s a t) (hc : t.committing = false) :
    s.committing = false ∨ t.outstanding = 0 := by
  cases h with
  | move _ _ _ _ _ _ | called _ | sized _ | tooBig _ _ | append _ | clear _ => exact .inl hc
  | tryBegin _ =>
      rw [State.tryBegin] at hc
      split_ifs at hc <;> exact .inl hc
  | endOp hp => exact .inl (hi.of_inOp (by rw [hp]; trivial)).2
  | finish hp => exact .inr (hi.of_commits (by rw [hp]; trivial)).2

theorem Fits.length_step (hi : Inv s) (h : Fits s g) (hchange : Change size s a t) :
    t.lh.length ≤ 29 := by
  cases hchange with
  | move _ _ _ _ _ _ | called _ | sized _ | tooBig _ _ | finish _ => exact h.length
  | tryBegin _ =>
      rw [State.tryBegin]
      split_ifs <;> exact h.length
  | @append p b hp =>
      have hnc := (hi.of_inOp (p := p) (by rw [hp]; trivial)).2
      refine length_le_of_small (nodup_absorb h.nodup b) ((h.asked hnc).append hp)
        (fun hmost => (h.reserved hnc hmost).append hp) (h.small.mono fun q c hq => ?_)
      exact logWrite_of_goto (by simp) rfl hq
  | endOp hp =>
      rw [State.endOp_eq _ _ (hi.of_inOp (by rw [hp]; trivial)).2]
      split_ifs <;> exact h.length
  | clear _ => exact Nat.zero_le _

theorem Fits.panicked_step (hi : Inv s) (h : Fits s g) (hchange : Change mkfs.nlog s a t) :
    t.panicked ≠ some .tooBig := by
  cases hchange with
  | move _ _ _ _ _ _ | called _ | sized _ | append _ | clear _ | finish _ => exact h.panicked
  | tooBig hp hfull =>
      have hlt := h.length_lt hi hp
      change (30 : ℤ) ≤ _ ∨ (30 : ℤ) - 1 ≤ _ at hfull
      omega
  | tryBegin _ =>
      rw [State.tryBegin]
      split_ifs <;> exact h.panicked
  | endOp hp =>
      rw [State.endOp_eq _ _ (hi.of_inOp (by rw [hp]; trivial)).2]
      split_ifs <;> exact h.panicked

/-- An operation that gets in next to another one leaves one block for it over, an operation that
gets in alone finds the log empty. -/
theorem Reserved.step_nine (hi : Inv s) (hr : Reserved 9 28 s) (hc : s.committing = false)
    (h : Change size s a t) (ha : ∀ p b, a ≠ .logWrite p b) : Reserved 9 28 t := by
  refine hr.step hi h (fun p b hab => absurd hab (ha p b)) fun hroom => ?_
  have hpos := hi.outstanding_nonneg
  change _ + _ * (10 : ℤ) ≤ 30 at hroom
  change _ + _ * (9 : ℤ) ≤ 28
  by_cases h0 : s.outstanding = 0
  · rw [hi.empty hc h0, h0]
    decide
  · omega

theorem Fits.step (hi : Inv s) (h : Fits s g) (hm : Modest g s a)
    (hstep : LogProtocol.step mkfs.nlog s a = some t) : Fits t (g.next s t a) := by
  have hchange := hi.change hstep
  have hi' := hi.step hchange
  have hlength := h.length_step hi hchange
  have hpanicked := h.panicked_step hi hchange
  have hnodup := hchange.nodup hi h.nodup
  by_cases h0 : t.outstanding = 0
  · have hnext : g.next s t a = ⟨[], 0⟩ := if_pos h0
    rw [hnext]
    exact ⟨hnodup, fun hc => .idle hi' hc h0, fun hc _ => .idle hi' hc h0, .inl (Nat.zero_le _),
      hlength, hpanicked⟩
  · have hother : (∀ p b, a ≠ .logWrite p b) → Fits t g := fun ha =>
      { nodup := hnodup
        asked hc := by
          have hc' := (hchange.committing_of hi hc).resolve_right h0
          exact (h.asked hc').step hi hchange ha hc
        reserved hc hmost := by
          have hc' := (hchange.committing_of hi hc).resolve_right h0
          exact (h.reserved hc' hmost).step_nine hi hc' hchange ha
        small := h.small.mono fun q c => hchange.logWrite_of hi ha
        length := hlength
        panicked := hpanicked }
    cases a with
    | logWrite p b =>
        obtain ⟨hp, rfl⟩ := step_logWrite hstep
        have hnext : g.next s (s.goto p (.logWrite b)) (.logWrite p b) =
            ⟨b :: g.blocks, max g.most (insert b (s.logged p)).card⟩ := if_neg h0
        rw [hnext]
        exact h.called hp hm
    | beginOp _ | endOp _ | run _ | wake _ =>
        change Fits t (if t.outstanding = 0 then ⟨[], 0⟩ else g)
        rw [if_neg h0]
        exact hother (by simp)

theorem ModestReachable.fits {r : Recorded ι} (h : ModestReachable r) :
    Inv r.state ∧ Fits r.state r.group := by
  apply h.invariant
  · rintro r rfl
    refine ⟨start_inv, List.nodup_nil, fun _ => .idle start_inv rfl rfl, fun _ _ =>
      .idle start_inv rfl rfl, .inl (Nat.zero_le _), Nat.zero_le _, ?_⟩
    change none ≠ _
    decide
  · rintro r u _ ⟨hi, hf⟩ ⟨a, hstep⟩
    obtain ⟨hm, hstep, hg⟩ := record_eq_some.mp hstep
    rw [hg]
    exact ⟨hi.step (hi.change hstep), hf.step hi hm hstep⟩

/-- A call of `log_write`, from its start to the end. -/
def logBlock (p : ι) (b : UInt32) : List (Action ι) := [.logWrite p b, .run p, .run p, .run p]

/-- Three operations that log `n` blocks in turn. -/
def threeOperations (n : ℕ) : List (Action (Fin 3)) :=
  [.beginOp 0, .run 0, .beginOp 1, .run 1, .beginOp 2, .run 2] ++
    ((List.range n).map fun k => logBlock (Fin.ofNat 3 k) (UInt32.ofNat (60 + k))).flatten

/-- On a disk laid out by `mkfs`, as long as the callers ask for little. -/
theorem log_fits {r : Recorded ι} (h : ModestReachable r) :
    r.state.panicked ≠ some .tooBig ∧ (r.state.lh.length : ℤ) ≤ mkfs.nlog - 1 := by
  have hfits := h.fits.2
  refine ⟨hfits.panicked, ?_⟩
  have hlength := hfits.length
  change _ ≤ (30 : ℤ) - 1
  omega

/-- Three operations fill the log to its last block. -/
theorem log_fits_full_log :
    ∃ r : Recorded (Fin 3), r.state.lh.length = 29 ∧ r.state.outstanding = 3 ∧
      r.state.panicked ≠ some .tooBig ∧ (r.state.lh.length : ℤ) ≤ mkfs.nlog - 1 := by
  have hrun : ((TransitionRuns.execute record (⟨start, ⟨[], 0⟩⟩ : Recorded (Fin 3))
      (threeOperations 29)).any fun r =>
        decide (r.state.lh.length = 29 ∧ r.state.outstanding = 3)) = true := by
    decide +kernel
  obtain ⟨r, hr, hprop⟩ := (Option.any_eq_true _ _).mp hrun
  obtain ⟨hlength, hout⟩ := of_decide_eq_true hprop
  exact ⟨r, hlength, hout, log_fits (TransitionRuns.Reaches.execute (.start rfl) hr)⟩

/-- The thirtieth block finds the log full, or, where two calls are past the first test together, is
written behind it. -/
theorem log_overflows :
    (∃ s : State (Fin 3), OperationReachable mkfs.nlog s ∧ s.panicked = some .tooBig) ∧
      ∃ s : State (Fin 3), OperationReachable mkfs.nlog s ∧ mkfs.nlog - 1 < (s.lh.length : ℤ) := by
  constructor
  · have hrun : ((TransitionRuns.execute (operate mkfs.nlog) (start : State (Fin 3))
        (threeOperations 29 ++ [.logWrite 2 89, .run 2])).any fun s =>
          decide (s.panicked = some .tooBig)) = true := by
      decide +kernel
    obtain ⟨s, hs, hprop⟩ := (Option.any_eq_true _ _).mp hrun
    exact ⟨s, TransitionRuns.Reaches.execute (.start rfl) hs, of_decide_eq_true hprop⟩
  · have hrun : ((TransitionRuns.execute (operate mkfs.nlog) (start : State (Fin 3))
        (threeOperations 28 ++ [.logWrite 1 88, .logWrite 2 89, .run 1, .run 2, .run 1, .run 2,
          .run 1, .run 2])).any fun s => decide (mkfs.nlog - 1 < (s.lh.length : ℤ))) = true := by
      decide +kernel
    obtain ⟨s, hs, hprop⟩ := (Option.any_eq_true _ _).mp hrun
    exact ⟨s, TransitionRuns.Reaches.execute (.start rfl) hs, of_decide_eq_true hprop⟩

end Room

end Alone

end LogProtocol

end Xv6Fairness
