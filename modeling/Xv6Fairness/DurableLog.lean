import Xv6Fairness.GroupCommits
import Xv6Fairness.LogCommit
import Xv6Fairness.LogProtocol

/-!
# The log as a durable store

Processes modify blocks between `begin_op` and `end_op` and hand them to `log_write`, the last one
to leave copies them to the log and home, block by block, and the machine may crash between any two
steps and recover. The whole is a store with group commit: seen from outside, a step is one of the
store's or none.
-/

namespace Xv6Fairness

open TransitionRuns GroupCommits
open LogProtocol (Pc)
open LogCommit (Machine InLog Group Clean HeadWritten commit run copyBlock writeHead recoverAfter
  headCount applied)

namespace DurableLog

structure System (ι : Type) where
  log : LogProtocol.State ι
  machine : Machine

inductive Action (ι : Type)
  | beginOp (p : ι)
  | modify (p : ι) (b : UInt32) (data : DiskBlock)   -- b->data = data; log_write(b)
  | endOp (p : ι)
  | run (p : ι)
  | wake (p : ι)
  | crash (stops : List ℕ)

/-- The block that a step of `commit` writes. -/
def written (start : ℕ) (lh : List UInt32) (m : Machine) : Pc → Machine
  | .writeLog tail => match lh[tail]? with
    | some b => copyBlock b.toNat (start + tail + 1) m
    | none => m
  | .writeHead => writeHead start lh m
  | .installTrans tail => match lh[tail]? with
    | some b => copyBlock (start + tail + 1) b.toNat m
    | none => m
  | .clearHead => writeHead start lh m
  | _ => m

variable {ι : Type} [DecidableEq ι]

/-- After a crash the processes are gone, and `recover_from_log` may crash as well before it
completes. -/
def step (start size : ℕ) (s : System ι) : Action ι → Option (System ι)
  | .beginOp p => (LogProtocol.step size s.log (.beginOp p)).map fun log => ⟨log, s.machine⟩
  | .modify p b data => (LogProtocol.step size s.log (.logWrite p b)).map fun log =>
      ⟨log, { s.machine with cache := Function.update s.machine.cache b.toNat data }⟩
  | .endOp p => (LogProtocol.step size s.log (.endOp p)).map fun log => ⟨log, s.machine⟩
  | .run p => (LogProtocol.step size s.log (.run p)).map fun log =>
      ⟨log, written start s.log.lh s.machine (s.log.pc p)⟩
  | .wake p => (LogProtocol.step size s.log (.wake p)).map fun log => ⟨log, s.machine⟩
  | .crash stops => some ⟨LogProtocol.start, .reboot (recoverAfter start stops s.machine.disk)⟩

/-- A process on its own may get into an operation or write the header. -/
def runEvent (log log' : LogProtocol.State ι) (p : ι) : Option (Event ι ℕ DiskBlock) :=
  match log.pc p with
  | .beginOp => if log'.pc p = .inOp then some (.enter p) else none
  | .writeHead => some .commit
  | _ => none

/-- What a step from `s` to `t` is for the store. -/
def event (s t : System ι) : Action ι → Option (Event ι ℕ DiskBlock)
  | .modify p b data => some (.write p b.toNat data)
  | .endOp p => some (.leave p)
  | .run p => runEvent s.log t.log p
  | .crash _ => some .crash
  | .beginOp _ | .wake _ => none

/-- Blocks outside the log. -/
def outside (start size : ℕ) (blocks : ℕ → DiskBlock) (b : ℕ) : DiskBlock :=
  if InLog start size b then fun _ => 0 else blocks b

/-- The system from outside: what a recovery makes of the disk, what the cache holds, and who is in
an operation. -/
def store (start size : ℕ) (s : System ι) : Store ι ℕ DiskBlock where
  committed := outside start size (recoverAfter start [] s.machine.disk)
  current := outside start size s.machine.cache
  busy := {p | (s.log.pc p).InOp}

/-- Operations modify blocks outside the log only. -/
def Proper (start size : ℕ) : Action ι → Prop
  | .modify _ b _ => ¬ InLog start size b.toNat
  | _ => True

instance (start size : ℕ) : (a : Action ι) → Decidable (Proper start size a)
  | .modify _ b _ => inferInstanceAs (Decidable (¬ InLog start size b.toNat))
  | .beginOp _ | .endOp _ | .run _ | .wake _ | .crash _ => .isTrue trivial

/-- The logged blocks fit the log on the disk and the header. -/
def Fitting (size : ℕ) (s : System ι) : Prop := s.log.lh.length < size ∧ s.log.lh.length ≤ LOGSIZE

instance (size : ℕ) (s : System ι) : Decidable (Fitting size s) :=
  inferInstanceAs (Decidable (_ ∧ _))

/-- Steps of operations that keep to home blocks while the log has room. -/
def stepFitting (start size : ℕ) (s : System ι) (a : Action ι) : Option (System ι) :=
  if Proper start size a then (step start size s a).filter fun t => decide (Fitting size t)
    else none

theorem stepFitting_eq_some {start size : ℕ} {s t : System ι} {a : Action ι} :
    stepFitting start size s a = some t ↔
      Proper start size a ∧ step start size s a = some t ∧ Fitting size t := by
  rw [stepFitting, Option.ite_none_right_eq_some, Option.filter_eq_some_iff, decide_eq_true_iff]

/-- After booting from a disk with an empty log. -/
def Initial (start size : ℕ) (s : System ι) : Prop :=
  s.log = LogProtocol.start ∧ s.machine = .reboot s.machine.disk ∧
    headCount (s.machine.disk start) = 0 ∧
    0 < size

variable {start size : ℕ} {lh lh₀ : List UInt32} {m : Machine} {b : ℕ} {k : ℕ}

omit [DecidableEq ι] in
theorem run_take_succ {steps : List (Machine → Machine)} {f : Machine → Machine}
    (h : steps[k]? = some f)
    (m : Machine) : run (steps.take (k + 1)) m = f (run (steps.take k) m) := by
  rw [List.take_add_one, h, LogCommit.run_append]
  rfl

theorem commit_getElem_log {x : UInt32} (h : lh[k]? = some x) :
    (commit start lh)[k]? = some (copyBlock x.toNat (start + k + 1)) := by
  obtain ⟨hk, rfl⟩ := List.getElem?_eq_some_iff.mp h
  rw [LogCommit.commit_of_pos (Nat.zero_lt_of_lt hk), List.append_assoc, List.getElem?_append_left]
  · rw [LogCommit.writeLog, List.getElem?_mapIdx, List.getElem?_eq_getElem hk]
    rfl
  · rwa [LogCommit.writeLog, List.length_mapIdx]

theorem commit_getElem_head (hpos : 0 < lh.length) :
    (commit start lh)[lh.length]? = some (writeHead start lh) := by
  rw [LogCommit.commit_of_pos hpos, List.append_assoc, List.getElem?_append_right]
  · rw [LogCommit.writeLog, List.length_mapIdx, Nat.sub_self]
    rfl
  · rw [LogCommit.writeLog, List.length_mapIdx]

theorem length_writeLog_head : (LogCommit.writeLog start lh ++ [writeHead start lh]).length =
    lh.length + 1 := by
  rw [List.length_append, LogCommit.writeLog, List.length_mapIdx]
  rfl

theorem commit_getElem_install {x : UInt32} (h : lh[k]? = some x) :
    (commit start lh)[lh.length + 1 + k]? = some (copyBlock (start + k + 1) x.toNat) := by
  obtain ⟨hk, rfl⟩ := List.getElem?_eq_some_iff.mp h
  rw [LogCommit.commit_of_pos (Nat.zero_lt_of_lt hk), List.getElem?_append_right]
  · rw [length_writeLog_head, Nat.add_sub_cancel_left, List.getElem?_append_left]
    · rw [LogCommit.installTrans, List.getElem?_mapIdx, List.getElem?_eq_getElem hk]
      rfl
    · rwa [LogCommit.installTrans, List.length_mapIdx]
  · rw [length_writeLog_head]
    exact Nat.le_add_right _ _

theorem commit_getElem_clear (hpos : 0 < lh.length) :
    (commit start lh)[lh.length + 1 + lh.length]? = some (writeHead start []) := by
  rw [LogCommit.commit_of_pos hpos, List.getElem?_append_right]
  · rw [length_writeLog_head, Nat.add_sub_cancel_left, List.getElem?_append_right]
    · rw [LogCommit.installTrans, List.length_mapIdx, Nat.sub_self]
      rfl
    · rw [LogCommit.installTrans, List.length_mapIdx]
  · rw [length_writeLog_head]
    exact Nat.le_add_right _ _

theorem commit_length (hpos : 0 < lh.length) :
    (commit start lh).length = lh.length + 1 + lh.length + 1 := by
  rw [LogCommit.commit_of_pos hpos, List.length_append, length_writeLog_head, List.length_append,
    LogCommit.installTrans, List.length_mapIdx]
  rfl

theorem length_commit_start (start start' : ℕ) (lh : List UInt32) :
    (commit start lh).length = (commit start' lh).length := by
  by_cases hpos : 0 < lh.length
  · rw [commit_length hpos, commit_length hpos]
  · rw [commit, commit, if_neg hpos, if_neg hpos]

section Cache

open LogCommit (places copies)

theorem swap_nodup (hg : Group start lh size) :
    (((places start lh).map Prod.swap).map Prod.snd).Nodup := by
  rw [List.map_map]
  change ((places start lh).map Prod.fst).Nodup
  rw [LogCommit.places_fst]
  exact hg.nodup.map fun _ _ h => UInt32.toNat.inj h

theorem swap_apart (hg : Group start lh size) {p q : ℕ × ℕ}
    (hp : p ∈ (places start lh).map Prod.swap)
    (hq : q ∈ (places start lh).map Prod.swap) : p.1 ≠ q.2 := by
  obtain ⟨x, hx, rfl⟩ := List.mem_map.mp hp
  obtain ⟨y, hy, rfl⟩ := List.mem_map.mp hq
  intro h
  change x.2 = y.1 at h
  exact hg.not_inLog hy (h ▸ (hg.inLog hx).1)

theorem copies_cache {l : List (ℕ × ℕ)} (hnodup : (l.map Prod.snd).Nodup)
    (hapart : ∀ p ∈ l, ∀ q ∈ l, p.1 ≠ q.2) (hsame : ∀ p ∈ l, m.cache p.1 = m.cache p.2) (b : ℕ) :
    (run (copies l) m).cache b = m.cache b := by
  by_cases hb : ∃ p ∈ l, b = p.2
  · obtain ⟨p, hp, rfl⟩ := hb
    rw [(LogCommit.run_copies_of_mem m hnodup hapart hp).2, hsame p hp]
  · exact (LogCommit.run_copies_of_ne m fun p hp h => hb ⟨p, hp, h⟩).2

theorem writeHead_cache (hg : Group start lh size) (hb : ¬ InLog start size b) (l : List UInt32)
    (m : Machine) :
    (writeHead start l m).cache b = m.cache b :=
  LogCommit.writeHead_cache_of_ne (fun h => hb (by rw [h]; exact hg.head_inLog)) l m

theorem writeLog_cache (hg : Group start lh size) (hb : ¬ InLog start size b) (k : ℕ) :
    (run ((LogCommit.writeLog start lh).take k) m).cache b = m.cache b := by
  rw [LogCommit.writeLog_eq, copies, ← List.map_take]
  refine (LogCommit.run_copies_of_ne m fun p hp h => hb ?_).2
  rw [h]
  exact (hg.inLog (List.mem_of_mem_take hp)).1

theorem writeLog_head_cache (hg : Group start lh size) (hb : ¬ InLog start size b) :
    (run (LogCommit.writeLog start lh ++ [writeHead start lh]) m).cache b = m.cache b := by
  rw [LogCommit.run_append]
  refine (writeHead_cache hg hb lh _).trans ?_
  have htake := writeLog_cache (m := m) hg hb (LogCommit.writeLog start lh).length
  rwa [List.take_length] at htake

theorem installTrans_cache (hg : Group start lh size)
    (hcache : ∀ p ∈ places start lh, m.cache p.2 = m.cache p.1) (b k : ℕ) :
    (run ((LogCommit.installTrans start lh).take k) m).cache b = m.cache b := by
  rw [LogCommit.installTrans_eq, copies, ← List.map_take]
  refine copies_cache ?_ (fun p hp q hq => ?_) (fun p hp => ?_) b
  · rw [List.map_take]
    exact (swap_nodup hg).sublist (List.take_sublist k _)
  · exact swap_apart hg (List.mem_of_mem_take hp) (List.mem_of_mem_take hq)
  · obtain ⟨x, hx, rfl⟩ := List.mem_map.mp (List.mem_of_mem_take hp)
    exact hcache x hx

theorem commit_cache (hg : Group start lh size) (hb : ¬ InLog start size b) (k : ℕ) :
    (run ((commit start lh).take k) m).cache b = m.cache b := by
  by_cases hpos : 0 < lh.length
  swap
  · have hnil : commit start lh = [] := if_neg hpos
    rw [hnil, List.take_nil]
    rfl
  rcases Nat.lt_or_ge lh.length k with hk | hk
  · have hcache : ∀ p ∈ places start lh,
        (run (LogCommit.writeLog start lh ++ [writeHead start lh]) m).cache p.2 =
          (run (LogCommit.writeLog start lh ++ [writeHead start lh]) m).cache p.1 := by
      intro p hp
      rw [(LogCommit.committed_of_writeHead hg m).2 p hp]
      exact (writeLog_head_cache hg (hg.not_inLog hp)).symm
    obtain ⟨j, rfl⟩ : ∃ j, k = (LogCommit.writeLog start lh ++ [writeHead start lh]).length + j :=
      ⟨k - (lh.length + 1), by rw [length_writeLog_head]; omega⟩
    have hinstalled := (installTrans_cache hg hcache b j).trans (writeLog_head_cache hg hb)
    rw [LogCommit.commit_of_pos hpos, List.take_length_add_append, LogCommit.run_append,
      List.take_append, LogCommit.run_append]
    cases j - (LogCommit.installTrans start lh).length with
    | zero => exact hinstalled
    | succ i =>
        rw [List.take_succ_cons, List.take_nil]
        exact (writeHead_cache hg hb [] _).trans hinstalled
  · rw [LogCommit.commit_of_pos hpos, List.append_assoc, List.take_append_of_le_length]
    · exact writeLog_cache hg hb k
    · rwa [LogCommit.writeLog, List.length_mapIdx]

end Cache

theorem commit_clean (hg : Group start lh size) (hempty : headCount (m.disk start) = 0)
    (hk : (commit start lh).length ≤ k) :
    Clean start size (applied lh m.disk m.cache) (run ((commit start lh).take k) m).disk := by
  rw [List.take_of_length_le hk]
  by_cases hpos : 0 < lh.length
  · obtain ⟨hc, hcache⟩ := LogCommit.committed_of_writeHead hg m
    have hinstalled := hc.installed hg hcache (Nat.lt_succ_self _)
    rwa [List.take_of_length_le, ← LogCommit.run_append,
      ← LogCommit.commit_of_pos hpos] at hinstalled
    rw [List.length_append, LogCommit.installTrans, List.length_mapIdx]
    rfl
  · have hnil : lh = [] := List.eq_nil_of_length_eq_zero (by omega)
    subst hnil
    exact ⟨hempty, fun _ _ => rfl⟩

/-- How far the process that commits has come: `k` blocks of the group are written. -/
def Stage (lh₀ lh : List UInt32) (k : ℕ) : Pc → Prop
  | .commit => lh = lh₀ ∧ k = 0
  | .writeLog tail => lh = lh₀ ∧ 0 < lh₀.length ∧ tail ≤ lh₀.length ∧ k = tail
  | .writeHead => lh = lh₀ ∧ 0 < lh₀.length ∧ k = lh₀.length
  | .installTrans tail => lh = lh₀ ∧ 0 < lh₀.length ∧ tail ≤ lh₀.length ∧ k = lh₀.length + 1 + tail
  | .clear => lh = lh₀ ∧ 0 < lh₀.length ∧ k = lh₀.length + 1 + lh₀.length
  | .clearHead => lh = [] ∧ 0 < lh₀.length ∧ k = lh₀.length + 1 + lh₀.length
  | .commitDone => lh = [] ∧ (commit 0 lh₀).length ≤ k
  | _ => False

variable {s s' : System ι} {t t' : Store ι ℕ DiskBlock} {p q : ι}

/-- No commit is under way. -/
structure Resting (start size : ℕ) (s : System ι) (t : Store ι ℕ DiskBlock) : Prop where
  clean : Clean start size t.committed s.machine.disk
  logged : ∀ b, ¬ InLog start size b → t.current b ≠ t.committed b →
    ∃ x : UInt32, x.toNat = b ∧ (x ∈ s.log.lh ∨ ∃ p, x ∈ (s.log.pc p).calling)

/-- A group is being committed. -/
structure Committing (start size : ℕ) (s : System ι) (t : Store ι ℕ DiskBlock) (m : Machine)
    (lh : List UInt32) (k : ℕ) : Prop where
  group : Group start lh size
  head : headCount (m.disk start) = 0
  machine : s.machine = run ((commit start lh).take k) m
  stage : ∀ p, (s.log.pc p).Commits → Stage lh s.log.lh k (s.log.pc p)
  others : ∀ b, ¬ InLog start size b → b ∉ lh.map UInt32.toNat → m.disk b = m.cache b
  before : ¬ HeadWritten lh k → ∀ b, ¬ InLog start size b → t.committed b = m.disk b
  after : HeadWritten lh k → ∀ b, ¬ InLog start size b → t.committed b = m.cache b

/-- The blocks that `log_write` is given are outside the log, and each one is in the log once. -/
structure Apart (start size : ℕ) (log : LogProtocol.State ι) : Prop where
  nodup : log.lh.Nodup
  home : ∀ x ∈ log.lh, ¬ InLog start size x.toNat
  calling : ∀ p, ∀ x ∈ (log.pc p).calling, ¬ InLog start size x.toNat

/-- The system stands for the store. -/
structure Stands (start size : ℕ) (s : System ι) (t : Store ι ℕ DiskBlock) : Prop where
  busy : ∀ p, p ∈ t.busy ↔ (s.log.pc p).InOp
  current : ∀ b, ¬ InLog start size b → s.machine.cache b = t.current b
  resting : s.log.committing = false → Resting start size s t
  committing : s.log.committing = true → ∃ m lh k, Committing start size s t m lh k

namespace Stands

omit [DecidableEq ι] in
theorem recovered (h : Stands start size s t) (hsize : 0 < size) (stops : List ℕ) :
    Clean start size t.committed (recoverAfter start stops s.machine.disk) := by
  cases hc : s.log.committing with
  | false => exact (h.resting hc).clean.recoverAfter hsize stops
  | true =>
      obtain ⟨m, lh, k, c⟩ := h.committing hc
      rw [c.machine]
      by_cases hk : HeadWritten lh k
      · have hclean : Clean start size (applied lh m.disk m.cache)
            (recoverAfter start stops (run ((commit start lh).take k) m).disk) := by
          rcases LogCommit.committed_of_headWritten (m := m) c.group hk with hc | hc
          · exact hc.recoverAfter c.group stops
          · exact hc.recoverAfter hsize stops
        refine ⟨hclean.head, fun b hb => (hclean.rest b hb).trans ?_⟩
        rw [applied, c.after hk b hb]
        split_ifs with hhome
        · rfl
        · exact c.others b hb hhome
      · have hclean :=
          (LogCommit.clean_of_not_headWritten c.group c.head hk).recoverAfter hsize stops
        exact ⟨hclean.head, fun b hb => (hclean.rest b hb).trans (c.before hk b hb).symm⟩

omit [DecidableEq ι] in
/-- A step that changes nothing but where processes are, outside operations and commits. -/
theorem of_same (h : Stands start size s t) (hmachine : s'.machine = s.machine)
    (hlh : s'.log.lh = s.log.lh) (hcommitting : s'.log.committing = s.log.committing)
    (hop : ∀ q, (s'.log.pc q).InOp ↔ (s.log.pc q).InOp)
    (hcalling : ∀ q, (s'.log.pc q).calling = (s.log.pc q).calling)
    (hstays : ∀ q, (s'.log.pc q).Commits → s'.log.pc q = s.log.pc q) : Stands start size s' t where
  busy q := (h.busy q).trans (hop q).symm
  current b hb := by
    rw [hmachine]
    exact h.current b hb
  resting hc := by
    obtain ⟨hclean, hlogged⟩ := h.resting (hcommitting ▸ hc)
    refine ⟨by rwa [hmachine], fun b hb hne => ?_⟩
    simp only [hlh, hcalling]
    exact hlogged b hb hne
  committing hc := by
    obtain ⟨m, lh, k, c⟩ := h.committing (hcommitting ▸ hc)
    refine ⟨m, lh, k, c.group, c.head, hmachine ▸ c.machine, fun q hq => ?_, c.others,
      c.before, c.after⟩
    have hpc := hstays q hq
    rw [hpc] at hq ⊢
    rw [hlh]
    exact c.stage q hq

omit [DecidableEq ι] in
theorem of_panic (h : Stands start size s t) (why : LogProtocol.Panic) :
    Stands start size ⟨s.log.panic why, s.machine⟩ t :=
  h.of_same rfl rfl rfl (fun _ => Iff.rfl) (fun _ => rfl) fun _ _ => rfl

theorem of_goto (h : Stands start size s t) {x y : Pc} (hp : s.log.pc p = y) (hop : x.InOp ↔ y.InOp)
    (hcalling : x.calling = y.calling) (hx : ¬ x.Commits) :
    Stands start size ⟨s.log.goto p x, s.machine⟩ t := by
  subst hp
  refine h.of_same rfl rfl rfl (fun q => ?_) (fun q => ?_) fun q hq => ?_
  · rw [LogProtocol.State.goto_pc]
    split_ifs with hq
    · rw [hq, hop]
    · exact Iff.rfl
  · rw [LogProtocol.State.goto_pc]
    split_ifs with hq
    · rw [hq, hcalling]
    · rfl
  · rw [LogProtocol.State.goto_pc] at hq ⊢
    split_ifs at hq ⊢
    · exact absurd hq hx
    · rfl

omit [DecidableEq ι] in
theorem of_wakeup (h : Stands start size s t) : Stands start size ⟨s.log.wakeup, s.machine⟩ t := by
  refine h.of_same rfl rfl rfl (fun q => ?_) (fun q => ?_) fun q hq => ?_
  · rw [LogProtocol.State.wakeup_pc]
    split_ifs with hq
    · rw [hq]
      exact Iff.rfl
    · exact Iff.rfl
  · rw [LogProtocol.State.wakeup_pc]
    split_ifs with hq
    · rw [hq]
      rfl
    · rfl
  · rw [LogProtocol.State.wakeup_pc] at hq ⊢
    split_ifs at hq ⊢
    · exact absurd hq not_false
    · rfl

/-- A process enters or leaves an operation, or moves on within one, while nobody commits. -/
theorem of_resting (h : Stands start size s t) (hc : s.log.committing = false)
    (hc' : s'.log.committing = false) {x : Pc} (hpc : s'.log.pc = Function.update s.log.pc p x)
    (hlh : ∀ y ∈ s.log.lh, y ∈ s'.log.lh)
    (hcalling : ∀ y ∈ (s.log.pc p).calling, y ∈ s'.log.lh ∨ y ∈ x.calling)
    (hdisk : s'.machine.disk = s.machine.disk) {busy : Set ι} {current : ℕ → DiskBlock}
    (hbusy : ∀ q, q ∈ busy ↔ if q = p then x.InOp else q ∈ t.busy)
    (hcurrent : ∀ b, ¬ InLog start size b → s'.machine.cache b = current b)
    (hchanged : ∀ b, ¬ InLog start size b → current b ≠ t.current b →
      ∃ y ∈ x.calling, y.toNat = b) :
    Stands start size s' ⟨t.committed, current, busy⟩ where
  busy q := by
    rw [hbusy, hpc, Function.update_apply]
    split_ifs
    · exact Iff.rfl
    · exact h.busy q
  current := hcurrent
  resting _ := by
    obtain ⟨hclean, hlogged⟩ := h.resting hc
    refine ⟨by rwa [hdisk], fun b hb hne => ?_⟩
    have hself : ∀ y ∈ x.calling, ∃ q, y ∈ (s'.log.pc q).calling := fun y hy =>
      ⟨p, by rwa [hpc, Function.update_self]⟩
    by_cases hsame : current b = t.current b
    · obtain ⟨y, hy, hin | ⟨q, hq⟩⟩ := hlogged b hb (by rwa [← hsame])
      · exact ⟨y, hy, .inl (hlh y hin)⟩
      · by_cases hqp : q = p
        · subst hqp
          exact ⟨y, hy, (hcalling y hq).imp_right (hself y)⟩
        · exact ⟨y, hy, .inr ⟨q, by rwa [hpc, Function.update_of_ne hqp]⟩⟩
    · obtain ⟨y, hy, rfl⟩ := hchanged b hb hsame
      exact ⟨y, rfl, .inr (hself y hy)⟩
  committing hc := absurd (hc'.symm.trans hc) Bool.false_ne_true

theorem tryBegin (h : Stands start size s t) (hp : s.log.pc p = .beginOp) :
    ∃ t', Stands start size ⟨s.log.tryBegin p, s.machine⟩ t' ∧
      t.Moves (runEvent s.log (s.log.tryBegin p) p) t' := by
  have hasleep : Stands start size ⟨s.log.goto p .asleep, s.machine⟩ t :=
    h.of_goto hp Iff.rfl rfl not_false
  have hsleep : runEvent s.log (s.log.goto p .asleep) p = none := by
    rw [runEvent, hp]
    refine if_neg ?_
    rw [LogProtocol.State.goto_pc, if_pos rfl]
    exact Pc.noConfusion
  rw [LogProtocol.State.tryBegin]
  split_ifs with hc hfull
  · exact ⟨t, hasleep, by rw [hsleep]; rfl⟩
  · exact ⟨t, hasleep, by rw [hsleep]; rfl⟩
  · have hfalse := Bool.eq_false_iff.mpr hc
    refine ⟨⟨t.committed, t.current, insert p t.busy⟩, ?_, ?_⟩
    · refine h.of_resting (p := p) (x := .inOp) hfalse ?_ rfl ?_ ?_ ?_ (fun q => ?_) ?_
        fun b _ hne => absurd rfl hne
      · exact hfalse
      · exact fun _ => id
      · rw [hp]
        exact fun y hy => absurd hy (Finset.notMem_empty y)
      · rfl
      · rw [Set.mem_insert_iff]
        split_ifs with hq
        · exact iff_of_true (.inl hq) trivial
        · exact or_iff_right hq
      · exact h.current
    · rw [runEvent, hp]
      change t.Moves (if Function.update s.log.pc p .inOp p = .inOp then some (.enter p)
        else none) _
      rw [Function.update_self, if_pos rfl]
      refine .enter fun hb => ?_
      rw [h.busy, hp] at hb
      exact hb

section Operations

variable [Fintype ι]

theorem modify (h : Stands start size s t) (hi : LogProtocol.Inv s.log) (hp : s.log.pc p = .inOp)
    (b : UInt32) (data : DiskBlock) :
    ∃ t', Stands start size ⟨s.log.goto p (.logWrite b),
        { s.machine with cache := Function.update s.machine.cache b.toNat data }⟩ t' ∧
      t.Moves (some (.write p b.toNat data)) t' := by
  have hop : (s.log.pc p).InOp := by
    rw [hp]
    trivial
  have hc := (hi.of_inOp hop).2
  refine ⟨⟨t.committed, Function.update t.current b.toNat data, t.busy⟩, ?_,
    .write ((h.busy p).mpr hop) b.toNat data⟩
  refine h.of_resting (p := p) (x := .logWrite b) hc ?_ rfl ?_ ?_ ?_ (fun q => ?_) (fun x hx => ?_)
    fun x _ hne => ?_
  · exact hc
  · exact fun _ => id
  · rw [hp]
    exact fun y hy => absurd hy (Finset.notMem_empty y)
  · rfl
  · split_ifs with hq
    · rw [hq]
      exact iff_of_true ((h.busy p).mpr hop) trivial
    · exact Iff.rfl
  · change Function.update s.machine.cache b.toNat data x = Function.update t.current b.toNat data x
    rw [Function.update_apply, Function.update_apply, h.current x hx]
  · have hx : x = b.toNat := by
      by_contra hx
      exact hne (Function.update_of_ne hx _ _)
    exact ⟨b, Finset.mem_singleton_self b, hx.symm⟩

theorem append (h : Stands start size s t) (hi : LogProtocol.Inv s.log) {b : UInt32}
    (hp : s.log.pc p = .tested b) : Stands start size ⟨s.log.append p b, s.machine⟩ t := by
  have hop : (s.log.pc p).InOp := by
    rw [hp]
    trivial
  have hc := (hi.of_inOp hop).2
  refine h.of_resting (p := p) (x := .inOp) hc ?_ rfl (fun y hy => ?_)
    (fun y hy => ?_) ?_ (fun q => ?_) ?_
    fun b _ hne => absurd rfl hne
  · exact hc
  · exact LogProtocol.mem_absorb.mpr (.inr hy)
  · rw [hp] at hy
    exact .inl (LogProtocol.mem_absorb.mpr (.inl (Finset.mem_singleton.mp hy)))
  · rfl
  · split_ifs with hq
    · rw [hq]
      exact iff_of_true ((h.busy p).mpr hop) trivial
    · exact Iff.rfl
  · exact h.current

theorem endOp (h : Stands start size s t) (hi : LogProtocol.Inv s.log)
    (hapart : Apart start size s.log)
    (hfitting : Fitting size s) (hp : s.log.pc p = .inOp) :
    ∃ t', Stands start size ⟨s.log.endOp p, s.machine⟩ t' ∧ t.Moves (some (.leave p)) t' := by
  have hop : (s.log.pc p).InOp := by
    rw [hp]
    trivial
  have hc := (hi.of_inOp hop).2
  have hi' := hi.endOp hp
  refine ⟨⟨t.committed, t.current, t.busy \ {p}⟩, ?_, .leave ((h.busy p).mpr hop)⟩
  rw [LogProtocol.State.endOp_eq _ _ hc] at hi' ⊢
  split_ifs at hi' ⊢ with hlast
  · obtain ⟨hclean, hlogged⟩ := h.resting hc
    have hbusy : ∀ q, q ∈ t.busy \ {p} ↔ (Function.update s.log.pc p Pc.commit q).InOp :=
      fun q => by
      rw [Set.mem_sdiff, Set.mem_singleton_iff, Function.update_apply, h.busy]
      split_ifs with hq
      · exact iff_of_false (fun hn => hn.2 hq) not_false
      · exact and_iff_left hq
    have hcalling : ∀ q, (s.log.pc q).calling = ∅ := fun q => by
      by_cases hq : q = p
      · rw [hq, hp]
        rfl
      · apply LogProtocol.Pc.calling_of_not_inOp
        intro hin
        have hpos := (hi'.of_inOp (p := q) (by
          change (Function.update s.log.pc p Pc.commit q).InOp
          rwa [Function.update_of_ne hq])).2
        exact absurd hpos.symm Bool.false_ne_true
    refine ⟨hbusy, h.current, fun hc' => absurd hc'.symm Bool.false_ne_true, fun _ => ?_⟩
    refine ⟨s.machine, s.log.lh, 0, ⟨hapart.nodup, hapart.home, hfitting.1, hfitting.2⟩,
      hclean.head, rfl,
      fun q hq => ?_, fun b hb hhome => ?_, fun _ b hb => (hclean.rest b hb).symm, fun hk => ?_⟩
    · change (Function.update s.log.pc p Pc.commit q).Commits at hq
      change Stage _ _ _ (Function.update s.log.pc p Pc.commit q)
      rw [Function.update_apply] at hq ⊢
      split_ifs at hq ⊢
      · exact ⟨rfl, rfl⟩
      · exact absurd (hi.of_commits hq).1 (Bool.eq_false_iff.mp hc)
    · have hsame : t.current b = t.committed b := by
        by_contra hne
        obtain ⟨x, rfl, hx | ⟨q, hq⟩⟩ := hlogged b hb hne
        · exact hhome (List.mem_map_of_mem hx)
        · rw [hcalling] at hq
          exact Finset.notMem_empty x hq
      rw [h.current b hb, hsame, hclean.rest b hb]
    · exact absurd hk.2 (Nat.not_lt_zero _)
  · have hleft : Stands start size
        ⟨{ s.log.goto p .outside with outstanding := s.log.outstanding - 1 }, s.machine⟩
        ⟨t.committed, t.current, t.busy \ {p}⟩ := by
      refine h.of_resting (p := p) (x := .outside) hc ?_ rfl ?_ ?_ ?_ (fun q => ?_) ?_
        fun b _ hne => absurd rfl hne
      · exact hc
      · exact fun _ => id
      · rw [hp]
        exact fun y hy => absurd hy (Finset.notMem_empty y)
      · rfl
      · rw [Set.mem_sdiff, Set.mem_singleton_iff]
        split_ifs with hq
        · exact iff_of_false (fun hn => hn.2 hq) not_false
        · exact and_iff_left hq
      · exact h.current
    exact hleft.of_wakeup

omit [DecidableEq ι] in
theorem commits_unique (hi : LogProtocol.Inv s.log) (hp : (s.log.pc p).Commits)
    (hq : (s.log.pc q).Commits) : q = p := by
  have hcard := hi.committers
  rw [if_pos (hi.of_commits hp).1] at hcard
  obtain ⟨r, hr⟩ := Finset.card_eq_one.mp hcard
  have hmem : ∀ x, (s.log.pc x).Commits → x = r := fun x hx =>
    Finset.mem_singleton.mp (hr ▸ Finset.mem_filter.mpr ⟨Finset.mem_univ x, hx⟩)
  rw [hmem p hp, hmem q hq]

theorem advance (h : Stands start size s t) (hi : LogProtocol.Inv s.log)
    (c : Committing start size s t m lh k) (hp : (s.log.pc p).Commits) {x : Pc} {n : ℕ}
    {committed : ℕ → DiskBlock} (hpc : s'.log.pc = Function.update s.log.pc p x)
    (hc' : s'.log.committing = true) (hmachine : s'.machine = run ((commit start lh).take n) m)
    (hstage : Stage lh s'.log.lh n x) (hop : ¬ x.InOp)
    (hbefore : ¬ HeadWritten lh n → ∀ b, ¬ InLog start size b → committed b = m.disk b)
    (hafter : HeadWritten lh n → ∀ b, ¬ InLog start size b → committed b = m.cache b) :
    Stands start size s' ⟨committed, t.current, t.busy⟩ where
  busy q := by
    rw [h.busy, hpc, Function.update_apply]
    split_ifs with hq
    · refine iff_of_false (fun hin => ?_) hop
      rw [hq] at hin
      have hfalse := (hi.of_inOp hin).2
      exact Bool.eq_false_iff.mp hfalse (hi.of_commits hp).1
    · exact Iff.rfl
  current b hb := by
    rw [hmachine, commit_cache c.group hb, ← commit_cache c.group hb k, ← c.machine]
    exact h.current b hb
  resting hc := absurd (hc.symm.trans hc') Bool.false_ne_true
  committing _ := by
    refine ⟨m, lh, n, c.group, c.head, hmachine, fun q hq => ?_, c.others, hbefore, hafter⟩
    rw [hpc, Function.update_apply] at hq ⊢
    split_ifs at hq ⊢ with hqp
    · exact hstage
    · exact absurd (commits_unique hi hp hq) hqp

theorem advance_same (h : Stands start size s t) (hi : LogProtocol.Inv s.log)
    (c : Committing start size s t m lh k) (hp : (s.log.pc p).Commits) {x : Pc} {n : ℕ}
    (hpc : s'.log.pc = Function.update s.log.pc p x) (hc' : s'.log.committing = true)
    (hmachine : s'.machine = run ((commit start lh).take n) m) (hstage : Stage lh s'.log.lh n x)
    (hop : ¬ x.InOp) (hhead : HeadWritten lh n ↔ HeadWritten lh k) : Stands start size s' t :=
  h.advance hi c hp hpc hc' hmachine hstage hop (fun hk => c.before (mt hhead.mpr hk))
    fun hk => c.after (hhead.mp hk)

theorem finish (h : Stands start size s t) (hi : LogProtocol.Inv s.log)
    (hp : s.log.pc p = .commitDone) :
    Stands start size ⟨s.log.finish p, s.machine⟩ t := by
  have hcommits : (s.log.pc p).Commits := by
    rw [hp]
    trivial
  obtain ⟨hc, hout⟩ := hi.of_commits hcommits
  obtain ⟨m, lh, k, c⟩ := h.committing hc
  have hstage := c.stage p hcommits
  rw [hp] at hstage
  obtain ⟨hlh, hk⟩ := hstage
  have hk : (commit start lh).length ≤ k := by
    rwa [length_commit_start start 0]
  have hcommitted : ∀ b, ¬ InLog start size b → t.committed b = m.cache b := by
    intro b hb
    by_cases hpos : 0 < lh.length
    · rw [commit_length hpos] at hk
      exact c.after ⟨hpos, by omega⟩ b hb
    · rw [c.before (fun h => hpos h.1) b hb]
      have hnil : lh = [] := List.eq_nil_of_length_eq_zero (by omega)
      exact c.others b hb (by rw [hnil]; exact List.not_mem_nil)
  refine of_wakeup (s := ⟨{ s.log.goto p .outside with committing := false }, s.machine⟩) ?_
  refine ⟨fun q => ?_, h.current, fun _ => ⟨?_, fun b hb hne => absurd ?_ hne⟩, fun hc' => ?_⟩
  · rw [h.busy]
    change _ ↔ (Function.update s.log.pc p Pc.outside q).InOp
    rw [Function.update_apply]
    split_ifs with hq
    · rw [hq, hp]
      exact Iff.rfl
    · exact Iff.rfl
  · have hclean := commit_clean c.group c.head hk
    rw [← c.machine] at hclean
    refine ⟨hclean.head, fun b hb => (hclean.rest b hb).trans ?_⟩
    rw [applied, hcommitted b hb]
    split_ifs with hhome
    · rfl
    · exact c.others b hb hhome
  · rw [← h.current b hb, c.machine, commit_cache c.group hb, hcommitted b hb]
  · exact absurd hc' Bool.false_ne_true

theorem commitStep (h : Stands start size s t) (hi : LogProtocol.Inv s.log)
    (hcommits : (s.log.pc p).Commits) {log : LogProtocol.State ι}
    (hrun : s.log.run p size = some log) :
    ∃ t', Stands start size ⟨log, written start s.log.lh s.machine (s.log.pc p)⟩ t' ∧
      t.Moves (runEvent s.log log p) t' := by
  obtain ⟨hc, hout⟩ := hi.of_commits hcommits
  obtain ⟨m, lh, k, c⟩ := h.committing hc
  have hstage := c.stage p hcommits
  have hmachine := c.machine
  rw [LogProtocol.State.run] at hrun
  cases hp : s.log.pc p with
  | outside | beginOp | asleep | inOp | logWrite _ | sized _ | tested _ =>
      rw [hp] at hcommits
      exact hcommits.elim
  | commit =>
      rw [hp] at hrun hstage
      cases hrun
      obtain ⟨hlh, rfl⟩ := hstage
      refine ⟨t, ?_, by rw [runEvent, hp]; rfl⟩
      refine h.advance_same (n := 0) hi c hcommits rfl hc hmachine ?_ ?_ Iff.rfl
      · split_ifs with hpos
        · exact ⟨hlh, hlh ▸ hpos, Nat.zero_le _, rfl⟩
        · have hnil : s.log.lh = [] := List.eq_nil_of_length_eq_zero (by omega)
          refine ⟨hnil, ?_⟩
          rw [← hlh, hnil]
          exact le_rfl
      · split_ifs <;> exact not_false
  | writeLog tail =>
      rw [hp] at hrun hstage
      cases hrun
      obtain ⟨hlh, hpos, hle, rfl⟩ := hstage
      refine ⟨t, ?_, by rw [runEvent, hp]; rfl⟩
      rw [written]
      split_ifs with htail
      · rw [List.getElem?_eq_getElem htail]
        have hget : lh[k]? = some s.log.lh[k] := by
          rw [← hlh, List.getElem?_eq_getElem htail]
        refine h.advance_same (n := k + 1) hi c hcommits rfl hc ?_ ?_ not_false ?_
        · rw [run_take_succ (commit_getElem_log hget), ← hmachine]
        · exact ⟨hlh, hpos, hlh ▸ htail, rfl⟩
        · rw [hlh] at htail
          exact iff_of_false (fun hk => by have := hk.2; omega) fun hk => by have := hk.2; omega
      · rw [List.getElem?_eq_none (not_lt.mp htail)]
        rw [hlh] at htail
        exact h.advance_same (n := k) hi c hcommits rfl hc hmachine
          ⟨hlh, hpos, by omega⟩ not_false Iff.rfl
  | writeHead =>
      rw [hp] at hrun hstage
      cases hrun
      obtain ⟨hlh, hpos, rfl⟩ := hstage
      have hidle : t.busy = ∅ := by
        refine Set.eq_empty_of_forall_notMem fun q hq => ?_
        have hpos := (hi.of_inOp ((h.busy q).mp hq)).1
        omega
      refine ⟨⟨t.current, t.current, t.busy⟩, ?_, by rw [runEvent, hp]; exact .commit hidle⟩
      refine h.advance (n := lh.length + 1) hi c hcommits rfl hc ?_ ⟨hlh, hpos, Nat.zero_le _,
        rfl⟩ not_false
        (fun hk => absurd ⟨hpos, Nat.lt_succ_self _⟩ hk) fun _ b hb => ?_
      · rw [run_take_succ (commit_getElem_head hpos), ← hmachine, ← hlh]
        rfl
      · rw [← h.current b hb, hmachine, commit_cache c.group hb]
  | installTrans tail =>
      rw [hp] at hrun hstage
      cases hrun
      obtain ⟨hlh, hpos, hle, rfl⟩ := hstage
      refine ⟨t, ?_, by rw [runEvent, hp]; rfl⟩
      rw [written]
      split_ifs with htail
      · rw [List.getElem?_eq_getElem htail]
        have hget : lh[tail]? = some s.log.lh[tail] := by
          rw [← hlh, List.getElem?_eq_getElem htail]
        refine h.advance_same (n := lh.length + 1 + tail + 1) hi c hcommits rfl hc ?_ ?_
          not_false ?_
        · rw [run_take_succ (commit_getElem_install hget), ← hmachine]
        · exact ⟨hlh, hpos, hlh ▸ htail, rfl⟩
        · exact iff_of_true ⟨hpos, by omega⟩ ⟨hpos, by omega⟩
      · rw [List.getElem?_eq_none (not_lt.mp htail)]
        rw [hlh] at htail
        obtain rfl : tail = lh.length := by omega
        exact h.advance_same hi c hcommits rfl hc hmachine ⟨hlh, hpos, rfl⟩ not_false Iff.rfl
  | clear =>
      rw [hp] at hrun hstage
      cases hrun
      obtain ⟨hlh, hpos, rfl⟩ := hstage
      refine ⟨t, ?_, by rw [runEvent, hp]; rfl⟩
      exact h.advance_same hi c hcommits rfl hc hmachine ⟨rfl, hpos, rfl⟩ not_false Iff.rfl
  | clearHead =>
      rw [hp] at hrun hstage
      cases hrun
      obtain ⟨hlh, hpos, rfl⟩ := hstage
      refine ⟨t, ?_, by rw [runEvent, hp]; rfl⟩
      refine h.advance_same (n := lh.length + 1 + lh.length + 1) hi c hcommits rfl hc ?_
        ⟨hlh, ?_⟩ not_false ?_
      · rw [run_take_succ (commit_getElem_clear hpos), ← hmachine, ← hlh]
        rfl
      · rw [commit_length hpos]
      · exact iff_of_true ⟨hpos, by omega⟩ ⟨hpos, by omega⟩
  | commitDone =>
      rw [hp] at hrun
      cases hrun
      exact ⟨t, h.finish hi hp, by rw [runEvent, hp]; rfl⟩

end Operations

omit [DecidableEq ι] in
theorem of_clean {content disk : ℕ → DiskBlock} (hclean : Clean start size content disk) :
    Stands start size (⟨LogProtocol.start, .reboot disk⟩ : System ι) ⟨content, content, ∅⟩ where
  busy _ := iff_of_false id not_false
  current := hclean.rest
  resting _ := ⟨hclean, fun _ _ hne => absurd rfl hne⟩
  committing hc := absurd hc Bool.false_ne_true

variable [Fintype ι]

theorem run (h : Stands start size s t) (hi : LogProtocol.Inv s.log) {log : LogProtocol.State ι}
    (hrun : s.log.run p size = some log) :
    ∃ t', Stands start size ⟨log, written start s.log.lh s.machine (s.log.pc p)⟩ t' ∧
      t.Moves (runEvent s.log log p) t' := by
  cases hp : s.log.pc p with
  | commit | writeLog _ | writeHead | installTrans _ | clear | clearHead | commitDone =>
      rw [← hp]
      exact h.commitStep hi (by rw [hp]; trivial) hrun
  | outside | asleep | inOp =>
      rw [LogProtocol.State.run, hp] at hrun
      cases hrun
  | beginOp =>
      rw [LogProtocol.State.run, hp] at hrun
      cases hrun
      exact h.tryBegin hp
  | logWrite b =>
      rw [LogProtocol.State.run, hp] at hrun
      cases hrun
      refine ⟨t, ?_, by rw [runEvent, hp]; rfl⟩
      split_ifs
      · exact h.of_panic _
      · exact h.of_goto hp Iff.rfl rfl not_false
  | sized b =>
      rw [LogProtocol.State.run, hp] at hrun
      cases hrun
      refine ⟨t, ?_, by rw [runEvent, hp]; rfl⟩
      split_ifs
      · exact h.of_panic _
      · exact h.of_goto hp Iff.rfl rfl not_false
  | tested b =>
      rw [LogProtocol.State.run, hp] at hrun
      cases hrun
      exact ⟨t, h.append hi hp, by rw [runEvent, hp]; rfl⟩

theorem step (h : Stands start size s t) (hi : LogProtocol.Inv s.log)
    (hapart : Apart start size s.log)
    (hfitting : Fitting size s) {a : Action ι} (hstep : DurableLog.step start size s a = some s') :
    ∃ t', Stands start size s' t' ∧ t.Moves (event s s' a) t' := by
  cases a with
  | beginOp p | wake p =>
      obtain ⟨log, hlog, rfl⟩ := Option.map_eq_some_iff.mp hstep
      obtain ⟨_, hlog⟩ := Option.ite_none_left_eq_some.mp hlog
      obtain ⟨hp, hlog⟩ := Option.ite_none_right_eq_some.mp hlog
      cases hlog
      exact ⟨t, h.of_goto hp Iff.rfl rfl not_false, rfl⟩
  | modify p b data =>
      obtain ⟨log, hlog, rfl⟩ := Option.map_eq_some_iff.mp hstep
      obtain ⟨_, hlog⟩ := Option.ite_none_left_eq_some.mp hlog
      obtain ⟨hp, hlog⟩ := Option.ite_none_right_eq_some.mp hlog
      cases hlog
      exact h.modify hi hp b data
  | endOp p =>
      obtain ⟨log, hlog, rfl⟩ := Option.map_eq_some_iff.mp hstep
      obtain ⟨_, hlog⟩ := Option.ite_none_left_eq_some.mp hlog
      obtain ⟨hp, hlog⟩ := Option.ite_none_right_eq_some.mp hlog
      cases hlog
      exact h.endOp hi hapart hfitting hp
  | run p =>
      obtain ⟨log, hlog, rfl⟩ := Option.map_eq_some_iff.mp hstep
      obtain ⟨_, hlog⟩ := Option.ite_none_left_eq_some.mp hlog
      exact h.run hi hlog
  | crash stops =>
      cases hstep
      exact ⟨_, of_clean (h.recovered (Nat.zero_lt_of_lt hfitting.1) stops), .crash⟩

end Stands

section Runs

variable [Fintype ι]

namespace Apart

variable {log log' : LogProtocol.State ι}

omit [Fintype ι] in
theorem update (h : Apart start size log) {x : Pc} (hpc : log'.pc = Function.update log.pc p x)
    (hnodup : log'.lh.Nodup) (hlh : ∀ y ∈ log'.lh, y ∈ log.lh ∨ y ∈ (log.pc p).calling)
    (hx : ∀ y ∈ x.calling, ¬ InLog start size y.toNat) : Apart start size log' where
  nodup := hnodup
  home y hy := (hlh y hy).elim (h.home y) (h.calling p y)
  calling q y hy := by
    rw [hpc, Function.update_apply] at hy
    split_ifs at hy
    · exact hx y hy
    · exact h.calling q y hy

omit [DecidableEq ι] [Fintype ι] in
theorem wakeup (h : Apart start size log) : Apart start size log.wakeup where
  nodup := h.nodup
  home := h.home
  calling q y hy := by
    rw [LogProtocol.State.wakeup_pc] at hy
    split_ifs at hy
    · exact absurd hy (Finset.notMem_empty y)
    · exact h.calling q y hy

theorem step (hi : LogProtocol.Inv log) (h : Apart start size log) {a : LogProtocol.Action ι}
    {room : ℤ}
    (hc : LogProtocol.Change room log a log')
    (hproper : ∀ p b, a = .logWrite p b → ¬ InLog start size b.toNat) : Apart start size log' := by
  have hnone : ∀ y ∈ (∅ : Finset UInt32), ¬ InLog start size y.toNat := fun y hy =>
    absurd hy (Finset.notMem_empty y)
  have hnodup := hc.nodup hi h.nodup
  cases hc with
  | @move _ p _ _ _ _ _ hcalling _ =>
      exact h.update rfl hnodup (fun _ => .inl) fun y hy => h.calling p y (hcalling hy)
  | @called p b _ =>
      refine h.update rfl hnodup (fun _ => .inl) fun y hy => ?_
      rw [Finset.mem_singleton.mp hy]
      exact hproper p b rfl
  | @sized p b hp =>
      exact h.update rfl hnodup (fun _ => .inl) fun y hy => h.calling p y (by rwa [hp])
  | tooBig _ _ => exact ⟨h.nodup, h.home, h.calling⟩
  | @tryBegin p hp =>
      rw [LogProtocol.State.tryBegin] at hnodup ⊢
      split_ifs at hnodup ⊢ <;> exact h.update rfl hnodup (fun _ => .inl) hnone
  | @append p b hp =>
      refine h.update rfl hnodup (fun y hy => ?_) hnone
      rw [hp]
      exact (LogProtocol.mem_absorb.mp hy).symm.imp_right Finset.mem_singleton.mpr
  | @endOp p hp =>
      rw [LogProtocol.State.endOp_eq _ _ (hi.of_inOp (by rw [hp]; trivial)).2] at hnodup ⊢
      split_ifs at hnodup ⊢
      · exact h.update rfl hnodup (fun _ => .inl) hnone
      · exact wakeup (h.update rfl hnodup (fun _ => .inl) hnone)
  | clear _ => exact h.update rfl hnodup (fun y hy => absurd hy List.not_mem_nil) hnone
  | finish _ => exact wakeup (h.update rfl hnodup (fun _ => .inl) hnone)

end Apart

/-- What holds of the log alone. -/
structure Sound (start size : ℕ) (s : System ι) : Prop where
  inv : LogProtocol.Inv s.log
  apart : Apart start size s.log
  fitting : Fitting size s

theorem Sound.log_step (h : Sound start size s) {a : LogProtocol.Action ι}
    {log : LogProtocol.State ι}
    (hlog : LogProtocol.step size s.log a = some log)
    (hproper : ∀ p b, a = .logWrite p b → ¬ InLog start size b.toNat) :
    LogProtocol.Inv log ∧ Apart start size log :=
  ⟨h.inv.step (h.inv.change hlog), h.apart.step h.inv (h.inv.change hlog) hproper⟩

theorem Sound.next (h : Sound start size s) {a : Action ι}
    (hn : stepFitting start size s a = some s') :
    Sound start size s' := by
  obtain ⟨hproper, hstep, hfitting⟩ := stepFitting_eq_some.mp hn
  suffices hs : LogProtocol.Inv s'.log ∧ Apart start size s'.log from ⟨hs.1, hs.2, hfitting⟩
  cases a with
  | beginOp p | endOp p | run p | wake p =>
      obtain ⟨log, hlog, rfl⟩ := Option.map_eq_some_iff.mp hstep
      exact h.log_step hlog (by rintro _ _ ⟨⟩)
  | modify p b data =>
      obtain ⟨log, hlog, rfl⟩ := Option.map_eq_some_iff.mp hstep
      exact h.log_step hlog (by rintro _ _ ⟨⟩; exact hproper)
  | crash stops =>
      cases hstep
      exact ⟨LogProtocol.start_inv, List.nodup_nil, fun _ hx => absurd hx List.not_mem_nil,
        fun _ x hx => absurd hx (Finset.notMem_empty x)⟩

abbrev Next (start size : ℕ) (s t : System ι) : Prop := ∃ a, stepFitting start size s a = some t

abbrev Reachable (start size : ℕ) : System ι → Prop := Reaches (Initial start size)
    (Next start size)

theorem Reachable.sound (h : Reachable start size s) : Sound start size s := by
  apply h.invariant
  · rintro ⟨_, _⟩ ⟨rfl, _, _, hsize⟩
    exact ⟨LogProtocol.start_inv, ⟨List.nodup_nil, fun _ hx => absurd hx List.not_mem_nil,
      fun _ x hx => absurd hx (Finset.notMem_empty x)⟩, hsize, Nat.zero_le _⟩
  · exact fun s t _ h ⟨_, hn⟩ => h.next hn

omit [DecidableEq ι] [Fintype ι] in
theorem Initial.stands (h : Initial start size s) :
    Stands start size s ⟨s.machine.disk, s.machine.disk, ∅⟩ := by
  obtain ⟨log, machine⟩ := s
  obtain ⟨rfl, hmachine, hhead, _⟩ := h
  obtain ⟨disk, rfl⟩ : ∃ disk, machine = .reboot disk := ⟨_, hmachine⟩
  exact .of_clean ⟨hhead, fun _ _ => rfl⟩

theorem Reachable.step_stands (h : Reachable start size s) (hs : Stands start size s t)
    {a : Action ι}
    (hn : stepFitting start size s a = some s') :
    ∃ t', Stands start size s' t' ∧ t.Moves (event s s' a) t' := by
  have hsound := h.sound
  exact hs.step hsound.inv hsound.apart hsound.fitting (stepFitting_eq_some.mp hn).2.1

theorem Reachable.stands (h : Reachable start size s) :
    ∃ t : Store ι ℕ DiskBlock, Stands start size s t := by
  apply h.invariant
  · exact fun s h => ⟨_, h.stands⟩
  · rintro s s' hs ⟨t, h⟩ ⟨a, ha⟩
    obtain ⟨t', h', _⟩ := Reachable.step_stands hs h ha
    exact ⟨t', h'⟩

omit [DecidableEq ι] [Fintype ι] in
theorem Stands.store_eq (h : Stands start size s t) (hsize : 0 < size) :
    store start size s = t.view (outside start size) := by
  have hcommitted : outside start size (recoverAfter start [] s.machine.disk) =
      outside start size t.committed := by
    funext b
    rw [outside, outside]
    split_ifs with hb
    · rfl
    · exact (h.recovered hsize []).rest b hb
  have hcurrent : outside start size s.machine.cache = outside start size t.current := by
    funext b
    rw [outside, outside]
    split_ifs with hb
    · rfl
    · exact h.current b hb
  have hbusy : {p | (s.log.pc p).InOp} = t.busy := Set.ext fun p => (h.busy p).symm
  rw [store, hcommitted, hcurrent, hbusy]
  rfl

theorem outside_update {b : ℕ} (hb : ¬ InLog start size b) (blocks : ℕ → DiskBlock)
    (data : DiskBlock) : outside start size (Function.update blocks b data) =
      Function.update (outside start size blocks) b data := by
  funext c
  rw [outside, Function.update_apply, Function.update_apply]
  split_ifs with hc hcb hcb
  · exact absurd (hcb ▸ hc) hb
  · exact (if_pos hc).symm
  · rfl
  · exact (if_neg hc).symm

omit [DecidableEq ι] [Fintype ι] in
theorem proper_of_event {a : Action ι} (hproper : Proper start size a) {b : ℕ} {data : DiskBlock}
    (h : event s s' a = some (.write p b data)) : ¬ InLog start size b := by
  cases a with
  | modify q x data' =>
      cases h
      exact hproper
  | run q =>
      change runEvent _ _ _ = _ at h
      rw [runEvent] at h
      split at h
      · split_ifs at h
        cases h
      · cases h
      · cases h
  | beginOp _ | endOp _ | wake _ | crash _ => cases h

/-- The states of a run, the latest first. -/
abbrev Run (start size : ℕ) : List (System ι) → Prop := Trace (Initial start size) (Next start size)

/-- What is permanent was in the cache at a moment of the run without an operation under way. -/
theorem Run.stands {past : List (System ι)} (h : Run start size (s :: past)) :
    ∃ t : Store ι ℕ DiskBlock, Stands start size s t ∧ ∃ s₀ ∈ s :: past,
      (∀ p, ¬ (s₀.log.pc p).InOp) ∧
        ∀ b, ¬ InLog start size b → s₀.machine.cache b = t.committed b := by
  generalize hl : s :: past = l at h
  induction h generalizing s past with
  | start h =>
      cases hl
      refine ⟨_, h.stands, _, List.mem_singleton_self _, fun p => ?_, h.stands.current⟩
      rw [h.1]
      exact not_false
  | @step s' s past hr hn ih =>
      cases hl
      obtain ⟨t, hs, s₀, hmem, hidle, hcontent⟩ := ih rfl
      obtain ⟨a, ha⟩ := hn
      obtain ⟨t', hs', hmoves⟩ := Reachable.step_stands (Trace.reaches hr) hs ha
      refine ⟨t', hs', ?_⟩
      rcases hmoves.committed with hsame | ⟨hbusy, hsame⟩
      · rw [hsame]
        exact ⟨s₀, List.mem_cons_of_mem _ hmem, hidle, hcontent⟩
      · rw [hsame]
        refine ⟨s', List.mem_cons_of_mem _ List.mem_cons_self, fun p hp => ?_, hs.current⟩
        have hin := (hs.busy p).mpr hp
        rw [hbusy] at hin
        exact hin

omit [DecidableEq ι] in
/-- With no operation and no commit under way nothing is waiting to become permanent. -/
theorem Stands.settled (h : Stands start size s t) (hi : LogProtocol.Inv s.log)
    (hc : s.log.committing = false) (hout : s.log.outstanding = 0) (hb : ¬ InLog start size b) :
    t.committed b = s.machine.cache b := by
  rw [h.current b hb]
  by_contra hne
  obtain ⟨x, _, hx | ⟨q, hq⟩⟩ := (h.resting hc).logged b hb (Ne.symm hne)
  · rw [hi.empty hc hout] at hx
    exact List.not_mem_nil hx
  · by_cases hin : (s.log.pc q).InOp
    · have hpos := (hi.of_inOp hin).1
      omega
    · rw [LogProtocol.Pc.calling_of_not_inOp hin] at hq
      exact Finset.notMem_empty x hq

/-- The log with its processes and crashes is a store with group commit: every step is the store's
step of its name, or none. -/
theorem durable_log :
    (∀ s : System ι, Initial start size s → (store start size s).Fresh) ∧
      ∀ s : System ι, Reachable start size s →
        (∀ b, ¬ InLog start size b → ∀ stops,
          recoverAfter start stops s.machine.disk b = (store start size s).committed b) ∧
        ∀ a s', stepFitting start size s a = some s' →
          (store start size s).Moves (event s s' a) (store start size s') := by
  refine ⟨fun s hinit => ?_, fun s h => ⟨fun b hb stops => ?_, fun a s' hn => ?_⟩⟩
  · rw [hinit.stands.store_eq hinit.2.2.2]
    exact ⟨rfl, rfl⟩
  · obtain ⟨t, hs⟩ := h.stands
    have hsize : 0 < size := Nat.zero_lt_of_lt h.sound.fitting.1
    rw [hs.store_eq hsize, (hs.recovered hsize stops).rest b hb]
    exact (if_neg hb).symm
  · obtain ⟨t, hs⟩ := h.stands
    obtain ⟨t', hs', hmoves⟩ := h.step_stands hs hn
    have hsize : 0 < size := Nat.zero_lt_of_lt h.sound.fitting.1
    rw [hs.store_eq hsize, hs'.store_eq hsize]
    refine hmoves.view fun p b data hevent blocks => ?_
    exact outside_update (proper_of_event (stepFitting_eq_some.mp hn).1 hevent) blocks data

/-- After a crash the blocks are as they were at a moment of the run without an operation under way,
at the latest when the last process has left. -/
theorem crash_consistent {past : List (System ι)} (h : Run start size (s :: past)) :
    (∃ s₀ ∈ s :: past, (∀ p, ¬ (s₀.log.pc p).InOp) ∧ ∀ b, ¬ InLog start size b → ∀ stops,
        recoverAfter start stops s.machine.disk b = s₀.machine.cache b) ∧
      (s.log.committing = false → s.log.outstanding = 0 → ∀ b, ¬ InLog start size b → ∀ stops,
        recoverAfter start stops s.machine.disk b = s.machine.cache b) := by
  obtain ⟨t, hs, s₀, hmem, hidle, hcontent⟩ := h.stands
  have hsound := Reachable.sound (Trace.reaches h)
  have hsize : 0 < size := Nat.zero_lt_of_lt hsound.fitting.1
  refine ⟨⟨s₀, hmem, hidle, fun b hb stops => ?_⟩, fun hc hout b hb stops => ?_⟩
  · rw [(hs.recovered hsize stops).rest b hb, hcontent b hb]
  · rw [(hs.recovered hsize stops).rest b hb, hs.settled hsound.inv hc hout hb]

end Runs

def empty : System Bool := ⟨LogProtocol.start, .reboot fun _ _ => 0⟩

theorem empty_initial : Initial mkfs.logstart mkfs.nlog empty := ⟨rfl, rfl, rfl, by decide⟩

/-- Process `false` has logged block 60 and is to write the header, and `true` waits to begin. -/
def toHead : List (Action Bool) :=
  [.beginOp false, .run false, .modify false 60 fun _ => 7, .run false, .run false, .run false,
    .beginOp true, .endOp false, .run true, .run false, .run false, .run false]

theorem durable_log_one_block :
    ∃ s s' : System Bool, Reachable mkfs.logstart mkfs.nlog s ∧ s.log.pc true = .asleep ∧
      stepFitting mkfs.logstart mkfs.nlog s (.run false) = some s' ∧
      (store mkfs.logstart mkfs.nlog s).Moves (some .commit)
      (store mkfs.logstart mkfs.nlog s') := by
  have hrun : ((execute (stepFitting mkfs.logstart mkfs.nlog) empty toHead).any fun s =>
      decide (s.log.pc false = .writeHead ∧ s.log.pc true = .asleep) &&
        (stepFitting mkfs.logstart mkfs.nlog s (.run false)).isSome) = true := by
    decide +kernel
  obtain ⟨s, hs, hprop⟩ := (Option.any_eq_true _ _).mp hrun
  obtain ⟨hpc, hsome⟩ := Bool.and_eq_true_iff.mp hprop
  obtain ⟨hhead, hasleep⟩ := of_decide_eq_true hpc
  obtain ⟨s', hn⟩ := Option.isSome_iff_exists.mp hsome
  have hreach : Reachable mkfs.logstart mkfs.nlog s := Reaches.execute (.start empty_initial) hs
  have hmoves := (durable_log.2 s hreach).2 _ s' hn
  have hevent : event s s' (.run false) = some .commit := by
    change runEvent _ _ _ = _
    rw [runEvent, hhead]
  rw [hevent] at hmoves
  exact ⟨s, s', hreach, hasleep, hn, hmoves⟩

theorem crash_consistent_one_block :
    ∃ (s : System Bool) (past : List (System Bool)), Run mkfs.logstart mkfs.nlog (s :: past) ∧
      s.log.pc false = .installTrans 0 ∧ ∃ s₀ ∈ s :: past, (∀ p, ¬ (s₀.log.pc p).InOp) ∧
        ∀ stops, recoverAfter mkfs.logstart stops s.machine.disk 60 = s₀.machine.cache 60 := by
  have hrun : ((execute (stepFitting mkfs.logstart mkfs.nlog) empty (toHead ++ [.run false])).any
      fun s => decide (s.log.pc false = .installTrans 0)) = true := by
    decide +kernel
  obtain ⟨s, hs, hprop⟩ := (Option.any_eq_true _ _).mp hrun
  obtain ⟨past, htrace⟩ := Trace.execute (.start empty_initial) hs
  obtain ⟨s₀, hmem, hidle, hcontent⟩ := (crash_consistent htrace).1
  exact ⟨s, past, htrace, of_decide_eq_true hprop, s₀, hmem, hidle,
    fun stops => hcontent 60 (by decide) stops⟩

end DurableLog

end Xv6Fairness
