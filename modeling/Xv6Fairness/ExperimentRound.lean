import Mathlib.Data.Finset.Basic
import Mathlib.Data.Finset.Lattice.Lemmas
import Mathlib.Data.List.Perm.Subperm

/-!
# The processes of a round

A round forks up to twenty children of two kinds in turn and then waits once for each of them; a
child that has terminated is matched with its start time by a linear search for its pid. What the
kernel promises about `fork` and `wait` is collected in `Kernel`: any pattern of failed forks, any
order of termination and any reading of the clock is a kernel.
-/

namespace Xv6Fairness

def MAX_PROCS : ℕ := 20

/-- The system calls of a process as it sees them, with the set of its children. -/
structure Kernel where
  State : Type
  children : State → Finset Int32
  fork : State → Int32 × State
  wait : State → Int32 × State
  uptime : State → Int32 × State
  sleep : State → State
  fork_children : ∀ k,
    (0 < (fork k).1 ∧ (fork k).1 ∉ children k ∧
      children (fork k).2 = insert (fork k).1 (children k)) ∨
    ((fork k).1 = -1 ∧ children (fork k).2 = children k)
  wait_children : ∀ k, (children k).Nonempty →
    (wait k).1 ∈ children k ∧ children (wait k).2 = (children k).erase (wait k).1
  uptime_children : ∀ k, children (uptime k).2 = children k
  sleep_children : ∀ k, children (sleep k) = children k

/-- The lines that `run_experiment` and `main` print, with the numbers in them. -/
inductive Line
  | maxProcs
  | cpuForkFailed
  | ioForkFailed
  | unknownPid (pid : Int32)
  | noExecutionTime
  | normThroughput (digits : UInt32)
  | noThroughputRange
  | eFs (digits : UInt32)
  | noIoTime
  | noIoProcesses
  | mOver (digits : UInt32)
  | noMemTime
  | jCpu (digits : UInt32)
  | noJDenominator
  | noSquares
  | roundTime (ticks : Int32)
  | sPerform (digits : UInt32)
  | noSPerform
  | separator
  deriving DecidableEq

/-- The arrays of a round up to `pid_index`, and what has been written of the other two. The last
three fields record the successful forks, the results of `wait` and the indices written. -/
structure Round where
  pids : List Int32
  pids_le : pids.length ≤ MAX_PROCS
  startTimes : List Int32
  endTimes : ℕ → Option Int32
  executionTimes : ℕ → Option Int32
  completed : ℕ
  out : List Line
  forks : ℕ
  waited : List Int32
  written : List ℕ

namespace Round

def empty : Round where
  pids := []
  pids_le := Nat.zero_le _
  startTimes := []
  endTimes := fun _ => none
  executionTimes := fun _ => none
  completed := 0
  out := []
  forks := 0
  waited := []
  written := []

variable (r : Round)

def pidIndex : ℕ := r.pids.length

def print (line : Line) : Round := { r with out := r.out ++ [line] }

def forked : Round := { r with forks := r.forks + 1 }

def start (h : r.pids.length < MAX_PROCS) (pid time : Int32) : Round :=
  { r with
    pids := r.pids ++ [pid]
    pids_le := by
      rw [List.length_append, List.length_singleton]
      omega
    startTimes := r.startTimes ++ [time] }

def reaped (pid : Int32) : Round := { r with waited := pid :: r.waited }

def finish (idx : ℕ) (time : Int32) : Round :=
  { r with
    endTimes := Function.update r.endTimes idx (some time)
    executionTimes := Function.update r.executionTimes idx
      (r.startTimes[idx]?.map fun start => time - start)
    completed := r.completed + 1
    written := idx :: r.written }

/-- The execution times as the loop over `pid_index` reads them; `none` if one was never written. -/
def times : Option (List Int32) := (List.range r.pidIndex).mapM r.executionTimes

end Round

section Program

variable (K : Kernel)

/-- One `fork` of the first loop; the branch of the child does not return to it. -/
def spawn (failed : Line) (s : K.State × Round) : K.State × Round :=
  let (pid, k) := K.fork s.1
  if 0 < pid then
    let r := s.2.forked
    if h : r.pids.length < MAX_PROCS then
      let (time, k) := K.uptime k
      (k, r.start h pid time)
    else (k, r.print .maxProcs)
  else (k, s.2.print failed)

def spawnLoop (cpuBoundProcs ioBoundProcs i : ℕ) (s : K.State × Round) : K.State × Round :=
  if i < cpuBoundProcs ∨ i < ioBoundProcs then
    let s := if i < cpuBoundProcs then spawn K .cpuForkFailed s else s
    let s := if i < ioBoundProcs then spawn K .ioForkFailed s else s
    spawnLoop cpuBoundProcs ioBoundProcs (i + 1) (K.sleep s.1, s.2)
  else s
termination_by max cpuBoundProcs ioBoundProcs - i

def waitOne (s : K.State × Round) : K.State × Round :=
  let (pid, k) := K.wait s.1
  let r := s.2.reaped pid
  match r.pids.idxOf? pid with
  | some idx =>
    let (time, k) := K.uptime k
    (k, r.finish idx time)
  | none => (k, r.print (.unknownPid pid))

def waitLoop : ℕ → K.State × Round → K.State × Round
  | 0, s => s
  | n + 1, s => waitLoop n (waitOne K s)

/-- `run_experiment` up to the execution time of the round. -/
def runProcesses (cpuBoundProcs ioBoundProcs : ℕ) (k : K.State) : K.State × Round × Int32 :=
  let (startTime, k) := K.uptime k
  let s := spawnLoop K cpuBoundProcs ioBoundProcs 0 (k, .empty)
  let s := waitLoop K s.2.pidIndex s
  let (endTime, k) := K.uptime s.1
  (k, s.2, endTime - startTime)

end Program

section Equations

variable {K : Kernel} {s : K.State × Round} {failed : Line}

theorem spawn_recorded (hpos : 0 < (K.fork s.1).1) (h : s.2.pids.length < MAX_PROCS) :
    spawn K failed s = ((K.uptime (K.fork s.1).2).2,
      s.2.forked.start h (K.fork s.1).1 (K.uptime (K.fork s.1).2).1) := by
  rw [spawn]
  simp only [if_pos hpos]
  exact dif_pos h

theorem spawn_failed (hneg : ¬ 0 < (K.fork s.1).1) :
    spawn K failed s = ((K.fork s.1).2, s.2.print failed) := by
  rw [spawn]
  exact if_neg hneg

theorem waitOne_found {idx : ℕ} (h : s.2.pids.idxOf? (K.wait s.1).1 = some idx) :
    waitOne K s = ((K.uptime (K.wait s.1).2).2,
      (s.2.reaped (K.wait s.1).1).finish idx (K.uptime (K.wait s.1).2).1) := by
  have hr : (s.2.reaped (K.wait s.1).1).pids.idxOf? (K.wait s.1).1 = some idx := h
  simp only [waitOne, hr]

end Equations

/-- After at most `n` forks every child is recorded, and nothing has been waited for. -/
structure SpawnInv (K : Kernel) (n : ℕ) (s : K.State × Round) : Prop where
  forks_le : s.2.forks ≤ n
  length_pids : s.2.pids.length = s.2.forks
  length_startTimes : s.2.startTimes.length = s.2.pids.length
  nodup : s.2.pids.Nodup
  children : K.children s.1 = s.2.pids.toFinset
  completed : s.2.completed = 0
  waited : s.2.waited = []
  written : s.2.written = []

namespace SpawnInv

variable {K : Kernel} {n : ℕ} {s : K.State × Round}

theorem mono {m : ℕ} (h : SpawnInv K n s) (hm : n ≤ m) : SpawnInv K m s :=
  { h with forks_le := h.forks_le.trans hm }

theorem spawn (h : SpawnInv K n s) (hn : n < MAX_PROCS) (failed : Line) :
    SpawnInv K (n + 1) (spawn K failed s) := by
  have hlen := h.length_pids
  have hle := h.forks_le
  rcases K.fork_children s.1 with ⟨hpos, hnew, hchildren⟩ | ⟨hneg, hchildren⟩
  · rw [spawn_recorded hpos (by omega)]
    rw [h.children, List.mem_toFinset] at hnew
    constructor
    · exact Nat.succ_le_succ hle
    · change (s.2.pids ++ [_]).length = s.2.forks + 1
      rw [List.length_append, hlen]
      rfl
    · change (s.2.startTimes ++ [_]).length = (s.2.pids ++ [_]).length
      rw [List.length_append, List.length_append, h.length_startTimes]
      rfl
    · exact List.nodup_append_comm.mp (List.nodup_cons.mpr ⟨hnew, h.nodup⟩)
    · change K.children (K.uptime (K.fork s.1).2).2 = (s.2.pids ++ [(K.fork s.1).1]).toFinset
      rw [K.uptime_children, hchildren, h.children, List.toFinset_append, Finset.union_comm]
      rfl
    · exact h.completed
    · exact h.waited
    · exact h.written
  · have hpos : ¬ 0 < (K.fork s.1).1 := by
      rw [hneg]
      decide
    rw [spawn_failed hpos]
    exact { h with
      forks_le := hle.trans (Nat.le_succ n)
      children := hchildren.trans h.children }

theorem sleep (h : SpawnInv K n s) : SpawnInv K n (K.sleep s.1, s.2) :=
  { h with children := (K.sleep_children s.1).trans h.children }

theorem spawnLoop {cpu io i : ℕ} (hmax : cpu + io ≤ MAX_PROCS)
    (h : SpawnInv K (min i cpu + min i io) s) :
    SpawnInv K (cpu + io) (spawnLoop K cpu io i s) := by
  induction hm : max cpu io - i generalizing i s with
  | zero =>
      rw [Xv6Fairness.spawnLoop, if_neg (by omega)]
      exact h.mono (by omega)
  | succ m ih =>
      rw [Xv6Fairness.spawnLoop, if_pos (by omega)]
      apply ih
      · apply sleep
        by_cases hcpu : i < cpu
        · by_cases hio : i < io
          · rw [if_pos hcpu, if_pos hio]
            exact ((h.spawn (by omega) _).spawn (by omega) _).mono (by omega)
          · rw [if_pos hcpu, if_neg hio]
            exact (h.spawn (by omega) _).mono (by omega)
        · by_cases hio : i < io
          · rw [if_neg hcpu, if_pos hio]
            exact (h.spawn (by omega) _).mono (by omega)
          · rw [if_neg hcpu, if_neg hio]
            exact h.mono (by omega)
      · omega

end SpawnInv

/-- The children left are those that no `wait` has returned, and the indices written are those of
the pids returned. -/
structure WaitInv (K : Kernel) (s : K.State × Round) : Prop where
  length_startTimes : s.2.startTimes.length = s.2.pids.length
  nodup : s.2.pids.Nodup
  waited_nodup : s.2.waited.Nodup
  waited_subset : s.2.waited ⊆ s.2.pids
  children : K.children s.1 = s.2.pids.toFinset \ s.2.waited.toFinset
  completed : s.2.completed = s.2.waited.length
  written : s.2.written = s.2.waited.map fun pid => s.2.pids.idxOf pid
  times : ∀ j ∈ s.2.written, (s.2.endTimes j).isSome ∧ (s.2.executionTimes j).isSome

namespace WaitInv

variable {K : Kernel} {s : K.State × Round}

theorem ofSpawn {n : ℕ} (h : SpawnInv K n s) : WaitInv K s where
  length_startTimes := h.length_startTimes
  nodup := h.nodup
  waited_nodup := by
    rw [h.waited]
    exact List.nodup_nil
  waited_subset := by
    rw [h.waited]
    exact List.nil_subset _
  children := by
    rw [h.waited, h.children]
    exact Finset.sdiff_empty.symm
  completed := by
    rw [h.waited, h.completed]
    rfl
  written := by
    rw [h.waited, h.written]
    rfl
  times := by
    intro j hj
    rw [h.written] at hj
    exact absurd hj List.not_mem_nil

theorem children_nonempty (h : WaitInv K s) (hlt : s.2.waited.length < s.2.pids.length) :
    (K.children s.1).Nonempty := by
  rw [h.children, Finset.sdiff_nonempty]
  intro hsub
  have hpids : s.2.pids ⊆ s.2.waited := by
    intro pid hpid
    exact List.mem_toFinset.mp (hsub (List.mem_toFinset.mpr hpid))
  exact absurd (List.subperm_of_subset h.nodup hpids).length_le (Nat.not_le.mpr hlt)

theorem idxOf?_eq {l : List Int32} {pid : Int32}
    (h : pid ∈ l) : l.idxOf? pid = some (l.idxOf pid) := by
  obtain ⟨idx, hidx⟩ := Option.isSome_iff_exists.mp (List.isSome_idxOf?.mpr h)
  rw [List.idxOf_eq_getD_idxOf?, hidx]
  rfl

theorem waitOne (h : WaitInv K s) (hlt : s.2.waited.length < s.2.pids.length) :
    WaitInv K (waitOne K s) ∧ (waitOne K s).2.pids = s.2.pids ∧ (waitOne K s).2.forks = s.2.forks ∧
      (waitOne K s).2.waited.length = s.2.waited.length + 1 := by
  obtain ⟨hmem, hchildren⟩ := K.wait_children s.1 (h.children_nonempty hlt)
  rw [h.children, Finset.mem_sdiff, List.mem_toFinset, List.mem_toFinset] at hmem
  obtain ⟨hpid, hnew⟩ := hmem
  rw [waitOne_found (idxOf?_eq hpid)]
  refine ⟨?_, rfl, rfl, rfl⟩
  constructor
  · exact h.length_startTimes
  · exact h.nodup
  · exact List.nodup_cons.mpr ⟨hnew, h.waited_nodup⟩
  · exact List.cons_subset.mpr ⟨hpid, h.waited_subset⟩
  · change K.children (K.uptime (K.wait s.1).2).2 =
      s.2.pids.toFinset \ ((K.wait s.1).1 :: s.2.waited).toFinset
    rw [K.uptime_children, hchildren, h.children, List.toFinset_cons, Finset.sdiff_insert]
  · exact congrArg Nat.succ h.completed
  · exact congrArg (List.cons _) h.written
  · intro j hj
    change (Function.update s.2.endTimes _ _ j).isSome ∧
      (Function.update s.2.executionTimes _ _ j).isSome
    by_cases hidx : j = s.2.pids.idxOf (K.wait s.1).1
    · have hstart : s.2.startTimes[s.2.pids.idxOf (K.wait s.1).1]?.isSome := by
        have hidx := List.idxOf_lt_length_of_mem hpid
        rw [← h.length_startTimes] at hidx
        rw [List.getElem?_eq_getElem hidx]
        rfl
      rw [hidx, Function.update_self, Function.update_self, Option.isSome_map]
      exact ⟨rfl, hstart⟩
    · rw [Function.update_of_ne hidx, Function.update_of_ne hidx]
      exact h.times j ((List.mem_cons.mp hj).resolve_left hidx)

theorem waitLoop {n : ℕ} (h : WaitInv K s) (hn : s.2.waited.length + n = s.2.pids.length) :
    WaitInv K (waitLoop K n s) ∧ (waitLoop K n s).2.pids = s.2.pids ∧
      (waitLoop K n s).2.forks = s.2.forks ∧
      (waitLoop K n s).2.waited.length = s.2.pids.length := by
  induction n generalizing s with
  | zero => exact ⟨h, rfl, rfl, hn⟩
  | succ n ih =>
      obtain ⟨hinv, hpids, hforks, hlen⟩ := h.waitOne (by omega)
      obtain ⟨hinv', hpids', hforks', hlen'⟩ := ih hinv (by rw [hpids]; omega)
      exact ⟨hinv', hpids'.trans hpids, hforks'.trans hforks, hlen'.trans (by rw [hpids])⟩

/-- Once as many pids have been returned as were recorded, they are the recorded ones. -/
theorem waited_perm (h : WaitInv K s) (hlen : s.2.waited.length = s.2.pids.length) :
    s.2.waited.Perm s.2.pids :=
  (List.subperm_of_subset h.waited_nodup h.waited_subset).perm_of_length_le hlen.ge

theorem count_written (h : WaitInv K s) (hlen : s.2.waited.length = s.2.pids.length) {j : ℕ}
    (hj : j < s.2.pids.length) : s.2.written.count j = 1 := by
  have hnodup : s.2.written.Nodup := by
    rw [h.written]
    apply List.Nodup.map_on _ h.waited_nodup
    intro x hx y _ hxy
    exact (List.idxOf_inj (h.waited_subset hx)).mp hxy
  apply List.count_eq_one_of_mem hnodup
  rw [h.written, List.mem_map]
  exact ⟨s.2.pids[j], (h.waited_perm hlen).mem_iff.mpr (List.getElem_mem hj),
    h.nodup.idxOf_getElem j hj⟩

theorem children_eq_empty (h : WaitInv K s) (hlen : s.2.waited.length = s.2.pids.length) :
    K.children s.1 = ∅ := by
  rw [h.children, Finset.sdiff_eq_empty_iff_subset]
  intro pid hpid
  rw [List.mem_toFinset] at hpid ⊢
  exact (h.waited_perm hlen).mem_iff.mpr hpid

end WaitInv

theorem mapM_isSome {f : ℕ → Option Int32} {l : List ℕ} (h : ∀ j ∈ l, (f j).isSome) :
    (l.mapM f).isSome := by
  induction l with
  | nil => rfl
  | cons j l ih =>
      obtain ⟨x, hx⟩ := Option.isSome_iff_exists.mp (h j List.mem_cons_self)
      obtain ⟨xs, hxs⟩ := Option.isSome_iff_exists.mp
        (ih fun i hi => h i (List.mem_cons_of_mem j hi))
      rw [List.mapM_cons, hx, hxs]
      rfl

/-- The bookkeeping of a round that starts without children. -/
theorem round_bookkeeping (K : Kernel) (k : K.State) (hk : K.children k = ∅) {cpu io : ℕ}
    (h6 : 6 ≤ cpu) (h14 : cpu ≤ 14) (hio : io = 20 - cpu) :
    let (k', r, _) := runProcesses K cpu io k
    r.pidIndex ≤ MAX_PROCS ∧ r.pidIndex = r.forks ∧ (∀ pid ∈ r.waited, pid ∈ r.pids) ∧
      (∀ j < r.pidIndex, r.written.count j = 1 ∧ (r.endTimes j).isSome ∧
        (r.executionTimes j).isSome) ∧ r.times.isSome ∧
      r.completed = r.pidIndex ∧ K.children k' = ∅ := by
  have hstart : SpawnInv K (min 0 cpu + min 0 io) ((K.uptime k).2, .empty) := by
    constructor
    · exact Nat.zero_le _
    · rfl
    · rfl
    · exact List.nodup_nil
    · exact (K.uptime_children k).trans hk
    · rfl
    · rfl
    · rfl
  have hmax : cpu + io ≤ MAX_PROCS := by
    change cpu + io ≤ 20
    omega
  have hspawn := hstart.spawnLoop hmax
  generalize hs : spawnLoop K cpu io 0 ((K.uptime k).2, .empty) = s at hspawn
  have hlen : s.2.waited.length + s.2.pidIndex = s.2.pids.length := by
    rw [hspawn.waited]
    exact Nat.zero_add _
  obtain ⟨hinv, hpids, hforks, hwaited⟩ := (WaitInv.ofSpawn hspawn).waitLoop hlen
  have hrun : runProcesses K cpu io k =
      ((K.uptime (waitLoop K s.2.pidIndex s).1).2, (waitLoop K s.2.pidIndex s).2,
        (K.uptime (waitLoop K s.2.pidIndex s).1).1 - (K.uptime k).1) := by
    rw [← hs]
    rfl
  rw [hrun]
  generalize waitLoop K s.2.pidIndex s = t at hinv hpids hforks hwaited
  rw [← hpids] at hwaited
  have htimes : ∀ j < t.2.pidIndex, t.2.written.count j = 1 ∧ (t.2.endTimes j).isSome ∧
      (t.2.executionTimes j).isSome := by
    intro j hj
    have hcount := hinv.count_written hwaited hj
    refine ⟨hcount, hinv.times j ?_⟩
    rw [← List.count_pos_iff, hcount]
    exact Nat.one_pos
  refine ⟨t.2.pids_le, ?_, hinv.waited_subset, htimes, ?_, ?_, ?_⟩
  · rw [Round.pidIndex, hpids, hforks]
    exact hspawn.length_pids
  · exact mapM_isSome fun j hj => (htimes j (List.mem_range.mp hj)).2.2
  · exact hinv.completed.trans hwaited
  · exact (K.uptime_children t.1).trans (hinv.children_eq_empty hwaited)

/-- Up to twenty children with the pids from 4 on, the youngest of which terminates first. -/
def lifoKernel : Kernel where
  State := Fin 21
  children := fun k => ((List.range k).map fun i => Int32.ofNat (i + 4)).toFinset
  fork := fun k => if k = 20 then (-1, k) else (Int32.ofNat (k + 4), k + 1)
  wait := fun k => if k = 0 then (-1, k) else (Int32.ofNat (k + 3), k - 1)
  uptime := fun k => (Int32.ofNat k, k)
  sleep := id
  fork_children := by decide +kernel
  wait_children := by decide +kernel
  uptime_children := fun _ => rfl
  sleep_children := fun _ => rfl

theorem round_bookkeeping_lifo :
    let (k', r, _) := runProcesses lifoKernel 6 14 (0 : Fin 21)
    r.pidIndex ≤ MAX_PROCS ∧ r.pidIndex = r.forks ∧ (∀ pid ∈ r.waited, pid ∈ r.pids) ∧
      (∀ j < r.pidIndex, r.written.count j = 1 ∧ (r.endTimes j).isSome ∧
        (r.executionTimes j).isSome) ∧ r.times.isSome ∧
      r.completed = r.pidIndex ∧ lifoKernel.children k' = ∅ :=
  round_bookkeeping lifoKernel (0 : Fin 21) rfl (by omega) (by omega) rfl

end Xv6Fairness
