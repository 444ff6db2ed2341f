import Mathlib.Algebra.Order.BigOperators.Group.List
import Xv6Fairness.LocalSteps
import Xv6Fairness.StatsFiles

/-!
# The statistics of a round

Every child may leave one file, whose name says which program it ran. `run_experiment` looks for
the files of each pid in turn, but tells the two programs apart by the times it reads: a file is
accounted for and removed only where one of the times that it looks at is not zero.
-/

namespace Xv6Fairness

open ByteStrings

/-- "stats_". -/
def statsText : Bytes := ascii ['s', 't', 'a', 't', 's', '_']

/-- "stats_mem_". -/
def statsMemText : Bytes := ascii ['s', 't', 'a', 't', 's', '_', 'm', 'e', 'm', '_']

/-- What the local arrays of a program hold before it writes to them. -/
structure Locals where
  filename : Vector UInt8 32
  pidStr : Vector UInt8 12
  line : Vector UInt8 150
  memLine : Vector UInt8 100

inductive Report
  | io (times : IoTimes)
  | cpu (times : MemTimes)

/-- A child of a round with the file it writes, if it writes one. -/
structure Child where
  pid : Int32
  report : Option Report

/-- The end of `main` of the program that a child runs. -/
def Child.run (l : Locals) (c : Child) (dir : Directory) : Option Directory :=
  match c.report with
  | some (.io times) => do
    let filename ← buildFilename l.filename.toList l.pidStr c.pid (statsText ++ [0])
    let (dir, _) ← writeTimesToFile true dir (cString filename) times l.line
    pure dir
  | some (.cpu times) => do
    let filename ← buildFilename l.filename.toList l.pidStr c.pid (statsMemText ++ [0])
    writeMemTimes true dir (cString filename) times l.memLine
  | none => some dir

def runChildren (l : Locals) : List Child → Directory → Option Directory
  | [], dir => some dir
  | c :: children, dir => do
    let dir ← c.run l dir
    runChildren l children dir

/-- The totals of a round and the numbers of processes of each kind. -/
@[ext]
structure Totals where
  write : UInt32
  read : UInt32
  delete : UInt32
  alloc : UInt32
  free : UInt32
  numIo : ℕ
  numCpu : ℕ

instance : Zero Totals := ⟨⟨0, 0, 0, 0, 0, 0, 0⟩⟩

instance : Add Totals :=
  ⟨fun s t => ⟨s.write + t.write, s.read + t.read, s.delete + t.delete, s.alloc + t.alloc,
    s.free + t.free, s.numIo + t.numIo, s.numCpu + t.numCpu⟩⟩

instance : AddCommMonoid Totals where
  add_assoc s t u := Totals.ext (UInt32.add_assoc _ _ _) (UInt32.add_assoc _ _ _)
    (UInt32.add_assoc _ _ _) (UInt32.add_assoc _ _ _) (UInt32.add_assoc _ _ _)
    (Nat.add_assoc _ _ _) (Nat.add_assoc _ _ _)
  add_comm s t := Totals.ext (UInt32.add_comm _ _) (UInt32.add_comm _ _) (UInt32.add_comm _ _)
    (UInt32.add_comm _ _) (UInt32.add_comm _ _) (Nat.add_comm _ _) (Nat.add_comm _ _)
  zero_add s := Totals.ext (UInt32.zero_add _) (UInt32.zero_add _) (UInt32.zero_add _)
    (UInt32.zero_add _) (UInt32.zero_add _) (Nat.zero_add _) (Nat.zero_add _)
  add_zero s := Totals.ext (UInt32.add_zero _) (UInt32.add_zero _) (UInt32.add_zero _)
    (UInt32.add_zero _) (UInt32.add_zero _) (Nat.add_zero _) (Nat.add_zero _)
  nsmul := nsmulRec

/-- What a process contributes when it is taken for an I/O process. -/
def IoTimes.share (times : IoTimes) : Totals :=
  ⟨times.write, times.read, times.delete, times.alloc, times.free, 1, 0⟩

def MemTimes.share (times : MemTimes) : Totals := ⟨0, 0, 0, times.alloc, times.free, 0, 1⟩

def IoTimes.Seen (times : IoTimes) : Prop := 0 < times.write ∨ 0 < times.read ∨ 0 < times.delete

def MemTimes.Seen (times : MemTimes) : Prop := 0 < times.alloc ∨ 0 < times.free

instance (times : IoTimes) : Decidable times.Seen := inferInstanceAs (Decidable (_ ∨ _ ∨ _))

instance (times : MemTimes) : Decidable times.Seen := inferInstanceAs (Decidable (_ ∨ _))

/-- One pass of the collection loop. -/
def collectOne (l : Locals) (pid : Int32) (s : Totals × Directory) :
    Option (Totals × Directory) := do
  let filename ← buildFilename l.filename.toList l.pidStr pid (statsText ++ [0])
  let times ← readStats true s.2 (cString filename) l.line ⟨0, 0, 0, 0, 0⟩
  if times.Seen then
    pure (s.1 + times.share, s.2.unlink (cString filename))
  else do
    let filename ← buildFilename filename l.pidStr pid (statsMemText ++ [0])
    let cpuTimes ← readMemStats true s.2 (cString filename) l.memLine ⟨0, 0⟩
    if cpuTimes.Seen then
      pure (s.1 + cpuTimes.share, s.2.unlink (cString filename))
    else pure s

def collect (l : Locals) : List Int32 → Totals × Directory → Option (Totals × Directory)
  | [], s => some s
  | pid :: pids, s => do
    let s ← collectOne l pid s
    collect l pids s

def statsName (pid : Int32) : Bytes := filenameOf statsText pid

def statsMemName (pid : Int32) : Bytes := filenameOf statsMemText pid

theorem statsName_ne_statsMemName (p q : Int32) :
    (statsName p).take DIRSIZ ≠ (statsMemName q).take DIRSIZ := by
  intro h
  have h6 := congrArg (fun s => s[6]?) h
  simp only [DIRSIZ, List.getElem?_take_of_lt (by omega : 6 < 14)] at h6
  have hmem : (statsMemName q)[6]? = some 109 := by
    rw [statsMemName, filenameOf, List.append_assoc]
    exact List.getElem?_append_left (by decide)
  obtain ⟨c, s, hs⟩ := List.exists_cons_of_length_pos (decimal_length_pos (n := p.toUInt32.toNat))
  have hstats : (statsName p)[6]? = some c := by
    rw [statsName, filenameOf, hs]
    rfl
  have hc : IsDigit c := isDigit_of_mem_decimal (hs ▸ List.mem_cons_self)
  rw [hstats, hmem, Option.some_inj] at h6
  rw [h6] at hc
  exact absurd hc (by decide)

def Apart (p q : Int32) : Prop :=
  (statsName p).take DIRSIZ ≠ (statsName q).take DIRSIZ ∧
    (statsMemName p).take DIRSIZ ≠ (statsMemName q).take DIRSIZ

/-- The files of a pid. -/
def files (pid : Int32) (dir : Directory) : Option Bytes × Option Bytes :=
  (dir.lookup (statsName pid), dir.lookup (statsMemName pid))

section Files

variable (dir : Directory) (pid : Int32) (content : Bytes)

theorem files_link_stats :
    files pid (dir.link (statsName pid) content) = (some content, (files pid dir).2) :=
  Prod.ext (dir.lookup_link _ _)
    (dir.lookup_link_of_ne _ (statsName_ne_statsMemName pid pid).symm)

theorem files_link_statsMem :
    files pid (dir.link (statsMemName pid) content) = ((files pid dir).1, some content) :=
  Prod.ext (dir.lookup_link_of_ne _ (statsName_ne_statsMemName pid pid)) (dir.lookup_link _ _)

theorem files_unlink_stats :
    files pid (dir.unlink (statsName pid)) = (none, (files pid dir).2) :=
  Prod.ext (dir.lookup_unlink _) (dir.lookup_unlink_of_ne (statsName_ne_statsMemName pid pid).symm)

theorem files_unlink_statsMem :
    files pid (dir.unlink (statsMemName pid)) = ((files pid dir).1, none) :=
  Prod.ext (dir.lookup_unlink_of_ne (statsName_ne_statsMemName pid pid)) (dir.lookup_unlink _)

variable {pid} {q : Int32} (h : Apart pid q)

include h

theorem files_link_stats_apart : files q (dir.link (statsName pid) content) = files q dir :=
  Prod.ext (dir.lookup_link_of_ne _ h.1.symm)
    (dir.lookup_link_of_ne _ (statsName_ne_statsMemName pid q).symm)

theorem files_link_statsMem_apart : files q (dir.link (statsMemName pid) content) = files q dir :=
  Prod.ext (dir.lookup_link_of_ne _ (statsName_ne_statsMemName q pid))
    (dir.lookup_link_of_ne _ h.2.symm)

theorem files_unlink_stats_apart : files q (dir.unlink (statsName pid)) = files q dir :=
  Prod.ext (dir.lookup_unlink_of_ne h.1.symm)
    (dir.lookup_unlink_of_ne (statsName_ne_statsMemName pid q).symm)

theorem files_unlink_statsMem_apart : files q (dir.unlink (statsMemName pid)) = files q dir :=
  Prod.ext (dir.lookup_unlink_of_ne (statsName_ne_statsMemName q pid))
    (dir.lookup_unlink_of_ne h.2.symm)

end Files

section OneChild

variable (l : Locals) (dir : Directory)

/-- What `read_stats` finds in a file, zeros where there is none. -/
def ioTimesOf (content : Option Bytes) : IoTimes :=
  (readStats true (fun _ => content) [] l.line ⟨0, 0, 0, 0, 0⟩).getD ⟨0, 0, 0, 0, 0⟩

def memTimesOf (content : Option Bytes) : MemTimes :=
  (readMemStats true (fun _ => content) [] l.memLine ⟨0, 0⟩).getD ⟨0, 0⟩

theorem readStats_eq (name : Bytes) :
    readStats true dir name l.line ⟨0, 0, 0, 0, 0⟩ = some (ioTimesOf l (dir.lookup name)) := by
  have hsame : readStats true dir name l.line ⟨0, 0, 0, 0, 0⟩ =
      readStats true (fun _ => dir.lookup name) [] l.line ⟨0, 0, 0, 0, 0⟩ := rfl
  obtain ⟨t, ht⟩ := Option.isSome_iff_exists.mp
    (readStats_isSome true (fun _ => dir.lookup name) [] l.line ⟨0, 0, 0, 0, 0⟩)
  rw [hsame, ioTimesOf, ht]
  rfl

theorem readMemStats_eq (name : Bytes) :
    readMemStats true dir name l.memLine ⟨0, 0⟩ = some (memTimesOf l (dir.lookup name)) := by
  have hsame : readMemStats true dir name l.memLine ⟨0, 0⟩ =
      readMemStats true (fun _ => dir.lookup name) [] l.memLine ⟨0, 0⟩ := rfl
  obtain ⟨t, ht⟩ := Option.isSome_iff_exists.mp
    (readMemStats_isSome true (fun _ => dir.lookup name) [] l.memLine ⟨0, 0⟩)
  rw [hsame, memTimesOf, ht]
  rfl

theorem ioTimesOf_overwrite (times : IoTimes) (old : Bytes) :
    ioTimesOf l (some (overwrite (lineOf times.fields) old)) = times := by
  have h := readStats_link (fun _ => none) [] old times l.line ⟨0, 0, 0, 0, 0⟩
  rw [readStats_eq, Directory.lookup_link] at h
  exact Option.some_inj.mp h

theorem memTimesOf_overwrite (times : MemTimes) (old : Bytes) :
    memTimesOf l (some (overwrite (lineOf times.fields) old)) = times := by
  have h := readMemStats_link (fun _ => none) [] old times l.memLine ⟨0, 0⟩
  rw [readMemStats_eq, Directory.lookup_link] at h
  exact Option.some_inj.mp h

end OneChild

/-- What a child leaves in the directory. -/
def Child.leave (dir : Directory) (c : Child) : Directory :=
  match c.report with
  | some (.io times) => dir.link (statsName c.pid)
      (overwrite (lineOf times.fields) ((dir.lookup (statsName c.pid)).getD []))
  | some (.cpu times) => dir.link (statsMemName c.pid)
      (overwrite (lineOf times.fields) ((dir.lookup (statsMemName c.pid)).getD []))
  | none => dir

def Child.left (c : Child) (v : Option Bytes × Option Bytes) : Option Bytes × Option Bytes :=
  match c.report with
  | some (.io times) => (some (overwrite (lineOf times.fields) (v.1.getD [])), v.2)
  | some (.cpu times) => (v.1, some (overwrite (lineOf times.fields) (v.2.getD [])))
  | none => v

theorem statsText_ne_zero : ∀ c ∈ statsText, c ≠ 0 := by decide +kernel

theorem statsMemText_ne_zero : ∀ c ∈ statsMemText, c ≠ 0 := by decide +kernel

theorem Child.run_eq (l : Locals) (c : Child)
    (dir : Directory) : c.run l dir = some (c.leave dir) := by
  have hsize : l.filename.toList.length = 32 := Vector.length_toList
  obtain ⟨b, hb, hname, -⟩ := buildFilename_eq hsize l.pidStr c.pid statsText_ne_zero (by decide)
  obtain ⟨b', hb', hname', -⟩ :=
    buildFilename_eq hsize l.pidStr c.pid statsMemText_ne_zero (by decide)
  rw [Child.run, Child.leave]
  rcases c.report with _ | times | times
  · rfl
  · simp only [Option.bind_eq_bind, hb, hname, Option.bind_some, writeTimesToFile_eq]
    rfl
  · simp only [Option.bind_eq_bind, hb', hname', Option.bind_some, writeMemTimes_eq]
    rfl

theorem runChildren_eq (l : Locals) (children : List Child) (dir : Directory) :
    runChildren l children dir = some (children.foldl Child.leave dir) := by
  induction children generalizing dir with
  | nil => rfl
  | cons c children ih =>
      rw [runChildren, Child.run_eq, List.foldl_cons]
      exact ih _

theorem files_leave (c : Child) (dir : Directory) :
    files c.pid (c.leave dir) = c.left (files c.pid dir) := by
  rw [Child.leave, Child.left]
  rcases c.report with _ | times | times
  · rfl
  · exact files_link_stats _ _ _
  · exact files_link_statsMem _ _ _

theorem files_leave_apart (c : Child) (dir : Directory) {q : Int32} (h : Apart c.pid q) :
    files q (c.leave dir) = files q dir := by
  rw [Child.leave]
  rcases c.report with _ | times | times
  · rfl
  · exact files_link_stats_apart _ _ h
  · exact files_link_statsMem_apart _ _ h

theorem leave_local : LocalSteps.Local Child.leave (fun c dir => files c.pid dir)
    (fun c d => Apart c.pid d.pid) where
  symm _ _ h := ⟨h.1.symm, h.2.symm⟩
  frame c _ dir h := files_leave_apart c dir h
  congr c dir dir' h := by rw [files_leave, files_leave, h]

/-- What a pass of the loop adds to the totals. -/
def share (l : Locals) (v : Option Bytes × Option Bytes) : Totals :=
  if (ioTimesOf l v.1).Seen then (ioTimesOf l v.1).share
  else if (memTimesOf l v.2).Seen then (memTimesOf l v.2).share else 0

/-- The files of a pid after its pass. -/
def cleared (l : Locals) (v : Option Bytes × Option Bytes) : Option Bytes × Option Bytes :=
  if (ioTimesOf l v.1).Seen then (none, v.2)
  else if (memTimesOf l v.2).Seen then (v.1, none) else v

def tidy (l : Locals) (dir : Directory) (pid : Int32) : Directory :=
  if (ioTimesOf l (files pid dir).1).Seen then dir.unlink (statsName pid)
  else if (memTimesOf l (files pid dir).2).Seen then dir.unlink (statsMemName pid)
  else dir

theorem files_tidy (l : Locals) (dir : Directory) (pid : Int32) :
    files pid (tidy l dir pid) = cleared l (files pid dir) := by
  rw [tidy, cleared]
  split_ifs
  · exact files_unlink_stats _ _
  · exact files_unlink_statsMem _ _
  · rfl

theorem files_tidy_apart (l : Locals) (dir : Directory) {p q : Int32} (h : Apart p q) :
    files q (tidy l dir p) = files q dir := by
  rw [tidy]
  split_ifs
  · exact files_unlink_stats_apart _ h
  · exact files_unlink_statsMem_apart _ h
  · rfl

theorem tidy_local (l : Locals) : LocalSteps.Local (tidy l) files Apart where
  symm _ _ h := ⟨h.1.symm, h.2.symm⟩
  frame p _ dir h := files_tidy_apart l dir h
  congr p dir dir' h := by rw [files_tidy, files_tidy, h]

theorem collectOne_eq (l : Locals) (pid : Int32) (s : Totals × Directory) :
    collectOne l pid s = some (s.1 + share l (files pid s.2), tidy l s.2 pid) := by
  have hsize : l.filename.toList.length = 32 := Vector.length_toList
  obtain ⟨b, hb, hname, hlen⟩ := buildFilename_eq hsize l.pidStr pid statsText_ne_zero (by decide)
  obtain ⟨b', hb', hname', -⟩ :=
    buildFilename_eq hlen l.pidStr pid statsMemText_ne_zero (by decide)
  have hread : readStats true s.2 (statsName pid) l.line ⟨0, 0, 0, 0, 0⟩ =
      some (ioTimesOf l (files pid s.2).1) := readStats_eq l s.2 _
  have hreadMem : readMemStats true s.2 (statsMemName pid) l.memLine ⟨0, 0⟩ =
      some (memTimesOf l (files pid s.2).2) := readMemStats_eq l s.2 _
  change cString b = statsName pid at hname
  change cString b' = statsMemName pid at hname'
  rw [collectOne, share, tidy]
  simp only [Option.bind_eq_bind, hb, Option.bind_some, hname, hread]
  by_cases hio : (ioTimesOf l (files pid s.2).1).Seen
  · rw [if_pos hio, if_pos hio, if_pos hio]
    rfl
  · rw [if_neg hio, if_neg hio, if_neg hio]
    simp only [hb', Option.bind_some, hname', hreadMem]
    by_cases hmem : (memTimesOf l (files pid s.2).2).Seen
    · rw [if_pos hmem, if_pos hmem, if_pos hmem]
      rfl
    · rw [if_neg hmem, if_neg hmem, if_neg hmem, add_zero]
      rfl

theorem collect_eq (l : Locals) (pids : List Int32) (s : Totals × Directory) :
    collect l pids s =
      some (pids.foldl (fun s pid => (s.1 + share l (files pid s.2), tidy l s.2 pid)) s) := by
  induction pids generalizing s with
  | nil => rfl
  | cons pid pids ih =>
      rw [collect, collectOne_eq, List.foldl_cons]
      exact ih _

theorem foldl_add {ι : Type*} (f : ι → Totals) (items : List ι) (t : Totals) :
    items.foldl (fun t i => t + f i) t = t + (items.map f).sum := by
  induction items generalizing t with
  | nil => exact (add_zero t).symm
  | cons i items ih => rw [List.foldl_cons, ih, List.map_cons, List.sum_cons, add_assoc]

theorem round_eq (l : Locals) {children order : List Child} (hperm : order.Perm children)
    (hapart : children.Pairwise fun c d => Apart c.pid d.pid) (dir : Directory) :
    ∃ dir₁ dir₂, runChildren l order dir = some dir₁ ∧
      collect l (children.map Child.pid) (0, dir₁) =
        some ((children.map fun c => share l (c.left (files c.pid dir))).sum, dir₂) ∧
      ∀ c ∈ children, files c.pid dir₂ = cleared l (c.left (files c.pid dir)) := by
  have horder : order.Pairwise fun c d => Apart c.pid d.pid :=
    (hperm.pairwise_iff fun h => leave_local.symm _ _ h).mpr hapart
  have hpids : (children.map Child.pid).Pairwise Apart := List.pairwise_map.mpr hapart
  have hleft : ∀ c ∈ children, files c.pid (order.foldl Child.leave dir) =
      c.left (files c.pid dir) := by
    intro c hc
    rw [← files_leave]
    exact leave_local.view_foldl horder (hperm.mem_iff.mpr hc)
  refine ⟨_, (children.map Child.pid).foldl (tidy l) (order.foldl Child.leave dir),
    runChildren_eq l order dir, ?_, ?_⟩
  · have hfold := (tidy_local l).foldl_collect (f := fun t v => t + share l v) hpids (0 : Totals)
      (s := order.foldl Child.leave dir)
    rw [collect_eq, hfold, foldl_add, zero_add, List.map_map]
    congr 3
    apply List.map_congr_left
    intro c hc
    exact congrArg (share l) (hleft c hc)
  · intro c hc
    rw [(tidy_local l).view_foldl hpids (List.mem_map_of_mem hc), files_tidy, hleft c hc]

/-- The values a child reports and the one process it is counted as. -/
def Child.share (c : Child) : Totals :=
  match c.report with
  | some (.io times) => times.share
  | some (.cpu times) => times.share
  | none => 0

/-- The file that a child wrote is not there. -/
def Child.Gone (c : Child) (v : Option Bytes × Option Bytes) : Prop :=
  match c.report with
  | some (.io _) => v.1 = none
  | some (.cpu _) => v.2 = none
  | none => True

/-- The loop takes the child for what it is: the times it looks at are not all zero, and no older
file of the same pid comes before. -/
def Child.Recognised (l : Locals) (c : Child) (v : Option Bytes × Option Bytes) : Prop :=
  match c.report with
  | some (.io times) => times.Seen
  | some (.cpu times) => times.Seen ∧ ¬ (ioTimesOf l v.1).Seen
  | none => ¬ (ioTimesOf l v.1).Seen ∧ ¬ (memTimesOf l v.2).Seen

section Recognition

variable {l : Locals} {c : Child} {v : Option Bytes × Option Bytes}

theorem Child.share_of_recognised (h : c.Recognised l v) :
    Xv6Fairness.share l (c.left v) = c.share := by
  rcases c with ⟨pid, _ | times | times⟩
  · obtain ⟨hio, hmem⟩ : ¬ (ioTimesOf l v.1).Seen ∧ ¬ (memTimesOf l v.2).Seen := h
    change Xv6Fairness.share l v = 0
    rw [Xv6Fairness.share, if_neg hio, if_neg hmem]
  · have hio : times.Seen := h
    simp only [Xv6Fairness.share, Child.left, ioTimesOf_overwrite, if_pos hio]
    rfl
  · obtain ⟨hmem, hio⟩ : times.Seen ∧ ¬ (ioTimesOf l v.1).Seen := h
    simp only [Xv6Fairness.share, Child.left, memTimesOf_overwrite, if_neg hio, if_pos hmem]
    rfl

theorem Child.gone_of_recognised (h : c.Recognised l v) : c.Gone (cleared l (c.left v)) := by
  rcases c with ⟨pid, _ | times | times⟩
  · trivial
  · have hio : times.Seen := h
    simp only [cleared, Child.left, ioTimesOf_overwrite, if_pos hio]
    rfl
  · obtain ⟨hmem, hio⟩ : times.Seen ∧ ¬ (ioTimesOf l v.1).Seen := h
    simp only [cleared, Child.left, memTimesOf_overwrite, if_neg hio, if_pos hmem]
    rfl

theorem Child.recognised_of_gone {report : Report} (hc : c.report = some report)
    (h : c.Gone (cleared l (c.left v))) : c.Recognised l v := by
  rcases c with ⟨pid, _ | times | times⟩
  · exact absurd hc (Option.some_ne_none report).symm
  · change times.Seen
    by_contra hio
    have hnone : (cleared l (some (overwrite (lineOf times.fields) (v.1.getD [])), v.2)).1 =
      none := h
    simp only [cleared, ioTimesOf_overwrite, if_neg hio] at hnone
    split_ifs at hnone
  · have hnone : (cleared l (v.1, some (overwrite (lineOf times.fields) (v.2.getD [])))).2 =
      none := h
    simp only [cleared, memTimesOf_overwrite] at hnone
    change times.Seen ∧ ¬ (ioTimesOf l v.1).Seen
    split_ifs at hnone with hio hmem
    exact ⟨hmem, hio⟩

def Totals.processes (t : Totals) : ℕ := t.numIo + t.numCpu

theorem processes_sum (items : List Totals) :
    items.sum.processes = (items.map Totals.processes).sum := by
  induction items with
  | nil => rfl
  | cons t items ih =>
      have hadd : (t + items.sum).processes = t.processes + items.sum.processes := by
        change t.numIo + items.sum.numIo + (t.numCpu + items.sum.numCpu) = _
        rw [Totals.processes, Totals.processes]
        omega
      rw [List.sum_cons, List.map_cons, List.sum_cons, hadd, ih]

theorem processes_share_pos (h : ¬ (¬ (ioTimesOf l v.1).Seen ∧ ¬ (memTimesOf l v.2).Seen)) :
    (share l v).processes = 1 := by
  rw [share]
  split_ifs with hio hmem
  · rfl
  · rfl
  · exact absurd ⟨hio, hmem⟩ h

theorem Child.recognised_of_processes (hc : c.report = none)
    (h : c.share.processes = (Xv6Fairness.share l (c.left v)).processes) : c.Recognised l v := by
  rcases c with ⟨pid, _ | report⟩
  · change ¬ (ioTimesOf l v.1).Seen ∧ ¬ (memTimesOf l v.2).Seen
    by_contra hseen
    have hone : (Xv6Fairness.share l v).processes = 1 := processes_share_pos hseen
    have hzero : 0 = (Xv6Fairness.share l v).processes := h
    omega
  · exact absurd hc (Option.some_ne_none report)

end Recognition

theorem eq_of_sum_eq {ι : Type*} {f g : ι → ℕ} {items : List ι} (hle : ∀ i ∈ items, f i ≤ g i)
    (h : (items.map f).sum = (items.map g).sum) : ∀ i ∈ items, f i = g i := by
  induction items with
  | nil => exact fun i hi => absurd hi List.not_mem_nil
  | cons j items ih =>
      rw [List.map_cons, List.map_cons, List.sum_cons, List.sum_cons] at h
      have hj := hle j List.mem_cons_self
      have hrest : (items.map f).sum ≤ (items.map g).sum :=
        List.sum_le_sum fun i hi => hle i (List.mem_cons_of_mem j hi)
      intro i hi
      rcases List.mem_cons.mp hi with rfl | hi
      · omega
      · exact ih (fun i hi => hle i (List.mem_cons_of_mem j hi)) (by omega) i hi

/-- The totals of the round are those of its children, and their files are removed. -/
def Accounted (l : Locals) (children order : List Child) (dir : Directory) : Prop :=
  ∃ dir₁ dir₂ totals, runChildren l order dir = some dir₁ ∧
    collect l (children.map Child.pid) (0, dir₁) = some (totals, dir₂) ∧
    totals = (children.map Child.share).sum ∧ ∀ c ∈ children, c.Gone (files c.pid dir₂)

section Round

variable {l : Locals} {dir : Directory} {children order : List Child}

theorem recognised_of_accounted (hperm : order.Perm children)
    (hapart : children.Pairwise fun c d => Apart c.pid d.pid)
    (h : Accounted l children order dir) :
    ∀ c ∈ children, c.Recognised l (files c.pid dir) := by
  obtain ⟨dir₁, dir₂, hrun, hcollect, hfiles⟩ := round_eq l hperm hapart dir
  obtain ⟨d₁, d₂, totals, hrun', hcollect', rfl, hgone⟩ := h
  rw [hrun, Option.some_inj] at hrun'
  rw [← hrun', hcollect, Option.some_inj, Prod.mk.injEq] at hcollect'
  obtain ⟨htotals, rfl⟩ := hcollect'
  have hwriter : ∀ c ∈ children, ∀ report, c.report = some report →
      c.Recognised l (files c.pid dir) := by
    intro c hc report hreport
    apply Child.recognised_of_gone hreport
    rw [← hfiles c hc]
    exact hgone c hc
  have hle : ∀ c ∈ children,
      c.share.processes ≤ (share l (c.left (files c.pid dir))).processes := by
    intro c hc
    cases hreport : c.report with
    | none =>
        have hzero : c.share = 0 := by rw [Child.share, hreport]
        rw [hzero]
        exact Nat.zero_le _
    | some report => rw [Child.share_of_recognised (hwriter c hc report hreport)]
  have hcounts := congrArg Totals.processes htotals
  rw [processes_sum, processes_sum, List.map_map, List.map_map] at hcounts
  intro c hc
  cases hreport : c.report with
  | none => exact Child.recognised_of_processes hreport (eq_of_sum_eq hle hcounts.symm c hc)
  | some report => exact hwriter c hc report hreport

theorem accounted_of_recognised (hperm : order.Perm children)
    (hapart : children.Pairwise fun c d => Apart c.pid d.pid)
    (h : ∀ c ∈ children, c.Recognised l (files c.pid dir)) : Accounted l children order dir := by
  obtain ⟨dir₁, dir₂, hrun, hcollect, hfiles⟩ := round_eq l hperm hapart dir
  refine ⟨dir₁, dir₂, _, hrun, hcollect, ?_, ?_⟩
  · congr 1
    apply List.map_congr_left
    exact fun c hc => Child.share_of_recognised (h c hc)
  · intro c hc
    rw [hfiles c hc]
    exact Child.gone_of_recognised (h c hc)

end Round

/-- A round accounts for its children exactly if the loop recognises every one of them. -/
theorem accounted_iff_recognised (l : Locals) (dir : Directory) {children order : List Child}
    (hperm : order.Perm children)
    (hio : (children.map fun c => (statsName c.pid).take DIRSIZ).Nodup)
    (hmem : (children.map fun c => (statsMemName c.pid).take DIRSIZ).Nodup) :
    Accounted l children order dir ↔ ∀ c ∈ children, c.Recognised l (files c.pid dir) := by
  have hapart : children.Pairwise fun c d => Apart c.pid d.pid :=
    (List.pairwise_map.mp hio).and (List.pairwise_map.mp hmem)
  exact ⟨recognised_of_accounted hperm hapart, accounted_of_recognised hperm hapart⟩

def zeroLocals : Locals :=
  ⟨Vector.replicate 32 0, Vector.replicate 12 0, Vector.replicate 150 0, Vector.replicate 100 0⟩

theorem accounted_iff_recognised_two_children :
    Accounted zeroLocals [⟨4, some (.io ⟨3, 1, 0, 2, 1⟩)⟩, ⟨5, some (.cpu ⟨7, 0⟩)⟩]
      [⟨5, some (.cpu ⟨7, 0⟩)⟩, ⟨4, some (.io ⟨3, 1, 0, 2, 1⟩)⟩] (fun _ => none) := by
  apply (accounted_iff_recognised zeroLocals _ (List.Perm.swap _ _ _) (by decide +kernel)
    (by decide +kernel)).mpr
  intro c hc
  simp only [List.mem_cons, List.not_mem_nil, or_false] at hc
  rcases hc with rfl | rfl
  · change IoTimes.Seen ⟨3, 1, 0, 2, 1⟩
    decide
  · change MemTimes.Seen ⟨7, 0⟩ ∧ ¬ IoTimes.Seen ⟨0, 0, 0, 0, 0⟩
    decide

/-- An `io_bound` child whose times are all zero is not counted, and its file stays. -/
theorem idle_child_not_accounted :
    ¬ Accounted zeroLocals [⟨4, some (.io ⟨0, 0, 0, 0, 0⟩)⟩] [⟨4, some (.io ⟨0, 0, 0, 0, 0⟩)⟩]
      (fun _ => none) := by
  intro h
  have hseen : IoTimes.Seen ⟨0, 0, 0, 0, 0⟩ :=
    recognised_of_accounted (List.Perm.refl _) (List.pairwise_singleton _ _) h _
      List.mem_cons_self
  exact absurd hseen (by decide)

end Xv6Fairness
