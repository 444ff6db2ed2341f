import Xv6Fairness.ForkProcess
import Xv6Fairness.ProgramStacks

/-!
# Running a program

`exec` builds a second address space beside that of the process and commits to it at the end.
Everything before that can fail, and then what was taken for the new image is given back.
-/

namespace Xv6Fairness

open Outcomes Ownership

namespace VirtualMemory

/-- The kernel beside the processes: how many system calls use the log, where paths lead and what
the files contain. -/
structure Kernel where
  machine : Machine
  outstanding : ℕ
  namei : List UInt8 → Option ℕ
  inode : ℕ → Inode

namespace Kernel

variable (endFrame : ℕ) (data : UInt32) (k : Kernel)

def begin_op : Kernel := { k with outstanding := k.outstanding + 1 }

def end_op : Kernel := { k with outstanding := k.outstanding - 1 }

/-- The reference that `namei` returns. -/
def iget (i : ℕ) : Kernel := { k with machine := k.machine.idup i }

def iunlockput (i : ℕ) : Kernel :=
  let inodeRef := k.machine.inodeRef
  { k with machine := { k.machine with inodeRef := Function.update inodeRef i (inodeRef i - 1) } }

def setMemory (s : Space) : Kernel := { k with machine := k.machine.setMemory s }

/-- The label `bad`. -/
def bad (s : Space) (pgdir ip : Option ℕ) : Except Panic (ℤ × Kernel) := do
  let s ← match pgdir with
    | none => .ok s
    | some pgdir => s.freevm endFrame pgdir
  match ip with
  | none => .ok (-1, k.setMemory s)
  | some i => .ok (-1, ((k.setMemory s).iunlockput i).end_op)

/-- What follows the last `/`. -/
def lastElement (path : List UInt8) : List UInt8 := (path.reverse.takeWhile (· ≠ 47)).reverse

def switchuvm (p : Proc) : Except Panic Unit :=
  if p.kstack = 0 then .error .noKstack
  else if p.pgdir.frame = 0 then .error .noPgdir
  else .ok ()

/-- The new image is complete. -/
def commit (s : Space) (cur : Fin NPROC) (path : List UInt8) (entry : UInt32) (pgdir : ℕ)
    (sz sp : UInt32) : Except Panic (ℤ × Kernel) := do
  let curproc := k.machine.proc cur
  let p : Proc := { curproc with
    name := (lastElement path).take 15
    pgdir := ⟨pgdir, s.pgdir⟩
    sz := sz
    tf := { curproc.tf with eip := entry, esp := sp } }
  switchuvm p
  let s ← ({ s with pgdir := curproc.pgdir.tables } : Space).freevm endFrame curproc.pgdir.frame
  .ok (0, { k.setMemory s with machine := (k.machine.setMemory s).setProc cur p })

def exec (cur : Fin NPROC) (path : List UInt8)
    (argv : List (List UInt8)) : Except Panic (ℤ × Kernel) :=
  let k := k.begin_op
  match k.namei path with
  | none => .ok (-1, k.end_op)
  | some i =>
    let k := k.iget i
    let ip := k.inode i
    let s := (k.machine.space cur).blank
    if ip.readi 0 52 ≠ 52 then k.bad endFrame s none (some i)
    else if ip.elfhdr.magic ≠ ELF_MAGIC then k.bad endFrame s none (some i)
    else do
      let (pgdir, s) ← s.setupkvm endFrame data
      match pgdir with
      | none => k.bad endFrame s none (some i)
      | some pgdir => do
        let (sz, s) ← s.loadProgram endFrame ip ip.elfhdr.phoff 0 ip.elfhdr.phnum
        match sz with
        | none => k.bad endFrame s (some pgdir) (some i)
        | some sz => do
          let k := (k.iunlockput i).end_op
          let (image, s) ← s.buildStack endFrame sz argv
          match image with
          | none => k.bad endFrame s (some pgdir) none
          | some (sz, sp) => k.commit endFrame s cur path ip.elfhdr.entry pgdir sz sp

end Kernel

variable {endFrame : ℕ} {κ : Type*} {others : κ → ℕ} {s t u : Space} {f g hand : ℕ}

/-- The slots of the new directory beside the old one, and of the old one beside the new one. -/
def swapDirs : Slot (Option (Slot (Option κ))) → Slot (Option (Slot (Option κ)))
  | .user v => .other (some (.user v))
  | .table d => .other (some (.table d))
  | .hand => .hand
  | .other none => .other (some (.other none))
  | .other (some (.user v)) => .user v
  | .other (some (.table d)) => .table d
  | .other (some .hand) => .other (some .hand)
  | .other (some (.other none)) => .other none
  | .other (some (.other (some k))) => .other (some (.other (some k)))

theorem swapDirs_swapDirs (k : Slot (Option (Slot (Option κ)))) : swapDirs (swapDirs k) = k := by
  rcases k with v | d | _ | (_ | (v | d | _ | (_ | k)))
  all_goals rfl

theorem Inv.swap {old : Space} (huser : ∀ v < userPages, ∀ p, old.pte (PGSIZE * v) = some p →
    p.frame ≠ 0)
    (htable : ∀ d x, old.pgdir d = some x → x.frame ≠ 0)
    (h : Inv endFrame (withDir f (refs (withDir g others) old 0)) t 0) :
    Inv endFrame (withDir g (refs (withDir f others) t 0)) { t with pgdir := old.pgdir } 0 := by
  have hrefs : ∀ k, refs (withDir f (refs (withDir g others) old 0)) t 0 (swapDirs k) =
      refs (withDir g (refs (withDir f others) t 0)) { t with pgdir := old.pgdir } 0 k := by
    rintro (v | d | _ | (_ | (v | d | _ | (_ | k))))
    all_goals rfl
  refine ⟨h.nodup, h.lt, h.owns.reindex swapDirs (fun k _ => hrefs k) (fun k l _ _ hkl => ?_)
    (fun k _ => ⟨swapDirs k, ?_⟩), huser, htable⟩
  · rw [← swapDirs_swapDirs k, hkl, swapDirs_swapDirs]
  · rw [← hrefs, swapDirs_swapDirs]

/-- A process with an address space, a kernel stack and arguments that fit in one page. -/
structure Runnable (endFrame : ℕ) (others : κ → ℕ) (k : Kernel) (cur : Fin NPROC)
    (argv : List (List UInt8)) : Prop where
  inv : Inv endFrame (withDir (k.machine.proc cur).pgdir.frame others) (k.machine.space cur) 0
  dir : (k.machine.proc cur).pgdir.frame ≠ 0
  small : Small (k.machine.space cur)
  kstack : (k.machine.proc cur).kstack ≠ 0
  fits : argsSize argv ≤ PGSIZE

/-- Nothing has happened, but pages that are free may have other contents. -/
structure Restored (k t : Kernel) : Prop where
  proc : t.machine.proc = k.machine.proc
  free : ∀ g, g ∈ t.machine.freelist ↔ g ∈ k.machine.freelist
  contents : ∀ g, g ∉ k.machine.freelist → t.machine.page g = k.machine.page g
  inodes : t.machine.inodeRef = k.machine.inodeRef
  files : t.machine.fileRef = k.machine.fileRef
  closed : t.outstanding = k.outstanding

/-- The process has a new image. It was built in pages that were free, and what is in use besides
was not changed. -/
structure Replaced (endFrame : ℕ) (others : κ → ℕ) (k : Kernel) (cur : Fin NPROC)
    (t : Kernel) : Prop where
  inv : Inv endFrame (withDir (t.machine.proc cur).pgdir.frame others) (t.machine.space cur) 0
  image : Image (t.machine.proc cur).sz (t.machine.space cur)
  fresh : ∀ v < userPages, ∀ p, (t.machine.space cur).pte (PGSIZE * v) = some p →
    p.frame ∈ k.machine.freelist
  contents : ∀ g, g ∉ k.machine.freelist → g ∉ t.machine.freelist →
    t.machine.page g = k.machine.page g
  others : ∀ l, l ≠ cur → t.machine.proc l = k.machine.proc l
  inodes : t.machine.inodeRef = k.machine.inodeRef
  files : t.machine.fileRef = k.machine.fileRef
  closed : t.outstanding = k.outstanding

section Exec

variable {k : Kernel} {cur : Fin NPROC} {argv : List (List UInt8)} {data : UInt32}

theorem released_inodes (k : Kernel) (i : ℕ) :
    (((k.begin_op).iget i).iunlockput i).machine.inodeRef = k.machine.inodeRef := by
  change Function.update (Function.update k.machine.inodeRef i _) i _ = _
  rw [Function.update_idem]
  change Function.update k.machine.inodeRef i (Function.update k.machine.inodeRef i _ i - 1) = _
  rw [Function.update_self, Nat.add_sub_cancel]
  exact Function.update_eq_self _ _

theorem restored (k : Kernel) (i : ℕ) (hfree : ∀ g, g ∈ s.freelist ↔ g ∈ k.machine.freelist)
    (hpage : ∀ g, g ∉ k.machine.freelist → s.page g = k.machine.page g) :
    Restored k (((((k.begin_op).iget i).setMemory s).iunlockput i).end_op) :=
  ⟨rfl, hfree, hpage, released_inodes k i, rfl, rfl⟩

theorem restored_late (k : Kernel) (i : ℕ) (hfree : ∀ g, g ∈ s.freelist ↔ g ∈ k.machine.freelist)
    (hpage : ∀ g, g ∉ k.machine.freelist → s.page g = k.machine.page g) :
    Restored k (((((k.begin_op).iget i).iunlockput i).end_op).setMemory s) :=
  ⟨rfl, hfree, hpage, released_inodes k i, rfl, rfl⟩

theorem bad_none {i : ℕ} (m : Kernel) (s : Space) : m.bad endFrame s none (some i) =
    .ok (-1, ((m.setMemory s).iunlockput i).end_op) := rfl

theorem bad_some {ip : Option ℕ} (m : Kernel) (h : s.freevm endFrame f = .ok u) :
    m.bad endFrame s (some f) ip = m.bad endFrame u none ip := by
  rw [Kernel.bad, Kernel.bad]
  dsimp only
  rw [h]

variable [DecidableEq κ]

theorem commit_spec {m : Kernel} {sz sp : UInt32} (path : List UInt8) (entry : UInt32)
    (h : Runnable endFrame others k cur argv)
    (hm : m.machine.proc = k.machine.proc) (hinodes : m.machine.inodeRef = k.machine.inodeRef)
    (hfiles : m.machine.fileRef = k.machine.fileRef) (hclosed : m.outstanding = k.outstanding)
    (hu : Under endFrame (refs (withDir (k.machine.proc cur).pgdir.frame others)
      (k.machine.space cur) 0)
      (k.machine.space cur) f 0 u) (himage : Image sz u) (hstarted : Started argv sz sp u) :
    ∃ t, m.commit endFrame u cur path entry f sz sp = .ok (0, t) ∧
    Replaced endFrame others k cur t ∧
      Started argv (t.machine.proc cur).sz (t.machine.proc cur).tf.esp (t.machine.space cur) := by
  have hswap := Inv.swap h.inv.user h.inv.table hu.inv
  obtain ⟨x, hfreevm, hblank, hinvx, hpage⟩ := freevm_spec hswap h.dir h.small
  rw [hblank] at hinvx
  have hfinal := Inv.unblank hu.inv.user hu.inv.table hinvx
  have hkept : ∀ v < userPages, ∀ p, u.pte (PGSIZE * v) = some p →
      x.page p.frame = u.page p.frame :=
    fun v hv p hp => hpage _ (hfinal.frame_not_mem hv hp)
  have hcur : m.machine.proc cur = k.machine.proc cur := by rw [hm]
  obtain ⟨p, hp⟩ : ∃ p : Proc, p = { k.machine.proc cur with
      name := (Kernel.lastElement path).take 15, pgdir := ⟨f, u.pgdir⟩, sz := sz,
      tf := { (k.machine.proc cur).tf with eip := entry, esp := sp } } := ⟨_, rfl⟩
  have hswitch : Kernel.switchuvm p = .ok () := by
    rw [hp, Kernel.switchuvm, if_neg h.kstack, if_neg hu.dir]
  have hnew : ((m.machine.setMemory x).setProc cur p).proc cur = p := Machine.setProc_self _ _ _
  have hspace : ((m.machine.setMemory x).setProc cur p).space cur =
      { sz := sz, pgdir := u.pgdir, freelist := x.freelist, page := x.page } := by
    rw [Machine.space, hnew, hp]
    rfl
  refine ⟨{ m.setMemory x with machine := (m.machine.setMemory x).setProc cur p }, ?_,
    ⟨?_, ?_, ?_, ?_, ?_,
    hinodes, hfiles, hclosed⟩, ?_⟩
  · rw [Kernel.commit, hcur]
    dsimp only
    rw [← hp, hswitch, ok_bind]
    exact congrArg (· >>= _) hfreevm
  · change Inv endFrame
      (withDir (((m.machine.setMemory x).setProc cur p).proc cur).pgdir.frame others)
      (((m.machine.setMemory x).setProc cur p).space cur) 0
    rw [hnew, hspace, hp]
    exact ⟨hfinal.nodup, hfinal.lt, hfinal.owns, hfinal.user, hfinal.table⟩
  · change Image (((m.machine.setMemory x).setProc cur p).proc cur).sz
      (((m.machine.setMemory x).setProc cur p).space cur)
    rw [hnew, hspace, hp]
    exact himage.congr fun _ => rfl
  · intro v hv q hq
    change (((m.machine.setMemory x).setProc cur p).space cur).pte (PGSIZE * v) = some q at hq
    rw [hspace] at hq
    exact hu.user_fresh hv hq
  · intro g hg hgx
    exact (hpage g hgx).trans (hu.keeps g hg)
  · intro l hl
    exact (Machine.setProc_of_ne _ hl _).trans (congrFun hm l)
  · change Started argv (((m.machine.setMemory x).setProc cur p).proc cur).sz
      (((m.machine.setMemory x).setProc cur p).proc cur).tf.esp
      (((m.machine.setMemory x).setProc cur p).space cur)
    rw [hnew, hspace, hp]
    refine hstarted.congr (fun a ha => byteAt_congr rfl fun q hq => hkept (a / PGSIZE) ?_ q hq)
      fun _ => rfl
    have hsize := himage.size
    change _ ≤ 4096 * 524288 at hsize
    change a / 4096 < 524288
    omega

theorem exec_outcome (h : Runnable endFrame others k cur argv) (hdata : Linked data)
    (path : List UInt8) :
    ∃ r t, k.exec endFrame data cur path argv = .ok (r, t) ∧ ((r = -1 ∧ Restored k t) ∨
      (r = 0 ∧ Replaced endFrame others k cur t ∧
        Started argv (t.machine.proc cur).sz (t.machine.proc cur).tf.esp
        (t.machine.space cur))) := by
  rw [Kernel.exec]
  dsimp only
  cases hpath : k.namei path with
  | none =>
      have hpath' : k.begin_op.namei path = none := hpath
      rw [hpath']
      exact ⟨-1, _, rfl, .inl ⟨rfl, rfl, fun _ => Iff.rfl, fun _ _ => rfl, rfl, rfl, rfl⟩⟩
  | some i =>
      have hpath' : k.begin_op.namei path = some i := hpath
      rw [hpath']
      dsimp only
      have hspace : ((k.begin_op).iget i).machine.space cur = k.machine.space cur := rfl
      have hinode : ((k.begin_op).iget i).inode i = k.inode i := rfl
      rw [hspace, hinode, bad_none]
      have hbad : ∃ r t, (Except.ok (-1, (((((k.begin_op).iget i).setMemory
          (k.machine.space cur).blank).iunlockput i).end_op)) : Except Panic (ℤ × Kernel)) =
            .ok (r, t) ∧
          ((r = -1 ∧ Restored k t) ∨ (r = 0 ∧ Replaced endFrame others k cur t ∧
            Started argv (t.machine.proc cur).sz (t.machine.proc cur).tf.esp
              (t.machine.space cur))) :=
        ⟨-1, _, rfl, .inl ⟨rfl, restored k i (fun _ => Iff.rfl) fun _ _ => rfl⟩⟩
      by_cases hread : (k.inode i).readi 0 52 ≠ 52
      · rw [if_pos hread]
        exact hbad
      · rw [if_neg hread]
        by_cases hmagic : (k.inode i).elfhdr.magic ≠ ELF_MAGIC
        · rw [if_pos hmagic]
          exact hbad
        · rw [if_neg hmagic]
          obtain ⟨d, s₁, hsetup, ⟨rfl, -, -, hfree, hkeeps⟩ | ⟨f, rfl, hunder, hnone⟩⟩ :=
            setupkvm_spec h.inv.blank hdata
          · rw [hsetup, ok_bind]
            exact ⟨-1, _, rfl, .inl ⟨rfl, restored k i hfree hkeeps⟩⟩
          · have hempty : Image 0 s₁ := ⟨Nat.zero_le _, fun v hv => by
              rw [hnone v hv]
              exact iff_of_false Bool.false_ne_true (Nat.not_lt_zero _)⟩
            obtain ⟨size, s₂, hload, hu₂, himage⟩ := loadProgram_spec (k.inode i)
                (k.inode i).elfhdr.phnum
              (k.inode i).elfhdr.phoff hunder hempty
            rw [hsetup, ok_bind]
            dsimp only
            rw [hload, ok_bind]
            dsimp only
            cases size with
            | none =>
                obtain ⟨x, hfreevm, -, -, hfree, hkeeps⟩ := hu₂.freevm
                dsimp only
                rw [bad_some _ hfreevm]
                exact ⟨-1, _, rfl, .inl ⟨rfl, restored k i hfree hkeeps⟩⟩
            | some sz =>
                obtain ⟨image, s₃, hbuild, hu₃, -, hstarted⟩ :=
                  buildStack_spec hu₂ (himage sz rfl) h.fits
                dsimp only
                rw [hbuild, ok_bind]
                dsimp only
                cases image with
                | none =>
                    obtain ⟨x, hfreevm, -, -, hfree, hkeeps⟩ := hu₃.freevm
                    dsimp only
                    rw [bad_some _ hfreevm]
                    exact ⟨-1, _, rfl, .inl ⟨rfl, restored_late k i hfree hkeeps⟩⟩
                | some image =>
                    obtain ⟨hfinal, hstack⟩ := hstarted image.1 image.2 rfl
                    obtain ⟨t, hcommit, hreplaced, hargs⟩ := commit_spec
                      (m := (((k.begin_op).iget i).iunlockput i).end_op) path
                        (k.inode i).elfhdr.entry h rfl
                      (released_inodes k i) rfl rfl hu₃ hfinal hstack
                    exact ⟨0, t, hcommit, .inr ⟨rfl, hreplaced, hargs⟩⟩

/-- However far the loading of a file gets, only pages that were free have been written, and only
such pages are mapped below `KERNBASE`. -/
def LoadsFresh (endFrame : ℕ) (data : UInt32) (s : Space) (ip : Inode) : Prop :=
  ∀ d t, s.blank.setupkvm endFrame data = .ok (some d, t) → ∀ off n,
    ∃ r u, Space.loadProgram endFrame ip t off 0 n = .ok (r, u) ∧ Keeps s u ∧
      ∀ v < userPages, ∀ p, u.pte (PGSIZE * v) = some p → p.frame ∈ s.freelist

theorem loads_fresh (h : Inv endFrame others s 0) (hdata : Linked data) (ip : Inode) :
    LoadsFresh endFrame data s ip := by
  intro d t hsetup off n
  obtain ⟨r, t', hsetup', hcases⟩ := setupkvm_spec h.blank hdata
  rw [hsetup] at hsetup'
  cases hsetup'
  rcases hcases with ⟨hr, -⟩ | ⟨f, -, hunder, hnone⟩
  · cases hr
  · have hempty : Image 0 t := ⟨Nat.zero_le _, fun v hv => by
      rw [hnone v hv]
      exact iff_of_false Bool.false_ne_true (Nat.not_lt_zero _)⟩
    obtain ⟨r, u, hload, hu, -⟩ := loadProgram_spec ip n off hunder hempty
    exact ⟨r, u, hload, hu.keeps, fun v hv p hp => hu.user_fresh hv hp⟩

/-- `exec` never panics, loads into fresh pages only, and leaves everything as it was when it fails.
-/
theorem exec_tolerates_every_file (h : Runnable endFrame others k cur argv) (hdata : Linked data)
    (path : List UInt8) :
    (∃ r t, k.exec endFrame data cur path argv = .ok (r, t) ∧
      ((r = -1 ∧ Restored k t) ∨ (r = 0 ∧ Replaced endFrame others k cur t))) ∧
      ∀ i, LoadsFresh endFrame data (k.machine.space cur) (k.inode i) := by
  refine ⟨?_, fun i => loads_fresh h.inv hdata (k.inode i)⟩
  obtain ⟨r, t, hrun, hrestored | ⟨hr, hreplaced, -⟩⟩ := exec_outcome h hdata path
  · exact ⟨r, t, hrun, .inl hrestored⟩
  · exact ⟨r, t, hrun, .inr ⟨hr, hreplaced⟩⟩

/-- The new program finds the arguments on its stack. -/
theorem exec_hands_over_arguments (h : Runnable endFrame others k cur argv) (hdata : Linked data)
    (path : List UInt8) : ∃ r t, k.exec endFrame data cur path argv = .ok (r, t) ∧
      (r = 0 → Started argv (t.machine.proc cur).sz (t.machine.proc cur).tf.esp
        (t.machine.space cur)) := by
  obtain ⟨r, t, hrun, ⟨hr, -⟩ | ⟨-, -, hstarted⟩⟩ := exec_outcome h hdata path
  · refine ⟨r, t, hrun, fun hzero => ?_⟩
    rw [hr] at hzero
    cases hzero
  · exact ⟨r, t, hrun, fun _ => hstarted⟩

theorem exec_zero {i : ℕ} {sz : UInt32} {image : UInt32 × UInt32} {path : List UInt8}
    (h : Runnable endFrame others k cur argv) (hdata : Linked data) (hpath : k.namei path = some i)
    (hread : (k.inode i).readi 0 52 = 52) (hmagic : (k.inode i).elfhdr.magic = ELF_MAGIC)
    (hsetup : (k.machine.space cur).blank.setupkvm endFrame data = .ok (some f, s))
    (hload : s.loadProgram endFrame (k.inode i)
      (k.inode i).elfhdr.phoff 0 (k.inode i).elfhdr.phnum =
      .ok (some sz, t))
    (hbuild : t.buildStack endFrame sz argv = .ok (some image, u)) :
    ∃ w, k.exec endFrame data cur path argv = .ok (0, w) := by
  obtain ⟨r, w, hrun, -⟩ := exec_outcome h hdata path
  have hcommit : k.exec endFrame data cur path argv =
      ((((k.begin_op).iget i).iunlockput i).end_op).commit endFrame u cur path
        (k.inode i).elfhdr.entry f
        image.1 image.2 := by
    have hpath' : k.begin_op.namei path = some i := hpath
    rw [Kernel.exec]
    dsimp only
    rw [hpath']
    change (if (k.inode i).readi 0 52 ≠ 52 then _
      else if (k.inode i).elfhdr.magic ≠ ELF_MAGIC then _ else
      (k.machine.space cur).blank.setupkvm endFrame data >>= _) = _
    rw [if_neg (not_not.mpr hread), if_neg (not_not.mpr hmagic), hsetup, ok_bind]
    dsimp only
    change Space.loadProgram endFrame (k.inode i) s (k.inode i).elfhdr.phoff 0
      (k.inode i).elfhdr.phnum >>= _ = _
    rw [hload, ok_bind]
    dsimp only
    rw [hbuild]
    rfl
  refine ⟨w, hrun.trans ?_⟩
  rw [hcommit, Kernel.commit] at hrun
  dsimp only at hrun
  obtain ⟨x, -, hrun⟩ := exists_of_bind_ok hrun
  obtain ⟨y, -, hrun⟩ := exists_of_bind_ok hrun
  cases hrun
  rfl

end Exec

/-- An ELF header, one program header at 52 and eight bytes of code at 84. -/
def elfFile : Inode where
  size := 92
  byte i :=
    match i with
    | 0 => 0x7F
    | 1 => 0x45
    | 2 => 0x4C
    | 3 => 0x46
    | 28 => 52
    | 44 => 1
    | 52 => 1
    | 56 => 84
    | 68 => 8
    | 72 => 8
    | _ => 0

/-- The directory of `setupkvm` before free pages. -/
def kernelOnly (s : Space) (a b c d : ℕ) (rest : List ℕ) : Space :=
  { s with
    pgdir := fun k => if k < 512 then none else s.pgdir k
    freelist := a :: b :: c :: d :: rest }

/-- The part is in `a`, its page table is `b`. -/
def elfLoaded (s : Space) (a b c d : ℕ) (rest : List ℕ) (page : ℕ → Page) : Space :=
  let t := kernelOnly s a b c d rest
  { t with
    pgdir := Function.update (Function.update t.pgdir 0 (some ⟨b, fun _ => none⟩)) 0
      (some ⟨b, Function.update (fun _ => none) 0 (some ⟨a, userPerm⟩)⟩)
    freelist := c :: d :: rest
    page := page }

theorem allocLoop_page {s t : Space} {e : ℕ} {oldsz newsz : UInt32} {a : ℕ} (ha : a < newsz.toNat)
    (hstep : s.allocStep e oldsz newsz a = .ok (true, t)) :
    s.allocLoop e oldsz newsz a = t.allocLoop e oldsz newsz (nextPage a) := by
  rw [Space.allocLoop, if_pos ha, hstep, ok_bind]
  dsimp only
  rw [if_pos rfl]

theorem elfFile_loads (s : Space) (a b c d : ℕ) (rest : List ℕ) :
    ∃ page, Space.loadProgram 1 elfFile (kernelOnly s a b c d rest) 52 0 1 =
      .ok (some 8, elfLoaded s a b c d rest page) := by
  have hstep : ∃ page, (kernelOnly s a b c d rest).allocStep 1 0 8 0 =
      .ok (true, elfLoaded s a b c d rest page) := ⟨_, rfl⟩
  obtain ⟨page, hstep⟩ := hstep
  have halloc : (kernelOnly s a b c d rest).allocuvm 1 0 8 =
      .ok (8, elfLoaded s a b c d rest page) := by
    change Space.allocLoop 1 _ 0 8 0 = _
    rw [allocLoop_page (by decide) hstep, Space.allocLoop, if_neg (by decide)]
  have hload : ∃ page', (elfLoaded s a b c d rest page).loaduvm 0 elfFile 84 8 =
      .ok (0, elfLoaded s a b c d rest page') := by
    refine ⟨((elfLoaded s a b c d rest page).memmove a 0 (fun k => elfFile.byte (84 + k)) 8).page,
      ?_⟩
    change Space.loadLoop elfFile 0 84 8 _ 0 = _
    have hstep' : (elfLoaded s a b c d rest page).loadStep elfFile 0 84 8 0 =
      .ok (true, (elfLoaded s a b c d rest page).memmove a 0 (fun k => elfFile.byte (84 + k)) 8) :=
        rfl
    rw [Space.loadLoop, if_pos (by decide), hstep', ok_bind]
    dsimp only
    rw [if_pos rfl, Space.loadLoop, if_neg (by decide)]
    rfl
  obtain ⟨page', hload⟩ := hload
  refine ⟨page', ?_⟩
  have hseg : (kernelOnly s a b c d rest).loadSegment 1 elfFile (elfFile.proghdr 52) 0 =
     .ok (some 8, elfLoaded s a b c d rest page') := by
    have hph : elfFile.proghdr 52 = ⟨1, 84, 0, 8, 8⟩ := by rfl
    rw [hph, Space.loadSegment]
    dsimp only
    rw [if_neg (by decide), if_neg (by decide), if_neg (by decide)]
    have : (0 + 8 : UInt32) = 8 := rfl
    rw [this, halloc, ok_bind]
    dsimp only
    rw [if_neg (by decide), if_neg (by decide), hload]
    rfl
  rw [Space.loadProgram, if_neg (by decide), hseg]
  rfl

theorem elfLoaded_stackFits (s : Space) (a b c d : ℕ) (rest : List ℕ) (page : ℕ → Page)
    (argv : List (List UInt8))
    (hargv : argv.length ≤ MAXARG) : StackFits 1 (elfLoaded s a b c d rest page) 8 argv := by
  refine ⟨hargv, 12288, ?_⟩
  have hround : PGROUNDUP 8 = 4096 := rfl
  obtain ⟨t, ht⟩ : ∃ t, (elfLoaded s a b c d rest page).allocStep 1 4096 12288 4096 =
      .ok (true, t) ∧
      ∃ u, t.allocStep 1 4096 12288 8192 = .ok (true, u) ∧ u.pte 8192 = some ⟨d, userPerm⟩ :=
    ⟨_, rfl, _, rfl, rfl⟩
  obtain ⟨hfirst, u, hsecond, hpte⟩ := ht
  refine ⟨u, by decide, ?_, fun p hp => ?_⟩
  · change Space.allocLoop 1 _ 4096 12288 4096 = _
    rw [allocLoop_page (by decide) hfirst]
    change Space.allocLoop 1 _ 4096 12288 8192 = _
    rw [allocLoop_page (by decide) hsecond, Space.allocLoop, if_neg (by decide)]
  · have hp' : u.pte 8192 = some p := hp
    rw [hpte] at hp'
    cases hp'
    exact (by decide : userPerm &&& PTE_U ≠ 0)
theorem elfFile_runs {m : Kernel} {cur : Fin NPROC} {argv : List (List UInt8)} {data : UInt32}
    {path : List UInt8} {i : ℕ} [DecidableEq κ] (h : Runnable 1 others m cur argv)
    (hdata : Linked data)
    (hpath : m.namei path = some i) (hfile : m.inode i = elfFile) (hargv : argv.length ≤ MAXARG)
    (hfree : 68 < m.machine.freelist.length) : ∃ w, m.exec 1 data cur path argv = .ok (0, w) := by
  obtain ⟨f, s, hsetup, hunder, hlow, hlength⟩ :=
    setupkvm_some (s := m.machine.space cur) h.inv.blank hdata
    (show 65 < m.machine.freelist.length by omega)
  have hlength' : m.machine.freelist.length ≤ s.freelist.length + 65 := hlength
  obtain ⟨a, b, c, d, rest, hrest⟩ : ∃ a b c d rest, s.freelist = a :: b :: c :: d :: rest := by
    match hs : s.freelist with
    | a :: b :: c :: d :: rest => exact ⟨a, b, c, d, rest, rfl⟩
    | [] | [_] | [_, _] | [_, _, _] =>
        rw [hs] at hlength'
        simp only [List.length_cons, List.length_nil] at hlength'
        omega
  have hs : s = kernelOnly s a b c d rest := by
    have hpgdir : (fun k => if k < 512 then none else s.pgdir k) = s.pgdir := by
      funext k
      split_ifs with hk
      · exact (hlow k hk).symm
      · rfl
    rw [kernelOnly, hpgdir, ← hrest]
  obtain ⟨page, hload⟩ := elfFile_loads s a b c d rest
  rw [← hs] at hload
  have hempty : Image 0 s := ⟨Nat.zero_le _, fun v hv => by
    rw [Space.pte, hlow (PDX (PGSIZE * v)) (by rw [PDX_page]; exact Nat.div_lt_of_lt_mul hv)]
    exact iff_of_false Bool.false_ne_true (Nat.not_lt_zero _)⟩
  obtain ⟨r, t, hload', hu, himage⟩ := loadProgram_spec elfFile 1 52 hunder hempty
  rw [hload] at hload'
  cases hload'
  obtain ⟨image, u, hbuild, -, hsome, -⟩ := buildStack_spec hu (himage 8 rfl) h.fits
  obtain ⟨image, rfl⟩ := Option.isSome_iff_exists.mp
    (hsome (elfLoaded_stackFits s a b c d rest page argv hargv))
  exact exec_zero h hdata hpath (by rw [hfile]; rfl)
    (by rw [hfile]; rfl) hsetup (by rw [hfile]; exact hload) hbuild

def oneKernel : Kernel where
  machine := oneProcess
  outstanding := 0
  namei path := if path = [47, 97] then some 1 else none
  inode _ := elfFile

theorem oneKernel_runnable : Runnable 1 beyond oneKernel initSlot [[97], [98, 99]] :=
  ⟨roomy_inv, by decide, fun d hd => if_neg (Nat.ne_of_gt (Nat.lt_of_lt_of_le (by decide) hd)),
    by decide,
    by decide⟩

theorem oneLinked : Linked 0x80108000 := ⟨by decide, by decide, by decide⟩

theorem oneKernel_exec : ∃ t, oneKernel.exec 1 0x80108000 initSlot [47, 97]
    [[97], [98, 99]] = .ok (0, t) :=
  elfFile_runs oneKernel_runnable oneLinked rfl rfl (by decide) (by
    change 68 < (List.range' 4 200).length
    rw [List.length_range']
    decide)

theorem exec_one_program :
    (∃ t, oneKernel.exec 1 0x80108000 initSlot [47, 97] [[97], [98, 99]] = .ok (0, t) ∧
      Replaced 1 beyond oneKernel initSlot t) ∧
      ∀ i, LoadsFresh 1 0x80108000 (oneKernel.machine.space initSlot) (oneKernel.inode i) := by
  obtain ⟨⟨r, t, hrun, hcases⟩, hfresh⟩ :=
    exec_tolerates_every_file oneKernel_runnable oneLinked [47, 97]
  obtain ⟨u, hu⟩ := oneKernel_exec
  rw [hrun] at hu
  cases hu
  rcases hcases with ⟨hr, -⟩ | ⟨-, hreplaced⟩
  · cases hr
  · exact ⟨⟨t, hrun, hreplaced⟩, hfresh⟩

theorem exec_two_arguments :
    ∃ t, oneKernel.exec 1 0x80108000 initSlot [47, 97] [[97], [98, 99]] = .ok (0, t) ∧
      Started [[97], [98, 99]] (t.machine.proc initSlot).sz (t.machine.proc initSlot).tf.esp
        (t.machine.space initSlot) := by
  obtain ⟨r, t, hrun, hstarted⟩ :=
    exec_hands_over_arguments oneKernel_runnable oneLinked [47, 97]
  obtain ⟨u, hu⟩ := oneKernel_exec
  rw [hrun] at hu
  cases hu
  exact ⟨t, hrun, hstarted rfl⟩

end VirtualMemory

end Xv6Fairness
