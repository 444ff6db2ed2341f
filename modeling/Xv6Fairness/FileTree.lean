import Mathlib.Data.Fintype.Prod
import Xv6Fairness.FileBytes
import Xv6Fairness.Parameters

/-!
# Directories and system calls on them

The system calls that change the tree of directories, on inodes with their links and directory
entries. A call runs as one step: between two calls the references to an inode are the current
directories and the open files of the processes, and inside a call those that it has taken itself
besides. A path comes as `skipelem` takes it apart, with each element cut to `DIRSIZ` bytes.
-/

namespace Xv6Fairness

open FileBlocks (T_FILE)

namespace FileTree

def T_DIR : Int16 := 1

def ROOTINO : ℕ := 1

abbrev Name := List UInt8

def dot : Name := [46]

def dotdot : Name := [46, 46]

structure Path where
  absolute : Bool
  elems : List Name

structure Dirent where
  inum : ℕ
  name : Name
  deriving DecidableEq

/-- What an inode holds: the entries of a directory, and no bytes of a file. -/
structure Inode where
  type : Int16
  nlink : ℤ
  entries : List Dirent
  deriving DecidableEq

structure Proc where
  cwd : Option ℕ
  ofile : Fin NOFILE → Option ℕ

structure State (ι : Type) where
  inode : ℕ → Inode
  proc : ι → Proc

inductive Panic
  | noType    -- ilock: no type
  | notDir    -- dirlookup not DIR
  | noInodes  -- ialloc: no inodes
  | dirlink   -- dirlink, on a directory of the largest size
  | dots      -- create dots
  | linked    -- create: dirlink
  | nlink     -- unlink: nlink < 1
  | deadlock  -- the process waits for a lock that it holds itself
  deriving DecidableEq

/-- The place and the inode of the first entry of a name. -/
def findEntry : List Dirent → Name → Option (ℕ × ℕ)
  | [], _ => none
  | e :: es, name =>
    if e.inum ≠ 0 ∧ e.name = name then some (0, e.inum)
    else (findEntry es name).map fun r => (r.1 + 1, r.2)

/-- An entry is written into the first empty place or behind the last one. -/
def putEntry : List Dirent → Dirent → List Dirent
  | [], e => [e]
  | x :: xs, e => if x.inum = 0 then e :: xs else x :: putEntry xs e

/-- The place that `putEntry` takes. -/
def freePlace (es : List Dirent) : ℕ := (es.takeWhile fun e => e.inum ≠ 0).length

def dirlookup (dp : Inode) (name : Name) : Except Panic (Option (ℕ × ℕ)) :=
  if dp.type ≠ T_DIR then .error .notDir else .ok (findEntry dp.entries name)

def isdirempty (dp : Inode) : Bool := (dp.entries.drop 2).all fun e => e.inum = 0

variable {ι : Type} [Fintype ι] [DecidableEq ι]

namespace State

variable (s : State ι) (p : ι) (i d : ℕ)

omit [DecidableEq ι] in
/-- The inode is the current directory or an open file of some process. -/
def Held : Prop := ∃ p, (s.proc p).cwd = some i ∨ ∃ fd, (s.proc p).ofile fd = some i

instance : Decidable (s.Held i) :=
  inferInstanceAs (Decidable (∃ p, (s.proc p).cwd = some i ∨ ∃ fd, (s.proc p).ofile fd = some i))

def setInode (x : Inode) : State ι := { s with inode := Function.update s.inode i x }

def addLink (l : ℤ) : State ι := s.setInode i { s.inode i with nlink := (s.inode i).nlink + l }

def setProc (x : Proc) : State ι := { s with proc := Function.update s.proc p x }

def setCwd (cwd : Option ℕ) : State ι := s.setProc p { s.proc p with cwd := cwd }

def setFile (fd : Fin NOFILE) (f : Option ℕ) : State ι :=
  s.setProc p { s.proc p with ofile := Function.update (s.proc p).ofile fd f }

def ilock : Except Panic Unit := if (s.inode i).type = 0 then .error .noType else .ok ()

/-- `iput` of a reference that the call has taken, where it has taken the `others` besides. -/
def iput (others : List ℕ) : State ι :=
  if (s.inode i).nlink = 0 ∧ ¬ s.Held i ∧ i ∉ others then
    s.setInode i { s.inode i with type := 0, entries := [] }
  else s

def ialloc (ninodes : ℕ) : Except Panic ℕ :=
  match (List.range ninodes).find? fun i => 1 ≤ i ∧ (s.inode i).type = 0 with
  | none => .error .noInodes
  | some i => .ok i

/-- `none` where the name is there already. The `iput` of the inode that it names frees nothing: if
nobody else has a reference, the inode has not been read from the disk. -/
def dirlink (name : Name) (inum : ℕ) : Except Panic (Option (State ι)) := do
  match ← dirlookup (s.inode d) name with
  | some (_, i) => if i = d then .error .deadlock else .ok none
  | none =>
    if MAXFILE * BSIZE ≤ 16 * freePlace (s.inode d).entries then .error .dirlink
    else .ok (some
      (s.setInode d { s.inode d with entries := putEntry (s.inode d).entries ⟨inum, name⟩ }))

def namex (parent : Bool) (others : List ℕ) (s : State ι) (name : Name) (ip : ℕ) :
    List Name → Except Panic (Option (ℕ × Name) × State ι)
  | [] => .ok (if parent then (none, s.iput ip others) else (some (ip, name), s))
  | elem :: path => do
    s.ilock ip
    if (s.inode ip).type ≠ T_DIR then .ok (none, s.iput ip others)
    else if parent ∧ path = [] then .ok (some (ip, elem), s)
    else
      match ← dirlookup (s.inode ip) elem with
      | none => .ok (none, s.iput ip others)
      | some (_, next) => namex parent others (s.iput ip (next :: others)) elem next path

/-- Where the path begins for a process whose current directory is `cwd`. -/
def start (cwd : ℕ) (path : Path) : ℕ := if path.absolute then ROOTINO else cwd

def namei (cwd : ℕ) (path : Path) (others : List ℕ) : Except Panic (Option (ℕ × Name) × State ι) :=
  namex false others s [] (start cwd path) path.elems

def nameiparent (cwd : ℕ) (path : Path) (others : List ℕ) :
    Except Panic (Option (ℕ × Name) × State ι) :=
  namex true others s [] (start cwd path) path.elems

/-- The entries of a new directory. -/
def createDots (type : Int16) : Except Panic (State ι) :=
  if type = T_DIR then do
    match ← (s.addLink d 1).dirlink i dot i with
    | none => .error .dots
    | some s =>
      match ← s.dirlink i dotdot d with
      | none => .error .dots
      | some s => .ok s
  else .ok s

/-- The second half of `create`, where the name is new. -/
def createNew (ninodes : ℕ) (name : Name) (type : Int16) : Except Panic (Option ℕ × State ι) := do
  let i ← s.ialloc ninodes
  let s ← (s.setInode i ⟨type, 1, []⟩).createDots i d type
  match ← s.dirlink d name i with
  | none => .error .linked
  | some s => .ok (some i, s.iput d [i])

def create (ninodes cwd : ℕ) (path : Path) (type : Int16) : Except Panic (Option ℕ × State ι) := do
  match ← s.nameiparent cwd path [] with
  | (none, s) => .ok (none, s)
  | (some (d, name), s) =>
    s.ilock d
    match ← dirlookup (s.inode d) name with
    | some (_, i) =>
      let s := s.iput d [i]
      s.ilock i
      if type = T_FILE ∧ (s.inode i).type = T_FILE then .ok (some i, s) else .ok (none, s.iput i [])
    | none => s.createNew d ninodes name type

/-- `filealloc` and `fdalloc`. -/
def fdalloc : Option (Fin NOFILE) :=
  if NFILE ≤ Fintype.card { f : ι × Fin NOFILE // (s.proc f.1).ofile f.2 ≠ none } then none
  else (List.finRange NOFILE).find? fun fd => (s.proc p).ofile fd = none

/-- The inode that `open` finds without `O_CREATE`. -/
def openOld (cwd : ℕ) (path : Path) (rdonly : Bool) : Except Panic (Option ℕ × State ι) := do
  match ← s.namei cwd path [] with
  | (none, s) => .ok (none, s)
  | (some (i, _), s) =>
    s.ilock i
    if (s.inode i).type = T_DIR ∧ ¬ rdonly then .ok (none, s.iput i []) else .ok (some i, s)

def openInode (ninodes cwd : ℕ) (path : Path) (creat rdonly : Bool) :
    Except Panic (Option ℕ × State ι) :=
  if creat then s.create ninodes cwd path T_FILE else s.openOld cwd path rdonly

def sysOpen (ninodes cwd : ℕ) (path : Path) (creat rdonly : Bool) : Except Panic (ℤ × State ι) := do
  match ← s.openInode ninodes cwd path creat rdonly with
  | (none, s) => .ok (-1, s)
  | (some i, s) =>
    match s.fdalloc p with
    | none => .ok (-1, s.iput i [])
    | some fd => .ok (fd.val, s.setFile p fd (some i))

def sysMkdir (ninodes cwd : ℕ) (path : Path) : Except Panic (ℤ × State ι) := do
  match ← s.create ninodes cwd path T_DIR with
  | (none, s) => .ok (-1, s)
  | (some i, s) => .ok (0, s.iput i [])

/-- The label `bad` of `sys_link`. -/
def linkBad : Except Panic (ℤ × State ι) := do
  s.ilock i
  .ok (-1, (s.addLink i (-1)).iput i [])

def sysLink (cwd : ℕ) (old new : Path) : Except Panic (ℤ × State ι) := do
  match ← s.namei cwd old [] with
  | (none, s) => .ok (-1, s)
  | (some (i, _), s) =>
    s.ilock i
    if (s.inode i).type = T_DIR then .ok (-1, s.iput i [])
    else
      match ← (s.addLink i 1).nameiparent cwd new [i] with
      | (none, s) => s.linkBad i
      | (some (d, name), s) =>
        s.ilock d
        match ← s.dirlink d name i with
        | none => (s.iput d [i]).linkBad i
        | some s => .ok (0, (s.iput d [i]).iput i [])

/-- The entry at place `k` of directory `d` is emptied. -/
def clearEntry (k : ℕ) : State ι :=
  s.setInode d { s.inode d with entries := (s.inode d).entries.set k ⟨0, []⟩ }

/-- The end of `sys_unlink`: the entry at place `k` of `d`, which names `i`, goes. -/
def removeEntry (k : ℕ) : State ι :=
  let s := s.clearEntry d k
  let s := if (s.inode i).type = T_DIR then s.addLink d (-1) else s
  let s := s.iput d [i]
  (s.addLink i (-1)).iput i []

def sysUnlink (cwd : ℕ) (path : Path) : Except Panic (ℤ × State ι) := do
  match ← s.nameiparent cwd path [] with
  | (none, s) => .ok (-1, s)
  | (some (d, name), s) =>
    s.ilock d
    if name = dot ∨ name = dotdot then .ok (-1, s.iput d [])
    else
      match ← dirlookup (s.inode d) name with
      | none => .ok (-1, s.iput d [])
      | some (k, i) =>
        if i = d then .error .deadlock
        else
          s.ilock i
          if (s.inode i).nlink < 1 then .error .nlink
          else if (s.inode i).type = T_DIR ∧ isdirempty (s.inode i) = false then
            .ok (-1, (s.iput i [d]).iput d [])
          else .ok (0, s.removeEntry i d k)

def sysChdir (cwd : ℕ) (path : Path) : Except Panic (ℤ × State ι) := do
  match ← s.namei cwd path [] with
  | (none, s) => .ok (-1, s)
  | (some (i, _), s) =>
    s.ilock i
    if (s.inode i).type ≠ T_DIR then .ok (-1, s.iput i [])
    else .ok (0, (s.setCwd p (some i)).iput cwd [])

def closeFile (fd : Fin NOFILE) : State ι :=
  match (s.proc p).ofile fd with
  | none => s
  | some i => (s.setFile p fd none).iput i []

def sysClose (fd : Fin NOFILE) : ℤ × State ι :=
  (if (s.proc p).ofile fd = none then -1 else 0, s.closeFile p fd)

def exit (cwd : ℕ) : State ι :=
  let s := (List.finRange NOFILE).foldl (fun s fd => s.closeFile p fd) s
  (s.setCwd p none).iput cwd []

end State

inductive Call (ι : Type)
  | mkdir (p : ι) (path : Path)
  | sysOpen (p : ι) (path : Path) (creat rdonly : Bool)
  | link (p : ι) (old new : Path)
  | unlink (p : ι) (path : Path)
  | chdir (p : ι) (path : Path)
  | close (p : ι) (fd : Fin NOFILE)
  | exit (p : ι)

def Call.proc : Call ι → ι
  | .mkdir p _ | .sysOpen p _ _ _ | .link p _ _ | .unlink p _ | .chdir p _ | .close p _ | .exit p =>
      p

/-- The calls of a process whose current directory is `cwd`. -/
def call (ninodes : ℕ) (s : State ι) (cwd : ℕ) : Call ι → Except Panic (ℤ × State ι)
  | .mkdir _ path => s.sysMkdir ninodes cwd path
  | .sysOpen p path creat rdonly => s.sysOpen p ninodes cwd path creat rdonly
  | .link _ old new => s.sysLink cwd old new
  | .unlink _ path => s.sysUnlink cwd path
  | .chdir p path => s.sysChdir p cwd path
  | .close p fd => .ok (s.sysClose p fd)
  | .exit p => .ok (0, s.exit p cwd)

/-- A process that has exited makes no calls. -/
def step (ninodes : ℕ) (s : State ι) (c : Call ι) : Except Panic (ℤ × State ι) :=
  match (s.proc c.proc).cwd with
  | none => .ok (-1, s)
  | some cwd => call ninodes s cwd c

/-- The entries that `mkfs` makes for the root with the `files`, padded to full blocks. -/
def rootEntries (files : List Name) : List Dirent :=
  let es := ⟨ROOTINO, dot⟩ :: ⟨ROOTINO, dotdot⟩ ::
    files.mapIdx fun k name => (⟨k + 2, name⟩ : Dirent)
  es ++ List.replicate (es.length / 32 * 32 + 32 - es.length) ⟨0, []⟩

def mkfsInode (files : List Name) (i : ℕ) : Inode :=
  if i = ROOTINO then ⟨T_DIR, 1, rootEntries files⟩
  else if 2 ≤ i ∧ i < files.length + 2 then ⟨T_FILE, 1, []⟩
  else ⟨0, 0, []⟩

/-- The processes are in the root and have no open files. -/
def boot (files : List Name) : State ι where
  inode := mkfsInode files
  proc _ := ⟨some ROOTINO, fun _ => none⟩

end FileTree

end Xv6Fairness
