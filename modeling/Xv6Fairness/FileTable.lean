import Mathlib.Data.Fintype.Prod
import Xv6Fairness.Counting
import Xv6Fairness.FileTree

/-!
# References to open files

The file structures are counted under one lock. System calls of several processes take, copy and
drop references in steps that run from one critical section to the next; what a process does to its
own descriptors in between, and to structures that no one else refers to, belongs to the step.
Structures are numbered, and so are the inode references that `open` hands to them and the pipes.
-/

namespace Xv6Fairness

namespace FileTable

open FileTree

abbrev FileId := Fin NFILE

abbrev Fd := Fin NOFILE

inductive Panic
  | filedup
  | fileclose
  deriving DecidableEq

/-- What a structure refers to: an inode by one reference, or one end of a pipe. -/
inductive Target
  | inode (n : ℕ)
  | pipe (m : ℕ) (writable : Bool)
  deriving DecidableEq

/-- `none` stands for `FD_NONE`. -/
structure File where
  ref : ℕ
  target : Option Target

/-- Where a process stands. -/
inductive Pc (ι : Type)
  | unused
  | embryo
  | user
  | zombie
  | opening (f : FileId)                          -- `sys_open` after `filealloc`
  | piping (f0 : FileId)                          -- `pipealloc` after the first `filealloc`
  | filled (f0 f1 : FileId)                       -- and after the second one
  | closing (f : FileId) (rest : List FileId)     -- before `fileclose(f)`, and more of them
  | dropping (t : Target) (rest : List FileId)    -- in `fileclose`, behind the lock
  | forked (child : ι)                            -- `fork` after `allocproc` has its slot
  | copying (child : ι) (fd : ℕ)                  -- the loop of `fork`
  | exiting (fd : ℕ)                              -- the loop of `exit`
  | exitDropping (t : Target) (fd : Fd)           -- and in `fileclose`, behind the lock
  deriving DecidableEq

structure Proc (ι : Type) where
  ofile : Fd → Option FileId
  pc : Pc ι

structure Pipe where
  readopen : Bool
  writeopen : Bool
  frees : ℕ

/-- The inode references and pipes handed out so far are the numbers below `inodes` and `pipes`;
`puts` counts `iput` and `frees` counts `kfree`. -/
structure State (ι : Type) where
  file : FileId → File
  proc : ι → Proc ι
  inodes : ℕ
  puts : ℕ → ℕ
  pipes : ℕ
  pipe : ℕ → Pipe

section Functions

variable {ι : Type} [DecidableEq ι] (s : State ι) (p : ι) (f : FileId)

def State.setFile (x : File) : State ι := { s with file := Function.update s.file f x }

def State.setProc (y : Proc ι) : State ι := { s with proc := Function.update s.proc p y }

def State.goto (pc : Pc ι) : State ι := s.setProc p { s.proc p with pc := pc }

def filealloc : Option (FileId × State ι) :=
  ((List.finRange NFILE).find? fun f => (s.file f).ref = 0).map fun f =>
    (f, s.setFile f { s.file f with ref := 1 })

def filedup : Except Panic (State ι) :=
  if (s.file f).ref < 1 then .error .filedup
  else .ok (s.setFile f { s.file f with ref := (s.file f).ref + 1 })

/-- `fileclose` under the lock, with what the last reference leaves to be dropped. -/
def fileclose : Except Panic (Option Target × State ι) :=
  if (s.file f).ref < 1 then .error .fileclose
  else if 0 < (s.file f).ref - 1 then
    .ok (none, s.setFile f { s.file f with ref := (s.file f).ref - 1 })
  else .ok ((s.file f).target, s.setFile f ⟨0, none⟩)

def fdalloc (y : Proc ι) : Option (Proc ι) :=
  ((List.finRange NOFILE).find? fun fd => y.ofile fd = none).map fun fd =>
    { y with ofile := Function.update y.ofile fd (some f) }

def Pipe.close (pi : Pipe) (writable : Bool) : Pipe :=
  if writable then { pi with writeopen := false } else { pi with readopen := false }

/-- `kfree` where both ends are closed. -/
def Pipe.release (pi : Pipe) : Pipe :=
  if pi.readopen = false ∧ pi.writeopen = false then { pi with frees := pi.frees + 1 } else pi

def pipeclose (m : ℕ) (writable : Bool) : State ι :=
  { s with pipe := Function.update s.pipe m ((s.pipe m).close writable).release }

def iput (n : ℕ) : State ι := { s with puts := Function.update s.puts n (s.puts n + 1) }

/-- The end of `fileclose`. -/
def dropTarget : Target → State ι
  | .inode n => iput s n
  | .pipe m writable => pipeclose s m writable

/-- The next `fileclose` of a call, or the return to user space. -/
def closeAll : List FileId → Pc ι
  | [] => .user
  | f :: rest => .closing f rest

/-- `sys_open` from `fdalloc` on. -/
def openFile : State ι :=
  match fdalloc f (s.proc p) with
  | none => s.goto p (.closing f [])
  | some y =>
    let s := s.setFile f { s.file f with target := some (.inode s.inodes) }
    { s.setProc p { y with pc := .user } with inodes := s.inodes + 1 }

/-- `pipealloc` from `kalloc` on, and the rest of `sys_pipe`. -/
def makePipe (f0 f1 : FileId) : State ι :=
  let t := (s.setFile f0 { s.file f0 with target := some (.pipe s.pipes false) }).setFile f1
    { s.file f1 with target := some (.pipe s.pipes true) }
  let t := { t with
    pipes := s.pipes + 1
    pipe := Function.update s.pipe s.pipes ⟨true, true, 0⟩ }
  match (fdalloc f0 (s.proc p)).bind (fdalloc f1) with
  | none => t.goto p (.closing f0 [f1])
  | some y => t.setProc p { y with pc := .user }

def sysDup (fd : Fd) : Except Panic (State ι) :=
  match (s.proc p).ofile fd with
  | none => .ok s
  | some f =>
    match fdalloc f (s.proc p) with
    | none => .ok s
    | some y => filedup (s.setProc p y) f

/-- One pass of the loop of `fork`. -/
def copyFile (child : ι) (fd : Fd) : Except Panic (State ι) :=
  match (s.proc p).ofile fd with
  | none => .ok (s.goto p (.copying child (fd + 1)))
  | some f => do
    let s ← filedup s f
    let y := s.proc child
    .ok ((s.setProc child { y with ofile := Function.update y.ofile fd (some f) }).goto p
      (.copying child (fd + 1)))

/-- One pass of the loop of `exit`, up to the end of the lock. -/
def exitFile (fd : Fd) : Except Panic (State ι) :=
  match (s.proc p).ofile fd with
  | none => .ok (s.goto p (.exiting (fd + 1)))
  | some f => do
    let (t, s) ← fileclose s f
    match t with
    | none => .ok (s.setProc p ⟨Function.update (s.proc p).ofile fd none, .exiting (fd + 1)⟩)
    | some t => .ok (s.goto p (.exitDropping t fd))

def closeFile (rest : List FileId) : Except Panic (State ι) := do
  let (t, s) ← fileclose s f
  match t with
  | none => .ok (s.goto p (closeAll rest))
  | some t => .ok (s.goto p (.dropping t rest))

/-- What a process does next: a system call, the next step of one, or being reaped by `wait`. -/
inductive Act (ι : Type)
  | openFile
  | dup (fd : Fd)
  | close (fd : Fd)
  | pipe
  | fork (child : ι)
  | exit
  | reap
  | go (memory : Bool)

/-- A step of a process, where it can take it. `memory` says that allocating memory succeeds. -/
def step (a : Act ι) : Option (Except Panic (State ι)) :=
  match (s.proc p).pc, a with
  | .user, .openFile =>
    match filealloc s with
    | none => some (.ok s)
    | some (f, s) => some (.ok (s.goto p (.opening f)))
  | .opening f, .go _ => some (.ok (openFile s p f))
  | .user, .dup fd => some (sysDup s p fd)
  | .user, .close fd =>
    match (s.proc p).ofile fd with
    | none => some (.ok s)
    | some f =>
      some (.ok (s.setProc p ⟨Function.update (s.proc p).ofile fd none, .closing f []⟩))
  | .closing f rest, .go _ => some (closeFile s p f rest)
  | .dropping t rest, .go _ => some (.ok ((dropTarget s t).goto p (closeAll rest)))
  | .user, .pipe =>
    match filealloc s with
    | none => some (.ok s)
    | some (f0, s) => some (.ok (s.goto p (.piping f0)))
  | .piping f0, .go _ =>
    match filealloc s with
    | none => some (.ok (s.goto p (.closing f0 [])))
    | some (f1, s) => some (.ok (s.goto p (.filled f0 f1)))
  | .filled f0 f1, .go true => some (.ok (makePipe s p f0 f1))
  | .filled f0 f1, .go false => some (.ok (s.goto p (.closing f0 [f1])))
  | .user, .fork child =>
    if (s.proc child).pc = .unused then some (.ok ((s.goto child .embryo).goto p (.forked child)))
    else none
  | .forked child, .go true => some (.ok (s.goto p (.copying child 0)))
  | .forked child, .go false => some (.ok ((s.goto child .unused).goto p .user))
  | .copying child fd, .go _ =>
    if h : fd < NOFILE then some (copyFile s p child ⟨fd, h⟩)
    else some (.ok ((s.goto child .user).goto p .user))
  | .user, .exit => some (.ok (s.goto p (.exiting 0)))
  | .exiting fd, .go _ =>
    if h : fd < NOFILE then some (exitFile s p ⟨fd, h⟩) else some (.ok (s.goto p .zombie))
  | .exitDropping t fd, .go _ =>
    some (.ok ((dropTarget s t).setProc p
      ⟨Function.update (s.proc p).ofile fd none, .exiting (fd + 1)⟩))
  | .zombie, .reap => some (.ok (s.goto p .unused))
  | _, _ => none

/-- Each process runs or is free, and no file is open. -/
def Init : Prop :=
  (∀ f, s.file f = ⟨0, none⟩) ∧ (∀ p fd, (s.proc p).ofile fd = none) ∧
    (∀ p, (s.proc p).pc = .unused ∨ (s.proc p).pc = .user) ∧ s.inodes = 0 ∧ (∀ n, s.puts n = 0) ∧
    s.pipes = 0 ∧ ∀ m, s.pipe m = ⟨false, false, 0⟩

def Next (s t : State ι) : Prop := ∃ p a, step s p a = some (.ok t)

/-- No process is in one of the calls. -/
def Quiet : Prop :=
  ∀ p, (s.proc p).pc = .unused ∨ (s.proc p).pc = .user ∨ (s.proc p).pc = .zombie

/-- A descriptor refers to the target. -/
def Opened (t : Target) : Prop :=
  ∃ p fd f, (s.proc p).ofile fd = some f ∧ (s.file f).target = some t

end Functions

end FileTable

end Xv6Fairness
