import Mathlib.Data.Fintype.Basic
import Xv6Fairness.Parameters
import Xv6Fairness.ShellCommands
import Xv6Fairness.ThreadPrograms
import Xv6Fairness.TransitionRuns

/-!
# The processes of the shell

`main` and `runcmd` as programs of system calls, and the processes that they fork. Each process has
a table of descriptors; an `open` or a `pipe` that succeeds makes an object with a new number. What
a program does after `exec`, and what is in the files and pipes, is left out.
-/

namespace Xv6Fairness

namespace Shell

open ByteStrings ThreadPrograms

/-- What a descriptor refers to: what the shell was given, or an object named by a `κ`. -/
inductive Target (κ : Type)
  | given (fd : ℕ)
  | file (n : κ) (name : Bytes) (mode : ℕ)
  | pipe (n : κ) (writable : Bool)

abbrev Table (κ : Type) := ℕ → Option (Target κ)

/-- `fdalloc`: the lowest descriptor that is free. -/
def fdalloc {κ : Type} (fds : Table κ) : Option ℕ :=
  (List.range NOFILE).find? fun fd => (fds fd).isNone

inductive Message
  | execFailed (name : Bytes)
  | openFailed (name : Bytes)
  | panic (s : String)

/-- `getcmd` stands for the prompt and the read of a line. -/
inductive Call
  | close (fd : ℕ)
  | openFile (name : Bytes) (mode : ℕ)
  | dup (fd : ℕ)
  | pipe
  | fork
  | wait
  | exec (argv : List Bytes)
  | print (msg : Message)
  | getcmd

inductive Fork
  | failed | child | parent

/-- `exec` returns where it fails. -/
@[reducible] def Call.Res : Call → Type
  | openFile _ _ => Option ℕ
  | dup _ => Option ℕ
  | pipe => Option (ℕ × ℕ)
  | fork => Fork
  | _ => Unit

/-- The end of a program is `exit`. -/
abbrev Script := Prog Call.Res Unit

abbrev call (a : Call) : Prog Call.Res a.Res := Prog.perform a

def panic (s : String) : Script := do
  call (.print (.panic s))
  return ()

/-- `if(fork1() == 0) child; parent`, where `child` does not return. -/
def fork1 (child parent : Script) : Script := do
  match ← call .fork with
  | .failed => panic "fork"
  | .child => child
  | .parent => parent

def runcmd : Tree → Script
  | .exec argv => match argv with
    | [] => return ()
    | arg :: args => do
      call (.exec (arg :: args))
      call (.print (.execFailed arg))
      return ()
  | .redir cmd file mode fd => do
    call (.close fd)
    match ← call (.openFile file mode) with
    | none => do
      call (.print (.openFailed file))
      return ()
    | some _ => runcmd cmd
  | .list left right =>
    fork1 (runcmd left) do
      call .wait
      runcmd right
  | .pipe left right => do
    match ← call .pipe with
    | none => panic "pipe"
    | some (p0, p1) =>
      fork1
        (do
          call (.close 1)
          let _ ← call (.dup p1)
          call (.close p0)
          call (.close p1)
          runcmd left)
        (fork1
          (do
            call (.close 0)
            let _ ← call (.dup p0)
            call (.close p0)
            call (.close p1)
            runcmd right)
          (do
            call (.close p0)
            call (.close p1)
            call .wait
            call .wait
            return ()))
  | .back cmd => fork1 (runcmd cmd) (return ())

/-- The tree of a line, where `parsecmd` does not panic. -/
def lineTree (buf : Bytes) : Option Tree :=
  match parsecmd (cString buf) with
  | .ok (c, m) => some (c.read m)
  | .error _ => none

/-- `buf[0] == 'c' && buf[1] == 'd' && buf[2] == ' '` -/
def isCd (buf : Bytes) : Bool := (ascii ['c', 'd', ' ']).isPrefixOf buf

/-- The loop of `main` over the lines that are typed. The messages of a panic in `parsecmd` and the
call of `chdir` are left out. -/
def main : List Bytes → Script
  | [] => do
    call .getcmd
    return ()
  | buf :: bufs => do
    call .getcmd
    if isCd buf then main bufs
    else
      fork1 (match lineTree buf with | some c => runcmd c | none => return ()) do
        call .wait
        main bufs

inductive Status
  | shell (x : Script)
  | program (argv : List Bytes)
  | zombie

/-- The parent is none for a process that `init` waits for. -/
structure Process (ι : Type) where
  status : Status
  fds : Table ℕ
  parent : Option ι

/-- The processes by their numbers, and the number of the next object. -/
structure System (ι : Type) where
  proc : ι → Option (Process ι)
  next : ℕ

namespace System

variable {ι : Type} [DecidableEq ι]

def set (s : System ι) (p : ι) (P : Option (Process ι)) : System ι :=
  { s with proc := Function.update s.proc p P }

/-- The processes that `p` waits for. -/
def IsChild (s : System ι) (p c : ι) : Prop := (s.proc c).bind Process.parent = some p

instance (s : System ι) (p c : ι) : Decidable (s.IsChild p c) := inferInstanceAs (Decidable (_ = _))

end System

/-- Each number is used for one process at a time. The first flag says whether a call that may fail
succeeds, and `c` is the child that `fork` makes or `wait` finds. -/
inductive Action (ι : Type)
  | run (p : ι) (ok : Bool) (c : ι)
  | exit (p : ι)
  | reap (c : ι)

variable {ι : Type} [DecidableEq ι] [Fintype ι]

/-- One system call of the process `p`. -/
def System.call (s : System ι) (p : ι) (ok : Bool) (c : ι) (fds : Table ℕ) (parent : Option ι) :
    (a : Call) → (a.Res → Script) → Option (System ι)
  | .close fd, k => some (s.set p (some ⟨.shell (k ()), Function.update fds fd none, parent⟩))
  | .openFile name mode, k =>
    match ok, fdalloc fds with
    | true, some fd =>
      some { s.set p
        (some ⟨.shell (k (some fd)), Function.update fds fd (some (.file s.next name mode)),
        parent⟩) with next := s.next + 1 }
    | _, _ => some (s.set p (some ⟨.shell (k none), fds, parent⟩))
  | .dup fd, k =>
    match fds fd, fdalloc fds with
    | some t, some fd' =>
      some (s.set p (some ⟨.shell (k (some fd')), Function.update fds fd' (some t), parent⟩))
    | _, _ => some (s.set p (some ⟨.shell (k none), fds, parent⟩))
  | .pipe, k =>
    match ok, fdalloc fds with
    | true, some fd0 =>
      let fds0 := Function.update fds fd0 (some (.pipe s.next false))
      match fdalloc fds0 with
      | some fd1 =>
        some { s.set p (some ⟨.shell (k (some (fd0, fd1))),
          Function.update fds0 fd1 (some (.pipe s.next true)), parent⟩) with next := s.next + 1 }
      | none => some (s.set p (some ⟨.shell (k none), fds, parent⟩))
    | _, _ => some (s.set p (some ⟨.shell (k none), fds, parent⟩))
  | .fork, k =>
    if ok then
      if (s.proc c).isNone then
        some ((s.set p (some ⟨.shell (k .parent), fds, parent⟩)).set c
          (some ⟨.shell (k .child), fds, some p⟩))
      else none
    else some (s.set p (some ⟨.shell (k .failed), fds, parent⟩))
  | .wait, k =>
    if ∀ q, ¬ s.IsChild p q then some (s.set p (some ⟨.shell (k ()), fds, parent⟩))
    else
      match s.proc c with
      | some ⟨.zombie, _, some q⟩ =>
        if q = p then some ((s.set p (some ⟨.shell (k ()), fds, parent⟩)).set c none) else none
      | _ => none
  | .exec argv, k =>
    if ok then some (s.set p (some ⟨.program argv, fds, parent⟩))
    else some (s.set p (some ⟨.shell (k ()), fds, parent⟩))
  | .print _, k => some (s.set p (some ⟨.shell (k ()), fds, parent⟩))
  | .getcmd, k => some (s.set p (some ⟨.shell (k ()), fds, parent⟩))

/-- `exit`: the descriptors are closed and the children handed to `init`. -/
def System.exit (s : System ι) (p : ι) (parent : Option ι) : System ι :=
  { s with
    proc := Function.update
      (fun q => (s.proc q).map fun Q =>
        if Q.parent = some p then { Q with parent := none } else Q) p
      (some ⟨.zombie, fun _ => none, parent⟩) }

def System.step (s : System ι) : Action ι → Option (System ι)
  | .run p ok c =>
    match s.proc p with
    | some ⟨.shell (.act a k), fds, parent⟩ => s.call p ok c fds parent a k
    | _ => none
  | .exit p =>
    match s.proc p with
    | some ⟨.shell (.ret ()), _, parent⟩ => some (s.exit p parent)
    | some ⟨.program _, _, parent⟩ => some (s.exit p parent)
    | _ => none
  | .reap c =>
    match s.proc c with
    | some ⟨.zombie, _, none⟩ => some (s.set c none)
    | _ => none

/-- The shell has three descriptors and nothing else runs. -/
def System.start (shell : ι) (bufs : List Bytes) : System ι where
  proc p := if p = shell then
      some ⟨.shell (main bufs), fun fd => if fd < 3 then some (.given fd) else none, none⟩
    else none
  next := 0

abbrev System.Reachable (shell : ι) (bufs : List Bytes) : System ι → Prop :=
  TransitionRuns.Reaches (· = start shell bufs) fun s t => ∃ a, s.step a = some t

end Shell

end Xv6Fairness
