import Xv6Fairness.ExecProgram
import Xv6Fairness.ThreadPrograms
import Xv6Fairness.TransitionRuns

/-!
# Processes that share the memory

Each process runs its system calls in the kernel, and any other process may run between two actions
of a call. An action is one use of the allocator, one load or store of a page directory, or one
stretch under a lock. The contents of user pages are left out.
-/

namespace Xv6Fairness

open ThreadPrograms TransitionRuns
open VirtualMemory (PDX PTX PGSIZE PGADDR PGROUNDUP PGROUNDDOWN NPDENTRIES PTE_U
  ELF_MAGIC ELF_PROG_LOAD stopFrame userPerm nextPage lt_nextPage lt_PGADDR Pte PageTable Kmap
    kmap Inode
  Proghdr chunk sub_chunk_lt)
open VirtualMemory.Space (pushed)

namespace SharedMemory

/-- The tables of a page directory, and whether `freevm` has not been called for it. -/
structure Pgdir where
  tables : ℕ → Option PageTable
  live : Bool

namespace Pgdir

variable (c : Pgdir)

def pte (a : ℕ) : Option Pte := (c.tables (PDX a)).bind fun t => t.pte (PTX a)

def setPde (i f : ℕ) : Pgdir :=
  { c with tables := Function.update c.tables i (some ⟨f, fun _ => none⟩) }

def setPte (a : ℕ) (p : Option Pte) : Pgdir :=
  let table := (c.tables (PDX a)).map fun t => t.set (PTX a) p
  { c with tables := Function.update c.tables (PDX a) table }

end Pgdir

structure Pipe where
  readopen : Bool
  writeopen : Bool
deriving DecidableEq

namespace Pipe

/-- Whether an end is open: the one for writing, or the one for reading. -/
def isOpen (P : Pipe) (writable : Bool) : Bool := if writable then P.writeopen else P.readopen

def close (P : Pipe) (writable : Bool) : Pipe :=
  if writable then { P with writeopen := false } else { P with readopen := false }

def closed (P : Pipe) : Bool := !P.readopen && !P.writeopen

end Pipe

/-- For a file of type `FD_PIPE`, the page of the pipe and `writable`. -/
structure File where
  ref : ℕ
  pipe : Option (ℕ × Bool)

structure Proc where
  state : ProcState
  kstack : ℕ
  pgdir : ℕ
  sz : UInt32
  pid : ℤ
  parent : Option (Fin NPROC)
  killed : Bool
  ofile : Fin NOFILE → Option (Fin NFILE)

/-- The allocator, the page directories and the pipes by their pages, the tables of files and
processes, and who holds `ptable.lock`. -/
structure Memory where
  freelist : List ℕ
  pgdir : ℕ → Option Pgdir
  pipe : ℕ → Option Pipe
  file : Fin NFILE → File
  proc : Fin NPROC → Proc
  nextpid : ℤ
  lock : Option (Fin NPROC)

/-- What is stored to an entry of the process table. -/
inductive Store
  | kstack (f : ℕ)
  | pgdir (d : ℕ)
  | sz (n : UInt32)
  | state (st : ProcState)
  | parent (p : Fin NPROC)
  | forget
  | ofile (fd : Fin NOFILE) (i : Option (Fin NFILE))

def Store.apply : Store → Proc → Proc
  | kstack f, p => { p with kstack := f }
  | pgdir d, p => { p with pgdir := d }
  | sz n, p => { p with sz := n }
  | state st, p => { p with state := st }
  | parent q, p => { p with parent := some q }
  -- `p->pid = 0; p->parent = 0; p->killed = 0`
  | forget, p => { p with pid := 0, parent := none, killed := false }
  | ofile fd i, p => { p with ofile := Function.update p.ofile fd i }

inductive Action
  | kalloc
  | kfree (f : ℕ)
  | load (d : ℕ)
  | newPgdir (d : ℕ)
  | setPde (d i f : ℕ)
  | setPte (d a : ℕ) (p : Option Pte)
  | retire (d : ℕ)
  | acquire
  | release
  | takeUnused
  | findZombie
  | proc (k : Fin NPROC)
  | store (k : Fin NPROC) (w : Store)
  | filealloc
  | filedup (i : Fin NFILE)
  | fileput (i : Fin NFILE)
  | setFile (i : Fin NFILE) (f : ℕ) (writable : Bool)
  | newPipe (f : ℕ)
  | closeEnd (f : ℕ) (writable : Bool)
  | panic

@[reducible] def Action.Res : Action → Type
  | kalloc => Option ℕ
  | load _ => Option Pgdir
  | takeUnused => Option (Fin NPROC)
  | findZombie => Bool × Option (Fin NPROC)
  | proc _ => Proc
  | filealloc => Option (Fin NFILE)
  | fileput _ => Option (Option (ℕ × Bool))
  | closeEnd _ _ => Bool
  | panic => Empty
  | _ => Unit

namespace Memory

variable (endFrame : ℕ) (m : Memory)

/-- What lay in a page is overwritten when it is freed. -/
def free (f : ℕ) : Memory :=
  { m with
    freelist := f :: m.freelist
    pgdir := Function.update m.pgdir f none
    pipe := Function.update m.pipe f none }

def setPgdir (d : ℕ) (c : Option Pgdir) : Memory := { m with pgdir := Function.update m.pgdir d c }

def setProc (k : Fin NPROC) (p : Proc) : Memory := { m with proc := Function.update m.proc k p }

def setFile (i : Fin NFILE) (x : File) : Memory := { m with file := Function.update m.file i x }

def setPipe (f : ℕ) (P : Pipe) : Memory := { m with pipe := Function.update m.pipe f (some P) }

section Fields

variable {m} {d e f g : ℕ} {c : Option Pgdir} {k l : Fin NPROC} {x : Proc} {P : Pipe}

theorem free_pgdir_self : (m.free f).pgdir f = none := Function.update_self _ _ _

theorem free_pgdir_of_ne (h : g ≠ f) : (m.free f).pgdir g = m.pgdir g := Function.update_of_ne h _ _

theorem free_pipe_self : (m.free f).pipe f = none := Function.update_self _ _ _

theorem free_pipe_of_ne (h : g ≠ f) : (m.free f).pipe g = m.pipe g := Function.update_of_ne h _ _

theorem setPgdir_self : (m.setPgdir d c).pgdir d = c := Function.update_self _ _ _

theorem setPgdir_of_ne (h : e ≠ d) : (m.setPgdir d c).pgdir e = m.pgdir e :=
  Function.update_of_ne h _ _

theorem setPipe_self : (m.setPipe f P).pipe f = some P := Function.update_self _ _ _

theorem setPipe_of_ne (h : g ≠ f) : (m.setPipe f P).pipe g = m.pipe g := Function.update_of_ne h _ _

theorem setProc_self : (m.setProc k x).proc k = x := Function.update_self _ _ _

theorem setProc_of_ne (h : l ≠ k) : (m.setProc k x).proc l = m.proc l := Function.update_of_ne h _ _

end Fields

/-- The scan of `allocproc`, with the stores under the same lock. -/
def takeUnused : Option (Fin NPROC) × Memory :=
  match (List.finRange NPROC).find? fun k => (m.proc k).state = .unused with
  | none => (none, m)
  | some k =>
    (some k, { m.setProc k { m.proc k with state := .embryo, pid := m.nextpid } with
      nextpid := succInt m.nextpid })

/-- The scan of `wait`: whether there are children, and the first one that is a zombie. -/
def findZombie (p : Fin NPROC) : Bool × Option (Fin NPROC) :=
  let kids := (List.finRange NPROC).filter fun k => (m.proc k).parent = some p
  (!kids.isEmpty, kids.find? fun k => (m.proc k).state = .zombie)

def filealloc : Option (Fin NFILE) × Memory :=
  match (List.finRange NFILE).find? fun i => (m.file i).ref = 0 with
  | none => (none, m)
  | some i => (some i, m.setFile i { m.file i with ref := 1 })

/-- The end of `exit`, under `ptable.lock`. The scheduler releases the lock. -/
def exited (p : Fin NPROC) : Memory :=
  let proc := fun k => if (m.proc k).parent = some p then
    { m.proc k with parent := some VirtualMemory.initSlot } else m.proc k
  { m with proc := Function.update proc p { proc p with state := .zombie }, lock := none }

/-- One action of a process. There is no result where the process has to wait for the lock and where
the kernel panics. -/
def run (p : Fin NPROC) : (a : Action) → Memory → Option (a.Res × Memory)
  | .kalloc, m => match m.freelist with
    | [] => some (none, m)
    | f :: rest => some (some f, { m with freelist := rest })
  | .kfree f, m => if f < endFrame ∨ stopFrame ≤ f then none else some ((), m.free f)
  | .load d, m => some (m.pgdir d, m)
  | .newPgdir d, m => some ((), m.setPgdir d (some ⟨fun _ => none, true⟩))
  | .setPde d i f, m => some ((), m.setPgdir d ((m.pgdir d).map fun c => c.setPde i f))
  | .setPte d a q, m => some ((), m.setPgdir d ((m.pgdir d).map fun c => c.setPte a q))
  | .retire d, m => some ((), m.setPgdir d ((m.pgdir d).map fun c => { c with live := false }))
  | .acquire, m => if m.lock = none then some ((), { m with lock := some p }) else none
  | .release, m => if m.lock = some p then some ((), { m with lock := none }) else none
  | .takeUnused, m => some m.takeUnused
  | .findZombie, m => some (m.findZombie p, m)
  | .proc k, m => some (m.proc k, m)
  | .store k w, m => some ((), m.setProc k (w.apply (m.proc k)))
  | .filealloc, m => some m.filealloc
  | .filedup i, m =>
    if (m.file i).ref < 1 then none
    else some ((), m.setFile i { m.file i with ref := (m.file i).ref + 1 })
  | .fileput i, m =>
    if (m.file i).ref < 1 then none
    else if 1 < (m.file i).ref then some
      (none, m.setFile i { m.file i with ref := (m.file i).ref - 1 })
    else some (some (m.file i).pipe, m.setFile i ⟨0, none⟩)
  | .setFile i f writable, m => some ((), m.setFile i { m.file i with pipe := some (f, writable) })
  | .newPipe f, m => some ((), m.setPipe f ⟨true, true⟩)
  | .closeEnd f writable, m => match m.pipe f with
    | none => none
    | some P => some ((P.close writable).closed, m.setPipe f (P.close writable))
  | .panic, _ => none

end Memory

abbrev Kernel := Prog Action.Res

abbrev act (a : Action) : Kernel a.Res := Prog.perform a

def panic {α : Type} : Kernel α := .act .panic fun r => nomatch r

/-- Whether there is a page table for the address, after making one if that is asked for. -/
def walkpgdir (d a : ℕ) (alloc : Bool) : Kernel Bool := do
  let c ← act (.load d)
  if (c.bind fun c => c.tables (PDX a)).isSome then pure true
  else if alloc then
    match ← act .kalloc with
    | none => pure false
    | some f => do
      act (.setPde d (PDX a) f)
      pure true
  else pure false

/-- The entry that `walkpgdir` points to. -/
def pte (d a : ℕ) : Kernel (Option Pte) := do
  let c ← act (.load d)
  pure (c.bind fun c => c.pte a)

/-- One pass of the loop of `mappages`. -/
def mapPage (d : ℕ) (a : UInt32) (frame : ℕ) (perm : UInt32) : Kernel ℤ := do
  if ← walkpgdir d a.toNat true then
    if (← pte d a.toNat).isSome then panic
    else do
      act (.setPte d a.toNat (some ⟨frame, perm⟩))
      pure 0
  else pure (-1)

/-- The loop of `mappages` with `n` pages to go after this one. -/
def mapLoop (d : ℕ) (a : UInt32) (frame : ℕ) (perm : UInt32) : ℕ → Kernel ℤ
  | 0 => mapPage d a frame perm
  | n + 1 => do
    let r ← mapPage d a frame perm
    if r < 0 then pure (-1) else mapLoop d (a + 4096) (frame + 1) perm n

def mappages (d : ℕ) (va size : UInt32) (frame : ℕ) (perm : UInt32) : Kernel ℤ :=
  let a := PGROUNDDOWN va
  let last := PGROUNDDOWN (va + size - 1)
  mapLoop d a frame perm ((last - a).toNat / PGSIZE)

def deallocLoop (d oldsz a : ℕ) : Kernel Unit :=
  if a < oldsz then do
    if ← walkpgdir d a false then
      match ← pte d a with
      | none => deallocLoop d oldsz (nextPage a)
      | some p =>
        if p.frame = 0 then panic
        else do
          act (.kfree p.frame)
          act (.setPte d a none)
          deallocLoop d oldsz (nextPage a)
    else deallocLoop d oldsz (PGADDR (PDX a + 1))
  else pure ()
termination_by oldsz - a
decreasing_by
  all_goals
    have hnext := lt_nextPage a
    have hdir := lt_PGADDR a
    omega

@[irreducible] def deallocuvm (d : ℕ) (oldsz newsz : UInt32) : Kernel UInt32 :=
  if oldsz ≤ newsz then pure oldsz
  else do
    deallocLoop d oldsz.toNat (PGROUNDUP newsz).toNat
    pure newsz

def allocLoop (d : ℕ) (oldsz newsz : UInt32) (a : ℕ) : Kernel UInt32 :=
  if a < newsz.toNat then do
    match ← act .kalloc with
    | none => do
      let _ ← deallocuvm d newsz oldsz
      pure 0
    | some mem => do
      let r ← mappages d (UInt32.ofNat a) 4096 mem userPerm
      if r < 0 then do
        let _ ← deallocuvm d newsz oldsz
        act (.kfree mem)
        pure 0
      else allocLoop d oldsz newsz (nextPage a)
  else pure newsz
termination_by newsz.toNat - a
decreasing_by
  have hlt := lt_nextPage a
  omega

@[irreducible] def allocuvm (d : ℕ) (oldsz newsz : UInt32) : Kernel UInt32 :=
  if KERNBASE ≤ newsz then pure 0
  else if newsz < oldsz then pure oldsz
  else allocLoop d oldsz newsz (PGROUNDUP oldsz).toNat

/-- The loop of `freevm` over the directory. -/
def freeTables (d : ℕ) : List ℕ → Kernel Unit
  | [] => pure ()
  | i :: is => do
    let c ← act (.load d)
    match c.bind fun c => c.tables i with
    | none => freeTables d is
    | some t => do
      act (.kfree t.frame)
      freeTables d is

@[irreducible] def freevm (d : ℕ) : Kernel Unit :=
  if d = 0 then panic
  else do
    act (.retire d)
    let _ ← deallocuvm d KERNBASE 0
    freeTables d (List.range NPDENTRIES)
    act (.kfree d)

variable (data : UInt32)

def mapKernel (d : ℕ) : List Kmap → Kernel ℤ
  | [] => pure 0
  | k :: ks => do
    let r ← mappages d k.virt (k.phys_end - k.phys_start) (k.phys_start.toNat / PGSIZE) k.perm
    if r < 0 then pure (-1) else mapKernel d ks

@[irreducible] def setupkvm : Kernel (Option ℕ) := do
  match ← act .kalloc with
  | none => pure none
  | some d => do
    act (.newPgdir d)
    if VirtualMemory.DEVSPACE < VirtualMemory.P2V VirtualMemory.PHYSTOP then panic
    else do
      let r ← mapKernel d (kmap data)
      if r < 0 then do
        freevm d
        pure none
      else pure (some d)

/-- The loop of `copyuvm` from the directory `d` to the directory `t`: whether all is copied. -/
def copyLoop (d t sz i : ℕ) : Kernel Bool :=
  if i < sz then do
    if ← walkpgdir d i false then
      match ← pte d i with
      | none => panic
      | some p => do
        match ← act .kalloc with
        | none => pure false
        | some mem => do
          let r ← mappages t (UInt32.ofNat i) 4096 mem p.perm
          if r < 0 then do
            act (.kfree mem)
            pure false
          else copyLoop d t sz (nextPage i)
    else panic
  else pure true
termination_by sz - i
decreasing_by
  have hlt := lt_nextPage i
  omega

@[irreducible] def copyuvm (d : ℕ) (sz : UInt32) : Kernel (Option ℕ) := do
  match ← setupkvm data with
  | none => pure none
  | some t => do
    if ← copyLoop d t sz.toNat 0 then pure (some t)
    else do
      freevm t
      pure none

/-- The loop of `loaduvm`. -/
def loadLoop (d : ℕ) (ip : Inode) (addr offset sz : UInt32) (i : ℕ) : Kernel ℤ :=
  if i < sz.toNat then do
    if ← walkpgdir d (addr + UInt32.ofNat i).toNat false then
      let n : UInt32 := if sz - UInt32.ofNat i < 4096 then sz - UInt32.ofNat i else 4096
      if ip.readi (offset + UInt32.ofNat i) n = n.toNat then
        loadLoop d ip addr offset sz (nextPage i)
      else pure (-1)
    else panic
  else pure 0
termination_by sz.toNat - i
decreasing_by
  have hlt := lt_nextPage i
  omega

def loaduvm (d : ℕ) (addr : UInt32) (ip : Inode) (offset sz : UInt32) : Kernel ℤ :=
  if addr.toNat % PGSIZE ≠ 0 then panic else loadLoop d ip addr offset sz 0

def clearpteu (d : ℕ) (uva : UInt32) : Kernel Unit := do
  if ← walkpgdir d uva.toNat false then
    let p ← pte d uva.toNat
    act (.setPte d uva.toNat (p.map fun p => { p with perm := p.perm &&& ~~~PTE_U }))
  else panic

/-- Where there is no page table, `uva2ka` reads from the null pointer. -/
def copyout (d : ℕ) (va len : UInt32) : Kernel ℤ :=
  if 0 < len then do
    if ← walkpgdir d (PGROUNDDOWN va).toNat false then
      match ← pte d (PGROUNDDOWN va).toNat with
      | none => pure (-1)
      | some p =>
        if p.perm &&& PTE_U = 0 then pure (-1)
        else copyout d (PGROUNDDOWN va + 4096) (len - chunk va len)
    else panic
  else pure 0
termination_by len.toNat
decreasing_by exact sub_chunk_lt ‹0 < len›

/-- One program header: the size that comes next, or none for `bad`. -/
@[irreducible] def loadSegment (d : ℕ) (ip : Inode) (ph : Proghdr)
    (sz : UInt32) : Kernel (Option UInt32) :=
  if ph.type ≠ ELF_PROG_LOAD then pure (some sz)
  else if ph.memsz < ph.filesz then pure none
  else if ph.vaddr + ph.memsz < ph.vaddr then pure none
  else do
    let sz ← allocuvm d sz (ph.vaddr + ph.memsz)
    if sz = 0 then pure none
    else if ph.vaddr.toNat % PGSIZE ≠ 0 then pure none
    else do
      let r ← loaduvm d ph.vaddr ip ph.off ph.filesz
      if r < 0 then pure none else pure (some sz)

/-- The loop over the program headers with `n` to go. -/
def loadProgram (d : ℕ) (ip : Inode) (off sz : UInt32) : ℕ → Kernel (Option UInt32)
  | 0 => pure (some sz)
  | n + 1 =>
    if ip.readi off 32 ≠ 32 then pure none
    else do
      match ← loadSegment d ip (ip.proghdr off) sz with
      | none => pure none
      | some sz => loadProgram d ip (off + 32) sz n

/-- The loop over the arguments: the stack pointer at its end, or none for `bad`. -/
def pushArgs (d : ℕ) (sp : UInt32) (argc : ℕ) : List (List UInt8) → Kernel (Option UInt32)
  | [] => pure (some sp)
  | arg :: args =>
    if MAXARG ≤ argc then pure none
    else do
      let sp := pushed sp arg
      let r ← copyout d sp (UInt32.ofNat (arg.length + 1))
      if r < 0 then pure none else pushArgs d sp (argc + 1) args

/-- The size of the image, or none for `bad`. -/
@[irreducible] def buildStack (d : ℕ) (sz : UInt32)
    (argv : List (List UInt8)) : Kernel (Option UInt32) := do
  let sz ← allocuvm d (PGROUNDUP sz) (PGROUNDUP sz + 2 * 4096)
  if sz = 0 then pure none
  else do
    clearpteu d (sz - 2 * 4096)
    match ← pushArgs d sz 0 argv with
    | none => pure none
    | some sp => do
      let size := (3 + UInt32.ofNat argv.length + 1) * 4
      let r ← copyout d (sp - size) size
      if r < 0 then pure none else pure (some sz)

variable (p : Fin NPROC)

/-- The new image is complete. -/
@[irreducible] def commit (d : ℕ) (sz : UInt32) : Kernel ℤ := do
  let curproc ← act (.proc p)
  act (.store p (.pgdir d))
  act (.store p (.sz sz))
  -- `switchuvm`
  if curproc.kstack = 0 ∨ d = 0 then panic
  else do
    freevm curproc.pgdir
    pure 0

/-- `ip` is the inode that `namei` finds, which is locked while it is read. -/
def exec (ip : Option Inode) (argv : List (List UInt8)) : Kernel ℤ :=
  match ip with
  | none => pure (-1)
  | some ip =>
    if ip.readi 0 52 ≠ 52 then pure (-1)
    else if ip.elfhdr.magic ≠ ELF_MAGIC then pure (-1)
    else do
      match ← setupkvm data with
      | none => pure (-1)
      | some d => do
        match ← loadProgram d ip ip.elfhdr.phoff 0 ip.elfhdr.phnum with
        | none => do
          freevm d
          pure (-1)
        | some sz => do
          match ← buildStack d sz argv with
          | none => do
            freevm d
            pure (-1)
          | some sz => commit p d sz

def growproc (n : Int32) : Kernel ℤ := do
  let curproc ← act (.proc p)
  if 0 < n then do
    let sz ← allocuvm curproc.pgdir curproc.sz (curproc.sz + n.toUInt32)
    if sz = 0 then pure (-1)
    else do
      act (.store p (.sz sz))
      pure 0
  else if n < 0 then do
    let sz ← deallocuvm curproc.pgdir curproc.sz (curproc.sz + n.toUInt32)
    if sz = 0 then pure (-1)
    else do
      act (.store p (.sz sz))
      pure 0
  else pure 0

def pipeclose (f : ℕ) (writable : Bool) : Kernel Unit := do
  if ← act (.closeEnd f writable) then act (.kfree f) else pure ()

def fileclose (i : Fin NFILE) : Kernel Unit := do
  match ← act (.fileput i) with
  | some (some (f, writable)) => pipeclose f writable
  | _ => pure ()

def pipealloc : Kernel (Option (Fin NFILE × Fin NFILE)) := do
  match ← act .filealloc with
  | none => pure none
  | some i => do
    match ← act .filealloc with
    | none => do
      fileclose i
      pure none
    | some j => do
      match ← act .kalloc with
      | none => do
        fileclose i
        fileclose j
        pure none
      | some f => do
        act (.newPipe f)
        act (.setFile i f false)
        act (.setFile j f true)
        pure (some (i, j))

def fdalloc (i : Fin NFILE) : Kernel (Option (Fin NOFILE)) := do
  let curproc ← act (.proc p)
  match (List.finRange NOFILE).find? fun fd => curproc.ofile fd = none with
  | none => pure none
  | some fd => do
    act (.store p (.ofile fd (some i)))
    pure (some fd)

def pipe : Kernel ℤ := do
  match ← pipealloc with
  | none => pure (-1)
  | some (rf, wf) => do
    match ← fdalloc p rf with
    | none => do
      fileclose rf
      fileclose wf
      pure (-1)
    | some fd0 => do
      match ← fdalloc p wf with
      | none => do
        act (.store p (.ofile fd0 none))
        fileclose rf
        fileclose wf
        pure (-1)
      | some _ => pure 0

def close (fd : Fin NOFILE) : Kernel ℤ := do
  let curproc ← act (.proc p)
  match curproc.ofile fd with
  | none => pure (-1)
  | some i => do
    act (.store p (.ofile fd none))
    fileclose i
    pure 0

def allocproc : Kernel (Option (Fin NPROC)) := do
  act .acquire
  match ← act .takeUnused with
  | none => do
    act .release
    pure none
  | some k => do
    act .release
    match ← act .kalloc with
    | none => do
      act (.store k (.kstack 0))
      act (.store k (.state .unused))
      pure none
    | some f => do
      act (.store k (.kstack f))
      pure (some k)

/-- The loop of `fork` over the open files. -/
def dupFiles (np : Fin NPROC) : List (Fin NOFILE) → Kernel Unit
  | [] => pure ()
  | fd :: fds => do
    let curproc ← act (.proc p)
    match curproc.ofile fd with
    | none => dupFiles np fds
    | some i => do
      act (.filedup i)
      act (.store np (.ofile fd (some i)))
      dupFiles np fds

def fork : Kernel ℤ := do
  match ← allocproc with
  | none => pure (-1)
  | some np => do
    let curproc ← act (.proc p)
    match ← copyuvm data curproc.pgdir curproc.sz with
    | none => do
      act (.store np (.pgdir 0))
      let child ← act (.proc np)
      act (.kfree child.kstack)
      act (.store np (.kstack 0))
      act (.store np (.state .unused))
      pure (-1)
    | some d => do
      act (.store np (.pgdir d))
      act (.store np (.sz curproc.sz))
      act (.store np (.parent p))
      dupFiles p np (List.finRange NOFILE)
      let child ← act (.proc np)
      act .acquire
      act (.store np (.state .runnable))
      act .release
      pure child.pid

/-- How a process leaves the kernel: with a result, to sleep in `wait`, or for good. -/
inductive Next
  | user (r : ℤ)
  | sleep
  | exit

/-- The loop of `exit` over the open files. -/
def closeFiles : List (Fin NOFILE) → Kernel Unit
  | [] => pure ()
  | fd :: fds => do
    let curproc ← act (.proc p)
    match curproc.ofile fd with
    | none => closeFiles fds
    | some i => do
      fileclose i
      act (.store p (.ofile fd none))
      closeFiles fds

def exit : Kernel Next :=
  if p = VirtualMemory.initSlot then panic
  else do
    closeFiles p (List.finRange NOFILE)
    act .acquire
    pure .exit

/-- A process that sleeps begins with the lock again. -/
def wait : Kernel Next := do
  act .acquire
  match ← act .findZombie with
  | (_, some k) => do
    let child ← act (.proc k)
    act (.kfree child.kstack)
    act (.store k (.kstack 0))
    freevm child.pgdir
    act (.store k .forget)
    act (.store k (.state .unused))
    act .release
    pure (.user child.pid)
  | (havekids, none) => do
    let curproc ← act (.proc p)
    act .release
    if !havekids || curproc.killed then pure (.user (-1)) else pure .sleep

inductive Call
  | fork
  | exec (ip : Option Inode) (argv : List (List UInt8))
  | sbrk (n : Int32)
  | exit
  | wait
  | pipe
  | close (fd : Fin NOFILE)

def Call.prog : Call → Kernel Next
  | fork => do return .user (← SharedMemory.fork data p)
  | exec ip argv => do return .user (← SharedMemory.exec data p ip argv)
  | sbrk n => do
    let curproc ← act (.proc p)
    let r ← growproc p n
    return .user (if r < 0 then -1 else curproc.sz.toNat)
  | exit => SharedMemory.exit p
  | wait => SharedMemory.wait p
  | pipe => do return .user (← SharedMemory.pipe p)
  | close fd => do return .user (← SharedMemory.close p fd)

/-- The memory, and what is left of the system call of each process that is in the kernel. -/
structure System where
  memory : Memory
  thread : Fin NPROC → Option (Kernel Next)

/-- The states of a process that has not exited. -/
def Alive (st : ProcState) : Prop := st = .sleeping ∨ st = .runnable ∨ st = .running

namespace System

variable (endFrame : ℕ)

def setThread (s : System) (x : Option (Kernel Next)) : System :=
  { s with thread := Function.update s.thread p x }

inductive Step : System → System → Prop
  | call {s : System} {p : Fin NPROC} (c : Call) (hidle : s.thread p = none)
      (halive : Alive (s.memory.proc p).state) : Step s (s.setThread p (some (c.prog data p)))
  | act {s : System} {p : Fin NPROC} {a : Action} {k : a.Res → Kernel Next} {r : a.Res} {m : Memory}
      (hthread : s.thread p = some (.act a k))
      (hrun : Memory.run endFrame p a s.memory = some (r, m)) :
      Step s ⟨m, Function.update s.thread p (some (k r))⟩
  | leave {s : System} {p : Fin NPROC} {r : ℤ} (hthread : s.thread p = some (.ret (.user r))) :
      Step s (s.setThread p none)
  | wakeup {s : System} {p : Fin NPROC} (hthread : s.thread p = some (.ret .sleep)) :
      Step s (s.setThread p (some (wait p)))
  | exit {s : System} {p : Fin NPROC} (hthread : s.thread p = some (.ret .exit)) :
      Step s ⟨s.memory.exited p, Function.update s.thread p none⟩
  /-- The scheduler and `sleep` change the state of a process. -/
  | turn {s : System} {p : Fin NPROC} {st : ProcState} (halive : Alive (s.memory.proc p).state)
      (hst : Alive st) :
      Step s { s with memory := s.memory.setProc p { s.memory.proc p with state := st } }

end System

end SharedMemory

end Xv6Fairness
