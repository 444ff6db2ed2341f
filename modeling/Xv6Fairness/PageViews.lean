import Mathlib.Data.Set.Insert
import Xv6Fairness.ExclusivePlaces
import Xv6Fairness.KernelThreads

/-!
# What a process knows and owns

The view of a process in the kernel has the pages in its local variables, the page directories that
no other process touches, the entries of the process table it may store to, and the ends of pipes it
is about to close. The rules say what each action does to the view.
-/

namespace Xv6Fairness

open ThreadPrograms ExclusivePlaces
open VirtualMemory (PDX PTX Pte PageTable stopFrame)

namespace SharedMemory

/-- A page directory, and how many of its tables `freevm` has given back. -/
structure Tree where
  dir : Pgdir
  freed : ℕ

/-- An entry that names a page: of a page table below `KERNBASE`, or of the directory. -/
inductive Leaf
  | user (i k : ℕ)
  | table (i : ℕ)

/-- The entries of the directory below `KERNBASE`. -/
def userTables : ℕ := 512

def Pgdir.entry (c : Pgdir) (i k : ℕ) : Option Pte := (c.tables i).bind fun t => t.pte k

inductive Tree.Has (T : Tree) : ℕ → Leaf → Prop
  | user {i k : ℕ} {q : Pte} (hi : i < userTables) (hq : T.dir.entry i k = some q) :
      T.Has q.frame (.user i k)
  | table {i : ℕ} {t : PageTable} (ht : T.dir.tables i = some t)
      (hi : T.dir.live = true ∨ T.freed ≤ i) :
      T.Has t.frame (.table i)

/-- What is known of an entry of the process table. -/
structure Known where
  kstack : ℕ
  pgdir : ℕ
  sz : UInt32

def Proc.known (x : Proc) : Known := ⟨x.kstack, x.pgdir, x.sz⟩

/-- An entry whose page has been freed and that is cleared next. -/
inductive Stale
  | pte (d i k : ℕ)
  | kstack (k : Fin NPROC)

/-- The entries of the process table, the locks and the ends of pipes. -/
structure Claims where
  known : Fin NPROC → Option Known
  reaping : Option (Fin NPROC)
  lock : Bool
  ends : Set (ℕ × Bool)
  buffer : Option ℕ

structure View where
  hand : Set ℕ
  tree : ℕ → Option Tree
  stale : Option Stale
  claims : Claims

/-- Where a page is in a view. -/
inductive Mine
  | hand
  | dir
  | leaf (d : ℕ) (l : Leaf)
  | kstack (k : Fin NPROC)
  | buffer

def Stale.mine : Stale → Mine
  | .pte d i k => .leaf d (.user i k)
  | .kstack k => .kstack k

inductive View.Has (v : View) : ℕ → Mine → Prop
  | hand {f : ℕ} (h : f ∈ v.hand) : v.Has f .hand
  | dir {d : ℕ} {T : Tree} (h : v.tree d = some T) : v.Has d .dir
  | leaf {d f : ℕ} {T : Tree} {l : Leaf} (h : v.tree d = some T) (hl : T.Has f l)
      (hstale : ∀ x, v.stale = some x → x.mine ≠ .leaf d l) : v.Has f (.leaf d l)
  | kstack {k : Fin NPROC} {e : Known} (h : v.claims.known k = some e) (hne : e.kstack ≠ 0)
      (hstale : ∀ x, v.stale = some x → x.mine ≠ .kstack k) : v.Has e.kstack (.kstack k)
  | buffer {f : ℕ} (h : v.claims.buffer = some f) : v.Has f .buffer

namespace View

variable (v : View)

def take (f : ℕ) : View := { v with hand := insert f v.hand }

def drop (f : ℕ) : View := { v with hand := v.hand \ {f} }

def setTree (d : ℕ) (T : Option Tree) : View := { v with tree := Function.update v.tree d T }

def setKnown (k : Fin NPROC) (e : Option Known) : View :=
  { v with claims := { v.claims with known := Function.update v.claims.known k e } }

def setEnds (E : Set (ℕ × Bool)) : View := { v with claims := { v.claims with ends := E } }

def setLock (b : Bool) : View := { v with claims := { v.claims with lock := b } }

def setReaping (k : Option (Fin NPROC)) : View :=
  { v with claims := { v.claims with reaping := k } }

def setBuffer (f : Option ℕ) : View := { v with claims := { v.claims with buffer := f } }

def setStale (x : Option Stale) : View := { v with stale := x }

variable {v} {d e : ℕ} {T : Option Tree} {k l : Fin NPROC} {x : Option Known}

@[simp] theorem setTree_self : (v.setTree d T).tree d = T := Function.update_self _ _ _

theorem setTree_of_ne (h : e ≠ d) : (v.setTree d T).tree e = v.tree e := Function.update_of_ne h _ _

@[simp] theorem setKnown_self : (v.setKnown k x).claims.known k = x := Function.update_self _ _ _

theorem setKnown_of_ne (h : l ≠ k) : (v.setKnown k x).claims.known l = v.claims.known l :=
  Function.update_of_ne h _ _

end View

/-- What an action may do to a view in which no entry is stale. -/
inductive Plain (p : Fin NPROC) (v : View) : (a : Action) → (a.Res → View → Prop) → Prop
  | kalloc : Plain p v .kalloc fun r w => match r with
      | none => w = v
      | some f => f ∉ v.hand ∧ v.tree f = none ∧ w = v.take f
  | kfree {f : ℕ} (h : f ∈ v.hand) : Plain p v (.kfree f) fun _ w => w = v.drop f
  | kfreeUser {d i k : ℕ} {T : Tree} {q : Pte} (h : v.tree d = some T) (hi : i < userTables)
      (hq : T.dir.entry i k = some q) :
      Plain p v (.kfree q.frame) fun _ w => w = v.setStale (some (.pte d i k))
  | kfreeTable {d i : ℕ} {T : Tree} {t : PageTable} (h : v.tree d = some T)
      (hlive : T.dir.live = false)
      (ht : T.dir.tables i = some t) (hi : T.freed ≤ i) :
      Plain p v (.kfree t.frame) fun _ w => w = v.setTree d (some ⟨T.dir, i + 1⟩)
  | kfreeDir {d : ℕ} {T : Tree} (h : v.tree d = some T) :
      Plain p v (.kfree d) fun _ w => w = v.setTree d none
  | kfreeKstack {k : Fin NPROC} {e : Known} (h : v.claims.known k = some e) :
      Plain p v (.kfree e.kstack) fun _ w => w = v.setStale (some (.kstack k))
  | kfreeBuffer {f : ℕ} (h : v.claims.buffer = some f) :
      Plain p v (.kfree f) fun _ w => w = v.setBuffer none
  | load {d : ℕ} {T : Tree} (h : v.tree d = some T) :
      Plain p v (.load d) fun r w => r = some T.dir ∧ w = v
  | newPgdir {d : ℕ} (h : d ∈ v.hand) :
      Plain p v (.newPgdir d) fun _ w => w = (v.drop d).setTree d (some ⟨⟨fun _ => none, true⟩, 0⟩)
  | setPde {d i f : ℕ} {T : Tree} (h : v.tree d = some T) (hf : f ∈ v.hand) :
      Plain p v (.setPde d i f) fun _ w => w = (v.drop f).setTree d
      (some ⟨T.dir.setPde i f, T.freed⟩)
  | map {d a : ℕ} {T : Tree} {q : Pte} (h : v.tree d = some T) (hq : q.frame ∈ v.hand) :
      Plain p v (.setPte d a (some q)) fun _ w =>
        w = (v.drop q.frame).setTree d (some ⟨T.dir.setPte a (some q), T.freed⟩)
  | mapKernel {d a : ℕ} {T : Tree} {q : Option Pte} (h : v.tree d = some T)
      (ha : userTables ≤ PDX a) :
      Plain p v (.setPte d a q) fun _ w => w = v.setTree d (some ⟨T.dir.setPte a q, T.freed⟩)
  | protect {d a : ℕ} {T : Tree} {q : Option Pte} (h : v.tree d = some T)
      (hq : q.map Pte.frame = (T.dir.pte a).map Pte.frame) :
      Plain p v (.setPte d a q) fun _ w => w = v.setTree d (some ⟨T.dir.setPte a q, T.freed⟩)
  | retire {d : ℕ} {T : Tree} (h : v.tree d = some T) (hlive : T.dir.live = true) :
      Plain p v (.retire d) fun _ w => w = v.setTree d (some ⟨{ T.dir with live := false }, 0⟩)
  | acquire : Plain p v .acquire fun _ w => w = v.setLock true
  | release (h : v.claims.lock = true) (hreaping : v.claims.reaping = none) :
      Plain p v .release fun _ w => w = v.setLock false
  | takeUnused : Plain p v .takeUnused fun r w => match r with
      | none => w = v
      | some k => v.claims.known k = none ∧ ∃ e : Known, e.kstack = 0 ∧ w = v.setKnown k (some e)
  | findZombie (hlock : v.claims.lock = true) (hreaping : v.claims.reaping = none) :
      Plain p v .findZombie fun r w => match r.2 with
        | none => w = v
        | some k => k ≠ p ∧ ∃ e T, v.tree e.pgdir = none ∧ T.dir.live = true ∧
            w = ((v.setKnown k (some e)).setTree e.pgdir (some T)).setReaping (some k)
  | proc {k : Fin NPROC} :
      Plain p v (.proc k) fun r w => (∀ e, v.claims.known k = some e → r.known = e) ∧ w = v
  | setKstack {k : Fin NPROC} {e : Known} {f : ℕ} (h : v.claims.known k = some e)
      (hf : f ∈ v.hand) :
      Plain p v (.store k (.kstack f)) fun _ w =>
        w = (v.drop f).setKnown k (some { e with kstack := f })
  | noKstack {k : Fin NPROC} {e : Known} (h : v.claims.known k = some e) :
      Plain p v (.store k (.kstack 0)) fun _ w => w = v.setKnown k (some { e with kstack := 0 })
  | setPgdir {k : Fin NPROC} {e : Known} {d : ℕ} (h : v.claims.known k = some e) :
      Plain p v (.store k (.pgdir d)) fun _ w => w = v.setKnown k (some { e with pgdir := d })
  | setSz {k : Fin NPROC} {e : Known} {n : UInt32} (h : v.claims.known k = some e) :
      Plain p v (.store k (.sz n)) fun _ w => w = v.setKnown k (some { e with sz := n })
  | setUnused {k : Fin NPROC} {e : Known} (h : v.claims.known k = some e) (hk : k ≠ p)
      (hkstack : e.kstack = 0) (hreaping : v.claims.reaping = none ∨ v.claims.reaping = some k) :
      Plain p v (.store k (.state .unused)) fun _ w => w = (v.setKnown k none).setReaping none
  | setRunnable {k : Fin NPROC} {e : Known} {T : Tree} (h : v.claims.known k = some e) (hk : k ≠ p)
      (hT : v.tree e.pgdir = some T) (hlive : T.dir.live = true) (hsz : e.sz ≤ KERNBASE)
      (hreaping : v.claims.reaping = none) :
      Plain p v (.store k (.state .runnable)) fun _ w => w =
        (v.setKnown k none).setTree e.pgdir none
  | store {k : Fin NPROC} {x : Store}
      (h : ∀ y, (x.apply y).known = y.known ∧ (x.apply y).state = y.state) :
      Plain p v (.store k x) fun _ w => w = v
  | filealloc : Plain p v .filealloc fun _ w => w = v
  | filedup {i : Fin NFILE} : Plain p v (.filedup i) fun _ w => w = v
  | fileput {i : Fin NFILE} : Plain p v (.fileput i) fun r w => match r with
      | some (some x) => w = v.setEnds (insert x v.claims.ends)
      | _ => w = v
  | setFile {i : Fin NFILE} {f : ℕ} {b : Bool} (h : (f, b) ∈ v.claims.ends) :
      Plain p v (.setFile i f b) fun _ w => w = v.setEnds (v.claims.ends \ {(f, b)})
  | newPipe {f : ℕ} (h : f ∈ v.hand) :
      Plain p v (.newPipe f) fun _ w =>
        w = (v.drop f).setEnds (insert (f, true) (insert (f, false) v.claims.ends))
  | closeEnd {f : ℕ} {b : Bool} (h : (f, b) ∈ v.claims.ends) (hbuffer : v.claims.buffer = none) :
      Plain p v (.closeEnd f b) fun r w =>
        w = (v.setEnds (v.claims.ends \ {(f, b)})).setBuffer (if r then some f else none)
  | panic : Plain p v .panic fun _ _ => False

/-- A stale entry is cleared before anything else is done. -/
inductive Rule (p : Fin NPROC) (v : View) : (a : Action) → (a.Res → View → Prop) → Prop
  | plain {a : Action} {R : a.Res → View → Prop} (hstale : v.stale = none) (h : Plain p v a R) :
      Rule p v a R
  | unmap {d a : ℕ} {T : Tree} (h : v.tree d = some T)
      (hstale : v.stale = some (.pte d (PDX a) (PTX a))) :
      Rule p v (.setPte d a none) fun _ w =>
        w = (v.setTree d (some ⟨T.dir.setPte a none, T.freed⟩)).setStale none
  | dropKstack {k : Fin NPROC} {e : Known} (h : v.claims.known k = some e)
      (hstale : v.stale = some (.kstack k)) :
      Rule p v (.store k (.kstack 0)) fun _ w =>
        w = (v.setKnown k (some { e with kstack := 0 })).setStale none

/-- Nothing is in the middle of being given back. -/
structure Quiet (v : View) : Prop where
  stale : v.stale = none
  lock : v.claims.lock = false
  reaping : v.claims.reaping = none
  buffer : v.claims.buffer = none

/-- The process has its own entry and its own page directory. -/
def Home (p : Fin NPROC) (v : View) : Prop :=
  ∃ e T, v.claims.known p = some e ∧ v.tree e.pgdir = some T ∧ T.dir.live = true ∧ e.sz ≤ KERNBASE

structure Idle (p : Fin NPROC) (v : View) : Prop extends Quiet v where
  home : Home p v

/-- The view with which a process leaves the kernel. -/
def Leaves (p : Fin NPROC) : Next → View → Prop
  | .exit, v => v.claims.lock = true ∧ Idle p (v.setLock false)
  | _, v => Idle p v

end SharedMemory

end Xv6Fairness
