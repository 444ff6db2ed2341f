import Xv6Fairness.FileCalls
import Xv6Fairness.SlotHoldings
import Xv6Fairness.TransitionRuns

/-!
# The inode cache

`iget` finds or recycles a slot under `icache.lock`; `ilock` and `iput` wait for the lock of the
slot. `iput` reads the number of references under `icache.lock`, frees the inode under the lock of
the slot and gives its reference back after both. `ialloc` looks at one inode of the disk after the
other. The steps are the parts of the C code between two operations on the locks and the buffer
cache. A user is a reference from `iget` or `idup` to the end of `iput`, or an `ialloc` on its way
to one; a process may be several users at a time. Directory entries and the bitmap are left out: an
inode has an entry that its `nlink` counts only if `nlink` is not 0.
-/

namespace Xv6Fairness

open FileBlocks (newDinode)
open SlotHoldings

namespace InodeCache

def NINODE : ℕ := 50

variable {ι : Type}

/-- A slot, with the copy of the inode on the disk. -/
structure Slot (ι : Type) where
  dev : ℕ
  inum : ℕ
  ref : ℕ
  valid : Bool
  lock : Option ι
  inode : Dinode

def Slot.key (b : Slot ι) : ℕ × ℕ := (b.dev, b.inum)

/-- `iget` takes the slot for another inode. -/
def Slot.recycle (b : Slot ι) (k : ℕ × ℕ) : Slot ι :=
  { b with dev := k.1, inum := k.2, ref := 1, valid := false }

inductive Phase
  | idle
  | locking                  -- ilock(), in acquiresleep()
  | locked                   -- ilock(), before the test of valid
  | owning (changed : Bool)  -- locked; a field has been changed since the last iupdate()
  | putting                  -- iput(), in acquiresleep()
  | testing                  -- iput(), before the test of valid and nlink
  | counting                 -- iput(), before ref is read
  | truncating               -- iput(), before itrunc()
  | freeing                  -- iput(), after itrunc()
  | unlocking (freed : Bool) -- iput(), before releasesleep()
  | dropping                 -- iput(), before ref is decremented
  deriving DecidableEq

def Phase.Locks : Phase → Prop
  | .idle | .locking | .putting | .dropping => False
  | _ => True

/-- The type of an allocated inode. -/
abbrev InodeType := { type : Int16 // type ≠ 0 }

/-- What a user does: it looks at inode `k` in `ialloc`, has allocated `k` there, or has a
reference. -/
inductive Use
  | scanning (k : ℕ × ℕ) (type : InodeType)
  | marked (k : ℕ × ℕ)
  | ref (i : Fin NINODE) (phase : Phase)
  deriving DecidableEq

/-- `disk` holds the inodes as they are read through the buffer cache. -/
@[ext]
structure State (ι : Type) where
  slot : Fin NINODE → Slot ι
  disk : ℕ × ℕ → Dinode
  use : ι → Option Use

inductive Action (ι : Type)
  | lookup (u : ι) (k : ℕ × ℕ)                -- iget() for an entry
  | lookupSelf (u v : ι)                      -- iget() for "." of the directory that v has locked
  | idup (u v : ι)
  | ialloc (u : ι) (dev : ℕ) (type : InodeType)
  | ilock (u : ι)
  | iput (u : ι)
  | modify (u : ι) (inode : Dinode)
  | iupdate (u : ι)
  | iunlock (u : ι)
  | next (u : ι)                              -- the call that u is in goes on

def truncated (d : Dinode) : Dinode := { d with size := 0, addrs := fun _ => 0 }

/-- The cache after `iinit`. -/
def iinit (disk : ℕ × ℕ → Dinode) (inode : Fin NINODE → Dinode) : State ι where
  slot i := ⟨0, 0, 0, false, none, inode i⟩
  disk := disk
  use _ := none

/-- The user that takes the step. -/
def Action.user : Action ι → ι
  | .lookup u _ | .lookupSelf u _ | .idup u _ | .ialloc u _ _ | .ilock u | .iput u | .modify u _
  | .iupdate u | .iunlock u | .next u => u

namespace State

variable [DecidableEq ι] (s : State ι) (u : ι) (k : ℕ × ℕ) (i : Fin NINODE)

def setSlot (b : Slot ι) : State ι := { s with slot := Function.update s.slot i b }

omit [DecidableEq ι] in
theorem setSlot_self (b : Slot ι) : (s.setSlot i b).slot i = b := Function.update_self _ _ _

omit [DecidableEq ι] in
theorem setSlot_of_ne {j : Fin NINODE} (hj : j ≠ i)
    (b : Slot ι) : (s.setSlot i b).slot j = s.slot j :=
  Function.update_of_ne hj _ _

omit [DecidableEq ι] in
theorem setSlot_field {α : Type} {b : Slot ι} (f : Slot ι → α) (hb : f b = f (s.slot i))
    (j : Fin NINODE) : f ((s.setSlot i b).slot j) = f (s.slot j) := by
  by_cases hj : j = i
  · rw [hj, setSlot_self, hb]
  · rw [setSlot_of_ne s i hj]

def setDisk (d : Dinode) : State ι := { s with disk := Function.update s.disk k d }

def goto (x : Option Use) : State ι := { s with use := Function.update s.use u x }

theorem goto_self (x : Option Use) : (s.goto u x).use u = x := Function.update_self _ _ _

theorem goto_of_ne {v : ι} (hv : v ≠ u) (x : Option Use) : (s.goto u x).use v = s.use v :=
  Function.update_of_ne hv _ _

/-- The slot holds the inode and its fields. -/
def Caches : Prop := 0 < (s.slot i).ref ∧ (s.slot i).key = k ∧ (s.slot i).valid = true

instance : DecidablePred (s.Caches k) := fun _ => inferInstanceAs (Decidable (_ ∧ _))

/-- The inode as the last holder of its lock has left it. -/
def current : Dinode :=
  match (List.finRange NINODE).find? (s.Caches k ·) with
  | some i => (s.slot i).inode
  | none => s.disk k

def iget : Option (State ι) :=
  match (List.finRange NINODE).find? fun i => 0 < (s.slot i).ref ∧ (s.slot i).key = k with
  | some i => some ((s.setSlot i { s.slot i with ref := (s.slot i).ref + 1 }).goto u
      (some (.ref i .idle)))
  | none =>
    match (List.finRange NINODE).find? fun i => (s.slot i).ref = 0 with
    | some i => some ((s.setSlot i ((s.slot i).recycle k)).goto u (some (.ref i .idle)))
    | none => none

/-- One pass of the loop of `ialloc`. -/
def scan (ninodes : ℕ) (type : InodeType) : Option (State ι) :=
  if k.2 < ninodes then
    if (s.disk k).type = 0 then some ((s.setDisk k (newDinode type)).goto u (some (.marked k)))
    else some (s.goto u (some (.scanning (k.1, k.2 + 1) type)))
  else none

/-- `iupdate` of the fields in the slot. -/
def iupdate : State ι := s.setDisk (s.slot i).key (s.slot i).inode

/-- The next step of a reference in `ilock` or `iput`. -/
def nextPhase : Phase → Option (State ι)
  | .locking =>
    if (s.slot i).lock = none then
      some ((s.setSlot i { s.slot i with lock := some u }).goto u (some (.ref i .locked)))
    else none
  | .locked =>
    if (s.slot i).valid then some (s.goto u (some (.ref i (.owning false))))
    else
      let inode := s.disk (s.slot i).key
      if inode.type = 0 then none
      else some ((s.setSlot i { s.slot i with inode := inode, valid := true }).goto u
        (some (.ref i (.owning false))))
  | .putting =>
    if (s.slot i).lock = none then
      some ((s.setSlot i { s.slot i with lock := some u }).goto u (some (.ref i .testing)))
    else none
  | .testing =>
    if (s.slot i).valid ∧ (s.slot i).inode.nlink = 0 then some (s.goto u (some (.ref i .counting)))
    else some (s.goto u (some (.ref i (.unlocking false))))
  | .counting =>
    if (s.slot i).ref = 1 then some (s.goto u (some (.ref i .truncating)))
    else some (s.goto u (some (.ref i (.unlocking false))))
  | .truncating =>
    some (((s.setSlot i { s.slot i with inode := truncated (s.slot i).inode }).iupdate i).goto u
      (some (.ref i .freeing)))
  | .freeing =>
    some (((s.setSlot i { s.slot i with
        inode := { (s.slot i).inode with type := 0 } }).iupdate i).goto u
      (some (.ref i (.unlocking true))))
  | .unlocking freed =>
    some ((s.setSlot i { s.slot i with lock := none, valid := (s.slot i).valid && !freed }).goto u
      (some (.ref i .dropping)))
  | .dropping => some ((s.setSlot i { s.slot i with ref := (s.slot i).ref - 1 }).goto u none)
  | .idle | .owning _ => none

end State

/-- An entry that `nlink` counts may name the inode. -/
def Counted (d : Dinode) : Prop := d.type ≠ 0 ∧ d.nlink ≠ 0

instance : DecidablePred Counted := fun _ => inferInstanceAs (Decidable (_ ∧ _))

variable [DecidableEq ι]

/-- The steps of all users. Only the holder of the lock changes fields, and it calls `iupdate`
before it unlocks. -/
def step (ninodes : ℕ) (s : State ι) : Action ι → Option (State ι)
  | .lookup u k => if s.use u = none ∧ Counted (s.current k) then s.iget u k else none
  | .lookupSelf u v =>
    match s.use u, s.use v with
    | none, some (.ref i (.owning _)) => s.iget u (s.slot i).key
    | _, _ => none
  | .idup u v =>
    match s.use u, s.use v with
    | none, some (.ref i .idle) | none, some (.ref i (.owning _)) =>
      some ((s.setSlot i { s.slot i with ref := (s.slot i).ref + 1 }).goto u (some (.ref i .idle)))
    | _, _ => none
  | .ialloc u dev type =>
    if s.use u = none then some (s.goto u (some (.scanning (dev, 1) type))) else none
  | .ilock u =>
    match s.use u with
    | some (.ref i .idle) => if (s.slot i).ref < 1 then none
        else some (s.goto u (some (.ref i .locking)))
    | _ => none
  | .iput u =>
    match s.use u with
    | some (.ref i .idle) => some (s.goto u (some (.ref i .putting)))
    | _ => none
  | .modify u inode =>
    match s.use u with
    | some (.ref i (.owning _)) =>
      if inode.type = 0 then none
      else some ((s.setSlot i { s.slot i with inode := inode }).goto u
        (some (.ref i (.owning true))))
    | _ => none
  | .iupdate u =>
    match s.use u with
    | some (.ref i (.owning _)) => some ((s.iupdate i).goto u (some (.ref i (.owning false))))
    | _ => none
  | .iunlock u =>
    match s.use u with
    | some (.ref i (.owning false)) =>
      if (s.slot i).lock = some u ∧ 1 ≤ (s.slot i).ref then
        some ((s.setSlot i { s.slot i with lock := none }).goto u (some (.ref i .idle)))
      else none
    | _ => none
  | .next u =>
    match s.use u with
    | some (.scanning k type) => s.scan u k ninodes type
    | some (.marked k) => s.iget u k
    | some (.ref i phase) => s.nextPhase u i phase
    | none => none

abbrev Reachable (ninodes : ℕ) : State ι → Prop :=
  TransitionRuns.Reaches (fun s => ∃ disk inode, s = iinit disk inode) fun s t =>
    ∃ a, step ninodes s a = some t

/-- The slot that a user has a reference to. -/
def slotOf : Option Use → Option (Fin NINODE)
  | some (.ref i _) => some i
  | _ => none

def HasLock : Option Use → Prop
  | some (.ref _ phase) => phase.Locks
  | _ => False

/-- The fields in the slot may differ from the disk. -/
def Phase.Ahead : Phase → Prop
  | .owning true | .unlocking true => True
  | _ => False

/-- The holder of the lock may look at the fields of the inode. -/
def Phase.Works : Phase → Prop
  | .locked | .owning _ | .testing | .counting | .truncating | .freeing => True
  | _ => False

/-- What is known of a slot in a phase of a reference to it. -/
def Phase.Fits (b : Slot ι) : Phase → Prop
  | .owning _ => b.valid = true ∧ b.inode.type ≠ 0
  | .counting => b.valid = true ∧ b.inode.nlink = 0
  | .truncating | .freeing => b.valid = true ∧ b.inode.nlink = 0 ∧ b.ref = 1
  | .unlocking true => b.inode.type = 0
  | _ => True

/-- Nobody uses a reference to inode `k` any more. -/
def Gone (s : State ι) (k : ℕ × ℕ) : Prop :=
  ∀ v i phase, s.use v = some (.ref i phase) → (s.slot i).key = k →
    phase = .unlocking true ∨ phase = .dropping

/-- User `u` may take a reference to inode `k`. -/
structure Open (s : State ι) (u : ι) (k : ℕ × ℕ) : Prop where
  allocated : (s.disk k).type ≠ 0
  marked : ∀ v, s.use v = some (.marked k) → v = u
  kept : ∀ v i phase, s.use v = some (.ref i phase) → (s.slot i).key = k →
    phase ≠ .truncating ∧ phase ≠ .freeing

/-- The steps of a user that are taken in order. -/
inductive Change (s : State ι) (u : ι) : State ι → Prop
  | hit {k : ℕ × ℕ} {i : Fin NINODE} (hu : slotOf (s.use u) = none) (ho : Open s u k)
      (hi : 0 < (s.slot i).ref ∧ (s.slot i).key = k) :
      Change s u ((s.setSlot i { s.slot i with ref := (s.slot i).ref + 1 }).goto u
        (some (.ref i .idle)))
  | recycle {k : ℕ × ℕ} {i : Fin NINODE} (hu : slotOf (s.use u) = none) (ho : Open s u k)
      (hmiss : ∀ j, 0 < (s.slot j).ref → (s.slot j).key ≠ k) (hi : (s.slot i).ref = 0) :
      Change s u ((s.setSlot i ((s.slot i).recycle k)).goto u (some (.ref i .idle)))
  | look {k : ℕ × ℕ} {type : InodeType}
      (hu : s.use u = none ∨ ∃ k type, s.use u = some (.scanning k type)) :
      Change s u (s.goto u (some (.scanning k type)))
  | mark {k : ℕ × ℕ} {type : InodeType} (hu : s.use u = some (.scanning k type))
      (hk : (s.disk k).type = 0) :
      Change s u ((s.setDisk k (newDinode type)).goto u (some (.marked k)))
  | move {i : Fin NINODE} {phase : Phase} (hu : s.use u = some (.ref i .idle))
      (hphase : phase = .locking ∨ phase = .putting) : Change s u (s.goto u (some (.ref i phase)))
  | acquire {i : Fin NINODE} {phase phase' : Phase} (hu : s.use u = some (.ref i phase))
      (hlock : (s.slot i).lock = none)
      (hphase : phase = .locking ∧ phase' = .locked ∨ phase = .putting ∧ phase' = .testing) :
      Change s u ((s.setSlot i { s.slot i with lock := some u }).goto u (some (.ref i phase')))
  | work {i : Fin NINODE} {phase phase' : Phase} {b : Slot ι} {d : Dinode}
      (hu : s.use u = some (.ref i phase)) (hworks : phase.Works) (hlocks : phase'.Locks)
      (hb : b = { s.slot i with valid := b.valid, inode := b.inode }) (hfits : phase'.Fits b)
      (hsettled : ¬ phase'.Ahead → b.valid = true → b.inode = d ∧ b.inode.type ≠ 0)
      (hfree : d.type = 0 → phase = .freeing ∧ phase' = .unlocking true) :
      Change s u (((s.setSlot i b).setDisk (s.slot i).key d).goto u (some (.ref i phase')))
  | unlock {i : Fin NINODE} (hu : s.use u = some (.ref i (.owning false))) :
      Change s u ((s.setSlot i { s.slot i with lock := none }).goto u (some (.ref i .idle)))
  | release {i : Fin NINODE} {freed : Bool} (hu : s.use u = some (.ref i (.unlocking freed))) :
      Change s u
        ((s.setSlot i { s.slot i with lock := none, valid := (s.slot i).valid && !freed }).goto u
        (some (.ref i .dropping)))
  | drop {i : Fin NINODE} (hu : s.use u = some (.ref i .dropping)) :
      Change s u ((s.setSlot i { s.slot i with ref := (s.slot i).ref - 1 }).goto u none)

def Unique (s : State ι) : Prop :=
  ∀ i j, 0 < (s.slot i).ref → 0 < (s.slot j).ref → (s.slot i).key = (s.slot j).key → i = j

structure Coherent (s : State ι) : Prop where
  settled : ∀ i, 0 < (s.slot i).ref →
    (∀ u phase, s.use u = some (.ref i phase) → ¬ phase.Ahead) → (s.slot i).valid = true →
      (s.slot i).inode = s.disk (s.slot i).key ∧ (s.slot i).inode.type ≠ 0
  fits : ∀ u i phase, s.use u = some (.ref i phase) → phase.Fits (s.slot i)
  free : ∀ k, (s.disk k).type = 0 → Gone s k
  marked : ∀ u k, s.use u = some (.marked k) →
    (s.disk k).type ≠ 0 ∧ (s.disk k).nlink = 0 ∧ Gone s k
  alone : ∀ u v k, s.use u = some (.marked k) → s.use v = some (.marked k) → u = v

abbrev Held [Fintype ι] (s : State ι) : Prop :=
  Holdings slotOf HasLock (fun i => (s.slot i).ref) (fun i => (s.slot i).lock) s.use

structure Inv [Fintype ι] (s : State ι) : Prop where
  held : Held s
  unique : Unique s
  coherent : Coherent s

section Steps

variable [Fintype ι] {s t : State ι} {u v : ι} {i j : Fin NINODE} {k : ℕ × ℕ} {phase phase' : Phase}

omit [DecidableEq ι] [Fintype ι] in
theorem slotOf_use (hu : s.use u = some (.ref i phase)) : slotOf (s.use u) = some i := by
  rw [hu]
  rfl

omit [DecidableEq ι] [Fintype ι] in
theorem slotOf_none (hu : s.use u = none) : slotOf (s.use u) = none := by
  rw [hu]
  rfl

omit [DecidableEq ι] in
theorem Held.holder (h : Held s) (hu : s.use u = some (.ref i phase)) (hphase : phase.Locks)
    (hv : s.use v = some (.ref i phase')) (hphase' : phase'.Locks) : v = u := by
  have hlock : HasLock (s.use u) := by rwa [hu]
  have hlock' : HasLock (s.use v) := by rwa [hv]
  exact Holdings.holder h (slotOf_use hu) hlock (slotOf_use hv) hlock'

omit [DecidableEq ι] in
theorem Held.pos (h : Held s) (hu : s.use u = some (.ref i phase)) : 0 < (s.slot i).ref :=
  Holdings.pos (i := i) h (slotOf_use hu)

omit [DecidableEq ι] in
theorem Held.only (h : Held s) (hi : (s.slot i).ref = 1) (hu : s.use u = some (.ref i phase))
    (hv : s.use v = some (.ref i phase')) : v = u :=
  Holdings.only h hi (slotOf_use hu) (slotOf_use hv)

theorem Phase.Works.locks (h : phase.Works) : phase.Locks := by
  cases phase with
  | idle | locking | putting | unlocking _ | dropping => exact h.elim
  | _ => trivial

theorem Held.step (h : Held s) (hc : Change s u t) : Held t := by
  cases hc with
  | @hit k i hu ho hi =>
      apply h.take (i := i)
      · exact fun j hj => congrArg Slot.ref (s.setSlot_of_ne i hj _)
      · exact fun j hj => congrArg Slot.lock (s.setSlot_of_ne i hj _)
      · exact hu
      · rfl
      · exact id
      · exact congrArg Slot.ref (s.setSlot_self i _)
      · exact (congrArg Slot.lock (s.setSlot_self i _)).trans rfl
  | @recycle k i hu ho hmiss hi =>
      apply h.take (i := i)
      · exact fun j hj => congrArg Slot.ref (s.setSlot_of_ne i hj _)
      · exact fun j hj => congrArg Slot.lock (s.setSlot_of_ne i hj _)
      · exact hu
      · rfl
      · exact id
      · rw [hi]
        exact congrArg Slot.ref (s.setSlot_self i _)
      · exact (congrArg Slot.lock (s.setSlot_self i _)).trans rfl
  | @look k type hu =>
      apply h.stay (fun _ => rfl) fun _ => rfl
      · rcases hu with hu | ⟨_, _, hu⟩
        · rw [hu]
          rfl
        · rw [hu]
          rfl
      · rcases hu with hu | ⟨_, _, hu⟩
        · rw [hu]
          rfl
        · rw [hu]
          rfl
  | @mark k type hu hk =>
      apply h.stay (fun _ => rfl) fun _ => rfl
      · rw [hu]
        rfl
      · rw [hu]
        rfl
  | @move i phase hu hphase =>
      apply h.stay (fun _ => rfl) fun _ => rfl
      · rw [hu]
        rfl
      · rw [hu]
        rcases hphase with rfl | rfl
        · rfl
        · rfl
  | @acquire i phase phase' hu hlock hphase =>
      apply h.acquire (i := i)
      · exact s.setSlot_field i Slot.ref rfl
      · exact fun j hj => congrArg Slot.lock (s.setSlot_of_ne i hj _)
      · rw [hu]
        rfl
      · rfl
      · exact hlock
      · rcases hphase with ⟨-, rfl⟩ | ⟨-, rfl⟩
        · trivial
        · trivial
      · exact congrArg Slot.lock (s.setSlot_self i _)
  | @work i phase phase' b d hu hworks hlocks hb hfits hsettled hfree =>
      apply h.stay
      · exact s.setSlot_field i Slot.ref (by rw [hb])
      · exact s.setSlot_field i Slot.lock (by rw [hb])
      · rw [hu]
        rfl
      · rw [hu]
        exact iff_of_true hlocks hworks.locks
  | @unlock i hu =>
      apply h.release (i := i)
      · exact s.setSlot_field i Slot.ref rfl
      · exact fun j hj => congrArg Slot.lock (s.setSlot_of_ne i hj _)
      · rw [hu]
        rfl
      · rfl
      · rw [hu]
        trivial
      · exact id
      · exact congrArg Slot.lock (s.setSlot_self i _)
  | @release i freed hu =>
      apply h.release (i := i)
      · exact s.setSlot_field i Slot.ref rfl
      · exact fun j hj => congrArg Slot.lock (s.setSlot_of_ne i hj _)
      · rw [hu]
        rfl
      · rfl
      · rw [hu]
        trivial
      · exact id
      · exact congrArg Slot.lock (s.setSlot_self i _)
  | @drop i hu =>
      apply h.drop (i := i)
      · exact fun j hj => congrArg Slot.ref (s.setSlot_of_ne i hj _)
      · exact fun j hj => congrArg Slot.lock (s.setSlot_of_ne i hj _)
      · rw [hu]
        rfl
      · rw [hu]
        exact id
      · rfl
      · exact congrArg Slot.ref (s.setSlot_self i _)
      · exact (congrArg Slot.lock (s.setSlot_self i _)).trans rfl

omit [Fintype ι] [DecidableEq ι] in
theorem Unique.update (h : Unique s) {b : Slot ι} (hslot : t.slot = Function.update s.slot i b)
    (hkey : b.key = (s.slot i).key) (href : 0 < b.ref → 0 < (s.slot i).ref) : Unique t := by
  have hkeys : ∀ j, (t.slot j).key = (s.slot j).key := by
    intro j
    by_cases hj : j = i
    · rw [hslot, hj, Function.update_self, hkey]
    · rw [hslot, Function.update_of_ne hj]
  have hrefs : ∀ j, 0 < (t.slot j).ref → 0 < (s.slot j).ref := by
    intro j hpos
    by_cases hj : j = i
    · rw [hslot, hj, Function.update_self] at hpos
      rw [hj]
      exact href hpos
    · rwa [hslot, Function.update_of_ne hj] at hpos
  intro j l hj hl heq
  rw [hkeys, hkeys] at heq
  exact h j l (hrefs j hj) (hrefs l hl) heq

omit [Fintype ι] in
theorem Unique.step (h : Unique s) (hc : Change s u t) : Unique t := by
  cases hc with
  | hit hu ho hi => exact h.update rfl rfl fun _ => hi.1
  | @recycle k i hu ho hmiss hi =>
      have hself : ((s.setSlot i ((s.slot i).recycle k)).slot i).key = k :=
        congrArg Slot.key (s.setSlot_self i _)
      have hother : ∀ j, j ≠ i → 0 < ((s.setSlot i ((s.slot i).recycle k)).slot j).ref →
          0 < (s.slot j).ref ∧ ((s.setSlot i ((s.slot i).recycle k)).slot j).key ≠ k := by
        intro j hj hpos
        rw [s.setSlot_of_ne i hj] at hpos ⊢
        exact ⟨hpos, hmiss j hpos⟩
      intro j l hj hl heq
      change ((s.setSlot i _).slot j).key = ((s.setSlot i _).slot l).key at heq
      by_cases hji : j = i
      · by_cases hli : l = i
        · rw [hji, hli]
        · rw [hji, hself] at heq
          exact absurd heq.symm (hother l hli hl).2
      · by_cases hli : l = i
        · rw [hli, hself] at heq
          exact absurd heq (hother j hji hj).2
        · rw [s.setSlot_of_ne i hji, s.setSlot_of_ne i hli] at heq
          exact h j l (hother j hji hj).1 (hother l hli hl).1 heq
  | look _ => exact h
  | mark _ _ => exact h
  | move _ _ => exact h
  | acquire _ _ _ => exact h.update rfl rfl id
  | work hu hworks hlocks hb =>
      apply h.update rfl
      · rw [hb]
        rfl
      · rw [hb]
        exact id
  | unlock _ => exact h.update rfl rfl id
  | release _ => exact h.update rfl rfl id
  | drop _ => exact h.update rfl rfl fun hpos => hpos.trans_le (Nat.sub_le _ _)

omit [Fintype ι] [DecidableEq ι] in
theorem Coherent.in_use (hc : Coherent s) (hu : s.use u = some (.ref i phase))
    (hfreed : phase ≠ .unlocking true) (hdropping : phase ≠ .dropping) :
    (s.disk (s.slot i).key).type ≠ 0 ∧ ∀ v, s.use v ≠ some (.marked (s.slot i).key) := by
  have hgone : ¬ Gone s (s.slot i).key := fun h => by
    rcases h u i phase hu rfl with h | h
    · exact hfreed h
    · exact hdropping h
  exact ⟨fun hfree => hgone (hc.free _ hfree), fun v hv => hgone (hc.marked v _ hv).2.2⟩

omit [Fintype ι] in
/-- User `u` changes what it does with slot `i` and what the disk holds for the inode in it. -/
theorem Coherent.update (hc : Coherent s) (hunique : Unique t) {b : Slot ι} {y : Option Use}
    (hslot : t.slot = Function.update s.slot i b) (huse : t.use = Function.update s.use u y)
    (hdisk : t.disk = s.disk ∨ 0 < b.ref ∧ ∀ k, k ≠ b.key → t.disk k = s.disk k)
    (hold : ∀ j phase, s.use u = some (.ref j phase) → j = i)
    (hnew : ∀ j, slotOf y = some j → j = i)
    (hmarked : ∀ k, y ≠ some (.marked k))
    (hsettled : 0 < b.ref → (∀ v phase, t.use v = some (.ref i phase) → ¬ phase.Ahead) →
      b.valid = true → b.inode = t.disk b.key ∧ b.inode.type ≠ 0)
    (hfits : ∀ v phase, t.use v = some (.ref i phase) → phase.Fits b)
    (hfree : (t.disk b.key).type = 0 → Gone t b.key)
    (hself : ∀ v, v ≠ u → s.use v = some (.marked b.key) →
      (t.disk b.key).type ≠ 0 ∧ (t.disk b.key).nlink = 0 ∧ Gone t b.key) : Coherent t := by
  have hdisk' : ∀ k, k ≠ b.key → t.disk k = s.disk k := by
    intro k hk
    rcases hdisk with hd | ⟨-, hd⟩
    · rw [hd]
    · exact hd k hk
  have hothers : ∀ v j phase, j ≠ i → t.use v = some (.ref j phase) →
      s.use v = some (.ref j phase) := by
    intro v j phase hj hv
    by_cases hvu : v = u
    · rw [huse, hvu, Function.update_self] at hv
      exact absurd (hnew j (by rw [hv]; rfl)) hj
    · rwa [huse, Function.update_of_ne hvu] at hv
  have hkept : ∀ v j phase, j ≠ i → s.use v = some (.ref j phase) →
      t.use v = some (.ref j phase) := by
    intro v j phase hj hv
    have hvu : v ≠ u := by
      rintro rfl
      exact hj (hold j phase hv)
    rwa [huse, Function.update_of_ne hvu]
  have hgone : ∀ k, k ≠ b.key → Gone s k → Gone t k := by
    intro k hk h v j phase hv hjk
    have hj : j ≠ i := by
      rintro rfl
      rw [hslot, Function.update_self] at hjk
      exact hk hjk.symm
    rw [hslot, Function.update_of_ne hj] at hjk
    exact h v j phase (hothers v j phase hj hv) hjk
  have hmarks : ∀ v k, t.use v = some (.marked k) → v ≠ u ∧ s.use v = some (.marked k) := by
    intro v k hv
    by_cases hvu : v = u
    · rw [huse, hvu, Function.update_self] at hv
      exact absurd hv (hmarked k)
    · rw [huse, Function.update_of_ne hvu] at hv
      exact ⟨hvu, hv⟩
  refine ⟨fun j hj hahead hvalid => ?_, fun v j phase hv => ?_, fun k hk => ?_, fun v k hv => ?_,
    fun v w k hv hw => hc.alone v w k (hmarks v k hv).2 (hmarks w k hw).2⟩
  · by_cases hji : j = i
    · subst hji
      rw [hslot, Function.update_self] at hj hvalid ⊢
      exact hsettled hj hahead hvalid
    · have hsame : t.slot j = s.slot j := by rw [hslot, Function.update_of_ne hji]
      have hd : t.disk (t.slot j).key = s.disk (t.slot j).key := by
        rcases hdisk with hd | ⟨hpos, hd⟩
        · rw [hd]
        · apply hd
          intro heq
          have hi : t.slot i = b := by rw [hslot, Function.update_self]
          exact hji (hunique j i hj (by rwa [hi]) (by rwa [hi]))
      rw [hd, hsame]
      rw [hsame] at hj hvalid
      exact hc.settled j hj (fun v phase hv => hahead v phase (hkept v j phase hji hv)) hvalid
  · by_cases hji : j = i
    · subst hji
      rw [hslot, Function.update_self]
      exact hfits v phase hv
    · rw [hslot, Function.update_of_ne hji]
      exact hc.fits v j phase (hothers v j phase hji hv)
  · by_cases hkb : k = b.key
    · rw [hkb] at hk ⊢
      exact hfree hk
    · rw [hdisk' k hkb] at hk
      exact hgone k hkb (hc.free k hk)
  · obtain ⟨hvu, hv⟩ := hmarks v k hv
    by_cases hkb : k = b.key
    · rw [hkb] at hv ⊢
      exact hself v hvu hv
    · rw [hdisk' k hkb]
      obtain ⟨htype, hnlink, h⟩ := hc.marked v k hv
      exact ⟨htype, hnlink, hgone k hkb h⟩

omit [Fintype ι] in
theorem Coherent.quiet (hc : Coherent s) (hunique : Unique t) {b : Slot ι} {y : Option Use}
    (hslot : t.slot = Function.update s.slot i b) (huse : t.use = Function.update s.use u y)
    (hdisk : t.disk = s.disk) (hu : s.use u = some (.ref i phase))
    (hnew : ∀ j, slotOf y = some j → j = i)
    (hmarked : ∀ k, y ≠ some (.marked k)) (hkey : b.key = (s.slot i).key)
    (hinode : b.inode = (s.slot i).inode) (href : 0 < b.ref → 0 < (s.slot i).ref)
    (hvalid : b.valid = true → (s.slot i).valid = true ∧ ¬ phase.Ahead)
    (hself : ∀ phase, y = some (.ref i phase) → phase.Fits b)
    (hothers : ∀ v phase, v ≠ u → s.use v = some (.ref i phase) → phase.Fits b)
    (hgone : phase = .unlocking true ∨ phase = .dropping → ∀ phase, y = some (.ref i phase) →
      phase = .dropping) : Coherent t := by
  have hlost : Gone s b.key → Gone t b.key := by
    intro h v j phase' hv hjk
    have hj : (t.slot j).key = (s.slot j).key := by
      rw [hslot]
      by_cases hji : j = i
      · rw [hji, Function.update_self, hkey]
      · rw [Function.update_of_ne hji]
    rw [hj] at hjk
    by_cases hvu : v = u
    · rw [huse, hvu, Function.update_self] at hv
      have hji : j = i := hnew j (by rw [hv]; rfl)
      rw [hji] at hv
      exact .inr (hgone (h u i phase hu hkey.symm) phase' hv)
    · rw [huse, Function.update_of_ne hvu] at hv
      exact h v j phase' hv hjk
  apply hc.update hunique hslot huse (.inl hdisk)
  · intro j phase' hj
    rw [hu] at hj
    cases hj
    rfl
  · exact hnew
  · exact hmarked
  · intro hpos hahead hb
    obtain ⟨hold, hphase⟩ := hvalid hb
    rw [hdisk, hkey, hinode]
    apply hc.settled i (href hpos) _ hold
    intro v phase' hv
    by_cases hvu : v = u
    · rw [hvu, hu] at hv
      cases hv
      exact hphase
    · exact hahead v phase' (by rwa [huse, Function.update_of_ne hvu])
  · intro v phase' hv
    by_cases hvu : v = u
    · rw [huse, hvu, Function.update_self] at hv
      exact hself phase' hv
    · rw [huse, Function.update_of_ne hvu] at hv
      exact hothers v phase' hvu hv
  · intro hfree
    rw [hdisk] at hfree
    exact hlost (hc.free _ hfree)
  · intro v _ hv
    rw [hdisk]
    obtain ⟨htype, hnlink, h⟩ := hc.marked v _ hv
    exact ⟨htype, hnlink, hlost h⟩

omit [Fintype ι] in
theorem use_ref_iff {y : Option Use} (hu : slotOf (s.use u) = none) (hy : slotOf y = none) :
    (s.goto u y).use v = some (.ref i phase) ↔ s.use v = some (.ref i phase) := by
  by_cases hvu : v = u
  · subst hvu
    have hs : s.use v ≠ some (.ref i phase) := fun h => by
      rw [h] at hu
      cases hu
    have ht : (s.goto v y).use v ≠ some (.ref i phase) := fun h => by
      rw [State.goto_self] at h
      rw [h] at hy
      cases hy
    exact iff_of_false ht hs
  · rw [State.goto_of_ne _ u hvu]

omit [Fintype ι] [DecidableEq ι] in
theorem Phase.fits_of_not_locks {b : Slot ι} (h : ¬ phase.Locks) : phase.Fits b := by
  cases phase with
  | idle | locking | putting | dropping => trivial
  | _ => exact absurd trivial h

omit [Fintype ι] [DecidableEq ι] in
theorem Phase.Fits.with_ref {b : Slot ι} {r : ℕ} (h : phase.Fits b)
    (hkept : phase ≠ .truncating ∧ phase ≠ .freeing) : phase.Fits { b with ref := r } := by
  cases phase with
  | truncating => exact absurd rfl hkept.1
  | freeing => exact absurd rfl hkept.2
  | unlocking freed =>
      cases freed with
      | true => exact h
      | false => trivial
  | _ => exact h

omit [Fintype ι] in
theorem Coherent.look (hc : Coherent s) {type : InodeType}
    (hu : s.use u = none ∨ ∃ k type, s.use u = some (.scanning k type)) :
    Coherent (s.goto u (some (.scanning k type))) := by
  have hslot : slotOf (s.use u) = none := by
    rcases hu with hu | ⟨_, _, hu⟩
    · rw [hu]
      rfl
    · rw [hu]
      rfl
  have hmarks : ∀ v k', (s.goto u (some (.scanning k type))).use v = some (.marked k') →
      s.use v = some (.marked k') := by
    intro v k' hv
    by_cases hvu : v = u
    · rw [hvu, State.goto_self] at hv
      cases hv
    · rwa [State.goto_of_ne _ u hvu] at hv
  have hgone : ∀ k', Gone s k' → Gone (s.goto u (some (.scanning k type))) k' :=
    fun k' h v i phase hv => h v i phase ((use_ref_iff hslot rfl).mp hv)
  refine ⟨fun i hi hahead => ?_, fun v i phase hv => ?_, fun k' hk => ?_, fun v k' hv => ?_,
    fun v w k' hv hw => hc.alone v w k' (hmarks v k' hv) (hmarks w k' hw)⟩
  · exact hc.settled i hi fun v phase hv => hahead v phase ((use_ref_iff hslot rfl).mpr hv)
  · exact hc.fits v i phase ((use_ref_iff hslot rfl).mp hv)
  · exact hgone k' (hc.free k' hk)
  · obtain ⟨htype, hnlink, h⟩ := hc.marked v k' (hmarks v k' hv)
    exact ⟨htype, hnlink, hgone k' h⟩

omit [Fintype ι] in
theorem Coherent.mark (hc : Coherent s) {type : InodeType} (hu : s.use u = some (.scanning k type))
    (hk : (s.disk k).type = 0) :
    Coherent ((s.setDisk k (newDinode type)).goto u (some (.marked k))) := by
  have hslot : slotOf ((s.setDisk k (newDinode type)).use u) = none := by
    change slotOf (s.use u) = none
    rw [hu]
    rfl
  have hdisk : ∀ k', k' ≠ k → (s.setDisk k (newDinode type)).disk k' = s.disk k' := fun k' hk' =>
    Function.update_of_ne hk' _ _
  have hself : (s.setDisk k (newDinode type)).disk k = newDinode type := Function.update_self _ _ _
  have hgone : ∀ k', Gone s k' →
      Gone ((s.setDisk k (newDinode type)).goto u (some (.marked k))) k' :=
    fun k' h v i phase hv => h v i phase ((use_ref_iff hslot rfl).mp hv)
  have hmarks : ∀ v k', ((s.setDisk k (newDinode type)).goto u (some (.marked k))).use v =
      some (.marked k') → v = u ∧ k' = k ∨ v ≠ u ∧ k' ≠ k ∧ s.use v = some (.marked k') := by
    intro v k' hv
    by_cases hvu : v = u
    · rw [hvu, State.goto_self] at hv
      cases hv
      exact .inl ⟨hvu, rfl⟩
    · rw [State.goto_of_ne _ u hvu] at hv
      replace hv : s.use v = some (.marked k') := hv
      refine .inr ⟨hvu, ?_, hv⟩
      rintro rfl
      exact (hc.marked v k' hv).1 hk
  refine ⟨fun i hi hahead hvalid => ?_, fun v i phase hv => ?_, fun k' hk' => ?_, fun v k' hv => ?_,
    fun v w k' hv hw => ?_⟩
  · have hold := hc.settled i hi
      (fun v phase hv => hahead v phase ((use_ref_iff hslot rfl).mpr hv)) hvalid
    have hne : (s.slot i).key ≠ k := by
      intro heq
      rw [heq] at hold
      exact hold.2 (by rw [hold.1, hk])
    change (s.slot i).inode = (s.setDisk k (newDinode type)).disk (s.slot i).key ∧ _
    rwa [hdisk _ hne]
  · exact hc.fits v i phase ((use_ref_iff hslot rfl).mp hv)
  · change ((s.setDisk k (newDinode type)).disk k').type = 0 at hk'
    by_cases hkk : k' = k
    · rw [hkk, hself] at hk'
      exact absurd hk' type.2
    · rw [hdisk k' hkk] at hk'
      exact hgone k' (hc.free k' hk')
  · change ((s.setDisk k (newDinode type)).disk k').type ≠ 0 ∧
      ((s.setDisk k (newDinode type)).disk k').nlink = 0 ∧ _
    rcases hmarks v k' hv with ⟨-, rfl⟩ | ⟨-, hkk, hv⟩
    · rw [hself]
      exact ⟨type.2, rfl, hgone k' (hc.free k' hk)⟩
    · rw [hdisk k' hkk]
      obtain ⟨htype, hnlink, h⟩ := hc.marked v k' hv
      exact ⟨htype, hnlink, hgone k' h⟩
  · rcases hmarks v k' hv with ⟨rfl, rfl⟩ | ⟨-, hkk, hv⟩
    · rcases hmarks w k' hw with ⟨rfl, -⟩ | ⟨-, hkk, -⟩
      · rfl
      · exact absurd rfl hkk
    · rcases hmarks w k' hw with ⟨-, rfl⟩ | ⟨-, -, hw⟩
      · exact absurd rfl hkk
      · exact hc.alone v w k' hv hw

omit [Fintype ι] [DecidableEq ι] in
theorem slotOf_ref (j : Fin NINODE) (hj : slotOf (some (.ref i phase)) = some j) : j = i :=
  (Option.some_inj.mp hj).symm

omit [DecidableEq ι] in
theorem Held.not_locks (hh : Held s) (hu : s.use u = some (.ref i phase)) (hphase : phase.Locks)
    (hvu : v ≠ u) (hv : s.use v = some (.ref i phase')) : ¬ phase'.Locks := fun hlocks =>
  hvu (hh.holder hu hphase hv hlocks)

omit [Fintype ι] in
theorem Coherent.hit (hc : Coherent s) (hu : slotOf (s.use u) = none) (ho : Open s u k)
    (hi : 0 < (s.slot i).ref ∧ (s.slot i).key = k)
    (hq : Unique ((s.setSlot i { s.slot i with ref := (s.slot i).ref + 1 }).goto u
      (some (.ref i .idle)))) :
    Coherent ((s.setSlot i { s.slot i with ref := (s.slot i).ref + 1 }).goto u
      (some (.ref i .idle))) := by
  apply hc.update hq rfl rfl (.inl rfl)
  · intro j phase hj
    rw [hj] at hu
    cases hu
  · exact slotOf_ref
  · exact fun _ h => by cases h
  · intro _ hahead hvalid
    apply hc.settled i hi.1 _ hvalid
    intro v phase hv
    have hvu : v ≠ u := by
      rintro rfl
      rw [hv] at hu
      cases hu
    exact hahead v phase ((Function.update_of_ne hvu _ _).trans hv)
  · intro v phase hv
    by_cases hvu : v = u
    · rw [hvu, State.goto_self] at hv
      cases hv
      trivial
    · rw [State.goto_of_ne _ u hvu] at hv
      exact (hc.fits v i phase hv).with_ref (ho.kept v i phase hv hi.2)
  · exact fun hfree => absurd hfree (hi.2 ▸ ho.allocated)
  · exact fun v hvu hv => absurd (ho.marked v (hi.2 ▸ hv)) hvu

theorem Coherent.recycle (hh : Held s) (hc : Coherent s) (hu : slotOf (s.use u) = none)
    (ho : Open s u k)
    (hi : (s.slot i).ref = 0)
    (hq : Unique ((s.setSlot i ((s.slot i).recycle k)).goto u (some (.ref i .idle)))) :
    Coherent ((s.setSlot i ((s.slot i).recycle k)).goto u (some (.ref i .idle))) := by
  apply hc.update hq rfl rfl (.inl rfl)
  · intro j phase hj
    rw [hj] at hu
    cases hu
  · exact slotOf_ref
  · exact fun _ h => by cases h
  · intro _ _ hvalid
    cases hvalid
  · intro v phase hv
    by_cases hvu : v = u
    · rw [hvu, State.goto_self] at hv
      cases hv
      trivial
    · rw [State.goto_of_ne _ u hvu] at hv
      exact absurd hi (hh.pos hv).ne'
  · exact fun hfree => absurd hfree ho.allocated
  · exact fun v hvu hv => absurd (ho.marked v hv) hvu

theorem Coherent.work (hh : Held s) (hc : Coherent s) {b : Slot ι} {d : Dinode}
    (hu : s.use u = some (.ref i phase)) (hworks : phase.Works)
    (hb : b = { s.slot i with valid := b.valid, inode := b.inode }) (hfits : phase'.Fits b)
    (hsettled : ¬ phase'.Ahead → b.valid = true → b.inode = d ∧ b.inode.type ≠ 0)
    (hfree : d.type = 0 → phase = .freeing ∧ phase' = .unlocking true)
    (ht : Held (((s.setSlot i b).setDisk (s.slot i).key d).goto u (some (.ref i phase'))))
    (hq : Unique (((s.setSlot i b).setDisk (s.slot i).key d).goto u (some (.ref i phase')))) :
    Coherent (((s.setSlot i b).setDisk (s.slot i).key d).goto u (some (.ref i phase'))) := by
  have hkey : b.key = (s.slot i).key := by
    rw [hb]
    rfl
  have href : b.ref = (s.slot i).ref := by rw [hb]
  have hdisk : Function.update s.disk (s.slot i).key d b.key = d := by
    rw [hkey, Function.update_self]
  have hused := hc.in_use hu (fun h => by rw [h] at hworks; exact hworks)
    (fun h => by rw [h] at hworks; exact hworks)
  refine hc.update hq rfl rfl (.inr ⟨href ▸ hh.pos hu, fun k hk => ?_⟩) ?_ slotOf_ref
    (fun _ h => by cases h) ?_ ?_ ?_ ?_
  · exact Function.update_of_ne (hkey ▸ hk) _ _
  · intro j phase'' hj
    rw [hu] at hj
    cases hj
    rfl
  · intro _ hahead hvalid
    have hready : ¬ phase'.Ahead := hahead u phase' (State.goto_self _ u _)
    change b.inode = Function.update s.disk (s.slot i).key d b.key ∧ _
    rw [hdisk]
    exact hsettled hready hvalid
  · intro v phase'' hv
    by_cases hvu : v = u
    · rw [hvu, State.goto_self] at hv
      cases hv
      exact hfits
    · rw [State.goto_of_ne _ u hvu] at hv
      exact Phase.fits_of_not_locks (hh.not_locks hu hworks.locks hvu hv)
  · change (Function.update s.disk (s.slot i).key d b.key).type = 0 → _
    rw [hdisk]
    intro hd v j phase'' hv hjk
    obtain ⟨rfl, rfl⟩ := hfree hd
    have hone : b.ref = 1 := href.trans (hc.fits u i _ hu).2.2
    have hi : (((s.setSlot i b).setDisk (s.slot i).key d).goto u
        (some (.ref i (.unlocking true)))).slot i = b := s.setSlot_self i b
    have hji : j = i := hq j i (ht.pos hv) (by rw [hi, hone]; exact Nat.one_pos) (by rw [hjk, hi])
    subst hji
    have hvu : v = u := ht.only (by rw [hi, hone]) (State.goto_self _ u _) hv
    rw [hvu, State.goto_self] at hv
    cases hv
    exact .inl rfl
  · exact fun v _ hv => absurd (hkey ▸ hv) (hused.2 v)

theorem Coherent.step (hh : Held s) (hc : Coherent s) (hq : Unique t) (h : Change s u t) :
    Coherent t := by
  have ht : Held t := hh.step h
  cases h with
  | hit hu ho hi => exact hc.hit hu ho hi hq
  | recycle hu ho _ hi => exact hc.recycle hh hu ho hi hq
  | look hu => exact hc.look hu
  | mark hu hk => exact hc.mark hu hk
  | @move i phase hu hphase =>
      have hslot : s.slot = Function.update s.slot i (s.slot i) :=
        (Function.update_eq_self i _).symm
      refine hc.quiet hq hslot rfl rfl hu slotOf_ref (fun _ h => by cases h) rfl rfl id
        (fun h => ⟨h, id⟩) ?_
        (fun v phase _ hv => hc.fits v i phase hv) ?_
      · intro phase' h
        cases h
        rcases hphase with rfl | rfl
        · trivial
        · trivial
      · rintro (h | h)
        · cases h
        · cases h
  | @acquire i phase phase' hu hlock hphase =>
      refine hc.quiet hq rfl rfl rfl hu slotOf_ref (fun _ h => by cases h) rfl rfl id
        (fun h => ⟨h, ?_⟩) ?_
        (fun v phase _ hv => hc.fits v i phase hv) ?_
      · rcases hphase with ⟨rfl, -⟩ | ⟨rfl, -⟩
        · exact id
        · exact id
      · intro phase'' h
        cases h
        rcases hphase with ⟨-, rfl⟩ | ⟨-, rfl⟩
        · trivial
        · trivial
      · rcases hphase with ⟨rfl, -⟩ | ⟨rfl, -⟩
        · rintro (h | h) <;> cases h
        · rintro (h | h) <;> cases h
  | work hu hworks _ hb hfits hsettled hfree =>
      exact hc.work hh hu hworks hb hfits hsettled hfree ht hq
  | @unlock i hu =>
      refine hc.quiet hq rfl rfl rfl hu slotOf_ref (fun _ h => by cases h) rfl rfl id
        (fun h => ⟨h, id⟩) ?_
        (fun v phase _ hv => hc.fits v i phase hv) ?_
      · intro phase' h
        cases h
        trivial
      · rintro (h | h)
        · cases h
        · cases h
  | @release i freed hu =>
      refine hc.quiet hq rfl rfl rfl hu slotOf_ref (fun _ h => by cases h) rfl rfl id
        (fun h => ?_) ?_
        (fun v phase hvu hv => Phase.fits_of_not_locks (hh.not_locks hu trivial hvu hv)) ?_
      · rw [Bool.and_eq_true, Bool.not_eq_true'] at h
        obtain ⟨hvalid, rfl⟩ := h
        exact ⟨hvalid, id⟩
      · intro phase' h
        cases h
        trivial
      · intro _ phase' h
        cases h
        rfl
  | @drop i hu =>
      refine hc.quiet hq rfl rfl rfl hu ?_ (fun _ h => by cases h) rfl rfl
        (fun hpos => hpos.trans_le (Nat.sub_le _ _))
          (fun h => ⟨h, id⟩) ?_ (fun v phase hvu hv => ?_) ?_
      · intro j hj
        cases hj
      · intro phase' h
        cases h
      · have hold := hc.fits v i phase hv
        refine hold.with_ref ⟨?_, ?_⟩
        · rintro rfl
          exact hvu (hh.only hold.2.2 hu hv)
        · rintro rfl
          exact hvu (hh.only hold.2.2 hu hv)
      · intro _ phase' h
        cases h

omit [DecidableEq ι] in
theorem Inv.open_of_use (h : Inv s) (hv : s.use v = some (.ref i phase))
    (hphase : phase = .idle ∨ ∃ changed, phase = .owning changed) : Open s u (s.slot i).key := by
  have hne : phase ≠ .unlocking true ∧ phase ≠ .dropping ∧ phase ≠ .truncating ∧
      phase ≠ .freeing := by
    rcases hphase with rfl | ⟨_, rfl⟩
    · exact ⟨by rintro ⟨⟩, by rintro ⟨⟩, by rintro ⟨⟩, by rintro ⟨⟩⟩
    · exact ⟨by rintro ⟨⟩, by rintro ⟨⟩, by rintro ⟨⟩, by rintro ⟨⟩⟩
  obtain ⟨htype, hmarked⟩ := h.coherent.in_use hv hne.1 hne.2.1
  refine ⟨htype, fun w hw => absurd hw (hmarked w), fun w j phase' hw hjk => ?_⟩
  have hji : j = i := h.unique j i (h.held.pos hw) (h.held.pos hv) hjk
  rw [hji] at hw
  have hone : (s.slot i).ref = 1 → phase' = phase := by
    intro hone
    have hwv := h.held.only hone hv hw
    rw [hwv, hv] at hw
    cases hw
    rfl
  constructor
  · rintro rfl
    exact hne.2.2.1 (hone (h.coherent.fits w i _ hw).2.2).symm
  · rintro rfl
    exact hne.2.2.2 (hone (h.coherent.fits w i _ hw).2.2).symm

omit [DecidableEq ι] [Fintype ι] in
theorem of_find? {p : Fin NINODE → Prop} [DecidablePred p]
    (h : (List.finRange NINODE).find? (fun i => decide (p i)) = some i) : p i := by
  have hi := List.find?_some h
  exact of_decide_eq_true hi

omit [DecidableEq ι] [Fintype ι] in
theorem current_of_caches (hq : Unique s) (hi : s.Caches k i) : s.current k = (s.slot i).inode := by
  rw [State.current]
  cases hfind : (List.finRange NINODE).find? (s.Caches k ·) with
  | none => exact absurd (decide_eq_true hi) (List.find?_eq_none.mp hfind i (List.mem_finRange i))
  | some j =>
      have hj : s.Caches k j := of_find? hfind
      rw [hq j i hj.1 hi.1 (hj.2.1.trans hi.2.1.symm)]

omit [DecidableEq ι] [Fintype ι] in
theorem Coherent.not_counted (hc : Coherent s) (hk : Gone s k)
    (hdisk : (s.disk k).type = 0 ∨ (s.disk k).nlink = 0) : ¬ Counted (s.current k) := by
  have hnot : ¬ Counted (s.disk k) := fun h => by
    rcases hdisk with hd | hd
    · exact h.1 hd
    · exact h.2 hd
  rw [State.current]
  cases hfind : (List.finRange NINODE).find? (s.Caches k ·) with
  | none => exact hnot
  | some i =>
      obtain ⟨hpos, hkey, hvalid⟩ : s.Caches k i := of_find? hfind
      by_cases hahead : ∃ u phase, s.use u = some (.ref i phase) ∧ phase.Ahead
      · obtain ⟨u, phase, hu, hphase⟩ := hahead
        rcases hk u i phase hu hkey with rfl | rfl
        · exact fun h => h.1 (hc.fits u i _ hu)
        · exact hphase.elim
      · have hsettled :=
          hc.settled i hpos (fun u phase hu hphase => hahead ⟨u, phase, hu, hphase⟩) hvalid
        rw [hkey] at hsettled
        dsimp only
        rwa [hsettled.1]

omit [DecidableEq ι] in
theorem Inv.open_of_counted (h : Inv s) (hk : Counted (s.current k)) : Open s u k := by
  refine ⟨fun hfree => ?_, fun v hv => ?_, fun v i phase hv hik => ?_⟩
  · exact h.coherent.not_counted (h.coherent.free k hfree) (.inl hfree) hk
  · obtain ⟨-, hnlink, hgone⟩ := h.coherent.marked v k hv
    exact absurd hk (h.coherent.not_counted hgone (.inr hnlink))
  · have hnot : ¬ ((s.slot i).valid = true ∧ (s.slot i).inode.nlink = 0) := fun hi =>
      hk.2 (by rw [current_of_caches h.unique ⟨h.held.pos hv, hik, hi.1⟩, hi.2])
    constructor
    · rintro rfl
      have hfits := h.coherent.fits v i _ hv
      exact hnot ⟨hfits.1, hfits.2.1⟩
    · rintro rfl
      have hfits := h.coherent.fits v i _ hv
      exact hnot ⟨hfits.1, hfits.2.1⟩

omit [Fintype ι] in
theorem change_iget (hu : slotOf (s.use u) = none) (ho : Open s u k) (h : s.iget u k = some t) :
    Change s u t := by
  rw [State.iget] at h
  cases hfind : (List.finRange NINODE).find? fun i => 0 < (s.slot i).ref ∧ (s.slot i).key = k with
  | some i =>
      rw [hfind] at h
      cases h
      exact .hit hu ho (of_find? hfind)
  | none =>
      rw [hfind] at h
      have hmiss : ∀ j, 0 < (s.slot j).ref → (s.slot j).key ≠ k := fun j hj hjk =>
        List.find?_eq_none.mp hfind j (List.mem_finRange j) (decide_eq_true ⟨hj, hjk⟩)
      cases hempty : (List.finRange NINODE).find? fun i => (s.slot i).ref = 0 with
      | none =>
          rw [hempty] at h
          cases h
      | some i =>
          rw [hempty] at h
          cases h
          exact .recycle hu ho hmiss (of_find? hempty)

omit [Fintype ι] in
theorem goto_eq (s : State ι) (u : ι) (i : Fin NINODE) (y : Option Use) :
    s.goto u y =
      ((s.setSlot i (s.slot i)).setDisk (s.slot i).key (s.disk (s.slot i).key)).goto u y :=
  State.ext (Function.update_eq_self i s.slot).symm (Function.update_eq_self _ s.disk).symm rfl

omit [Fintype ι] in
theorem setSlot_goto_eq (s : State ι) (u : ι) (i : Fin NINODE) (b : Slot ι) (y : Option Use) :
    (s.setSlot i b).goto u y =
      ((s.setSlot i b).setDisk (s.slot i).key (s.disk (s.slot i).key)).goto u y :=
  State.ext rfl (Function.update_eq_self _ s.disk).symm rfl

omit [DecidableEq ι] in
theorem Inv.settled (h : Inv s) (hu : s.use u = some (.ref i phase)) (hlocks : phase.Locks)
    (hahead : ¬ phase.Ahead) (hvalid : (s.slot i).valid = true) :
    (s.slot i).inode = s.disk (s.slot i).key ∧ (s.slot i).inode.type ≠ 0 := by
  apply h.coherent.settled i (h.held.pos hu) _ hvalid
  intro v phase' hv
  by_cases hlocks' : phase'.Locks
  · obtain rfl := h.held.holder hu hlocks hv hlocks'
    rw [hu] at hv
    cases hv
    exact hahead
  · cases phase' with
    | idle | locking | putting | dropping => exact id
    | _ => exact absurd trivial hlocks'

theorem Inv.change_goto (h : Inv s) (hu : s.use u = some (.ref i phase)) (hworks : phase.Works)
    (hlocks : phase'.Locks) (hahead : ¬ phase.Ahead) (hfits : phase'.Fits (s.slot i)) :
    Change s u (s.goto u (some (.ref i phase'))) := by
  have hfreed : phase ≠ .unlocking true := fun h => by
    rw [h] at hworks
    exact hworks
  have hdropping : phase ≠ .dropping := fun h => by
    rw [h] at hworks
    exact hworks
  rw [goto_eq s u i]
  refine .work hu hworks hlocks rfl hfits (fun _ => h.settled hu hworks.locks hahead) fun hfree =>
    ?_
  exact absurd hfree (h.coherent.in_use hu hfreed hdropping).1

theorem Inv.change_nextPhase (h : Inv s) (hu : s.use u = some (.ref i phase))
    (ht : s.nextPhase u i phase = some t) : Change s u t := by
  cases phase with
  | idle => cases ht
  | locking =>
      obtain ⟨hlock, ht⟩ := Option.ite_none_right_eq_some.mp ht
      cases ht
      exact .acquire hu hlock (.inl ⟨rfl, rfl⟩)
  | locked =>
      rw [State.nextPhase] at ht
      by_cases hvalid : (s.slot i).valid = true
      · rw [if_pos hvalid] at ht
        cases ht
        have hsettled := h.settled hu trivial id hvalid
        exact h.change_goto hu trivial trivial id ⟨hvalid, hsettled.2⟩
      · rw [if_neg hvalid] at ht
        obtain ⟨htype, ht⟩ := Option.ite_none_left_eq_some.mp ht
        cases ht
        rw [setSlot_goto_eq]
        exact .work hu trivial trivial rfl ⟨rfl, htype⟩ (fun _ _ => ⟨rfl, htype⟩) fun hfree =>
          absurd hfree htype
  | owning changed => cases ht
  | putting =>
      obtain ⟨hlock, ht⟩ := Option.ite_none_right_eq_some.mp ht
      cases ht
      exact .acquire hu hlock (.inr ⟨rfl, rfl⟩)
  | testing =>
      rw [State.nextPhase] at ht
      by_cases hi : (s.slot i).valid = true ∧ (s.slot i).inode.nlink = 0
      · rw [if_pos hi] at ht
        cases ht
        exact h.change_goto hu trivial trivial id hi
      · rw [if_neg hi] at ht
        cases ht
        exact h.change_goto hu trivial trivial id trivial
  | counting =>
      have hfits := h.coherent.fits u i _ hu
      rw [State.nextPhase] at ht
      by_cases hone : (s.slot i).ref = 1
      · rw [if_pos hone] at ht
        cases ht
        exact h.change_goto hu trivial trivial id ⟨hfits.1, hfits.2, hone⟩
      · rw [if_neg hone] at ht
        cases ht
        exact h.change_goto hu trivial trivial id trivial
  | truncating =>
      have hfits := h.coherent.fits u i _ hu
      have hsettled := h.settled hu trivial id hfits.1
      cases ht
      rw [State.iupdate, s.setSlot_self]
      exact .work hu trivial trivial rfl hfits (fun _ _ => ⟨rfl, hsettled.2⟩) fun hfree =>
        absurd hfree hsettled.2
  | freeing =>
      cases ht
      rw [State.iupdate, s.setSlot_self]
      exact .work hu trivial trivial rfl rfl (fun hahead => absurd trivial hahead) fun _ =>
        ⟨rfl, rfl⟩
  | unlocking freed =>
      cases ht
      exact .release hu
  | dropping =>
      cases ht
      exact .drop hu

theorem Inv.change (h : Inv s) {ninodes : ℕ} {a : Action ι} (ha : step ninodes s a = some t) :
    Change s a.user t := by
  cases a with
  | lookup u k =>
      obtain ⟨⟨hu, hk⟩, ha⟩ := Option.ite_none_right_eq_some.mp ha
      exact change_iget (slotOf_none hu) (h.open_of_counted hk) ha
  | lookupSelf u v =>
      rw [step] at ha
      split at ha
      · rename_i i changed hu hv
        exact change_iget (slotOf_none hu) (h.open_of_use hv (.inr ⟨changed, rfl⟩)) ha
      · cases ha
  | idup u v =>
      rw [step] at ha
      split at ha
      · rename_i i hu hv
        cases ha
        exact .hit (slotOf_none hu) (h.open_of_use hv (.inl rfl)) ⟨h.held.pos hv, rfl⟩
      · rename_i i changed hu hv
        cases ha
        exact .hit (slotOf_none hu) (h.open_of_use hv (.inr ⟨changed, rfl⟩)) ⟨h.held.pos hv, rfl⟩
      · cases ha
  | ialloc u dev type =>
      obtain ⟨hu, ha⟩ := Option.ite_none_right_eq_some.mp ha
      cases ha
      exact .look (.inl hu)
  | ilock u =>
      rw [step] at ha
      split at ha
      · rename_i i hu
        obtain ⟨-, ha⟩ := Option.ite_none_left_eq_some.mp ha
        cases ha
        exact .move hu (.inl rfl)
      · cases ha
  | iput u =>
      rw [step] at ha
      split at ha
      · rename_i i hu
        cases ha
        exact .move hu (.inr rfl)
      · cases ha
  | modify u inode =>
      rw [step] at ha
      split at ha
      · rename_i i changed hu
        obtain ⟨htype, ha⟩ := Option.ite_none_left_eq_some.mp ha
        cases ha
        have hfits := h.coherent.fits u i _ hu
        have hused := h.coherent.in_use hu (by rintro ⟨⟩) (by rintro ⟨⟩)
        rw [setSlot_goto_eq]
        exact .work hu trivial trivial rfl ⟨hfits.1, htype⟩ (fun hahead => absurd trivial hahead)
          fun hfree => absurd hfree hused.1
      · cases ha
  | iupdate u =>
      rw [step] at ha
      split at ha
      · rename_i i changed hu
        cases ha
        have hfits := h.coherent.fits u i _ hu
        have hslot : s = s.setSlot i (s.slot i) :=
          State.ext (Function.update_eq_self i s.slot).symm rfl rfl
        have hstate : s.iupdate i = (s.setSlot i (s.slot i)).setDisk (s.slot i).key
            (s.slot i).inode :=
          congrArg (fun r : State ι => r.setDisk (s.slot i).key (s.slot i).inode) hslot
        rw [hstate]
        exact .work hu trivial trivial rfl hfits (fun _ _ => ⟨rfl, hfits.2⟩) fun hfree =>
          absurd hfree hfits.2
      · cases ha
  | iunlock u =>
      rw [step] at ha
      split at ha
      · rename_i i hu
        obtain ⟨-, ha⟩ := Option.ite_none_right_eq_some.mp ha
        cases ha
        exact .unlock hu
      · cases ha
  | next u =>
      rw [step] at ha
      split at ha
      · rename_i k type hu
        obtain ⟨-, ha⟩ := Option.ite_none_right_eq_some.mp ha
        by_cases hfree : (s.disk k).type = 0
        · rw [if_pos hfree] at ha
          cases ha
          exact .mark hu hfree
        · rw [if_neg hfree] at ha
          cases ha
          exact .look (.inr ⟨k, type, hu⟩)
      · rename_i k hu
        obtain ⟨htype, -, hgone⟩ := h.coherent.marked u k hu
        have hopen : Open s u k := by
          refine ⟨htype, fun v hv => h.coherent.alone v u k hv hu, fun v i phase hv hik => ?_⟩
          rcases hgone v i phase hv hik with rfl | rfl
          · exact ⟨by rintro ⟨⟩, by rintro ⟨⟩⟩
          · exact ⟨by rintro ⟨⟩, by rintro ⟨⟩⟩
        have hslot : slotOf (s.use u) = none := by
          rw [hu]
          rfl
        exact change_iget hslot hopen ha
      · rename_i i phase hu
        exact h.change_nextPhase hu ha
      · cases ha

omit [DecidableEq ι] in
theorem inv_iinit (disk : ℕ × ℕ → Dinode) (inode : Fin NINODE → Dinode) :
    Inv (iinit disk inode : State ι) := by
  refine ⟨⟨fun i => ?_, fun i u => ?_⟩, fun i j hi => absurd hi (lt_irrefl 0),
    ⟨fun i hi => absurd hi (lt_irrefl 0), ?_, ?_, ?_, ?_⟩⟩
  · exact (Finset.card_eq_zero.mpr (Finset.filter_eq_empty_iff.mpr fun _ _ h => by cases h)).symm
  · exact iff_of_false (fun h => by cases h) fun h => h.2
  · intro u i phase hu
    cases hu
  · intro k _ u i phase hu
    cases hu
  · intro u k hu
    cases hu
  · intro u v k hu
    cases hu

theorem Reachable.inv {ninodes : ℕ} (h : Reachable ninodes s) : Inv s := by
  apply h.invariant
  · rintro s ⟨disk, inode, rfl⟩
    exact inv_iinit disk inode
  · rintro s t _ hi ⟨a, ha⟩
    have hc := hi.change ha
    have hq := hi.unique.step hc
    exact ⟨hi.held.step hc, hq, hi.coherent.step hi.held hq hc⟩

omit [Fintype ι] in
theorem Change.keeps_key (h : Change s u t) (hi : 0 < (s.slot i).ref) :
    (t.slot i).key = (s.slot i).key := by
  have hupdate : ∀ (j : Fin NINODE) (b : Slot ι), b.key = (s.slot j).key →
      (Function.update s.slot j b i).key = (s.slot i).key := by
    intro j b hb
    by_cases hij : i = j
    · rw [hij, Function.update_self, hb]
    · rw [Function.update_of_ne hij]
  cases h with
  | @recycle k j hu ho hmiss hj =>
      have hij : i ≠ j := by
        rintro rfl
        exact hi.ne' hj
      exact congrArg Slot.key (Function.update_of_ne hij _ _)
  | look _ => rfl
  | mark _ _ => rfl
  | move _ _ => rfl
  | work hu hworks hlocks hb =>
      apply hupdate
      rw [hb]
      rfl
  | _ => exact hupdate _ _ rfl

/-- An inode is freed by the holder of the only reference to it, and without links. -/
theorem Inv.freed (hi : Inv s) (h : Change s u t) (hs : (s.disk k).type ≠ 0)
    (ht : (t.disk k).type = 0) :
    (s.disk k).nlink = 0 ∧ ∃ i, s.use u = some (.ref i .freeing) ∧ (s.slot i).key = k ∧
      (s.slot i).ref = 1 := by
  cases h with
  | @mark k' type hu hk =>
      change (Function.update s.disk k' (newDinode type) k).type = 0 at ht
      by_cases hkk : k = k'
      · rw [hkk, Function.update_self] at ht
        exact absurd ht type.2
      · rw [Function.update_of_ne hkk] at ht
        exact absurd ht hs
  | @work i phase phase' b d hu hworks hlocks hb hfits hsettled hfree =>
      change (Function.update s.disk (s.slot i).key d k).type = 0 at ht
      by_cases hki : k = (s.slot i).key
      · rw [hki, Function.update_self] at ht
        obtain ⟨rfl, -⟩ := hfree ht
        obtain ⟨hvalid, hnlink, hone⟩ := hi.coherent.fits u i _ hu
        refine ⟨?_, i, hu, hki.symm, hone⟩
        rw [hki, ← (hi.settled hu trivial id hvalid).1, hnlink]
      · rw [Function.update_of_ne hki] at ht
        exact absurd ht hs
  | _ => exact absurd ht hs

/-- The slot `i` that a user has a reference to, or is about to give back. -/
def Refers (s : State ι) (u : ι) (i : Fin NINODE) : Prop := slotOf (s.use u) = some i

instance (s : State ι) (i : Fin NINODE) : DecidablePred fun u => Refers s u i := fun u =>
  inferInstanceAs (Decidable (slotOf (s.use u) = some i))

theorem icache_coherent {ninodes : ℕ} (h : Reachable ninodes s) :
    (∀ i j, 0 < (s.slot i).ref → 0 < (s.slot j).ref → (s.slot i).key = (s.slot j).key → i = j) ∧
      (∀ i, (s.slot i).ref = Finset.card {u | Refers s u i}) ∧
      (∀ a t i, step ninodes s a = some t → (t.slot i).key ≠ (s.slot i).key → (s.slot i).ref = 0) ∧
      (∀ a t k, step ninodes s a = some t → (s.disk k).type ≠ 0 → (t.disk k).type = 0 →
        (s.disk k).nlink = 0 ∧ ∃ i, (s.slot i).key = k ∧ ∀ v, Refers s v i ↔ v = a.user) ∧
      ∀ i, 0 < (s.slot i).ref → (s.slot i).lock = none → (s.slot i).valid = true →
        (s.slot i).inode = s.disk (s.slot i).key := by
  have hi := h.inv
  refine ⟨hi.unique, hi.held.count, fun a t i ha hne => ?_, fun a t k ha hs ht => ?_,
    fun i hpos hlock hvalid => ?_⟩
  · by_contra href
    exact hne ((hi.change ha).keeps_key (Nat.pos_of_ne_zero href))
  · obtain ⟨hnlink, i, hu, hkey, hone⟩ := hi.freed (hi.change ha) hs ht
    refine ⟨hnlink, i, hkey, fun v => ⟨fun hv => ?_, ?_⟩⟩
    · exact Holdings.only hi.held hone (slotOf_use hu) hv
    · rintro rfl
      exact slotOf_use hu
  · refine (hi.coherent.settled i hpos (fun u phase hu hahead => ?_) hvalid).1
    have hlocks : phase.Locks := by
      cases phase with
      | idle | locking | putting | dropping => exact hahead.elim
      | _ => trivial
    have hholds := (hi.held.lock i u).mpr ⟨slotOf_use hu, by rw [hu]; exact hlocks⟩
    rw [hlock] at hholds
    cases hholds

/-- Inodes 1 and 2 of device 1 are allocated and have a link each. -/
def twoInodes (k : ℕ × ℕ) : Dinode :=
  if k = (1, 1) ∨ k = (1, 2) then { newDinode 2 with nlink := 1 } else newDinode 0

def first : Fin NINODE := ⟨0, by decide⟩

/-- User 0 removes the link of inode 2 and frees it in `iput`. Before it gives its reference back,
user 1 allocates the inode again, takes a reference in the same slot and locks it. -/
def freeAndReuse : List (Action (Fin 2)) :=
  let u : Fin 2 := ⟨0, Nat.zero_lt_two⟩
  let v : Fin 2 := ⟨1, Nat.one_lt_two⟩
  [.lookup u (1, 2), .ilock u, .next u, .next u, .modify u (newDinode 2), .iupdate u,
    .iunlock u, .iput u,
    .next u, .next u, .next u, .next u, .next u, .ialloc v 1 ⟨2, by decide⟩, .next v,
      .next v, .next v,
    .next u, .next u, .ilock v, .next v, .next v, .iunlock v]

theorem icache_coherent_reuse :
    ∃ s : State (Fin 2), Reachable 10 s ∧ s.use 0 = none ∧ (s.slot first).key = (1, 2) ∧
      (s.slot first).ref = 1 ∧ (s.slot first).inode = s.disk (1, 2) ∧ (s.disk (1, 2)).type = 2 := by
  have hrun : ((TransitionRuns.execute (step 10) (iinit twoInodes fun _ => newDinode 0)
      freeAndReuse).any fun s => decide (s.use 0 = none ∧ (s.slot first).key = (1, 2) ∧
        (s.slot first).ref = 1 ∧ (s.slot first).lock = none ∧ (s.slot first).valid = true ∧
          (s.disk (1, 2)).type = 2)) = true := by
    decide +kernel
  obtain ⟨s, hs, hprop⟩ := (Option.any_eq_true _ _).mp hrun
  obtain ⟨huse, hkey, href, hlock, hvalid, htype⟩ := of_decide_eq_true hprop
  have hreach : Reachable 10 s := TransitionRuns.Reaches.execute (.start ⟨_, _, rfl⟩) hs
  have hpos : 0 < (s.slot first).ref := by
    rw [href]
    exact Nat.one_pos
  have hcoherent := (icache_coherent hreach).2.2.2.2 first hpos hlock hvalid
  exact ⟨s, hreach, huse, hkey, href, hkey ▸ hcoherent, htype⟩

end Steps

end InodeCache

end Xv6Fairness
