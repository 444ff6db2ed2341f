import Mathlib.Algebra.BigOperators.Fin
import Mathlib.Algebra.Order.BigOperators.Group.Finset
import Xv6Fairness.Counting
import Xv6Fairness.DirectoryEntries
import Xv6Fairness.InodeCache
import Xv6Fairness.PathElements

/-!
# Following a path

`namex` walks the string and the tree of directories together. It holds one reference at a time,
takes the one to the next inode before it gives the last one back, and leaves by five exits. A
reference is counted in a slot of the inode cache.
-/

namespace Xv6Fairness

open ByteStrings Outcomes

namespace PathLookup

open InodeCache (NINODE)
open Mkfs (T_DIR)

def ROOTINO : ℕ := 1

/-- A directory entry with the array that holds its name. -/
structure Dirent where
  inum : ℕ
  name : Bytes
  length : name.length = DIRSIZ

structure Inode where
  type : Int16
  nlink : Int16
  entries : List Dirent

/-- A slot of the inode cache. -/
structure Slot where
  inum : ℕ
  ref : ℕ
  valid : Bool

def Slot.setRef (x : Slot) (ref : ℕ) : Slot := { x with ref := ref }

structure State where
  inode : ℕ → Inode
  slot : Fin NINODE → Slot

inductive Panic
  | noSlot     -- "iget: no inodes"
  | unused     -- "ilock", a slot without references
  | noType     -- "ilock: no type"
  | notDir     -- "dirlookup not DIR"
  | bounds     -- a read behind the path
deriving DecidableEq

namespace State

variable (s : State)

def setSlot (k : Fin NINODE) (x : Slot) : State := { s with slot := Function.update s.slot k x }

def setInode (i : ℕ) (x : Inode) : State := { s with inode := Function.update s.inode i x }

/-- The inode that a slot is in use for. -/
def ip (k : Fin NINODE) : Inode := s.inode (s.slot k).inum

def iget (inum : ℕ) : Except Panic (Fin NINODE × State) :=
  match (List.finRange NINODE).find? fun k => 0 < (s.slot k).ref ∧ (s.slot k).inum = inum with
  | some k => .ok (k, s.setSlot k ((s.slot k).setRef ((s.slot k).ref + 1)))
  | none =>
    match (List.finRange NINODE).find? fun k => (s.slot k).ref = 0 with
    | some k => .ok (k, s.setSlot k ⟨inum, 1, false⟩)
    | none => .error .noSlot

def idup (k : Fin NINODE) : State := s.setSlot k ((s.slot k).setRef ((s.slot k).ref + 1))

def ilock (k : Fin NINODE) : Except Panic State :=
  if (s.slot k).ref < 1 then .error .unused
  else if (s.slot k).valid then .ok s
  else if (s.ip k).type = 0 then .error .noType
  else .ok (s.setSlot k { s.slot k with valid := true })

/-- The last reference to an inode without links frees it. -/
def iput (k : Fin NINODE) : State :=
  if (s.slot k).valid ∧ (s.ip k).nlink = 0 ∧ (s.slot k).ref = 1 then
    (s.setInode (s.slot k).inum ⟨0, 0, []⟩).setSlot k ⟨(s.slot k).inum, 0, false⟩
  else s.setSlot k ((s.slot k).setRef ((s.slot k).ref - 1))

def findEntry (name : Bytes) : List Dirent → Option ℕ
  | [] => none
  | de :: des => if de.inum = 0 then findEntry name des
    else if namecmp name de.name = some 0 then some de.inum else findEntry name des

def dirlookup (k : Fin NINODE) (name : Bytes) : Except Panic (Option (Fin NINODE) × State) :=
  if (s.ip k).type ≠ T_DIR then .error .notDir
  else match findEntry name (s.ip k).entries with
    | none => .ok (none, s)
    | some inum => do
      let (next, s) ← s.iget inum
      .ok (some next, s)

/-- What `namex` returns: the inode, the array with the last element, and the state. -/
abbrev Result := Option (Fin NINODE) × Bytes × State

/-- One pass of the loop of `namex`, with an element in `name` and the rest in `path`: the result,
or the inode to go on with. -/
def namexStep (parent : Bool) (k : Fin NINODE) (path name : Bytes) :
    Except Panic (Result ⊕ (Fin NINODE × State)) := do
  let s ← s.ilock k
  if (s.ip k).type ≠ T_DIR then .ok (.inl (none, name, s.iput k))
  else if parent ∧ path.head? = some 0 then .ok (.inl (some k, name, s))
  else do
    let (next, s) ← s.dirlookup k name
    match next with
    | none => .ok (.inl (none, name, s.iput k))
    | some next => .ok (.inr (next, s.iput k))

end State

theorem skipSlashes_length {path rest : Bytes} (h : skipSlashes path = some rest) :
    rest.length ≤ path.length := by
  induction path with
  | nil => cases h
  | cons c path ih =>
      rw [skipSlashes] at h
      split_ifs at h
      · exact (ih h).trans (Nat.le_succ _)
      · cases h
        exact le_rfl

theorem skipSlashes_head {path rest : Bytes} (h : skipSlashes path = some rest) :
    ∃ c t, rest = c :: t ∧ c ≠ 47 := by
  induction path with
  | nil => cases h
  | cons c path ih =>
      rw [skipSlashes] at h
      split_ifs at h with hc
      · exact ih h
      · cases h
        exact ⟨c, path, rfl, hc⟩

theorem skipelem_length {path name path' name' : Bytes}
    (h : skipelem path name = some (some path', name')) : path'.length < path.length := by
  rw [skipelem] at h
  obtain ⟨rest, hskip, h⟩ := Option.bind_eq_some_iff.mp h
  obtain ⟨c, t, rfl, hc⟩ := skipSlashes_head hskip
  have hle := skipSlashes_length hskip
  split_ifs at h with hzero
  · cases h
  · obtain ⟨len, hlen, h⟩ := Option.bind_eq_some_iff.mp h
    obtain ⟨path₁, hskip₁, rfl⟩ : ∃ path₁, skipSlashes ((c :: t).drop len) = some path₁ ∧
        path₁ = path' := by
      dsimp only at h
      split_ifs at h
      · obtain ⟨name₁, -, h⟩ := Option.bind_eq_some_iff.mp h
        obtain ⟨path₁, hskip₁, h⟩ := Option.bind_eq_some_iff.mp h
        cases h
        exact ⟨_, hskip₁, rfl⟩
      · obtain ⟨name₁, -, h⟩ := Option.bind_eq_some_iff.mp h
        obtain ⟨name₂, -, h⟩ := Option.bind_eq_some_iff.mp h
        obtain ⟨path₁, hskip₁, h⟩ := Option.bind_eq_some_iff.mp h
        cases h
        exact ⟨_, hskip₁, rfl⟩
    have hpos : 0 < len := by
      have hc0 : c ≠ 0 := fun h => hzero (by rw [h, List.head?_cons])
      rw [elemLength, if_pos ⟨hc, hc0⟩] at hlen
      obtain ⟨n, -, hn⟩ := Option.map_eq_some_iff.mp hlen
      omega
    have hle₁ := skipSlashes_length hskip₁
    rw [List.length_drop] at hle₁
    rw [List.length_cons] at hle hle₁
    omega

namespace State

def namexLoop (parent : Bool) (s : State) (k : Fin NINODE)
    (path name : Bytes) : Except Panic Result :=
  match _h : skipelem path name with
  | none => .error .bounds
  | some (none, name) => .ok (if parent then (none, name, s.iput k) else (some k, name, s))
  | some (some path', name) => do
    match ← s.namexStep parent k path' name with
    | .inl r => .ok r
    | .inr (next, s) => namexLoop parent s next path' name
termination_by path.length
decreasing_by exact skipelem_length _h

def namex (s : State) (parent : Bool) (cwd : Fin NINODE)
    (path name : Bytes) : Except Panic Result := do
  let (k, s) ← if path.head? = some 47 then s.iget ROOTINO else .ok (cwd, s.idup cwd)
  s.namexLoop parent k path name

def namei (s : State) (cwd : Fin NINODE) (path name : Bytes) : Except Panic Result :=
  s.namex false cwd path name

def nameiparent (s : State) (cwd : Fin NINODE) (path name : Bytes) : Except Panic Result :=
  s.namex true cwd path name

end State

/-- The inode that a name of the directory `d` is bound to. -/
def child (inode : ℕ → Inode) (d : ℕ) (e : Bytes) : Option ℕ :=
  if (inode d).type = T_DIR then
    ((inode d).entries.find? fun de => de.inum ≠ 0 ∧
      cString de.name = e.take DIRSIZ).map Dirent.inum
  else none

/-- The inode at the end of a path. -/
def follow (inode : ℕ → Inode) (d : ℕ) (es : List Bytes) : Option ℕ := es.foldlM (child inode) d

/-- The directory that the last element belongs to, and that element. -/
def followParent (inode : ℕ → Inode) (d : ℕ) (es : List Bytes) : Option (ℕ × Bytes) :=
  es.getLast?.bind fun last =>
    ((follow inode d es.dropLast).filter fun p => (inode p).type = T_DIR).map (·, last.take DIRSIZ)

section Follow

variable {inode : ℕ → Inode} {d : ℕ} {e e' : Bytes} {es : List Bytes}

theorem follow_cons : follow inode d (e :: es) = (child inode d e).bind fun d' =>
    follow inode d' es := rfl

theorem followParent_single :
    followParent inode d [e] = if (inode d).type = T_DIR then some (d, e.take DIRSIZ)
    else none := by
  change ((some d).filter fun p => decide ((inode p).type = T_DIR)).map _ = _
  by_cases h : (inode d).type = T_DIR
  · have hkeep : (some d).filter (fun p => decide ((inode p).type = T_DIR)) = some d :=
      Option.filter_some_pos (decide_eq_true h)
    rw [if_pos h, hkeep]
    rfl
  · have hdrop : (some d).filter (fun p => decide ((inode p).type = T_DIR)) = none := by
      rw [Option.filter_some, if_neg (by rwa [decide_eq_true_iff])]
    rw [if_neg h, hdrop]
    rfl

theorem followParent_cons : followParent inode d (e :: e' :: es) =
    (child inode d e).bind fun d' => followParent inode d' (e' :: es) := by
  rw [followParent, List.getLast?_cons_cons, List.dropLast_cons_cons, follow_cons]
  cases child inode d e with
  | none =>
      rw [Option.bind_none, Option.bind_none]
      cases (e' :: es).getLast? <;> rfl
  | some d' => rfl

theorem followParent_dir {p : ℕ} {last : Bytes} (h : followParent inode d es = some (p, last)) :
    (inode p).type = T_DIR := by
  rw [followParent] at h
  obtain ⟨e, -, h⟩ := Option.bind_eq_some_iff.mp h
  obtain ⟨q, hq, heq⟩ := Option.map_eq_some_iff.mp h
  cases heq
  exact of_decide_eq_true (Option.filter_eq_some_iff.mp hq).2

end Follow

namespace State

variable (s : State)

/-- The references to an inode that the cache counts. -/
def refs (i : ℕ) : ℕ := ∑ k, if (s.slot k).inum = i then (s.slot k).ref else 0

/-- No two slots are in use for one inode. -/
def Unique : Prop :=
  ∀ j k, 0 < (s.slot j).ref → 0 < (s.slot k).ref → (s.slot j).inum = (s.slot k).inum → j = k

def TwoFree : Prop := ∃ j k, j ≠ k ∧ (s.slot j).ref = 0 ∧ (s.slot k).ref = 0

end State

section References

variable {s t : State} {k : Fin NINODE} {x : Slot} {i : ℕ}

theorem slot_setSlot_self : (s.setSlot k x).slot k = x := Function.update_self _ _ _

theorem slot_setSlot_of_ne {j : Fin NINODE} (h : j ≠ k) : (s.setSlot k x).slot j = s.slot j :=
  Function.update_of_ne h _ _

theorem refs_setSlot :
    (s.setSlot k x).refs i + (if (s.slot k).inum = i then (s.slot k).ref else 0) =
    s.refs i + if x.inum = i then x.ref else 0 := by
  have hsum := Counting.sum_exchange (p := k)
    (f := fun j => if ((s.setSlot k x).slot j).inum = i then ((s.setSlot k x).slot j).ref else 0)
    (g := fun j => if (s.slot j).inum = i then (s.slot j).ref else 0)
    fun j hj => by rw [slot_setSlot_of_ne hj]
  rw [slot_setSlot_self] at hsum
  exact hsum

theorem refs_eq (h : s.Unique)
    (hk : 0 < (s.slot k).ref) : s.refs (s.slot k).inum = (s.slot k).ref := by
  rw [State.refs, Finset.sum_eq_single k]
  · rw [if_pos rfl]
  · intro j _ hj
    split_ifs with heq
    · by_contra hne
      exact hj (h j k (Nat.pos_of_ne_zero hne) hk heq)
    · rfl
  · exact fun hk => absurd (Finset.mem_univ k) hk

theorem exists_of_refs_pos (h : 0 < s.refs i) : ∃ k, 0 < (s.slot k).ref ∧ (s.slot k).inum = i := by
  by_contra hnone
  rw [State.refs, Finset.sum_eq_zero] at h
  · exact absurd h (lt_irrefl 0)
  · intro k _
    split_ifs with heq
    · by_contra hne
      exact hnone ⟨k, Nat.pos_of_ne_zero hne, heq⟩
    · rfl

end References

/-- A reachable tree and cache: the entries name inodes that exist, with links or references. -/
structure Ready (s : State) (cwd : Fin NINODE) : Prop where
  unique : s.Unique
  root : (s.inode ROOTINO).type ≠ 0 ∧ (s.inode ROOTINO).nlink ≠ 0
  cwd_ref : 0 < (s.slot cwd).ref
  cwd_type : (s.ip cwd).type ≠ 0
  entries : ∀ d, (s.inode d).type = T_DIR → ∀ de ∈ (s.inode d).entries, de.inum ≠ 0 →
    (s.inode de.inum).type ≠ 0 ∧ ((s.inode de.inum).nlink ≠ 0 ∨ 0 < s.refs de.inum)

/-- Inside a call that began in `s₀`, with one reference taken. -/
structure Holds (s₀ s : State) (k : Fin NINODE) : Prop where
  inode : s.inode = s₀.inode
  refs : ∀ i, s.refs i = s₀.refs i + if i = (s.slot k).inum then 1 else 0
  ref : 0 < (s.slot k).ref
  unique : s.Unique
  type : (s₀.inode (s.slot k).inum).type ≠ 0
  linked : (s₀.inode (s.slot k).inum).nlink ≠ 0 ∨ 0 < s₀.refs (s.slot k).inum

section Steps

variable {s s₀ t : State} {cwd j k : Fin NINODE} {i : ℕ} {x : Slot}

theorem Unique.setSlot (h : s.Unique) (hx : 0 < x.ref → ∀ j, j ≠ k → 0 < (s.slot j).ref →
    (s.slot j).inum ≠ x.inum) : (s.setSlot k x).Unique := by
  intro a b ha hb hab
  by_cases hak : a = k
  · by_cases hbk : b = k
    · rw [hak, hbk]
    · rw [hak, slot_setSlot_self] at ha hab
      rw [slot_setSlot_of_ne hbk] at hb hab
      exact absurd hab.symm (hx ha b hbk hb)
  · by_cases hbk : b = k
    · rw [hbk, slot_setSlot_self] at hb hab
      rw [slot_setSlot_of_ne hak] at ha hab
      exact absurd hab (hx hb a hak ha)
    · rw [slot_setSlot_of_ne hak] at ha hab
      rw [slot_setSlot_of_ne hbk] at hb hab
      exact h a b ha hb hab

/-- Another reference to an inode. -/
structure Taken (s : State) (i : ℕ) (k : Fin NINODE) (t : State) : Prop where
  inode : t.inode = s.inode
  inum : (t.slot k).inum = i
  ref : 0 < (t.slot k).ref
  unique : t.Unique
  refs : ∀ j, t.refs j = s.refs j + if j = i then 1 else 0
  kept : ∀ j, 0 < (s.slot j).ref → (t.slot j).inum = (s.slot j).inum ∧ 0 < (t.slot j).ref ∧
    (t.slot j).valid = (s.slot j).valid

theorem idup_spec (h : s.Unique)
    (hk : 0 < (s.slot k).ref) : Taken s (s.slot k).inum k (s.idup k) := by
  refine ⟨rfl, ?_, ?_, Unique.setSlot h fun _ j hj hpos heq => hj (h j k hpos hk heq), fun j => ?_,
    fun j hj => ?_⟩
  · rw [State.idup, slot_setSlot_self]
    rfl
  · rw [State.idup, slot_setSlot_self]
    exact Nat.succ_pos _
  · have hrefs := refs_setSlot (s := s) (k := k) (i := j)
      (x := (s.slot k).setRef ((s.slot k).ref + 1))
    change _ = _ + if (s.slot k).inum = j then (s.slot k).ref + 1 else 0 at hrefs
    rw [State.idup]
    by_cases hj : (s.slot k).inum = j
    · rw [if_pos hj, if_pos hj] at hrefs
      rw [if_pos hj.symm]
      omega
    · rw [if_neg hj, if_neg hj] at hrefs
      rw [if_neg fun h => hj h.symm]
      omega
  · rw [State.idup]
    by_cases hjk : j = k
    · rw [hjk, slot_setSlot_self]
      exact ⟨rfl, Nat.succ_pos _, rfl⟩
    · rw [slot_setSlot_of_ne hjk]
      exact ⟨rfl, hj, rfl⟩

theorem iget_spec (h : s.Unique) (i : ℕ) :
    Ends (fun e => e = .noSlot ∧ ∀ k, (s.slot k).ref ≠ 0)
    (s.iget i) fun r => Taken s i r.1 r.2 := by
  rw [State.iget]
  cases hfind : (List.finRange NINODE).find? fun k => 0 < (s.slot k).ref ∧ (s.slot k).inum = i with
  | some k =>
      have hk : 0 < (s.slot k).ref ∧ (s.slot k).inum = i := by
        simpa using List.find?_some hfind
      have htaken := idup_spec h hk.1
      rw [hk.2] at htaken
      exact .ok htaken
  | none =>
      have hnone : ∀ j, 0 < (s.slot j).ref → (s.slot j).inum ≠ i := fun j hj heq =>
        absurd (decide_eq_true (And.intro hj heq))
          (List.find?_eq_none.mp hfind j (List.mem_finRange j))
      dsimp only
      cases hempty : (List.finRange NINODE).find? fun k => (s.slot k).ref = 0 with
      | none =>
          refine .error ⟨rfl, fun j hj => ?_⟩
          exact absurd (decide_eq_true hj) (List.find?_eq_none.mp hempty j (List.mem_finRange j))
      | some k =>
          have hk : (s.slot k).ref = 0 := by simpa using List.find?_some hempty
          refine .ok ⟨rfl, ?_, ?_, Unique.setSlot h fun _ j _ hj => hnone j hj, fun j => ?_,
            fun j hj => ?_⟩
          · rw [slot_setSlot_self]
          · rw [slot_setSlot_self]
            exact Nat.one_pos
          · have hrefs := refs_setSlot (s := s) (k := k) (i := j) (x := ⟨i, 1, false⟩)
            rw [hk, ite_self, Nat.add_zero] at hrefs
            rw [hrefs]
            exact congrArg (s.refs j + ·) (if_congr eq_comm rfl rfl)
          · have hjk : j ≠ k := by
              rintro rfl
              omega
            rw [slot_setSlot_of_ne hjk]
            exact ⟨rfl, hj, rfl⟩

/-- A reference is given back, and the inode stays. -/
structure Dropped (s : State) (k : Fin NINODE) (t : State) : Prop where
  inode : t.inode = s.inode
  unique : t.Unique
  refs : ∀ j, t.refs j + (if j = (s.slot k).inum then 1 else 0) = s.refs j
  inum : ∀ j, (t.slot j).inum = (s.slot j).inum
  kept : ∀ j, j ≠ k ∨ 1 < (s.slot k).ref → 0 < (s.slot j).ref → 0 < (t.slot j).ref

theorem iput_spec (h : s.Unique) (hk : 0 < (s.slot k).ref)
    (hstays : (s.ip k).nlink ≠ 0 ∨ (s.slot k).ref ≠ 1) : Dropped s k (s.iput k) := by
  have hnot : ¬ ((s.slot k).valid ∧ (s.ip k).nlink = 0 ∧ (s.slot k).ref = 1) := by
    rintro ⟨-, hzero, hone⟩
    exact hstays.elim (fun h => h hzero) fun h => h hone
  rw [State.iput, if_neg hnot]
  refine ⟨rfl, Unique.setSlot h fun _ j hj hpos heq => hj (h j k hpos hk heq), fun j => ?_,
    fun j => ?_,
    fun j hj hpos => ?_⟩
  · have hrefs := refs_setSlot (s := s) (k := k) (i := j)
      (x := (s.slot k).setRef ((s.slot k).ref - 1))
    change _ = _ + if (s.slot k).inum = j then (s.slot k).ref - 1 else 0 at hrefs
    by_cases hj : (s.slot k).inum = j
    · rw [if_pos hj, if_pos hj] at hrefs
      rw [if_pos hj.symm]
      omega
    · rw [if_neg hj, if_neg hj] at hrefs
      rw [if_neg fun h => hj h.symm]
      omega
  · by_cases hjk : j = k
    · rw [hjk, slot_setSlot_self]
      rfl
    · rw [slot_setSlot_of_ne hjk]
  · by_cases hjk : j = k
    · rw [hjk, slot_setSlot_self]
      have hlt := hj.resolve_left fun h => h hjk
      exact Nat.sub_pos_of_lt hlt
    · rw [slot_setSlot_of_ne hjk]
      exact hpos

theorem Holds.ilock (h : Holds s₀ s k) : ∃ t, s.ilock k = .ok t ∧ Holds s₀ t k ∧
    (t.slot k).inum = (s.slot k).inum := by
  have hip : s.ip k = s₀.inode (s.slot k).inum := congrFun h.inode _
  have htype : (s.ip k).type ≠ 0 := hip ▸ h.type
  rw [State.ilock, if_neg (not_lt.mpr h.ref)]
  split_ifs with hvalid
  · exact ⟨s, rfl, h, rfl⟩
  · have hself : ((s.setSlot k ⟨(s.slot k).inum, (s.slot k).ref, true⟩).slot k) =
        ⟨(s.slot k).inum, (s.slot k).ref, true⟩ := slot_setSlot_self
    refine ⟨s.setSlot k ⟨(s.slot k).inum, (s.slot k).ref, true⟩, rfl, ⟨h.inode, fun i => ?_, ?_,
      Unique.setSlot h.unique fun _ j hj hpos heq => hj (h.unique j k hpos h.ref heq), ?_, ?_⟩, ?_⟩
    · have hrefs := refs_setSlot (s := s) (k := k) (i := i)
        (x := ⟨(s.slot k).inum, (s.slot k).ref, true⟩)
      rw [hself, ← h.refs]
      exact Nat.add_right_cancel hrefs
    · rw [hself]
      exact h.ref
    · rw [hself]
      exact h.type
    · rw [hself]
      exact h.linked
    · rw [hself]

theorem Holds.refs_self (h : Holds s₀ s k) : (s.slot k).ref = s₀.refs (s.slot k).inum + 1 := by
  rw [← refs_eq h.unique h.ref, h.refs, if_pos rfl]

theorem Holds.iput (h : Holds s₀ s k) : (s.iput k).inode = s₀.inode ∧
    ∀ i, (s.iput k).refs i = s₀.refs i := by
  have hip : s.ip k = s₀.inode (s.slot k).inum := congrFun h.inode _
  have hself := h.refs_self
  have hdrop :=
    iput_spec h.unique h.ref (h.linked.imp (fun hl => by rwa [hip]) fun hpos => by omega)
  refine ⟨hdrop.inode.trans h.inode, fun i => ?_⟩
  have hrefs := hdrop.refs i
  rw [h.refs] at hrefs
  exact Nat.add_right_cancel hrefs

theorem Holds.advance (h : Holds s₀ s k) (ht : Taken s i j t)
    (htype : (s₀.inode i).type ≠ 0) (hlinked : (s₀.inode i).nlink ≠ 0 ∨ 0 < s₀.refs i) :
    Holds s₀ (t.iput k) j ∧ ((t.iput k).slot j).inum = i := by
  have hk := ht.kept k h.ref
  have hip : t.ip k = s₀.inode (s.slot k).inum := by
    rw [State.ip, hk.1, ht.inode, h.inode]
  have hself := refs_eq ht.unique hk.2.1
  rw [hk.1, ht.refs, h.refs, if_pos rfl] at hself
  have hdrop :=
    iput_spec ht.unique hk.2.1 (h.linked.imp (fun hl => by rwa [hip]) fun hpos => by omega)
  have hinum : ((t.iput k).slot j).inum = i := (hdrop.inum j).trans ht.inum
  refine ⟨⟨(hdrop.inode.trans ht.inode).trans h.inode, fun l => ?_, hdrop.kept j ?_ ht.ref,
    hdrop.unique, hinum ▸ htype, hinum ▸ hlinked⟩, hinum⟩
  · have hrefs := hdrop.refs l
    rw [ht.refs, h.refs, hk.1] at hrefs
    rw [hinum]
    split_ifs at hrefs ⊢
    · omega
    · omega
    · omega
    · omega
  · by_cases hjk : j = k
    · right
      have heq : (s.slot k).inum = i := by rw [← hk.1, ← hjk, ht.inum]
      rw [if_pos heq] at hself
      omega
    · exact .inl hjk

theorem Holds.exists_free (h : Holds s₀ s k) (hfree : s₀.TwoFree) : ∃ j, (s.slot j).ref = 0 := by
  by_contra hnone
  have hused : ∀ j, 0 < (s.slot j).ref := fun j => Nat.pos_of_ne_zero fun hj => hnone ⟨j, hj⟩
  obtain ⟨a, b, hab, ha, hb⟩ := hfree
  have hold : ∀ j, j ≠ k → ∃ l, 0 < (s₀.slot l).ref ∧ (s₀.slot l).inum = (s.slot j).inum := by
    intro j hj
    apply exists_of_refs_pos
    have hne : (s.slot j).inum ≠ (s.slot k).inum := fun heq => hj (h.unique j k (hused j) h.ref heq)
    have hrefs := h.refs (s.slot j).inum
    rw [if_neg hne, Nat.add_zero, refs_eq h.unique (hused j)] at hrefs
    rw [← hrefs]
    exact hused j
  choose! place hplace using hold
  have hmaps : ∀ j ∈ Finset.univ.erase k, place j ∈ (Finset.univ.erase a).erase b := by
    intro j hj
    have hp := hplace j (Finset.ne_of_mem_erase hj)
    refine Finset.mem_erase.mpr
      ⟨fun heq => ?_, Finset.mem_erase.mpr ⟨fun heq => ?_, Finset.mem_univ _⟩⟩
    · rw [heq, hb] at hp
      exact absurd hp.1 (lt_irrefl 0)
    · rw [heq, ha] at hp
      exact absurd hp.1 (lt_irrefl 0)
  have hinj : Set.InjOn place (Finset.univ.erase k : Finset (Fin NINODE)) := by
    intro x hx y hy hxy
    have hpx := hplace x (Finset.ne_of_mem_erase hx)
    have hpy := hplace y (Finset.ne_of_mem_erase hy)
    exact h.unique x y (hused x) (hused y) (by rw [← hpx.2, hxy, hpy.2])
  have hcard := Finset.card_le_card_of_injOn place hmaps hinj
  rw [Finset.card_erase_of_mem (Finset.mem_univ k),
    Finset.card_erase_of_mem (Finset.mem_erase.mpr ⟨hab.symm, Finset.mem_univ b⟩),
    Finset.card_erase_of_mem (Finset.mem_univ a), Finset.card_univ, Fintype.card_fin] at hcard
  exact absurd hcard (by decide)

end Steps

/-- What the walk from `d` is to return: an inode, and for `nameiparent` the last element. -/
def target (parent : Bool) (inode : ℕ → Inode) (d : ℕ) (es : List Bytes) : Option (ℕ × Bytes) :=
  if parent then followParent inode d es else (follow inode d es).map (·, [])

/-- The inode that is returned. -/
def found (r : State.Result) : Option ℕ := r.1.map fun k => (r.2.2.slot k).inum

/-- A call that began in `s₀` has ended: the tree is the same, and the references are but for the
one that it returns. -/
structure Finished (s₀ : State) (parent : Bool) (answer : Option (ℕ × Bytes))
    (r : State.Result) : Prop where
  inode : r.2.2.inode = s₀.inode
  answer : (found r).map (·, if parent then cString r.2.1 else []) = answer
  refs : ∀ i, r.2.2.refs i = s₀.refs i + if found r = some i then 1 else 0
  held : ∀ k, r.1 = some k → Holds s₀ r.2.2 k
  length : parent = true → ∀ k, r.1 = some k → r.2.1.length = DIRSIZ

theorem Finished.of_none {s₀ t : State} {parent : Bool} {name : Bytes} (hinode : t.inode = s₀.inode)
    (hrefs : ∀ i, t.refs i = s₀.refs i) : Finished s₀ parent none (none, name, t) := by
  refine ⟨hinode, rfl, fun i => ?_, fun k hk => (by cases hk), fun _ k hk => (by cases hk)⟩
  have hnone : ¬ found (none, name, t) = some i := fun h => by cases h
  rw [if_neg hnone, Nat.add_zero]
  exact hrefs i

theorem Finished.of_holds {s₀ t : State} {k : Fin NINODE} {parent : Bool} {name : Bytes}
    (h : Holds s₀ t k) (hname : parent = true → name.length = DIRSIZ) : Finished s₀ parent
      (some ((t.slot k).inum, if parent then cString name else [])) (some k, name, t) := by
  have hfound : found (some k, name, t) = some (t.slot k).inum := rfl
  refine ⟨h.inode, rfl, fun i => ?_, fun j hj => Option.some_inj.mp hj ▸ h, fun hp _ _ => hname hp⟩
  refine (h.refs i).trans (congrArg (s₀.refs i + ·) (if_congr ?_ rfl rfl))
  rw [hfound, Option.some_inj, eq_comm]

section Walk

variable {s s₀ t : State} {cwd k : Fin NINODE} {parent : Bool} {inode : ℕ → Inode} {d : ℕ}
  {e : Bytes}
  {es : List Bytes} {name str rest : Bytes}

theorem target_cons (h : ¬ (parent = true ∧ es = [])) : target parent inode d (e :: es) =
    (child inode d e).bind fun d' => target parent inode d' es := by
  cases parent with
  | false =>
      change (follow inode d (e :: es)).map _ = _
      rw [follow_cons, Option.map_bind]
      rfl
  | true =>
      obtain ⟨e', es, rfl⟩ := List.exists_cons_of_ne_nil fun hnil => h ⟨rfl, hnil⟩
      exact followParent_cons

theorem findEntry_eq {key : Bytes} (hname : name.length = DIRSIZ) (hkey : cString name = key)
    (des : List Dirent) : State.findEntry name des =
      (des.find? fun de => de.inum ≠ 0 ∧ cString de.name = key).map Dirent.inum := by
  induction des with
  | nil => rfl
  | cons de des ih =>
      have hcmp : namecmp name de.name = some 0 ↔ cString de.name = key := by
        rw [namecmp, strncmp_eq_zero_iff (.inl hname.ge) (.inl de.length.ge),
          List.take_of_length_le hname.le, List.take_of_length_le de.length.le, hkey, eq_comm]
      rw [State.findEntry, List.find?_cons]
      by_cases hzero : de.inum = 0
      · rw [if_pos hzero, decide_eq_false fun h => h.1 hzero, ih]
      · rw [if_neg hzero]
        by_cases heq : cString de.name = key
        · rw [if_pos (hcmp.mpr heq), decide_eq_true (And.intro hzero heq)]
          rfl
        · rw [if_neg (mt hcmp.mp heq), decide_eq_false fun h => heq h.2, ih]

theorem Holds.dirlookup (hready : Ready s₀ cwd) (h : Holds s₀ s k)
    (hdir : (s₀.inode (s.slot k).inum).type = T_DIR) (hname : name.length = DIRSIZ)
    (hkey : cString name = e.take DIRSIZ) :
    Ends (fun p => p = .noSlot ∧ ¬ s₀.TwoFree) (s.dirlookup k name) fun r =>
      (r = (none, s) ∧ child s₀.inode (s.slot k).inum e = none) ∨
      ∃ i j t, r = (some j, t) ∧ Taken s i j t ∧ child s₀.inode (s.slot k).inum e = some i ∧
        (s₀.inode i).type ≠ 0 ∧ ((s₀.inode i).nlink ≠ 0 ∨ 0 < s₀.refs i) := by
  have hip : s.ip k = s₀.inode (s.slot k).inum := congrFun h.inode _
  have hchild : child s₀.inode (s.slot k).inum e =
      State.findEntry name (s₀.inode (s.slot k).inum).entries := by
    rw [child, if_pos hdir, findEntry_eq hname hkey]
  rw [State.dirlookup, hip, if_neg (not_not.mpr hdir), hchild]
  cases hfind : State.findEntry name (s₀.inode (s.slot k).inum).entries with
  | none => exact .ok (.inl ⟨rfl, rfl⟩)
  | some inum =>
      have hentry : (s₀.inode inum).type ≠ 0 ∧ ((s₀.inode inum).nlink ≠ 0 ∨ 0 < s₀.refs inum) := by
        rw [findEntry_eq hname hkey] at hfind
        obtain ⟨de, hde, rfl⟩ := Option.map_eq_some_iff.mp hfind
        have hlive : de.inum ≠ 0 ∧ cString de.name = e.take DIRSIZ := by
          simpa using List.find?_some hde
        exact hready.entries _ hdir de (List.mem_of_find?_eq_some hde) hlive.1
      dsimp only
      cases hget : s.iget inum with
      | error p =>
          have hfull := (iget_spec h.unique inum).of_error hget
          refine .error ⟨hfull.1, fun hfree => ?_⟩
          obtain ⟨j, hj⟩ := h.exists_free hfree
          exact hfull.2 j hj
      | ok r =>
          obtain ⟨j, t⟩ := r
          have htaken : Taken s inum j t := (iget_spec h.unique inum).of_ok hget
          exact .ok (.inr ⟨inum, j, t, rfl, htaken, rfl, hentry⟩)

/-- The inode in hand and the rest of the path, or the result. -/
def StepPost (s₀ : State) (parent : Bool) (d : ℕ) (e : Bytes) (es : List Bytes) :
    State.Result ⊕ (Fin NINODE × State) → Prop
  | .inl r => Finished s₀ parent (target parent s₀.inode d (e :: es)) r
  | .inr (k, s) => Holds s₀ s k ∧ child s₀.inode d e = some (s.slot k).inum ∧
      ¬ (parent = true ∧ es = [])

theorem namexStep_spec (hready : Ready s₀ cwd) (h : Holds s₀ s k) (hname : name.length = DIRSIZ)
    (hkey : cString name = e.take DIRSIZ) (hnil : str = [] ↔ es = []) (hnul : ∀ c ∈ str, c ≠ 0) :
    Ends (fun p => p = .noSlot ∧ ¬ s₀.TwoFree) (s.namexStep parent k (str ++ 0 :: rest) name)
      (StepPost s₀ parent (s.slot k).inum e es) := by
  have hhead : (str ++ 0 :: rest).head? = some 0 ↔ es = [] := by
    rw [← hnil]
    cases str with
    | nil => exact iff_of_true rfl rfl
    | cons c str =>
        refine iff_of_false (fun h => ?_) (List.cons_ne_nil c str)
        rw [List.cons_append, List.head?_cons, Option.some_inj] at h
        exact hnul c List.mem_cons_self h
  obtain ⟨t, hlock, ht, hinum⟩ := h.ilock
  have hip : t.ip k = s₀.inode (s.slot k).inum := by rw [State.ip, ht.inode, hinum]
  have hput := ht.iput
  rw [State.namexStep, hlock, ok_bind, hip]
  by_cases hdir : (s₀.inode (s.slot k).inum).type = T_DIR
  · rw [if_neg (not_not.mpr hdir)]
    by_cases hlast : parent = true ∧ es = []
    · obtain ⟨rfl, rfl⟩ := hlast
      rw [if_pos ⟨rfl, hhead.mpr rfl⟩]
      have htarget : target true s₀.inode (s.slot k).inum [e] =
          some ((t.slot k).inum, cString name) := by
        rw [hinum, hkey]
        exact followParent_single.trans (if_pos hdir)
      apply Ends.ok
      rw [StepPost, htarget]
      exact .of_holds ht fun _ => hname
    · rw [if_neg fun h => hlast ⟨h.1, hhead.mp h.2⟩]
      apply (ht.dirlookup hready (hinum.symm ▸ hdir) hname hkey).bind
      rw [hinum]
      rintro r (⟨rfl, hchild⟩ | ⟨i, j, u, rfl, htaken, hchild, htype, hlinked⟩)
      · apply Ends.ok
        rw [StepPost, target_cons hlast, hchild, Option.bind_none]
        exact .of_none hput.1 hput.2
      · obtain ⟨hnext, hinum'⟩ := ht.advance htaken htype hlinked
        refine .ok ⟨hnext, ?_, hlast⟩
        rw [hchild, hinum']
  · rw [if_pos hdir]
    have hchild : child s₀.inode (s.slot k).inum e = none := if_neg hdir
    have htarget : target parent s₀.inode (s.slot k).inum (e :: es) = none := by
      by_cases hlast : parent = true ∧ es = []
      · obtain ⟨rfl, rfl⟩ := hlast
        exact followParent_single.trans (if_neg hdir)
      · rw [target_cons hlast, hchild, Option.bind_none]
    apply Ends.ok
    rw [StepPost, htarget]
    exact .of_none hput.1 hput.2

theorem namexLoop_none (hskip : skipelem str name = some (none, name)) :
    s.namexLoop parent k str name = .ok (if parent then (none, name, s.iput k)
      else (some k, name, s)) := by
  rw [State.namexLoop]
  split
  · next h =>
      rw [hskip] at h
      cases h
  · next h =>
      rw [hskip] at h
      cases h
      rfl
  · next h =>
      rw [hskip] at h
      cases h

theorem namexLoop_some {path' name' : Bytes}
    (hskip : skipelem str name = some (some path', name')) :
    s.namexLoop parent k str name = (s.namexStep parent k path' name' >>= fun
      | .inl r => .ok r
      | .inr (next, s) => s.namexLoop parent next path' name') := by
  rw [State.namexLoop]
  split
  · next h =>
      rw [hskip] at h
      cases h
  · next h =>
      rw [hskip] at h
      cases h
  · next h =>
      rw [hskip] at h
      cases h
      rfl

theorem namexLoop_spec (parent : Bool) (rest : Bytes) (hready : Ready s₀ cwd) (es : List Bytes) :
    ∀ {s : State} {k : Fin NINODE} {str name : Bytes}, Holds s₀ s k → (∀ c ∈ str, c ≠ 0) →
      elems str = es → name.length = DIRSIZ →
      Ends (fun p => p = .noSlot ∧ ¬ s₀.TwoFree) (s.namexLoop parent k (str ++ 0 :: rest) name)
        (Finished s₀ parent (target parent s₀.inode (s.slot k).inum es)) := by
  induction es with
  | nil =>
      intro s k str name h hnul helems hname
      rw [namexLoop_none (skipelem_none hnul helems)]
      cases parent with
      | false => exact .ok (.of_holds h fun hp => by cases hp)
      | true => exact .ok (.of_none h.iput.1 h.iput.2)
  | cons e es ih =>
      intro s k str name h hnul helems hname
      obtain ⟨str', name', hskip, helems', hnil, hnul', hname', hkey⟩ :=
        skipelem_some rest hnul helems hname
      rw [namexLoop_some hskip]
      apply (namexStep_spec hready h hname' hkey hnil hnul').bind
      rintro (r | ⟨j, t⟩) hpost
      · exact .ok hpost
      · obtain ⟨ht, hchild, hmore⟩ := hpost
        rw [target_cons hmore, hchild, Option.bind_some]
        exact ih ht hnul' helems' hname'

/-- Where a path begins. -/
def start (s : State) (cwd : Fin NINODE) (str : Bytes) : ℕ :=
  if str.head? = some slash then ROOTINO else (s.slot cwd).inum

theorem namex_spec (parent : Bool) (rest : Bytes) (hready : Ready s cwd)
    (hnul : ∀ c ∈ str, c ≠ 0) (hname : name.length = DIRSIZ) :
    Ends (fun p => p = .noSlot ∧ ¬ s.TwoFree) (s.namex parent cwd (str ++ 0 :: rest) name)
      (Finished s parent (target parent s.inode (start s cwd str) (elems str))) := by
  have hhead : (str ++ 0 :: rest).head? = some 47 ↔ str.head? = some slash := by
    cases str with
    | nil => exact iff_of_false (fun h => by cases h) (fun h => by cases h)
    | cons c str => exact Iff.rfl
  rw [State.namex]
  by_cases habs : str.head? = some slash
  · rw [if_pos (hhead.mpr habs), start, if_pos habs]
    cases hget : s.iget ROOTINO with
    | error p =>
        have hfull := (iget_spec hready.unique ROOTINO).of_error hget
        refine .error ⟨hfull.1, ?_⟩
        rintro ⟨j, -, -, hj, -⟩
        exact hfull.2 j hj
    | ok r =>
        obtain ⟨k, t⟩ := r
        have ht : Taken s ROOTINO k t := (iget_spec hready.unique ROOTINO).of_ok hget
        have hinum := ht.inum
        have hholds : Holds s t k := ⟨ht.inode, fun i => by rw [ht.refs, hinum], ht.ref, ht.unique,
          hinum ▸ hready.root.1, .inl (hinum ▸ hready.root.2)⟩
        have hloop := namexLoop_spec parent rest hready _ hholds hnul rfl hname
        rwa [hinum] at hloop
  · rw [if_neg (mt hhead.mp habs), start, if_neg habs, ok_bind]
    have ht := idup_spec hready.unique hready.cwd_ref
    have hinum := ht.inum
    have hpos : 0 < s.refs (s.slot cwd).inum := by
      rw [refs_eq hready.unique hready.cwd_ref]
      exact hready.cwd_ref
    have hholds : Holds s (s.idup cwd) cwd := ⟨ht.inode, fun i => by rw [ht.refs, hinum], ht.ref,
      ht.unique, hinum ▸ hready.cwd_type, .inr (hinum ▸ hpos)⟩
    have hloop := namexLoop_spec parent rest hready _ hholds hnul rfl hname
    rwa [hinum] at hloop

/-- `namei` and `nameiparent` return what the path leads to, and keep one reference to it and no
other, wherever `iget` finds the slots that it asks for, and it does where two are free. -/
theorem path_lookup (hready : Ready s cwd) (hnul : ∀ c ∈ str, c ≠ 0)
    (hname : name.length = DIRSIZ) :
    (∀ r, s.namei cwd (str ++ 0 :: rest) name = .ok r →
      r.2.2.inode = s.inode ∧ found r = follow s.inode (start s cwd str) (elems str) ∧
      ∀ i, r.2.2.refs i = s.refs i + if found r = some i then 1 else 0) ∧
    (∀ r, s.nameiparent cwd (str ++ 0 :: rest) name = .ok r →
      r.2.2.inode = s.inode ∧
      (found r).map (·, cString r.2.1) = followParent s.inode (start s cwd str) (elems str) ∧
      ∀ i, r.2.2.refs i = s.refs i + if found r = some i then 1 else 0) ∧
    (s.TwoFree → (∃ r, s.namei cwd (str ++ 0 :: rest) name = .ok r) ∧
      ∃ r, s.nameiparent cwd (str ++ 0 :: rest) name = .ok r) := by
  have hspec := fun parent => namex_spec parent rest hready hnul hname
  refine ⟨fun r hr => ?_, fun r hr => ?_, fun hfree => ⟨?_, ?_⟩⟩
  · have hfinished := (hspec false).of_ok hr
    refine ⟨hfinished.inode, ?_, hfinished.refs⟩
    have hanswer : (found r).map _ = (follow s.inode (start s cwd str) (elems str)).map _ :=
      hfinished.answer
    exact Option.map_injective (fun i j h => congrArg Prod.fst h) hanswer
  · have hfinished := (hspec true).of_ok hr
    exact ⟨hfinished.inode, hfinished.answer, hfinished.refs⟩
  · obtain ⟨r, hr, -⟩ := ((hspec false).mono (fun _ h => h.2 hfree) fun _ => id).exists_ok
    exact ⟨r, hr⟩
  · obtain ⟨r, hr, -⟩ := ((hspec true).mono (fun _ h => h.2 hfree) fun _ => id).exists_ok
    exact ⟨r, hr⟩

def entry (inum : ℕ) (c : UInt8) : Dirent := ⟨inum, c :: List.replicate 13 0, rfl⟩

/-- The root directory 1 with the entry `b` for the file 2, and the root as the current directory.
-/
def smallTree : State where
  inode := fun i => if i = 1 then ⟨T_DIR, 1, [entry 1 46, entry 2 98]⟩
    else if i = 2 then ⟨2, 1, []⟩ else ⟨0, 0, []⟩
  slot := fun k => if k.val = 0 then ⟨1, 1, false⟩ else ⟨0, 0, false⟩

theorem smallTree_ready : Ready smallTree ⟨0, by decide⟩ := by
  refine ⟨by rw [State.Unique]; decide,
    ⟨by decide, by decide⟩, by decide, by decide, fun d hd de hde _ => ?_⟩
  by_cases h1 : d = 1
  · subst h1
    rcases List.mem_cons.mp hde with rfl | hde
    · exact ⟨by decide, .inl (by decide)⟩
    · obtain rfl := List.mem_singleton.mp hde
      exact ⟨by decide, .inl (by decide)⟩
  · have hinode : smallTree.inode d = if d = 2 then ⟨2, 1, []⟩ else ⟨0, 0, []⟩ := if_neg h1
    rw [hinode] at hd
    split_ifs at hd
    · exact absurd hd (by decide)
    · exact absurd hd (by decide)

/-- "//./b" and, for the parent, "b/". -/
theorem path_lookup_small_tree :
    (∃ r, smallTree.namei ⟨0, by decide⟩ ([47, 47, 46, 47, 98] ++ 0 :: [])
      (List.replicate 14 0) = .ok r ∧
      found r = some 2) ∧
    ∃ r, smallTree.nameiparent ⟨0, by decide⟩ ([98, 47] ++ 0 :: []) (List.replicate 14 0) = .ok r ∧
      (found r).map (·, cString r.2.1) = some (1, [98]) := by
  have hfree : smallTree.TwoFree := ⟨⟨1, by decide⟩, ⟨2, by decide⟩, by decide, rfl, rfl⟩
  have hpath := @path_lookup _ _ _ [47, 47, 46, 47, 98] [] smallTree_ready (by decide +kernel)
    (List.length_replicate : (List.replicate 14 (0 : UInt8)).length = DIRSIZ)
  have hparent := @path_lookup _ _ _ [98, 47] [] smallTree_ready (by decide +kernel)
    (List.length_replicate : (List.replicate 14 (0 : UInt8)).length = DIRSIZ)
  obtain ⟨r, hr⟩ := (hpath.2.2 hfree).1
  obtain ⟨r', hr'⟩ := (hparent.2.2 hfree).2
  refine ⟨⟨r, hr, ?_⟩, r', hr', ?_⟩
  · rw [(hpath.1 r hr).2.1]
    decide +kernel
  · rw [(hparent.2.1 r' hr').2.1]
    decide +kernel

end Walk

end PathLookup

end Xv6Fairness
