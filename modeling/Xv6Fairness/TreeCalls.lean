import Xv6Fairness.ReleasedInodes

/-!
# What the system calls do to the tree

The inodes that a path can visit stay allocated while it is followed, so that following a path
changes nothing. Every call then leaves the tree alone, or makes an inode, enters a link, empties an
entry, or gives up the references of a process.
-/

namespace Xv6Fairness

open FileBlocks (T_FILE)
open Outcomes

namespace FileTree

variable {ι : Type} [Fintype ι] [DecidableEq ι]

/-- Somebody but a running call keeps the inode allocated. -/
def State.Live (s : State ι) (i : ℕ) : Prop := 0 < (s.inode i).nlink ∨ s.Held i

/-- The inodes that paths visit are in `V`, and those of them that are allocated stay so. -/
structure Visits (s : State ι) (V : ℕ → Prop) : Prop where
  live : ∀ i, V i → (s.inode i).type ≠ 0 → s.Live i
  next : ∀ d, V d → IsDir s.inode d → ∀ e ∈ (s.inode d).entries, e.inum ≠ 0 → V e.inum
  root : V ROOTINO
  cwd : ∀ p cwd, (s.proc p).cwd = some cwd → V cwd

/-- A call panics with "ilock: no type" only where it visits a free inode. -/
def MayFail (s : State ι) (V : ℕ → Prop) (e : Panic) : Prop :=
  e = .noType → ∃ i, V i ∧ (s.inode i).type = 0

namespace State

/-- Inode `i` is made in directory `d`. -/
def make (s : State ι) (d i : ℕ) (name : Name) (type : Int16) : State ι :=
  { s with
    inode := Function.update (Function.update s.inode i (newInode i d type)) d
      ((s.inode d).enter ⟨i, name⟩ (if type = T_DIR then 1 else 0)) }

/-- Directory `d` gets an entry for the file `i`. -/
def linkTo (s : State ι) (d i : ℕ) (name : Name) : State ι :=
  { s with inode := Function.update (s.addLink i 1).inode d ((s.inode d).enter ⟨i, name⟩ 0) }

end State

section Fields

variable {s : State ι} {i j : ℕ} {l : ℤ}

omit [Fintype ι] [DecidableEq ι] in
theorem addLink_type : ((s.addLink i l).inode j).type = (s.inode j).type := by
  by_cases hj : j = i
  · rw [hj, State.addLink, setInode_self]
  · rw [State.addLink, setInode_of_ne hj]

omit [Fintype ι] [DecidableEq ι] in
theorem addLink_entries : ((s.addLink i l).inode j).entries = (s.inode j).entries := by
  by_cases hj : j = i
  · rw [hj, State.addLink, setInode_self]
  · rw [State.addLink, setInode_of_ne hj]

omit [Fintype ι] [DecidableEq ι] in
theorem addLink_zero : s.addLink i 0 = s := by
  have hsame : ({ s.inode i with nlink := (s.inode i).nlink + 0 } : Inode) = s.inode i := by
    rw [add_zero]
  rw [State.addLink, hsame, State.setInode, Function.update_eq_self]

end Fields

/-- What a call does. -/
inductive Effect (ninodes : ℕ) (V : ℕ → Prop) (s : State ι) : Call ι → State ι → Prop
  | same {c : Call ι} : Effect ninodes V s c s
  | make {c : Call ι} {d i : ℕ} {name : Name} {type : Int16} (hd : IsDir s.inode d)
      (hi : (s.inode i).type = 0) (hin : 0 < i ∧ i < ninodes) (htype : type ≠ 0)
      (hname : findEntry (s.inode d).entries name = none) :
      Effect ninodes V s c (s.make d i name type)
  | makeOpen {c : Call ι} {d i : ℕ} {name : Name} {type : Int16} {p : ι} {fd : Fin NOFILE}
      (hd : IsDir s.inode d) (hi : (s.inode i).type = 0) (hin : 0 < i ∧ i < ninodes)
      (htype : type ≠ 0)
      (hname : findEntry (s.inode d).entries name = none) (hfd : (s.proc p).ofile fd = none) :
      Effect ninodes V s c ((s.make d i name type).setFile p fd (some i))
  | openFile {c : Call ι} {i : ℕ} {p : ι} {fd : Fin NOFILE} (hi : (s.inode i).type ≠ 0)
      (hfd : (s.proc p).ofile fd = none) : Effect ninodes V s c (s.setFile p fd (some i))
  | link {c : Call ι} {d i : ℕ} {name : Name} (hd : IsDir s.inode d) (hi : (s.inode i).type ≠ 0)
      (hfile : ¬ IsDir s.inode i) (hname : findEntry (s.inode d).entries name = none) :
      Effect ninodes V s c (s.linkTo d i name)
  | unlink {p : ι} {path : Path} {cwd d i k : ℕ} {name : Name} (hcwd : (s.proc p).cwd = some cwd)
      (hpath : s.nameiparent cwd path [] = .ok (some (d, name), s)) (hd : IsDir s.inode d)
      (hV : V d)
      (hname : name ≠ dot ∧ name ≠ dotdot)
      (hfind : findEntry (s.inode d).entries name = some (k, i))
      (hid : i ≠ d) (hi : (s.inode i).type ≠ 0) (hlink : 1 ≤ (s.inode i).nlink)
      (hempty : IsDir s.inode i → isdirempty (s.inode i) = true) :
      Effect ninodes V s (.unlink p path) ((s.unenter d i k).release [d, i])
  | chdir {p : ι} {path : Path} {cwd i : ℕ} {name : Name} (hcwd : (s.proc p).cwd = some cwd)
      (hpath : s.namei cwd path [] = .ok (some (i, name), s)) (hd : IsDir s.inode i) (hV : V i) :
      Effect ninodes V s (.chdir p path) ((s.setCwd p (some i)).release [cwd])
  | close {p : ι} {fd : Fin NOFILE} {i : ℕ} (hfd : (s.proc p).ofile fd = some i) :
      Effect ninodes V s (.close p fd) ((s.setFile p fd none).release [i])
  | exit {p : ι} {cwd : ℕ} (hcwd : (s.proc p).cwd = some cwd) :
      Effect ninodes V s (.exit p) ((s.setProc p .gone).release (s.proc p).refs)

section Paths

variable {s t : State ι} {V : ℕ → Prop} {i d ip cwd : ℕ} {others : List ℕ} {name : Name}
  {parent : Bool}

omit [DecidableEq ι] in
theorem iput_of_live (h : s.Live i ∨ i ∈ others) : s.iput i others = s := by
  apply if_neg
  rintro ⟨hlink, hheld, hothers⟩
  rcases h with (h | h) | h
  · exact h.ne' hlink
  · exact hheld h
  · exact hothers h

omit [Fintype ι] [DecidableEq ι] in
theorem ilock_spec (hi : V i) : Ends (MayFail s V) (s.ilock i) fun _ => (s.inode i).type ≠ 0 := by
  rw [State.ilock]
  apply Ends.ite
  · exact fun h => .error fun _ => ⟨i, hi, h⟩
  · exact fun h => .ok h

theorem dirlookup_of_dir {x : Inode} (hx : x.type = T_DIR) :
    dirlookup x name = .ok (findEntry x.entries name) :=
  if_neg (not_not.mpr hx)

omit [DecidableEq ι] in
theorem namex_spec (hlive : ∀ i, V i → (s.inode i).type ≠ 0 → s.Live i ∨ i ∈ others)
    (hnext : ∀ d, V d → IsDir s.inode d → ∀ e ∈ (s.inode d).entries, e.inum ≠ 0 → V e.inum)
    (path : List Name) (hip : V ip) (hstart : parent = true → path = [] → s.Live ip ∨ ip ∈ others) :
    Ends (MayFail s V) (State.namex parent others s name ip path) fun r =>
      r.2 = s ∧ ∀ d nm, r.1 = some (d, nm) → V d ∧ (parent = true → IsDir s.inode d) := by
  induction path generalizing name ip with
  | nil =>
      rw [State.namex]
      cases parent with
      | true =>
          apply Ends.ok
          refine ⟨iput_of_live (hstart rfl rfl), fun d nm h => ?_⟩
          cases h
      | false =>
          apply Ends.ok
          refine ⟨rfl, fun d nm h => ?_⟩
          cases h
          exact ⟨hip, fun h => absurd h Bool.false_ne_true⟩
  | cons elem path ih =>
      rw [State.namex]
      apply (ilock_spec hip).bind
      intro _ htype
      have hsame : ∀ others', others ⊆ others' → s.iput ip others' = s := fun others' hsub =>
        iput_of_live ((hlive ip hip htype).imp_right fun h => hsub h)
      apply Ends.ite
      · intro _
        exact .ok ⟨hsame others (List.Subset.refl _), fun d nm h => by cases h⟩
      · intro hdir
        have hdir := not_not.mp hdir
        apply Ends.ite
        · rintro ⟨hparent, rfl⟩
          apply Ends.ok
          refine ⟨rfl, fun d nm h => ?_⟩
          cases h
          exact ⟨hip, fun _ => hdir⟩
        · intro hmore
          rw [dirlookup_of_dir hdir, ok_bind]
          cases hfind : findEntry (s.inode ip).entries elem with
          | none =>
              exact .ok ⟨hsame others (List.Subset.refl _), fun d nm h => by cases h⟩
          | some r =>
              obtain ⟨k, next⟩ := r
              obtain ⟨hmem, hne⟩ := findEntry_mem hfind
              dsimp only
              rw [hsame (next :: others) (List.subset_cons_self _ _)]
              apply ih (hnext ip hip hdir _ hmem hne)
              exact fun hparent hpath => absurd ⟨hparent, hpath⟩ hmore

omit [Fintype ι] [DecidableEq ι] in
theorem held_cwd {p : ι} (hcwd : (s.proc p).cwd = some cwd) : s.Held cwd := ⟨p, .inl hcwd⟩

omit [Fintype ι] [DecidableEq ι] in
theorem Visits.start (hv : Visits s V) {p : ι} (hcwd : (s.proc p).cwd = some cwd) (path : Path) :
    V (State.start cwd path) := by
  rw [State.start]
  split_ifs
  · exact hv.root
  · exact hv.cwd p cwd hcwd

omit [Fintype ι] [DecidableEq ι] in
theorem Visits.start_live (hv : Visits s V) (hroot : IsDir s.inode ROOTINO) {p : ι}
    (hcwd : (s.proc p).cwd = some cwd) (path : Path) : s.Live (State.start cwd path) := by
  rw [State.start]
  split_ifs
  · exact hv.live _ hv.root hroot.ne_zero
  · exact .inr (held_cwd hcwd)

omit [DecidableEq ι] in
theorem namei_spec (hv : Visits s V) (hroot : IsDir s.inode ROOTINO) {p : ι}
    (hcwd : (s.proc p).cwd = some cwd) (path : Path) :
    Ends (MayFail s V) (s.namei cwd path []) fun r => r.2 = s ∧ ∀ i nm, r.1 = some (i, nm) →
    V i := by
  have hspec : Ends (MayFail s V) (State.namex false [] s [] (State.start cwd path) path.elems) _ :=
    namex_spec (fun i hi htype => .inl (hv.live i hi htype)) hv.next path.elems (hv.start hcwd path)
      fun _ _ => .inl (hv.start_live hroot hcwd path)
  exact Ends.imp hspec fun r hr => ⟨hr.1, fun i nm h => (hr.2 i nm h).1⟩

omit [DecidableEq ι] in
theorem nameiparent_spec (hv : Visits s V) (hroot : IsDir s.inode ROOTINO) {p : ι}
    (hcwd : (s.proc p).cwd = some cwd) (path : Path) (others : List ℕ) :
    Ends (MayFail s V) (s.nameiparent cwd path others) fun r =>
      r.2 = s ∧ ∀ d nm, r.1 = some (d, nm) → V d ∧ IsDir s.inode d := by
  have hspec : Ends (MayFail s V)
      (State.namex true others s [] (State.start cwd path) path.elems) _ :=
    namex_spec (fun i hi htype => .inl (hv.live i hi htype)) hv.next path.elems (hv.start hcwd path)
      fun _ _ => .inl (hv.start_live hroot hcwd path)
  exact Ends.imp hspec fun r hr => ⟨hr.1, fun d nm h => ⟨(hr.2 d nm h).1, (hr.2 d nm h).2 rfl⟩⟩

end Paths

section Create

variable {s t : State ι} {V : ℕ → Prop} {n i d cwd : ℕ} {name : Name} {type : Int16}

omit [Fintype ι] [DecidableEq ι] in
theorem dirlink_new (hd : IsDir s.inode d) (hname : findEntry (s.inode d).entries name = none) :
    s.dirlink d name i = if MAXFILE * BSIZE ≤ 16 * freePlace (s.inode d).entries then
    .error .dirlink
      else .ok (some (s.setInode d
        { s.inode d with entries := putEntry (s.inode d).entries ⟨i, name⟩ })) := by
  rw [State.dirlink, dirlookup_of_dir hd, hname]
  rfl

omit [Fintype ι] [DecidableEq ι] in
theorem createDots_eq (hid : i ≠ d) (hi : i ≠ 0) (hs : s.inode i = ⟨T_DIR, 1, []⟩) :
    s.createDots i d T_DIR = .ok ((s.addLink d 1).setInode i (newInode i d T_DIR)) := by
  have hfirst : (s.addLink d 1).inode i = ⟨T_DIR, 1, []⟩ := by
    rw [State.addLink, setInode_of_ne hid, hs]
  have hdot : (s.addLink d 1).dirlink i dot i =
      .ok (some ((s.addLink d 1).setInode i ⟨T_DIR, 1, [⟨i, dot⟩]⟩)) := by
    have hdir : IsDir (s.addLink d 1).inode i := by rw [IsDir, hfirst]
    rw [dirlink_new hdir (by rw [hfirst]; rfl), hfirst]
    exact if_neg (by decide)
  have hsecond : ((s.addLink d 1).setInode i ⟨T_DIR, 1, [⟨i, dot⟩]⟩).inode i =
      ⟨T_DIR, 1, [⟨i, dot⟩]⟩ := setInode_self
  have hnone : findEntry [⟨i, dot⟩] dotdot = none := by
    have hne : ¬ (i ≠ 0 ∧ dot = dotdot) := fun h => absurd h.2 (by decide)
    rw [findEntry, if_neg hne]
    rfl
  have hplace : freePlace [⟨i, dot⟩] ≤ 1 := (List.takeWhile_sublist _).length_le
  have hdotdot : ((s.addLink d 1).setInode i ⟨T_DIR, 1, [⟨i, dot⟩]⟩).dirlink i dotdot d =
      .ok (some ((s.addLink d 1).setInode i (newInode i d T_DIR))) := by
    have hdir : IsDir ((s.addLink d 1).setInode i ⟨T_DIR, 1, [⟨i, dot⟩]⟩).inode i := by
      rw [IsDir, hsecond]
    have hsize : ¬ MAXFILE * BSIZE ≤ 16 * freePlace [⟨i, dot⟩] := by
      change ¬ 140 * 512 ≤ _
      omega
    rw [dirlink_new hdir (by rw [hsecond]; exact hnone), hsecond, if_neg hsize, setInode_idem,
      putEntry,
      if_neg hi]
    rfl
  rw [State.createDots, if_pos rfl, hdot, ok_bind]
  dsimp only
  rw [hdotdot]
  rfl

omit [Fintype ι] [DecidableEq ι] in
theorem ialloc_spec :
    Ends (· = .noInodes) (s.ialloc n) fun i => (s.inode i).type = 0 ∧ 0 < i ∧ i < n := by
  rw [State.ialloc]
  cases hfind : (List.range n).find? fun i => 1 ≤ i ∧ (s.inode i).type = 0 with
  | none => exact .error rfl
  | some i =>
      have hmem := List.mem_range.mp (List.mem_of_find?_eq_some hfind)
      have hi := List.find?_some hfind
      rw [decide_eq_true_iff] at hi
      exact .ok ⟨hi.2, hi.1, hmem⟩

omit [Fintype ι] [DecidableEq ι] in
theorem make_dir : (s.make d i name type).inode d =
    (s.inode d).enter ⟨i, name⟩ (if type = T_DIR then 1 else 0) :=
  Function.update_self _ _ _

omit [Fintype ι] [DecidableEq ι] in
theorem make_new (hid : i ≠ d) : (s.make d i name type).inode i = newInode i d type :=
  (Function.update_of_ne hid _ _).trans (Function.update_self _ _ _)

omit [DecidableEq ι] in
theorem createNew_spec (hd : IsDir s.inode d) (hname : findEntry (s.inode d).entries name = none)
    (hlive : s.Live d) :
    Ends (MayFail s V) (s.createNew d n name type) fun r => ∃ i,
      r = (some i, s.make d i name type) ∧ (s.inode i).type = 0 ∧ 0 < i ∧ i < n := by
  rw [State.createNew]
  refine Ends.bind (ialloc_spec.mono (fun e he h => by rw [he] at h; cases h) fun _ => id) ?_
  rintro i ⟨hi, hpos, hin⟩
  have hid : i ≠ d := by
    rintro rfl
    exact hd.ne_zero hi
  let l : ℤ := if type = T_DIR then 1 else 0
  have hmade : (s.setInode i ⟨type, 1, []⟩).createDots i d type =
      .ok ((s.addLink d l).setInode i (newInode i d type)) := by
    by_cases htype : type = T_DIR
    · have hl : l = 1 := if_pos htype
      have hadd : (s.setInode i ⟨type, 1, []⟩).addLink d 1 = (s.addLink d 1).setInode i
          ⟨type, 1, []⟩ := by
        rw [State.addLink, setInode_of_ne hid.symm, setInode_comm hid.symm]
        rfl
      subst htype
      rw [createDots_eq hid hpos.ne' setInode_self, hadd, setInode_idem, hl]
    · have hl : l = 0 := if_neg htype
      have hnew : newInode i d type = ⟨type, 1, []⟩ := by rw [newInode, if_neg htype]
      rw [State.createDots, if_neg htype, hl, addLink_zero, hnew]
  have hself : ((s.addLink d l).setInode i (newInode i d type)).inode d =
      { s.inode d with nlink := (s.inode d).nlink + l } := by
    rw [setInode_of_ne hid.symm, State.addLink, setInode_self]
  have hmake : ((s.addLink d l).setInode i (newInode i d type)).setInode d
      ((s.inode d).enter ⟨i, name⟩ l) = s.make d i name type := by
    rw [setInode_comm hid.symm, State.addLink, setInode_idem, ← setInode_comm hid.symm]
    rfl
  rw [hmade, ok_bind, dirlink_new (by rw [IsDir, hself]; exact hd)
    (by rw [hself]; exact hname), hself]
  by_cases hsize : MAXFILE * BSIZE ≤ 16 * freePlace (s.inode d).entries
  · rw [if_pos hsize]
    exact .error fun h => by cases h
  · rw [if_neg hsize, ok_bind]
    apply Ends.ok
    refine ⟨i, ?_, hi, hpos, hin⟩
    have hentered : ({ s.inode d with
        nlink := (s.inode d).nlink + l
        entries := putEntry (s.inode d).entries ⟨i, name⟩ } : Inode) =
          (s.inode d).enter ⟨i, name⟩ l := rfl
    dsimp only
    rw [hentered, hmake, iput_of_live (.inl ?_)]
    rcases hlive with hpos | hheld
    · left
      rw [make_dir]
      change 0 < (s.inode d).nlink + if type = T_DIR then 1 else 0
      split_ifs
      · omega
      · omega
    · exact .inr hheld

omit [DecidableEq ι] in
theorem create_spec (hv : Visits s V) (hroot : IsDir s.inode ROOTINO) {p : ι}
    (hcwd : (s.proc p).cwd = some cwd) (path : Path) :
    Ends (MayFail s V) (s.create n cwd path type) fun r =>
      (r.2 = s ∧ ∀ i, r.1 = some i → (s.inode i).type ≠ 0 ∧ s.Live i) ∨
        ∃ d i name, r = (some i, s.make d i name type) ∧ IsDir s.inode d ∧ (s.inode i).type = 0 ∧
          (0 < i ∧ i < n) ∧ findEntry (s.inode d).entries name = none := by
  rw [State.create]
  apply (nameiparent_spec hv hroot hcwd path []).bind
  rintro ⟨_ | ⟨d, name⟩, t⟩ ⟨ht, hres⟩
  · obtain rfl : t = s := ht
    exact .ok (.inl ⟨rfl, fun i h => by cases h⟩)
  obtain rfl : t = s := ht
  obtain ⟨hVd, hd⟩ := hres d name rfl
  have hlive : t.Live d := hv.live d hVd hd.ne_zero
  apply (ilock_spec hVd).bind
  intro _ _
  rw [dirlookup_of_dir hd, ok_bind]
  cases hfind : findEntry (t.inode d).entries name with
  | some r =>
      obtain ⟨k, i⟩ := r
      obtain ⟨hmem, hne⟩ := findEntry_mem hfind
      have hVi : V i := hv.next d hVd hd _ hmem hne
      dsimp only
      rw [iput_of_live (.inl hlive)]
      apply (ilock_spec hVi).bind
      intro _ htype
      have hi : t.Live i := hv.live i hVi htype
      apply Ends.ite
      · intro _
        apply Ends.ok
        refine .inl ⟨rfl, fun j h => ?_⟩
        cases h
        exact ⟨htype, hi⟩
      · intro _
        exact .ok (.inl ⟨iput_of_live (.inl hi), fun j h => by cases h⟩)
  | none =>
      refine Ends.imp (createNew_spec hd hfind hlive) ?_
      rintro r ⟨i, rfl, hfree, hin⟩
      exact .inr ⟨d, i, name, rfl, hd, hfree, hin, hfind⟩

end Create

section Calls

variable {s s' t : State ι} {V : ℕ → Prop} {n i d cwd : ℕ} {name : Name} {type : Int16} {p : ι}

omit [DecidableEq ι] in
theorem fdalloc_some {fd : Fin NOFILE} (h : s.fdalloc p = some fd) :
    (s.proc p).ofile fd = none := by
  rw [State.fdalloc] at h
  obtain ⟨-, h⟩ := Option.ite_none_left_eq_some.mp h
  have hfd := List.find?_some h
  exact of_decide_eq_true hfd

omit [DecidableEq ι] in
theorem openInode_spec (hv : Visits s V) (hroot : IsDir s.inode ROOTINO)
    (hcwd : (s.proc p).cwd = some cwd) (path : Path) (creat rdonly : Bool) :
    Ends (MayFail s V) (s.openInode n cwd path creat rdonly) fun r =>
      (r.2 = s ∧ ∀ i, r.1 = some i → (s.inode i).type ≠ 0 ∧ s.Live i) ∨
        ∃ d i name, r = (some i, s.make d i name T_FILE) ∧ IsDir s.inode d ∧ (s.inode i).type = 0 ∧
          (0 < i ∧ i < n) ∧ findEntry (s.inode d).entries name = none := by
  rw [State.openInode]
  apply Ends.ite
  · exact fun _ => create_spec hv hroot hcwd path
  · intro _
    rw [State.openOld]
    apply (namei_spec hv hroot hcwd path).bind
    rintro ⟨_ | ⟨i, name⟩, t⟩ ⟨ht, hres⟩
    · obtain rfl : t = s := ht
      exact .ok (.inl ⟨rfl, fun i h => by cases h⟩)
    obtain rfl : t = s := ht
    have hVi : V i := hres i name rfl
    apply (ilock_spec hVi).bind
    intro _ htype
    have hlive : t.Live i := hv.live i hVi htype
    apply Ends.ite
    · exact fun _ => .ok (.inl ⟨iput_of_live (.inl hlive), fun j h => by cases h⟩)
    · intro _
      apply Ends.ok
      refine .inl ⟨rfl, fun j h => ?_⟩
      cases h
      exact ⟨htype, hlive⟩

omit [Fintype ι] [DecidableEq ι] in
theorem make_live (hid : i ≠ d) : (s.make d i name type).Live i := by
  left
  rw [make_new hid]
  exact Int.one_pos

theorem sysOpen_spec (hv : Visits s V) (hroot : IsDir s.inode ROOTINO)
    (hcwd : (s.proc p).cwd = some cwd)
    (path : Path) (creat rdonly : Bool) :
    Ends (MayFail s V) (s.sysOpen p n cwd path creat rdonly) fun r =>
      Effect n V s (.sysOpen p path creat rdonly) r.2 := by
  rw [State.sysOpen]
  apply (openInode_spec hv hroot hcwd path creat rdonly).bind
  rintro ⟨r, t⟩ (⟨ht, hres⟩ | ⟨d, i, name, heq, hd, hi, hin, hname⟩)
  · obtain rfl : t = s := ht
    cases r with
    | none => exact .ok .same
    | some i =>
        obtain ⟨htype, hlive⟩ := hres i rfl
        dsimp only
        cases hfd : t.fdalloc p with
        | none =>
            apply Ends.ok
            rw [iput_of_live (.inl hlive)]
            exact .same
        | some fd => exact .ok (.openFile htype (fdalloc_some hfd))
  · cases heq
    have hfile : T_FILE ≠ 0 := by decide
    have hid : i ≠ d := by
      rintro rfl
      exact hd.ne_zero hi
    dsimp only
    cases hfd : (s.make d i name T_FILE).fdalloc p with
    | none =>
        apply Ends.ok
        rw [iput_of_live (.inl (make_live hid))]
        exact .make hd hi hin hfile hname
    | some fd => exact .ok (.makeOpen hd hi hin hfile hname (fdalloc_some hfd))

theorem sysMkdir_spec (hv : Visits s V) (hroot : IsDir s.inode ROOTINO)
    (hcwd : (s.proc p).cwd = some cwd) (path : Path) :
    Ends (MayFail s V) (s.sysMkdir n cwd path) fun r => Effect n V s (.mkdir p path) r.2 := by
  rw [State.sysMkdir]
  apply (create_spec hv hroot hcwd path).bind
  rintro ⟨r, t⟩ (⟨ht, hres⟩ | ⟨d, i, name, heq, hd, hi, hin, hname⟩)
  · obtain rfl : t = s := ht
    cases r with
    | none => exact .ok .same
    | some i =>
        apply Ends.ok
        rw [iput_of_live (.inl (hres i rfl).2)]
        exact .same
  · cases heq
    have hid : i ≠ d := by
      rintro rfl
      exact hd.ne_zero hi
    apply Ends.ok
    rw [iput_of_live (.inl (make_live hid))]
    exact .make hd hi hin (by decide) hname

omit [Fintype ι] [DecidableEq ι] in
theorem addLink_nlink {l : ℤ} {j : ℕ} :
    ((s.addLink i l).inode j).nlink = (s.inode j).nlink + if j = i then l else 0 := by
  by_cases hj : j = i
  · rw [if_pos hj, hj, State.addLink, setInode_self]
  · rw [if_neg hj, add_zero, State.addLink, setInode_of_ne hj]

omit [Fintype ι] [DecidableEq ι] in
theorem addLink_live {l : ℤ} {j : ℕ} (hl : 0 ≤ l) (h : s.Live j) : (s.addLink i l).Live j := by
  rcases h with h | h
  · left
    rw [addLink_nlink]
    split_ifs
    · omega
    · omega
  · exact .inr h

omit [Fintype ι] [DecidableEq ι] in
theorem addLink_cancel : (s.addLink i 1).addLink i (-1) = s := by
  have hback :
      ({ (s.addLink i 1).inode i with nlink := ((s.addLink i 1).inode i).nlink + -1 } : Inode) =
      s.inode i := by
    rw [State.addLink, setInode_self, add_neg_cancel_right]
  rw [State.addLink, hback, State.addLink, setInode_idem, State.setInode, Function.update_eq_self]

omit [Fintype ι] [DecidableEq ι] in
theorem Visits.addLink (hv : Visits s V) : Visits (s.addLink i 1) V := by
  refine ⟨fun j hj htype => addLink_live Int.one_nonneg (hv.live j hj (addLink_type ▸ htype)),
    fun d hd hdir e he => ?_, hv.root, hv.cwd⟩
  rw [addLink_entries] at he
  rw [IsDir, addLink_type] at hdir
  exact hv.next d hd hdir e he

omit [Fintype ι] [DecidableEq ι] in
theorem dirlink_old {r : ℕ × ℕ} (hd : IsDir s.inode d)
    (hname : findEntry (s.inode d).entries name = some r) :
    Ends (MayFail s' V) (s.dirlink d name i) (· = none) := by
  rw [State.dirlink, dirlookup_of_dir hd, hname, ok_bind]
  apply Ends.ite
  · exact fun _ => .error fun h => by cases h
  · exact fun _ => .ok rfl

omit [Fintype ι] [DecidableEq ι] in
theorem linkTo_type {j : ℕ} : ((s.linkTo d i name).inode j).type = (s.inode j).type := by
  change (Function.update (s.addLink i 1).inode d ((s.inode d).enter ⟨i, name⟩ 0) j).type = _
  by_cases hj : j = d
  · rw [hj, Function.update_self]
    rfl
  · rw [Function.update_of_ne hj, addLink_type]

omit [Fintype ι] [DecidableEq ι] in
theorem linkTo_nlink {j : ℕ} (hid : i ≠ d) :
    ((s.linkTo d i name).inode j).nlink = (s.inode j).nlink + if j = i then 1 else 0 := by
  change (Function.update (s.addLink i 1).inode d ((s.inode d).enter ⟨i, name⟩ 0) j).nlink = _
  by_cases hj : j = d
  · subst hj
    rw [Function.update_self, if_neg hid.symm]
    rfl
  · rw [Function.update_of_ne hj, addLink_nlink]

omit [Fintype ι] [DecidableEq ι] in
theorem linkTo_live {j : ℕ} (hid : i ≠ d) (h : s.Live j) : (s.linkTo d i name).Live j := by
  rcases h with h | h
  · left
    rw [linkTo_nlink hid]
    split_ifs
    · omega
    · omega
  · exact .inr h

theorem linkBad_spec (hi : V i) (hlive : s.Live i) {old new : Path} :
    Ends (MayFail s V) ((s.addLink i 1).linkBad i) fun r => Effect n V s (.link p old new) r.2 := by
  rw [State.linkBad, addLink_cancel, iput_of_live (.inl hlive)]
  have hlock : Ends (MayFail s V) ((s.addLink i 1).ilock i) _ :=
    (ilock_spec hi).mono (fun e he h => by
    obtain ⟨j, hj, htype⟩ := he h
    exact ⟨j, hj, addLink_type ▸ htype⟩) fun _ => id
  exact hlock.bind fun _ _ => .ok .same

theorem sysLink_spec (hv : Visits s V) (hroot : IsDir s.inode ROOTINO)
    (hcwd : (s.proc p).cwd = some cwd)
    (old new : Path) :
    Ends (MayFail s V) (s.sysLink cwd old new) fun r => Effect n V s (.link p old new) r.2 := by
  have hmono : ∀ {i e}, MayFail (s.addLink i 1) V e → MayFail s V e := by
    intro i e he h
    obtain ⟨j, hj, htype⟩ := he h
    exact ⟨j, hj, addLink_type ▸ htype⟩
  rw [State.sysLink]
  apply (namei_spec hv hroot hcwd old).bind
  rintro ⟨_ | ⟨i, nm⟩, t⟩ ⟨ht, hres⟩
  · obtain rfl : t = s := ht
    exact .ok .same
  obtain rfl : t = s := ht
  have hVi : V i := hres i nm rfl
  apply (ilock_spec hVi).bind
  intro _ htype
  have hlive : t.Live i := hv.live i hVi htype
  apply Ends.ite
  · intro _
    apply Ends.ok
    rw [iput_of_live (.inl hlive)]
    exact .same
  intro hfile
  have hroot' : IsDir (t.addLink i 1).inode ROOTINO := by
    rw [IsDir, addLink_type]
    exact hroot
  have hparent : Ends (MayFail t V) ((t.addLink i 1).nameiparent cwd new [i]) _ :=
    (nameiparent_spec hv.addLink hroot' hcwd new [i]).mono (fun _ => hmono) fun _ => id
  apply hparent.bind
  rintro ⟨_ | ⟨d, name⟩, u⟩ ⟨hu, hres'⟩
  · obtain rfl : u = t.addLink i 1 := hu
    exact linkBad_spec hVi hlive
  obtain rfl : u = t.addLink i 1 := hu
  obtain ⟨hVd, hd'⟩ := hres' d name rfl
  have hd : IsDir t.inode d := by
    rw [IsDir, addLink_type] at hd'
    exact hd'
  have hdlive : (t.addLink i 1).Live d := addLink_live Int.one_nonneg (hv.live d hVd hd.ne_zero)
  have hlock : Ends (MayFail t V) ((t.addLink i 1).ilock d) _ :=
    (ilock_spec hVd).mono (fun _ => hmono) fun _ => id
  apply hlock.bind
  intro _ _
  cases hfind : findEntry (t.inode d).entries name with
  | some r =>
      have hold : findEntry ((t.addLink i 1).inode d).entries name = some r := by
        rw [addLink_entries]
        exact hfind
      apply (dirlink_old hd' hold).bind
      rintro _ rfl
      dsimp only
      rw [iput_of_live (.inl hdlive)]
      exact linkBad_spec hVi hlive
  | none =>
      have hnew : findEntry ((t.addLink i 1).inode d).entries name = none := by
        rw [addLink_entries]
        exact hfind
      have hid : i ≠ d := by
        rintro rfl
        exact hfile hd
      have hself : (t.addLink i 1).inode d = t.inode d := setInode_of_ne hid.symm
      rw [dirlink_new hd' hnew, hself]
      by_cases hsize : MAXFILE * BSIZE ≤ 16 * freePlace (t.inode d).entries
      · rw [if_pos hsize]
        exact .error fun h => by cases h
      · rw [if_neg hsize, ok_bind]
        have hlink : (t.addLink i 1).setInode d
            { t.inode d with entries := putEntry (t.inode d).entries ⟨i, name⟩ } =
              t.linkTo d i name := by
          rw [State.linkTo, Inode.enter, add_zero]
          rfl
        have hkeep : ∀ j, t.Live j → (t.linkTo d i name).Live j := fun j hj => linkTo_live hid hj
        dsimp only
        rw [hlink, iput_of_live (.inl (hkeep d (hv.live d hVd hd.ne_zero))),
          iput_of_live (.inl (hkeep i hlive))]
        exact .ok (.link hd htype hfile hfind)

theorem sysUnlink_spec (hv : Visits s V) (hroot : IsDir s.inode ROOTINO)
    (hcwd : (s.proc p).cwd = some cwd) (path : Path) :
    Ends (MayFail s V) (s.sysUnlink cwd path) fun r => Effect n V s (.unlink p path) r.2 := by
  rw [State.sysUnlink]
  apply (nameiparent_spec hv hroot hcwd path []).with_eq.bind
  rintro ⟨_ | ⟨d, name⟩, t⟩ ⟨hpath, ht, hres⟩
  · obtain rfl : t = s := ht
    exact .ok .same
  obtain rfl : t = s := ht
  obtain ⟨hVd, hd⟩ := hres d name rfl
  have hsame : ∀ others, t.iput d others = t :=
    fun others => iput_of_live (.inl (hv.live d hVd hd.ne_zero))
  apply (ilock_spec hVd).bind
  intro _ _
  apply Ends.ite
  · intro _
    apply Ends.ok
    rw [hsame]
    exact .same
  intro hname
  rw [dirlookup_of_dir hd, ok_bind]
  cases hfind : findEntry (t.inode d).entries name with
  | none =>
      apply Ends.ok
      rw [hsame]
      exact .same
  | some r =>
      obtain ⟨k, i⟩ := r
      obtain ⟨hmem, hne⟩ := findEntry_mem hfind
      have hVi : V i := hv.next d hVd hd _ hmem hne
      apply Ends.ite
      · exact fun _ => .error fun h => by cases h
      intro hid
      apply (ilock_spec hVi).bind
      intro _ htype
      apply Ends.ite
      · exact fun _ => .error fun h => by cases h
      intro hlink
      apply Ends.ite
      · intro _
        apply Ends.ok
        rw [iput_of_live (.inl (hv.live i hVi htype)), hsame]
        exact .same
      · intro hempty
        apply Ends.ok
        rw [removeEntry_eq hid]
        refine .unlink hcwd hpath hd hVd (not_or.mp hname) hfind hid htype
          (not_lt.mp hlink) fun hdir => ?_
        exact Bool.eq_true_of_not_eq_false fun h => hempty ⟨hdir, h⟩

theorem sysChdir_spec (hv : Visits s V) (hroot : IsDir s.inode ROOTINO)
    (hcwd : (s.proc p).cwd = some cwd) (path : Path) :
    Ends (MayFail s V) (s.sysChdir p cwd path) fun r => Effect n V s (.chdir p path) r.2 := by
  rw [State.sysChdir]
  apply (namei_spec hv hroot hcwd path).with_eq.bind
  rintro ⟨_ | ⟨i, name⟩, t⟩ ⟨hpath, ht, hres⟩
  · obtain rfl : t = s := ht
    exact .ok .same
  obtain rfl : t = s := ht
  have hVi : V i := hres i name rfl
  apply (ilock_spec hVi).bind
  intro _ htype
  apply Ends.ite
  · intro _
    apply Ends.ok
    rw [iput_of_live (.inl (hv.live i hVi htype))]
    exact .same
  · intro hdir
    apply Ends.ok
    rw [iput_eq List.not_mem_nil]
    exact .chdir hcwd hpath (not_not.mp hdir) hVi

/-- A call panics with "ilock: no type" only where it visits a free inode, and else has one of the
effects. -/
theorem step_spec (hv : Visits s V) (hroot : IsDir s.inode ROOTINO) (c : Call ι) :
    Ends (MayFail s V) (step n s c) fun r => Effect n V s c r.2 := by
  rw [step]
  cases hcwd : (s.proc c.proc).cwd with
  | none => exact .ok .same
  | some cwd =>
      cases c with
      | mkdir p path => exact sysMkdir_spec hv hroot hcwd path
      | sysOpen p path creat rdonly => exact sysOpen_spec hv hroot hcwd path creat rdonly
      | link p old new => exact sysLink_spec hv hroot hcwd old new
      | unlink p path => exact sysUnlink_spec hv hroot hcwd path
      | chdir p path => exact sysChdir_spec hv hroot hcwd path
      | close p fd =>
          apply Ends.ok
          rw [State.sysClose]
          cases hfd : (s.proc p).ofile fd with
          | none =>
              rw [State.closeFile, hfd]
              exact .same
          | some i =>
              rw [closeFile_eq hfd]
              exact .close hfd
      | exit p =>
          have hcwd : (s.proc p).cwd = some cwd := hcwd
          apply Ends.ok
          rw [exit_eq hcwd]
          exact .exit hcwd

end Calls

end FileTree

end Xv6Fairness
