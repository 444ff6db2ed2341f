import Xv6Fairness.LinkCounts

/-!
# Giving up references

A call that gives up references frees the inodes among them that are left without links and without
a process that holds them. Where it gives up several, one after the other, the outcome is as if all
of them went at once.
-/

namespace Xv6Fairness

namespace FileTree

variable {ι : Type}

def Proc.Holds (x : Proc) (i : ℕ) : Prop := x.cwd = some i ∨ ∃ fd, x.ofile fd = some i

/-- The references of a process. -/
def Proc.refs (x : Proc) : List ℕ := (List.finRange NOFILE).filterMap x.ofile ++ x.cwd.toList

def Proc.gone : Proc := ⟨none, fun _ => none⟩

namespace State

variable [Fintype ι] (s : State ι) (refs : List ℕ) (i : ℕ)

omit [Fintype ι] in
/-- One of the inodes in `refs` without links and references. -/
def Dead : Prop := (s.inode i).nlink = 0 ∧ ¬ s.Held i ∧ i ∈ refs

instance : Decidable (s.Dead refs i) :=
  inferInstanceAs (Decidable ((s.inode i).nlink = 0 ∧ ¬ s.Held i ∧ i ∈ refs))

def release : State ι :=
  { s with inode := fun i => if s.Dead refs i then (s.inode i).freed else s.inode i }

end State

section Fields

variable {s : State ι} {i j : ℕ} {x y : Inode}

theorem setInode_self : (s.setInode i x).inode i = x := Function.update_self _ _ _

theorem setInode_of_ne (hj : j ≠ i) : (s.setInode i x).inode j = s.inode j :=
  Function.update_of_ne hj _ _

theorem setInode_idem : (s.setInode i x).setInode i y = s.setInode i y :=
  congrArg (fun T => { s with inode := T }) (Function.update_idem _ _ _)

theorem setInode_comm (hj : j ≠ i) :
    (s.setInode i x).setInode j y = (s.setInode j y).setInode i x :=
  congrArg (fun T => { s with inode := T }) (Function.update_comm hj.symm _ _ _)

end Fields

section Holds

variable [DecidableEq ι] {s : State ι} {p : ι} {x : Proc} {j : ℕ}

theorem setProc_self : (s.setProc p x).proc p = x := Function.update_self _ _ _

theorem setProc_of_ne {q : ι} (hq : q ≠ p) : (s.setProc p x).proc q = s.proc q :=
  Function.update_of_ne hq _ _

theorem held_of_setProc (hx : x.Holds j → (s.proc p).Holds j) (h : (s.setProc p x).Held j) :
    s.Held j := by
  obtain ⟨q, hq⟩ := h
  change ((s.setProc p x).proc q).Holds j at hq
  by_cases hqp : q = p
  · rw [hqp, setProc_self] at hq
    exact ⟨p, hx hq⟩
  · rw [setProc_of_ne hqp] at hq
    exact ⟨q, hq⟩

theorem held_setProc {R : Prop} (hx : (s.proc p).Holds j → x.Holds j ∨ R) (h : s.Held j) :
    (s.setProc p x).Held j ∨ R := by
  obtain ⟨q, hq⟩ := h
  change (s.proc q).Holds j at hq
  have hheld : ((s.setProc p x).proc q).Holds j → (s.setProc p x).Held j := fun h => ⟨q, h⟩
  by_cases hqp : q = p
  · rw [hqp, setProc_self] at hheld
    rw [hqp] at hq
    exact (hx hq).imp_left hheld
  · rw [setProc_of_ne hqp] at hheld
    exact .inl (hheld hq)

end Holds

section Release

variable [Fintype ι] {s : State ι} {as bs refs others : List ℕ} {i j : ℕ}

theorem release_dead (h : s.Dead refs i) : (s.release refs).inode i = (s.inode i).freed := if_pos h

theorem release_kept (h : ¬ s.Dead refs i) : (s.release refs).inode i = s.inode i := if_neg h

theorem release_nil : s.release [] = s := by
  have hkept : (s.release []).inode = s.inode := by
    funext i
    exact release_kept fun h => List.not_mem_nil h.2.2
  exact congrArg (fun T => { s with inode := T }) hkept

theorem iput_eq (h : i ∉ others) : s.iput i others = s.release [i] := by
  have hsame : ∀ j, (s.iput i others).inode j = (s.release [i]).inode j := by
    intro j
    rw [State.iput]
    by_cases hdead : (s.inode i).nlink = 0 ∧ ¬ s.Held i ∧ i ∉ others
    · rw [if_pos hdead]
      by_cases hj : j = i
      · subst hj
        rw [release_dead ⟨hdead.1, hdead.2.1, List.mem_singleton_self j⟩, setInode_self]
        rfl
      · rw [release_kept fun h => hj (List.mem_singleton.mp h.2.2), setInode_of_ne hj]
    · rw [if_neg hdead, release_kept]
      rintro ⟨hlink, hheld, hmem⟩
      rw [List.mem_singleton.mp hmem] at hlink hheld
      exact hdead ⟨hlink, hheld, h⟩
  have hproc : (s.iput i others).proc = s.proc := by
    rw [State.iput]
    split_ifs <;> rfl
  calc s.iput i others = ⟨(s.iput i others).inode, (s.iput i others).proc⟩ := rfl
    _ = ⟨(s.release [i]).inode, s.proc⟩ := by rw [funext hsame, hproc]

theorem release_release (proc : ι → Proc)
    (hless : ∀ j, State.Held { s with proc := proc } j → s.Held j)
    (hmore : ∀ j ∈ as, s.Held j → State.Held { s with proc := proc } j ∨ j ∈ bs) :
    State.release { s.release as with proc := proc } bs = State.release { s with proc := proc }
      (as ++ bs) := by
  refine congrArg (fun T => State.mk T proc) (funext fun j => ?_)
  change (if State.Dead { s.release as with proc := proc } bs j then _ else _) =
    (State.release { s with proc := proc } (as ++ bs)).inode j
  by_cases hdead : s.Dead as j
  · have hfreed : (s.release as).inode j = (s.inode j).freed := release_dead hdead
    have hboth : State.Dead { s with proc := proc } (as ++ bs) j :=
      ⟨hdead.1, fun h => hdead.2.1 (hless j h), List.mem_append_left _ hdead.2.2⟩
    rw [release_dead hboth, hfreed]
    exact ite_self _
  · have hkept : (s.release as).inode j = s.inode j := release_kept hdead
    have hiff : State.Dead { s.release as with proc := proc } bs j ↔
        State.Dead { s with proc := proc } (as ++ bs) j := by
      rw [State.Dead, State.Dead, hkept, List.mem_append]
      constructor
      · exact fun ⟨hlink, hheld, hmem⟩ => ⟨hlink, hheld, .inr hmem⟩
      · rintro ⟨hlink, hheld, hmem⟩
        refine ⟨hlink, hheld, hmem.elim (fun hmem => ?_) id⟩
        have hold : s.Held j := by
          by_contra hnot
          exact hdead ⟨hlink, hnot, hmem⟩
        exact (hmore j hmem hold).resolve_left hheld
    simp only [hiff, hkept]
    rfl

theorem release_append : (s.release as).release bs = s.release (as ++ bs) :=
  release_release s.proc (fun _ => id) fun _ _ => .inl

theorem release_addLink {l : ℤ} (hi : i ∉ refs) :
    (s.release refs).addLink i l = (s.addLink i l).release refs := by
  have hkept : (s.release refs).inode i = s.inode i := release_kept fun h => hi h.2.2
  refine congrArg (fun T => { s with inode := T }) (funext fun j => ?_)
  change ((s.release refs).addLink i l).inode j = ((s.addLink i l).release refs).inode j
  by_cases hj : j = i
  · subst hj
    rw [State.addLink, setInode_self, hkept, release_kept fun h => hi h.2.2, State.addLink,
      setInode_self]
  · have hsame : (s.addLink i l).inode j = s.inode j := setInode_of_ne hj
    have hdead : (s.addLink i l).Dead refs j ↔ s.Dead refs j := by
      rw [State.Dead, hsame]
      rfl
    rw [State.addLink, setInode_of_ne hj]
    by_cases h : s.Dead refs j
    · rw [release_dead h, release_dead (hdead.mpr h), hsame]
    · rw [release_kept h, release_kept fun h' => h (hdead.mp h'), hsame]

end Release

namespace State

/-- The entry at place `k` of directory `d`, which names `i`, is emptied. -/
def unenter (s : State ι) (d i k : ℕ) : State ι :=
  (s.setInode d ((s.inode d).clear k (if IsDir s.inode i then -1 else 0))).addLink i (-1)

end State

section Calls

variable [Fintype ι] [DecidableEq ι] {s : State ι} {p : ι} {i d k cwd : ℕ} {fd : Fin NOFILE}

omit [DecidableEq ι] in
theorem removeEntry_eq (hid : i ≠ d) : s.removeEntry i d k = (s.unenter d i k).release [d, i] := by
  have hcleared : (s.clearEntry d k).inode d = (s.inode d).clear k 0 := by
    rw [State.clearEntry, setInode_self, Inode.clear, add_zero]
  have hother : (s.clearEntry d k).inode i = s.inode i := setInode_of_ne hid
  have hentry : (if ((s.clearEntry d k).inode i).type = T_DIR then (s.clearEntry d k).addLink d (-1)
      else s.clearEntry d k) =
        s.setInode d ((s.inode d).clear k (if IsDir s.inode i then -1 else 0)) := by
    rw [hother]
    by_cases hdir : IsDir s.inode i
    · have htype : (s.inode i).type = T_DIR := hdir
      rw [if_pos htype, if_pos hdir, State.addLink, hcleared, State.clearEntry, setInode_idem,
        Inode.clear, Inode.clear, add_zero]
    · have htype : ¬ (s.inode i).type = T_DIR := hdir
      rw [if_neg htype, if_neg hdir, State.clearEntry, Inode.clear, add_zero]
  have hd : d ∉ [i] := fun h => hid (List.mem_singleton.mp h).symm
  have hi : i ∉ [d] := fun h => hid (List.mem_singleton.mp h)
  rw [State.removeEntry, hentry, iput_eq hd, iput_eq List.not_mem_nil, release_addLink hi,
    release_append]
  rfl

theorem closeFile_eq (h : (s.proc p).ofile fd = some i) :
    s.closeFile p fd = (s.setFile p fd none).release [i] := by
  rw [State.closeFile, h]
  exact iput_eq List.not_mem_nil

omit [Fintype ι] in
theorem setProc_idem {x y : Proc} : (s.setProc p x).setProc p y = s.setProc p y :=
  congrArg (State.mk s.inode) (Function.update_idem _ _ _)

theorem release_setProc {x y : Proc} {as bs : List ℕ} (hless : ∀ j, y.Holds j → x.Holds j)
    (hmore : ∀ j, x.Holds j → y.Holds j ∨ j ∈ bs) :
    (((s.setProc p x).release as).setProc p y).release bs = (s.setProc p y).release (as ++ bs) := by
  have hself : (s.setProc p x).proc p = x := setProc_self
  have hboth : (((s.setProc p x).release as).setProc p y).release bs =
      ((s.setProc p x).setProc p y).release (as ++ bs) := by
    refine release_release ((s.setProc p x).setProc p y).proc
      (fun j hj => held_of_setProc (s := s.setProc p x) (p := p) (fun h => ?_) hj)
      fun j _ hj => held_setProc (s := s.setProc p x) (p := p) (fun h => ?_) hj
    · rw [hself]
      exact hless j h
    · rw [hself] at h
      exact hmore j h
  rw [hboth, setProc_idem]

def Proc.closed (x : Proc) (fds : List (Fin NOFILE)) : Proc :=
  { x with ofile := fun fd => if fd ∈ fds then none else x.ofile fd }

theorem closeFile_release {x : Proc} {as : List ℕ} :
    ((s.setProc p x).release as).closeFile p fd =
      (s.setProc p (x.closed [fd])).release (as ++ (x.ofile fd).toList) := by
  have hx : ((s.setProc p x).release as).proc p = x := setProc_self
  have hclosed : ∀ fd', (x.closed [fd]).ofile fd' = if fd' = fd then none else x.ofile fd' := by
    intro fd'
    simp only [Proc.closed, List.mem_singleton]
  cases hfd : x.ofile fd with
  | none =>
      have hsame : x.closed [fd] = x := by
        have hofile : (x.closed [fd]).ofile = x.ofile := by
          funext fd'
          rw [hclosed]
          split_ifs with h
          · rw [h, hfd]
          · rfl
        exact congrArg (Proc.mk x.cwd) hofile
      rw [State.closeFile, hx, hfd, hsame, Option.toList_none, List.append_nil]
  | some i =>
      have hset : Function.update x.ofile fd none = (x.closed [fd]).ofile := by
        funext fd'
        rw [hclosed, Function.update_apply]
      rw [closeFile_eq (i := i) (by rw [hx, hfd]), State.setFile, hx, hset, Option.toList_some]
      change ((State.setProc _ p (x.closed [fd])).release [i]) = _
      refine release_setProc (fun j h => ?_) fun j h => ?_
      · rcases h with h | ⟨fd', hfd'⟩
        · exact .inl h
        · rw [hclosed] at hfd'
          exact .inr ⟨fd', (Option.ite_none_left_eq_some.mp hfd').2⟩
      · rcases h with h | ⟨fd', hfd'⟩
        · exact .inl (.inl h)
        · by_cases heq : fd' = fd
          · rw [heq, hfd, Option.some.injEq] at hfd'
            exact .inr (List.mem_singleton.mpr hfd'.symm)
          · exact .inl (.inr ⟨fd', by rw [hclosed, if_neg heq, hfd']⟩)

theorem foldl_closeFile {fds : List (Fin NOFILE)} (hfds : fds.Nodup) (x : Proc) (as : List ℕ) :
    fds.foldl (fun s fd => s.closeFile p fd) ((s.setProc p x).release as) =
      (s.setProc p (x.closed fds)).release (as ++ fds.filterMap x.ofile) := by
  induction fds generalizing x as with
  | nil =>
      have hsame : x.closed [] = x := by
        simp only [Proc.closed, List.not_mem_nil, if_false]
      rw [List.foldl_nil, List.filterMap_nil, hsame, List.append_nil]
  | cons fd fds ih =>
      obtain ⟨hfd, hrest⟩ := List.nodup_cons.mp hfds
      have hclosed : (x.closed [fd]).closed fds = x.closed (fd :: fds) := by
        simp only [Proc.closed, List.mem_cons, List.not_mem_nil, or_false, Proc.mk.injEq, true_and]
        funext fd'
        by_cases h : fd' = fd
        · simp only [h, true_or, if_true, ite_self]
        · simp only [h, false_or, if_false]
      have hfiles : fds.filterMap (x.closed [fd]).ofile = fds.filterMap x.ofile := by
        apply List.filterMap_congr
        intro fd' hfd'
        have hne : fd' ≠ fd := fun h => hfd (h ▸ hfd')
        simp only [Proc.closed, List.mem_singleton, hne, if_false]
      have hlist : (fd :: fds).filterMap x.ofile = (x.ofile fd).toList ++
          fds.filterMap x.ofile := by
        cases h : x.ofile fd with
        | none => rw [List.filterMap_cons_none h, Option.toList_none, List.nil_append]
        | some i => rw [List.filterMap_cons_some h, Option.toList_some, List.singleton_append]
      rw [List.foldl_cons, closeFile_release, ih hrest, hclosed, hfiles, hlist, List.append_assoc]

theorem exit_eq (hcwd : (s.proc p).cwd = some cwd) :
    s.exit p cwd = (s.setProc p .gone).release (s.proc p).refs := by
  have hself : s.setProc p (s.proc p) = s := by rw [State.setProc, Function.update_eq_self]
  have hfiles := foldl_closeFile (s := s) (p := p) (List.nodup_finRange NOFILE) (s.proc p) []
  rw [hself, release_nil, List.nil_append] at hfiles
  have hall : (s.proc p).closed (List.finRange NOFILE) = ⟨some cwd, fun _ => none⟩ := by
    simp only [Proc.closed, List.mem_finRange, if_true, hcwd]
  rw [State.exit, hfiles, hall, iput_eq List.not_mem_nil, Proc.refs, hcwd, Option.toList_some]
  have hgone : ({ ((s.setProc p ⟨some cwd, fun _ => none⟩).release
      ((List.finRange NOFILE).filterMap (s.proc p).ofile)).proc p with cwd := none } : Proc) =
        .gone := by
    change ({ (s.setProc p ⟨some cwd, fun _ => none⟩).proc p with cwd := none } : Proc) = .gone
    rw [setProc_self]
    rfl
  rw [State.setCwd, hgone]
  refine release_setProc (fun j h => ?_) fun j h => ?_
  · rcases h with h | ⟨fd, h⟩
    · cases h
    · cases h
  · rcases h with h | ⟨fd, h⟩
    · exact .inr (List.mem_singleton.mpr (Option.some.inj h).symm)
    · cases h

end Calls

end FileTree

end Xv6Fairness
