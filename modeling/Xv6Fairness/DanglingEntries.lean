import Xv6Fairness.TransitionRuns
import Xv6Fairness.TreeCounts

/-!
# Directory entries and freed inodes

Link counts keep the inodes that proper entries name. The `..` of a removed directory that is still
in use is not counted: when its parent is removed as well and given up first, the `..` names a freed
inode. In runs that spare such parents every entry of every directory names an allocated inode.
-/

namespace Xv6Fairness

namespace FileTree

/-- The directory `d` has `pp` for its `..`. -/
def HasParent (T : Table) (d pp : ℕ) : Prop := IsDir T d ∧ Shape (T d) d pp

theorem Shape.unique {x : Inode} {d pp pp' : ℕ} (h : Shape x d pp)
    (h' : Shape x d pp') : pp = pp' := by
  obtain ⟨rest, heq, -⟩ := h
  obtain ⟨rest', heq', -⟩ := h'
  rw [heq, List.cons.injEq, List.cons.injEq] at heq'
  exact congrArg Dirent.inum heq'.2.1

variable {ι : Type}

/-- Directories whose link counts cover their entries, processes in directories, and what their
files and the `..` of the directories name. The inodes in `refs` are those that a running call
holds. -/
structure Kept (n : ℕ) (s : State ι) (refs : List ℕ) : Prop where
  sound : Sound n s.inode
  parent : ∀ d pp, HasParent s.inode d pp → (s.inode pp).type ≠ 0 ∧ (s.Live pp ∨ pp ∈ refs)
  cwd : ∀ p cwd, (s.proc p).cwd = some cwd → IsDir s.inode cwd
  file : ∀ p fd i, (s.proc p).ofile fd = some i → (s.inode i).type ≠ 0

section Frees

variable [Fintype ι] [DecidableEq ι]

/-- The inodes that a call frees. -/
def Frees (s : State ι) (c : Call ι) (i : ℕ) : Prop :=
  match c with
  | .unlink p path => ∃ cwd d name k j, (s.proc p).cwd = some cwd ∧
      s.nameiparent cwd path [] = .ok (some (d, name), s) ∧ name ≠ dot ∧ name ≠ dotdot ∧
      findEntry (s.inode d).entries name = some (k, j) ∧ j ≠ d ∧
      (IsDir s.inode j → isdirempty (s.inode j) = true) ∧ ¬ s.Held i ∧ (s.inode i).nlink = 1 ∧
      (i = j ∨ i = d ∧ IsDir s.inode j)
  | .chdir p path => ∃ cwd j name, (s.proc p).cwd = some cwd ∧
      s.namei cwd path [] = .ok (some (j, name), s) ∧ IsDir s.inode j ∧ i = cwd ∧
      (s.inode i).nlink = 0 ∧ ¬ (s.setCwd p (some j)).Held i
  | .close p fd => (s.proc p).ofile fd = some i ∧ (s.inode i).nlink = 0 ∧
      ¬ (s.setFile p fd none).Held i
  | .exit p => (s.proc p).Holds i ∧ (s.inode i).nlink = 0 ∧ ¬ (s.setProc p .gone).Held i
  | _ => False

/-- The call frees no inode that the `..` of a directory names, unless it frees that directory as
well. -/
def Spares (s : State ι) (c : Call ι) : Prop :=
  ∀ i d, Frees s c i → HasParent s.inode d i → Frees s c d

end Frees

section Kept

variable {n : ℕ} {s t : State ι} {T : Table} {refs refs' : List ℕ} {d i k : ℕ} {name : Name}
  {type : Int16} {p : ι} {x : Proc}

theorem Kept.visits (h : Kept n s []) : Visits s fun i => (s.inode i).type ≠ 0 ∧ s.Live i := by
  refine ⟨fun i hi _ => hi.2, fun d hd hdir e he hne => ?_, ?_, fun p cwd hcwd => ?_⟩
  · obtain ⟨pp, -, hshape⟩ := h.sound.shape d hdir
    rcases hshape.mem he hne with rfl | rfl | hp
    · exact hd
    · obtain ⟨htype, hlive⟩ := h.parent d pp ⟨hdir, hshape⟩
      exact ⟨htype, hlive.resolve_right List.not_mem_nil⟩
    · exact ⟨h.sound.named d hdir e he hp, .inl (h.sound.named_nlink hdir he hp)⟩
  · exact ⟨h.sound.root.ne_zero, .inl h.sound.root_nlink⟩
  · exact ⟨(h.cwd p cwd hcwd).ne_zero, .inr (held_cwd hcwd)⟩

theorem Kept.change (h : Kept n s refs) (hproc : t.proc = s.proc) (hsound : Sound n t.inode)
    (htype : ∀ j, (s.inode j).type ≠ 0 → (t.inode j).type = (s.inode j).type)
    (hlive : ∀ j, (s.inode j).type ≠ 0 → 0 < (s.inode j).nlink → 0 < (t.inode j).nlink ∨ j ∈ refs')
    (hrefs : refs ⊆ refs')
    (hparent : ∀ d pp, HasParent t.inode d pp → HasParent s.inode d pp ∨
      IsDir s.inode pp ∧ 0 < (t.inode pp).nlink) : Kept n t refs' := by
  refine ⟨hsound, fun d pp hd => ?_, fun p cwd hcwd => ?_, fun p fd i hfd => ?_⟩
  · rcases hparent d pp hd with hold | ⟨hdir, hlink⟩
    · obtain ⟨hpp, hold⟩ := h.parent d pp hold
      refine ⟨(htype pp hpp).symm ▸ hpp, ?_⟩
      rcases hold with (hlink | hheld) | hmem
      · exact (hlive pp hpp hlink).imp_left .inl
      · left
        right
        rwa [State.Held, hproc]
      · exact .inr (hrefs hmem)
    · exact ⟨(htype pp hdir.ne_zero).symm ▸ hdir.ne_zero, .inl (.inl hlink)⟩
  · rw [hproc] at hcwd
    have hdir := h.cwd p cwd hcwd
    exact (htype cwd hdir.ne_zero).trans hdir
  · rw [hproc] at hfd
    have hi := h.file p fd i hfd
    exact (htype i hi).symm ▸ hi

theorem Shape.congr {x y : Inode} {pp : ℕ} (h : Shape x d pp) (hxy : y.entries = x.entries) :
    Shape y d pp := by
  obtain ⟨rest, heq, hrest⟩ := h
  exact ⟨rest, hxy.trans heq, hrest⟩

theorem HasParent.of_update {x : Inode} {j pp : ℕ} (h : Formed n T) (hd : IsDir T d)
    (hshape : ∀ pp, pp ≠ 0 → Shape (T d) d pp → Shape x d pp)
    (hparent : HasParent (Function.update T d x) j pp) : HasParent T j pp := by
  by_cases hj : j = d
  · subst hj
    obtain ⟨pp', hpp, hold⟩ := h.shape j hd
    obtain ⟨-, hnew⟩ := hparent
    rw [Function.update_self] at hnew
    rw [hnew.unique (hshape pp' hpp hold)]
    exact ⟨hd, hold⟩
  · rwa [HasParent, IsDir, Function.update_of_ne hj] at hparent

theorem HasParent.of_addLink {l : ℤ} {j pp : ℕ} (h : HasParent (s.addLink i l).inode j pp) :
    HasParent s.inode j pp := by
  obtain ⟨hdir, hshape⟩ := h
  rw [IsDir, addLink_type] at hdir
  exact ⟨hdir, hshape.congr addLink_entries.symm⟩

theorem Kept.make (h : Kept n s []) (hd : IsDir s.inode d) (hi : (s.inode i).type = 0)
    (hin : 0 < i ∧ i < n) (htype : type ≠ 0) (hname : findEntry (s.inode d).entries name = none) :
    Kept n (s.make d i name type) [] := by
  obtain ⟨hformed, hsurplus⟩ := make_counts h.sound.toFormed hd hi hin htype hname
  have hid : i ≠ d := by
    rintro rfl
    exact hd.ne_zero hi
  have hpos := h.sound.nlink_nonneg hd.ne_zero
  have hnlink : (s.inode d).nlink ≤ ((s.make d i name type).inode d).nlink := by
    rw [make_dir]
    change _ ≤ (s.inode d).nlink + if type = T_DIR then 1 else 0
    split_ifs
    · omega
    · omega
  have hother : ∀ j, j ≠ i → j ≠ d → (s.make d i name type).inode j = s.inode j := fun j hji hjd =>
    (Function.update_of_ne hjd _ _).trans (Function.update_of_ne hji _ _)
  have hne : ∀ j, (s.inode j).type ≠ 0 → j ≠ i := by
    rintro j hj rfl
    exact hj hi
  refine h.change rfl ⟨hformed, fun j hj => ?_⟩ (fun j hj => ?_) (fun j hj hlink => .inl ?_)
    (List.Subset.refl _) fun j pp hparent => ?_
  · rw [hsurplus]
    split_ifs with hji
    · exact le_rfl
    · by_cases hjd : j = d
      · exact hjd ▸ h.sound.surplus_nonneg d hd.ne_zero
      · exact h.sound.surplus_nonneg j (hother j hji hjd ▸ hj)
  · by_cases hjd : j = d
    · rw [hjd, make_dir]
      rfl
    · rw [hother j (hne j hj) hjd]
  · by_cases hjd : j = d
    · rw [hjd] at hlink ⊢
      omega
    · rwa [hother j (hne j hj) hjd]
  · by_cases hji : j = i
    · right
      obtain ⟨hdir, hshape⟩ := hparent
      rw [hji, IsDir, make_new hid] at hdir
      rw [hji, make_new hid] at hshape
      have hdots : Shape (newInode i d type) i d :=
        ⟨[], if_pos hdir, fun e he => absurd he List.not_mem_nil⟩
      rw [← hdots.unique hshape]
      have hdir : type = T_DIR := hdir
      refine ⟨hd, ?_⟩
      rw [make_dir]
      change 0 < (s.inode d).nlink + if type = T_DIR then 1 else 0
      rw [if_pos hdir]
      omega
    · left
      have hTd : Function.update s.inode i (newInode i d type) d = s.inode d :=
        Function.update_of_ne hid.symm _ _
      have hmid : HasParent (Function.update s.inode i (newInode i d type)) j pp := by
        refine HasParent.of_update (h.sound.new hi hin hd) (by rw [IsDir, hTd]; exact hd)
          (fun pp hpp hold => ?_) hparent
        rw [hTd] at hold
        exact hold.put (h.sound.pos hd) hpp (hold.proper (h.sound.pos hd) hpp hin.1.ne' hname) rfl
      rwa [HasParent, IsDir, Function.update_of_ne hji] at hmid

theorem Kept.linkTo (h : Kept n s []) (hd : IsDir s.inode d) (hi : (s.inode i).type ≠ 0)
    (hfile : ¬ IsDir s.inode i) (hname : findEntry (s.inode d).entries name = none) :
    Kept n (s.linkTo d i name) [] := by
  obtain ⟨hformed, hsurplus⟩ := linkTo_counts h.sound.toFormed hd hi hfile hname
  have hid : i ≠ d := by
    rintro rfl
    exact hfile hd
  have hTd : (s.addLink i 1).inode d = s.inode d := setInode_of_ne hid.symm
  have htype : ∀ j, ((s.linkTo d i name).inode j).type = (s.inode j).type := fun j => linkTo_type
  refine h.change rfl ⟨hformed, fun j hj => ?_⟩ (fun j _ => htype j) (fun j _ hlink => .inl ?_)
    (List.Subset.refl _) fun j pp hparent => .inl ?_
  · rw [hsurplus]
    exact h.sound.surplus_nonneg j (htype j ▸ hj)
  · rw [linkTo_nlink hid]
    split_ifs
    · omega
    · omega
  · have hmid : HasParent (s.addLink i 1).inode j pp := by
      refine HasParent.of_update
        (h.sound.toFormed.congr fun c => ⟨addLink_type, fun _ => addLink_entries⟩)
        (by rw [IsDir, hTd]; exact hd) (fun pp hpp hold => ?_) hparent
      rw [hTd] at hold
      have hproper := hold.proper (h.sound.pos hd) hpp (h.sound.bound i hi).1.ne' hname
      exact hold.put (h.sound.pos hd) hpp hproper rfl
    exact hmid.of_addLink

theorem unenter_type {j : ℕ} : ((s.unenter d i k).inode j).type = (s.inode j).type := by
  rw [State.unenter, addLink_type]
  by_cases hj : j = d
  · rw [hj, setInode_self]
    rfl
  · rw [setInode_of_ne hj]

theorem unenter_nlink (hid : i ≠ d) {j : ℕ} : ((s.unenter d i k).inode j).nlink =
    (s.inode j).nlink - (if j = i then 1 else 0) - if j = d ∧ IsDir s.inode i then 1 else 0 := by
  rw [State.unenter, addLink_nlink]
  by_cases hj : j = d
  · subst hj
    rw [setInode_self, if_neg hid.symm, if_neg hid.symm]
    change (s.inode j).nlink + (if IsDir s.inode i then -1 else 0) + 0 = _
    simp only [true_and]
    split_ifs
    · ring
    · ring
  · rw [setInode_of_ne hj]
    simp only [hj, false_and, if_false]
    split_ifs
    · ring
    · ring

theorem Kept.unenter (h : Kept n s []) (hd : IsDir s.inode d) (hname : name ≠ dot ∧ name ≠ dotdot)
    (hfind : findEntry (s.inode d).entries name = some (k, i)) (hid : i ≠ d) :
    Kept n (s.unenter d i k) [d, i] := by
  obtain ⟨hformed, hsurplus⟩ := unenter_counts h.sound.toFormed hd hname hfind hid
  refine h.change rfl ⟨hformed, fun j hj => ?_⟩ (fun j _ => unenter_type) (fun j _ hlink => ?_)
    (List.nil_subset _) fun j pp hparent => .inl ?_
  · rw [hsurplus]
    exact h.sound.surplus_nonneg j (unenter_type ▸ hj)
  · by_cases hji : j = i
    · exact .inr (hji ▸ List.mem_cons_of_mem _ List.mem_cons_self)
    · by_cases hjd : j = d
      · exact .inr (hjd ▸ List.mem_cons_self)
      · left
        rw [unenter_nlink hid]
        simp only [hji, hjd, false_and, if_false]
        omega
  · refine HasParent.of_update h.sound.toFormed hd (fun pp _ hold => ?_) hparent.of_addLink
    exact hold.set hname hfind rfl

theorem Kept.setProc [DecidableEq ι] (h : Kept n s refs) (hrefs : refs ⊆ refs')
    (hcwd : ∀ cwd, x.cwd = some cwd → IsDir s.inode cwd)
    (hfile : ∀ fd i, x.ofile fd = some i → (s.inode i).type ≠ 0)
    (hmore : ∀ j, (s.proc p).Holds j → x.Holds j ∨ j ∈ refs') : Kept n (s.setProc p x) refs' := by
  refine ⟨h.sound, fun d pp hd => ?_, fun q cwd hq => ?_, fun q fd i hq => ?_⟩
  · obtain ⟨htype, hlive⟩ := h.parent d pp hd
    refine ⟨htype, ?_⟩
    rcases hlive with (hlink | hheld) | hmem
    · exact .inl (.inl hlink)
    · exact (held_setProc (hmore pp) hheld).imp_left .inr
    · exact .inr (hrefs hmem)
  · by_cases hqp : q = p
    · rw [hqp, setProc_self] at hq
      exact hcwd cwd hq
    · rw [setProc_of_ne hqp] at hq
      exact h.cwd q cwd hq
  · by_cases hqp : q = p
    · rw [hqp, setProc_self] at hq
      exact hfile fd i hq
    · rw [setProc_of_ne hqp] at hq
      exact h.file q fd i hq

theorem Kept.release [Fintype ι] (h : Kept n s refs)
    (hdead : ∀ d pp, HasParent s.inode d pp → s.Dead refs pp → s.Dead refs d) :
    Kept n (s.release refs) [] := by
  have hheld : ∀ i, s.Held i → (s.release refs).inode i = s.inode i := fun i hi =>
    release_kept fun hdead => hdead.2.1 hi
  refine ⟨h.sound.release refs, fun d pp hd => ?_, fun p cwd hcwd => ?_, fun p fd i hfd => ?_⟩
  · by_cases hdd : s.Dead refs d
    · rw [HasParent, IsDir, release_dead hdd] at hd
      exact absurd hd.1 zero_ne_T_DIR
    · have hold : HasParent s.inode d pp := by rwa [HasParent, IsDir, release_kept hdd] at hd
      have hkept : ¬ s.Dead refs pp := fun hpp => hdd (hdead d pp hold hpp)
      obtain ⟨htype, hlive⟩ := h.parent d pp hold
      rw [release_kept hkept]
      refine ⟨htype, .inl ?_⟩
      by_cases hpheld : s.Held pp
      · exact .inr hpheld
      · left
        rw [release_kept hkept]
        rcases hlive with (hlink | hpheld') | hmem
        · exact hlink
        · exact absurd hpheld' hpheld
        · refine lt_of_le_of_ne (h.sound.nlink_nonneg htype) fun hlink => ?_
          exact hkept ⟨hlink.symm, hpheld, hmem⟩
  · rw [IsDir, hheld cwd (held_cwd hcwd)]
    exact h.cwd p cwd hcwd
  · rw [hheld i ⟨p, .inr ⟨fd, hfd⟩⟩]
    exact h.file p fd i hfd

end Kept

section Effects

variable [Fintype ι] [DecidableEq ι] {n : ℕ} {s t : State ι} {refs refs' : List ℕ}
  {c : Call ι} {p : ι}
  {fd : Fin NOFILE} {i j d k cwd : ℕ} {name : Name} {path : Path} {V : ℕ → Prop}

theorem dead_unlink (hlive : s.Live d) (hcwd : (s.proc p).cwd = some cwd)
    (hpath : s.nameiparent cwd path [] = .ok (some (d, name), s))
    (hname : name ≠ dot ∧ name ≠ dotdot)
    (hfind : findEntry (s.inode d).entries name = some (k, i)) (hid : i ≠ d)
    (hempty : IsDir s.inode i → isdirempty (s.inode i) = true) :
    (s.unenter d i k).Dead [d, i] j ↔ Frees s (.unlink p path) j := by
  have hheld : (s.unenter d i k).Held j ↔ s.Held j := Iff.rfl
  constructor
  · rintro ⟨hlink, hnot, hmem⟩
    rw [unenter_nlink hid] at hlink
    refine ⟨cwd, d, name, k, i, hcwd, hpath, hname.1, hname.2, hfind, hid, hempty, hnot, ?_⟩
    rcases List.mem_cons.mp hmem with rfl | hmem
    · simp only [hid.symm, if_false, true_and, sub_zero] at hlink
      split_ifs at hlink with hdir
      · exact ⟨by omega, .inr ⟨rfl, hdir⟩⟩
      · rcases hlive with hpos | hj
        · omega
        · exact absurd hj hnot
    · rw [List.mem_singleton.mp hmem] at hlink ⊢
      simp only [hid, if_true, false_and, if_false, sub_zero] at hlink
      exact ⟨by omega, .inl rfl⟩
  · rintro ⟨cwd', d', name', k', i', hcwd', hpath', -, -, hfind', -, -, hnot, hlink, hwhich⟩
    obtain rfl : cwd = cwd' := Option.some.inj (hcwd.symm.trans hcwd')
    have hsame := hpath.symm.trans hpath'
    simp only [Except.ok.injEq, Prod.mk.injEq, Option.some.injEq, and_true] at hsame
    obtain ⟨rfl, rfl⟩ := hsame
    have hsame := hfind.symm.trans hfind'
    simp only [Option.some.injEq, Prod.mk.injEq] at hsame
    obtain ⟨rfl, rfl⟩ := hsame
    refine ⟨?_, hnot, ?_⟩
    · rw [unenter_nlink hid, hlink]
      rcases hwhich with rfl | ⟨rfl, hdir⟩
      · simp only [if_true, hid, false_and, if_false]
        rfl
      · simp only [hid.symm, hdir, if_false, and_self, if_true]
        rfl
    · rcases hwhich with rfl | ⟨rfl, -⟩
      · exact List.mem_cons_of_mem _ List.mem_cons_self
      · exact List.mem_cons_self

theorem dead_chdir (hcwd : (s.proc p).cwd = some cwd)
    (hpath : s.namei cwd path [] = .ok (some (i, name), s)) (hd : IsDir s.inode i) :
    (s.setCwd p (some i)).Dead [cwd] j ↔ Frees s (.chdir p path) j := by
  constructor
  · rintro ⟨hlink, hnot, hmem⟩
    exact ⟨cwd, i, name, hcwd, hpath, hd, List.mem_singleton.mp hmem, hlink, hnot⟩
  · rintro ⟨cwd', i', name', hcwd', hpath', -, rfl, hlink, hnot⟩
    obtain rfl : cwd = j := Option.some.inj (hcwd.symm.trans hcwd')
    have hsame := hpath.symm.trans hpath'
    simp only [Except.ok.injEq, Prod.mk.injEq, Option.some.injEq, and_true] at hsame
    obtain ⟨rfl, -⟩ := hsame
    exact ⟨hlink, hnot, List.mem_singleton_self _⟩

theorem dead_close (hfd : (s.proc p).ofile fd = some i) :
    (s.setFile p fd none).Dead [i] j ↔ Frees s (.close p fd) j := by
  constructor
  · rintro ⟨hlink, hnot, hmem⟩
    rw [List.mem_singleton.mp hmem] at hlink hnot ⊢
    exact ⟨hfd, hlink, hnot⟩
  · rintro ⟨hfd', hlink, hnot⟩
    exact ⟨hlink, hnot, List.mem_singleton.mpr (Option.some.inj (hfd'.symm.trans hfd))⟩

omit [Fintype ι] [DecidableEq ι] in
theorem mem_refs {x : Proc} : j ∈ x.refs ↔ x.Holds j := by
  rw [Proc.refs, List.mem_append, List.mem_filterMap, Option.mem_toList, Proc.Holds, or_comm]
  simp only [List.mem_finRange, true_and]

theorem dead_exit : (s.setProc p .gone).Dead (s.proc p).refs j ↔ Frees s (.exit p) j := by
  constructor
  · rintro ⟨hlink, hnot, hmem⟩
    exact ⟨mem_refs.mp hmem, hlink, hnot⟩
  · rintro ⟨hholds, hlink, hnot⟩
    exact ⟨hlink, hnot, mem_refs.mpr hholds⟩

omit [Fintype ι] in
theorem Kept.setFile {f : Option ℕ} (h : Kept n s []) (hf : ∀ i, f = some i → (s.inode i).type ≠ 0)
    (hrefs : ∀ i, (s.proc p).ofile fd = some i → i ∈ refs) : Kept n (s.setFile p fd f) refs := by
  refine h.setProc (List.nil_subset _) (h.cwd p) (fun fd' i hi => ?_) fun j hj => ?_
  · change Function.update (s.proc p).ofile fd f fd' = some i at hi
    by_cases hfd : fd' = fd
    · rw [hfd, Function.update_self] at hi
      exact hf i hi
    · rw [Function.update_of_ne hfd] at hi
      exact h.file p fd' i hi
  · rcases hj with hj | ⟨fd', hj⟩
    · exact .inl (.inl hj)
    · by_cases hfd : fd' = fd
      · exact .inr (hrefs j (hfd ▸ hj))
      · exact .inl (.inr ⟨fd', (Function.update_of_ne hfd _ _).trans hj⟩)

omit [Fintype ι] in
theorem Kept.setCwd (h : Kept n s []) (hi : IsDir s.inode i) (hcwd : (s.proc p).cwd = some cwd) :
    Kept n (s.setCwd p (some i)) [cwd] := by
  refine h.setProc (List.nil_subset _) (fun j hj => ?_) (h.file p) fun j hj => ?_
  · obtain rfl : i = j := Option.some.inj hj
    exact hi
  · rcases hj with hj | hj
    · exact .inr (List.mem_singleton.mpr (Option.some.inj (hj.symm.trans hcwd)))
    · exact .inl (.inr hj)

omit [Fintype ι] in
theorem Kept.exit (h : Kept n s []) : Kept n (s.setProc p .gone) (s.proc p).refs := by
  refine h.setProc (List.nil_subset _) (fun j hj => ?_) (fun fd j hj => ?_) fun j hj => ?_
  · cases hj
  · cases hj
  · exact .inr (mem_refs.mpr hj)

theorem Kept.effect (h : Kept n s []) (hspares : Spares s c)
    (heffect : Effect n (fun i => (s.inode i).type ≠ 0 ∧ s.Live i) s c t) : Kept n t [] := by
  have hclosed : ∀ {u : State ι} {refs : List ℕ}, (∀ j, u.Dead refs j ↔ Frees s c j) →
      (∀ d pp, HasParent u.inode d pp → HasParent s.inode d pp) →
      ∀ d pp, HasParent u.inode d pp → u.Dead refs pp → u.Dead refs d := by
    intro u refs hdead hparent d pp hd hpp
    exact (hdead d).mpr (hspares pp d ((hdead pp).mp hpp) (hparent d pp hd))
  cases heffect with
  | same => exact h
  | make hd hi hin htype hname => exact h.make hd hi hin htype hname
  | @makeOpen _ d i name type p fd hd hi hin htype hname hfd =>
      refine (h.make hd hi hin htype hname).setFile (fun j hj => ?_) fun j hj => ?_
      · obtain rfl : i = j := Option.some.inj hj
        have hid : i ≠ d := by
          rintro rfl
          exact hd.ne_zero hi
        rw [make_new hid]
        exact htype
      · cases hfd.symm.trans hj
  | openFile hi hfd =>
      refine h.setFile (fun j hj => ?_) fun j hj => ?_
      · exact Option.some.inj hj ▸ hi
      · cases hfd.symm.trans hj
  | link hd hi hfile hname => exact h.linkTo hd hi hfile hname
  | @unlink p path cwd d i k name hcwd hpath hd hV hname hfind hid hi hlink hempty =>
      have hdead : ∀ j, (s.unenter d i k).Dead [d, i] j ↔ Frees s (.unlink p path) j := fun j =>
        dead_unlink hV.2 hcwd hpath hname hfind hid hempty
      refine (h.unenter hd hname hfind hid).release (hclosed hdead fun d' pp hparent => ?_)
      refine HasParent.of_update h.sound.toFormed hd (fun pp _ hold => ?_) hparent.of_addLink
      exact hold.set hname hfind rfl
  | chdir hcwd hpath hd hV =>
      exact (h.setCwd hd hcwd).release (hclosed (fun j => dead_chdir hcwd hpath hd) fun _ _ => id)
  | close hfd =>
      have hfile := h.setFile (f := none) (fun j hj => by cases hj) fun j hj =>
        List.mem_singleton.mpr (Option.some.inj (hj.symm.trans hfd))
      exact hfile.release (hclosed (fun j => dead_close hfd) fun _ _ => id)
  | exit hcwd => exact h.exit.release (hclosed (fun j => dead_exit) fun _ _ => id)

end Effects

section Runs

open TransitionRuns

variable [Fintype ι] [DecidableEq ι]

/-- The states of runs that spare the parents of removed directories. -/
def SparingReachable (n : ℕ) (s : State ι) : Prop :=
  Reaches (fun s => Kept n s []) (fun s t => ∃ c r, Spares s c ∧ step n s c = .ok (r, t)) s

theorem SparingReachable.kept {n : ℕ} {s : State ι} (h : SparingReachable n s) : Kept n s [] := by
  have hrun : Reaches _ _ s := h
  clear h
  induction hrun with
  | start h => exact h
  | step _ hnext ih =>
      obtain ⟨c, r, hspares, hstep⟩ := hnext
      exact ih.effect hspares ((step_spec ih.visits ih.sound.root c).of_ok hstep)

/-- Every entry of every directory names an allocated inode, and no call finds a free one. -/
theorem entries_allocated {n : ℕ} {s : State ι} (h : SparingReachable n s) :
    (∀ d, IsDir s.inode d → ∀ e ∈ (s.inode d).entries, e.inum ≠ 0 → (s.inode e.inum).type ≠ 0) ∧
      ∀ c, step n s c ≠ .error .noType := by
  have hkept := h.kept
  refine ⟨fun d hd e he hi => ?_, fun c hc => ?_⟩
  · obtain ⟨pp, -, hshape⟩ := hkept.sound.shape d hd
    rcases hshape.mem he hi with rfl | rfl | hp
    · exact hd.ne_zero
    · exact (hkept.parent d pp ⟨hd, hshape⟩).1
    · exact hkept.sound.named d hd e he hp
  · obtain ⟨i, hi, hfree⟩ := (step_spec hkept.visits hkept.sound.root c).of_error hc rfl
    exact hi.1 hfree

omit [Fintype ι] [DecidableEq ι] in
theorem boot_kept {n : ℕ} {files : List Name} (hfiles : ∀ name ∈ files, name ≠ dot ∧ name ≠ dotdot)
    (hn : files.length + 2 ≤ n) : Kept n (boot files : State ι) [] := by
  have hformed : Formed n (mkfsInode files) := mkfs_formed hfiles hn
  have hsound : Sound n (mkfsInode files) := ⟨hformed, fun i hi => (mkfs_surplus hfiles hn hi).ge⟩
  refine ⟨hsound, fun d pp hd => ?_, fun p cwd hcwd => ?_, fun p fd i hfd => ?_⟩
  · obtain ⟨hdir, hshape⟩ := hd
    obtain rfl := mkfs_dir.mp hdir
    obtain ⟨rest, heq, -⟩ := hshape
    have hpp : pp = ROOTINO := (congrArg Dirent.inum (List.cons.inj (List.cons.inj heq).2).1).symm
    rw [hpp]
    exact ⟨hformed.root.ne_zero, .inl (.inl Int.one_pos)⟩
  · obtain rfl : ROOTINO = cwd := Option.some.inj hcwd
    exact hformed.root
  · cases hfd

/-- The `..` of every directory names the root. -/
def Shallow (n : ℕ) (s : State ι) : Prop :=
  ∀ d < n, IsDir s.inode d → (s.inode d).entries[1]? = some ⟨ROOTINO, dotdot⟩

instance (n : ℕ) (s : State ι) : Decidable (Shallow n s) :=
  inferInstanceAs (Decidable (∀ d < n, IsDir s.inode d →
    (s.inode d).entries[1]? = some ⟨ROOTINO, dotdot⟩))

theorem Shallow.spares {n : ℕ} {s : State ι} {c : Call ι} (h : Shallow n s)
    (hs : SparingReachable n s)
    (hroot : ¬ Frees s c ROOTINO) : Spares s c := by
  intro i d hfrees hparent
  obtain ⟨hdir, rest, hentries, -⟩ := hparent
  have hsecond := h d (hs.kept.sound.bound d hdir.ne_zero).2 hdir
  rw [hentries] at hsecond
  obtain rfl : i = ROOTINO := congrArg Dirent.inum (Option.some.inj hsecond)
  exact absurd hfrees hroot

theorem entries_allocated_removed_cwd : ∃ s t, SparingReachable 5 (t : State Unit) ∧
    step 5 s (.chdir () ⟨true, []⟩) = .ok (0, t) ∧ (s.inode 2).type = T_DIR ∧
      (s.inode 2).nlink = 0 ∧ (t.inode 2).type = 0 ∧ ∀ c, step 5 t c ≠ .error .noType := by
  have hrun : ((step 5 (boot [] : State Unit) (.mkdir () ⟨true, [[97]]⟩)).toOption.any fun x =>
      (Shallow 5 x.2 ∧ (x.2.inode ROOTINO).nlink = 2) ∧
        (step 5 x.2 (.chdir () ⟨true, [[97]]⟩)).toOption.any fun x =>
      (Shallow 5 x.2 ∧ (x.2.inode ROOTINO).nlink = 2) ∧
        (step 5 x.2 (.unlink () ⟨true, [[97]]⟩)).toOption.any fun x =>
      (Shallow 5 x.2 ∧ (x.2.inode ROOTINO).nlink = 1 ∧ (x.2.inode 2).type = T_DIR ∧
          (x.2.inode 2).nlink = 0) ∧
        (step 5 x.2 (.chdir () ⟨true, []⟩)).toOption.any fun x =>
      x.1 = 0 ∧ (x.2.inode 2).type = 0) = true := by
    decide +kernel
  obtain ⟨⟨_, s₁⟩, h₁, hrun⟩ := (Option.any_eq_true _ _).mp hrun
  obtain ⟨⟨hparent₁, hlinks₁⟩, hrun⟩ := of_decide_eq_true hrun
  obtain ⟨⟨_, s₂⟩, h₂, hrun⟩ := (Option.any_eq_true _ _).mp hrun
  obtain ⟨⟨hparent₂, hlinks₂⟩, hrun⟩ := of_decide_eq_true hrun
  obtain ⟨⟨_, s₃⟩, h₃, hrun⟩ := (Option.any_eq_true _ _).mp hrun
  obtain ⟨⟨hparent₃, hlinks₃, hdir, hzero⟩, hrun⟩ := of_decide_eq_true hrun
  obtain ⟨⟨r, t⟩, h₄, hrun⟩ := (Option.any_eq_true _ _).mp hrun
  obtain ⟨rfl, hfree⟩ := of_decide_eq_true hrun
  have hchdir : ∀ {s : State Unit} {path}, (s.inode ROOTINO).nlink ≠ 0 →
      ¬ Frees s (.chdir () path) ROOTINO := by
    rintro s path hlinks ⟨-, -, -, -, -, -, -, hnone, -⟩
    exact hlinks hnone
  have hunlink : ¬ Frees s₂ (.unlink () ⟨true, [[97]]⟩) ROOTINO := by
    rintro ⟨-, -, -, -, -, -, -, -, -, -, -, -, -, hone, -⟩
    exact absurd (hlinks₂.symm.trans hone) (by decide)
  have hmade : SparingReachable 5 s₁ := by
    refine .step (.start (boot_kept ?_ ?_)) ⟨_, _, ?_, Outcomes.ok_of_toOption h₁⟩
    · exact fun name hname => absurd hname List.not_mem_nil
    · decide
    · exact fun i d hfrees => hfrees.elim
  have hmoved : SparingReachable 5 s₂ := .step hmade
    ⟨_, _, hparent₁.spares hmade (hchdir (by rw [hlinks₁]; decide)), Outcomes.ok_of_toOption h₂⟩
  have hremoved : SparingReachable 5 s₃ := .step hmoved
    ⟨_, _, hparent₂.spares hmoved hunlink, Outcomes.ok_of_toOption h₃⟩
  have hleft : SparingReachable 5 t := .step hremoved
    ⟨_, _, hparent₃.spares hremoved (hchdir (by rw [hlinks₃]; decide)), Outcomes.ok_of_toOption h₄⟩
  exact ⟨s₃, t, hleft, Outcomes.ok_of_toOption h₄, hdir, hzero, hfree, (entries_allocated hleft).2⟩

/-- A process moves into a directory, and removes it and its parent. -/
def removeParent : List (Call Unit) :=
  [.mkdir () ⟨true, [[97]]⟩, .mkdir () ⟨true, [[97], [98]]⟩, .chdir () ⟨true, [[97], [98]]⟩,
    .unlink () ⟨true, [[97], [98]]⟩, .unlink () ⟨true, [[97]]⟩]

/-- After that the `..` of its directory names a free inode, and `chdir("..")` panics. -/
theorem parent_freed :
    (∀ d, IsDir (boot [] : State Unit).inode d → ∀ e ∈ ((boot [] : State Unit).inode d).entries,
      e.inum ≠ 0 → ((boot [] : State Unit).inode e.inum).type ≠ 0) ∧
    ∃ s, execute (fun s c => (step 200 s c).toOption.map Prod.snd)
    (boot [] : State Unit) removeParent =
        some s ∧
      IsDir s.inode 3 ∧ ⟨2, dotdot⟩ ∈ (s.inode 3).entries ∧ (s.inode 2).type = 0 ∧
      step 200 s (.chdir () ⟨false, [dotdot]⟩) = .error .noType := by
  constructor
  · intro d hd
    obtain rfl := mkfs_dir.mp hd
    decide +kernel
  · have hrun : (execute (fun s c => (step 200 s c).toOption.map Prod.snd) (boot [] : State Unit)
        removeParent).any (fun s => decide (IsDir s.inode 3 ∧ ⟨2, dotdot⟩ ∈ (s.inode 3).entries ∧
          (s.inode 2).type = 0) && match step 200 s (.chdir () ⟨false, [dotdot]⟩) with
            | .error .noType => true
            | _ => false) = true := by decide +kernel
    obtain ⟨s, hs, hprop⟩ := (Option.any_eq_true _ _).mp hrun
    obtain ⟨hprop, hpanic⟩ := Bool.and_eq_true_iff.mp hprop
    obtain ⟨hdir, hentry, hfree⟩ := of_decide_eq_true hprop
    refine ⟨s, hs, hdir, hentry, hfree, ?_⟩
    split at hpanic
    · assumption
    · cases hpanic

end Runs

end FileTree

end Xv6Fairness
