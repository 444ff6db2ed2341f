import Mathlib.Data.Fintype.BigOperators
import Xv6Fairness.FileReferences
import Xv6Fairness.Outcomes

/-!
# Every run of the file calls

Each step keeps the counts, so that neither panic of the file table can be reached. While no call is
in progress the count of a structure is the number of descriptors that point to it; every inode
reference is put once and every pipe is freed once, when the last descriptor of its second end is
gone.
-/

namespace Xv6Fairness

open Finset Counting TransitionRuns FileTree

namespace FileTable

variable {ι : Type} [Fintype ι] [DecidableEq ι]

instance (s : State ι) : Decidable (Quiet s) := inferInstanceAs (Decidable (∀ _, _))

structure Inv (s : State ι) : Prop where
  refs : Refs s.file s.proc
  targets : Targets s
  table : Table s.proc

/-- Everything but the references and the targets of a process is at rest. -/
structure Plain (pc : Pc ι) : Prop where
  closed : pc.closed = none
  child : pc.child = none
  emptied : pc.emptied = 0
  ne_embryo : pc ≠ .embryo

/-- A process that holds nothing but its descriptors. -/
structure Idle (pc : Pc ι) : Prop where
  held : pc.held = []
  fresh : pc.fresh = []
  target : pc.target = none
  closed : pc.closed = none

section Moves

variable {s t : State ι} {p : ι} {y : Proc ι} {pc : Pc ι} {f : FileId} {fd : Fd}

omit [Fintype ι] [DecidableEq ι] in
theorem Plain.tidy (h : Plain pc) {o : Fd → Option FileId} :
    ∀ fd : Fd, fd.val < pc.emptied → o fd = none := by
  intro fd hfd
  rw [h.emptied] at hfd
  exact absurd hfd (Nat.not_lt_zero _)

omit [Fintype ι] [DecidableEq ι] in
theorem share_goto (hold : y.pc.closed = none) (hnew : pc.closed = none) (g : FileId) :
    ({ y with pc := pc } : Proc ι).share g + y.pc.held.count g =
      y.share g + pc.held.count g := by
  have hy : ({ y with pc := pc } : Proc ι).share g = _ := share_eq hnew
  rw [hy, share_eq hold]
  dsimp only
  omega

omit [Fintype ι] [DecidableEq ι] in
theorem plain_of_eq {pc' : Pc ι} (h : (s.proc p).pc = pc') (hplain : Plain pc') :
    Plain (s.proc p).pc := h ▸ hplain

theorem Inv.move (h : Inv s) (hembryo : (s.proc p).pc ≠ .embryo)
    (htidy : ∀ fd : Fd, fd.val < y.pc.emptied → y.ofile fd = none) (hchild : y.pc.child = none)
    (hshare : ∀ g, y.share g = (s.proc p).share g) (hfresh : y.pc.fresh ⊆ (s.proc p).pc.fresh)
    (htarget : y.pc.target = (s.proc p).pc.target) : Inv (s.setProc p y) := by
  exact ⟨h.refs.move hshare fun g hg => hfresh hg, h.targets.congr fun _ => live_keep htarget,
    h.table.move hembryo htidy hchild⟩

theorem Inv.goto (h : Inv s) (hold : Plain (s.proc p).pc) (hnew : Plain pc)
    (hheld : ∀ g, pc.held.count g = (s.proc p).pc.held.count g)
    (hfresh : pc.fresh ⊆ (s.proc p).pc.fresh) (htarget : pc.target = (s.proc p).pc.target) :
    Inv (s.goto p pc) := by
  refine h.move hold.ne_embryo hnew.tidy hnew.child (fun g => ?_) hfresh htarget
  have hshare := share_goto hold.closed hnew.closed g
  rw [hheld] at hshare
  exact Nat.add_right_cancel hshare

omit [Fintype ι] [DecidableEq ι] in
theorem filealloc_some (h : filealloc s = some (f, t)) :
    (s.file f).ref = 0 ∧ t = s.setFile f { s.file f with ref := 1 } := by
  obtain ⟨g, hg, heq⟩ := Option.map_eq_some_iff.mp h
  cases heq
  have hzero := List.find?_some hg
  rw [decide_eq_true_iff] at hzero
  exact ⟨hzero, rfl⟩

theorem Inv.alloc (h : Inv s) (hold : Plain (s.proc p).pc) (hnew : Plain pc)
    (hzero : (s.file f).ref = 0)
    (hheld : ∀ g, pc.held.count g = (s.proc p).pc.held.count g + if g = f then 1 else 0)
    (hfresh : ∀ g ∈ pc.fresh, g = f ∨ g ∈ (s.proc p).pc.fresh)
    (htarget : pc.target = (s.proc p).pc.target) :
    Inv ((s.setFile f { s.file f with ref := 1 }).goto p pc) := by
  refine ⟨h.refs.alloc hzero (fun g => ?_) hfresh, h.targets.congr fun t =>
    live_move (fun t => ?_) t,
    h.table.move hold.ne_embryo hnew.tidy hnew.child⟩
  · have hshare := share_goto hold.closed hnew.closed g
    rw [hheld] at hshare
    have hy : (⟨(s.proc p).ofile, pc⟩ : Proc ι).share g =
        (s.proc p).share g + if g = f then 1 else 0 := by omega
    exact hy
  · simp only [htarget]
    rfl

theorem Inv.dup {q : ι} (h : Inv s) (hpos : 0 < (s.proc q).share f)
    (hnot : f ∉ (s.proc q).pc.fresh) (htable : Table (Function.update s.proc p y))
    (hshare : ∀ g, y.share g = (s.proc p).share g + if g = f then 1 else 0)
    (hfresh : y.pc.fresh = []) (htarget : y.pc.target = (s.proc p).pc.target) :
    Inv ((s.setFile f { s.file f with ref := (s.file f).ref + 1 }).setProc p y) := by
  refine ⟨h.refs.dup hpos hnot hshare hfresh, h.targets.congr fun t => live_move (fun t => ?_) t,
    htable⟩
  simp only [htarget]
  rfl

theorem Inv.drop (h : Inv s) (hembryo : (s.proc p).pc ≠ .embryo) (hmany : 2 ≤ (s.file f).ref)
    (htidy : ∀ fd : Fd, fd.val < y.pc.emptied → y.ofile fd = none) (hchild : y.pc.child = none)
    (hshare : ∀ g, y.share g + (if g = f then 1 else 0) = (s.proc p).share g)
    (hfresh : y.pc.fresh = []) (htarget : y.pc.target = (s.proc p).pc.target) :
    Inv ((s.setFile f { s.file f with ref := (s.file f).ref - 1 }).setProc p y) := by
  refine ⟨h.refs.drop hmany hshare hfresh, h.targets.congr fun t => live_move (fun t => ?_) t,
    h.table.move hembryo htidy hchild⟩
  simp only [htarget]
  rfl

theorem Inv.last (h : Inv s) (hembryo : (s.proc p).pc ≠ .embryo) (hone : (s.file f).ref = 1)
    (htidy : ∀ fd : Fd, fd.val < y.pc.emptied → y.ofile fd = none) (hchild : y.pc.child = none)
    (hshare : ∀ g, y.share g + (if g = f then 1 else 0) = (s.proc p).share g)
    (hfresh : y.pc.fresh = []) (hnone : (s.proc p).pc.target = none)
    (htarget : y.pc.target = (s.file f).target) : Inv ((s.setFile f ⟨0, none⟩).setProc p y) := by
  refine ⟨h.refs.last hone hshare hfresh, h.targets.congr fun t => live_move (fun t => ?_) t,
    h.table.move hembryo htidy hchild⟩
  dsimp only [State.setFile]
  simp only [htarget, hnone, reduceCtorEq, if_false]
  exact Nat.add_comm _ _

omit [Fintype ι] in
theorem dropTarget_setProc (t : Target) : (dropTarget s t).setProc p y =
    { dropTarget s t with file := s.file, proc := Function.update s.proc p y } := by
  cases t <;> rfl

theorem Inv.dropTarget {t : Target} (h : Inv s) (hembryo : (s.proc p).pc ≠ .embryo)
    (hold : (s.proc p).pc.target = some t)
    (htidy : ∀ fd : Fd, fd.val < y.pc.emptied → y.ofile fd = none) (hchild : y.pc.child = none)
    (hshare : ∀ g, y.share g = (s.proc p).share g) (hfresh : y.pc.fresh = [])
    (htarget : y.pc.target = none) : Inv ((dropTarget s t).setProc p y) := by
  rw [dropTarget_setProc]
  refine ⟨?_, h.targets.drop ?_ fun t' => ?_, ?_⟩
  · exact h.refs.move hshare fun g hg => by
      rw [hfresh] at hg
      cases hg
  · exact Nat.add_pos_right _ (card_filter_pos (P := fun p => (s.proc p).pc.target = some t) hold)
  · have hlive : live s.file (Function.update s.proc p y) t' + _ = _ := live_setProc
    rw [hold, htarget, if_neg (Option.some_ne_none t').symm] at hlive
    simp only [Option.some_inj, eq_comm] at hlive ⊢
    exact hlive
  · exact h.table.move hembryo htidy hchild

omit [Fintype ι] [DecidableEq ι] in
theorem closeAll_plain (rest : List FileId) : Plain (closeAll rest : Pc ι) ∧
    (closeAll rest : Pc ι).fresh = [] ∧ (closeAll rest : Pc ι).target = none ∧
    (closeAll rest : Pc ι).held = rest := by
  cases rest with
  | nil => exact ⟨⟨rfl, rfl, rfl, nofun⟩, rfl, rfl, rfl⟩
  | cons f rest => exact ⟨⟨rfl, rfl, rfl, nofun⟩, rfl, rfl, rfl⟩

omit [DecidableEq ι] in
theorem Refs.fileclose (h : Refs s.file s.proc) (hpos : 0 < (s.proc p).share f) :
    2 ≤ (s.file f).ref ∧ FileTable.fileclose s f =
      .ok (none, s.setFile f { s.file f with ref := (s.file f).ref - 1 }) ∨
    (s.file f).ref = 1 ∧ FileTable.fileclose s f =
      .ok ((s.file f).target, s.setFile f ⟨0, none⟩) := by
  have hle := h.share_le (p := p) (f := f)
  by_cases hone : (s.file f).ref = 1
  · right
    refine ⟨hone, ?_⟩
    rw [FileTable.fileclose, if_neg (by omega), if_neg (by omega)]
  · left
    refine ⟨by omega, ?_⟩
    rw [FileTable.fileclose, if_neg (by omega), if_pos (by omega)]

theorem count_cons (f g : FileId) (l : List FileId) :
    (f :: l).count g = (if g = f then 1 else 0) + l.count g := by
  by_cases h : g = f
  · rw [h, if_pos rfl, List.count_cons_self, Nat.add_comm]
  · rw [if_neg h, List.count_cons_of_ne (Ne.symm h), Nat.zero_add]

theorem count_singleton (f g : FileId) : [f].count g = if g = f then 1 else 0 := count_cons f g []

omit [Fintype ι] [DecidableEq ι] in
theorem share_release (hold : y.pc.closed = none) (hnew : pc.closed = none)
    (hheld : y.pc.held = f :: pc.held) (g : FileId) :
    ({ y with pc := pc } : Proc ι).share g + (if g = f then 1 else 0) =
      y.share g := by
  have hshare := share_goto hold hnew g
  rw [hheld, count_cons] at hshare
  omega

theorem Inv.closeFile {rest : List FileId} (h : Inv s) (hpc : (s.proc p).pc = .closing f rest) :
    ∃ t, closeFile s p f rest = .ok t ∧ Inv t := by
  have hheld : (s.proc p).pc.held = f :: rest := congrArg Pc.held hpc
  have hclosed : (s.proc p).pc.closed = none := by
    rw [hpc]
    rfl
  have hembryo : (s.proc p).pc ≠ .embryo := by
    rw [hpc]
    exact nofun
  have hnone : (s.proc p).pc.target = none := congrArg Pc.target hpc
  obtain ⟨hplain, hfresh, htarget, hrest⟩ := @closeAll_plain ι rest
  have hpos : 0 < (s.proc p).share f := share_pos_of_held (hheld ▸ List.mem_cons_self)
  have hshare := share_release hclosed hplain.closed (hheld.trans (congrArg (f :: ·) hrest.symm))
  rcases h.refs.fileclose hpos with ⟨hmany, heq⟩ | ⟨hone, heq⟩
  · refine ⟨_, by rw [FileTable.closeFile, heq]; rfl, ?_⟩
    exact h.drop hembryo hmany hplain.tidy hplain.child hshare hfresh (htarget.trans hnone.symm)
  · cases hfile : (s.file f).target with
    | none =>
        rw [hfile] at heq
        refine ⟨_, by rw [FileTable.closeFile, heq]; rfl, ?_⟩
        exact h.last hembryo hone hplain.tidy hplain.child hshare hfresh hnone
          (htarget.trans hfile.symm)
    | some t =>
        rw [hfile] at heq
        have hdrop : Plain (.dropping t rest : Pc ι) := ⟨rfl, rfl, rfl, nofun⟩
        refine ⟨_, by rw [FileTable.closeFile, heq]; rfl, ?_⟩
        exact h.last hembryo hone hdrop.tidy hdrop.child
          (share_release hclosed hdrop.closed hheld) rfl hnone hfile.symm

omit [Fintype ι] [DecidableEq ι] in
theorem share_store (hold : y.pc.closed = none) (hnew : pc.closed = none)
    (hempty : y.ofile fd = none) (g : FileId) :
    (⟨Function.update y.ofile fd (some f), pc⟩ : Proc ι).share g +
      y.pc.held.count g =
      y.share g + (if g = f then 1 else 0) + pc.held.count g := by
  have hy : (⟨Function.update y.ofile fd (some f), pc⟩ : Proc ι).share g = _ := share_eq hnew
  have hcard := card_entries y.ofile fd (some f) g
  rw [hempty, if_neg (Option.some_ne_none g).symm] at hcard
  simp only [Option.some_inj] at hcard
  have hcomm : (if f = g then 1 else 0) = if g = f then 1 else 0 := if_congr eq_comm rfl rfl
  rw [hy, share_eq hold]
  dsimp only
  omega

omit [Fintype ι] [DecidableEq ι] in
theorem share_clear (hold : y.pc.closed = none) (hnew : pc.closed = none)
    (hslot : y.ofile fd = some f) (g : FileId) :
    (⟨Function.update y.ofile fd none, pc⟩ : Proc ι).share g + (if g = f then 1 else 0) +
      y.pc.held.count g = y.share g + pc.held.count g := by
  have hy : (⟨Function.update y.ofile fd none, pc⟩ : Proc ι).share g = _ := share_eq hnew
  have hcard := card_entries y.ofile fd none g
  rw [hslot, if_neg (Option.some_ne_none g).symm] at hcard
  simp only [Option.some_inj] at hcard
  have hcomm : (if f = g then 1 else 0) = if g = f then 1 else 0 := if_congr eq_comm rfl rfl
  rw [hy, share_eq hold]
  dsimp only
  omega

theorem Inv.openFile (h : Inv s) (hpc : (s.proc p).pc = .opening f) : Inv (openFile s p f) := by
  have hplain : Plain (s.proc p).pc := plain_of_eq hpc ⟨rfl, rfl, rfl, nofun⟩
  have hheld : (s.proc p).pc.held = [f] := congrArg Pc.held hpc
  have hnone : (s.proc p).pc.target = none := congrArg Pc.target hpc
  rw [FileTable.openFile]
  cases hfd : fdalloc f (s.proc p) with
  | none =>
      refine h.goto hplain ⟨rfl, rfl, rfl, nofun⟩ (fun g => ?_) (List.nil_subset _) hnone.symm
      rw [hheld]
      rfl
  | some y =>
      obtain ⟨fd, hempty, rfl⟩ := fdalloc_some hfd
      have hfresh := h.refs.fresh p f (by rw [hpc]; exact List.mem_singleton_self f)
      have hshare : ∀ g, (⟨Function.update (s.proc p).ofile fd (some f), .user⟩ : Proc ι).share g =
          (s.proc p).share g := by
        intro g
        have hstore :=
          share_store (f := f) hplain.closed (show (.user : Pc ι).closed = none from rfl)
          hempty g
        rw [hheld, count_singleton] at hstore
        change _ = _ + _ + 0 at hstore
        omega
      have hrefs := h.refs.move (y := ⟨Function.update (s.proc p).ofile fd (some f), .user⟩) hshare
        fun g hg => by cases hg
      have hpos : 0 < (Function.update s.proc p
          ⟨Function.update (s.proc p).ofile fd (some f), .user⟩ p).share f := by
        rw [Function.update_self, hshare]
        exact share_pos_of_held (hheld ▸ List.mem_singleton_self f)
      have hnot := hrefs.not_fresh hpos (by rw [Function.update_self]; exact List.not_mem_nil)
      refine ⟨hrefs.setTarget (by rw [hfresh.1]; exact one_ne_zero) hnot (some (.inode s.inodes)),
        h.targets.openInode fun t => ?_, h.table.move hplain.ne_embryo (fun fd hfd => ?_) rfl⟩
      · exact (live_setTarget hfresh.2).trans (congrArg (· + _) (live_keep hnone.symm))
      · exact absurd hfd (Nat.not_lt_zero _)

theorem Inv.makePipe {f0 f1 : FileId} (h : Inv s) (hpc : (s.proc p).pc = .filled f0 f1) :
    Inv (makePipe s p f0 f1) := by
  have hplain : Plain (s.proc p).pc := plain_of_eq hpc ⟨rfl, rfl, rfl, by rintro ⟨⟩⟩
  have hheld : (s.proc p).pc.held = [f0, f1] := congrArg Pc.held hpc
  have hnone : (s.proc p).pc.target = none := congrArg Pc.target hpc
  have h0 := h.refs.fresh p f0 (by rw [hpc]; exact List.mem_cons_self)
  have h1 := h.refs.fresh p f1 (by rw [hpc]; exact List.mem_cons_of_mem _ List.mem_cons_self)
  have hne : f1 ≠ f0 := by
    rintro rfl
    have hle := h.refs.share_le (p := p) (f := f1)
    rw [h0.1, Proc.share, hheld, List.count_cons_self, List.count_singleton_self] at hle
    omega
  have hbuilt : ∀ y : Proc ι, (∀ g, y.share g = (s.proc p).share g) → y.pc.fresh = [] →
      y.pc.target = none → Plain y.pc → Inv { s with
        file := Function.update (Function.update s.file f0
          { s.file f0 with target := some (.pipe s.pipes false) }) f1
          { s.file f1 with target := some (.pipe s.pipes true) }
        proc := Function.update s.proc p y
        pipes := s.pipes + 1
        pipe := Function.update s.pipe s.pipes ⟨true, true, 0⟩ } := by
    intro y hshare hfresh htarget hy
    have hrefs := h.refs.move hshare fun g hg => by
      rw [hfresh] at hg
      cases hg
    have hnot : ∀ f ∈ [f0, f1], ∀ q, f ∉ (Function.update s.proc p y q).pc.fresh := by
      intro f hf
      refine hrefs.not_fresh (p := p) ?_ ?_
      · rw [Function.update_self, hshare]
        exact share_pos_of_held (hheld ▸ hf)
      · rw [Function.update_self, hfresh]
        exact List.not_mem_nil
    have hsecond : Function.update s.file f0
        { s.file f0 with target := some (.pipe s.pipes false) } f1 = s.file f1 :=
      Function.update_of_ne hne _ _
    refine ⟨?_, h.targets.openPipe fun t => ?_, h.table.move hplain.ne_embryo hy.tidy hy.child⟩
    · rw [← hsecond]
      refine (hrefs.setTarget ?_ (hnot f0 List.mem_cons_self) _).setTarget ?_
        (hnot f1 (List.mem_cons_of_mem _ List.mem_cons_self)) _
      · rw [h0.1]
        exact one_ne_zero
      · rw [hsecond, h1.1]
        exact one_ne_zero
    · rw [← hsecond, live_setTarget (by rw [hsecond]; exact h1.2), live_setTarget h0.2,
        live_keep (htarget.trans hnone.symm)]
  rw [FileTable.makePipe]
  cases hfd : (fdalloc f0 (s.proc p)).bind (fdalloc f1) with
  | none =>
      refine hbuilt ⟨(s.proc p).ofile, .closing f0 [f1]⟩ (fun g => ?_) rfl rfl
        ⟨rfl, rfl, rfl, by rintro ⟨⟩⟩
      have hshare :=
        share_goto hplain.closed (show (.closing f0 [f1] : Pc ι).closed = none from rfl) g
      rw [hheld] at hshare
      exact Nat.add_right_cancel hshare
  | some y =>
      obtain ⟨y', hfd0, hfd1⟩ := Option.bind_eq_some_iff.mp hfd
      obtain ⟨fd0, hempty0, rfl⟩ := fdalloc_some hfd0
      obtain ⟨fd1, hempty1, rfl⟩ := fdalloc_some hfd1
      refine hbuilt _ (fun g => ?_) rfl rfl ⟨rfl, rfl, rfl, by rintro ⟨⟩⟩
      have hfirst := share_store (f := f0) hplain.closed hplain.closed hempty0 g
      have hclosed : (⟨Function.update (s.proc p).ofile fd0 (some f0), (s.proc p).pc⟩ :
          Proc ι).pc.closed =
        none := hplain.closed
      have hsecond := share_store (f := f1) hclosed (show (.user : Pc ι).closed = none from rfl)
        hempty1 g
      dsimp only at hsecond
      rw [hheld, count_cons, count_singleton] at hsecond
      change _ = _ + _ + 0 at hsecond
      dsimp only
      omega

theorem Inv.sysDup (h : Inv s) (hpc : (s.proc p).pc = .user) (fd : Fd) :
    ∃ t, sysDup s p fd = .ok t ∧ Inv t := by
  have hplain : Plain (s.proc p).pc := plain_of_eq hpc ⟨rfl, rfl, rfl, nofun⟩
  have hfresh : (s.proc p).pc.fresh = [] := congrArg Pc.fresh hpc
  rw [FileTable.sysDup]
  cases hslot : (s.proc p).ofile fd with
  | none => exact ⟨s, rfl, h⟩
  | some f =>
      dsimp only
      cases hfd : fdalloc f (s.proc p) with
      | none => exact ⟨s, rfl, h⟩
      | some y =>
          obtain ⟨fd', hempty, rfl⟩ := fdalloc_some hfd
          have hpos : 0 < (s.proc p).share f :=
            share_pos_of_slot ((slot_eq hplain.closed).trans hslot)
          have hle := h.refs.share_le (p := p) (f := f)
          refine ⟨_, if_neg (show ¬ (s.file f).ref < 1 by omega), ?_⟩
          refine h.dup hpos (by rw [hfresh]; exact List.not_mem_nil)
            (h.table.move hplain.ne_embryo hplain.tidy hplain.child) (fun g => ?_) hfresh rfl
          exact Nat.add_right_cancel (share_store hplain.closed hplain.closed hempty g)

theorem Inv.close (h : Inv s) (hpc : (s.proc p).pc = .user) (hslot : (s.proc p).ofile fd = some f) :
    Inv (s.setProc p ⟨Function.update (s.proc p).ofile fd none, .closing f []⟩) := by
  have hplain : Plain (s.proc p).pc := plain_of_eq hpc ⟨rfl, rfl, rfl, nofun⟩
  have hheld : (s.proc p).pc.held = [] := congrArg Pc.held hpc
  have hnone : (s.proc p).pc.target = none := congrArg Pc.target hpc
  have hnew : Plain (.closing f [] : Pc ι) := ⟨rfl, rfl, rfl, nofun⟩
  refine h.move hplain.ne_embryo hnew.tidy hnew.child (fun g => ?_) (List.nil_subset _) hnone.symm
  have hclear :=
    share_clear hplain.closed (show (.closing f [] : Pc ι).closed = none from rfl) hslot g
  rw [hheld] at hclear
  change _ + _ + 0 = _ + [f].count g at hclear
  rw [count_singleton] at hclear
  omega

omit [Fintype ι] [DecidableEq ι] in
theorem share_closed (o : Fd → Option FileId) (t : Target) (fd : Fd) (g : FileId) :
    (⟨o, .exitDropping t fd⟩ : Proc ι).share g =
      (⟨Function.update o fd none, .exiting (fd + 1)⟩ : Proc ι).share g := by
  have hslot : ∀ fd', (⟨o, .exitDropping t fd⟩ : Proc ι).slot fd' =
      (⟨Function.update o fd none, .exiting (fd + 1)⟩ : Proc ι).slot fd' := by
    intro fd'
    simp only [Proc.slot, Pc.closed, reduceCtorEq, if_false, Option.some_inj, Function.update_apply,
      eq_comm]
  simp only [Proc.share, hslot]
  rfl

omit [Fintype ι] [DecidableEq ι] in
theorem tidy_clear {n : ℕ} {o : Fd → Option FileId} (h : ∀ fd : Fd, fd.val < n → o fd = none)
    (hfd : fd.val = n) : ∀ fd' : Fd, fd'.val < n + 1 → Function.update o fd none fd' = none := by
  intro fd' hlt
  rw [Function.update_apply]
  split_ifs with heq
  · rfl
  · exact h fd' (by have := Fin.val_ne_of_ne heq; omega)

theorem Inv.exitFile (h : Inv s) (hpc : (s.proc p).pc = .exiting fd) :
    ∃ t, exitFile s p fd = .ok t ∧ Inv t := by
  have hclosed : (s.proc p).pc.closed = none := by
    rw [hpc]
    rfl
  have hembryo : (s.proc p).pc ≠ .embryo := by
    rw [hpc]
    exact nofun
  have hheld : (s.proc p).pc.held = [] := congrArg Pc.held hpc
  have hnone : (s.proc p).pc.target = none := congrArg Pc.target hpc
  have htidy : ∀ fd' : Fd, fd'.val < fd.val → (s.proc p).ofile fd' = none := by
    have hold := h.table.tidy p
    rw [hpc] at hold
    exact hold
  have hcleared := tidy_clear htidy rfl
  rw [FileTable.exitFile]
  cases hslot : (s.proc p).ofile fd with
  | none =>
      refine ⟨_, rfl, h.move hembryo ?_ rfl (fun g => ?_) (List.nil_subset _) hnone.symm⟩
      · have hself : Function.update (s.proc p).ofile fd none = (s.proc p).ofile := by
          rw [← hslot, Function.update_eq_self]
        rw [hself] at hcleared
        exact hcleared
      · have hshare :=
          share_goto hclosed (show (.exiting (fd.val + 1) : Pc ι).closed = none from rfl) g
        rw [hheld] at hshare
        exact hshare
  | some f =>
      have hpos : 0 < (s.proc p).share f := share_pos_of_slot ((slot_eq hclosed).trans hslot)
      have hshare : ∀ g, (⟨Function.update (s.proc p).ofile fd none, .exiting (fd.val + 1)⟩ :
          Proc ι).share g + (if g = f then 1 else 0) = (s.proc p).share g := by
        intro g
        have hclear :=
          share_clear hclosed (show (.exiting (fd.val + 1) : Pc ι).closed = none from rfl)
          hslot g
        rw [hheld] at hclear
        exact hclear
      rcases h.refs.fileclose hpos with ⟨hmany, heq⟩ | ⟨hone, heq⟩
      · refine ⟨_, by dsimp only; rw [heq]; rfl, ?_⟩
        exact h.drop hembryo hmany hcleared rfl hshare rfl hnone.symm
      · cases hfile : (s.file f).target with
        | none =>
            rw [hfile] at heq
            refine ⟨_, by dsimp only; rw [heq]; rfl, ?_⟩
            exact h.last hembryo hone hcleared rfl hshare rfl hnone hfile.symm
        | some t =>
            rw [hfile] at heq
            refine ⟨_, by dsimp only; rw [heq]; rfl, ?_⟩
            refine h.last hembryo hone htidy rfl (fun g => ?_) rfl hnone hfile.symm
            have hsame := @share_closed ι (s.proc p).ofile t fd g
            rw [← hshare g, ← hsame]
            rfl

theorem Inv.exitDropping {t : Target} (h : Inv s) (hpc : (s.proc p).pc = .exitDropping t fd) :
    Inv ((FileTable.dropTarget s t).setProc p
      ⟨Function.update (s.proc p).ofile fd none, .exiting (fd + 1)⟩) := by
  have hold := h.table.tidy p
  rw [hpc] at hold
  refine h.dropTarget (by rw [hpc]; exact nofun) (by rw [hpc]; rfl) (tidy_clear hold rfl) rfl
    (fun g => ?_) rfl rfl
  rw [← share_closed _ t, ← hpc]

omit [Fintype ι] [DecidableEq ι] in
theorem share_idle {y : Proc ι} (hold : Idle y.pc) (hnew : Idle pc) (g : FileId) :
    ({ y with pc := pc } : Proc ι).share g = y.share g := by
  have hshare := share_goto hold.closed hnew.closed g
  rw [hold.held, hnew.held] at hshare
  exact hshare

theorem Inv.forkGoto {c : ι} {pc' : Pc ι} (h : Inv s) (hne : c ≠ p) (hp : Idle (s.proc p).pc)
    (hc : Idle (s.proc c).pc) (hnew : Idle pc) (hnew' : Idle pc')
    (htable : Table (Function.update (Function.update s.proc c { s.proc c with pc := pc' }) p
      { s.proc p with pc := pc })) : Inv ((s.goto c pc').goto p pc) := by
  have hother : (s.goto c pc').proc p = s.proc p := Function.update_of_ne hne.symm _ _
  rw [State.goto, hother]
  refine ⟨(h.refs.move (share_idle hc hnew') ?_).move ?_ ?_, h.targets.congr fun t => ?_, htable⟩
  · exact fun g hg => by rw [hnew'.fresh] at hg; cases hg
  · rw [Function.update_of_ne hne.symm]
    exact share_idle hp hnew
  · exact fun g hg => by rw [hnew.fresh] at hg; cases hg
  · have hlast : live s.file ((s.goto c pc').setProc p { s.proc p with pc := pc }).proc t =
        live s.file (s.goto c pc').proc t := by
      refine live_keep ?_
      rw [hother, hp.target]
      exact hnew.target
    exact hlast.trans (live_keep (hnew'.target.trans hc.target.symm))

omit [Fintype ι] in
theorem goto_self {c : ι} (h : (s.proc c).pc = pc) : s.goto c pc = s := by
  have hself : ({ s.proc c with pc := pc } : Proc ι) = s.proc c := by rw [← h]
  rw [State.goto, hself, State.setProc, Function.update_eq_self]

theorem Inv.fork {c : ι} (h : Inv s) (hpc : (s.proc p).pc = .user) (hc : (s.proc c).pc = .unused) :
    Inv ((s.goto c .embryo).goto p (.forked c)) := by
  have hne : c ≠ p := by
    rintro rfl
    rw [hpc] at hc
    cases hc
  have hempty := h.table.tidy c
  rw [hc] at hempty
  refine h.forkGoto hne (by rw [hpc]; exact ⟨rfl, rfl, rfl, rfl⟩)
    (by rw [hc]; exact ⟨rfl, rfl, rfl, rfl⟩)
    ⟨rfl, rfl, rfl, rfl⟩ ⟨rfl, rfl, rfl, rfl⟩ ?_
  refine h.table.change (by rw [hpc]; exact nofun) hne (fun q hq => ?_) (fun fd hfd => ?_)
    (fun fd hfd => ?_) rfl (Or.inr ⟨rfl, rfl, fun fd _ => hempty fd fd.isLt⟩)
  · rw [(h.table.child q c hq).1] at hc
    cases hc
  · exact absurd hfd (Nat.not_lt_zero _)
  · exact absurd hfd (Nat.not_lt_zero _)

theorem Inv.forked {c : ι} {pc' : Pc ι} (h : Inv s) (hp : Idle (s.proc p).pc)
    (hembryo : (s.proc p).pc ≠ .embryo) (hchild : (s.proc p).pc.child = some c) (hnew : Idle pc)
    (hnew' : Idle pc') (htidy : pc.emptied = 0)
    (htidy' : ∀ fd : Fd, fd.val < pc'.emptied → (s.proc c).ofile fd = none)
    (hchild' : pc'.child = none) (hstate : pc.child = none ∨ pc.child = some c ∧ pc' = .embryo ∧
      ∀ fd : Fd, pc.copied ≤ fd.val → (s.proc c).ofile fd = none) :
    Inv ((s.goto c pc').goto p pc) := by
  obtain ⟨hc, -⟩ := h.table.child p c hchild
  have hne : c ≠ p := by
    rintro rfl
    exact hembryo hc
  refine h.forkGoto hne hp (by rw [hc]; exact ⟨rfl, rfl, rfl, rfl⟩) hnew hnew' ?_
  refine h.table.change hembryo hne (fun q hq => h.table.unique q p c hq hchild) (fun fd hfd => ?_)
    htidy' hchild' hstate
  change fd.val < pc.emptied at hfd
  rw [htidy] at hfd
  exact absurd hfd (Nat.not_lt_zero _)

theorem Inv.copyFile {c : ι} (h : Inv s) (hpc : (s.proc p).pc = .copying c fd) :
    ∃ t, copyFile s p c fd = .ok t ∧ Inv t := by
  have hidle : Idle (s.proc p).pc := by
    rw [hpc]
    exact ⟨rfl, rfl, rfl, rfl⟩
  have hembryo : (s.proc p).pc ≠ .embryo := by
    rw [hpc]
    exact nofun
  have hchild : (s.proc p).pc.child = some c := by
    rw [hpc]
    rfl
  obtain ⟨hc, hempty⟩ := h.table.child p c hchild
  rw [hpc] at hempty
  have hcidle : Idle (s.proc c).pc := by
    rw [hc]
    exact ⟨rfl, rfl, rfl, rfl⟩
  have hrest : ∀ fd' : Fd, fd.val + 1 ≤ fd'.val → (s.proc c).ofile fd' = none :=
    fun fd' hfd' => hempty fd' (Nat.le_of_succ_le hfd')
  rw [FileTable.copyFile]
  cases hslot : (s.proc p).ofile fd with
  | none =>
      refine ⟨_, rfl, ?_⟩
      have hstep := h.forked hidle hembryo hchild
        (show Idle (.copying c (fd + 1) : Pc ι) from ⟨rfl, rfl, rfl, rfl⟩)
        hcidle rfl (fun fd hfd => by rw [hc] at hfd; exact absurd hfd (Nat.not_lt_zero _))
        (by rw [hc]; rfl) (Or.inr ⟨rfl, hc, hrest⟩)
      rwa [goto_self rfl] at hstep
  | some f =>
      have hne : c ≠ p := by
        rintro rfl
        exact hembryo hc
      have hpos : 0 < (s.proc p).share f := share_pos_of_slot ((slot_eq hidle.closed).trans hslot)
      have hle := h.refs.share_le (p := p) (f := f)
      have heq : filedup s f = .ok (s.setFile f { s.file f with ref := (s.file f).ref + 1 }) :=
        if_neg (show ¬ (s.file f).ref < 1 by omega)
      have hother : Function.update s.proc c
          { s.proc c with ofile := Function.update (s.proc c).ofile fd (some f) } p = s.proc p :=
        Function.update_of_ne hne.symm _ _
      have hstored := fun g => Nat.add_right_cancel
        (share_store (f := f) hcidle.closed hcidle.closed (hempty fd le_rfl) g)
      refine ⟨_, by dsimp only; rw [heq]; rfl, ?_⟩
      rw [State.goto]
      dsimp only [State.setProc, State.setFile]
      rw [hother]
      refine ⟨?_, h.targets.congr fun t => ?_, ?_⟩
      · refine (h.refs.dup hpos ?_ hstored hcidle.fresh).move ?_ ?_
        · rw [hidle.fresh]
          exact List.not_mem_nil
        · rw [hother]
          exact share_idle hidle ⟨rfl, rfl, rfl, rfl⟩
        · exact fun g hg => absurd hg List.not_mem_nil
      · have hcopied : live (Function.update s.file f { s.file f with ref := (s.file f).ref + 1 })
            (Function.update s.proc c
              { s.proc c with ofile := Function.update (s.proc c).ofile fd (some f) }) t =
              live s.file s.proc t := by
          refine live_move (fun t => ?_) t
          rfl
        refine (live_keep ?_).trans hcopied
        rw [hother, hidle.target]
        rfl
      · refine h.table.change hembryo hne (fun q hq => h.table.unique q p c hq hchild)
          (fun fd' hfd' => absurd hfd' (Nat.not_lt_zero _)) (fun fd' hfd' => ?_)
          (by rw [hc]; rfl) (Or.inr ⟨rfl, hc, fun fd' hfd' => ?_⟩)
        · rw [hc] at hfd'
          exact absurd hfd' (Nat.not_lt_zero _)
        · change fd.val + 1 ≤ fd'.val at hfd'
          have hafter : fd' ≠ fd := fun heq => absurd hfd' (by rw [heq]; omega)
          exact (Function.update_of_ne hafter _ _).trans (hrest fd' hfd')

theorem Inv.dropping {t : Target} {rest : List FileId} (h : Inv s)
    (hpc : (s.proc p).pc = .dropping t rest) :
    Inv ((FileTable.dropTarget s t).goto p (closeAll rest)) := by
  obtain ⟨hplain, hfresh, htarget, hrest⟩ := @closeAll_plain ι rest
  have hgoto : (FileTable.dropTarget s t).goto p (closeAll rest) =
      (FileTable.dropTarget s t).setProc p { s.proc p with pc := closeAll rest } := by
    cases t <;> rfl
  rw [hgoto]
  refine h.dropTarget (by rw [hpc]; exact nofun) (by rw [hpc]; rfl) hplain.tidy hplain.child
    (fun g => ?_) hfresh htarget
  have hshare := share_goto (y := s.proc p) (by rw [hpc]; rfl) hplain.closed g
  rw [hrest, hpc] at hshare
  exact Nat.add_right_cancel hshare

theorem Inv.settle (h : Inv s) (hold : Idle (s.proc p).pc) (hembryo : (s.proc p).pc ≠ .embryo)
    (hnew : Idle pc) (htidy : ∀ fd : Fd, fd.val < pc.emptied → (s.proc p).ofile fd = none)
    (hchild : pc.child = none) : Inv (s.goto p pc) := by
  refine h.move hembryo htidy hchild (share_idle hold hnew) ?_ (hnew.target.trans hold.target.symm)
  have hfresh : ({ s.proc p with pc := pc } : Proc ι).pc.fresh = [] := hnew.fresh
  rw [hfresh]
  exact List.nil_subset _

theorem Inv.allocFirst {t : State ι} (h : Inv s) (hpc : (s.proc p).pc = .user)
    (halloc : filealloc s = some (f, t)) (hnew : Plain pc) (hheld : pc.held = [f])
    (hfresh : pc.fresh = [f])
    (htarget : pc.target = none) : Inv (t.goto p pc) := by
  obtain ⟨hzero, rfl⟩ := filealloc_some halloc
  refine h.alloc (plain_of_eq hpc ⟨rfl, rfl, rfl, nofun⟩) hnew hzero (fun g => ?_)
    (fun g hg => ?_) ?_
  · rw [hpc, hheld]
    exact (count_singleton f g).trans (Nat.zero_add _).symm
  · rw [hfresh] at hg
    exact Or.inl (List.mem_singleton.mp hg)
  · rw [hpc, htarget]
    rfl

theorem Inv.proceed {pc' : Pc ι} (h : Inv s) (hpc : (s.proc p).pc = pc') (hold : Plain pc')
    (hnew : Plain pc) (hheld : pc.held = pc'.held) (hfresh : pc.fresh = [])
    (htarget : pc.target = pc'.target) :
    Inv (s.goto p pc) := by
  subst hpc
  refine h.goto hold hnew (fun g => by rw [hheld]) ?_ htarget
  rw [hfresh]
  exact List.nil_subset _

theorem step_spec {a : Act ι} {r : Except Panic (State ι)} (h : Inv s)
    (hstep : step s p a = some r) :
    ∃ t, r = .ok t ∧ Inv t := by
  unfold step at hstep
  split at hstep
  next hpc =>                                     -- `sys_open`
    split at hstep
    · cases hstep
      exact ⟨s, rfl, h⟩
    next f t halloc =>
      cases hstep
      exact ⟨_, rfl, h.allocFirst hpc halloc ⟨rfl, rfl, rfl, nofun⟩ rfl rfl rfl⟩
  next hpc =>
    cases hstep
    exact ⟨_, rfl, h.openFile hpc⟩
  next fd hpc =>
    obtain ⟨t, heq, ht⟩ := h.sysDup hpc fd
    rw [heq] at hstep
    cases hstep
    exact ⟨t, rfl, ht⟩
  next fd hpc =>
    split at hstep
    · cases hstep
      exact ⟨s, rfl, h⟩
    next f hslot =>
      cases hstep
      exact ⟨_, rfl, h.close hpc hslot⟩
  next f rest _ hpc =>
    obtain ⟨t, heq, ht⟩ := h.closeFile hpc
    rw [heq] at hstep
    cases hstep
    exact ⟨t, rfl, ht⟩
  next t rest _ hpc =>
    cases hstep
    exact ⟨_, rfl, h.dropping hpc⟩
  next hpc =>                                     -- `sys_pipe`
    split at hstep
    · cases hstep
      exact ⟨s, rfl, h⟩
    next f t halloc =>
      cases hstep
      exact ⟨_, rfl, h.allocFirst hpc halloc ⟨rfl, rfl, rfl, nofun⟩ rfl rfl rfl⟩
  next f0 _ hpc =>
    split at hstep
    · cases hstep
      exact ⟨_, rfl, h.proceed hpc ⟨rfl, rfl, rfl, nofun⟩ ⟨rfl, rfl, rfl, nofun⟩ rfl rfl rfl⟩
    next f1 t halloc =>
      cases hstep
      obtain ⟨hzero, rfl⟩ := filealloc_some halloc
      refine ⟨_, rfl, h.alloc (plain_of_eq hpc ⟨rfl, rfl, rfl, nofun⟩) ⟨rfl, rfl, rfl, nofun⟩ hzero
        (fun g => ?_) (fun g hg => ?_) (by rw [hpc]; rfl)⟩
      · rw [hpc]
        change [f0, f1].count g = [f0].count g + _
        rw [count_cons, count_singleton, count_singleton]
      · rw [hpc]
        rcases List.mem_cons.mp hg with hg0 | hg1
        · exact Or.inr (List.mem_singleton.mpr hg0)
        · exact Or.inl (List.mem_singleton.mp hg1)
  next f0 f1 hpc =>
    cases hstep
    exact ⟨_, rfl, h.makePipe hpc⟩
  next f0 f1 hpc =>
    cases hstep
    exact ⟨_, rfl, h.proceed hpc ⟨rfl, rfl, rfl, nofun⟩ ⟨rfl, rfl, rfl, nofun⟩ rfl rfl rfl⟩
  next c hpc =>                                   -- `fork`
    split at hstep
    next hc =>
      cases hstep
      exact ⟨_, rfl, h.fork hpc hc⟩
    · cases hstep
  next c hpc =>
    cases hstep
    obtain ⟨hc, hempty⟩ := h.table.child p c (by rw [hpc]; rfl)
    rw [hpc] at hempty
    have hstep := h.forked (p := p) (by rw [hpc]; exact ⟨rfl, rfl, rfl, rfl⟩)
      (by rw [hpc]; exact nofun) (by rw [hpc]; rfl)
      (show Idle (.copying c 0 : Pc ι) from ⟨rfl, rfl, rfl, rfl⟩) ⟨rfl, rfl, rfl, rfl⟩ rfl
      (fun fd hfd => absurd hfd (Nat.not_lt_zero _)) rfl (Or.inr ⟨rfl, rfl, hempty⟩)
    rw [goto_self hc] at hstep
    exact ⟨_, rfl, hstep⟩
  next c hpc =>
    cases hstep
    obtain ⟨-, hempty⟩ := h.table.child p c (by rw [hpc]; rfl)
    rw [hpc] at hempty
    exact ⟨_, rfl, h.forked (by rw [hpc]; exact ⟨rfl, rfl, rfl, rfl⟩) (by rw [hpc]; exact nofun)
      (by rw [hpc]; rfl) ⟨rfl, rfl, rfl, rfl⟩ ⟨rfl, rfl, rfl, rfl⟩ rfl
      (fun fd _ => hempty fd (Nat.zero_le _)) rfl (Or.inl rfl)⟩
  next c fd _ hpc =>
    split at hstep
    next hfd =>
      obtain ⟨t, heq, ht⟩ :=
        h.copyFile (show (s.proc p).pc = .copying c (⟨fd, hfd⟩ : Fd).val from hpc)
      rw [heq] at hstep
      cases hstep
      exact ⟨t, rfl, ht⟩
    · cases hstep
      exact ⟨_, rfl, h.forked (by rw [hpc]; exact ⟨rfl, rfl, rfl, rfl⟩) (by rw [hpc]; exact nofun)
        (by rw [hpc]; rfl) ⟨rfl, rfl, rfl, rfl⟩ ⟨rfl, rfl, rfl, rfl⟩ rfl
        (fun fd hfd => absurd hfd (Nat.not_lt_zero _)) rfl (Or.inl rfl)⟩
  next hpc =>                                     -- `exit`
    cases hstep
    exact ⟨_, rfl, h.proceed hpc ⟨rfl, rfl, rfl, nofun⟩ ⟨rfl, rfl, rfl, nofun⟩ rfl rfl rfl⟩
  next fd _ hpc =>
    split at hstep
    next hfd =>
      obtain ⟨t, heq, ht⟩ :=
        h.exitFile (show (s.proc p).pc = .exiting (⟨fd, hfd⟩ : Fd).val from hpc)
      rw [heq] at hstep
      cases hstep
      exact ⟨t, rfl, ht⟩
    next hfd =>
      cases hstep
      have htidy := h.table.tidy p
      rw [hpc] at htidy
      exact ⟨_, rfl, h.settle (by rw [hpc]; exact ⟨rfl, rfl, rfl, rfl⟩) (by rw [hpc]; exact nofun)
        ⟨rfl, rfl, rfl, rfl⟩
          (fun fd' _ => htidy fd' (by have := fd'.isLt; change _ < fd; omega)) rfl⟩
  next t fd _ hpc =>
    cases hstep
    exact ⟨_, rfl, h.exitDropping hpc⟩
  next hpc =>
    cases hstep
    have htidy := h.table.tidy p
    rw [hpc] at htidy
    exact ⟨_, rfl, h.settle (by rw [hpc]; exact ⟨rfl, rfl, rfl, rfl⟩) (by rw [hpc]; exact nofun)
      ⟨rfl, rfl, rfl, rfl⟩ htidy rfl⟩
  · cases hstep

omit [DecidableEq ι] in
theorem Init.inv (h : Init s) : Inv s := by
  obtain ⟨hfile, hofile, hpc, hinodes, hputs, hpipes, hpipe⟩ := h
  have hidle : ∀ p, Idle (s.proc p).pc ∧ (s.proc p).pc.child = none := by
    intro p
    rcases hpc p with h | h
    · rw [h]
      exact ⟨⟨rfl, rfl, rfl, rfl⟩, rfl⟩
    · rw [h]
      exact ⟨⟨rfl, rfl, rfl, rfl⟩, rfl⟩
  have hshare : ∀ p g, (s.proc p).share g = 0 := by
    intro p g
    rw [share_eq (hidle p).1.closed, (hidle p).1.held, List.count_nil, Nat.add_zero, card_eq_zero,
      filter_eq_empty_iff]
    intro fd _ hfd
    rw [hofile] at hfd
    cases hfd
  have hlive : ∀ t, live s.file s.proc t = 0 := by
    intro t
    rw [live, Nat.add_eq_zero_iff, card_eq_zero, card_eq_zero, filter_eq_empty_iff,
      filter_eq_empty_iff]
    refine ⟨fun f _ hf => ?_, fun p _ hp => ?_⟩
    · rw [hfile] at hf
      cases hf
    · rw [(hidle p).1.target] at hp
      cases hp
  refine ⟨⟨fun f => ?_, fun f _ => by rw [hfile], fun p f hf => ?_⟩,
    ⟨fun n => ?_, fun m w => ?_, fun m => ?_⟩, ⟨fun p fd _ => hofile p fd, fun p c hc => ?_,
      fun p q c hc _ => ?_⟩⟩
  · rw [hfile, sum_eq_zero fun p _ => hshare p f]
  · rw [(hidle p).1.fresh] at hf
    cases hf
  · rw [hlive, hputs, hinodes]
    rfl
  · rw [hlive, hpipes]
    exact (if_neg fun hlt => Nat.not_lt_zero m hlt.1).symm
  · rw [hpipe, hpipes]
    exact (if_neg fun hlt => Nat.not_lt_zero m hlt.1).symm
  · rw [(hidle p).2] at hc
    cases hc
  · rw [(hidle p).2] at hc
    cases hc

theorem inv_of_reaches (h : Reaches Init Next s) : Inv s := by
  refine h.invariant (fun _ h0 => h0.inv) fun s t _ hs hn => ?_
  obtain ⟨p, a, hstep⟩ := hn
  obtain ⟨t', heq, ht⟩ := step_spec hs hstep
  cases heq
  exact ht

omit [Fintype ι] [DecidableEq ι] in
theorem Quiet.idle (h : Quiet s) (p : ι) : Idle (s.proc p).pc := by
  rcases h p with h | h | h
  all_goals
    rw [h]
    exact ⟨rfl, rfl, rfl, rfl⟩

omit [DecidableEq ι] in
theorem Refs.quiet (h : Refs s.file s.proc) (hquiet : Quiet s) (f : FileId) :
    (s.file f).ref = #{x : ι × Fd | (s.proc x.1).ofile x.2 = some f} := by
  rw [h.balanced, card_filter, Fintype.sum_prod_type]
  refine sum_congr rfl fun p _ => ?_
  rw [share_eq (hquiet.idle p).closed, (hquiet.idle p).held, card_filter, List.count_nil,
    Nat.add_zero]

omit [DecidableEq ι] in
theorem Refs.slot_pos (h : Refs s.file s.proc) (hquiet : Quiet s)
    (hslot : (s.proc p).ofile fd = some f) : 0 < (s.file f).ref :=
  (share_pos_of_slot ((slot_eq (hquiet.idle p).closed).trans hslot)).trans_le h.share_le

omit [DecidableEq ι] in
theorem Refs.live_eq_zero (h : Refs s.file s.proc) (hquiet : Quiet s) (t : Target) :
    live s.file s.proc t = 0 ↔ ¬ Opened s t := by
  rw [live, Nat.add_eq_zero_iff, card_eq_zero, card_eq_zero, filter_eq_empty_iff,
    filter_eq_empty_iff]
  constructor
  · rintro ⟨hnone, -⟩ ⟨p, fd, f, -, hf⟩
    exact hnone (mem_univ f) hf
  · refine fun hclosed => ⟨fun f _ hf => ?_, fun p _ hp => ?_⟩
    · have hpos : (s.file f).ref ≠ 0 := fun hzero => by
        rw [h.cleared f hzero] at hf
        cases hf
      rw [h.quiet hquiet, ← Nat.pos_iff_ne_zero, card_pos] at hpos
      obtain ⟨⟨p, fd⟩, hmem⟩ := hpos
      exact hclosed ⟨p, fd, f, (mem_filter.mp hmem).2, hf⟩
    · rw [(hquiet.idle p).target] at hp
      cases hp

/-- The count of each structure is the number of its descriptors between the calls, where every
descriptor points to a structure in use; no call panics; each inode reference is put once and each
pipe is freed once, when nothing refers to it any more. -/
theorem references_balanced (h : Reaches Init Next s) :
    (Quiet s → ∀ f, (s.file f).ref = #{x : ι × Fd | (s.proc x.1).ofile x.2 = some f}) ∧
    (Quiet s → ∀ p fd f, (s.proc p).ofile fd = some f → 0 < (s.file f).ref) ∧
    (∀ p a e, step s p a ≠ some (.error e)) ∧
    (∀ n < s.inodes, live s.file s.proc (.inode n) + s.puts n = 1 ∧
      (Quiet s → (s.puts n = 1 ↔ ¬ Opened s (.inode n)))) ∧
    (∀ m < s.pipes, (s.pipe m).frees ≤ 1 ∧
      ((s.pipe m).frees = 1 ↔
        live s.file s.proc (.pipe m false) = 0 ∧ live s.file s.proc (.pipe m true) = 0) ∧
      (Quiet s → ((s.pipe m).frees = 1 ↔
        ¬ Opened s (.pipe m false) ∧ ¬ Opened s (.pipe m true)))) := by
  have hinv := inv_of_reaches h
  refine ⟨hinv.refs.quiet, fun hquiet p fd f => hinv.refs.slot_pos hquiet, fun p a e hstep => ?_,
    fun n hn => ?_, fun m hm => ?_⟩
  · obtain ⟨t, heq, -⟩ := step_spec hinv hstep
    cases heq
  · have hlive := hinv.targets.inodes n
    rw [if_pos hn] at hlive
    refine ⟨hlive, fun hquiet => ?_⟩
    rw [← hinv.refs.live_eq_zero hquiet]
    omega
  · have hfrees := hinv.targets.frees m
    have hends : ∀ w, live s.file s.proc (.pipe m w) = 0 ↔ (s.pipe m).isOpen w = false := by
      intro w
      rw [hinv.targets.ends m w]
      simp only [hm, true_and]
      cases (s.pipe m).isOpen w <;> decide
    have hfreed : (s.pipe m).frees = 1 ↔
        live s.file s.proc (.pipe m false) = 0 ∧ live s.file s.proc (.pipe m true) = 0 := by
      rw [hfrees, hends, hends]
      simp only [hm, true_and, ite_eq_left_iff, zero_ne_one, imp_false, not_not]
    refine ⟨?_, hfreed, fun hquiet => ?_⟩
    · rw [hfrees]
      split_ifs <;> decide
    · rw [hfreed, hinv.refs.live_eq_zero hquiet, hinv.refs.live_eq_zero hquiet]

end Moves

/-- Two processes before the first call. -/
def boot : State (Fin 2) where
  file _ := ⟨0, none⟩
  proc p := ⟨fun _ => none, if p = 0 then .user else .unused⟩
  inodes := 0
  puts _ := 0
  pipes := 0
  pipe _ := ⟨false, false, 0⟩

/-- A pipe whose reading end is closed. -/
def closeReader : List (Fin 2 × Act (Fin 2)) :=
  [(0, .pipe), (0, .go true), (0, .go true), (0, .close ⟨0, by decide⟩), (0, .go true),
    (0, .go true)]

theorem references_balanced_close_reader : ∃ s : State (Fin 2), s.pipes = 1 ∧ Quiet s ∧
    (∀ f, (s.file f).ref = #{x : Fin 2 × Fd | (s.proc x.1).ofile x.2 = some f}) ∧
    (s.pipe 0).frees ≤ 1 := by
  have hrun : (execute (fun s x => (step s x.1 x.2).bind Except.toOption) boot closeReader).any
      (fun s => decide (s.pipes = 1 ∧ Quiet s)) = true := by decide +kernel
  obtain ⟨s, hs, hend⟩ := (Option.any_eq_true _ _).mp hrun
  obtain ⟨hpipes, hquiet⟩ := of_decide_eq_true hend
  have hinit : Init boot :=
    ⟨fun _ => rfl, fun _ _ => rfl, by decide, rfl, fun _ => rfl, rfl, fun _ => rfl⟩
  have hreaches : Reaches Init Next s := by
    refine Reaches.mono (fun s t hn => ?_) ((Reaches.start hinit).execute hs)
    obtain ⟨x, hx⟩ := hn
    obtain ⟨r, hr, ht⟩ := Option.bind_eq_some_iff.mp hx
    rw [Outcomes.ok_of_toOption ht] at hr
    exact ⟨x.1, x.2, hr⟩
  have hbalanced := references_balanced hreaches
  exact ⟨s, hpipes, hquiet, hbalanced.1 hquiet, (hbalanced.2.2.2.2 0 (by omega)).1⟩

end FileTable

end Xv6Fairness
