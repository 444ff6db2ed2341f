import Xv6Fairness.FileTable
import Xv6Fairness.TransitionRuns

/-!
# Balanced file references

The count of a structure is what the processes hold of it: their descriptors and the references that
a call has taken and not yet stored or dropped. A structure that a call has just taken belongs to
that call alone. Each inode reference and each open end of a pipe belongs to one structure, or to
the process that is dropping it.
-/

namespace Xv6Fairness

open Finset Counting TransitionRuns FileTree

namespace FileTable

variable {ι : Type}

/-- The references of a call that are not in the descriptor table. -/
def Pc.held : Pc ι → List FileId
  | .opening f => [f]
  | .piping f0 => [f0]
  | .filled f0 f1 => [f0, f1]
  | .closing f rest => f :: rest
  | .dropping _ rest => rest
  | _ => []

/-- The structures that the call has just taken. -/
def Pc.fresh : Pc ι → List FileId
  | .opening f => [f]
  | .piping f0 => [f0]
  | .filled f0 f1 => [f0, f1]
  | _ => []

/-- What is dropped behind the lock. -/
def Pc.target : Pc ι → Option Target
  | .dropping t _ => some t
  | .exitDropping t _ => some t
  | _ => none

/-- The descriptor that `exit` has closed and will clear. -/
def Pc.closed : Pc ι → Option Fd
  | .exitDropping _ fd => some fd
  | _ => none

def Proc.slot (y : Proc ι) (fd : Fd) : Option FileId :=
  if y.pc.closed = some fd then none else y.ofile fd

/-- The references of a process to a structure. -/
def Proc.share (y : Proc ι) (f : FileId) : ℕ := #{fd | y.slot fd = some f} + y.pc.held.count f

section Shares

variable {y : Proc ι} {pc : Pc ι} {o : Fd → Option FileId} {f g : FileId} {fd : Fd}

theorem share_eq (h : y.pc.closed = none) :
    y.share g = #{fd | y.ofile fd = some g} + y.pc.held.count g := by
  simp only [Proc.share, Proc.slot, h, reduceCtorEq, if_false]

theorem held_of_fresh (h : f ∈ pc.fresh) : f ∈ pc.held := by
  cases pc <;> first | exact h | cases h

theorem share_pos_of_held (h : f ∈ y.pc.held) : 0 < y.share f :=
  Nat.add_pos_right _ (List.count_pos_iff.mpr h)

theorem share_pos_of_slot (h : y.slot fd = some f) : 0 < y.share f :=
  Nat.add_pos_left (card_filter_pos (P := fun fd => y.slot fd = some f) h) _

theorem slot_eq (h : y.pc.closed = none) : y.slot fd = y.ofile fd := by
  rw [Proc.slot, h, if_neg (Option.some_ne_none fd).symm]

theorem card_entries (o : Fd → Option FileId) (fd : Fd) (v : Option FileId) (g : FileId) :
    #{fd' | Function.update o fd v fd' = some g} + (if o fd = some g then 1 else 0) =
      #{fd' | o fd' = some g} + if v = some g then 1 else 0 :=
  card_filter_update o (fun x => x = some g) fd v

theorem fdalloc_some {y' : Proc ι} (h : fdalloc f y = some y') :
    ∃ fd, y.ofile fd = none ∧ y' = { y with ofile := Function.update y.ofile fd (some f) } := by
  obtain ⟨fd, hfd, rfl⟩ := Option.map_eq_some_iff.mp h
  have hnone := List.find?_some hfd
  rw [decide_eq_true_iff] at hnone
  exact ⟨fd, hnone, rfl⟩

end Shares

/-- The counts of the structures are the references of the processes. -/
structure Refs [Fintype ι] (file : FileId → File) (proc : ι → Proc ι) : Prop where
  balanced : ∀ f, (file f).ref = ∑ p, (proc p).share f
  cleared : ∀ f, (file f).ref = 0 → (file f).target = none
  fresh : ∀ p, ∀ f ∈ (proc p).pc.fresh, (file f).ref = 1 ∧ (file f).target = none

section Counts

variable [Fintype ι] [DecidableEq ι] {file : FileId → File} {proc : ι → Proc ι} {p q : ι}
  {y : Proc ι}
  {x : File} {f g : FileId}

omit [DecidableEq ι] in
theorem Refs.share_le (h : Refs file proc) : (proc p).share f ≤ (file f).ref := by
  rw [h.balanced]
  exact single_le_sum (f := fun p => (proc p).share f) (fun _ _ => Nat.zero_le _) (mem_univ p)

theorem Refs.owner (h : Refs file proc) (hp : 0 < (proc p).share f) (hq : 0 < (proc q).share f)
    (hone : (file f).ref = 1) : q = p := by
  by_contra hne
  have hpair : ∑ r ∈ {q, p}, (proc r).share f ≤ ∑ r, (proc r).share f :=
    sum_le_sum_of_subset (subset_univ _)
  rw [sum_pair hne, ← h.balanced, hone] at hpair
  omega

/-- A structure that a process holds otherwise has not just been taken by any call. -/
theorem Refs.not_fresh (h : Refs file proc) (hp : 0 < (proc p).share f)
    (hnot : f ∉ (proc p).pc.fresh) (q : ι) : f ∉ (proc q).pc.fresh := by
  intro hq
  have hpq := h.owner hp (share_pos_of_held (held_of_fresh hq)) (h.fresh q f hq).1
  exact hnot (hpq ▸ hq)

theorem Refs.change (h : Refs file proc)
    (href : ∀ g, (Function.update file f x g).ref + (proc p).share g = (file g).ref + y.share g)
    (hclear : x.ref = 0 → x.target = none)
    (hothers : ∀ q, q ≠ p → f ∈ (proc q).pc.fresh → x = file f)
    (hfresh : ∀ g ∈ y.pc.fresh,
      (Function.update file f x g).ref = 1 ∧ (Function.update file f x g).target = none) :
    Refs (Function.update file f x) (Function.update proc p y) := by
  refine ⟨fun g => ?_, fun g => ?_, fun q g hg => ?_⟩
  · have hsum := sum_exchange (p := p) (f := fun q => (Function.update proc p y q).share g)
      (g := fun q => (proc q).share g) fun q hq => by rw [Function.update_of_ne hq]
    rw [Function.update_self, ← h.balanced] at hsum
    have hg := href g
    omega
  · rw [Function.update_apply]
    split_ifs
    · exact hclear
    · exact h.cleared g
  · by_cases hq : q = p
    · rw [hq, Function.update_self] at hg
      exact hfresh g hg
    · rw [Function.update_of_ne hq] at hg
      by_cases hgf : g = f
      · subst hgf
        rw [Function.update_self, hothers q hq hg]
        exact h.fresh q g hg
      · rw [Function.update_of_ne hgf]
        exact h.fresh q g hg

theorem Refs.move (h : Refs file proc) (hshare : ∀ g, y.share g = (proc p).share g)
    (hfresh : ∀ g ∈ y.pc.fresh, g ∈ (proc p).pc.fresh) : Refs file (Function.update proc p y) := by
  have hsame : Function.update file (0 : Fin 100) (file (0 : Fin 100)) = file :=
    Function.update_eq_self _ _
  have hchange : Refs (Function.update file (0 : Fin 100) (file (0 : Fin 100)))
      (Function.update proc p y) := by
    refine h.change (fun g => ?_) (h.cleared _) (fun _ _ _ => rfl) fun g hg => ?_
    · rw [hsame, hshare]
    · rw [hsame]
      exact h.fresh p g (hfresh g hg)
  rwa [hsame] at hchange

theorem Refs.alloc (h : Refs file proc) (hzero : (file f).ref = 0)
    (hshare : ∀ g, y.share g = (proc p).share g + if g = f then 1 else 0)
    (hfresh : ∀ g ∈ y.pc.fresh, g = f ∨ g ∈ (proc p).pc.fresh) :
    Refs (Function.update file f { file f with ref := 1 }) (Function.update proc p y) := by
  refine h.change (fun g => ?_) (fun h => absurd h one_ne_zero) (fun q _ hq => ?_) fun g hg => ?_
  · rw [hshare, Function.update_apply]
    split_ifs with hg
    · rw [hg, hzero]
      dsimp only
      omega
    · omega
  · rw [(h.fresh q f hq).1] at hzero
    cases hzero
  · by_cases hgf : g = f
    · rw [hgf, Function.update_self]
      exact ⟨rfl, h.cleared f hzero⟩
    · rw [Function.update_of_ne hgf]
      exact h.fresh p g ((hfresh g hg).resolve_left hgf)

theorem Refs.dup (h : Refs file proc) (hpos : 0 < (proc q).share f) (hnot : f ∉ (proc q).pc.fresh)
    (hshare : ∀ g, y.share g = (proc p).share g + if g = f then 1 else 0)
    (hfresh : y.pc.fresh = []) :
    Refs (Function.update file f { file f with ref := (file f).ref + 1 })
      (Function.update proc p y) := by
  refine h.change (fun g => ?_) (fun h => absurd h (Nat.succ_ne_zero _))
    (fun r _ hr => ?_) fun g hg => ?_
  · rw [hshare, Function.update_apply]
    split_ifs with hg
    · rw [hg]
      dsimp only
      omega
    · omega
  · exact absurd hr (h.not_fresh hpos hnot r)
  · rw [hfresh] at hg
    cases hg

theorem Refs.drop (h : Refs file proc) (hmany : 2 ≤ (file f).ref)
    (hshare : ∀ g, y.share g + (if g = f then 1 else 0) = (proc p).share g)
    (hfresh : y.pc.fresh = []) :
    Refs (Function.update file f { file f with ref := (file f).ref - 1 })
      (Function.update proc p y) := by
  refine h.change (fun g => ?_) (fun h => ?_) (fun r _ hr => ?_) fun g hg => ?_
  · rw [← hshare, Function.update_apply]
    split_ifs with hg
    · rw [hg]
      dsimp only
      omega
    · omega
  · dsimp only at h
    omega
  · rw [(h.fresh r f hr).1] at hmany
    omega
  · rw [hfresh] at hg
    cases hg

theorem Refs.last (h : Refs file proc) (hone : (file f).ref = 1)
    (hshare : ∀ g, y.share g + (if g = f then 1 else 0) = (proc p).share g)
    (hfresh : y.pc.fresh = []) :
    Refs (Function.update file f ⟨0, none⟩) (Function.update proc p y) := by
  have hpos : 0 < (proc p).share f := by
    rw [← hshare, if_pos rfl]
    exact Nat.succ_pos _
  refine h.change (fun g => ?_) (fun _ => rfl) (fun r hne hr => ?_) fun g hg => ?_
  · rw [← hshare, Function.update_apply]
    split_ifs with hg
    · rw [hg, hone]
      dsimp only
      omega
    · omega
  · exact absurd (h.owner hpos (share_pos_of_held (held_of_fresh hr)) hone) hne
  · rw [hfresh] at hg
    cases hg

omit [DecidableEq ι] in
theorem Refs.setTarget (h : Refs file proc) (hpos : (file f).ref ≠ 0)
    (hnot : ∀ q, f ∉ (proc q).pc.fresh) (t : Option Target) :
    Refs (Function.update file f { file f with target := t }) proc := by
  refine ⟨fun g => ?_, fun g hg => ?_, fun q g hg => ?_⟩
  · rw [← h.balanced, Function.update_apply]
    split_ifs with hgf
    · rw [hgf]
    · rfl
  · by_cases hgf : g = f
    · rw [hgf, Function.update_self] at hg
      exact absurd hg hpos
    · rw [Function.update_of_ne hgf] at hg ⊢
      exact h.cleared g hg
  · have hgf : g ≠ f := by
      rintro rfl
      exact hnot q hg
    rw [Function.update_of_ne hgf]
    exact h.fresh q g hg

end Counts

def Pipe.isOpen (pi : Pipe) (writable : Bool) : Bool :=
  if writable then pi.writeopen else pi.readopen

/-- The structures that have a target, and the processes that are dropping it. -/
def live [Fintype ι] (file : FileId → File) (proc : ι → Proc ι) (t : Target) : ℕ :=
  #{f | (file f).target = some t} + #{p | (proc p).pc.target = some t}

/-- Each target that was handed out is in one place, or has been dropped. -/
structure Targets [Fintype ι] (s : State ι) : Prop where
  inodes : ∀ n, live s.file s.proc (.inode n) + s.puts n = if n < s.inodes then 1 else 0
  ends : ∀ m w, live s.file s.proc (.pipe m w) =
    if m < s.pipes ∧ (s.pipe m).isOpen w = true then 1 else 0
  frees : ∀ m, (s.pipe m).frees =
    if m < s.pipes ∧ (s.pipe m).isOpen false = false ∧ (s.pipe m).isOpen true = false then 1 else 0

section Accounts

variable [Fintype ι] {file : FileId → File} {proc : ι → Proc ι} {s : State ι} {p : ι} {y : Proc ι}
  {x : File} {f : FileId} {t t' : Target}

theorem live_setFile : live (Function.update file f x) proc t +
    (if (file f).target = some t then 1 else 0) =
      live file proc t + if x.target = some t then 1 else 0 := by
  have h := card_filter_update file (fun x => x.target = some t) f x
  rw [live, live]
  omega

theorem live_setProc [DecidableEq ι] : live file (Function.update proc p y) t +
    (if (proc p).pc.target = some t then 1 else 0) =
      live file proc t + if y.pc.target = some t then 1 else 0 := by
  have h := card_filter_update proc (fun y => y.pc.target = some t) p y
  rw [live, live]
  omega

theorem live_setTarget (h : (file f).target = none) :
    live (Function.update file f { file f with target := some t' }) proc t =
      live file proc t + if t = t' then 1 else 0 := by
  have hfile : live (Function.update file f { file f with target := some t' }) proc t + _ = _ :=
    live_setFile
  rw [h, if_neg (Option.some_ne_none t).symm] at hfile
  simp only [Option.some_inj, eq_comm (a := t')] at hfile
  exact hfile

theorem live_keep [DecidableEq ι] (h : y.pc.target = (proc p).pc.target) :
    live file (Function.update proc p y) t = live file proc t := by
  have hproc : live file (Function.update proc p y) t + _ = _ := live_setProc
  rw [h] at hproc
  exact Nat.add_right_cancel hproc

theorem Targets.congr (h : Targets s) (hlive : ∀ t, live file proc t = live s.file s.proc t) :
    Targets { s with file := file, proc := proc } :=
  ⟨fun n => by rw [← h.inodes n, ← hlive], fun m w => by rw [← h.ends m w, ← hlive], h.frees⟩

theorem isOpen_close (pi : Pipe) (w w' : Bool) :
    (pi.close w).release.isOpen w' = if w' = w then false else pi.isOpen w' := by
  obtain ⟨r, wr, n⟩ := pi
  cases w <;> cases w' <;> cases r <;> cases wr <;> rfl

theorem frees_close (pi : Pipe) (w : Bool) :
    (pi.close w).release.frees = pi.frees + if pi.isOpen (!w) = false then 1 else 0 := by
  obtain ⟨r, wr, n⟩ := pi
  cases w <;> cases r <;> cases wr <;> rfl

theorem Targets.drop (h : Targets s) (hpos : 0 < live s.file s.proc t)
    (hlive : ∀ t', live file proc t' + (if t' = t then 1 else 0) = live s.file s.proc t') :
    Targets { dropTarget s t with file := file, proc := proc } := by
  cases t with
  | inode n =>
      refine ⟨fun k => ?_, fun m w => ?_, h.frees⟩
      · have hk := hlive (.inode k)
        have hi := h.inodes k
        change live file proc (.inode k) + Function.update s.puts n (s.puts n + 1) k =
          if k < s.inodes then 1 else 0
        rw [Function.update_apply]
        by_cases hkn : k = n
        · subst hkn
          rw [if_pos rfl] at hk ⊢
          omega
        · rw [if_neg fun heq => hkn (Target.inode.inj heq)] at hk
          rw [if_neg hkn]
          omega
      · have hm := hlive (.pipe m w)
        rw [if_neg Target.noConfusion] at hm
        exact hm.trans (h.ends m w)
  | pipe m w =>
      have hend := h.ends m w
      have hopen : m < s.pipes ∧ (s.pipe m).isOpen w = true := by
        by_contra hclosed
        rw [if_neg hclosed] at hend
        omega
      refine ⟨fun k => ?_, fun m' w' => ?_, fun m' => ?_⟩
      · have hk := hlive (.inode k)
        rw [if_neg Target.noConfusion] at hk
        have hi := h.inodes k
        change live file proc (.inode k) + s.puts k = if k < s.inodes then 1 else 0
        omega
      · have hk := hlive (.pipe m' w')
        have hold := h.ends m' w'
        change live file proc (.pipe m' w') = if m' < s.pipes ∧ (Function.update s.pipe m
          ((s.pipe m).close w).release m').isOpen w' = true then 1 else 0
        by_cases hm : m' = m
        · subst hm
          rw [Function.update_self, isOpen_close]
          by_cases hw : w' = w
          · subst hw
            rw [if_pos rfl] at hk
            rw [if_pos hopen] at hold
            rw [if_pos rfl, if_neg fun h => Bool.false_ne_true h.2]
            omega
          · rw [if_neg fun heq => hw (Target.pipe.inj heq).2] at hk
            rw [if_neg hw]
            exact hk.trans hold
        · rw [if_neg fun heq => hm (Target.pipe.inj heq).1] at hk
          rw [Function.update_of_ne hm]
          exact hk.trans hold
      · have hold := h.frees m'
        change (Function.update s.pipe m ((s.pipe m).close w).release m').frees =
          if m' < s.pipes ∧
            (Function.update s.pipe m ((s.pipe m).close w).release m').isOpen false =
            false ∧ (Function.update s.pipe m ((s.pipe m).close w).release m').isOpen true = false
          then 1 else 0
        by_cases hm : m' = m
        · subst hm
          obtain ⟨hlt, hw⟩ := hopen
          have hzero : (s.pipe m').frees = 0 := by
            rw [hold, if_neg]
            rintro ⟨-, hr, hwr⟩
            cases w
            · exact Bool.false_ne_true (hr.symm.trans hw)
            · exact Bool.false_ne_true (hwr.symm.trans hw)
          rw [Function.update_self, isOpen_close, isOpen_close, frees_close, hzero, Nat.zero_add]
          cases w
          · simp only [if_true, true_and, hlt, Bool.not_false, reduceCtorEq, if_false]
          · simp only [if_true, and_true, true_and, hlt, Bool.not_true, reduceCtorEq, if_false]
        · rw [Function.update_of_ne hm]
          exact hold

theorem Targets.openInode (h : Targets s)
    (hlive : ∀ t, live file proc t =
      live s.file s.proc t + if t = .inode s.inodes then 1 else 0) :
    Targets { s with file := file, proc := proc, inodes := s.inodes + 1 } := by
  refine ⟨fun n => ?_, fun m w => ?_, h.frees⟩
  · have hn := hlive (.inode n)
    have hold := h.inodes n
    change live file proc (.inode n) + s.puts n = if n < s.inodes + 1 then 1 else 0
    by_cases hlast : n = s.inodes
    · subst hlast
      rw [if_pos rfl] at hn
      rw [if_neg (lt_irrefl _)] at hold
      rw [if_pos (Nat.lt_succ_self _)]
      omega
    · rw [if_neg fun heq => hlast (Target.inode.inj heq)] at hn
      have hiff : n < s.inodes + 1 ↔ n < s.inodes := by omega
      simp only [hiff]
      omega
  · have hm := hlive (.pipe m w)
    rw [if_neg Target.noConfusion] at hm
    exact hm.trans (h.ends m w)

theorem Targets.openPipe (h : Targets s)
    (hlive : ∀ t, live file proc t = live s.file s.proc t +
      (if t = .pipe s.pipes false then 1 else 0) + if t = .pipe s.pipes true then 1 else 0) :
    Targets { s with
      file := file
      proc := proc
      pipes := s.pipes + 1
      pipe := Function.update s.pipe s.pipes ⟨true, true, 0⟩ } := by
  refine ⟨fun n => ?_, fun m w => ?_, fun m => ?_⟩
  · have hn := hlive (.inode n)
    rw [if_neg Target.noConfusion, if_neg Target.noConfusion] at hn
    rw [← h.inodes n]
    exact congrArg (· + s.puts n) hn
  · have hm := hlive (.pipe m w)
    have hold := h.ends m w
    change live file proc (.pipe m w) = if m < s.pipes + 1 ∧
      (Function.update s.pipe s.pipes ⟨true, true, 0⟩ m).isOpen w = true then 1 else 0
    by_cases hlast : m = s.pipes
    · subst hlast
      rw [if_neg fun hlt => lt_irrefl _ hlt.1] at hold
      rw [Function.update_self, if_pos ⟨Nat.lt_succ_self _, by cases w <;> rfl⟩]
      cases w
      · rw [if_pos rfl, if_neg fun heq => Bool.false_ne_true (Target.pipe.inj heq).2] at hm
        omega
      · rw [if_pos rfl, if_neg fun heq => Bool.false_ne_true (Target.pipe.inj heq).2.symm] at hm
        omega
    · rw [if_neg fun heq => hlast (Target.pipe.inj heq).1,
        if_neg fun heq => hlast (Target.pipe.inj heq).1] at hm
      have hiff : m < s.pipes + 1 ↔ m < s.pipes := by omega
      rw [Function.update_of_ne hlast]
      simp only [hiff]
      exact hm.trans hold
  · change (Function.update s.pipe s.pipes ⟨true, true, 0⟩ m).frees = if m < s.pipes + 1 ∧
      (Function.update s.pipe s.pipes ⟨true, true, 0⟩ m).isOpen false = false ∧
      (Function.update s.pipe s.pipes ⟨true, true, 0⟩ m).isOpen true = false then 1 else 0
    by_cases hlast : m = s.pipes
    · rw [hlast, Function.update_self, if_neg]
      rintro ⟨-, hopen, -⟩
      cases hopen
    · have hiff : m < s.pipes + 1 ↔ m < s.pipes := by omega
      rw [Function.update_of_ne hlast]
      simp only [hiff]
      exact h.frees m

theorem live_move [DecidableEq ι] (h : ∀ t, (if (file f).target = some t then 1 else 0) +
    (if (proc p).pc.target = some t then 1 else 0) =
      (if x.target = some t then 1 else 0) + if y.pc.target = some t then 1 else 0) (t : Target) :
    live (Function.update file f x) (Function.update proc p y) t = live file proc t := by
  have hfile : live (Function.update file f x) proc t + _ = _ := live_setFile
  have hproc : live (Function.update file f x) (Function.update proc p y) t + _ = _ := live_setProc
  have ht := h t
  omega

end Accounts

/-- The child that `fork` is making. -/
def Pc.child : Pc ι → Option ι
  | .forked c => some c
  | .copying c _ => some c
  | _ => none

/-- The descriptors that `fork` has been through. -/
def Pc.copied : Pc ι → ℕ
  | .copying _ fd => fd
  | _ => 0

/-- The first descriptors are empty. -/
def Pc.emptied : Pc ι → ℕ
  | .unused => NOFILE
  | .zombie => NOFILE
  | .exiting fd => fd
  | .exitDropping _ fd => fd
  | _ => 0

structure Table (proc : ι → Proc ι) : Prop where
  tidy : ∀ p, ∀ fd : Fd, fd.val < (proc p).pc.emptied → (proc p).ofile fd = none
  child : ∀ p c, (proc p).pc.child = some c → (proc c).pc = .embryo ∧
    ∀ fd : Fd, (proc p).pc.copied ≤ fd.val → (proc c).ofile fd = none
  unique : ∀ p q c, (proc p).pc.child = some c → (proc q).pc.child = some c → p = q

section Processes

variable [DecidableEq ι] {proc : ι → Proc ι} {p c : ι} {y : Proc ι}

theorem Table.move (h : Table proc) (hpc : (proc p).pc ≠ .embryo)
    (htidy : ∀ fd : Fd, fd.val < y.pc.emptied → y.ofile fd = none) (hchild : y.pc.child = none) :
    Table (Function.update proc p y) := by
  have hold : ∀ q c, (Function.update proc p y q).pc.child = some c →
      q ≠ p ∧ (proc q).pc.child = some c := by
    intro q c hq
    by_cases hqp : q = p
    · rw [hqp, Function.update_self, hchild] at hq
      cases hq
    · rw [Function.update_of_ne hqp] at hq
      exact ⟨hqp, hq⟩
  refine ⟨fun q fd hfd => ?_, fun q c hq => ?_, fun q r c hq hr => ?_⟩
  · by_cases hqp : q = p
    · rw [hqp, Function.update_self] at hfd ⊢
      exact htidy fd hfd
    · rw [Function.update_of_ne hqp] at hfd ⊢
      exact h.tidy q fd hfd
  · obtain ⟨hqp, hchild⟩ := hold q c hq
    have hcp : c ≠ p := by
      rintro rfl
      exact hpc (h.child q c hchild).1
    rw [Function.update_of_ne hcp, Function.update_of_ne hqp]
    exact h.child q c hchild
  · exact h.unique q r c (hold q c hq).2 (hold r c hr).2

theorem Table.change {yc : Proc ι} (h : Table proc) (hpc : (proc p).pc ≠ .embryo) (hne : c ≠ p)
    (hparent : ∀ q, (proc q).pc.child = some c → q = p)
    (htidy : ∀ fd : Fd, fd.val < y.pc.emptied → y.ofile fd = none)
    (hchildTidy : ∀ fd : Fd, fd.val < yc.pc.emptied → yc.ofile fd = none)
    (hchildless : yc.pc.child = none)
    (hchild : y.pc.child = none ∨ y.pc.child = some c ∧ yc.pc = .embryo ∧
      ∀ fd : Fd, y.pc.copied ≤ fd.val → yc.ofile fd = none) :
    Table (Function.update (Function.update proc c yc) p y) := by
  have hold : ∀ q d, (Function.update (Function.update proc c yc) p y q).pc.child = some d →
      q = p ∧ d = c ∧ y.pc.child = some c ∨ q ≠ p ∧ d ≠ c ∧ (proc q).pc.child = some d := by
    intro q d hq
    by_cases hqp : q = p
    · left
      rw [hqp, Function.update_self] at hq
      rcases hchild with hnone | ⟨hsome, -, -⟩
      · rw [hnone] at hq
        cases hq
      · exact ⟨hqp, Option.some_inj.mp (hq.symm.trans hsome), hsome⟩
    · right
      rw [Function.update_of_ne hqp] at hq
      by_cases hqc : q = c
      · rw [hqc, Function.update_self, hchildless] at hq
        cases hq
      · rw [Function.update_of_ne hqc] at hq
        refine ⟨hqp, ?_, hq⟩
        rintro rfl
        exact hqp (hparent q hq)
  refine ⟨fun q fd hfd => ?_, fun q d hq => ?_, fun q r d hq hr => ?_⟩
  · by_cases hqp : q = p
    · rw [hqp, Function.update_self] at hfd ⊢
      exact htidy fd hfd
    · rw [Function.update_of_ne hqp] at hfd ⊢
      by_cases hqc : q = c
      · rw [hqc, Function.update_self] at hfd ⊢
        exact hchildTidy fd hfd
      · rw [Function.update_of_ne hqc] at hfd ⊢
        exact h.tidy q fd hfd
  · rcases hold q d hq with ⟨rfl, rfl, hsome⟩ | ⟨hqp, hdc, hq'⟩
    · rcases hchild with hnone | ⟨-, hembryo, hempty⟩
      · rw [hnone] at hsome
        cases hsome
      · rw [Function.update_of_ne hne, Function.update_self, Function.update_self]
        exact ⟨hembryo, hempty⟩
    · have hdp : d ≠ p := by
        rintro rfl
        exact hpc (h.child q d hq').1
      have hqc : q ≠ c := by
        rintro rfl
        rw [Function.update_of_ne hqp, Function.update_self, hchildless] at hq
        cases hq
      rw [Function.update_of_ne hdp, Function.update_of_ne hdc, Function.update_of_ne hqp,
        Function.update_of_ne hqc]
      exact h.child q d hq'
  · rcases hold q d hq with ⟨hqp, hdc, -⟩ | ⟨hqp, hdc, hq'⟩
    · rcases hold r d hr with ⟨hrp, -, -⟩ | ⟨-, hdc', -⟩
      · rw [hqp, hrp]
      · exact absurd hdc hdc'
    · rcases hold r d hr with ⟨-, hdc', -⟩ | ⟨-, -, hr'⟩
      · exact absurd hdc' hdc
      · exact h.unique q r d hq' hr'

end Processes

end FileTable

end Xv6Fairness
