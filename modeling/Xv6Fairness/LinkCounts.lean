import Mathlib.Algebra.BigOperators.Group.Finset.Basic
import Mathlib.Algebra.Order.BigOperators.Group.Finset
import Xv6Fairness.FileTree

/-!
# Links and directory entries

A proper entry of a directory is one besides `.` and `..`. The links of an inode are due to the
proper entries that name it, to its subdirectories, whose `..` names it, and to the root being the
root. The surplus of an inode is what `nlink` counts beyond that. Each change of the tree keeps the
surplus of every inode, except that freeing a directory drops its entries and leaves what they name
with a surplus.
-/

namespace Xv6Fairness

namespace FileTree

abbrev Table := ℕ → Inode

theorem zero_ne_T_DIR : (0 : Int16) ≠ T_DIR := by decide

def IsDir (T : Table) (i : ℕ) : Prop := (T i).type = T_DIR

def Dirent.Proper (e : Dirent) : Prop := e.inum ≠ 0 ∧ e.name ≠ dot ∧ e.name ≠ dotdot

instance (T : Table) (i : ℕ) : Decidable (IsDir T i) := inferInstanceAs (Decidable (_ = _))

instance : DecidablePred Dirent.Proper := fun _ => inferInstanceAs (Decidable (_ ∧ _))

/-- The proper entries that name an inode. -/
def Inode.links (x : Inode) (i : ℕ) : ℕ :=
  if x.type = T_DIR then x.entries.countP fun e => e.Proper ∧ e.inum = i else 0

def names (n : ℕ) (T : Table) (i : ℕ) : ℕ := ∑ d ∈ Finset.range n, (T d).links i

def subdirs (T : Table) (d : ℕ) : ℕ :=
  if IsDir T d then (T d).entries.countP fun e => e.Proper ∧ IsDir T e.inum else 0

def demand (n : ℕ) (T : Table) (i : ℕ) : ℤ :=
  names n T i + subdirs T i + if i = ROOTINO then 1 else 0

def surplus (n : ℕ) (T : Table) (i : ℕ) : ℤ := (T i).nlink - demand n T i

/-- The entries of a directory `d`: itself, its parent `pp` and proper ones. -/
def Shape (x : Inode) (d pp : ℕ) : Prop :=
  ∃ rest, x.entries = ⟨d, dot⟩ :: ⟨pp, dotdot⟩ :: rest ∧
    ∀ e ∈ rest, e.inum ≠ 0 → e.name ≠ dot ∧ e.name ≠ dotdot

/-- Directories of the right form, whose proper entries name allocated inodes. -/
structure Formed (n : ℕ) (T : Table) : Prop where
  bound : ∀ i, (T i).type ≠ 0 → 0 < i ∧ i < n
  root : IsDir T ROOTINO
  shape : ∀ d, IsDir T d → ∃ pp, pp ≠ 0 ∧ Shape (T d) d pp
  named : ∀ d, IsDir T d → ∀ e ∈ (T d).entries, e.Proper → (T e.inum).type ≠ 0

structure Sound (n : ℕ) (T : Table) : Prop extends Formed n T where
  surplus_nonneg : ∀ i, (T i).type ≠ 0 → 0 ≤ surplus n T i

/-- The second list has the entry `e` more than the first one, up to empty places. -/
def Adds (es es' : List Dirent) (e : Dirent) : Prop :=
  ∀ q : Dirent → Bool, (∀ x, x.inum = 0 → q x = false) →
    es'.countP q = es.countP q + if q e then 1 else 0

section Entries

variable {es es' : List Dirent} {e x : Dirent} {name : Name} {k i d pp : ℕ}

theorem putEntry_adds : Adds es (putEntry es e) e := by
  intro q hq
  induction es with
  | nil => rw [putEntry, List.countP_singleton, List.countP_nil, Nat.zero_add]
  | cons x xs ih =>
      rw [putEntry]
      by_cases hx : x.inum = 0
      · rw [if_pos hx, List.countP_cons, List.countP_cons, hq x hx]
        simp only [Bool.false_eq_true, if_false, Nat.add_zero]
      · rw [if_neg hx, List.countP_cons, List.countP_cons, ih, Nat.add_right_comm]

theorem Adds.mem (h : Adds es es' e) (hx : x.inum ≠ 0) : x ∈ es' ↔ x ∈ es ∨ x = e := by
  have hq : ∀ y : Dirent, y.inum = 0 → decide (y = x) = false := by
    intro y hy
    rw [decide_eq_false_iff_not]
    rintro rfl
    exact hx hy
  have hcount := h (fun y => decide (y = x)) hq
  have hmem : ∀ ys : List Dirent, x ∈ ys ↔ 0 < ys.countP fun y => decide (y = x) := by
    intro ys
    rw [List.countP_pos_iff]
    constructor
    · exact fun h => ⟨x, h, decide_eq_true rfl⟩
    · rintro ⟨y, hy, heq⟩
      rwa [← of_decide_eq_true heq]
  rw [hmem, hmem, hcount]
  by_cases he : e = x
  · rw [decide_eq_true he, if_pos rfl]
    exact iff_of_true (Nat.succ_pos _) (.inr he.symm)
  · rw [decide_eq_false he]
    have hne : x ≠ e := fun h => he h.symm
    simp only [hne, or_false, Bool.false_eq_true, if_false, Nat.add_zero]

theorem findEntry_some (h : findEntry es name = some (k, i)) :
    ∃ pre post, es = pre ++ ⟨i, name⟩ :: post ∧ pre.length = k ∧ i ≠ 0 := by
  induction es generalizing k with
  | nil => cases h
  | cons e es ih =>
      rw [findEntry] at h
      split_ifs at h with he
      · cases h
        obtain ⟨hi, rfl⟩ := he
        exact ⟨[], es, rfl, rfl, hi⟩
      · obtain ⟨⟨l, j⟩, hl, heq⟩ := Option.map_eq_some_iff.mp h
        cases heq
        obtain ⟨pre, post, rfl, rfl, hi⟩ := ih hl
        exact ⟨e :: pre, post, rfl, rfl, hi⟩

theorem findEntry_mem (h : findEntry es name = some (k, i)) : ⟨i, name⟩ ∈ es ∧ i ≠ 0 := by
  obtain ⟨pre, post, rfl, -, hi⟩ := findEntry_some h
  exact ⟨List.mem_append_right _ List.mem_cons_self, hi⟩

theorem findEntry_none (h : findEntry es name = none) : ∀ e ∈ es, e.inum ≠ 0 → e.name ≠ name := by
  induction es with
  | nil => exact fun e he => absurd he List.not_mem_nil
  | cons x es ih =>
      rw [findEntry] at h
      split_ifs at h with hx
      intro e he hi hname
      rcases List.mem_cons.mp he with rfl | he
      · exact hx ⟨hi, hname⟩
      · exact ih (Option.map_eq_none_iff.mp h) e he hi hname

theorem set_adds (h : findEntry es name = some (k, i)) :
    Adds (es.set k ⟨0, []⟩) es ⟨i, name⟩ := by
  obtain ⟨pre, post, rfl, rfl, -⟩ := findEntry_some h
  intro q hq
  rw [List.set_append_right _ _ le_rfl, Nat.sub_self, List.set_cons_zero, List.countP_append,
    List.countP_append, List.countP_cons, List.countP_cons, hq ⟨0, []⟩ rfl]
  simp only [Bool.false_eq_true, if_false, Nat.add_zero, Nat.add_assoc]

theorem Shape.mem {x : Inode} (h : Shape x d pp) (he : e ∈ x.entries) (hi : e.inum ≠ 0) :
    e = ⟨d, dot⟩ ∨ e = ⟨pp, dotdot⟩ ∨ e.Proper := by
  obtain ⟨rest, heq, hrest⟩ := h
  rw [heq] at he
  rcases List.mem_cons.mp he with rfl | he
  · exact .inl rfl
  · rcases List.mem_cons.mp he with rfl | he
    · exact .inr (.inl rfl)
    · exact .inr (.inr ⟨hi, hrest e he hi⟩)

theorem Shape.put {x x' : Inode} (h : Shape x d pp) (hd : d ≠ 0) (hpp : pp ≠ 0) (he : e.Proper)
    (hx : x'.entries = putEntry x.entries e) : Shape x' d pp := by
  obtain ⟨rest, heq, hrest⟩ := h
  refine ⟨putEntry rest e, ?_, fun y hy hi => ?_⟩
  · rw [hx, heq, putEntry, if_neg hd, putEntry, if_neg hpp]
  · rcases (putEntry_adds.mem hi).mp hy with hy | rfl
    · exact hrest y hy hi
    · exact he.2

theorem Shape.set {x x' : Inode} (h : Shape x d pp) (hname : name ≠ dot ∧ name ≠ dotdot)
    (hfind : findEntry x.entries name = some (k, i)) (hx : x'.entries = x.entries.set k ⟨0, []⟩) :
    Shape x' d pp := by
  obtain ⟨rest, heq, hrest⟩ := h
  obtain ⟨pre, post, hpre, rfl, -⟩ := findEntry_some hfind
  rw [heq] at hpre
  rcases pre with _ | ⟨y, _ | ⟨z, pre⟩⟩
  · rw [List.nil_append, List.cons.injEq] at hpre
    exact absurd (congrArg Dirent.name hpre.1).symm hname.1
  · rw [List.cons_append, List.nil_append, List.cons.injEq, List.cons.injEq] at hpre
    exact absurd (congrArg Dirent.name hpre.2.1).symm hname.2
  · refine ⟨rest.set pre.length ⟨0, []⟩, ?_, fun w hw hi => ?_⟩
    · rw [hx, heq, List.length_cons, List.length_cons, List.set_cons_succ, List.set_cons_succ]
    · rcases List.mem_or_eq_of_mem_set hw with hw | rfl
      · exact hrest w hw hi
      · exact absurd rfl hi

theorem Shape.proper {x : Inode} (h : Shape x d pp) (hd : d ≠ 0) (hpp : pp ≠ 0) (hi : i ≠ 0)
    (hfind : findEntry x.entries name = none) : (⟨i, name⟩ : Dirent).Proper := by
  obtain ⟨rest, heq, -⟩ := h
  have hnone := findEntry_none hfind
  rw [heq] at hnone
  refine ⟨hi, fun hname => ?_, fun hname => ?_⟩
  · exact hnone ⟨d, dot⟩ List.mem_cons_self hd hname.symm
  · exact hnone ⟨pp, dotdot⟩ (List.mem_cons_of_mem _ List.mem_cons_self) hpp hname.symm

end Entries

section Counts

variable {n : ℕ} {T T' : Table} {x x' : Inode} {e : Dirent} {i j d : ℕ}

theorem links_of_not_dir (h : x.type ≠ T_DIR) : x.links i = 0 := if_neg h

theorem links_pos_iff : 0 < x.links i ↔ x.type = T_DIR ∧ ∃ e ∈ x.entries, e.Proper ∧
    e.inum = i := by
  by_cases hx : x.type = T_DIR
  · rw [Inode.links, if_pos hx, List.countP_pos_iff, and_iff_right hx]
    simp only [decide_eq_true_iff]
  · rw [links_of_not_dir hx]
    exact iff_of_false (lt_irrefl 0) fun h => hx h.1

theorem names_pos_iff : 0 < names n T i ↔
    ∃ d < n, IsDir T d ∧ ∃ e ∈ (T d).entries, e.Proper ∧ e.inum = i := by
  rw [names, Finset.sum_pos_iff]
  simp only [Finset.mem_range, links_pos_iff, IsDir]

theorem not_named (h : names n T i = 0) (hd : d < n) (hdir : IsDir T d) (he : e ∈ (T d).entries)
    (hproper : e.Proper) : e.inum ≠ i := by
  intro hi
  exact (names_pos_iff.mpr ⟨d, hd, hdir, e, he, hproper, hi⟩).ne' h

theorem names_update (hd : d < n) :
    names n (Function.update T d x) i + (T d).links i = names n T i + x.links i := by
  have hmem : d ∈ Finset.range n := Finset.mem_range.mpr hd
  have hrest : ∑ c ∈ (Finset.range n).erase d, (Function.update T d x c).links i =
      ∑ c ∈ (Finset.range n).erase d, (T c).links i := by
    apply Finset.sum_congr rfl
    intro c hc
    rw [Function.update_of_ne (Finset.ne_of_mem_erase hc)]
  rw [names, names, ← Finset.add_sum_erase _ _ hmem, ← Finset.add_sum_erase _ _ hmem, hrest,
    Function.update_self]
  omega

theorem names_congr (h : ∀ d, (T' d).type = (T d).type ∧
    (IsDir T d → (T' d).entries = (T d).entries)) :
    names n T' i = names n T i := by
  apply Finset.sum_congr rfl
  intro d _
  by_cases hd : IsDir T d
  · rw [Inode.links, Inode.links, (h d).1, (h d).2 hd]
  · rw [links_of_not_dir hd, links_of_not_dir ((h d).1 ▸ hd)]

theorem subdirs_congr (hentries : IsDir T d → (T' d).entries = (T d).entries)
    (hdir : IsDir T' d ↔ IsDir T d)
    (h : IsDir T d → ∀ e ∈ (T d).entries, e.Proper → (IsDir T' e.inum ↔ IsDir T e.inum)) :
    subdirs T' d = subdirs T d := by
  by_cases hd : IsDir T d
  · rw [subdirs, subdirs, if_pos hd, if_pos (hdir.mpr hd), hentries hd]
    apply List.countP_congr
    intro e he
    rw [decide_eq_true_iff, decide_eq_true_iff]
    exact and_congr_right fun hp => h hd e he hp
  · rw [subdirs, subdirs, if_neg hd, if_neg fun h => hd (hdir.mp h)]

theorem demand_congr (h : ∀ d, (T' d).type = (T d).type ∧
    (IsDir T d → (T' d).entries = (T d).entries)) :
    demand n T' i = demand n T i := by
  have hdir : ∀ d, IsDir T' d ↔ IsDir T d := fun d => by rw [IsDir, (h d).1, IsDir]
  rw [demand, demand, names_congr h, subdirs_congr (h i).2 (hdir i) fun _ e _ _ => hdir e.inum]

theorem links_adds (hx : x.type = T_DIR) (hx' : x'.type = T_DIR) (h : Adds x.entries x'.entries e)
    (he : e.Proper) : x'.links j = x.links j + if e.inum = j then 1 else 0 := by
  rw [Inode.links, Inode.links, if_pos hx, if_pos hx',
    h _ fun y hy => decide_eq_false fun hp => hp.1.1 hy]
  simp only [he, true_and, decide_eq_true_eq]

theorem names_enter (hd : d < n) (hdir : IsDir T d) (hx : x.type = T_DIR)
    (h : Adds (T d).entries x.entries e) (he : e.Proper) :
    names n (Function.update T d x) j = names n T j + if e.inum = j then 1 else 0 := by
  have hsum : names n (Function.update T d x) j + (T d).links j = names n T j + x.links j :=
    names_update hd
  rw [links_adds hdir hx h he] at hsum
  omega

theorem demand_enter (hd : d < n) (hdir : IsDir T d) (hx : x.type = T_DIR)
    (h : Adds (T d).entries x.entries e) (he : e.Proper) :
    demand n (Function.update T d x) j = demand n T j + (if e.inum = j then 1 else 0) +
      if j = d ∧ IsDir T e.inum then 1 else 0 := by
  have hdirs : ∀ c, IsDir (Function.update T d x) c ↔ IsDir T c := by
    intro c
    by_cases hc : c = d
    · rw [hc, IsDir, Function.update_self]
      exact iff_of_true hx hdir
    · rw [IsDir, Function.update_of_ne hc, IsDir]
  have hnames : names n (Function.update T d x) j = names n T j + if e.inum = j then 1 else 0 :=
    names_enter hd hdir hx h he
  have hsub : subdirs (Function.update T d x) j =
      subdirs T j + if j = d ∧ IsDir T e.inum then 1 else 0 := by
    by_cases hj : j = d
    · subst hj
      rw [subdirs, subdirs, if_pos hdir, if_pos ((hdirs j).mpr hdir), Function.update_self]
      have hcount := h (fun e => decide (e.Proper ∧ IsDir T e.inum)) fun y hy =>
        decide_eq_false fun hp => hp.1.1 hy
      simp only [hdirs, true_and]
      rw [hcount]
      simp only [he, true_and, decide_eq_true_eq]
    · rw [if_neg fun hj' => hj hj'.1]
      exact subdirs_congr (fun _ => by rw [Function.update_of_ne hj])
        (hdirs j) fun _ e _ _ => hdirs e.inum
  rw [demand, demand, hnames, hsub]
  push_cast
  ring

theorem demand_relabel (hi : i < n) (hnames : names n T i = 0) (hj : j ≠ i)
    (hdir : IsDir T j → j < n) :
    demand n (Function.update T i x) j + (T i).links j = demand n T j + x.links j := by
  have hsum : names n (Function.update T i x) j + (T i).links j = names n T j + x.links j :=
    names_update hi
  have hsub : subdirs (Function.update T i x) j = subdirs T j := by
    apply subdirs_congr
    · intro _
      rw [Function.update_of_ne hj]
    · rw [IsDir, Function.update_of_ne hj, IsDir]
    · intro hd e he hp
      rw [IsDir, Function.update_of_ne (not_named hnames (hdir hd) hd he hp), IsDir]
  rw [demand, demand, hsub]
  omega

theorem demand_relabel_self (hi : i < n) (hnames : names n T i = 0) (hroot : i ≠ ROOTINO)
    (hx : ∀ e ∈ x.entries, ¬ e.Proper) : demand n (Function.update T i x) i = 0 := by
  have hlinks : x.links i = 0 := by
    by_contra hpos
    obtain ⟨-, e, he, hp, -⟩ := links_pos_iff.mp (Nat.pos_of_ne_zero hpos)
    exact hx e he hp
  have hsum : names n (Function.update T i x) i + (T i).links i = names n T i + x.links i :=
    names_update hi
  have hsub : subdirs (Function.update T i x) i = 0 := by
    rw [subdirs, Function.update_self]
    split_ifs with hdir
    · rw [List.countP_eq_zero]
      intro e he hp
      exact hx e he (of_decide_eq_true hp).1
    · rfl
  rw [demand, hsub, if_neg hroot]
  omega

end Counts

def newInode (i d : ℕ) (type : Int16) : Inode :=
  ⟨type, 1, if type = T_DIR then [⟨i, dot⟩, ⟨d, dotdot⟩] else []⟩

/-- A directory with one entry more and `l` links more. -/
def Inode.enter (x : Inode) (e : Dirent) (l : ℤ) : Inode :=
  { x with nlink := x.nlink + l, entries := putEntry x.entries e }

/-- A directory without the entry at place `k`, and with `l` links more. -/
def Inode.clear (x : Inode) (k : ℕ) (l : ℤ) : Inode :=
  { x with nlink := x.nlink + l, entries := x.entries.set k ⟨0, []⟩ }

def Inode.freed (x : Inode) : Inode := { x with type := 0, entries := [] }

section Formed

variable {n : ℕ} {T T' : Table} {x : Inode} {e : Dirent} {name : Name} {type : Int16} {l : ℤ}
  {i j k d : ℕ}

theorem Formed.congr (h : Formed n T)
    (hT : ∀ d, (T' d).type = (T d).type ∧ (IsDir T d → (T' d).entries = (T d).entries)) :
    Formed n T' := by
  have hdir : ∀ d, IsDir T' d ↔ IsDir T d := fun d => by rw [IsDir, (hT d).1, IsDir]
  refine ⟨fun i hi => h.bound i ((hT i).1 ▸ hi), (hdir _).mpr h.root, fun d hd => ?_,
    fun d hd e he hp => ?_⟩
  · obtain ⟨pp, hpp, rest, hx, hrest⟩ := h.shape d ((hdir d).mp hd)
    exact ⟨pp, hpp, rest, ((hT d).2 ((hdir d).mp hd)).trans hx, hrest⟩
  · rw [(hT e.inum).1]
    exact h.named d ((hdir d).mp hd) e ((hT d).2 ((hdir d).mp hd) ▸ he) hp

theorem IsDir.ne_zero (h : IsDir T d) : (T d).type ≠ 0 := by
  rw [h]
  decide

theorem Formed.pos (h : Formed n T) (hd : IsDir T d) : d ≠ 0 := (h.bound d hd.ne_zero).1.ne'

theorem Formed.update_dir (h : Formed n T) (hd : IsDir T d) (hx : x.type = T_DIR)
    (hshape : ∀ pp, pp ≠ 0 → Shape (T d) d pp → Shape x d pp)
    (hnamed : ∀ e ∈ x.entries, e.Proper → (T e.inum).type ≠ 0) :
    Formed n (Function.update T d x) := by
  have htype : ∀ j, (Function.update T d x j).type = (T j).type := by
    intro j
    by_cases hj : j = d
    · rw [hj, Function.update_self, hx, hd]
    · rw [Function.update_of_ne hj]
  have hdir : ∀ j, IsDir (Function.update T d x) j ↔ IsDir T j := fun j => by
    rw [IsDir, htype, IsDir]
  refine ⟨fun j hj => h.bound j (htype j ▸ hj), (hdir _).mpr h.root, fun j hj => ?_,
    fun j hj e he hp => ?_⟩
  · obtain ⟨pp, hpp, hold⟩ := h.shape j ((hdir j).mp hj)
    refine ⟨pp, hpp, ?_⟩
    by_cases hjd : j = d
    · rw [hjd] at hold ⊢
      rw [Function.update_self]
      exact hshape pp hpp hold
    · rwa [Function.update_of_ne hjd]
  · rw [htype]
    by_cases hjd : j = d
    · rw [hjd, Function.update_self] at he
      exact hnamed e he hp
    · rw [Function.update_of_ne hjd] at he
      exact h.named j ((hdir j).mp hj) e he hp

theorem Formed.enter (h : Formed n T) (hd : IsDir T d) (hi : (T i).type ≠ 0)
    (hname : findEntry (T d).entries name = none) :
    Formed n (Function.update T d ((T d).enter ⟨i, name⟩ l)) := by
  obtain ⟨pp, hpp, hshape⟩ := h.shape d hd
  have hproper : (⟨i, name⟩ : Dirent).Proper :=
    hshape.proper (h.pos hd) hpp (h.bound i hi).1.ne' hname
  refine h.update_dir hd hd (fun pp hpp hold => hold.put (h.pos hd) hpp hproper rfl) fun e he hp =>
    ?_
  rcases (putEntry_adds.mem hp.1).mp he with he | rfl
  · exact h.named d hd e he hp
  · exact hi

theorem Formed.clear (h : Formed n T) (hd : IsDir T d) (hname : name ≠ dot ∧ name ≠ dotdot)
    (hfind : findEntry (T d).entries name = some (k, i)) :
    Formed n (Function.update T d ((T d).clear k l)) := by
  refine h.update_dir hd hd (fun pp _ hold => hold.set hname hfind rfl) fun e he hp => ?_
  rcases List.mem_or_eq_of_mem_set he with he | rfl
  · exact h.named d hd e he hp
  · exact absurd rfl hp.1

theorem Formed.names_free (h : Formed n T) (hi : (T i).type = 0) : names n T i = 0 := by
  by_contra hpos
  obtain ⟨d, -, hd, e, he, hp, rfl⟩ := names_pos_iff.mp (Nat.pos_of_ne_zero hpos)
  exact h.named d hd e he hp hi

theorem newInode_not_proper (he : e ∈ (newInode i d type).entries) : ¬ e.Proper := by
  change e ∈ (if type = T_DIR then _ else _) at he
  split_ifs at he
  · rcases List.mem_cons.mp he with rfl | he
    · exact fun hp => hp.2.1 rfl
    · rw [List.mem_singleton.mp he]
      exact fun hp => hp.2.2 rfl
  · exact absurd he List.not_mem_nil

theorem newInode_links : (newInode i d type).links j = 0 := by
  by_contra hpos
  obtain ⟨-, e, he, hp, -⟩ := links_pos_iff.mp (Nat.pos_of_ne_zero hpos)
  exact newInode_not_proper he hp

theorem Formed.new (h : Formed n T) (hi : (T i).type = 0) (hin : 0 < i ∧ i < n) (hd : IsDir T d) :
    Formed n (Function.update T i (newInode i d type)) := by
  have hne : ∀ j, (T j).type ≠ 0 → j ≠ i := by
    rintro j hj rfl
    exact hj hi
  have hkeep : ∀ j, (T j).type ≠ 0 → Function.update T i (newInode i d type) j = T j := fun j hj =>
    Function.update_of_ne (hne j hj) _ _
  refine ⟨fun j hj => ?_, ?_, fun j hj => ?_, fun j hj e he hp => ?_⟩
  · by_cases hji : j = i
    · rwa [hji]
    · rw [Function.update_of_ne hji] at hj
      exact h.bound j hj
  · rw [IsDir, hkeep _ h.root.ne_zero]
    exact h.root
  · by_cases hji : j = i
    · rw [hji, IsDir, Function.update_self] at hj
      rw [hji, Function.update_self]
      refine ⟨d, h.pos hd, [], ?_, fun e he => absurd he List.not_mem_nil⟩
      exact if_pos hj
    · rw [IsDir, Function.update_of_ne hji] at hj
      rw [Function.update_of_ne hji]
      exact h.shape j hj
  · by_cases hji : j = i
    · rw [hji, Function.update_self] at he
      exact absurd hp (newInode_not_proper he)
    · rw [IsDir, Function.update_of_ne hji] at hj
      rw [Function.update_of_ne hji] at he
      have hold := h.named j hj e he hp
      rwa [hkeep _ hold]

theorem Formed.free (h : Formed n T) (hnames : names n T i = 0) (hroot : i ≠ ROOTINO) :
    Formed n (Function.update T i (T i).freed) := by
  have hdir : ∀ j, IsDir (Function.update T i (T i).freed) j → j ≠ i ∧ IsDir T j := by
    intro j hj
    by_cases hji : j = i
    · rw [hji, IsDir, Function.update_self] at hj
      exact absurd hj zero_ne_T_DIR
    · rw [IsDir, Function.update_of_ne hji] at hj
      exact ⟨hji, hj⟩
  refine ⟨fun j hj => ?_, ?_, fun j hj => ?_, fun j hj e he hp => ?_⟩
  · by_cases hji : j = i
    · rw [hji, Function.update_self] at hj
      exact absurd rfl hj
    · rw [Function.update_of_ne hji] at hj
      exact h.bound j hj
  · rw [IsDir, Function.update_of_ne hroot.symm]
    exact h.root
  · obtain ⟨hji, hj⟩ := hdir j hj
    rw [Function.update_of_ne hji]
    exact h.shape j hj
  · obtain ⟨hji, hj⟩ := hdir j hj
    rw [Function.update_of_ne hji] at he
    rw [Function.update_of_ne (not_named hnames (h.bound j hj.ne_zero).2 hj he hp)]
    exact h.named j hj e he hp

theorem surplus_new (h : Formed n T) (hi : (T i).type = 0) (hin : 0 < i ∧ i < n) :
    surplus n (Function.update T i (newInode i d type)) j =
      if j = i then 1 else surplus n T j := by
  have hnames := h.names_free hi
  have hroot : i ≠ ROOTINO := by
    rintro rfl
    exact h.root.ne_zero hi
  by_cases hj : j = i
  · rw [if_pos hj, hj, surplus, Function.update_self,
      demand_relabel_self hin.2 hnames hroot fun e =>
      newInode_not_proper]
    rfl
  · have hlinks : (T i).links j = 0 := links_of_not_dir fun hdir => by
      rw [hi] at hdir
      exact zero_ne_T_DIR hdir
    have hdemand := demand_relabel (x := newInode i d type) hin.2 hnames hj fun hd =>
        (h.bound j hd.ne_zero).2
    rw [newInode_links, hlinks] at hdemand
    rw [if_neg hj, surplus, surplus, Function.update_of_ne hj]
    omega

theorem surplus_enter (hd : IsDir T d) (hdn : d < n) (he : e.Proper) :
    surplus n (Function.update T d ((T d).enter e (if IsDir T e.inum then 1 else 0))) j =
      surplus n T j - if e.inum = j then 1 else 0 := by
  have hdemand := demand_enter (j := j)
      (x := (T d).enter e (if IsDir T e.inum then 1 else 0)) hdn hd
    hd putEntry_adds he
  rw [surplus, surplus, hdemand]
  by_cases hj : j = d
  · rw [hj, Function.update_self]
    change (T d).nlink + (if IsDir T e.inum then 1 else 0) - _ = _
    simp only [true_and]
    ring
  · rw [Function.update_of_ne hj]
    simp only [hj, false_and, if_false]
    ring

theorem surplus_clear (hd : IsDir T d) (hdn : d < n)
    (hfind : findEntry (T d).entries name = some (k, i)) (hname : name ≠ dot ∧ name ≠ dotdot)
    (hid : i ≠ d) :
    surplus n (Function.update T d ((T d).clear k (if IsDir T i then -1 else 0))) j =
      surplus n T j + if i = j then 1 else 0 := by
  obtain ⟨-, -, -, -, hi⟩ := findEntry_some hfind
  have hback : Function.update (Function.update T d ((T d).clear k (if IsDir T i then -1 else 0))) d
      (T d) = T := by
    rw [Function.update_idem, Function.update_eq_self]
  have hself : Function.update T d ((T d).clear k (if IsDir T i then -1 else 0)) d =
      (T d).clear k (if IsDir T i then -1 else 0) := Function.update_self _ _ _
  have hdir : IsDir (Function.update T d ((T d).clear k (if IsDir T i then -1 else 0))) i ↔
      IsDir T i := by
    rw [IsDir, Function.update_of_ne hid, IsDir]
  have hdemand := demand_enter (j := j) (x := T d) (e := ⟨i, name⟩)
    (T := Function.update T d ((T d).clear k (if IsDir T i then -1 else 0))) hdn
    (by rw [IsDir, hself]; exact hd) hd (by rw [hself]; exact set_adds hfind) ⟨hi, hname⟩
  rw [hback] at hdemand
  simp only [hdir] at hdemand
  rw [surplus, surplus, hdemand]
  by_cases hj : j = d
  · rw [hj, Function.update_self]
    change (T d).nlink + (if IsDir T i then -1 else 0) - _ = _
    simp only [true_and]
    split_ifs <;> ring
  · rw [Function.update_of_ne hj]
    simp only [hj, false_and, if_false]
    ring

theorem surplus_addLink :
    surplus n (Function.update T i { T i with nlink := (T i).nlink + l }) j =
      surplus n T j + if i = j then l else 0 := by
  have hdemand : demand n (Function.update T i { T i with nlink := (T i).nlink + l }) j =
      demand n T j := by
    apply demand_congr
    intro d
    by_cases hd : d = i
    · rw [hd, Function.update_self]
      exact ⟨rfl, fun _ => rfl⟩
    · rw [Function.update_of_ne hd]
      exact ⟨rfl, fun _ => rfl⟩
  rw [surplus, surplus, hdemand]
  by_cases hj : i = j
  · rw [← hj, Function.update_self, if_pos rfl]
    change (T i).nlink + l - _ = _
    ring
  · rw [Function.update_of_ne (Ne.symm hj), if_neg hj, add_zero]

theorem surplus_free (h : Formed n T) (hi : i < n) (hnames : names n T i = 0) (hj : j ≠ i) :
    surplus n (Function.update T i (T i).freed) j = surplus n T j + (T i).links j := by
  have hfree : (T i).freed.links j = 0 := links_of_not_dir zero_ne_T_DIR
  have hdemand := demand_relabel (x := (T i).freed) hi hnames hj fun hd => (h.bound j hd.ne_zero).2
  rw [hfree] at hdemand
  rw [surplus, surplus, Function.update_of_ne hj]
  omega

end Formed

end FileTree

end Xv6Fairness
