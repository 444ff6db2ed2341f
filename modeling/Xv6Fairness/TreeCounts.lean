import Xv6Fairness.TreeCalls

/-!
# Link counts and the changes of the tree

Making an inode, entering a link and emptying an entry keep the form of the directories and the
surplus of every inode. Freeing a directory adds to the surplus of what it names.
-/

namespace Xv6Fairness

namespace FileTree

variable {ι : Type} {n : ℕ} {T : Table} {s : State ι} {d i j k : ℕ} {name : Name} {type : Int16}

theorem demand_nonneg : 0 ≤ demand n T i := by
  rw [demand]
  split_ifs
  · positivity
  · positivity

theorem Sound.nlink_nonneg (h : Sound n T) (hi : (T i).type ≠ 0) : 0 ≤ (T i).nlink := by
  have hsurplus := h.surplus_nonneg i hi
  have hdemand : 0 ≤ demand n T i := demand_nonneg
  rw [surplus] at hsurplus
  omega

theorem Sound.unnamed (h : Sound n T) (hi : (T i).type ≠ 0) (hlink : (T i).nlink = 0) :
    names n T i = 0 ∧ i ≠ ROOTINO := by
  have hsurplus := h.surplus_nonneg i hi
  rw [surplus, demand, hlink] at hsurplus
  constructor
  · split_ifs at hsurplus
    · omega
    · omega
  · intro hroot
    rw [if_pos hroot] at hsurplus
    omega

theorem Sound.root_nlink (h : Sound n T) : 0 < (T ROOTINO).nlink :=
  lt_of_le_of_ne (h.nlink_nonneg h.root.ne_zero) fun hlink =>
    (h.unnamed h.root.ne_zero hlink.symm).2 rfl

theorem Sound.named_nlink (h : Sound n T) (hd : IsDir T d) {e : Dirent} (he : e ∈ (T d).entries)
    (hp : e.Proper) : 0 < (T e.inum).nlink := by
  have hi := h.named d hd e he hp
  refine lt_of_le_of_ne (h.nlink_nonneg hi) fun hlink => ?_
  exact not_named (h.unnamed hi hlink.symm).1 (h.bound d hd.ne_zero).2 hd he hp rfl

theorem make_counts (h : Formed n s.inode) (hd : IsDir s.inode d) (hi : (s.inode i).type = 0)
    (hin : 0 < i ∧ i < n) (htype : type ≠ 0) (hname : findEntry (s.inode d).entries name = none) :
    Formed n (s.make d i name type).inode ∧
      ∀ j, surplus n (s.make d i name type).inode j = if j = i then 0 else surplus n s.inode j := by
  have hid : i ≠ d := by
    rintro rfl
    exact hd.ne_zero hi
  let T := Function.update s.inode i (newInode i d type)
  have hnew : T i = newInode i d type := Function.update_self _ _ _
  have hTd : T d = s.inode d := Function.update_of_ne hid.symm _ _
  have hdir : IsDir T d := by
    rw [IsDir, hTd]
    exact hd
  have hfind : findEntry (T d).entries name = none := by rw [hTd, hname]
  have hformed : Formed n T := h.new hi hin hd
  have hdn : d < n := (h.bound d hd.ne_zero).2
  obtain ⟨pp, hpp, hshape⟩ := hformed.shape d hdir
  have hproper : (⟨i, name⟩ : Dirent).Proper := hshape.proper (h.pos hd) hpp hin.1.ne' hfind
  have hmake : (s.make d i name type).inode =
      Function.update T d ((T d).enter ⟨i, name⟩ (if IsDir T i then 1 else 0)) := by
    have hiff : IsDir T i ↔ type = T_DIR := by
      rw [IsDir, hnew]
      rfl
    rw [hTd]
    simp only [hiff]
    rfl
  rw [hmake]
  constructor
  · apply hformed.enter hdir _ hfind
    rw [hnew]
    exact htype
  · intro j
    have henter := surplus_enter (j := j) hdir hdn hproper
    have hmade : surplus n T j = if j = i then 1 else surplus n s.inode j := surplus_new h hi hin
    rw [henter, hmade]
    by_cases hj : j = i
    · rw [if_pos hj, if_pos hj, if_pos hj.symm]
      rfl
    · rw [if_neg hj, if_neg hj, if_neg (Ne.symm hj), sub_zero]

theorem linkTo_counts (h : Formed n s.inode) (hd : IsDir s.inode d) (hi : (s.inode i).type ≠ 0)
    (hfile : ¬ IsDir s.inode i) (hname : findEntry (s.inode d).entries name = none) :
    Formed n (s.linkTo d i name).inode ∧
      ∀ j, surplus n (s.linkTo d i name).inode j = surplus n s.inode j := by
  have hid : i ≠ d := by
    rintro rfl
    exact hfile hd
  have hdir : ∀ c, IsDir (s.addLink i 1).inode c ↔ IsDir s.inode c := fun c => by
    rw [IsDir, addLink_type, IsDir]
  have hTd : (s.addLink i 1).inode d = s.inode d := setInode_of_ne hid.symm
  have hformed : Formed n (s.addLink i 1).inode :=
    h.congr fun c => ⟨addLink_type, fun _ => addLink_entries⟩
  have hfind : findEntry ((s.addLink i 1).inode d).entries name = none := by rw [hTd, hname]
  have hdn : d < n := (h.bound d hd.ne_zero).2
  obtain ⟨pp, hpp, hshape⟩ := hformed.shape d ((hdir d).mpr hd)
  have hproper : (⟨i, name⟩ : Dirent).Proper :=
    hshape.proper (h.pos hd) hpp (h.bound i hi).1.ne' hfind
  have hlink : (s.linkTo d i name).inode = Function.update (s.addLink i 1).inode d
      (((s.addLink i 1).inode d).enter ⟨i, name⟩ (if IsDir (s.addLink i 1).inode i then 1
        else 0)) := by
    have hnot : ¬ IsDir (s.addLink i 1).inode i := fun h => hfile ((hdir i).mp h)
    rw [hTd, if_neg hnot]
    rfl
  rw [hlink]
  constructor
  · apply hformed.enter ((hdir d).mpr hd) _ hfind
    rw [addLink_type]
    exact hi
  · intro j
    have henter := surplus_enter (j := j) ((hdir d).mpr hd) hdn hproper
    have hadded : surplus n (s.addLink i 1).inode j =
        surplus n s.inode j + if i = j then 1 else 0 :=
      surplus_addLink
    rw [henter, hadded, add_sub_cancel_right]

theorem unenter_counts (h : Formed n s.inode) (hd : IsDir s.inode d)
    (hname : name ≠ dot ∧ name ≠ dotdot) (hfind : findEntry (s.inode d).entries name = some (k, i))
    (hid : i ≠ d) :
    Formed n (s.unenter d i k).inode ∧
      ∀ j, surplus n (s.unenter d i k).inode j = surplus n s.inode j := by
  let t := s.setInode d ((s.inode d).clear k (if IsDir s.inode i then -1 else 0))
  have hformed : Formed n t.inode := h.clear hd hname hfind
  have hcleared : ∀ j,
      surplus n t.inode j = surplus n s.inode j + if i = j then 1 else 0 := fun j =>
    surplus_clear hd (h.bound d hd.ne_zero).2 hfind hname hid
  have hremoved : ∀ j, surplus n (t.addLink i (-1)).inode j = surplus n t.inode j +
      if i = j then -1 else 0 := fun j => surplus_addLink
  refine ⟨hformed.congr fun c => ⟨addLink_type, fun _ => addLink_entries⟩, fun j => ?_⟩
  change surplus n (t.addLink i (-1)).inode j = _
  rw [hremoved, hcleared]
  split_ifs
  · ring
  · ring

theorem free_counts (h : Formed n T) (hnames : names n T i = 0) (hroot : i ≠ ROOTINO) (hj : j ≠ i) :
    surplus n (Function.update T i (T i).freed) j = surplus n T j + (T i).links j := by
  by_cases hi : (T i).type = 0
  · have hnot : ¬ IsDir T i := by
      rw [IsDir, hi]
      exact zero_ne_T_DIR
    have hdemand : demand n (Function.update T i (T i).freed) j = demand n T j := by
      apply demand_congr
      intro c
      by_cases hc : c = i
      · subst hc
        rw [Function.update_self]
        exact ⟨hi.symm, fun hdir => absurd hdir hnot⟩
      · rw [Function.update_of_ne hc]
        exact ⟨rfl, fun _ => rfl⟩
    rw [surplus, surplus, hdemand, Function.update_of_ne hj, links_of_not_dir hnot, Nat.cast_zero,
      add_zero]
  · exact surplus_free h (h.bound i hi).2 hnames hj

theorem Sound.free (h : Sound n T) (hlink : (T i).nlink = 0) :
    Sound n (Function.update T i (T i).freed) := by
  have hfree : names n T i = 0 ∧ i ≠ ROOTINO := by
    by_cases hi : (T i).type = 0
    · refine ⟨h.names_free hi, ?_⟩
      rintro rfl
      exact h.root.ne_zero hi
    · exact h.unnamed hi hlink
  refine ⟨h.toFormed.free hfree.1 hfree.2, fun j hj => ?_⟩
  by_cases hji : j = i
  · rw [hji, Function.update_self] at hj
    exact absurd rfl hj
  · rw [Function.update_of_ne hji] at hj
    have hold := h.surplus_nonneg j hj
    rw [free_counts h.toFormed hfree.1 hfree.2 hji]
    omega

theorem release_cons [Fintype ι] {refs : List ℕ} :
    s.release (i :: refs) = (s.release [i]).release refs := by
  rw [release_append, List.singleton_append]

theorem release_one_of_dead [Fintype ι] (hdead : s.Dead [i] i) :
    (s.release [i]).inode = Function.update s.inode i (s.inode i).freed := by
  funext j
  by_cases hj : j = i
  · rw [hj, release_dead hdead, Function.update_self]
  · rw [release_kept fun h => hj (List.mem_singleton.mp h.2.2), Function.update_of_ne hj]

theorem release_one_of_not_dead [Fintype ι] (hdead : ¬ s.Dead [i] i) :
    (s.release [i]).inode = s.inode := by
  funext j
  refine release_kept fun h => ?_
  rw [List.mem_singleton.mp h.2.2] at h
  exact hdead h

theorem Sound.release [Fintype ι] (h : Sound n s.inode) (refs : List ℕ) :
    Sound n (s.release refs).inode := by
  induction refs generalizing s with
  | nil =>
      rw [release_nil]
      exact h
  | cons i refs ih =>
      rw [release_cons]
      apply ih
      by_cases hdead : s.Dead [i] i
      · rw [release_one_of_dead hdead]
        exact h.free hdead.1
      · rw [release_one_of_not_dead hdead]
        exact h

section Boot

variable {files : List Name}

theorem countP_files {i m : ℕ} (hfiles : ∀ name ∈ files, name ≠ dot ∧ name ≠ dotdot) (hm : 0 < m) :
    (files.mapIdx fun k name => (⟨k + m, name⟩ : Dirent)).countP (fun e => e.Proper ∧ e.inum = i) =
      if m ≤ i ∧ i < m + files.length then 1 else 0 := by
  induction files generalizing m with
  | nil =>
      rw [List.mapIdx_nil, List.countP_nil, if_neg]
      rw [List.length_nil]
      omega
  | cons name files ih =>
      have hshift : (fun k name => (⟨k + 1 + m, name⟩ : Dirent)) = fun k name =>
          ⟨k + (m + 1), name⟩ := by
        funext k name
        rw [Nat.add_right_comm, Nat.add_assoc]
      have hname := hfiles name List.mem_cons_self
      have hproper : (⟨0 + m, name⟩ : Dirent).Proper := ⟨by change 0 + m ≠ 0; omega, hname⟩
      rw [List.mapIdx_cons, List.countP_cons, hshift,
        ih (fun name hname => hfiles name (List.mem_cons_of_mem _ hname)) (Nat.succ_pos m),
        List.length_cons]
      simp only [hproper, true_and, decide_eq_true_eq]
      split_ifs
      all_goals omega

theorem mkfs_type {i : ℕ} : (mkfsInode files i).type =
    if i = ROOTINO then T_DIR else if 2 ≤ i ∧ i < files.length + 2 then FileBlocks.T_FILE
    else 0 := by
  rw [mkfsInode]
  split_ifs <;> rfl

theorem mkfs_dir {i : ℕ} : IsDir (mkfsInode files) i ↔ i = ROOTINO := by
  rw [IsDir, mkfs_type]
  split_ifs with h1 h2
  · exact iff_of_true rfl h1
  · exact iff_of_false (by decide) h1
  · exact iff_of_false (by decide) h1

theorem rootEntries_eq (files : List Name) :
    ∃ l, rootEntries files = ⟨ROOTINO, dot⟩ :: ⟨ROOTINO, dotdot⟩ ::
    ((files.mapIdx fun k name => (⟨k + 2, name⟩ : Dirent)) ++ List.replicate l ⟨0, []⟩) :=
  ⟨_, rfl⟩

theorem mem_files {e : Dirent} (he : e ∈ files.mapIdx fun k name => (⟨k + 2, name⟩ : Dirent)) :
    e.name ∈ files ∧ 2 ≤ e.inum ∧ e.inum < files.length + 2 := by
  obtain ⟨k, hk, rfl⟩ := List.mem_mapIdx.mp he
  exact ⟨List.getElem_mem hk, Nat.le_add_left 2 k, Nat.add_lt_add_right hk 2⟩

theorem countP_root {q : Dirent → Bool} (hq : ∀ e, q e = true → e.Proper) :
    (rootEntries files).countP q =
      (files.mapIdx fun k name => (⟨k + 2, name⟩ : Dirent)).countP q := by
  obtain ⟨l, heq⟩ := rootEntries_eq files
  have hdot : ¬ q ⟨ROOTINO, dot⟩ = true := fun h => (hq _ h).2.1 rfl
  have hdotdot : ¬ q ⟨ROOTINO, dotdot⟩ = true := fun h => (hq _ h).2.2 rfl
  have hempty : (List.replicate l (⟨0, []⟩ : Dirent)).countP q = 0 := by
    rw [List.countP_eq_zero]
    intro e he h
    rw [List.eq_of_mem_replicate he] at h
    exact (hq _ h).1 rfl
  rw [heq, List.countP_cons_of_neg hdot, List.countP_cons_of_neg hdotdot,
    List.countP_append, hempty,
    add_zero]

theorem mkfs_formed (hfiles : ∀ name ∈ files, name ≠ dot ∧ name ≠ dotdot)
    (hn : files.length + 2 ≤ n) : Formed n (mkfsInode files) := by
  obtain ⟨l, heq⟩ := rootEntries_eq files
  have hroot : (mkfsInode files ROOTINO).entries = rootEntries files := rfl
  refine ⟨fun i hi => ?_, rfl, fun d hd => ?_, fun d hd e he hp => ?_⟩
  · rw [mkfs_type] at hi
    have hone : ROOTINO = 1 := rfl
    split_ifs at hi with h1 h2
    · omega
    · omega
    · exact absurd rfl hi
  · obtain rfl := mkfs_dir.mp hd
    refine ⟨ROOTINO, Nat.one_ne_zero, _, heq, fun e he hi => ?_⟩
    rcases List.mem_append.mp he with he | he
    · exact hfiles _ (mem_files he).1
    · rw [List.eq_of_mem_replicate he] at hi
      exact absurd rfl hi
  · obtain rfl := mkfs_dir.mp hd
    rw [hroot, heq] at he
    rcases List.mem_cons.mp he with rfl | he
    · exact absurd rfl hp.2.1
    rcases List.mem_cons.mp he with rfl | he
    · exact absurd rfl hp.2.2
    rcases List.mem_append.mp he with he | he
    · have hin := (mem_files he).2
      rw [mkfs_type]
      split_ifs
      · decide
      · decide
    · rw [List.eq_of_mem_replicate he] at hp
      exact absurd rfl hp.1

theorem mkfs_names (hfiles : ∀ name ∈ files, name ≠ dot ∧ name ≠ dotdot)
    (hn : files.length + 2 ≤ n) {i : ℕ} :
    names n (mkfsInode files) i = if 2 ≤ i ∧ i < files.length + 2 then 1 else 0 := by
  have hmem : ROOTINO ∈ Finset.range n := Finset.mem_range.mpr (by change 1 < n; omega)
  have hrest : ∀ d ∈ Finset.range n, d ≠ ROOTINO → (mkfsInode files d).links i = 0 := fun d _ hd =>
    links_of_not_dir fun hdir => hd (mkfs_dir.mp hdir)
  have hlinks : (mkfsInode files ROOTINO).links i =
      (rootEntries files).countP fun e => e.Proper ∧ e.inum = i := if_pos rfl
  rw [names, Finset.sum_eq_single_of_mem ROOTINO hmem hrest, hlinks,
    countP_root fun e he => (of_decide_eq_true he).1, countP_files hfiles (Nat.succ_pos 1),
    Nat.add_comm files.length]

theorem mkfs_surplus (hfiles : ∀ name ∈ files, name ≠ dot ∧ name ≠ dotdot)
    (hn : files.length + 2 ≤ n) {i : ℕ} (hi : (mkfsInode files i).type ≠ 0) :
    surplus n (mkfsInode files) i = 0 := by
  have hsub : subdirs (mkfsInode files) i = 0 := by
    rw [subdirs]
    split_ifs with hdir
    · obtain rfl := mkfs_dir.mp hdir
      have hroot : (mkfsInode files ROOTINO).entries = rootEntries files := rfl
      rw [hroot, countP_root fun e he => (of_decide_eq_true he).1, List.countP_eq_zero]
      intro e he h
      have hone := mkfs_dir.mp (of_decide_eq_true h).2
      have hin := (mem_files he).2
      rw [hone] at hin
      exact absurd hin.1 (by decide)
    · rfl
  rw [surplus, demand, hsub, mkfs_names hfiles hn]
  rw [mkfs_type] at hi
  split_ifs at hi with h1 h2
  · subst h1
    rw [if_neg (fun h => absurd h.1 (by decide)), if_pos rfl]
    rfl
  · have hnlink : (mkfsInode files i).nlink = 1 := by rw [mkfsInode, if_neg h1, if_pos h2]
    rw [if_pos h2, if_neg h1, hnlink]
    rfl
  · exact absurd rfl hi

end Boot

end FileTree

end Xv6Fairness
