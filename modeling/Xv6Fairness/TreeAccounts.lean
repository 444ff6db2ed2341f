import Xv6Fairness.DanglingEntries

/-!
# Link counts and the tree from the root

From a new file system on, the link count of every inode is what names it, and every inode that is
allocated is named by a directory or in use. A removed directory may get entries of its own: when
the last process leaves it then, what it names keeps a link too many. In runs that leave removed
directories only when they are empty, the tree from the root accounts for all inodes at every quiet
moment.
-/

namespace Xv6Fairness

namespace FileTree

/-- Directory `d` has a proper entry for `i`. -/
def Entry (T : Table) (d i : ℕ) : Prop := IsDir T d ∧ ∃ e ∈ (T d).entries, e.Proper ∧ e.inum = i

/-- The directories that paths from the root lead to. -/
inductive FromRoot (T : Table) : ℕ → Prop
  | root : FromRoot T ROOTINO
  | step {d i : ℕ} (hd : FromRoot T d) (h : Entry T d i) (hi : IsDir T i) : FromRoot T i

variable {ι : Type}

/-- Every link counts, and every inode is named or held. The inodes in `refs` are those that a
running call holds. -/
structure Balanced (n : ℕ) (s : State ι) (refs : List ℕ) : Prop where
  formed : Formed n s.inode
  balance : ∀ i, (s.inode i).type ≠ 0 → surplus n s.inode i = 0
  owed : ∀ i, (s.inode i).type ≠ 0 → i = ROOTINO ∨ 0 < names n s.inode i ∨ s.Held i ∨ i ∈ refs
  single : ∀ i, IsDir s.inode i → names n s.inode i ≤ 1
  rootless : names n s.inode ROOTINO = 0
  rank : ∃ rank : ℕ → ℕ, ∀ d i, Entry s.inode d i → IsDir s.inode i → rank d < rank i
  parent : ∀ d i, Entry s.inode d i → IsDir s.inode i → HasParent s.inode i d
  top : HasParent s.inode ROOTINO ROOTINO
  cwd : ∀ p cwd, (s.proc p).cwd = some cwd → IsDir s.inode cwd
  file : ∀ p fd i, (s.proc p).ofile fd = some i → (s.inode i).type ≠ 0

section Conditions

variable [Fintype ι] [DecidableEq ι]

/-- The inodes whose last reference a call gives up. -/
def GivesUp (s : State ι) (c : Call ι) (i : ℕ) : Prop :=
  match c with
  | .chdir p path => ∃ cwd j name, (s.proc p).cwd = some cwd ∧
      s.namei cwd path [] = .ok (some (j, name), s) ∧ IsDir s.inode j ∧ i = cwd ∧
      ¬ (s.setCwd p (some j)).Held i
  | .close p fd => (s.proc p).ofile fd = some i ∧ ¬ (s.setFile p fd none).Held i
  | .exit p => (s.proc p).Holds i ∧ ¬ (s.setProc p .gone).Held i
  | _ => False

/-- A directory that nothing names is empty when the last reference to it is given up. -/
def LeavesEmpty (n : ℕ) (s : State ι) (c : Call ι) : Prop :=
  ∀ i, GivesUp s c i → IsDir s.inode i → i ≠ ROOTINO → names n s.inode i = 0 →
    isdirempty (s.inode i) = true

end Conditions

section Entries

variable {n : ℕ} {T : Table} {x : Inode} {s : State ι} {d i j k c pp : ℕ} {name : Name}
  {type : Int16}

theorem Entry.lt (h : Entry T d i) (hT : Formed n T) : d < n := (hT.bound d h.1.ne_zero).2

theorem Entry.allocated (h : Entry T d i) (hT : Formed n T) : (T i).type ≠ 0 := by
  obtain ⟨hd, e, he, hp, rfl⟩ := h
  exact hT.named d hd e he hp

theorem names_pos_iff_entry (hT : Formed n T) : 0 < names n T i ↔ ∃ d, Entry T d i := by
  rw [names_pos_iff]
  constructor
  · rintro ⟨d, -, hd, he⟩
    exact ⟨d, hd, he⟩
  · rintro ⟨d, h⟩
    exact ⟨d, h.lt hT, h.1, h.2⟩

theorem Entry.of_update_of_ne (h : Entry (Function.update T d x) c j)
    (hc : c ≠ d) : Entry T c j := by
  rwa [Entry, IsDir, Function.update_of_ne hc] at h

theorem Entry.of_enter {l : ℤ} (h : Entry (Function.update T d ((T d).enter ⟨i, name⟩ l)) c j) :
    c = d ∧ j = i ∨ Entry T c j := by
  by_cases hc : c = d
  · subst hc
    obtain ⟨hdir, e, he, hp, rfl⟩ := h
    rw [IsDir, Function.update_self] at hdir
    rw [Function.update_self] at he
    rcases (putEntry_adds.mem hp.1).mp he with he | rfl
    · exact .inr ⟨hdir, e, he, hp, rfl⟩
    · exact .inl ⟨rfl, rfl⟩
  · exact .inr (h.of_update_of_ne hc)

theorem Entry.of_addLink {l : ℤ} (h : Entry (s.addLink i l).inode c j) : Entry s.inode c j := by
  obtain ⟨hdir, e, he, hp⟩ := h
  rw [IsDir, addLink_type] at hdir
  rw [addLink_entries] at he
  exact ⟨hdir, e, he, hp⟩

theorem Entry.of_make (hid : i ≠ d) (h : Entry (s.make d i name type).inode c j) :
    c = d ∧ j = i ∨ Entry s.inode c j := by
  have hTd : Function.update s.inode i (newInode i d type) d = s.inode d :=
    Function.update_of_ne hid.symm _ _
  have hmake :
      (s.make d i name type).inode =
      Function.update (Function.update s.inode i (newInode i d type)) d
      ((Function.update s.inode i (newInode i d type) d).enter ⟨i, name⟩ (if type = T_DIR then 1
        else 0)) := by
    rw [hTd]
    rfl
  rw [hmake] at h
  refine h.of_enter.imp_right fun h => ?_
  by_cases hc : c = i
  · subst hc
    obtain ⟨-, e, he, hp, -⟩ := h
    rw [Function.update_self] at he
    exact absurd hp (newInode_not_proper he)
  · exact h.of_update_of_ne hc

theorem Entry.of_linkTo (hid : i ≠ d) (h : Entry (s.linkTo d i name).inode c j) :
    c = d ∧ j = i ∨ Entry s.inode c j := by
  have hTd : (s.addLink i 1).inode d = s.inode d := setInode_of_ne hid.symm
  have hlink : (s.linkTo d i name).inode = Function.update (s.addLink i 1).inode d
      (((s.addLink i 1).inode d).enter ⟨i, name⟩ 0) := by
    rw [hTd]
    rfl
  rw [hlink] at h
  exact h.of_enter.imp_right fun h => h.of_addLink

theorem Entry.of_unenter (h : Entry (s.unenter d i k).inode c j) : Entry s.inode c j := by
  have h := h.of_addLink
  by_cases hc : c = d
  · subst hc
    obtain ⟨hdir, e, he, hp, rfl⟩ := h
    rw [IsDir, setInode_self] at hdir
    rw [setInode_self] at he
    rcases List.mem_or_eq_of_mem_set he with he | rfl
    · exact ⟨hdir, e, he, hp, rfl⟩
    · exact absurd rfl hp.1
  · exact Entry.of_update_of_ne h hc

theorem HasParent.ne_zero (hT : Formed n T) (h : HasParent T j pp) : pp ≠ 0 := by
  obtain ⟨pp', hpp, hshape⟩ := hT.shape j h.1
  rw [h.2.unique hshape]
  exact hpp

theorem HasParent.update (hT : Formed n T) (h : HasParent T j pp) (hx : x.type = T_DIR)
    (hshape : ∀ pp, pp ≠ 0 → Shape (T d) d pp → Shape x d pp) :
    HasParent (Function.update T d x) j pp := by
  by_cases hj : j = d
  · subst hj
    rw [HasParent, IsDir, Function.update_self]
    exact ⟨hx, hshape pp (h.ne_zero hT) h.2⟩
  · rwa [HasParent, IsDir, Function.update_of_ne hj]

theorem HasParent.addLink {l : ℤ} (h : HasParent s.inode j pp) :
    HasParent (s.addLink i l).inode j pp := by
  obtain ⟨hdir, hshape⟩ := h
  refine ⟨?_, hshape.congr addLink_entries⟩
  rw [IsDir, addLink_type]
  exact hdir

theorem isdirempty_iff (h : Shape x d pp) : isdirempty x = true ↔ ∀ e ∈ x.entries, ¬ e.Proper := by
  obtain ⟨rest, heq, hrest⟩ := h
  rw [isdirempty, heq, List.all_eq_true]
  change (∀ e ∈ rest, _) ↔ _
  simp only [decide_eq_true_eq, List.mem_cons]
  constructor
  · rintro hall e (rfl | rfl | he) hp
    · exact hp.2.1 rfl
    · exact hp.2.2 rfl
    · exact hp.1 (hall e he)
  · intro hall e he
    by_contra hi
    exact hall e (.inr (.inr he)) ⟨hi, hrest e he hi⟩

end Entries

section Names

variable {n : ℕ} {s : State ι} {T : Table} {d i j k : ℕ} {name : Name} {type : Int16}

theorem names_make (h : Formed n s.inode) (hd : IsDir s.inode d) (hi : (s.inode i).type = 0)
    (hin : i < n) (hproper : (⟨i, name⟩ : Dirent).Proper) :
    names n (s.make d i name type).inode j = names n s.inode j + if i = j then 1 else 0 := by
  have hid : i ≠ d := by
    rintro rfl
    exact hd.ne_zero hi
  let T := Function.update s.inode i (newInode i d type)
  have hTd : T d = s.inode d := Function.update_of_ne hid.symm _ _
  have hdir : IsDir T d := by
    rw [IsDir, hTd]
    exact hd
  have hnew : names n T j + (s.inode i).links j = names n s.inode j + (newInode i d type).links j :=
    names_update hin
  have hfree : (s.inode i).links j = 0 := links_of_not_dir (by rw [hi]; exact zero_ne_T_DIR)
  rw [newInode_links, hfree] at hnew
  have hdn : d < n := (h.bound d hd.ne_zero).2
  let x := (s.inode d).enter ⟨i, name⟩ (if type = T_DIR then 1 else 0)
  have hx : x.type = T_DIR := hd
  have hadds : Adds (T d).entries x.entries ⟨i, name⟩ := by
    rw [hTd]
    exact putEntry_adds
  have henter : names n (s.make d i name type).inode j = names n T j + if i = j then 1 else 0 :=
    names_enter hdn hdir hx hadds hproper
  rw [henter]
  omega

theorem names_linkTo (h : Formed n s.inode) (hd : IsDir s.inode d) (hid : i ≠ d)
    (hproper : (⟨i, name⟩ : Dirent).Proper) :
    names n (s.linkTo d i name).inode j = names n s.inode j + if i = j then 1 else 0 := by
  have hTd : (s.addLink i 1).inode d = s.inode d := setInode_of_ne hid.symm
  have hdir : IsDir (s.addLink i 1).inode d := by
    rw [IsDir, hTd]
    exact hd
  have hsame : names n (s.addLink i 1).inode j = names n s.inode j :=
    names_congr fun c => ⟨addLink_type, fun _ => addLink_entries⟩
  have hdn : d < n := (h.bound d hd.ne_zero).2
  let x := (s.inode d).enter ⟨i, name⟩ 0
  have hx : x.type = T_DIR := hd
  have hadds : Adds ((s.addLink i 1).inode d).entries x.entries ⟨i, name⟩ := by
    rw [hTd]
    exact putEntry_adds
  rw [← hsame]
  exact names_enter hdn hdir hx hadds hproper

theorem names_unenter (h : Formed n s.inode) (hd : IsDir s.inode d)
    (hname : name ≠ dot ∧ name ≠ dotdot)
    (hfind : findEntry (s.inode d).entries name = some (k, i)) :
    names n (s.unenter d i k).inode j + (if i = j then 1 else 0) = names n s.inode j := by
  let x := (s.inode d).clear k (if IsDir s.inode i then -1 else 0)
  have hi : i ≠ 0 := (findEntry_mem hfind).2
  have hsame : names n (s.unenter d i k).inode j = names n (Function.update s.inode d x) j :=
    names_congr fun c => ⟨addLink_type, fun _ => addLink_entries⟩
  have hsum : names n (Function.update s.inode d x) j + (s.inode d).links j =
      names n s.inode j + x.links j := names_update (h.bound d hd.ne_zero).2
  have hx : x.type = T_DIR := hd
  have hadds : Adds x.entries (s.inode d).entries ⟨i, name⟩ := set_adds hfind
  have hlinks : (s.inode d).links j = x.links j + if i = j then 1 else 0 :=
    links_adds hx hd hadds ⟨hi, hname⟩
  rw [hsame]
  omega

theorem names_freed (h : Formed n T) :
    names n (Function.update T i (T i).freed) j + (T i).links j = names n T j := by
  have hfreed : (T i).freed.links j = 0 := links_of_not_dir zero_ne_T_DIR
  by_cases hi : i < n
  · have hsum : names n (Function.update T i (T i).freed) j + (T i).links j =
        names n T j + (T i).freed.links j := names_update hi
    rw [hsum, hfreed, add_zero]
  · have hnot : ¬ IsDir T i := fun hdir => hi (h.bound i hdir.ne_zero).2
    rw [links_of_not_dir hnot, add_zero]
    apply Finset.sum_congr rfl
    intro c hc
    have hci : c ≠ i := by
      rintro rfl
      exact hi (Finset.mem_range.mp hc)
    rw [Function.update_of_ne hci]

end Names

section Balanced

variable {n : ℕ} {s t : State ι} {refs refs' : List ℕ} {d i k : ℕ} {name : Name}
  {type : Int16} {p : ι}
  {x : Proc}

theorem Balanced.sound (h : Balanced n s refs) : Sound n s.inode :=
  ⟨h.formed, fun i hi => (h.balance i hi).ge⟩

theorem Balanced.visits (h : Balanced n s []) : Visits s fun _ => True := by
  refine ⟨fun i _ hi => ?_, fun _ _ _ _ _ _ => trivial, trivial, fun _ _ _ => trivial⟩
  have hzero := h.balance i hi
  rw [surplus, demand] at hzero
  rcases h.owed i hi with hroot | hnamed | hheld | hmem
  · left
    rw [if_pos hroot] at hzero
    omega
  · left
    split_ifs at hzero
    · omega
    · omega
  · exact .inr hheld
  · exact absurd hmem List.not_mem_nil

theorem Balanced.make (h : Balanced n s []) (hd : IsDir s.inode d) (hi : (s.inode i).type = 0)
    (hin : 0 < i ∧ i < n) (htype : type ≠ 0) (hname : findEntry (s.inode d).entries name = none) :
    Balanced n (s.make d i name type) [] := by
  obtain ⟨hformed, hsurplus⟩ := make_counts h.formed hd hi hin htype hname
  have hid : i ≠ d := by
    rintro rfl
    exact hd.ne_zero hi
  have hroot : ROOTINO ≠ i := by
    rintro rfl
    exact h.formed.root.ne_zero hi
  obtain ⟨pp, hpp, hshape⟩ := h.formed.shape d hd
  have hproper : (⟨i, name⟩ : Dirent).Proper := hshape.proper (h.formed.pos hd) hpp hin.1.ne' hname
  have hnames : ∀ j, names n (s.make d i name type).inode j =
      names n s.inode j + if i = j then 1 else 0 := fun j => names_make h.formed hd hi hin.2 hproper
  have hkept : ∀ j, j ≠ i → ((s.make d i name type).inode j).type = (s.inode j).type := by
    intro j hj
    by_cases hjd : j = d
    · rw [hjd, make_dir]
      rfl
    · exact congrArg Inode.type
        ((Function.update_of_ne hjd _ _).trans (Function.update_of_ne hj _ _))
  have hold : ∀ j, (s.inode j).type ≠ 0 → j ≠ i := by
    rintro j hj rfl
    exact hj hi
  have hparent : ∀ j pp, HasParent s.inode j pp → HasParent (s.make d i name type).inode j pp := by
    intro j pp hj
    have hji : j ≠ i := hold j hj.1.ne_zero
    have hTd : Function.update s.inode i (newInode i d type) d = s.inode d :=
      Function.update_of_ne hid.symm _ _
    have hmid : HasParent (Function.update s.inode i (newInode i d type)) j pp := by
      rwa [HasParent, IsDir, Function.update_of_ne hji]
    refine hmid.update (h.formed.new hi hin hd) hd fun pp hpp hold => ?_
    rw [hTd] at hold
    exact hold.put (h.formed.pos hd) hpp hproper rfl
  have hnew : ∀ j, IsDir (s.make d i name type).inode j → j ≠ i → IsDir s.inode j := by
    intro j hj hji
    rwa [IsDir, hkept j hji] at hj
  obtain ⟨rank, hrank⟩ := h.rank
  refine ⟨hformed, fun j hj => ?_, fun j hj => ?_, fun j hj => ?_, ?_,
    ⟨Function.update rank i (rank d + 1), fun c j hentry hj => ?_⟩, fun c j hentry hj => ?_,
    hparent _ _ h.top, fun q cwd hq => ?_, fun q fd j hq => ?_⟩
  · rw [hsurplus]
    split_ifs with hji
    · rfl
    · exact h.balance j (hkept j hji ▸ hj)
  · rw [hnames]
    by_cases hji : j = i
    · rw [if_pos hji.symm]
      exact .inr (.inl (Nat.succ_pos _))
    · rw [if_neg (Ne.symm hji), add_zero]
      exact h.owed j (hkept j hji ▸ hj)
  · rw [hnames]
    by_cases hji : j = i
    · rw [hji, h.formed.names_free hi, if_pos rfl]
    · rw [if_neg (Ne.symm hji), add_zero]
      exact h.single j (hnew j hj hji)
  · rw [hnames, h.rootless, if_neg hroot.symm]
  · rcases hentry.of_make hid with ⟨rfl, rfl⟩ | hentry
    · rw [Function.update_self, Function.update_of_ne hid.symm]
      exact Nat.lt_succ_self _
    · have hji := hold j (hentry.allocated h.formed)
      rw [Function.update_of_ne hji, Function.update_of_ne (hold c hentry.1.ne_zero)]
      exact hrank c j hentry (hnew j hj hji)
  · rcases hentry.of_make hid with ⟨rfl, rfl⟩ | hentry
    · rw [IsDir, make_new hid] at hj
      rw [HasParent, IsDir, make_new hid]
      exact ⟨hj, [], if_pos hj, fun e he => absurd he List.not_mem_nil⟩
    · exact hparent j c (h.parent c j hentry (hnew j hj (hold j (hentry.allocated h.formed))))
  · have hdir := h.cwd q cwd hq
    rw [IsDir, hkept cwd (hold cwd hdir.ne_zero)]
    exact hdir
  · have hj := h.file q fd j hq
    rwa [hkept j (hold j hj)]

theorem Balanced.linkTo (h : Balanced n s []) (hd : IsDir s.inode d) (hi : (s.inode i).type ≠ 0)
    (hfile : ¬ IsDir s.inode i) (hname : findEntry (s.inode d).entries name = none) :
    Balanced n (s.linkTo d i name) [] := by
  obtain ⟨hformed, hsurplus⟩ := linkTo_counts h.formed hd hi hfile hname
  have hid : i ≠ d := by
    rintro rfl
    exact hfile hd
  have hTd : (s.addLink i 1).inode d = s.inode d := setInode_of_ne hid.symm
  obtain ⟨pp, hpp, hshape⟩ := h.formed.shape d hd
  have hproper : (⟨i, name⟩ : Dirent).Proper :=
    hshape.proper (h.formed.pos hd) hpp (h.formed.bound i hi).1.ne' hname
  have hnames : ∀ j, names n (s.linkTo d i name).inode j =
      names n s.inode j + if i = j then 1 else 0 := fun j => names_linkTo h.formed hd hid hproper
  have htype : ∀ j, ((s.linkTo d i name).inode j).type = (s.inode j).type := fun j => linkTo_type
  have hdir : ∀ j, IsDir (s.linkTo d i name).inode j → i ≠ j ∧ IsDir s.inode j := by
    intro j hj
    rw [IsDir, htype] at hj
    refine ⟨?_, hj⟩
    rintro rfl
    exact hfile hj
  have hparent : ∀ j pp, HasParent s.inode j pp → HasParent (s.linkTo d i name).inode j pp := by
    intro j pp hj
    refine HasParent.update (h.formed.congr fun c => ⟨addLink_type, fun _ => addLink_entries⟩)
      hj.addLink hd fun pp hpp hold => ?_
    rw [hTd] at hold
    exact hold.put (h.formed.pos hd) hpp hproper rfl
  have hentry : ∀ {c j}, Entry (s.linkTo d i name).inode c j → IsDir (s.linkTo d i name).inode j →
      Entry s.inode c j := by
    intro c j hc hj
    exact (hc.of_linkTo hid).resolve_left fun heq => (hdir j hj).1 heq.2.symm
  obtain ⟨rank, hrank⟩ := h.rank
  refine ⟨hformed, fun j hj => ?_, fun j hj => ?_, fun j hj => ?_, ?_, ⟨rank, fun c j hc hj => ?_⟩,
    fun c j hc hj => ?_, hparent _ _ h.top, fun q cwd hq => ?_, fun q fd j hq => ?_⟩
  · rw [hsurplus]
    exact h.balance j (htype j ▸ hj)
  · rw [hnames]
    rcases h.owed j (htype j ▸ hj) with hroot | hnamed | hheld
    · exact .inl hroot
    · exact .inr (.inl (Nat.add_pos_left hnamed _))
    · exact .inr (.inr hheld)
  · rw [hnames, if_neg (hdir j hj).1]
    exact h.single j (hdir j hj).2
  · have hroot : i ≠ ROOTINO := by
      rintro rfl
      exact hfile h.formed.root
    rw [hnames, h.rootless, if_neg hroot]
  · exact hrank c j (hentry hc hj) (hdir j hj).2
  · exact hparent j c (h.parent c j (hentry hc hj) (hdir j hj).2)
  · rw [IsDir, htype]
    exact h.cwd q cwd hq
  · rw [htype]
    exact h.file q fd j hq

theorem Balanced.unenter (h : Balanced n s []) (hd : IsDir s.inode d)
    (hname : name ≠ dot ∧ name ≠ dotdot) (hfind : findEntry (s.inode d).entries name = some (k, i))
    (hid : i ≠ d) : Balanced n (s.unenter d i k) [d, i] := by
  obtain ⟨hformed, hsurplus⟩ := unenter_counts h.formed hd hname hfind hid
  have hnames : ∀ j, names n (s.unenter d i k).inode j + (if i = j then 1 else 0) =
      names n s.inode j :=
    fun j => names_unenter h.formed hd hname hfind
  have hle : ∀ j, names n (s.unenter d i k).inode j ≤ names n s.inode j := fun j =>
    (Nat.le_add_right _ _).trans (hnames j).le
  have hdir : ∀ j, IsDir (s.unenter d i k).inode j ↔ IsDir s.inode j := fun j => by
    rw [IsDir, unenter_type, IsDir]
  have hparent : ∀ j pp, HasParent s.inode j pp → HasParent (s.unenter d i k).inode j pp := by
    intro j pp hj
    let x := (s.inode d).clear k (if IsDir s.inode i then -1 else 0)
    have hx : x.type = T_DIR := hd
    have hset : HasParent (Function.update s.inode d x) j pp :=
      hj.update h.formed hx fun pp _ hold => hold.set hname hfind rfl
    exact HasParent.addLink (s := s.setInode d x) hset
  obtain ⟨rank, hrank⟩ := h.rank
  refine ⟨hformed, fun j hj => ?_, fun j hj => ?_, fun j hj => ?_, ?_, ⟨rank, fun c j hc hj => ?_⟩,
    fun c j hc hj => ?_, hparent _ _ h.top, fun q cwd hq => ?_, fun q fd j hq => ?_⟩
  · rw [hsurplus]
    exact h.balance j (unenter_type ▸ hj)
  · by_cases hji : i = j
    · exact .inr (.inr (.inr (hji ▸ List.mem_cons_of_mem _ List.mem_cons_self)))
    · have hsame := hnames j
      rw [if_neg hji, add_zero] at hsame
      rw [hsame]
      rcases h.owed j (unenter_type ▸ hj) with hroot | hnamed | hheld | hmem
      · exact .inl hroot
      · exact .inr (.inl hnamed)
      · exact .inr (.inr (.inl hheld))
      · exact absurd hmem List.not_mem_nil
  · exact (hle j).trans (h.single j ((hdir j).mp hj))
  · exact Nat.le_zero.mp ((hle ROOTINO).trans h.rootless.le)
  · exact hrank c j hc.of_unenter ((hdir j).mp hj)
  · exact hparent j c (h.parent c j hc.of_unenter ((hdir j).mp hj))
  · exact (hdir cwd).mpr (h.cwd q cwd hq)
  · rw [unenter_type]
    exact h.file q fd j hq

theorem Balanced.setProc [DecidableEq ι] (h : Balanced n s refs) (hrefs : refs ⊆ refs')
    (hcwd : ∀ cwd, x.cwd = some cwd → IsDir s.inode cwd)
    (hfile : ∀ fd i, x.ofile fd = some i → (s.inode i).type ≠ 0)
    (hmore : ∀ j, (s.proc p).Holds j → x.Holds j ∨ j ∈ refs') :
    Balanced n (s.setProc p x) refs' := by
  refine ⟨h.formed, h.balance, fun i hi => ?_, h.single, h.rootless, h.rank, h.parent, h.top,
    fun q cwd hq => ?_, fun q fd i hq => ?_⟩
  · rcases h.owed i hi with hroot | hnamed | hheld | hmem
    · exact .inl hroot
    · exact .inr (.inl hnamed)
    · exact .inr (.inr (held_setProc (hmore i) hheld))
    · exact .inr (.inr (.inr (hrefs hmem)))
  · by_cases hqp : q = p
    · rw [hqp, setProc_self] at hq
      exact hcwd cwd hq
    · rw [setProc_of_ne hqp] at hq
      exact h.cwd q cwd hq
  · by_cases hqp : q = p
    · rw [hqp, setProc_self] at hq
      exact hfile fd i hq
    · rw [setProc_of_ne hqp] at hq
      exact h.file q fd i hq

theorem Balanced.freed [Fintype ι] (h : Balanced n s refs)
    (hempty : ¬ s.Held i → IsDir s.inode i → i ≠ ROOTINO → names n s.inode i = 0 →
      ∀ e ∈ (s.inode i).entries, ¬ e.Proper) (hdead : s.Dead [i] i) :
    (names n s.inode i = 0 ∧ i ≠ ROOTINO) ∧ (∀ j, (s.inode i).links j = 0) ∧
      ∀ j, names n (Function.update s.inode i (s.inode i).freed) j = names n s.inode j := by
  obtain ⟨hlink, hnot, -⟩ := hdead
  have hfree : names n s.inode i = 0 ∧ i ≠ ROOTINO := by
    by_cases hi : (s.inode i).type = 0
    · refine ⟨h.formed.names_free hi, ?_⟩
      rintro rfl
      exact h.formed.root.ne_zero hi
    · exact h.sound.unnamed hi hlink
  have hnone : ∀ j, (s.inode i).links j = 0 := by
    intro j
    by_contra hpos
    obtain ⟨hdir, e, he, hp, -⟩ := links_pos_iff.mp (Nat.pos_of_ne_zero hpos)
    exact hempty hnot hdir hfree.2 hfree.1 e he hp
  refine ⟨hfree, hnone, fun j => ?_⟩
  have hsum : names n (Function.update s.inode i (s.inode i).freed) j + (s.inode i).links j =
      names n s.inode j := names_freed h.formed
  rwa [hnone j, add_zero] at hsum

theorem Balanced.release_one [Fintype ι] (h : Balanced n s (i :: refs))
    (hempty : ¬ s.Held i → IsDir s.inode i → i ≠ ROOTINO → names n s.inode i = 0 →
      ∀ e ∈ (s.inode i).entries, ¬ e.Proper) : Balanced n (s.release [i]) refs := by
  have hheld : ∀ j, s.Held j → (s.release [i]).inode j = s.inode j := fun j hj =>
    release_kept fun hdead => hdead.2.1 hj
  have hcwd : ∀ q cwd, ((s.release [i]).proc q).cwd = some cwd →
      IsDir (s.release [i]).inode cwd := by
    intro q cwd hq
    rw [IsDir, hheld cwd (held_cwd hq)]
    exact h.cwd q cwd hq
  have hfile : ∀ q fd j, ((s.release [i]).proc q).ofile fd = some j →
      ((s.release [i]).inode j).type ≠ 0 := by
    intro q fd j hq
    rw [hheld j ⟨q, .inr ⟨fd, hq⟩⟩]
    exact h.file q fd j hq
  by_cases hdead : s.Dead [i] i
  · have heq := release_one_of_dead hdead
    obtain ⟨hfree, hnone, hnames⟩ := h.freed hempty hdead
    have hformed := h.formed.free hfree.1 hfree.2
    have hnot := hdead.2.1
    have hne : ∀ j, (Function.update s.inode i (s.inode i).freed j).type ≠ 0 → j ≠ i := by
      rintro j hj rfl
      rw [Function.update_self] at hj
      exact hj rfl
    have hdir : ∀ j, IsDir (Function.update s.inode i (s.inode i).freed) j → j ≠ i ∧
        IsDir s.inode j := by
      intro j hj
      have hji := hne j hj.ne_zero
      rw [IsDir, Function.update_of_ne hji] at hj
      exact ⟨hji, hj⟩
    have hentry : ∀ {c j}, Entry (Function.update s.inode i (s.inode i).freed) c j →
        Entry s.inode c j :=
      fun hc => hc.of_update_of_ne (hdir _ hc.1).1
    have hparent : ∀ j pp, j ≠ i → HasParent s.inode j pp →
        HasParent (Function.update s.inode i (s.inode i).freed) j pp := by
      intro j pp hj hold
      rwa [HasParent, IsDir, Function.update_of_ne hj]
    obtain ⟨rank, hrank⟩ := h.rank
    constructor
    all_goals rw [heq]
    · exact hformed
    · intro j hj
      have hji := hne j hj
      have hsurplus := free_counts h.formed hfree.1 hfree.2 hji
      rw [Function.update_of_ne hji] at hj
      rw [hsurplus, hnone, h.balance j hj]
      rfl
    · intro j hj
      have hji := hne j hj
      rw [Function.update_of_ne hji] at hj
      rw [hnames]
      rcases h.owed j hj with hroot | hnamed | hheld | hmem
      · exact .inl hroot
      · exact .inr (.inl hnamed)
      · exact .inr (.inr (.inl hheld))
      · exact .inr (.inr (.inr ((List.mem_cons.mp hmem).resolve_left hji)))
    · intro j hj
      rw [hnames]
      exact h.single j (hdir j hj).2
    · rw [hnames, h.rootless]
    · exact ⟨rank, fun c j hc hj => hrank c j (hentry hc) (hdir j hj).2⟩
    · intro c j hc hj
      exact hparent j c (hdir j hj).1 (h.parent c j (hentry hc) (hdir j hj).2)
    · exact hparent _ _ hfree.2.symm h.top
    · rw [heq] at hcwd
      exact hcwd
    · rw [heq] at hfile
      exact hfile
  · have hkept := release_one_of_not_dead hdead
    rw [hkept] at hcwd hfile
    constructor
    all_goals rw [hkept]
    · exact h.formed
    · exact h.balance
    · intro j hj
      rcases h.owed j hj with hroot | hnamed | hheld | hmem
      · exact .inl hroot
      · exact .inr (.inl hnamed)
      · exact .inr (.inr (.inl hheld))
      · rcases List.mem_cons.mp hmem with rfl | hmem
        · by_contra hnot
          simp only [not_or] at hnot
          obtain ⟨hroot, hnamed, hheld, -⟩ := hnot
          have hnames : names n s.inode j = 0 := Nat.eq_zero_of_not_pos hnamed
          have hsub : subdirs s.inode j = 0 := by
            rw [subdirs]
            split_ifs with hdir
            · rw [List.countP_eq_zero]
              exact fun e he hp => hempty hheld hdir hroot hnames e he (of_decide_eq_true hp).1
            · rfl
          have hzero := h.balance j hj
          rw [surplus, demand, hnames, hsub, if_neg hroot] at hzero
          refine hdead ⟨?_, hheld, List.mem_singleton_self j⟩
          omega
        · exact .inr (.inr (.inr hmem))
    · exact h.single
    · exact h.rootless
    · exact h.rank
    · exact h.parent
    · exact h.top
    · exact hcwd
    · exact hfile

theorem Balanced.release [Fintype ι] (h : Balanced n s refs)
    (hempty : ∀ i ∈ refs, ¬ s.Held i → IsDir s.inode i → i ≠ ROOTINO → names n s.inode i = 0 →
      ∀ e ∈ (s.inode i).entries, ¬ e.Proper) : Balanced n (s.release refs) [] := by
  induction refs generalizing s with
  | nil =>
      rw [release_nil]
      exact h
  | cons i refs ih =>
      rw [release_cons]
      apply ih (h.release_one (hempty i List.mem_cons_self))
      intro j hj hheld hdir hroot hnames
      have hold := hempty j (List.mem_cons_of_mem _ hj) hheld
      by_cases hdead : s.Dead [i] i
      · rw [release_one_of_dead hdead] at hdir hnames ⊢
        have hji : j ≠ i := by
          rintro rfl
          rw [IsDir, Function.update_self] at hdir
          exact zero_ne_T_DIR hdir
        rw [(h.freed (hempty i List.mem_cons_self) hdead).2.2] at hnames
        rw [IsDir, Function.update_of_ne hji] at hdir
        rw [Function.update_of_ne hji]
        exact hold hdir hroot hnames
      · rw [release_one_of_not_dead hdead] at hdir hnames ⊢
        exact hold hdir hroot hnames

end Balanced

section Effects

variable [Fintype ι] [DecidableEq ι] {n : ℕ} {s t : State ι} {refs : List ℕ} {c : Call ι} {p : ι}
  {fd : Fin NOFILE} {i cwd : ℕ}

omit [Fintype ι] in
theorem Balanced.setFile {f : Option ℕ} (h : Balanced n s [])
    (hf : ∀ i, f = some i → (s.inode i).type ≠ 0)
    (hrefs : ∀ i, (s.proc p).ofile fd = some i → i ∈ refs) :
    Balanced n (s.setFile p fd f) refs := by
  refine h.setProc (List.nil_subset _) (h.cwd p) (fun fd' i hi => ?_) fun j hj => ?_
  · change Function.update (s.proc p).ofile fd f fd' = some i at hi
    by_cases hfd : fd' = fd
    · rw [hfd, Function.update_self] at hi
      exact hf i hi
    · rw [Function.update_of_ne hfd] at hi
      exact h.file p fd' i hi
  · rcases hj with hj | ⟨fd', hj⟩
    · exact .inl (.inl hj)
    · by_cases hfd : fd' = fd
      · exact .inr (hrefs j (hfd ▸ hj))
      · exact .inl (.inr ⟨fd', (Function.update_of_ne hfd _ _).trans hj⟩)

omit [Fintype ι] in
theorem Balanced.setCwd (h : Balanced n s []) (hi : IsDir s.inode i)
    (hcwd : (s.proc p).cwd = some cwd) :
    Balanced n (s.setCwd p (some i)) [cwd] := by
  refine h.setProc (List.nil_subset _) (fun j hj => ?_) (h.file p) fun j hj => ?_
  · obtain rfl : i = j := Option.some.inj hj
    exact hi
  · rcases hj with hj | hj
    · exact .inr (List.mem_singleton.mpr (Option.some.inj (hj.symm.trans hcwd)))
    · exact .inl (.inr hj)

omit [Fintype ι] in
theorem Balanced.exit (h : Balanced n s []) : Balanced n (s.setProc p .gone) (s.proc p).refs := by
  refine h.setProc (List.nil_subset _) (fun j hj => ?_) (fun fd j hj => ?_) fun j hj => ?_
  · cases hj
  · cases hj
  · exact .inr (mem_refs.mpr hj)

/-- A call that leaves removed directories only when they are empty keeps the invariant. -/
theorem Balanced.effect {V : ℕ → Prop} (h : Balanced n s []) (hleaves : LeavesEmpty n s c)
    (heffect : Effect n V s c t) : Balanced n t [] := by
  have hempty : ∀ i, GivesUp s c i → IsDir s.inode i → i ≠ ROOTINO → names n s.inode i = 0 →
      ∀ e ∈ (s.inode i).entries, ¬ e.Proper := by
    intro i hi hdir hroot hnames
    obtain ⟨pp, -, hshape⟩ := h.formed.shape i hdir
    exact (isdirempty_iff hshape).mp (hleaves i hi hdir hroot hnames)
  cases heffect with
  | same => exact h
  | make hd hi hin htype hname => exact h.make hd hi hin htype hname
  | @makeOpen _ d i name type p fd hd hi hin htype hname hfd =>
      refine (h.make hd hi hin htype hname).setFile (fun j hj => ?_) fun j hj => ?_
      · obtain rfl : i = j := Option.some.inj hj
        have hid : i ≠ d := by
          rintro rfl
          exact hd.ne_zero hi
        rw [make_new hid]
        exact htype
      · cases hfd.symm.trans hj
  | openFile hi hfd =>
      refine h.setFile (fun j hj => ?_) fun j hj => ?_
      · exact Option.some.inj hj ▸ hi
      · cases hfd.symm.trans hj
  | link hd hi hfile hname => exact h.linkTo hd hi hfile hname
  | @unlink p path cwd d i k name hcwd hpath hd hV hname hfind hid hi hlink hremoved =>
      refine (h.unenter hd hname hfind hid).release fun j hj hheld hdir hroot hnames => ?_
      rcases List.mem_cons.mp hj with rfl | hj
      · have hsame : names n (s.unenter j i k).inode j + (if i = j then 1 else 0) =
          names n s.inode j :=
          names_unenter h.formed hd hname hfind
        rw [if_neg hid, add_zero] at hsame
        rcases h.owed j hd.ne_zero with hj | hj | hj | hj
        · exact absurd hj hroot
        · omega
        · exact absurd hj hheld
        · exact absurd hj List.not_mem_nil
      · obtain rfl := List.mem_singleton.mp hj
        rw [IsDir, unenter_type] at hdir
        obtain ⟨pp, -, hshape⟩ := h.formed.shape j hdir
        have hentries : ((s.unenter d j k).inode j).entries = (s.inode j).entries :=
          addLink_entries.trans (congrArg Inode.entries (setInode_of_ne hid))
        rw [hentries]
        exact (isdirempty_iff hshape).mp (hremoved hdir)
  | @chdir p path cwd i name hcwd hpath hd hV =>
      refine (h.setCwd hd hcwd).release fun j hj hheld => hempty j ?_
      exact ⟨cwd, i, name, hcwd, hpath, hd, List.mem_singleton.mp hj, hheld⟩
  | @close p fd i hfd =>
      have hfile : Balanced n (s.setFile p fd none) [i] :=
        h.setFile (fun j hj => by cases hj) fun j hj =>
        List.mem_singleton.mpr (Option.some.inj (hj.symm.trans hfd))
      refine hfile.release fun j hj hheld => hempty j ?_
      rw [List.mem_singleton.mp hj] at hheld ⊢
      exact ⟨hfd, hheld⟩
  | exit hcwd => exact h.exit.release fun j hj hheld => hempty j ⟨mem_refs.mp hj, hheld⟩

end Effects

/-- Nobody has an open file or a current directory but the root. -/
structure Quiet (s : State ι) : Prop where
  file : ∀ p fd, (s.proc p).ofile fd = none
  cwd : ∀ p cwd, (s.proc p).cwd = some cwd → cwd = ROOTINO

section Quiet

variable {n : ℕ} {s : State ι} {T : Table} {i d : ℕ}

theorem FromRoot.dir (h : FromRoot T d) (hroot : IsDir T ROOTINO) : IsDir T d := by
  cases h with
  | root => exact hroot
  | step _ _ hi => exact hi

theorem Quiet.held (h : Quiet s) (hi : s.Held i) : i = ROOTINO := by
  obtain ⟨p, hcwd | ⟨fd, hfd⟩⟩ := hi
  · exact h.cwd p i hcwd
  · rw [h.file p fd] at hfd
    cases hfd

theorem Balanced.named (h : Balanced n s []) (hquiet : Quiet s) (hi : (s.inode i).type ≠ 0)
    (hroot : i ≠ ROOTINO) : 0 < names n s.inode i := by
  rcases h.owed i hi with hi | hi | hi | hi
  · exact absurd hi hroot
  · exact hi
  · exact absurd (hquiet.held hi) hroot
  · exact absurd hi List.not_mem_nil

theorem Balanced.fromRoot (h : Balanced n s []) (hquiet : Quiet s) (hd : IsDir s.inode d) :
    FromRoot s.inode d := by
  obtain ⟨rank, hrank⟩ := h.rank
  induction hr : rank d using Nat.strong_induction_on generalizing d with
  | h r ih =>
      by_cases hroot : d = ROOTINO
      · rw [hroot]
        exact .root
      · obtain ⟨c, hc⟩ := (names_pos_iff_entry h.formed).mp (h.named hquiet hd.ne_zero hroot)
        exact .step (ih (rank c) (hr ▸ hrank c d hc hd) hc.1 rfl) hc hd

theorem Balanced.parent_dir (h : Balanced n s []) (hquiet : Quiet s)
    (hparent : HasParent s.inode d i) :
    IsDir s.inode i := by
  by_cases hroot : d = ROOTINO
  · rw [hroot] at hparent
    rw [hparent.2.unique h.top.2]
    exact h.formed.root
  · obtain ⟨c, hc⟩ :=
      (names_pos_iff_entry h.formed).mp (h.named hquiet hparent.1.ne_zero hroot)
    rw [hparent.2.unique (h.parent c d hc hparent.1).2]
    exact hc.1

theorem Balanced.links_file (h : Balanced n s []) (hquiet : Quiet s) (hi : (s.inode i).type ≠ 0)
    (hfile : ¬ IsDir s.inode i) (hd : IsDir s.inode d) :
    (s.inode d).links i = (s.inode d).entries.countP fun e => e.inum = i := by
  obtain ⟨pp, -, hshape⟩ := h.formed.shape d hd
  have hpos : i ≠ 0 := (h.formed.bound i hi).1.ne'
  have hdir : (s.inode d).type = T_DIR := hd
  rw [Inode.links, if_pos hdir]
  apply List.countP_congr
  intro e he
  simp only [decide_eq_true_eq]
  constructor
  · exact And.right
  · rintro rfl
    rcases hshape.mem he hpos with rfl | rfl | hp
    · exact absurd hd hfile
    · exact absurd (h.parent_dir hquiet ⟨hd, hshape⟩) hfile
    · exact ⟨hp, rfl⟩

open scoped Classical in
/-- The entries of the directories from the root that name an inode. -/
noncomputable def entriesNaming (n : ℕ) (T : Table) (i : ℕ) : ℕ :=
  ∑ d ∈ Finset.range n with FromRoot T d, (T d).entries.countP fun e => e.inum = i

theorem Balanced.entriesNaming_eq (h : Balanced n s []) (hquiet : Quiet s)
    (hi : (s.inode i).type ≠ 0)
    (hfile : ¬ IsDir s.inode i) : entriesNaming n s.inode i = names n s.inode i := by
  rw [entriesNaming, Finset.sum_filter, names]
  apply Finset.sum_congr rfl
  intro d _
  split_ifs with hroot
  · exact (h.links_file hquiet hi hfile (hroot.dir h.formed.root)).symm
  · exact (links_of_not_dir fun hd => hroot (h.fromRoot hquiet hd)).symm

end Quiet

section Runs

open TransitionRuns

variable [Fintype ι] [DecidableEq ι] {n : ℕ}

/-- The states of runs from a new file system that leave removed directories only when they are
empty. -/
def TidyReachable (n : ℕ) (s : State ι) : Prop :=
  Reaches (fun s => ∃ files, (∀ name ∈ files, name ≠ dot ∧ name ≠ dotdot) ∧ files.length + 2 ≤ n ∧
    s = boot files) (fun s t => ∃ c r, LeavesEmpty n s c ∧ step n s c = .ok (r, t)) s

omit [Fintype ι] [DecidableEq ι] in
theorem boot_balanced {files : List Name} (hfiles : ∀ name ∈ files, name ≠ dot ∧ name ≠ dotdot)
    (hn : files.length + 2 ≤ n) : Balanced n (boot files : State ι) [] := by
  have hformed : Formed n (mkfsInode files) := mkfs_formed hfiles hn
  have hnames : ∀ i, names n (mkfsInode files) i = if 2 ≤ i ∧ i < files.length + 2 then 1 else 0 :=
    fun i => mkfs_names hfiles hn
  have hone : ROOTINO = 1 := rfl
  have hentry : ∀ d i, Entry (mkfsInode files) d i → IsDir (mkfsInode files) i → False := by
    intro d i hentry hdir
    have hpos := (names_pos_iff_entry hformed).mpr ⟨d, hentry⟩
    rw [hnames, mkfs_dir.mp hdir, if_neg] at hpos
    · exact absurd hpos (lt_irrefl 0)
    · omega
  refine ⟨hformed, fun i hi => mkfs_surplus hfiles hn hi, fun i hi => ?_, fun i _ => ?_, ?_,
    ⟨id, fun d i h hi => (hentry d i h hi).elim⟩, fun d i h hi => (hentry d i h hi).elim, ?_,
    fun p cwd hcwd => ?_, fun p fd i hfd => ?_⟩
  · change (mkfsInode files i).type ≠ 0 at hi
    change i = ROOTINO ∨ 0 < names n (mkfsInode files) i ∨ _
    rw [mkfs_type] at hi
    rw [hnames]
    split_ifs at hi with h1 h2
    · exact .inl h1
    · rw [if_pos h2]
      exact .inr (.inl Nat.one_pos)
    · exact absurd rfl hi
  · change names n (mkfsInode files) i ≤ 1
    rw [hnames]
    split_ifs
    · exact le_rfl
    · exact Nat.zero_le 1
  · change names n (mkfsInode files) ROOTINO = 0
    rw [hnames, if_neg]
    omega
  · obtain ⟨pp, hpp, rest, heq, hrest⟩ := hformed.shape ROOTINO hformed.root
    refine ⟨hformed.root, ?_⟩
    obtain rfl : pp = ROOTINO :=
      (congrArg Dirent.inum (List.cons.inj (List.cons.inj heq).2).1).symm
    exact ⟨rest, heq, hrest⟩
  · obtain rfl : ROOTINO = cwd := Option.some.inj hcwd
    exact hformed.root
  · cases hfd

theorem TidyReachable.balanced {s : State ι} (h : TidyReachable n s) : Balanced n s [] := by
  have hrun : Reaches _ _ s := h
  clear h
  induction hrun with
  | start h =>
      obtain ⟨files, hfiles, hn, rfl⟩ := h
      exact boot_balanced hfiles hn
  | step _ hnext ih =>
      obtain ⟨c, r, hleaves, hstep⟩ := hnext
      exact ih.effect hleaves ((step_spec ih.visits ih.formed.root c).of_ok hstep)

/-- At a quiet moment the tree from the root accounts for all inodes and all links. -/
theorem links_match {s : State ι} (h : TidyReachable n s) (hquiet : Quiet s) :
    (∀ i, i ≠ ROOTINO → (s.inode i).type ≠ 0 → ∃ d, FromRoot s.inode d ∧ Entry s.inode d i) ∧
    (∀ i, (s.inode i).type ≠ 0 → ¬ IsDir s.inode i →
      (s.inode i).nlink = entriesNaming n s.inode i) ∧
    ∀ d, IsDir s.inode d → (s.inode d).nlink = 1 + subdirs s.inode d := by
  have hbalanced := h.balanced
  refine ⟨fun i hroot hi => ?_, fun i hi hfile => ?_, fun d hd => ?_⟩
  · obtain ⟨d, hd⟩ := (names_pos_iff_entry hbalanced.formed).mp (hbalanced.named hquiet hi hroot)
    exact ⟨d, hbalanced.fromRoot hquiet hd.1, hd⟩
  · have hsub : subdirs s.inode i = 0 := if_neg hfile
    have hroot : i ≠ ROOTINO := by
      rintro rfl
      exact hfile hbalanced.formed.root
    have hzero := hbalanced.balance i hi
    rw [surplus, demand, hsub, if_neg hroot] at hzero
    rw [hbalanced.entriesNaming_eq hquiet hi hfile]
    omega
  · have hzero := hbalanced.balance d hd.ne_zero
    rw [surplus, demand] at hzero
    by_cases hroot : d = ROOTINO
    · rw [hroot, hbalanced.rootless, if_pos rfl] at hzero
      rw [hroot]
      omega
    · have hpos := hbalanced.named hquiet hd.ne_zero hroot
      have hle := hbalanced.single d hd
      rw [if_neg hroot] at hzero
      omega

theorem links_match_removed_cwd : ∃ s t, TidyReachable 5 (t : State Unit) ∧
    step 5 s (.chdir () ⟨true, []⟩) = .ok (0, t) ∧ (s.inode 2).type = T_DIR ∧
      (s.inode 2).nlink = 0 ∧ (t.inode 2).type = 0 ∧
      (t.inode ROOTINO).nlink = 1 + subdirs t.inode ROOTINO := by
  have hrun : ((step 5 (boot [] : State Unit) (.mkdir () ⟨true, [[97]]⟩)).toOption.any fun x =>
      (x.2.proc ()).cwd = some ROOTINO ∧
        (step 5 x.2 (.chdir () ⟨true, [[97]]⟩)).toOption.any fun x =>
        (step 5 x.2 (.unlink () ⟨true, [[97]]⟩)).toOption.any fun x =>
      ((x.2.proc ()).cwd = some 2 ∧ isdirempty (x.2.inode 2) = true ∧ (x.2.inode 2).type = T_DIR ∧
          (x.2.inode 2).nlink = 0) ∧
        (step 5 x.2 (.chdir () ⟨true, []⟩)).toOption.any fun x =>
      x.1 = 0 ∧ (x.2.inode 2).type = 0 ∧ (x.2.inode ROOTINO).type = T_DIR ∧
        (x.2.proc ()).cwd = some ROOTINO ∧ ∀ fd, (x.2.proc ()).ofile fd = none) = true := by
    decide +kernel
  obtain ⟨⟨_, s₁⟩, h₁, hrun⟩ := (Option.any_eq_true _ _).mp hrun
  obtain ⟨hcwd₁, hrun⟩ := of_decide_eq_true hrun
  obtain ⟨⟨_, s₂⟩, h₂, hrun⟩ := (Option.any_eq_true _ _).mp hrun
  obtain ⟨⟨_, s₃⟩, h₃, hrun⟩ := (Option.any_eq_true _ _).mp hrun
  obtain ⟨⟨hcwd₃, hempty, hdir, hzero⟩, hrun⟩ := of_decide_eq_true hrun
  obtain ⟨⟨r, t⟩, h₄, hrun⟩ := (Option.any_eq_true _ _).mp hrun
  obtain ⟨rfl, hfree, hroot, hcwd, hfile⟩ := of_decide_eq_true hrun
  have hmade : TidyReachable 5 s₁ := by
    refine .step (.start ⟨[], ?_, ?_, rfl⟩) ⟨_, _, ?_, Outcomes.ok_of_toOption h₁⟩
    · exact fun name hname => absurd hname List.not_mem_nil
    · decide
    · exact fun i hgives => hgives.elim
  have hmoved : TidyReachable 5 s₂ := by
    refine .step hmade ⟨_, _, ?_, Outcomes.ok_of_toOption h₂⟩
    rintro i ⟨cwd, -, -, hcwd, -, -, rfl, -⟩ - hne
    exact absurd (Option.some.inj (hcwd.symm.trans hcwd₁)) hne
  have hremoved : TidyReachable 5 s₃ := by
    refine .step hmoved ⟨_, _, ?_, Outcomes.ok_of_toOption h₃⟩
    exact fun i hgives => hgives.elim
  have hleft : TidyReachable 5 t := by
    refine .step hremoved ⟨_, _, ?_, Outcomes.ok_of_toOption h₄⟩
    rintro i ⟨cwd, -, -, hcwd, -, -, rfl, -⟩ - - -
    obtain rfl : i = 2 := Option.some.inj (hcwd.symm.trans hcwd₃)
    exact hempty
  have hquiet : Quiet t :=
    ⟨fun p fd => hfile fd, fun p cwd h => (Option.some.inj (hcwd.symm.trans h)).symm⟩
  exact ⟨s₃, t, hleft, Outcomes.ok_of_toOption h₄, hdir, hzero, hfree,
    (links_match hleft hquiet).2.2 ROOTINO hroot⟩

theorem zero_lt_NOFILE : 0 < NOFILE := by decide

/-- A process makes a file in its directory after it has removed the directory, and leaves it. -/
def abandonFile : List (Call Unit) :=
  [.mkdir () ⟨true, [[97]]⟩, .chdir () ⟨true, [[97]]⟩, .unlink () ⟨true, [[97]]⟩,
    .sysOpen () ⟨false, [[98]]⟩ true false, .close () ⟨0, zero_lt_NOFILE⟩,
    .chdir () ⟨true, []⟩]

/-- The file stays allocated without a name. -/
theorem file_leaked : ∃ s, execute (fun s c => (step 200 s c).toOption.map Prod.snd)
    (boot [] : State Unit) abandonFile = some s ∧ Quiet s ∧ (s.inode 3).type = FileBlocks.T_FILE ∧
    ∀ d, FromRoot s.inode d → ∀ e ∈ (s.inode d).entries, e.inum ≠ 3 := by
  have hrun : (execute (fun s c => (step 200 s c).toOption.map Prod.snd) (boot [] : State Unit)
      abandonFile).any (fun s => (s.inode 3).type = FileBlocks.T_FILE ∧
        (s.proc ()).cwd = some ROOTINO ∧ (∀ fd, (s.proc ()).ofile fd = none) ∧
        ∀ e ∈ (s.inode ROOTINO).entries, e.inum ≠ 3 ∧ ¬ e.Proper) = true := by decide +kernel
  obtain ⟨s, hs, hprop⟩ := (Option.any_eq_true _ _).mp hrun
  obtain ⟨hfile, hcwd, hfiles, hroot⟩ := of_decide_eq_true hprop
  have honly : ∀ d, FromRoot s.inode d → d = ROOTINO := by
    intro d hd
    induction hd with
    | root => rfl
    | step _ hentry _ ih =>
        obtain ⟨-, e, he, hp, -⟩ := hentry
        rw [ih] at he
        exact absurd hp (hroot e he).2
  refine ⟨s, hs, ⟨fun p fd => hfiles fd, fun p cwd h => ?_⟩, hfile, fun d hd e he => ?_⟩
  · exact (Option.some.inj (hcwd.symm.trans h)).symm
  · rw [honly d hd] at he
    exact (hroot e he).1

end Runs

end FileTree

end Xv6Fairness
