import Xv6Fairness.ShellWiring

/-!
# Runs of the processes of the shell

The places that name objects in the views stand for numbers, one for each place at which an object
has been made. Every system call of every process keeps its view true.
-/

namespace Xv6Fairness

namespace Shell

open ByteStrings ThreadPrograms Counting Finset

namespace Target

variable {κ μ : Type}

def map (f : κ → μ) : Target κ → Target μ
  | given fd => .given fd
  | file n name mode => .file (f n) name mode
  | pipe n writable => .pipe (f n) writable

/-- The name of the object, if it is one that the shell has made. -/
def Names (t : Target κ) (x : κ) : Prop :=
  match t with
  | given _ => False
  | file n _ _ => n = x
  | pipe n _ => n = x

theorem map_congr {f g : κ → μ} {t : Target κ} (h : ∀ x, t.Names x → f x = g x) :
    t.map f = t.map g := by
  cases t with
  | given fd => rfl
  | file n name mode => rw [map, map, h n rfl]
  | pipe n writable => rw [map, map, h n rfl]

end Target

/-- The table with numbers for places. -/
def Table.map {κ μ : Type} (f : κ → μ) (T : Table κ) : Table μ :=
  fun fd => (T fd).map (Target.map f)

/-- All objects of the table have been made. -/
def Table.Within {κ : Type} (made : Set κ) (T : Table κ) : Prop :=
  ∀ fd t x, T fd = some t → t.Names x → x ∈ made

section Tables

variable {κ μ : Type} {made made' : Set κ} {f g : κ → μ} {T : Table κ} {fd : ℕ}
  {t : Option (Target κ)}

theorem Table.map_congr (h : Table.Within made T) (hfg : ∀ x ∈ made, f x = g x) :
    Table.map f T = Table.map g T := by
  funext fd
  rw [Table.map, Table.map]
  cases ht : T fd with
  | none => rfl
  | some t => exact congrArg some (Target.map_congr fun x hx => hfg x (h fd t x ht hx))

theorem Table.map_update : Table.map f (Function.update T fd t) =
    Function.update (Table.map f T) fd (t.map (Target.map f)) := by
  funext n
  rw [Table.map, Function.update_apply, Function.update_apply]
  split_ifs <;> rfl

theorem Table.Within.update (h : Table.Within made T)
    (ht : ∀ u x, t = some u → u.Names x → x ∈ made) :
    Table.Within made (Function.update T fd t) := by
  intro n u x hu hx
  rw [Function.update_apply] at hu
  split_ifs at hu
  · exact ht u x hu hx
  · exact h n u x hu hx

theorem Table.Within.mono (h : Table.Within made T) (hsub : made ⊆ made') : Table.Within made' T :=
  fun fd t x ht hx => hsub (h fd t x ht hx)

theorem fdalloc_table_map : fdalloc (Table.map f T) = fdalloc T :=
  fdalloc_congr fun _ => Option.isNone_map

end Tables

variable {ι : Type} [DecidableEq ι] [Fintype ι]

/-- What the view of a process says. -/
structure Process.Keeps (L : Wiring) (made : Set Place) (num : Place → ℕ) (P : Process ι)
    (v : View) : Prop where
  within : Table.Within made v.fds
  fds : P.fds = Table.map num v.fds
  shell : ∀ x, P.status = .shell x → Safe L x v
  program : ∀ argv, P.status = .program argv → L argv v.fds ∧ Std v.fds ∧ v.kids = 0
  zombie : P.status = .zombie → v.kids = 0

structure Inv (L : Wiring) (s : System ι) (made : Set Place) (num : Place → ℕ)
    (view : ι → View) : Prop where
  inj : Set.InjOn num made
  bound : ∀ x ∈ made, num x < s.next
  fresh : ∀ p, s.proc p ≠ none → ∀ x ∈ (view p).own, x ∉ made
  apart : ∀ p q, s.proc p ≠ none → s.proc q ≠ none → p ≠ q → Disjoint (view p).own (view q).own
  keeps : ∀ p P, s.proc p = some P → P.Keeps L made num (view p)
  kids : ∀ p, #{c | s.IsChild p c} = if s.proc p = none then 0 else (view p).kids
  self : ∀ p, ¬ s.IsChild p p

variable {L : Wiring} {s : System ι} {made made' : Set Place} {num num' : Place → ℕ}
  {view : ι → View}
  {p q c : ι} {P Q : Process ι} {v w : View}

omit [DecidableEq ι] [Fintype ι] in
theorem Process.Keeps.mono (h : P.Keeps L made num v) (hsub : made ⊆ made')
    (hnum : ∀ x ∈ made, num' x = num x) : P.Keeps L made' num' v where
  within := h.within.mono hsub
  fds := h.fds.trans (Table.map_congr h.within fun x hx => (hnum x hx).symm)
  shell := h.shell
  program := h.program
  zombie := h.zombie

theorem children_update {s s' : System ι} {o : Option (Process ι)}
    (hproc : s'.proc = Function.update s.proc p o)
    (q : ι) : #{c | s'.IsChild q c} + (if (s.proc p).bind Process.parent = some q then 1 else 0) =
      #{c | s.IsChild q c} + if o.bind Process.parent = some q then 1 else 0 := by
  have hexchange := card_filter_exchange (p := p) (P := s'.IsChild q)
      (Q := s.IsChild q) fun c hc => by
    rw [System.IsChild, System.IsChild, hproc, Function.update_of_ne hc]
  have hself : s'.IsChild q p ↔ o.bind Process.parent = some q := by
    rw [System.IsChild, hproc, Function.update_self]
  simp only [hself] at hexchange
  exact hexchange

theorem children_set (s : System ι) (p q : ι) (o : Option (Process ι)) :
    #{c | (s.set p o).IsChild q c} + (if (s.proc p).bind Process.parent = some q then 1 else 0) =
      #{c | s.IsChild q c} + if o.bind Process.parent = some q then 1 else 0 :=
  children_update rfl q

namespace Inv

variable (h : Inv L s made num view)

include h

theorem update {s' : System ι} {P' : Process ι} (hp : s.proc p = some P)
    (hproc : s'.proc = Function.update s.proc p (some P')) (hparent : P'.parent = P.parent)
    (hinj : Set.InjOn num' made') (hbound : ∀ x ∈ made', num' x < s'.next) (hsub : made ⊆ made')
    (hnum : ∀ x ∈ made, num' x = num x)
    (hnew : ∀ x ∈ made', x ∉ made → x ∈ (view p).own ∧ x ∉ w.own)
    (hown : w.own ⊆ (view p).own) (hkids : w.kids = (view p).kids)
    (hkeeps : P'.Keeps L made' num' w) :
    Inv L s' made' num' (Function.update view p w) := by
  have hne : s.proc p ≠ none := by
    rw [hp]
    exact Option.some_ne_none P
  have hsome : ∀ q, s'.proc q ≠ none ↔ s.proc q ≠ none := fun q => by
    rw [hproc, Function.update_apply]
    split_ifs with hq
    · rw [hq]
      exact iff_of_true (Option.some_ne_none _) hne
    · exact Iff.rfl
  have howns : ∀ q, (Function.update view p w q).own ⊆ (view q).own := fun q => by
    rw [Function.update_apply]
    split_ifs with hq
    · rw [hq]
      exact hown
    · exact subset_rfl
  refine ⟨hinj, hbound, fun q hq x hx hmade => ?_, fun q r hq hr hqr => ?_, fun q Q hQ => ?_,
    fun q => ?_,
    fun q hself => ?_⟩
  · have hold := h.fresh q ((hsome q).mp hq) x (howns q hx)
    obtain ⟨hmine, hgone⟩ := hnew x hmade hold
    by_cases hqp : q = p
    · rw [hqp, Function.update_self] at hx
      exact hgone hx
    · exact Set.disjoint_left.mp (h.apart q p ((hsome q).mp hq) hne hqp) (howns q hx) hmine
  · exact (h.apart q r ((hsome q).mp hq) ((hsome r).mp hr) hqr).mono (howns q) (howns r)
  · rw [hproc, Function.update_apply] at hQ
    rw [Function.update_apply]
    split_ifs at hQ ⊢
    · cases hQ
      exact hkeeps
    · exact (h.keeps q Q hQ).mono hsub hnum
  · have hcount := children_update hproc q
    have hsame : (s.proc p).bind Process.parent = (some P').bind Process.parent := by
      rw [hp]
      exact hparent.symm
    rw [hsame, add_left_inj] at hcount
    rw [hcount, h.kids q, hproc]
    by_cases hqp : q = p
    · rw [hqp, Function.update_self, Function.update_self, if_neg hne,
        if_neg (Option.some_ne_none _), hkids]
    · rw [Function.update_of_ne hqp, Function.update_of_ne hqp]
  · rw [System.IsChild, hproc, Function.update_apply] at hself
    split_ifs at hself with hqp
    · refine h.self q ?_
      rw [System.IsChild, hqp, hp]
      exact hparent.symm.trans (hqp ▸ hself)
    · exact h.self q hself

theorem goOn {P' : Process ι} (hp : s.proc p = some P) (hparent : P'.parent = P.parent)
    (hown : w.own ⊆ (view p).own) (hkids : w.kids = (view p).kids)
    (hkeeps : P'.Keeps L made num w) :
    Inv L (s.set p (some P')) made num (Function.update view p w) :=
  h.update hp rfl hparent h.inj h.bound subset_rfl (fun _ _ => rfl)
    (fun _ hx hnot => absurd hx hnot) hown hkids hkeeps

theorem make {P' : Process ι} {x : Place} (hp : s.proc p = some P) (hparent : P'.parent = P.parent)
    (hx : x ∈ (view p).own) (hown : w.own = (view p).own \ {x}) (hkids : w.kids = (view p).kids)
    (hkeeps : P'.Keeps L (insert x made) (Function.update num x s.next) w) :
    Inv L { s.set p (some P') with next := s.next + 1 } (insert x made)
    (Function.update num x s.next)
      (Function.update view p w) := by
  have hne : s.proc p ≠ none := by
    rw [hp]
    exact Option.some_ne_none P
  have hfresh : x ∉ made := h.fresh p hne x hx
  have hnum : ∀ y ∈ made, Function.update num x s.next y = num y := fun y hy =>
    Function.update_of_ne (fun heq : y = x => hfresh (heq ▸ hy)) _ _
  refine h.update hp rfl hparent ?_ ?_ (Set.subset_insert _ _) hnum ?_ ?_ hkids hkeeps
  · rw [Set.injOn_insert hfresh, Function.update_self]
    refine ⟨h.inj.congr fun y hy => (hnum y hy).symm, ?_⟩
    rintro ⟨y, hy, heq⟩
    rw [hnum y hy] at heq
    exact (h.bound y hy).ne heq
  · rintro y (rfl | hy)
    · rw [Function.update_self]
      exact Nat.lt_succ_self _
    · rw [hnum y hy]
      exact (h.bound y hy).trans (Nat.lt_succ_self _)
  · rintro y (rfl | hy) hnot
    · rw [hown]
      exact ⟨hx, fun hmem => hmem.2 rfl⟩
    · exact absurd hy hnot
  · rw [hown]
    exact Set.sdiff_subset

theorem fork {P' C : Process ι} {u : View} (hp : s.proc p = some P) (hc : s.proc c = none)
    (hparent : P'.parent = P.parent) (hchild : C.parent = some p) (hw : w.own ⊆ (view p).own)
    (hu : u.own ⊆ (view p).own) (hdisjoint : Disjoint u.own w.own)
    (hkids : w.kids = (view p).kids + 1)
    (hzero : u.kids = 0) (hkeeps : P'.Keeps L made num w) (hkeepsc : C.Keeps L made num u) :
    Inv L ((s.set p (some P')).set c (some C)) made num
    (Function.update (Function.update view p w) c u) := by
  have hne : s.proc p ≠ none := by
    rw [hp]
    exact Option.some_ne_none P
  have hcp : c ≠ p := fun heq => hne (heq ▸ hc)
  have hproc : ∀ q, ((s.set p (some P')).set c (some C)).proc q =
      if q = c then some C else if q = p then some P' else s.proc q := fun q => by
    rw [System.set, System.set]
    dsimp only
    rw [Function.update_apply, Function.update_apply]
  have hview : ∀ q, Function.update (Function.update view p w) c u q =
      if q = c then u else if q = p then w else view q := fun q => by
    rw [Function.update_apply, Function.update_apply]
  have howns : ∀ q, (if q = c then u else if q = p then w else view q).own ⊆
      if q = c then (view p).own else (view q).own := fun q => by
    split_ifs with hqc hqp
    · exact hu
    · rw [hqp]
      exact hw
    · exact subset_rfl
  refine ⟨h.inj, h.bound, fun q hq x hx => ?_, fun q r hq hr hqr => ?_, fun q Q hQ => ?_,
    fun q => ?_,
    fun q hself => ?_⟩
  · rw [hview] at hx
    rw [hproc] at hq
    have hx := howns q hx
    split_ifs at hx hq with hqc hqp
    · exact h.fresh p hne x hx
    · exact h.fresh q (hqp ▸ hne) x hx
    · exact h.fresh q hq x hx
  · rw [hproc] at hq hr
    rw [hview, hview]
    split_ifs at hq hr ⊢ with hqc hrc hrp hqp hrc hrp hrc hrp
    · exact absurd (hqc.trans hrc.symm) hqr
    · exact hdisjoint
    · exact (h.apart p r hne hr (Ne.symm hrp)).mono_left hu
    · exact hdisjoint.symm
    · exact absurd (hqp.trans hrp.symm) hqr
    · exact (h.apart p r hne hr (Ne.symm hrp)).mono_left hw
    · exact (h.apart q p hq hne hqp).mono_right hu
    · exact (h.apart q p hq hne hqp).mono_right hw
    · exact h.apart q r hq hr hqr
  · rw [hproc] at hQ
    rw [hview]
    split_ifs at hQ ⊢
    · cases hQ
      exact hkeepsc
    · cases hQ
      exact hkeeps
    · exact h.keeps q Q hQ
  · have hfirst := children_set s p q (some P')
    have hsecond := children_set (s.set p (some P')) c q (some C)
    have hsame : (s.proc p).bind Process.parent = (some P').bind Process.parent := by
      rw [hp]
      exact hparent.symm
    have hold : (s.set p (some P')).proc c = none := (Function.update_of_ne hcp _ _).trans hc
    have hbind : (some C).bind Process.parent = some p := hchild
    rw [hsame, add_left_inj] at hfirst
    rw [hold, Option.bind_none, if_neg (Option.some_ne_none q).symm, add_zero, hbind, hfirst,
      h.kids q] at hsecond
    rw [hsecond, hproc, hview]
    by_cases hqc : q = c
    · rw [hqc, if_pos hc, if_neg fun heq => hcp (Option.some_inj.mp heq).symm, if_pos rfl,
        if_neg (Option.some_ne_none _), if_pos rfl, hzero]
    · by_cases hqp : q = p
      · rw [if_neg hqc, if_neg hqc, if_pos hqp, if_pos hqp, hqp, if_neg hne, if_pos rfl,
          if_neg (Option.some_ne_none _), hkids]
      · rw [if_neg hqc, if_neg hqc, if_neg hqp, if_neg hqp,
          if_neg fun heq => hqp (Option.some_inj.mp heq).symm,
          add_zero]
  · rw [System.IsChild, hproc] at hself
    split_ifs at hself with hqc hqp
    · have heq : some p = some q := hchild.symm.trans hself
      exact hcp ((Option.some_inj.mp heq).trans hqc |>.symm)
    · refine h.self q ?_
      rw [System.IsChild, hqp, hp]
      exact hparent.symm.trans (hqp ▸ hself)
    · exact h.self q hself

theorem remove {s' : System ι} {view' : ι → View} {C : Process ι} (hc : s.proc c = some C)
    (hzombie : C.status = .zombie) (hgone : s'.proc c = none) (hnext : s'.next = s.next)
    (hlive : ∀ q, q ≠ c → (s'.proc q = none ↔ s.proc q = none))
    (hparent : ∀ q, q ≠ c → (s'.proc q).bind Process.parent = (s.proc q).bind Process.parent)
    (hown : ∀ q, (view' q).own = (view q).own)
    (hkeeps : ∀ q Q, s'.proc q = some Q → Q.Keeps L made num (view' q))
    (hkids : ∀ q, s'.proc q ≠ none →
      (view' q).kids + (if C.parent = some q then 1 else 0) = (view q).kids) :
    Inv L s' made num view' := by
  have hold : ∀ q, s'.proc q ≠ none → q ≠ c ∧ s.proc q ≠ none := fun q hq => by
    have hqc : q ≠ c := by
      rintro rfl
      exact hq hgone
    exact ⟨hqc, fun hnone => hq ((hlive q hqc).mpr hnone)⟩
  refine ⟨h.inj, fun x hx => hnext ▸ h.bound x hx, fun q hq x hx => ?_, fun q r hq hr hqr =>
    ?_, hkeeps,
    fun q => ?_, fun q hself => ?_⟩
  · rw [hown q] at hx
    exact h.fresh q (hold q hq).2 x hx
  · rw [hown q, hown r]
    exact h.apart q r (hold q hq).2 (hold r hr).2 hqr
  · have hcount := card_filter_exchange (p := c) (P := s'.IsChild q)
      (Q := s.IsChild q) fun r hr => by
      rw [System.IsChild, System.IsChild, hparent r hr]
    have hbefore : s.IsChild q c ↔ C.parent = some q := by
      rw [System.IsChild, hc]
      exact Iff.rfl
    have hafter : ¬ s'.IsChild q c := by
      rw [System.IsChild, hgone]
      exact (Option.some_ne_none q).symm
    rw [if_neg hafter, add_zero, h.kids q] at hcount
    simp only [hbefore] at hcount
    by_cases hqc : q = c
    · subst hqc
      rw [hc, if_neg (Option.some_ne_none _), (h.keeps q C hc).zombie hzombie] at hcount
      rw [if_pos hgone]
      exact Nat.eq_zero_of_add_eq_zero_right hcount
    · by_cases hnone : s'.proc q = none
      · rw [if_pos ((hlive q hqc).mp hnone)] at hcount
        rw [if_pos hnone]
        exact Nat.eq_zero_of_add_eq_zero_right hcount
      · rw [if_neg (hold q hnone).2, ← hkids q hnone] at hcount
        rw [if_neg hnone]
        exact Nat.add_right_cancel hcount
  · have hqc : q ≠ c := by
      rintro rfl
      rw [System.IsChild, hgone] at hself
      cases hself
    rw [System.IsChild, hparent q hqc] at hself
    exact h.self q hself

theorem exit (hp : s.proc p = some P) :
    Inv L (s.exit p P.parent) made num (Function.update view p ⟨fun _ => none, ∅, 0⟩) := by
  have hproc : ∀ q, (s.exit p P.parent).proc q =
      if q = p then some ⟨.zombie, fun _ => none, P.parent⟩
      else (s.proc q).map fun Q => if Q.parent = some p then { Q with parent := none } else Q :=
        fun q => by
    rw [System.exit]
    dsimp only
    rw [Function.update_apply]
  have hsome : ∀ q, (s.exit p P.parent).proc q ≠ none ↔ s.proc q ≠ none := fun q => by
    rw [hproc]
    split_ifs with hq
    · rw [hq, hp]
      exact iff_of_true (Option.some_ne_none _) (Option.some_ne_none _)
    · rw [ne_eq, Option.map_eq_none_iff]
  have howns : ∀ q, (Function.update view p ⟨fun _ => none, ∅, 0⟩ q).own ⊆ (view q).own :=
    fun q => by
    rw [Function.update_apply]
    split_ifs
    · exact Set.empty_subset _
    · exact subset_rfl
  have hchild : ∀ q c, (s.exit p P.parent).IsChild q c ↔ q ≠ p ∧ s.IsChild q c := fun q c => by
    rw [System.IsChild, System.IsChild, hproc]
    by_cases hcp : c = p
    · rw [if_pos hcp, hcp, hp]
      refine ⟨fun heq => ⟨?_, heq⟩, fun hand => hand.2⟩
      rintro rfl
      refine h.self q ?_
      rw [System.IsChild, hp]
      exact heq
    · rw [if_neg hcp]
      cases hc : s.proc c with
      | none => simp
      | some C =>
          change (if C.parent = some p then { C with parent := none } else C).parent = some q ↔
            q ≠ p ∧ C.parent = some q
          split_ifs with hparent
          · rw [hparent]
            exact iff_of_false (by simp) fun hand => hand.1 (Option.some_inj.mp hand.2).symm
          · refine ⟨fun heq => ⟨?_, heq⟩, fun hand => hand.2⟩
            rintro rfl
            exact hparent heq
  refine ⟨h.inj, h.bound, fun q hq x hx => h.fresh q ((hsome q).mp hq) x (howns q hx),
    fun q r hq hr hqr => ?_,
    fun q Q hQ => ?_, fun q => ?_, fun q hself => h.self q ((hchild q q).mp hself).2⟩
  · exact (h.apart q r ((hsome q).mp hq) ((hsome r).mp hr) hqr).mono (howns q) (howns r)
  · rw [hproc] at hQ
    rw [Function.update_apply]
    split_ifs at hQ ⊢
    · cases hQ
      exact ⟨fun _ t _ ht => absurd ht (Option.some_ne_none t).symm, rfl,
        fun _ heq => by (cases heq),
        fun _ heq => by (cases heq), fun _ => rfl⟩
    · obtain ⟨R, hR, rfl⟩ := Option.map_eq_some_iff.mp hQ
      obtain ⟨hwithin, hfds, hshell, hprogram, hzombie⟩ := h.keeps q R hR
      split_ifs
      · exact ⟨hwithin, hfds, hshell, hprogram, hzombie⟩
      · exact ⟨hwithin, hfds, hshell, hprogram, hzombie⟩
  · simp only [hchild]
    by_cases hqp : q = p
    · subst hqp
      rw [Function.update_self, filter_eq_empty_iff.mpr fun c _ hand => hand.1 rfl]
      rw [card_empty, ite_self]
    · rw [Function.update_of_ne hqp]
      have hold := h.kids q
      simp only [ne_eq, hqp, not_false_eq_true, true_and]
      rw [hold]
      exact if_congr (not_iff_not.mp (hsome q)).symm rfl rfl

end Inv

omit [DecidableEq ι] [Fintype ι] in
theorem Process.Keeps.of_shell {x : Script} {fds : Table ℕ} {parent : Option ι} (hx : Safe L x w)
    (hwithin : Table.Within made w.fds) (hfds : fds = Table.map num w.fds) :
    (⟨.shell x, fds, parent⟩ : Process ι).Keeps L made num w := by
  refine ⟨hwithin, hfds, fun y hy => ?_, fun _ hy => ?_, fun hy => ?_⟩
  · cases hy
    exact hx
  · cases hy
  · cases hy

/-- There are views that hold in the state. -/
def Holds (L : Wiring) (s : System ι) : Prop := ∃ made num view, Inv L s made num view

section Calls

variable {fds : Table ℕ} {parent : Option ι} {x y : Script} {z : Place}

theorem Inv.stay (h : Inv L s made num view) (hp : s.proc p = some ⟨.shell x, fds, parent⟩)
    {fds' : Table ℕ} (hy : Safe L y w) (hwithin : Table.Within made w.fds)
    (hfds : fds' = Table.map num w.fds)
    (hown : w.own ⊆ (view p).own) (hkids : w.kids = (view p).kids) :
    Holds L (s.set p (some ⟨.shell y, fds', parent⟩)) :=
  ⟨made, num, _, h.goOn hp rfl hown hkids (.of_shell hy hwithin hfds)⟩

theorem Inv.fail (h : Inv L s made num view) (hp : s.proc p = some ⟨.shell x, fds, parent⟩)
    (hy : Safe L y (view p)) : Holds L (s.set p (some ⟨.shell y, fds, parent⟩)) :=
  h.stay hp hy (h.keeps p _ hp).within (h.keeps p _ hp).fds subset_rfl rfl

theorem Inv.fdalloc (h : Inv L s made num view) (hp : s.proc p = some ⟨.shell x, fds, parent⟩) :
    Shell.fdalloc fds = Shell.fdalloc (view p).fds := by
  have hfds : fds = Table.map num (view p).fds := (h.keeps p _ hp).fds
  rw [hfds, fdalloc_table_map]

theorem Inv.stayMake (h : Inv L s made num view) (hp : s.proc p = some ⟨.shell x, fds, parent⟩)
    (hz : z ∈ (view p).own) {fds' : Table ℕ} {T : Table Place}
    (hy : Safe L y ⟨T, (view p).own \ {z}, (view p).kids⟩)
    (hwithin : Table.Within made (view p).fds → Table.Within (insert z made) T)
    (hfds : ∀ f : Place → ℕ, f z = s.next → Table.map f (view p).fds = fds → fds' = Table.map f T) :
    Holds L { s.set p (some ⟨.shell y, fds', parent⟩) with next := s.next + 1 } := by
  have hkeeps := h.keeps p _ hp
  have hfresh : z ∉ made := h.fresh p (by rw [hp]; exact Option.some_ne_none _) z hz
  refine ⟨insert z made, Function.update num z s.next, _,
    h.make (w := ⟨T, (view p).own \ {z}, (view p).kids⟩) hp rfl hz rfl rfl (.of_shell hy ?_ ?_)⟩
  · exact hwithin hkeeps.within
  · refine hfds _ (Function.update_self _ _ _) ?_
    refine (Table.map_congr hkeeps.within fun u hu => ?_).trans hkeeps.fds.symm
    exact Function.update_of_ne (fun heq : u = z => hfresh (heq ▸ hu)) _ _

theorem Inv.waited (h : Inv L s made num view) (hp : s.proc p = some ⟨.shell x, fds, parent⟩)
    {fds' : Table ℕ} (hc : s.proc c = some ⟨.zombie, fds', some p⟩)
    (hy : Safe L y { view p with kids := (view p).kids - 1 }) :
    Holds L ((s.set p (some ⟨.shell y, fds, parent⟩)).set c none) := by
  have hcp : c ≠ p := by
    rintro rfl
    rw [hp] at hc
    cases hc
  have hpne : s.proc p ≠ none := by
    rw [hp]
    exact Option.some_ne_none _
  have hproc : ∀ q, ((s.set p (some ⟨.shell y, fds, parent⟩)).set c none).proc q =
      if q = c then none else if q = p then some ⟨.shell y, fds, parent⟩ else s.proc q :=
        fun q => by
    rw [System.set, System.set]
    dsimp only
    rw [Function.update_apply, Function.update_apply]
  have hpos : 0 < (view p).kids := by
    have hkids := h.kids p
    rw [if_neg hpne] at hkids
    rw [← hkids]
    apply card_filter_pos (p := c)
    rw [System.IsChild, hc]
    rfl
  refine ⟨made, num, Function.update view p { view p with kids := (view p).kids - 1 },
    h.remove hc rfl ?_ rfl (fun q hq => ?_) (fun q hq => ?_) (fun q => ?_)
      (fun q Q hQ => ?_) fun q hq => ?_⟩
  · rw [hproc, if_pos rfl]
  · rw [hproc, if_neg hq]
    split_ifs with hqp
    · rw [hqp]
      exact iff_of_false (by simp) hpne
    · exact Iff.rfl
  · rw [hproc, if_neg hq]
    split_ifs with hqp
    · rw [hqp, hp]
      rfl
    · rfl
  · rw [Function.update_apply]
    split_ifs with hqp
    · rw [hqp]
    · rfl
  · rw [hproc] at hQ
    rw [Function.update_apply]
    split_ifs at hQ ⊢
    · cases hQ
      exact .of_shell hy (h.keeps p _ hp).within (h.keeps p _ hp).fds
    · exact h.keeps q Q hQ
  · change _ + (if some p = some q then 1 else 0) = _
    rw [Function.update_apply]
    split_ifs with hqp hpq hpq
    · rw [hqp]
      exact Nat.sub_add_cancel hpos
    · exact absurd (congrArg some hqp.symm) hpq
    · exact absurd (Option.some_inj.mp hpq).symm hqp
    · rfl

theorem Inv.call {ok : Bool} {a : Call} {k : a.Res → Script} {t : System ι}
    (h : Inv L s made num view)
    (hp : s.proc p = some ⟨.shell (.act a k), fds, parent⟩)
    (hcall : s.call p ok c fds parent a k = some t) : Holds L t := by
  have hkeeps := h.keeps p _ hp
  obtain ⟨R, hrule, hk⟩ := hkeeps.shell _ rfl
  have hwithin := hkeeps.within
  have hfds : fds = Table.map num (view p).fds := hkeeps.fds
  have halloc := h.fdalloc hp
  cases hrule with
  | @close fd =>
      cases hcall
      refine h.stay hp (hk () _ rfl) (hwithin.update fun u z hu => by cases hu) ?_ subset_rfl rfl
      rw [Table.map_update, ← hfds]
      rfl
  | @openFile name mode z hz =>
      have hfail : Holds L (s.set p (some ⟨.shell (k none), fds, parent⟩)) :=
        h.fail hp (hk none _ rfl)
      rw [System.call.eq_def] at hcall
      cases hfd : Shell.fdalloc fds with
      | none =>
          simp only [hfd] at hcall
          cases hcall
          exact hfail
      | some fd =>
          simp only [hfd] at hcall
          cases ok with
          | false =>
              cases hcall
              exact hfail
          | true =>
              cases hcall
              rw [halloc] at hfd
              refine h.stayMake hp hz (hk (some fd) _ ⟨hfd, rfl⟩) (fun hw => ?_) fun f hf hmap => ?_
              · refine (hw.mono (Set.subset_insert z made)).update fun u y hu hname => ?_
                cases hu
                exact .inl hname.symm
              · rw [Table.map_update, hmap, ← hf]
                rfl
  | @dup fd fd' u hu hfree =>
      have hsome : fds fd = some (u.map num) := by
        rw [hfds, Table.map, hu]
        rfl
      rw [System.call.eq_def] at hcall
      simp only [hsome, halloc, hfree] at hcall
      cases hcall
      refine h.stay hp (hk (some fd') _ rfl)
        (hwithin.update fun v z hv hname => ?_) ?_ subset_rfl rfl
      · cases hv
        exact hwithin fd u z hu hname
      · rw [Table.map_update, ← hfds]
        rfl
  | @pipe z hz =>
      have hfail : Holds L (s.set p (some ⟨.shell (k none), fds, parent⟩)) :=
        h.fail hp (hk none _ rfl)
      rw [System.call.eq_def] at hcall
      cases hfd : Shell.fdalloc fds with
      | none =>
          simp only [hfd] at hcall
          cases hcall
          exact hfail
      | some fd0 =>
          simp only [hfd] at hcall
          have hsecond : Shell.fdalloc (Function.update fds fd0 (some (.pipe s.next false))) =
              Shell.fdalloc (Function.update (view p).fds fd0 (some (.pipe z false))) := by
            refine fdalloc_congr fun fd => ?_
            rw [Function.update_apply, Function.update_apply, hfds]
            split_ifs
            · rfl
            · exact Option.isNone_map
          cases ok with
          | false =>
              cases hcall
              exact hfail
          | true =>
              simp only at hcall
              cases hfd1 : Shell.fdalloc (Function.update fds fd0 (some (.pipe s.next false))) with
              | none =>
                  simp only [hfd1] at hcall
                  cases hcall
                  exact hfail
              | some fd1 =>
                  simp only [hfd1] at hcall
                  cases hcall
                  rw [halloc] at hfd
                  rw [hsecond] at hfd1
                  refine h.stayMake hp hz (hk (some (fd0, fd1)) _ ⟨hfd, hfd1, rfl⟩) (fun hw => ?_)
                    fun f hf hmap => ?_
                  · refine ((hw.mono (Set.subset_insert z made)).update fun u y hu hname =>
                      ?_).update
                      fun u y hu hname => ?_
                    · cases hu
                      exact .inl hname.symm
                    · cases hu
                      exact .inl hname.symm
                  · rw [Table.map_update, Table.map_update, hmap, ← hf]
                    rfl
  | @fork A B hA hB hAB =>
      rw [System.call.eq_def] at hcall
      simp only at hcall
      split_ifs at hcall with hok hfree
      · cases hcall
        have hc : s.proc c = none := Option.isNone_iff_eq_none.mp hfree
        refine ⟨made, num, _, h.fork (u := ⟨(view p).fds, A, 0⟩)
          (w := ⟨(view p).fds, B, (view p).kids + 1⟩) hp hc
          rfl rfl hB hA hAB rfl rfl (.of_shell (hk .parent _ rfl) hwithin hfds)
          (.of_shell (hk .child _ rfl) hwithin hfds)⟩
      · cases hcall
        exact h.fail hp (hk .failed _ rfl)
  | wait hstd =>
      rw [System.call.eq_def] at hcall
      simp only at hcall
      have hpne : s.proc p ≠ none := by
        rw [hp]
        exact Option.some_ne_none _
      have hsafe := hk () { view p with kids := (view p).kids - 1 } rfl
      split_ifs at hcall with hnone
      · cases hcall
        have hzero := h.kids p
        rw [filter_eq_empty_iff.mpr fun c _ => hnone c, card_empty, if_neg hpne] at hzero
        exact h.stay hp hsafe hwithin hfds subset_rfl (by rw [← hzero])
      · cases hc : s.proc c with
        | none =>
            simp only [hc] at hcall
            cases hcall
        | some C =>
            obtain ⟨status, fds', parent'⟩ := C
            cases status with
            | shell _ | program _ =>
                simp only [hc] at hcall
                cases hcall
            | zombie =>
                cases parent' with
                | none =>
                    simp only [hc] at hcall
                    cases hcall
                | some q =>
                    simp only [hc] at hcall
                    split_ifs at hcall with hq
                    cases hcall
                    subst hq
                    exact h.waited hp hc hsafe
  | exec hL hstd hkids =>
      rw [System.call.eq_def] at hcall
      simp only at hcall
      split_ifs at hcall with hok
      · cases hcall
        refine ⟨made, num, _, h.goOn (w := view p) hp rfl subset_rfl rfl ?_⟩
        refine ⟨hwithin, hfds,
          fun y hy => by (cases hy), fun argv hy => ?_, fun hy => by (cases hy)⟩
        cases hy
        exact ⟨hL, hstd, hkids⟩
      · cases hcall
        exact h.fail hp (hk () _ rfl)
  | print | getcmd _ _ =>
      cases hcall
      exact h.fail hp (hk () _ rfl)

end Calls

theorem Inv.reap (h : Inv L s made num view) {fds : Table ℕ}
    (hc : s.proc c = some ⟨.zombie, fds, none⟩) :
    Inv L (s.set c none) made num view := by
  have hproc : ∀ q, q ≠ c → (s.set c none).proc q = s.proc q :=
    fun q hq => Function.update_of_ne hq _ _
  have hgone : (s.set c none).proc c = none := Function.update_self _ _ _
  have hold : ∀ q, (s.set c none).proc q ≠ none → q ≠ c := by
    rintro q hq rfl
    exact hq hgone
  refine h.remove hc rfl hgone rfl (fun q hq => by rw [hproc q hq]) (fun q hq => by rw [hproc q hq])
    (fun _ => rfl) (fun q Q hQ => ?_) fun q _ => by simp
  have hq := hold q (by rw [hQ]; exact Option.some_ne_none Q)
  exact h.keeps q Q ((hproc q hq).symm.trans hQ)

theorem Holds.step {t : System ι} {a : Action ι} (h : Holds L s) (hstep : s.step a = some t) :
    Holds L t := by
  obtain ⟨made, num, view, h⟩ := h
  rw [System.step.eq_def] at hstep
  cases a with
  | run p ok c =>
      cases hp : s.proc p with
      | none =>
          simp only [hp] at hstep
          cases hstep
      | some P =>
          obtain ⟨status, fds, parent⟩ := P
          cases status with
          | program _ | zombie =>
              simp only [hp] at hstep
              cases hstep
          | shell x =>
              cases x with
              | ret _ =>
                  simp only [hp] at hstep
                  cases hstep
              | act a k =>
                  simp only [hp] at hstep
                  exact h.call hp hstep
  | exit p =>
      cases hp : s.proc p with
      | none =>
          simp only [hp] at hstep
          cases hstep
      | some P =>
          have hexit := h.exit hp
          obtain ⟨status, fds, parent⟩ := P
          cases status with
          | zombie =>
              simp only [hp] at hstep
              cases hstep
          | program _ =>
              simp only [hp] at hstep
              cases hstep
              exact ⟨_, _, _, hexit⟩
          | shell x =>
              cases x with
              | ret _ =>
                  simp only [hp] at hstep
                  cases hstep
                  exact ⟨_, _, _, hexit⟩
              | act a k =>
                  simp only [hp] at hstep
                  cases hstep
  | reap c =>
      cases hc : s.proc c with
      | none =>
          simp only [hc] at hstep
          cases hstep
      | some C =>
          obtain ⟨status, fds, parent⟩ := C
          cases status with
          | shell _ | program _ =>
              simp only [hc] at hstep
              cases hstep
          | zombie =>
              cases parent with
              | some _ =>
                  simp only [hc] at hstep
                  cases hstep
              | none =>
                  simp only [hc] at hstep
                  cases hstep
                  exact ⟨_, _, _, h.reap hc⟩

theorem start_holds (shell : ι) (bufs : List Bytes) : Holds (LineLeaf bufs)
    (System.start shell bufs) := by
  have hsafe : Safe (LineLeaf bufs) (main bufs) ⟨given, linesFrom 0, 0⟩ := by
    refine main_safe bufs subset_rfl (fun _ _ _ hc => lineTree_standard hc)
      fun i buf c hbuf hcd hc argv T hleaf => ?_
    rw [Nat.zero_add] at hleaf
    exact ⟨i, buf, c, hbuf, hcd, hc, hleaf⟩
  have hchild : ∀ p c, ¬ (System.start shell bufs).IsChild p c := fun p c hc => by
    rw [System.IsChild, System.start] at hc
    dsimp only at hc
    split_ifs at hc
    · cases hc
    · cases hc
  refine ⟨∅, fun _ => 0, fun _ => ⟨given, linesFrom 0, 0⟩, Set.injOn_empty _, fun _ hx => hx.elim,
    fun _ _ _ _ hx => hx, fun p q hp hq hne => ?_, fun p P hP => ?_, fun p => ?_,
      fun p => hchild p p⟩
  · rw [System.start] at hp hq
    dsimp only at hp hq
    split_ifs at hp hq with hp' hq'
    · exact absurd (hp'.trans hq'.symm) hne
    · exact absurd rfl hq
    · exact absurd rfl hp
    · exact absurd rfl hp
  · rw [System.start] at hP
    dsimp only at hP
    split_ifs at hP
    cases hP
    refine .of_shell hsafe (fun fd t x ht hx => ?_) ?_
    · change (if fd < 3 then some (Target.given fd) else none) = some t at ht
      split_ifs at ht
      cases ht
      exact hx
    · funext fd
      change _ = (if fd < 3 then some (Target.given fd) else none).map _
      split_ifs <;> rfl
  · rw [filter_eq_empty_iff.mpr fun c _ => hchild p c, card_empty, ite_self]

/-- A process that has begun a command has the descriptors that the tree of its line says and no
children; a process that waits for others has no end of a pipe beside the standard descriptors; and
the shell reads the next line when the process of the last one is over. -/
theorem commands_wired {shell : ι} {bufs : List Bytes} (h : System.Reachable shell bufs s) :
    ∃ (made : Set Place) (num : Place → ℕ), Set.InjOn num made ∧ ∀ p P, s.proc p = some P →
      (∀ argv, P.status = .program argv → (∀ c, ¬ s.IsChild p c) ∧
        ∃ T, LineLeaf bufs argv T ∧ Std T ∧ Table.Within made T ∧ P.fds = Table.map num T) ∧
      (∀ k, P.status = .shell (.act .wait k) → Std P.fds) ∧
      ∀ k, P.status = .shell (.act .getcmd k) → Std P.fds ∧ ∀ c, ¬ s.IsChild p c := by
  have hholds : Holds (LineLeaf bufs) s := by
    apply h.invariant
    · rintro s rfl
      exact start_holds shell bufs
    · rintro s t _ hs ⟨a, ha⟩
      exact hs.step ha
  obtain ⟨made, num, view, hinv⟩ := hholds
  refine ⟨made, num, hinv.inj, fun p P hP => ?_⟩
  obtain ⟨hwithin, hfds, hshell, hprogram, -⟩ := hinv.keeps p P hP
  have hstd : Std (view p).fds → Std P.fds := fun hT => by
    rw [hfds]
    refine ⟨fun fd hfd => ?_, fun fd hfd => ?_⟩
    · rw [Table.map, ne_eq, Option.map_eq_none_iff]
      exact hT.low fd hfd
    · rw [Table.map, hT.high fd hfd]
      rfl
  have hkids : (view p).kids = 0 → ∀ c, ¬ s.IsChild p c := fun hzero => by
    have hcount := hinv.kids p
    rw [hP, if_neg (Option.some_ne_none P), hzero] at hcount
    exact not_of_card_filter_eq_zero hcount
  refine ⟨fun argv hargv => ?_, fun k hk => ?_, fun k hk => ?_⟩
  · obtain ⟨hL, hT, hzero⟩ := hprogram argv hargv
    exact ⟨hkids hzero, _, hL, hT, hwithin, hfds⟩
  · obtain ⟨R, hrule, -⟩ := hshell _ hk
    cases hrule with
    | wait hT => exact hstd hT
  · obtain ⟨R, hrule, -⟩ := hshell _ hk
    cases hrule with
    | getcmd hT hzero => exact ⟨hstd hT, hkids hzero⟩

/-- The command of a process. -/
def Process.command (P : Process ι) : Option (List Bytes) :=
  match P.status with
  | .program argv => some argv
  | _ => none

omit [DecidableEq ι] [Fintype ι] in
theorem Process.command_eq_some {argv : List Bytes} (h : P.command = some argv) :
    P.status = .program argv := by
  rw [Process.command] at h
  cases hstatus : P.status with
  | program _ =>
      rw [hstatus] at h
      cases h
      rfl
  | shell _ | zombie =>
      rw [hstatus] at h
      cases h

theorem commands_wired_pipe :
    ∃ (s : System (Fin 4)) (P : Process (Fin 4)) (T : Table Place) (num : Place → ℕ),
      System.Reachable 0 [ascii ['a', '|', 'b']] s ∧ s.proc 2 = some P ∧
        P.status = .program [ascii ['a']] ∧ LineLeaf [ascii ['a', '|', 'b']] [ascii ['a']] T ∧
        P.fds = Table.map num T := by
  have hrun : ((TransitionRuns.execute System.step (System.start (0 : Fin 4)
      [ascii ['a', '|', 'b']])
      [.run 0 true 0, .run 0 true 1, .run 1 true 0, .run 1 true 2, .run 2 true 0, .run 2 true 0,
        .run 2 true 0,
        .run 2 true 0, .run 2 true 0]).any fun s =>
          (s.proc 2).any fun P => P.command = some [ascii ['a']]) = true := by
    decide +kernel
  obtain ⟨s, hs, hany⟩ := (Option.any_eq_true _ _).mp hrun
  obtain ⟨P, hP, hcommand⟩ := (Option.any_eq_true _ _).mp hany
  have hstatus := Process.command_eq_some (of_decide_eq_true hcommand)
  have hreach : System.Reachable 0 [ascii ['a', '|', 'b']] s := .execute (.start rfl) hs
  obtain ⟨made, num, -, hall⟩ := commands_wired hreach
  obtain ⟨-, T, hleaf, -, -, hfds⟩ := (hall 2 P hP).1 _ hstatus
  exact ⟨s, P, T, num, hreach, hP, hstatus, hleaf, hfds⟩

end Shell

end Xv6Fairness
