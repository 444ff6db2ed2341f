import Mathlib.Data.Set.Function
import Mathlib.Order.CompletePartialOrder
import Xv6Fairness.Counting
import Xv6Fairness.ShellProcesses

/-!
# What the commands of a line are connected to

A command runs with the three standard descriptors and no others; they refer to the files and pipes
that its place in the tree of the line says, whatever the order in which the processes run and
whatever fails.
-/

namespace Xv6Fairness

namespace Shell

open ByteStrings ThreadPrograms Counting Finset

/-- A node of the tree of a line: the number of the line, and the way down. -/
abbrev Place := List ℕ

/-- The commands of a tree at a place, with the tables they run with. -/
inductive Leaf : Tree → Place → Table Place → List Bytes → Table Place → Prop
  | exec {arg : Bytes} {args : List Bytes} {x : Place} {T : Table Place} :
      Leaf (.exec (arg :: args)) x T (arg :: args) T
  | redir {cmd : Tree} {file : Bytes} {mode fd : ℕ} {x : Place} {T T' : Table Place}
      {argv : List Bytes}
      (h : Leaf cmd (x ++ [0]) (Function.update T fd (some (.file x file mode))) argv T') :
      Leaf (.redir cmd file mode fd) x T argv T'
  | pipeLeft {left right : Tree} {x : Place} {T T' : Table Place} {argv : List Bytes}
      (h : Leaf left (x ++ [0]) (Function.update T 1 (some (.pipe x true))) argv T') :
      Leaf (.pipe left right) x T argv T'
  | pipeRight {left right : Tree} {x : Place} {T T' : Table Place} {argv : List Bytes}
      (h : Leaf right (x ++ [1]) (Function.update T 0 (some (.pipe x false))) argv T') :
      Leaf (.pipe left right) x T argv T'
  | listLeft {left right : Tree} {x : Place} {T T' : Table Place} {argv : List Bytes}
      (h : Leaf left (x ++ [0]) T argv T') : Leaf (.list left right) x T argv T'
  | listRight {left right : Tree} {x : Place} {T T' : Table Place} {argv : List Bytes}
      (h : Leaf right (x ++ [1]) T argv T') : Leaf (.list left right) x T argv T'
  | back {cmd : Tree} {x : Place} {T T' : Table Place} {argv : List Bytes}
      (h : Leaf cmd (x ++ [0]) T argv T') : Leaf (.back cmd) x T argv T'

/-- The descriptors that the shell starts with. -/
def given {κ : Type} : Table κ := fun fd => if fd < 3 then some (.given fd) else none

/-- The commands of the lines. -/
def LineLeaf (bufs : List Bytes) (argv : List Bytes) (T : Table Place) : Prop :=
  ∃ (k : ℕ) (buf : Bytes) (c : Tree), bufs[k]? = some buf ∧ isCd buf = false ∧
    lineTree buf = some c ∧
    Leaf c [k] given argv T

section Tables

variable {κ μ : Type} {fds T : Table κ} {fd n : ℕ}

theorem fdalloc_eq (hn : n < NOFILE) (hfree : fds n = none) (hlow : ∀ m, m < n → fds m ≠ none) :
    fdalloc fds = some n := by
  rw [fdalloc, List.find?_range_eq_some]
  refine ⟨?_, List.mem_range.mpr hn, fun m hm => ?_⟩
  · rw [hfree]
    rfl
  · have hsome := Option.isSome_iff_ne_none.mpr (hlow m hm)
    rw [Bool.not_eq_true', Option.isNone_eq_false_iff]
    exact hsome

/-- The three standard descriptors are open and no others. -/
structure Std (T : Table κ) : Prop where
  low : ∀ fd, fd < 3 → T fd ≠ none
  high : ∀ fd, 3 ≤ fd → T fd = none

theorem given_std : Std (given : Table κ) := by
  refine ⟨fun fd h => ?_, fun fd h => if_neg (not_lt.mpr h)⟩
  rw [given, if_pos h]
  exact Option.some_ne_none _

variable (hT : Std T)

include hT

theorem Std.put {t : Target κ} (hfd : fd < 3) : Std (Function.update T fd (some t)) := by
  refine ⟨fun m hm => ?_, fun m hm => ?_⟩
  · rw [Function.update_apply]
    split_ifs
    · exact Option.some_ne_none t
    · exact hT.low m hm
  · rw [Function.update_of_ne (by omega)]
    exact hT.high m hm

theorem Std.fdalloc_close (hfd : fd < 3) : fdalloc (Function.update T fd none) = some fd := by
  refine fdalloc_eq (by rw [NOFILE]; omega) (Function.update_self _ _ _) fun m hm => ?_
  rw [Function.update_of_ne hm.ne]
  exact hT.low m (hm.trans hfd)

theorem Std.fdalloc_first : fdalloc T = some 3 :=
  fdalloc_eq (by decide) (hT.high 3 le_rfl) hT.low

theorem Std.fdalloc_second {t : Target κ} : fdalloc (Function.update T 3 (some t)) = some 4 := by
  refine fdalloc_eq (by decide) ?_ fun m hm => ?_
  · rw [Function.update_of_ne (by decide)]
    exact hT.high 4 (by decide)
  · rw [Function.update_apply]
    split_ifs with h
    · exact Option.some_ne_none t
    · exact hT.low m (by omega)

end Tables

theorem fdalloc_congr {κ μ : Type} {fds : Table κ} {fds' : Table μ}
    (h : ∀ fd, (fds fd).isNone = (fds' fd).isNone) : fdalloc fds = fdalloc fds' := by
  rw [fdalloc, fdalloc]
  simp only [h]

/-- The table by places, the places at which the process may still make an object, and the number of
its children. -/
structure View where
  fds : Table Place
  own : Set Place
  kids : ℕ

/-- Tables with which commands run, with their arguments. -/
abbrev Wiring := List Bytes → Table Place → Prop

inductive Rule (L : Wiring) (v : View) : (a : Call) → (a.Res → View → Prop) → Prop
  | close {fd : ℕ} : Rule L v (.close fd) fun _ w => w =
      { v with fds := Function.update v.fds fd none }
  | openFile {name : Bytes} {mode : ℕ} {x : Place} (h : x ∈ v.own) :
      Rule L v (.openFile name mode) fun r w => match r with
        | none => w = v
        | some fd => fdalloc v.fds = some fd ∧
            w = ⟨Function.update v.fds fd (some (.file x name mode)), v.own \ {x}, v.kids⟩
  | dup {fd fd' : ℕ} {t : Target Place} (h : v.fds fd = some t) (hfree : fdalloc v.fds = some fd') :
      Rule L v (.dup fd) fun _ w => w = { v with fds := Function.update v.fds fd' (some t) }
  | pipe {x : Place} (h : x ∈ v.own) :
      Rule L v .pipe fun r w => match r with
        | none => w = v
        | some (fd0, fd1) => fdalloc v.fds = some fd0 ∧
            fdalloc (Function.update v.fds fd0 (some (.pipe x false))) = some fd1 ∧
            w = ⟨Function.update (Function.update v.fds fd0 (some (.pipe x false))) fd1
              (some (.pipe x true)),
              v.own \ {x}, v.kids⟩
  | fork {A B : Set Place} (hA : A ⊆ v.own) (hB : B ⊆ v.own) (hAB : Disjoint A B) :
      Rule L v .fork fun r w => match r with
        | .failed => w = v
        | .child => w = ⟨v.fds, A, 0⟩
        | .parent => w = ⟨v.fds, B, v.kids + 1⟩
  | wait (h : Std v.fds) : Rule L v .wait fun _ w => w = { v with kids := v.kids - 1 }
  | exec {argv : List Bytes} (h : L argv v.fds) (hstd : Std v.fds) (hkids : v.kids = 0) :
      Rule L v (.exec argv) fun _ w => w = v
  | print {msg : Message} : Rule L v (.print msg) fun _ w => w = v
  | getcmd (hstd : Std v.fds) (hkids : v.kids = 0) : Rule L v .getcmd fun _ w => w = v

abbrev Safe (L : Wiring) (x : Script) (v : View) : Prop := x.Safe (Rule L) (fun _ _ => True) v

section Rules

variable {L : Wiring} {v : View} {child parent : Script} {x : Place}

theorem exit_safe : Safe L (pure ()) v := trivial

theorem panic_safe (s : String) : Safe L (panic s) v := ⟨_, .print, fun _ _ _ => trivial⟩

theorem fork1_safe {A B : Set Place} (hA : A ⊆ v.own) (hB : B ⊆ v.own) (hAB : Disjoint A B)
    (hchild : Safe L child ⟨v.fds, A, 0⟩) (hparent : Safe L parent ⟨v.fds, B, v.kids + 1⟩) :
    Safe L (fork1 child parent) v := by
  refine Prog.Safe.act (.fork hA hB hAB) fun r w hr => ?_
  cases r with
  | failed => exact panic_safe _
  | child =>
      rw [hr]
      exact hchild
  | parent =>
      rw [hr]
      exact hparent

/-- The places below a node. -/
def below (x : Place) : Set Place := {y | x <+: y}

theorem below_subset (i : ℕ) : below (x ++ [i]) ⊆ below x \ {x} := by
  rintro y ⟨t, rfl⟩
  refine ⟨⟨[i] ++ t, by rw [List.append_assoc]⟩, fun h => ?_⟩
  have hlen := congrArg List.length h
  rw [List.length_append, List.length_append, List.length_singleton] at hlen
  omega

theorem below_own {own : Set Place} (h : below x ⊆ own) (i : ℕ) : below (x ++ [i]) ⊆ own \ {x} :=
  fun _ hy => ⟨h (below_subset i hy).1, (below_subset i hy).2⟩

theorem below_disjoint : Disjoint (below (x ++ [0])) (below (x ++ [1])) := by
  rw [Set.disjoint_left]
  rintro y ⟨t, rfl⟩ ⟨t', h⟩
  rw [List.append_assoc, List.append_assoc] at h
  have hcons := List.append_cancel_left h
  exact absurd (List.cons.inj hcons).1 (by decide)

theorem mem_below : x ∈ below x := List.prefix_rfl

/-- The table behind a call of `pipe`. -/
def piped (T : Table Place) (x : Place) : Table Place :=
  Function.update (Function.update T 3 (some (.pipe x false))) 4 (some (.pipe x true))

theorem piped_of_lt {T : Table Place} {fd : ℕ} (h : fd < 3) : piped T x fd = T fd := by
  have h3 : fd ≠ 3 := by omega
  have h4 : fd ≠ 4 := by omega
  rw [piped, Function.update_of_ne h4, Function.update_of_ne h3]

theorem update_piped {T : Table Place} (hT : Std T) {n : ℕ} (hn : n < 3) {t : Target Place} :
    Function.update
    (Function.update (Function.update (Function.update (piped T x) n none) n (some t))
      3 none) 4 none = Function.update T n (some t) := by
  rw [Function.update_idem]
  funext fd
  simp only [Function.update_apply, piped]
  split_ifs <;> first | rfl | omega | exact (hT.high fd (by omega)).symm

theorem close_piped {T : Table Place} (hT : Std T) :
    Function.update (Function.update (piped T x) 3 none) 4 none = T := by
  funext fd
  simp only [Function.update_apply]
  split_ifs with h4 h3
  · exact (hT.high fd (by omega)).symm
  · exact (hT.high fd (by omega)).symm
  · rw [piped, Function.update_of_ne h4, Function.update_of_ne h3]

theorem connect_safe {T : Table Place} (hT : Std T) {n p : ℕ} {t : Target Place} {own : Set Place}
    {k : Script} (hn : n < 3) (hp : p = 3 ∨ p = 4) (ht : piped T x p = some t)
    (hk : Safe L k ⟨Function.update T n (some t), own, 0⟩) :
    Safe L (do
      call (.close n)
      let _ ← call (.dup p)
      call (.close 3)
      call (.close 4)
      k) ⟨piped T x, own, 0⟩ := by
  refine Prog.Safe.act .close ?_
  rintro _ _ rfl
  have hsame : Function.update (piped T x) n none p = some t := by
    rw [Function.update_of_ne (by omega), ht]
  have hfree : fdalloc (Function.update (piped T x) n none) = some n := by
    refine fdalloc_eq (by rw [NOFILE]; omega) (Function.update_self _ _ _) fun m hm => ?_
    rw [Function.update_of_ne hm.ne, piped_of_lt (by omega)]
    exact hT.low m (by omega)
  refine Prog.Safe.act (.dup hsame hfree) ?_
  rintro _ _ rfl
  refine Prog.Safe.act .close ?_
  rintro _ _ rfl
  refine Prog.Safe.act .close ?_
  rintro _ _ rfl
  dsimp only
  rwa [update_piped hT hn]

/-- Redirections are of standard descriptors. -/
def Tree.Standard : Tree → Prop
  | .exec _ => True
  | .redir cmd _ _ fd => cmd.Standard ∧ fd < 3
  | .pipe left right => left.Standard ∧ right.Standard
  | .list left right => left.Standard ∧ right.Standard
  | .back cmd => cmd.Standard

theorem runcmd_safe (c : Tree) {T : Table Place} {own : Set Place} (hc : c.Standard) (hT : Std T)
    (hL : ∀ argv T', Leaf c x T argv T' → L argv T') (hown : below x ⊆ own) :
    Safe L (runcmd c) ⟨T, own, 0⟩ := by
  induction c generalizing x T own with
  | exec argv =>
      cases argv with
      | nil => exact exit_safe
      | cons arg args =>
          refine Prog.Safe.act (.exec (hL _ _ .exec) hT rfl) ?_
          rintro _ _ rfl
          refine Prog.Safe.act .print ?_
          rintro _ _ rfl
          exact exit_safe
  | redir cmd file mode fd ih =>
      obtain ⟨hc, hfd⟩ := hc
      refine Prog.Safe.act .close ?_
      rintro _ _ rfl
      refine Prog.Safe.act (.openFile (hown mem_below)) ?_
      rintro r w hr
      cases r with
      | none =>
          refine Prog.Safe.act .print ?_
          rintro _ _ rfl
          exact exit_safe
      | some fd' =>
          obtain ⟨hfree, rfl⟩ := hr
          have heq := (hT.fdalloc_close hfd).symm.trans hfree
          obtain rfl := Option.some_inj.mp heq
          dsimp only
          rw [Function.update_idem]
          exact ih hc (hT.put hfd) (fun argv T' h => hL argv T' (.redir h)) (below_own hown 0)
  | list left right ihl ihr =>
      have hsub : ∀ i, below (x ++ [i]) ⊆ own := fun i => (below_own hown i).trans Set.sdiff_subset
      refine fork1_safe (hsub 0) (hsub 1) below_disjoint ?_ ?_
      · exact ihl hc.1 hT (fun argv T' h => hL argv T' (.listLeft h)) subset_rfl
      · refine Prog.Safe.act (.wait hT) ?_
        rintro _ _ rfl
        exact ihr hc.2 hT (fun argv T' h => hL argv T' (.listRight h)) subset_rfl
  | pipe left right ihl ihr =>
      refine Prog.Safe.act (.pipe (hown mem_below)) ?_
      rintro r w hr
      cases r with
      | none => exact panic_safe _
      | some fds =>
          obtain ⟨fd0, fd1⟩ := fds
          obtain ⟨h0, h1, rfl⟩ := hr
          obtain rfl := Option.some_inj.mp (hT.fdalloc_first.symm.trans h0)
          obtain rfl := Option.some_inj.mp (hT.fdalloc_second.symm.trans h1)
          refine fork1_safe (below_own hown 0) (below_own hown 1) below_disjoint ?_ ?_
          · refine connect_safe hT (by decide) (.inr rfl) (Function.update_self _ _ _) ?_
            exact ihl hc.1 (hT.put (by decide))
              (fun argv T' h => hL argv T' (.pipeLeft h)) subset_rfl
          · refine fork1_safe subset_rfl (Set.empty_subset _) (Set.disjoint_empty _) ?_ ?_
            · refine connect_safe (t := .pipe x false) hT (by decide) (.inl rfl) ?_ ?_
              · rw [piped, Function.update_of_ne (by decide), Function.update_self]
              · exact ihr hc.2 (hT.put (by decide))
                  (fun argv T' h => hL argv T' (.pipeRight h)) subset_rfl
            · refine Prog.Safe.act .close ?_
              rintro _ _ rfl
              refine Prog.Safe.act .close ?_
              rintro _ _ rfl
              have hclosed := close_piped (x := x) hT
              refine Prog.Safe.act (.wait (hclosed.symm ▸ hT)) ?_
              rintro _ _ rfl
              refine Prog.Safe.act (.wait (hclosed.symm ▸ hT)) ?_
              rintro _ _ rfl
              exact exit_safe
  | back cmd ih =>
      have hsub : below (x ++ [0]) ⊆ own := (below_own hown 0).trans Set.sdiff_subset
      refine fork1_safe hsub (Set.empty_subset _) (Set.disjoint_empty _) ?_ exit_safe
      exact ih hc hT (fun argv T' h => hL argv T' (.back h)) subset_rfl

/-- The places of the lines from the `k`-th on. -/
def linesFrom (k : ℕ) : Set Place := {y | ∃ j t, k ≤ j ∧ y = j :: t}

theorem main_safe (bufs : List Bytes) {k : ℕ} {own : Set Place} (hown : linesFrom k ⊆ own)
    (hstd : ∀ buf ∈ bufs, ∀ c, lineTree buf = some c → c.Standard)
    (hL : ∀ (i : ℕ) (buf : Bytes) (c : Tree), bufs[i]? = some buf → isCd buf = false →
      lineTree buf = some c →
      ∀ argv T, Leaf c [k + i] given argv T → L argv T) :
    Safe L (main bufs) ⟨given, own, 0⟩ := by
  induction bufs generalizing k own with
  | nil =>
      refine Prog.Safe.act (.getcmd given_std rfl) ?_
      rintro _ _ rfl
      exact exit_safe
  | cons buf bufs ih =>
      refine Prog.Safe.act (.getcmd given_std rfl) ?_
      rintro _ _ rfl
      have hnext : ∀ {own}, linesFrom (k + 1) ⊆ own → Safe L (main bufs) ⟨given, own, 0⟩ := by
        intro own hown
        refine ih hown (fun b hb => hstd b (List.mem_cons_of_mem buf hb)) fun i b c hb hcd hc argv
          T h => ?_
        rw [Nat.add_right_comm] at h
        exact hL (i + 1) b c hb hcd hc argv T h
      have hsub : linesFrom (k + 1) ⊆ linesFrom k := by
        rintro y ⟨j, t, hj, rfl⟩
        exact ⟨j, t, by omega, rfl⟩
      have hline : below [k] ⊆ linesFrom k := by
        rintro y ⟨t, rfl⟩
        exact ⟨k, t, le_rfl, rfl⟩
      have hapart : Disjoint (below [k]) (linesFrom (k + 1)) := by
        rw [Set.disjoint_left]
        rintro y ⟨t, rfl⟩ ⟨j, t', hj, h⟩
        have hhead := (List.cons.inj h).1
        omega
      cases hcd : isCd buf with
      | true => exact hnext (hsub.trans hown)
      | false =>
          rw [if_neg Bool.false_ne_true]
          refine fork1_safe (hline.trans hown) (hsub.trans hown) hapart ?_ ?_
          · cases hc : lineTree buf with
            | none => exact exit_safe
            | some c =>
                refine runcmd_safe c (hstd buf List.mem_cons_self c hc) given_std
                  (fun argv T h => ?_) subset_rfl
                exact hL 0 buf c rfl hcd hc argv T h
          · refine Prog.Safe.act (.wait given_std) ?_
            rintro _ _ rfl
            exact hnext subset_rfl

end Rules

section Parsed

variable {ts : List Token} {rs : List Redir} {ws : List Bytes} {c : Tree}

theorem Redirs.standard (h : Redirs ts rs) : ∀ r ∈ rs, r.fd < 3 := by
  induction h with
  | nil => exact fun r hr => absurd hr List.not_mem_nil
  | input _ ih | output _ ih | append _ ih =>
      intro r hr
      rcases List.mem_cons.mp hr with rfl | hr
      · simp
      · exact ih r hr

theorem Words.standard (h : Words ts ws rs) : ∀ r ∈ rs, r.fd < 3 := by
  induction h with
  | nil => exact fun r hr => absurd hr List.not_mem_nil
  | cons hr _ ih => exact fun r hmem => (List.mem_append.mp hmem).elim (hr.standard r) (ih r)

theorem wrap_standard (hc : c.Standard) (hrs : ∀ r ∈ rs, r.fd < 3) : (c.wrap rs).Standard := by
  induction rs generalizing c with
  | nil => exact hc
  | cons r rs ih =>
      exact ih (c := .redir c r.file r.mode r.fd) ⟨hc, hrs r List.mem_cons_self⟩
        fun r' hr' => hrs r' (List.mem_cons_of_mem r hr')

theorem back_standard (hc : c.Standard) (n : ℕ) : (Tree.back^[n] c).Standard := by
  induction n with
  | zero => exact hc
  | succ n ih =>
      rw [Function.iterate_succ_apply']
      exact ih

theorem Derives.standard {N : Nonterminal} (h : Derives N ts c) : c.Standard := by
  induction h with
  | last n _ ih => exact back_standard ih n
  | seq n _ _ ih ih' => exact ⟨back_standard ih n, ih'⟩
  | single _ ih => exact ih
  | pipe _ _ ih ih' => exact ⟨ih, ih'⟩
  | block _ hr ih => exact wrap_standard ih hr.standard
  | exec hr hw _ =>
      exact wrap_standard trivial fun r hmem => (List.mem_append.mp hmem).elim (hr.standard r)
        (hw.standard r)

theorem lineTree_standard {buf : Bytes} (h : lineTree buf = some c) : c.Standard := by
  have hzero : (0 : UInt8) ∉ cString buf := fun hmem => by
    have hne := List.mem_takeWhile_imp hmem
    exact of_decide_eq_true hne rfl
  obtain ⟨ts, hts⟩ := exists_tokens (cString buf)
  rw [lineTree] at h
  cases hparse : parsecmd (cString buf) with
  | error e =>
      rw [hparse] at h
      cases h
  | ok r =>
      rw [hparse] at h
      obtain ⟨T, hT, hread⟩ := (parsecmd_ends hzero hts).of_ok hparse
      have heq : r.1.read r.2 = c := Option.some_inj.mp h
      rw [← heq, hread]
      exact hT.standard

end Parsed

end Shell

end Xv6Fairness
