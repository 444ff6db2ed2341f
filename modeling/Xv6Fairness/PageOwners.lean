import Xv6Fairness.PageViews

/-!
# Every page in one place

The views of all processes and the memory say where each page is: free, in a pipe that is open, or
somewhere in the view of one process. Each action keeps every page in one place.
-/

namespace Xv6Fairness

open ThreadPrograms ExclusivePlaces
open VirtualMemory (PDX PTX Pte PageTable stopFrame)

namespace SharedMemory

inductive Place
  | free
  | pipe
  | thread (p : Fin NPROC) (u : Mine)

def Holds (view : Fin NPROC → View) (m : Memory) (f : ℕ) : Place → Prop
  | .free => f ∈ m.freelist
  | .pipe => ∃ P, m.pipe f = some P ∧ P.closed = false
  | .thread p u => (view p).Has f u

inductive End
  | file (i : Fin NFILE)
  | thread (p : Fin NPROC)

/-- The end of a pipe belongs to a file, or to a process that opens or closes it. -/
def EndHolds (view : Fin NPROC → View) (m : Memory) (x : ℕ × Bool) : End → Prop
  | .file i => (m.file i).pipe = some x
  | .thread p => x ∈ (view p).claims.ends

def View.pgdir (v : View) (d : ℕ) : Option Pgdir := (v.tree d).map Tree.dir

structure PageInv (view : Fin NPROC → View) (m : Memory) : Prop where
  places : Exclusive (Holds view m)
  nodup : m.freelist.Nodup
  dirs : ∀ d c, m.pgdir d = some c ↔ ∃ p, (view p).pgdir d = some c
  shut : ∀ f P, m.pipe f = some P → P.closed = true → ∃ p, (view p).claims.buffer = some f

structure EndInv (view : Fin NPROC → View) (m : Memory) : Prop where
  ends : Exclusive (EndHolds view m)
  opened : ∀ x e, EndHolds view m x e → ∃ P, m.pipe x.1 = some P ∧ P.isOpen x.2 = true

variable {endFrame : ℕ} {view : Fin NPROC → View} {m m' : Memory} {p q : Fin NPROC} {v w : View}
  {f g d : ℕ} {u b : Mine} {T : Tree}

section Views

theorem View.Has.of_take (h : (v.take f).Has g u) : v.Has g u ∨ g = f ∧ u = .hand := by
  cases h with
  | hand h =>
      rcases h with rfl | h
      · exact .inr ⟨rfl, rfl⟩
      · exact .inl (.hand h)
  | dir h => exact .inl (.dir h)
  | leaf h hl hs => exact .inl (.leaf h hl hs)
  | kstack h hne hs => exact .inl (.kstack h hne hs)
  | buffer h => exact .inl (.buffer h)

theorem View.Has.of_drop (h : (v.drop f).Has g u) : v.Has g u ∧ (g = f → u ≠ .hand) := by
  cases h with
  | hand h => exact ⟨.hand h.1, fun heq => absurd heq h.2⟩
  | dir h => exact ⟨.dir h, fun _ => nofun⟩
  | leaf h hl hs => exact ⟨.leaf h hl hs, fun _ => nofun⟩
  | kstack h hne hs => exact ⟨.kstack h hne hs, fun _ => nofun⟩
  | buffer h => exact ⟨.buffer h, fun _ => nofun⟩

theorem View.Has.of_setTree {T' : Option Tree} (h : (v.setTree d T').Has g u) :
    (∃ T, T' = some T ∧ ((g = d ∧ u = .dir) ∨ ∃ l, u = .leaf d l ∧ T.Has g l ∧
      ∀ x, v.stale = some x → x.mine ≠ .leaf d l)) ∨
    v.Has g u ∧ (g = d → u ≠ .dir) ∧ ∀ l, u ≠ .leaf d l := by
  cases h with
  | hand h => exact .inr ⟨.hand h, fun _ => nofun, fun _ => nofun⟩
  | dir h =>
      by_cases hg : g = d
      · subst hg
        exact .inl ⟨_, View.setTree_self.symm.trans h, .inl ⟨rfl, rfl⟩⟩
      · exact .inr ⟨.dir ((View.setTree_of_ne hg).symm.trans h), fun heq => absurd heq hg,
          fun _ => nofun⟩
  | @leaf d' _ _ l h hl hs =>
      by_cases hd : d' = d
      · subst hd
        exact .inl ⟨_, View.setTree_self.symm.trans h, .inr ⟨l, rfl, hl, hs⟩⟩
      · exact .inr ⟨.leaf ((View.setTree_of_ne hd).symm.trans h) hl hs, fun _ => nofun,
          fun l' heq => hd (Mine.leaf.inj heq).1⟩
  | kstack h hne hs => exact .inr ⟨.kstack h hne hs, fun _ => nofun, fun _ => nofun⟩
  | buffer h => exact .inr ⟨.buffer h, fun _ => nofun, fun _ => nofun⟩

theorem View.Has.of_setKnown {k : Fin NPROC} {e : Option Known} (h : (v.setKnown k e).Has g u) :
    (∃ e', e = some e' ∧ e'.kstack ≠ 0 ∧ g = e'.kstack ∧ u = .kstack k ∧
      ∀ x, v.stale = some x → x.mine ≠ .kstack k) ∨
    v.Has g u ∧ u ≠ .kstack k := by
  cases h with
  | hand h => exact .inr ⟨.hand h, nofun⟩
  | dir h => exact .inr ⟨.dir h, nofun⟩
  | leaf h hl hs => exact .inr ⟨.leaf h hl hs, nofun⟩
  | @kstack k' e' h hne hs =>
      by_cases hk : k' = k
      · subst hk
        exact .inl ⟨e', View.setKnown_self.symm.trans h, hne, rfl, rfl, hs⟩
      · exact .inr ⟨.kstack ((View.setKnown_of_ne hk).symm.trans h) hne hs,
          fun heq => hk (Mine.kstack.inj heq)⟩
  | buffer h => exact .inr ⟨.buffer h, nofun⟩

theorem View.Has.of_setBuffer {b : Option ℕ} (h : (v.setBuffer b).Has g u) :
    (b = some g ∧ u = .buffer) ∨ v.Has g u ∧ u ≠ .buffer := by
  cases h with
  | hand h => exact .inr ⟨.hand h, nofun⟩
  | dir h => exact .inr ⟨.dir h, nofun⟩
  | leaf h hl hs => exact .inr ⟨.leaf h hl hs, nofun⟩
  | kstack h hne hs => exact .inr ⟨.kstack h hne hs, nofun⟩
  | buffer h => exact .inl ⟨h, rfl⟩

theorem View.Has.congr (h : w.Has g u) (hhand : w.hand = v.hand) (htree : w.tree = v.tree)
    (hstale : w.stale = v.stale) (hknown : w.claims.known = v.claims.known)
    (hbuffer : w.claims.buffer = v.claims.buffer) : v.Has g u := by
  cases h with
  | hand h => exact .hand (hhand ▸ h)
  | dir h => exact .dir (htree ▸ h)
  | leaf h hl hs => exact .leaf (htree ▸ h) hl (hstale ▸ hs)
  | kstack h hne hs => exact .kstack (hknown ▸ h) hne (hstale ▸ hs)
  | buffer h => exact .buffer (hbuffer ▸ h)

theorem View.Has.of_setStale {x : Stale} (hv : v.stale = none) (h : (v.setStale (some x)).Has g u) :
    v.Has g u ∧ u ≠ x.mine := by
  have hnone : ∀ {u : Mine} y, v.stale = some y → y.mine ≠ u := fun y hy => by
    rw [hv] at hy
    cases hy
  cases h with
  | hand h => exact ⟨.hand h, by cases x <;> exact nofun⟩
  | dir h => exact ⟨.dir h, by cases x <;> exact nofun⟩
  | leaf h hl hs => exact ⟨.leaf h hl hnone, (hs x rfl).symm⟩
  | kstack h hne hs => exact ⟨.kstack h hne hnone, (hs x rfl).symm⟩
  | buffer h => exact ⟨.buffer h, by cases x <;> exact nofun⟩

end Views

theorem Holds.of_update {o : Place} (h : Holds (Function.update view p w) m f o) :
    (∃ u, o = .thread p u ∧ w.Has f u) ∨ Holds view m f o ∧ ∀ u, o ≠ .thread p u := by
  cases o with
  | free => exact .inr ⟨h, nofun⟩
  | pipe => exact .inr ⟨h, nofun⟩
  | thread q u =>
      change (Function.update view p w q).Has f u at h
      by_cases hq : q = p
      · subst hq
        rw [Function.update_self] at h
        exact .inl ⟨u, rfl, h⟩
      · rw [Function.update_of_ne hq] at h
        exact .inr ⟨h, fun u' heq => hq (Place.thread.inj heq).1⟩

theorem holds_self {u : Mine} (h : (view p).Has f u) : Holds view m f (.thread p u) := h

namespace PageInv

variable (h : PageInv view m)

include h

theorem pgdir_none (hd : (view p).Has d u) (hq : q ≠ p) : (view q).pgdir d = none := by
  rw [View.pgdir, Option.map_eq_none_iff]
  cases hT : (view q).tree d with
  | none => rfl
  | some T =>
      have heq := h.places d (.thread q .dir) (.thread p u) (.dir hT) hd
      exact absurd (Place.thread.inj heq).1 hq

theorem unique (hu : (view p).Has f u) (hu' : (view p).Has f b) : u = b :=
  (Place.thread.inj (h.places f (.thread p u) (.thread p b) hu hu')).2

theorem dirs_update (hd : ∀ q, q ≠ p → (view q).pgdir d = none)
    (hw : ∀ e, e ≠ d → w.pgdir e = (view p).pgdir e) (hm : ∀ e, e ≠ d → m'.pgdir e = m.pgdir e)
    (hself : m'.pgdir d = w.pgdir d) (e : ℕ) (c : Pgdir) :
    m'.pgdir e = some c ↔ ∃ q, (Function.update view p w q).pgdir e = some c := by
  by_cases he : e = d
  · subst he
    rw [hself]
    constructor
    · intro hc
      exact ⟨p, by rwa [Function.update_self]⟩
    · rintro ⟨q, hq⟩
      by_cases hqp : q = p
      · rwa [hqp, Function.update_self] at hq
      · rw [Function.update_of_ne hqp, hd q hqp] at hq
        cases hq
  · rw [hm e he, h.dirs e c]
    constructor
    · rintro ⟨q, hq⟩
      by_cases hqp : q = p
      · subst hqp
        exact ⟨q, by rwa [Function.update_self, hw e he]⟩
      · exact ⟨q, by rwa [Function.update_of_ne hqp]⟩
    · rintro ⟨q, hq⟩
      by_cases hqp : q = p
      · subst hqp
        rw [Function.update_self, hw e he] at hq
        exact ⟨q, hq⟩
      · rw [Function.update_of_ne hqp] at hq
        exact ⟨q, hq⟩

theorem dirs_same (hw : w.tree = (view p).tree) (hm : m'.pgdir = m.pgdir) (e : ℕ) (c : Pgdir) :
    m'.pgdir e = some c ↔ ∃ q, (Function.update view p w q).pgdir e = some c := by
  have hall : ∀ q, (Function.update view p w q).pgdir = (view q).pgdir := by
    intro q
    by_cases hq : q = p
    · subst hq
      rw [Function.update_self]
      funext e
      rw [View.pgdir, View.pgdir, hw]
    · rw [Function.update_of_ne hq]
  rw [hm, h.dirs e c]
  exact exists_congr fun q => by rw [hall]

theorem shut_same (hw : ∀ f, (view p).claims.buffer = some f → w.claims.buffer = some f)
    (hm : m'.pipe = m.pipe) (f : ℕ) (P : Pipe) (hP : m'.pipe f = some P)
    (hclosed : P.closed = true) :
    ∃ q, (Function.update view p w q).claims.buffer = some f := by
  rw [hm] at hP
  obtain ⟨q, hq⟩ := h.shut f P hP hclosed
  by_cases hqp : q = p
  · subst hqp
    exact ⟨q, by rw [Function.update_self]; exact hw f hq⟩
  · exact ⟨q, by rwa [Function.update_of_ne hqp]⟩

theorem places_mono (hfree : ∀ f ∈ m'.freelist, f ∈ m.freelist)
    (hpipe : ∀ f P, m'.pipe f = some P → P.closed = false → Holds view m f .pipe)
    (hw : ∀ f u, w.Has f u → (view p).Has f u) :
    Exclusive (Holds (Function.update view p w) m') := by
  refine h.places.mono fun f o hf => ?_
  rcases Holds.of_update hf with ⟨u, rfl, hu⟩ | ⟨hf, -⟩
  · exact hw f u hu
  · cases o with
    | free => exact hfree f hf
    | pipe =>
        obtain ⟨P, hP, hclosed⟩ := hf
        exact hpipe f P hP hclosed
    | thread q u => exact hf

theorem places_move (hu : (view p).Has f u) (hfree : m'.freelist = m.freelist)
    (hpipe : ∀ g P, m'.pipe g = some P → P.closed = false → Holds view m g .pipe)
    (hw : ∀ g u₁, w.Has g u₁ → (view p).Has g u₁ ∧ (g = f → u₁ ≠ u) ∨ g = f ∧ u₁ = b) :
    Exclusive (Holds (Function.update view p w) m') := by
  refine h.places.move (e := .thread p b) (holds_self hu) fun g o hg => ?_
  rcases Holds.of_update hg with ⟨u₁, rfl, hu₁⟩ | ⟨hg, hne⟩
  · rcases hw g u₁ hu₁ with ⟨hold, hne⟩ | ⟨rfl, rfl⟩
    · exact .inl ⟨hold, fun hgf heq => hne hgf (Place.thread.inj heq).2⟩
    · exact .inr ⟨rfl, rfl⟩
  · refine .inl ⟨?_, fun _ => hne u⟩
    cases o with
    | free =>
        change g ∈ m'.freelist at hg
        rw [hfree] at hg
        exact hg
    | pipe =>
        obtain ⟨P, hP, hclosed⟩ := hg
        exact hpipe g P hP hclosed
    | thread q u₁ => exact hg

theorem kalloc {rest : List ℕ} (hfree : m.freelist = f :: rest) :
    f ∉ (view p).hand ∧ (view p).tree f = none ∧
      PageInv (Function.update view p ((view p).take f)) { m with freelist := rest } := by
  have hnodup := h.nodup
  rw [hfree, List.nodup_cons] at hnodup
  have hf : f ∈ m.freelist := by
    rw [hfree]
    exact List.mem_cons_self
  refine ⟨fun hhand => ?_, ?_, ?_, hnodup.2, h.dirs_same rfl rfl, h.shut_same (fun _ hf => hf) rfl⟩
  · cases h.places f .free (.thread p .hand) hf (.hand hhand)
  · cases hT : (view p).tree f with
    | none => rfl
    | some T => cases h.places f .free (.thread p .dir) hf (.dir hT)
  · refine h.places.move (b := .free) (e := .thread p .hand) hf fun g o hg => ?_
    rcases Holds.of_update hg with ⟨u, rfl, hu⟩ | ⟨hg, -⟩
    · rcases hu.of_take with hu | ⟨rfl, rfl⟩
      · exact .inl ⟨hu, fun _ => nofun⟩
      · exact .inr ⟨rfl, rfl⟩
    · cases o with
      | free =>
          have hmem : g ∈ m.freelist := by
            rw [hfree]
            exact List.mem_cons_of_mem f hg
          refine .inl ⟨hmem, ?_⟩
          rintro rfl
          exact absurd hg hnodup.1
      | pipe => exact .inl ⟨hg, fun _ => nofun⟩
      | thread q u => exact .inl ⟨hg, fun _ => nofun⟩

theorem kfree (hu : (view p).Has f u)
    (hw : ∀ g u₁, w.Has g u₁ → (view p).Has g u₁ ∧ (g = f → u₁ ≠ u))
    (htree : ∀ d, d ≠ f → w.pgdir d = (view p).pgdir d)
    (hbuffer : ∀ g, (view p).claims.buffer = some g → g ≠ f → w.claims.buffer = some g) :
    PageInv (Function.update view p w) (m.free f) := by
  have hnone : w.tree f = none := by
    cases hT : w.tree f with
    | none => rfl
    | some T =>
        have hdir := hw f .dir (.dir hT)
        exact absurd (h.unique hdir.1 hu) (hdir.2 rfl)
  refine ⟨?_, ?_, ?_, ?_⟩
  · refine h.places.move (e := .free) (holds_self hu) fun g o hg => ?_
    rcases Holds.of_update hg with ⟨u₁, rfl, hu₁⟩ | ⟨hg, hne⟩
    · obtain ⟨hold, hne⟩ := hw g u₁ hu₁
      exact .inl ⟨hold, fun hgf heq => hne hgf (Place.thread.inj heq).2⟩
    · cases o with
      | free =>
          rcases List.mem_cons.mp hg with rfl | hg
          · exact .inr ⟨rfl, rfl⟩
          · exact .inl ⟨hg, fun _ => nofun⟩
      | pipe =>
          obtain ⟨P, hP, hclosed⟩ := hg
          by_cases hgf : g = f
          · subst hgf
            rw [Memory.free_pipe_self] at hP
            cases hP
          · rw [Memory.free_pipe_of_ne hgf] at hP
            exact .inl ⟨⟨P, hP, hclosed⟩, fun _ => nofun⟩
      | thread q u₁ => exact .inl ⟨hg, fun _ => hne u⟩
  · refine List.nodup_cons.mpr ⟨fun hmem => ?_, h.nodup⟩
    cases h.places f .free (.thread p u) hmem hu
  · refine h.dirs_update (d := f) (fun q hq => h.pgdir_none hu hq) htree
      (fun e he => Function.update_of_ne he _ _) ?_
    rw [Memory.free_pgdir_self, View.pgdir, hnone]
    rfl
  · intro g P hP hclosed
    by_cases hgf : g = f
    · subst hgf
      rw [Memory.free_pipe_self] at hP
      cases hP
    · rw [Memory.free_pipe_of_ne hgf] at hP
      obtain ⟨q, hq⟩ := h.shut g P hP hclosed
      by_cases hqp : q = p
      · subst hqp
        exact ⟨q, by rw [Function.update_self]; exact hbuffer g hq hgf⟩
      · exact ⟨q, by rwa [Function.update_of_ne hqp]⟩

theorem setTree (hd : (view p).Has d u) (hw : w.tree = Function.update (view p).tree d (some T))
    (hbuffer : w.claims.buffer = (view p).claims.buffer) (hm : m' = m.setPgdir d (some T.dir))
    (hplaces : Exclusive (Holds (Function.update view p w) m')) :
    PageInv (Function.update view p w) m' := by
  subst hm
  refine ⟨hplaces, h.nodup, h.dirs_update (d := d) (fun q hq => h.pgdir_none hd hq) ?_
    (fun e he => Function.update_of_ne he _ _) ?_, h.shut_same (fun _ hf => hbuffer ▸ hf) rfl⟩
  · intro e he
    rw [View.pgdir, hw, Function.update_of_ne he]
    rfl
  · rw [Memory.setPgdir_self, View.pgdir, hw, Function.update_self]
    rfl

end PageInv

theorem Pgdir.entry_setPte (c : Pgdir) (a : ℕ) (q : Option Pte) (i k : ℕ) :
    (c.setPte a q).entry i k =
      if i = PDX a ∧ k = PTX a then (c.tables i).bind fun _ => q else c.entry i k := by
  by_cases hi : i = PDX a
  · subst hi
    rw [Pgdir.entry, Pgdir.entry, Pgdir.setPte]
    dsimp only
    rw [Function.update_self]
    cases c.tables (PDX a) with
    | none =>
        split_ifs
        · rfl
        · rfl
    | some t =>
        by_cases hk : k = PTX a
        · rw [if_pos ⟨rfl, hk⟩, Option.map_some, Option.bind_some, Option.bind_some,
            PageTable.set_pte,
            if_pos hk]
        · rw [if_neg fun h => hk h.2, Option.map_some, Option.bind_some, Option.bind_some,
            PageTable.set_pte, if_neg hk]
  · rw [if_neg fun h => hi h.1, Pgdir.entry, Pgdir.entry, Pgdir.setPte]
    dsimp only
    rw [Function.update_of_ne hi]

theorem Pgdir.frame_setPte (c : Pgdir) (a : ℕ) (q : Option Pte) (i : ℕ) :
    ((c.setPte a q).tables i).map PageTable.frame = (c.tables i).map PageTable.frame := by
  rw [Pgdir.setPte]
  dsimp only
  by_cases hi : i = PDX a
  · rw [hi, Function.update_self, Option.map_map]
    rfl
  · rw [Function.update_of_ne hi]

theorem Tree.Has.of_setPte {a : ℕ} {q : Option Pte} {l : Leaf} {n : ℕ}
    (h : Tree.Has ⟨T.dir.setPte a q, n⟩ g l) (hn : n = T.freed) :
    T.Has g l ∧ l ≠ .user (PDX a) (PTX a) ∨
      l = .user (PDX a) (PTX a) ∧ PDX a < userTables ∧ ∃ x, q = some x ∧ x.frame = g := by
  cases h with
  | @user i k x hi hx =>
      rw [Pgdir.entry_setPte] at hx
      split_ifs at hx with hik
      · obtain ⟨rfl, rfl⟩ := hik
        obtain ⟨t, -, rfl⟩ := Option.bind_eq_some_iff.mp hx
        exact .inr ⟨rfl, hi, x, rfl, rfl⟩
      · exact .inl ⟨.user hi hx, fun heq => hik ⟨(Leaf.user.inj heq).1, (Leaf.user.inj heq).2⟩⟩
  | @table i t ht hi =>
      have hframe := T.dir.frame_setPte a q i
      change (T.dir.setPte a q).tables i = some t at ht
      rw [ht] at hframe
      obtain ⟨t', ht', heq⟩ := Option.map_eq_some_iff.mp hframe.symm
      rw [← heq]
      exact .inl ⟨.table ht' (hn ▸ hi), nofun⟩

theorem Tree.Has.of_setPde {i : ℕ} {l : Leaf} (h : Tree.Has ⟨T.dir.setPde i f, T.freed⟩ g l) :
    T.Has g l ∧ l ≠ .table i ∨ g = f ∧ l = .table i := by
  cases h with
  | @user j k x hj hx =>
      rw [Pgdir.entry, Pgdir.setPde] at hx
      dsimp only at hx
      by_cases hji : j = i
      · rw [hji, Function.update_self] at hx
        cases hx
      · rw [Function.update_of_ne hji] at hx
        exact .inl ⟨.user hj hx, nofun⟩
  | @table j t ht hj =>
      change Function.update T.dir.tables i _ j = some t at ht
      by_cases hji : j = i
      · rw [hji, Function.update_self] at ht
        cases ht
        exact .inr ⟨rfl, hji ▸ rfl⟩
      · rw [Function.update_of_ne hji] at ht
        exact .inl ⟨.table ht hj, fun heq => hji (Leaf.table.inj heq)⟩

namespace PageInv

variable (h : PageInv view m)

include h

theorem store_hand (hd : (view p).Has d u) (hf : f ∈ (view p).hand)
    (hm : m' = m.setPgdir d (some T.dir))
    (hw : ∀ g u₁, (((view p).drop f).setTree d (some T)).Has g u₁ →
      (view p).Has g u₁ ∧ (g = f → u₁ ≠ .hand) ∨ g = f ∧ u₁ = b) :
    PageInv (Function.update view p (((view p).drop f).setTree d (some T))) m' := by
  refine h.setTree hd rfl rfl hm (h.places_move (.hand hf) ?_ ?_ hw)
  · rw [hm]
    rfl
  · intro g P hP hclosed
    rw [hm] at hP
    exact ⟨P, hP, hclosed⟩

theorem newPgdir (hd : d ∈ (view p).hand) :
    PageInv (Function.update view p (((view p).drop d).setTree d (some ⟨⟨fun _ => none, true⟩, 0⟩)))
      (m.setPgdir d (some ⟨fun _ => none, true⟩)) := by
  refine h.store_hand (b := .dir) (.hand hd) hd rfl fun g u₁ hu₁ => ?_
  rcases hu₁.of_setTree with ⟨T, hT, ⟨rfl, rfl⟩ | ⟨l, rfl, hl, -⟩⟩ | ⟨hu₁, -, -⟩
  · exact .inr ⟨rfl, rfl⟩
  · cases hT
    cases hl with
    | user hi hq => cases hq
    | table ht hi => cases ht
  · exact .inl hu₁.of_drop

theorem setPde {i : ℕ} (hT : (view p).tree d = some T) (hf : f ∈ (view p).hand) :
    PageInv (Function.update view p
      (((view p).drop f).setTree d (some ⟨T.dir.setPde i f, T.freed⟩)))
      (m.setPgdir d (some (T.dir.setPde i f))) := by
  refine h.store_hand (b := .leaf d (.table i)) (.dir hT) hf rfl fun g u₁ hu₁ => ?_
  rcases hu₁.of_setTree with ⟨T', hT', ⟨rfl, rfl⟩ | ⟨l, rfl, hl, hs⟩⟩ | ⟨hu₁, -, -⟩
  · exact .inl ⟨.dir hT, fun _ => nofun⟩
  · cases hT'
    rcases hl.of_setPde with ⟨hl, -⟩ | ⟨rfl, rfl⟩
    · exact .inl ⟨.leaf hT hl hs, fun _ => nofun⟩
    · exact .inr ⟨rfl, rfl⟩
  · exact .inl hu₁.of_drop

theorem map {a : ℕ} {x : Pte} (hT : (view p).tree d = some T) (hx : x.frame ∈ (view p).hand) :
    PageInv (Function.update view p
        (((view p).drop x.frame).setTree d (some ⟨T.dir.setPte a (some x), T.freed⟩)))
      (m.setPgdir d (some (T.dir.setPte a (some x)))) := by
  refine h.store_hand (b := .leaf d (.user (PDX a) (PTX a))) (.dir hT) hx rfl fun g u₁ hu₁ => ?_
  rcases hu₁.of_setTree with ⟨T', hT', ⟨rfl, rfl⟩ | ⟨l, rfl, hl, hs⟩⟩ | ⟨hu₁, -, -⟩
  · exact .inl ⟨.dir hT, fun _ => nofun⟩
  · cases hT'
    rcases hl.of_setPte rfl with ⟨hl, -⟩ | ⟨rfl, -, y, hy, rfl⟩
    · exact .inl ⟨.leaf hT hl hs, fun _ => nofun⟩
    · cases hy
      exact .inr ⟨rfl, rfl⟩
  · exact .inl hu₁.of_drop

theorem rewrite {X : Tree} (hT : (view p).tree d = some T)
    (hw : w.tree = Function.update (view p).tree d (some X))
    (hbuffer : w.claims.buffer = (view p).claims.buffer)
    (hhas : ∀ g u₁, w.Has g u₁ → (view p).Has g u₁) :
    PageInv (Function.update view p w) (m.setPgdir d (some X.dir)) :=
  h.setTree (.dir hT) hw hbuffer rfl (h.places_mono (fun _ hf => hf)
    (fun _ P hP hc => ⟨P, hP, hc⟩) hhas)

theorem mapKernel {a : ℕ} {x : Option Pte} (hT : (view p).tree d = some T)
    (ha : userTables ≤ PDX a) :
    PageInv (Function.update view p ((view p).setTree d (some ⟨T.dir.setPte a x, T.freed⟩)))
      (m.setPgdir d (some (T.dir.setPte a x))) := by
  refine h.rewrite (X := ⟨T.dir.setPte a x, T.freed⟩) hT rfl rfl fun g u₁ hu₁ => ?_
  rcases hu₁.of_setTree with ⟨T', hT', ⟨rfl, rfl⟩ | ⟨l, rfl, hl, hs⟩⟩ | ⟨hu₁, -, -⟩
  · exact .dir hT
  · cases hT'
    rcases hl.of_setPte rfl with ⟨hl, -⟩ | ⟨-, hlt, -⟩
    · exact .leaf hT hl hs
    · exact absurd ha (not_le.mpr hlt)
  · exact hu₁

theorem protect {a : ℕ} {x : Option Pte} (hT : (view p).tree d = some T)
    (hx : x.map Pte.frame = (T.dir.pte a).map Pte.frame) :
    PageInv (Function.update view p ((view p).setTree d (some ⟨T.dir.setPte a x, T.freed⟩)))
      (m.setPgdir d (some (T.dir.setPte a x))) := by
  refine h.rewrite (X := ⟨T.dir.setPte a x, T.freed⟩) hT rfl rfl fun g u₁ hu₁ => ?_
  rcases hu₁.of_setTree with ⟨T', hT', ⟨rfl, rfl⟩ | ⟨l, rfl, hl, hs⟩⟩ | ⟨hu₁, -, -⟩
  · exact .dir hT
  · cases hT'
    rcases hl.of_setPte rfl with ⟨hl, -⟩ | ⟨rfl, hlt, y, rfl, rfl⟩
    · exact .leaf hT hl hs
    · obtain ⟨z, hz, heq⟩ := Option.map_eq_some_iff.mp hx.symm
      rw [← heq]
      exact .leaf hT (.user hlt hz) hs
  · exact hu₁

theorem retire (hT : (view p).tree d = some T) (hlive : T.dir.live = true) :
    PageInv (Function.update view p ((view p).setTree d (some ⟨{ T.dir with live := false }, 0⟩)))
      (m.setPgdir d (some { T.dir with live := false })) := by
  refine h.rewrite (X := ⟨{ T.dir with live := false }, 0⟩) hT rfl rfl fun g u₁ hu₁ => ?_
  rcases hu₁.of_setTree with ⟨T', hT', ⟨rfl, rfl⟩ | ⟨l, rfl, hl, hs⟩⟩ | ⟨hu₁, -, -⟩
  · exact .dir hT
  · cases hT'
    refine .leaf hT ?_ hs
    cases hl with
    | user hi hq => exact .user hi hq
    | table ht _ => exact .table ht (.inl hlive)
  · exact hu₁

theorem unmap {a : ℕ} (hT : (view p).tree d = some T)
    (hstale : (view p).stale = some (.pte d (PDX a) (PTX a))) :
    PageInv (Function.update view p
        (((view p).setTree d (some ⟨T.dir.setPte a none, T.freed⟩)).setStale none))
      (m.setPgdir d (some (T.dir.setPte a none))) := by
  refine h.rewrite (X := ⟨T.dir.setPte a none, T.freed⟩) hT rfl rfl fun g u₁ hu₁ => ?_
  cases hu₁ with
  | hand hg => exact .hand hg
  | dir hd =>
      by_cases hgd : g = d
      · rw [hgd]
        exact .dir hT
      · exact .dir ((View.setTree_of_ne hgd).symm.trans hd)
  | @leaf e _ _ l he hl _ =>
      by_cases hed : e = d
      · subst hed
        cases View.setTree_self.symm.trans he
        rcases hl.of_setPte rfl with ⟨hl, hne⟩ | ⟨-, -, y, hy, -⟩
        · refine .leaf hT hl fun x hx heq => ?_
          rw [hstale] at hx
          cases hx
          exact hne (Mine.leaf.inj heq).2.symm
        · cases hy
      · refine .leaf ((View.setTree_of_ne hed).symm.trans he) hl fun x hx heq => ?_
        rw [hstale] at hx
        cases hx
        exact hed (Mine.leaf.inj heq).1.symm
  | @kstack k e hk hne _ =>
      refine .kstack hk hne fun x hx heq => ?_
      rw [hstale] at hx
      cases hx
      cases heq
  | buffer hb => exact .buffer hb

theorem quiet (hfree : m'.freelist = m.freelist) (hpgdir : m'.pgdir = m.pgdir)
    (hpipe : m'.pipe = m.pipe)
    (htree : w.tree = (view p).tree) (hbuffer : w.claims.buffer = (view p).claims.buffer)
    (hhas : ∀ g u₁, w.Has g u₁ → (view p).Has g u₁) : PageInv (Function.update view p w) m' := by
  refine ⟨h.places_mono (fun f hf => hfree ▸ hf) (fun f P hP hc => ?_) hhas, hfree ▸ h.nodup,
    h.dirs_same htree hpgdir, h.shut_same (fun _ hf => hbuffer ▸ hf) hpipe⟩
  rw [hpipe] at hP
  exact ⟨P, hP, hc⟩

theorem setKnown {k : Fin NPROC} {e e' : Known} {x : Proc} (hk : (view p).claims.known k = some e)
    (heq : e'.kstack = e.kstack ∨ e'.kstack = 0) :
    PageInv (Function.update view p ((view p).setKnown k (some e'))) (m.setProc k x) := by
  refine h.quiet rfl rfl rfl rfl rfl fun g u₁ hu₁ => ?_
  rcases hu₁.of_setKnown with ⟨e'', he, hne, rfl, rfl, hs⟩ | ⟨hu₁, -⟩
  · cases he
    rcases heq with heq | heq
    · rw [heq] at hne ⊢
      exact .kstack hk hne hs
    · exact absurd heq hne
  · exact hu₁

theorem setKstack {k : Fin NPROC} {e : Known} {x : Proc} (hf : f ∈ (view p).hand) :
    PageInv (Function.update view p (((view p).drop f).setKnown k (some { e with kstack := f })))
      (m.setProc k x) := by
  refine ⟨h.places_move (b := .kstack k)
    (.hand hf) rfl (fun g P hP hc => ⟨P, hP, hc⟩) fun g u₁ hu₁ => ?_,
    h.nodup, h.dirs_same rfl rfl, h.shut_same (fun _ hg => hg) rfl⟩
  rcases hu₁.of_setKnown with ⟨e', he, -, rfl, rfl, -⟩ | ⟨hu₁, -⟩
  · cases he
    exact .inr ⟨rfl, rfl⟩
  · exact .inl hu₁.of_drop

theorem dropKstack {k : Fin NPROC} {e : Known} {x : Proc}
    (hstale : (view p).stale = some (.kstack k)) :
    PageInv (Function.update view p
      (((view p).setKnown k (some { e with kstack := 0 })).setStale none)) (m.setProc k x) := by
  refine h.quiet rfl rfl rfl rfl rfl fun g u₁ hu₁ => ?_
  have hold : ∀ {u : Mine}, u ≠ .kstack k → ∀ y, (view p).stale = some y → y.mine ≠ u := by
    intro u hu y hy heq
    rw [hstale] at hy
    cases hy
    exact hu heq.symm
  cases hu₁ with
  | hand hg => exact .hand hg
  | dir hd => exact .dir hd
  | leaf he hl _ => exact .leaf he hl (hold nofun)
  | @kstack l e' hl hne _ =>
      by_cases hlk : l = k
      · subst hlk
        cases View.setKnown_self.symm.trans hl
        exact absurd rfl hne
      · exact .kstack ((View.setKnown_of_ne hlk).symm.trans hl) hne
          (hold fun heq => hlk (Mine.kstack.inj heq))
  | buffer hb => exact .buffer hb

theorem newPipe {E : Set (ℕ × Bool)} (hf : f ∈ (view p).hand) :
    PageInv (Function.update view p (((view p).drop f).setEnds E)) (m.setPipe f ⟨true, true⟩) := by
  have hhas : ∀ g u₁, (((view p).drop f).setEnds E).Has g u₁ → (view p).Has g u₁ ∧
      (g = f → u₁ ≠ .hand) :=
    fun g u₁ hu₁ => (hu₁.congr (v := (view p).drop f) rfl rfl rfl rfl rfl).of_drop
  refine ⟨?_, h.nodup, h.dirs_same rfl rfl, fun g P hP hclosed => ?_⟩
  · refine h.places.move (b := .thread p .hand) (e := .pipe)
      (holds_self (.hand hf)) fun g o hg => ?_
    rcases Holds.of_update hg with ⟨u₁, rfl, hu₁⟩ | ⟨hg, hne⟩
    · obtain ⟨hold, hne⟩ := hhas g u₁ hu₁
      exact .inl ⟨hold, fun hgf heq => hne hgf (Place.thread.inj heq).2⟩
    · cases o with
      | free => exact .inl ⟨hg, fun _ => nofun⟩
      | pipe =>
          obtain ⟨P, hP, hclosed⟩ := hg
          by_cases hgf : g = f
          · exact .inr ⟨hgf, rfl⟩
          · rw [Memory.setPipe_of_ne hgf] at hP
            exact .inl ⟨⟨P, hP, hclosed⟩, fun _ => nofun⟩
      | thread q u₁ => exact .inl ⟨hg, fun _ => hne .hand⟩
  · by_cases hgf : g = f
    · subst hgf
      rw [Memory.setPipe_self] at hP
      cases hP
      cases hclosed
    · rw [Memory.setPipe_of_ne hgf] at hP
      exact h.shut_same (w := ((view p).drop f).setEnds E) (fun _ hg => hg) rfl g P hP hclosed

theorem not_has_of_open {P : Pipe} (hP : m.pipe f = some P) (hopen : P.closed = false) :
    ¬ (view p).Has f u := by
  intro hu
  cases h.places f .pipe (.thread p u) ⟨P, hP, hopen⟩ hu

/-- An end of a pipe is closed that was open. With the last one the page goes to the process. -/
theorem closeEnd {P : Pipe} {b : Bool} {E : Set (ℕ × Bool)} (hP : m.pipe f = some P)
    (hopen : P.closed = false)
    (hbuffer : (view p).claims.buffer = none) :
    PageInv (Function.update view p
      (((view p).setEnds E).setBuffer (if (P.close b).closed then some f else none)))
      (m.setPipe f (P.close b)) := by
  have hhas : ∀ g u₁,
      (((view p).setEnds E).setBuffer (if (P.close b).closed then some f else none)).Has g u₁ →
      (view p).Has g u₁ ∨ (g = f ∧ u₁ = .buffer) ∧ (P.close b).closed = true := by
    intro g u₁ hu₁
    rcases hu₁.of_setBuffer with ⟨hg, rfl⟩ | ⟨hu₁, -⟩
    · split_ifs at hg with hclosed
      cases hg
      exact .inr ⟨⟨rfl, rfl⟩, hclosed⟩
    · exact .inl (hu₁.congr rfl rfl rfl rfl rfl)
  refine ⟨?_, h.nodup, h.dirs_same rfl rfl, fun g Q hQ hclosed => ?_⟩
  · cases hlast : (P.close b).closed with
    | false =>
        refine h.places_mono (fun _ hg => hg) (fun g Q hQ hc => ?_) fun g u₁ hu₁ => ?_
        · by_cases hgf : g = f
          · exact hgf ▸ ⟨P, hP, hopen⟩
          · rw [Memory.setPipe_of_ne hgf] at hQ
            exact ⟨Q, hQ, hc⟩
        · rcases hhas g u₁ (hlast ▸ hu₁) with hu₁ | ⟨-, htrue⟩
          · exact hu₁
          · rw [hlast] at htrue
            cases htrue
    | true =>
        refine h.places.move (b := .pipe) (e := .thread p .buffer) ⟨P, hP, hopen⟩ fun g o hg => ?_
        rcases Holds.of_update hg with ⟨u₁, rfl, hu₁⟩ | ⟨hg, -⟩
        · rcases hhas g u₁ (hlast ▸ hu₁) with hu₁ | ⟨⟨rfl, rfl⟩, -⟩
          · exact .inl ⟨hu₁, fun _ => nofun⟩
          · exact .inr ⟨rfl, rfl⟩
        · cases o with
          | free => exact .inl ⟨hg, fun _ => nofun⟩
          | pipe =>
              obtain ⟨Q, hQ, hc⟩ := hg
              by_cases hgf : g = f
              · subst hgf
                cases Memory.setPipe_self.symm.trans hQ
                rw [hlast] at hc
                cases hc
              · rw [Memory.setPipe_of_ne hgf] at hQ
                exact .inl ⟨⟨Q, hQ, hc⟩, fun heq => absurd heq hgf⟩
          | thread q u₁ => exact .inl ⟨hg, fun _ => nofun⟩
  · by_cases hgf : g = f
    · subst hgf
      cases Memory.setPipe_self.symm.trans hQ
      refine ⟨p, ?_⟩
      rw [Function.update_self, hclosed]
      rfl
    · rw [Memory.setPipe_of_ne hgf] at hQ
      obtain ⟨q, hq⟩ := h.shut g Q hQ hclosed
      refine ⟨q, ?_⟩
      by_cases hqp : q = p
      · subst hqp
        rw [hbuffer] at hq
        cases hq
      · rwa [Function.update_of_ne hqp]

end PageInv

/-- The view without an entry of the process table and its page directory. -/
def View.give (v : View) (k : Fin NPROC) (d : ℕ) : View := (v.setKnown k none).setTree d none

def View.receive (v : View) (k : Fin NPROC) (e : Known) (T : Tree) : View :=
  (v.setKnown k (some e)).setTree e.pgdir (some T)

/-- The pages that are handed over. -/
def Mine.Goes (k : Fin NPROC) (d f : ℕ) : Mine → Prop
  | .dir => f = d
  | .leaf e _ => e = d
  | .kstack l => l = k
  | _ => False

variable {k : Fin NPROC} {e : Known}

theorem View.Has.of_give (h : (v.give k d).Has g u) : v.Has g u ∧ ¬ u.Goes k d g := by
  rcases h.of_setTree with ⟨T, hT, -⟩ | ⟨h, hdir, hleaf⟩
  · cases hT
  · rcases h.of_setKnown with ⟨e, he, -⟩ | ⟨h, hk⟩
    · cases he
    · refine ⟨h, fun hgoes => ?_⟩
      cases u with
      | hand => exact hgoes
      | dir => exact hdir hgoes rfl
      | leaf d' l =>
          cases hgoes
          exact hleaf l rfl
      | kstack l =>
          cases hgoes
          exact hk rfl
      | buffer => exact hgoes

theorem View.Has.of_receive (h : (v.receive k e T).Has g u) :
    v.Has g u ∨ u.Goes k e.pgdir g ∧
      ∀ v' : View, v'.tree e.pgdir = some T → v'.claims.known k = some e → v'.stale = none →
      v'.Has g u := by
  have hnone : ∀ {v' : View} {u : Mine}, v'.stale = none → ∀ x, v'.stale = some x → x.mine ≠ u := by
    intro v' u hv' x hx
    rw [hv'] at hx
    cases hx
  rcases h.of_setTree with ⟨T', hT', ⟨rfl, rfl⟩ | ⟨l, rfl, hl, -⟩⟩ | ⟨h, -, -⟩
  · exact .inr ⟨rfl, fun v' hT _ _ => .dir hT⟩
  · cases hT'
    exact .inr ⟨rfl, fun v' hT _ hs => .leaf hT hl (hnone hs)⟩
  · rcases h.of_setKnown with ⟨e', he, hne, rfl, rfl, -⟩ | ⟨h, -⟩
    · cases he
      exact .inr ⟨rfl, fun v' _ hk hs => .kstack hk hne (hnone hs)⟩
    · exact .inl h

/-- The views after a process has been handed over from one process to another. -/
def handOver (view : Fin NPROC → View) (p q k : Fin NPROC) (e : Known)
    (T : Tree) : Fin NPROC → View :=
  Function.update (Function.update view p ((view p).give k e.pgdir)) q ((view q).receive k e T)

theorem handOver_giver (hpq : p ≠ q) : handOver view p q k e T p = (view p).give k e.pgdir := by
  rw [handOver, Function.update_of_ne hpq, Function.update_self]

theorem handOver_receiver : handOver view p q k e T q = (view q).receive k e T :=
  Function.update_self _ _ _

theorem handOver_of_ne {r : Fin NPROC} (hp : r ≠ p)
    (hq : r ≠ q) : handOver view p q k e T r = view r := by
  rw [handOver, Function.update_of_ne hq, Function.update_of_ne hp]

theorem handOver_buffer (hpq : p ≠ q) (r : Fin NPROC) :
    (handOver view p q k e T r).claims.buffer = (view r).claims.buffer := by
  by_cases hq : r = q
  · rw [hq, handOver_receiver]
    rfl
  · by_cases hp : r = p
    · rw [hp, handOver_giver hpq]
      rfl
    · rw [handOver_of_ne hp hq]

open Classical in
theorem PageInv.handOver (h : PageInv view m) (hpq : p ≠ q) (hk : (view p).claims.known k = some e)
    (hT : (view p).tree e.pgdir = some T) (hs : (view p).stale = none)
    (hfree : m'.freelist = m.freelist)
    (hpgdir : m'.pgdir = m.pgdir) (hpipe : m'.pipe = m.pipe) :
    PageInv (handOver view p q k e T) m' := by
  refine ⟨?_, hfree ▸ h.nodup, fun d c => ?_, fun f P hP hclosed => ?_⟩
  · refine h.places.image (fun f o => match o with
      | .thread r u => if r = p ∧ u.Goes k e.pgdir f then .thread q u else .thread r u
      | o => o) fun f o hf => ?_
    cases o with
    | free =>
        change f ∈ m'.freelist at hf
        rw [hfree] at hf
        exact ⟨.free, hf, rfl⟩
    | pipe =>
        obtain ⟨P, hP, hc⟩ := hf
        rw [hpipe] at hP
        exact ⟨.pipe, ⟨P, hP, hc⟩, rfl⟩
    | thread r u =>
        change (SharedMemory.handOver view p q k e T r).Has f u at hf
        by_cases hq : r = q
        · subst hq
          rw [handOver_receiver] at hf
          rcases hf.of_receive with hf | ⟨hgoes, hhas⟩
          · exact ⟨.thread r u, hf, if_neg fun heq => hpq heq.1.symm⟩
          · exact ⟨.thread p u, hhas _ hT hk hs, if_pos ⟨rfl, hgoes⟩⟩
        · by_cases hp : r = p
          · subst hp
            rw [handOver_giver hpq] at hf
            obtain ⟨hf, hgoes⟩ := hf.of_give
            exact ⟨.thread r u, hf, if_neg fun heq => hgoes heq.2⟩
          · rw [handOver_of_ne hp hq] at hf
            exact ⟨.thread r u, hf, if_neg fun heq => hp heq.1⟩
  · have hTdir : (view p).pgdir e.pgdir = some T.dir := by
      rw [View.pgdir, hT]
      rfl
    have hgive : ∀ d', d' ≠ e.pgdir → ((view p).give k e.pgdir).pgdir d' = (view p).pgdir d' :=
      fun d' hd' => congrArg (Option.map Tree.dir) (View.setTree_of_ne hd')
    have hreceive : ∀ d', d' ≠ e.pgdir → ((view q).receive k e T).pgdir d' = (view q).pgdir d' :=
      fun d' hd' => congrArg (Option.map Tree.dir) (View.setTree_of_ne hd')
    have hself : ((view q).receive k e T).pgdir e.pgdir = some T.dir :=
      congrArg (Option.map Tree.dir) View.setTree_self
    have hnone : ((view p).give k e.pgdir).pgdir e.pgdir = none :=
      congrArg (Option.map Tree.dir) View.setTree_self
    rw [hpgdir, h.dirs d c]
    by_cases hd : d = e.pgdir
    · subst hd
      constructor
      · rintro ⟨r, hr⟩
        have hrp : r = p := by
          by_contra hrp
          rw [h.pgdir_none (.dir hT) hrp] at hr
          cases hr
        rw [hrp, hTdir] at hr
        exact ⟨q, by rw [handOver_receiver, hself, hr]⟩
      · rintro ⟨r, hr⟩
        by_cases hq : r = q
        · rw [hq, handOver_receiver, hself] at hr
          exact ⟨p, hTdir.trans hr⟩
        · by_cases hp : r = p
          · rw [hp, handOver_giver hpq, hnone] at hr
            cases hr
          · rw [handOver_of_ne hp hq] at hr
            exact ⟨r, hr⟩
    · refine exists_congr fun r => ?_
      by_cases hq : r = q
      · rw [hq, handOver_receiver, hreceive d hd]
      · by_cases hp : r = p
        · rw [hp, handOver_giver hpq, hgive d hd]
        · rw [handOver_of_ne hp hq]
  · rw [hpipe] at hP
    obtain ⟨r, hr⟩ := h.shut f P hP hclosed
    exact ⟨r, (handOver_buffer hpq r).trans hr⟩

end SharedMemory

end Xv6Fairness
