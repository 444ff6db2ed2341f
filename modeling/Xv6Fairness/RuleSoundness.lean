import Xv6Fairness.ThreadInvariant

/-!
# The rules are sound

An action that a rule allows keeps the invariant, whatever the other processes are doing.
-/

namespace Xv6Fairness

open ThreadPrograms ExclusivePlaces
open VirtualMemory (PDX PTX Pte PageTable stopFrame)

namespace SharedMemory

variable {endFrame : ℕ} {view : Fin NPROC → View} {m : Memory} {p k : Fin NPROC} {w : View}
  {f g d : ℕ} {u : Mine} {T : Tree} {e : Known} {s : System} {a : Action} {R : a.Res → View → Prop}
    {r : a.Res}

theorem Memory.run_kfree {x : Unit}
    (hrun : Memory.run endFrame p (.kfree f) s.memory = some (x, m)) :
    endFrame ≤ f ∧ m = s.memory.free f := by
  rw [Memory.run] at hrun
  split_ifs at hrun with hout
  cases hrun
  exact ⟨not_lt.mp fun hlt => hout (.inl hlt), rfl⟩

/-- The new views, and what has become of them. -/
def Sound (view : Fin NPROC → View) (s : System) (p : Fin NPROC) (R : a.Res → View → Prop)
    (r : a.Res)
    (m : Memory) : Prop :=
  ∃ view', R r (view' p) ∧ Outcome view view' s p m

theorem Sound.self (hR : R r w) (h : Outcome view (Function.update view p w) s p m) :
    Sound view s p R r m :=
  ⟨_, by rwa [Function.update_self], h⟩

theorem View.Has.of_clearedTree (h : (w.setTree d none).Has g u) : w.Has g u ∧
    (g = d → u ≠ .dir) := by
  rcases h.of_setTree with ⟨T, hT, -⟩ | ⟨h, hdir, -⟩
  · cases hT
  · exact ⟨h, hdir⟩

theorem View.Has.of_freedTable {i : ℕ} (hT : w.tree d = some T)
    (hlive : T.dir.live = false) (hi : T.freed ≤ i)
    (h : (w.setTree d (some ⟨T.dir, i + 1⟩)).Has g u) :
    w.Has g u ∧ u ≠ .leaf d (.table i) := by
  rcases h.of_setTree with ⟨T', hT', ⟨rfl, rfl⟩ | ⟨l, rfl, hl, hs⟩⟩ | ⟨h, -, hleaf⟩
  · exact ⟨.dir hT, nofun⟩
  · cases hT'
    cases hl with
    | user hi hq => exact ⟨.leaf hT (.user hi hq) hs, nofun⟩
    | @table j t' ht' hj =>
        rcases hj with hj | hj
        · change T.dir.live = true at hj
          rw [hlive] at hj
          cases hj
        · change i + 1 ≤ j at hj
          refine ⟨.leaf hT (.table ht' (.inr (hi.trans (Nat.le_of_succ_le hj)))) hs, fun heq => ?_⟩
          have hji : j = i := Leaf.table.inj (Mine.leaf.inj heq).2
          omega
  · exact ⟨h, hleaf _⟩

theorem pgdir_setTree_of_eq {D : Pgdir} (hT : w.pgdir d = some D) (hD : T.dir = D) (e : ℕ) :
    (w.setTree d (some T)).pgdir e = w.pgdir e := by
  by_cases he : e = d
  · rw [he, hT, View.pgdir, View.setTree_self, ← hD]
    rfl
  · exact congrArg (Option.map Tree.dir) (View.setTree_of_ne he)

theorem ControlInv.claimZombie (h : ControlInv view m) (hkp : k ≠ p)
    (hlock : (view p).claims.lock = true)
    (hreaping : (view p).claims.reaping = none) (hk : (view k).claims.known k = some e)
    (hzombie : (m.proc k).state = .zombie) :
    ControlInv (Function.update (SharedMemory.handOver view k p k e T) p
      (((view p).receive k e T).setReaping (some k))) m := by
  have hreceiver : SharedMemory.handOver view k p k e T p = (view p).receive k e T :=
    handOver_receiver
  have hknown : ∀ r, (Function.update (SharedMemory.handOver view k p k e T) p
      (((view p).receive k e T).setReaping (some k)) r).claims.known =
        (SharedMemory.handOver view k p k e T r).claims.known :=
    View.claims_update Claims.known (by rw [hreceiver]; rfl)
  have hreap : ∀ r, r ≠ p → (Function.update (SharedMemory.handOver view k p k e T) p
      (((view p).receive k e T).setReaping (some k)) r).claims.reaping =
        (view r).claims.reaping := by
    intro r hr
    rw [Function.update_of_ne hr]
    by_cases hrk : r = k
    · rw [hrk, handOver_giver hkp]
      rfl
    · rw [handOver_of_ne hrk hr]
  have hlocks : ∀ r, (Function.update (SharedMemory.handOver view k p k e T) p
      (((view p).receive k e T).setReaping (some k)) r).claims.lock = (view r).claims.lock := by
    intro r
    by_cases hr : r = p
    · rw [hr, Function.update_self]
      rfl
    · rw [Function.update_of_ne hr]
      by_cases hrk : r = k
      · rw [hrk, handOver_giver hkp]
        rfl
      · rw [handOver_of_ne hrk hr]
  refine h.handOver hkp hk hknown (fun _ _ => rfl) (h.known k k e hk)
    (by rw [hzombie]; exact nofun) (fun halive => ?_) (fun _ => ?_)
    (fun r l hl => ?_) (fun r => ?_) fun r l hl => ?_
  · rw [hzombie] at halive
    rcases halive with h | h | h <;> cases h
  · rw [Function.update_self]
    rfl
  · by_cases hr : r = p
    · rw [hr, hreaping] at hl
      cases hl
    · rwa [hreap r hr]
  · rw [hlocks r]
    exact h.lock r
  · rw [hlocks r]
    by_cases hr : r = p
    · rw [hr]
      exact hlock
    · rw [hreap r hr] at hl
      exact h.reaping r l hl

namespace Inv

variable (h : Inv view s)

include h

theorem pgdir_eq (hT : (view p).tree d = some T) : s.memory.pgdir d = some T.dir :=
  (h.pages.dirs d T.dir).mpr ⟨p, by rw [View.pgdir, hT]; rfl⟩

theorem zombie_known (hlock : (view p).claims.lock = true)
    (hreaping : (view p).claims.reaping = none)
    (hzombie : (s.memory.proc k).state = .zombie) : ((view k).claims.known k).isSome = true := by
  obtain ⟨q, hq, rfl | hreap⟩ := h.control.zombie k hzombie
  · exact hq
  · have hheld := (h.control.lock q).mp (h.control.reaping q k hreap)
    rw [(h.control.lock p).mp hlock] at hheld
    cases hheld
    rw [hreaping] at hreap
    cases hreap

variable (hp : ((view p).claims.known p).isSome = true)

include hp

theorem kfree_sound (hpos : 0 < endFrame) (hstale : (view p).stale = none)
    {x : (Action.kfree f).Res}
    {R : (Action.kfree f).Res → View → Prop} (hrule : Plain p (view p) (.kfree f) R)
    (hrun : Memory.run endFrame p (.kfree f) s.memory = some (x, m)) : Sound view s p R x m := by
  obtain ⟨hle, rfl⟩ := Memory.run_kfree hrun
  cases hrule with
  | kfree hf =>
      exact .self rfl (h.outcome_kfree hp (.hand hf) (fun g u hu => hu.of_drop) (fun _ _ => rfl)
        (fun _ hg _ => hg) rfl rfl rfl rfl)
  | @kfreeUser d i k T q hT hi hq =>
      have hu : (view p).Has q.frame (.leaf d (.user i k)) :=
        .leaf hT (.user hi hq) fun y hy => by rw [hstale] at hy; cases hy
      refine .self rfl (h.outcome_kfree hp hu (fun g u hu => ?_) (fun _ _ => rfl) (fun _ hg _ => hg)
        rfl rfl rfl rfl)
      obtain ⟨hu, hne⟩ := hu.of_setStale hstale
      exact ⟨hu, fun _ => hne⟩
  | @kfreeTable d i T t hT hlive ht hi =>
      have hu : (view p).Has t.frame (.leaf d (.table i)) :=
        .leaf hT (.table ht (.inr hi)) fun y hy => by rw [hstale] at hy; cases hy
      refine .self rfl (h.outcome_kfree hp hu (fun g u hu => ?_) (fun e _ => ?_)
        (fun _ hg _ => hg) rfl rfl rfl rfl)
      · obtain ⟨hu, hne⟩ := hu.of_freedTable hT hlive hi
        exact ⟨hu, fun _ => hne⟩
      · exact pgdir_setTree_of_eq (by rw [View.pgdir, hT]; rfl) rfl e
  | kfreeDir hT =>
      refine .self rfl (h.outcome_kfree hp (.dir hT) (fun g u hu => hu.of_clearedTree)
        (fun e he => ?_)
        (fun _ hg _ => hg) rfl rfl rfl rfl)
      exact congrArg (Option.map Tree.dir) (View.setTree_of_ne he)
  | @kfreeKstack k e hk =>
      have hne : e.kstack ≠ 0 := (hpos.trans_le hle).ne'
      have hu : (view p).Has e.kstack (.kstack k) :=
        .kstack hk hne fun y hy => by rw [hstale] at hy; cases hy
      refine .self rfl (h.outcome_kfree hp hu (fun g u hu => ?_) (fun _ _ => rfl) (fun _ hg _ => hg)
        rfl rfl rfl rfl)
      obtain ⟨hu, hne⟩ := hu.of_setStale hstale
      exact ⟨hu, fun _ => hne⟩
  | kfreeBuffer hb =>
      refine .self rfl (h.outcome_kfree hp (.buffer hb) (fun g u hu => ?_) (fun _ _ => rfl)
        (fun g hg hne => ?_)
        rfl rfl rfl rfl)
      · rcases hu.of_setBuffer with ⟨hnone, -⟩ | ⟨hu, hne⟩
        · cases hnone
        · exact ⟨hu, fun _ => hne⟩
      · rw [hb] at hg
        exact absurd (Option.some_inj.mp hg).symm hne

theorem takeUnused_sound {x : Action.takeUnused.Res} {R : Action.takeUnused.Res → View → Prop}
    (hrule : Plain p (view p) .takeUnused R)
    (hrun : Memory.run endFrame p .takeUnused s.memory = some (x, m)) : Sound view s p R x m := by
  cases hrule
  rw [Memory.run, Memory.takeUnused] at hrun
  cases hfind : (List.finRange NPROC).find? fun k => (s.memory.proc k).state = .unused with
  | none =>
      rw [hfind] at hrun
      cases hrun
      refine ⟨view, rfl, h.pages, h.ends, h.control, hp, fun q _ => .inl rfl, fun _ hk => hk⟩
  | some k =>
      rw [hfind] at hrun
      cases hrun
      have hunused : (s.memory.proc k).state = .unused := by
        have hk := List.find?_some hfind
        exact of_decide_eq_true hk
      have hnone := h.control.unused k hunused
      have hkstack : (s.memory.proc k).kstack = 0 := by
        by_contra hne
        obtain ⟨q, hq⟩ := h.control.kstack k hne
        rw [hnone q] at hq
        cases hq
      have hpk : p ≠ k := by
        rintro rfl
        rw [hnone p] at hp
        cases hp
      refine .self
        ⟨hnone p, ⟨(s.memory.proc k).kstack, (s.memory.proc k).pgdir, (s.memory.proc k).sz⟩,
        hkstack, rfl⟩ (.self (h.pages.quiet rfl rfl rfl rfl rfl fun g u hu => ?_)
        (h.ends.update rfl (fun _ => rfl) rfl) (h.control.takeUnused
          (x := { s.memory.proc k with state := .embryo, pid := s.memory.nextpid }) hunused rfl rfl)
            ?_ fun l hl => ?_)
      · rcases hu.of_setKnown with ⟨e, he, hne, -⟩ | ⟨hu, -⟩
        · cases he
          exact absurd hkstack hne
        · exact hu
      · rw [View.setKnown_of_ne hpk]
        exact hp
      · by_cases hlk : l = k
        · subst hlk
          change (Function.update s.memory.proc l _ l).state = .zombie at hl
          rw [Function.update_self] at hl
          cases hl
        · change (Function.update s.memory.proc k _ l).state = .zombie at hl
          rwa [Function.update_of_ne hlk] at hl

theorem findZombie_sound {y : Kernel Next} (hthread : s.thread p = some y)
    {x : Action.findZombie.Res}
    {R : Action.findZombie.Res → View → Prop} (hrule : Plain p (view p) .findZombie R)
    (hrun : Memory.run endFrame p .findZombie s.memory = some (x, m)) : Sound view s p R x m := by
  cases hrule with
  | findZombie hlock hreaping =>
  rw [Memory.run] at hrun
  cases hrun
  cases hfind : (s.memory.findZombie p).2 with
  | none =>
      refine ⟨view, ?_, h.pages, h.ends, h.control, hp, fun q _ => .inl rfl, fun _ hk => hk⟩
      dsimp only
      rw [hfind]
  | some k =>
      have hzombie : (s.memory.proc k).state = .zombie := by
        have hk := List.find?_some hfind
        exact of_decide_eq_true hk
      have hnone := h.exited k hzombie
      have hkp : k ≠ p := by
        rintro rfl
        rw [hthread] at hnone
        cases hnone
      obtain ⟨hquiet, hhome⟩ := h.idle k hnone
      obtain ⟨e, T, hk, hT, hlive, -⟩ := hhome (h.zombie_known hlock hreaping hzombie)
      have htree : (view p).tree e.pgdir = none :=
        Option.map_eq_none_iff.mp (h.pages.pgdir_none (.dir hT) hkp.symm)
      have hreceiver : handOver view k p k e T p = (view p).receive k e T := handOver_receiver
      have hends : ∀ r, (Function.update (handOver view k p k e T) p
          (((view p).receive k e T).setReaping (some k)) r).claims.ends =
            (handOver view k p k e T r).claims.ends :=
        View.claims_update Claims.ends (by rw [hreceiver]; rfl)
      have hpages := (h.pages.handOver hkp hk hT hquiet.stale rfl rfl rfl).quiet (p := p)
        (w := ((view p).receive k e T).setReaping (some k)) rfl rfl rfl (by rw [hreceiver]; rfl)
        (by rw [hreceiver]; rfl) fun g u hu => by rw [hreceiver]; exact hu.congr rfl rfl rfl rfl rfl
      refine ⟨Function.update (handOver view k p k e T) p
        (((view p).receive k e T).setReaping (some k)), ?_,
        hpages, h.ends.handOver hkp hends (fun _ => rfl) rfl, ?_, ?_, fun q hq => ?_,
        fun _ hl => hl⟩
      · dsimp only
        rw [hfind, Function.update_self]
        exact ⟨hkp, e, T, htree, hlive, rfl⟩
      · exact h.control.claimZombie hkp hlock hreaping hk hzombie
      · rw [Function.update_self]
        have hpk : (((view p).receive k e T).setReaping (some k)).claims.known p =
            (view p).claims.known p :=
          View.setKnown_of_ne hkp.symm
        rw [hpk]
        exact hp
      · rw [Function.update_of_ne hq]
        by_cases hqk : q = k
        · subst hqk
          rw [handOver_giver hkp]
          refine .inr ⟨hnone, ⟨hquiet.stale, hquiet.lock, hquiet.reaping, hquiet.buffer⟩,
            fun hsome => ?_⟩
          have hgone : ((view q).give q e.pgdir).claims.known q = none := View.setKnown_self
          rw [hgone] at hsome
          cases hsome
        · rw [handOver_of_ne hqk hq]
          exact .inl rfl

theorem setRunnable_sound (hstale : (view p).stale = none) (hk : (view p).claims.known k = some e)
    (hkp : k ≠ p)
    (hT : (view p).tree e.pgdir = some T) (hlive : T.dir.live = true) (hsz : e.sz ≤ KERNBASE) :
    Outcome view (handOver view p k k e T) s p
      (s.memory.setProc k { s.memory.proc k with state := .runnable }) := by
  have hnone : s.thread k = none := by
    cases hthread : s.thread k with
    | none => rfl
    | some y => exact absurd (h.control.only (h.running k y hthread).2 hk) hkp
  obtain ⟨hquiet, -⟩ := h.idle k hnone
  have hclaims : ∀ {α : Type} (φ : Claims → α), (∀ c x, φ { c with known := x } = φ c) →
      ∀ r, φ (handOver view p k k e T r).claims = φ (view r).claims := by
    intro α φ hφ r
    by_cases hrk : r = k
    · rw [hrk, handOver_receiver]
      exact hφ _ _
    · by_cases hrp : r = p
      · rw [hrp, handOver_giver hkp.symm]
        exact hφ _ _
      · rw [handOver_of_ne hrp hrk]
  refine ⟨h.pages.handOver hkp.symm hk hT hstale rfl rfl rfl,
    h.ends.handOver hkp.symm (fun _ => rfl)
    (fun _ => rfl) rfl, ?_, ?_, fun q hq => ?_, fun l hl => ?_⟩
  · refine h.control.handOver hkp.symm hk (fun _ => rfl) (fun l hl => Memory.setProc_of_ne hl) ?_ ?_
      (fun _ => rfl) (fun hl => ?_) (fun r l hl => ?_) (fun r => ?_) fun r l hl => ?_
    · rw [Memory.setProc_self]
      exact h.control.known p k e hk
    · rw [Memory.setProc_self]
      exact nofun
    · rw [Memory.setProc_self] at hl
      cases hl
    · rwa [hclaims Claims.reaping fun _ _ => rfl]
    · rw [hclaims Claims.lock fun _ _ => rfl]
      exact h.control.lock r
    · rw [hclaims Claims.reaping fun _ _ => rfl] at hl
      rw [hclaims Claims.lock fun _ _ => rfl]
      exact h.control.reaping r l hl
  · rw [handOver_giver hkp.symm]
    have hpk : ((view p).give k e.pgdir).claims.known p = (view p).claims.known p :=
      View.setKnown_of_ne hkp.symm
    rw [hpk]
    exact hp
  · by_cases hqk : q = k
    · subst hqk
      rw [handOver_receiver]
      refine .inr ⟨hnone, ⟨hquiet.stale, hquiet.lock, hquiet.reaping, hquiet.buffer⟩, fun _ => ?_⟩
      exact ⟨e, T, View.setKnown_self, View.setTree_self, hlive, hsz⟩
    · rw [handOver_of_ne hq hqk]
      exact .inl rfl
  · by_cases hlk : l = k
    · rw [hlk, Memory.setProc_self] at hl
      cases hl
    · rwa [Memory.setProc_of_ne hlk] at hl

theorem unchanged (hfree : m.freelist = s.memory.freelist) (hpgdir : m.pgdir = s.memory.pgdir)
    (hpipe : m.pipe = s.memory.pipe) (hfile : ∀ i, (m.file i).pipe = (s.memory.file i).pipe)
    (hproc : ∀ l, (m.proc l).known = (s.memory.proc l).known ∧
      (m.proc l).state = (s.memory.proc l).state)
    (hlock : m.lock = s.memory.lock) : Outcome view view s p m := by
  have hpages := h.pages.quiet (p := p) (w := view p) hfree hpgdir hpipe rfl rfl fun _ _ hu => hu
  rw [Function.update_eq_self] at hpages
  exact ⟨hpages, h.ends.congr (fun _ => rfl) hfile hpipe,
    h.control.congr (fun _ => rfl) (fun _ => rfl)
      (fun _ => rfl) hproc hlock, hp, fun q _ => .inl rfl,
    fun k hk => (hproc k).2 ▸ hk⟩

theorem setFile_ref (i : Fin NFILE) (n : ℕ) :
    Outcome view view s p (s.memory.setFile i { s.memory.file i with ref := n }) := by
  refine h.unchanged hp rfl rfl rfl (fun j => ?_) (fun _ => ⟨rfl, rfl⟩) rfl
  change (Function.update s.memory.file i _ j).pipe = _
  by_cases hj : j = i
  · rw [hj, Function.update_self]
  · rw [Function.update_of_ne hj]

theorem setUnused_sound (hk : (view p).claims.known k = some e) (hkp : k ≠ p)
    (hkstack : e.kstack = 0)
    (hreaping : (view p).claims.reaping = none ∨ (view p).claims.reaping = some k) :
    Outcome view (Function.update view p (((view p).setKnown k none).setReaping none)) s p
      (s.memory.setProc k { s.memory.proc k with state := .unused }) := by
  have hknown : (s.memory.proc k).kstack = 0 :=
    (congrArg Known.kstack (h.control.known p k e hk)).trans hkstack
  refine .self (h.pages.quiet rfl rfl rfl rfl rfl fun g u hu => ?_)
    (h.ends.update rfl (fun _ => rfl) rfl)
    (h.control.setUnused hk rfl hknown hreaping) ?_ fun l hl => ?_
  · have hu' : ((view p).setKnown k none).Has g u := hu.congr rfl rfl rfl rfl rfl
    rcases hu'.of_setKnown with ⟨e', he, -⟩ | ⟨hu, -⟩
    · cases he
    · exact hu
  · have hpk : (((view p).setKnown k none).setReaping none).claims.known p =
        (view p).claims.known p :=
      View.setKnown_of_ne hkp.symm
    rw [hpk]
    exact hp
  · by_cases hlk : l = k
    · rw [hlk, Memory.setProc_self] at hl
      cases hl
    · rwa [Memory.setProc_of_ne hlk] at hl

theorem fileput_sound {i : Fin NFILE} {x : (Action.fileput i).Res}
    (hrun : Memory.run endFrame p (.fileput i) s.memory = some (x, m)) :
    Sound view s p (fun (r : (Action.fileput i).Res) w => match r with
      | some (some y) => w = (view p).setEnds (insert y (view p).claims.ends)
      | _ => w = view p) x m := by
  rw [Memory.run] at hrun
  split_ifs at hrun with href hmore
  · cases hrun
    exact ⟨view, rfl, h.setFile_ref hp i _⟩
  · cases hrun
    cases hpipe : (s.memory.file i).pipe with
    | none =>
        refine ⟨view, rfl, h.unchanged hp rfl rfl rfl (fun j => ?_) (fun _ => ⟨rfl, rfl⟩) rfl⟩
        change (Function.update s.memory.file i _ j).pipe = _
        by_cases hj : j = i
        · rw [hj, Function.update_self, hpipe]
        · rw [Function.update_of_ne hj]
    | some y =>
        refine .self rfl (h.outcome hp (h.pages.quiet rfl rfl rfl rfl rfl fun g u hu => ?_)
          (h.ends.fileput hpipe) rfl rfl rfl rfl rfl)
        exact hu.congr rfl rfl rfl rfl rfl

theorem plain_sound {y : Kernel Next} (hthread : s.thread p = some y) (hpos : 0 < endFrame)
    (hstale : (view p).stale = none) (hrule : Plain p (view p) a R)
    (hrun : Memory.run endFrame p a s.memory = some (r, m)) : Sound view s p R r m := by
  cases hrule with
  | kalloc =>
      rw [Memory.run] at hrun
      cases hfree : s.memory.freelist with
      | nil =>
          rw [hfree] at hrun
          cases hrun
          exact ⟨view, rfl, h.unchanged hp rfl rfl rfl (fun _ => rfl) (fun _ => ⟨rfl, rfl⟩) rfl⟩
      | cons f rest =>
          rw [hfree] at hrun
          cases hrun
          obtain ⟨hhand, htree, hpages⟩ := h.pages.kalloc (p := p) hfree
          exact .self ⟨hhand, htree, rfl⟩
            (h.outcome hp hpages (h.ends.update rfl (fun _ => rfl) rfl)
            rfl rfl rfl rfl rfl)
  | kfree hf => exact h.kfree_sound hp hpos hstale (.kfree hf) hrun
  | kfreeUser hT hi hq => exact h.kfree_sound hp hpos hstale (.kfreeUser hT hi hq) hrun
  | kfreeTable hT hlive ht hi =>
      exact h.kfree_sound hp hpos hstale (.kfreeTable hT hlive ht hi) hrun
  | kfreeDir hT => exact h.kfree_sound hp hpos hstale (.kfreeDir hT) hrun
  | kfreeKstack hk => exact h.kfree_sound hp hpos hstale (.kfreeKstack hk) hrun
  | kfreeBuffer hb => exact h.kfree_sound hp hpos hstale (.kfreeBuffer hb) hrun
  | load hT =>
      cases hrun
      exact ⟨view, ⟨h.pgdir_eq hT, rfl⟩, h.unchanged hp rfl rfl rfl (fun _ => rfl)
        (fun _ => ⟨rfl, rfl⟩) rfl⟩
  | newPgdir hd =>
      cases hrun
      exact .self rfl (h.outcome_setPgdir hp (h.pages.newPgdir hd) rfl)
  | setPde hT hf =>
      rw [Memory.run, h.pgdir_eq hT] at hrun
      cases hrun
      exact .self rfl (h.outcome_setPgdir hp (h.pages.setPde hT hf) rfl)
  | map hT hq =>
      rw [Memory.run, h.pgdir_eq hT] at hrun
      cases hrun
      exact .self rfl (h.outcome_setPgdir hp (h.pages.map hT hq) rfl)
  | mapKernel hT ha =>
      rw [Memory.run, h.pgdir_eq hT] at hrun
      cases hrun
      exact .self rfl (h.outcome_setPgdir hp (h.pages.mapKernel hT ha) rfl)
  | protect hT hq =>
      rw [Memory.run, h.pgdir_eq hT] at hrun
      cases hrun
      exact .self rfl (h.outcome_setPgdir hp (h.pages.protect hT hq) rfl)
  | retire hT hlive =>
      rw [Memory.run, h.pgdir_eq hT] at hrun
      cases hrun
      exact .self rfl (h.outcome_setPgdir hp (h.pages.retire hT hlive) rfl)
  | acquire =>
      rw [Memory.run] at hrun
      split_ifs at hrun with hfree
      cases hrun
      refine .self rfl (.self (h.pages.quiet rfl rfl rfl rfl rfl fun g u hu => ?_)
        (h.ends.update rfl (fun _ => rfl) rfl) (h.control.acquire hfree) hp fun _ hk => hk)
      exact hu.congr rfl rfl rfl rfl rfl
  | release hlock hreaping =>
      rw [Memory.run] at hrun
      split_ifs at hrun with hheld
      cases hrun
      refine .self rfl (.self (h.pages.quiet rfl rfl rfl rfl rfl fun g u hu => ?_)
        (h.ends.update rfl (fun _ => rfl) rfl) (h.control.release hheld hreaping) hp fun _ hk => hk)
      exact hu.congr rfl rfl rfl rfl rfl
  | takeUnused => exact h.takeUnused_sound hp .takeUnused hrun
  | findZombie hlock hreaping =>
      exact h.findZombie_sound hp hthread (.findZombie hlock hreaping) hrun
  | proc =>
      cases hrun
      exact ⟨view, ⟨fun e he => h.control.known p _ e he, rfl⟩,
        h.unchanged hp rfl rfl rfl (fun _ => rfl) (fun _ => ⟨rfl, rfl⟩) rfl⟩
  | setKstack hk hf =>
      cases hrun
      obtain rfl := h.control.known p _ _ hk
      exact .self rfl (h.outcome_setProc hp (h.pages.setKstack hf) hk rfl rfl)
  | noKstack hk =>
      cases hrun
      obtain rfl := h.control.known p _ _ hk
      exact .self rfl (h.outcome_setProc hp (h.pages.setKnown hk (.inr rfl)) hk rfl rfl)
  | setPgdir hk =>
      cases hrun
      obtain rfl := h.control.known p _ _ hk
      exact .self rfl (h.outcome_setProc hp (h.pages.setKnown hk (.inl rfl)) hk rfl rfl)
  | setSz hk =>
      cases hrun
      obtain rfl := h.control.known p _ _ hk
      exact .self rfl (h.outcome_setProc hp (h.pages.setKnown hk (.inl rfl)) hk rfl rfl)
  | setUnused hk hkp hkstack hreaping =>
      cases hrun
      exact .self rfl (h.setUnused_sound hp hk hkp hkstack hreaping)
  | setRunnable hk hkp hT hlive hsz _ =>
      cases hrun
      exact ⟨_, handOver_giver hkp.symm, h.setRunnable_sound hp hstale hk hkp hT hlive hsz⟩
  | @store k x hx =>
      cases hrun
      refine ⟨view, rfl, h.unchanged hp rfl rfl rfl (fun _ => rfl) (fun l => ?_) rfl⟩
      by_cases hl : l = k
      · rw [hl, Memory.setProc_self]
        exact hx _
      · rw [Memory.setProc_of_ne hl]
        exact ⟨rfl, rfl⟩
  | filealloc =>
      rw [Memory.run, Memory.filealloc] at hrun
      split at hrun
      · cases hrun
        exact ⟨view, rfl, h.unchanged hp rfl rfl rfl (fun _ => rfl) (fun _ => ⟨rfl, rfl⟩) rfl⟩
      · cases hrun
        exact ⟨view, rfl, h.setFile_ref hp _ _⟩
  | filedup =>
      rw [Memory.run] at hrun
      split_ifs at hrun
      cases hrun
      exact ⟨view, rfl, h.setFile_ref hp _ _⟩
  | fileput => exact h.fileput_sound hp hrun
  | setFile hy =>
      cases hrun
      refine .self rfl (h.outcome hp (h.pages.quiet rfl rfl rfl rfl rfl fun g u hu => ?_)
        (h.ends.setFile hy) rfl rfl rfl rfl rfl)
      exact hu.congr rfl rfl rfl rfl rfl
  | newPipe hf =>
      cases hrun
      exact .self rfl (h.outcome hp (h.pages.newPipe hf)
        (h.ends.newPipe h.pages hf) rfl rfl rfl rfl rfl)
  | @closeEnd f b hy hbuffer =>
      obtain ⟨P, hP, -, hclosed⟩ := h.ends.opened_pipe (y := (f, b)) (o := .thread p) hy
      rw [Memory.run, hP] at hrun
      cases hrun
      exact .self rfl (h.outcome hp (h.pages.closeEnd hP hclosed hbuffer) (h.ends.closeEnd hy hP)
        rfl rfl rfl rfl rfl)
  | panic => cases hrun

theorem rule_sound {y : Kernel Next} (hthread : s.thread p = some y) (hpos : 0 < endFrame)
    (hrule : Rule p (view p) a R) (hrun : Memory.run endFrame p a s.memory = some (r, m)) :
    Sound view s p R r m := by
  cases hrule with
  | plain hstale hrule => exact h.plain_sound hp hthread hpos hstale hrule hrun
  | unmap hT hstale =>
      rw [Memory.run, h.pgdir_eq hT] at hrun
      cases hrun
      exact .self rfl (h.outcome_setPgdir hp (h.pages.unmap hT hstale) rfl)
  | dropKstack hk hstale =>
      cases hrun
      obtain rfl := h.control.known p _ _ hk
      exact .self rfl (h.outcome_setProc hp (h.pages.dropKstack hstale) hk rfl rfl)

end Inv

end SharedMemory

end Xv6Fairness
