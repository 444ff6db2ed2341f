import Xv6Fairness.PageOwners

/-!
# The invariant of all processes

Beside the pages, the ends of pipes belong to one file or process each, and the entries of the
process table to one process each: the own one to a process that has not exited, the one it fills to
a process that forks, and the one it empties, under the lock, to a process that waits.
-/

namespace Xv6Fairness

open ThreadPrograms ExclusivePlaces
open VirtualMemory (PDX PTX Pte PageTable stopFrame)

namespace SharedMemory

structure ControlInv (view : Fin NPROC → View) (m : Memory) : Prop where
  known : ∀ p k e, (view p).claims.known k = some e → (m.proc k).known = e
  control : Exclusive fun k p => ((view p).claims.known k).isSome = true
  kstack : ∀ k, (m.proc k).kstack ≠ 0 → ∃ p, ((view p).claims.known k).isSome = true
  unused : ∀ k, (m.proc k).state = .unused → ∀ p, (view p).claims.known k = none
  alive : ∀ k, Alive (m.proc k).state → ((view k).claims.known k).isSome = true
  zombie : ∀ k, (m.proc k).state = .zombie →
    ∃ q, ((view q).claims.known k).isSome = true ∧ (q = k ∨ (view q).claims.reaping = some k)
  lock : ∀ p, (view p).claims.lock = true ↔ m.lock = some p
  reaping : ∀ p k, (view p).claims.reaping = some k → (view p).claims.lock = true

variable {endFrame : ℕ} {view view' : Fin NPROC → View} {m m' : Memory} {p q k : Fin NPROC}
  {v w : View}
  {f g d : ℕ} {u : Mine} {T : Tree} {e : Known} {x : Proc}

namespace EndInv

variable (h : EndInv view m)

include h

theorem mono (himp : ∀ x o, EndHolds view' m' x o → EndHolds view m x o)
    (hpipe : m'.pipe = m.pipe) :
    EndInv view' m' :=
  ⟨h.ends.mono himp, fun x o hx => hpipe ▸ h.opened x o (himp x o hx)⟩

theorem congr (hends : ∀ r, (view' r).claims.ends = (view r).claims.ends)
    (hfile : ∀ i, (m'.file i).pipe = (m.file i).pipe)
    (hpipe : m'.pipe = m.pipe) : EndInv view' m' := by
  refine h.mono (fun x o hx => ?_) hpipe
  cases o with
  | file i => exact (hfile i).symm.trans hx
  | thread r =>
      change x ∈ (view' r).claims.ends at hx
      rw [hends r] at hx
      exact hx

theorem update (hends : w.claims.ends = (view p).claims.ends)
    (hfile : ∀ i, (m'.file i).pipe = (m.file i).pipe) (hpipe : m'.pipe = m.pipe) :
    EndInv (Function.update view p w) m' := by
  refine h.congr (fun r => ?_) hfile hpipe
  by_cases hr : r = p
  · rw [hr, Function.update_self, hends]
  · rw [Function.update_of_ne hr]

theorem opened_pipe {y : ℕ × Bool} {o : End} (hy : EndHolds view m y o) :
    ∃ P, m.pipe y.1 = some P ∧ P.isOpen y.2 = true ∧ P.closed = false := by
  obtain ⟨P, hP, hopen⟩ := h.opened y o hy
  refine ⟨P, hP, hopen, ?_⟩
  rw [Pipe.isOpen] at hopen
  rw [Pipe.closed]
  split_ifs at hopen
  · rw [hopen, Bool.not_true, Bool.and_false]
  · rw [hopen, Bool.not_true, Bool.false_and]

theorem free (hp : PageInv view m) (hu : (view p).Has f u)
    (hends : w.claims.ends = (view p).claims.ends) :
    EndInv (Function.update view p w) (m.free f) := by
  have himp : ∀ y o, EndHolds (Function.update view p w) (m.free f) y o → EndHolds view m y o := by
    intro y o hy
    cases o with
    | file i => exact hy
    | thread r =>
        change y ∈ (Function.update view p w r).claims.ends at hy
        by_cases hr : r = p
        · subst hr
          rw [Function.update_self, hends] at hy
          exact hy
        · rw [Function.update_of_ne hr] at hy
          exact hy
  refine ⟨h.ends.mono himp, fun y o hy => ?_⟩
  obtain ⟨P, hP, hopen, hclosed⟩ := h.opened_pipe (himp y o hy)
  have hne : y.1 ≠ f := by
    intro heq
    rw [heq] at hP
    exact hp.not_has_of_open hP hclosed hu
  exact ⟨P, (Memory.free_pipe_of_ne hne).trans hP, hopen⟩

theorem setFile_ref (i : Fin NFILE) (n : ℕ) (hends : w.claims.ends = (view p).claims.ends) :
    EndInv (Function.update view p w) (m.setFile i { m.file i with ref := n }) := by
  refine h.update hends (fun j => ?_) rfl
  rw [Memory.setFile]
  dsimp only
  by_cases hj : j = i
  · rw [hj, Function.update_self]
  · rw [Function.update_of_ne hj]

theorem fileput {i : Fin NFILE} {y : ℕ × Bool} (hy : (m.file i).pipe = some y) :
    EndInv (Function.update view p ((view p).setEnds (insert y (view p).claims.ends)))
      (m.setFile i ⟨0, none⟩) := by
  have hstep :
      ∀ z o, EndHolds (Function.update view p ((view p).setEnds (insert y (view p).claims.ends)))
      (m.setFile i ⟨0, none⟩) z o → EndHolds view m z o ∧ (z = y → o ≠ .file i) ∨ z = y ∧
        o = .thread p := by
    intro z o hz
    cases o with
    | file j =>
        change ((Function.update m.file i _) j).pipe = some z at hz
        by_cases hj : j = i
        · rw [hj, Function.update_self] at hz
          cases hz
        · rw [Function.update_of_ne hj] at hz
          exact .inl ⟨hz, fun _ heq => hj (End.file.inj heq)⟩
    | thread r =>
        change z ∈ (Function.update view p _ r).claims.ends at hz
        by_cases hr : r = p
        · subst hr
          rw [Function.update_self] at hz
          rcases hz with rfl | hz
          · exact .inr ⟨rfl, rfl⟩
          · exact .inl ⟨hz, fun _ => nofun⟩
        · rw [Function.update_of_ne hr] at hz
          exact .inl ⟨hz, fun _ => nofun⟩
  refine ⟨h.ends.move (b := .file i) hy hstep, fun z o hz => ?_⟩
  rcases hstep z o hz with ⟨hz, -⟩ | ⟨rfl, -⟩
  · exact h.opened z o hz
  · exact h.opened z (.file i) hy

theorem setFile {i : Fin NFILE} {b : Bool} (hy : (f, b) ∈ (view p).claims.ends) :
    EndInv (Function.update view p ((view p).setEnds ((view p).claims.ends \ {(f, b)})))
      (m.setFile i { m.file i with pipe := some (f, b) }) := by
  have hstep :
      ∀ z o, EndHolds (Function.update view p ((view p).setEnds ((view p).claims.ends \ {(f, b)})))
      (m.setFile i { m.file i with pipe := some (f, b) }) z o →
      EndHolds view m z o ∧ (z = (f, b) → o ≠ .thread p) ∨ z = (f, b) ∧ o = .file i := by
    intro z o hz
    cases o with
    | file j =>
        change ((Function.update m.file i _) j).pipe = some z at hz
        by_cases hj : j = i
        · rw [hj, Function.update_self] at hz
          cases hz
          exact .inr ⟨rfl, hj ▸ rfl⟩
        · rw [Function.update_of_ne hj] at hz
          exact .inl ⟨hz, fun _ => nofun⟩
    | thread r =>
        change z ∈ (Function.update view p _ r).claims.ends at hz
        by_cases hr : r = p
        · subst hr
          rw [Function.update_self] at hz
          exact .inl ⟨hz.1, fun heq => absurd heq hz.2⟩
        · rw [Function.update_of_ne hr] at hz
          exact .inl ⟨hz, fun _ heq => hr (End.thread.inj heq)⟩
  refine ⟨h.ends.move (b := .thread p) hy hstep, fun z o hz => ?_⟩
  rcases hstep z o hz with ⟨hz, -⟩ | ⟨rfl, -⟩
  · exact h.opened z o hz
  · exact h.opened _ (.thread p) hy

theorem newPipe (hp : PageInv view m) (hf : f ∈ (view p).hand) :
    EndInv (Function.update view p
      (((view p).drop f).setEnds (insert (f, true) (insert (f, false) (view p).claims.ends))))
      (m.setPipe f ⟨true, true⟩) := by
  have hnot : ∀ y o, y.1 = f → ¬ EndHolds view m y o := by
    intro y o hyf hy
    obtain ⟨P, hP, -, hclosed⟩ := h.opened_pipe hy
    rw [hyf] at hP
    exact hp.not_has_of_open hP hclosed (.hand hf)
  have hstep : ∀ z o, EndHolds (Function.update view p
      (((view p).drop f).setEnds (insert (f, true) (insert (f, false) (view p).claims.ends))))
      (m.setPipe f ⟨true, true⟩) z o → EndHolds view m z o ∨ z.1 = f ∧ o = .thread p := by
    intro z o hz
    cases o with
    | file j => exact .inl hz
    | thread r =>
        change z ∈ (Function.update view p _ r).claims.ends at hz
        by_cases hr : r = p
        · subst hr
          rw [Function.update_self] at hz
          rcases hz with rfl | rfl | hz
          · exact .inr ⟨rfl, rfl⟩
          · exact .inr ⟨rfl, rfl⟩
          · exact .inl hz
        · rw [Function.update_of_ne hr] at hz
          exact .inl hz
  refine ⟨h.ends.put (A := fun y => y.1 = f) (fun y hy o => hnot y o hy) hstep, fun z o hz => ?_⟩
  rcases hstep z o hz with hz | ⟨hzf, -⟩
  · obtain ⟨P, hP, hopen⟩ := h.opened z o hz
    have hne : z.1 ≠ f := fun heq => hnot z o heq hz
    exact ⟨P, (Memory.setPipe_of_ne hne).trans hP, hopen⟩
  · rw [hzf]
    exact ⟨_, Memory.setPipe_self, by cases z.2 <;> rfl⟩

theorem closeEnd {b : Bool} {P : Pipe} {o : Option ℕ} (hy : (f, b) ∈ (view p).claims.ends)
    (hP : m.pipe f = some P) :
    EndInv (Function.update view p
      (((view p).setEnds ((view p).claims.ends \ {(f, b)})).setBuffer o))
      (m.setPipe f (P.close b)) := by
  have hstep : ∀ z y, EndHolds (Function.update view p
      (((view p).setEnds ((view p).claims.ends \ {(f, b)})).setBuffer o))
        (m.setPipe f (P.close b)) z y →
      EndHolds view m z y ∧ z ≠ (f, b) := by
    intro z y hz
    cases y with
    | file j =>
        refine ⟨hz, ?_⟩
        rintro rfl
        cases h.ends (f, b) (.file j) (.thread p) hz hy
    | thread r =>
        change z ∈ (Function.update view p _ r).claims.ends at hz
        by_cases hr : r = p
        · subst hr
          rw [Function.update_self] at hz
          exact hz
        · rw [Function.update_of_ne hr] at hz
          refine ⟨hz, ?_⟩
          rintro rfl
          exact hr (End.thread.inj (h.ends (f, b) (.thread r) (.thread p) hz hy))
  refine ⟨h.ends.mono fun z y hz => (hstep z y hz).1, fun z y hz => ?_⟩
  obtain ⟨hz, hne⟩ := hstep z y hz
  obtain ⟨Q, hQ, hopen⟩ := h.opened z y hz
  by_cases hzf : z.1 = f
  · rw [hzf, hP] at hQ
    cases hQ
    rw [hzf]
    refine ⟨_, Memory.setPipe_self, ?_⟩
    obtain ⟨z₁, z₂⟩ := z
    change z₁ = f at hzf
    subst hzf
    have hb : z₂ ≠ b := fun heq => hne (heq ▸ rfl)
    cases b with
    | true =>
        cases z₂ with
        | true => exact absurd rfl hb
        | false => exact hopen
    | false =>
        cases z₂ with
        | true => exact hopen
        | false => exact absurd rfl hb
  · exact ⟨Q, (Memory.setPipe_of_ne hzf).trans hQ, hopen⟩

end EndInv

theorem View.claims_update {α : Sort*} (φ : Claims → α) (hw : φ w.claims = φ (view p).claims)
    (r : Fin NPROC) :
    φ (Function.update view p w r).claims = φ (view r).claims := by
  by_cases hr : r = p
  · rw [hr, Function.update_self, hw]
  · rw [Function.update_of_ne hr]

namespace ControlInv

variable (h : ControlInv view m)

include h

theorem only (hq : ((view q).claims.known k).isSome = true)
    (hp : (view p).claims.known k = some e) : q = p := by
  have hsome : ((view p).claims.known k).isSome = true := by
    rw [hp]
    rfl
  exact h.control k q p hq hsome

theorem congr (hknown : ∀ r, (view' r).claims.known = (view r).claims.known)
    (hreaping : ∀ r, (view' r).claims.reaping = (view r).claims.reaping)
    (hlock : ∀ r, (view' r).claims.lock = (view r).claims.lock)
    (hproc : ∀ l, (m'.proc l).known = (m.proc l).known ∧ (m'.proc l).state = (m.proc l).state)
    (hm : m'.lock = m.lock) : ControlInv view' m' := by
  refine ⟨fun r l e he => ?_, h.control.mono fun l r hl => ?_, fun l hl => ?_, fun l hl r => ?_,
    fun l hl => ?_, fun l hl => ?_, fun r => ?_, fun r l hl => ?_⟩
  · rw [hknown r] at he
    rw [(hproc l).1]
    exact h.known r l e he
  · rwa [hknown r] at hl
  · have hkstack : (m'.proc l).kstack = (m.proc l).kstack := congrArg Known.kstack (hproc l).1
    rw [hkstack] at hl
    obtain ⟨r, hr⟩ := h.kstack l hl
    exact ⟨r, by rwa [hknown r]⟩
  · rw [(hproc l).2] at hl
    rw [hknown r]
    exact h.unused l hl r
  · rw [(hproc l).2] at hl
    rw [hknown l]
    exact h.alive l hl
  · rw [(hproc l).2] at hl
    obtain ⟨r, hr, hor⟩ := h.zombie l hl
    exact ⟨r, by rwa [hknown r], by rwa [hreaping r]⟩
  · rw [hlock r, hm]
    exact h.lock r
  · rw [hreaping r] at hl
    rw [hlock r]
    exact h.reaping r l hl

theorem update (hw : w.claims.known = (view p).claims.known)
    (hreaping : w.claims.reaping = (view p).claims.reaping)
    (hlock : w.claims.lock = (view p).claims.lock)
    (hproc : m'.proc = m.proc) (hm : m'.lock = m.lock) : ControlInv (Function.update view p w) m' :=
  h.congr (View.claims_update Claims.known hw) (View.claims_update Claims.reaping hreaping)
    (View.claims_update Claims.lock hlock) (fun l => by rw [hproc]; exact ⟨rfl, rfl⟩) hm

theorem acquire (hfree : m.lock = none) :
    ControlInv (Function.update view p ((view p).setLock true)) { m with lock := some p } := by
  have hknown : ∀ r, (Function.update view p ((view p).setLock true) r).claims.known =
      (view r).claims.known :=
    View.claims_update Claims.known rfl
  have hreaping : ∀ r, (Function.update view p ((view p).setLock true) r).claims.reaping =
      (view r).claims.reaping := View.claims_update Claims.reaping rfl
  refine ⟨fun r l e he => h.known r l e (hknown r ▸ he),
    h.control.mono fun l r hl => by rwa [hknown r] at hl,
    fun l hl => ?_, fun l hl r => by rw [hknown r]; exact h.unused l hl r,
    fun l hl => by rw [hknown l]; exact h.alive l hl, fun l hl => ?_, fun r => ?_, fun r l hl => ?_⟩
  · obtain ⟨r, hr⟩ := h.kstack l hl
    exact ⟨r, by rwa [hknown r]⟩
  · obtain ⟨r, hr, hor⟩ := h.zombie l hl
    exact ⟨r, by rwa [hknown r], by rwa [hreaping r]⟩
  · by_cases hr : r = p
    · rw [hr, Function.update_self]
      exact iff_of_true rfl rfl
    · rw [Function.update_of_ne hr, h.lock r, hfree]
      exact iff_of_false nofun fun heq => hr (Option.some_inj.mp heq).symm
  · rw [hreaping r] at hl
    have hold := (h.lock r).mp (h.reaping r l hl)
    rw [hfree] at hold
    cases hold

theorem release (hheld : m.lock = some p) (hreaping' : (view p).claims.reaping = none) :
    ControlInv (Function.update view p ((view p).setLock false)) { m with lock := none } := by
  have hknown : ∀ r, (Function.update view p ((view p).setLock false) r).claims.known =
      (view r).claims.known := View.claims_update Claims.known rfl
  have hreaping : ∀ r, (Function.update view p ((view p).setLock false) r).claims.reaping =
      (view r).claims.reaping := View.claims_update Claims.reaping rfl
  refine ⟨fun r l e he => h.known r l e (hknown r ▸ he),
    h.control.mono fun l r hl => by rwa [hknown r] at hl,
    fun l hl => ?_, fun l hl r => by rw [hknown r]; exact h.unused l hl r,
    fun l hl => by rw [hknown l]; exact h.alive l hl, fun l hl => ?_, fun r => ?_, fun r l hl => ?_⟩
  · obtain ⟨r, hr⟩ := h.kstack l hl
    exact ⟨r, by rwa [hknown r]⟩
  · obtain ⟨r, hr, hor⟩ := h.zombie l hl
    exact ⟨r, by rwa [hknown r], by rwa [hreaping r]⟩
  · by_cases hr : r = p
    · rw [hr, Function.update_self]
      exact iff_of_false nofun nofun
    · rw [Function.update_of_ne hr, h.lock r, hheld]
      exact iff_of_false (fun heq => hr (Option.some_inj.mp heq).symm) nofun
  · rw [hreaping r] at hl
    have hold := (h.lock r).mp (h.reaping r l hl)
    rw [hheld] at hold
    cases hold
    rw [hreaping'] at hl
    cases hl

theorem setKnown (hk : (view p).claims.known k = some e) (hx : x.state = (m.proc k).state)
    (hw : w.claims = ((view p).setKnown k (some x.known)).claims) :
    ControlInv (Function.update view p w) (m.setProc k x) := by
  have hknown : ∀ r l, ((Function.update view p w r).claims.known l).isSome =
      ((view r).claims.known l).isSome := by
    intro r l
    by_cases hr : r = p
    · subst hr
      rw [Function.update_self, hw]
      by_cases hl : l = k
      · rw [hl, View.setKnown_self, hk]
        rfl
      · rw [View.setKnown_of_ne hl]
    · rw [Function.update_of_ne hr]
  have hstate : ∀ l, ((m.setProc k x).proc l).state = (m.proc l).state := by
    intro l
    by_cases hl : l = k
    · rw [hl, Memory.setProc_self, hx]
    · rw [Memory.setProc_of_ne hl]
  have hreaping : ∀ r, (Function.update view p w r).claims.reaping = (view r).claims.reaping :=
    View.claims_update Claims.reaping (by rw [hw]; rfl)
  have hlock : ∀ r, (Function.update view p w r).claims.lock = (view r).claims.lock :=
    View.claims_update Claims.lock (by rw [hw]; rfl)
  refine ⟨fun r l y hy => ?_,
    h.control.mono fun l r hl => by rwa [hknown r l] at hl, fun l hl => ?_,
    fun l hl r => ?_, fun l hl => ?_, fun l hl => ?_, fun r => ?_, fun r l hl => ?_⟩
  · by_cases hl : l = k
    · subst hl
      have hsome : ((view r).claims.known l).isSome = true := by
        rw [← hknown r l, hy]
        rfl
      rw [h.only hsome hk, Function.update_self, hw, View.setKnown_self] at hy
      rw [Memory.setProc_self]
      exact Option.some_inj.mp hy
    · rw [Memory.setProc_of_ne hl]
      refine h.known r l y ?_
      by_cases hr : r = p
      · subst hr
        rw [Function.update_self, hw, View.setKnown_of_ne hl] at hy
        exact hy
      · rwa [Function.update_of_ne hr] at hy
  · by_cases hlk : l = k
    · exact ⟨p, by rw [hknown, hlk, hk]; rfl⟩
    · rw [Memory.setProc_of_ne hlk] at hl
      obtain ⟨r, hr⟩ := h.kstack l hl
      exact ⟨r, by rwa [hknown]⟩
  · have hnone := h.unused l ((hstate l).symm.trans hl) r
    rw [← Option.not_isSome_iff_eq_none, hknown r l, hnone]
    exact nofun
  · rw [hstate l] at hl
    rw [hknown]
    exact h.alive l hl
  · rw [hstate l] at hl
    obtain ⟨r, hr, hor⟩ := h.zombie l hl
    exact ⟨r, by rwa [hknown], by rwa [hreaping r]⟩
  · rw [hlock r]
    exact h.lock r
  · rw [hreaping r] at hl
    rw [hlock r]
    exact h.reaping r l hl

theorem takeUnused {n : ℤ} (hk : (m.proc k).state = .unused) (hstate : x.state = .embryo)
    (hknown : x.known = (m.proc k).known) :
    ControlInv (Function.update view p ((view p).setKnown k (some x.known)))
      { m.setProc k x with nextpid := n } := by
  have hnone := h.unused k hk
  have hreaping :
      ∀ r, (Function.update view p ((view p).setKnown k (some x.known)) r).claims.reaping =
      (view r).claims.reaping := View.claims_update Claims.reaping rfl
  have hlock : ∀ r, (Function.update view p ((view p).setKnown k (some x.known)) r).claims.lock =
      (view r).claims.lock := View.claims_update Claims.lock rfl
  have hold : ∀ {r l}, l ≠ k →
      (Function.update view p ((view p).setKnown k (some x.known)) r).claims.known l =
        (view r).claims.known l := by
    intro r l hl
    by_cases hr : r = p
    · subst hr
      rw [Function.update_self, View.setKnown_of_ne hl]
    · rw [Function.update_of_ne hr]
  have hself : (Function.update view p ((view p).setKnown k (some x.known)) p).claims.known k =
      some x.known := by rw [Function.update_self, View.setKnown_self]
  have hproc : ∀ {l}, l ≠ k → ({ m.setProc k x with nextpid := n } : Memory).proc l = m.proc l :=
    fun hl => Memory.setProc_of_ne hl
  have hprocSelf : ({ m.setProc k x with nextpid := n } : Memory).proc k = x := Memory.setProc_self
  have hother :
      ∀ {r}, (Function.update view p ((view p).setKnown k (some x.known)) r).claims.known k ≠ none →
      r = p := by
    intro r hr
    by_contra hrp
    rw [Function.update_of_ne hrp] at hr
    exact hr (hnone r)
  refine ⟨fun r l y hy => ?_, ?_, fun l hl => ?_, fun l hl r => ?_, fun l hl => ?_, fun l hl => ?_,
    fun r => ?_, fun r l hl => ?_⟩
  · by_cases hl : l = k
    · subst hl
      have hr : r = p := hother (by rw [hy]; exact nofun)
      rw [hr, hself] at hy
      rw [hprocSelf]
      exact Option.some_inj.mp hy
    · rw [hold hl] at hy
      rw [hproc hl]
      exact h.known r l y hy
  · refine h.control.put (A := fun l => l = k) (e := p) (fun l hl r => ?_) fun l r hl => ?_
    · rw [hl, hnone r]
      exact nofun
    · by_cases hlk : l = k
      · subst hlk
        exact .inr ⟨rfl, hother fun heq => by rw [heq] at hl; cases hl⟩
      · rw [hold hlk] at hl
        exact .inl hl
  · by_cases hlk : l = k
    · exact ⟨p, by rw [hlk, hself]; rfl⟩
    · rw [hproc hlk] at hl
      obtain ⟨r, hr⟩ := h.kstack l hl
      exact ⟨r, by rwa [hold hlk]⟩
  · by_cases hlk : l = k
    · rw [hlk, hprocSelf, hstate] at hl
      cases hl
    · rw [hproc hlk] at hl
      rw [hold hlk]
      exact h.unused l hl r
  · by_cases hlk : l = k
    · rw [hlk, hprocSelf, hstate] at hl
      rcases hl with hl | hl | hl <;> cases hl
    · rw [hproc hlk] at hl
      rw [hold hlk]
      exact h.alive l hl
  · by_cases hlk : l = k
    · rw [hlk, hprocSelf, hstate] at hl
      cases hl
    · rw [hproc hlk] at hl
      obtain ⟨r, hr, hor⟩ := h.zombie l hl
      exact ⟨r, by rwa [hold hlk], by rwa [hreaping r]⟩
  · rw [hlock r]
    exact h.lock r
  · rw [hreaping r] at hl
    rw [hlock r]
    exact h.reaping r l hl

theorem setUnused (hk : (view p).claims.known k = some e) (hstate : x.state = .unused)
    (hkstack : x.kstack = 0)
    (hreaping : (view p).claims.reaping = none ∨ (view p).claims.reaping = some k) :
    ControlInv (Function.update view p (((view p).setKnown k none).setReaping none))
    (m.setProc k x) := by
  have hold : ∀ {r l}, l ≠ k →
      (Function.update view p (((view p).setKnown k none).setReaping none) r).claims.known l =
        (view r).claims.known l := by
    intro r l hl
    by_cases hr : r = p
    · subst hr
      rw [Function.update_self]
      exact View.setKnown_of_ne hl
    · rw [Function.update_of_ne hr]
  have hnone :
      ∀ r, (Function.update view p (((view p).setKnown k none).setReaping none) r).claims.known k =
      none := by
    intro r
    by_cases hr : r = p
    · subst hr
      rw [Function.update_self]
      exact View.setKnown_self
    · rw [Function.update_of_ne hr]
      by_contra hne
      exact hr (h.only (Option.isSome_iff_ne_none.mpr hne) hk)
  have hlock :
      ∀ r, (Function.update view p (((view p).setKnown k none).setReaping none) r).claims.lock =
      (view r).claims.lock := View.claims_update Claims.lock rfl
  refine ⟨fun r l y hy => ?_, ?_, fun l hl => ?_, fun l hl r => ?_, fun l hl => ?_, fun l hl => ?_,
    fun r => ?_, fun r l hl => ?_⟩
  · by_cases hl : l = k
    · rw [hl, hnone r] at hy
      cases hy
    · rw [hold hl] at hy
      rw [Memory.setProc_of_ne hl]
      exact h.known r l y hy
  · refine h.control.mono fun l r hl => ?_
    by_cases hlk : l = k
    · rw [hlk, hnone r] at hl
      cases hl
    · rwa [hold hlk] at hl
  · by_cases hlk : l = k
    · rw [hlk, Memory.setProc_self] at hl
      exact absurd hkstack hl
    · rw [Memory.setProc_of_ne hlk] at hl
      obtain ⟨r, hr⟩ := h.kstack l hl
      exact ⟨r, by rwa [hold hlk]⟩
  · by_cases hlk : l = k
    · rw [hlk]
      exact hnone r
    · rw [Memory.setProc_of_ne hlk] at hl
      rw [hold hlk]
      exact h.unused l hl r
  · by_cases hlk : l = k
    · rw [hlk, Memory.setProc_self, hstate] at hl
      rcases hl with hl | hl | hl <;> cases hl
    · rw [Memory.setProc_of_ne hlk] at hl
      rw [hold hlk]
      exact h.alive l hl
  · by_cases hlk : l = k
    · rw [hlk, Memory.setProc_self, hstate] at hl
      cases hl
    · rw [Memory.setProc_of_ne hlk] at hl
      obtain ⟨r, hr, hor⟩ := h.zombie l hl
      refine ⟨r, by rwa [hold hlk], ?_⟩
      by_cases hrp : r = p
      · subst hrp
        rcases hor with hor | hor
        · exact .inl hor
        · rcases hreaping with hnone | hsome
          · rw [hnone] at hor
            cases hor
          · rw [hsome] at hor
            cases hor
            exact absurd rfl hlk
      · rwa [Function.update_of_ne hrp]
  · rw [hlock r]
    exact h.lock r
  · by_cases hrp : r = p
    · subst hrp
      rw [Function.update_self] at hl
      cases hl
    · rw [Function.update_of_ne hrp] at hl ⊢
      exact h.reaping r l hl

theorem handOver (hpq : p ≠ q) (hk : (view p).claims.known k = some e)
    (hknown : ∀ r, (view' r).claims.known = (SharedMemory.handOver view p q k e T r).claims.known)
    (hproc : ∀ l, l ≠ k → m'.proc l = m.proc l) (hself : (m'.proc k).known = e)
    (hstate : (m'.proc k).state ≠ .unused) (halive : Alive (m'.proc k).state → q = k)
    (hzombie : (m'.proc k).state = .zombie → (view' q).claims.reaping = some k)
    (hreap : ∀ r l, (view r).claims.reaping = some l → (view' r).claims.reaping = some l)
    (hlock : ∀ r, (view' r).claims.lock = true ↔ m'.lock = some r)
    (hreaping : ∀ r l, (view' r).claims.reaping = some l → (view' r).claims.lock = true) :
    ControlInv view' m' := by
  have hold : ∀ r l, l ≠ k → (view' r).claims.known l = (view r).claims.known l := by
    intro r l hl
    rw [hknown r]
    by_cases hq : r = q
    · subst hq
      rw [handOver_receiver]
      exact View.setKnown_of_ne hl
    · by_cases hp : r = p
      · subst hp
        rw [handOver_giver hpq]
        exact View.setKnown_of_ne hl
      · rw [handOver_of_ne hp hq]
  have hq : (view' q).claims.known k = some e := by
    rw [hknown q, handOver_receiver]
    exact View.setKnown_self
  have honly : ∀ r, ((view' r).claims.known k).isSome = true → r = q := by
    intro r hr
    by_contra hrq
    rw [hknown r] at hr
    by_cases hrp : r = p
    · subst hrp
      rw [handOver_giver hpq] at hr
      have hnone : ((view r).give k e.pgdir).claims.known k = none := View.setKnown_self
      rw [hnone] at hr
      cases hr
    · rw [handOver_of_ne hrp hrq] at hr
      exact hrp (h.only hr hk)
  refine ⟨fun r l y hy => ?_, fun l r r' hr hr' => ?_, fun l hl => ?_, fun l hl r => ?_,
    fun l hl => ?_,
    fun l hl => ?_, hlock, hreaping⟩
  · by_cases hl : l = k
    · subst hl
      have hr : r = q := honly r (by rw [hy]; rfl)
      rw [hr, hq] at hy
      rw [hself]
      exact Option.some_inj.mp hy
    · rw [hold r l hl] at hy
      rw [hproc l hl]
      exact h.known r l y hy
  · by_cases hl : l = k
    · subst hl
      rw [honly r hr, honly r' hr']
    · dsimp only at hr hr'
      rw [hold _ l hl] at hr hr'
      exact h.control l r r' hr hr'
  · by_cases hlk : l = k
    · exact ⟨q, by rw [hlk, hq]; rfl⟩
    · rw [hproc l hlk] at hl
      obtain ⟨r, hr⟩ := h.kstack l hl
      exact ⟨r, by rwa [hold r l hlk]⟩
  · by_cases hlk : l = k
    · rw [hlk] at hl
      exact absurd hl hstate
    · rw [hproc l hlk] at hl
      rw [hold r l hlk]
      exact h.unused l hl r
  · by_cases hlk : l = k
    · rw [hlk] at hl ⊢
      have hqk := halive hl
      subst hqk
      rw [hq]
      rfl
    · rw [hproc l hlk] at hl
      rw [hold l l hlk]
      exact h.alive l hl
  · by_cases hlk : l = k
    · rw [hlk] at hl ⊢
      exact ⟨q, by rw [hq]; rfl, .inr (hzombie hl)⟩
    · rw [hproc l hlk] at hl
      obtain ⟨r, hr, hor⟩ := h.zombie l hl
      exact ⟨r, by rwa [hold r l hlk], hor.imp_right (hreap r l)⟩

end ControlInv

theorem EndInv.handOver (h : EndInv view m) (hpq : p ≠ q)
    (hends : ∀ r, (view' r).claims.ends = (SharedMemory.handOver view p q k e T r).claims.ends)
    (hfile : ∀ i, (m'.file i).pipe = (m.file i).pipe)
    (hpipe : m'.pipe = m.pipe) : EndInv view' m' := by
  refine h.congr (fun r => (hends r).trans ?_) hfile hpipe
  by_cases hq : r = q
  · subst hq
    rw [handOver_receiver]
    rfl
  · by_cases hp : r = p
    · subst hp
      rw [handOver_giver hpq]
      rfl
    · rw [handOver_of_ne hp hq]

structure Inv (view : Fin NPROC → View) (s : System) : Prop where
  pages : PageInv view s.memory
  ends : EndInv view s.memory
  control : ControlInv view s.memory
  running : ∀ p x, s.thread p = some x →
    x.Safe (Rule p) (Leaves p) (view p) ∧ ((view p).claims.known p).isSome = true
  idle : ∀ p, s.thread p = none →
    Quiet (view p) ∧ (((view p).claims.known p).isSome = true → Home p (view p))
  exited : ∀ p, (s.memory.proc p).state = .zombie → s.thread p = none

/-- What an action of a process leaves behind. -/
structure Outcome (view view' : Fin NPROC → View) (s : System) (p : Fin NPROC)
    (m : Memory) : Prop where
  pages : PageInv view' m
  ends : EndInv view' m
  control : ControlInv view' m
  known : ((view' p).claims.known p).isSome = true
  others : ∀ q, q ≠ p → view' q = view q ∨ s.thread q = none ∧ Quiet (view' q) ∧
    (((view' q).claims.known q).isSome = true → Home q (view' q))
  exited : ∀ k, (m.proc k).state = .zombie → (s.memory.proc k).state = .zombie

variable {s : System} {a : Action} {R : a.Res → View → Prop} {r : a.Res}

theorem Outcome.self (hpages : PageInv (Function.update view p w) m)
    (hends : EndInv (Function.update view p w) m)
    (hcontrol : ControlInv (Function.update view p w) m)
    (hknown : (w.claims.known p).isSome = true)
    (hexited : ∀ k, (m.proc k).state = .zombie → (s.memory.proc k).state = .zombie) :
    Outcome view (Function.update view p w) s p m :=
  ⟨hpages, hends,
    hcontrol, by rwa [Function.update_self], fun q hq => .inl (Function.update_of_ne hq _ _),
    hexited⟩

namespace Inv

variable (h : Inv view s) (hp : ((view p).claims.known p).isSome = true)

include h hp

theorem outcome (hpages : PageInv (Function.update view p w) m)
    (hends : EndInv (Function.update view p w) m)
    (hknown : w.claims.known = (view p).claims.known)
    (hreaping : w.claims.reaping = (view p).claims.reaping)
    (hlock : w.claims.lock = (view p).claims.lock)
    (hproc : m.proc = s.memory.proc) (hm : m.lock = s.memory.lock) :
    Outcome view (Function.update view p w) s p m :=
  .self hpages hends (h.control.update hknown hreaping hlock hproc hm) (hknown ▸ hp)
    fun k hk => by rwa [hproc] at hk

theorem outcome_kfree (hu : (view p).Has f u)
    (hw : ∀ g u₁, w.Has g u₁ → (view p).Has g u₁ ∧ (g = f → u₁ ≠ u))
    (htree : ∀ d, d ≠ f → w.pgdir d = (view p).pgdir d)
    (hbuffer : ∀ g, (view p).claims.buffer = some g → g ≠ f → w.claims.buffer = some g)
    (hends : w.claims.ends = (view p).claims.ends) (hknown : w.claims.known = (view p).claims.known)
    (hreaping : w.claims.reaping = (view p).claims.reaping)
    (hlock : w.claims.lock = (view p).claims.lock) :
    Outcome view (Function.update view p w) s p (s.memory.free f) :=
  h.outcome hp (h.pages.kfree hu hw htree hbuffer)
    (h.ends.free h.pages hu hends) hknown hreaping hlock rfl rfl

theorem outcome_setPgdir {c : Option Pgdir}
    (hpages : PageInv (Function.update view p w) (s.memory.setPgdir d c))
    (hclaims : w.claims = (view p).claims) :
    Outcome view (Function.update view p w) s p (s.memory.setPgdir d c) :=
  h.outcome hp hpages (h.ends.update (by rw [hclaims]) (fun _ => rfl) rfl) (by rw [hclaims])
    (by rw [hclaims]) (by rw [hclaims]) rfl rfl

theorem outcome_setProc (hpages : PageInv (Function.update view p w) (s.memory.setProc k x))
    (hk : (view p).claims.known k = some e) (hx : x.state = (s.memory.proc k).state)
    (hw : w.claims = ((view p).setKnown k (some x.known)).claims) :
    Outcome view (Function.update view p w) s p (s.memory.setProc k x) := by
  refine .self hpages (h.ends.update (by rw [hw]; rfl) (fun _ => rfl) rfl)
    (h.control.setKnown hk hx hw) ?_ fun l hl => ?_
  · rw [hw]
    by_cases hpk : p = k
    · rw [hpk, View.setKnown_self]
      rfl
    · rw [View.setKnown_of_ne hpk]
      exact hp
  · by_cases hlk : l = k
    · rw [hlk, Memory.setProc_self, hx] at hl
      rw [hlk]
      exact hl
    · rwa [Memory.setProc_of_ne hlk] at hl

end Inv

end SharedMemory

end Xv6Fairness
