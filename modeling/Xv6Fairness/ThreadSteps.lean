import Xv6Fairness.CallSafety
import Xv6Fairness.RuleSoundness

/-!
# The invariant along a run

One step of the system keeps the invariant: an action is allowed by a rule, a call is safe where it
begins, and a process leaves the kernel with nothing in the middle of being given back.
-/

namespace Xv6Fairness

open ThreadPrograms ExclusivePlaces TransitionRuns
open VirtualMemory (Linked)

namespace SharedMemory

variable {endFrame : ℕ} {data : UInt32} {view : Fin NPROC → View} {m m' : Memory}
  {p q k : Fin NPROC}
  {w : View} {s t : System}

theorem ControlInv.restate (h : ControlInv view m) (hp : ((view p).claims.known p).isSome = true)
    (hw : w.claims.known = (view p).claims.known)
    (hreaping : w.claims.reaping = (view p).claims.reaping)
    (hknown : ∀ l, (m'.proc l).known = (m.proc l).known)
    (hstate : ∀ l, l ≠ p → (m'.proc l).state = (m.proc l).state)
    (hused : (m'.proc p).state ≠ .unused)
    (hlock : ∀ r, (Function.update view p w r).claims.lock = true ↔ m'.lock = some r)
    (hheld : ∀ l, w.claims.reaping = some l → w.claims.lock = true) :
    ControlInv (Function.update view p w) m' := by
  have hall : ∀ r, (Function.update view p w r).claims.known = (view r).claims.known :=
    View.claims_update Claims.known hw
  have hreap : ∀ r, (Function.update view p w r).claims.reaping = (view r).claims.reaping :=
    View.claims_update Claims.reaping hreaping
  refine ⟨fun r l e he => ?_, h.control.mono fun l r hl => by rwa [hall r] at hl, fun l hl => ?_,
    fun l hl r => ?_, fun l hl => ?_, fun l hl => ?_, hlock, fun r l hl => ?_⟩
  · rw [hknown l]
    exact h.known r l e (hall r ▸ he)
  · have hkstack : (m'.proc l).kstack = (m.proc l).kstack := congrArg Known.kstack (hknown l)
    rw [hkstack] at hl
    obtain ⟨r, hr⟩ := h.kstack l hl
    exact ⟨r, by rwa [hall r]⟩
  · by_cases hlp : l = p
    · exact absurd (hlp ▸ hl) hused
    · rw [hstate l hlp] at hl
      rw [hall r]
      exact h.unused l hl r
  · rw [hall l]
    by_cases hlp : l = p
    · exact hlp ▸ hp
    · rw [hstate l hlp] at hl
      exact h.alive l hl
  · by_cases hlp : l = p
    · exact ⟨p, by rw [hall p, hlp]; exact hp, .inl hlp.symm⟩
    · rw [hstate l hlp] at hl
      obtain ⟨r, hr, hor⟩ := h.zombie l hl
      exact ⟨r, by rwa [hall r], by rwa [hreap r]⟩
  · by_cases hrp : r = p
    · subst hrp
      rw [Function.update_self] at hl ⊢
      exact hheld l hl
    · rw [Function.update_of_ne hrp] at hl ⊢
      exact h.reaping r l hl

theorem Memory.exited_proc (m : Memory) (p l : Fin NPROC) :
    ((m.exited p).proc l).known = (m.proc l).known ∧
      ((m.exited p).proc l).state = if l = p then .zombie else (m.proc l).state := by
  rw [Memory.exited]
  dsimp only
  by_cases hl : l = p
  · subst hl
    rw [Function.update_self, if_pos rfl]
    split_ifs
    · exact ⟨rfl, rfl⟩
    · exact ⟨rfl, rfl⟩
  · rw [Function.update_of_ne hl, if_neg hl]
    split_ifs
    · exact ⟨rfl, rfl⟩
    · exact ⟨rfl, rfl⟩

namespace Inv

variable (h : Inv view s)

include h

theorem setThread {x : Kernel Next} (hx : x.Safe (Rule p) (Leaves p) (view p))
    (hp : ((view p).claims.known p).isSome = true) (halive : (s.memory.proc p).state ≠ .zombie) :
    Inv view (s.setThread p (some x)) := by
  refine ⟨h.pages, h.ends, h.control, fun q y hy => ?_, fun q hq => ?_, fun q hq => ?_⟩
  · change Function.update s.thread p _ q = some y at hy
    by_cases hqp : q = p
    · subst hqp
      rw [Function.update_self] at hy
      cases hy
      exact ⟨hx, hp⟩
    · rw [Function.update_of_ne hqp] at hy
      exact h.running q y hy
  · change Function.update s.thread p _ q = none at hq
    by_cases hqp : q = p
    · subst hqp
      rw [Function.update_self] at hq
      cases hq
    · rw [Function.update_of_ne hqp] at hq
      exact h.idle q hq
  · have hqp : q ≠ p := by
      rintro rfl
      exact halive hq
    exact (Function.update_of_ne hqp _ _).trans (h.exited q hq)

theorem not_zombie {y : Kernel Next} (hthread : s.thread p = some y) :
    (s.memory.proc p).state ≠ .zombie := by
  intro hzombie
  rw [h.exited p hzombie] at hthread
  cases hthread

theorem act (hpos : 0 < endFrame) {a : Action} {y : a.Res → Kernel Next} {r : a.Res}
    (hthread : s.thread p = some (.act a y))
    (hrun : Memory.run endFrame p a s.memory = some (r, m)) :
    ∃ view', Inv view' ⟨m, Function.update s.thread p (some (y r))⟩ := by
  obtain ⟨⟨R, hrule, hy⟩, hp⟩ := h.running p _ hthread
  obtain ⟨view', hR, hout⟩ := h.rule_sound hp hthread hpos hrule hrun
  refine ⟨view', hout.pages, hout.ends, hout.control, fun q x hx => ?_, fun q hq => ?_,
    fun q hq => ?_⟩
  · by_cases hqp : q = p
    · subst hqp
      change Function.update s.thread q _ q = some x at hx
      rw [Function.update_self] at hx
      cases hx
      exact ⟨hy r _ hR, hout.known⟩
    · have hq : s.thread q = some x := (Function.update_of_ne hqp _ _).symm.trans hx
      rcases hout.others q hqp with heq | ⟨hnone, -⟩
      · rw [heq]
        exact h.running q x hq
      · rw [hnone] at hq
        cases hq
  · by_cases hqp : q = p
    · subst hqp
      change Function.update s.thread q _ q = none at hq
      rw [Function.update_self] at hq
      cases hq
    · rcases hout.others q hqp with heq | ⟨-, hidle⟩
      · rw [heq]
        exact h.idle q ((Function.update_of_ne hqp _ _).symm.trans hq)
      · exact hidle
  · have hold := h.exited q (hout.exited q hq)
    have hqp : q ≠ p := by
      rintro rfl
      rw [hthread] at hold
      cases hold
    exact (Function.update_of_ne hqp _ _).trans hold

theorem exit (hthread : s.thread p = some (.ret .exit)) :
    Inv (Function.update view p ((view p).setLock false))
      ⟨s.memory.exited p, Function.update s.thread p none⟩ := by
  obtain ⟨⟨hlock, hidle⟩, hp⟩ := h.running p _ hthread
  have hheld := (h.control.lock p).mp hlock
  have hproc := Memory.exited_proc s.memory p
  refine ⟨h.pages.quiet rfl rfl rfl rfl rfl fun g u hu => hu.congr rfl rfl rfl rfl rfl,
    h.ends.update rfl (fun _ => rfl) rfl, ?_, fun q x hx => ?_, fun q hq => ?_, fun q hq => ?_⟩
  · refine h.control.restate hp rfl rfl (fun l => (hproc l).1)
      (fun l hl => ?_) ?_ (fun r => ?_) fun l hl => ?_
    · rw [(hproc l).2, if_neg hl]
    · rw [(hproc p).2, if_pos rfl]
      exact nofun
    · by_cases hr : r = p
      · rw [hr, Function.update_self]
        exact iff_of_false nofun nofun
      · rw [Function.update_of_ne hr, h.control.lock r, hheld]
        exact iff_of_false (fun heq => hr (Option.some_inj.mp heq).symm) nofun
    · have hnone : (view p).claims.reaping = none := hidle.reaping
      change (view p).claims.reaping = some l at hl
      rw [hnone] at hl
      cases hl
  · by_cases hqp : q = p
    · subst hqp
      change Function.update s.thread q _ q = some x at hx
      rw [Function.update_self] at hx
      cases hx
    · rw [Function.update_of_ne hqp]
      exact h.running q x ((Function.update_of_ne hqp _ _).symm.trans hx)
  · by_cases hqp : q = p
    · subst hqp
      rw [Function.update_self]
      exact ⟨hidle.toQuiet, fun _ => hidle.home⟩
    · rw [Function.update_of_ne hqp]
      exact h.idle q ((Function.update_of_ne hqp _ _).symm.trans hq)
  · by_cases hqp : q = p
    · subst hqp
      exact Function.update_self _ _ _
    · change ((s.memory.exited p).proc q).state = .zombie at hq
      rw [(hproc q).2, if_neg hqp] at hq
      exact (Function.update_of_ne hqp _ _).trans (h.exited q hq)

theorem leave (hidle : Idle p (view p)) : Inv view (s.setThread p none) := by
  refine ⟨h.pages, h.ends, h.control, fun q y hy => ?_, fun q hq => ?_, fun q hq => ?_⟩
  · change Function.update s.thread p _ q = some y at hy
    by_cases hqp : q = p
    · subst hqp
      rw [Function.update_self] at hy
      cases hy
    · rw [Function.update_of_ne hqp] at hy
      exact h.running q y hy
  · change Function.update s.thread p _ q = none at hq
    by_cases hqp : q = p
    · subst hqp
      exact ⟨hidle.toQuiet, fun _ => hidle.home⟩
    · rw [Function.update_of_ne hqp] at hq
      exact h.idle q hq
  · change Function.update s.thread p _ q = none
    by_cases hqp : q = p
    · subst hqp
      exact Function.update_self _ _ _
    · rw [Function.update_of_ne hqp]
      exact h.exited q hq

theorem turn {st : ProcState} (halive : Alive (s.memory.proc p).state) (hst : Alive st) :
    Inv view { s with memory := s.memory.setProc p { s.memory.proc p with state := st } } := by
  have hp := h.control.alive p halive
  have hpages : PageInv (Function.update view p (view p))
      (s.memory.setProc p { s.memory.proc p with state := st }) :=
    h.pages.quiet rfl rfl rfl rfl rfl fun _ _ hu => hu
  have hcontrol : ControlInv (Function.update view p (view p))
      (s.memory.setProc p { s.memory.proc p with state := st }) := by
    refine h.control.restate hp rfl rfl (fun l => ?_) (fun l hl => ?_) ?_ (fun r => ?_)
      (h.control.reaping p)
    · by_cases hl : l = p
      · rw [hl, Memory.setProc_self]
        rfl
      · rw [Memory.setProc_of_ne hl]
    · rw [Memory.setProc_of_ne hl]
    · rw [Memory.setProc_self]
      rintro rfl
      rcases hst with hst | hst | hst <;> cases hst
    · rw [Function.update_eq_self]
      exact h.control.lock r
  rw [Function.update_eq_self] at hpages hcontrol
  refine ⟨hpages, h.ends.congr (fun _ => rfl) (fun _ => rfl) rfl, hcontrol, h.running, h.idle,
    fun q hq => ?_⟩
  change ((s.memory.setProc p _).proc q).state = .zombie at hq
  by_cases hqp : q = p
  · rw [hqp, Memory.setProc_self] at hq
    dsimp only at hq
    rw [hq] at hst
    rcases hst with hst | hst | hst <;> cases hst
  · rw [Memory.setProc_of_ne hqp] at hq
    exact h.exited q hq

theorem step (hpos : 0 < endFrame) (hdata : Linked data) (hstep : System.Step data endFrame s t) :
    ∃ view', Inv view' t := by
  cases hstep with
  | call c hidle halive =>
      have hp := h.control.alive _ halive
      obtain ⟨hquiet, hhome⟩ := h.idle _ hidle
      refine ⟨view, h.setThread (c.prog_safe hdata ⟨hquiet, hhome hp⟩) hp fun hzombie => ?_⟩
      rw [hzombie] at halive
      rcases halive with halive | halive | halive <;> cases halive
  | act hthread hrun => exact h.act hpos hthread hrun
  | leave hthread =>
      obtain ⟨hidle, -⟩ := h.running _ _ hthread
      exact ⟨view, h.leave hidle⟩
  | wakeup hthread =>
      obtain ⟨hidle, hp⟩ := h.running _ _ hthread
      exact ⟨view, h.setThread (wait_safe hidle) hp (h.not_zombie hthread)⟩
  | exit hthread => exact ⟨_, h.exit hthread⟩
  | turn halive hst => exact ⟨view, h.turn halive hst⟩

end Inv

end SharedMemory

end Xv6Fairness
