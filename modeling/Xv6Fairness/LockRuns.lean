import Mathlib.Order.Basic
import Mathlib.Tactic.Cases
import Xv6Fairness.LockRules

/-!
# Runs with spin locks

The rules of the locks hold on every CPU in every run: what a CPU holds is a list of locks that fits
its `ncli` and its interrupts, and what a thread does behind `swtch` is in order with `ptable.lock`
alone. So no panic of `spinlock.c` or of `sched` comes up, and of the CPUs that want locks some can
always go on.
-/

namespace Xv6Fairness

namespace SpinLocks

open ThreadPrograms Prog TransitionRuns

section RankedWaiting

variable {ρ σ : Type*} {wants holds : ρ → σ → Prop} {rank : σ → ℕ} {bound : ℕ}

/-- Who wants what has a higher rank than all that he holds waits in the end for one who does not
wait. -/
theorem exists_holder_not_waiting (hbound : ∀ l, rank l ≤ bound)
    (hrank : ∀ p l m, wants p l → holds p m → rank m < rank l)
    (hheld : ∀ p l, wants p l → ∃ q, holds q l)
    {p : ρ} {l : σ} (h : wants p l) : ∃ q m, holds q m ∧ ∀ m', ¬wants q m' := by
  induction hn : bound - rank l using Nat.strong_induction_on generalizing p l with
  | _ n ih =>
      obtain ⟨q, hq⟩ := hheld p l h
      by_cases hwait : ∃ m', wants q m'
      · obtain ⟨m, hm⟩ := hwait
        have hlt := hrank q m l hm hq
        have hle := hbound m
        exact ih (bound - rank m) (by omega) hm rfl
      · exact ⟨q, l, hq, not_exists.mp hwait⟩

end RankedWaiting

namespace View

variable {v : View}

theorem off_iff : v.off = true ↔ v.held.length + v.extra ≠ 0 := by
  cases hheld : v.held <;> simp [off, hheld]

theorem eflags_iff : v.eflags = true ↔ v.held.length + v.extra = 0 ∧ v.irq = true := by
  rw [eflags, Bool.and_eq_true, Bool.not_eq_true', ← Bool.not_eq_true, off_iff, not_not]

theorem eq_free (h : v.eflags = true) (hz : v.zombie = true → v.held ≠ []) : v = .free true := by
  obtain ⟨hsum, hirq⟩ := eflags_iff.mp h
  obtain ⟨held, extra, irq, zombie⟩ := v
  obtain rfl : held = [] := List.length_eq_zero_iff.mp (by simp only at hsum; omega)
  obtain rfl : extra = 0 := by simp only at hsum; omega
  obtain rfl : irq = true := hirq
  cases zombie with
  | false => rfl
  | true => exact absurd rfl (hz rfl)

end View

variable {κ ι : Type}

/-- What the CPU shows of its view. -/
structure Shows (x : Cpu ι) (v : View) : Prop where
  ncli : x.ncli = v.held.length + v.extra
  eflags : x.eflags = v.eflags
  intena : v.off = true → x.intena = v.irq

/-- The views at the end of a function. Threads come back to where their interrupts are on. -/
def Rest : Agent κ ι → Unit → View → Prop
  | .scheduler _, _, w => ∃ b, w = .free b
  | .thread _, _, w => w = .free true

def isZombie (z : ι → Bool) : Agent κ ι → Bool
  | .scheduler _ => false
  | .thread i => z i

namespace System

variable [DecidableEq κ] [DecidableEq ι] {s : System κ ι} {v : κ → View} {c : κ} {w : View}
  {x : Cpu ι}
  {k : Script}

structure Inv (s : System κ ι) (v : κ → View) : Prop where
  lock : ∀ l c, s.lock l = some c ↔ l ∈ (v c).held
  nodup : ∀ c, (v c).held.Nodup
  cpu : ∀ c, Shows (s.cpu c) (v c)
  safe : ∀ c, (s.script c).Safe rule (Rest (s.agent c)) (v c)
  zombie : ∀ c, (v c).zombie = isZombie s.zombie (s.agent c)
  held : ∀ c, (v c).zombie = true → (v c).held ≠ []
  agents : Function.Injective s.agent
  waiting : ∀ a, (∀ c, s.agent c ≠ a) → isZombie s.zombie a = false →
    ∀ b, (s.todo a).Safe rule (Rest a) (.switched b)

theorem Inv.proceed (h : Inv s v) {L : Lock → Option κ} {z : ι → Bool}
    (hproc : x.proc = (s.cpu c).proc)
    (hlock : ∀ l d, L l = some d ↔ l ∈ (Function.update v c w d).held) (hnodup : w.held.Nodup)
    (hcpu : Shows x w) (hk : k.Safe rule (Rest (s.agent c)) w)
    (hzombie : w.zombie = isZombie z (s.agent c)) (hheld : w.zombie = true → w.held ≠ [])
    (hz : ∀ a, a ≠ s.agent c → isZombie z a = isZombie s.zombie a) :
    Inv ⟨L, Function.update s.cpu c x, Function.update s.todo (s.agent c) k, z⟩
    (Function.update v c w) := by
  have hagent :
      ∀ d, agent ⟨L, Function.update s.cpu c x, Function.update s.todo (s.agent c) k, z⟩ d =
      s.agent d := by
    intro d
    by_cases hd : d = c
    · subst hd
      simp [agent, hproc]
    · simp [agent, hd]
  have hother : ∀ {d}, d ≠ c → s.agent d ≠ s.agent c := fun hd => h.agents.ne hd
  constructor
  case lock => exact hlock
  case nodup =>
    intro d
    by_cases hd : d = c
    · subst hd
      simpa using hnodup
    · simpa [hd] using h.nodup d
  case cpu =>
    intro d
    by_cases hd : d = c
    · subst hd
      simpa using hcpu
    · simpa [hd] using h.cpu d
  case safe =>
    intro d
    rw [script, hagent]
    by_cases hd : d = c
    · subst hd
      simpa using hk
    · have hsafe := h.safe d
      rw [script] at hsafe
      simpa [hd, hother hd] using hsafe
  case zombie =>
    intro d
    rw [hagent]
    by_cases hd : d = c
    · subst hd
      simpa using hzombie
    · simpa [hd, hz _ (hother hd)] using h.zombie d
  case held =>
    intro d
    by_cases hd : d = c
    · subst hd
      simpa using hheld
    · simpa [hd] using h.held d
  case agents =>
    intro d e hde
    rw [hagent, hagent] at hde
    exact h.agents hde
  case waiting =>
    intro a ha halive b
    have hne : a ≠ s.agent c := fun heq => ha c (by rw [hagent, heq])
    rw [hz a hne] at halive
    simpa [hne] using h.waiting a (fun d hd => ha d (by rw [hagent, hd])) halive b

omit [DecidableEq ι] in
theorem Inv.lock_update (h : Inv s v) (hheld : w.held = (v c).held) (l : Lock) (d : κ) :
    s.lock l = some d ↔ l ∈ (Function.update v c w d).held := by
  rw [h.lock]
  by_cases hd : d = c
  · subst hd
    simp [hheld]
  · simp [hd]

theorem Inv.own (h : Inv s v) (hproc : x.proc = (s.cpu c).proc) (hheld : w.held = (v c).held)
    (hzombie : w.zombie = (v c).zombie) (hcpu : Shows x w) (hk : k.Safe rule (Rest (s.agent c)) w) :
    Inv ((s.setScript c k).setCpu c x) (Function.update v c w) := by
  have hz : w.zombie = isZombie s.zombie (s.agent c) := hzombie.trans (h.zombie c)
  have hkept : w.zombie = true → w.held ≠ [] := by
    rw [hzombie, hheld]
    exact h.held c
  exact h.proceed hproc (h.lock_update hheld) (hheld ▸ h.nodup c) hcpu hk hz hkept fun _ _ => rfl

theorem Inv.same (h : Inv s v) (hk : k.Safe rule (Rest (s.agent c)) (v c)) :
    Inv (s.setScript c k) v := by
  have hown := h.own rfl rfl rfl (h.cpu c) hk
  simpa [setCpu, setScript] using hown

omit [DecidableEq κ] [DecidableEq ι] in
theorem Inv.mycpu (h : Inv s v) {t : System κ ι} {r : Except String (System κ ι)}
    (hoff : (v c).eflags = false) (ht : ∃ v', Inv t v') (hr : s.mycpu c t = some r) :
    ∃ t, r = .ok t ∧ ∃ v', Inv t v' := by
  unfold System.mycpu at hr
  rw [if_neg (by simp [(h.cpu c).eflags, hoff])] at hr
  cases hr
  exact ⟨t, rfl, ht⟩

theorem Inv.xchg (h : Inv s v) {l : Lock} {n : ℕ} (hextra : (v c).extra = n + 1)
    (hl : l ∉ (v c).held)
    (hfree : s.lock l = none)
    (hk : k.Safe rule (Rest (s.agent c)) { v c with held := l :: (v c).held, extra := n }) :
    ∃ v', Inv ((s.setScript c k).setLock l (some c)) v' := by
  have hcpu := h.cpu c
  have hlock : ∀ m d, Function.update s.lock l (some c) m = some d ↔
      m ∈ (Function.update v c { v c with held := l :: (v c).held, extra := n } d).held := by
    intro m d
    by_cases hm : m = l
    · subst hm
      have hnot : m ∉ (v d).held := fun hmem => by simpa [hfree] using (h.lock m d).mpr hmem
      by_cases hd : d = c
      · subst hd
        simp
      · simp [hd, Ne.symm hd, hnot]
    · rw [Function.update_of_ne hm, h.lock]
      by_cases hd : d = c
      · subst hd
        simp [hm]
      · simp [hd]
  have hshows : Shows (s.cpu c) { v c with held := l :: (v c).held, extra := n } := by
    constructor
    · rw [hcpu.ncli, hextra]
      push_cast [List.length_cons]
      omega
    · simp [hcpu.eflags, View.eflags, View.off, hextra]
    · intro _
      exact hcpu.intena (by simp [View.off, hextra])
  have hproceed :=
    h.proceed (x := s.cpu c) rfl hlock (List.nodup_cons.mpr ⟨hl, h.nodup c⟩) hshows hk
    (h.zombie c) (fun _ => List.cons_ne_nil _ _) fun _ _ => rfl
  rw [Function.update_eq_self] at hproceed
  exact ⟨_, hproceed⟩

theorem Inv.unlock (h : Inv s v) {l : Lock} (hl : l ∈ (v c).held) (hzombie : (v c).zombie = false)
    (hk : k.Safe rule (Rest (s.agent c))
      { v c with held := (v c).held.erase l, extra := (v c).extra + 1 }) :
    ∃ v', Inv ((s.setScript c k).setLock l none) v' := by
  have hcpu := h.cpu c
  have hlength := List.length_erase_of_mem hl
  have hpos := List.length_pos_of_mem hl
  have hlock : ∀ m d, Function.update s.lock l none m = some d ↔
      m ∈ (Function.update v c { v c with held := (v c).held.erase l, extra := (v c).extra + 1 }
        d).held := by
    intro m d
    by_cases hm : m = l
    · subst hm
      by_cases hd : d = c
      · subst hd
        simp [(h.nodup d).mem_erase_iff]
      · have hnot : m ∉ (v d).held := fun hmem => by
          have hsame := ((h.lock m d).mpr hmem).symm.trans ((h.lock m c).mpr hl)
          exact hd (Option.some_inj.mp hsame)
        simp [hd, hnot]
    · rw [Function.update_of_ne hm, h.lock]
      by_cases hd : d = c
      · subst hd
        simp [List.mem_erase_of_ne hm]
      · simp [hd]
  have hoff : (v c).off = true := View.off_iff.mpr (by omega)
  have hshows : Shows (s.cpu c)
      { v c with held := (v c).held.erase l, extra := (v c).extra + 1 } := by
    constructor
    · rw [hcpu.ncli, hlength]
      push_cast [hpos]
      omega
    · rw [hcpu.eflags, View.eflags, hoff]
      simp [View.eflags, View.off]
    · intro _
      exact hcpu.intena hoff
  have hproceed := h.proceed (x := s.cpu c) rfl hlock ((h.nodup c).erase l) hshows hk (h.zombie c)
    (fun hz => absurd hz (by simp [hzombie])) fun _ _ => rfl
  rw [Function.update_eq_self] at hproceed
  exact ⟨_, hproceed⟩

theorem Inv.becomes_zombie (h : Inv s v) {j : ι} (hproc : (s.cpu c).proc = some j)
    (hheld : (v c).held ≠ []) (hk : k.Safe rule (Rest (s.agent c)) { v c with zombie := true }) :
    ∃ v', Inv { s.setScript c k with zombie := Function.update s.zombie j true } v' := by
  have hcpu := h.cpu c
  have hagent : s.agent c = .thread j := by simp [agent, hproc]
  have hz : ∀ a, a ≠ s.agent c →
      isZombie (Function.update s.zombie j true) a = isZombie s.zombie a := by
    rw [hagent]
    intro a ha
    cases a with
    | scheduler d => rfl
    | thread i =>
        have hi : i ≠ j := fun heq => ha (by rw [heq])
        simp [isZombie, hi]
  have hshows : Shows (s.cpu c) { v c with zombie := true } := ⟨hcpu.ncli, hcpu.eflags, hcpu.intena⟩
  have hproceed := h.proceed (x := s.cpu c)
      (w := { v c with zombie := true }) rfl (h.lock_update rfl)
    (h.nodup c) hshows hk (by simp [hagent, isZombie]) (fun _ => hheld) hz
  rw [Function.update_eq_self] at hproceed
  exact ⟨_, hproceed⟩

theorem Inv.pushcli (h : Inv s v)
    (hk : k.Safe rule (Rest (s.agent c)) { v c with extra := (v c).extra + 1 }) :
    Inv ((s.setScript c k).setCpu c { s.cpu c with
      eflags := false, ncli := (s.cpu c).ncli + 1
      intena := if (s.cpu c).ncli = 0 then (s.cpu c).eflags else (s.cpu c).intena })
      (Function.update v c { v c with extra := (v c).extra + 1 }) := by
  have hcpu := h.cpu c
  have hshows : Shows { s.cpu c with
      eflags := false, ncli := (s.cpu c).ncli + 1
      intena := if (s.cpu c).ncli = 0 then (s.cpu c).eflags else (s.cpu c).intena }
      { v c with extra := (v c).extra + 1 } := by
    constructor
    · rw [hcpu.ncli]
      push_cast
      omega
    · simp [View.eflags, View.off]
    · intro _
      by_cases hzero : (v c).held.length + (v c).extra = 0
      · have hoff : (v c).off = false := by
          rw [← Bool.not_eq_true, View.off_iff, not_not]
          exact hzero
        rw [if_pos (by rw [hcpu.ncli]; exact_mod_cast hzero), hcpu.eflags, View.eflags, hoff]
        rfl
      · rw [if_neg (by rw [hcpu.ncli]; exact_mod_cast hzero)]
        exact hcpu.intena (View.off_iff.mpr hzero)
  exact h.own rfl rfl rfl hshows hk

theorem Inv.popcli (h : Inv s v) {n : ℕ} (hextra : (v c).extra = n + 1)
    (hk : k.Safe rule (Rest (s.agent c)) { v c with extra := n }) :
    Inv ((s.setScript c k).setCpu c { s.cpu c with
      ncli := (s.cpu c).ncli - 1, eflags := (s.cpu c).ncli - 1 = 0 ∧ (s.cpu c).intena = true })
      (Function.update v c { v c with extra := n }) := by
  have hcpu := h.cpu c
  have hncli := hcpu.ncli
  rw [hextra] at hncli
  have hintena := hcpu.intena (View.off_iff.mpr (by omega))
  have hshows : Shows { s.cpu c with
      ncli := (s.cpu c).ncli - 1, eflags := (s.cpu c).ncli - 1 = 0 ∧ (s.cpu c).intena = true }
      { v c with extra := n } := by
    constructor
    · rw [hncli]
      push_cast
      omega
    · rw [Bool.eq_iff_iff, View.eflags_iff, decide_eq_true_eq, hintena]
      refine and_congr ?_ Iff.rfl
      change (s.cpu c).ncli - 1 = 0 ↔ (v c).held.length + n = 0
      rw [hncli]
      omega
    · intro _
      exact hintena
  exact h.own rfl rfl rfl hshows hk

theorem Inv.setIntena (h : Inv s v) {b : Bool} (hoff : (v c).off = true)
    (hk : k.Safe rule (Rest (s.agent c)) { v c with irq := b }) :
    Inv ((s.setScript c k).setCpu c { s.cpu c with intena := b })
      (Function.update v c { v c with irq := b }) := by
  have hcpu := h.cpu c
  have hshows : Shows { s.cpu c with intena := b } { v c with irq := b } := by
    refine ⟨hcpu.ncli, ?_, fun _ => rfl⟩
    rw [hcpu.eflags, View.eflags, hoff]
    simp only [View.off] at hoff
    simp [View.eflags, View.off, hoff]
  exact h.own rfl rfl rfl hshows hk

theorem Inv.setEflags (h : Inv s v) {b : Bool} (hoff : (v c).off = false)
    (hk : k.Safe rule (Rest (s.agent c)) { v c with irq := b }) :
    Inv ((s.setScript c k).setCpu c { s.cpu c with eflags := b })
      (Function.update v c { v c with irq := b }) := by
  have hcpu := h.cpu c
  simp only [View.off] at hoff
  have hshows : Shows { s.cpu c with eflags := b } { v c with irq := b } := by
    refine ⟨hcpu.ncli, ?_, fun hon => ?_⟩
    · simp [View.eflags, View.off, hoff]
    · simp [View.off, hoff] at hon
  exact h.own rfl rfl rfl hshows hk

theorem Inv.swtch (h : Inv s v) (hswitched : (v c).held = [.ptable] ∧ (v c).extra = 0)
    (hk : (v c).zombie = false → ∀ b, k.Safe rule (Rest (s.agent c)) (.switched b))
    (hx : x.ncli = (s.cpu c).ncli ∧ x.eflags = (s.cpu c).eflags ∧ x.intena = (s.cpu c).intena)
    {a : Agent κ ι} (ha : ∀ t : System κ ι, t.cpu c = x → t.agent c = a)
    (hfree : ∀ d, s.agent d ≠ a)
    (halive : isZombie s.zombie a = false) :
    Inv ((s.setScript c k).setCpu c x) (Function.update v c (.switched (v c).irq)) := by
  have hcpu := h.cpu c
  obtain ⟨hheld, hextra⟩ := hswitched
  have hown : ((s.setScript c k).setCpu c x).agent c = a := ha _ (by simp [setCpu])
  have hother : ∀ {d}, d ≠ c → ((s.setScript c k).setCpu c x).agent d = s.agent d := by
    intro d hd
    simp [agent, setCpu, setScript, hd]
  have htodo : ∀ {e}, e ≠ s.agent c → ((s.setScript c k).setCpu c x).todo e = s.todo e := by
    intro e he
    simp [setCpu, setScript, he]
  constructor
  case lock => exact h.lock_update hheld.symm
  case nodup =>
    intro d
    by_cases hd : d = c
    · subst hd
      simp
    · simpa [hd] using h.nodup d
  case cpu =>
    intro d
    by_cases hd : d = c
    · subst hd
      have hshows : Shows x (.switched (v d).irq) := by
        refine ⟨?_, ?_, fun _ => ?_⟩
        · rw [hx.1, hcpu.ncli, hheld, hextra]
        · rw [hx.2.1, hcpu.eflags, View.eflags, View.off, hheld]
          rfl
        · rw [hx.2.2]
          exact hcpu.intena (by simp [View.off, hheld])
      simpa [setCpu] using hshows
    · simpa [setCpu, setScript, hd] using h.cpu d
  case safe =>
    intro d
    rw [script]
    by_cases hd : d = c
    · subst hd
      rw [hown, htodo (Ne.symm (hfree d))]
      simpa using h.waiting a hfree halive (v d).irq
    · rw [hother hd, htodo (h.agents.ne hd), Function.update_of_ne hd]
      exact h.safe d
  case zombie =>
    intro d
    change _ = isZombie s.zombie _
    by_cases hd : d = c
    · subst hd
      simpa [hown] using halive.symm
    · simpa [hother hd, hd] using h.zombie d
  case held =>
    intro d
    by_cases hd : d = c
    · subst hd
      simp
    · simpa [hd] using h.held d
  case agents =>
    intro d e hde
    by_cases hd : d = c <;> by_cases he : e = c
    · rw [hd, he]
    · rw [hd, hown, hother he] at hde
      exact absurd hde.symm (hfree e)
    · rw [he, hown, hother hd] at hde
      exact absurd hde (hfree d)
    · rw [hother hd, hother he] at hde
      exact h.agents hde
  case waiting =>
    intro e he halive b
    by_cases hec : e = s.agent c
    · subst hec
      have hz := (h.zombie c).trans halive
      simpa [setCpu, setScript] using hk hz b
    · rw [htodo hec]
      refine h.waiting e (fun d hd => ?_) halive b
      by_cases hdc : d = c
      · exact hec (by rw [← hd, hdc])
      · exact he d ((hother hdc).trans hd)

/-- What an operation does that the rules allow: it does not panic, and the rules go on. -/
theorem Inv.exec [Fintype κ] (h : Inv s v) {a : Op} {k : a.Res → Script}
    (hs : s.script c = .act a k)
    {n : ℕ} {call : Call} {i : ι} {r : Except String (System κ ι)}
    (hr : s.exec c n call i a k = some r) :
    ∃ t, r = .ok t ∧ ∃ v', Inv t v' := by
  have hcpu := h.cpu c
  have hsafe := h.safe c
  rw [hs] at hsafe
  obtain ⟨R, hR, hk⟩ := hsafe
  cases a with
  | pushcli =>
      cases hr
      exact ⟨_, rfl, _, h.pushcli (hk _ _ hR)⟩
  | popcli =>
      obtain ⟨m, hextra, hR⟩ := hR
      have hncli := hcpu.ncli
      rw [hextra] at hncli
      have heflags :
          (s.cpu c).eflags = false := by simp [hcpu.eflags, View.eflags, View.off, hextra]
      simp only [System.exec, heflags, Bool.false_eq_true, if_false] at hr
      rw [if_neg (by omega)] at hr
      cases hr
      exact ⟨_, rfl, _, h.popcli hextra (hk _ _ hR)⟩
  | mycpu => exact h.mycpu hR.1 ⟨v, h.same (hk _ _ hR.2)⟩ hr
  | owner l =>
      have howner : decide (s.lock l = some c) = decide (l ∈ (v c).held) := by simp [h.lock]
      simp only [System.exec, howner] at hr
      exact h.mycpu hR.1 ⟨v, h.same (hk _ _ hR.2)⟩ hr
  | xchg l =>
      obtain ⟨⟨m, hextra, hR⟩, hl, -⟩ := hR
      simp only [System.exec] at hr
      split_ifs at hr with hfree
      cases hr
      exact ⟨_, rfl, h.xchg hextra hl hfree (hk _ _ hR)⟩
  | unlock l =>
      obtain ⟨hl, hzombie, hR⟩ := hR
      cases hr
      exact ⟨_, rfl, h.unlock hl hzombie (hk _ _ hR)⟩
  | ncli =>
      simp only [System.exec, hcpu.ncli] at hr
      exact h.mycpu hR.1 ⟨v, h.same (hk _ _ hR.2)⟩ hr
  | readeflags =>
      simp only [System.exec, hcpu.eflags] at hr
      cases hr
      exact ⟨_, rfl, v, h.same (hk _ _ hR)⟩
  | intena =>
      have heflags : (v c).eflags = false := by simp [View.eflags, hR.1]
      simp only [System.exec, hcpu.intena hR.1] at hr
      exact h.mycpu heflags ⟨v, h.same (hk _ _ hR.2)⟩ hr
  | setIntena b =>
      have heflags : (v c).eflags = false := by simp [View.eflags, hR.1]
      exact h.mycpu heflags ⟨_, h.setIntena hR.1 (hk _ _ hR.2)⟩ hr
  | swtch =>
      obtain ⟨hheld, hextra, hR⟩ := hR
      have hgo : (v c).zombie = false → ∀ b, (k ()).Safe rule (Rest (s.agent c)) (.switched b) := by
        intro hz b
        have hnext := hk _ _ (hR hz b)
        rwa [hheld, hextra, hz] at hnext
      cases hproc : (s.cpu c).proc with
      | some j =>
          simp only [System.exec, hproc] at hr
          cases hr
          have hfree : ∀ d, s.agent d ≠ .scheduler c := by
            intro d hd
            by_cases hdc : d = c
            · subst hdc
              simp [agent, hproc] at hd
            · cases hd' : (s.cpu d).proc <;> simp [agent, hd', hdc] at hd
          exact ⟨_, rfl, _, h.swtch ⟨hheld, hextra⟩ hgo ⟨rfl, rfl, rfl⟩
            (fun t ht => by simp [agent, ht])
            hfree rfl⟩
      | none =>
          simp only [System.exec, hproc] at hr
          split_ifs at hr with hnot
          cases hr
          obtain ⟨hz, hnone⟩ := not_or.mp hnot
          have hfree : ∀ d, s.agent d ≠ .thread i := by
            intro d hd
            cases hd' : (s.cpu d).proc with
            | none => simp [agent, hd'] at hd
            | some j =>
                simp only [agent, hd', Agent.thread.injEq] at hd
                exact hnone ⟨d, hd' ▸ congrArg some hd⟩
          exact ⟨_, rfl, _, h.swtch ⟨hheld, hextra⟩ hgo ⟨rfl, rfl, rfl⟩
            (fun t ht => by simp [agent, ht])
            hfree (by simpa [isZombie] using hz)⟩
  | sti | iret =>
      cases hr
      exact ⟨_, rfl, _, h.setEflags hR.1 (hk _ _ hR.2)⟩
  | zombie =>
      simp only [System.exec] at hr
      split at hr
      · cases hr
        exact ⟨_, rfl, h.becomes_zombie ‹_› hR.1 (hk _ _ hR.2)⟩
      · cases hr
  | choose =>
      cases hr
      exact ⟨_, rfl, v, h.same (hk _ _ (hR n))⟩
  | which =>
      cases hr
      exact ⟨_, rfl, v, h.same (hk _ _ (hR call))⟩
  | panic msg => exact hR.elim

omit [DecidableEq κ] [DecidableEq ι] in
theorem Inv.resting (h : Inv s v) (hrest : s.resting c = true) :
    (∃ j, s.agent c = .thread j) ∧ v c = .free true := by
  have hsafe := h.safe c
  unfold System.resting at hrest
  split at hrest
  case h_1 j hproc hscript =>
    have hagent : s.agent c = .thread j := by simp [agent, hproc]
    rw [hscript, hagent] at hsafe
    exact ⟨⟨j, hagent⟩, hsafe⟩
  case h_2 => cases hrest

theorem Inv.call (h : Inv s v) (hrest : s.resting c = true)
    (hk : k.Safe rule (fun _ w => w = .free true) (.free true)) : Inv (s.setScript c k) v := by
  obtain ⟨⟨j, hj⟩, hfree⟩ := h.resting hrest
  refine h.same ?_
  rw [hfree, hj]
  exact hk

theorem Inv.spawn (h : Inv s v) {i : ι} (hfree : ∀ d, s.agent d ≠ .thread i) :
    Inv { s with
      todo := Function.update s.todo (.thread i) forkret,
      zombie := Function.update s.zombie i false } v := by
  have hother : ∀ a : Agent κ ι, a ≠ .thread i →
      isZombie (Function.update s.zombie i false) a = isZombie s.zombie a := by
    intro a ha
    cases a with
    | scheduler d => rfl
    | thread j => simp [isZombie, show j ≠ i from fun heq => ha (by rw [heq])]
  refine ⟨h.lock, h.nodup, h.cpu, fun d => ?_, fun d => ?_, h.held, h.agents,
    fun a ha halive b => ?_⟩
  · change Prog.Safe rule (Rest (s.agent d))
      (Function.update s.todo (.thread i) forkret (s.agent d)) (v d)
    rw [Function.update_of_ne (hfree d)]
    exact h.safe d
  · exact (h.zombie d).trans (hother _ (hfree d)).symm
  · by_cases hai : a = .thread i
    · subst hai
      simp only [Function.update_self]
      exact forkret_leads
    · rw [hother a hai] at halive
      simpa [hai] using h.waiting a ha halive b

theorem Inv.interrupt (h : Inv s v) (irq : Irq) (proc user : Bool)
    (heflags : (s.cpu c).eflags = true) :
    ∃ v', Inv ((s.setScript c do trap irq proc user; op .iret; s.script c).setCpu c
      { s.cpu c with eflags := false }) v' := by
  have hview : v c = .free true := View.eq_free ((h.cpu c).eflags.symm.trans heflags) (h.held c)
  have hafter : (s.script c).Safe rule (Rest (s.agent c)) (.free true) := hview ▸ h.safe c
  have hk : Prog.Safe rule (Rest (s.agent c)) (do trap irq proc user; op .iret; s.script c)
      { v c with irq := false } := by
    rw [hview]
    exact (trap_keeps irq proc user).next (next ⟨rfl, hafter⟩)
  exact ⟨_, h.setEflags (by rw [hview]; rfl) hk⟩

theorem Inv.step [Fintype κ] (h : Inv s v) {a : Action κ ι} {r : Except String (System κ ι)}
    (hr : s.step a = some r) : ∃ t, r = .ok t ∧ ∃ v', Inv t v' := by
  cases a with
  | run c n call i =>
      simp only [System.step] at hr
      split at hr
      · exact h.exec ‹_› hr
      · cases hr
  | call c a =>
      simp only [System.step] at hr
      split_ifs at hr with hrest
      cases hr
      exact ⟨_, rfl, v, h.call hrest a.script_safe⟩
  | exit c =>
      simp only [System.step] at hr
      split_ifs at hr with hrest
      cases hr
      exact ⟨_, rfl, v, h.call hrest (exit_safe.mono fun _ _ hf => hf.elim)⟩
  | schedule c =>
      simp only [System.step] at hr
      split at hr
      · rename_i hproc hscript
        cases hr
        have hagent : s.agent c = .scheduler c := by simp [agent, hproc]
        have hsafe := h.safe c
        rw [hscript, hagent] at hsafe
        obtain ⟨b, hb⟩ := hsafe
        refine ⟨_, rfl, v, h.same ?_⟩
        rw [hagent, hb]
        exact scheduler_safe
      · cases hr
  | interrupt c irq user =>
      simp only [System.step] at hr
      split_ifs at hr with hgo
      cases hr
      exact ⟨_, rfl, h.interrupt irq _ user hgo.1⟩
  | spawn i =>
      simp only [System.step] at hr
      split_ifs at hr with hrun
      cases hr
      have hfree : ∀ d, s.agent d ≠ .thread i := by
        intro d hd
        cases hproc : (s.cpu d).proc with
        | none => simp [agent, hproc] at hd
        | some j =>
            simp only [agent, hproc, Agent.thread.injEq] at hd
            exact hrun ⟨d, hproc ▸ congrArg some hd⟩
      exact ⟨_, rfl, v, h.spawn hfree⟩

omit [DecidableEq κ] [DecidableEq ι] in
theorem Initial.inv (h : Initial s) : ∃ v, Inv s v := by
  obtain ⟨hlock, hcpu, hscheduler, hthread⟩ := h
  have hagent : ∀ c, s.agent c = .scheduler c := fun c => by simp [agent, (hcpu c).1]
  have hview : ∀ c, Shows (s.cpu c) (.free (s.cpu c).eflags) := fun c =>
    ⟨by simp [(hcpu c).2], by simp [View.eflags, View.off], fun h => by simp [View.off] at h⟩
  refine ⟨fun c => .free (s.cpu c).eflags, ?_, ?_, hview, ?_, ?_, ?_, ?_, ?_⟩
  · simp [hlock]
  · simp
  · intro c
    rw [script, hagent, hscheduler]
    exact ⟨_, rfl⟩
  · intro c
    rw [hagent]
    rfl
  · simp
  · intro c d hcd
    rw [hagent, hagent] at hcd
    exact Agent.scheduler.inj hcd
  · intro a ha halive b
    cases a with
    | scheduler c => exact absurd (hagent c) (ha c)
    | thread i =>
        rw [(hthread i).1]
        exact forkret_leads

theorem Reachable.inv [Fintype κ] (h : Reachable s) : ∃ v, Inv s v :=
  h.invariant (fun _ h => Initial.inv h) fun _ _ _ ⟨_, hv⟩ ⟨_, ha⟩ => by
    unfold after at ha
    split at ha
    · obtain ⟨t, ht, hinv⟩ := hv.step ‹_›
      cases ht
      cases ha
      exact hinv
    · cases ha

omit [DecidableEq κ] [DecidableEq ι] in
theorem Inv.spins (h : Inv s v) {l : Lock} (hspins : s.Spins c l) :
    l ∉ (v c).held ∧ ∀ m ∈ (v c).held, m.rank < l.rank := by
  obtain ⟨⟨k, hk⟩, -⟩ := hspins
  have hsafe := h.safe c
  rw [hk] at hsafe
  obtain ⟨R, ⟨-, hl, hrank⟩, -⟩ := hsafe
  exact ⟨hl, hrank⟩

/-- In every run of CPUs, threads and interrupts no panic of the spin locks, of `mycpu` or of
`sched` comes up. A CPU with its interrupts on holds no lock, and a thread outside of the functions
that take them has its interrupts on. When a CPU waits for a lock, another one holds it, and one of
those that hold locks can go on. -/
theorem spinlocks_sound [Fintype κ] (h : Reachable s) :
    (∀ a msg, s.step a ≠ some (.error msg)) ∧
      (∀ c, (s.cpu c).eflags = true → (s.cpu c).ncli = 0 ∧ ∀ l, s.lock l ≠ some c) ∧
      (∀ c, s.resting c = true → (s.cpu c).eflags = true) ∧
      ∀ c l, s.Spins c l → s.lock l ≠ some c ∧
        ∃ d m, s.lock m = some d ∧ (∃ a k, s.script d = .act a k) ∧ ∀ m', ¬s.Spins d m' := by
  obtain ⟨v, hinv⟩ := h.inv
  refine ⟨fun a msg ha => ?_, fun c hon => ?_, fun c hrest => ?_, fun c l hspins => ⟨?_, ?_⟩⟩
  · obtain ⟨t, ht, -⟩ := hinv.step ha
    cases ht
  · have hview : v c = .free true := View.eq_free ((hinv.cpu c).eflags.symm.trans hon) (hinv.held c)
    refine ⟨?_, fun l hl => ?_⟩
    · simpa [hview] using (hinv.cpu c).ncli
    · simpa [hview] using (hinv.lock l c).mp hl
  · rw [(hinv.cpu c).eflags, (hinv.resting hrest).2]
    rfl
  · exact fun hl => (hinv.spins hspins).1 ((hinv.lock l c).mp hl)
  · have hheld : ∀ c l, s.Spins c l → ∃ d, s.lock l = some d :=
      fun c l hcl => Option.ne_none_iff_exists'.mp hcl.2
    have hrank : ∀ c l m, s.Spins c l → s.lock m = some c → m.rank < l.rank :=
      fun c l m hcl hm => (hinv.spins hcl).2 m ((hinv.lock m c).mp hm)
    obtain ⟨d, m, hm, hgo⟩ := exists_holder_not_waiting Lock.rank_le hrank hheld hspins
    refine ⟨d, m, hm, ?_, hgo⟩
    cases hscript : s.script d with
    | act a k => exact ⟨a, k, rfl⟩
    | ret u =>
        have hsafe := hinv.safe d
        rw [hscript] at hsafe
        have hmem := (hinv.lock m d).mp hm
        cases hagent : s.agent d with
        | scheduler e =>
            rw [hagent] at hsafe
            obtain ⟨b, hb⟩ := hsafe
            simp [hb] at hmem
        | thread j =>
            rw [hagent] at hsafe
            have hview : v d = .free true := hsafe
            simp [hview] at hmem

/-- Two CPUs in front of their schedulers. -/
def boot : System Bool Bool where
  lock _ := none
  cpu _ := ⟨none, false, 0, false⟩
  todo
    | .scheduler _ => .ret ()
    | .thread _ => forkret
  zombie _ := false

def go (c : Bool) : Action Bool Bool := .run c 0 .myproc false

theorem spinlocks_sound_two_schedulers :
    ∃ s : System Bool Bool, Reachable s ∧ s.Spins true .ptable ∧
      ∃ d m, s.lock m = some d ∧ (∃ a k, s.script d = .act a k) ∧ ∀ m', ¬s.Spins d m' := by
  obtain ⟨s, hs, hspins⟩ : ∃ s : System Bool Bool, execute after boot
      (.schedule false :: List.replicate 6 (go false) ++ .schedule true :: List.replicate 5
        (go true)) = some s ∧
      s.Spins true .ptable := by
    refine ⟨_, rfl, ?_⟩
    exact ⟨⟨_, rfl⟩, by decide⟩
  have hboot : Initial boot :=
    ⟨fun _ => rfl, fun _ => ⟨rfl, rfl⟩, fun _ => rfl, fun _ => ⟨rfl, rfl⟩⟩
  have hreach : Reachable s := .execute (.start hboot) hs
  exact ⟨s, hreach, hspins, ((spinlocks_sound hreach).2.2.2 _ _ hspins).2⟩

end System

end SpinLocks

end Xv6Fairness
