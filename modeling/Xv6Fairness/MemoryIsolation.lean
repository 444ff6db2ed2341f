import Xv6Fairness.ThreadSteps

/-!
# Memory isolation

A page that is in use for two things, or free and in use, would let one process write to the memory
of another one. Over every run no page is, except that an entry still names its page between the
call of `kfree` and the next action of the same process, which clears the entry.
-/

namespace Xv6Fairness

open ThreadPrograms ExclusivePlaces TransitionRuns
open VirtualMemory (PDX PTX Pte PageTable Linked initSlot userPerm)

namespace SharedMemory

inductive Use
  | user (d i k : ℕ)
  | table (d i : ℕ)
  | pgdir (d : ℕ)
  | kstack (k : Fin NPROC)
  | pipe (f : ℕ)
deriving DecidableEq

/-- The page that is in use. The page tables of a directory belong to `freevm` once that is called.
-/
def Memory.page (m : Memory) : Use → Option ℕ
  | .user d i k => if i < userTables then (m.pgdir d).bind fun c => (c.entry i k).map Pte.frame
      else none
  | .table d i => (m.pgdir d).bind fun c => if c.live then (c.tables i).map PageTable.frame
      else none
  | .pgdir d => (m.pgdir d).map fun _ => d
  | .kstack k => if (m.proc k).kstack = 0 then none else some (m.proc k).kstack
  | .pipe f => (m.pipe f).map fun _ => f

/-- The next action of a program clears the entry. -/
def Clears (x : Kernel Next) : Use → Prop
  | .user d i k => ∃ a y, x = .act (.setPte d a none) y ∧ i = PDX a ∧ k = PTX a
  | .kstack k => ∃ y, x = .act (.store k (.kstack 0)) y
  | _ => False

namespace System

/-- The entry names the page and is not cleared next. -/
def InUse (s : System) (u : Use) (f : ℕ) : Prop :=
  s.memory.page u = some f ∧ ∀ p x, s.thread p = some x → ¬ Clears x u

structure Apart (s : System) : Prop where
  nodup : s.memory.freelist.Nodup
  unique : ∀ u u' f, s.InUse u f → s.InUse u' f → u = u'
  used : ∀ u f, s.InUse u f → f ∉ s.memory.freelist

/-- After `userinit`: there is one process, and no system call has begun. -/
structure Booted (endFrame : ℕ) (data : UInt32) (s : System) : Prop where
  pos : 0 < endFrame
  linked : Linked data
  idle : ∀ p, s.thread p = none
  lock : s.memory.lock = none
  init : (s.memory.proc initSlot).state = .runnable
  sz : (s.memory.proc initSlot).sz ≤ KERNBASE
  unused : ∀ k, k ≠ initSlot → (s.memory.proc k).state = .unused ∧ (s.memory.proc k).kstack = 0
  pgdir : ∀ d c, s.memory.pgdir d = some c → d = (s.memory.proc initSlot).pgdir
  live : ∃ c, s.memory.pgdir (s.memory.proc initSlot).pgdir = some c ∧ c.live = true
  pipe : ∀ f, s.memory.pipe f = none
  file : ∀ i, (s.memory.file i).pipe = none
  apart : s.Apart

end System

variable {endFrame : ℕ} {data : UInt32} {view : Fin NPROC → View} {p k : Fin NPROC}
  {f d : ℕ} {s : System}

/-- What a page at a place is in use for. -/
def Place.use (f : ℕ) : Place → Option Use
  | .pipe => some (.pipe f)
  | .thread _ .dir => some (.pgdir f)
  | .thread _ (.leaf d (.user i k)) => some (.user d i k)
  | .thread _ (.leaf d (.table i)) => some (.table d i)
  | .thread _ (.kstack k) => some (.kstack k)
  | .thread _ .buffer => some (.pipe f)
  | _ => none

def Stale.use : Stale → Use
  | .pte d i k => .user d i k
  | .kstack k => .kstack k

namespace Inv

variable (h : Inv view s)

include h

theorem clears {x : Stale} (hstale : (view p).stale = some x) :
    ∃ y, s.thread p = some y ∧ Clears y x.use := by
  have hsome : ¬ (view p).stale = none := by
    rw [hstale]
    exact nofun
  cases hthread : s.thread p with
  | none => exact absurd (h.idle p hthread).1.stale hsome
  | some y =>
      refine ⟨y, rfl, ?_⟩
      have hsafe := (h.running p y hthread).1
      cases y with
      | ret b => cases b with
        | user r => exact absurd hsafe.stale hsome
        | sleep => exact absurd hsafe.stale hsome
        | exit => exact absurd hsafe.2.stale hsome
      | act a y =>
          obtain ⟨R, hrule, -⟩ := hsafe
          cases hrule with
          | plain hnone => exact absurd hnone hsome
          | @unmap d a T hT hx =>
              obtain rfl := Option.some_inj.mp (hstale.symm.trans hx)
              exact ⟨a, y, rfl, rfl, rfl⟩
          | @dropKstack k e he hx =>
              obtain rfl := Option.some_inj.mp (hstale.symm.trans hx)
              exact ⟨y, rfl⟩

theorem tree {c : Pgdir} (hc : s.memory.pgdir d = some c) : ∃ r T, (view r).tree d = some T ∧
    T.dir = c := by
  obtain ⟨r, hr⟩ := (h.pages.dirs d c).mp hc
  obtain ⟨T, hT, hdir⟩ := Option.map_eq_some_iff.mp hr
  exact ⟨r, T, hT, hdir⟩

theorem held {a : Use} (ha : s.InUse a f) : ∃ o, Holds view s.memory f o ∧ o.use f = some a := by
  obtain ⟨hpage, hclear⟩ := ha
  cases a with
  | user d i k =>
      rw [Memory.page] at hpage
      split_ifs at hpage with hi
      obtain ⟨c, hc, hq⟩ := Option.bind_eq_some_iff.mp hpage
      obtain ⟨q, hentry, rfl⟩ := Option.map_eq_some_iff.mp hq
      obtain ⟨r, T, hT, rfl⟩ := h.tree hc
      refine ⟨.thread r (.leaf d (.user i k)), .leaf hT (.user hi hentry) fun x hx heq => ?_, rfl⟩
      cases x with
      | kstack l => cases heq
      | pte d' i' k' =>
          cases heq
          obtain ⟨y, hy, hy'⟩ := h.clears hx
          exact hclear r y hy hy'
  | table d i =>
      obtain ⟨c, hc, ht⟩ := Option.bind_eq_some_iff.mp hpage
      obtain ⟨r, T, hT, rfl⟩ := h.tree hc
      split_ifs at ht with hlive
      obtain ⟨t, hentry, rfl⟩ := Option.map_eq_some_iff.mp ht
      refine ⟨.thread r (.leaf d (.table i)),
        .leaf hT (.table hentry (.inl hlive)) fun x _ heq => ?_, rfl⟩
      cases x with
      | kstack l => cases heq
      | pte d' i' k' => cases heq
  | pgdir d =>
      obtain ⟨c, hc, rfl⟩ := Option.map_eq_some_iff.mp hpage
      obtain ⟨r, T, hT, -⟩ := h.tree hc
      exact ⟨.thread r .dir, .dir hT, rfl⟩
  | kstack k =>
      rw [Memory.page] at hpage
      split_ifs at hpage with hne
      cases hpage
      obtain ⟨r, hr⟩ := h.control.kstack k hne
      obtain ⟨e, he⟩ := Option.isSome_iff_exists.mp hr
      have heq : (s.memory.proc k).kstack = e.kstack :=
        congrArg Known.kstack (h.control.known r k e he)
      rw [heq] at hne ⊢
      refine ⟨.thread r (.kstack k), .kstack he hne fun x hx hmine => ?_, rfl⟩
      cases x with
      | pte d i l => cases hmine
      | kstack l =>
          cases hmine
          obtain ⟨y, hy, hy'⟩ := h.clears hx
          exact hclear r y hy hy'
  | pipe g =>
      obtain ⟨P, hP, rfl⟩ := Option.map_eq_some_iff.mp hpage
      cases hclosed : P.closed with
      | false => exact ⟨.pipe, ⟨P, hP, hclosed⟩, rfl⟩
      | true =>
          obtain ⟨r, hr⟩ := h.pages.shut g P hP hclosed
          exact ⟨.thread r .buffer, .buffer hr, rfl⟩

theorem apart : s.Apart := by
  refine ⟨h.pages.nodup, fun a a' f ha ha' => ?_, fun a f ha hfree => ?_⟩
  · obtain ⟨o, ho, hoa⟩ := h.held ha
    obtain ⟨o', ho', hoa'⟩ := h.held ha'
    obtain rfl := h.pages.places f o o' ho ho'
    exact Option.some_inj.mp (hoa.symm.trans hoa')
  · obtain ⟨o, ho, hoa⟩ := h.held ha
    obtain rfl := h.pages.places f o .free ho hfree
    cases hoa

end Inv

/-- The view of a process that has not been created. -/
def View.blank : View where
  hand := ∅
  tree := fun _ => none
  stale := none
  claims := ⟨fun _ => none, none, false, ∅, none⟩

/-- The view of the first process: it has its entry and its page directory. -/
def View.first (e : Known) (c : Pgdir) : View :=
  (View.blank.setKnown initSlot (some e)).setTree e.pgdir (some ⟨c, 0⟩)

def Use.place : Use → Place
  | .user d i k => .thread initSlot (.leaf d (.user i k))
  | .table d i => .thread initSlot (.leaf d (.table i))
  | .pgdir _ => .thread initSlot .dir
  | .kstack k => .thread initSlot (.kstack k)
  | .pipe _ => .pipe

theorem View.blank_not_has {u : Mine} : ¬ View.blank.Has f u := by
  intro h
  cases h with
  | hand h => exact h
  | dir h => cases h
  | leaf h => cases h
  | kstack h => cases h
  | buffer h => cases h

namespace System.Booted

variable (h : Booted endFrame data s)

include h

theorem inUse {a : Use} (ha : s.memory.page a = some f) : s.InUse a f := by
  refine ⟨ha, fun p x hx => ?_⟩
  rw [h.idle p] at hx
  cases hx

variable {c : Pgdir} (hc : s.memory.pgdir (s.memory.proc initSlot).pgdir = some c)
  (hlive : c.live = true)

include hc hlive

theorem first_has {u : Mine} (hu : (View.first (s.memory.proc initSlot).known c).Has f u) :
    ∃ a, .thread initSlot u = Use.place a ∧ s.InUse a f := by
  rcases hu.of_setTree with ⟨T, hT, ⟨rfl, rfl⟩ | ⟨l, rfl, hl, -⟩⟩ | ⟨hu, -, -⟩
  · refine ⟨.pgdir (s.memory.proc initSlot).pgdir, rfl, h.inUse ?_⟩
    rw [Memory.page]
    exact congrArg (Option.map _) hc
  · obtain rfl := Option.some_inj.mp hT
    cases hl with
    | @user i k q hi hq =>
        refine ⟨.user _ i k, rfl, h.inUse ?_⟩
        rw [Memory.page, if_pos hi]
        exact Option.bind_eq_some_iff.mpr ⟨c, hc, by rw [hq]; rfl⟩
    | @table i t ht hi =>
        refine ⟨.table _ i, rfl, h.inUse ?_⟩
        exact Option.bind_eq_some_iff.mpr ⟨c, hc, by rw [if_pos hlive, ht]; rfl⟩
  · rcases hu.of_setKnown with ⟨e, he, hne, rfl, rfl, -⟩ | ⟨hu, -⟩
    · obtain rfl := Option.some_inj.mp he
      refine ⟨.kstack initSlot, rfl, h.inUse ?_⟩
      exact if_neg hne
    · exact absurd hu View.blank_not_has

end System.Booted

namespace Inv

/-- The views after booting. -/
def bootView (s : System) (c : Pgdir) : Fin NPROC → View :=
  Function.update (fun _ => View.blank) initSlot (View.first (s.memory.proc initSlot).known c)

variable {c : Pgdir}

theorem bootView_self : bootView s c initSlot = View.first (s.memory.proc initSlot).known c :=
  Function.update_self _ _ _

theorem bootView_of_ne (hp : p ≠ initSlot) : bootView s c p = View.blank :=
  Function.update_of_ne hp _ _

theorem bootView_known :
    (bootView s c p).claims.known k =
      if p = initSlot ∧ k = initSlot then some (s.memory.proc initSlot).known else none := by
  by_cases hp : p = initSlot
  · subst hp
    rw [bootView_self]
    by_cases hk : k = initSlot
    · subst hk
      rw [if_pos ⟨rfl, rfl⟩]
      exact View.setKnown_self
    · rw [if_neg fun hboth => hk hboth.2]
      exact View.setKnown_of_ne hk
  · rw [bootView_of_ne hp, if_neg fun hboth => hp hboth.1]
    rfl

theorem bootView_claims (p : Fin NPROC) :
    Quiet (bootView s c p) ∧ (bootView s c p).claims.ends = ∅ := by
  by_cases hp : p = initSlot
  · rw [hp, bootView_self]
    exact ⟨⟨rfl, rfl, rfl, rfl⟩, rfl⟩
  · rw [bootView_of_ne hp]
    exact ⟨⟨rfl, rfl, rfl, rfl⟩, rfl⟩

theorem bootView_pgdir {c₁ : Pgdir} :
    (bootView s c p).pgdir d = some c₁ ↔ p = initSlot ∧ d = (s.memory.proc initSlot).pgdir ∧
    c₁ = c := by
  by_cases hp : p = initSlot
  · subst hp
    rw [bootView_self, View.pgdir, View.first]
    by_cases hd : d = (s.memory.proc initSlot).pgdir
    · rw [show (s.memory.proc initSlot).known.pgdir = d from hd.symm, View.setTree_self]
      constructor
      · intro heq
        exact ⟨rfl, hd, (Option.some_inj.mp heq).symm⟩
      · rintro ⟨-, -, rfl⟩
        rfl
    · have hne : d ≠ (s.memory.proc initSlot).known.pgdir := hd
      rw [View.setTree_of_ne hne]
      refine iff_of_false (fun heq => ?_) fun hall => hd hall.2.1
      cases heq
  · rw [bootView_of_ne hp]
    refine iff_of_false (fun heq => ?_) fun hall => hp hall.1
    cases heq

theorem bootView_isSome :
    ((bootView s c p).claims.known k).isSome = true ↔ p = initSlot ∧ k = initSlot := by
  rw [bootView_known]
  split_ifs with hboth
  · exact iff_of_true rfl hboth
  · exact iff_of_false nofun hboth

theorem boot_control (h : s.Booted endFrame data) : ControlInv (bootView s c) s.memory := by
  have hinit : ∀ k, (s.memory.proc k).state ≠ .unused → k = initSlot := fun k hk =>
    by_contra fun hne => hk (h.unused k hne).1
  refine ⟨fun p k e he => ?_, fun k p q hp hq => ?_, fun k hk => ?_, fun k hk p => ?_,
    fun k hk => ?_,
    fun k hk => ?_, fun p => ?_, fun p k hp => ?_⟩
  · rw [bootView_known] at he
    split_ifs at he with hboth
    obtain ⟨-, rfl⟩ := hboth
    exact Option.some_inj.mp he
  · rw [(bootView_isSome.mp hp).1, (bootView_isSome.mp hq).1]
  · exact ⟨initSlot, bootView_isSome.mpr ⟨rfl, by_contra fun hne => hk (h.unused k hne).2⟩⟩
  · rw [bootView_known, if_neg]
    rintro ⟨-, rfl⟩
    rw [h.init] at hk
    cases hk
  · have hk' : k = initSlot := hinit k fun heq => by
      rw [heq] at hk
      rcases hk with hk | hk | hk <;> cases hk
    exact bootView_isSome.mpr ⟨hk', hk'⟩
  · have hk' : k = initSlot := hinit k fun heq => by
      rw [heq] at hk
      cases hk
    rw [hk', h.init] at hk
    cases hk
  · rw [(bootView_claims p).1.lock, h.lock]
    exact iff_of_false nofun nofun
  · rw [(bootView_claims p).1.reaping] at hp
    cases hp

theorem boot (h : s.Booted endFrame data) : ∃ view, Inv view s := by
  obtain ⟨c, hc, hlive⟩ := h.live
  have hplace : ∀ f o, Holds (bootView s c) s.memory f o →
      o = .free ∧ f ∈ s.memory.freelist ∨ ∃ a : Use, o = a.place ∧ s.InUse a f := by
    intro f o ho
    cases o with
    | free => exact .inl ⟨rfl, ho⟩
    | pipe =>
        obtain ⟨P, hP, -⟩ := ho
        rw [h.pipe f] at hP
        cases hP
    | thread p u =>
        change (bootView s c p).Has f u at ho
        by_cases hp : p = initSlot
        · subst hp
          rw [bootView_self] at ho
          exact .inr (h.first_has hc hlive ho)
        · rw [bootView_of_ne hp] at ho
          exact absurd ho View.blank_not_has
  have hend : ∀ x o, ¬ EndHolds (bootView s c) s.memory x o := by
    intro x o ho
    cases o with
    | file i =>
        rw [EndHolds, h.file i] at ho
        cases ho
    | thread p =>
        rw [EndHolds, (bootView_claims p).2] at ho
        exact ho
  refine ⟨bootView s c, ⟨fun f o o' ho ho' => ?_, h.apart.nodup, fun d c₁ => ?_, fun f P hP => ?_⟩,
    ⟨fun x o o' ho => absurd ho (hend x o), fun x o ho => absurd ho (hend x o)⟩, boot_control h,
    fun p x hx => ?_, fun p _ => ⟨(bootView_claims p).1, fun hp => ?_⟩, fun p _ => h.idle p⟩
  · rcases hplace f o ho with ⟨rfl, hfree⟩ | ⟨a, rfl, ha⟩
    · rcases hplace f o' ho' with ⟨rfl, -⟩ | ⟨a, rfl, ha⟩
      · rfl
      · exact absurd hfree (h.apart.used a f ha)
    · rcases hplace f o' ho' with ⟨rfl, hfree⟩ | ⟨a', rfl, ha'⟩
      · exact absurd hfree (h.apart.used a f ha)
      · rw [h.apart.unique a a' f ha ha']
  · constructor
    · intro hd
      obtain rfl := h.pgdir d c₁ hd
      exact ⟨initSlot, bootView_pgdir.mpr ⟨rfl, rfl, Option.some_inj.mp (hd.symm.trans hc)⟩⟩
    · rintro ⟨p, hp⟩
      obtain ⟨-, rfl, rfl⟩ := bootView_pgdir.mp hp
      exact hc
  · rw [h.pipe f] at hP
    cases hP
  · rw [h.idle p] at hx
    cases hx
  · obtain ⟨rfl, -⟩ := bootView_isSome.mp hp
    refine ⟨(s.memory.proc initSlot).known, ⟨c, 0⟩, ?_, ?_, hlive, h.sz⟩
    · rw [bootView_known, if_pos ⟨rfl, rfl⟩]
    · rw [bootView_self]
      exact View.setTree_self

theorem reached (h : Reaches (System.Booted endFrame data) (System.Step data endFrame) s) :
    ∃ view, Inv view s := by
  have hinv : 0 < endFrame ∧ Linked data ∧ ∃ view, Inv view s := by
    induction h with
    | start hs => exact ⟨hs.pos, hs.linked, boot hs⟩
    | step hr hstep ih =>
        obtain ⟨hpos, hdata, view, hview⟩ := ih
        exact ⟨hpos, hdata, hview.step hpos hdata hstep⟩
  exact hinv.2.2

end Inv

/-- In every state that is reached, no page is in use twice, no page that is free is in use and no
page is free twice. -/
theorem pages_apart (h : Reaches (System.Booted endFrame data) (System.Step data endFrame) s) :
    s.Apart :=
  let ⟨_, hview⟩ := Inv.reached h
  hview.apart

def smallTable : PageTable := ⟨4, fun k => if k = 0 then some ⟨5, userPerm⟩ else none⟩

def smallDir : Pgdir := ⟨fun i => if i = 0 then some smallTable else none, true⟩

def smallProc (st : ProcState) : Proc := ⟨st, 2, 3, 4096, 1, none, false, fun _ => none⟩

/-- The first process has one page of memory, and the pages from 6 on are free. -/
def smallMemory : Memory where
  freelist := List.range' 6 1100
  pgdir := fun d => if d = 3 then some smallDir else none
  pipe := fun _ => none
  file := fun _ => ⟨0, none⟩
  proc := fun k => if k = initSlot then smallProc .runnable
    else ⟨.unused, 0, 0, 0, 0, none, false, fun _ => none⟩
  nextpid := 2
  lock := none

def smallSystem : System := ⟨smallMemory, fun _ => none⟩

theorem smallDir_tables {i : ℕ} {t : PageTable} (h : smallDir.tables i = some t) : i = 0 ∧
    t = smallTable := by
  change (if i = 0 then some smallTable else none) = some t at h
  split_ifs at h with hi
  exact ⟨hi, (Option.some_inj.mp h).symm⟩

theorem smallMemory_pgdir {c : Pgdir} (h : smallMemory.pgdir d = some c) : d = 3 ∧
    c = smallDir := by
  change (if d = 3 then some smallDir else none) = some c at h
  split_ifs at h with hd
  exact ⟨hd, (Option.some_inj.mp h).symm⟩

theorem smallMemory_proc (hk : k ≠ initSlot) :
    (smallMemory.proc k).state = .unused ∧ (smallMemory.proc k).kstack = 0 := by
  rw [smallMemory]
  dsimp only
  rw [if_neg hk]
  exact ⟨rfl, rfl⟩

/-- Each page is in use for one thing. -/
def smallUse : ℕ → Use
  | 5 => .user 3 0 0
  | 4 => .table 3 0
  | 3 => .pgdir 3
  | _ => .kstack initSlot

theorem smallMemory_page {a : Use} (ha : smallMemory.page a = some f) :
    a = smallUse f ∧ (f = 5 ∨ f = 4 ∨ f = 3 ∨ f = 2) := by
  cases a with
  | user d i k =>
      rw [Memory.page] at ha
      split_ifs at ha with hi
      obtain ⟨c, hc, hq⟩ := Option.bind_eq_some_iff.mp ha
      obtain ⟨rfl, rfl⟩ := smallMemory_pgdir hc
      obtain ⟨q, hentry, rfl⟩ := Option.map_eq_some_iff.mp hq
      obtain ⟨t, ht, hpte⟩ := Option.bind_eq_some_iff.mp hentry
      obtain ⟨rfl, rfl⟩ := smallDir_tables ht
      change (if k = 0 then some (⟨5, userPerm⟩ : Pte) else none) = some q at hpte
      split_ifs at hpte with hk
      obtain rfl := Option.some_inj.mp hpte
      subst hk
      exact ⟨rfl, .inl rfl⟩
  | table d i =>
      obtain ⟨c, hc, ht⟩ := Option.bind_eq_some_iff.mp ha
      obtain ⟨rfl, rfl⟩ := smallMemory_pgdir hc
      obtain ⟨t, hentry, rfl⟩ := Option.map_eq_some_iff.mp ht
      obtain ⟨rfl, rfl⟩ := smallDir_tables hentry
      exact ⟨rfl, .inr (.inl rfl)⟩
  | pgdir d =>
      obtain ⟨c, hc, rfl⟩ := Option.map_eq_some_iff.mp ha
      obtain ⟨rfl, -⟩ := smallMemory_pgdir hc
      exact ⟨rfl, .inr (.inr (.inl rfl))⟩
  | kstack k =>
      rw [Memory.page] at ha
      split_ifs at ha with hne
      obtain rfl : k = initSlot := by_contra fun hk => hne (smallMemory_proc hk).2
      obtain rfl := Option.some_inj.mp ha
      exact ⟨rfl, .inr (.inr (.inr rfl))⟩
  | pipe f => cases ha

theorem smallSystem_booted : smallSystem.Booted 1 0x80108000 := by
  refine ⟨by decide, ⟨by decide, by decide, by decide⟩, fun _ => rfl, rfl, rfl, by decide,
    fun k hk => smallMemory_proc hk, fun d c hc => (smallMemory_pgdir hc).1, ⟨smallDir, rfl, rfl⟩,
    fun _ => rfl, fun _ => rfl, List.nodup_range', fun a a' f ha ha' => ?_,
      fun a f ha hfree => ?_⟩
  · rw [(smallMemory_page ha.1).1, (smallMemory_page ha'.1).1]
  · have hge : 6 ≤ f := (List.mem_range'_1.mp hfree).1
    have hpage := (smallMemory_page ha.1).2
    omega

theorem reaches_act {m m' : Memory} {x : Kernel Next} {a : Action} {y : a.Res → Kernel Next}
    {r : a.Res}
    (h : Reaches (System.Booted endFrame data) (System.Step data endFrame)
      ⟨m, Function.update (fun _ => none) p (some x)⟩)
    (hx : x = .act a y) (hrun : Memory.run endFrame p a m = some (r, m')) :
    Reaches (System.Booted endFrame data) (System.Step data endFrame)
      ⟨m', Function.update (fun _ => none) p (some (y r))⟩ := by
  have hthread : Function.update (fun _ => none) p (some x) p = some (.act a y) := by
    rw [Function.update_self, hx]
  have hnext := Reaches.step h (.act (s := ⟨m, _⟩) hthread hrun)
  rwa [Function.update_idem] at hnext

def smallRunning : Memory := smallMemory.setProc initSlot (smallProc .running)

theorem sbrk_reached :
    ∃ (K : UInt32 → Kernel ℤ) (K' : ℤ → Kernel Next), Reaches (System.Booted 1 0x80108000)
    (System.Step 0x80108000 1)
      ⟨smallRunning, Function.update (fun _ => none) initSlot
        (some (((deallocuvm 3 4096 0).bind K).bind K'))⟩ := by
  have hturn : Reaches (System.Booted 1 0x80108000)
      (System.Step 0x80108000 1) ⟨smallRunning, fun _ => none⟩ :=
    .step (.start smallSystem_booted) (.turn (.inr (.inl rfl)) (.inr (.inr rfl)))
  have hcall := Reaches.step hturn (.call (p := initSlot) (.sbrk (-4096)) rfl (.inr (.inr rfl)))
  have hproc := reaches_act hcall (a := .proc initSlot) rfl rfl
  exact ⟨_, _, reaches_act hproc (a := .proc initSlot) rfl rfl⟩

theorem deallocuvm_begins :
    ∃ y, deallocuvm 3 4096 0 = .act (.load 3) y ∧ ∃ y', y (some smallDir) = .act (.load 3) y' ∧
      ∃ y'', y' (some smallDir) = .act (.kfree 5) y'' := by
  rw [deallocuvm, if_neg (by decide), deallocLoop, if_pos (by decide)]
  exact ⟨_, rfl, _, rfl, _, rfl⟩

theorem kfree_reached :
    ∃ x, Reaches (System.Booted 1 0x80108000) (System.Step 0x80108000 1)
      ⟨smallRunning.free 5, Function.update (fun _ => none) initSlot (some x)⟩ := by
  obtain ⟨K, K', h⟩ := sbrk_reached
  obtain ⟨y, hy, y', hy', y'', hy''⟩ := deallocuvm_begins
  rw [hy] at h
  have hload : Reaches (System.Booted 1 0x80108000) (System.Step 0x80108000 1)
      ⟨smallRunning, Function.update (fun _ => none) initSlot
        (some (((y (some smallDir)).bind K).bind K'))⟩ :=
    reaches_act h (a := .load 3) rfl rfl
  rw [hy'] at hload
  have hpte : Reaches (System.Booted 1 0x80108000) (System.Step 0x80108000 1)
      ⟨smallRunning, Function.update (fun _ => none) initSlot
        (some (((y' (some smallDir)).bind K).bind K'))⟩ :=
    reaches_act hload (a := .load 3) rfl rfl
  rw [hy''] at hpte
  have hfree : Memory.run 1 initSlot (.kfree 5) smallRunning = some ((), smallRunning.free 5) := by
    rw [Memory.run, if_neg (by decide)]
  exact ⟨_, reaches_act hpte rfl hfree⟩

/-- `deallocuvm` calls `kfree` before it clears the entry. -/
theorem freed_page_mapped :
    ∃ s, Reaches (System.Booted 1 0x80108000) (System.Step 0x80108000 1) s ∧
      (s.memory.proc initSlot).state = .running ∧
      s.memory.page (.pgdir (s.memory.proc initSlot).pgdir) = some 3 ∧
      s.memory.page (.user 3 0 0) = some 5 ∧ 5 ∈ s.memory.freelist := by
  obtain ⟨x, hx⟩ := kfree_reached
  exact ⟨_, hx, rfl, rfl, rfl, List.mem_cons_self⟩

theorem pages_apart_freed :
    ∃ x, System.Apart ⟨smallRunning.free 5, Function.update (fun _ => none) initSlot (some x)⟩ := by
  obtain ⟨x, hx⟩ := kfree_reached
  exact ⟨x, pages_apart hx⟩

end SharedMemory

end Xv6Fairness
