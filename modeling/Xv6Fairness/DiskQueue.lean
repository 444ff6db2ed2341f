import Mathlib.Data.List.Nodup
import Xv6Fairness.DiskLayout
import Xv6Fairness.LinkedQueues
import Xv6Fairness.TransitionRuns

/-!
# The queue of disk requests

`iderw` appends a locked buffer to a queue and sleeps until the interrupt handler has completed it,
and the handler starts the next request. The drive answers every command with one interrupt and
reports no error. What happens under `idelock` is one step.
-/

namespace Xv6Fairness

open LinkedQueues TransitionRuns

namespace Ide

variable {D : Type*}

/-- A buffer without its link. The flags are `B_VALID` and `B_DIRTY`. -/
structure Buf (D : Type*) where
  valid : Bool
  dirty : Bool
  dev : ℕ
  blockno : ℕ
  data : D

/-- `(b->flags & (B_VALID|B_DIRTY)) == B_VALID` -/
def Buf.Done (b : Buf D) : Prop := b.valid = true ∧ b.dirty = false

instance (b : Buf D) : Decidable b.Done := inferInstanceAs (Decidable (_ ∧ _))

/-- A command with the data for a write. -/
structure Command (D : Type*) where
  drive : ℕ
  block : ℕ
  write : Option D

/-- What the drive has done: the block and its contents after that. -/
structure Served (D : Type*) where
  drive : ℕ
  block : ℕ
  data : D

/-- A process outside of `iderw`, asleep in it, or woken up in it. A request has a number. -/
inductive Pc
  | out
  | asleep (b i : ℕ)
  | awake (b i : ℕ)

def Pc.wakeup (b : ℕ) : Pc → Pc
  | .asleep c i => if c = b then .awake c i else .asleep c i
  | pc => pc

/-- A return of `iderw`. -/
structure Return (D : Type*) where
  b : ℕ
  i : ℕ
  buf : Buf D

/-- What has happened: the requests in the order in which they were queued, started and completed,
what the drive has done, and the returns. -/
structure History (D : Type*) where
  queued : List ℕ
  started : List ℕ
  completed : List ℕ
  served : List (Served D)
  returned : List (Return D)

/-- Buffers are known by numbers; `queue` has `idequeue` and the links `qnext`. Commands that are
started and the data for the interrupts that are due are in the order of the drive. -/
structure State (D : Type*) where
  bufs : ℕ → Buf D
  queue : Queue ℕ
  owner : ℕ → Option ℕ
  procs : ℕ → Pc
  commands : List (Command D)
  interrupts : List D
  disk : ℕ → ℕ → D
  log : History D

namespace State

variable (s : State D)

def command (b : Buf D) : Command D where
  drive := b.dev % 2
  block := b.blockno
  write := if b.dirty then some b.data else none

/-- `none` is a panic. -/
def idestart (b : ℕ) : Option (State D) :=
  if FSSIZE ≤ (s.bufs b).blockno then none
  else some { s with
    commands := s.commands ++ [command (s.bufs b)]
    log := { s.log with started := s.log.started ++ [b] } }

/-- The loop at the end of `iderw`: to return, or to sleep. -/
def check (p b i : ℕ) : State D :=
  if (s.bufs b).Done then
    { s with
      procs := Function.update s.procs p .out
      log := { s.log with returned := s.log.returned ++ [⟨b, i, s.bufs b⟩] } }
  else { s with procs := Function.update s.procs p (.asleep b i) }

/-- `iderw` up to its loop, where the walk through the queue takes fewer than `n` steps. -/
def append (b n : ℕ) : Option (State D) :=
  let queue := { s.queue with next := Function.update s.queue.next b none }
  (queue.last n .head).bind fun p =>
    let s := { s with
      queue := queue.write p (some b)
      log := { s.log with queued := s.log.queued ++ [b] } }
    if s.queue.head = some b then s.idestart b else some s

def iderw (havedisk1 : Bool) (p b n : ℕ) : Option (State D) :=
  if s.owner b ≠ some p then none
  else if (s.bufs b).Done then none
  else if (s.bufs b).dev ≠ 0 ∧ havedisk1 = false then none
  else (s.append b n).map fun t => t.check p b s.log.queued.length

/-- The buffer at the head is completed, with the data of the interrupt. -/
def complete (b : ℕ) (d : D) : State D :=
  let buf := s.bufs b
  let data := if buf.dirty then buf.data else d
  { s with
    queue := { s.queue with head := s.queue.next b }
    bufs := Function.update s.bufs b { buf with data := data, valid := true, dirty := false }
    procs := fun p => Pc.wakeup b (s.procs p)
    log := { s.log with completed := s.log.completed ++ [b] } }

def ideintr (d : D) : Option (State D) :=
  match s.queue.head with
  | none => some s
  | some b =>
    let s := s.complete b d
    match s.queue.head with
    | none => some s
    | some c => s.idestart c

/-- The drive executes its next command. -/
def execute (c : Command D) : State D :=
  let data := c.write.getD (s.disk c.drive c.block)
  { s with
    disk := Function.update s.disk c.drive (Function.update (s.disk c.drive) c.block data)
    interrupts := s.interrupts ++ [data]
    log := { s.log with served := s.log.served ++ [⟨c.drive, c.block, data⟩] } }

end State

/-- Buffers of processes outside of `iderw`, and buffers that are not locked, may be changed. -/
def Free (s : State D) (b : ℕ) : Prop := ∀ p, s.owner b = some p → s.procs p = .out

inductive Step (havedisk1 : Bool) (s : State D) : State D → Prop
  | lock (p b : ℕ) (hp : s.procs p = .out) (h : s.owner b = none) :
      Step havedisk1 s { s with owner := Function.update s.owner b (some p) }
  | unlock (p b : ℕ) (hp : s.procs p = .out) (h : s.owner b = some p) :
      Step havedisk1 s { s with owner := Function.update s.owner b none }
  | change (b : ℕ) (buf : Buf D) (h : Free s b) :
      Step havedisk1 s { s with bufs := Function.update s.bufs b buf }
  | iderw {t : State D} (p b n : ℕ) (hp : s.procs p = .out) (h : s.iderw havedisk1 p b n = some t) :
      Step havedisk1 s t
  | kill (p b i : ℕ) (h : s.procs p = .asleep b i) :
      Step havedisk1 s { s with procs := Function.update s.procs p (.awake b i) }
  | resume (p b i : ℕ) (h : s.procs p = .awake b i) : Step havedisk1 s (s.check p b i)
  | execute (c : Command D) (cs : List (Command D)) (h : s.commands = c :: cs) :
      Step havedisk1 s { s.execute c with commands := cs }
  | ideintr {t : State D} (d : D) (ds : List D) (h : s.interrupts = d :: ds)
      (ht : State.ideintr { s with interrupts := ds } d = some t) : Step havedisk1 s t

structure Initial (s : State D) : Prop where
  queue : s.queue.head = none
  owner : ∀ b, s.owner b = none
  procs : ∀ p, s.procs p = .out
  drive : s.commands = [] ∧ s.interrupts = []
  log : s.log = ⟨[], [], [], [], []⟩

def Reachable (havedisk1 : Bool) : State D → Prop := Reaches Initial (Step havedisk1)

/-- Request `i` for `b` is complete, and the buffer has what the drive read or wrote for it. -/
structure Finished (log : History D) (b i : ℕ) (buf : Buf D) : Prop where
  lt : i < log.completed.length
  queued : log.queued[i]? = some b
  done : buf.Done
  served : log.served[i]? = some ⟨buf.dev % 2, buf.blockno, buf.data⟩

def Inside (s : State D) (p b i : ℕ) : Prop := s.procs p = .asleep b i ∨ s.procs p = .awake b i

/-- The drive works for the head of the queue: the command is started, or its interrupt is due. -/
def Drive (s : State D) : List ℕ → Prop
  | [] => s.commands = [] ∧ s.interrupts = [] ∧ s.log.served.length = s.log.completed.length
  | b :: _ =>
    (s.commands = [State.command (s.bufs b)] ∧ s.interrupts = [] ∧
      s.log.served.length = s.log.completed.length) ∨
    s.commands = [] ∧ ∃ d, s.interrupts = [d] ∧ s.log.served.length = s.log.completed.length + 1 ∧
      s.log.served[s.log.completed.length]? = some ⟨(s.bufs b).dev % 2, (s.bufs b).blockno, d⟩ ∧
      ((s.bufs b).dirty = true → d = (s.bufs b).data)

structure Requested (s : State D) (p b i : ℕ) : Prop where
  owner : s.owner b = some p
  queued : s.log.queued[i]? = some b
  finished : i < s.log.completed.length → Finished s.log b i (s.bufs b)
  waiting : s.log.completed.length ≤ i → ¬ (s.bufs b).Done

/-- The queue is `l`, and the processes inside wait for its members. -/
structure Core (s : State D) (l : List ℕ) : Prop where
  linked : Queue.Linked s.queue.next s.queue.head l
  nodup : l.Nodup
  queued : s.log.queued = s.log.completed ++ l
  inside : ∀ p b i, Inside s p b i → Requested s p b i
  members : ∀ b ∈ l, ∃ p i, Inside s p b i ∧ s.log.completed.length ≤ i
  asleep : ∀ p b i, s.procs p = .asleep b i → s.log.completed.length ≤ i
  returned : ∀ r ∈ s.log.returned, Finished s.log r.b r.i r.buf

structure Inv (s : State D) (l : List ℕ) : Prop extends Core s l where
  started : s.log.started = s.log.completed ++ l.take 1
  drive : Drive s l

section Steps

variable {s t : State D} {log : History D} {l : List ℕ} {p b i n : ℕ} {buf : Buf D}
  {havedisk1 : Bool}

theorem getElem?_of_isPrefix {α : Type*} {xs ys : List α} {x : α} (h : xs <+: ys)
    (hx : xs[i]? = some x) : ys[i]? = some x := by
  obtain ⟨zs, rfl⟩ := h
  obtain ⟨hi, -⟩ := List.getElem?_eq_some_iff.mp hx
  rw [List.getElem?_append_left hi]
  exact hx

theorem Finished.mono {log' : History D} (h : Finished log b i buf)
    (hcompleted : log.completed <+: log'.completed) (hqueued : log.queued <+: log'.queued)
    (hserved : log.served <+: log'.served) : Finished log' b i buf :=
  ⟨h.lt.trans_le hcompleted.length_le, getElem?_of_isPrefix hqueued h.queued, h.done,
    getElem?_of_isPrefix hserved h.served⟩

theorem Inside.unique {b' i' : ℕ} (h : Inside s p b i) (h' : Inside s p b' i') : b = b' ∧
    i = i' := by
  rcases h with h | h <;> rcases h' with h' | h' <;> cases h.symm.trans h' <;> exact ⟨rfl, rfl⟩

theorem Inside.ne_out (h : Inside s p b i) : s.procs p ≠ .out := by
  rcases h with h | h <;> rw [h] <;> exact Pc.noConfusion

theorem Core.not_inside (h : Core s l) (hfree : Free s b) : ¬ Inside s p b i := fun hin =>
  hin.ne_out (hfree p (h.inside p b i hin).owner)

theorem Core.not_mem (h : Core s l) (hfree : Free s b) : b ∉ l := by
  intro hmem
  obtain ⟨p, i, hin, -⟩ := h.members b hmem
  exact h.not_inside hfree hin

theorem free_of_out (howner : s.owner b = some p) (hp : s.procs p = .out) : Free s b := by
  intro q hq
  obtain rfl := Option.some_inj.mp (howner.symm.trans hq)
  exact hp

theorem free_of_unlocked (howner : s.owner b = none) : Free s b := by
  intro q hq
  cases howner.symm.trans hq

theorem Inv.set_owner (h : Inv s l) (hfree : Free s b) (o : Option ℕ) :
    Inv { s with owner := Function.update s.owner b o } l := by
  refine ⟨⟨h.linked, h.nodup, h.queued, fun q c i hin => ?_, h.members, h.asleep, h.returned⟩,
    h.started, h.drive⟩
  obtain ⟨howner, hqueued, hfinished, hwaiting⟩ := h.inside q c i hin
  have hne : c ≠ b := by
    rintro rfl
    exact h.not_inside hfree hin
  exact ⟨(Function.update_of_ne hne _ _).trans howner, hqueued, hfinished, hwaiting⟩

theorem Inv.change (h : Inv s l) (hfree : Free s b) (buf : Buf D) :
    Inv { s with bufs := Function.update s.bufs b buf } l := by
  have hkeep : ∀ c, c ≠ b → Function.update s.bufs b buf c = s.bufs c := fun c hc =>
    Function.update_of_ne hc _ _
  refine ⟨⟨h.linked, h.nodup, h.queued, fun q c i hin => ?_, h.members, h.asleep, h.returned⟩,
    h.started, ?_⟩
  · have hne : c ≠ b := by
      rintro rfl
      exact h.not_inside hfree hin
    obtain ⟨howner, hqueued, hfinished, hwaiting⟩ := h.inside q c i hin
    rw [← hkeep c hne] at hfinished hwaiting
    exact ⟨howner, hqueued, hfinished, hwaiting⟩
  · have hdrive := h.drive
    cases l with
    | nil => exact hdrive
    | cons c l =>
        have hc : c ≠ b := by
          rintro rfl
          exact h.not_mem hfree List.mem_cons_self
        rw [Drive] at hdrive ⊢
        dsimp only
        rw [hkeep c hc]
        exact hdrive

theorem Inv.set_pc (h : Inv s l) (hin : Inside s p b i) {pc : Pc}
    (hpc : pc = .awake b i ∨ pc = .asleep b i ∧ s.log.completed.length ≤ i) :
    Inv { s with procs := Function.update s.procs p pc } l := by
  have hinside : ∀ q c j, Inside { s with procs := Function.update s.procs p pc } q c j ↔
      Inside s q c j := by
    intro q c j
    by_cases hq : q = p
    · subst hq
      rw [Inside]
      dsimp only
      rw [Function.update_self]
      constructor
      · intro hcase
        rcases hpc with rfl | ⟨rfl, -⟩ <;> rcases hcase with hcase | hcase <;> cases hcase <;>
          exact hin
      · intro hin'
        obtain ⟨rfl, rfl⟩ := hin.unique hin'
        exact hpc.symm.imp And.left id
    · rw [Inside, Inside]
      dsimp only
      rw [Function.update_of_ne hq]
  refine ⟨⟨h.linked, h.nodup, h.queued, fun q c j hin' => ?_, fun c hc => ?_, fun q c j hq => ?_,
    h.returned⟩, h.started, h.drive⟩
  · obtain ⟨howner, hqueued, hfinished, hwaiting⟩ := h.inside q c j ((hinside q c j).mp hin')
    exact ⟨howner, hqueued, hfinished, hwaiting⟩
  · obtain ⟨q, j, hin', hj⟩ := h.members c hc
    exact ⟨q, j, (hinside q c j).mpr hin', hj⟩
  · dsimp only at hq
    by_cases hqp : q = p
    · rw [hqp, Function.update_self] at hq
      rcases hpc with rfl | ⟨rfl, hi⟩
      · cases hq
      · cases hq
        exact hi
    · rw [Function.update_of_ne hqp] at hq
      exact h.asleep q c j hq

theorem Finished.of_done (h : Requested s p b i) (hdone : (s.bufs b).Done) :
    Finished s.log b i (s.bufs b) :=
  h.finished (not_le.mp fun hi => h.waiting hi hdone)

theorem Inv.leave (h : Inv s l) (hin : Inside s p b i) (hdone : (s.bufs b).Done) :
    Inv { s with
      procs := Function.update s.procs p .out
      log := { s.log with returned := s.log.returned ++ [⟨b, i, s.bufs b⟩] } } l := by
  have hfinished := Finished.of_done (h.inside p b i hin) hdone
  have hkeep : ∀ (log : History D) (_ : log = { s.log with
      returned := s.log.returned ++ [⟨b, i, s.bufs b⟩] }) c j buf, Finished s.log c j buf →
        Finished log c j buf := by
    rintro log rfl c j buf hf
    exact hf.mono List.prefix_rfl List.prefix_rfl List.prefix_rfl
  have hinside : ∀ q c j, Inside { s with
      procs := Function.update s.procs p .out
      log := { s.log with returned := s.log.returned ++ [⟨b, i, s.bufs b⟩] } } q c j →
        q ≠ p ∧ Inside s q c j := by
    intro q c j hin'
    have hq : q ≠ p := by
      rintro rfl
      exact hin'.ne_out (Function.update_self q Pc.out s.procs)
    rw [Inside] at hin'
    dsimp only at hin'
    rw [Function.update_of_ne hq] at hin'
    exact ⟨hq, hin'⟩
  refine ⟨⟨h.linked, h.nodup, h.queued, fun q c j hin' => ?_, fun c hc => ?_, fun q c j hq => ?_,
    fun r hr => ?_⟩, h.started, h.drive⟩
  · obtain ⟨howner, hqueued, hf, hwaiting⟩ := h.inside q c j (hinside q c j hin').2
    exact ⟨howner, hqueued, fun hj => hkeep _ rfl _ _ _ (hf hj), hwaiting⟩
  · obtain ⟨q, j, hin', hj⟩ := h.members c hc
    have hq : q ≠ p := by
      rintro rfl
      obtain ⟨-, rfl⟩ := hin.unique hin'
      exact absurd hfinished.lt (not_lt.mpr hj)
    refine ⟨q, j, ?_, hj⟩
    rw [Inside]
    dsimp only
    rw [Function.update_of_ne hq]
    exact hin'
  · exact h.asleep q c j (by
      have hq' := (hinside q c j (.inl hq)).1
      dsimp only at hq
      rwa [Function.update_of_ne hq'] at hq)
  · rcases List.mem_append.mp hr with hr | hr
    · exact hkeep _ rfl _ _ _ (h.returned r hr)
    · rw [List.mem_singleton.mp hr]
      exact hkeep _ rfl _ _ _ hfinished

theorem Inv.resume (h : Inv s l) (hp : s.procs p = .awake b i) : Inv (s.check p b i) l := by
  have hin : Inside s p b i := .inr hp
  rw [State.check]
  by_cases hdone : (s.bufs b).Done
  · rw [if_pos hdone]
    exact h.leave hin hdone
  · rw [if_neg hdone]
    refine h.set_pc hin (.inr ⟨rfl, ?_⟩)
    by_contra hi
    exact hdone ((h.inside p b i hin).finished (not_le.mp hi)).done

theorem Inv.execute (h : Inv s l) {c : Command D} {cs : List (Command D)}
    (hc : s.commands = c :: cs) :
    Inv { s.execute c with commands := cs } l := by
  have hserved : s.log.served <+: (s.execute c).log.served := List.prefix_append _ _
  have hkeep : ∀ c' j buf, Finished s.log c' j buf → Finished (s.execute c).log c' j buf :=
    fun c' j buf hf => hf.mono List.prefix_rfl List.prefix_rfl hserved
  refine ⟨⟨h.linked, h.nodup, h.queued, fun q c' j hin => ?_, h.members, h.asleep,
    fun r hr => hkeep _ _ _ (h.returned r hr)⟩, h.started, ?_⟩
  · obtain ⟨howner, hqueued, hf, hwaiting⟩ := h.inside q c' j hin
    exact ⟨howner, hqueued, fun hj => hkeep _ _ _ (hf hj), hwaiting⟩
  · have hdrive := h.drive
    cases l with
    | nil => cases hdrive.1.symm.trans hc
    | cons b l =>
        rcases hdrive with ⟨hcommands, hints, hlen⟩ | ⟨hnil, -⟩
        · obtain ⟨rfl, rfl⟩ := List.cons.inj (hcommands.symm.trans hc)
          refine .inr ⟨rfl, _, congrArg (· ++ _) hints, ?_, ?_, fun hdirty => ?_⟩
          · change (s.log.served ++ [_]).length = _
            rw [List.length_append, hlen]
            rfl
          · change (s.log.served ++ [_])[s.log.completed.length]? = _
            rw [← hlen, List.getElem?_concat_length]
            rfl
          · rw [State.command, if_pos (show (s.bufs b).dirty = true from hdirty)]
            rfl
        · cases hnil.symm.trans hc

theorem Core.start (h : Core s l) (hstarted : s.log.started = s.log.completed)
    (hidle : s.commands = [] ∧ s.interrupts = [] ∧ s.log.served.length = s.log.completed.length)
    (ht : (match s.queue.head with
      | none => some s
      | some b => s.idestart b) = some t) : Inv t l := by
  have hhead := h.linked.head_eq
  cases l with
  | nil =>
      rw [hhead] at ht
      cases ht
      exact ⟨h, by rw [hstarted, List.take_nil, List.append_nil], hidle⟩
  | cons b l =>
      rw [hhead] at ht
      dsimp only [List.head?_cons] at ht
      rw [State.idestart] at ht
      split_ifs at ht
      cases ht
      refine ⟨⟨h.linked, h.nodup, h.queued, fun q c i hin => ?_, h.members, h.asleep,
        fun r hr => ?_⟩,
        ?_, .inl ⟨?_, hidle.2⟩⟩
      · obtain ⟨howner, hqueued, hf, hwaiting⟩ := h.inside q c i hin
        exact ⟨howner, hqueued, fun hi =>
          (hf hi).mono List.prefix_rfl List.prefix_rfl List.prefix_rfl, hwaiting⟩
      · exact (h.returned r hr).mono List.prefix_rfl List.prefix_rfl List.prefix_rfl
      · exact congrArg (· ++ [b]) hstarted
      · exact congrArg (· ++ [_]) hidle.1

theorem wakeup_asleep {pc : Pc} {c j : ℕ} (h : Pc.wakeup b pc = .asleep c j) :
    pc = .asleep c j ∧ c ≠ b := by
  cases pc with
  | out => cases h
  | awake x i => cases h
  | asleep x i =>
      rw [Pc.wakeup] at h
      split_ifs at h with hx
      cases h
      exact ⟨rfl, hx⟩

theorem inside_wakeup {pc : Pc} {c j : ℕ} :
    (Pc.wakeup b pc = .asleep c j ∨ Pc.wakeup b pc = .awake c j) ↔
      pc = .asleep c j ∨ pc = .awake c j := by
  cases pc with
  | out => exact Iff.rfl
  | awake x i => exact Iff.rfl
  | asleep x i =>
      rw [Pc.wakeup]
      split_ifs
      · constructor
        · rintro (h | h) <;> cases h
          exact .inl rfl
        · rintro (h | h) <;> cases h
          exact .inr rfl
      · exact Iff.rfl

theorem Inv.index_head (h : Inv s (b :: l))
    (hin : Inside s p b i) : i = s.log.completed.length := by
  obtain ⟨q, j, hin', hj⟩ := h.members b List.mem_cons_self
  have hq := (h.inside q b j hin').owner
  have hp := (h.inside p b i hin).owner
  obtain rfl := Option.some_inj.mp (hq.symm.trans hp)
  obtain ⟨-, rfl⟩ := hin.unique hin'
  have hqueued := (h.inside q b i hin).queued
  have hzero : (b :: l)[0]? = some b := rfl
  rw [h.queued, List.getElem?_append_right hj, ← hzero] at hqueued
  have hlt : i - s.log.completed.length < (b :: l).length := by
    by_contra hge
    rw [List.getElem?_eq_none (not_lt.mp hge)] at hqueued
    cases hqueued
  have hindex := (List.getElem?_inj hlt h.nodup).mp hqueued
  omega

theorem Inv.complete (h : Inv s (b :: l)) {d : D} {ds : List D} (hd : s.interrupts = d :: ds) :
    Core (State.complete { s with interrupts := ds } b d) l ∧ s.commands = [] ∧ ds = [] ∧
      s.log.served.length = s.log.completed.length + 1 := by
  obtain ⟨-, hnil, -⟩ | ⟨hcommands, d', hints, hlen, hserved, hdata⟩ := h.drive
  · cases hnil.symm.trans hd
  obtain ⟨rfl, rfl⟩ := List.cons.inj (hints.symm.trans hd)
  refine ⟨?_, hcommands, rfl, hlen⟩
  obtain ⟨hnot, hnodup⟩ := List.nodup_cons.mp h.nodup
  have hcompleted : s.log.completed <+: s.log.completed ++ [b] := List.prefix_append _ _
  have hqueued : s.log.queued = s.log.completed ++ [b] ++ l := by
    rw [h.queued, List.append_assoc, List.singleton_append]
  have hnext : s.log.queued[s.log.completed.length]? = some b := by
    rw [h.queued, List.getElem?_append_right le_rfl, Nat.sub_self]
    rfl
  have hkeep : ∀ c j buf, Finished s.log c j buf →
      Finished { s.log with completed := s.log.completed ++ [b] } c j buf :=
    fun c j buf hf => hf.mono hcompleted List.prefix_rfl List.prefix_rfl
  have hlength : (s.log.completed ++ [b]).length = s.log.completed.length + 1 := List.length_append
  have hinside : ∀ q c j, Inside (State.complete { s with interrupts := [] } b d') q c j ↔
      Inside s q c j := fun q c j => inside_wakeup
  have hother : ∀ q c j, Inside s q c j → c ≠ b → j ≠ s.log.completed.length := by
    rintro q c j hin hne rfl
    exact hne (Option.some_inj.mp ((h.inside q c _ hin).queued.symm.trans hnext))
  refine ⟨h.linked.tail, hnodup, hqueued, fun q c j hin => ?_, fun c hc => ?_, fun q c j hq => ?_,
    fun r hr => hkeep _ _ _ (h.returned r hr)⟩
  · rw [hinside] at hin
    obtain ⟨howner, hq, hf, hwaiting⟩ := h.inside q c j hin
    by_cases hcb : c = b
    · subst hcb
      obtain rfl := h.index_head hin
      refine ⟨howner, hq, fun _ => ⟨?_, hq, ?_, ?_⟩, fun hj => ?_⟩
      · change _ < (s.log.completed ++ [c]).length
        rw [hlength]
        exact Nat.lt_succ_self _
      · change Buf.Done (Function.update s.bufs c _ c)
        rw [Function.update_self]
        exact ⟨rfl, rfl⟩
      · change s.log.served[s.log.completed.length]? = _
        rw [hserved]
        change some (Served.mk _ _ _) = some (Served.mk ((Function.update s.bufs c _ c).dev % 2)
          (Function.update s.bufs c _ c).blockno (Function.update s.bufs c _ c).data)
        rw [Function.update_self]
        dsimp only
        by_cases hdirty : (s.bufs c).dirty = true
        · rw [if_pos hdirty, hdata hdirty]
        · rw [if_neg hdirty]
      · change (s.log.completed ++ [c]).length ≤ _ at hj
        omega
    · have hbuf : (State.complete { s with interrupts := [] } b d').bufs c = s.bufs c :=
        Function.update_of_ne hcb _ _
      have hj := hother q c j hin hcb
      refine ⟨howner, hq, fun hlt => ?_, fun hle => ?_⟩
      · change j < (s.log.completed ++ [b]).length at hlt
        rw [hbuf]
        exact hkeep _ _ _ (hf (by omega))
      · change (s.log.completed ++ [b]).length ≤ j at hle
        rw [hbuf]
        exact hwaiting (by omega)
  · obtain ⟨q, j, hin, hj⟩ := h.members c (List.mem_cons_of_mem b hc)
    have hne : c ≠ b := fun hcb => hnot (hcb ▸ hc)
    refine ⟨q, j, (hinside q c j).mpr hin, ?_⟩
    have hj' := hother q c j hin hne
    change (s.log.completed ++ [b]).length ≤ j
    omega
  · obtain ⟨hq', hne⟩ := wakeup_asleep hq
    have hj := h.asleep q c j hq'
    have hj' := hother q c j (.inl hq') hne
    change (s.log.completed ++ [b]).length ≤ j
    omega

theorem Inv.ideintr (h : Inv s l) {d : D} {ds : List D} (hd : s.interrupts = d :: ds)
    (ht : State.ideintr { s with interrupts := ds } d = some t) : ∃ l', Inv t l' := by
  have hhead := h.linked.head_eq
  cases l with
  | nil => cases h.drive.2.1.symm.trans hd
  | cons b l =>
      obtain ⟨hcore, hcommands, rfl, hlen⟩ := h.complete hd
      refine ⟨l, hcore.start ?_ ⟨hcommands, rfl, ?_⟩ ?_⟩
      · exact h.started
      · change s.log.served.length = (s.log.completed ++ [b]).length
        rw [hlen, List.length_append]
        rfl
      · rw [State.ideintr] at ht
        dsimp only at ht
        rw [hhead] at ht
        exact ht

theorem Inv.enqueue (h : Inv s l) (hp : s.procs p = .out) (howner : s.owner b = some p)
    (hwaiting : ¬ (s.bufs b).Done) {queue : Queue ℕ}
    (hlinked : Queue.Linked queue.next queue.head (l ++ [b])) :
    Core { s with
      queue := queue
      log := { s.log with queued := s.log.queued ++ [b] }
      procs := Function.update s.procs p (.asleep b s.log.queued.length) } (l ++ [b]) := by
  have hfree := free_of_out howner hp
  have hle : s.log.completed.length ≤ s.log.queued.length := by
    rw [h.queued, List.length_append]
    exact Nat.le_add_right _ _
  have hqueued : s.log.queued <+: s.log.queued ++ [b] := List.prefix_append _ _
  have hkeep : ∀ c j buf, Finished s.log c j buf →
      Finished { s.log with queued := s.log.queued ++ [b] } c j buf :=
    fun c j buf hf => hf.mono List.prefix_rfl hqueued List.prefix_rfl
  have hself : Function.update s.procs p (.asleep b s.log.queued.length) p =
      .asleep b s.log.queued.length := Function.update_self ..
  refine ⟨hlinked, ?_, ?_, fun q c j hin => ?_, fun c hc => ?_, fun q c j hq => ?_,
    fun r hr => hkeep _ _ _ (h.returned r hr)⟩
  · refine List.nodup_append.mpr ⟨h.nodup, List.nodup_singleton b, fun x hx y hy => ?_⟩
    rw [List.mem_singleton.mp hy]
    rintro rfl
    exact h.not_mem hfree hx
  · exact (congrArg (· ++ [b]) h.queued).trans (List.append_assoc _ _ _)
  · rw [Inside] at hin
    dsimp only at hin
    by_cases hq : q = p
    · subst hq
      rw [hself] at hin
      rcases hin with hin | hin
      · cases hin
        refine ⟨howner, List.getElem?_concat_length .., fun hlt => absurd hlt (not_lt.mpr hle),
          fun _ => hwaiting⟩
      · cases hin
    · rw [Function.update_of_ne hq] at hin
      obtain ⟨ho, hqj, hf, hw⟩ := h.inside q c j hin
      exact ⟨ho, getElem?_of_isPrefix hqueued hqj, fun hj => hkeep _ _ _ (hf hj), hw⟩
  · rcases List.mem_append.mp hc with hc | hc
    · obtain ⟨q, j, hin, hj⟩ := h.members c hc
      have hq : q ≠ p := by
        rintro rfl
        exact hin.ne_out hp
      refine ⟨q, j, ?_, hj⟩
      rw [Inside]
      dsimp only
      rw [Function.update_of_ne hq]
      exact hin
    · rw [List.mem_singleton.mp hc]
      exact ⟨p, _, .inl hself, hle⟩
  · dsimp only at hq
    by_cases hqp : q = p
    · rw [hqp, hself] at hq
      cases hq
      exact hle
    · rw [Function.update_of_ne hqp] at hq
      exact h.asleep q c j hq

theorem Inv.iderw (h : Inv s l) (hp : s.procs p = .out) (ht : s.iderw havedisk1 p b n = some t) :
    Inv t (l ++ [b]) := by
  rw [State.iderw] at ht
  split_ifs at ht with howner hwaiting _
  rw [not_not] at howner
  obtain ⟨u, hu, rfl⟩ := Option.map_eq_some_iff.mp ht
  obtain ⟨place, hlast, hu⟩ := Option.bind_eq_some_iff.mp hu
  have hnot := h.not_mem (free_of_out howner hp)
  have hlinked : Queue.Linked (Function.update s.queue.next b none) s.queue.head l :=
    h.linked.congr fun c hc => Function.update_of_ne (ne_of_mem_of_not_mem hc hnot) _ _
  have happend :=
    Queue.Linked.append (p := .head) hlinked hlast h.nodup (fun _ _ hp => by cases hp) hnot
    (fun hp => by cases hp) (Function.update_self ..)
  generalize ({ s.queue with next := Function.update s.queue.next b none } : Queue ℕ).write place
    (some b) = queue at happend hu
  have hhead : queue.head = (l ++ [b]).head? := Queue.Linked.head_eq happend
  have hcore := h.enqueue hp howner hwaiting happend
  dsimp only at hu
  cases l with
  | nil =>
      have hheadb : queue.head = some b := hhead
      rw [if_pos hheadb, State.idestart] at hu
      split_ifs at hu with hblock
      cases hu
      refine hcore.start (h.started.trans (List.append_nil _)) h.drive ?_
      dsimp only
      rw [hheadb]
      dsimp only
      rw [State.idestart, if_neg hblock, State.check, if_neg hwaiting]
  | cons c l =>
      have hne : queue.head ≠ some b := by
        rw [hhead]
        rintro hcb
        cases hcb
        exact hnot List.mem_cons_self
      rw [if_neg hne] at hu
      cases hu
      rw [State.check, if_neg hwaiting]
      exact ⟨hcore, h.started, h.drive⟩

theorem Reachable.inv (h : Reachable havedisk1 s) : ∃ l, Inv s l := by
  refine @Reaches.invariant _ Initial (Step havedisk1) (fun s => ∃ l, Inv s l) (fun t h0 => ?_)
    (fun _ _ _ hinv hstep => ?_) s h
  · have hlog := h0.log
    refine ⟨[], ⟨h0.queue, List.nodup_nil, ?_, fun p b i hin => ?_, fun b hb => ?_,
      fun p b i hp => ?_,
      fun r hr => ?_⟩, ?_, h0.drive.1, h0.drive.2, ?_⟩
    · rw [hlog]
      rfl
    · exact absurd (h0.procs p) hin.ne_out
    · exact absurd hb List.not_mem_nil
    · cases (h0.procs p).symm.trans hp
    · rw [hlog] at hr
      exact absurd hr List.not_mem_nil
    · rw [hlog]
      rfl
    · rw [hlog]
      rfl
  · obtain ⟨l, hinv⟩ := hinv
    cases hstep with
    | lock p b hp hb => exact ⟨l, hinv.set_owner (free_of_unlocked hb) (some p)⟩
    | unlock p b hp hb => exact ⟨l, hinv.set_owner (free_of_out hb hp) none⟩
    | change b buf hfree => exact ⟨l, hinv.change hfree buf⟩
    | iderw p b n hp ht => exact ⟨l ++ [b], hinv.iderw hp ht⟩
    | kill p b i hp => exact ⟨l, hinv.set_pc (.inl hp) (.inl rfl)⟩
    | resume p b i hp => exact ⟨l, hinv.resume hp⟩
    | execute c cs hc => exact ⟨l, hinv.execute hc⟩
    | ideintr d ds hd ht => exact hinv.ideintr hd ht

end Steps

section Law

variable {s : State D} {havedisk1 : Bool}

/-- The law of the driver. A process that is asleep waits for a request that is not complete, and a
return is one of a complete request. -/
structure Lawful (s : State D) : Prop where
  order : s.log.completed <+: s.log.started ∧ s.log.started <+: s.log.queued
  idle : s.queue.head = none → s.log.completed = s.log.queued ∧ s.commands = [] ∧ s.interrupts = []
  active : ∀ b, s.queue.head = some b → s.log.started = s.log.completed ++ [b] ∧
    (s.commands = [State.command (s.bufs b)] ∧ s.interrupts = [] ∨
      s.commands = [] ∧ s.interrupts.length = 1)
  returned : ∀ r ∈ s.log.returned, Finished s.log r.b r.i r.buf
  asleep : ∀ p b i, s.procs p = .asleep b i → s.log.queued[i]? = some b ∧
    s.log.completed.length ≤ i ∧ ¬ (s.bufs b).Done
  ends : ∀ p b, s.procs p = .out → s.owner b = some p → ∃ n place,
    ({ s.queue with next := Function.update s.queue.next b none } : Queue ℕ).last n .head =
      some place

/-- In every run requests are started one at a time in the order in which they were queued. -/
theorem disk_lawful (h : Reachable havedisk1 s) : Lawful s := by
  obtain ⟨l, h⟩ := h.inv
  have hhead := h.linked.head_eq
  have hdrive := h.drive
  refine ⟨⟨?_, ?_⟩, fun hnone => ?_, fun b hb => ?_, h.returned, fun p b i hp => ?_,
    fun p b hp hb => ?_⟩
  · rw [h.started]
    exact List.prefix_append _ _
  · rw [h.started, h.queued]
    exact (List.prefix_append_right_inj _).mpr (List.take_prefix 1 l)
  · cases l with
    | nil => exact ⟨(h.queued.trans (List.append_nil _)).symm, hdrive.1, hdrive.2.1⟩
    | cons c l => cases hhead.symm.trans hnone
  · cases l with
    | nil => cases hhead.symm.trans hb
    | cons c l =>
        cases hhead.symm.trans hb
        refine ⟨h.started, ?_⟩
        rcases hdrive with ⟨hcommands, hints, -⟩ | ⟨hcommands, d, hints, -⟩
        · exact .inl ⟨hcommands, hints⟩
        · exact .inr ⟨hcommands, congrArg List.length hints⟩
  · have hreq := h.inside p b i (.inl hp)
    have hi := h.asleep p b i hp
    exact ⟨hreq.queued, hi, hreq.waiting hi⟩
  · have hnot := h.not_mem (free_of_out hb hp)
    exact Queue.exists_last (p := .head) (h.linked.congr fun c hc =>
      Function.update_of_ne (ne_of_mem_of_not_mem hc hnot) _ _)

/-- An idle disk, whose blocks have ten times their numbers. Buffer `b` is for block `b`. -/
def start : State ℕ where
  bufs b := ⟨false, false, 1, b, 0⟩
  queue := ⟨none, fun _ => none⟩
  owner _ := none
  procs _ := .out
  commands := []
  interrupts := []
  disk _ block := 10 * block
  log := ⟨[], [], [], [], []⟩

/-- The second request is queued behind the first one, and `ideintr` starts it. -/
theorem disk_lawful_two_reads : ∃ s : State ℕ, Reachable true s ∧
    s.log.returned.map (fun r => (r.b, r.buf.data)) = [(5, 50), (6, 60)] ∧ Lawful s := by
  have h0 : Reachable true start := .start ⟨rfl, fun _ => rfl, fun _ => rfl, ⟨rfl, rfl⟩, rfl⟩
  have h1 := h0.step (.lock 0 5 rfl rfl)
  have h2 := h1.step (.lock 1 6 rfl rfl)
  have h3 := h2.step (.iderw 0 5 1 rfl rfl)
  have h4 := h3.step (.iderw 1 6 2 rfl rfl)
  have h5 := h4.step (.execute ⟨1, 5, none⟩ [] rfl)
  have h6 := h5.step (.ideintr 50 [] rfl rfl)
  have h7 := h6.step (.resume 0 5 0 rfl)
  have h8 := h7.step (.execute ⟨1, 6, none⟩ [] rfl)
  have h9 := h8.step (.ideintr 60 [] rfl rfl)
  have h10 := h9.step (.resume 1 6 1 rfl)
  exact ⟨_, h10, rfl, disk_lawful h10⟩

end Law

end Ide

end Xv6Fairness
