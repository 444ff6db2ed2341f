import Mathlib.Data.Fintype.Card
import Xv6Fairness.Counting
import Xv6Fairness.DiskLayout
import Xv6Fairness.LinkedRing
import Xv6Fairness.TransitionRuns

/-!
# The buffer cache

`bread` finds or recycles a buffer under `bcache.lock`, waits for the lock of the buffer and reads
the block where the buffer does not hold it yet; `brelse` gives the lock back and moves the buffer
to the front of the list when nobody uses it any more. The steps are the parts of the C code between
two operations on these locks. A use of a buffer reaches from `bget` to the end of `brelse`; a
process may have several at a time. The commit of the log is a user like the others: it reads logged
blocks and writes them with `bwrite`, which takes `B_DIRTY` away.
-/

namespace Xv6Fairness

open LinkedRing

namespace BufferCache

variable {ι : Type}

structure Buf (ι : Type) where
  dev : ℕ
  blockno : ℕ
  valid : Bool
  dirty : Bool
  lock : Option ι
  refcnt : ℕ
  data : DiskBlock

def Buf.block (b : Buf ι) : ℕ × ℕ := (b.dev, b.blockno)

/-- `bget` takes the buffer for another block. -/
def Buf.recycle (b : Buf ι) (dev blockno : ℕ) : Buf ι :=
  { b with dev := dev, blockno := blockno, valid := false, dirty := false, refcnt := 1 }

inductive Phase
  | waiting                   -- bget(), in acquiresleep()
  | locked                    -- bread(), before the test of B_VALID
  | holding (touched : Bool)  -- the data have been changed since the last log_write() or bwrite()
  | releasing                 -- brelse(), after releasesleep()
  deriving DecidableEq

def Phase.Locks : Phase → Prop
  | .locked | .holding _ => True
  | _ => False

/-- A use of buffer `i` for block `blockno` of device `dev`. -/
structure Use where
  dev : ℕ
  blockno : ℕ
  i : Fin NBUF
  phase : Phase

def Use.block (x : Use) : ℕ × ℕ := (x.dev, x.blockno)

/-- `stored` is what was last passed to `log_write` or `bwrite` for a block, or what the disk held
at first. -/
@[ext]
structure State (ι : Type) where
  buf : Fin NBUF → Buf ι
  ring : Links (Fin NBUF)
  disk : ℕ × ℕ → DiskBlock
  stored : ℕ × ℕ → DiskBlock
  use : ι → Option Use

inductive Op
  | acquire
  | read
  | modify (data : DiskBlock)
  | logWrite
  | bwrite
  | release
  | put

inductive Action (ι : Type)
  | bget (u : ι) (dev blockno : ℕ)
  | run (u : ι) (op : Op)

/-- The cache after `binit`. -/
def binit (disk : ℕ × ℕ → DiskBlock) (data : Fin NBUF → DiskBlock) : State ι where
  buf i := ⟨0, 0, false, false, none, 0, data i⟩
  ring := (List.finRange NBUF).foldl (fun r b => r.pushFront b) Links.empty
  disk := disk
  stored := disk
  use _ := none

namespace State

variable [DecidableEq ι] (s : State ι) (u : ι) (x : Use) (i : Fin NBUF)

def setBuf (b : Buf ι) : State ι := { s with buf := Function.update s.buf i b }

omit [DecidableEq ι] in
theorem setBuf_self (b : Buf ι) : (s.setBuf i b).buf i = b := Function.update_self _ _ _

/-- Use `x` goes on in another phase. -/
def goto (phase : Phase) : State ι :=
  { s with use := Function.update s.use u (some { x with phase := phase }) }

def bget (dev blockno : ℕ) : Option (State ι) :=
  match Links.scan s.ring.next (fun i => (s.buf i).block = (dev, blockno)) NBUF
    (s.ring.next none) with
  | some (some i) =>
    some ((s.setBuf i { s.buf i with refcnt := (s.buf i).refcnt + 1 }).goto u
      ⟨dev, blockno, i, .waiting⟩
      .waiting)
  | some none =>
    match Links.scan s.ring.prev (fun i => (s.buf i).refcnt = 0 && !(s.buf i).dirty) NBUF
      (s.ring.prev none) with
    | some (some i) =>
      some ((s.setBuf i ((s.buf i).recycle dev blockno)).goto u
        ⟨dev, blockno, i, .waiting⟩ .waiting)
    | _ => none
  | none => none

/-- A dirty buffer is written to the disk and another one is read from it. -/
def iderw : Option (State ι) :=
  let b := s.buf i
  if FSSIZE ≤ b.blockno then none
  else if b.dirty then
    some { s.setBuf i { b with valid := true, dirty := false } with
      disk := Function.update s.disk b.block b.data }
  else some (s.setBuf i { b with valid := true, data := s.disk b.block })

/-- The ghost record of what is passed to `log_write` and `bwrite`. -/
def store : State ι :=
  { s with stored := Function.update s.stored (s.buf i).block (s.buf i).data }

/-- The second part of `brelse`. -/
def put : State ι :=
  let b := s.buf x.i
  { s with
    buf := Function.update s.buf x.i { b with refcnt := b.refcnt - 1 }
    ring := if b.refcnt - 1 = 0 then (s.ring.unlink x.i).pushFront x.i else s.ring
    use := Function.update s.use u none }

/-- A step of use `x`, which belongs to `u`. Changed data are passed to `log_write` or `bwrite`
before the buffer is released. -/
def run (op : Op) : Option (State ι) :=
  let b := s.buf x.i
  match op, x.phase with
  | .acquire, .waiting =>
    if b.lock = none then some ((s.setBuf x.i { b with lock := some u }).goto u x .locked) else none
  | .read, .locked =>
    if b.valid then some (s.goto u x (.holding false))
    else (s.iderw x.i).map fun s => s.goto u x (.holding false)
  | .modify data,
      .holding _ => some ((s.setBuf x.i { b with data := data }).goto u x (.holding true))
  | .logWrite, .holding _ =>
    some (((s.setBuf x.i { b with dirty := true }).store x.i).goto u x (.holding false))
  | .bwrite, .holding _ =>
    if b.lock = some u then
      (((s.setBuf x.i { b with dirty := true }).store x.i).iderw x.i).map fun s =>
        s.goto u x (.holding false)
    else none
  | .release, .holding false =>
    if b.lock = some u then some ((s.setBuf x.i { b with lock := none }).goto u x .releasing)
    else none
  | .put, .releasing => some (s.put u x)
  | _, _ => none

end State

variable [DecidableEq ι]

def step (s : State ι) : Action ι → Option (State ι)
  | .bget u dev blockno => if (s.use u).isSome then none else s.bget u dev blockno
  | .run u op => (s.use u).bind fun x => s.run u x op

abbrev Reachable : State ι → Prop :=
  TransitionRuns.Reaches (fun s => ∃ disk data, s = binit disk data) fun s t =>
    ∃ a, step s a = some t

/-- A buffer as `binit` leaves it. -/
structure Buf.Fresh (b : Buf ι) : Prop where
  dev : b.dev = 0
  refcnt : b.refcnt = 0
  valid : b.valid = false
  dirty : b.dirty = false

/-- The links form the list of all buffers, in which a buffer that follows another one of its block
has not been used yet. -/
structure ListedAs (s : State ι) (xs : List (Fin NBUF)) : Prop where
  represents : s.ring.Represents xs
  all : ∀ i, i ∈ xs
  fresh : xs.Pairwise fun i j => (s.buf i).block = (s.buf j).block → (s.buf j).Fresh

def Listed (s : State ι) : Prop := ∃ xs, ListedAs s xs

/-- Buffer `i` is the first one of its block. -/
def First (s : State ι) (i : Fin NBUF) : Prop :=
  ∃ ys zs, ListedAs s (ys ++ i :: zs) ∧ ∀ j ∈ ys, (s.buf j).block ≠ (s.buf i).block

section List

omit [DecidableEq ι]

variable {s t : State ι} {xs : List (Fin NBUF)} {i j : Fin NBUF}

theorem First.listed (h : First s i) : Listed s := by
  obtain ⟨ys, zs, hl, -⟩ := h
  exact ⟨_, hl⟩

theorem First.others (h : First s i) (hj : j ≠ i) (hblock : (s.buf j).block = (s.buf i).block) :
    (s.buf j).Fresh := by
  obtain ⟨ys, zs, hl, hys⟩ := h
  have hfresh := (List.pairwise_cons.mp (List.pairwise_append.mp hl.fresh).2.1).1
  rcases List.mem_append.mp (hl.all j) with hj' | hj'
  · exact absurd hblock (hys j hj')
  · rcases List.mem_cons.mp hj' with rfl | hj'
    · exact absurd rfl hj
    · exact hfresh j hj' hblock.symm

theorem Listed.first (h : Listed s) (hi : ¬ (s.buf i).Fresh) : First s i := by
  obtain ⟨xs, hl⟩ := h
  obtain ⟨ys, zs, rfl⟩ := List.append_of_mem (hl.all i)
  refine ⟨ys, zs, hl, fun j hj hblock => hi ?_⟩
  exact (List.pairwise_append.mp hl.fresh).2.2 j hj i List.mem_cons_self hblock

theorem First.update (h : First s i) {b : Buf ι} (hring : t.ring = s.ring)
    (hbuf : t.buf = Function.update s.buf i b) (hblock : b.block = (s.buf i).block) :
    First t i := by
  obtain ⟨ys, zs, ⟨hrep, hall, hfresh⟩, hys⟩ := h
  have hne : ∀ j ∈ ys ++ zs, j ≠ i := by
    rintro j hj rfl
    exact (List.nodup_middle.mp hrep.1).notMem hj
  have hi : (t.buf i).block = (s.buf i).block := by rw [hbuf, Function.update_self, hblock]
  have hkeep : ∀ j ∈ ys ++ zs, t.buf j = s.buf j := fun j hj => by
    rw [hbuf, Function.update_of_ne (hne j hj)]
  have hkeepl : ∀ j ∈ ys, t.buf j = s.buf j := fun j hj => hkeep j (List.mem_append_left _ hj)
  have hkeepr : ∀ j ∈ zs, t.buf j = s.buf j := fun j hj => hkeep j (List.mem_append_right _ hj)
  rw [List.pairwise_append, List.pairwise_cons] at hfresh
  obtain ⟨hfy, ⟨hfi, hfz⟩, hcross⟩ := hfresh
  refine ⟨ys, zs, ⟨by rwa [hring], hall, ?_⟩, fun j hj => by rw [hkeepl j hj, hi]; exact hys j hj⟩
  rw [List.pairwise_append, List.pairwise_cons]
  refine ⟨hfy.imp_of_mem fun ha hc h => ?_, ⟨fun c hc => ?_, hfz.imp_of_mem fun ha hc h => ?_⟩,
    fun a ha c hc => ?_⟩
  · rwa [hkeepl _ ha, hkeepl _ hc]
  · rw [hi, hkeepr c hc]
    exact hfi c hc
  · rwa [hkeepr _ ha, hkeepr _ hc]
  · rw [hkeepl a ha]
    rcases List.mem_cons.mp hc with rfl | hc'
    · rw [hi]
      exact fun h => absurd h (hys a ha)
    · rw [hkeepr c hc']
      exact hcross a ha c hc

theorem First.moveFront (h : First s i) (hring : t.ring = (s.ring.unlink i).pushFront i)
    (hbuf : t.buf = s.buf) : First t i := by
  obtain ⟨ys, zs, ⟨hrep, hall, hfresh⟩, hys⟩ := h
  rw [List.pairwise_append, List.pairwise_cons] at hfresh
  obtain ⟨hfy, ⟨hfi, hfz⟩, hcross⟩ := hfresh
  refine ⟨[], ys ++ zs, ⟨?_, fun j => List.perm_middle.mem_iff.mp (hall j), ?_⟩,
    fun j hj => absurd hj List.not_mem_nil⟩
  · rw [hring]
    exact hrep.moveFront
  · rw [hbuf, List.nil_append, List.pairwise_cons, List.pairwise_append]
    refine ⟨fun c hc hblock => ?_, hfy, hfz, fun a ha c hc => hcross a ha c (.tail _ hc)⟩
    rcases List.mem_append.mp hc with hc | hc
    · exact absurd hblock.symm (hys c hc)
    · exact hfi c hc hblock

theorem ListedAs.length_le (h : ListedAs s xs) : xs.length ≤ NBUF := by
  have hcard := h.represents.1.length_le_card
  rwa [Fintype.card_fin] at hcard

theorem Listed.scan_next (h : Listed s) (block : ℕ × ℕ) :
    ∃ r, Links.scan s.ring.next (fun i => (s.buf i).block = block) NBUF
    (s.ring.next none) = some r ∧
      (∀ i, r = some i → (s.buf i).block = block ∧ First s i) ∧
      (r = none → ∀ i, (s.buf i).block ≠ block) := by
  obtain ⟨xs, hl⟩ := h
  refine ⟨_, hl.represents.scan_next _ hl.length_le, fun i hi => ?_, fun hnone i => ?_⟩
  · obtain ⟨hblock, ys, zs, rfl, hys⟩ := List.find?_eq_some_iff_append.mp hi
    have hblock := of_decide_eq_true hblock
    refine ⟨hblock, ys, zs, hl, fun j hj => ?_⟩
    rw [hblock]
    exact of_decide_eq_false (Bool.not_eq_true' _ |>.mp (hys j hj))
  · exact of_decide_eq_false
      (Bool.eq_false_iff.mpr (List.find?_eq_none.mp hnone i (hl.all i)))

theorem Listed.scan_prev (h : Listed s) (P : Fin NBUF → Bool) :
    ∃ r, Links.scan s.ring.prev P NBUF (s.ring.prev none) = some r ∧ ∀ i, r = some i →
    P i = true := by
  obtain ⟨xs, hl⟩ := h
  exact ⟨_, hl.represents.scan_prev P hl.length_le, fun i hi => List.find?_some hi⟩

theorem listed_binit (disk : ℕ × ℕ → DiskBlock) (data : Fin NBUF → DiskBlock) :
    Listed (binit disk data : State ι) := by
  have h : ∀ (xs ys : List (Fin NBUF)) (r : Links (Fin NBUF)), r.Represents ys → xs.Nodup →
      (∀ i ∈ xs, i ∉ ys) →
        (xs.foldl (fun r b => r.pushFront b) r).Represents (xs.reverse ++ ys) := by
    intro xs
    induction xs with
    | nil => exact fun ys r hr _ _ => hr
    | cons x xs ih =>
        intro ys r hr hnodup hdisj
        rw [List.reverse_cons, List.append_assoc]
        apply ih _ _ (hr.pushFront (hdisj x List.mem_cons_self)) (List.nodup_cons.mp hnodup).2
        intro i hi hmem
        rcases List.mem_cons.mp hmem with rfl | hmem
        · exact (List.nodup_cons.mp hnodup).1 hi
        · exact hdisj i (List.mem_cons_of_mem x hi) hmem
  refine ⟨_, h _ _ _ Links.represents_empty (List.nodup_finRange NBUF) fun _ _ => List.not_mem_nil,
    fun i => ?_, ?_⟩
  · rw [List.append_nil, List.mem_reverse]
    exact List.mem_finRange i
  · exact List.pairwise_of_forall fun _ _ _ => ⟨rfl, rfl, rfl, rfl⟩

end List

/-- The steps that are taken where the list is in order and only valid buffers are dirty. -/
inductive Change (s : State ι) : State ι → Prop
  | hit {u : ι} {dev blockno : ℕ} {i : Fin NBUF} (hu : s.use u = none)
      (hblock : (s.buf i).block = (dev, blockno)) (hfirst : First s i) :
      Change s ((s.setBuf i { s.buf i with refcnt := (s.buf i).refcnt + 1 }).goto u
        ⟨dev, blockno, i, .waiting⟩ .waiting)
  | recycle {u : ι} {dev blockno : ℕ} {i : Fin NBUF} (hu : s.use u = none)
      (hmiss : ∀ j, (s.buf j).block ≠ (dev, blockno)) (href : (s.buf i).refcnt = 0)
      (hclean : (s.buf i).dirty = false) :
      Change s ((s.setBuf i ((s.buf i).recycle dev blockno)).goto u ⟨dev, blockno, i, .waiting⟩
        .waiting)
  | acquire {u : ι} {x : Use} (hu : s.use u = some x) (hx : x.phase = .waiting)
      (hlock : (s.buf x.i).lock = none) :
      Change s ((s.setBuf x.i { s.buf x.i with lock := some u }).goto u x .locked)
  | found {u : ι} {x : Use} (hu : s.use u = some x) (hx : x.phase = .locked)
      (hvalid : (s.buf x.i).valid = true) : Change s (s.goto u x (.holding false))
  | read {u : ι} {x : Use} (hu : s.use u = some x) (hx : x.phase = .locked)
      (hvalid : (s.buf x.i).valid = false) :
      Change s ((s.setBuf x.i { s.buf x.i with
        valid := true
        data := s.disk (s.buf x.i).block }).goto u x (.holding false))
  | modify {u : ι} {x : Use} {touched : Bool} (hu : s.use u = some x)
      (hx : x.phase = .holding touched) (data : DiskBlock) :
      Change s ((s.setBuf x.i { s.buf x.i with data := data }).goto u x (.holding true))
  | logWrite {u : ι} {x : Use} {touched : Bool} (hu : s.use u = some x)
      (hx : x.phase = .holding touched) :
      Change s (((s.setBuf x.i { s.buf x.i with dirty := true }).store x.i).goto u x
        (.holding false))
  | bwrite {u : ι} {x : Use} {touched : Bool} {b : Buf ι} (hu : s.use u = some x)
      (hx : x.phase = .holding touched)
      (hb : b = { s.buf x.i with valid := true, dirty := false }) :
      Change s ({ s with
        buf := Function.update s.buf x.i b
        disk := Function.update s.disk (s.buf x.i).block (s.buf x.i).data
        stored := Function.update s.stored (s.buf x.i).block (s.buf x.i).data }.goto u x
        (.holding false))
  | release {u : ι} {x : Use} (hu : s.use u = some x) (hx : x.phase = .holding false) :
      Change s ((s.setBuf x.i { s.buf x.i with lock := none }).goto u x .releasing)
  | put {u : ι} {x : Use} (hu : s.use u = some x) (hx : x.phase = .releasing) :
      Change s (s.put u x)

section Steps

variable {s t : State ι}

theorem Listed.change_bget (hl : Listed s) {u : ι} {dev blockno : ℕ} (hu : s.use u = none)
    (h : s.bget u dev blockno = some t) : Change s t := by
  obtain ⟨r, hr, hfound, hmiss⟩ := hl.scan_next (dev, blockno)
  rw [State.bget, hr] at h
  cases r with
  | some i =>
      cases h
      exact .hit hu (hfound i rfl).1 (hfound i rfl).2
  | none =>
      obtain ⟨r, hr, hfree⟩ := hl.scan_prev fun i => (s.buf i).refcnt = 0 && !(s.buf i).dirty
      rw [hr] at h
      cases r with
      | none => cases h
      | some i =>
          cases h
          have hi := hfree i rfl
          rw [Bool.and_eq_true, Bool.not_eq_true'] at hi
          exact .recycle hu (hmiss rfl) (of_decide_eq_true hi.1) hi.2

omit [DecidableEq ι] in
theorem iderw_of_clean {i : Fin NBUF} (hi : (s.buf i).dirty = false) (h : s.iderw i = some t) :
    t = s.setBuf i { s.buf i with
      valid := true
      data := s.disk (s.buf i).block } := by
  rw [State.iderw] at h
  split_ifs at h with hn hd
  · exact absurd (hi.symm.trans hd) Bool.false_ne_true
  · cases h
    rfl

omit [DecidableEq ι] in
theorem iderw_of_dirty {i : Fin NBUF} (hi : (s.buf i).dirty = true) (h : s.iderw i = some t) :
    t = { s.setBuf i { s.buf i with
        valid := true
        dirty := false } with
      disk := Function.update s.disk (s.buf i).block (s.buf i).data } := by
  rw [State.iderw] at h
  split_ifs at h
  cases h
  rfl

omit [DecidableEq ι] in
theorem iderw_store {i : Fin NBUF}
    (h : ((s.setBuf i { s.buf i with dirty := true }).store i).iderw i = some t) :
    t = { s with
      buf := Function.update s.buf i { s.buf i with
        valid := true
        dirty := false }
      disk := Function.update s.disk (s.buf i).block (s.buf i).data
      stored := Function.update s.stored (s.buf i).block (s.buf i).data } := by
  have hbuf : ((s.setBuf i { s.buf i with dirty := true }).store i).buf i =
      { s.buf i with dirty := true } := Function.update_self _ _ _
  have hstored : ((s.setBuf i { s.buf i with dirty := true }).store i).stored =
      Function.update s.stored (s.buf i).block (s.buf i).data := by
    rw [State.store, State.setBuf_self]
    rfl
  have ht := iderw_of_dirty (by rw [hbuf]) h
  rw [ht, hbuf]
  exact State.ext (Function.update_idem _ _ _) rfl rfl hstored rfl

theorem change_run (hdirty : ∀ i, (s.buf i).dirty = true → (s.buf i).valid = true) {u : ι} {x : Use}
    {op : Op} (hu : s.use u = some x) (h : s.run u x op = some t) : Change s t := by
  rw [State.run.eq_def] at h
  cases hx : x.phase with
  | waiting =>
      cases op with
      | acquire =>
          rw [hx] at h
          obtain ⟨hlock, h⟩ := Option.ite_none_right_eq_some.mp h
          cases h
          exact .acquire hu hx hlock
      | _ =>
          rw [hx] at h
          cases h
  | locked =>
      cases op with
      | read =>
          rw [hx] at h
          by_cases hvalid : (s.buf x.i).valid = true
          · simp only [hvalid, if_true] at h
            cases h
            exact .found hu hx hvalid
          · have hclean : (s.buf x.i).dirty = false :=
              Bool.eq_false_iff.mpr fun hd => hvalid (hdirty x.i hd)
            simp only [hvalid] at h
            obtain ⟨t, ht, rfl⟩ := Option.map_eq_some_iff.mp h
            rw [iderw_of_clean hclean ht]
            exact .read hu hx (Bool.eq_false_iff.mpr hvalid)
      | _ =>
          rw [hx] at h
          cases h
  | holding touched =>
      cases op with
      | modify data =>
          rw [hx] at h
          cases h
          exact .modify hu hx data
      | logWrite =>
          rw [hx] at h
          cases h
          exact .logWrite hu hx
      | bwrite =>
          rw [hx] at h
          obtain ⟨-, h⟩ := Option.ite_none_right_eq_some.mp h
          obtain ⟨t, ht, rfl⟩ := Option.map_eq_some_iff.mp h
          rw [iderw_store ht]
          exact .bwrite hu hx rfl
      | release =>
          rw [hx] at h
          cases touched with
          | true => cases h
          | false =>
              obtain ⟨-, h⟩ := Option.ite_none_right_eq_some.mp h
              cases h
              exact .release hu hx
      | _ =>
          rw [hx] at h
          cases h
  | releasing =>
      cases op with
      | put =>
          rw [hx] at h
          cases h
          exact .put hu hx
      | _ =>
          rw [hx] at h
          cases h

end Steps

/-- The use is one of buffer `i`. -/
def Uses (i : Fin NBUF) (x : Option Use) : Prop := x.map Use.i = some i

instance (i : Fin NBUF) : DecidablePred (Uses i) := fun x =>
  inferInstanceAs (Decidable (x.map Use.i = some i))

/-- The use has the lock of buffer `i`. -/
def HasLock (i : Fin NBUF) (x : Option Use) : Prop := ∃ y, x = some y ∧ y.i = i ∧ y.phase.Locks

theorem uses_some {i : Fin NBUF} {x : Use} : Uses i (some x) ↔ x.i = i := by
  rw [Uses, Option.map_some, Option.some_inj]

theorem not_uses_none {i : Fin NBUF} : ¬ Uses i none := fun h => by cases h

theorem hasLock_some {i : Fin NBUF} {x : Use} : HasLock i (some x) ↔ x.i = i ∧ x.phase.Locks := by
  constructor
  · rintro ⟨y, hy, h⟩
    cases hy
    exact h
  · exact fun h => ⟨x, rfl, h⟩

theorem not_hasLock_none {i : Fin NBUF} : ¬ HasLock i none := by
  rintro ⟨y, hy, -⟩
  cases hy

section Owned

variable [Fintype ι]

structure Owned (s : State ι) : Prop where
  refcnt : ∀ i, (s.buf i).refcnt = Finset.card {u | Uses i (s.use u)}
  lock : ∀ i u, (s.buf i).lock = some u ↔ HasLock i (s.use u)
  block : ∀ u x, s.use u = some x → (s.buf x.i).block = x.block

variable {s t : State ι}

theorem Owned.update (ho : Owned s) {u : ι} {i : Fin NBUF} {b : Buf ι} {y : Option Use}
    (hbuf : t.buf = Function.update s.buf i b) (huse : t.use = Function.update s.use u y)
    (hold : ∀ j, Uses j (s.use u) → j = i) (hnew : ∀ j, Uses j y → j = i)
    (href : b.refcnt + (if Uses i (s.use u) then 1 else 0) =
      (s.buf i).refcnt + if Uses i y then 1 else 0)
    (hlock : b.lock = some u ↔ HasLock i y)
    (hothers : ∀ v, v ≠ u → (b.lock = some v ↔ (s.buf i).lock = some v))
    (hblock : b.block = (s.buf i).block ∨ (s.buf i).refcnt = 0)
    (hown : ∀ x, y = some x → b.block = x.block) : Owned t := by
  refine ⟨fun j => ?_, fun j v => ?_, fun v x hx => ?_⟩
  · have hcount := Counting.card_filter_update s.use (Uses j) u y
    rw [hbuf, huse]
    by_cases hj : j = i
    · subst hj
      rw [Function.update_self]
      have hr := ho.refcnt j
      omega
    · rw [Function.update_of_ne hj, ho.refcnt j]
      rw [if_neg fun h => hj (hold j h), if_neg fun h => hj (hnew j h)] at hcount
      omega
  · rw [hbuf, huse]
    by_cases hv : v = u
    · subst hv
      rw [Function.update_self]
      by_cases hj : j = i
      · subst hj
        rw [Function.update_self]
        exact hlock
      · rw [Function.update_of_ne hj, ho.lock]
        constructor
        · rintro ⟨x, hx, hxj, -⟩
          exact absurd (hold j (by rw [Uses, hx, Option.map_some, hxj])) hj
        · rintro ⟨x, hx, hxj, -⟩
          exact absurd (hnew j (by rw [Uses, hx, Option.map_some, hxj])) hj
    · rw [Function.update_of_ne hv, ← ho.lock]
      by_cases hj : j = i
      · subst hj
        rw [Function.update_self]
        exact hothers v hv
      · rw [Function.update_of_ne hj]
  · rw [huse] at hx
    rw [hbuf]
    by_cases hv : v = u
    · subst hv
      rw [Function.update_self] at hx
      have hxi : x.i = i := hnew x.i (by rw [Uses, hx, Option.map_some])
      rw [hxi, Function.update_self]
      exact hown x hx
    · rw [Function.update_of_ne hv] at hx
      by_cases hxi : x.i = i
      · rw [hxi, Function.update_self]
        rcases hblock with hblock | hzero
        · rw [hblock, ← hxi]
          exact ho.block v x hx
        · rw [ho.refcnt] at hzero
          exact absurd (by rw [Uses, hx, Option.map_some, hxi])
            (Counting.not_of_card_filter_eq_zero hzero v)
      · rw [Function.update_of_ne hxi]
        exact ho.block v x hx

theorem Owned.advance (ho : Owned s) {u : ι} {x : Use} {b : Buf ι} {phase : Phase}
    (hu : s.use u = some x) (hbuf : t.buf = Function.update s.buf x.i b)
    (huse : t.use = Function.update s.use u (some { x with phase := phase }))
    (hx : x.phase.Locks) (hphase : phase.Locks)
    (href : b.refcnt = (s.buf x.i).refcnt) (hlock : b.lock = (s.buf x.i).lock)
    (hblock : b.block = (s.buf x.i).block) : Owned t := by
  apply ho.update hbuf huse
  · intro j hj
    rw [hu, uses_some] at hj
    exact hj.symm
  · intro j hj
    exact (uses_some.mp hj).symm
  · rw [hu, href]
    rfl
  · rw [hlock, ho.lock, hu, hasLock_some, hasLock_some]
    exact iff_of_true ⟨rfl, hx⟩ ⟨rfl, hphase⟩
  · intro v _
    rw [hlock]
  · exact .inl hblock
  · intro y hy
    cases hy
    exact hblock.trans (ho.block u x hu)

theorem Owned.step (ho : Owned s) (h : Change s t) : Owned t := by
  cases h with
  | @hit u dev blockno i hu hblock hfirst =>
      apply ho.update rfl rfl
      · intro j hj
        rw [hu] at hj
        exact absurd hj not_uses_none
      · exact fun j hj => (uses_some.mp hj).symm
      · rw [hu, if_neg not_uses_none]
        have hself : Uses i (some (⟨dev, blockno, i, .waiting⟩ : Use)) := uses_some.mpr rfl
        exact congrArg ((s.buf i).refcnt + ·) (if_pos hself).symm
      · change (s.buf i).lock = some u ↔ _
        rw [ho.lock, hu, hasLock_some]
        exact iff_of_false not_hasLock_none fun h => h.2
      · exact fun _ _ => Iff.rfl
      · exact .inl rfl
      · intro y hy
        cases hy
        exact hblock
  | @recycle u dev blockno i hu hmiss href hclean =>
      apply ho.update rfl rfl
      · intro j hj
        rw [hu] at hj
        exact absurd hj not_uses_none
      · exact fun j hj => (uses_some.mp hj).symm
      · rw [hu, if_neg not_uses_none, href]
        have hself : Uses i (some (⟨dev, blockno, i, .waiting⟩ : Use)) := uses_some.mpr rfl
        change 1 + 0 = 0 + if Uses i (some (⟨dev, blockno, i, .waiting⟩ : Use)) then 1 else 0
        rw [if_pos hself]
      · change (s.buf i).lock = some u ↔ _
        rw [ho.lock, hu, hasLock_some]
        exact iff_of_false not_hasLock_none fun h => h.2
      · exact fun _ _ => Iff.rfl
      · exact .inr href
      · intro y hy
        cases hy
        rfl
  | @acquire u x hu hx hlock =>
      apply ho.update rfl rfl
      · intro j hj
        rw [hu, uses_some] at hj
        exact hj.symm
      · exact fun j hj => (uses_some.mp hj).symm
      · rw [hu]
        rfl
      · exact iff_of_true rfl (hasLock_some.mpr ⟨rfl, trivial⟩)
      · intro v hv
        rw [hlock]
        exact iff_of_false (fun h => hv (Option.some_inj.mp h).symm) (Option.some_ne_none v).symm
      · exact .inl rfl
      · intro y hy
        cases hy
        exact ho.block u x hu
  | found hu hx hvalid =>
      exact ho.advance hu (Function.update_eq_self _ _).symm rfl
        (by rw [hx]; trivial) trivial rfl rfl
        rfl
  | read hu hx _ => exact ho.advance hu rfl rfl (by rw [hx]; trivial) trivial rfl rfl rfl
  | modify hu hx _ => exact ho.advance hu rfl rfl (by rw [hx]; trivial) trivial rfl rfl rfl
  | logWrite hu hx => exact ho.advance hu rfl rfl (by rw [hx]; trivial) trivial rfl rfl rfl
  | bwrite hu hx hb =>
      subst hb
      exact ho.advance hu rfl rfl (by rw [hx]; trivial) trivial rfl rfl rfl
  | @release u x hu hx =>
      have hheld := (ho.lock x.i u).mpr (by rw [hu, hasLock_some, hx]; exact ⟨rfl, trivial⟩)
      apply ho.update rfl rfl
      · intro j hj
        rw [hu, uses_some] at hj
        exact hj.symm
      · exact fun j hj => (uses_some.mp hj).symm
      · rw [hu]
        rfl
      · rw [hasLock_some]
        exact iff_of_false (Option.some_ne_none u).symm fun h => h.2
      · intro v hv
        rw [hheld]
        exact iff_of_false (Option.some_ne_none v).symm fun h => hv (Option.some_inj.mp h).symm
      · exact .inl rfl
      · intro y hy
        cases hy
        exact ho.block u x hu
  | @put u x hu hx =>
      have hpos : 0 < (s.buf x.i).refcnt := by
        rw [ho.refcnt]
        exact Counting.card_filter_pos (p := u) (by rw [hu, uses_some])
      apply ho.update rfl rfl
      · intro j hj
        rw [hu, uses_some] at hj
        exact hj.symm
      · exact fun j hj => absurd hj not_uses_none
      · rw [hu, if_pos (uses_some.mpr rfl), if_neg not_uses_none]
        exact Nat.sub_add_cancel hpos
      · change (s.buf x.i).lock = some u ↔ _
        rw [ho.lock, hu, hasLock_some, hx]
        exact iff_of_false (fun h => h.2) not_hasLock_none
      · exact fun _ _ => Iff.rfl
      · exact .inl rfl
      · intro y hy
        cases hy

omit [DecidableEq ι] in
theorem Owned.not_fresh (ho : Owned s) {u : ι} {x : Use} (hu : s.use u = some x) :
    ¬ (s.buf x.i).Fresh := by
  intro hfresh
  have hzero := hfresh.refcnt
  rw [ho.refcnt] at hzero
  exact Counting.not_of_card_filter_eq_zero hzero u (by rw [hu, uses_some])

theorem Listed.step (ho : Owned s) (hl : Listed s) (h : Change s t) : Listed t := by
  cases h with
  | hit hu hblock hfirst => exact First.listed (hfirst.update rfl rfl rfl)
  | @recycle u dev blockno i hu hmiss href hclean =>
      obtain ⟨xs, hrep, hall, hfresh⟩ := hl
      refine ⟨xs, hrep, hall, (hfresh.and hrep.1).imp ?_⟩
      rintro j k ⟨hjk, hne⟩
      change (Function.update s.buf i _ j).block = (Function.update s.buf i _ k).block →
        (Function.update s.buf i _ k).Fresh
      by_cases hj : j = i
      · have hk : k ≠ i := fun hk => hne (hj.trans hk.symm)
        rw [hj, Function.update_self, Function.update_of_ne hk]
        exact fun h => absurd h.symm (hmiss k)
      · rw [Function.update_of_ne hj]
        by_cases hk : k = i
        · rw [hk, Function.update_self]
          exact fun h => absurd h (hmiss j)
        · rwa [Function.update_of_ne hk]
  | found hu =>
      obtain ⟨xs, hrep, hall, hfresh⟩ := hl
      exact ⟨xs, hrep, hall, hfresh⟩
  | @put u x hu hx =>
      have hfirst := (hl.first (ho.not_fresh hu)).update
        (t := s.setBuf x.i { s.buf x.i with refcnt := (s.buf x.i).refcnt - 1 }) rfl rfl rfl
      by_cases hzero : (s.buf x.i).refcnt - 1 = 0
      · exact (hfirst.moveFront (t := s.put u x) (if_pos hzero) rfl).listed
      · obtain ⟨xs, hrep, hall, hfresh⟩ := hfirst.listed
        refine ⟨xs, ?_, hall, hfresh⟩
        rw [State.put, if_neg hzero]
        exact hrep
  | acquire hu | read hu | modify hu | logWrite hu | release hu =>
      exact First.listed ((hl.first (ho.not_fresh hu)).update rfl rfl rfl)
  | bwrite hu hx hb =>
      subst hb
      exact First.listed ((hl.first (ho.not_fresh hu)).update rfl rfl rfl)

end Owned

/-- A user has changed the data of the buffer and not passed them on yet. -/
def Touched (s : State ι) (i : Fin NBUF) : Prop :=
  ∃ u x, s.use u = some x ∧ x.i = i ∧ x.phase = .holding true

structure Coherent (s : State ι) : Prop where
  valid_of_dirty : ∀ i, (s.buf i).dirty = true → (s.buf i).valid = true
  valid_of_holding : ∀ u x touched, s.use u = some x → x.phase = .holding touched →
    (s.buf x.i).valid = true
  cached : ∀ i, (s.buf i).valid = true → ¬ Touched s i → (s.buf i).data = s.stored (s.buf i).block
  clean : ∀ k : ℕ × ℕ, (∀ i, (s.buf i).block = k → (s.buf i).dirty = false) → s.disk k = s.stored k

section Coherent

variable {s t : State ι}

theorem Coherent.update (hc : Coherent s) {u : ι} {i : Fin NBUF} {b : Buf ι} {y : Option Use}
    (hfirst : First s i)
    (hbuf : t.buf = Function.update s.buf i b) (huse : t.use = Function.update s.use u y)
    (hold : ∀ j, Uses j (s.use u) → j = i) (hnew : ∀ j, Uses j y → j = i)
    (hdisk : ∀ k, k ≠ (s.buf i).block → t.disk k = s.disk k)
    (hstored : ∀ k, k ≠ (s.buf i).block → t.stored k = s.stored k)
    (hblock : b.block = (s.buf i).block) (hdirty : b.dirty = true → b.valid = true)
    (hkeep : (s.buf i).valid = true → b.valid = true)
    (hholding : ∀ x touched, y = some x → x.phase = .holding touched → b.valid = true)
    (hcached : b.valid = true → ¬ Touched t i → b.data = t.stored b.block)
    (hclean : b.dirty = false → t.disk b.block = t.stored b.block) : Coherent t := by
  have hblocks : ∀ j, (t.buf j).block = (s.buf j).block := by
    intro j
    rw [hbuf]
    by_cases hj : j = i
    · rw [hj, Function.update_self, hblock]
    · rw [Function.update_of_ne hj]
  refine ⟨fun j hj => ?_, fun v x touched hx hphase => ?_, fun j hvalid htouched => ?_,
    fun k hall => ?_⟩
  · rw [hbuf] at hj ⊢
    by_cases hji : j = i
    · rw [hji, Function.update_self] at hj ⊢
      exact hdirty hj
    · rw [Function.update_of_ne hji] at hj ⊢
      exact hc.valid_of_dirty j hj
  · rw [huse] at hx
    rw [hbuf]
    by_cases hv : v = u
    · rw [hv, Function.update_self] at hx
      rw [hnew x.i (by rw [hx, uses_some]), Function.update_self]
      exact hholding x touched hx hphase
    · rw [Function.update_of_ne hv] at hx
      have hvalid := hc.valid_of_holding v x touched hx hphase
      by_cases hxi : x.i = i
      · rw [hxi, Function.update_self]
        exact hkeep (hxi ▸ hvalid)
      · rwa [Function.update_of_ne hxi]
  · by_cases hji : j = i
    · subst hji
      rw [hbuf, Function.update_self] at hvalid ⊢
      exact hcached hvalid htouched
    · rw [hbuf, Function.update_of_ne hji] at hvalid ⊢
      have hne : (s.buf j).block ≠ (s.buf i).block := fun h =>
        Bool.false_ne_true ((hfirst.others hji h).valid.symm.trans hvalid)
      rw [hstored _ hne]
      apply hc.cached j hvalid
      rintro ⟨v, x, hx, hxj, hphase⟩
      have hv : v ≠ u := by
        rintro rfl
        exact hji (hold j (by rw [hx, uses_some, hxj]))
      exact htouched ⟨v, x, by rw [huse, Function.update_of_ne hv, hx], hxj, hphase⟩
  · by_cases hki : k = (s.buf i).block
    · have hb : b.dirty = false := by
        have hi := hall i (by rw [hblocks, hki])
        rwa [hbuf, Function.update_self] at hi
      rw [hki, ← hblock]
      exact hclean hb
    · rw [hdisk k hki, hstored k hki]
      apply hc.clean k
      intro j hj
      have hji : j ≠ i := by
        rintro rfl
        exact hki hj.symm
      have hall' := hall j (by rw [hblocks, hj])
      rwa [hbuf, Function.update_of_ne hji] at hall'

omit [DecidableEq ι] in
theorem Coherent.clean_self (hc : Coherent s) {i : Fin NBUF} (hfirst : First s i)
    (hi : (s.buf i).dirty = false) : s.disk (s.buf i).block = s.stored (s.buf i).block := by
  apply hc.clean
  intro j hj
  by_cases hji : j = i
  · rwa [hji]
  · exact (hfirst.others hji hj).dirty

theorem Coherent.quiet (hc : Coherent s) {u : ι} {i : Fin NBUF} {b : Buf ι} {y : Option Use}
    (hfirst : First s i)
    (hbuf : t.buf = Function.update s.buf i b) (huse : t.use = Function.update s.use u y)
    (hold : ∀ j, Uses j (s.use u) → j = i) (hnew : ∀ j, Uses j y → j = i)
    (hdisk : t.disk = s.disk) (hstored : t.stored = s.stored)
    (hblock : b.block = (s.buf i).block) (hdirty : b.dirty = (s.buf i).dirty)
    (hvalid : b.valid = (s.buf i).valid) (hdata : b.data = (s.buf i).data)
    (hfree : ∀ x, s.use u = some x → x.phase ≠ .holding true)
    (hholding : ∀ x touched, y = some x → x.phase = .holding touched → b.valid = true) :
    Coherent t := by
  apply hc.update hfirst hbuf huse hold hnew
  · exact fun k _ => congrFun hdisk k
  · exact fun k _ => congrFun hstored k
  · exact hblock
  · rw [hdirty, hvalid]
    exact hc.valid_of_dirty i
  · rw [hvalid]
    exact id
  · exact hholding
  · intro hv htouched
    rw [hdata, hblock, hstored]
    apply hc.cached i (hvalid ▸ hv)
    rintro ⟨v, x, hx, hxi, hphase⟩
    have hvu : v ≠ u := by
      rintro rfl
      exact hfree x hx hphase
    exact htouched ⟨v, x, by rw [huse, Function.update_of_ne hvu, hx], hxi, hphase⟩
  · intro hb
    rw [hblock, hdisk, hstored]
    exact hc.clean_self hfirst (hdirty ▸ hb)

theorem Coherent.recycle [Fintype ι] (ho : Owned s) (hc : Coherent s) {u : ι} {dev blockno : ℕ}
    {i : Fin NBUF} (hu : s.use u = none) (href : (s.buf i).refcnt = 0)
    (hclean : (s.buf i).dirty = false) :
    Coherent ((s.setBuf i ((s.buf i).recycle dev blockno)).goto u ⟨dev, blockno, i, .waiting⟩
      .waiting) := by
  have hnew : ∀ v x, Function.update s.use u (some (⟨dev, blockno, i, .waiting⟩ : Use)) v = some x →
      (∀ touched, x.phase ≠ .holding touched) ∨ s.use v = some x ∧ x.i ≠ i := by
    intro v x hx
    by_cases hv : v = u
    · rw [hv, Function.update_self] at hx
      cases hx
      exact .inl fun _ => Phase.noConfusion
    · rw [Function.update_of_ne hv] at hx
      refine .inr ⟨hx, fun hxi => ?_⟩
      rw [ho.refcnt] at href
      exact Counting.not_of_card_filter_eq_zero href v (by rw [hx, uses_some, hxi])
  refine ⟨fun j hj => ?_, fun v x touched hx hphase => ?_, fun j hvalid htouched => ?_,
    fun k hall => ?_⟩
  · change (Function.update s.buf i _ j).dirty = true at hj
    change (Function.update s.buf i _ j).valid = true
    by_cases hji : j = i
    · rw [hji, Function.update_self] at hj
      cases hj
    · rw [Function.update_of_ne hji] at hj ⊢
      exact hc.valid_of_dirty j hj
  · rcases hnew v x hx with hn | ⟨hx, hxi⟩
    · exact absurd hphase (hn touched)
    · change (Function.update s.buf i _ x.i).valid = true
      rw [Function.update_of_ne hxi]
      exact hc.valid_of_holding v x touched hx hphase
  · change (Function.update s.buf i _ j).valid = true at hvalid
    change (Function.update s.buf i _ j).data = s.stored (Function.update s.buf i _ j).block
    by_cases hji : j = i
    · rw [hji, Function.update_self] at hvalid
      cases hvalid
    · rw [Function.update_of_ne hji] at hvalid ⊢
      apply hc.cached j hvalid
      rintro ⟨v, x, hx, hxj, hphase⟩
      have hvu : v ≠ u := by
        rintro rfl
        rw [hu] at hx
        cases hx
      exact htouched ⟨v, x, (Function.update_of_ne hvu _ _).trans hx, hxj, hphase⟩
  · apply hc.clean k
    intro j hj
    by_cases hji : j = i
    · rwa [hji]
    · have hall' := hall j
      change (Function.update s.buf i _ j).block = k → (Function.update s.buf i _ j).dirty = false
        at hall'
      rw [Function.update_of_ne hji] at hall'
      exact hall' hj

theorem Coherent.step [Fintype ι] (ho : Owned s) (hl : Listed s) (hc : Coherent s)
    (h : Change s t) : Coherent t := by
  have hold : ∀ {u : ι} {x : Use}, s.use u = some x → ∀ j, Uses j (s.use u) → j = x.i := by
    intro u x hu j hj
    rw [hu, uses_some] at hj
    exact hj.symm
  have hfirst : ∀ {u : ι} {x : Use}, s.use u = some x → First s x.i := fun hu =>
    hl.first (ho.not_fresh hu)
  have hnew : ∀ {x : Use} (j : Fin NBUF), Uses j (some x) → j = x.i := fun j hj =>
    (uses_some.mp hj).symm
  cases h with
  | @hit u dev blockno i hu hblock hfirst =>
      refine hc.quiet hfirst rfl rfl ?_ hnew rfl rfl rfl rfl rfl rfl ?_ ?_
      · intro j hj
        rw [hu] at hj
        exact absurd hj not_uses_none
      · intro x hx
        rw [hu] at hx
        cases hx
      · intro x touched hx hphase
        cases hx
        cases hphase
  | recycle hu hmiss href hclean => exact hc.recycle ho hu href hclean
  | @acquire u x hu hx hlock =>
      refine hc.quiet (hfirst hu) rfl rfl (hold hu) hnew rfl rfl rfl rfl rfl rfl ?_ ?_
      · intro y hy
        rw [hu] at hy
        cases hy
        rw [hx]
        exact Phase.noConfusion
      · intro y touched hy hphase
        cases hy
        cases hphase
  | @found u x hu hx hvalid =>
      refine hc.quiet (hfirst hu)
        (Function.update_eq_self x.i s.buf).symm rfl (hold hu) hnew rfl rfl rfl rfl rfl
        rfl ?_ ?_
      · intro y hy
        rw [hu] at hy
        cases hy
        rw [hx]
        exact Phase.noConfusion
      · intro y touched hy hphase
        cases hy
        exact hvalid
  | @read u x hu hx hvalid =>
      have hclean : (s.buf x.i).dirty = false := Bool.eq_false_iff.mpr fun hd =>
        Bool.false_ne_true (hvalid.symm.trans (hc.valid_of_dirty x.i hd))
      refine hc.update (hfirst hu) rfl rfl (hold hu) hnew (fun _ _ => rfl)
        (fun _ _ => rfl) rfl ?_ ?_ ?_ ?_ ?_
      · exact fun _ => rfl
      · exact fun _ => rfl
      · exact fun _ _ _ _ => rfl
      · exact fun _ _ => hc.clean_self (hfirst hu) hclean
      · exact fun _ => hc.clean_self (hfirst hu) hclean
  | @modify u x touched hu hx data =>
      have hvalid := hc.valid_of_holding u x touched hu hx
      refine hc.update (hfirst hu) rfl rfl (hold hu) hnew (fun _ _ => rfl)
        (fun _ _ => rfl) rfl ?_ ?_ ?_ ?_ ?_
      · exact fun _ => hvalid
      · exact id
      · exact fun _ _ _ _ => hvalid
      · intro _ htouched
        exact absurd ⟨u, _, Function.update_self _ _ _, rfl, rfl⟩ htouched
      · exact hc.clean_self (hfirst hu)
  | @logWrite u x touched hu hx =>
      have hvalid := hc.valid_of_holding u x touched hu hx
      have hstored : ((s.setBuf x.i { s.buf x.i with dirty := true }).store x.i).stored =
          Function.update s.stored (s.buf x.i).block (s.buf x.i).data := by
        rw [State.store, State.setBuf_self]
        rfl
      refine hc.update (hfirst hu) rfl rfl (hold hu) hnew (fun _ _ => rfl)
        (fun k hk => ?_) rfl ?_ ?_ ?_ ?_ ?_
      · exact (congrFun hstored k).trans (Function.update_of_ne hk _ _)
      · exact fun _ => hvalid
      · exact id
      · exact fun _ _ _ _ => hvalid
      · exact fun _ _ => ((congrFun hstored _).trans (Function.update_self _ _ _)).symm
      · exact fun hb => absurd hb.symm Bool.false_ne_true
  | @bwrite u x touched b hu hx hb =>
      subst hb
      refine hc.update (hfirst hu) rfl rfl (hold hu) hnew (fun k hk => Function.update_of_ne hk _ _)
        (fun k hk => Function.update_of_ne hk _ _) rfl ?_ ?_ ?_ ?_ ?_
      · exact fun _ => rfl
      · exact fun _ => rfl
      · exact fun _ _ _ _ => rfl
      · exact fun _ _ => (Function.update_self (s.buf x.i).block _ s.stored).symm
      · intro _
        change Function.update s.disk (s.buf x.i).block (s.buf x.i).data (s.buf x.i).block =
          Function.update s.stored (s.buf x.i).block (s.buf x.i).data (s.buf x.i).block
        rw [Function.update_self, Function.update_self]
  | @release u x hu hx =>
      refine hc.quiet (hfirst hu) rfl rfl (hold hu) hnew rfl rfl rfl rfl rfl rfl ?_ ?_
      · intro y hy
        rw [hu] at hy
        cases hy
        rw [hx]
        decide
      · intro y touched hy hphase
        cases hy
        cases hphase
  | @put u x hu hx =>
      refine hc.quiet (hfirst hu) rfl rfl (hold hu)
        (fun j hj => absurd hj not_uses_none) rfl rfl rfl rfl rfl rfl
        ?_ ?_
      · intro y hy
        rw [hu] at hy
        cases hy
        rw [hx]
        exact Phase.noConfusion
      · intro y touched hy hphase
        cases hy

structure Inv [Fintype ι] (s : State ι) : Prop where
  listed : Listed s
  owned : Owned s
  coherent : Coherent s

variable [Fintype ι]

theorem Inv.change (hi : Inv s) {a : Action ι} (h : step s a = some t) : Change s t := by
  cases a with
  | bget u dev blockno =>
      obtain ⟨hu, h⟩ := Option.ite_none_left_eq_some.mp h
      exact hi.listed.change_bget (Option.not_isSome_iff_eq_none.mp hu) h
  | run u op =>
      obtain ⟨x, hu, h⟩ := Option.bind_eq_some_iff.mp h
      exact change_run hi.coherent.valid_of_dirty hu h

omit [DecidableEq ι] in
theorem inv_binit (disk : ℕ × ℕ → DiskBlock) (data : Fin NBUF → DiskBlock) :
    Inv (binit disk data : State ι) := by
  refine ⟨listed_binit disk data, ⟨fun i => ?_, fun i u => ?_, fun u x hx => ?_⟩,
    ⟨fun i hi => ?_, fun u x _ hx => ?_, fun i hi => ?_, fun _ _ => rfl⟩⟩
  · exact (Finset.card_eq_zero.mpr (Finset.filter_eq_empty_iff.mpr fun _ _ => not_uses_none)).symm
  · exact iff_of_false (Option.some_ne_none u).symm not_hasLock_none
  · cases hx
  · cases hi
  · cases hx
  · cases hi

theorem Reachable.inv (h : Reachable s) : Inv s := by
  apply h.invariant
  · rintro s ⟨disk, data, rfl⟩
    exact inv_binit disk data
  · rintro s t _ hi ⟨a, ha⟩
    have hc := hi.change ha
    exact ⟨hi.listed.step hi.owned hc, hi.owned.step hc, hi.coherent.step hi.owned hi.listed hc⟩

omit [DecidableEq ι] in
theorem Inv.unique (hi : Inv s) {i j : Fin NBUF} (hdev : (s.buf i).dev = 1)
    (h : (s.buf i).block = (s.buf j).block) : i = j := by
  have hfirst := hi.listed.first fun hfresh => Nat.one_ne_zero (hdev.symm.trans hfresh.dev)
  by_contra hij
  have hj : (s.buf j).dev = 0 := (hfirst.others (Ne.symm hij) h.symm).dev
  have hij : (s.buf i).dev = (s.buf j).dev := congrArg Prod.fst h
  rw [hdev, hj] at hij
  exact Nat.one_ne_zero hij

omit [Fintype ι] in
theorem Change.keeps_block (h : Change s t) {i : Fin NBUF}
    (hi : 0 < (s.buf i).refcnt ∨ (s.buf i).dirty = true) : (t.buf i).block = (s.buf i).block := by
  have hupdate : ∀ (j : Fin NBUF) (b : Buf ι), b.block = (s.buf j).block →
      (Function.update s.buf j b i).block = (s.buf i).block := by
    intro j b hb
    by_cases hij : i = j
    · rw [hij, Function.update_self, hb]
    · rw [Function.update_of_ne hij]
  cases h with
  | @recycle u dev blockno j hu hmiss href hclean =>
      have hij : i ≠ j := by
        rintro rfl
        rcases hi with hi | hi
        · exact hi.ne' href
        · exact Bool.false_ne_true (hclean.symm.trans hi)
      exact congrArg Buf.block (Function.update_of_ne hij _ _)
  | found hu => rfl
  | bwrite hu hx hb =>
      subst hb
      exact hupdate _ _ rfl
  | _ => exact hupdate _ _ rfl

omit [DecidableEq ι] in
theorem Inv.held (hi : Inv s) {u : ι} {x : Use} (hu : s.use u = some x)
    (hx : x.phase = .holding false) : (s.buf x.i).data = s.stored x.block := by
  rw [← hi.owned.block u x hu]
  apply hi.coherent.cached _ (hi.coherent.valid_of_holding u x false hu hx)
  rintro ⟨v, y, hv, hyi, hy⟩
  have hlocku := (hi.owned.lock x.i u).mpr ⟨x, hu, rfl, by rw [hx]; trivial⟩
  have hlockv := (hi.owned.lock x.i v).mpr ⟨y, hv, hyi, by rw [hy]; trivial⟩
  have huv : u = v := Option.some_inj.mp (hlocku.symm.trans hlockv)
  rw [← huv, hu] at hv
  cases hv
  rw [hx] at hy
  cases hy

theorem Inv.bread (hi : Inv s) {u : ι} {x : Use} (hu : s.use u = some x)
    (h : step s (.run u .read) = some t) :
    t.use u = some { x with phase := .holding false } ∧ t.stored = s.stored := by
  have h : s.run u x .read = some t := by
    obtain ⟨y, hy, h⟩ := Option.bind_eq_some_iff.mp h
    rw [hu] at hy
    cases hy
    exact h
  have hx : x.phase = .locked := by
    cases hx : x.phase with
    | locked => rfl
    | _ =>
        rw [State.run.eq_def, hx] at h
        cases h
  rw [State.run.eq_def, hx] at h
  by_cases hvalid : (s.buf x.i).valid = true
  · simp only [hvalid, if_true] at h
    cases h
    exact ⟨Function.update_self _ _ _, rfl⟩
  · have hclean : (s.buf x.i).dirty = false :=
      Bool.eq_false_iff.mpr fun hd => hvalid (hi.coherent.valid_of_dirty x.i hd)
    simp only [hvalid] at h
    obtain ⟨t, ht, rfl⟩ := Option.map_eq_some_iff.mp h
    rw [iderw_of_clean hclean ht]
    exact ⟨Function.update_self _ _ _, rfl⟩

theorem cache_coherent (h : Reachable s) :
    (∃ xs, s.ring.Represents xs ∧ ∀ i, i ∈ xs) ∧
      (∀ i j, (s.buf i).dev = 1 → (s.buf i).block = (s.buf j).block → i = j) ∧
      (∀ a t i, step s a = some t → 0 < (s.buf i).refcnt ∨ (s.buf i).dirty = true →
        (t.buf i).block = (s.buf i).block) ∧
      ∀ u x t, s.use u = some x → step s (.run u .read) = some t →
        (t.buf x.i).block = x.block ∧ (t.buf x.i).data = s.stored x.block := by
  have hi := h.inv
  obtain ⟨xs, hrep, hall, -⟩ := hi.listed
  refine ⟨⟨xs, hrep, hall⟩, fun i j => hi.unique, fun a t i ha => (hi.change ha).keeps_block,
    fun u x t hu hread => ?_⟩
  have ht : Reachable t := .step h ⟨_, hread⟩
  obtain ⟨huse, hstored⟩ := hi.bread hu hread
  have hblock := ht.inv.owned.block u _ huse
  have hdata := ht.inv.held huse rfl
  rw [hstored] at hdata
  exact ⟨hblock, hdata⟩

/-- `bread` of a block. -/
def readBlock (u : ι) (blockno : ℕ) : List (Action ι) :=
  [.bget u 1 blockno, .run u .acquire, .run u .read]

/-- `brelse` of the buffer. -/
def releaseBlock (u : ι) : List (Action ι) := [.run u .release, .run u .put]

/-- User 0 writes block 60 and reads so many other blocks that the buffer is taken for one of them;
then user 1 reads the block. -/
theorem cache_coherent_reread :
    ∃ (s t : State (Fin 2)) (x : Use), Reachable s ∧ step s (.run 1 .read) = some t ∧
      x.block = (1, 60) ∧ (s.buf x.i).valid = false ∧ (t.buf x.i).data.byteAt 0 = 7 := by
  have hrun : ((TransitionRuns.execute step
      (binit (fun _ _ => 0) fun _ _ => 0 : State (Fin 2))
      (readBlock 0 60 ++ [.run 0 (.modify fun _ => 7), .run 0 .bwrite] ++ releaseBlock 0 ++
        ((List.range NBUF).map fun k => readBlock 0 (100 + k) ++ releaseBlock 0).flatten ++
        [.bget 1 1 60, .run 1 .acquire])).any fun s =>
      (step s (.run 1 .read)).isSome && (s.use 1).any fun x =>
        decide (x.block = (1, 60) ∧ (s.buf x.i).valid = false ∧
          (s.stored x.block).byteAt 0 = 7)) = true := by
    decide +kernel
  obtain ⟨s, hs, hprop⟩ := (Option.any_eq_true _ _).mp hrun
  rw [Bool.and_eq_true, Option.isSome_iff_exists] at hprop
  obtain ⟨⟨t, ht⟩, huse⟩ := hprop
  obtain ⟨x, hx, hprop⟩ := (Option.any_eq_true _ _).mp huse
  obtain ⟨hblock, hvalid, hseven⟩ := of_decide_eq_true hprop
  have hreach : Reachable s := TransitionRuns.Reaches.execute (.start ⟨_, _, rfl⟩) hs
  refine ⟨s, t, x, hreach, ht, hblock, hvalid, ?_⟩
  rw [((cache_coherent hreach).2.2.2 1 x t hx ht).2, hseven]

end Coherent

end BufferCache

end Xv6Fairness
