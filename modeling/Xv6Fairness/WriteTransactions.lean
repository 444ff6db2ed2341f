import Mathlib.Data.Finset.Card
import Mathlib.Order.Interval.Finset.Nat
import Xv6Fairness.FileBytes

/-!
# The transactions of a write

`filewrite` cuts a write into chunks and writes each in a transaction of its own, so that none logs
more blocks than `begin_op` has reserved for it. Beside each function of the file system stand the
blocks that it hands to `log_write`, also where it panics on the way.
-/

namespace Xv6Fairness

open Outcomes

namespace FileBlocks

variable (L : Layout) (devsw : Devsw)

/-- The block of the bitmap, and the block that `bzero` clears. -/
def ballocLogs (disk : Disk) : List ℕ :=
  match balloc L disk with
  | .error _ => []
  | .ok (b, _) => [L.BBLOCK b, b]

def loadIndirectLogs (disk : Disk) (ip : Dinode) : List ℕ :=
  if ip.addr NDIRECT = 0 then ballocLogs L disk else []

def loadEntryLogs (disk : Disk) (ip : Dinode) (j : ℕ) : List ℕ :=
  let a := ip.addr NDIRECT
  if entry (disk a) j = 0 then
    match balloc L disk with
    | .error _ => []
    | .ok _ => ballocLogs L disk ++ [a]
  else []

def bmapLogs (disk : Disk) (ip : Dinode) (bn : ℕ) : List ℕ :=
  if bn < NDIRECT then
    if ip.addr bn = 0 then ballocLogs L disk else []
  else if bn - NDIRECT < NINDIRECT then
    loadIndirectLogs L disk ip ++
      match loadIndirect L disk ip with
      | .error _ => []
      | .ok (ip, disk) => loadEntryLogs L disk ip (bn - NDIRECT)
  else []

def writeLoopLogs (disk : Disk) (ip : Dinode) (src : ℕ → UInt8) (off n : ℕ) : List ℕ :=
  if n = 0 then []
  else
    bmapLogs L disk ip (off / BSIZE) ++
      match bmap L disk ip (off / BSIZE) with
      | .error _ => []
      | .ok (addr, ip, disk) =>
        let m := min n (BSIZE - off % BSIZE)
        let disk := Function.update disk addr ((disk addr).patch (off % BSIZE) m src)
        addr :: writeLoopLogs disk ip (fun k => src (m + k)) (off + m) (n - m)
termination_by n
decreasing_by
  have hpos : 0 < min n (BSIZE - off % BSIZE) := chunk_pos ‹¬ n = 0›
  omega

def writeiLogs (disk : Disk) (i : ℕ) (ip : Dinode) (src : ℕ → UInt8) (off n : UInt32) : List ℕ :=
  if ip.type = T_DEV then []
  else if off > ip.size ∨ off + n < off then []
  else if (off + n).toNat > MAXFILE * BSIZE then []
  else
    writeLoopLogs L disk ip src off.toNat n.toNat ++
      match writeLoop L disk ip src off.toNat n.toNat with
      | .error _ => []
      | .ok (ip, _) => if 0 < n ∧ off + n > ip.size then [L.IBLOCK i] else []

inductive FileType
  | FD_NONE
  | FD_PIPE
  | FD_INODE
  deriving DecidableEq

structure File (L : Layout) where
  type : FileType
  writable : Bool
  ip : Fin L.ninodes
  off : UInt32

inductive WritePanic
  | inode (e : Panic)
  | filewrite
  | shortWrite  -- "short filewrite"
  deriving DecidableEq

/-- What lies between a `begin_op` and its `end_op`: the bytes from `start` on are written at `off`.
The result is that of `writei`, unless it panics. -/
structure Transaction where
  start : ℕ
  count : ℕ
  off : UInt32
  result : Option ℤ
  logged : List ℕ

/-- The bytes that `writei` reports as written. -/
def Transaction.written (t : Transaction) : ℕ := (t.result.getD 0).toNat

/-- `max` of `filewrite`. -/
def maxChunk : ℕ := ((MAXOPBLOCKS - 1 - 1 - 2) / 2) * 512

/-- `n1` of `filewrite`. -/
def chunk (n i : ℕ) : ℕ := if n - i > maxChunk then maxChunk else n - i

theorem chunk_bounds {n i : ℕ} (h : i < n) :
    0 < chunk n i ∧ chunk n i ≤ 1536 ∧ i + chunk n i ≤ n := by
  have hmax : maxChunk = 1536 := by decide
  rw [chunk, hmax]
  split_ifs <;> omega

variable {L} in
def File.advance (f : File L) (r : ℤ) : File L :=
  if r > 0 then { f with off := f.off + UInt32.ofInt r } else f

/-- The loop of `filewrite`. -/
def writeChunks (s : State) (f : File L) (addr : ℕ → UInt8) (n i : ℕ) :
    List Transaction × Except WritePanic (ℕ × File L × State) :=
  if i < n then
    let n1 := chunk n i
    let src := fun k => addr (i + k)
    let logged := match ilock L s f.ip with
      | .error _ => []
      | .ok ip => writeiLogs L s.disk f.ip ip src f.off (UInt32.ofNat n1)
    match step L devsw s (.writei f.ip src f.off (UInt32.ofNat n1)) with
    | .error e => ([⟨i, n1, f.off, none, logged⟩], .error (.inode e))
    | .ok ((r, _), s) =>
      let t : Transaction := ⟨i, n1, f.off, some r, logged⟩
      let f := f.advance r
      if r < 0 then ([t], .ok (i, f, s))
      else if r ≠ n1 then ([t], .error .shortWrite)
      else
        let (ts, result) := writeChunks s f addr n (i + n1)
        (t :: ts, result)
  else ([], .ok (i, f, s))
termination_by n - i
decreasing_by
  have hpos : 0 < chunk n i := (chunk_bounds ‹i < n›).1
  omega

/-- `pipe` is what `pipewrite` returns. -/
def filewrite (s : State) (f : File L) (addr : ℕ → UInt8) (n pipe : ℤ) :
    List Transaction × Except WritePanic (ℤ × File L × State) :=
  if ¬ f.writable then ([], .ok (-1, f, s))
  else match f.type with
  | .FD_PIPE => ([], .ok (pipe, f, s))
  | .FD_INODE =>
    let (ts, result) := writeChunks L devsw s f addr n.toNat 0
    (ts, result.map fun (i, f, s) => (if i = n then n else -1, f, s))
  | .FD_NONE => ([], .error .filewrite)

section Logged

variable {L devsw} {T : ℕ → Dinode} {disk : Disk} {ip : Dinode} {i bn : ℕ}

theorem BBLOCK_eq {b : ℕ} (hsize : L.size ≤ FSSIZE)
    (hb : b < L.size) : L.BBLOCK b = L.bmapstart := by
  have hlt : b < BPB := by
    change L.size ≤ 1000 at hsize
    change b < 4096
    omega
  rw [Layout.BBLOCK, Nat.div_eq_of_lt hlt, Nat.zero_add]

theorem ballocLogs_of_error {e : Panic} (h : balloc L disk = .error e) :
    ballocLogs L disk = [] := by
  rw [ballocLogs, h]

theorem mem_ballocLogs {r : ℕ × Disk} {x : ℕ} (hsize : L.size ≤ FSSIZE)
    (hlow : ∀ c < L.datastart, L.Used disk c) (h : balloc L disk = .ok r) :
    x ∈ ballocLogs L disk ↔ x = L.bmapstart ∨ x = r.1 := by
  have hb : r.1 < L.size := ((balloc_spec hlow).of_ok h).lt
  rw [ballocLogs, h]
  change x ∈ [L.BBLOCK r.1, r.1] ↔ _
  rw [BBLOCK_eq hsize hb, List.mem_pair]

theorem loadIndirectLogs_of_ok {r : Dinode × Disk} {x : ℕ} (hsize : L.size ≤ FSSIZE)
    (hlow : ∀ c < L.datastart, L.Used disk c) (h : loadIndirect L disk ip = .ok r)
    (hx : x ∈ loadIndirectLogs L disk ip) : x = L.bmapstart ∨ x = r.1.addr NDIRECT := by
  rw [loadIndirectLogs] at hx
  rw [loadIndirect] at h
  split_ifs at hx h with hzero
  · obtain ⟨q, hballoc, hr⟩ := exists_of_bind_ok h
    have hb : q.1 < 2 ^ 32 := ((balloc_spec hlow).of_ok hballoc).lt_word
    cases hr
    rw [Dinode.addr_setAddr le_rfl hb, if_pos rfl]
    exact (mem_ballocLogs hsize hlow hballoc).mp hx
  · cases hx

theorem loadIndirect_kept {r : Dinode × Disk} (h : loadIndirect L disk ip = .ok r)
    (hne : ip.addr NDIRECT ≠ 0) : r = (ip, disk) := by
  rw [loadIndirect, if_neg hne] at h
  cases h
  rfl

theorem loadIndirectLogs_of_error {e : Panic} (h : loadIndirect L disk ip = .error e) :
    loadIndirectLogs L disk ip = [] := by
  rw [loadIndirect] at h
  rw [loadIndirectLogs]
  split_ifs at h ⊢ with hzero
  · cases hballoc : balloc L disk with
    | error e => exact ballocLogs_of_error hballoc
    | ok q =>
        rw [hballoc] at h
        cases h

theorem loadEntryLogs_of_ok {r : ℕ × Dinode × Disk} {j x : ℕ} (hsize : L.size ≤ FSSIZE)
    (hlow : ∀ c < L.datastart, L.Used disk c) (h : loadEntry L disk ip j = .ok r)
    (hx : x ∈ loadEntryLogs L disk ip j) :
    x = L.bmapstart ∨ x = r.1 ∨ x = ip.addr NDIRECT := by
  rw [loadEntryLogs] at hx
  rw [loadEntry] at h
  dsimp only at h hx
  split_ifs at hx h with hzero
  · obtain ⟨q, hballoc, hr⟩ := exists_of_bind_ok h
    rw [hballoc] at hx
    cases hr
    rcases List.mem_append.mp hx with hx | hx
    · rcases (mem_ballocLogs hsize hlow hballoc).mp hx with hx | hx
      · exact .inl hx
      · exact .inr (.inl hx)
    · exact .inr (.inr (List.mem_singleton.mp hx))
  · cases hx

theorem loadEntry_inode {r : ℕ × Dinode × Disk} {j : ℕ} (h : loadEntry L disk ip j = .ok r) :
    r.2.1 = ip := by
  rw [loadEntry] at h
  dsimp only at h
  split_ifs at h with hzero
  · obtain ⟨q, -, hr⟩ := exists_of_bind_ok h
    cases hr
    rfl
  · cases h
    rfl

theorem loadEntryLogs_of_error {e : Panic} {j : ℕ} (h : loadEntry L disk ip j = .error e) :
    loadEntryLogs L disk ip j = [] := by
  rw [loadEntry] at h
  rw [loadEntryLogs]
  dsimp only at h ⊢
  split_ifs at h ⊢ with hzero
  · cases hballoc : balloc L disk with
    | error e => rfl
    | ok q =>
        rw [hballoc] at h
        cases h

theorem bmapLogs_of_ok {r : ℕ × Dinode × Disk} (hsize : L.size ≤ FSSIZE) (ho : Owned L T disk)
    (hi : Allocated L T i) (h : bmap L disk (T i) bn = .ok r) :
    ((T i).addr NDIRECT ≠ 0 → r.2.1.addr NDIRECT = (T i).addr NDIRECT) ∧
      ∀ x ∈ bmapLogs L disk (T i) bn, x = L.bmapstart ∨ x = r.1 ∨
        r.2.1.addr NDIRECT ≠ 0 ∧ x = r.2.1.addr NDIRECT := by
  rw [bmap] at h
  rw [bmapLogs]
  by_cases hdirect : bn < NDIRECT
  · rw [if_pos hdirect] at h ⊢
    by_cases hzero : (T i).addr bn = 0
    · rw [if_pos hzero] at h ⊢
      obtain ⟨q, hballoc, hr⟩ := exists_of_bind_ok h
      have hb : q.1 < 2 ^ 32 := ((balloc_spec ho.low).of_ok hballoc).lt_word
      cases hr
      refine ⟨fun _ => ?_, fun x hx => ?_⟩
      · rw [Dinode.addr_setAddr hdirect.le hb, if_neg hdirect.ne']
      · rcases (mem_ballocLogs hsize ho.low hballoc).mp hx with hx | hx
        · exact .inl hx
        · exact .inr (.inl hx)
    · rw [if_neg hzero] at h ⊢
      cases h
      exact ⟨fun _ => rfl, fun x hx => by cases hx⟩
  · rw [if_neg hdirect] at h ⊢
    by_cases hbn : bn - NDIRECT < NINDIRECT
    · rw [if_pos hbn] at h ⊢
      obtain ⟨⟨ip, d⟩, hload, hentry⟩ := exists_of_bind_ok h
      obtain ⟨hgrown, hne, -⟩ := (loadIndirect_spec ho hi).of_ok hload
      have hlow : ∀ c < L.datastart, L.Used d c := hgrown.owned.low
      have hip : r.2.1 = ip := loadEntry_inode hentry
      rw [hload, hip]
      refine ⟨fun hold => ?_, fun x hx => ?_⟩
      · cases loadIndirect_kept hload hold
        rfl
      · rcases List.mem_append.mp hx with hx | hx
        · rcases loadIndirectLogs_of_ok hsize ho.low hload hx with hx | hx
          · exact .inl hx
          · exact .inr (.inr ⟨hne, hx⟩)
        · rcases loadEntryLogs_of_ok hsize hlow hentry hx with hx | hx | hx
          · exact .inl hx
          · exact .inr (.inl hx)
          · exact .inr (.inr ⟨hne, hx⟩)
    · rw [if_neg hbn] at h
      cases h

theorem bmapLogs_of_error {e : Panic} (hsize : L.size ≤ FSSIZE) (ho : Owned L T disk)
    (h : bmap L disk (T i) bn = .error e) :
    ∃ ind, ((T i).addr NDIRECT ≠ 0 → ind = (T i).addr NDIRECT) ∧
      ∀ x ∈ bmapLogs L disk (T i) bn, x = L.bmapstart ∨ x = ind := by
  rw [bmap] at h
  rw [bmapLogs]
  by_cases hdirect : bn < NDIRECT
  · rw [if_pos hdirect] at h ⊢
    refine ⟨(T i).addr NDIRECT, fun _ => rfl, fun x hx => ?_⟩
    by_cases hzero : (T i).addr bn = 0
    · rw [if_pos hzero] at h hx
      cases hballoc : balloc L disk with
      | error e =>
          rw [ballocLogs_of_error hballoc] at hx
          cases hx
      | ok q =>
          rw [hballoc] at h
          cases h
    · rw [if_neg hzero] at hx
      cases hx
  · rw [if_neg hdirect] at h ⊢
    by_cases hbn : bn - NDIRECT < NINDIRECT
    · rw [if_pos hbn] at h ⊢
      cases hload : loadIndirect L disk (T i) with
      | error e =>
          refine ⟨(T i).addr NDIRECT, fun _ => rfl, fun x hx => ?_⟩
          rw [loadIndirectLogs_of_error hload] at hx
          cases hx
      | ok q =>
          obtain ⟨ip, d⟩ := q
          rw [hload, ok_bind] at h
          refine ⟨ip.addr NDIRECT, fun hne => ?_, fun x hx => ?_⟩
          · cases loadIndirect_kept hload hne
            rfl
          · rcases List.mem_append.mp hx with hx | hx
            · exact loadIndirectLogs_of_ok hsize ho.low hload hx
            · dsimp only at h hx
              rw [loadEntryLogs_of_error h] at hx
              cases hx
    · rw [if_neg hbn]
      exact ⟨(T i).addr NDIRECT, fun _ => rfl, fun x hx => by cases hx⟩

/-- Of the blocks that a write logs, one belongs to the bitmap, one is the indirect block, and the
others are those of the bytes. -/
theorem writeLoopLogs_spec (hsize : L.size ≤ FSSIZE) (n : ℕ) :
    ∀ {T : ℕ → Dinode} {disk : Disk} (src : ℕ → UInt8) (off : ℕ),
      Owned L T disk → Allocated L T i → off + n ≤ MAXFILE * BSIZE →
        ∃ (ind : ℕ) (block : ℕ → ℕ), ((T i).addr NDIRECT ≠ 0 → ind = (T i).addr NDIRECT) ∧
          ∀ x ∈ writeLoopLogs L disk (T i) src off n, x = L.bmapstart ∨ x = ind ∨
            ∃ bn, off / BSIZE ≤ bn ∧ bn * BSIZE < off + n ∧ x = block bn := by
  induction n using Nat.strong_induction_on with
  | _ n ih =>
      intro T disk src off ho hi hmax
      rw [writeLoopLogs]
      by_cases hn : n = 0
      · rw [if_pos hn]
        exact ⟨(T i).addr NDIRECT, fun _ => 0, fun _ => rfl, fun x hx => by cases hx⟩
      rw [if_neg hn]
      have hbn : off / BSIZE < MAXFILE := (Nat.div_lt_iff_lt_mul (by decide)).mpr (by omega)
      have hfirst : off / BSIZE * BSIZE < off + n :=
        (Nat.div_mul_le_self _ _).trans_lt (Nat.lt_add_of_pos_right (Nat.pos_of_ne_zero hn))
      cases hbmap : bmap L disk (T i) (off / BSIZE) with
      | error e =>
          obtain ⟨ind, hind, hlogs⟩ := bmapLogs_of_error hsize ho hbmap
          refine ⟨ind, fun _ => 0, hind, fun x hx => ?_⟩
          rw [List.append_nil] at hx
          rcases hlogs x hx with hx | hx
          · exact .inl hx
          · exact .inr (.inl hx)
      | ok r =>
          obtain ⟨a, ip, disk'⟩ := r
          have hmapped : Mapped L T disk i (off / BSIZE) (a, ip, disk') :=
            (bmap_spec ho hi hbn).of_ok hbmap
          obtain ⟨hkept, hlogs⟩ := bmapLogs_of_ok hsize ho hi hbmap
          have hpos : 0 < min n (BSIZE - off % BSIZE) := chunk_pos hn
          have hfit : off % BSIZE + min n (BSIZE - off % BSIZE) ≤ BSIZE := by
            have hmod : off % BSIZE < BSIZE := Nat.mod_lt _ (by decide)
            omega
          have hend : min n (BSIZE - off % BSIZE) < n →
              off % BSIZE + min n (BSIZE - off % BSIZE) = BSIZE := by
            have hmod : off % BSIZE < BSIZE := Nat.mod_lt _ (by decide)
            omega
          have hle : min n (BSIZE - off % BSIZE) ≤ n := min_le_left _ _
          dsimp only
          generalize min n (BSIZE - off % BSIZE) = m at hpos hfit hend hle ⊢
          have hchunk := hmapped.write src hpos hfit
          obtain ⟨ind, block, hind, hrest⟩ := ih (n - m) (by omega) (fun k => src (m + k)) (off + m)
            hchunk.owned ((allocated_update hmapped.grown.type_eq).mpr hi) (by omega)
          rw [Function.update_self] at hind hrest
          refine ⟨ind, Function.update block (off / BSIZE) a, fun hne => ?_, fun x hx => ?_⟩
          · have hsame : ip.addr NDIRECT = (T i).addr NDIRECT := hkept hne
            rw [hind (by rwa [hsame]), hsame]
          · have hhere : x = a → ∃ bn, off / BSIZE ≤ bn ∧ bn * BSIZE < off + n ∧
                x = Function.update block (off / BSIZE) a bn := fun hxa =>
              ⟨off / BSIZE, le_rfl, hfirst, by rw [Function.update_self, hxa]⟩
            rcases List.mem_append.mp hx with hx | hx
            · rcases hlogs x hx with hx | hx | ⟨hne, hx⟩
              · exact .inl hx
              · exact .inr (.inr (hhere hx))
              · exact .inr (.inl (hx.trans (hind hne).symm))
            rcases List.mem_cons.mp hx with hx | hx
            · exact .inr (.inr (hhere hx))
            by_cases hmn : m = n
            · rw [hmn, Nat.sub_self, writeLoopLogs, if_pos rfl] at hx
              cases hx
            rcases hrest x hx with hx | hx | ⟨bn', hlo, hhi, hx⟩
            · exact .inl hx
            · exact .inr (.inl hx)
            · have hnext := hend (lt_of_le_of_ne hle hmn)
              change off % 512 + m = 512 at hnext
              change (off + m) / 512 ≤ bn' at hlo
              change bn' * 512 < off + m + (n - m) at hhi
              have hgt : off / 512 < bn' := by omega
              refine .inr (.inr ⟨bn', hgt.le, ?_, ?_⟩)
              · change bn' * 512 < off + n
                omega
              · have hne : bn' ≠ off / BSIZE := hgt.ne'
                rw [Function.update_of_ne hne, hx]

/-- A chunk logs blocks of its bytes, the bitmap, the indirect block and the inode. -/
theorem writeiLogs_card (src : ℕ → UInt8) (off : UInt32) {n : UInt32} (hsize : L.size ≤ FSSIZE)
    (hc : Consistent L disk) (hi : Allocated L (L.dinode disk) i) (hn : n.toNat ≤ maxChunk) :
    (writeiLogs L disk i (L.dinode disk i) src off n).toFinset.card ≤ MAXOPBLOCKS := by
  rw [writeiLogs]
  split_ifs with hdev hwrap hlarge
  · exact Nat.zero_le _
  · exact Nat.zero_le _
  · exact Nat.zero_le _
  have hsum : (off + n).toNat = off.toNat + n.toNat := toNat_add_of_not_lt fun h => hwrap (.inr h)
  have hmax : off.toNat + n.toNat ≤ MAXFILE * BSIZE := by
    rw [← hsum]
    exact not_lt.mp hlarge
  obtain ⟨ind, block, -, hlogs⟩ := writeLoopLogs_spec hsize n.toNat src off.toNat hc.owned hi hmax
  have hsub : (writeLoopLogs L disk (L.dinode disk i) src off.toNat n.toNat ++
      match writeLoop L disk (L.dinode disk i) src off.toNat n.toNat with
      | .error _ => []
      | .ok (ip, _) => if 0 < n ∧ off + n > ip.size then [L.IBLOCK i] else []).toFinset ⊆
      {L.bmapstart, ind, L.IBLOCK i} ∪
        (Finset.Ico (off.toNat / BSIZE) (off.toNat / BSIZE + 4)).image block := by
    intro x hx
    rw [List.mem_toFinset, List.mem_append] at hx
    rw [Finset.mem_union, Finset.mem_insert, Finset.mem_insert, Finset.mem_singleton,
      Finset.mem_image]
    rcases hx with hx | hx
    · rcases hlogs x hx with hx | hx | ⟨bn, hlo, hhi, hx⟩
      · exact .inl (.inl hx)
      · exact .inl (.inr (.inl hx))
      · refine .inr ⟨bn, Finset.mem_Ico.mpr ⟨hlo, ?_⟩, hx.symm⟩
        change n.toNat ≤ 1536 at hn
        change bn * 512 < off.toNat + n.toNat at hhi
        change bn < off.toNat / 512 + 4
        omega
    · refine .inl (.inr (.inr ?_))
      split at hx
      · cases hx
      · split_ifs at hx
        · exact List.mem_singleton.mp hx
        · cases hx
  have hcard := (Finset.card_le_card hsub).trans (Finset.card_union_le _ _)
  have himage := Finset.card_image_le (s := Finset.Ico (off.toNat / BSIZE) (off.toNat / BSIZE + 4))
    (f := block)
  rw [Nat.card_Ico] at himage
  have hthree := Finset.card_le_three (a := L.bmapstart) (b := ind) (c := L.IBLOCK i)
  change _ ≤ 10
  omega

end Logged

section Writes

variable {L devsw} {s : State} {k : Fin L.ninodes} {src : ℕ → UInt8} {off n : UInt32}

/-- What a transaction does. A regular file that is not written in full would grow too large. -/
structure Chunked (L : Layout) (s : State) (k : Fin L.ninodes) (src : ℕ → UInt8) (off n : UInt32)
    (q : Answer × State) : Prop where
  inv : Inv L q.2
  type : (L.dinode q.2.disk k).type = (L.dinode s.disk k).type
  regular : (L.dinode s.disk k).type ≠ T_DEV →
    (q.1.1 = -1 ∧ Refused (L.dinode s.disk k) off n ∧ q.2.disk = s.disk) ∨
      (q.1.1 = n.toNat ∧ ¬ Refused (L.dinode s.disk k) off n ∧
        off.toNat + n.toNat ≤ (L.dinode q.2.disk k).size.toNat ∧
        file L q.2.disk k = overwrite (file L s.disk k) off.toNat ((List.range n.toNat).map src))

theorem chunk_spec (devsw : Devsw) (src : ℕ → UInt8) (off n : UInt32) (h : Inv L s)
    (hi : Allocated L (L.dinode s.disk) k) :
    Ends (· = .outOfBlocks) (step L devsw s (.writei k src off n)) (Chunked L s k src off n) := by
  change Ends _ (ilock L s k >>= _) _
  rw [ilock_of_allocated h hi, ok_bind]
  by_cases htype : (L.dinode s.disk k).type = T_DEV
  · obtain ⟨r, hwrite⟩ : ∃ r, writei L devsw s.disk k (L.dinode s.disk k) src off n =
        .ok (r, L.dinode s.disk k, s.disk) := writei_device src off n htype
    rw [hwrite]
    exact .ok ⟨h.iunlock h.consistent ⟨rfl, hi.2⟩ fun _ _ _ => rfl, rfl,
      fun hne => absurd htype hne⟩
  · apply (writei_spec h.consistent hi htype).bind
    rintro ⟨r, ip, d⟩ (⟨hrefused, heq⟩ | ⟨hnot, hr, hover⟩)
    · cases heq
      exact .ok ⟨h.iunlock h.consistent ⟨rfl, hi.2⟩ fun _ _ _ => rfl, rfl, fun _ => .inl
        ⟨rfl, hrefused, rfl⟩⟩
    · replace hover : Overwritten L s.disk k src off n ip d := hover
      obtain ⟨hoff, -⟩ := not_refused_iff.mp hnot
      refine .ok ⟨h.iunlock hover.consistent ⟨?_, ?_⟩ fun j hj hjk => ?_, hover.type k.isLt,
        fun _ => .inr ⟨hr, hnot, ?_, hover.file_self hi hoff⟩⟩
      · exact (hover.dinode k k.isLt).trans (if_pos rfl)
      · rw [hover.fields]
        exact hi.2
      · exact (hover.dinode j hj).trans (if_neg hjk)
      · have hdinode : L.dinode d k = ip := (hover.dinode k k.isLt).trans (if_pos rfl)
        change _ ≤ (L.dinode d k).size.toNat
        rw [hdinode, hover.size]
        exact le_max_right _ _

theorem overwrite_overwrite {bytes a b : List UInt8} {o : ℕ} (ho : o ≤ bytes.length) :
    overwrite (overwrite bytes o a) (o + a.length) b = overwrite bytes o (a ++ b) := by
  have hfront : (bytes.take o ++ a).length = o + a.length := by
    rw [List.length_append, List.length_take, min_eq_left ho]
  have htake : (overwrite bytes o a).take (o + a.length) = bytes.take o ++ a :=
    List.take_left' hfront
  have hdrop : (overwrite bytes o a).drop (o + a.length + b.length) =
      bytes.drop (o + a.length + b.length) := by
    rw [overwrite, ← List.drop_drop, List.drop_left' hfront, List.drop_drop]
  rw [overwrite, htake, hdrop, overwrite, List.length_append, ← List.append_assoc, Nat.add_assoc]

theorem overwrite_nil (bytes : List UInt8) (o : ℕ) : overwrite bytes o [] = bytes := by
  rw [overwrite, List.append_nil, List.length_nil, Nat.add_zero, List.take_append_drop]

theorem le_length_overwrite {bytes a : List UInt8} {o : ℕ} (ho : o ≤ bytes.length) :
    o + a.length ≤ (overwrite bytes o a).length := by
  rw [overwrite, List.length_append, List.length_append, List.length_take, min_eq_left ho]
  exact Nat.le_add_right _ _

/-- The transactions write one after the other, from byte `i` of `n` on. -/
def Placed (off : UInt32) (n i : ℕ) (ts : List Transaction) : Prop :=
  ∀ j t, ts[j]? = some t →
    t.start = i + ((ts.take j).map Transaction.count).sum ∧ 0 < t.count ∧
      t.start + t.count ≤ n ∧ t.off = off + UInt32.ofNat (t.start - i)

theorem Placed.nil {i m : ℕ} : Placed off m i [] := fun j t ht => by cases ht

theorem Placed.cons {m i : ℕ} {t : Transaction} {ts : List Transaction} (hstart : t.start = i)
    (hoff : t.off = off) (hpos : 0 < t.count) (hend : i + t.count ≤ m)
    (h : Placed (off + UInt32.ofNat t.count) m (i + t.count) ts) : Placed off m i (t :: ts) := by
  intro j u hu
  cases j with
  | zero =>
      cases hu
      refine ⟨hstart, hpos, hstart ▸ hend, ?_⟩
      rw [hoff, hstart, Nat.sub_self]
      exact (UInt32.add_zero off).symm
  | succ j =>
      obtain ⟨hfrom, hcount, hto, hat⟩ := h j u hu
      refine ⟨?_, hcount, hto, ?_⟩
      · rw [List.take_succ_cons, List.map_cons, List.sum_cons, hfrom, Nat.add_assoc]
      · have hsplit : u.start - i = t.count + (u.start - (i + t.count)) := by omega
        rw [hat, hsplit, UInt32.ofNat_add, UInt32.add_assoc]

theorem File.advance_of_neg {f : File L} {r : ℤ} (hr : r < 0) : f.advance r = f :=
  if_neg (not_lt.mpr hr.le)

theorem File.advance_natCast {f : File L} {c : ℕ} (hpos : 0 < c) (hmax : c < 2 ^ 32) :
    f.advance c = { f with off := f.off + UInt32.ofNat c } := by
  have hmod : ((c : ℤ) % 2 ^ 32).toNat = c := by omega
  have hcast : UInt32.ofInt c = UInt32.ofNat c := congrArg UInt32.ofNat hmod
  rw [File.advance, if_pos (Int.natCast_pos.mpr hpos), hcast]

/-- What the loop of `filewrite` does from byte `i` on. -/
structure Chunks (L : Layout) (s : State) (f : File L) (addr : ℕ → UInt8) (n i : ℕ)
    (p : List Transaction × Except WritePanic (ℕ × File L × State)) : Prop where
  fits : ∀ t ∈ p.1, t.logged.toFinset.card ≤ MAXOPBLOCKS
  placed : Placed f.off n i p.1
  ends : Ends (fun e => e = .inode .outOfBlocks ∨
    (L.dinode s.disk f.ip).type = T_DEV ∧ e = .shortWrite) p.2 fun r =>
      Inv L r.2.2 ∧ (L.dinode r.2.2.disk f.ip).type = (L.dinode s.disk f.ip).type ∧
      r.1 = i + (p.1.map Transaction.written).sum ∧ r.1 ≤ n ∧
      (r.1 = n → i + (p.1.map Transaction.count).sum = n) ∧
      ((L.dinode s.disk f.ip).type ≠ T_DEV → f.off.toNat ≤ (L.dinode s.disk f.ip).size.toNat →
        (r.1 = n ∨ MAXFILE * BSIZE < f.off.toNat + (n - i)) ∧
        r.2.1.off.toNat = f.off.toNat + (p.1.map Transaction.written).sum ∧
        file L r.2.2.disk f.ip = overwrite (file L s.disk f.ip) f.off.toNat
          ((List.range (p.1.map Transaction.written).sum).map fun k => addr (i + k)))

theorem Chunks.stop {s s' : State} {f : File L} {addr : ℕ → UInt8} {m i : ℕ} {t : Transaction}
    {r : ℤ} (hfits : t.logged.toFinset.card ≤ MAXOPBLOCKS) (hstart : t.start = i)
    (hoff : t.off = f.off) (hpos : 0 < t.count) (hend : i + t.count ≤ m) (hmax : t.count ≤ 1536)
    (hresult : t.result = some r) (hr : r < 0)
    (hq : Chunked L s f.ip (fun k => addr (i + k)) f.off (UInt32.ofNat t.count) ((r, []), s')) :
    Chunks L s f addr m i ([t], .ok (i, f, s')) := by
  have hwritten : [t].map Transaction.written = [0] := by
    rw [List.map_singleton, Transaction.written, hresult, Option.getD_some,
      Int.toNat_of_nonpos hr.le]
  refine ⟨fun u hu => List.mem_singleton.mp hu ▸ hfits, .cons hstart hoff hpos hend .nil,
    .ok ⟨hq.inv, hq.type, ?_, by omega, fun him => by omega, fun hdev hle => ?_⟩⟩
  · rw [hwritten]
    rfl
  · rw [hwritten]
    rcases hq.regular hdev with ⟨-, hrefused, hdisk⟩ | ⟨hr', -⟩
    · have hlarge := hrefused.resolve_left (not_lt.mpr hle)
      rw [UInt32.toNat_ofNat', Nat.mod_eq_of_lt (by omega)] at hlarge
      refine ⟨.inr (by omega), rfl, ?_⟩
      change file L s'.disk f.ip = _
      rw [hdisk]
      exact (overwrite_nil _ _).symm
    · change r = _ at hr'
      omega

theorem Chunks.cons {s s' : State} {f : File L} {addr : ℕ → UInt8} {m i : ℕ} {t : Transaction}
    {p : List Transaction × Except WritePanic (ℕ × File L × State)}
    (hfits : t.logged.toFinset.card ≤ MAXOPBLOCKS) (hstart : t.start = i)
    (hoff : t.off = f.off) (hpos : 0 < t.count) (hend : i + t.count ≤ m) (hmax : t.count ≤ 1536)
    (hresult : t.result = some (t.count : ℤ))
    (hq : Chunked L s f.ip (fun k => addr (i + k)) f.off (UInt32.ofNat t.count)
      ((t.count, []), s'))
    (hp : Chunks L s' { f with off := f.off + UInt32.ofNat t.count } addr m (i + t.count) p) :
    Chunks L s f addr m i (t :: p.1, p.2) := by
  have hwritten : t.written = t.count := by
    rw [Transaction.written, hresult]
    rfl
  refine ⟨fun u hu => ?_, .cons hstart hoff hpos hend hp.placed, hp.ends.mono ?_ ?_⟩
  · rcases List.mem_cons.mp hu with rfl | hu
    · exact hfits
    · exact hp.fits u hu
  · rintro e (he | ⟨hdev, he⟩)
    · exact .inl he
    · exact .inr ⟨hq.type.symm.trans hdev, he⟩
  · rintro ⟨j, f', s''⟩ ⟨hinv, htype, hj, hjm, hall, hregular⟩
    dsimp only at hinv htype hj hjm hall hregular ⊢
    rw [List.map_cons, List.map_cons, List.sum_cons, List.sum_cons, hwritten]
    refine ⟨hinv, htype.trans hq.type, by omega, hjm, fun hm => ?_, fun hdev hle => ?_⟩
    · rw [← Nat.add_assoc]
      exact hall hm
    · obtain ⟨-, hnot, hsize, hfile⟩ := (hq.regular hdev).resolve_left fun h => by
        have hneg : (t.count : ℤ) = -1 := h.1
        omega
      have hword : (UInt32.ofNat t.count).toNat = t.count := by
        rw [UInt32.toNat_ofNat', Nat.mod_eq_of_lt (by omega)]
      rw [hword] at hsize hfile
      obtain ⟨-, hlimit⟩ := not_refused_iff.mp hnot
      rw [hword] at hlimit
      change _ ≤ 140 * 512 at hlimit
      have hnext : (f.off + UInt32.ofNat t.count).toNat = f.off.toNat + t.count := by
        rw [UInt32.toNat_add, hword, Nat.mod_eq_of_lt (by omega)]
      have hdev' : (L.dinode s'.disk f.ip).type ≠ T_DEV := fun h => hdev (hq.type.symm.trans h)
      have hle' : (f.off + UInt32.ofNat t.count).toNat ≤ (L.dinode s'.disk f.ip).size.toNat := by
        rw [hnext]
        exact hsize
      obtain ⟨hdone, hpos', hrest⟩ := hregular hdev' hle'
      rw [hnext] at hdone hpos' hrest
      refine ⟨?_, by omega, ?_⟩
      · rcases hdone with hdone | hdone
        · exact .inl hdone
        · exact .inr (by omega)
      · have hbytes : ((List.range t.count).map fun k => addr (i + k)).length = t.count := by
          rw [List.length_map, List.length_range]
        have hover := overwrite_overwrite (a := (List.range t.count).map fun k => addr (i + k))
          (b := (List.range (p.1.map Transaction.written).sum).map fun k => addr (i + t.count + k))
          (hle.trans_eq file_length.symm)
        rw [hbytes] at hover
        rw [hrest]
        change overwrite (file L s'.disk f.ip) _ _ = _
        have hfile' : file L s'.disk f.ip = _ := hfile
        rw [hfile', hover, List.range_add, List.map_append, List.map_map]
        congr 2
        apply List.map_congr_left
        intro k _
        change addr (i + t.count + k) = addr (i + (t.count + k))
        rw [Nat.add_assoc]

theorem writeChunks_spec (devsw : Devsw) (addr : ℕ → UInt8) (m : ℕ) (hsize : L.size ≤ FSSIZE)
    (l : ℕ) : ∀ {s : State} {f : File L} {i : ℕ}, m - i = l → i ≤ m → Inv L s →
      Allocated L (L.dinode s.disk) f.ip →
        Chunks L s f addr m i (writeChunks L devsw s f addr m i) := by
  induction l using Nat.strong_induction_on with
  | _ l ih =>
      intro s f i hl him h hi
      rw [writeChunks]
      by_cases hlt : i < m
      · rw [if_pos hlt, ilock_of_allocated h hi]
        obtain ⟨hpos, hmax, hend⟩ := chunk_bounds hlt
        dsimp only
        generalize chunk m i = c at hpos hmax hend ⊢
        have hword : (UInt32.ofNat c).toNat = c := by
          rw [UInt32.toNat_ofNat', Nat.mod_eq_of_lt (by omega)]
        have hfits := writeiLogs_card (fun k => addr (i + k)) f.off hsize h.consistent hi
          (hword.trans_le hmax)
        generalize writeiLogs L s.disk f.ip (L.dinode s.disk f.ip) (fun k => addr (i + k)) f.off
          (UInt32.ofNat c) = logged at hfits ⊢
        have hspec := chunk_spec devsw (fun k => addr (i + k)) f.off (UInt32.ofNat c) h hi
        have hone : ∀ result, ∀ t ∈ [(⟨i, c, f.off, result, logged⟩ : Transaction)],
            t.logged.toFinset.card ≤ MAXOPBLOCKS := by
          intro result t ht
          rw [List.mem_singleton.mp ht]
          exact hfits
        have hplaced : ∀ result, Placed f.off m i [⟨i, c, f.off, result, logged⟩] := fun result =>
          .cons rfl rfl hpos hend .nil
        cases hstep :
          step L devsw s (.writei f.ip (fun k => addr (i + k)) f.off (UInt32.ofNat c)) with
        | error e =>
            have he : e = .outOfBlocks := hspec.of_error hstep
            exact ⟨hone _, hplaced _, .error (.inl (he ▸ rfl))⟩
        | ok q =>
            have hq := hspec.of_ok hstep
            obtain ⟨⟨r, bytes⟩, s'⟩ := q
            replace hq : Chunked L s f.ip (fun k => addr (i + k)) f.off (UInt32.ofNat c)
              ((r, []), s') := ⟨hq.inv, hq.type, hq.regular⟩
            dsimp only
            by_cases hneg : r < 0
            · rw [if_pos hneg, File.advance_of_neg hneg]
              exact .stop hfits rfl rfl hpos hend hmax rfl hneg hq
            rw [if_neg hneg]
            by_cases hshort : r ≠ c
            · rw [if_pos hshort]
              refine ⟨hone _, hplaced _, .error (.inr ⟨?_, rfl⟩)⟩
              by_contra hdev
              rcases hq.regular hdev with ⟨hr, -⟩ | ⟨hr, -⟩
              · exact hneg (hr.trans_lt (by decide))
              · exact hshort (hr.trans (congrArg Nat.cast hword))
            rw [if_neg hshort]
            obtain rfl : r = c := not_not.mp hshort
            rw [File.advance_natCast hpos (by omega)]
            have hi' : Allocated L (L.dinode s'.disk) f.ip := ⟨hi.1, hq.type.trans_ne hi.2⟩
            exact .cons (t := ⟨i, c, f.off, some c, logged⟩) hfits rfl rfl hpos hend hmax rfl hq
              (ih (m - (i + c)) (by omega) (f := { f with off := f.off + UInt32.ofNat c }) rfl hend
                hq.inv hi')
      · rw [if_neg hlt]
        have him' : i = m := by omega
        refine ⟨fun t ht => (List.not_mem_nil ht).elim, .nil, .ok ⟨h, rfl, rfl, him, fun hm => hm,
          fun _ _ => ⟨.inl him', rfl, ?_⟩⟩⟩
        exact (overwrite_nil _ _).symm

/-- On a disk with one block of bitmap, no transaction of a write logs more blocks than are reserved
for it, and the transactions write the bytes one after the other. Unless the disk is full, the call
returns the length exactly when all bytes were written, and a regular file then holds them. -/
theorem write_transactions (devsw : Devsw) {f : File L} {addr : ℕ → UInt8} {m : ℕ} {pipe : ℤ}
    {ts : List Transaction} {result : Except WritePanic (ℤ × File L × State)}
    (hsize : L.size ≤ FSSIZE) (h : Inv L s) (hi : Allocated L (L.dinode s.disk) f.ip)
    (htype : f.type = .FD_INODE) (hwritable : f.writable = true)
    (hoff : f.off.toNat ≤ (L.dinode s.disk f.ip).size.toNat)
    (hcall : filewrite L devsw s f addr m pipe = (ts, result)) :
    (∀ t ∈ ts, t.logged.toFinset.card ≤ MAXOPBLOCKS) ∧ Placed f.off m 0 ts ∧
      Ends (fun e => e = .inode .outOfBlocks ∨
        (L.dinode s.disk f.ip).type = T_DEV ∧ e = .shortWrite) result fun r =>
          Inv L r.2.2 ∧
          r.1 = (if (ts.map Transaction.written).sum = m then (m : ℤ) else -1) ∧
          (r.1 = m → (ts.map Transaction.count).sum = m) ∧
          ((L.dinode s.disk f.ip).type ≠ T_DEV →
            (r.1 = m ↔ file L r.2.2.disk f.ip =
              overwrite (file L s.disk f.ip) f.off.toNat ((List.range m).map addr)) ∧
            r.2.1.off.toNat = f.off.toNat + (ts.map Transaction.written).sum ∧
            file L r.2.2.disk f.ip = overwrite (file L s.disk f.ip) f.off.toNat
              ((List.range (ts.map Transaction.written).sum).map addr)) := by
  have hnot : ¬ ¬ f.writable = true := not_not.mpr hwritable
  rw [filewrite, if_neg hnot, htype] at hcall
  dsimp only at hcall
  rw [Int.toNat_natCast] at hcall
  obtain ⟨hfits, hplaced, hends⟩ :=
    writeChunks_spec devsw addr m hsize (m - 0) rfl (Nat.zero_le m) h hi
  generalize writeChunks L devsw s f addr m 0 = p at hcall hfits hplaced hends
  obtain ⟨ts', result'⟩ := p
  cases hcall
  refine ⟨hfits, hplaced, ?_⟩
  cases hends with
  | error he => exact .error he
  | @ok r _ hr =>
      obtain ⟨j, f', s'⟩ := r
      obtain ⟨hinv, htype', hj, -, hall, hregular⟩ := hr
      dsimp only at hinv htype' hj hall hregular
      rw [Nat.zero_add] at hj hall
      apply Ends.ok
      change Inv L s' ∧ (if (j : ℤ) = m then (m : ℤ) else -1) = _ ∧
        ((if (j : ℤ) = m then (m : ℤ) else -1) = m → _) ∧
        (_ → ((if (j : ℤ) = m then (m : ℤ) else -1) = m ↔ _) ∧ _ ∧ _)
      have hiff : (if (j : ℤ) = m then (m : ℤ) else -1) = m ↔ j = m := by
        by_cases hjm : j = m
        · rw [hjm, if_pos rfl]
          exact iff_of_true rfl rfl
        · have hneg : (-1 : ℤ) ≠ m := by omega
          rw [if_neg fun h => hjm (Nat.cast_inj.mp h)]
          exact iff_of_false hneg hjm
      refine ⟨hinv, ?_, fun hm => hall (hiff.mp hm), fun hdev => ?_⟩
      · rw [← hj]
        simp only [Nat.cast_inj]
      · obtain ⟨hdone, hpos, hfile⟩ := hregular hdev hoff
        simp only [Nat.zero_add] at hfile
        refine ⟨hiff.trans ⟨fun hjm => ?_, fun heq => ?_⟩, hpos, hfile⟩
        · rw [← hj, hjm] at hfile
          exact hfile
        · refine hdone.resolve_right fun hlarge => ?_
          have hi' : Allocated L (L.dinode s'.disk) f.ip := ⟨hi.1, htype'.trans_ne hi.2⟩
          have hmax := (blockCount_le _).mp (hinv.consistent.count_le _ hi')
          have hlength := le_length_overwrite (a := (List.range m).map addr)
            (hoff.trans_eq file_length.symm)
          have hsame : file L s'.disk f.ip = overwrite (file L s.disk f.ip) f.off.toNat
            ((List.range m).map addr) := heq
          rw [← hsame, file_length, List.length_map, List.length_range] at hlength
          omega

/-- An empty file on a new disk. -/
def newFile : File mkfsLayout where
  type := .FD_INODE
  writable := true
  ip := firstInode
  off := 0

theorem write_transactions_new_file :
    ∃ s ts r, filewrite mkfsLayout ⟨fun _ => none, fun _ => none⟩ s newFile
        (fun k => UInt8.ofNat k) (2000 : ℕ) 0 = (ts, .ok r) ∧
      ts.map Transaction.count = [1536, 464] ∧
      ts.map Transaction.logged = [[58, 59, 59, 58, 60, 60, 58, 61, 61, 32], [58, 62, 62, 32]] ∧
      (∀ t ∈ ts, t.logged.toFinset.card ≤ MAXOPBLOCKS) ∧ r.1 = 2000 ∧
      (r.1 = 2000 ↔ file mkfsLayout r.2.2.disk firstInode =
        overwrite (file mkfsLayout s.disk firstInode) 0 ((List.range 2000).map UInt8.ofNat)) := by
  have hmade : ((run mkfsLayout ⟨fun _ => none, fun _ => none⟩ newState
      [.ialloc T_FILE]).toOption.any fun q =>
        ((mkfsLayout.dinode q.2.disk firstInode).type = T_FILE ∧
          (mkfsLayout.dinode q.2.disk firstInode).size = 0) ∧
        ((filewrite mkfsLayout ⟨fun _ => none, fun _ => none⟩ q.2 newFile
            (fun k => UInt8.ofNat k) (2000 : ℕ) 0).1.map Transaction.count = [1536, 464] ∧
          (filewrite mkfsLayout ⟨fun _ => none, fun _ => none⟩ q.2 newFile
            (fun k => UInt8.ofNat k) (2000 : ℕ) 0).1.map Transaction.logged =
              [[58, 59, 59, 58, 60, 60, 58, 61, 61, 32], [58, 62, 62, 32]]) ∧
        (filewrite mkfsLayout ⟨fun _ => none, fun _ => none⟩ q.2 newFile
          (fun k => UInt8.ofNat k) (2000 : ℕ) 0).2.toOption.map Prod.fst = some 2000) = true := by
    decide +kernel
  obtain ⟨q, hq, hfacts⟩ := (Option.any_eq_true _ _).mp hmade
  obtain ⟨⟨htype, hzero⟩, ⟨hcounts, hlogged⟩, hreturns⟩ := of_decide_eq_true hfacts
  obtain ⟨r, hr, hfirst⟩ := Option.map_eq_some_iff.mp hreturns
  have hinv : Inv mkfsLayout q.2 := (run_spec newState_inv _).of_ok (ok_of_toOption hq)
  have hdev : (mkfsLayout.dinode q.2.disk firstInode).type ≠ T_DEV := by
    rw [htype]
    decide
  have hi : Allocated mkfsLayout (mkfsLayout.dinode q.2.disk) firstInode :=
    ⟨firstInode.isLt, by rw [htype]; decide⟩
  have hcall : filewrite mkfsLayout ⟨fun _ => none, fun _ => none⟩ q.2 newFile
      (fun k => UInt8.ofNat k) (2000 : ℕ) 0 =
        ((filewrite mkfsLayout ⟨fun _ => none, fun _ => none⟩ q.2 newFile
          (fun k => UInt8.ofNat k) (2000 : ℕ) 0).1, .ok r) :=
    Prod.ext rfl (ok_of_toOption hr)
  obtain ⟨hfits, -, hends⟩ := write_transactions _ (by decide) hinv hi rfl rfl (Nat.zero_le _) hcall
  obtain ⟨-, -, -, hregular⟩ := hends.of_ok rfl
  exact ⟨q.2, _, r, hcall, hcounts, hlogged, hfits, hfirst, (hregular hdev).1⟩

end Writes

end FileBlocks

end Xv6Fairness
