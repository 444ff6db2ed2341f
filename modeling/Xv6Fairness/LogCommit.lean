import Mathlib.Data.List.Nodup
import Mathlib.Data.List.Basic
import Xv6Fairness.DiskLayout

/-!
# Committing and recovering the log

`commit` copies the logged blocks to the log, writes the header, copies the blocks home and clears
the header; `recover_from_log` does the second half again from the header that it finds on the disk.
Both are lists of steps with one block write each, so that a machine may stop between any two of
them. Block contents are read through the buffer cache, which holds what is on the disk after a
reboot.
-/

namespace Xv6Fairness

open ByteBlocks

namespace LogCommit

/-- The disk, and the blocks as `bread` returns them. -/
structure Machine where
  disk : ℕ → DiskBlock
  cache : ℕ → DiskBlock

def Machine.reboot (disk : ℕ → DiskBlock) : Machine := ⟨disk, disk⟩

/-- `bwrite` of block `b` with new contents. -/
def Machine.bwrite (m : Machine) (b : ℕ) (data : DiskBlock) : Machine :=
  ⟨Function.update m.disk b data, Function.update m.cache b data⟩

def copyBlock (src dst : ℕ) (m : Machine) : Machine := m.bwrite dst (m.cache src)

/-- The number of passes of a loop up to the `int` in the first word. -/
def headCount (hb : DiskBlock) : ℕ :=
  if hb.getWord 4 0 < 2 ^ 31 then hb.getWord 4 0 else 0

def headEntry (hb : DiskBlock) (i : ℕ) : UInt32 := UInt32.ofNat (hb.getWord 4 (4 + 4 * i))

def readHead (hb : DiskBlock) : List UInt32 := (List.range (headCount hb)).map (headEntry hb)

/-- `for (i = 0; i < n; i++) hb->block[i] = block[i]`. -/
def putEntries : List UInt32 → ℕ → DiskBlock → DiskBlock
  | [], _, hb => hb
  | b :: lh, i, hb => putEntries lh (i + 1) (hb.putWord (4 + 4 * i) 4 b.toNat)

/-- The buffer of the header block after `write_head`; entries behind the new ones stay. -/
def putHead (lh : List UInt32) (hb : DiskBlock) : DiskBlock :=
  putEntries lh 0 (hb.putWord 0 4 lh.length)

theorem putEntries_getWord {lh : List UInt32} {i o : ℕ} {hb : DiskBlock} (h : o + 4 ≤ 4 + 4 * i) :
    (putEntries lh i hb).getWord 4 o = hb.getWord 4 o := by
  induction lh generalizing i hb with
  | nil => rfl
  | cons b lh ih =>
      rw [putEntries, ih (by omega), Block.getWord_putWord_of_disjoint (.inl h)]

theorem headEntry_putEntries {lh : List UInt32} {i j : ℕ} {hb : DiskBlock}
    (hcap : i + lh.length ≤ LOGSIZE) (hj : j < lh.length) :
    headEntry (putEntries lh i hb) (i + j) = lh[j] := by
  induction lh generalizing i j hb with
  | nil => exact absurd hj (Nat.not_lt_zero j)
  | cons b lh ih =>
      rw [List.length_cons] at hcap hj
      have hsize : 4 + 4 * i + 4 ≤ BSIZE := by
        change i + (lh.length + 1) ≤ 30 at hcap
        change _ ≤ 512
        omega
      cases j with
      | zero =>
          rw [Nat.add_zero, headEntry, putEntries, putEntries_getWord (by omega),
            Block.getWord_putWord_of_lt hsize b.toNat_lt, UInt32.ofNat_toNat]
          rfl
      | succ j =>
          rw [putEntries, ← Nat.add_assoc, Nat.add_right_comm]
          exact ih (by omega) (by omega)

theorem headCount_putHead {lh : List UInt32} (hb : DiskBlock) (hcap : lh.length ≤ LOGSIZE) :
    headCount (putHead lh hb) = lh.length := by
  change _ ≤ 30 at hcap
  have hword : (putHead lh hb).getWord 4 0 = lh.length := by
    rw [putHead, putEntries_getWord (by omega)]
    exact Block.getWord_putWord_of_lt (by decide) (by omega)
  rw [headCount, hword, if_pos (by omega)]

theorem readHead_putHead {lh : List UInt32} (hb : DiskBlock) (hcap : lh.length ≤ LOGSIZE) :
    readHead (putHead lh hb) = lh := by
  rw [readHead, headCount_putHead hb hcap]
  apply List.ext_getElem
  · rw [List.length_map, List.length_range]
  · intro j hj hj'
    rw [List.getElem_map, List.getElem_range]
    have h : headEntry (putEntries lh 0 (hb.putWord 0 4 lh.length)) (0 + j) = lh[j] :=
      headEntry_putEntries (by omega) hj'
    rwa [Nat.zero_add] at h

theorem readHead_eq_nil {hb : DiskBlock} (h : headCount hb = 0) : readHead hb = [] := by
  rw [readHead, h]
  rfl

variable (start : ℕ) (lh : List UInt32)

def writeHead (m : Machine) : Machine := m.bwrite start (putHead lh (m.cache start))

def writeLog : List (Machine → Machine) :=
  lh.mapIdx fun tail b => copyBlock b.toNat (start + tail + 1)

def installTrans : List (Machine → Machine) :=
  lh.mapIdx fun tail b => copyBlock (start + tail + 1) b.toNat

def commit : List (Machine → Machine) :=
  if 0 < lh.length then
    writeLog start lh ++ [writeHead start lh] ++ installTrans start lh ++ [writeHead start []]
  else []

def recoverFromLog (disk : ℕ → DiskBlock) : List (Machine → Machine) :=
  installTrans start (readHead (disk start)) ++ [writeHead start []]

def run (steps : List (Machine → Machine)) (m : Machine) : Machine :=
  steps.foldl (fun m step => step m) m

/-- The disk after a reboot and `k` writes of the recovery, or all of them. -/
def recoverStopped (disk : ℕ → DiskBlock) (k : ℕ) : ℕ → DiskBlock :=
  (run ((recoverFromLog start disk).take k) (.reboot disk)).disk

def recover (disk : ℕ → DiskBlock) : ℕ → DiskBlock :=
  (run (recoverFromLog start disk) (.reboot disk)).disk

/-- The header has reached the disk among the first `k` writes of `commit`: the `n` copies in the
log come before it. -/
def HeadWritten (k : ℕ) : Prop := 0 < lh.length ∧ lh.length < k

instance (k : ℕ) : Decidable (HeadWritten lh k) := inferInstanceAs (Decidable (_ ∧ _))

/-- The blocks of the log, with the header. -/
def InLog (size b : ℕ) : Prop := start ≤ b ∧ b < start + size

instance (size b : ℕ) : Decidable (InLog start size b) := inferInstanceAs (Decidable (_ ∧ _))

theorem run_append (steps steps' : List (Machine → Machine)) (m : Machine) :
    run (steps ++ steps') m = run steps' (run steps m) := List.foldl_append

/-- Copies from the first block of each pair to the second. -/
def copies (l : List (ℕ × ℕ)) : List (Machine → Machine) := l.map fun p => copyBlock p.1 p.2

section Copies

variable {l : List (ℕ × ℕ)} {b : ℕ} (m : Machine)

theorem run_copies_of_ne (h : ∀ p ∈ l, b ≠ p.2) :
    (run (copies l) m).disk b = m.disk b ∧ (run (copies l) m).cache b = m.cache b := by
  induction l generalizing m with
  | nil => exact ⟨rfl, rfl⟩
  | cons p l ih =>
      have hp := h p List.mem_cons_self
      obtain ⟨hdisk, hcache⟩ := ih (copyBlock p.1 p.2 m) fun q hq => h q (List.mem_cons_of_mem p hq)
      exact ⟨hdisk.trans (Function.update_of_ne hp _ _),
        hcache.trans (Function.update_of_ne hp _ _)⟩

/-- Every destination ends with what its source held before, where no source is overwritten and no
destination is written twice. -/
theorem run_copies_of_mem (hnodup : (l.map Prod.snd).Nodup) (hapart : ∀ p ∈ l, ∀ q ∈ l, p.1 ≠ q.2)
    {p : ℕ × ℕ} (hp : p ∈ l) :
    (run (copies l) m).disk p.2 = m.cache p.1 ∧ (run (copies l) m).cache p.2 = m.cache p.1 := by
  induction l generalizing m with
  | nil => exact absurd hp List.not_mem_nil
  | cons q l ih =>
      rw [List.map_cons, List.nodup_cons] at hnodup
      change (run (copies l) (copyBlock q.1 q.2 m)).disk p.2 = m.cache p.1 ∧
        (run (copies l) (copyBlock q.1 q.2 m)).cache p.2 = m.cache p.1
      rcases List.mem_cons.mp hp with rfl | hp
      · have hlast : ∀ q ∈ l, p.2 ≠ q.2 := fun q hq h =>
          hnodup.1 (h ▸ List.mem_map_of_mem hq)
        obtain ⟨hdisk, hcache⟩ := run_copies_of_ne (copyBlock p.1 p.2 m) hlast
        exact ⟨hdisk.trans (Function.update_self _ _ _), hcache.trans (Function.update_self _ _ _)⟩
      · have hsrc : (copyBlock q.1 q.2 m).cache p.1 = m.cache p.1 :=
          Function.update_of_ne (hapart p (List.mem_cons_of_mem q hp) q List.mem_cons_self) _ _
        rw [← hsrc]
        exact ih _ hnodup.2 (fun r hr r' hr' => hapart r (List.mem_cons_of_mem q hr) r'
          (List.mem_cons_of_mem q hr')) hp

end Copies

/-- Home and log block of each entry. -/
def places : List (ℕ × ℕ) := lh.mapIdx fun tail b => (b.toNat, start + tail + 1)

theorem writeLog_eq : writeLog start lh = copies (places start lh) :=
  List.ext_getElem (by simp [writeLog, copies, places]) fun i _ _ => by
    simp [writeLog, copies, places]

theorem installTrans_eq : installTrans start lh = copies ((places start lh).map Prod.swap) :=
  List.ext_getElem (by simp [installTrans, copies, places]) fun i _ _ => by
    simp [installTrans, copies, places]

theorem mem_places {p : ℕ × ℕ} :
    p ∈ places start lh ↔ ∃ (i : ℕ) (h : i < lh.length), (lh[i].toNat, start + i + 1) = p :=
  List.mem_mapIdx

theorem places_length : (places start lh).length = lh.length := List.length_mapIdx

theorem places_fst : (places start lh).map Prod.fst = lh.map UInt32.toNat :=
  List.ext_getElem (by simp [places]) fun i _ _ => by simp [places]

theorem places_snd : (places start lh).map Prod.snd = (List.range lh.length).map (start + · + 1) :=
  List.ext_getElem (by simp [places]) fun i _ _ => by simp [places]

theorem places_snd_nodup : ((places start lh).map Prod.snd).Nodup := by
  rw [places_snd]
  apply List.nodup_range.map
  intro i j hij
  change start + i + 1 = start + j + 1 at hij
  omega

/-- What `log_write` leaves to commit. -/
structure Group (size : ℕ) : Prop where
  nodup : lh.Nodup
  home : ∀ b ∈ lh, ¬ InLog start size b.toNat
  fits : lh.length < size
  cap : lh.length ≤ LOGSIZE

/-- Nothing to install, and the blocks outside the log are as given. -/
structure Clean (size : ℕ) (content disk : ℕ → DiskBlock) : Prop where
  head : headCount (disk start) = 0
  rest : ∀ b, ¬ InLog start size b → disk b = content b

/-- The header names the group and the log holds its new contents; what the home blocks hold does
not matter. -/
structure Committed (size : ℕ) (old new disk : ℕ → DiskBlock) : Prop where
  head : readHead (disk start) = lh
  log : ∀ p ∈ places start lh, disk p.2 = new p.1
  rest : ∀ b, ¬ InLog start size b → b ∉ lh.map UInt32.toNat → disk b = old b

def applied (old new : ℕ → DiskBlock) (b : ℕ) : DiskBlock :=
  if b ∈ lh.map UInt32.toNat then new b else old b

variable {start lh} {size : ℕ} {old new disk : ℕ → DiskBlock} {m : Machine}

theorem Group.inLog (hg : Group start lh size) {p : ℕ × ℕ} (hp : p ∈ places start lh) :
    InLog start size p.2 ∧ start < p.2 := by
  obtain ⟨i, hi, rfl⟩ := (mem_places start lh).mp hp
  have hfits := hg.fits
  change (start ≤ start + i + 1 ∧ start + i + 1 < start + size) ∧ start < start + i + 1
  omega

theorem Group.not_inLog (hg : Group start lh size) {p : ℕ × ℕ} (hp : p ∈ places start lh) :
    ¬ InLog start size p.1 := by
  obtain ⟨i, hi, rfl⟩ := (mem_places start lh).mp hp
  exact hg.home _ (List.getElem_mem hi)

theorem Group.head_inLog (hg : Group start lh size) : InLog start size start :=
  ⟨le_rfl, Nat.lt_add_of_pos_right (Nat.zero_lt_of_lt hg.fits)⟩

theorem writeHead_disk_of_ne {b : ℕ} (h : b ≠ start) (lh : List UInt32) (m : Machine) :
    (writeHead start lh m).disk b = m.disk b :=
  Function.update_of_ne h _ _

theorem writeHead_cache_of_ne {b : ℕ} (h : b ≠ start) (lh : List UInt32) (m : Machine) :
    (writeHead start lh m).cache b = m.cache b :=
  Function.update_of_ne h _ _

theorem writeHead_disk_self (lh : List UInt32) (m : Machine) :
    (writeHead start lh m).disk start = putHead lh (m.cache start) :=
  Function.update_self _ _ _

theorem Clean.clear {content : ℕ → DiskBlock} (hsize : 0 < size)
    (h : ∀ b, ¬ InLog start size b → m.disk b = content b) :
    Clean start size content (writeHead start [] m).disk := by
  constructor
  · rw [writeHead_disk_self]
    exact headCount_putHead _ (Nat.zero_le _)
  · intro b hb
    rw [writeHead_disk_of_ne fun heq => hb ⟨heq.ge, by omega⟩]
    exact h b hb

theorem Committed.install (hg : Group start lh size) (hc : Committed start lh size old new m.disk)
    {j : ℕ} (hj : j ≤ lh.length) :
    Committed start lh size old new
      (run ((installTrans start lh ++ [writeHead start []]).take j) m).disk := by
  have hsteps : (installTrans start lh ++ [writeHead start []]).take j =
      copies (((places start lh).map Prod.swap).take j) := by
    rw [installTrans_eq, List.take_append_of_le_length, copies, copies, List.map_take]
    rw [copies, List.length_map, List.length_map, places_length]
    exact hj
  have hmem : ∀ q ∈ ((places start lh).map Prod.swap).take j,
      ¬ InLog start size q.2 ∧ q.2 ∈ lh.map UInt32.toNat := by
    intro q hq
    obtain ⟨p, hp, rfl⟩ := List.mem_map.mp (List.mem_of_mem_take hq)
    refine ⟨hg.not_inLog hp, ?_⟩
    rw [← places_fst start lh]
    exact List.mem_map_of_mem hp
  have hlog : ∀ b, InLog start size b → _ := fun b hb =>
    (run_copies_of_ne m fun q hq h => (hmem q hq).1 (h ▸ hb : InLog start size q.2)).1
  rw [hsteps]
  constructor
  · rw [hlog start hg.head_inLog]
    exact hc.head
  · intro p hp
    rw [hlog p.2 (hg.inLog hp).1]
    exact hc.log p hp
  · intro b hb hhome
    rw [(run_copies_of_ne m fun q hq h => hhome (by rw [h]; exact (hmem q hq).2)).1]
    exact hc.rest b hb hhome

theorem Committed.installed (hg : Group start lh size)
    (hc : Committed start lh size old new m.disk)
    (hcache : ∀ p ∈ places start lh, m.cache p.2 = new p.1) {j : ℕ} (hj : lh.length < j) :
    Clean start size (applied lh old new)
      (run ((installTrans start lh ++ [writeHead start []]).take j) m).disk := by
  have hlen : (installTrans start lh ++ [writeHead start []]).length ≤ j := by
    rw [List.length_append, installTrans, List.length_mapIdx]
    exact hj
  rw [List.take_of_length_le hlen, run_append, installTrans_eq]
  apply Clean.clear (Nat.zero_lt_of_lt hg.fits)
  intro b hb
  rw [applied]
  split_ifs with hhome
  · rw [← places_fst start lh] at hhome
    obtain ⟨p, hp, rfl⟩ := List.mem_map.mp hhome
    have hnodup : (((places start lh).map Prod.swap).map Prod.snd).Nodup := by
      rw [List.map_map]
      change ((places start lh).map Prod.fst).Nodup
      rw [places_fst]
      exact hg.nodup.map fun _ _ h => UInt32.toNat.inj h
    have hapart : ∀ p ∈ (places start lh).map Prod.swap, ∀ q ∈ (places start lh).map Prod.swap,
        p.1 ≠ q.2 := by
      intro p' hp' q' hq' h
      obtain ⟨p, hp, rfl⟩ := List.mem_map.mp hp'
      obtain ⟨q, hq, rfl⟩ := List.mem_map.mp hq'
      change p.2 = q.1 at h
      exact hg.not_inLog hq (h ▸ (hg.inLog hp).1)
    rw [← hcache p hp]
    exact (run_copies_of_mem m hnodup hapart (List.mem_map_of_mem hp)).1
  · rw [(run_copies_of_ne m ?_).1]
    · exact hc.rest b hb hhome
    · intro q hq h
      obtain ⟨p, hp, rfl⟩ := List.mem_map.mp hq
      apply hhome
      rw [h, ← places_fst start lh]
      exact List.mem_map_of_mem hp

theorem Committed.recoverStopped (hg : Group start lh size)
    (hc : Committed start lh size old new disk) (k : ℕ) :
    Committed start lh size old new (recoverStopped start disk k) ∨
      Clean start size (applied lh old new) (LogCommit.recoverStopped start disk k) := by
  rw [LogCommit.recoverStopped, recoverFromLog, hc.head]
  rcases Nat.lt_or_ge lh.length k with hk | hk
  · exact .inr (hc.installed (m := .reboot disk) hg hc.log hk)
  · exact .inl (hc.install (m := .reboot disk) hg hk)

theorem recover_eq (disk : ℕ → DiskBlock) :
    recover start disk = recoverStopped start disk (recoverFromLog start disk).length := by
  rw [recoverStopped, List.take_length, recover]

theorem Committed.recover (hg : Group start lh size)
    (hc : Committed start lh size old new disk) :
    Clean start size (applied lh old new) (recover start disk) := by
  rw [recover_eq, LogCommit.recoverStopped, recoverFromLog, hc.head]
  apply hc.installed (m := .reboot disk) hg hc.log
  rw [List.length_append, installTrans, List.length_mapIdx]
  exact Nat.lt_succ_self _

theorem Clean.recoverStopped (hsize : 0 < size) (hc : Clean start size old disk) (k : ℕ) :
    Clean start size old (recoverStopped start disk k) := by
  rw [LogCommit.recoverStopped, recoverFromLog, readHead_eq_nil hc.head]
  cases k with
  | zero => exact hc
  | succ k =>
      change Clean start size old (run ((writeHead start [] :: []).take (k + 1)) _).disk
      rw [List.take_succ_cons, List.take_nil]
      exact Clean.clear hsize hc.rest

theorem commit_of_pos (h : 0 < lh.length) :
    commit start lh =
      (writeLog start lh ++ [writeHead start lh]) ++
      (installTrans start lh ++ [writeHead start []]) := by
  rw [commit, if_pos h, List.append_assoc]

theorem clean_of_not_headWritten (hg : Group start lh size) (hempty : headCount (m.disk start) = 0)
    {k : ℕ} (hk : ¬ HeadWritten lh k) :
    Clean start size m.disk (run ((commit start lh).take k) m).disk := by
  by_cases hpos : 0 < lh.length
  · have hle : k ≤ (places start lh).length := by
      rw [places_length]
      exact not_lt.mp fun h => hk ⟨hpos, h⟩
    have hsteps : (commit start lh).take k = copies ((places start lh).take k) := by
      rw [commit_of_pos hpos, writeLog_eq, List.append_assoc, List.take_append_of_le_length, copies,
        copies, List.map_take]
      rw [copies, List.length_map]
      exact hle
    have hlog : ∀ q ∈ (places start lh).take k, InLog start size q.2 ∧ start < q.2 := fun q hq =>
      hg.inLog (List.mem_of_mem_take hq)
    rw [hsteps]
    constructor
    · rw [(run_copies_of_ne m fun q hq => (hlog q hq).2.ne).1]
      exact hempty
    · intro b hb
      exact (run_copies_of_ne m fun q hq h => hb (by rw [h]; exact (hlog q hq).1)).1
  · have hsteps : commit start lh = [] := if_neg hpos
    rw [hsteps, List.take_nil]
    exact ⟨hempty, fun _ _ => rfl⟩

theorem committed_of_writeHead (hg : Group start lh size) (m : Machine) :
    Committed start lh size m.disk m.cache
    (run (writeLog start lh ++ [writeHead start lh]) m).disk ∧
      ∀ p ∈ places start lh,
        (run (writeLog start lh ++ [writeHead start lh]) m).cache p.2 = m.cache p.1 := by
  have hapart : ∀ p ∈ places start lh, ∀ q ∈ places start lh, p.1 ≠ q.2 := fun p hp q hq h =>
    hg.not_inLog hp (by rw [h]; exact (hg.inLog hq).1)
  have hcopied : ∀ p ∈ places start lh, _ := fun p hp =>
    run_copies_of_mem m (places_snd_nodup start lh) hapart hp
  rw [run_append, writeLog_eq]
  change Committed start lh size m.disk m.cache (writeHead start lh _).disk ∧
    ∀ p ∈ places start lh, (writeHead start lh _).cache p.2 = _
  refine ⟨⟨?_, ?_, ?_⟩, ?_⟩
  · rw [writeHead_disk_self]
    exact readHead_putHead _ hg.cap
  · intro p hp
    rw [writeHead_disk_of_ne (hg.inLog hp).2.ne']
    exact (hcopied p hp).1
  · intro b hb _
    rw [writeHead_disk_of_ne fun h => hb (by rw [h]; exact hg.head_inLog)]
    exact (run_copies_of_ne m fun q hq h => hb (by rw [h]; exact (hg.inLog hq).1)).1
  · intro p hp
    rw [writeHead_cache_of_ne (hg.inLog hp).2.ne']
    exact (hcopied p hp).2

theorem committed_of_headWritten (hg : Group start lh size) {k : ℕ} (hk : HeadWritten lh k) :
    Committed start lh size m.disk m.cache (run ((commit start lh).take k) m).disk ∨
      Clean start size (applied lh m.disk m.cache) (run ((commit start lh).take k) m).disk := by
  have hlen : (writeLog start lh ++ [writeHead start lh]).length = lh.length + 1 := by
    rw [List.length_append, writeLog, List.length_mapIdx]
    rfl
  obtain ⟨hc, hcache⟩ := committed_of_writeHead hg m
  rw [commit_of_pos hk.1, List.take_append, List.take_of_length_le (by rw [hlen]; exact hk.2),
    run_append]
  rcases Nat.lt_or_ge lh.length (k - (writeLog start lh ++ [writeHead start lh]).length) with h | h
  · exact .inr (hc.installed hg hcache h)
  · exact .inl (hc.install hg h)

/-- Recoveries that stop as well, and the one that completes at the end. -/
def recoverAfter (start : ℕ) (stops : List ℕ) (disk : ℕ → DiskBlock) : ℕ → DiskBlock :=
  recover start (stops.foldl (recoverStopped start) disk)

theorem Clean.recoverAfter (hsize : 0 < size) (hc : Clean start size old disk) (stops : List ℕ) :
    Clean start size old (recoverAfter start stops disk) := by
  induction stops generalizing disk with
  | nil =>
      rw [LogCommit.recoverAfter, List.foldl_nil, recover_eq]
      exact hc.recoverStopped hsize _
  | cons k stops ih => exact ih (hc.recoverStopped hsize k)

theorem Committed.recoverAfter (hg : Group start lh size)
    (hc : Committed start lh size old new disk) (stops : List ℕ) :
    Clean start size (applied lh old new) (recoverAfter start stops disk) := by
  induction stops generalizing disk with
  | nil => exact hc.recover hg
  | cons k stops ih =>
      rcases hc.recoverStopped hg k with hc | hc
      · exact ih hc
      · exact hc.recoverAfter (Nat.zero_lt_of_lt hg.fits) stops

/-- A stop after any write of `commit` and any stops of the recoveries that follow leave all of the
transaction or nothing of it. -/
theorem crash_atomic (start size : ℕ) (m : Machine) (lh : List UInt32) (k : ℕ) (stops : List ℕ)
    (hempty : headCount (m.disk start) = 0) (hg : Group start lh size) :
    let disk := recoverAfter start stops (run ((commit start lh).take k) m).disk
    headCount (disk start) = 0 ∧ ∀ b, ¬ InLog start size b →
      (b ∈ lh.map UInt32.toNat → HeadWritten lh k → disk b = m.cache b) ∧
      (b ∈ lh.map UInt32.toNat → ¬ HeadWritten lh k → disk b = m.disk b) ∧
      (b ∉ lh.map UInt32.toNat → disk b = m.disk b) := by
  have hsize : 0 < size := Nat.zero_lt_of_lt hg.fits
  by_cases hk : HeadWritten lh k
  · have hc : Clean start size (applied lh m.disk m.cache)
        (recoverAfter start stops (run ((commit start lh).take k) m).disk) := by
      rcases committed_of_headWritten (m := m) hg hk with hc | hc
      · exact hc.recoverAfter hg stops
      · exact hc.recoverAfter hsize stops
    refine ⟨hc.head, fun b hb => ⟨fun hhome _ => ?_, fun _ h => absurd hk h, fun hhome => ?_⟩⟩
    · exact (hc.rest b hb).trans (if_pos hhome)
    · exact (hc.rest b hb).trans (if_neg hhome)
  · have hc := (clean_of_not_headWritten hg hempty hk).recoverAfter hsize stops
    exact ⟨hc.head, fun b hb =>
      ⟨fun _ h => absurd h hk, fun _ _ => hc.rest b hb, fun _ => hc.rest b hb⟩⟩

/-- A stop behind the header and the first installed block, and then in the middle of a recovery. -/
theorem crash_atomic_two_blocks :
    recoverAfter mkfs.logstart [1]
      (run ((commit mkfs.logstart [100, 101]).take 4) ⟨fun _ _ => 0, fun _ _ => 7⟩).disk 101 =
        fun _ => 7 :=
  ((crash_atomic mkfs.logstart mkfs.nlog ⟨fun _ _ => 0, fun _ _ => 7⟩ [100, 101] 4 [1] rfl
    ⟨by decide, fun b hb => by rcases List.mem_pair.mp hb with rfl | rfl <;> decide, by decide,
      by decide⟩).2 101 (by decide)).1 (by decide) (by decide)

end LogCommit

end Xv6Fairness
