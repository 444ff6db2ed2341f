import Xv6Fairness.FileBytes
import Xv6Fairness.ImageDirectory

/-!
# Directories as files of entries

A directory is a file of 16-byte entries, an inode number and a name padded to `DIRSIZ` bytes.
`dirlookup` reads entry after entry, `dirlink` fills the first erased entry or adds one at the end,
and `sys_unlink` clears the entry that it has found. Over the calls of `readi` and `writei` the file
stays a finite map from names to inode numbers.
-/

namespace Xv6Fairness

open ByteBlocks ByteStrings Outcomes FileBlocks Mkfs

namespace Directory

inductive Panic
  | notDir             -- "dirlookup not DIR"
  | lookupRead         -- "dirlookup read"
  | linkRead           -- "dirlink read"
  | linkWrite          -- "dirlink"
  | unlinkWrite        -- "unlink: writei"
  | fs (p : FileBlocks.Panic)

/-- A name as the kernel passes it on: an array of `DIRSIZ` bytes or a terminated string. -/
structure Name where
  bytes : Bytes
  readable : Readable DIRSIZ bytes

/-- The `n` bytes that `strncpy` writes. -/
def strncpy : ℕ → Bytes → Option Bytes
  | 0, _ => some []
  | n + 1, c :: t => if c ≠ 0 then (strncpy n t).map (c :: ·) else some (List.replicate (n + 1) 0)
  | _ + 1, [] => none

section Functions

variable (L : Layout) (devsw : Devsw)

def readEntry (failure : Panic) (disk : Disk) (dp : Dinode) (off : ℕ) :
    Except Panic (Bytes × Dinode × Disk) := do
  let ((n, de), dp, disk) ← (readi L devsw disk dp (UInt32.ofNat off) 16).mapError .fs
  if n ≠ 16 then .error failure else .ok (de, dp, disk)

def writeEntry (failure : Panic) (disk : Disk) (d : ℕ) (dp : Dinode) (off : ℕ) (de : Bytes) :
    Except Panic (Dinode × Disk) := do
  let (n, dp, disk) ← (writei L devsw disk d dp (fun k => de.getD k 0)
      (UInt32.ofNat off) 16).mapError .fs
  if n ≠ 16 then .error failure else .ok (dp, disk)

/-- The loop of `dirlookup`: the inode number and the offset of the first entry with the name. -/
def lookupFrom (size : ℕ) (name : Bytes) (disk : Disk) (dp : Dinode) (off : ℕ) :
    Except Panic (Option (ℕ × ℕ) × Dinode × Disk) :=
  if off < size then do
    let (de, dp, disk) ← readEntry L devsw .lookupRead disk dp off
    if direntInum de = 0 then lookupFrom size name disk dp (off + 16)
    else if namecmp name (direntName de) = some 0 then .ok (some (direntInum de, off), dp, disk)
    else lookupFrom size name disk dp (off + 16)
  else .ok (none, dp, disk)
termination_by size - off

def dirlookup (disk : Disk) (dp : Dinode) (name : Name) :
    Except Panic (Option (ℕ × ℕ) × Dinode × Disk) :=
  if dp.type ≠ T_DIR then .error .notDir
  else lookupFrom L devsw dp.size.toNat name.bytes disk dp 0

/-- "Look for an empty dirent": the offset of the first erased entry, or the end of the directory.
-/
def emptyFrom (size : ℕ) (disk : Disk) (dp : Dinode) (off : ℕ) : Except Panic (ℕ × Dinode × Disk) :=
  if off < size then do
    let (de, dp, disk) ← readEntry L devsw .linkRead disk dp off
    if direntInum de = 0 then .ok (off, dp, disk) else emptyFrom size disk dp (off + 16)
  else .ok (off, dp, disk)
termination_by size - off

/-- `de.inum` is an unsigned short. -/
def newEntry (name : Name) (inum : UInt32) : Option Bytes :=
  (strncpy DIRSIZ name.bytes).map fun text =>
    [UInt8.ofNat inum.toNat, UInt8.ofNat (inum.toNat / 256)] ++ text

def dirlink (disk : Disk) (d : ℕ) (dp : Dinode) (name : Name) (inum : UInt32) :
    Except Panic (ℤ × Dinode × Disk) := do
  let (found, dp, disk) ← dirlookup L devsw disk dp name
  if found.isSome then .ok (-1, dp, disk)
  else do
    let (off, dp, disk) ← emptyFrom L devsw dp.size.toNat disk dp 0
    let (dp, disk) ← writeEntry L devsw .linkWrite disk d dp off ((newEntry name inum).getD [])
    .ok (0, dp, disk)

/-- `sys_unlink` between the lookup of the name and the write of the empty entry. -/
def eraseEntry (disk : Disk) (d : ℕ) (dp : Dinode)
    (name : Name) : Except Panic (ℤ × Dinode × Disk) := do
  let (found, dp, disk) ← dirlookup L devsw disk dp name
  match found with
  | none => .ok (-1, dp, disk)
  | some (_, off) => do
    let (dp, disk) ← writeEntry L devsw .unlinkWrite disk d dp off (List.replicate 16 0)
    .ok (0, dp, disk)

/-- The disks that a fresh directory `d` comes through. -/
inductive Reachable (d : ℕ) : Disk → Prop
  | fresh {disk : Disk} (hc : Consistent L disk) (hd : d < L.ninodes)
      (htype : (L.dinode disk d).type = T_DIR) (hsize : (L.dinode disk d).size = 0) :
      Reachable d disk
  | link {disk disk' : Disk} {dp : Dinode} {name : Name} {inum : UInt32} {r : ℤ}
      (h : Reachable d disk)
      (hlink : dirlink L devsw disk d (L.dinode disk d) name inum = .ok (r, dp, disk')) :
      Reachable d disk'
  | erase {disk disk' : Disk} {dp : Dinode} {name : Name} {r : ℤ} (h : Reachable d disk)
      (herase : eraseEntry L devsw disk d (L.dinode disk d) name = .ok (r, dp, disk')) :
      Reachable d disk'

end Functions

/-- What `namecmp` compares of a name. -/
def Name.key (name : Name) : Bytes := cString (name.bytes.take DIRSIZ)

def entryAt (f : Bytes) (k : ℕ) : Bytes := (f.drop (16 * k)).take 16

def inumAt (f : Bytes) (k : ℕ) : ℕ := direntInum (entryAt f k)

def nameAt (f : Bytes) (k : ℕ) : Bytes := direntName (entryAt f k)

def keyAt (f : Bytes) (k : ℕ) : Bytes := cString (nameAt f k)

def entryCount (f : Bytes) : ℕ := f.length / 16

def setEntry (f : Bytes) (j : ℕ) (de : Bytes) : Bytes := FileBlocks.overwrite f (16 * j) de

/-- Entry `k` is in use. -/
def LiveAt (f : Bytes) (k : ℕ) : Prop := k < entryCount f ∧ inumAt f k ≠ 0

/-- The inode number bound to a name. -/
def Binds (f : Bytes) (key : Bytes) (inum : ℕ) : Prop :=
  ∃ k, LiveAt f k ∧ keyAt f k = key ∧ inumAt f k = inum

/-- Whole entries, with different names where they are in use. -/
structure Proper (f : Bytes) : Prop where
  whole : 16 * entryCount f = f.length
  unique : ∀ j k, LiveAt f j → LiveAt f k → keyAt f j = keyAt f k → j = k

section Names

theorem strncpy_spec {n : ℕ} {t : Bytes} (h : Readable n t) :
    ∃ text, strncpy n t = some text ∧ text.length = n ∧ cString text = cString (t.take n) := by
  induction n generalizing t with
  | zero => exact ⟨[], rfl, rfl, rfl⟩
  | succ n ih =>
      obtain ⟨c, t, rfl, ht⟩ := h.cons
      by_cases hc : c = 0
      · refine ⟨List.replicate (n + 1) 0, ?_, List.length_replicate, ?_⟩
        · rw [strncpy, if_neg (not_not.mpr hc)]
        · rw [hc]
          rfl
      · obtain ⟨text, hcopy, hlen, hkey⟩ := ih (ht hc)
        refine ⟨c :: text, ?_, ?_, ?_⟩
        · rw [strncpy, if_pos hc, hcopy, Option.map_some]
        · rw [List.length_cons, hlen]
        · have hcons : ∀ s : Bytes, cString (c :: s) = c :: cString s := fun s => by
            rw [cString, List.takeWhile_cons, if_pos (decide_eq_true hc), cString]
          rw [List.take_succ_cons, hcons, hcons, hkey]

theorem namecmp_key (name : Name) {text : Bytes} (h : text.length = DIRSIZ) :
    namecmp name.bytes text = some 0 ↔ name.key = cString text := by
  rw [namecmp, strncmp_eq_zero_iff name.readable (.inl h.ge), List.take_of_length_le h.le]
  rfl

theorem newEntry_spec (name : Name) (inum : UInt32) :
    ∃ de, newEntry name inum = some de ∧ de.length = 16 ∧ direntInum de = inum.toNat % 2 ^ 16 ∧
      cString (direntName de) = name.key := by
  obtain ⟨text, hcopy, hlen, hkey⟩ := strncpy_spec name.readable
  refine ⟨[UInt8.ofNat inum.toNat, UInt8.ofNat (inum.toNat / 256)] ++ text, ?_, ?_, ?_, hkey⟩
  · rw [newEntry, hcopy, Option.map_some]
  · rw [List.length_append, hlen]
    rfl
  · change (UInt8.ofNat inum.toNat).toNat + 256 * (UInt8.ofNat (inum.toNat / 256)).toNat = _
    rw [UInt8.toNat_ofNat', UInt8.toNat_ofNat']
    omega

end Names

section Entries

variable {f de key : Bytes} {inum j k : ℕ}

theorem Proper.entryAt_length (h : Proper f)
    (hk : k < entryCount f) : (entryAt f k).length = 16 := by
  have hwhole := h.whole
  rw [entryAt, List.length_take, List.length_drop]
  omega

theorem Proper.nameAt_length (h : Proper f)
    (hk : k < entryCount f) : (nameAt f k).length = DIRSIZ := by
  rw [nameAt, direntName, List.length_drop, h.entryAt_length hk]
  rfl

theorem Proper.namecmp_iff (h : Proper f) (name : Name) (hk : k < entryCount f) :
    namecmp name.bytes (nameAt f k) = some 0 ↔ name.key = keyAt f k :=
  namecmp_key name (h.nameAt_length hk)

theorem setEntry_length (h : Proper f) (hj : j ≤ entryCount f) (hde : de.length = 16) :
    (setEntry f j de).length = max f.length (16 * (j + 1)) := by
  have hwhole := h.whole
  rw [setEntry, FileBlocks.overwrite, List.length_append, List.length_append, List.length_take,
    List.length_drop, hde]
  omega

theorem setEntry_count (h : Proper f) (hj : j ≤ entryCount f) (hde : de.length = 16) :
    entryCount (setEntry f j de) = max (entryCount f) (j + 1) := by
  have hwhole := h.whole
  rw [entryCount, setEntry_length h hj hde]
  rw [entryCount] at hwhole ⊢
  omega

theorem entryAt_setEntry (h : Proper f) (hj : j ≤ entryCount f) (hde : de.length = 16) :
    entryAt (setEntry f j de) k = if k = j then de else entryAt f k := by
  have hwhole := h.whole
  apply List.ext_getElem?
  intro i
  rw [entryAt]
  by_cases hi : i < 16
  · rw [List.getElem?_take_of_lt hi, List.getElem?_drop, setEntry,
      overwrite_getElem? (by omega), hde]
    by_cases hkj : k = j
    · rw [if_pos hkj, hkj, if_neg (by omega), if_pos (by omega), Nat.add_sub_cancel_left]
    · rw [if_neg hkj, entryAt, List.getElem?_take_of_lt hi, List.getElem?_drop]
      split_ifs
      · rfl
      · omega
      · rfl
  · rw [List.getElem?_eq_none (by rw [List.length_take]; omega)]
    symm
    apply List.getElem?_eq_none
    split_ifs
    · omega
    · rw [entryAt, List.length_take]
      omega

theorem liveAt_setEntry (h : Proper f) (hj : j ≤ entryCount f) (hde : de.length = 16) :
    LiveAt (setEntry f j de) k ↔
      (k = j ∧ direntInum de ≠ 0) ∨ (k ≠ j ∧ LiveAt f k) := by
  rw [LiveAt, LiveAt, setEntry_count h hj hde, inumAt, inumAt, entryAt_setEntry h hj hde]
  by_cases hkj : k = j
  · rw [if_pos hkj]
    omega
  · rw [if_neg hkj]
    omega

theorem keyAt_setEntry (h : Proper f) (hj : j ≤ entryCount f) (hde : de.length = 16) :
    keyAt (setEntry f j de) k = if k = j then cString (direntName de) else keyAt f k := by
  rw [keyAt, nameAt, entryAt_setEntry h hj hde]
  split_ifs
  · rfl
  · rfl

/-- An entry that is not in use may be filled with a new name, and any may be cleared. -/
theorem Proper.setEntry (h : Proper f) (hj : j ≤ entryCount f) (hde : de.length = 16)
    (hnew : direntInum de ≠ 0 → ∀ k, k ≠ j → LiveAt f k → keyAt f k ≠ cString (direntName de)) :
    Proper (setEntry f j de) := by
  refine ⟨?_, fun a b ha hb hab => ?_⟩
  · have hwhole := h.whole
    rw [setEntry_count h hj hde, setEntry_length h hj hde]
    omega
  · rw [liveAt_setEntry h hj hde] at ha hb
    rw [keyAt_setEntry h hj hde, keyAt_setEntry h hj hde] at hab
    rcases ha with ⟨rfl, ha⟩ | ⟨haj, ha⟩
    · rcases hb with ⟨rfl, -⟩ | ⟨hbj, hb⟩
      · rfl
      · rw [if_pos rfl, if_neg hbj] at hab
        exact absurd hab.symm (hnew ha b hbj hb)
    · rcases hb with ⟨rfl, hb⟩ | ⟨hbj, hb⟩
      · rw [if_neg haj, if_pos rfl] at hab
        exact absurd hab (hnew hb a haj ha)
      · rw [if_neg haj, if_neg hbj] at hab
        exact h.unique a b ha hb hab

theorem binds_setEntry (h : Proper f) (hj : j ≤ entryCount f) (hde : de.length = 16)
    (hfree : ¬ LiveAt f j) (hinum : direntInum de ≠ 0) :
    Binds (setEntry f j de) key inum ↔
      (key = cString (direntName de) ∧ inum = direntInum de) ∨ Binds f key inum := by
  have hat : ∀ k, inumAt (setEntry f j de) k =
      if k = j then direntInum de else inumAt f k := fun k => by
    rw [inumAt, entryAt_setEntry h hj hde]
    split_ifs
    · rfl
    · rfl
  constructor
  · rintro ⟨k, hlive, hkey, hbound⟩
    rw [keyAt_setEntry h hj hde] at hkey
    rw [hat] at hbound
    rcases (liveAt_setEntry h hj hde).mp hlive with ⟨rfl, -⟩ | ⟨hkj, hlive⟩
    · rw [if_pos rfl] at hkey hbound
      exact .inl ⟨hkey.symm, hbound.symm⟩
    · rw [if_neg hkj] at hkey hbound
      exact .inr ⟨k, hlive, hkey, hbound⟩
  · rintro (⟨rfl, rfl⟩ | ⟨k, hlive, hkey, hbound⟩)
    · refine ⟨j, (liveAt_setEntry h hj hde).mpr (.inl ⟨rfl, hinum⟩), ?_, ?_⟩
      · rw [keyAt_setEntry h hj hde, if_pos rfl]
      · rw [hat, if_pos rfl]
    · have hkj : k ≠ j := by
        rintro rfl
        exact hfree hlive
      refine ⟨k, (liveAt_setEntry h hj hde).mpr (.inr ⟨hkj, hlive⟩), ?_, ?_⟩
      · rw [keyAt_setEntry h hj hde, if_neg hkj, hkey]
      · rw [hat, if_neg hkj, hbound]

end Entries

structure Holds (L : Layout) (d : ℕ) (disk : Disk) : Prop where
  consistent : Consistent L disk
  lt : d < L.ninodes
  dir : (L.dinode disk d).type = T_DIR
  proper : Proper (file L disk d)

section Calls

variable {L : Layout} {devsw : Devsw} {d : ℕ} {disk : Disk} {j k : ℕ} {key : Bytes}

theorem Holds.allocated (h : Holds L d disk) : Allocated L (L.dinode disk) d := by
  refine ⟨h.lt, ?_⟩
  rw [h.dir]
  decide

theorem Holds.not_device (h : Holds L d disk) : (L.dinode disk d).type ≠ T_DEV := by
  rw [h.dir]
  decide

theorem Holds.size (h : Holds L d disk) :
    (L.dinode disk d).size.toNat = 16 * entryCount (file L disk d) := by
  rw [h.proper.whole, file_length]

theorem Holds.size_le (h : Holds L d disk) : (L.dinode disk d).size.toNat ≤ 140 * 512 :=
  (blockCount_le _).mp (h.consistent.count_le d h.allocated)

theorem Holds.offset (h : Holds L d disk) (hj : j ≤ entryCount (file L disk d)) :
    (UInt32.ofNat (16 * j)).toNat = 16 * j := by
  have hsize := h.size
  have hle := h.size_le
  rw [UInt32.toNat_ofNat', Nat.mod_eq_of_lt (by omega)]

theorem Holds.readEntry (h : Holds L d disk) (failure : Panic)
    (hk : k < entryCount (file L disk d)) :
    readEntry L devsw failure disk (L.dinode disk d) (16 * k) =
      .ok (entryAt (file L disk d) k, L.dinode disk d, disk) := by
  have hoff := h.offset hk.le
  have hsize := h.size
  have hle := h.size_le
  have hfit : ¬ (UInt32.ofNat (16 * k) > (L.dinode disk d).size ∨
      UInt32.ofNat (16 * k) + 16 < UInt32.ofNat (16 * k)) := by
    rw [gt_iff_lt, UInt32.lt_iff_toNat_lt, UInt32.lt_iff_toNat_lt, UInt32.toNat_add, hoff]
    change ¬ (_ ∨ (16 * k + 16) % 2 ^ 32 < _)
    omega
  have hread : readi L devsw disk (L.dinode disk d) (UInt32.ofNat (16 * k)) 16 = _ :=
    readi_spec h.consistent h.allocated h.not_device
  have hlen := h.proper.entryAt_length hk
  rw [if_neg hfit, hoff] at hread
  change readi L devsw disk (L.dinode disk d) (UInt32.ofNat (16 * k)) 16 =
    .ok (((entryAt (file L disk d) k).length, entryAt (file L disk d) k), _, _) at hread
  rw [Directory.readEntry, hread, hlen]
  rfl

/-- What the search for a name from entry `k` on comes to. -/
def Found (f key : Bytes) (k : ℕ) : Option (ℕ × ℕ) → Prop
  | none => ∀ j, k ≤ j → LiveAt f j → keyAt f j ≠ key
  | some (inum, off) => ∃ j, k ≤ j ∧ off = 16 * j ∧ LiveAt f j ∧ keyAt f j = key ∧ inumAt f j = inum

theorem Found.skip {f : Bytes} {found : Option (ℕ × ℕ)} (h : Found f key (k + 1) found)
    (hk : LiveAt f k → keyAt f k ≠ key) : Found f key k found := by
  cases found with
  | none =>
      intro j hj hlive
      rcases hj.eq_or_lt with rfl | hj
      · exact hk hlive
      · exact h j hj hlive
  | some r =>
      obtain ⟨j, hj, hrest⟩ := h
      exact ⟨j, (Nat.le_succ k).trans hj, hrest⟩

theorem Holds.lookupFrom (h : Holds L d disk) (name : Name) (n : ℕ) :
    ∀ k, k + n = entryCount (file L disk d) →
      ∃ found, lookupFrom L devsw (L.dinode disk d).size.toNat name.bytes disk (L.dinode disk d)
          (16 * k) = .ok (found, L.dinode disk d, disk) ∧
        Found (file L disk d) name.key k found := by
  have hsize := h.size
  induction n with
  | zero =>
      intro k hk
      refine ⟨none, ?_, fun j hj hlive => absurd hlive.1 (by omega)⟩
      rw [Directory.lookupFrom, if_neg (by omega)]
  | succ n ih =>
      intro k hk
      have hlt : k < entryCount (file L disk d) := by omega
      obtain ⟨found, hfrom, hfound⟩ := ih (k + 1) (by omega)
      have hcmp := h.proper.namecmp_iff name hlt
      rw [Directory.lookupFrom, if_pos (by omega), h.readEntry _ hlt, ok_bind]
      dsimp only
      by_cases hfree : inumAt (file L disk d) k = 0
      · refine ⟨found, ?_, hfound.skip fun hlive => absurd hfree hlive.2⟩
        rw [inumAt] at hfree
        rw [if_pos hfree, ← hfrom]
        rfl
      · have hentry : direntInum (entryAt (file L disk d) k) ≠ 0 := hfree
        rw [if_neg hentry]
        by_cases heq : name.key = keyAt (file L disk d) k
        · refine ⟨some (inumAt (file L disk d) k, 16 * k), ?_, k, le_rfl, rfl, ⟨hlt, hfree⟩,
            heq.symm, rfl⟩
          rw [nameAt] at hcmp
          rw [if_pos (hcmp.mpr heq), inumAt]
        · refine ⟨found, ?_, hfound.skip fun _ hkey => heq hkey.symm⟩
          rw [nameAt] at hcmp
          rw [if_neg (mt hcmp.mp heq), ← hfrom]
          rfl

theorem Holds.dirlookup (devsw : Devsw) (h : Holds L d disk) (name : Name) :
    ∃ found, dirlookup L devsw disk (L.dinode disk d) name = .ok (found, L.dinode disk d, disk) ∧
      Found (file L disk d) name.key 0 found := by
  rw [Directory.dirlookup, if_neg (not_not.mpr h.dir)]
  exact h.lookupFrom name _ 0 (Nat.zero_add _)

theorem Holds.emptyFrom (devsw : Devsw) (h : Holds L d disk) (n : ℕ) :
    ∀ k, k + n = entryCount (file L disk d) →
      ∃ j, emptyFrom L devsw (L.dinode disk d).size.toNat disk (L.dinode disk d) (16 * k) =
        .ok (16 * j, L.dinode disk d, disk) ∧ k ≤ j ∧ j ≤ entryCount (file L disk d) ∧
        ¬ LiveAt (file L disk d) j ∧ ∀ i, k ≤ i → i < j → LiveAt (file L disk d) i := by
  have hsize := h.size
  induction n with
  | zero =>
      intro k hk
      refine ⟨k, ?_, le_rfl, hk.le, fun hlive => absurd hlive.1 (by omega), fun i _ _ => by omega⟩
      rw [Directory.emptyFrom, if_neg (by omega)]
  | succ n ih =>
      intro k hk
      have hlt : k < entryCount (file L disk d) := by omega
      rw [Directory.emptyFrom, if_pos (by omega), h.readEntry _ hlt, ok_bind]
      dsimp only
      by_cases hfree : direntInum (entryAt (file L disk d) k) = 0
      · refine ⟨k, if_pos hfree, le_rfl, hlt.le, fun hlive => hlive.2 hfree, fun i _ _ => by omega⟩
      · obtain ⟨j, hfrom, hkj, hj, hdead, hlive⟩ := ih (k + 1) (by omega)
        refine ⟨j, ?_, by omega, hj, hdead, fun i hi hij => ?_⟩
        · rw [if_neg hfree, ← hfrom]
          rfl
        · rcases hi.eq_or_lt with rfl | hi
          · exact ⟨hlt, hfree⟩
          · exact hlive i hi hij

/-- The disk after entry `j` of the directory has been written. -/
structure EntryWritten (L : Layout) (d : ℕ) (disk : Disk) (j : ℕ) (de : Bytes) (dp : Dinode)
    (disk' : Disk) : Prop where
  consistent : Consistent L disk'
  inode : dp = L.dinode disk' d
  bytes : file L disk' d = setEntry (file L disk d) j de
  type : (L.dinode disk' d).type = (L.dinode disk d).type
  others : ∀ i, i ≠ d → Allocated L (L.dinode disk) i →
    file L disk' i = file L disk i

theorem Holds.writeEntry (h : Holds L d disk) (failure : Panic) {de : Bytes} (hde : de.length = 16)
    (hj : j ≤ entryCount (file L disk d)) :
    Ends (fun e => e = .fs .outOfBlocks ∨ e = failure)
      (writeEntry L devsw failure disk d (L.dinode disk d) (16 * j) de)
      fun r => EntryWritten L d disk j de r.1 r.2 := by
  have hoff := h.offset hj
  have hbytes : (List.range (16 : UInt32).toNat).map (fun k => de.getD k 0) = de := by
    apply List.ext_getElem
    · rw [List.length_map, List.length_range, hde]
      rfl
    · intro i hi hi'
      rw [List.getElem_map, List.getElem_range, List.getD, List.getElem?_eq_getElem hi',
        Option.getD_some]
  rw [Directory.writeEntry]
  cases hwrite : writei L devsw disk d (L.dinode disk d) (fun k => de.getD k 0)
      (UInt32.ofNat (16 * j)) 16 with
  | error e => exact .error (.inl (congrArg Panic.fs
      ((writei_spec h.consistent h.allocated h.not_device).of_error hwrite)))
  | ok r =>
      obtain ⟨n, dp, disk'⟩ := r
      rcases (writei_spec h.consistent h.allocated h.not_device).of_ok hwrite with
        ⟨-, hr⟩ | ⟨hfit, hn, hover⟩
      · cases hr
        exact .error (.inr rfl)
      · replace hn : n = 16 := hn
        replace hover : Overwritten L disk d _ _ _ dp disk' := hover
        rw [hn]
        refine .ok ⟨hover.consistent, ?_, ?_, hover.type h.lt, fun i hi halloc =>
          hover.file_of_ne halloc hi⟩
        · have hdinode := hover.dinode d h.lt
          rw [if_pos rfl] at hdinode
          exact hdinode.symm
        · have hself := hover.file_self h.allocated (not_refused_iff.mp hfit).1
          rw [hbytes, hoff] at hself
          exact hself

theorem EntryWritten.holds {de : Bytes} {dp : Dinode} {disk' : Disk} (h : Holds L d disk)
    (hw : EntryWritten L d disk j de dp disk') (hj : j ≤ entryCount (file L disk d))
    (hde : de.length = 16)
    (hnew : direntInum de ≠ 0 →
      ∀ k, k ≠ j → LiveAt (file L disk d) k → keyAt (file L disk d) k ≠ cString (direntName de)) :
    Holds L d disk' := by
  refine ⟨hw.consistent, h.lt, hw.type.trans h.dir, ?_⟩
  rw [hw.bytes]
  exact h.proper.setEntry hj hde hnew

/-- The outcome of `dirlink`: a bound name is refused, another gets the first entry that is free. -/
inductive Linked (L : Layout) (d : ℕ) (disk : Disk) (name : Name) (inum : UInt32) :
    ℤ × Dinode × Disk → Prop
  | refused (hbound : ∃ i, Binds (file L disk d) name.key i) :
      Linked L d disk name inum (-1, L.dinode disk d, disk)
  | added {j : ℕ} {de : Bytes} {dp : Dinode} {disk' : Disk}
      (hfree : ¬ ∃ i, Binds (file L disk d) name.key i) (hj : j ≤ entryCount (file L disk d))
      (hdead : ¬ LiveAt (file L disk d) j) (hlive : ∀ i < j, LiveAt (file L disk d) i)
      (hde : de.length = 16) (hinum : direntInum de = inum.toNat % 2 ^ 16)
      (hkey : cString (direntName de) = name.key) (hw : EntryWritten L d disk j de dp disk') :
      Linked L d disk name inum (0, dp, disk')

theorem Holds.dirlink (h : Holds L d disk) (name : Name) (inum : UInt32) :
    Ends (fun e => e = .fs .outOfBlocks ∨ e = .linkWrite)
      (dirlink L devsw disk d (L.dinode disk d) name inum) (Linked L d disk name inum) := by
  obtain ⟨found, hlookup, hfound⟩ := h.dirlookup devsw name
  rw [Directory.dirlink, hlookup, ok_bind]
  dsimp only
  cases found with
  | some r =>
      obtain ⟨j, -, -, hlive, hkey, -⟩ := hfound
      rw [if_pos Option.isSome_some]
      exact .ok (.refused ⟨_, j, hlive, hkey, rfl⟩)
  | none =>
      obtain ⟨j, hempty, -, hj, hdead, hlive⟩ := h.emptyFrom devsw _ 0 (Nat.zero_add _)
      rw [Nat.mul_zero] at hempty
      obtain ⟨de, hnew, hde, hinum, hkey⟩ := newEntry_spec name inum
      rw [if_neg (by decide), hempty, ok_bind]
      dsimp only
      rw [hnew, Option.getD_some]
      apply (h.writeEntry .linkWrite hde hj).bind
      rintro ⟨dp, disk'⟩ hw
      refine .ok (.added ?_ hj hdead (fun i hi => hlive i (Nat.zero_le _) hi) hde hinum hkey hw)
      rintro ⟨i, k, hk, hbound, -⟩
      exact hfound k (Nat.zero_le _) hk hbound

theorem Linked.holds {name : Name} {inum : UInt32} {r : ℤ × Dinode × Disk} (h : Holds L d disk)
    (hr : Linked L d disk name inum r) : Holds L d r.2.2 := by
  cases hr with
  | refused => exact h
  | added hfree hj _ _ hde _ hkey hw =>
      refine hw.holds h hj hde fun _ k _ hlive hbound => hfree ⟨_, k, hlive, ?_, rfl⟩
      rw [hbound, hkey]

/-- `sys_unlink` clears the entry of a name that is bound. -/
inductive Erased (L : Layout) (d : ℕ) (disk : Disk) (name : Name) : ℤ × Dinode × Disk → Prop
  | refused (hfree : ¬ ∃ i, Binds (file L disk d) name.key i) :
      Erased L d disk name (-1, L.dinode disk d, disk)
  | cleared {j : ℕ} {dp : Dinode} {disk' : Disk} (hlive : LiveAt (file L disk d) j)
      (hkey : keyAt (file L disk d) j = name.key)
      (hw : EntryWritten L d disk j (List.replicate 16 0) dp disk') :
      Erased L d disk name (0, dp, disk')

theorem Holds.eraseEntry (h : Holds L d disk) (name : Name) :
    Ends (fun e => e = .fs .outOfBlocks ∨ e = .unlinkWrite)
      (eraseEntry L devsw disk d (L.dinode disk d) name) (Erased L d disk name) := by
  obtain ⟨found, hlookup, hfound⟩ := h.dirlookup devsw name
  rw [Directory.eraseEntry, hlookup, ok_bind]
  cases found with
  | none =>
      refine .ok (.refused ?_)
      rintro ⟨i, k, hk, hbound, -⟩
      exact hfound k (Nat.zero_le _) hk hbound
  | some r =>
      obtain ⟨j, -, hoff, hlive, hkey, -⟩ := hfound
      dsimp only
      rw [hoff]
      apply (h.writeEntry .unlinkWrite List.length_replicate hlive.1.le).bind
      rintro ⟨dp, disk'⟩ hw
      exact .ok (.cleared hlive hkey hw)

theorem Erased.holds {name : Name} {r : ℤ × Dinode × Disk} (h : Holds L d disk)
    (hr : Erased L d disk name r) : Holds L d r.2.2 := by
  cases hr with
  | refused => exact h
  | cleared hlive _ hw =>
      exact hw.holds h hlive.1.le List.length_replicate fun hne => absurd rfl hne

theorem Reachable.holds (h : Reachable L devsw d disk) : Holds L d disk := by
  induction h with
  | fresh hc hd htype hsize =>
      rename_i disk
      have hempty : file L disk d = [] :=
        List.eq_nil_of_length_eq_zero (by rw [file_length, hsize]; rfl)
      refine ⟨hc, hd, htype, ?_⟩
      rw [hempty]
      exact ⟨rfl, fun j k hj _ _ => absurd hj.1 (Nat.not_lt_zero j)⟩
  | link _ hlink ih => exact ((ih.dirlink _ _).of_ok hlink).holds ih
  | erase _ herase ih => exact ((ih.eraseEntry _).of_ok herase).holds ih

theorem found_iff (h : Holds L d disk) {name : Name} {found : Option (ℕ × ℕ)}
    (hfound : Found (file L disk d) name.key 0 found) (inum off : ℕ) :
    found = some (inum, off) ↔ ∃ k, off = 16 * k ∧ LiveAt (file L disk d) k ∧
      namecmp name.bytes (nameAt (file L disk d) k) = some 0 ∧ inumAt (file L disk d) k = inum := by
  constructor
  · rintro rfl
    obtain ⟨k, -, hoff, hlive, hkey, hinum⟩ := hfound
    exact ⟨k, hoff, hlive, (h.proper.namecmp_iff name hlive.1).mpr hkey.symm, hinum⟩
  · rintro ⟨k, hoff, hlive, hcmp, hinum⟩
    have hkey := (h.proper.namecmp_iff name hlive.1).mp hcmp
    cases found with
    | none => exact absurd hkey.symm (hfound k (Nat.zero_le _) hlive)
    | some r =>
        obtain ⟨j, -, hoff', hlive', hkey', hinum'⟩ := hfound
        obtain rfl := h.proper.unique j k hlive' hlive (hkey'.trans hkey)
        rw [hoff, ← hinum, hinum', ← hoff']

/-- Adding a binding leaves the other entries where they are. -/
structure Bound (f f' : Bytes) (name : Name) (inum : ℕ) : Prop where
  binds : ∀ key i, Binds f' key i ↔ (key = name.key ∧ i = inum) ∨ Binds f key i
  reuses : (∃ k < entryCount f, inumAt f k = 0) → f'.length = f.length
  keeps : ∀ k, LiveAt f k → entryAt f' k = entryAt f k

theorem Linked.bound {name : Name} {inum : UInt32} {r : ℤ} {dp : Dinode} {disk' : Disk}
    (h : Holds L d disk) (hpos : 0 < inum) (hlt : inum < 65536)
    (hr : Linked L d disk name inum (r, dp, disk'))
    (hfree : ¬ ∃ i, Binds (file L disk d) name.key i) :
    r = 0 ∧ Bound (file L disk d) (file L disk' d) name inum.toNat := by
  have hpos' := UInt32.lt_iff_toNat_lt.mp hpos
  have hlt' := UInt32.lt_iff_toNat_lt.mp hlt
  change 0 < _ at hpos'
  change _ < 65536 at hlt'
  cases hr with
  | refused hbound => exact absurd hbound hfree
  | @added j de _ _ _ hj hdead hlive hde hinum hkey hw =>
      have hwhole := h.proper.whole
      rw [Nat.mod_eq_of_lt (by omega)] at hinum
      refine ⟨rfl, fun key i => ?_, ?_, fun k hk => ?_⟩
      · rw [hw.bytes, binds_setEntry h.proper hj hde hdead (by omega), hkey, hinum]
      · rintro ⟨k, hk, hzero⟩
        have hjk : j ≤ k := by
          by_contra hlt
          exact (hlive k (not_le.mp hlt)).2 hzero
        rw [hw.bytes, setEntry_length h.proper hj hde]
        omega
      · rw [hw.bytes, entryAt_setEntry h.proper hj hde, if_neg]
        rintro rfl
        exact hdead hk

/-- Whatever calls of `dirlink` and erasures of `sys_unlink` a directory has gone through, it is a
finite map from names to inode numbers: `dirlookup` finds the entry of a name, `dirlink` refuses a
bound name and adds exactly one binding otherwise, in an erased entry where there is one. -/
theorem directory_is_map (h : Reachable L devsw d disk) :
    (∀ j k, LiveAt (file L disk d) j → LiveAt (file L disk d) k →
      namecmp (nameAt (file L disk d) j) (nameAt (file L disk d) k) = some 0 → j = k) ∧
    (∀ name : Name, ∃ found, Directory.dirlookup L devsw disk (L.dinode disk d) name =
        .ok (found, L.dinode disk d, disk) ∧
      ∀ inum off, found = some (inum, off) ↔ ∃ k, off = 16 * k ∧ LiveAt (file L disk d) k ∧
        namecmp name.bytes (nameAt (file L disk d) k) = some 0 ∧ inumAt (file L disk d) k = inum) ∧
    ∀ (name : Name) (inum : UInt32) r dp disk', 0 < inum → inum < 65536 →
      Directory.dirlink L devsw disk d (L.dinode disk d) name inum = .ok (r, dp, disk') →
      ((∃ i, Binds (file L disk d) name.key i) → r = -1 ∧ disk' = disk) ∧
      ((¬ ∃ i, Binds (file L disk d) name.key i) →
        r = 0 ∧ Bound (file L disk d) (file L disk' d) name inum.toNat) := by
  have hd := h.holds
  refine ⟨fun j k hj hk hcmp => ?_, fun name => ?_, fun name inum r dp disk' hpos hlt hlink => ?_⟩
  · have hjlen := hd.proper.nameAt_length hj.1
    have hklen := hd.proper.nameAt_length hk.1
    rw [namecmp, strncmp_eq_zero_iff (.inl hjlen.ge)
      (.inl hklen.ge), List.take_of_length_le hjlen.le,
      List.take_of_length_le hklen.le] at hcmp
    exact hd.proper.unique j k hj hk hcmp
  · obtain ⟨found, hlookup, hfound⟩ := hd.dirlookup devsw name
    exact ⟨found, hlookup, found_iff hd hfound⟩
  · have hr := (hd.dirlink name inum).of_ok hlink
    refine ⟨fun hbound => ?_, hr.bound hd hpos hlt⟩
    cases hr with
    | refused => exact ⟨rfl, rfl⟩
    | added hfree => exact absurd hbound hfree

end Calls

def firstDirectory : Disk := FileBlocks.iupdate mkfsLayout newDisk 1 (FileBlocks.newDinode T_DIR)

theorem firstDirectory_reachable (devsw : Devsw) : Reachable mkfsLayout devsw 1 firstDirectory := by
  have hfind : (List.range mkfsLayout.ninodes).find? (fun i =>
      1 ≤ i ∧ (mkfsLayout.dinode newDisk i).type = 0) = some 1 := by
    decide +kernel
  have halloc : FileBlocks.ialloc mkfsLayout newDisk T_DIR = .ok (1, firstDirectory) := by
    rw [FileBlocks.ialloc, hfind]
    rfl
  have hresult := (ialloc_spec newState_inv.consistent).of_ok halloc
  have hdinode : mkfsLayout.dinode firstDirectory 1 = FileBlocks.newDinode T_DIR := by
    rw [firstDirectory, dinode_iupdate, if_pos rfl]
  refine .fresh hresult.2.2.1 hresult.1 ?_ ?_
  · rw [hdinode]
    rfl
  · rw [hdinode]
    rfl

/-- Fourteen bytes without a terminator. -/
def longName : Name := ⟨List.replicate DIRSIZ 97, by decide⟩

/-- The second name goes into the entry that the first one has left. -/
theorem directory_is_map_erased_entry : ∃ disk dp disk',
    Reachable mkfsLayout noDevices 1 disk ∧ (mkfsLayout.dinode disk 1).size = 16 ∧
      inumAt (file mkfsLayout disk 1) 0 = 0 ∧
      dirlink mkfsLayout noDevices disk 1 (mkfsLayout.dinode disk 1) ⟨[98, 0], by decide⟩ 7 =
        .ok (0, dp, disk') ∧ dp.size = 16 ∧
      Bound (file mkfsLayout disk 1) (file mkfsLayout disk' 1) ⟨[98, 0], by decide⟩ 7 := by
  have hrun : ((dirlink mkfsLayout noDevices firstDirectory 1 (mkfsLayout.dinode firstDirectory 1)
      longName 5).toOption.any fun x =>
        (eraseEntry mkfsLayout noDevices x.2.2 1 (mkfsLayout.dinode x.2.2 1) longName).toOption.any
          fun x => ((mkfsLayout.dinode x.2.2 1).size = 16 ∧
            inumAt (file mkfsLayout x.2.2 1) 0 = 0) ∧
            (dirlink mkfsLayout noDevices x.2.2 1 (mkfsLayout.dinode x.2.2 1)
              ⟨[98, 0], by decide⟩ 7).toOption.any
              fun x => x.1 = 0 ∧ x.2.1.size = 16) = true := by
    decide +kernel
  obtain ⟨⟨_, _, disk₁⟩, h₁, hrun₁⟩ := (Option.any_eq_true _ _).mp hrun
  obtain ⟨⟨_, _, disk⟩, h₂, hrun₂⟩ := (Option.any_eq_true _ _).mp hrun₁
  obtain ⟨⟨hsize, hzero⟩, hrun₂⟩ := of_decide_eq_true hrun₂
  obtain ⟨⟨r, dp, disk'⟩, h₃, hrun₃⟩ := (Option.any_eq_true _ _).mp hrun₂
  obtain ⟨rfl, hsize'⟩ := of_decide_eq_true hrun₃
  have hreach : Reachable mkfsLayout noDevices 1 disk :=
    ((firstDirectory_reachable noDevices).link (ok_of_toOption h₁)).erase (ok_of_toOption h₂)
  have hlink := ok_of_toOption h₃
  have hmap := (directory_is_map hreach).2.2 ⟨[98, 0], by decide⟩ 7 0 dp disk' (by decide)
      (by decide) hlink
  refine ⟨disk, dp, disk', hreach, hsize, hzero, hlink, hsize', (hmap.2 fun hbound => ?_).2⟩
  exact absurd (hmap.1 hbound).1 (by decide)

end Directory

end Xv6Fairness
