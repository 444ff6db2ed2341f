import Xv6Fairness.ImageFiles

/-!
# The root directory of a disk image

`main` gives each file an inode and an entry in the root directory, whose size it rounds up at the
end. The kernel looks names up in the directory by reading entry after entry. The image is
consistent and every file is found under its name and read back, as long as the inode blocks have
room for the inode numbers.
-/

namespace Xv6Fairness

open ByteBlocks ByteStrings Outcomes Ownership FileBlocks

namespace Mkfs

inductive LookupPanic
  | notDir             -- "dirlookup not DIR"
  | read               -- "dirlookup read"
  | fs (p : Panic)

def direntInum (de : Bytes) : ℕ := (de.getD 0 0).toNat + 256 * (de.getD 1 0).toNat

def direntName (de : Bytes) : Bytes := de.drop 2

section Lookup

variable (devsw : Devsw)

/-- The loop of `dirlookup`: the inode number and the offset of the first entry with the name. -/
def lookupFrom (size : ℕ) (name : Bytes) (disk : Disk) (dp : Dinode) (off : ℕ) :
    Except LookupPanic (Option (ℕ × ℕ) × Dinode × Disk) :=
  if off < size then
    match readi sb devsw disk dp (UInt32.ofNat off) 16 with
    | .error p => .error (.fs p)
    | .ok ((n, de), dp, disk) =>
      if n ≠ 16 then .error .read
      else if direntInum de = 0 then lookupFrom size name disk dp (off + 16)
      else if namecmp name (direntName de) = some 0 then .ok (some (direntInum de, off), dp, disk)
      else lookupFrom size name disk dp (off + 16)
  else .ok (none, dp, disk)
termination_by size - off

def dirlookup (disk : Disk) (dp : Dinode) (name : Bytes) :
    Except LookupPanic (Option (ℕ × ℕ) × Dinode × Disk) :=
  if dp.type ≠ T_DIR then .error .notDir else lookupFrom devsw dp.size.toNat name disk dp 0

end Lookup

/-- The entries of the root directory. -/
def rootEntries (files : List HostFile) : List (ℕ × Bytes) :=
  (ROOTINO, ascii ['.']) :: (ROOTINO, ascii ['.', '.']) ::
    (files.zipIdx 2).map fun f => (f.2, f.1.name)

def direntBytes (entries : List (ℕ × Bytes)) : Bytes :=
  (entries.map fun e => dirent e.1 e.2).flatten

/-- The files of the image. -/
def imageFiles (files : List HostFile) : Files :=
  (T_DIR, direntBytes (rootEntries files)) :: files.map fun f => (T_FILE, f.content)

/-- The root inode after "fix size of root inode dir". -/
def roundedRoot (d : Dinode) : Dinode :=
  { d with size := UInt32.ofNat ((d.size.toNat / BSIZE + 1) * BSIZE) }

section Main

variable {s t : State} {files : Files} {f : HostFile} {host : List HostFile} {c : Bytes}
  {others : Files}

theorem run_chunks (chunks : List Bytes) (files : Files) (k : ℕ) :
    files.run (chunks.map (.iappend (k + 1))) =
      files.modify k fun f => (f.1, f.2 ++ chunks.flatten) := by
  induction chunks generalizing files with
  | nil =>
      simp only [List.flatten_nil, List.append_nil]
      exact (List.modify_id _ _).symm
  | cons p chunks ih =>
      rw [List.map_cons]
      change Files.run (files.modify k fun f => (f.1, f.2 ++ p)) _ = _
      rw [ih, List.modify_modify_eq]
      simp only [Function.comp_def, List.flatten_cons, List.append_assoc]

theorem modify_last {α : Type} (l : List α) (x : α) (g : α → α) :
    (l ++ [x]).modify l.length g = l ++ [g x] := by
  induction l with
  | nil => rfl
  | cons y l ih => rw [List.length_cons, List.cons_append, List.modify_succ_cons, ih,
      List.cons_append]

theorem proper_chunks {count k : ℕ} (hk : k < count) (chunks : List Bytes) :
    Proper count (chunks.map (.iappend (k + 1))) := by
  induction chunks with
  | nil => trivial
  | cons p chunks ih => exact ⟨Nat.succ_pos k, hk, ih⟩

/-- The appends for one file once it has inode `count`. -/
def fileCalls (count : ℕ) (f : HostFile) : List Call :=
  .iappend ROOTINO (dirent count f.name) :: f.chunks.map (.iappend count)

theorem run_fileCalls :
    Files.run (((T_DIR, c) :: others) ++ [(T_FILE, [])]) (fileCalls (others.length + 2) f) =
      (T_DIR, c ++ dirent (others.length + 2) f.name) :: (others ++ [(T_FILE, f.content)]) := by
  change Files.run ((T_DIR, c ++ dirent (others.length + 2) f.name) :: (others ++ [(T_FILE, [])]))
    (f.chunks.map (.iappend (others.length + 1 + 1))) = _
  rw [run_chunks, List.modify_succ_cons, modify_last]
  rfl

theorem addFile_spec (h : Represents s ((T_DIR, c) :: others))
    (hroom : others.length + 2 < wide.ninodes) :
    Ends (fun _ => True) (addFile s f) fun t => Represents t
      ((T_DIR, c ++ dirent (others.length + 2) f.name) :: (others ++ [(T_FILE, f.content)])) := by
  rw [addFile]
  apply Ends.ite
  · exact fun _ => .error trivial
  intro _
  apply Ends.ite
  · exact fun _ => .error trivial
  intro _
  obtain ⟨t, ht, hrep⟩ := ialloc_spec h hroom (.inr rfl)
  have hcount : (((T_DIR, c) :: others) ++ [(T_FILE, [])] : Files).length = others.length + 2 := by
    rw [List.length_append]
    rfl
  have hlen : (Files.run (((T_DIR, c) :: others) ++ [(T_FILE, [])])
      (fileCalls (others.length + 2) f)).length < wide.ninodes := by
    rw [run_fileCalls, List.length_cons, List.length_append]
    exact hroom
  have hproper : Proper (others.length + 2) (fileCalls (others.length + 2) f) :=
    ⟨le_rfl, Nat.succ_pos _, proper_chunks (Nat.lt_succ_self _) _⟩
  have hrun := run_spec hrep (hcount ▸ hproper) hlen
  rw [run_fileCalls, run, fileCalls, List.foldlM_cons] at hrun
  simp only [List.foldlM_map, step] at hrun
  replace ht : ialloc s T_FILE = .ok (others.length + 2, t) := ht
  rw [ht, ok_bind]
  exact hrun

theorem addFiles_spec (h : Represents s ((T_DIR, c) :: others))
    (hroom : others.length + 1 + host.length < wide.ninodes) :
    Ends (fun _ => True) (host.foldlM addFile s) fun t => Represents t
      ((T_DIR, c ++ direntBytes ((host.zipIdx (others.length + 2)).map fun f => (f.2, f.1.name))) ::
        (others ++ host.map fun f => (T_FILE, f.content))) := by
  induction host generalizing s c others with
  | nil =>
      apply Ends.ok
      rw [List.map_nil, List.append_nil]
      change Represents s ((T_DIR, c ++ []) :: others)
      rwa [List.append_nil]
  | cons f host ih =>
      rw [List.length_cons] at hroom
      rw [List.foldlM_cons]
      apply (addFile_spec h (by omega)).bind
      intro t ht
      have hlen : (others ++ [(T_FILE, f.content)] : Files).length = others.length + 1 := by
        rw [List.length_append]
        rfl
      have hrest := ih ht (by omega)
      rw [hlen, List.append_assoc, List.append_assoc] at hrest
      exact hrest

/-- The image at the end, and the one before the size of the root is rounded up. -/
structure Finished (host : List HostFile) (s t : State) : Prop where
  represents : Represents s (imageFiles host)
  disk : t.disk = iupdate wide s.image ROOTINO (roundedRoot (wide.dinode s.image ROOTINO))
  freeblock : t.freeblock = s.freeblock

theorem fixRoot_spec (h : Represents s (imageFiles host)) :
    Ends (fun _ => True) (do
      let s ← fixRoot s
      balloc s s.freeblock) (Finished host s) := by
  have hroot : ROOTINO < wide.ninodes := by decide
  have hsectors : State.sectors { s with
      disk := wide.putDinode s.disk ROOTINO (roundedRoot (wide.dinode s.image ROOTINO)) } =
        FSSIZE :=
    h.sound.sectors
  have hfix : fixRoot s = .ok { s with
      disk := wide.putDinode s.disk ROOTINO (roundedRoot (wide.dinode s.image ROOTINO)) } := by
    rw [fixRoot, rinode_eq h.sound.sectors hroot, ok_bind]
    exact winode_eq h.sound.sectors hroot
  rw [hfix, ok_bind]
  cases hballoc : balloc { s with
      disk := wide.putDinode s.disk ROOTINO (roundedRoot (wide.dinode s.image ROOTINO)) }
      s.freeblock with
  | error e => exact .error trivial
  | ok t =>
      obtain ⟨hdisk, hfree⟩ := balloc_eq hsectors hballoc
      exact .ok ⟨h, hdisk.trans (image_putDinode hroot), hfree⟩

theorem appendRoot_spec (h : Represents s [(T_DIR, c)]) (p : Bytes) :
    Ends (fun _ => True) (appendBytes s ROOTINO p) fun t => Represents t [(T_DIR, c ++ p)] := by
  have happend : Ends (fun _ => True) (appendBytes s ROOTINO p) _ :=
    iappend_spec h Nat.zero_lt_one
  rw [map_getD] at happend
  exact happend

theorem addEntries_spec (h : Represents s [(T_DIR, [])]) (hroom : host.length + 1 < wide.ninodes) :
    Ends (fun _ => True) (do
      let s ← appendBytes s ROOTINO (dirent ROOTINO (ascii ['.']))
      let s ← appendBytes s ROOTINO (dirent ROOTINO (ascii ['.', '.']))
      let s ← host.foldlM addFile s
      let s ← fixRoot s
      balloc s s.freeblock) fun t => ∃ s, Finished host s t := by
  apply (appendRoot_spec h _).bind
  intro s₁ h₁
  apply (appendRoot_spec h₁ _).bind
  intro s₂ h₂
  have hlen : ([] : Files).length + 1 + host.length < wide.ninodes := by
    rw [List.length_nil]
    omega
  apply (addFiles_spec h₂ hlen).bind
  intro s₃ h₃
  exact (fixRoot_spec h₃).imp fun t ht => ⟨s₃, ht⟩

theorem main_spec (hroom : host.length + 1 < wide.ninodes) :
    Ends (fun _ => True) (main host) fun t => ∃ s, Finished host s t := by
  obtain ⟨s, hs, hrep⟩ := ialloc_spec newImage_represents (by decide) (.inl rfl : T_DIR = _ ∨ _)
  replace hs : ialloc newImage T_DIR = .ok (ROOTINO, s) := hs
  rw [main, hs, ok_bind]
  exact addEntries_spec hrep hroom

end Main

/-- Entry `k` of the root directory. -/
def rootEntry (disk : Disk) (k : ℕ) : Bytes := ((file wide disk ROOTINO).drop (16 * k)).take 16

section Entries

variable {inum k : ℕ} {name : Bytes} {entries : List (ℕ × Bytes)} {host : List HostFile}

theorem padded_length (name : Bytes) :
    ((name ++ List.replicate DIRSIZ 0).take DIRSIZ).length = DIRSIZ := by
  rw [List.length_take, List.length_append, List.length_replicate]
  exact min_eq_left (Nat.le_add_left _ _)

theorem dirent_length : (dirent inum name).length = 16 := by
  rw [dirent, List.length_append, padded_length]
  rfl

theorem direntInum_dirent (h : inum < 2 ^ 16) : direntInum (dirent inum name) = inum := by
  change (UInt8.ofNat inum).toNat + 256 * (UInt8.ofNat (inum / 256)).toNat = inum
  rw [UInt8.toNat_ofNat', UInt8.toNat_ofNat']
  omega

theorem direntName_dirent :
    direntName (dirent inum name) = (name ++ List.replicate DIRSIZ 0).take DIRSIZ := rfl

theorem cString_padded (h : ∀ c ∈ name, c ≠ 0) :
    cString ((name ++ List.replicate DIRSIZ 0).take DIRSIZ) = name.take DIRSIZ := by
  by_cases hlong : DIRSIZ ≤ name.length
  · rw [List.take_append_of_le_length hlong, cString, List.takeWhile_eq_self_iff]
    intro c hc
    exact decide_eq_true (h c (List.mem_of_mem_take hc))
  · obtain ⟨m, hm⟩ := Nat.exists_eq_add_of_lt (not_le.mp hlong)
    have hsplit : DIRSIZ = name.length + (m + 1) := hm
    have hrest : (List.replicate DIRSIZ (0 : UInt8)).take (m + 1) = 0 :: List.replicate m 0 := by
      rw [List.take_replicate, min_eq_left (by omega), List.replicate_succ]
    rw [List.take_append, List.take_of_length_le (by omega), hsplit, Nat.add_sub_cancel_left,
      ← hsplit, hrest, cString_append_zero h]

theorem take_drop_flatten {w : ℕ} (l : List Bytes) (hl : ∀ e ∈ l, e.length = w)
    (hk : k < l.length) :
    (l.flatten.drop (w * k)).take w = l[k] := by
  induction l generalizing k with
  | nil => exact absurd hk (Nat.not_lt_zero k)
  | cons e l ih =>
      have he : e.length = w := hl e List.mem_cons_self
      rw [List.flatten_cons]
      cases k with
      | zero =>
          rw [Nat.mul_zero, List.drop_zero, ← he]
          exact List.take_left
      | succ k =>
          have hdrop : (e ++ l.flatten).drop (w * (k + 1)) = l.flatten.drop (w * k) := by
            rw [Nat.mul_succ, Nat.add_comm, ← he, List.drop_append,
              List.drop_eq_nil_of_le (Nat.le_add_right _ _), List.nil_append,
                Nat.add_sub_cancel_left]
          rw [hdrop]
          exact ih (fun e he => hl e (List.mem_cons_of_mem _ he)) (Nat.lt_of_succ_lt_succ hk)

theorem direntBytes_length : (direntBytes entries).length = 16 * entries.length := by
  induction entries with
  | nil => rfl
  | cons e entries ih =>
      have hcons : direntBytes (e :: entries) = dirent e.1 e.2 ++ direntBytes entries := rfl
      rw [hcons, List.length_append, dirent_length, ih, List.length_cons]
      ring

theorem take_direntBytes (hk : k < entries.length) :
    ((direntBytes entries).drop (16 * k)).take 16 = dirent entries[k].1 entries[k].2 := by
  have hlen : ∀ e ∈ entries.map fun e => dirent e.1 e.2, e.length = 16 := by
    intro e he
    obtain ⟨e, -, rfl⟩ := List.mem_map.mp he
    exact dirent_length
  rw [direntBytes, take_drop_flatten _ hlen (by rwa [List.length_map]), List.getElem_map]

theorem rootEntries_length : (rootEntries host).length = host.length + 2 := by
  rw [rootEntries, List.length_cons, List.length_cons, List.length_map, List.length_zipIdx]

theorem rootEntries_getElem (hk : k + 2 < (rootEntries host).length) (hk' : k < host.length) :
    (rootEntries host)[k + 2] = (k + 2, host[k].name) := by
  have hz : k < ((host.zipIdx 2).map fun f => (f.2, f.1.name)).length := by
    rwa [List.length_map, List.length_zipIdx]
  change ((host.zipIdx 2).map fun f => (f.2, f.1.name))[k] = _
  rw [List.getElem_map, List.getElem_zipIdx, Nat.add_comm]

theorem HostFile.name_ne (f : HostFile) : ∀ c ∈ f.name, c ≠ 0 := by
  intro c hc
  rw [HostFile.name] at hc
  split_ifs at hc
  · exact f.arg_ne c (List.mem_of_mem_tail hc)
  · exact f.arg_ne c hc

theorem rootEntries_cases (hk : k < (rootEntries host).length) :
    (rootEntries host)[k] = (if k < 2 then ROOTINO else k, (rootEntries host)[k].2) ∧
      ∀ c ∈ (rootEntries host)[k].2, c ≠ 0 := by
  match k with
  | 0 => exact ⟨rfl, (by decide +kernel : ∀ c ∈ ascii ['.'], c ≠ 0)⟩
  | 1 => exact ⟨rfl, (by decide +kernel : ∀ c ∈ ascii ['.', '.'], c ≠ 0)⟩
  | k + 2 =>
      have hk' : k < host.length := by
        rw [rootEntries_length] at hk
        omega
      rw [rootEntries_getElem hk hk', if_neg (by omega)]
      exact ⟨rfl, host[k].name_ne⟩

end Entries

section Finished

variable {s t : State} {host : List HostFile} {i k n : ℕ}

theorem ROOTINO_lt : ROOTINO < wide.ninodes := by decide

theorem Finished.root (h : Finished host s t) : Allocated wide (wide.dinode s.image) ROOTINO :=
  h.represents.allocated (Nat.succ_pos _)

theorem Finished.dinode (h : Finished host s t) : wide.dinode t.disk i =
    if i = ROOTINO then roundedRoot (wide.dinode s.image ROOTINO) else wide.dinode s.image i := by
  rw [h.disk]
  exact dinode_iupdate

theorem Finished.root_type (h : Finished host s t) :
    (wide.dinode t.disk ROOTINO).type = T_DIR ∧ (wide.dinode t.disk ROOTINO).type ≠ T_DEV := by
  have htype : (wide.dinode t.disk ROOTINO).type = T_DIR := by
    rw [h.dinode, if_pos rfl]
    exact (h.represents.holds 0 (Nat.succ_pos _)).1
  refine ⟨htype, ?_⟩
  rw [htype]
  decide

theorem Finished.allocated_root (h : Finished host s t) :
    Allocated wide (wide.dinode t.disk) ROOTINO := by
  refine ⟨ROOTINO_lt, ?_⟩
  rw [h.root_type.1]
  decide

theorem Finished.root_file (h : Finished host s t) :
    file wide s.image ROOTINO = direntBytes (rootEntries host) :=
  (h.represents.holds 0 (Nat.succ_pos _)).2.2

theorem Finished.size (h : Finished host s t) :
    (wide.dinode s.image ROOTINO).size.toNat = 16 * (host.length + 2) := by
  rw [← file_length, h.root_file, direntBytes_length, rootEntries_length]

theorem Finished.size_le (h : Finished host s t) :
    (wide.dinode s.image ROOTINO).size.toNat ≤ MAXFILE * BSIZE :=
  (blockCount_le _).mp (h.represents.consistent.count_le _ h.root)

theorem refs_roundedRoot (disk : Disk) :
    refs wide (Function.update (wide.dinode disk) ROOTINO (roundedRoot (wide.dinode disk ROOTINO)))
        disk = refs wide (wide.dinode disk) disk := by
  have hsame : refs wide (Function.update (wide.dinode disk) ROOTINO
      (roundedRoot (wide.dinode disk ROOTINO))) disk =
      refs wide (Function.update (wide.dinode disk) ROOTINO (wide.dinode disk ROOTINO)) disk :=
    refs_update_congr rfl rfl
  rw [hsame, Function.update_eq_self]

theorem Finished.refs_eq (h : Finished host s t) :
    refs wide (wide.dinode t.disk) t.disk = refs wide (wide.dinode s.image) s.image := by
  rw [h.disk]
  exact refs_replace ROOTINO_lt h.represents.consistent.owned (refs_roundedRoot _)

theorem Finished.fileByte (h : Finished host s t)
    (hne : refs wide (wide.dinode s.image) s.image (i, .data (n / BSIZE)) ≠ 0) :
    fileByte wide (wide.dinode t.disk) t.disk i n =
    fileByte wide (wide.dinode s.image) s.image i n := by
  rw [h.disk]
  exact fileByte_replace ROOTINO_lt h.represents.consistent.owned (refs_roundedRoot _) hne

theorem Finished.rounded (h : Finished host s t) :
    (wide.dinode t.disk ROOTINO).size.toNat = (16 * (host.length + 2) / BSIZE + 1) * BSIZE := by
  have hle := h.size_le
  rw [h.dinode, if_pos rfl]
  change (UInt32.ofNat (((wide.dinode s.image ROOTINO).size.toNat / BSIZE + 1) * BSIZE)).toNat = _
  rw [UInt32.toNat_ofNat', Nat.mod_eq_of_lt, h.size]
  change _ ≤ 140 * 512 at hle
  change (_ / 512 + 1) * 512 < 2 ^ 32
  omega

theorem Finished.lt_rounded (h : Finished host s t) :
    16 * (host.length + 2) < (wide.dinode t.disk ROOTINO).size.toNat := by
  rw [h.rounded]
  change _ < (_ / 512 + 1) * 512
  omega

theorem Finished.present (h : Finished host s t) (hn : n < 16 * (host.length + 2)) :
    refs wide (wide.dinode s.image) s.image (ROOTINO, .data (n / BSIZE)) ≠ 0 :=
  (h.represents.consistent.blocks _ h.root _).mpr (lt_blockCount (h.size.symm ▸ hn))

theorem Finished.take_file (h : Finished host s t) :
    (file wide t.disk ROOTINO).take (16 * (host.length + 2)) = direntBytes (rootEntries host) := by
  rw [← h.root_file, file, file, ← List.map_take, List.take_range,
    min_eq_left h.lt_rounded.le, h.size]
  apply List.map_congr_left
  intro m hm
  exact h.fileByte (h.present (List.mem_range.mp hm))

theorem Finished.entry (h : Finished host s t) (hk : k < (rootEntries host).length) :
    rootEntry t.disk k = dirent (rootEntries host)[k].1 (rootEntries host)[k].2 := by
  have hlen : 16 * k + 16 ≤ 16 * (host.length + 2) := by
    rw [rootEntries_length] at hk
    omega
  rw [← take_direntBytes hk, ← h.take_file, List.drop_take, List.take_take, min_eq_left (by omega)]
  rfl

theorem Finished.blank (h : Finished host s t) (hk : host.length + 2 ≤ k)
    (hne : refs wide (wide.dinode t.disk) t.disk (ROOTINO, .data (16 * k / BSIZE)) ≠ 0) :
    direntInum (rootEntry t.disk k) = 0 := by
  have hbyte : ∀ b < 2, (rootEntry t.disk k).getD b 0 = 0 := by
    intro b hb
    have hblock : (16 * k + b) / BSIZE = 16 * k / BSIZE := by
      change (16 * k + b) / 512 = 16 * k / 512
      omega
    rw [List.getD_eq_getElem?_getD, rootEntry, List.getElem?_take_of_lt (by omega),
      List.getElem?_drop, file_getElem?]
    split_ifs
    · rw [h.refs_eq, ← hblock] at hne
      rw [h.fileByte hne]
      exact h.represents.padded _ h.root _ (by rw [h.size]; omega) hne
    · rfl
  rw [direntInum, hbyte 0 (by decide), hbyte 1 (by decide)]
  rfl

theorem Finished.readEntry (h : Finished host s t) (devsw : Devsw)
    (hk : k < (rootEntries host).length) :
    readi sb devsw t.disk (wide.dinode t.disk ROOTINO) (UInt32.ofNat (16 * k)) 16 =
      .ok ((16, dirent (rootEntries host)[k].1 (rootEntries host)[k].2),
        wide.dinode t.disk ROOTINO, t.disk) := by
  have hlen : (rootEntries host).length = host.length + 2 := rootEntries_length
  have hlt := h.lt_rounded
  have hle := h.size_le
  rw [h.size] at hle
  change _ ≤ 140 * 512 at hle
  have hoff : (UInt32.ofNat (16 * k)).toNat = 16 * k := by
    rw [UInt32.toNat_ofNat', Nat.mod_eq_of_lt (by omega)]
  have hfit : ¬ (UInt32.ofNat (16 * k) > (wide.dinode t.disk ROOTINO).size ∨
      UInt32.ofNat (16 * k) + 16 < UInt32.ofNat (16 * k)) := by
    rw [gt_iff_lt, UInt32.lt_iff_toNat_lt, UInt32.lt_iff_toNat_lt, UInt32.toNat_add, hoff]
    change ¬ (_ ∨ (16 * k + 16) % 2 ^ 32 < _)
    omega
  have hblocks : ∀ m, (UInt32.ofNat (16 * k)).toNat ≤ m →
      m < (UInt32.ofNat (16 * k)).toNat + (16 : UInt32).toNat →
      m < (wide.dinode t.disk ROOTINO).size.toNat →
      refs wide (wide.dinode t.disk) t.disk (ROOTINO, .data (m / BSIZE)) ≠ 0 := by
    intro m _ hm _
    rw [hoff] at hm
    change m < 16 * k + 16 at hm
    rw [h.refs_eq]
    exact h.present (by omega)
  have hread : readi wide devsw t.disk (wide.dinode t.disk ROOTINO)
      (UInt32.ofNat (16 * k)) 16 = _ :=
    readi_present h.allocated_root h.root_type.2 hblocks
  have hentry : ((file wide t.disk ROOTINO).drop (16 * k)).take 16 = _ := h.entry hk
  rw [if_neg hfit, hoff, readi_wide] at hread
  change readi _ _ _ _ _ _ = .ok (((((file wide t.disk ROOTINO).drop (16 * k)).take 16).length,
    ((file wide t.disk ROOTINO).drop (16 * k)).take 16), _, _) at hread
  rw [hread, hentry, dirent_length]
  rfl

theorem Finished.inum (h : Finished host s t) (hk : k < (rootEntries host).length) :
    direntInum (dirent (rootEntries host)[k].1 (rootEntries host)[k].2) = (rootEntries host)[k].1 ∧
      (rootEntries host)[k].1 ≠ 0 := by
  have hlen : (rootEntries host).length = host.length + 2 := rootEntries_length
  have hle := h.size_le
  rw [h.size] at hle
  change _ ≤ 140 * 512 at hle
  have hinum : (rootEntries host)[k].1 = if k < 2 then ROOTINO else k :=
    congrArg Prod.fst (rootEntries_cases hk).1
  have hrange : (rootEntries host)[k].1 < 2 ^ 16 ∧ (rootEntries host)[k].1 ≠ 0 := by
    rw [hinum]
    split_ifs
    · exact ⟨by decide, by decide⟩
    · omega
  exact ⟨direntInum_dirent hrange.1, hrange.2⟩

/-- The entries differ within `DIRSIZ` bytes. -/
def Distinct (host : List HostFile) : Prop :=
  ((rootEntries host).map fun e => e.2.take DIRSIZ).Nodup

instance (host : List HostFile) : Decidable (Distinct host) :=
  inferInstanceAs (Decidable (List.Nodup _))

theorem Finished.lookupStep (h : Finished host s t) (devsw : Devsw)
    (hk : k < (rootEntries host).length) {name fname : Bytes} (hname : name.length = DIRSIZ)
    (hs : cString name = fname.take DIRSIZ) :
    lookupFrom devsw (wide.dinode t.disk ROOTINO).size.toNat name t.disk
    (wide.dinode t.disk ROOTINO)
      (16 * k) =
      if fname.take DIRSIZ = (rootEntries host)[k].2.take DIRSIZ then
        .ok (some ((rootEntries host)[k].1, 16 * k), wide.dinode t.disk ROOTINO, t.disk)
      else lookupFrom devsw (wide.dinode t.disk ROOTINO).size.toNat name t.disk
        (wide.dinode t.disk ROOTINO) (16 * (k + 1)) := by
  obtain ⟨hinum, hne⟩ := h.inum hk
  have hlen : (rootEntries host).length = host.length + 2 := rootEntries_length
  have hlt := h.lt_rounded
  have hcmp := namecmp_eq_zero_iff hname (padded_length (rootEntries host)[k].2) hs
    (cString_padded (rootEntries_cases hk).2)
  rw [lookupFrom, if_pos (by omega), h.readEntry devsw hk]
  dsimp only
  rw [hinum, if_neg (fun h => h rfl), if_neg hne, direntName_dirent]
  by_cases heq : fname.take DIRSIZ = (rootEntries host)[k].2.take DIRSIZ
  · rw [if_pos (hcmp.mpr heq), if_pos heq]
  · rw [if_neg (mt hcmp.mp heq), if_neg heq]
    rfl

theorem Finished.lookup (h : Finished host s t) (devsw : Devsw) {m : ℕ}
    (hm : m < (rootEntries host).length)
    (hfirst : ∀ k (hk : k < (rootEntries host).length), k < m →
      (rootEntries host)[m].2.take DIRSIZ ≠ (rootEntries host)[k].2.take DIRSIZ)
    {name : Bytes} (hname : name.length = DIRSIZ)
    (hs : cString name = (rootEntries host)[m].2.take DIRSIZ) :
    dirlookup devsw t.disk (wide.dinode t.disk ROOTINO) name =
      .ok (some ((rootEntries host)[m].1, 16 * m), wide.dinode t.disk ROOTINO, t.disk) := by
  have hfrom : ∀ d k, k + d = m →
      lookupFrom devsw (wide.dinode t.disk ROOTINO).size.toNat name t.disk
        (wide.dinode t.disk ROOTINO) (16 * k) =
        .ok (some ((rootEntries host)[m].1, 16 * m), wide.dinode t.disk ROOTINO, t.disk) := by
    intro d
    induction d with
    | zero =>
        intro k hk
        obtain rfl : k = m := hk
        rw [h.lookupStep devsw hm hname hs]
        exact if_pos rfl
    | succ d ih =>
        intro k hk
        have hkm : k < (rootEntries host).length := by omega
        rw [h.lookupStep devsw hkm hname hs, if_neg (hfirst k hkm (by omega))]
        exact ih (k + 1) (by omega)
  rw [dirlookup, if_neg (not_not.mpr h.root_type.1)]
  exact hfrom m 0 (Nat.zero_add m)

theorem Distinct.ne {m : ℕ} (h : Distinct host) (hk : k < (rootEntries host).length)
    (hm : m < (rootEntries host).length) (hlt : k < m) :
    (rootEntries host)[m].2.take DIRSIZ ≠ (rootEntries host)[k].2.take DIRSIZ := by
  have hne := List.pairwise_iff_getElem.mp h k m (by rwa [List.length_map])
    (by rwa [List.length_map]) hlt
  rw [List.getElem_map, List.getElem_map] at hne
  exact hne.symm

theorem Finished.read (h : Finished host s t) (devsw : Devsw) (hk : k < host.length)
    (off n : UInt32) :
    readi sb devsw t.disk (wide.dinode t.disk (k + 2)) off n =
      .ok (answer host[k].content off n, wide.dinode t.disk (k + 2), t.disk) := by
  have hk' : k + 1 < (imageFiles host).length := by
    rw [imageFiles, List.length_cons, List.length_map]
    omega
  have hne : k + 1 + 1 ≠ ROOTINO := by
    change k + 1 + 1 ≠ 1
    omega
  have halloc := h.represents.allocated hk'
  have hdinode : wide.dinode t.disk (k + 1 + 1) = wide.dinode s.image (k + 1 + 1) := by
    rw [h.dinode, if_neg hne]
  have hfile : file wide t.disk (k + 1 + 1) = host[k].content := by
    have hold := (h.represents.holds (k + 1) hk').2.2
    have helem : (imageFiles host)[k + 1].2 = host[k].content := by
      have hlen : k < (host.map fun f => (T_FILE, f.content)).length := by rwa [List.length_map]
      change (host.map fun f => (T_FILE, f.content))[k].2 = _
      rw [List.getElem_map]
    rw [h.disk, file_replace ROOTINO_lt h.represents.consistent (refs_roundedRoot _) halloc hne,
      hold,
      helem]
  refine readi_file devsw ⟨halloc.1, ?_⟩ ?_ hfile fun m hm => ?_
  · rw [hdinode]
    exact halloc.2
  · rw [hdinode]
    exact (h.represents.kind hk').2
  · rw [h.refs_eq]
    rw [hdinode] at hm
    exact (h.represents.consistent.blocks _ halloc _).mpr (lt_blockCount hm)

def noDevices : Devsw := ⟨fun _ => none, fun _ => none⟩

end Finished

end Mkfs

end Xv6Fairness
