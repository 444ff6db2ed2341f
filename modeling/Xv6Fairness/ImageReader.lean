import Mathlib.Order.Interval.Finset.Nat
import Xv6Fairness.ImageDirectory

/-!
# The kernel's reader of a disk image

As long as the inode blocks have room for the inode numbers, the kernel reads every file back and
finds it under its name. `mkfs` does not stop there: inode 208 lies in the block of the bitmap,
which is written last, so that its size and its addresses are read from the bits.
-/

namespace Xv6Fairness

open ByteBlocks ByteStrings Outcomes Ownership FileBlocks

namespace Mkfs

section Counters

variable {s : State} {din : Dinode} {inum n : ℕ} {src : ℕ → UInt8} {type : Int16}

theorem rsect_ends (sec : ℕ) : Ends (fun _ => True) (rsect s sec) fun _ => True := by
  rw [rsect]
  exact .ite (fun _ => .ok trivial) fun _ => .error trivial

theorem rinode_ends : Ends (fun _ => True) (rinode s inum) fun _ => True := by
  rw [rinode]
  exact (rsect_ends _).bind fun _ _ => .ok trivial

theorem winode_freeblock :
    Ends (fun _ => True) (winode s inum din) fun t => t.freeblock = s.freeblock := by
  rw [winode]
  exact (rsect_ends _).bind fun _ _ => .ok rfl

theorem directBlock_freeblock (fbn : ℕ) : s.freeblock ≤ (directBlock s fbn din).2.2.freeblock := by
  rw [directBlock]
  split_ifs
  · exact Nat.le_succ _
  · exact le_rfl

theorem indirectAddr_freeblock : s.freeblock ≤ (indirectAddr s din).2.freeblock := by
  rw [indirectAddr]
  split_ifs
  · exact Nat.le_succ _
  · exact le_rfl

theorem fileBlock_freeblock (fbn : ℕ) :
    Ends (fun _ => True) (fileBlock s fbn din) fun r => s.freeblock ≤ r.2.2.freeblock := by
  rw [fileBlock]
  split_ifs
  · exact .ok (directBlock_freeblock fbn)
  · have hle : s.freeblock ≤ (indirectAddr s din).2.freeblock := indirectAddr_freeblock
    change Ends _ (indirectEntry (indirectAddr s din).2 _ (indirectAddr s din).1) _
    rw [indirectEntry]
    apply (rsect_ends _).bind
    intro indirect _
    exact .ite (fun _ => .ok (hle.trans (Nat.le_succ _))) fun _ => .ok hle

theorem appendLoop_freeblock (n : ℕ) : ∀ (s : State) (din : Dinode) (src : ℕ → UInt8) (off : ℕ),
    Ends (fun _ => True) (appendLoop s din src off n) fun r => s.freeblock ≤ r.2.2.freeblock := by
  induction n using Nat.strong_induction_on with
  | _ n ih =>
      intro s din src off
      by_cases hn : n = 0
      · rw [appendLoop, if_pos hn]
        exact .ok le_rfl
      rw [appendLoop, if_neg hn]
      apply Ends.ite
      · intro _
        apply (fileBlock_freeblock _).bind
        rintro ⟨x, ip, s₁⟩ hle
        apply (rsect_ends _).bind
        intro buf _
        have hpos := chunk_pos off n hn
        exact (ih _ (by omega) _ _ _ _).imp fun r hr => hle.trans hr
      · exact fun _ => .error trivial

theorem iappend_freeblock :
    Ends (fun _ => True) (iappend s inum n src) fun t => s.freeblock ≤ t.freeblock := by
  rw [iappend]
  apply rinode_ends.bind
  intro din _
  apply (appendLoop_freeblock _ _ _ _ _).bind
  rintro ⟨off, ip, s₁⟩ hle
  exact winode_freeblock.imp fun t ht => hle.trans_eq ht.symm

theorem ialloc_freeblock :
    Ends (fun _ => True) (ialloc s type) fun r => r.2.freeblock = s.freeblock := by
  rw [ialloc]
  exact winode_freeblock.bind fun t ht => .ok ht

theorem run_freeblock (calls : List Call) :
    Ends (fun _ => True) (run s calls) fun t => s.freeblock ≤ t.freeblock := by
  refine Ends.foldlM (fun t : State => s.freeblock ≤ t.freeblock) calls le_rfl fun t call ht => ?_
  cases call with
  | ialloc type => exact ialloc_freeblock.bind fun r hr => .ok (ht.trans_eq hr.symm)
  | iappend inum p => exact iappend_freeblock.imp fun u hu => ht.trans hu

theorem addFile_freeblock (f : HostFile) :
    Ends (fun _ => True) (addFile s f) fun t => s.freeblock ≤ t.freeblock := by
  rw [addFile]
  apply Ends.ite
  · exact fun _ => .error trivial
  intro _
  apply Ends.ite
  · exact fun _ => .error trivial
  intro _
  apply ialloc_freeblock.bind
  rintro ⟨i, t⟩ ht
  apply (iappend_freeblock (s := t)).bind
  intro u hu
  refine Ends.foldlM (fun v : State => s.freeblock ≤ v.freeblock) f.chunks (ht.symm.trans_le hu)
    fun v c hv => ?_
  exact iappend_freeblock.imp fun w hw => hv.trans hw

theorem fixRoot_freeblock : Ends (fun _ => True)
    (fixRoot s) fun t => t.freeblock = s.freeblock := by
  rw [fixRoot]
  exact rinode_ends.bind fun _ _ => winode_freeblock

end Counters

section Bits

variable {m n j : ℕ}

theorem byteAt_bitmap (hj : 8 * j + 8 ≤ m) (hm : m ≤ n) :
    (bitmap n).byteAt j = (bitmap m).byteAt j := by
  induction n, hm using Nat.le_induction with
  | base => rfl
  | succ n hle ih =>
      rw [bitmap_succ, Block.setBit, Block.byteAt_patch_of_not_mem (by omega), ih]

theorem bitmap_type (hn : 16 ≤ n) : (Dinode.get (bitmap n) 0).type = -1 := by
  have hword : (bitmap n).getWord 2 0 = (bitmap 16).getWord 2 0 :=
    Block.getWord_congr fun j _ hj => byteAt_bitmap (by omega) hn
  change Dinode.getShort (bitmap n) 0 = -1
  rw [Dinode.getShort, hword]
  decide +kernel

theorem bitmap_size_zero : ∀ n ≤ 64, (Dinode.get (bitmap n) 0).size = 0 := by decide +kernel

theorem bitmap_size_some : ∀ n ≤ 96, 64 < n →
    (Dinode.get (bitmap n) 0).size ≠ 0 ∧ (Dinode.get (bitmap n) 0).addr 0 = 0 := by
  decide +kernel

theorem bitmap_size_full (hn : 96 ≤ n) : (Dinode.get (bitmap n) 0).size = 4294967295 := by
  have hword : (bitmap n).getWord 4 8 = (bitmap 96).getWord 4 8 :=
    Block.getWord_congr fun j _ hj => byteAt_bitmap (by omega) hn
  change UInt32.ofNat ((bitmap n).getWord 4 8) = _
  rw [hword]
  decide +kernel

end Bits

section Reading

variable {L : Layout} {disk disk' : Disk} {ip : Dinode} {off n bn used : ℕ} {devsw : Devsw}

theorem lt_of_bmap_ok {r : ℕ × Dinode × Disk} (h : bmap L disk ip bn = .ok r) : bn < MAXFILE := by
  change bn < 12 + 128
  rw [bmap] at h
  split_ifs at h with hdirect _ hindirect
  · change bn < 12 at hdirect
    omega
  · change bn < 12 at hdirect
    omega
  · change bn - 12 < 128 at hindirect
    omega

theorem le_of_readLoop_ok (n : ℕ) : ∀ {disk : Disk} {ip : Dinode} {off : ℕ}
    {r : List UInt8 × Dinode × Disk}, readLoop L disk ip off n = .ok r → n ≠ 0 →
      off + n ≤ MAXFILE * BSIZE := by
  induction n using Nat.strong_induction_on with
  | _ n ih =>
      intro disk ip off r h hn
      rw [readLoop, if_neg hn] at h
      obtain ⟨⟨addr, ip₁, disk₁⟩, hbmap, h⟩ := exists_of_bind_ok h
      obtain ⟨r', hrest, -⟩ := exists_of_bind_ok h
      have hlt := lt_of_bmap_ok hbmap
      change off / 512 < 140 at hlt
      have hpos : 0 < min n (BSIZE - off % BSIZE) := FileBlocks.chunk_pos hn
      change 0 < min n (512 - off % 512) at hpos
      change readLoop L disk₁ ip₁ (off + min n (512 - off % 512)) (n - min n (512 - off % 512)) = _
        at hrest
      change off + n ≤ 140 * 512
      by_cases hlast : n - min n (512 - off % 512) = 0
      · omega
      · have hle : _ ≤ 140 * 512 := ih _ (by omega) hrest hlast
        omega

theorem readi_full_ne {r : (ℤ × List UInt8) × Dinode × Disk} (htype : ip.type ≠ T_DEV)
    (hsize : ip.size = 4294967295) : readi L devsw disk ip 0 4294967295 ≠ .ok r := by
  intro h
  have hfit : ¬ ((0 : UInt32) > 4294967295 ∨ (0 : UInt32) + 4294967295 < 0) := by decide
  have hall : ¬ (0 : UInt32) + 4294967295 > 4294967295 := by decide
  rw [readi, if_neg htype, hsize, if_neg hfit, if_neg hall] at h
  obtain ⟨r', hloop, -⟩ := exists_of_bind_ok h
  have hle := le_of_readLoop_ok _ hloop (by decide)
  exact absurd hle (by decide)

theorem readi_blank_ne {a : ℤ × List UInt8} (htype : ip.type ≠ T_DEV) (hsize : ip.size ≠ 0)
    (haddr : ip.addr 0 = 0) (hlow : ∀ c < L.datastart, L.Used disk c) :
    readi L devsw disk ip 0 1 ≠ .ok (a, ip, disk') := by
  intro h
  have hfit : ¬ ((0 : UInt32) > ip.size ∨ (0 : UInt32) + 1 < 0) := by
    rintro (hlt | hlt)
    · exact absurd hlt (UInt32.not_lt.mpr UInt32.zero_le)
    · exact absurd hlt (by decide)
  have hone : ¬ (0 : UInt32) + 1 > ip.size := by
    intro hlt
    apply hsize
    apply UInt32.toNat_inj.mp
    rw [gt_iff_lt, UInt32.lt_iff_toNat_lt] at hlt
    change _ < 1 at hlt
    change _ = 0
    omega
  have hdirect : (0 : UInt32).toNat / BSIZE < NDIRECT := by decide
  have hzero : ip.addr ((0 : UInt32).toNat / BSIZE) = 0 := haddr
  rw [readi, if_neg htype, if_neg hfit, if_neg hone] at h
  obtain ⟨r, hloop, hr⟩ := exists_of_bind_ok h
  rw [readLoop, if_neg (by decide), bmap, if_pos hdirect, if_pos hzero] at hloop
  obtain ⟨⟨b, ip₁, disk₁⟩, hbmap, hloop⟩ := exists_of_bind_ok hloop
  obtain ⟨⟨b', disk₂⟩, hballoc, hbmap⟩ := exists_of_bind_ok hbmap
  obtain ⟨r', hrest, hloop⟩ := exists_of_bind_ok hloop
  have htaken := (balloc_spec hlow).of_ok hballoc
  cases hbmap
  change readLoop L disk₁ (ip.setAddr 0 b) 1 0 = _ at hrest
  rw [readLoop, if_pos rfl] at hrest
  cases hrest
  cases hloop
  have hip : ip.setAddr 0 b = ip := congrArg (fun r => r.2.1) (Except.ok.inj hr)
  have hself : (ip.setAddr 0 b).addr 0 = b := by
    rw [Dinode.addr_setAddr (Nat.zero_le _) (htaken.lt.trans (L.size_lt.trans (by decide))),
      if_pos rfl]
  rw [hip, haddr] at hself
  exact htaken.free (hself ▸ hlow 0 L.datastart_pos)

end Reading

section Late

variable {s t : State} {files : Files} {k n : ℕ} {disk : Disk} {ip : Dinode} {devsw : Devsw}

/-- The kernel reads these bytes from inode `i` and leaves the inode and the disk alone. -/
def Reads (devsw : Devsw) (disk : Disk) (i : ℕ) (bytes : Bytes) : Prop :=
  ∀ off n, readi sb devsw disk (sb.dinode disk i) off n =
    .ok (answer bytes off n, sb.dinode disk i, disk)

/-- `dirlookup` finds inode `i`, by its own entry, under the name as far as it is kept. -/
def Finds (devsw : Devsw) (disk : Disk) (name : Bytes) (i : ℕ) : Prop :=
  ∀ padded : Bytes, padded.length = DIRSIZ → cString padded = name.take DIRSIZ →
    dirlookup devsw disk (sb.dinode disk ROOTINO) padded =
      .ok (some (i, 16 * i), sb.dinode disk ROOTINO, disk)

theorem iblock_lt_iff : sb.IBLOCK n < sb.bmapstart ↔ n < wide.ninodes := by
  change n / 8 + 32 < 58 ↔ n < 208
  omega

theorem readi_empty (htype : ip.type ≠ T_DEV) (hsize : ip.size = 0) :
    readi sb devsw disk ip 0 1 = .ok ((0, []), ip, disk) := by
  rw [readi, if_neg htype, hsize, if_neg (by decide)]
  change (readLoop sb disk ip 0 0).bind _ = _
  rw [readLoop, if_pos rfl]
  rfl

theorem balloc_disk (h : balloc s s.freeblock = .ok t) :
    t.disk sb.bmapstart = bitmap s.freeblock ∧ s.freeblock ≤ BPB := by
  rw [balloc] at h
  split_ifs at h with hlt
  cases h
  have hsector : sector sb.bmapstart = sb.bmapstart := by decide
  refine ⟨?_, hlt.le⟩
  change Function.update s.disk (sector sb.bmapstart) (bitmap s.freeblock) sb.bmapstart = _
  rw [hsector, Function.update_self]

/-- Inode 208 is lost when the bitmap is written, unless nothing was to be read and nothing is. -/
theorem not_reads_late {bytes : Bytes} (h : balloc s s.freeblock = .ok t)
    (hlow : nmeta ≤ s.freeblock) (hbytes : 64 < s.freeblock ∨ bytes ≠ []) :
    ¬ Reads devsw t.disk 208 bytes := by
  intro hreads
  obtain ⟨hblock, hhigh⟩ := balloc_disk h
  have hinode : sb.dinode t.disk 208 = Dinode.get (bitmap s.freeblock) 0 :=
    congrArg (fun b => Dinode.get b 0) hblock
  rw [Reads, hinode] at hreads
  change 59 ≤ s.freeblock at hlow
  have htype : (Dinode.get (bitmap s.freeblock) 0).type ≠ T_DEV := by
    rw [bitmap_type (by omega)]
    decide
  by_cases hsmall : s.freeblock ≤ 64
  · have hne : bytes ≠ [] := hbytes.resolve_left (not_lt.mpr hsmall)
    obtain ⟨b, rest, rfl⟩ := List.exists_cons_of_ne_nil hne
    have hread := hreads 0 1
    rw [readi_empty htype (bitmap_size_zero _ hsmall)] at hread
    have hanswer : answer (b :: rest) 0 1 = (1, [b]) :=
      if_neg (by rintro (hlt | hlt) <;> exact absurd hlt (by simp))
    rw [hanswer] at hread
    cases hread
  · by_cases hmiddle : s.freeblock ≤ 96
    · obtain ⟨hsize, haddr⟩ := bitmap_size_some _ hmiddle (not_le.mp hsmall)
      refine readi_blank_ne htype hsize haddr (fun c hc => ?_) (hreads 0 1)
      change c < 59 at hc
      have hbblock : sb.BBLOCK c = sb.bmapstart := by
        change c / 4096 + 58 = 58
        omega
      have hmod : c % BPB = c := Nat.mod_eq_of_lt (by change c < 4096; omega)
      rw [Layout.Used, hbblock, hblock, hmod, hasBit_bitmap hhigh]
      omega
    · exact readi_full_ne htype (bitmap_size_full (not_le.mp hmiddle).le) (hreads 0 4294967295)

theorem Represents.le_freeblock (h : Represents s files) (hk : k < files.length) :
    wide.datastart + blockCount (wide.dinode s.image (k + 1)) ≤ s.freeblock := by
  have halloc := h.allocated hk
  have hne : ∀ bn < blockCount (wide.dinode s.image (k + 1)),
      refs wide (wide.dinode s.image) s.image (k + 1, .data bn) ≠ 0 := fun bn hbn =>
    (h.consistent.blocks _ halloc bn).mpr hbn
  have hcard := Finset.card_le_card_of_injOn
    (s := Finset.range (blockCount (wide.dinode s.image (k + 1))))
    (t := Finset.Ico wide.datastart s.freeblock)
    (fun bn => refs wide (wide.dinode s.image) s.image (k + 1, .data bn))
    (fun bn hbn => by
      have hbn := hne bn (Finset.mem_range.mp hbn)
      exact Finset.mem_coe.mpr (Finset.mem_Ico.mpr
        ⟨(h.consistent.owned.range _ hbn).1, h.sound.lt_freeblock hbn⟩))
    (fun bn hbn bm _ heq => by
      have hbn := hne bn (Finset.mem_range.mp hbn)
      cases h.consistent.owned.unique _ _ hbn heq
      rfl)
  rw [Finset.card_range, Nat.card_Ico] at hcard
  have hlow := h.sound.low
  omega

end Late

section Agreement

variable {s t : State} {host : List HostFile} {k : ℕ} (devsw : Devsw)

theorem main_late (hlate : 207 ≤ host.length) (hmain : main host = .ok t) :
    ∃ s, 64 < s.freeblock ∧ balloc s s.freeblock = .ok t := by
  obtain ⟨s, hs, hrep⟩ := ialloc_spec newImage_represents (by decide) (.inl rfl : T_DIR = _ ∨ _)
  replace hs : ialloc newImage T_DIR = .ok (ROOTINO, s) := hs
  rw [main, hs, ok_bind] at hmain
  obtain ⟨s₁, happend₁, hmain⟩ := exists_of_bind_ok hmain
  obtain ⟨s₂, happend₂, hmain⟩ := exists_of_bind_ok hmain
  have h₁ := (appendRoot_spec hrep _).of_ok happend₁
  have h₂ := (appendRoot_spec h₁ _).of_ok happend₂
  -- the inode blocks have room for the first 206 files, whose entries take seven blocks
  rw [← List.take_append_drop 206 host, List.foldlM_append] at hmain
  obtain ⟨s₄, hfiles, hmain⟩ := exists_of_bind_ok hmain
  obtain ⟨s₃, hfirst, hrest⟩ := exists_of_bind_ok hfiles
  obtain ⟨s₅, hfix, hballoc⟩ := exists_of_bind_ok hmain
  have htake : (host.take 206).length = 206 := by
    rw [List.length_take]
    omega
  have hroom : ([] : Files).length + 1 + (host.take 206).length < wide.ninodes := by
    rw [htake]
    decide
  have h₃ := (addFiles_spec h₂ hroom).of_ok hfirst
  have hsize : (wide.dinode s₃.image (0 + 1)).size.toNat = 3328 := by
    rw [← file_length, (h₃.holds 0 (Nat.succ_pos _)).2.2]
    change (_ ++ direntBytes _).length = _
    rw [List.length_append, direntBytes_length, List.length_map, List.length_zipIdx, htake,
      List.length_append, List.length_append, dirent_length, dirent_length]
    rfl
  have hblocks := h₃.le_freeblock (Nat.succ_pos _)
  rw [blockCount, hsize] at hblocks
  replace hblocks : 66 ≤ s₃.freeblock :=
    (by decide : 66 ≤ wide.datastart + (3328 + BSIZE - 1) / BSIZE).trans hblocks
  have hgrown := (Ends.foldlM (fun t : State => s₃.freeblock ≤ t.freeblock) (host.drop 206) le_rfl
    fun t f ht => (addFile_freeblock f).imp fun u hu => ht.trans hu).of_ok hrest
  have hfixed := fixRoot_freeblock.of_ok hfix
  exact ⟨s₅, by omega, hballoc⟩

theorem exists_first (hdistinct : ¬ Distinct host) :
    ∃ m j, ∃ (hm : m < (rootEntries host).length) (hj : j < (rootEntries host).length), m < j ∧
      (rootEntries host)[m].2.take DIRSIZ = (rootEntries host)[j].2.take DIRSIZ ∧
      ∀ k (hk : k < (rootEntries host).length), k < m →
        (rootEntries host)[m].2.take DIRSIZ ≠ (rootEntries host)[k].2.take DIRSIZ := by
  have hpair : ∃ m, ∃ j, ∃ (hm : m < (rootEntries host).length)
      (hj : j < (rootEntries host).length), m < j ∧
      (rootEntries host)[m].2.take DIRSIZ = (rootEntries host)[j].2.take DIRSIZ := by
    by_contra hnone
    apply hdistinct
    rw [Distinct, List.Nodup, List.pairwise_iff_getElem]
    intro k j hk hj hlt heq
    rw [List.length_map] at hk hj
    rw [List.getElem_map, List.getElem_map] at heq
    exact hnone ⟨k, j, hk, hj, hlt, heq⟩
  classical
  obtain ⟨j, hm, hj, hlt, heq⟩ := Nat.find_spec hpair
  refine ⟨Nat.find hpair, j, hm, hj, hlt, heq, fun k hk hkm hsame => ?_⟩
  exact Nat.find_min hpair hkm ⟨Nat.find hpair, hk, hm, hkm, hsame.symm⟩

theorem Finished.not_finds (h : Finished host s t) (hdistinct : ¬ Distinct host) :
    ∃ k, ∃ hk : k < host.length, ¬ Finds devsw t.disk host[k].name (k + 2) := by
  obtain ⟨m, j, hm, hj, hlt, heq, hfirst⟩ := exists_first hdistinct
  obtain ⟨k, rfl⟩ : ∃ k, j = k + 2 := by
    match j with
    | 0 => exact absurd hlt (Nat.not_lt_zero m)
    | 1 =>
        obtain rfl : m = 0 := by omega
        exact absurd heq (by decide : (ascii ['.']).take DIRSIZ ≠ (ascii ['.', '.']).take DIRSIZ)
    | k + 2 => exact ⟨k, rfl⟩
  have hk : k < host.length := by
    rw [rootEntries_length] at hj
    omega
  refine ⟨k, hk, fun hfinds => ?_⟩
  have hname := cString_padded host[k].name_ne
  have hfound := hfinds _ (padded_length _) hname
  rw [rootEntries_getElem hj hk] at heq
  have hlookup := h.lookup devsw hm hfirst (padded_length host[k].name) (hname.trans heq.symm)
  have hsame := hfound.symm.trans hlookup
  have hoff : 16 * (k + 2) = 16 * m := by
    injection hsame with hsame
    exact congrArg Prod.snd (Option.some.inj (congrArg Prod.fst hsame))
  omega

/-- What any sequence of appends leaves in the inodes is read back, and `dirlookup` finds the files
that `main` is given, exactly as long as the inodes lie in the inode blocks. -/
theorem reader_agrees :
    (∀ calls s t, Proper 0 calls → run newImage calls = .ok s → balloc s s.freeblock = .ok t →
      (sb.IBLOCK (Files.run [] calls).length < sb.bmapstart →
        ∀ k (hk : k < (Files.run [] calls).length),
          Reads devsw t.disk (k + 1) (Files.run [] calls)[k].2) ∧
      ((∀ k (hk : k < (Files.run [] calls).length),
          Reads devsw t.disk (k + 1) (Files.run [] calls)[k].2) →
        sb.IBLOCK (Files.run [] calls).length < sb.bmapstart ∨
          ∃ hk : 207 < (Files.run [] calls).length, (Files.run [] calls)[207].2 = [])) ∧
    ∀ host t, main host = .ok t →
      ((∀ k (hk : k < host.length), Finds devsw t.disk host[k].name (k + 2) ∧
          Reads devsw t.disk (k + 2) host[k].content) ↔
        sb.IBLOCK (host.length + 1) < sb.bmapstart ∧ Distinct host) := by
  refine ⟨fun calls s t hproper hrun hballoc => ⟨fun hroom k hk off n => ?_, fun hreads => ?_⟩,
    fun host t hmain => ⟨fun hall => ?_, fun ⟨hroom, hdistinct⟩ k hk => ⟨?_, fun off n => ?_⟩⟩⟩
  · have hrep := (run_spec newImage_represents hproper (iblock_lt_iff.mp hroom)).of_ok hrun
    rw [(balloc_eq hrep.sound.sectors hballoc).1]
    exact hrep.read devsw hk
  · by_contra hnot
    obtain ⟨hroom, hempty⟩ := not_or.mp hnot
    have hk : 207 < (Files.run [] calls).length :=
      Nat.lt_of_succ_le (not_lt.mp fun hlt => hroom (iblock_lt_iff.mpr hlt))
    have hlow := newImage_counts.2.2.symm.trans_le ((run_freeblock calls).of_ok hrun)
    exact not_reads_late hballoc hlow (.inr fun hnil => hempty ⟨hk, hnil⟩) (hreads 207 hk)
  · have hroom : sb.IBLOCK (host.length + 1) < sb.bmapstart := by
      by_contra hfull
      have hlate : 208 ≤ host.length + 1 := not_lt.mp fun hlt => hfull (iblock_lt_iff.mpr hlt)
      obtain ⟨s, hblocks, hballoc⟩ := main_late (Nat.le_of_succ_le_succ hlate) hmain
      have hlow : nmeta ≤ s.freeblock := (by decide : nmeta ≤ 64).trans hblocks.le
      exact not_reads_late hballoc hlow (.inl hblocks) (hall 206 (Nat.lt_of_succ_lt_succ hlate)).2
    refine ⟨hroom, by_contra fun hdistinct => ?_⟩
    obtain ⟨s, h⟩ := (main_spec (iblock_lt_iff.mp hroom)).of_ok hmain
    obtain ⟨k, hk, hnot⟩ := h.not_finds devsw hdistinct
    exact hnot (hall k hk).1
  · obtain ⟨s, h⟩ := (main_spec (iblock_lt_iff.mp hroom)).of_ok hmain
    have hk' : k + 2 < (rootEntries host).length := by
      rw [rootEntries_length]
      omega
    intro name hname hs
    have hlookup := h.lookup devsw hk' (fun j hj => hdistinct.ne hj hk') hname
    rw [rootEntries_getElem hk' hk] at hlookup
    exact hlookup hs
  · obtain ⟨s, h⟩ := (main_spec (iblock_lt_iff.mp hroom)).of_ok hmain
    exact h.read devsw hk off n

/-- One file in the image, `_a` on the host. -/
def oneFile : HostFile := ⟨[95, 97], true, [[104, 105], [33]], by decide +kernel, by decide⟩

theorem reader_agrees_one_file :
    ∃ t, main [oneFile] = .ok t ∧
      dirlookup noDevices t.disk (sb.dinode t.disk ROOTINO) (97 :: List.replicate 13 0) =
        .ok (some (2, 32), sb.dinode t.disk ROOTINO, t.disk) ∧
      readi sb noDevices t.disk (sb.dinode t.disk 2) 1 5 =
        .ok ((2, [105, 33]), sb.dinode t.disk 2, t.disk) := by
  have hmain : (main [oneFile]).toOption.isSome = true := by decide +kernel
  obtain ⟨t, ht⟩ := Option.isSome_iff_exists.mp hmain
  have hdistinct : Distinct [oneFile] := by decide
  obtain ⟨hfinds, hreads⟩ := ((reader_agrees noDevices).2 [oneFile] t (ok_of_toOption ht)).mpr
    ⟨by decide, hdistinct⟩ 0 (by decide)
  have hread := hreads 1 5
  exact ⟨t, ok_of_toOption ht, hfinds _ (by decide) (by decide), hread⟩

def finish (calls : List Call) : Except Failure State := do
  let s ← run newImage calls
  balloc s s.freeblock

/-- 208 inodes are allocated and a byte is written to the last of them. -/
def lateCalls : List Call := List.replicate 208 (.ialloc T_FILE) ++ [.iappend 208 [7]]

theorem exists_finish {calls : List Call} {p : State → Bool}
    (h : (finish calls).toOption.any p = true) :
    ∃ s t, run newImage calls = .ok s ∧ balloc s s.freeblock = .ok t ∧ p t = true := by
  obtain ⟨t, ht, hp⟩ := (Option.any_eq_true _ _).mp h
  have hfinish := ok_of_toOption ht
  rw [finish] at hfinish
  obtain ⟨s, hrun, hballoc⟩ := exists_of_bind_ok hfinish
  exact ⟨s, t, hrun, hballoc, hp⟩

theorem reader_disagrees :
    ∃ s t, run newImage lateCalls = .ok s ∧ balloc s s.freeblock = .ok t ∧ Proper 0 lateCalls ∧
      (Files.run [] lateCalls)[207]? = some (T_FILE, [7]) ∧
      readi sb noDevices t.disk (sb.dinode t.disk 208) 0 1 =
        .ok ((0, []), sb.dinode t.disk 208, t.disk) ∧ answer [7] 0 1 = (1, [7]) := by
  have hrun : ((finish lateCalls).toOption.any fun t =>
      decide ((sb.dinode t.disk 208).type = -1 ∧ (sb.dinode t.disk 208).size = 0)) = true := by
    decide +kernel
  obtain ⟨s, t, hs, ht, hdinode⟩ := exists_finish hrun
  obtain ⟨htype, hsize⟩ := of_decide_eq_true hdinode
  have hproper : Proper 0 lateCalls := by decide +kernel
  have hfile : (Files.run [] lateCalls)[207]? = some (T_FILE, [7]) := by decide +kernel
  have hread : readi sb noDevices t.disk (sb.dinode t.disk 208) 0 1 =
      .ok ((0, []), sb.dinode t.disk 208, t.disk) :=
    readi_empty (by rw [htype]; decide) hsize
  exact ⟨s, t, hs, ht, hproper, hfile, hread, by decide⟩

end Agreement

end Mkfs

end Xv6Fairness
