import Mathlib.Data.Finset.Card
import Xv6Fairness.ImageReader

/-!
# The image that the kernel starts from

Each block below the end of a file has an address of its own among the data blocks, the bitmap marks
what has been handed out, and the links of an inode are its entries in the root directory other than
the `.` of the root itself. The last block of the root is there unless its entries fill whole
blocks, where the size is rounded up beyond them.
-/

namespace Xv6Fairness

open ByteBlocks ByteStrings Outcomes Ownership FileBlocks

namespace Mkfs

/-- The root's entry for itself, which is not counted as a link. -/
def OwnDot (inum : ℕ) (name : Bytes) : Prop := inum = ROOTINO ∧ cString name = ascii ['.']

instance (inum : ℕ) (name : Bytes) : Decidable (OwnDot inum name) :=
  inferInstanceAs (Decidable (_ ∧ _))

/-- The entries of the root directory that link inode `i`. -/
def links (disk : Disk) (i : ℕ) : Finset ℕ :=
  (Finset.range ((sb.dinode disk ROOTINO).size.toNat / 16)).filter fun k =>
    direntInum (rootEntry disk k) = i ∧ ¬ OwnDot i (direntName (rootEntry disk k))

section Image

variable {s t : State} {host : List HostFile} {i j k bn : ℕ} {p q : Place}

theorem Finished.owned (h : Finished host s t) :
    Owns wide.datastart wide.size (wide.Used s.image) (refs wide (wide.dinode t.disk) t.disk) := by
  rw [h.refs_eq]
  exact h.represents.consistent.owned

theorem Finished.blockCount_of_ne (h : Finished host s t) (hi : i ≠ ROOTINO) :
    blockCount (wide.dinode t.disk i) = blockCount (wide.dinode s.image i) := by
  rw [h.dinode, if_neg hi]

theorem Finished.blockCount_root (h : Finished host s t) (hfull : (host.length + 2) % 32 ≠ 0) :
    blockCount (wide.dinode t.disk ROOTINO) = blockCount (wide.dinode s.image ROOTINO) := by
  rw [blockCount, blockCount, h.rounded, h.size]
  change ((16 * (host.length + 2) / 512 + 1) * 512 + 512 - 1) / 512 =
    (16 * (host.length + 2) + 512 - 1) / 512
  omega

theorem Finished.named (h : Finished host s t) (hi : i < wide.ninodes)
    (hfull : i = ROOTINO → (host.length + 2) % 32 ≠ 0)
    (hbn : bn < blockCount (wide.dinode t.disk i)) :
    refs wide (wide.dinode t.disk) t.disk (i, .data bn) ≠ 0 := by
  have hcount : blockCount (wide.dinode t.disk i) = blockCount (wide.dinode s.image i) := by
    by_cases hroot : i = ROOTINO
    · subst hroot
      exact h.blockCount_root (hfull rfl)
    · exact h.blockCount_of_ne hroot
  rw [hcount] at hbn
  rw [h.refs_eq]
  by_cases halloc : (wide.dinode s.image i).type = 0
  · have hunused : i = 0 ∨ (imageFiles host).length < i := by
      by_contra hin
      obtain ⟨m, rfl⟩ := Nat.exists_eq_succ_of_ne_zero fun h => hin (.inl h)
      exact (h.represents.kind (not_lt.mp fun hlt => hin (.inr hlt))).1 halloc
    rw [blockCount_zero (h.represents.free i hi hunused).2] at hbn
    exact absurd hbn (Nat.not_lt_zero _)
  · exact (h.represents.consistent.blocks i ⟨hi, halloc⟩ _).mpr hbn

theorem Finished.bitmap (h : Finished host s t) :
    (t.disk wide.bmapstart).HasBit i ↔ i < t.freeblock := by
  have hblock : t.disk wide.bmapstart = Mkfs.bitmap s.freeblock := by
    rw [h.disk, iupdate, Layout.putDinode_of_bmapstart_le ROOTINO_lt le_rfl]
    exact Function.update_self _ _ _
  rw [hblock, hasBit_bitmap h.represents.sound.le_BPB, h.freeblock]

theorem Finished.entry_lt (h : Finished host s t) (hfull : (host.length + 2) % 32 ≠ 0)
    (hk : k < (wide.dinode t.disk ROOTINO).size.toNat / 16)
    (hne : direntInum (rootEntry t.disk k) ≠ 0) : k < (rootEntries host).length := by
  rw [rootEntries_length]
  by_contra hlt
  have hin : 16 * k < (wide.dinode t.disk ROOTINO).size.toNat := by omega
  exact hne (h.blank (not_lt.mp hlt) (h.named ROOTINO_lt (fun _ => hfull) (lt_blockCount hin)))

theorem Finished.entry_inum (h : Finished host s t) (hk : k < (rootEntries host).length) :
    direntInum (rootEntry t.disk k) = if k < 2 then ROOTINO else k := by
  rw [h.entry hk, (h.inum hk).1]
  exact congrArg Prod.fst (rootEntries_cases hk).1

theorem Finished.entry_name (h : Finished host s t) (hk : k < (rootEntries host).length) :
    cString (direntName (rootEntry t.disk k)) = (rootEntries host)[k].2.take DIRSIZ := by
  rw [h.entry hk, direntName_dirent, cString_padded (rootEntries_cases hk).2]

theorem Finished.links_eq (h : Finished host s t) (hfull : (host.length + 2) % 32 ≠ 0)
    (hk : k < (rootEntries host).length) :
    links t.disk (direntInum (rootEntry t.disk k)) = {max k 1} := by
  have hinum := h.entry_inum hk
  have hlen : (rootEntries host).length = host.length + 2 := rootEntries_length
  have hlt : 16 * (host.length + 2) < (sb.dinode t.disk ROOTINO).size.toNat := h.lt_rounded
  ext m
  rw [links, Finset.mem_filter, Finset.mem_range, Finset.mem_singleton]
  constructor
  · rintro ⟨hm, heq, hdot⟩
    have hne : direntInum (rootEntry t.disk m) ≠ 0 := by
      rw [heq, hinum]
      split_ifs with hlow
      · decide
      · omega
    have hin := h.entry_lt hfull hm hne
    have hpos : m ≠ 0 := by
      rintro rfl
      rw [h.entry_inum hin] at heq
      exact hdot ⟨heq.symm, h.entry_name hin⟩
    rw [h.entry_inum hin, hinum] at heq
    change (if m < 2 then 1 else m) = if k < 2 then 1 else k at heq
    split_ifs at heq <;> omega
  · rintro rfl
    have hin : max k 1 < (rootEntries host).length := by omega
    refine ⟨by omega, ?_, ?_⟩
    · rw [h.entry_inum hin, hinum]
      change (if max k 1 < 2 then 1 else max k 1) = if k < 2 then 1 else k
      split_ifs <;> omega
    · rintro ⟨hroot, hname⟩
      have hlow : k < 2 := by
        by_contra hhigh
        rw [hinum, if_neg hhigh] at hroot
        change k = 1 at hroot
        omega
      have hone : max k 1 = 1 := by omega
      simp only [hone] at hin hname
      rw [h.entry_name hin] at hname
      exact absurd hname (by decide : (ascii ['.', '.']).take DIRSIZ ≠ ascii ['.'])

theorem Finished.linked (h : Finished host s t) (hk : k < (rootEntries host).length) :
    Allocated wide (wide.dinode t.disk) (direntInum (rootEntry t.disk k)) ∧
      (wide.dinode t.disk (direntInum (rootEntry t.disk k))).nlink = 1 := by
  rw [rootEntries_length] at hk
  have hfiles : (imageFiles host).length = host.length + 1 := by
    rw [imageFiles, List.length_cons, List.length_map]
  obtain ⟨m, hm, hlt⟩ : ∃ m, direntInum (rootEntry t.disk k) = m + 1 ∧
      m < (imageFiles host).length := by
    rw [h.entry_inum (by rwa [rootEntries_length])]
    split_ifs with hlow
    · exact ⟨0, rfl, by omega⟩
    · exact ⟨k - 1, by omega, by omega⟩
  have halloc := h.represents.allocated hlt
  have hnlink := (h.represents.holds m hlt).2.1
  have hroot : ∀ d : Dinode, (roundedRoot d).type = d.type ∧ (roundedRoot d).nlink = d.nlink :=
    fun _ => ⟨rfl, rfl⟩
  rw [hm, Allocated, h.dinode]
  split_ifs with hone
  · rw [← hone, (hroot _).1, (hroot _).2]
    exact ⟨halloc, hnlink⟩
  · exact ⟨halloc, hnlink⟩

theorem refs_wide {T : ℕ → Dinode} {disk : Disk}
    (hfree : ∀ i, sb.ninodes ≤ i → i < wide.ninodes → (T i).type = 0) :
    refs sb T disk = refs wide T disk := by
  have hiff : ∀ i, Allocated sb T i ↔ Allocated wide T i := by
    intro i
    constructor
    · exact fun h => ⟨h.1.trans (by decide : sb.ninodes < wide.ninodes), h.2⟩
    · exact fun h => ⟨not_le.mp fun hle => h.2 (hfree i hle h.1), h.2⟩
  funext k
  simp only [refs, hiff]

theorem Finished.refs_sb (h : Finished host s t) (hroom : host.length + 1 < sb.ninodes) :
    refs sb (sb.dinode t.disk) t.disk = refs wide (wide.dinode t.disk) t.disk := by
  apply refs_wide
  intro i hi hlt
  have hfiles : (imageFiles host).length = host.length + 1 := by
    rw [imageFiles, List.length_cons, List.length_map]
  have hne : i ≠ ROOTINO := by
    rintro rfl
    exact absurd hi (by decide)
  have hdinode : wide.dinode t.disk i = wide.dinode s.image i := by
    rw [h.dinode, if_neg hne]
  change (wide.dinode t.disk i).type = 0
  rw [hdinode]
  exact (h.represents.free i hlt (.inr (by omega))).1

theorem image_trusted (hroom : host.length + 1 < sb.ninodes) (hmain : main host = .ok t) :
    (∀ i < sb.ninodes, (i = ROOTINO → (host.length + 2) % 32 ≠ 0) →
      ∀ bn < blockCount (sb.dinode t.disk i),
        refs sb (sb.dinode t.disk) t.disk (i, .data bn) ≠ 0 ∧
        nmeta ≤ refs sb (sb.dinode t.disk) t.disk (i, .data bn) ∧
        refs sb (sb.dinode t.disk) t.disk (i, .data bn) < FSSIZE) ∧
    (∀ i p j q, refs sb (sb.dinode t.disk) t.disk (i, p) ≠ 0 →
      refs sb (sb.dinode t.disk) t.disk (i, p) = refs sb (sb.dinode t.disk) t.disk (j, q) →
        i = j ∧ p = q) ∧
    (∀ b, (t.disk sb.bmapstart).HasBit b ↔ b < t.freeblock) ∧
    ((host.length + 2) % 32 ≠ 0 → ∀ k < (sb.dinode t.disk ROOTINO).size.toNat / 16,
      direntInum (rootEntry t.disk k) ≠ 0 →
        Allocated sb (sb.dinode t.disk) (direntInum (rootEntry t.disk k)) ∧
        (sb.dinode t.disk (direntInum (rootEntry t.disk k))).nlink.toInt =
          (links t.disk (direntInum (rootEntry t.disk k))).card) := by
  have hwide : sb.ninodes < wide.ninodes := by decide
  obtain ⟨s, h⟩ := (main_spec (hroom.trans hwide)).of_ok hmain
  rw [h.refs_sb hroom]
  refine ⟨fun i hi hfull bn hbn => ?_, fun i p j q hne heq => ?_, fun _ => h.bitmap,
    fun hfull k hk hne => ?_⟩
  · have hne := h.named (hi.trans hwide) hfull hbn
    have hrange := h.owned.range _ hne
    exact ⟨hne, (by decide : nmeta ≤ wide.datastart).trans hrange.1, hrange.2⟩
  · have hpair := h.owned.unique _ _ hne heq
    exact ⟨congrArg Prod.fst hpair, congrArg Prod.snd hpair⟩
  · have hlt := h.entry_lt hfull hk hne
    obtain ⟨halloc, hnlink⟩ := h.linked hlt
    have hinum : direntInum (rootEntry t.disk k) < sb.ninodes := by
      rw [h.entry_inum hlt]
      rw [rootEntries_length] at hlt
      split_ifs
      · decide
      · omega
    refine ⟨⟨hinum, halloc.2⟩, ?_⟩
    change (wide.dinode t.disk _).nlink.toInt = _
    rw [hnlink, h.links_eq hfull hlt, Finset.card_singleton]
    rfl

theorem image_trusted_one_file :
    ∃ t, main [oneFile] = .ok t ∧ refs sb (sb.dinode t.disk) t.disk (2, .data 0) ≠ 0 ∧
      ((t.disk sb.bmapstart).HasBit 60 ↔ 60 < t.freeblock) ∧
      (sb.dinode t.disk (direntInum (rootEntry t.disk 2))).nlink.toInt =
        (links t.disk (direntInum (rootEntry t.disk 2))).card := by
  have hmain : ((main [oneFile]).toOption.any fun t => decide (0 < blockCount (sb.dinode t.disk 2) ∧
      2 < (sb.dinode t.disk ROOTINO).size.toNat / 16 ∧ direntInum (rootEntry t.disk 2) ≠ 0)) =
        true := by
    decide +kernel
  obtain ⟨t, ht, hsmall⟩ := (Option.any_eq_true _ _).mp hmain
  obtain ⟨hcount, hsize, hne⟩ := of_decide_eq_true hsmall
  obtain ⟨hblocks, -, hbits, hentries⟩ :=
    image_trusted (by decide : [oneFile].length + 1 < sb.ninodes)
    (ok_of_toOption ht)
  exact ⟨t, ok_of_toOption ht, (hblocks 2 (by decide) (fun h => absurd h (by decide)) 0 hcount).1,
    hbits 60, (hentries (by decide) 2 hsize hne).2⟩

/-- Both entries of an empty root name it, and it has one link. -/
theorem root_named_twice :
    ∃ t, main [] = .ok t ∧ (sb.dinode t.disk ROOTINO).nlink = 1 ∧
      direntInum (rootEntry t.disk 0) = ROOTINO ∧ direntInum (rootEntry t.disk 1) = ROOTINO := by
  have hmain : ((main []).toOption.any fun t => decide ((sb.dinode t.disk ROOTINO).nlink = 1 ∧
      direntInum (rootEntry t.disk 0) = ROOTINO ∧ direntInum (rootEntry t.disk 1) = ROOTINO)) =
      true := by
    decide +kernel
  obtain ⟨t, ht, hroot⟩ := (Option.any_eq_true _ _).mp hmain
  exact ⟨t, ok_of_toOption ht, of_decide_eq_true hroot⟩

end Image

end Mkfs

end Xv6Fairness
