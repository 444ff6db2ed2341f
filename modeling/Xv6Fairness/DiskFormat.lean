import Mathlib.Logic.Function.Basic
import Xv6Fairness.DiskLayout

/-!
# Bitmap and inodes on the disk

`balloc` and `bfree` read and write bits of the bitmap, `ialloc`, `iupdate` and `ilock` the inodes
in their blocks. The disk is what `bread` returns for its blocks. Neither the bitmap nor the inodes
overlap with each other or with the data blocks.
-/

namespace Xv6Fairness

open ByteBlocks

abbrev Disk := ℕ → DiskBlock

def NDIRECT : ℕ := 12

def NINDIRECT : ℕ := BSIZE / 4

def MAXFILE : ℕ := NDIRECT + NINDIRECT

/-- A superblock whose regions are large enough and do not overlap. -/
structure Layout extends Superblock where
  inodes_end : inodestart + (ninodes + IPB - 1) / IPB ≤ bmapstart
  bitmap_end : bmapstart + size / BPB + 1 ≤ size - nblocks
  size_lt : size < 2 ^ 31

def mkfsLayout : Layout where
  toSuperblock := mkfs
  inodes_end := by decide
  bitmap_end := by decide
  size_lt := by decide

structure Dinode where
  type : Int16
  major : Int16
  minor : Int16
  nlink : Int16
  size : UInt32
  addrs : Fin (NDIRECT + 1) → UInt32

namespace Dinode

/-- The address of a block, 0 behind the array. -/
def addr (d : Dinode) (k : ℕ) : ℕ := if h : k < NDIRECT + 1 then (d.addrs ⟨k, h⟩).toNat else 0

def setAddr (d : Dinode) (k v : ℕ) : Dinode :=
  { d with addrs := fun l => if l = k then UInt32.ofNat v else d.addrs l }

def getShort (blk : DiskBlock) (o : ℕ) : Int16 := (UInt16.ofNat (blk.getWord 2 o)).toInt16

/-- The inode in the 64 bytes from `o` on. -/
def get (blk : DiskBlock) (o : ℕ) : Dinode where
  type := getShort blk o
  major := getShort blk (o + 2)
  minor := getShort blk (o + 4)
  nlink := getShort blk (o + 6)
  size := UInt32.ofNat (blk.getWord 4 (o + 8))
  addrs k := UInt32.ofNat (blk.getWord 4 (o + 12 + 4 * k))

def putShort (blk : DiskBlock) (o : ℕ) (v : Int16) : DiskBlock := blk.putWord o 2 v.toUInt16.toNat

/-- The bytes of the array `addrs`. -/
def addrBytes (d : Dinode) (k : ℕ) : UInt8 := UInt8.ofNat (d.addr (k / 4) / 256 ^ (k % 4))

def put (blk : DiskBlock) (o : ℕ) (d : Dinode) : DiskBlock :=
  let blk := putShort blk o d.type
  let blk := putShort blk (o + 2) d.major
  let blk := putShort blk (o + 4) d.minor
  let blk := putShort blk (o + 6) d.nlink
  let blk := blk.putWord (o + 8) 4 d.size.toNat
  blk.patch (o + 12) (4 * (NDIRECT + 1)) d.addrBytes

@[ext]
theorem ext' {d d' : Dinode} (htype : d.type = d'.type) (hmajor : d.major = d'.major)
    (hminor : d.minor = d'.minor) (hnlink : d.nlink = d'.nlink) (hsize : d.size = d'.size)
    (haddrs : ∀ k, d.addrs k = d'.addrs k) : d = d' := by
  cases d
  cases d'
  simp only at *
  obtain rfl := funext haddrs
  subst_vars
  rfl

variable {blk blk' : DiskBlock} {o o' k l v : ℕ} {d : Dinode} {x : Int16}

theorem addr_setAddr (hl : l ≤ NDIRECT) (hv : v < 2 ^ 32) :
    (d.setAddr l v).addr k = if k = l then v else d.addr k := by
  by_cases hk : k = l
  · subst hk
    rw [if_pos rfl, addr, dif_pos (Nat.lt_succ_of_le hl)]
    change (if k = k then UInt32.ofNat v else _).toNat = v
    rw [if_pos rfl, UInt32.toNat_ofNat', Nat.mod_eq_of_lt hv]
  · rw [if_neg hk, addr, addr]
    split_ifs with h
    · change (if k = l then UInt32.ofNat v else _).toNat = _
      rw [if_neg hk]
    · rfl

theorem setAddr_eq {d' : Dinode} (h : d = { d' with addrs := d.addrs }) :
    d.setAddr k v = { d' with addrs := (d.setAddr k v).addrs } := by
  rw [h]
  rfl

theorem addr_lt : d.addr k < 2 ^ 32 := by
  rw [addr]
  split_ifs
  · exact UInt32.toNat_lt _
  · decide

theorem getShort_congr (h : blk.getWord 2 o = blk'.getWord 2 o) :
    getShort blk o = getShort blk' o := by
  rw [getShort, h, getShort]

theorem getShort_putShort (h : o + 2 ≤ BSIZE) : getShort (putShort blk o x) o = x := by
  rw [getShort, putShort, Block.getWord_putWord_of_lt h (UInt16.toNat_lt _), UInt16.ofNat_toNat,
    Int16.toInt16_toUInt16]

theorem getShort_putShort_of_disjoint (h : o + 2 ≤ o' ∨ o' + 2 ≤ o) :
    getShort (putShort blk o' x) o = getShort blk o :=
  getShort_congr (Block.getWord_putWord_of_disjoint h)

theorem getWord_addrBytes (hn : o + 12 + 52 ≤ BSIZE) (hk : k < NDIRECT + 1) :
    (blk.patch (o + 12) (4 * (NDIRECT + 1)) d.addrBytes).getWord 4 (o + 12 + 4 * k) = d.addr k := by
  change k < 13 at hk
  rw [Block.getWord_eq_mod (v := d.addr k) (by omega)]
  · exact Nat.mod_eq_of_lt addr_lt
  · intro j hj
    rw [Block.byteAt_patch_of_mem (by omega) (by omega) (by change _ < _ + 52; omega), addrBytes]
    have hdiv : (o + 12 + 4 * k + j - (o + 12)) / 4 = k := by omega
    have hmod : (o + 12 + 4 * k + j - (o + 12)) % 4 = j := by omega
    rw [hdiv, hmod]

/-- The fields before the array. -/
def putFields (blk : DiskBlock) (o : ℕ) (d : Dinode) : DiskBlock :=
  (putShort (putShort (putShort (putShort blk o d.type) (o + 2) d.major) (o + 4) d.minor) (o + 6)
    d.nlink).putWord (o + 8) 4 d.size.toNat

theorem getWord_put (w p : ℕ) (h : p + w ≤ o + 12) :
    (put blk o d).getWord w p = (putFields blk o d).getWord w p :=
  Block.getWord_patch_of_disjoint (.inl h)

theorem getShort_putFields (h : o' + 2 ≤ o + 8) :
    getShort (putFields blk o d) o' = getShort (putShort (putShort (putShort (putShort blk o d.type)
      (o + 2) d.major) (o + 4) d.minor) (o + 6) d.nlink) o' :=
  getShort_congr (Block.getWord_putWord_of_disjoint (.inl h))

theorem get_put (h : o + 64 ≤ BSIZE) : get (put blk o d) o = d := by
  have hshort : ∀ p, p + 2 ≤ o + 8 → getShort (put blk o d) p = getShort (putFields blk o d) p :=
    fun p hp => getShort_congr (getWord_put 2 p (by omega))
  apply ext'
  · change getShort (put blk o d) o = d.type
    rw [hshort _ (by omega), getShort_putFields (by omega),
      getShort_putShort_of_disjoint (by omega), getShort_putShort_of_disjoint (by omega),
      getShort_putShort_of_disjoint (by omega), getShort_putShort (by omega)]
  · change getShort (put blk o d) (o + 2) = d.major
    rw [hshort _ (by omega), getShort_putFields (by omega),
      getShort_putShort_of_disjoint (by omega), getShort_putShort_of_disjoint (by omega),
      getShort_putShort (by omega)]
  · change getShort (put blk o d) (o + 4) = d.minor
    rw [hshort _ (by omega), getShort_putFields (by omega),
      getShort_putShort_of_disjoint (by omega), getShort_putShort (by omega)]
  · change getShort (put blk o d) (o + 6) = d.nlink
    rw [hshort _ (by omega), getShort_putFields (by omega), getShort_putShort (by omega)]
  · change UInt32.ofNat ((put blk o d).getWord 4 (o + 8)) = d.size
    rw [getWord_put 4 _ (by omega), putFields,
      Block.getWord_putWord_of_lt (by omega) (UInt32.toNat_lt d.size)]
    exact UInt32.ofNat_toNat
  · intro k
    have hword : (put blk o d).getWord 4 (o + 12 + 4 * k) = d.addr k := getWord_addrBytes h k.isLt
    change UInt32.ofNat ((put blk o d).getWord 4 (o + 12 + 4 * k)) = d.addrs k
    rw [hword, addr, dif_pos k.isLt]
    exact UInt32.ofNat_toNat

theorem get_congr (h : ∀ i, o ≤ i → i < o + 64 → blk.byteAt i = blk'.byteAt i) :
    get blk o = get blk' o := by
  have hword : ∀ w p, o ≤ p → p + w ≤ o + 64 → blk.getWord w p = blk'.getWord w p :=
    fun w p hp hw =>
    Block.getWord_congr fun i hi hiw => h i (hp.trans hi) (hiw.trans_le hw)
  apply ext'
  · exact getShort_congr (hword _ _ (by omega) (by omega))
  · exact getShort_congr (hword _ _ (by omega) (by omega))
  · exact getShort_congr (hword _ _ (by omega) (by omega))
  · exact getShort_congr (hword _ _ (by omega) (by omega))
  · exact congrArg UInt32.ofNat (hword _ _ (by omega) (by omega))
  · intro k
    have hk : k.val < 13 := k.isLt
    exact congrArg UInt32.ofNat (hword _ _ (by omega) (by omega))

theorem get_put_of_disjoint (h : o + 64 ≤ o' ∨ o' + 64 ≤ o) : get (put blk o' d) o = get blk o := by
  apply get_congr
  intro i hi hio
  have hlast : i < o' + 12 ∨ o' + 12 + 4 * (NDIRECT + 1) ≤ i := by
    change _ ∨ _ + 52 ≤ i
    omega
  rw [put, Block.byteAt_patch_of_not_mem hlast, Block.putWord,
    Block.byteAt_patch_of_not_mem (by omega), putShort, Block.putWord,
    Block.byteAt_patch_of_not_mem (by omega), putShort, Block.putWord,
    Block.byteAt_patch_of_not_mem (by omega), putShort, Block.putWord,
    Block.byteAt_patch_of_not_mem (by omega), putShort, Block.putWord,
    Block.byteAt_patch_of_not_mem (by omega)]

end Dinode

namespace Layout

variable (L : Layout) (disk : Disk) (b i : ℕ)

/-- The first block after the bitmap. -/
def datastart : ℕ := L.size - L.nblocks

def IBLOCK : ℕ := i / IPB + L.inodestart

def BBLOCK : ℕ := b / BPB + L.bmapstart

/-- The bit of block `b` in the bitmap is set. -/
def Used : Prop := (disk (L.BBLOCK b)).HasBit (b % BPB)

def dinode : Dinode := Dinode.get (disk (L.IBLOCK i)) (64 * (i % IPB))

def putDinode (d : Dinode) : Disk :=
  Function.update disk (L.IBLOCK i) (Dinode.put (disk (L.IBLOCK i)) (64 * (i % IPB)) d)

/-- `bp->data[bi/8] |= m` for block `b`. -/
def mark : Disk := Function.update disk (L.BBLOCK b) ((disk (L.BBLOCK b)).setBit (b % BPB))

/-- `bp->data[bi/8] &= ~m` for block `b`. -/
def unmark : Disk := Function.update disk (L.BBLOCK b) ((disk (L.BBLOCK b)).clearBit (b % BPB))

instance : Decidable (L.Used disk b) := inferInstanceAs (Decidable (Block.HasBit _ _))

variable {L disk b i} {c j : ℕ} {blk : DiskBlock} {d : Dinode}

theorem datastart_pos : 0 < L.datastart := (Nat.succ_pos _).trans_le L.bitmap_end

theorem bmapstart_le_datastart : L.bmapstart ≤ L.datastart :=
  ((Nat.le_add_right _ _).trans (Nat.le_add_right _ 1)).trans L.bitmap_end

theorem IBLOCK_lt (hi : i < L.ninodes) : L.IBLOCK i < L.bmapstart := by
  have hend := L.inodes_end
  change _ + (_ + 8 - 1) / 8 ≤ _ at hend
  change i / 8 + _ < _
  omega

theorem BBLOCK_lt (hb : b < L.size) : L.BBLOCK b < L.datastart := by
  have hdiv : b / BPB ≤ L.size / BPB := Nat.div_le_div_right hb.le
  have hend := L.bitmap_end
  rw [BBLOCK, datastart]
  omega

theorem bmapstart_le_BBLOCK : L.bmapstart ≤ L.BBLOCK b := Nat.le_add_left _ _

theorem used_update (hb : b < L.size) (hc : c < L.bmapstart ∨ L.datastart ≤ c) :
    L.Used (Function.update disk c blk) b ↔ L.Used disk b := by
  have hne : L.BBLOCK b ≠ c := by
    have hlt := L.BBLOCK_lt hb
    have hle : L.bmapstart ≤ L.BBLOCK b := bmapstart_le_BBLOCK
    omega
  rw [Used, Function.update_of_ne hne, Used]

theorem eq_of_BBLOCK_eq (h : L.BBLOCK c = L.BBLOCK b) : c = b ↔ c % BPB = b % BPB := by
  have hdiv : c / BPB = b / BPB := Nat.add_right_cancel h
  constructor
  · rintro rfl
    rfl
  · intro hmod
    rw [← Nat.div_add_mod c BPB, hdiv, hmod, Nat.div_add_mod]

theorem bit_lt : b % BPB / 8 < BSIZE := by
  have hmod : b % BPB < BPB := Nat.mod_lt _ (by decide)
  change _ < 512 * 8 at hmod
  change _ < 512
  omega

theorem used_mark : L.Used (L.mark disk b) c ↔ c = b ∨ L.Used disk c := by
  by_cases h : L.BBLOCK c = L.BBLOCK b
  · rw [Used, mark, h, Function.update_self, Block.hasBit_setBit bit_lt, eq_of_BBLOCK_eq h, Used, h]
  · rw [Used, mark, Function.update_of_ne h, Used, or_iff_right]
    rintro rfl
    exact h rfl

theorem used_unmark : L.Used (L.unmark disk b) c ↔ c ≠ b ∧ L.Used disk c := by
  by_cases h : L.BBLOCK c = L.BBLOCK b
  · rw [Used, unmark, h, Function.update_self, Block.hasBit_clearBit bit_lt, ne_eq, ne_eq,
      eq_of_BBLOCK_eq h, Used, h]
  · rw [Used, unmark, Function.update_of_ne h, Used, and_iff_right]
    rintro rfl
    exact h rfl

theorem mark_of_datastart_le (hb : b < L.size) (hc : L.datastart ≤ c) : L.mark disk b c = disk c :=
  Function.update_of_ne ((BBLOCK_lt hb).trans_le hc).ne' _ _

theorem unmark_of_datastart_le (hb : b < L.size) (hc : L.datastart ≤ c) :
    L.unmark disk b c = disk c :=
  Function.update_of_ne ((BBLOCK_lt hb).trans_le hc).ne' _ _

theorem dinode_update (hi : i < L.ninodes) (hc : L.bmapstart ≤ c) :
    L.dinode (Function.update disk c blk) i = L.dinode disk i := by
  rw [dinode, Function.update_of_ne ((IBLOCK_lt hi).trans_le hc).ne, dinode]

theorem dinode_mark (hi : i < L.ninodes) : L.dinode (L.mark disk b) i = L.dinode disk i :=
  dinode_update hi bmapstart_le_BBLOCK

theorem dinode_unmark (hi : i < L.ninodes) : L.dinode (L.unmark disk b) i = L.dinode disk i :=
  dinode_update hi bmapstart_le_BBLOCK

theorem dinode_putDinode :
    L.dinode (L.putDinode disk i d) j = if j = i then d else L.dinode disk j := by
  have hi : i % IPB < 8 := Nat.mod_lt _ (by decide)
  have hj : j % IPB < 8 := Nat.mod_lt _ (by decide)
  by_cases hblock : L.IBLOCK j = L.IBLOCK i
  · have hdiv : j / IPB = i / IPB := Nat.add_right_cancel hblock
    rw [dinode, putDinode, hblock, Function.update_self]
    split_ifs with hji
    · rw [hji]
      apply Dinode.get_put
      change _ ≤ 512
      omega
    · have hmod : j % IPB ≠ i % IPB := by
        intro hmod
        apply hji
        rw [← Nat.div_add_mod j IPB, hdiv, hmod, Nat.div_add_mod]
      rw [Dinode.get_put_of_disjoint (by omega), dinode, hblock]
  · have hji : j ≠ i := by
      rintro rfl
      exact hblock rfl
    rw [dinode, putDinode, Function.update_of_ne hblock, if_neg hji, dinode]

theorem putDinode_of_bmapstart_le (hi : i < L.ninodes) (hc : L.bmapstart ≤ c) :
    L.putDinode disk i d c = disk c :=
  Function.update_of_ne ((IBLOCK_lt hi).trans_le hc).ne' _ _

theorem used_putDinode (hi : i < L.ninodes) (hb : b < L.size) :
    L.Used (L.putDinode disk i d) b ↔ L.Used disk b := used_update hb (.inl (IBLOCK_lt hi))

end Layout

end Xv6Fairness
