import Xv6Fairness.DiskFormat
import Xv6Fairness.Outcomes
import Xv6Fairness.Ownership

/-!
# Blocks of files

`bmap` finds the block of a file and allocates it on demand, `itrunc` frees the blocks of an inode.
The inode is the one in memory: `writei` changes it first and writes it to the disk when it is done.
Every block in use belongs to the metadata or to one place in one inode, whatever sequence of calls
is made.
-/

namespace Xv6Fairness

open ByteBlocks Outcomes Ownership

namespace FileBlocks

inductive Panic
  | outOfBlocks       -- "balloc: out of blocks"
  | noInodes          -- "ialloc: no inodes"
  | freeingFreeBlock  -- "freeing free block"
  | outOfRange        -- "bmap: out of range"
  | noType            -- "ilock: no type"
  deriving DecidableEq

def T_DEV : Int16 := 3

def NDEV : ℕ := 10

/-- The functions of the devices, with what they return. -/
structure Devsw where
  read : ℕ → Option (UInt32 → ℤ × List UInt8)
  write : ℕ → Option ((ℕ → UInt8) → UInt32 → ℤ)

variable (L : Layout) (devsw : Devsw)

/-- The inner loop of `balloc`. -/
def freeBit (disk : Disk) (b : ℕ) : Option (ℕ × ℕ) :=
  ((List.range BPB).find? fun bi => b + bi < L.size ∧ ¬ (disk (L.BBLOCK b)).HasBit bi).map fun bi =>
    (b, bi)

def balloc (disk : Disk) : Except Panic (ℕ × Disk) :=
  match (List.range (L.size / BPB + 1)).findSome? fun k => freeBit L disk (k * BPB) with
  | none => .error .outOfBlocks
  | some (b, bi) =>
    let disk := Function.update disk (L.BBLOCK b) ((disk (L.BBLOCK b)).setBit bi)
    .ok (b + bi, Function.update disk (b + bi) fun _ => 0)

def bfree (disk : Disk) (b : ℕ) : Except Panic Disk :=
  if L.Used disk b then .ok (L.unmark disk b) else .error .freeingFreeBlock

/-- `a[j]` in an indirect block. -/
def entry (a : DiskBlock) (j : ℕ) : ℕ := a.getWord 4 (4 * j)

/-- The part of `bmap` that loads the indirect block, "allocating if necessary". -/
def loadIndirect (disk : Disk) (ip : Dinode) : Except Panic (Dinode × Disk) :=
  if ip.addr NDIRECT = 0 then do
    let (addr, disk) ← balloc L disk
    .ok (ip.setAddr NDIRECT addr, disk)
  else .ok (ip, disk)

/-- The part of `bmap` that reads entry `j` of the indirect block. -/
def loadEntry (disk : Disk) (ip : Dinode) (j : ℕ) : Except Panic (ℕ × Dinode × Disk) :=
  let a := ip.addr NDIRECT
  if entry (disk a) j = 0 then do
    let (addr, disk) ← balloc L disk
    .ok (addr, ip, Function.update disk a ((disk a).putWord (4 * j) 4 addr))
  else .ok (entry (disk a) j, ip, disk)

def bmap (disk : Disk) (ip : Dinode) (bn : ℕ) : Except Panic (ℕ × Dinode × Disk) :=
  if bn < NDIRECT then
    if ip.addr bn = 0 then do
      let (addr, disk) ← balloc L disk
      .ok (addr, ip.setAddr bn addr, disk)
    else .ok (ip.addr bn, ip, disk)
  else if bn - NDIRECT < NINDIRECT then do
    let (ip, disk) ← loadIndirect L disk ip
    loadEntry L disk ip (bn - NDIRECT)
  else .error .outOfRange

/-- `iupdate` of inode `i`. -/
def iupdate (disk : Disk) (i : ℕ) (ip : Dinode) : Disk := L.putDinode disk i ip

/-- One pass of the first loop of `itrunc`. -/
def truncDirect (s : Dinode × Disk) (k : ℕ) : Except Panic (Dinode × Disk) :=
  if s.1.addr k = 0 then .ok s
  else do
    let disk ← bfree L s.2 (s.1.addr k)
    .ok (s.1.setAddr k 0, disk)

/-- One pass of the second loop of `itrunc`. -/
def truncEntry (a : DiskBlock) (disk : Disk) (j : ℕ) : Except Panic Disk :=
  if entry a j = 0 then .ok disk else bfree L disk (entry a j)

/-- The second half of `itrunc`. -/
def truncIndirect (disk : Disk) (ip : Dinode) : Except Panic (Dinode × Disk) :=
  if ip.addr NDIRECT = 0 then .ok (ip, disk)
  else do
    let disk ← (List.range NINDIRECT).foldlM (truncEntry L (disk (ip.addr NDIRECT))) disk
    let disk ← bfree L disk (ip.addr NDIRECT)
    .ok (ip.setAddr NDIRECT 0, disk)

def itrunc (disk : Disk) (i : ℕ) (ip : Dinode) : Except Panic (Dinode × Disk) := do
  let (ip, disk) ← (List.range NDIRECT).foldlM (truncDirect L) (ip, disk)
  let (ip, disk) ← truncIndirect L disk ip
  let ip := { ip with size := 0 }
  .ok (ip, iupdate L disk i ip)

theorem chunk_pos {off n : ℕ} (hn : n ≠ 0) : 0 < min n (BSIZE - off % BSIZE) :=
  lt_min (Nat.pos_of_ne_zero hn) (Nat.sub_pos_of_lt (Nat.mod_lt _ (by decide)))

def readLoop (disk : Disk) (ip : Dinode) (off n : ℕ) :
    Except Panic (List UInt8 × Dinode × Disk) :=
  if n = 0 then .ok ([], ip, disk)
  else do
    let (addr, ip, disk) ← bmap L disk ip (off / BSIZE)
    let m := min n (BSIZE - off % BSIZE)
    let (rest, ip, disk) ← readLoop disk ip (off + m) (n - m)
    .ok ((List.range m).map (fun k => (disk addr).byteAt (off % BSIZE + k)) ++ rest, ip, disk)
termination_by n
decreasing_by
  have hpos : 0 < min n (BSIZE - off % BSIZE) := chunk_pos ‹¬ n = 0›
  omega

def readi (disk : Disk) (ip : Dinode) (off n : UInt32) :
    Except Panic ((ℤ × List UInt8) × Dinode × Disk) :=
  if ip.type = T_DEV then
    match if ip.major < 0 ∨ NDEV ≤ ip.major.toInt then none
      else devsw.read ip.major.toNatClampNeg with
    | none => .ok ((-1, []), ip, disk)
    | some read => .ok (read n, ip, disk)
  else if off > ip.size ∨ off + n < off then .ok ((-1, []), ip, disk)
  else do
    let n := if off + n > ip.size then ip.size - off else n
    let (bytes, ip, disk) ← readLoop L disk ip off.toNat n.toNat
    .ok ((n.toNat, bytes), ip, disk)

def writeLoop (disk : Disk) (ip : Dinode) (src : ℕ → UInt8) (off n : ℕ) :
    Except Panic (Dinode × Disk) :=
  if n = 0 then .ok (ip, disk)
  else do
    let (addr, ip, disk) ← bmap L disk ip (off / BSIZE)
    let m := min n (BSIZE - off % BSIZE)
    let disk := Function.update disk addr ((disk addr).patch (off % BSIZE) m src)
    writeLoop disk ip (fun k => src (m + k)) (off + m) (n - m)
termination_by n
decreasing_by
  have hpos : 0 < min n (BSIZE - off % BSIZE) := chunk_pos ‹¬ n = 0›
  omega

def writei (disk : Disk) (i : ℕ) (ip : Dinode) (src : ℕ → UInt8) (off n : UInt32) :
    Except Panic (ℤ × Dinode × Disk) :=
  if ip.type = T_DEV then
    match if ip.major < 0 ∨ NDEV ≤ ip.major.toInt then none
      else devsw.write ip.major.toNatClampNeg with
    | none => .ok (-1, ip, disk)
    | some write => .ok (write src n, ip, disk)
  else if off > ip.size ∨ off + n < off then .ok (-1, ip, disk)
  else if (off + n).toNat > MAXFILE * BSIZE then .ok (-1, ip, disk)
  else do
    let (ip, disk) ← writeLoop L disk ip src off.toNat n.toNat
    if 0 < n ∧ off + n > ip.size then
      let ip := { ip with size := off + n }
      .ok (n.toNat, ip, iupdate L disk i ip)
    else .ok (n.toNat, ip, disk)

/-- A place in an inode that names a block. -/
inductive Place
  | data (bn : ℕ)
  | indirect
  deriving DecidableEq

def blockAt (disk : Disk) (d : Dinode) : Place → ℕ
  | .data bn =>
    if bn < NDIRECT then d.addr bn
    else if d.addr NDIRECT = 0 ∨ MAXFILE ≤ bn then 0
    else entry (disk (d.addr NDIRECT)) (bn - NDIRECT)
  | .indirect => d.addr NDIRECT

def Allocated (T : ℕ → Dinode) (i : ℕ) : Prop := i < L.ninodes ∧ (T i).type ≠ 0

instance (T : ℕ → Dinode) (i : ℕ) : Decidable (Allocated L T i) :=
  inferInstanceAs (Decidable (_ ∧ _))

/-- The blocks that the allocated inodes of a table name. -/
def refs (T : ℕ → Dinode) (disk : Disk) (k : ℕ × Place) : ℕ :=
  if Allocated L T k.1 then blockAt disk (T k.1) k.2 else 0

/-- The bitmap agrees with an inode table, which may be ahead of the one on the disk. -/
def Owned (T : ℕ → Dinode) (disk : Disk) : Prop :=
  Owns L.datastart L.size (L.Used disk) (refs L T disk)

section References

variable {L} {T T' : ℕ → Dinode} {disk disk' : Disk} {d ip : Dinode} {i j b bn : ℕ} {p : Place}

theorem refs_of_allocated (h : Allocated L T i) : refs L T disk (i, p) = blockAt disk (T i) p :=
  if_pos h

theorem allocated_of_refs (h : refs L T disk (i, p) ≠ 0) : Allocated L T i := by
  by_contra hi
  exact h (if_neg hi)

theorem refs_update_of_ne (hj : j ≠ i) :
    refs L (Function.update T i ip) disk (j, p) = refs L T disk (j, p) := by
  have hiff : Allocated L (Function.update T i ip) j ↔ Allocated L T j := by
    rw [Allocated, Function.update_of_ne hj, Allocated]
  by_cases h : Allocated L T j
  · rw [refs_of_allocated h, refs_of_allocated (hiff.mpr h), Function.update_of_ne hj]
  · exact (if_neg fun h' => h (hiff.mp h')).trans (if_neg h).symm

theorem blockAt_congr (h : d.addr NDIRECT ≠ 0 → disk' (d.addr NDIRECT) = disk (d.addr NDIRECT)) :
    blockAt disk' d p = blockAt disk d p := by
  cases p with
  | indirect => rfl
  | data bn =>
      rw [blockAt, blockAt]
      by_cases hzero : d.addr NDIRECT = 0
      · simp only [hzero, true_or, if_true]
      · rw [h hzero]

theorem refs_congr (h : ∀ i, refs L T disk (i, .indirect) ≠ 0 →
    disk' (refs L T disk (i, .indirect)) = disk (refs L T disk (i, .indirect))) :
    refs L T disk' = refs L T disk := by
  funext ⟨i, p⟩
  by_cases hi : Allocated L T i
  · rw [refs_of_allocated hi, refs_of_allocated hi]
    have hind := h i
    rw [refs_of_allocated hi] at hind
    exact blockAt_congr hind
  · exact (if_neg hi).trans (if_neg hi).symm

structure Taken (L : Layout) (disk : Disk) (b : ℕ) (disk' : Disk) : Prop where
  lt : b < L.size
  free : ¬ L.Used disk b
  used : ∀ c < L.size, L.Used disk' c ↔ c = b ∨ L.Used disk c
  zero : disk' b = fun _ => 0
  keep : ∀ c, L.datastart ≤ c → c ≠ b → disk' c = disk c
  dinode : ∀ i < L.ninodes, L.dinode disk' i = L.dinode disk i

theorem freeBit_some {c bi : ℕ} (h : freeBit L disk b = some (c, bi)) :
    c = b ∧ bi < BPB ∧ b + bi < L.size ∧ ¬ (disk (L.BBLOCK b)).HasBit bi := by
  obtain ⟨k, hk, heq⟩ := Option.map_eq_some_iff.mp h
  cases heq
  have hmem := List.mem_of_find?_eq_some hk
  have hlt : bi < BPB := List.mem_range.mp hmem
  have hbit := List.find?_some hk
  rw [decide_eq_true_iff] at hbit
  exact ⟨rfl, hlt, hbit⟩

theorem balloc_spec (hlow : ∀ c < L.datastart, L.Used disk c) :
    Ends (· = .outOfBlocks) (balloc L disk) fun r => Taken L disk r.1 r.2 := by
  rw [balloc]
  cases hfind : (List.range (L.size / BPB + 1)).findSome? fun k => freeBit L disk (k * BPB) with
  | none => exact .error rfl
  | some r =>
      obtain ⟨c, bi⟩ := r
      obtain ⟨k, -, hk⟩ := List.exists_of_findSome?_eq_some hfind
      obtain ⟨rfl, hbi, hlt, hbit⟩ := freeBit_some hk
      have hdiv : (k * BPB + bi) / BPB = k := by
        rw [Nat.mul_comm, Nat.mul_add_div (by decide), Nat.div_eq_of_lt hbi, Nat.add_zero]
      have hmod : (k * BPB + bi) % BPB = bi := by
        rw [Nat.mul_comm, Nat.mul_add_mod, Nat.mod_eq_of_lt hbi]
      have hblock : L.BBLOCK (k * BPB) = L.BBLOCK (k * BPB + bi) := by
        rw [Layout.BBLOCK, Layout.BBLOCK, hdiv, Nat.mul_div_cancel _ (by decide)]
      have hmark : Function.update disk (L.BBLOCK (k * BPB))
          ((disk (L.BBLOCK (k * BPB))).setBit bi) = L.mark disk (k * BPB + bi) := by
        rw [Layout.mark, hblock, hmod]
      have hfree : ¬ L.Used disk (k * BPB + bi) := by
        rw [Layout.Used, ← hblock, hmod]
        exact hbit
      have hdata : L.datastart ≤ k * BPB + bi := by
        by_contra hlo
        exact hfree (hlow _ (not_le.mp hlo))
      have htaken : Taken L disk (k * BPB + bi) (Function.update (L.mark disk (k * BPB + bi))
          (k * BPB + bi) fun _ => 0) := by
        refine ⟨hlt, hfree, fun c hc => ?_, Function.update_self _ _ _, fun c hc hne => ?_,
          fun i hi => ?_⟩
        · rw [Layout.used_update hc (.inr hdata), Layout.used_mark]
        · rw [Function.update_of_ne hne, Layout.mark_of_datastart_le hlt hc]
        · rw [Layout.dinode_update hi (Layout.bmapstart_le_datastart.trans hdata),
            Layout.dinode_mark hi]
      rw [← hmark] at htaken
      exact .ok htaken

theorem Owned.low (ho : Owned L T disk) : ∀ c < L.datastart, L.Used disk c := fun c hc =>
  (ho.used_iff c (hc.trans_le (Nat.sub_le _ _))).mpr (.inl hc)

theorem Taken.refs_eq (ht : Taken L disk b disk') (ho : Owned L T disk) :
    refs L T disk' = refs L T disk :=
  refs_congr fun _ hi => ht.keep _ (ho.range _ hi).1 (ho.ne_of_free ht.lt ht.free)

theorem Taken.ne_zero (ht : Taken L disk b disk') (ho : Owned L T disk) : b ≠ 0 :=
  (ho.pos.trans_le (ho.lo_le ht.lt ht.free)).ne'

theorem Taken.lt_word (ht : Taken L disk b disk') : b < 2 ^ 32 :=
  (ht.lt.trans L.size_lt).trans (by decide)

theorem allocated_update (hip : ip.type = (T i).type) :
    Allocated L (Function.update T i ip) j ↔ Allocated L T j := by
  by_cases hj : j = i
  · rw [hj, Allocated, Function.update_self, hip, Allocated]
  · rw [Allocated, Function.update_of_ne hj, Allocated]

theorem refs_update (hi : Allocated L T i) (hip : ip.type = (T i).type)
    (hself : blockAt disk ip p = b)
    (hother : ∀ q, q ≠ p → blockAt disk ip q = blockAt disk (T i) q) :
    refs L (Function.update T i ip) disk = Function.update (refs L T disk) (i, p) b := by
  funext ⟨j, q⟩
  by_cases hj : j = i
  · subst hj
    rw [refs_of_allocated ((allocated_update hip).mpr hi), Function.update_self]
    by_cases hq : q = p
    · rw [hq, Function.update_self, hself]
    · have hne : (j, q) ≠ (j, p) := fun h => hq (congrArg Prod.snd h)
      rw [Function.update_of_ne hne, refs_of_allocated hi, hother q hq]
  · have hne : (j, q) ≠ (i, p) := fun h => hj (congrArg Prod.fst h)
    rw [Function.update_of_ne hne, refs_update_of_ne hj]

theorem refs_setAddr_direct {k : ℕ} (hi : Allocated L T i) (hk : k < NDIRECT) (hb : b < 2 ^ 32) :
    refs L (Function.update T i ((T i).setAddr k b)) disk =
      Function.update (refs L T disk) (i, .data k) b := by
  have hind : ((T i).setAddr k b).addr NDIRECT = (T i).addr NDIRECT := by
    rw [Dinode.addr_setAddr hk.le hb, if_neg hk.ne']
  refine refs_update hi rfl ?_ ?_
  · rw [blockAt, if_pos hk, Dinode.addr_setAddr hk.le hb, if_pos rfl]
  · intro q hq
    cases q with
    | indirect => exact hind
    | data bn =>
        have hbn : bn ≠ k := fun h => hq (congrArg Place.data h)
        rw [blockAt, blockAt, hind, Dinode.addr_setAddr hk.le hb, if_neg hbn]

theorem entry_zero {j : ℕ} : entry (fun _ => 0) j = 0 := Block.getWord_zero

theorem refs_setAddr_indirect (hi : Allocated L T i) (hzero : (T i).addr NDIRECT = 0)
    (hb : b < 2 ^ 32) (hblank : b ≠ 0 → disk b = fun _ => 0) :
    refs L (Function.update T i ((T i).setAddr NDIRECT b)) disk =
      Function.update (refs L T disk) (i, .indirect) b := by
  have hind : ((T i).setAddr NDIRECT b).addr NDIRECT = b := by
    rw [Dinode.addr_setAddr le_rfl hb, if_pos rfl]
  refine refs_update hi rfl hind ?_
  intro q hq
  cases q with
  | indirect => exact absurd rfl hq
  | data bn =>
      rw [blockAt, blockAt, hind, if_pos (Or.inl hzero)]
      by_cases hbn : bn < NDIRECT
      · rw [if_pos hbn, if_pos hbn, Dinode.addr_setAddr le_rfl hb, if_neg hbn.ne]
      · rw [if_neg hbn, if_neg hbn]
        by_cases hbz : b = 0
        · rw [if_pos (Or.inl hbz)]
        · rw [hblank hbz, entry_zero, ite_self]

theorem entry_putWord {a : DiskBlock} {j k : ℕ} (hj : j < NINDIRECT) (hk : k < NINDIRECT)
    (hb : b < 2 ^ 32) :
    entry (a.putWord (4 * j) 4 b) k = if k = j then b else entry a k := by
  change j < 128 at hj
  change k < 128 at hk
  rw [entry]
  split_ifs with hkj
  · rw [hkj]
    apply Block.getWord_putWord_of_lt
    · change _ ≤ 512
      omega
    · exact hb
  · exact Block.getWord_putWord_of_disjoint (by omega)

theorem refs_putEntry (hunique : ∀ k l, refs L T disk k ≠ 0 → refs L T disk k = refs L T disk l →
    k = l) (hi : Allocated L T i) (hind : (T i).addr NDIRECT ≠ 0)
    (hbn : NDIRECT ≤ bn) (hmax : bn < MAXFILE) (hb : b < 2 ^ 32) :
    refs L T (Function.update disk ((T i).addr NDIRECT)
      ((disk ((T i).addr NDIRECT)).putWord (4 * (bn - NDIRECT)) 4 b)) =
      Function.update (refs L T disk) (i, .data bn) b := by
  have hself : refs L T disk (i, .indirect) = (T i).addr NDIRECT := refs_of_allocated hi
  have hmax' : bn - NDIRECT < NINDIRECT := by
    change bn < 12 + 128 at hmax
    change bn - 12 < 128
    omega
  funext ⟨j, q⟩
  by_cases hj : j = i
  · subst hj
    rw [refs_of_allocated hi]
    cases q with
    | indirect =>
        have hne : (j, Place.indirect) ≠ (j, .data bn) := fun h => by cases h
        rw [Function.update_of_ne hne, hself, blockAt]
    | data m =>
        rw [blockAt, Function.update_self]
        by_cases hm : m < NDIRECT
        · have hne : (j, Place.data m) ≠ (j, .data bn) := by
            intro h
            cases h
            exact absurd hm (not_lt.mpr hbn)
          rw [Function.update_of_ne hne, refs_of_allocated hi, blockAt, if_pos hm, if_pos hm]
        · by_cases hmmax : MAXFILE ≤ m
          · have hne : (j, Place.data m) ≠ (j, .data bn) := by
              intro h
              cases h
              exact absurd hmax (not_lt.mpr hmmax)
            rw [Function.update_of_ne hne, refs_of_allocated hi, blockAt, if_neg hm, if_neg hm,
              if_pos (Or.inr hmmax), if_pos (Or.inr hmmax)]
          · have hm' : m - NDIRECT < NINDIRECT := by
              change ¬ 12 + 128 ≤ m at hmmax
              change m - 12 < 128
              omega
            rw [if_neg hm, if_neg (not_or.mpr ⟨hind, hmmax⟩), entry_putWord hmax' hm' hb]
            by_cases hmb : m = bn
            · rw [hmb, if_pos rfl, Function.update_self]
            · have hne : (j, Place.data m) ≠ (j, .data bn) := by
                intro h
                cases h
                exact hmb rfl
              rw [if_neg (by omega), Function.update_of_ne hne, refs_of_allocated hi, blockAt,
                if_neg hm, if_neg (not_or.mpr ⟨hind, hmmax⟩)]
  · have hne : (j, q) ≠ (i, .data bn) := fun h => hj (congrArg Prod.fst h)
    rw [Function.update_of_ne hne]
    by_cases hja : Allocated L T j
    · rw [refs_of_allocated hja, refs_of_allocated hja]
      apply blockAt_congr
      intro hz
      apply Function.update_of_ne
      intro heq
      have hjref : refs L T disk (j, .indirect) = (T j).addr NDIRECT := refs_of_allocated hja
      have hij := hunique (j, .indirect) (i, .indirect) (by rwa [hjref])
        (by rw [hjref, hself, heq])
      exact hj (congrArg Prod.fst hij)
    · exact (if_neg hja).trans (if_neg hja).symm

/-- The inode may name more blocks than before; the files still have theirs. -/
structure Grown (L : Layout) (T : ℕ → Dinode) (disk : Disk) (i : ℕ) (ip : Dinode) (disk' : Disk) :
    Prop where
  owned : Owned L (Function.update T i ip) disk'
  keep : ∀ j m, refs L T disk (j, .data m) ≠ 0 →
    refs L (Function.update T i ip) disk' (j, .data m) = refs L T disk (j, .data m)
  content : ∀ j m, refs L T disk (j, .data m) ≠ 0 →
    disk' (refs L T disk (j, .data m)) = disk (refs L T disk (j, .data m))
  fields : ip = { T i with addrs := ip.addrs }
  dinode : ∀ j < L.ninodes, L.dinode disk' j = L.dinode disk j

theorem Grown.type_eq (h : Grown L T disk i ip disk') : ip.type = (T i).type := by rw [h.fields]

theorem Grown.refl (ho : Owned L T disk) : Grown L T disk i (T i) disk := by
  refine ⟨?_, fun j m _ => ?_, fun _ _ _ => rfl, rfl, fun _ _ => rfl⟩
  · rwa [Function.update_eq_self]
  · rw [Function.update_eq_self]

theorem Grown.trans {ip₁ ip₂ : Dinode} {disk₁ disk₂ : Disk} (h₁ : Grown L T disk i ip₁ disk₁)
    (h₂ : Grown L (Function.update T i ip₁) disk₁ i ip₂ disk₂) : Grown L T disk i ip₂ disk₂ := by
  obtain ⟨howned, hkeep, hcontent, hfields, hdinode⟩ := h₂
  rw [Function.update_idem] at howned
  rw [Function.update_self] at hfields
  refine ⟨howned, fun j m hm => ?_, fun j m hm => ?_, ?_, fun j hj => ?_⟩
  · have heq := h₁.keep j m hm
    rw [← heq] at hm
    rw [← heq, ← hkeep j m hm, Function.update_idem]
  · have heq := h₁.keep j m hm
    rw [← h₁.content j m hm]
    rw [← heq] at hm ⊢
    exact hcontent j m hm
  · rw [hfields, h₁.fields]
  · rw [hdinode j hj, h₁.dinode j hj]

theorem Grown.take (ho : Owned L T disk) {disk₁ : Disk} (ht : Taken L disk b disk₁)
    (hzero : refs L T disk (i, p) = 0)
    (hrefs : refs L (Function.update T i ip) disk' = Function.update (refs L T disk) (i, p) b)
    (hused : ∀ c < L.size, L.Used disk' c ↔ L.Used disk₁ c)
    (hcontent : ∀ j m, refs L T disk (j, .data m) ≠ 0 →
      disk' (refs L T disk (j, .data m)) = disk₁ (refs L T disk (j, .data m)))
    (hfields : ip = { T i with addrs := ip.addrs })
    (hdinode : ∀ j < L.ninodes, L.dinode disk' j = L.dinode disk₁ j) :
    Grown L T disk i ip disk' := by
  refine ⟨?_, fun j m hm => ?_, fun j m hm => ?_, hfields, fun j hj => ?_⟩
  · rw [Owned, hrefs]
    exact ho.acquire hzero ht.lt ht.free fun c hc => (hused c hc).trans (ht.used c hc)
  · rw [hrefs]
    apply Function.update_of_ne
    rintro heq
    exact hm (heq ▸ hzero)
  · rw [hcontent j m hm]
    exact ht.keep _ (ho.range _ hm).1 (ho.ne_of_free ht.lt ht.free)
  · rw [hdinode j hj, ht.dinode j hj]

structure Mapped (L : Layout) (T : ℕ → Dinode) (disk : Disk) (i bn : ℕ)
    (r : ℕ × Dinode × Disk) : Prop where
  grown : Grown L T disk i r.2.1 r.2.2
  addr : refs L (Function.update T i r.2.1) r.2.2 (i, .data bn) = r.1
  ne_zero : r.1 ≠ 0
  others : ∀ j m, ¬ (j = i ∧ m = bn) →
    refs L (Function.update T i r.2.1) r.2.2 (j, .data m) = refs L T disk (j, .data m)
  stable : refs L T disk (i, .data bn) ≠ 0 → r.2.1 = T i

theorem Mapped.found (ho : Owned L T disk) (hb : refs L T disk (i, .data bn) = b) (hne : b ≠ 0) :
    Mapped L T disk i bn (b, T i, disk) := by
  refine ⟨.refl ho, ?_, hne, fun j m _ => ?_, fun _ => rfl⟩
  · rw [Function.update_eq_self, hb]
  · rw [Function.update_eq_self]

theorem Mapped.take (ho : Owned L T disk) {disk₁ : Disk} (ht : Taken L disk b disk₁)
    (hzero : refs L T disk (i, .data bn) = 0)
    (hrefs : refs L (Function.update T i ip) disk' =
      Function.update (refs L T disk) (i, .data bn) b)
    (hused : ∀ c < L.size, L.Used disk' c ↔ L.Used disk₁ c)
    (hcontent : ∀ j m, refs L T disk (j, .data m) ≠ 0 →
      disk' (refs L T disk (j, .data m)) = disk₁ (refs L T disk (j, .data m)))
    (hfields : ip = { T i with addrs := ip.addrs })
    (hdinode : ∀ j < L.ninodes, L.dinode disk' j = L.dinode disk₁ j) :
    Mapped L T disk i bn (b, ip, disk') := by
  refine ⟨.take ho ht hzero hrefs hused hcontent hfields hdinode, ?_, ht.ne_zero ho,
    fun j m hm => ?_,
    fun hne => absurd hzero hne⟩
  · rw [hrefs, Function.update_self]
  · rw [hrefs]
    apply Function.update_of_ne
    intro heq
    cases heq
    exact hm ⟨rfl, rfl⟩

theorem bmap_direct (ho : Owned L T disk) (hi : Allocated L T i) (hbn : bn < NDIRECT) :
    Ends (· = .outOfBlocks) (bmap L disk (T i) bn) (Mapped L T disk i bn) := by
  have hself : refs L T disk (i, .data bn) = (T i).addr bn := by
    rw [refs_of_allocated hi, blockAt, if_pos hbn]
  rw [bmap, if_pos hbn]
  apply Ends.ite
  · intro hzero
    apply (balloc_spec ho.low).bind
    rintro ⟨b, disk'⟩ ht
    apply Ends.ok
    refine .take ho ht (hself.trans hzero) ?_ (fun _ _ => Iff.rfl) (fun _ _ _ => rfl) rfl
      (fun _ _ => rfl)
    rw [refs_setAddr_direct hi hbn ht.lt_word, ht.refs_eq ho]
  · exact fun hne => .ok (.found ho hself hne)

theorem loadIndirect_spec (ho : Owned L T disk) (hi : Allocated L T i) :
    Ends (· = .outOfBlocks) (loadIndirect L disk (T i)) fun r =>
      Grown L T disk i r.1 r.2 ∧ r.1.addr NDIRECT ≠ 0 ∧
        ∀ j m, refs L (Function.update T i r.1) r.2 (j, .data m) = refs L T disk (j, .data m) := by
  apply Ends.ite
  · intro hzero
    apply (balloc_spec ho.low).bind
    rintro ⟨b, disk'⟩ ht
    have hrefs : refs L (Function.update T i ((T i).setAddr NDIRECT b)) disk' =
        Function.update (refs L T disk) (i, .indirect) b := by
      rw [refs_setAddr_indirect hi hzero ht.lt_word fun _ => ht.zero, ht.refs_eq ho]
    have hnone : refs L T disk (i, .indirect) = 0 := (refs_of_allocated hi).trans hzero
    apply Ends.ok
    refine ⟨.take ho ht hnone hrefs (fun _ _ => Iff.rfl) (fun _ _ _ => rfl) rfl fun _ _ => rfl, ?_,
      fun j m => ?_⟩
    · change ((T i).setAddr NDIRECT b).addr NDIRECT ≠ 0
      rw [Dinode.addr_setAddr le_rfl ht.lt_word, if_pos rfl]
      exact ht.ne_zero ho
    · rw [hrefs]
      exact Function.update_of_ne (fun h => by cases h) _ _
  · intro hne
    apply Ends.ok
    refine ⟨.refl ho, hne, fun j m => ?_⟩
    rw [Function.update_eq_self]

theorem loadEntry_spec (ho : Owned L T disk) (hi : Allocated L T i)
    (hind : (T i).addr NDIRECT ≠ 0) (hbn : NDIRECT ≤ bn) (hmax : bn < MAXFILE) :
    Ends (· = .outOfBlocks) (loadEntry L disk (T i) (bn - NDIRECT))
      (Mapped L T disk i bn) := by
  have hself : refs L T disk (i, .data bn) =
      entry (disk ((T i).addr NDIRECT)) (bn - NDIRECT) := by
    rw [refs_of_allocated hi, blockAt, if_neg (not_lt.mpr hbn),
      if_neg (not_or.mpr ⟨hind, not_le.mpr hmax⟩)]
  have hindirect : refs L T disk (i, .indirect) = (T i).addr NDIRECT := refs_of_allocated hi
  have hdata : L.datastart ≤ (T i).addr NDIRECT := by
    have hrange := ho.range (i, .indirect)
    rw [hindirect] at hrange
    exact (hrange hind).1
  rw [loadEntry]
  apply Ends.ite
  · intro hzero
    apply (balloc_spec ho.low).bind
    rintro ⟨b, disk'⟩ ht
    have hunique := ho.unique
    rw [← ht.refs_eq ho] at hunique
    apply Ends.ok
    refine .take ho ht (hself.trans hzero) ?_ (fun c hc => Layout.used_update hc (.inr hdata))
      (fun j m hm => ?_) rfl fun j hj => Layout.dinode_update hj
        (Layout.bmapstart_le_datastart.trans hdata)
    · rw [Function.update_eq_self, refs_putEntry hunique hi hind hbn hmax ht.lt_word, ht.refs_eq ho]
    · apply Function.update_of_ne
      intro heq
      have hpair := ho.unique (j, .data m) (i, .indirect) hm (heq.trans hindirect.symm)
      cases hpair
  · exact fun hne => .ok (.found ho hself hne)

theorem bmap_present (hi : Allocated L T i) (hne : refs L T disk (i, .data bn) ≠ 0) :
    bmap L disk (T i) bn = .ok (refs L T disk (i, .data bn), T i, disk) := by
  rw [refs_of_allocated hi, blockAt] at hne ⊢
  by_cases hbn : bn < NDIRECT
  · rw [if_pos hbn] at hne ⊢
    rw [bmap, if_pos hbn, if_neg hne]
  · rw [if_neg hbn] at hne ⊢
    by_cases hnone : (T i).addr NDIRECT = 0 ∨ MAXFILE ≤ bn
    · exact absurd (if_pos hnone) hne
    · rw [if_neg hnone] at hne ⊢
      obtain ⟨hind, hmax⟩ := not_or.mp hnone
      have hmax' : bn - NDIRECT < NINDIRECT := by
        change ¬ 12 + 128 ≤ bn at hmax
        change bn - 12 < 128
        omega
      have hload : loadIndirect L disk (T i) = .ok (T i, disk) := if_neg hind
      have hentry : loadEntry L disk (T i) (bn - NDIRECT) =
          .ok (entry (disk ((T i).addr NDIRECT)) (bn - NDIRECT), T i, disk) := by
        rw [loadEntry, if_neg hne]
      rw [bmap, if_neg hbn, if_pos hmax', hload, ok_bind]
      exact hentry

theorem bmap_spec (ho : Owned L T disk) (hi : Allocated L T i) (hmax : bn < MAXFILE) :
    Ends (· = .outOfBlocks) (bmap L disk (T i) bn) (Mapped L T disk i bn) := by
  by_cases hne : refs L T disk (i, .data bn) ≠ 0
  · rw [bmap_present hi hne]
    exact .ok (.found ho rfl hne)
  by_cases hbn : bn < NDIRECT
  · exact bmap_direct ho hi hbn
  · have hmax' : bn - NDIRECT < NINDIRECT := by
      change bn < 12 + 128 at hmax
      change bn - 12 < 128
      omega
    rw [bmap, if_neg hbn, if_pos hmax']
    apply (loadIndirect_spec ho hi).bind
    rintro ⟨ip, disk₁⟩ ⟨hgrown, hind, hrefs⟩
    have hnext := loadEntry_spec hgrown.owned ((allocated_update hgrown.type_eq).mpr hi)
      (by rwa [Function.update_self]) (not_lt.mp hbn) hmax
    rw [Function.update_self] at hnext
    apply hnext.imp
    rintro ⟨addr, ip', disk'⟩ ⟨hgrown', haddr, hnew, hothers, -⟩
    rw [Function.update_idem] at haddr hothers
    refine ⟨hgrown.trans hgrown', haddr, hnew, fun j m hjm => ?_, fun h => absurd h hne⟩
    rw [hothers j m hjm, hrefs]

variable (L) in
/-- Byte `k` of the file of inode `i`. -/
def fileByte (T : ℕ → Dinode) (disk : Disk) (i k : ℕ) : UInt8 :=
  (disk (refs L T disk (i, .data (k / BSIZE)))).byteAt (k % BSIZE)

/-- The bytes from `off` on are those of `src`, the others are kept. -/
structure Written (L : Layout) (T : ℕ → Dinode) (disk : Disk) (i : ℕ) (src : ℕ → UInt8) (off n : ℕ)
    (ip : Dinode) (disk' : Disk) : Prop where
  owned : Owned L (Function.update T i ip) disk'
  keep : ∀ j m, refs L T disk (j, .data m) ≠ 0 →
    refs L (Function.update T i ip) disk' (j, .data m) = refs L T disk (j, .data m)
  others : ∀ j m, j ≠ i →
    refs L (Function.update T i ip) disk' (j, .data m) = refs L T disk (j, .data m)
  count : ∀ m, refs L (Function.update T i ip) disk' (i, .data m) ≠ 0 ↔
    refs L T disk (i, .data m) ≠ 0 ∨ ∃ k, off ≤ k ∧ k < off + n ∧ k / BSIZE = m
  written : ∀ k, off ≤ k → k < off + n →
    fileByte L (Function.update T i ip) disk' i k = src (k - off)
  kept : ∀ j k, refs L T disk (j, .data (k / BSIZE)) ≠ 0 → ¬ (j = i ∧ off ≤ k ∧ k < off + n) →
    fileByte L (Function.update T i ip) disk' j k = fileByte L T disk j k
  stable : (∀ k, off ≤ k → k < off + n → refs L T disk (i, .data (k / BSIZE)) ≠ 0) → ip = T i
  fields : ip = { T i with addrs := ip.addrs }
  dinode : ∀ j < L.ninodes, L.dinode disk' j = L.dinode disk j

theorem Written.nothing (ho : Owned L T disk) {src : ℕ → UInt8} {off : ℕ} :
    Written L T disk i src off 0 (T i) disk := by
  refine ⟨?_, fun _ _ _ => ?_, fun _ _ _ => ?_, fun m => ?_, fun k hk hlt => ?_, fun _ _ _ _ => ?_,
    fun _ => rfl, rfl, fun _ _ => rfl⟩
  · rwa [Function.update_eq_self]
  · rw [Function.update_eq_self]
  · rw [Function.update_eq_self]
  · rw [Function.update_eq_self, or_iff_left]
    rintro ⟨k, hk, hlt, -⟩
    exact absurd hlt (not_lt.mpr hk)
  · exact absurd hlt (not_lt.mpr hk)
  · rw [Function.update_eq_self]

theorem Written.trans {src : ℕ → UInt8} {off n m : ℕ} {ip₁ ip₂ : Dinode} {disk₁ disk₂ : Disk}
    (h₁ : Written L T disk i src off m ip₁ disk₁)
    (h₂ : Written L (Function.update T i ip₁) disk₁ i (fun k => src (m + k))
      (off + m) n ip₂ disk₂) :
    Written L T disk i src off (m + n) ip₂ disk₂ := by
  obtain ⟨howned, hkeep, hothers, hcount, hwritten, hkept, hstable, hfields, hdinode⟩ := h₂
  rw [Function.update_idem] at howned hcount hwritten
  rw [Function.update_self] at hstable hfields
  refine ⟨howned, fun j l hl => ?_, fun j l hj => ?_, fun l => ?_, fun k hk hlt => ?_,
    fun j k hk hout => ?_, fun hpresent => ?_, ?_, fun j hj => ?_⟩
  · have heq := h₁.keep j l hl
    rw [← heq] at hl
    rw [← heq, ← hkeep j l hl, Function.update_idem]
  · rw [← h₁.others j l hj, ← hothers j l hj, Function.update_idem]
  · rw [hcount l, h₁.count l, or_assoc]
    apply or_congr_right
    constructor
    · rintro (⟨k, hk, hlt, hkl⟩ | ⟨k, hk, hlt, hkl⟩)
      · exact ⟨k, hk, by omega, hkl⟩
      · exact ⟨k, by omega, by omega, hkl⟩
    · rintro ⟨k, hk, hlt, hkl⟩
      by_cases hkm : k < off + m
      · exact .inl ⟨k, hk, hkm, hkl⟩
      · exact .inr ⟨k, by omega, by omega, hkl⟩
  · by_cases hkm : k < off + m
    · have hne : refs L (Function.update T i ip₁) disk₁ (i, .data (k / BSIZE)) ≠ 0 :=
        (h₁.count _).mpr (.inr ⟨k, hk, hkm, rfl⟩)
      have hold := hkept i k hne (by omega)
      rw [Function.update_idem] at hold
      rw [hold, h₁.written k hk hkm]
    · rw [hwritten k (by omega) (by omega)]
      congr 1
      omega
  · have hne := h₁.keep j _ hk
    rw [← h₁.kept j k hk (by omega), ← hkept j k (by rwa [hne]) (by omega), Function.update_idem]
  · have hfirst := h₁.stable fun k hk hlt => hpresent k hk (by omega)
    rw [← hfirst]
    apply hstable
    intro k hk hlt
    have hne := hpresent k (by omega) (by omega)
    rwa [h₁.keep i _ hne]
  · rw [hfields, h₁.fields]
  · rw [hdinode j hj, h₁.dinode j hj]

theorem Mapped.refs_write {a : ℕ} (h : Mapped L T disk i bn (a, ip, disk')) (blk : DiskBlock) :
    refs L (Function.update T i ip) (Function.update disk' a blk) =
      refs L (Function.update T i ip) disk' := by
  have haddr : refs L (Function.update T i ip) disk' (i, .data bn) = a := h.addr
  apply refs_congr
  intro j hj
  apply Function.update_of_ne
  intro heq
  have hpair := h.grown.owned.unique _ _ hj (heq.trans haddr.symm)
  cases hpair

theorem Mapped.write {off m a : ℕ} (h : Mapped L T disk i (off / BSIZE) (a, ip, disk'))
    (src : ℕ → UInt8) (hm : 0 < m) (hfit : off % BSIZE + m ≤ BSIZE) :
    Written L T disk i src off m ip
      (Function.update disk' a ((disk' a).patch (off % BSIZE) m src)) := by
  have hrefs := h.refs_write ((disk' a).patch (off % BSIZE) m src)
  obtain ⟨⟨howned, hkeep, hcontent, hfields, hdinode⟩, haddr, hne, hothers, hstable⟩ := h
  change refs L (Function.update T i ip) disk' (i, .data (off / BSIZE)) = a at haddr
  change a ≠ 0 at hne
  have hdiv : ∀ k, off ≤ k → k < off + m → k / BSIZE = off / BSIZE ∧
      k % BSIZE = off % BSIZE + (k - off) := by
    intro k hk hlt
    change off % 512 + m ≤ 512 at hfit
    change k / 512 = off / 512 ∧ k % 512 = off % 512 + (k - off)
    omega
  have hdata : L.datastart ≤ a := by
    rw [← haddr] at hne ⊢
    exact (howned.range _ hne).1
  refine ⟨?_, fun j l hl => ?_, fun j l hj => ?_, fun l => ?_, fun k hk hlt => ?_,
    fun j k hk hout => ?_, fun h => hstable (h off le_rfl (by omega)), hfields, fun j hj => ?_⟩
  · exact howned.congr (fun c hc => Layout.used_update hc (.inr hdata)) fun k => by rw [hrefs]
  · rw [hrefs]
    exact hkeep j l hl
  · rw [hrefs]
    exact hothers j l fun h => hj h.1
  · rw [hrefs]
    by_cases hl : l = off / BSIZE
    · rw [hl, haddr]
      exact iff_of_true hne (.inr ⟨off, le_rfl, by omega, rfl⟩)
    · rw [hothers i l fun h => hl h.2, or_iff_left]
      rintro ⟨k, hk, hlt, rfl⟩
      exact hl (hdiv k hk hlt).1
  · obtain ⟨hblock, hmod⟩ := hdiv k hk hlt
    rw [fileByte, hrefs, hblock, haddr, Function.update_self, hmod,
      Block.byteAt_patch_of_mem (by omega) (by omega) (by omega), Nat.add_sub_cancel_left]
  · have hsame := hkeep j _ hk
    have hold : disk' (refs L T disk (j, .data (k / BSIZE))) =
        disk (refs L T disk (j, .data (k / BSIZE))) := hcontent j _ hk
    rw [fileByte, hrefs, hsame, fileByte, ← hold]
    by_cases heq : refs L T disk (j, .data (k / BSIZE)) = a
    · have hpair := howned.unique _ (i, .data (off / BSIZE)) (by rwa [hsame])
        (by rw [hsame, haddr, heq])
      have hj : j = i := congrArg Prod.fst hpair
      have hblock : k / BSIZE = off / BSIZE := Place.data.inj (congrArg Prod.snd hpair)
      have hbyte : k % BSIZE < off % BSIZE ∨ off % BSIZE + m ≤ k % BSIZE := by
        change k / 512 = off / 512 at hblock
        change k % 512 < off % 512 ∨ off % 512 + m ≤ k % 512
        omega
      rw [heq, Function.update_self, Block.byteAt_patch_of_not_mem hbyte]
    · rw [Function.update_of_ne heq]
  · rw [Layout.dinode_update hj (Layout.bmapstart_le_datastart.trans hdata), hdinode j hj]

theorem writeLoop_spec (n : ℕ) : ∀ {T : ℕ → Dinode} {disk : Disk} (src : ℕ → UInt8) (off : ℕ),
    Owned L T disk → Allocated L T i → off + n ≤ MAXFILE * BSIZE →
      Ends (· = .outOfBlocks) (writeLoop L disk (T i) src off n) fun r =>
        Written L T disk i src off n r.1 r.2 := by
  induction n using Nat.strong_induction_on with
  | _ n ih =>
      intro T disk src off ho hi hmax
      rw [writeLoop]
      split_ifs with hn
      · subst hn
        exact .ok (.nothing ho)
      · have hpos : 0 < min n (BSIZE - off % BSIZE) := chunk_pos hn
        have hle : min n (BSIZE - off % BSIZE) ≤ n := min_le_left _ _
        have hfit : off % BSIZE + min n (BSIZE - off % BSIZE) ≤ BSIZE := by
          have hmod : off % BSIZE < BSIZE := Nat.mod_lt _ (by decide)
          omega
        generalize min n (BSIZE - off % BSIZE) = m at hpos hle hfit
        have hbn : off / BSIZE < MAXFILE :=
          (Nat.div_lt_iff_lt_mul (by decide)).mpr (by omega)
        apply (bmap_spec ho hi hbn).bind
        rintro ⟨a, ip, disk'⟩ hmapped
        have hchunk := hmapped.write src hpos hfit
        have hrest := ih (n - m) (by omega) (fun k => src (m + k)) (off + m) hchunk.owned
          ((allocated_update hmapped.grown.type_eq).mpr hi) (by omega)
        rw [Function.update_self] at hrest
        apply hrest.imp
        rintro ⟨ip', disk''⟩ hwritten
        have hall := hchunk.trans hwritten
        rwa [Nat.add_sub_cancel' hle] at hall

theorem readLoop_eq (n : ℕ) (hi : Allocated L T i) : ∀ off : ℕ,
    (∀ k, off ≤ k → k < off + n → refs L T disk (i, .data (k / BSIZE)) ≠ 0) →
      readLoop L disk (T i) off n =
        .ok ((List.range n).map fun k => fileByte L T disk i (off + k), T i, disk) := by
  induction n using Nat.strong_induction_on with
  | _ n ih =>
      intro off hpresent
      rw [readLoop]
      split_ifs with hn
      · rw [hn]
        rfl
      · have hpos : 0 < min n (BSIZE - off % BSIZE) := chunk_pos hn
        have hle : min n (BSIZE - off % BSIZE) ≤ n := min_le_left _ _
        have hfit : off % BSIZE + min n (BSIZE - off % BSIZE) ≤ BSIZE := by
          have hmod : off % BSIZE < BSIZE := Nat.mod_lt _ (by decide)
          omega
        generalize min n (BSIZE - off % BSIZE) = m at hpos hle hfit
        rw [bmap_present hi (hpresent off le_rfl (by omega))]
        have hrest := ih (n - m) (by omega) (off + m)
          fun k hk hlt => hpresent k (by omega) (by omega)
        change (readLoop L disk (T i) (off + m) (n - m)).bind _ = _
        rw [hrest]
        have hsplit : n = m + (n - m) := (Nat.add_sub_cancel' hle).symm
        have hbytes : (List.range n).map (fun k => fileByte L T disk i (off + k)) =
            (List.range m).map (fun k => (disk (refs L T disk (i, .data (off / BSIZE)))).byteAt
              (off % BSIZE + k)) ++
            (List.range (n - m)).map fun k => fileByte L T disk i (off + m + k) := by
          conv_lhs => rw [hsplit, List.range_add, List.map_append, List.map_map]
          congr 1
          · apply List.map_congr_left
            intro k hk
            have hkm : k < m := List.mem_range.mp hk
            have hdiv : (off + k) / BSIZE = off / BSIZE := by
              change off % 512 + m ≤ 512 at hfit
              change (off + k) / 512 = off / 512
              omega
            have hmod : (off + k) % BSIZE = off % BSIZE + k := by
              change off % 512 + m ≤ 512 at hfit
              change (off + k) % 512 = off % 512 + k
              omega
            rw [fileByte, hdiv, hmod]
          · apply List.map_congr_left
            intro k _
            change fileByte L T disk i (off + (m + k)) = _
            rw [Nat.add_assoc]
        rw [hbytes]
        rfl

/-- The blocks at the places `F` of inode `i` are free again. -/
structure Freed (L : Layout) (T : ℕ → Dinode) (disk : Disk) (i : ℕ) (F : Set Place)
    (R : ℕ × Place → ℕ) (disk' : Disk) : Prop where
  owns : Owns L.datastart L.size (L.Used disk') R
  freed : ∀ p ∈ F, R (i, p) = 0
  others : ∀ j p, ¬ (j = i ∧ p ∈ F) → R (j, p) = refs L T disk (j, p)
  keep : ∀ c, L.datastart ≤ c → disk' c = disk c
  dinode : ∀ j < L.ninodes, L.dinode disk' j = L.dinode disk j

variable {F : Set Place} {R : ℕ × Place → ℕ}

theorem Freed.refl (ho : Owned L T disk) : Freed L T disk i ∅ (refs L T disk) disk :=
  ⟨ho, fun _ hp => hp.elim, fun _ _ _ => rfl, fun _ _ => rfl, fun _ _ => rfl⟩

theorem Freed.release (h : Freed L T disk i F R disk') (hp : p ∉ F)
    (hb : refs L T disk (i, p) = b) :
    Ends (fun _ => False) (if b = 0 then .ok disk' else bfree L disk' b) fun disk'' =>
      ∃ R', Freed L T disk i (insert p F) R' disk'' := by
  obtain ⟨howns, hfreed, hothers, hkeep, hdinode⟩ := h
  have hold : R (i, p) = b := (hothers i p fun h => hp h.2).trans hb
  apply Ends.ite
  · intro hzero
    apply Ends.ok
    refine ⟨R, howns, ?_, fun j q hq => hothers j q fun h => hq ⟨h.1, .inr h.2⟩, hkeep, hdinode⟩
    rintro q (rfl | hq)
    · rw [hold, hzero]
    · exact hfreed q hq
  · intro hne
    have hused : L.Used disk' b := by
      have h := howns.used_refs (k := (i, p)) (by rwa [hold])
      rwa [hold] at h
    have hlt : b < L.size := by
      have h := (howns.range (i, p) (by rwa [hold])).2
      rwa [hold] at h
    rw [bfree, if_pos hused]
    apply Ends.ok
    refine ⟨Function.update R (i, p) 0, ?_, ?_, fun j q hq => ?_, fun c hc => ?_, fun j hj => ?_⟩
    · refine howns.release (by rwa [hold]) fun c _ => ?_
      rw [hold]
      exact Layout.used_unmark
    · rintro q (rfl | hq)
      · exact Function.update_self _ _ _
      · by_cases hqp : q = p
        · rw [hqp, Function.update_self]
        · rw [Function.update_of_ne fun h => hqp (congrArg Prod.snd h)]
          exact hfreed q hq
    · have hne' : (j, q) ≠ (i, p) := fun h =>
        hq ⟨congrArg Prod.fst h, .inl (congrArg Prod.snd h)⟩
      rw [Function.update_of_ne hne']
      exact hothers j q fun h => hq ⟨h.1, .inr h.2⟩
    · rw [Layout.unmark_of_datastart_le hlt hc, hkeep c hc]
    · rw [Layout.dinode_unmark hj, hdinode j hj]

/-- The first `n` blocks of a file. -/
def firstBlocks (n : ℕ) : Set Place := {p | ∃ k < n, p = .data k}

theorem firstBlocks_zero : firstBlocks 0 = ∅ :=
  Set.eq_empty_iff_forall_notMem.mpr fun _ ⟨_, hk, _⟩ => Nat.not_lt_zero _ hk

theorem notMem_firstBlocks (n : ℕ) : Place.data n ∉ firstBlocks n := by
  rintro ⟨k, hk, heq⟩
  cases heq
  exact lt_irrefl _ hk

theorem indirect_notMem_firstBlocks {n : ℕ} : Place.indirect ∉ firstBlocks n := by
  rintro ⟨k, -, heq⟩
  cases heq

theorem insert_firstBlocks (n : ℕ) : insert (.data n) (firstBlocks n) = firstBlocks (n + 1) := by
  ext p
  constructor
  · rintro (rfl | ⟨k, hk, rfl⟩)
    · exact ⟨n, Nat.lt_succ_self n, rfl⟩
    · exact ⟨k, Nat.lt_succ_of_lt hk, rfl⟩
  · rintro ⟨k, hk, rfl⟩
    rcases Nat.lt_succ_iff_lt_or_eq.mp hk with hk | rfl
    · exact .inr ⟨k, hk, rfl⟩
    · exact .inl rfl

theorem truncDirect_spec (ho : Owned L T disk) (hi : Allocated L T i) :
    Ends (fun _ => False) ((List.range NDIRECT).foldlM (truncDirect L) (T i, disk)) fun s =>
      (∃ R, Freed L T disk i (firstBlocks NDIRECT) R s.2) ∧
        (∀ k, s.1.addr k = if k < NDIRECT then 0 else (T i).addr k) ∧
        s.1 = { T i with addrs := s.1.addrs } := by
  apply Ends.foldlM_range fun n (s : Dinode × Disk) =>
    (∃ R, Freed L T disk i (firstBlocks n) R s.2) ∧
      (∀ k, s.1.addr k = if k < n then 0 else (T i).addr k) ∧ s.1 = { T i with addrs := s.1.addrs }
  · refine ⟨⟨refs L T disk, ?_⟩, fun k => (if_neg (Nat.not_lt_zero k)).symm, rfl⟩
    rw [firstBlocks_zero]
    exact .refl ho
  · rintro k ⟨ip, d⟩ hk ⟨⟨R, hfreed⟩, haddr, hfields⟩
    have hself : refs L T disk (i, .data k) = ip.addr k := by
      rw [refs_of_allocated hi, blockAt, if_pos hk, haddr, if_neg (lt_irrefl k)]
    have hnext := hfreed.release (notMem_firstBlocks k) hself
    rw [insert_firstBlocks] at hnext
    rw [truncDirect]
    by_cases hzero : ip.addr k = 0
    · rw [if_pos hzero] at hnext ⊢
      apply Ends.ok
      refine ⟨hnext.of_ok rfl, fun l => ?_, hfields⟩
      by_cases hl : l = k
      · rw [hl, hzero, if_pos (Nat.lt_succ_self k)]
      · rw [haddr l]
        simp only [Nat.lt_succ_iff_lt_or_eq, hl, or_false]
    · rw [if_neg hzero] at hnext ⊢
      apply hnext.bind
      intro d' hd'
      apply Ends.ok
      refine ⟨hd', fun l => ?_, ?_⟩
      · rw [Dinode.addr_setAddr hk.le (by decide), haddr l]
        by_cases hl : l = k
        · rw [if_pos hl, if_pos (by omega)]
        · rw [if_neg hl]
          simp only [Nat.lt_succ_iff_lt_or_eq, hl, or_false]
      · exact Dinode.setAddr_eq hfields

theorem truncIndirect_spec (hi : Allocated L T i)
    (hfreed : Freed L T disk i (firstBlocks NDIRECT) R disk')
    (haddr : ip.addr NDIRECT = (T i).addr NDIRECT) (hfields : ip = { T i with addrs := ip.addrs }) :
    Ends (fun _ => False) (truncIndirect L disk' ip) fun s =>
      (∃ F R, Freed L T disk i F R s.2 ∧ ∀ p ∉ F, refs L T disk (i, p) = 0) ∧
        (∀ k, s.1.addr k = if k = NDIRECT then 0 else ip.addr k) ∧
        s.1 = { T i with addrs := s.1.addrs } := by
  have hind : refs L T disk (i, .indirect) = ip.addr NDIRECT :=
    (refs_of_allocated hi).trans haddr.symm
  rw [truncIndirect]
  by_cases hzero : ip.addr NDIRECT = 0
  · rw [if_pos hzero]
    apply Ends.ok
    refine ⟨⟨_, R, hfreed, fun p hp => ?_⟩, fun k => ?_, hfields⟩
    · cases p with
      | indirect => rw [hind, hzero]
      | data bn =>
          have hbn : ¬ bn < NDIRECT := fun h => hp ⟨bn, h, rfl⟩
          rw [refs_of_allocated hi, blockAt, if_neg hbn, if_pos (Or.inl (haddr ▸ hzero))]
    · split_ifs with hk
      · rw [hk, hzero]
      · rfl
  · have hused : refs L T disk (i, .indirect) ≠ 0 := by rwa [hind]
    have hkeep : disk' (ip.addr NDIRECT) = disk (ip.addr NDIRECT) := by
      have hsame := hfreed.others i .indirect fun h => absurd h.2 indirect_notMem_firstBlocks
      have hrange := hfreed.owns.range (i, .indirect)
      rw [hsame, hind] at hrange
      exact hfreed.keep _ (hrange hzero).1
    have hself : ∀ j < NINDIRECT,
        refs L T disk (i, .data (NDIRECT + j)) = entry (disk' (ip.addr NDIRECT)) j := by
      intro j hj
      have hmax : ¬ MAXFILE ≤ NDIRECT + j := not_le.mpr (Nat.add_lt_add_left hj _)
      rw [refs_of_allocated hi, blockAt, if_neg (not_lt.mpr (Nat.le_add_right _ _)),
        if_neg (not_or.mpr ⟨haddr ▸ hzero, hmax⟩), Nat.add_sub_cancel_left, hkeep, haddr]
    rw [if_neg hzero]
    have hloop : Ends (fun _ => False)
        ((List.range NINDIRECT).foldlM (truncEntry L (disk' (ip.addr NDIRECT))) disk') fun d =>
          ∃ R, Freed L T disk i (firstBlocks MAXFILE) R d := by
      apply Ends.foldlM_range fun n d => ∃ R, Freed L T disk i (firstBlocks (NDIRECT + n)) R d
      · exact ⟨R, hfreed⟩
      · rintro j d hj ⟨R, hd⟩
        have hnext := hd.release (notMem_firstBlocks _) (hself j hj)
        rwa [insert_firstBlocks] at hnext
    apply hloop.bind
    rintro d ⟨R, hd⟩
    have hlast := hd.release indirect_notMem_firstBlocks hind
    rw [if_neg hzero] at hlast
    apply hlast.bind
    rintro d' ⟨R', hd'⟩
    apply Ends.ok
    refine ⟨⟨_, R', hd', fun p hp => ?_⟩, fun k => ?_, Dinode.setAddr_eq hfields⟩
    · cases p with
      | indirect => exact absurd (Set.mem_insert _ _) hp
      | data bn =>
          have hbn : MAXFILE ≤ bn := by
            by_contra hlt
            exact hp (.inr ⟨bn, not_le.mp hlt, rfl⟩)
          have hdirect : ¬ bn < NDIRECT := not_lt.mpr ((Nat.le_add_right _ _).trans hbn)
          rw [refs_of_allocated hi, blockAt, if_neg hdirect, if_pos (Or.inr hbn)]
    · rw [Dinode.addr_setAddr le_rfl (by decide)]

theorem itrunc_spec (ho : Owned L T disk) (hi : Allocated L T i) :
    Ends (fun _ => False) (itrunc L disk i (T i)) fun s =>
      s.1 = { T i with addrs := fun _ => 0, size := 0 } ∧
        Owned L (Function.update T i s.1) s.2 ∧
        (∀ j p, refs L (Function.update T i s.1) s.2 (j, p) =
          if j = i then 0 else refs L T disk (j, p)) ∧
        (∀ c, L.datastart ≤ c → s.2 c = disk c) ∧
        ∀ j < L.ninodes, L.dinode s.2 j = if j = i then s.1 else L.dinode disk j := by
  rw [itrunc]
  apply (truncDirect_spec ho hi).bind
  rintro ⟨ip₁, d₁⟩ ⟨⟨R₁, hfreed₁⟩, haddr₁, hfields₁⟩
  have hind : ip₁.addr NDIRECT = (T i).addr NDIRECT := by rw [haddr₁, if_neg (lt_irrefl _)]
  apply (truncIndirect_spec hi hfreed₁ hind hfields₁).bind
  rintro ⟨ip₂, d₂⟩ ⟨⟨F, R, hfreed, hrest⟩, haddr₂, hfields₂⟩
  replace hfields₂ : ip₂ = { T i with addrs := ip₂.addrs } := hfields₂
  replace hfreed : Freed L T disk i F R d₂ := hfreed
  have hzero : ∀ k, ip₂.addr k = 0 := by
    intro k
    rw [haddr₂]
    split_ifs with hk
    · rfl
    · rw [haddr₁]
      split_ifs with hlt
      · rfl
      · have hge : ¬ k < NDIRECT + 1 := fun h => by omega
        rw [Dinode.addr, dif_neg hge]
  have haddrs : ip₂.addrs = fun _ => 0 := by
    funext k
    have hk := hzero k
    rw [Dinode.addr, dif_pos k.isLt] at hk
    exact UInt32.toNat_inj.mp hk
  have hip : ({ ip₂ with size := 0 } : Dinode) = { T i with addrs := fun _ => 0, size := 0 } := by
    rw [hfields₂, haddrs]
  have hnothing : ∀ d p, blockAt d { ip₂ with size := 0 } p = 0 := by
    intro d p
    cases p with
    | indirect => exact hzero NDIRECT
    | data bn =>
        rw [blockAt]
        split_ifs with hbn hnone
        · exact hzero bn
        · rfl
        · exact absurd (Or.inl (hzero NDIRECT)) hnone
  have hR : ∀ j p, R (j, p) = if j = i then 0 else refs L T disk (j, p) := by
    intro j p
    split_ifs with hj
    · rw [hj]
      by_cases hp : p ∈ F
      · exact hfreed.freed p hp
      · rw [hfreed.others i p fun h => hp h.2, hrest p hp]
    · exact hfreed.others j p fun h => hj h.1
  have hkeep : ∀ c, L.datastart ≤ c →
      iupdate L d₂ i { ip₂ with size := 0 } c = disk c := fun c hc => by
    rw [iupdate, Layout.putDinode_of_bmapstart_le hi.1 (Layout.bmapstart_le_datastart.trans hc),
      hfreed.keep c hc]
  have hrefs : ∀ j p, refs L (Function.update T i { ip₂ with size := 0 })
      (iupdate L d₂ i { ip₂ with size := 0 })
        (j, p) = if j = i then 0 else refs L T disk (j, p) := by
    intro j p
    split_ifs with hj
    · rw [hj, refs]
      simp only [Function.update_self, hnothing, ite_self]
    · have hsame : refs L T (iupdate L d₂ i { ip₂ with size := 0 }) = refs L T disk :=
        refs_congr fun k hk => hkeep _ (ho.range _ hk).1
      rw [refs_update_of_ne hj, hsame]
  apply Ends.ok
  refine ⟨hip, ?_, hrefs, hkeep, fun j hj => ?_⟩
  · apply hfreed.owns.congr
    · exact fun c hc => Layout.used_putDinode hi.1 hc
    · rintro ⟨j, p⟩
      rw [hR]
      exact hrefs j p
  · change L.dinode (L.putDinode d₂ i { ip₂ with size := 0 }) j = _
    rw [Layout.dinode_putDinode]
    split_ifs
    · rfl
    · exact hfreed.dinode j hj

end References

end FileBlocks

end Xv6Fairness
