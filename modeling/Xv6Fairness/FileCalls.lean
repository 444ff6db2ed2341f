import Xv6Fairness.FileBlocks

/-!
# Calls on files

Each call locks an inode, which reads it from the disk where it is not cached, works on it and
unlocks it again. A cached inode may be dropped at any time between two calls. Between calls the
bitmap agrees with the inodes on the disk, and every file has blocks for its bytes and no more.
-/

namespace Xv6Fairness

open ByteBlocks Outcomes Ownership

namespace FileBlocks

structure State where
  disk : Disk
  icache : ℕ → Option Dinode

variable (L : Layout) (devsw : Devsw)

def ilock (s : State) (i : ℕ) : Except Panic Dinode :=
  match s.icache i with
  | some ip => .ok ip
  | none =>
    let ip := L.dinode s.disk i
    if ip.type = 0 then .error .noType else .ok ip

def State.iunlock (s : State) (i : ℕ) (ip : Dinode) (disk : Disk) : State :=
  ⟨disk, Function.update s.icache i (some ip)⟩

/-- A slot of the inode cache is used for another inode. -/
def State.recycle (s : State) (i : ℕ) : State :=
  { s with icache := Function.update s.icache i none }

/-- `memset(dip, 0, sizeof(*dip)); dip->type = type`. -/
def newDinode (type : Int16) : Dinode where
  type := type
  major := 0
  minor := 0
  nlink := 0
  size := 0
  addrs _ := 0

def ialloc (disk : Disk) (type : Int16) : Except Panic (ℕ × Disk) :=
  match (List.range L.ninodes).find? fun i => 1 ≤ i ∧ (L.dinode disk i).type = 0 with
  | none => .error .noInodes
  | some i => .ok (i, L.putDinode disk i (newDinode type))

/-- `iput` where `r` references are left. -/
def iput (s : State) (i r : ℕ) : Except Panic State :=
  match s.icache i with
  | none => .ok s
  | some ip =>
    if ip.nlink = 0 ∧ r = 1 then do
      let (ip, disk) ← itrunc L s.disk i ip
      let ip := { ip with type := 0 }
      .ok (State.recycle { s with disk := iupdate L disk i ip } i)
    else .ok s

/-- What a call returns: a number, and the bytes that are read. -/
abbrev Answer := ℤ × List UInt8

inductive Call (L : Layout)
  | readi (i : Fin L.ninodes) (off n : UInt32)
  | writei (i : Fin L.ninodes) (src : ℕ → UInt8) (off n : UInt32)
  | setNlink (i : Fin L.ninodes) (nlink : Int16)
  | itrunc (i : Fin L.ninodes)
  | ialloc (type : Int16)
  | iput (i : Fin L.ninodes) (r : ℕ)
  | recycle (i : Fin L.ninodes)

def step (s : State) : Call L → Except Panic (Answer × State)
  | .readi i off n => do
    let ip ← ilock L s i
    let (answer, ip, disk) ← readi L devsw s.disk ip off n
    .ok (answer, s.iunlock i ip disk)
  | .writei i src off n => do
    let ip ← ilock L s i
    let (r, ip, disk) ← writei L devsw s.disk i ip src off n
    .ok ((r, []), s.iunlock i ip disk)
  | .setNlink i nlink => do
    let ip ← ilock L s i
    let ip := { ip with nlink := nlink }
    .ok ((0, []), s.iunlock i ip (iupdate L s.disk i ip))
  | .itrunc i => do
    let ip ← ilock L s i
    let (ip, disk) ← itrunc L s.disk i ip
    .ok ((0, []), s.iunlock i ip disk)
  | .ialloc type => do
    let (i, disk) ← ialloc L s.disk type
    .ok ((i, []), { s with disk := disk })
  | .iput i r => do
    let s ← iput L s i r
    .ok ((0, []), s)
  | .recycle i => .ok ((0, []), s.recycle i)

/-- The answers to a sequence of calls, and the state at the end. -/
def run (s : State) : List (Call L) → Except Panic (List Answer × State)
  | [] => .ok ([], s)
  | call :: calls => do
    let (answer, s) ← step L devsw s call
    let (answers, s) ← run s calls
    .ok (answer :: answers, s)

/-- `ceil(size/BSIZE)`. -/
def blockCount (d : Dinode) : ℕ := (d.size.toNat + BSIZE - 1) / BSIZE

structure Consistent (disk : Disk) : Prop where
  owned : Owned L (L.dinode disk) disk
  count_le : ∀ i, Allocated L (L.dinode disk) i → blockCount (L.dinode disk i) ≤ MAXFILE
  blocks : ∀ i, Allocated L (L.dinode disk) i →
    ∀ bn, refs L (L.dinode disk) disk (i, .data bn) ≠ 0 ↔ bn < blockCount (L.dinode disk i)

structure Inv (s : State) : Prop where
  consistent : Consistent L s.disk
  cached : ∀ i < L.ninodes, ∀ ip, s.icache i = some ip → ip = L.dinode s.disk i ∧ ip.type ≠ 0

section Calls

variable {L devsw} {T T' : ℕ → Dinode} {disk disk' : Disk} {s t : State} {ip : Dinode} {i j : ℕ}

theorem refs_congr_table (h : ∀ j < L.ninodes, T' j = T j) : refs L T' disk = refs L T disk := by
  funext ⟨j, p⟩
  have hiff : Allocated L T' j ↔ Allocated L T j :=
    and_congr_right fun hj => by rw [h j hj]
  by_cases hj : Allocated L T j
  · rw [refs_of_allocated hj, refs_of_allocated (hiff.mpr hj), h j hj.1]
  · exact (if_neg fun hj' => hj (hiff.mp hj')).trans (if_neg hj).symm

theorem Consistent.of_table (howned : Owned L T disk)
    (htable : ∀ j < L.ninodes, L.dinode disk j = T j)
    (hcount : ∀ j, Allocated L T j → blockCount (T j) ≤ MAXFILE)
    (hblocks : ∀ j, Allocated L T j → ∀ bn, refs L T disk (j, .data bn) ≠ 0 ↔
      bn < blockCount (T j)) :
    Consistent L disk := by
  have hrefs : refs L (L.dinode disk) disk = refs L T disk := refs_congr_table htable
  have hiff : ∀ j, Allocated L (L.dinode disk) j → Allocated L T j := fun j hj =>
    ⟨hj.1, by rw [← htable j hj.1]; exact hj.2⟩
  refine ⟨?_, fun j hj => ?_, fun j hj bn => ?_⟩
  · rw [Owned, hrefs]
    exact howned
  · rw [htable j hj.1]
    exact hcount j (hiff j hj)
  · rw [hrefs, htable j hj.1]
    exact hblocks j (hiff j hj) bn

theorem refs_update_congr {ip' : Dinode} (htype : ip'.type = ip.type)
    (haddrs : ip'.addrs = ip.addrs) :
    refs L (Function.update T i ip') disk = refs L (Function.update T i ip) disk := by
  funext ⟨j, p⟩
  by_cases hj : j = i
  · subst hj
    have haddr : ∀ k, ip'.addr k = ip.addr k := fun k => by rw [Dinode.addr, haddrs, Dinode.addr]
    have hblock : blockAt disk ip' p = blockAt disk ip p := by
      cases p with
      | indirect => exact haddr NDIRECT
      | data bn => rw [blockAt, blockAt, haddr, haddr]
    simp only [refs, Allocated, Function.update_self, htype, hblock]
  · rw [refs_update_of_ne hj, refs_update_of_ne hj]

theorem refs_iupdate (ho : Owned L T disk) (hi : i < L.ninodes) :
    refs L T (iupdate L disk i ip) = refs L T disk :=
  refs_congr fun _ hk => Layout.putDinode_of_bmapstart_le hi
    (Layout.bmapstart_le_datastart.trans (ho.range _ hk).1)

theorem Owned.iupdate (ho : Owned L T disk) (hi : i < L.ninodes) :
    Owned L T (iupdate L disk i ip) := by
  refine ho.congr (fun c hc => Layout.used_putDinode hi hc) fun k => ?_
  rw [refs_iupdate ho hi]

theorem dinode_iupdate : L.dinode (iupdate L disk i ip) j = if j = i then ip else L.dinode disk j :=
  Layout.dinode_putDinode

theorem iunlock_icache :
    (s.iunlock i ip disk).icache j = if j = i then some ip else s.icache j := by
  split_ifs with hj
  · rw [hj]
    exact Function.update_self _ _ _
  · exact Function.update_of_ne hj _ _

theorem recycle_icache : (s.recycle i).icache j = if j = i then none else s.icache j := by
  split_ifs with hj
  · rw [hj]
    exact Function.update_self _ _ _
  · exact Function.update_of_ne hj _ _

theorem ilock_spec (h : Inv L s) (hi : i < L.ninodes) :
    Ends (· = .noType) (ilock L s i) fun ip =>
      ip = L.dinode s.disk i ∧ Allocated L (L.dinode s.disk) i := by
  rw [ilock]
  cases hcache : s.icache i with
  | some ip =>
      obtain ⟨heq, htype⟩ := h.cached i hi ip hcache
      exact .ok ⟨heq, hi, by rwa [← heq]⟩
  | none =>
      apply Ends.ite
      · exact fun _ => .error rfl
      · exact fun htype => .ok ⟨rfl, hi, htype⟩

theorem Inv.iunlock (h : Inv L s) (hc : Consistent L disk)
    (hi : L.dinode disk i = ip ∧ ip.type ≠ 0)
    (hothers : ∀ j < L.ninodes, j ≠ i → L.dinode disk j = L.dinode s.disk j) :
    Inv L (s.iunlock i ip disk) := by
  refine ⟨hc, fun j hj jp hcache => ?_⟩
  rw [iunlock_icache] at hcache
  split_ifs at hcache with hji
  · cases hcache
    rw [hji]
    exact ⟨hi.1.symm, hi.2⟩
  · obtain ⟨hold, htype⟩ := h.cached j hj jp hcache
    exact ⟨hold.trans (hothers j hj hji).symm, htype⟩

theorem Inv.recycle (h : Inv L s) : Inv L (s.recycle i) := by
  refine ⟨h.consistent, fun j hj jp hcache => ?_⟩
  rw [recycle_icache] at hcache
  split_ifs at hcache
  exact h.cached j hj jp hcache

/-- Where a write is refused. -/
def Refused (ip : Dinode) (off n : UInt32) : Prop :=
  ip.size.toNat < off.toNat ∨ MAXFILE * BSIZE < off.toNat + n.toNat

theorem blockCount_le (d : Dinode) : blockCount d ≤ MAXFILE ↔ d.size.toNat ≤ MAXFILE * BSIZE := by
  change (d.size.toNat + 512 - 1) / 512 ≤ 140 ↔ d.size.toNat ≤ 140 * 512
  omega

theorem lt_blockCount {d : Dinode} {k : ℕ} (h : k < d.size.toNat) : k / BSIZE < blockCount d := by
  change k / 512 < (d.size.toNat + 512 - 1) / 512
  omega

theorem blocks_grown {d d' : Dinode} {off n bn : ℕ} (hoff : off ≤ d.size.toNat)
    (hsize : d'.size.toNat = max d.size.toNat (off + n)) :
    (bn < blockCount d ∨ ∃ k, off ≤ k ∧ k < off + n ∧ k / BSIZE = bn) ↔ bn < blockCount d' := by
  rw [blockCount, blockCount, hsize]
  change (bn < (d.size.toNat + 512 - 1) / 512 ∨ ∃ k, off ≤ k ∧ k < off + n ∧ k / 512 = bn) ↔
    bn < (max d.size.toNat (off + n) + 512 - 1) / 512
  constructor
  · rintro (h | ⟨k, hk, hlt, rfl⟩)
    · omega
    · omega
  · intro h
    by_cases hold : bn < (d.size.toNat + 512 - 1) / 512
    · exact .inl hold
    · exact .inr ⟨bn * 512, by omega, by omega, by omega⟩

structure Overwritten (L : Layout) (disk : Disk) (i : ℕ) (src : ℕ → UInt8) (off n : UInt32)
    (ip : Dinode) (disk' : Disk) : Prop where
  consistent : Consistent L disk'
  dinode : ∀ j < L.ninodes, L.dinode disk' j = if j = i then ip else L.dinode disk j
  fields : ip = { L.dinode disk i with addrs := ip.addrs, size := ip.size }
  size : ip.size.toNat = max (L.dinode disk i).size.toNat (off.toNat + n.toNat)
  written : ∀ k, off.toNat ≤ k → k < off.toNat + n.toNat →
    fileByte L (L.dinode disk') disk' i k = src (k - off.toNat)
  kept : ∀ j, Allocated L (L.dinode disk) j → ∀ k < (L.dinode disk j).size.toNat,
    ¬ (j = i ∧ off.toNat ≤ k ∧ k < off.toNat + n.toNat) →
      fileByte L (L.dinode disk') disk' j k = fileByte L (L.dinode disk) disk j k

theorem Overwritten.of_written {src : ℕ → UInt8} {off n : UInt32} {disk₁ : Disk} {ip₁ : Dinode}
    (hc : Consistent L disk) (hi : Allocated L (L.dinode disk) i)
    (hoff : off.toNat ≤ (L.dinode disk i).size.toNat) (hmax : off.toNat + n.toNat ≤ MAXFILE * BSIZE)
    (hw : Written L (L.dinode disk) disk i src off.toNat n.toNat ip₁ disk₁)
    (howned : Owned L (Function.update (L.dinode disk) i ip) disk')
    (hrefs : refs L (Function.update (L.dinode disk) i ip) disk' =
      refs L (Function.update (L.dinode disk) i ip₁) disk₁)
    (hkeep : ∀ c, L.datastart ≤ c → disk' c = disk₁ c)
    (hdinode : ∀ j < L.ninodes, L.dinode disk' j = if j = i then ip else L.dinode disk j)
    (hfields : ip = { L.dinode disk i with addrs := ip.addrs, size := ip.size })
    (hsize : ip.size.toNat = max (L.dinode disk i).size.toNat (off.toNat + n.toNat)) :
    Overwritten L disk i src off n ip disk' := by
  have htable : ∀ j < L.ninodes, L.dinode disk' j = Function.update (L.dinode disk) i ip j := by
    intro j hj
    rw [hdinode j hj]
    split_ifs with hji
    · rw [hji, Function.update_self]
    · rw [Function.update_of_ne hji]
  have htype : ip.type = (L.dinode disk i).type := by rw [hfields]
  have hbytes : ∀ j k,
      refs L (Function.update (L.dinode disk) i ip₁) disk₁ (j, .data (k / BSIZE)) ≠ 0 →
      fileByte L (L.dinode disk') disk' j k =
        fileByte L (Function.update (L.dinode disk) i ip₁) disk₁ j k := by
    intro j k hne
    rw [fileByte, refs_congr_table htable, hrefs, hkeep _ (hw.owned.range _ hne).1, fileByte]
  refine ⟨.of_table howned htable (fun j hj => ?_) fun j hj bn => ?_, hdinode, hfields, hsize,
    fun k hk hlt => ?_, fun j hj k hk hout => ?_⟩
  · by_cases hji : j = i
    · have hold := (blockCount_le _).mp (hc.count_le i hi)
      rw [hji, Function.update_self, blockCount_le, hsize]
      exact max_le hold hmax
    · rw [Function.update_of_ne hji]
      exact hc.count_le j ((allocated_update htype).mp hj)
  · rw [hrefs]
    by_cases hji : j = i
    · subst hji
      rw [hw.count, hc.blocks j hi, Function.update_self]
      exact blocks_grown hoff hsize
    · rw [hw.others j bn hji, Function.update_of_ne hji]
      exact hc.blocks j ((allocated_update htype).mp hj) bn
  · rw [hbytes i k ((hw.count _).mpr (.inr ⟨k, hk, hlt, rfl⟩)), hw.written k hk hlt]
  · have hold : refs L (L.dinode disk) disk (j, .data (k / BSIZE)) ≠ 0 :=
      (hc.blocks j hj _).mpr (lt_blockCount hk)
    rw [hbytes j k (by rwa [hw.keep j _ hold]), hw.kept j k hold hout]

theorem toNat_add_of_not_lt {a b : UInt32}
    (h : ¬ a + b < a) : (a + b).toNat = a.toNat + b.toNat := by
  have ha := a.toNat_lt
  have hb := b.toNat_lt
  rw [UInt32.lt_iff_toNat_lt, UInt32.toNat_add] at h
  rw [UInt32.toNat_add]
  omega

theorem refused_of_wrap {off n : UInt32} (h : off > ip.size ∨ off + n < off) :
    Refused ip off n := by
  rcases h with h | h
  · exact .inl (UInt32.lt_iff_toNat_lt.mp h)
  · right
    rw [UInt32.lt_iff_toNat_lt, UInt32.toNat_add] at h
    change 140 * 512 < _
    omega

theorem refused_of_large {off n : UInt32} (h : (off + n).toNat > MAXFILE * BSIZE) :
    Refused ip off n :=
  .inr (lt_of_lt_of_le h (by rw [UInt32.toNat_add]; exact Nat.mod_le _ _))

theorem writei_spec {src : ℕ → UInt8} {off n : UInt32} (hc : Consistent L disk)
    (hi : Allocated L (L.dinode disk) i) (htype : (L.dinode disk i).type ≠ T_DEV) :
    Ends (· = .outOfBlocks) (writei L devsw disk i (L.dinode disk i) src off n) fun r =>
      (Refused (L.dinode disk i) off n ∧ r = (-1, L.dinode disk i, disk)) ∨
        (¬ Refused (L.dinode disk i) off n ∧ r.1 = n.toNat ∧
          Overwritten L disk i src off n r.2.1 r.2.2) := by
  rw [writei, if_neg htype]
  by_cases hwrap : off > (L.dinode disk i).size ∨ off + n < off
  · rw [if_pos hwrap]
    exact .ok (.inl ⟨refused_of_wrap hwrap, rfl⟩)
  rw [if_neg hwrap]
  by_cases hlarge : (off + n).toNat > MAXFILE * BSIZE
  · rw [if_pos hlarge]
    exact .ok (.inl ⟨refused_of_large hlarge, rfl⟩)
  rw [if_neg hlarge]
  have hsum : (off + n).toNat = off.toNat + n.toNat := toNat_add_of_not_lt fun h => hwrap (.inr h)
  have hoff : off.toNat ≤ (L.dinode disk i).size.toNat :=
    UInt32.le_iff_toNat_le.mp (UInt32.not_lt.mp fun h => hwrap (.inl h))
  have hmax : off.toNat + n.toNat ≤ MAXFILE * BSIZE := by
    rw [← hsum]
    exact not_lt.mp hlarge
  have hnot : ¬ Refused (L.dinode disk i) off n := not_or.mpr ⟨not_lt.mpr hoff, not_lt.mpr hmax⟩
  apply (writeLoop_spec n.toNat src off.toNat hc.owned hi hmax).bind
  rintro ⟨ip, disk₁⟩ hw
  replace hw : Written L (L.dinode disk) disk i src off.toNat n.toNat ip disk₁ := hw
  have hsize : ip.size = (L.dinode disk i).size := by rw [hw.fields]
  dsimp only
  by_cases hgrow : 0 < n ∧ off + n > ip.size
  · rw [if_pos hgrow]
    have hlt : ip.size.toNat < off.toNat + n.toNat := by
      rw [← hsum]
      exact UInt32.lt_iff_toNat_lt.mp hgrow.2
    have hrefs : refs L (Function.update (L.dinode disk) i { ip with size := off + n }) disk₁ =
        refs L (Function.update (L.dinode disk) i ip) disk₁ := refs_update_congr rfl rfl
    have howned :
        Owned L (Function.update (L.dinode disk) i { ip with size := off + n }) disk₁ := by
      rw [Owned, hrefs]
      exact hw.owned
    apply Ends.ok
    refine .inr ⟨hnot, rfl, .of_written hc hi hoff hmax hw ?_ ?_ (fun c hcd => ?_)
      (fun j hj => ?_) ?_ ?_⟩
    · exact howned.iupdate hi.1
    · exact (refs_iupdate howned hi.1).trans hrefs
    · exact Layout.putDinode_of_bmapstart_le hi.1 (Layout.bmapstart_le_datastart.trans hcd)
    · rw [dinode_iupdate]
      split_ifs
      · rfl
      · exact hw.dinode j hj
    · rw [hw.fields]
    · change (off + n).toNat = _
      rw [hsum, ← hsize, max_eq_right hlt.le]
  · rw [if_neg hgrow]
    have hle : n.toNat = 0 ∨ off.toNat + n.toNat ≤ ip.size.toNat := by
      by_cases hn : n.toNat = 0
      · exact .inl hn
      · right
        rw [← hsum]
        apply UInt32.le_iff_toNat_le.mp
        exact UInt32.not_lt.mp fun h =>
          hgrow ⟨UInt32.lt_iff_toNat_lt.mpr (Nat.pos_of_ne_zero hn), h⟩
    have hsame : ip = L.dinode disk i := hw.stable fun k hk hlt =>
      (hc.blocks i hi _).mpr (lt_blockCount (by rw [← hsize]; omega))
    apply Ends.ok
    refine .inr ⟨hnot, rfl, .of_written hc hi hoff hmax hw hw.owned rfl (fun _ _ => rfl)
      (fun j hj => ?_) ?_ ?_⟩
    · rw [hw.dinode j hj]
      split_ifs with hji
      · rw [hji, hsame]
      · rfl
    · rw [hw.fields]
    · have hsize' : ip.size.toNat = (L.dinode disk i).size.toNat := congrArg UInt32.toNat hsize
      change ip.size.toNat = _
      omega

theorem writei_device (src : ℕ → UInt8) (off n : UInt32) (htype : ip.type = T_DEV) :
    ∃ r, writei L devsw disk i ip src off n = .ok (r, ip, disk) := by
  rw [writei, if_pos htype]
  split
  · exact ⟨_, rfl⟩
  · exact ⟨_, rfl⟩

/-- The bytes of a file. -/
def file (L : Layout) (disk : Disk) (i : ℕ) : List UInt8 :=
  (List.range (L.dinode disk i).size.toNat).map (fileByte L (L.dinode disk) disk i)

theorem file_length : (file L disk i).length = (L.dinode disk i).size.toNat := by
  rw [file, List.length_map, List.length_range]

theorem readi_present {off n : UInt32} (hi : Allocated L (L.dinode disk) i)
    (htype : (L.dinode disk i).type ≠ T_DEV)
    (hblocks : ∀ k, off.toNat ≤ k → k < off.toNat + n.toNat → k < (L.dinode disk i).size.toNat →
      refs L (L.dinode disk) disk (i, .data (k / BSIZE)) ≠ 0) :
    readi L devsw disk (L.dinode disk i) off n =
      .ok (if off > (L.dinode disk i).size ∨ off + n < off then (-1, [])
        else ((((file L disk i).drop off.toNat).take n.toNat).length,
          ((file L disk i).drop off.toNat).take n.toNat), L.dinode disk i, disk) := by
  rw [readi, if_neg htype]
  by_cases hwrap : off > (L.dinode disk i).size ∨ off + n < off
  · rw [if_pos hwrap, if_pos hwrap]
  · rw [if_neg hwrap, if_neg hwrap]
    have hsum : (off + n).toNat = off.toNat + n.toNat := toNat_add_of_not_lt fun h => hwrap (.inr h)
    have hoff : off.toNat ≤ (L.dinode disk i).size.toNat :=
      UInt32.le_iff_toNat_le.mp (UInt32.not_lt.mp fun h => hwrap (.inl h))
    dsimp only
    generalize hm :
      (if off + n > (L.dinode disk i).size then (L.dinode disk i).size - off else n) = m
    have hmin : m.toNat = min n.toNat ((L.dinode disk i).size.toNat - off.toNat) := by
      rw [← hm]
      split_ifs with hbeyond
      · have hlt : (L.dinode disk i).size.toNat < (off + n).toNat :=
          UInt32.lt_iff_toNat_lt.mp hbeyond
        rw [UInt32.toNat_sub_of_le _ _ (UInt32.le_iff_toNat_le.mpr hoff)]
        omega
      · have hle : (off + n).toNat ≤ (L.dinode disk i).size.toNat :=
          UInt32.le_iff_toNat_le.mp (UInt32.not_lt.mp hbeyond)
        omega
    rw [readLoop_eq m.toNat hi off.toNat fun k hk hlt => hblocks k hk (by omega) (by omega)]
    have hbytes :
        (List.range m.toNat).map (fun k => fileByte L (L.dinode disk) disk i (off.toNat + k)) =
        ((file L disk i).drop off.toNat).take n.toNat := by
      apply List.ext_getElem
      · rw [List.length_map, List.length_range, List.length_take, List.length_drop,
          file_length, hmin]
      · intro k hk hk'
        simp only [file, List.getElem_take, List.getElem_drop, List.getElem_map, List.getElem_range]
    have hlength : m.toNat = (((file L disk i).drop off.toNat).take n.toNat).length := by
      rw [← hbytes, List.length_map, List.length_range]
    rw [hbytes, ← hlength]
    rfl

theorem readi_spec {off n : UInt32} (hc : Consistent L disk) (hi : Allocated L (L.dinode disk) i)
    (htype : (L.dinode disk i).type ≠ T_DEV) :
    readi L devsw disk (L.dinode disk i) off n =
      .ok (if off > (L.dinode disk i).size ∨ off + n < off then (-1, [])
        else ((((file L disk i).drop off.toNat).take n.toNat).length,
          ((file L disk i).drop off.toNat).take n.toNat), L.dinode disk i, disk) :=
  readi_present hi htype fun _ _ _ hk => (hc.blocks i hi _).mpr (lt_blockCount hk)

theorem readi_device {off n : UInt32} (htype : ip.type = T_DEV) :
    ∃ answer, readi L devsw disk ip off n = .ok (answer, ip, disk) := by
  rw [readi, if_pos htype]
  split
  · exact ⟨_, rfl⟩
  · exact ⟨_, rfl⟩

theorem Consistent.replace (hc : Consistent L disk) (hi : i < L.ninodes)
    (hrefs : refs L (Function.update (L.dinode disk) i ip) disk = refs L (L.dinode disk) disk)
    (hcount : ip.type ≠ 0 → blockCount ip ≤ MAXFILE ∧
      ∀ bn, refs L (L.dinode disk) disk (i, .data bn) ≠ 0 ↔ bn < blockCount ip) :
    Consistent L (iupdate L disk i ip) := by
  have howned : Owned L (Function.update (L.dinode disk) i ip) disk := by
    rw [Owned, hrefs]
    exact hc.owned
  have hkept : ∀ j, j ≠ i → Allocated L (Function.update (L.dinode disk) i ip) j →
      Allocated L (L.dinode disk) j := by
    intro j hj h
    rwa [Allocated, Function.update_of_ne hj] at h
  refine .of_table (howned.iupdate hi) (fun j hj => ?_) (fun j hj => ?_) fun j hj bn => ?_
  · rw [dinode_iupdate, Function.update_apply]
  · by_cases hji : j = i
    · rw [hji, Allocated, Function.update_self] at hj
      rw [hji, Function.update_self]
      exact (hcount hj.2).1
    · rw [Function.update_of_ne hji]
      exact hc.count_le j (hkept j hji hj)
  · rw [refs_iupdate howned hi, hrefs]
    by_cases hji : j = i
    · rw [hji, Allocated, Function.update_self] at hj
      rw [hji, Function.update_self]
      exact (hcount hj.2).2 bn
    · rw [Function.update_of_ne hji]
      exact hc.blocks j (hkept j hji hj) bn

theorem refs_update_of_self
    (h : ∀ p, refs L (Function.update T i ip) disk (i, p) = refs L T disk (i, p)) :
    refs L (Function.update T i ip) disk = refs L T disk := by
  funext ⟨j, p⟩
  by_cases hj : j = i
  · rw [hj]
    exact h p
  · exact refs_update_of_ne hj

theorem refs_newDinode {type : Int16} {p : Place} :
    refs L (Function.update T i (newDinode type)) disk (i, p) = 0 := by
  have haddr : ∀ k, (newDinode type).addr k = 0 := fun k => by
    rw [Dinode.addr]
    split_ifs <;> rfl
  have hblock : blockAt disk (newDinode type) p = 0 := by
    cases p with
    | indirect => exact haddr NDIRECT
    | data bn => rw [blockAt, haddr, haddr, if_pos (Or.inl rfl), ite_self]
  rw [refs]
  simp only [Function.update_self, hblock, ite_self]

theorem blockCount_zero {d : Dinode} (h : d.size = 0) : blockCount d = 0 := by
  rw [blockCount, h]
  rfl

theorem ialloc_spec {type : Int16} (hc : Consistent L disk) :
    Ends (· = .noInodes) (ialloc L disk type) fun r =>
      r.1 < L.ninodes ∧ (L.dinode disk r.1).type = 0 ∧ Consistent L r.2 ∧
        ∀ j, j ≠ r.1 → L.dinode r.2 j = L.dinode disk j := by
  rw [ialloc]
  cases hfind : (List.range L.ninodes).find? fun i => 1 ≤ i ∧ (L.dinode disk i).type = 0 with
  | none => exact .error rfl
  | some i =>
      have hi : i < L.ninodes := List.mem_range.mp (List.mem_of_find?_eq_some hfind)
      have hfree := List.find?_some hfind
      rw [decide_eq_true_iff] at hfree
      have hnone : ∀ p, refs L (L.dinode disk) disk (i, p) = 0 := fun p =>
        if_neg fun h => h.2 hfree.2
      have hzero : blockCount (newDinode type) = 0 := blockCount_zero rfl
      apply Ends.ok
      refine ⟨hi, hfree.2, hc.replace hi (refs_update_of_self fun p => ?_) fun _ => ?_,
        fun j hj => ?_⟩
      · rw [refs_newDinode, hnone]
      · rw [hzero]
        refine ⟨Nat.zero_le _, fun bn => ?_⟩
        rw [hnone]
        exact iff_of_false (fun h => h rfl) (Nat.not_lt_zero bn)
      · change L.dinode (iupdate L disk i _) j = _
        rw [dinode_iupdate, if_neg hj]

theorem itrunc_consistent (hc : Consistent L disk) (hi : Allocated L (L.dinode disk) i) :
    Ends (fun _ => False) (itrunc L disk i (L.dinode disk i)) fun r =>
      r.1 = { L.dinode disk i with addrs := fun _ => 0, size := 0 } ∧ Consistent L r.2 ∧
        (∀ p, refs L (L.dinode r.2) r.2 (i, p) = 0) ∧
        ∀ j < L.ninodes, L.dinode r.2 j = if j = i then r.1 else L.dinode disk j := by
  refine Ends.imp (itrunc_spec hc.owned hi) ?_
  rintro ⟨ip, d⟩ ⟨hip, howned, hrefs, -, hdinode⟩
  replace hip : ip = { L.dinode disk i with addrs := fun _ => 0, size := 0 } := hip
  replace howned : Owned L (Function.update (L.dinode disk) i ip) d := howned
  replace hrefs : ∀ j p, refs L (Function.update (L.dinode disk) i ip) d (j, p) =
    if j = i then 0 else refs L (L.dinode disk) disk (j, p) := hrefs
  replace hdinode : ∀ j < L.ninodes, L.dinode d j = if j = i then ip else L.dinode disk j := hdinode
  have htype : ip.type = (L.dinode disk i).type := by rw [hip]
  have hzero : blockCount ip = 0 := blockCount_zero (by rw [hip])
  have htable : ∀ j < L.ninodes, L.dinode d j = Function.update (L.dinode disk) i ip j := by
    intro j hj
    rw [hdinode j hj, Function.update_apply]
  refine ⟨hip, .of_table howned htable (fun j hj => ?_) fun j hj bn => ?_, fun p => ?_, hdinode⟩
  · by_cases hji : j = i
    · rw [hji, Function.update_self, hzero]
      exact Nat.zero_le _
    · rw [Function.update_of_ne hji]
      exact hc.count_le j ((allocated_update htype).mp hj)
  · rw [hrefs]
    split_ifs with hji
    · rw [hji, Function.update_self, hzero]
      exact iff_of_false (fun h => h rfl) (Nat.not_lt_zero bn)
    · rw [Function.update_of_ne hji]
      exact hc.blocks j ((allocated_update htype).mp hj) bn
  · rw [refs_congr_table htable, hrefs, if_pos rfl]

theorem setNlink_consistent {nlink : Int16} (hc : Consistent L disk)
    (hi : Allocated L (L.dinode disk) i) :
    Consistent L (iupdate L disk i { L.dinode disk i with nlink := nlink }) := by
  have hrefs :
      refs L (Function.update (L.dinode disk) i { L.dinode disk i with nlink := nlink }) disk =
      refs L (L.dinode disk) disk := by
    have hsame : refs L (Function.update (L.dinode disk) i { L.dinode disk i with nlink := nlink })
        disk = refs L (Function.update (L.dinode disk) i (L.dinode disk i)) disk :=
      refs_update_congr rfl rfl
    rw [hsame, Function.update_eq_self]
  exact hc.replace hi.1 hrefs fun _ => ⟨hc.count_le i hi, hc.blocks i hi⟩

/-- The panics that a full disk or a free inode causes. -/
def Panic.Expected (e : Panic) : Prop := e = .outOfBlocks ∨ e = .noInodes ∨ e = .noType

theorem ilock_allocated (h : Inv L s) (hi : i < L.ninodes) :
    Ends Panic.Expected (ilock L s i) fun ip =>
      ip = L.dinode s.disk i ∧ Allocated L (L.dinode s.disk) i :=
  (ilock_spec h hi).mono (fun _ he => .inr (.inr he)) fun _ => id

theorem readi_unchanged (devsw : Devsw) (hc : Consistent L disk)
    (hi : Allocated L (L.dinode disk) i)
    (off n : UInt32) :
    ∃ answer, readi L devsw disk (L.dinode disk i) off n = .ok (answer, L.dinode disk i, disk) := by
  by_cases htype : (L.dinode disk i).type = T_DEV
  · exact readi_device htype
  · exact ⟨_, readi_spec hc hi htype⟩

theorem iput_spec {r : ℕ} (h : Inv L s) (hi : i < L.ninodes) :
    Ends (fun _ => False) (iput L s i r) (Inv L) := by
  rw [iput]
  cases hcache : s.icache i with
  | none => exact .ok h
  | some ip =>
      obtain ⟨rfl, htype⟩ := h.cached i hi ip hcache
      apply Ends.ite
      · intro _
        refine Ends.bind (itrunc_consistent h.consistent ⟨hi, htype⟩) ?_
        rintro ⟨ip, d⟩ ⟨hip, hc, hnone, hdinode⟩
        replace hdinode : ∀ j < L.ninodes, L.dinode d j =
          if j = i then ip else L.dinode s.disk j := hdinode
        apply Ends.ok
        refine ⟨hc.replace hi (refs_update_of_self fun p => ?_) fun h => absurd rfl h,
          fun j hj jp hjp => ?_⟩
        · rw [hnone]
          exact if_neg fun hfree => hfree.2 (by rw [Function.update_self])
        · rw [recycle_icache] at hjp
          split_ifs at hjp with hji
          obtain ⟨hold, hjtype⟩ := h.cached j hj jp hjp
          refine ⟨?_, hjtype⟩
          change jp = L.dinode (iupdate L d i _) j
          rw [dinode_iupdate, if_neg hji, hdinode j hj, if_neg hji]
          exact hold
      · exact fun _ => .ok h

theorem step_spec (h : Inv L s) (call : Call L) :
    Ends Panic.Expected (step L devsw s call) fun r => Inv L r.2 := by
  cases call with
  | readi i off n =>
      apply (ilock_allocated h i.isLt).bind
      rintro ip ⟨rfl, hi⟩
      obtain ⟨answer, hread⟩ := readi_unchanged devsw h.consistent hi off n
      rw [hread]
      exact .ok (h.iunlock h.consistent ⟨rfl, hi.2⟩ fun _ _ _ => rfl)
  | writei i src off n =>
      apply (ilock_allocated h i.isLt).bind
      rintro ip ⟨rfl, hi⟩
      by_cases htype : (L.dinode s.disk i).type = T_DEV
      · obtain ⟨r, hwrite⟩ : ∃ r, writei L devsw s.disk i (L.dinode s.disk i) src off n =
            .ok (r, L.dinode s.disk i, s.disk) := writei_device src off n htype
        rw [hwrite]
        exact .ok (h.iunlock h.consistent ⟨rfl, hi.2⟩ fun _ _ _ => rfl)
      · have hwrite :
          Ends Panic.Expected (writei L devsw s.disk i (L.dinode s.disk i) src off n) _ :=
          (writei_spec h.consistent hi htype).mono (fun _ he => .inl he) fun _ => id
        apply hwrite.bind
        rintro ⟨r, ip, d⟩ (⟨-, heq⟩ | ⟨-, -, hover⟩)
        · cases heq
          exact .ok (h.iunlock h.consistent ⟨rfl, hi.2⟩ fun _ _ _ => rfl)
        · replace hover : Overwritten L s.disk i src off n ip d := hover
          refine .ok (h.iunlock hover.consistent ⟨?_, ?_⟩ fun j hj hji => ?_)
          · rw [hover.dinode i i.isLt, if_pos rfl]
          · rw [hover.fields]
            exact hi.2
          · rw [hover.dinode j hj, if_neg hji]
  | setNlink i nlink =>
      apply (ilock_allocated h i.isLt).bind
      rintro ip ⟨rfl, hi⟩
      refine .ok (h.iunlock (setNlink_consistent h.consistent hi) ⟨?_, hi.2⟩ fun j _ hj => ?_)
      · rw [dinode_iupdate, if_pos rfl]
      · rw [dinode_iupdate, if_neg hj]
  | itrunc i =>
      apply (ilock_allocated h i.isLt).bind
      rintro ip ⟨rfl, hi⟩
      refine Ends.bind (Ends.of_never (itrunc_consistent h.consistent hi)) ?_
      rintro ⟨ip, d⟩ ⟨hip, hc, -, hdinode⟩
      replace hip : ip = { L.dinode s.disk i with addrs := fun _ => 0, size := 0 } := hip
      replace hdinode : ∀ j < L.ninodes, L.dinode d j =
        if j = i then ip else L.dinode s.disk j := hdinode
      refine .ok (h.iunlock hc ⟨?_, ?_⟩ fun j hj hji => ?_)
      · rw [hdinode i i.isLt, if_pos rfl]
      · rw [hip]
        exact hi.2
      · rw [hdinode j hj, if_neg hji]
  | ialloc type =>
      have halloc : Ends Panic.Expected (ialloc L s.disk type) _ :=
        (ialloc_spec h.consistent).mono (fun _ he => .inr (.inl he)) fun _ => id
      apply halloc.bind
      rintro ⟨i, d⟩ ⟨hi, hfree, hc, hothers⟩
      apply Ends.ok
      refine ⟨hc, fun j hj jp hjp => ?_⟩
      obtain ⟨hold, htype⟩ := h.cached j hj jp hjp
      have hji : j ≠ i := by
        rintro rfl
        rw [hold] at htype
        exact htype hfree
      exact ⟨hold.trans (hothers j hji).symm, htype⟩
  | iput i r => exact (iput_spec h i.isLt).of_never.bind fun _ h => .ok h
  | recycle i => exact .ok h.recycle

theorem run_spec (h : Inv L s) (calls : List (Call L)) :
    Ends Panic.Expected (run L devsw s calls) fun r => Inv L r.2 := by
  induction calls generalizing s with
  | nil => exact .ok h
  | cons call calls ih =>
      apply (step_spec h call).bind
      rintro ⟨answer, t⟩ ht
      exact (ih ht).bind fun _ h => .ok h

/-- No sequence of calls frees a free block or reaches behind the largest file; at its end the
bitmap agrees with the inodes, no two files share a block, and reading changes nothing. -/
theorem block_ownership (devsw : Devsw) (h : Inv L s) (calls : List (Call L)) :
    Ends (fun e => e ≠ .freeingFreeBlock ∧ e ≠ .outOfRange) (run L devsw s calls) fun r =>
      Consistent L r.2.disk ∧
        (∀ i j p q, i ≠ j → refs L (L.dinode r.2.disk) r.2.disk (i, p) ≠ 0 →
          refs L (L.dinode r.2.disk) r.2.disk (i, p) ≠ refs L (L.dinode r.2.disk) r.2.disk (j, q)) ∧
        ∀ i < L.ninodes, ∀ ip off n, ilock L r.2 i = .ok ip →
          ∃ answer, readi L devsw r.2.disk ip off n = .ok (answer, ip, r.2.disk) := by
  apply (run_spec h calls).mono
  · rintro e (rfl | rfl | rfl)
    · exact ⟨by decide, by decide⟩
    · exact ⟨by decide, by decide⟩
    · exact ⟨by decide, by decide⟩
  · rintro ⟨answers, t⟩ ht
    refine ⟨ht.consistent, fun i j p q hij hne heq => ?_, fun i hi ip off n hlock => ?_⟩
    · exact hij (congrArg Prod.fst (ht.consistent.owned.unique _ _ hne heq))
    · obtain ⟨rfl, halloc⟩ := (ilock_spec ht hi).of_ok hlock
      exact readi_unchanged devsw ht.consistent halloc off n

/-- A disk without inodes, whose bitmap marks the 59 blocks of metadata. -/
def newDisk : Disk := fun b =>
  if b = mkfsLayout.bmapstart then fun k => if k.val < 7 then 255 else if k.val = 7 then 7 else 0
  else fun _ => 0

def newState : State := ⟨newDisk, fun _ => none⟩

theorem newDisk_dinode (hi : i < mkfsLayout.ninodes) : (mkfsLayout.dinode newDisk i).type = 0 := by
  have hblock : newDisk (mkfsLayout.IBLOCK i) = fun _ => 0 := if_neg (Layout.IBLOCK_lt hi).ne
  rw [Layout.dinode, hblock]
  change Dinode.getShort _ _ = 0
  rw [Dinode.getShort, Block.getWord_zero]
  rfl

theorem newState_inv : Inv mkfsLayout newState := by
  have hrefs : ∀ k, refs mkfsLayout (mkfsLayout.dinode newDisk) newDisk k = 0 := fun k =>
    if_neg fun h => h.2 (newDisk_dinode h.1)
  have hused : ∀ b < mkfsLayout.size, mkfsLayout.Used newDisk b ↔ b < mkfsLayout.datastart := by
    decide +kernel
  refine ⟨⟨⟨Layout.datastart_pos, fun b hb => ?_, fun k hk => absurd (hrefs k) hk,
    fun k _ hk => absurd (hrefs k) hk⟩, fun i hi => absurd (newDisk_dinode hi.1) hi.2,
    fun i hi => absurd (newDisk_dinode hi.1) hi.2⟩, fun _ _ _ h => by cases h⟩
  change mkfsLayout.Used newDisk b ↔ _
  rw [hused b hb, or_iff_left_of_imp]
  rintro ⟨k, hk⟩
  rw [← hk]
  exact (hrefs k).trans_lt Layout.datastart_pos

def firstInode : Fin mkfsLayout.ninodes := ⟨1, by decide⟩

/-- A file is made, written into its second block, read and truncated. -/
def firstCalls : List (Call mkfsLayout) :=
  [.ialloc 2, .writei firstInode (fun k => UInt8.ofNat k) 0 600, .readi firstInode 510 4,
    .itrunc firstInode]

theorem block_ownership_new_disk :
    ∃ r, run mkfsLayout ⟨fun _ => none, fun _ => none⟩ newState firstCalls = .ok r ∧
      r.1.map Prod.snd = [[], [], [254, 255, 0, 1], []] ∧ Consistent mkfsLayout r.2.disk := by
  have hrun : ((run mkfsLayout ⟨fun _ => none, fun _ => none⟩ newState firstCalls).toOption.any
      fun r => r.1.map Prod.snd = [[], [], [254, 255, 0, 1], []]) = true := by
    decide +kernel
  obtain ⟨r, hr, hread⟩ := (Option.any_eq_true _ _).mp hrun
  have hresult := ok_of_toOption hr
  exact ⟨r, hresult, of_decide_eq_true hread,
    ((block_ownership _ newState_inv firstCalls).of_ok hresult).1⟩

end Calls

end FileBlocks

end Xv6Fairness
