import Xv6Fairness.DiskImage

/-!
# The blocks of a disk image

While `mkfs` runs, the bitmap is not on the image yet: it is the counter. With the bitmap that the
counter stands for, the image is one on which each block belongs to one place, and `iappend` finds
and takes blocks there as `bmap` does.
-/

namespace Xv6Fairness

open ByteBlocks Outcomes Ownership FileBlocks

namespace Mkfs

/-- The superblock with all the inodes that the inode blocks have room for. -/
def wide : Layout where
  toSuperblock := { mkfs with ninodes := (mkfs.bmapstart - mkfs.inodestart) * IPB }
  inodes_end := by decide
  bitmap_end := by decide
  size_lt := by decide

/-- The image with the bitmap that `balloc` would write now. -/
def State.image (s : State) : Disk := Function.update s.disk wide.bmapstart (bitmap s.freeblock)

section Bitmap

variable {b c k n : ℕ} {s : State}

theorem bitmap_succ : bitmap (n + 1) = (bitmap n).setBit n := by
  rw [bitmap, List.range_succ, List.foldl_append]
  rfl

theorem hasBit_bitmap (hn : n ≤ BPB) : (bitmap n).HasBit k ↔ k < n := by
  induction n with
  | zero =>
      refine iff_of_false (fun h => h ?_) (Nat.not_lt_zero k)
      have hzero : (bitmap 0).byteAt (k / 8) = 0 := by
        rw [Block.byteAt]
        split_ifs <;> rfl
      rw [hzero, UInt8.zero_and]
  | succ n ih =>
      have hbyte : n / 8 < BSIZE := by
        change n + 1 ≤ 512 * 8 at hn
        change _ < 512
        omega
      rw [bitmap_succ, Block.hasBit_setBit hbyte, ih (Nat.le_of_succ_le hn),
        Nat.lt_succ_iff_lt_or_eq,
        or_comm]

theorem image_of_ne (hc : c ≠ wide.bmapstart) : s.image c = s.disk c := Function.update_of_ne hc _ _

theorem bmapstart_lt_datastart : wide.bmapstart < wide.datastart := by decide

theorem image_data (hc : wide.datastart ≤ c) : s.image c = s.disk c :=
  image_of_ne (bmapstart_lt_datastart.trans_le hc).ne'

theorem dinode_image {i : ℕ}
    (hi : i < wide.ninodes) : wide.dinode s.image i = wide.dinode s.disk i :=
  Layout.dinode_update hi le_rfl

theorem used_image (hs : s.freeblock ≤ BPB) (hb : b < wide.size) :
    wide.Used s.image b ↔ b < s.freeblock := by
  have hlt : b < BPB := hb.trans (by decide)
  have hblock : wide.BBLOCK b = wide.bmapstart := by
    rw [Layout.BBLOCK, Nat.div_eq_of_lt hlt, Nat.zero_add]
  rw [Layout.Used, hblock, State.image, Function.update_self, Nat.mod_eq_of_lt hlt,
    hasBit_bitmap hs]

end Bitmap

section Sectors

variable {s : State} {x c : ℕ} {buf : DiskBlock}

theorem sector_of_lt (hx : x < 2 ^ 23) : sector x = x := by
  rw [sector]
  change x * 512 % 2 ^ 32 / 512 = x
  omega

theorem rsect_spec (hs : s.sectors = FSSIZE) (hx : x < 2 ^ 23) :
    Ends (fun _ => True) (rsect s x) fun buf => x < FSSIZE ∧ buf = s.disk x := by
  rw [rsect, sector_of_lt hx, hs]
  exact .ite (fun hlt => .ok ⟨hlt, rfl⟩) fun _ => .error trivial

theorem rsect_eq (hs : s.sectors = FSSIZE) (hx : x < FSSIZE) : rsect s x = .ok (s.disk x) := by
  rw [rsect, sector_of_lt (hx.trans (by decide)), hs, if_pos hx]

theorem wsect_eq (hs : s.sectors = FSSIZE) (hx : x < FSSIZE) :
    wsect s x buf = { s with disk := Function.update s.disk x buf } := by
  rw [wsect, sector_of_lt (hx.trans (by decide)), hs, max_eq_left (Nat.succ_le_of_lt hx), ← hs]

end Sectors

/-- The blocks named by the inodes `T` are the ones handed out, the others are blank. -/
structure Sound (s : State) (T : ℕ → Dinode) : Prop where
  sectors : s.sectors = FSSIZE
  high : s.freeblock ≤ FSSIZE
  blank : ∀ c, s.freeblock ≤ c → s.disk c = fun _ => 0
  owned : Owned wide T s.image

/-- Block `bn` of inode `i` is at the address that is returned. -/
structure Located (s : State) (T : ℕ → Dinode) (i bn : ℕ) (r : ℕ × Dinode × State) : Prop where
  sound : Sound r.2.2 (Function.update T i r.2.1)
  mapped : Mapped wide T s.image i bn (r.1, r.2.1, r.2.2.image)
  fresh : refs wide T s.image (i, .data bn) = 0 → r.2.2.disk r.1 = fun _ => 0
  low : ∀ c < wide.datastart, r.2.2.disk c = s.disk c
  freeinode : r.2.2.freeinode = s.freeinode

/-- The address may lie behind the image, where the next access to it fails. -/
structure Addressed (s : State) (T : ℕ → Dinode) (i bn : ℕ) (r : ℕ × Dinode × State) : Prop where
  sectors : r.2.2.sectors = FSSIZE
  lt : r.1 < 2 ^ 23
  located : r.1 < FSSIZE → Located s T i bn r

section Blocks

variable {s s₁ : State} {T : ℕ → Dinode} {i bn x : ℕ} {ip : Dinode} {k : ℕ × Place}

theorem Sound.le_BPB (h : Sound s T) : s.freeblock ≤ BPB := h.high.trans (by decide)

theorem Sound.lt_freeblock (h : Sound s T) (hk : refs wide T s.image k ≠ 0) :
    refs wide T s.image k < s.freeblock :=
  (used_image h.le_BPB (h.owned.range k hk).2).mp (h.owned.used_refs hk)

theorem Sound.low (h : Sound s T) : wide.datastart ≤ s.freeblock := by
  by_contra hlt
  have hused : wide.Used s.image s.freeblock := h.owned.low _ (not_le.mp hlt)
  have hsize : s.freeblock < wide.size := (not_le.mp hlt).trans (by decide)
  exact lt_irrefl _ ((used_image h.le_BPB hsize).mp hused)

theorem Sound.taken (h : Sound s T) (hlt : s.freeblock < FSSIZE) :
    Taken wide s.image s.freeblock s.take.image := by
  have hle : s.take.freeblock ≤ BPB := (Nat.succ_le_of_lt hlt).trans (by decide)
  refine ⟨hlt, fun hused => ?_, fun c hc => ?_, ?_, fun c hc _ => ?_, fun j hj => ?_⟩
  · exact lt_irrefl _ ((used_image h.le_BPB hlt).mp hused)
  · rw [used_image hle hc, used_image h.le_BPB hc]
    exact Nat.lt_succ_iff_lt_or_eq.trans or_comm
  · rw [image_data h.low]
    exact h.blank _ le_rfl
  · rw [image_data hc, image_data hc]
    rfl
  · rw [dinode_image hj, dinode_image hj]
    rfl

theorem Sound.take (h : Sound s T) (hlt : s.freeblock < FSSIZE) {T' : ℕ → Dinode}
    (howned : Owned wide T' s.take.image) : Sound s.take T' :=
  ⟨h.sectors, hlt, fun c hc => h.blank c (Nat.le_of_succ_le hc), howned⟩

theorem Sound.found (h : Sound s T) (hb : refs wide T s.image (i, .data bn) = x) (hne : x ≠ 0) :
    Addressed s T i bn (x, T i, s) := by
  have hlt : x < FSSIZE := by
    rw [← hb] at hne ⊢
    exact (h.owned.range _ hne).2
  refine ⟨h.sectors, hlt.trans (by decide), fun _ => ⟨?_, .found h.owned hb hne,
    fun hzero => absurd (hb.symm.trans hzero) hne, fun _ _ => rfl, rfl⟩⟩
  rw [Function.update_eq_self]
  exact h

theorem directBlock_spec (h : Sound s T) (hi : Allocated wide T i) (hbn : bn < NDIRECT) :
    Addressed s T i bn (directBlock s bn (T i)) := by
  have hself : refs wide T s.image (i, .data bn) = (T i).addr bn := by
    rw [refs_of_allocated hi, blockAt, if_pos hbn]
  rw [directBlock]
  split_ifs with hzero
  · refine ⟨h.sectors, h.high.trans_lt (by decide), fun hlt => ?_⟩
    have ht := h.taken hlt
    have hmapped : Mapped wide T s.image i bn (s.freeblock, (T i).setAddr bn s.freeblock,
        s.take.image) := by
      refine .take h.owned ht (hself.trans hzero) ?_ (fun _ _ => Iff.rfl) (fun _ _ _ => rfl) rfl
        (fun _ _ => rfl)
      rw [refs_setAddr_direct hi hbn ht.lt_word, ht.refs_eq h.owned]
    exact ⟨h.take hlt hmapped.grown.owned, hmapped, fun _ => h.blank _ le_rfl, fun _ _ => rfl, rfl⟩
  · exact h.found hself hzero

/-- The indirect block is there, or lies behind the image. -/
structure Prepared (s : State) (T : ℕ → Dinode) (i : ℕ) (r : Dinode × State) : Prop where
  sound : Sound r.2 (Function.update T i r.1)
  grown : Grown wide T s.image i r.1 r.2.image
  ne_zero : r.1.addr NDIRECT ≠ 0
  others : ∀ j m, refs wide (Function.update T i r.1) r.2.image (j, .data m) =
    refs wide T s.image (j, .data m)
  stable : (T i).addr NDIRECT ≠ 0 → r.1 = T i
  low : ∀ c < wide.datastart, r.2.disk c = s.disk c
  freeinode : r.2.freeinode = s.freeinode

theorem indirectAddr_spec (h : Sound s T) (hi : Allocated wide T i) :
    (indirectAddr s (T i)).2.sectors = FSSIZE ∧
      (indirectAddr s (T i)).1.addr NDIRECT < 2 ^ 23 ∧
      ((indirectAddr s (T i)).1.addr NDIRECT < FSSIZE → Prepared s T i (indirectAddr s (T i))) := by
  have hself : refs wide T s.image (i, .indirect) = (T i).addr NDIRECT := refs_of_allocated hi
  rw [indirectAddr]
  split_ifs with hzero
  · have haddr : ((T i).setAddr NDIRECT s.freeblock).addr NDIRECT = s.freeblock := by
      rw [Dinode.addr_setAddr le_rfl (h.high.trans_lt (by decide)), if_pos rfl]
    refine ⟨h.sectors, haddr.trans_lt (h.high.trans_lt (by decide)), fun hlt => ?_⟩
    replace hlt : s.freeblock < FSSIZE := haddr.symm.trans_lt hlt
    have ht := h.taken hlt
    have hrefs : refs wide (Function.update T i ((T i).setAddr NDIRECT s.freeblock)) s.take.image =
        Function.update (refs wide T s.image) (i, .indirect) s.freeblock := by
      rw [refs_setAddr_indirect hi hzero ht.lt_word fun _ => ht.zero, ht.refs_eq h.owned]
    have hgrown : Grown wide T s.image i ((T i).setAddr NDIRECT s.freeblock) s.take.image :=
      .take h.owned ht (hself.trans hzero) hrefs (fun _ _ => Iff.rfl) (fun _ _ _ => rfl) rfl
        fun _ _ => rfl
    refine ⟨h.take hlt hgrown.owned, hgrown, ?_, fun j m => ?_, fun hne => absurd hzero hne,
      fun _ _ => rfl, rfl⟩
    · change ((T i).setAddr NDIRECT s.freeblock).addr NDIRECT ≠ 0
      rw [haddr]
      exact ht.ne_zero h.owned
    · rw [hrefs]
      exact Function.update_of_ne (fun h => by cases h) _ _
  · have hlt : (T i).addr NDIRECT < FSSIZE := by
      rw [← hself] at hzero ⊢
      exact (h.owned.range _ hzero).2
    refine ⟨h.sectors, hlt.trans (by decide), fun _ => ⟨?_, .refl h.owned, hzero, fun j m => ?_,
      fun _ => rfl, fun _ _ => rfl, rfl⟩⟩
    · rw [Function.update_eq_self]
      exact h
    · rw [Function.update_eq_self]

theorem image_write (hx : wide.datastart ≤ x) (buf : DiskBlock) :
    State.image { s with disk := Function.update s.disk x buf } = Function.update s.image x buf :=
  Function.update_comm (bmapstart_lt_datastart.trans_le hx).ne' _ _ _

theorem Sound.write (h : Sound s T) (hx : x < s.freeblock) {T' : ℕ → Dinode} {buf : DiskBlock}
    (howned : Owned wide T' (State.image { s with disk := Function.update s.disk x buf })) :
    Sound { s with disk := Function.update s.disk x buf } T' :=
  ⟨h.sectors, h.high, fun c hc =>
    (Function.update_of_ne (hx.trans_le hc).ne' _ _).trans (h.blank c hc), howned⟩

theorem indirectEntry_spec (h : Sound s T) (hi : Allocated wide T i)
    (hind : (T i).addr NDIRECT ≠ 0) (hbn : NDIRECT ≤ bn) (hmax : bn < MAXFILE) :
    Ends (fun _ => True) (indirectEntry s (bn - NDIRECT) (T i)) (Addressed s T i bn) := by
  have hindirect : refs wide T s.image (i, .indirect) = (T i).addr NDIRECT := refs_of_allocated hi
  have hne : refs wide T s.image (i, .indirect) ≠ 0 := by rwa [hindirect]
  have hrange := h.owned.range _ hne
  have hused := h.lt_freeblock hne
  rw [hindirect] at hrange hused
  obtain ⟨hdata, hsize⟩ := hrange
  replace hsize : (T i).addr NDIRECT < FSSIZE := hsize
  have hself : refs wide T s.image (i, .data bn) =
      entry (s.disk ((T i).addr NDIRECT)) (bn - NDIRECT) := by
    rw [refs_of_allocated hi, blockAt, if_neg (not_lt.mpr hbn),
      if_neg (not_or.mpr ⟨hind, not_le.mpr hmax⟩), image_data hdata]
  rw [indirectEntry, rsect_eq h.sectors hsize, ok_bind]
  apply Ends.ite
  · intro hzero
    have hsectors : s.take.sectors = FSSIZE := h.sectors
    rw [wsect_eq hsectors hsize]
    apply Ends.ok
    refine ⟨hsectors, h.high.trans_lt (by decide), fun hlt => ?_⟩
    have ht := h.taken hlt
    have hunique := h.owned.unique
    rw [← ht.refs_eq h.owned] at hunique
    have hblock : s.take.image ((T i).addr NDIRECT) = s.disk ((T i).addr NDIRECT) :=
      image_data hdata
    have hmapped : Mapped wide T s.image i bn (s.freeblock, T i, Function.update s.take.image
        ((T i).addr NDIRECT)
        ((s.take.image ((T i).addr NDIRECT)).putWord (4 * (bn - NDIRECT)) 4 s.freeblock)) := by
      refine .take h.owned ht (hself.trans hzero) ?_
        (fun c hc => Layout.used_update hc (.inr hdata))
        (fun j m hm => ?_) rfl fun j hj => Layout.dinode_update hj
          (Layout.bmapstart_le_datastart.trans hdata)
      · rw [Function.update_eq_self, refs_putEntry hunique hi hind hbn hmax ht.lt_word,
          ht.refs_eq h.owned]
      · apply Function.update_of_ne
        intro heq
        have hpair := h.owned.unique (j, .data m) (i, .indirect) hm (heq.trans hindirect.symm)
        cases hpair
    rw [hblock, ← image_write hdata] at hmapped
    have hgrown := hmapped.grown.owned
    refine ⟨?_, hmapped, fun _ => (Function.update_of_ne hused.ne' _ _).trans (h.blank _ le_rfl),
      fun c hc => Function.update_of_ne (hc.trans_le hdata).ne _ _, rfl⟩
    refine ⟨h.sectors, hlt, fun c hc => ?_, hgrown⟩
    exact (Function.update_of_ne (hused.trans hc).ne' _ _).trans (h.blank c (Nat.le_of_succ_le hc))
  · exact fun hne => .ok (h.found hself hne)

theorem Located.after {r : ℕ × Dinode × State} (hp : Prepared s T i (ip, s₁))
    (h : Located s₁ (Function.update T i ip) i bn r) (hi : Allocated wide T i)
    (hbn : ¬ bn < NDIRECT) :
    Located s T i bn r := by
  obtain ⟨hsound, ⟨hgrown, haddr, hne, hothers, hstable⟩, hfresh, hlow, hfree⟩ := h
  rw [Function.update_idem] at hsound haddr hothers
  rw [Function.update_self] at hstable
  have hdata : refs wide T s.image (i, .data bn) ≠ 0 → (T i).addr NDIRECT ≠ 0 := by
    intro hne hzero
    rw [refs_of_allocated hi, blockAt, if_neg hbn, if_pos (Or.inl hzero)] at hne
    exact hne rfl
  refine ⟨hsound, ⟨hp.grown.trans hgrown, haddr, hne, fun j m hjm => ?_, fun h => ?_⟩,
    fun hzero => hfresh ((hp.others _ _).trans hzero), fun c hc => ?_, hfree.trans hp.freeinode⟩
  · rw [hothers j m hjm, hp.others]
  · have hsame : ip = T i := hp.stable (hdata h)
    rw [← hsame]
    apply hstable
    rwa [hp.others]
  · rw [hlow c hc, hp.low c hc]

theorem fileBlock_spec (h : Sound s T) (hi : Allocated wide T i) (hmax : bn < MAXFILE) :
    Ends (fun _ => True) (fileBlock s bn (T i)) (Addressed s T i bn) := by
  rw [fileBlock]
  split_ifs with hbn
  · exact .ok (directBlock_spec h hi hbn)
  · obtain ⟨hsectors, hlt, hprepared⟩ := indirectAddr_spec h hi
    generalize indirectAddr s (T i) = r at hsectors hlt hprepared
    obtain ⟨ip, s₁⟩ := r
    replace hprepared : ip.addr NDIRECT < FSSIZE → Prepared s T i (ip, s₁) := hprepared
    change Ends _ (indirectEntry s₁ (bn - NDIRECT) ip) _
    by_cases hin : ip.addr NDIRECT < FSSIZE
    · have hp := hprepared hin
      have hind : (Function.update T i ip i).addr NDIRECT ≠ 0 := by
        rw [Function.update_self]
        exact hp.ne_zero
      have hnext := indirectEntry_spec hp.sound ((allocated_update hp.grown.type_eq).mpr hi) hind
        (not_lt.mp hbn) hmax
      rw [Function.update_self] at hnext
      apply hnext.imp
      rintro r ⟨hsectors', hlt', hlocated⟩
      exact ⟨hsectors', hlt', fun hr => (hlocated hr).after hp hi hbn⟩
    · have hbeyond := rsect_spec hsectors hlt
      rw [indirectEntry]
      exact hbeyond.bind fun _ h => absurd h.1 hin

structure Appended (s : State) (T : ℕ → Dinode) (i : ℕ) (src : ℕ → UInt8) (off n : ℕ)
    (r : ℕ × Dinode × State) : Prop where
  sound : Sound r.2.2 (Function.update T i r.2.1)
  written : Written wide T s.image i src off n r.2.1 r.2.2.image
  offset : r.1 = off + n
  fits : n ≠ 0 → off + n ≤ MAXFILE * BSIZE
  tail : ∀ k, off + n ≤ k →
    refs wide (Function.update T i r.2.1) r.2.2.image (i, .data (k / BSIZE)) ≠ 0 →
    (refs wide T s.image (i, .data (k / BSIZE)) ≠ 0 → fileByte wide T s.image i k = 0) →
      fileByte wide (Function.update T i r.2.1) r.2.2.image i k = 0
  low : ∀ c < wide.datastart, r.2.2.disk c = s.disk c
  freeinode : r.2.2.freeinode = s.freeinode

theorem Located.range {r : ℕ × Dinode × State} (h : Located s T i bn r) :
    wide.datastart ≤ r.1 ∧ r.1 < r.2.2.freeblock := by
  have haddr : refs wide (Function.update T i r.2.1) r.2.2.image (i, .data bn) = r.1 :=
    h.mapped.addr
  have hne : refs wide (Function.update T i r.2.1) r.2.2.image (i, .data bn) ≠ 0 := by
    rw [haddr]
    exact h.mapped.ne_zero
  have hlt := h.sound.lt_freeblock hne
  rw [haddr] at hlt
  refine ⟨?_, hlt⟩
  rw [← haddr]
  exact (h.sound.owned.range _ hne).1

theorem Located.write {off m : ℕ} (h : Located s T i (off / BSIZE) (x, ip, s₁))
    (src : ℕ → UInt8) (hm : 0 < m) (hfit : off % BSIZE + m ≤ BSIZE)
    (hmax : off + m ≤ MAXFILE * BSIZE) :
    Appended s T i src off m (off + m, ip, { s₁ with
      disk := Function.update s₁.disk x ((s₁.disk x).patch (off % BSIZE) m src) }) := by
  obtain ⟨hdata, hlt⟩ := h.range
  have hwritten := h.mapped.write src hm hfit
  replace hwritten : Written wide T s.image i src off m ip
      (Function.update s₁.image x ((s₁.image x).patch (off % BSIZE) m src)) := hwritten
  rw [image_data hdata, ← image_write hdata] at hwritten
  refine ⟨h.sound.write hlt hwritten.owned, hwritten, rfl, fun _ => hmax, fun k hk hne hold => ?_,
    fun c hc => (Function.update_of_ne (hc.trans_le hdata).ne _ _).trans (h.low c hc), h.freeinode⟩
  by_cases hzero : refs wide T s.image (i, .data (k / BSIZE)) = 0
  · have hblock : k / BSIZE = off / BSIZE := by
      by_contra hother
      obtain hkept | ⟨m', hm', hlt', hdiv⟩ := (hwritten.count _).mp hne
      · exact hkept hzero
      · rw [← hdiv] at hother
        change m' / 512 ≠ off / 512 at hother
        change off % 512 + m ≤ 512 at hfit
        omega
    have haddr : refs wide (Function.update T i ip) s₁.image (i, .data (off / BSIZE)) = x :=
      h.mapped.addr
    rw [hblock] at hzero
    have hblank : s₁.disk x = fun _ => 0 := h.fresh hzero
    have hbyte : off % BSIZE + m ≤ k % BSIZE := by
      change k / 512 = off / 512 at hblock
      change off % 512 + m ≤ k % 512
      omega
    dsimp only
    rw [fileByte, image_write hdata, h.mapped.refs_write, hblock, haddr, Function.update_self,
      Block.byteAt_patch_of_not_mem (.inr hbyte), hblank, Block.byteAt]
    exact ite_self 0
  · rw [hwritten.kept i k hzero fun hin => absurd hin.2.2 (not_lt.mpr hk)]
    exact hold hzero

theorem Appended.trans {src : ℕ → UInt8} {off n m : ℕ} {r : ℕ × Dinode × State}
    (h₁ : Appended s T i src off m (off + m, ip, s₁))
    (h₂ : Appended s₁ (Function.update T i ip) i (fun k => src (m + k)) (off + m) n r) :
    Appended s T i src off (m + n) r := by
  obtain ⟨hsound, hwritten, hoffset, hfits, htail, hlow, hfree⟩ := h₂
  simp only [Function.update_idem] at hsound htail
  refine ⟨hsound, h₁.written.trans hwritten, hoffset.trans (Nat.add_assoc _ _ _), fun hne => ?_,
    fun k hk hne hold => htail k (by omega) hne fun hne₁ => h₁.tail k (by omega) hne₁ hold,
    fun c hc => (hlow c hc).trans (h₁.low c hc), hfree.trans h₁.freeinode⟩
  by_cases hn : n = 0
  · subst hn
    exact h₁.fits hne
  · rw [← Nat.add_assoc]
    exact hfits hn

theorem appendLoop_spec (n : ℕ) : ∀ {s : State} {T : ℕ → Dinode} (src : ℕ → UInt8) (off : ℕ),
    Sound s T → Allocated wide T i →
      Ends (fun _ => True) (appendLoop s (T i) src off n) (Appended s T i src off n) := by
  induction n using Nat.strong_induction_on with
  | _ n ih =>
      intro s T src off h hi
      by_cases hn : n = 0
      · subst hn
        rw [appendLoop, if_pos rfl]
        refine .ok ⟨?_, .nothing h.owned, rfl, fun hne => absurd rfl hne, fun k _ hne hold => ?_,
          fun _ _ => rfl, rfl⟩
        · rw [Function.update_eq_self]
          exact h
        · rw [Function.update_eq_self] at hne ⊢
          exact hold hne
      rw [appendLoop, if_neg hn]
      apply Ends.ite
      · intro hbn
        have hoff : off - off / BSIZE * BSIZE = off % BSIZE := by
          rw [Nat.mul_comm]
          exact Nat.sub_eq_of_eq_add (Nat.mod_add_div off BSIZE).symm
        have hpos := chunk_pos off n hn
        rw [chunk_eq] at hpos
        simp only [chunk_eq, hoff]
        have hle : min n (BSIZE - off % BSIZE) ≤ n := min_le_left _ _
        have hfit : off % BSIZE + min n (BSIZE - off % BSIZE) ≤ BSIZE := by
          have hmod : off % BSIZE < BSIZE := Nat.mod_lt _ (by decide)
          omega
        generalize min n (BSIZE - off % BSIZE) = m at hpos hle hfit
        apply (fileBlock_spec h hi hbn).bind
        rintro ⟨x, ip, s₁⟩ haddressed
        apply (rsect_spec haddressed.sectors haddressed.lt).bind
        rintro buf ⟨hx, rfl⟩
        replace hx : x < FSSIZE := hx
        have hmax : off + m ≤ MAXFILE * BSIZE := by
          change off / 512 < 140 at hbn
          change off % 512 + m ≤ 512 at hfit
          change off + m ≤ 140 * 512
          omega
        have hchunk := (haddressed.located hx).write src hpos hfit hmax
        have hrest := ih (n - m) (by omega) (fun k => src (m + k)) (off + m) hchunk.sound
          ((allocated_update (haddressed.located hx).mapped.grown.type_eq).mpr hi)
        rw [Function.update_self] at hrest
        replace hsectors : s₁.sectors = FSSIZE := haddressed.sectors
        rw [wsect_eq hsectors hx]
        apply hrest.imp
        intro r happended
        have hall := hchunk.trans happended
        rwa [Nat.add_sub_cancel' hle] at hall
      · exact fun _ => .error trivial

end Blocks

end Mkfs

end Xv6Fairness
