import Xv6Fairness.ImageBlocks

/-!
# The files of a disk image

Allocating an inode adds an empty file to the image and appending lengthens one file, for any order
of the calls. Once the bitmap is written, the kernel reads each file back.
-/

namespace Xv6Fairness

open ByteBlocks ByteStrings Outcomes Ownership FileBlocks

namespace Mkfs

inductive Call
  | ialloc (type : Int16)
  | iappend (inum : ℕ) (p : Bytes)

def step (s : State) : Call → Except Failure State
  | .ialloc type => do
    let (_, s) ← ialloc s type
    .ok s
  | .iappend inum p => appendBytes s inum p

def run (s : State) (calls : List Call) : Except Failure State := calls.foldlM step s

/-- The type and the bytes of the inodes from 1 on. -/
abbrev Files := List (Int16 × Bytes)

/-- What a call does to the files. -/
def Files.step (files : Files) : Call → Files
  | .ialloc type => files ++ [(type, [])]
  | .iappend inum p => files.modify (inum - 1) fun f => (f.1, f.2 ++ p)

def Files.run (files : Files) (calls : List Call) : Files := calls.foldl Files.step files

/-- Inodes are directories or regular files, and only inodes that `ialloc` has returned grow. -/
def Proper : ℕ → List Call → Prop
  | _, [] => True
  | count, .ialloc type :: calls => (type = T_DIR ∨ type = T_FILE) ∧ Proper (count + 1) calls
  | count, .iappend inum _ :: calls => 1 ≤ inum ∧ inum ≤ count ∧ Proper count calls

instance instDecidableProper : (count : ℕ) → (calls : List Call) → Decidable (Proper count calls)
  | _, [] => inferInstanceAs (Decidable True)
  | count, .ialloc _ :: calls =>
    have := instDecidableProper (count + 1) calls
    inferInstanceAs (Decidable (_ ∧ _))
  | count, .iappend _ _ :: calls =>
    have := instDecidableProper count calls
    inferInstanceAs (Decidable (_ ∧ _ ∧ _))

/-- What `readi` returns for a file of these bytes. -/
def answer (bytes : Bytes) (off n : UInt32) : Answer :=
  if bytes.length < off.toNat ∨ off + n < off then (-1, [])
  else (((bytes.drop off.toNat).take n.toNat).length, (bytes.drop off.toNat).take n.toNat)

/-- Behind the end of a file its blocks are blank. -/
def Padded (disk : Disk) : Prop :=
  ∀ i, Allocated wide (wide.dinode disk) i → ∀ k, (wide.dinode disk i).size.toNat ≤ k →
    refs wide (wide.dinode disk) disk (i, .data (k / BSIZE)) ≠ 0 →
      fileByte wide (wide.dinode disk) disk i k = 0

/-- The image holds the files, and every other inode is free. -/
structure Represents (s : State) (files : Files) : Prop where
  sound : Sound s (wide.dinode s.image)
  consistent : Consistent wide s.image
  padded : Padded s.image
  count : s.freeinode = files.length + 1
  room : files.length < wide.ninodes
  holds : ∀ k (hk : k < files.length), (wide.dinode s.image (k + 1)).type = files[k].1 ∧
    (wide.dinode s.image (k + 1)).nlink = 1 ∧ file wide s.image (k + 1) = files[k].2
  types : ∀ f ∈ files, f.1 = T_DIR ∨ f.1 = T_FILE
  free : ∀ i < wide.ninodes, i = 0 ∨ files.length < i →
    (wide.dinode s.image i).type = 0 ∧ (wide.dinode s.image i).size = 0

section Inodes

variable {s t : State} {files : Files} {i k n : ℕ} {d : Dinode} {src : ℕ → UInt8} {type : Int16}

theorem IBLOCK_lt (hi : i < wide.ninodes) : sb.IBLOCK i < FSSIZE :=
  (Layout.IBLOCK_lt hi : wide.IBLOCK i < wide.bmapstart).trans (by decide)

theorem winode_eq (hs : s.sectors = FSSIZE) (hi : i < wide.ninodes) :
    winode s i d = .ok { s with disk := wide.putDinode s.disk i d } := by
  rw [winode, rsect_eq hs (IBLOCK_lt hi), ok_bind, wsect_eq hs (IBLOCK_lt hi)]
  rfl

theorem rinode_eq (hs : s.sectors = FSSIZE) (hi : i < wide.ninodes) :
    rinode s i = .ok (wide.dinode s.image i) := by
  rw [rinode, rsect_eq hs (IBLOCK_lt hi), ok_bind, dinode_image hi]
  rfl

theorem image_putDinode (hi : i < wide.ninodes) :
    State.image { s with disk := wide.putDinode s.disk i d } = iupdate wide s.image i d := by
  have hne : wide.IBLOCK i ≠ wide.bmapstart := (Layout.IBLOCK_lt hi).ne
  rw [iupdate, Layout.putDinode, Layout.putDinode, image_of_ne hne]
  exact Function.update_comm hne _ _ _

theorem Sound.putDinode {T T' : ℕ → Dinode} (h : Sound s T) (hi : i < wide.ninodes)
    (howned : Owned wide T' (State.image { s with disk := wide.putDinode s.disk i d })) :
    Sound { s with disk := wide.putDinode s.disk i d } T' := by
  refine ⟨h.sectors, h.high, fun c hc => ?_, howned⟩
  have hlow := h.low
  exact (Layout.putDinode_of_bmapstart_le hi
    (bmapstart_lt_datastart.le.trans (hlow.trans hc))).trans
    (h.blank c hc)

theorem refs_replace {disk : Disk} (hi : i < wide.ninodes) (ho : Owned wide (wide.dinode disk) disk)
    (hrefs : refs wide (Function.update (wide.dinode disk) i d) disk =
      refs wide (wide.dinode disk) disk) :
    refs wide (wide.dinode (iupdate wide disk i d)) (iupdate wide disk i d) =
      refs wide (wide.dinode disk) disk := by
  have howned : Owned wide (Function.update (wide.dinode disk) i d) disk := by
    rw [Owned, hrefs]
    exact ho
  have htable : ∀ j < wide.ninodes, wide.dinode (iupdate wide disk i d) j =
      Function.update (wide.dinode disk) i d j := fun j _ => by
    rw [dinode_iupdate, Function.update_apply]
  rw [refs_congr_table htable, refs_iupdate howned hi, hrefs]

theorem fileByte_replace {disk : Disk} (hi : i < wide.ninodes)
    (ho : Owned wide (wide.dinode disk) disk)
    (hrefs : refs wide (Function.update (wide.dinode disk) i d) disk =
      refs wide (wide.dinode disk) disk)
    (hne : refs wide (wide.dinode disk) disk (k, .data (n / BSIZE)) ≠ 0) :
    fileByte wide (wide.dinode (iupdate wide disk i d)) (iupdate wide disk i d) k n =
      fileByte wide (wide.dinode disk) disk k n := by
  have hdata := (ho.range _ hne).1
  rw [fileByte, refs_replace hi ho hrefs, iupdate, Layout.putDinode_of_bmapstart_le hi
    (bmapstart_lt_datastart.le.trans hdata), fileByte]

theorem file_replace {disk : Disk} (hi : i < wide.ninodes) (hc : Consistent wide disk)
    (hrefs : refs wide (Function.update (wide.dinode disk) i d) disk =
      refs wide (wide.dinode disk) disk)
    (hk : Allocated wide (wide.dinode disk) k) (hne : k ≠ i) :
    file wide (iupdate wide disk i d) k = file wide disk k := by
  have hdinode : wide.dinode (iupdate wide disk i d) k = wide.dinode disk k := by
    rw [dinode_iupdate, if_neg hne]
  rw [file, file, hdinode]
  apply List.map_congr_left
  intro m hm
  exact fileByte_replace hi hc.owned hrefs
    ((hc.blocks k hk _).mpr (lt_blockCount (List.mem_range.mp hm)))

theorem T_DIR_ne : T_DIR ≠ 0 ∧ T_FILE ≠ 0 ∧ T_DIR ≠ T_DEV ∧ T_FILE ≠ T_DEV := by decide

theorem Represents.kind (h : Represents s files) (hk : k < files.length) :
    (wide.dinode s.image (k + 1)).type ≠ 0 ∧ (wide.dinode s.image (k + 1)).type ≠ T_DEV := by
  obtain ⟨hdir, hfile, hdir', hfile'⟩ := T_DIR_ne
  rw [(h.holds k hk).1]
  rcases h.types _ (List.getElem_mem hk) with htype | htype
  · rw [htype]
    exact ⟨hdir, hdir'⟩
  · rw [htype]
    exact ⟨hfile, hfile'⟩

theorem Represents.allocated (h : Represents s files) (hk : k < files.length) :
    Allocated wide (wide.dinode s.image) (k + 1) :=
  ⟨Nat.lt_of_le_of_lt hk h.room, (h.kind hk).1⟩

theorem ialloc_spec (h : Represents s files) (hroom : files.length + 1 < wide.ninodes)
    (htype : type = T_DIR ∨ type = T_FILE) :
    ∃ t, ialloc s type = .ok (files.length + 1, t) ∧ Represents t (files ++ [(type, [])]) := by
  have hnone : ∀ p, refs wide (wide.dinode s.image) s.image (files.length + 1, p) = 0 := fun p =>
    if_neg fun ha => ha.2 (h.free _ hroom (.inr (Nat.lt_succ_self _))).1
  have hrefs : refs wide (Function.update (wide.dinode s.image) (files.length + 1)
      (freshDinode type)) s.image = refs wide (wide.dinode s.image) s.image := by
    apply refs_update_of_self
    intro p
    have hsame : refs wide (Function.update (wide.dinode s.image) (files.length + 1)
        (freshDinode type))
        s.image = refs wide (Function.update (wide.dinode s.image) (files.length + 1)
          (newDinode type))
        s.image := refs_update_congr rfl rfl
    rw [hsame, refs_newDinode, hnone]
  have hzero : blockCount (freshDinode type) = 0 := blockCount_zero rfl
  have hconsistent : Consistent wide (iupdate wide s.image (files.length + 1)
      (freshDinode type)) := by
    refine h.consistent.replace hroom hrefs fun _ => ?_
    rw [hzero]
    refine ⟨Nat.zero_le _, fun bn => ?_⟩
    rw [hnone]
    exact iff_of_false (fun h => h rfl) (Nat.not_lt_zero bn)
  have himage : State.image { s with
      freeinode := s.freeinode + 1
      disk := wide.putDinode s.disk (files.length + 1) (freshDinode type) } =
      iupdate wide s.image (files.length + 1) (freshDinode type) :=
    image_putDinode hroom
  refine ⟨{ s with
    freeinode := s.freeinode + 1
    disk := wide.putDinode s.disk (files.length + 1) (freshDinode type) }, ?_, ?_⟩
  · rw [ialloc, h.count,
      winode_eq (s := { s with freeinode := files.length + 1 + 1 }) h.sound.sectors hroom]
    rfl
  · have hsound := h.sound.putDinode hroom (himage ▸ hconsistent.owned)
    refine ⟨⟨hsound.sectors, hsound.high, hsound.blank, ?_⟩, ?_, ?_, ?_, ?_, ?_, ?_, ?_⟩
    · rw [himage]
      exact hconsistent.owned
    · rw [himage]
      exact hconsistent
    · rw [himage]
      intro i hi k hk hne
      rw [refs_replace hroom h.consistent.owned hrefs] at hne
      have hother : i ≠ files.length + 1 := by
        rintro rfl
        exact hne (hnone _)
      rw [dinode_iupdate, if_neg hother] at hk
      rw [fileByte_replace hroom h.consistent.owned hrefs hne]
      exact h.padded i (allocated_of_refs hne) k hk hne
    · rw [List.length_append, h.count]
      rfl
    · rw [List.length_append]
      exact hroom
    · intro k hk
      rw [himage]
      by_cases hlast : k = files.length
      · subst hlast
        rw [file, dinode_iupdate, if_pos rfl, List.getElem_concat_length rfl]
        exact ⟨rfl, rfl, rfl⟩
      · have hk' : k < files.length := by
          rw [List.length_append, List.length_singleton] at hk
          omega
        have hneq : k + 1 ≠ files.length + 1 := fun heq => hlast (Nat.succ.inj heq)
        rw [dinode_iupdate, if_neg hneq, List.getElem_append_left hk',
          file_replace hroom h.consistent hrefs (h.allocated hk') hneq]
        exact h.holds k hk'
    · intro f hf
      rcases List.mem_append.mp hf with hf | hf
      · exact h.types f hf
      · rw [List.mem_singleton.mp hf]
        exact htype
    · intro i hi hlt
      rw [List.length_append, List.length_singleton] at hlt
      rw [himage, dinode_iupdate, if_neg (by omega)]
      exact h.free i hi (by omega)

theorem overwrite_end (f bytes : Bytes) : FileBlocks.overwrite f f.length bytes = f ++ bytes := by
  rw [FileBlocks.overwrite, List.take_length, List.drop_eq_nil_of_le (Nat.le_add_right _ _),
    List.append_nil]

theorem Appended.overwritten {s₁ : State} {off : ℕ} {ip : Dinode}
    (hc : Consistent wide s.image) (hp : Padded s.image)
    (hi : Allocated wide (wide.dinode s.image) i)
    (h : Appended s (wide.dinode s.image) i src (wide.dinode s.image i).size.toNat n
      (off, ip, s₁)) :
    Overwritten wide s.image i src (wide.dinode s.image i).size (UInt32.ofNat n)
      { ip with size := UInt32.ofNat off }
      (iupdate wide s₁.image i { ip with size := UInt32.ofNat off }) ∧
      Padded (iupdate wide s₁.image i { ip with size := UInt32.ofNat off }) ∧
      (UInt32.ofNat n).toNat = n := by
  have hsize : (wide.dinode s.image i).size.toNat ≤ MAXFILE * BSIZE :=
    (blockCount_le _).mp (hc.count_le i hi)
  have hmax : (wide.dinode s.image i).size.toNat + n ≤ MAXFILE * BSIZE := by
    by_cases hn : n = 0
    · rwa [hn, Nat.add_zero]
    · exact h.fits hn
  have hoff : off = (wide.dinode s.image i).size.toNat + n := h.offset
  have hn : (UInt32.ofNat n).toNat = n := by
    rw [UInt32.toNat_ofNat', Nat.mod_eq_of_lt]
    exact ((Nat.le_add_left _ _).trans hmax).trans_lt (by decide)
  have hoff' : (UInt32.ofNat off).toNat = off := by
    rw [UInt32.toNat_ofNat', Nat.mod_eq_of_lt]
    rw [hoff]
    exact hmax.trans_lt (by decide)
  have hw : Written wide (wide.dinode s.image) s.image i src (wide.dinode s.image i).size.toNat
      (UInt32.ofNat n).toNat ip s₁.image := by
    rw [hn]
    exact h.written
  have hrefs :
      refs wide (Function.update (wide.dinode s.image) i { ip with size := UInt32.ofNat off })
      s₁.image = refs wide (Function.update (wide.dinode s.image) i ip) s₁.image :=
    refs_update_congr rfl rfl
  have howned : Owned wide (Function.update (wide.dinode s.image) i
      { ip with size := UInt32.ofNat off }) s₁.image := by
    rw [Owned, hrefs]
    exact hw.owned
  have hover : Overwritten wide s.image i src (wide.dinode s.image i).size (UInt32.ofNat n)
      { ip with size := UInt32.ofNat off }
      (iupdate wide s₁.image i { ip with size := UInt32.ofNat off }) := by
    refine .of_written hc hi le_rfl (by rwa [hn]) hw (howned.iupdate hi.1)
      ((refs_iupdate howned hi.1).trans hrefs) (fun c hcd => ?_) (fun j hj => ?_) ?_ ?_
    · exact Layout.putDinode_of_bmapstart_le hi.1 (Layout.bmapstart_le_datastart.trans hcd)
    · rw [dinode_iupdate]
      split_ifs
      · rfl
      · exact hw.dinode j hj
    · rw [hw.fields]
    · change (UInt32.ofNat off).toNat = _
      rw [hoff', hoff, hn, max_eq_right (Nat.le_add_right _ _)]
  have hall : refs wide (wide.dinode (iupdate wide s₁.image i { ip with size := UInt32.ofNat off }))
      (iupdate wide s₁.image i { ip with size := UInt32.ofNat off }) =
      refs wide (Function.update (wide.dinode s.image) i ip) s₁.image := by
    have htable : ∀ j < wide.ninodes, wide.dinode (iupdate wide s₁.image i
        { ip with size := UInt32.ofNat off }) j =
        Function.update (wide.dinode s.image) i { ip with size := UInt32.ofNat off } j := by
      intro j hj
      rw [hover.dinode j hj, Function.update_apply]
    rw [refs_congr_table htable, refs_iupdate howned hi.1, hrefs]
  refine ⟨hover, fun j hj k hk hne => ?_, hn⟩
  rw [hover.dinode j hj.1] at hk
  rw [hall] at hne
  rw [fileByte, hall, iupdate, Layout.putDinode_of_bmapstart_le hi.1
    (Layout.bmapstart_le_datastart.trans (hw.owned.range _ hne).1)]
  change fileByte wide (Function.update (wide.dinode s.image) i ip) s₁.image j k = 0
  by_cases hji : j = i
  · subst hji
    rw [if_pos rfl] at hk
    replace hk : (UInt32.ofNat off).toNat ≤ k := hk
    rw [hoff', hoff] at hk
    exact h.tail k hk hne fun hold => hp j hi k ((Nat.le_add_right _ _).trans hk) hold
  · rw [if_neg hji] at hk
    rw [hw.others j _ hji] at hne
    rw [hw.kept j k hne fun hin => hji hin.1]
    exact hp j (allocated_of_refs hne) k hk hne

theorem iappend_spec (h : Represents s files) (hk : k < files.length) :
    Ends (fun _ => True) (iappend s (k + 1) n src) fun t =>
      Represents t (files.modify k fun f => (f.1, f.2 ++ (List.range n).map src)) := by
  have hi := h.allocated hk
  rw [iappend, rinode_eq h.sound.sectors hi.1, ok_bind]
  apply (appendLoop_spec n src _ h.sound hi).bind
  rintro ⟨off, ip, s₁⟩ happended
  obtain ⟨hover, hpadded, hn⟩ := happended.overwritten h.consistent h.padded hi
  have hfields := happended.written.fields
  have hsound := happended.sound
  replace hfields : ip = { wide.dinode s.image (k + 1) with addrs := ip.addrs } := hfields
  replace hsound : Sound s₁ (Function.update (wide.dinode s.image) (k + 1) ip) := hsound
  have hfree : s₁.freeinode = s.freeinode := happended.freeinode
  have hsectors : s₁.sectors = FSSIZE := hsound.sectors
  change Ends _ (winode s₁ (k + 1) { ip with size := UInt32.ofNat off }) _
  rw [winode_eq hsectors hi.1]
  generalize hd : ({ ip with size := UInt32.ofNat off } : Dinode) = d at hover hpadded
  have htype : d.type = (wide.dinode s.image (k + 1)).type ∧
      d.nlink = (wide.dinode s.image (k + 1)).nlink := by
    rw [← hd, hfields]
    exact ⟨rfl, rfl⟩
  have himage : State.image { s₁ with disk := wide.putDinode s₁.disk (k + 1) d } =
      iupdate wide s₁.image (k + 1) d := image_putDinode hi.1
  apply Ends.ok
  refine ⟨hsound.putDinode hi.1 ?_, ?_, ?_, ?_, ?_, fun m hm => ?_, fun f hf => ?_,
    fun j hj hlt => ?_⟩
  · rw [himage]
    exact hover.consistent.owned
  · rw [himage]
    exact hover.consistent
  · rw [himage]
    exact hpadded
  · rw [List.length_modify]
    exact hfree.trans h.count
  · rw [List.length_modify]
    exact h.room
  · rw [List.length_modify] at hm
    rw [himage, List.getElem_modify, hover.dinode _ (h.allocated hm).1]
    by_cases hmk : k = m
    · subst hmk
      rw [if_pos rfl, if_pos rfl, hover.file_self hi le_rfl, hn, ← file_length, overwrite_end,
        (h.holds k hk).2.2]
      exact ⟨htype.1.trans (h.holds k hk).1, htype.2.trans (h.holds k hk).2.1, rfl⟩
    · have hneq : m + 1 ≠ k + 1 := fun heq => hmk (Nat.succ.inj heq).symm
      rw [if_neg hneq, if_neg hmk, hover.file_of_ne (h.allocated hm) hneq]
      exact h.holds m hm
  · obtain ⟨m, hm, rfl⟩ := List.getElem_of_mem hf
    rw [List.getElem_modify]
    rw [List.length_modify] at hm
    have hold := h.types _ (List.getElem_mem hm)
    split_ifs
    · exact hold
    · exact hold
  · rw [List.length_modify] at hlt
    have hneq : j ≠ k + 1 := by omega
    rw [himage, hover.dinode j hj, if_neg hneq]
    exact h.free j hj hlt

end Inodes

section Calls

variable {s : State} {files : Files} {calls : List Call}

theorem zeroed (l : List ℕ) {s : State} (h : ∀ c, s.disk c = fun _ => 0) (c : ℕ) :
    (l.foldl (fun s i => wsect s i fun _ => 0) s).disk c = fun _ => 0 := by
  induction l generalizing s with
  | nil => exact h c
  | cons i l ih =>
      apply ih
      intro c
      change Function.update s.disk (sector i) (fun _ => 0) c = _
      rw [Function.update_apply]
      split_ifs
      · rfl
      · exact h c

theorem newImage_disk {c : ℕ} (hc : c ≠ 1) : newImage.disk c = fun _ => 0 :=
  (Function.update_of_ne hc _ _).trans (zeroed _ (fun _ => rfl) c)

theorem newImage_counts :
    newImage.sectors = FSSIZE ∧ newImage.freeinode = 1 ∧ newImage.freeblock = nmeta := by
  decide +kernel

theorem newImage_free {i : ℕ} (hi : i < wide.ninodes) :
    (wide.dinode newImage.image i).type = 0 ∧ (wide.dinode newImage.image i).size = 0 := by
  have hne : wide.IBLOCK i ≠ 1 := by
    have hle : wide.inodestart ≤ wide.IBLOCK i := Nat.le_add_left _ _
    exact ((by decide : 1 < wide.inodestart).trans_le hle).ne'
  rw [dinode_image hi, Layout.dinode, newImage_disk hne]
  change Dinode.getShort _ _ = 0 ∧ UInt32.ofNat (Block.getWord _ 4 _) = 0
  rw [Dinode.getShort, Block.getWord_zero, Block.getWord_zero]
  exact ⟨rfl, rfl⟩

theorem newImage_represents : Represents newImage [] := by
  obtain ⟨hsectors, hinode, hblock⟩ := newImage_counts
  have hrefs : ∀ k, refs wide (wide.dinode newImage.image) newImage.image k = 0 := fun k =>
    if_neg fun h => h.2 (newImage_free h.1).1
  have hlow : newImage.freeblock = wide.datastart := hblock.trans (by decide)
  have howned : Owned wide (wide.dinode newImage.image) newImage.image := by
    refine ⟨Layout.datastart_pos, fun b hb => ?_, fun k hk => absurd (hrefs k) hk,
      fun k _ hk => absurd (hrefs k) hk⟩
    rw [used_image (hblock.trans_le (by decide)) hb, hlow, or_iff_left_of_imp]
    rintro ⟨k, hk⟩
    rw [← hk, hrefs k]
    exact Layout.datastart_pos
  refine ⟨⟨hsectors, hblock.trans_le (by decide), fun c hc => newImage_disk ?_, howned⟩,
    ⟨howned, fun i hi => absurd (newImage_free hi.1).1 hi.2,
      fun i hi => absurd (newImage_free hi.1).1 hi.2⟩,
        fun i hi => absurd (newImage_free hi.1).1 hi.2,
    hinode, by decide,
    fun k hk => absurd hk (Nat.not_lt_zero k), nofun, fun i hi _ => newImage_free hi⟩
  exact ((hblock ▸ (by decide : 1 < nmeta)).trans_le hc).ne'

theorem map_getD (p : Bytes) : (List.range p.length).map (fun k => p.getD k 0) = p := by
  apply List.ext_getElem
  · rw [List.length_map, List.length_range]
  · intro k hk hk'
    rw [List.getElem_map, List.getElem_range, List.getD_eq_getElem?_getD,
      List.getElem?_eq_getElem hk', Option.getD_some]

theorem Files.length_run (files : Files) (calls : List Call) :
    files.length ≤ (files.run calls).length := by
  induction calls generalizing files with
  | nil => exact le_rfl
  | cons call calls ih =>
      refine le_trans ?_ (ih (files.step call))
      cases call with
      | ialloc type =>
          rw [Files.step, List.length_append]
          exact Nat.le_add_right _ _
      | iappend inum p => rw [Files.step, List.length_modify]

theorem run_spec (h : Represents s files) (hproper : Proper files.length calls)
    (hroom : (files.run calls).length < wide.ninodes) :
    Ends (fun _ => True) (run s calls) fun t => Represents t (files.run calls) := by
  induction calls generalizing s files with
  | nil => exact .ok h
  | cons call calls ih =>
      rw [run, List.foldlM_cons]
      have hlen := (files.step call).length_run calls
      cases call with
      | ialloc type =>
          have hlt : files.length + 1 < wide.ninodes := by
            rw [Files.step, List.length_append] at hlen
            exact hlen.trans_lt hroom
          obtain ⟨t, ht, hrep⟩ := ialloc_spec h hlt hproper.1
          have hstep : step s (.ialloc type) = .ok t := by
            rw [step, ht]
            rfl
          rw [hstep, ok_bind]
          refine ih hrep ?_ hroom
          rw [Files.step, List.length_append]
          exact hproper.2
      | iappend inum p =>
          obtain ⟨hpos, hle, hrest⟩ := hproper
          obtain ⟨k, rfl⟩ := Nat.exists_eq_succ_of_ne_zero (Nat.ne_of_gt hpos)
          apply (iappend_spec h hle).bind
          intro t ht
          rw [map_getD] at ht
          refine ih ht ?_ hroom
          rwa [Files.step, List.length_modify]

theorem balloc_eq {s t : State} (hs : s.sectors = FSSIZE) (h : balloc s s.freeblock = .ok t) :
    t.disk = s.image ∧ t.freeblock = s.freeblock := by
  rw [balloc, wsect_eq hs (by decide : sb.bmapstart < FSSIZE)] at h
  split_ifs at h
  cases h
  exact ⟨rfl, rfl⟩

variable (devsw : Devsw) {disk : Disk} {i : ℕ} {off n : UInt32}

omit devsw in
theorem balloc_wide (disk : Disk) :
    FileBlocks.balloc wide disk = FileBlocks.balloc sb disk := by
  have hsize : wide.size = sb.size := rfl
  have hblock : ∀ b, wide.BBLOCK b = sb.BBLOCK b := fun _ => rfl
  simp only [FileBlocks.balloc, freeBit, hsize, hblock]

omit devsw in
theorem bmap_wide (disk : Disk) (ip : Dinode) (bn : ℕ) :
    bmap wide disk ip bn = bmap sb disk ip bn := by
  simp only [bmap, loadIndirect, loadEntry, balloc_wide]

omit devsw in
theorem readLoop_wide (n : ℕ) (disk : Disk) (ip : Dinode) (off : ℕ) :
    readLoop wide disk ip off n = readLoop sb disk ip off n := by
  induction n using Nat.strong_induction_on generalizing disk ip off with
  | _ n ih =>
      rw [readLoop, readLoop, bmap_wide]
      split_ifs with hn
      · rfl
      · have hpos : 0 < min n (BSIZE - off % BSIZE) := FileBlocks.chunk_pos hn
        cases bmap sb disk ip (off / BSIZE) with
        | error p => rfl
        | ok r =>
            change (readLoop wide r.2.2 r.2.1 _ _).bind _ = (readLoop sb r.2.2 r.2.1 _ _).bind _
            rw [ih _ (by omega)]

theorem readi_wide : readi wide devsw = readi sb devsw := by
  funext disk ip off n
  simp only [readi, readLoop_wide]

theorem readi_file {bytes : Bytes} (hi : Allocated wide (wide.dinode disk) i)
    (htype : (wide.dinode disk i).type ≠ T_DEV) (hfile : file wide disk i = bytes)
    (hblocks : ∀ k < (wide.dinode disk i).size.toNat,
      refs wide (wide.dinode disk) disk (i, .data (k / BSIZE)) ≠ 0) :
    readi sb devsw disk (wide.dinode disk i) off n =
      .ok (answer bytes off n, wide.dinode disk i, disk) := by
  have hlength : bytes.length = (wide.dinode disk i).size.toNat := by
    rw [← hfile, file_length]
  rw [← readi_wide, readi_present hi htype fun k _ _ hk => hblocks k hk, hfile]
  simp only [answer, hlength, gt_iff_lt, UInt32.lt_iff_toNat_lt]

theorem Represents.read (h : Represents s files) {k : ℕ} (hk : k < files.length) :
    readi sb devsw s.image (wide.dinode s.image (k + 1)) off n =
      .ok (answer files[k].2 off n, wide.dinode s.image (k + 1), s.image) :=
  readi_file devsw (h.allocated hk) (h.kind hk).2 (h.holds k hk).2.2 fun _ hm =>
    (h.consistent.blocks _ (h.allocated hk) _).mpr (lt_blockCount hm)

end Calls

end Mkfs

end Xv6Fairness
