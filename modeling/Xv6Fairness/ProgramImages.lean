import Xv6Fairness.AddressSpaces
import Xv6Fairness.UserCopies

/-!
# Program images

The headers of a program say which parts of the file go where. Nothing of what they say can be
trusted. The size of the image grows with each part and is what keeps a part inside the pages that
have been mapped. Behind the last part come a page without access and the page of the stack.
-/

namespace Xv6Fairness

open CellCopies Outcomes Ownership

namespace VirtualMemory

def ELF_MAGIC : UInt32 := 0x464C457F

def ELF_PROG_LOAD : UInt32 := 1

/-- A regular file. -/
structure Inode where
  size : UInt32
  byte : ℕ → UInt8

/-- How many bytes are read from an offset. -/
def Inode.readi (ip : Inode) (off n : UInt32) : ℤ :=
  if off > ip.size ∨ off + n < off then -1
  else if off + n > ip.size then (ip.size - off).toNat
  else n.toNat

def Inode.ushort (ip : Inode) (off : ℕ) : ℕ :=
  (ip.byte off).toNat + 2 ^ 8 * (ip.byte (off + 1)).toNat

def Inode.uint (ip : Inode) (off : ℕ) : UInt32 :=
  UInt32.ofNat (ip.ushort off + 2 ^ 16 * ip.ushort (off + 2))

structure Elfhdr where
  magic : UInt32
  entry : UInt32
  phoff : UInt32
  phnum : ℕ

def Inode.elfhdr (ip : Inode) : Elfhdr := ⟨ip.uint 0, ip.uint 24, ip.uint 28, ip.ushort 44⟩

structure Proghdr where
  type : UInt32
  off : UInt32
  vaddr : UInt32
  filesz : UInt32
  memsz : UInt32

def Inode.proghdr (ip : Inode) (off : UInt32) : Proghdr :=
  ⟨ip.uint off.toNat, ip.uint (off.toNat + 4), ip.uint (off.toNat + 8), ip.uint (off.toNat + 16),
    ip.uint (off.toNat + 20)⟩

namespace Space

variable (endFrame : ℕ)

/-- One pass of the loop of `loaduvm`: whether all bytes of the page were in the file. An entry that
is not present leads to the first page of the memory. -/
def loadStep (ip : Inode) (addr offset sz : UInt32) (s : Space)
    (i : ℕ) : Except Panic (Bool × Space) :=
  let a := (addr + UInt32.ofNat i).toNat
  if (s.walkpgdir a false).1 then
    let pa := ((s.pte a).map Pte.frame).getD 0
    let n : UInt32 := if sz - UInt32.ofNat i < 4096 then sz - UInt32.ofNat i else 4096
    let off := offset + UInt32.ofNat i
    let r := ip.readi off n
    .ok (r = n.toNat, s.memmove pa 0 (fun k => ip.byte (off.toNat + k)) r.toNat)
  else .error .shouldExist

def loadLoop (ip : Inode) (addr offset sz : UInt32) (s : Space)
    (i : ℕ) : Except Panic (ℤ × Space) :=
  if i < sz.toNat then do
    let (whole, s) ← s.loadStep ip addr offset sz i
    if whole then loadLoop ip addr offset sz s (nextPage i) else .ok (-1, s)
  else .ok (0, s)
termination_by sz.toNat - i
decreasing_by
  have hlt := lt_nextPage i
  omega

def loaduvm (s : Space) (addr : UInt32) (ip : Inode)
    (offset sz : UInt32) : Except Panic (ℤ × Space) :=
  if addr.toNat % PGSIZE ≠ 0 then .error .notAligned else loadLoop ip addr offset sz s 0

def clearpteu (s : Space) (uva : UInt32) : Except Panic Space :=
  if (s.walkpgdir uva.toNat false).1 then
    .ok (s.setPte uva.toNat ((s.pte uva.toNat).map fun p => { p with perm := p.perm &&& ~~~PTE_U }))
  else .error .clearpteu

/-- One program header: the size that comes next, or none for `bad`. -/
def loadSegment (s : Space) (ip : Inode) (ph : Proghdr) (sz : UInt32) :
    Except Panic (Option UInt32 × Space) :=
  if ph.type ≠ ELF_PROG_LOAD then .ok (some sz, s)
  else if ph.memsz < ph.filesz then .ok (none, s)
  else if ph.vaddr + ph.memsz < ph.vaddr then .ok (none, s)
  else do
    let (sz, s) ← s.allocuvm endFrame sz (ph.vaddr + ph.memsz)
    if sz = 0 then .ok (none, s)
    else if ph.vaddr.toNat % PGSIZE ≠ 0 then .ok (none, s)
    else do
      let (r, s) ← s.loaduvm ph.vaddr ip ph.off ph.filesz
      if r < 0 then .ok (none, s) else .ok (some sz, s)

/-- The loop over the program headers with `n` to go. -/
def loadProgram (ip : Inode) (s : Space) (off sz : UInt32) : ℕ →
    Except Panic (Option UInt32 × Space)
  | 0 => .ok (some sz, s)
  | n + 1 =>
    if ip.readi off 32 ≠ 32 then .ok (none, s)
    else do
      let (r, s) ← s.loadSegment endFrame ip (ip.proghdr off) sz
      match r with
      | none => .ok (none, s)
      | some sz => loadProgram ip s (off + 32) sz n

/-- The bytes of a string and the one that ends it. -/
def cstring (arg : List UInt8) (i : ℕ) : UInt8 := arg.getD i 0

/-- The words of `ustack` as bytes. -/
def words (ws : List UInt32) (i : ℕ) : UInt8 :=
  (ws.getD (i / 4) 0 >>> UInt32.ofNat (8 * (i % 4))).toUInt8

/-- The room for a string, from an address that is a multiple of four. -/
def pushed (sp : UInt32) (arg : List UInt8) : UInt32 := (sp - UInt32.ofNat (arg.length + 1)) / 4 * 4

/-- The loop over the arguments: the stack pointer and the addresses of the strings. -/
def pushArgs (s : Space) (sp : UInt32) (strings : List UInt32) :
    List (List UInt8) → Except Panic (Option (UInt32 × List UInt32) × Space)
  | [] => .ok (some (sp, strings), s)
  | arg :: args =>
    if MAXARG ≤ strings.length then .ok (none, s)
    else
      let sp := pushed sp arg
      match s.copyout sp (cstring arg) (UInt32.ofNat (arg.length + 1)) with
      | none => .error .trap
      | some (r, s) => if r < 0 then .ok (none, s) else pushArgs s sp (strings ++ [sp]) args

def ustack (sp : UInt32) (strings : List UInt32) : List UInt32 :=
  let argc := UInt32.ofNat strings.length
  [0xffffffff, argc, sp - (argc + 1) * 4] ++ strings ++ [0]

/-- The size of the image and its stack pointer, or none for `bad`. -/
def buildStack (s : Space) (sz : UInt32) (argv : List (List UInt8)) :
    Except Panic (Option (UInt32 × UInt32) × Space) := do
  let (sz, s) ← s.allocuvm endFrame (PGROUNDUP sz) (PGROUNDUP sz + 2 * 4096)
  if sz = 0 then .ok (none, s)
  else do
    let s ← s.clearpteu (sz - 2 * 4096)
    let (r, s) ← s.pushArgs sz [] argv
    match r with
    | none => .ok (none, s)
    | some (sp, strings) =>
      let size := (3 + UInt32.ofNat strings.length + 1) * 4
      match s.copyout (sp - size) (words (ustack sp strings)) size with
      | none => .error .trap
      | some (r, s) => if r < 0 then .ok (none, s) else .ok (some (sz, sp - size), s)

end Space

variable {endFrame : ℕ} {κ : Type*} {others : κ → ℕ} {s t u : Space} {f v : ℕ}

theorem Small.kfree (h : Small s) {g : ℕ} (hrun : s.kfree endFrame g = .ok t) : Small t := by
  rw [Space.kfree] at hrun
  split_ifs at hrun
  cases hrun
  exact h

theorem Small.deallocStep (h : Small s) {a b : ℕ} (hrun : s.deallocStep endFrame a = .ok (b, t)) :
    Small t := by
  rw [Space.deallocStep] at hrun
  split_ifs at hrun
  · cases hpte : s.pte a with
    | none =>
        rw [hpte] at hrun
        cases hrun
        exact h
    | some p =>
        rw [hpte] at hrun
        dsimp only at hrun
        split_ifs at hrun
        obtain ⟨s', hfree, hr⟩ := exists_of_bind_ok hrun
        cases hr
        exact (h.kfree hfree).setPte a none
  · cases hrun
    exact h

theorem Small.deallocLoop {oldsz : ℕ} (n : ℕ) : ∀ {s : Space} {a : ℕ}, oldsz ≤ a + n → Small s →
    s.deallocLoop endFrame oldsz a = .ok t → Small t := by
  induction n using Nat.strong_induction_on with
  | _ n ih =>
      intro s a hn h hrun
      by_cases ha : a < oldsz
      · cases hstep : s.deallocStep endFrame a with
        | error e =>
            rw [Space.deallocLoop, if_pos ha] at hrun
            split at hrun
            · cases hrun
            · next r hr =>
                rw [hstep] at hr
                cases hr
        | ok r =>
            have hlt := Space.lt_of_deallocStep endFrame hstep
            rw [deallocLoop_of_step ha hstep] at hrun
            exact ih (n - (r.1 - a)) (by omega) (by omega) (h.deallocStep hstep) hrun
      · rw [Space.deallocLoop, if_neg ha] at hrun
        cases hrun
        exact h

theorem Small.deallocuvm (h : Small s) {oldsz newsz r : UInt32}
    (hrun : s.deallocuvm endFrame oldsz newsz = .ok (r, t)) : Small t := by
  rw [Space.deallocuvm] at hrun
  split_ifs at hrun
  · cases hrun
    exact h
  · obtain ⟨s', hloop, hr⟩ := exists_of_bind_ok hrun
    cases hr
    exact h.deallocLoop oldsz.toNat (Nat.le_add_left _ _) hloop

theorem Small.allocStep (h : Small s) {oldsz newsz : UInt32} {a : ℕ} {b : Bool}
    (hrun : s.allocStep endFrame oldsz newsz a = .ok (b, t)) : Small t := by
  rw [Space.allocStep, Space.kalloc] at hrun
  cases hfree : s.freelist with
  | nil =>
      rw [hfree] at hrun
      obtain ⟨r, hd, hr⟩ := exists_of_bind_ok hrun
      cases hr
      exact h.deallocuvm hd
  | cons mem rest =>
      rw [hfree] at hrun
      dsimp only at hrun
      obtain ⟨r, hmap, hrun⟩ := exists_of_bind_ok hrun
      have hs : Small r.2 :=
        Small.mapLoop _ (s := ({ s with freelist := rest } : Space).memset mem 0)
        h hmap
      split_ifs at hrun
      · obtain ⟨r', hd, hrun⟩ := exists_of_bind_ok hrun
        obtain ⟨s', hk, hr⟩ := exists_of_bind_ok hrun
        cases hr
        exact (hs.deallocuvm hd).kfree hk
      · cases hrun
        exact hs

theorem Small.allocLoop {oldsz newsz : UInt32} (n : ℕ) : ∀ {s : Space} {a : ℕ} {r : UInt32},
    newsz.toNat ≤ a + n → Small s → s.allocLoop endFrame oldsz newsz a = .ok (r, t) → Small t := by
  induction n using Nat.strong_induction_on with
  | _ n ih =>
      intro s a r hn h hrun
      by_cases ha : a < newsz.toNat
      · rw [Space.allocLoop, if_pos ha] at hrun
        obtain ⟨b, hstep, hrun⟩ := exists_of_bind_ok hrun
        have hs := h.allocStep hstep
        have hlt := lt_nextPage a
        dsimp only at hrun
        split_ifs at hrun
        · exact ih (n - (nextPage a - a)) (by omega) (by omega) hs hrun
        · cases hrun
          exact hs
      · rw [Space.allocLoop, if_neg ha] at hrun
        cases hrun
        exact h

/-- The pages below the size are mapped, and no other pages of the user. -/
structure Image (sz : UInt32) (t : Space) : Prop where
  size : sz.toNat ≤ PGSIZE * userPages
  mapped : ∀ v < userPages, (t.pte (PGSIZE * v)).isSome ↔ PGSIZE * v < sz.toNat

theorem Image.congr {sz : UInt32} (h : Image sz t) (hpte : ∀ a, u.pte a = t.pte a) : Image sz u :=
  ⟨h.size, fun v hv => by rw [hpte, h.mapped v hv]⟩

theorem Image.exists_pte {sz : UInt32} (h : Image sz t) (hv : PGSIZE * v < sz.toNat) :
    v < userPages ∧ ∃ p, t.pte (PGSIZE * v) = some p := by
  have hlt : v < userPages := Nat.lt_of_mul_lt_mul_left (hv.trans_le h.size)
  exact ⟨hlt, Option.isSome_iff_exists.mp ((h.mapped v hlt).mpr hv)⟩

theorem Image.round_up {sz : UInt32} (h : Image sz t) : Image (PGROUNDUP sz) t := by
  have hle := h.size
  refine ⟨?_, fun v hv => ?_⟩
  · rw [PGROUNDUP_toNat hle]
    change 4096 * _ ≤ 4096 * 524288
    change _ ≤ 4096 * 524288 at hle
    omega
  · rw [h.mapped v hv, lt_PGROUNDUP hle]

variable [DecidableEq κ]

theorem Under.allocuvm (h : Under endFrame others s f 0 t) {sz : UInt32} (himage : Image sz t)
    (newsz : UInt32) : ∃ r u, t.allocuvm endFrame sz newsz = .ok (r, u) ∧
      Under endFrame others s f 0 u ∧
      (r ≠ 0 → Image r u ∧ sz ≤ r ∧ newsz ≤ r ∧ (r = sz ∨ r = newsz)) := by
  rw [Space.allocuvm]
  by_cases hbig : KERNBASE ≤ newsz
  · rw [if_pos hbig]
    exact ⟨0, t, rfl, h, fun hne => absurd rfl hne⟩
  · rw [if_neg hbig]
    by_cases hless : newsz < sz
    · rw [if_pos hless]
      exact ⟨sz, t, rfl, h, fun _ => ⟨himage, UInt32.le_refl sz, UInt32.le_of_lt hless, .inl rfl⟩⟩
    · have hsmall : newsz.toNat < PGSIZE * userPages :=
        UInt32.lt_iff_toNat_lt.mp (UInt32.not_le.mp hbig)
      have hle : sz ≤ newsz := UInt32.not_lt.mp hless
      have hle' := UInt32.le_iff_toNat_le.mp hle
      have hround := PGROUNDUP_toNat himage.size
      rw [if_neg hless]
      by_cases heq : sz = newsz
      · have hdone : ¬ (PGROUNDUP sz).toNat < newsz.toNat := by
          rw [hround, ← heq]
          change ¬ 4096 * _ < _
          omega
        refine ⟨newsz, t, ?_, h, fun _ => ⟨heq ▸ himage, hle, UInt32.le_refl newsz, .inr rfl⟩⟩
        rw [Space.allocLoop, if_neg hdone]
      · have hlt : sz < newsz := UInt32.lt_of_le_of_ne hle heq
        have hpages : ∀ w, w < (sz.toNat + 4095) / 4096 ↔ PGSIZE * w < sz.toNat := fun w => by
          change _ ↔ 4096 * w < _
          omega
        have hnone : ∀ w < userPages, (sz.toNat + 4095) / 4096 ≤ w → t.pte (PGSIZE * w) = none := by
          intro w hw hle
          rw [← Option.not_isSome_iff_eq_none, himage.mapped w hw, ← hpages]
          exact not_lt.mpr hle
        have hext : Extends t ((sz.toNat + 4095) / 4096) ((sz.toNat + 4095) / 4096) t :=
          ⟨le_rfl, rfl, hnone, fun _ _ => rfl, fun _ hw hlt => absurd hw (not_le.mpr hlt), hnone,
            fun _ _ => id, fun _ _ => rfl⟩
        obtain ⟨r, u, hrun, hinv, hcases⟩ :=
          allocLoop_spec h.inv hlt hsmall.le rfl newsz.toNat t _ hext
          h.inv (Nat.le_add_left _ _) fun w hw hlt => by omega
        rw [hround]
        have hunder : ∀ x, Extends t ((sz.toNat + 4095) / 4096) x u →
            Under endFrame others s f 0 u := by
          intro x hx
          refine ⟨h.base, h.dir, hinv, h.small.allocLoop _ (Nat.le_add_left _ _) hrun,
            fun g hg => ?_⟩
          rw [hx.page g fun hmem => hg (h.free_subset g hmem), h.keeps g hg]
        refine ⟨r, u, hrun, ?_⟩
        rcases hcases with ⟨rfl, x, hx, hbelow⟩ | ⟨rfl, hx⟩
        · refine ⟨hunder x hx, fun _ => ⟨⟨hsmall.le, fun w hw => ?_⟩, hle, UInt32.le_refl r,
            .inr rfl⟩⟩
          by_cases hold : w < (sz.toNat + 4095) / 4096
          · rw [hx.inside w hold, himage.mapped w hw]
            have hlow := (hpages w).mp hold
            exact iff_of_true hlow (hlow.trans_le hle')
          · rw [← hbelow w (not_lt.mp hold)]
            by_cases hwx : w < x
            · obtain ⟨p, hp, -⟩ := hx.fresh w (not_lt.mp hold) hwx
              rw [hp]
              exact iff_of_true rfl hwx
            · rw [hx.beyond w hw (not_lt.mp hwx)]
              exact iff_of_false Bool.false_ne_true hwx
        · exact ⟨hunder _ hx, fun hne => absurd rfl hne⟩

omit [DecidableEq κ] in
theorem Under.write (h : Under endFrame others s f 0 t) (hv : v < userPages) {p : Pte}
    (hp : t.pte (PGSIZE * v) = some p) (x : Page) :
    Under endFrame others s f 0 { t with page := Function.update t.page p.frame x } := by
  have hinv := h.inv
  refine ⟨h.base, h.dir, ⟨hinv.nodup, hinv.lt, hinv.owns, hinv.user, hinv.table⟩, h.small,
    fun g hg => ?_⟩
  have hne := ne_of_mem_of_not_mem (h.user_fresh hv hp) hg
  exact (Function.update_of_ne hne.symm _ _).trans (h.keeps g hg)

theorem Under.protect (h : Under endFrame others s f 0 t) (hv : v < userPages) {p : Pte}
    (hp : t.pte (PGSIZE * v) = some p) (perm : UInt32) :
    Under endFrame others s f 0 (t.setPte (PGSIZE * v) (some { p with perm := perm })) := by
  have hinv := h.inv
  have htable := isSome_of_pte hp
  have href : refs (withDir f others) t 0 (.user v) = p.frame := refs_user hv hp
  have hframe : ((some { p with perm := perm }).map Pte.frame).getD 0 =
      refs (withDir f others) t 0 (.user v) := href.symm
  refine ⟨h.base, h.dir, ⟨hinv.nodup, hinv.lt, ?_, fun w hw q hq => ?_, table_setPte hinv.table⟩,
    h.small.setPte _ _, h.keeps⟩
  · rw [refs_setPte hv htable, hframe, Function.update_eq_self]
    exact hinv.owns
  · rw [pte_setPte htable] at hq
    split_ifs at hq
    · cases hq
      exact hinv.user v hv p hp
    · exact hinv.user w hw q hq

omit [DecidableEq κ] in
theorem loadStep_spec (h : Under endFrame others s f 0 t) {sz : UInt32} (himage : Image sz t)
    (ip : Inode)
    {addr : UInt32} (offset filesz : UInt32) {i : ℕ}
    (ha : (addr + UInt32.ofNat i).toNat = PGSIZE * v)
    (hv : PGSIZE * v < sz.toNat) : ∃ b u, t.loadStep ip addr offset filesz i = .ok (b, u) ∧
      Under endFrame others s f 0 u ∧ Image sz u := by
  obtain ⟨hlt, p, hp⟩ := himage.exists_pte hv
  have hwalk : (t.walkpgdir (PGSIZE * v) false).1 = true := walkpgdir_iff.mpr (isSome_of_pte hp)
  rw [Space.loadStep, ha]
  dsimp only
  rw [if_pos hwalk, hp]
  exact ⟨_, _, rfl, h.write hlt hp _, himage.congr fun _ => rfl⟩

omit [DecidableEq κ] in
theorem loadLoop_spec {sz : UInt32} (ip : Inode) {addr : UInt32} (offset : UInt32) {filesz : UInt32}
    (ha : addr.toNat = PGSIZE * v) (hfit : addr.toNat + filesz.toNat ≤ sz.toNat) (n : ℕ) :
    ∀ (t : Space) (j : ℕ), filesz.toNat ≤ PGSIZE * j + n → Under endFrame others s f 0 t →
    Image sz t →
      ∃ r u, Space.loadLoop ip addr offset filesz t (PGSIZE * j) = .ok (r, u) ∧
        Under endFrame others s f 0 u ∧ Image sz u := by
  induction n using Nat.strong_induction_on with
  | _ n ih =>
      intro t j hn h himage
      by_cases hj : PGSIZE * j < filesz.toNat
      · have hsz : sz.toNat ≤ 4096 * 524288 := himage.size
        have hmul : PGSIZE * (j + 1) = PGSIZE * j + 4096 := Nat.mul_succ _ _
        have hpage : (addr + UInt32.ofNat (PGSIZE * j)).toNat = PGSIZE * (v + j) := by
          rw [toNat_add_ofNat (by omega), ha, Nat.mul_add]
        have hbelow : PGSIZE * (v + j) < sz.toNat := by
          rw [Nat.mul_add]
          omega
        obtain ⟨b, u, hrun, hu, himage'⟩ := loadStep_spec h himage ip offset filesz hpage hbelow
        rw [Space.loadLoop, if_pos hj, hrun, ok_bind]
        dsimp only
        cases b with
        | false => exact ⟨-1, u, rfl, hu, himage'⟩
        | true =>
            rw [if_pos rfl, nextPage_page]
            exact ih (n - 4096) (by omega) u (j + 1) (by omega) hu himage'
      · rw [Space.loadLoop, if_neg hj]
        exact ⟨0, t, rfl, h, himage⟩

omit [DecidableEq κ] in
theorem loaduvm_spec (h : Under endFrame others s f 0 t) {sz : UInt32} (himage : Image sz t)
    (ip : Inode)
    {addr : UInt32} (offset : UInt32) {filesz : UInt32} (ha : addr.toNat % PGSIZE = 0)
    (hfit : addr.toNat + filesz.toNat ≤ sz.toNat) :
    ∃ r u, t.loaduvm addr ip offset filesz = .ok (r, u) ∧ Under endFrame others s f 0 u ∧
    Image sz u := by
  have hv : addr.toNat = PGSIZE * (addr.toNat / PGSIZE) :=
    (Nat.mul_div_cancel' (Nat.dvd_of_mod_eq_zero ha)).symm
  obtain ⟨r, u, hrun, hu⟩ := loadLoop_spec ip offset hv hfit filesz.toNat t 0
    (Nat.le_add_left _ _) h himage
  refine ⟨r, u, ?_, hu⟩
  rw [Space.loaduvm, if_neg (not_not.mpr ha)]
  exact hrun

theorem loadSegment_spec (h : Under endFrame others s f 0 t) {sz : UInt32} (himage : Image sz t)
    (ip : Inode) (ph : Proghdr) : ∃ r u, t.loadSegment endFrame ip ph sz = .ok (r, u) ∧
      Under endFrame others s f 0 u ∧ ∀ sz', r = some sz' → Image sz' u := by
  rw [Space.loadSegment]
  by_cases htype : ph.type ≠ ELF_PROG_LOAD
  · rw [if_pos htype]
    refine ⟨some sz, t, rfl, h, fun sz' hsz => ?_⟩
    cases hsz
    exact himage
  · rw [if_neg htype]
    by_cases hmem : ph.memsz < ph.filesz
    · rw [if_pos hmem]
      exact ⟨none, t, rfl, h, fun _ hr => by cases hr⟩
    · rw [if_neg hmem]
      by_cases hwrap : ph.vaddr + ph.memsz < ph.vaddr
      · rw [if_pos hwrap]
        exact ⟨none, t, rfl, h, fun _ hr => by cases hr⟩
      · rw [if_neg hwrap]
        obtain ⟨r, u, hrun, hu, hsz⟩ := h.allocuvm himage (ph.vaddr + ph.memsz)
        rw [hrun, ok_bind]
        dsimp only
        by_cases hzero : r = 0
        · rw [if_pos hzero]
          exact ⟨none, u, rfl, hu, fun _ hr => by cases hr⟩
        · obtain ⟨himage', -, hnew, -⟩ := hsz hzero
          rw [if_neg hzero]
          by_cases halign : ph.vaddr.toNat % PGSIZE ≠ 0
          · rw [if_pos halign]
            exact ⟨none, u, rfl, hu, fun _ hr => by cases hr⟩
          · have hfit : ph.vaddr.toNat + ph.filesz.toNat ≤ r.toNat := by
              have hmem' := UInt32.le_iff_toNat_le.mp (UInt32.not_lt.mp hmem)
              have hwrap' := UInt32.le_iff_toNat_le.mp (UInt32.not_lt.mp hwrap)
              have hnew' := UInt32.le_iff_toNat_le.mp hnew
              have hv := ph.vaddr.toNat_lt
              have hm := ph.memsz.toNat_lt
              rw [UInt32.toNat_add] at hwrap' hnew'
              omega
            obtain ⟨r', x, hload, hx, himagex⟩ := loaduvm_spec hu himage' ip ph.off
              (not_not.mp halign) hfit
            rw [if_neg halign, hload, ok_bind]
            dsimp only
            by_cases hneg : r' < 0
            · rw [if_pos hneg]
              exact ⟨none, x, rfl, hx, fun _ hr => by cases hr⟩
            · rw [if_neg hneg]
              refine ⟨some r, x, rfl, hx, fun sz' hsz' => ?_⟩
              cases hsz'
              exact himagex

theorem loadProgram_spec (ip : Inode) (n : ℕ) : ∀ {t : Space} {sz : UInt32} (off : UInt32),
    Under endFrame others s f 0 t → Image sz t →
    ∃ r u, Space.loadProgram endFrame ip t off sz n = .ok (r, u) ∧
      Under endFrame others s f 0 u ∧ ∀ sz', r = some sz' → Image sz' u := by
  induction n with
  | zero =>
      intro t sz off h himage
      refine ⟨some sz, t, rfl, h, fun sz' hsz => ?_⟩
      cases hsz
      exact himage
  | succ n ih =>
      intro t sz off h himage
      rw [Space.loadProgram]
      by_cases hread : ip.readi off 32 ≠ 32
      · rw [if_pos hread]
        exact ⟨none, t, rfl, h, fun _ hr => by cases hr⟩
      · obtain ⟨r, u, hrun, hu, hsz⟩ := loadSegment_spec h himage ip (ip.proghdr off)
        rw [if_neg hread, hrun, ok_bind]
        dsimp only
        cases r with
        | none => exact ⟨none, u, rfl, hu, fun _ hr => by cases hr⟩
        | some sz' => exact ih _ hu (hsz sz' rfl)

end VirtualMemory

end Xv6Fairness
