import Mathlib.Algebra.Order.Group.Nat
import Mathlib.Data.List.Basic
import Mathlib.Tactic.Ring

/-!
# The boot loader

`bootmain` reads whole sectors, so that a segment of the kernel comes with bytes in front of it and
behind it that are not asked for. When the segments are in increasing order this does not matter, as
a comment of the source has it: what a segment spoils is loaded later.
-/

namespace Xv6Fairness

namespace BootLoader

def SECTSIZE : ℕ := 512

def ELF_MAGIC : ℕ := 0x464C457F

/-- The scratch space of the header. -/
def elf : ℕ := 0x10000

abbrev Mem := ℕ → UInt8

/-- The number in the `w` bytes from an address on. -/
def word (m : Mem) : ℕ → ℕ → ℕ
  | 0, _ => 0
  | w + 1, a => (m a).toNat + 256 * word m w (a + 1)

structure Proghdr where
  off : ℕ
  paddr : ℕ
  filesz : ℕ
  memsz : ℕ

def proghdr (m : Mem) (ph : ℕ) : Proghdr :=
  ⟨word m 4 (ph + 4), word m 4 (ph + 12), word m 4 (ph + 16), word m 4 (ph + 20)⟩

def copy (m : Mem) (dst n : ℕ) (src : ℕ → UInt8) : Mem :=
  fun a => if dst ≤ a ∧ a < dst + n then src (a - dst) else m a

def stosb (addr : ℕ) (data : UInt8) (cnt : ℕ) (m : Mem) : Mem := copy m addr cnt fun _ => data

section Code

variable (disk : ℕ → UInt8)

def readsect (dst offset : ℕ) (m : Mem) : Mem :=
  copy m dst SECTSIZE fun k => disk (SECTSIZE * offset + k)

/-- The loop of `readseg`; `none` is a loop that does not end. -/
def readsegLoop : ℕ → ℕ → ℕ → ℕ → Mem → Option Mem
  | 0, _, _, _, _ => none
  | n + 1, pa, epa, offset, m =>
    if pa < epa then readsegLoop n ((pa + SECTSIZE) % 2 ^ 32) epa (offset + 1)
    (readsect disk pa offset m)
    else some m

def readseg (pa count offset : ℕ) (m : Mem) : Option Mem :=
  let epa := (pa + count) % 2 ^ 32
  let pa := (pa + 2 ^ 32 - offset % SECTSIZE) % 2 ^ 32
  readsegLoop disk (2 ^ 32) pa epa (offset / SECTSIZE + 1) m

/-- The loop of `bootmain`, with a bound on the passes like that of `readsegLoop`. -/
def loadSegments : ℕ → ℕ → ℕ → Mem → Option Mem
  | 0, _, _, _ => none
  | n + 1, ph, eph, m =>
    if ph < eph then do
      let p := proghdr m ph
      let m ← readseg disk p.paddr p.filesz p.off m
      let m := if p.memsz > p.filesz then stosb ((p.paddr + p.filesz) % 2 ^ 32) 0
          (p.memsz - p.filesz) m else m
      loadSegments n ((ph + 32) % 2 ^ 32) eph m
    else some m

/-- The entry point that is called, or none where there is no kernel on the disk. -/
def bootmain (m : Mem) : Option (Option ℕ × Mem) := do
  let m ← readseg disk elf 4096 0 m
  if word m 4 elf ≠ ELF_MAGIC then some (none, m)
  else
    let ph := (elf + word m 4 (elf + 28)) % 2 ^ 32
    let eph := (ph + 32 * word m 2 (elf + 44)) % 2 ^ 32
    let m ← loadSegments disk (2 ^ 32) ph eph m
    some (some (word m 4 (elf + 24)), m)

/-- The bytes of the kernel, from sector 1 on. -/
def image : Mem := fun k => disk (SECTSIZE + k)

def phoff : ℕ := word (image disk) 4 28

def phnum : ℕ := word (image disk) 2 44

def segment (i : ℕ) : Proghdr := proghdr (image disk) (phoff disk + 32 * i)

/-- The headers are in the first page, and the segments, which are above the scratch space, are in
increasing order even with what is read in front of them. -/
structure Loadable : Prop where
  magic : word (image disk) 4 0 = ELF_MAGIC
  headers : phoff disk + 32 * phnum disk ≤ 4096
  size : ∀ i < phnum disk, (segment disk i).filesz ≤ (segment disk i).memsz
  above : ∀ i < phnum disk, elf + 4096 + (segment disk i).off % SECTSIZE ≤ (segment disk i).paddr
  below : ∀ i < phnum disk, (segment disk i).paddr + (segment disk i).memsz + SECTSIZE ≤ 2 ^ 32
  increasing : ∀ j < phnum disk, ∀ i < j,
    (segment disk i).paddr + (segment disk i).memsz + (segment disk j).off % SECTSIZE ≤
      (segment disk j).paddr

/-- The bytes of a segment are those of the file, and zero behind them. -/
def Loaded (m : Mem) (p : Proghdr) : Prop :=
  ∀ k < p.memsz, m (p.paddr + k) = if k < p.filesz then image disk (p.off + k) else 0

end Code

variable {disk : ℕ → UInt8} {m m' : Mem}

@[simp] theorem copy_of_mem {dst n a : ℕ} {src : ℕ → UInt8} (h : dst ≤ a ∧ a < dst + n) :
    copy m dst n src a = src (a - dst) := if_pos h

theorem copy_of_not_mem {dst n a : ℕ} {src : ℕ → UInt8} (h : a < dst ∨ dst + n ≤ a) :
    copy m dst n src a = m a := if_neg (by omega)

theorem word_congr {w a b : ℕ} (h : ∀ k < w, m (a + k) = m' (b + k)) :
    word m w a = word m' w b := by
  induction w generalizing a b with
  | zero => rfl
  | succ w ih =>
    have hhead := h 0 (Nat.succ_pos w)
    have htail : word m w (a + 1) = word m' w (b + 1) := ih fun k hk => by
      have hnext := h (k + 1) (Nat.succ_lt_succ hk)
      rwa [Nat.add_right_comm, Nat.add_right_comm b]
    simp only [word, htail, Nat.add_zero] at hhead ⊢
    rw [hhead]

theorem readsegLoop_spec {n fuel pa epa offset : ℕ} (hn : pa + SECTSIZE * n < epa + SECTSIZE)
    (hepa : epa ≤ pa + SECTSIZE * n) (hlt : epa + SECTSIZE ≤ 2 ^ 32) (hfuel : n < fuel) :
    readsegLoop disk fuel pa epa offset m =
      some (copy m pa (SECTSIZE * n) fun k => disk (SECTSIZE * offset + k)) := by
  induction n generalizing fuel pa offset m with
  | zero =>
    obtain ⟨fuel, rfl⟩ := Nat.exists_eq_add_of_lt hfuel
    have hend : ¬pa < epa := by omega
    have hcopy : copy m pa (SECTSIZE * 0) (fun k => disk (SECTSIZE * offset + k)) = m :=
      funext fun a => copy_of_not_mem (by omega)
    rw [hcopy]
    exact if_neg hend
  | succ n ih =>
    obtain ⟨fuel, rfl⟩ := Nat.exists_eq_add_of_lt hfuel
    have hpos : 0 < SECTSIZE := by decide
    have hgo : pa < epa := by
      rw [Nat.mul_succ] at hn
      have := Nat.zero_le (SECTSIZE * n)
      omega
    have hwrap : (pa + SECTSIZE) % 2 ^ 32 = pa + SECTSIZE := Nat.mod_eq_of_lt (by omega)
    rw [readsegLoop, if_pos hgo, hwrap, ih (by rw [Nat.mul_succ] at hn; omega)
      (by rw [Nat.mul_succ] at hepa; omega) (by omega)]
    refine congrArg some (funext fun a => ?_)
    by_cases hfirst : pa ≤ a ∧ a < pa + SECTSIZE
    · rw [copy_of_not_mem (by omega), readsect, copy_of_mem hfirst,
        copy_of_mem ⟨hfirst.1, by rw [Nat.mul_succ]; omega⟩]
    · by_cases hrest : pa + SECTSIZE ≤ a ∧ a < pa + SECTSIZE + SECTSIZE * n
      · have hsector : SECTSIZE * (offset + 1) + (a - (pa + SECTSIZE)) = SECTSIZE * offset +
          (a - pa) := by
          rw [Nat.mul_succ]
          omega
        rw [copy_of_mem hrest, copy_of_mem ⟨by omega, by rw [Nat.mul_succ]; omega⟩, hsector]
      · rw [copy_of_not_mem (by omega), readsect, copy_of_not_mem (by omega),
          copy_of_not_mem (by rw [Nat.mul_succ]; omega)]

theorem readseg_spec (disk : ℕ → UInt8) (m : Mem) {pa count offset : ℕ}
    (hpa : offset % SECTSIZE ≤ pa)
    (hlt : pa + count + SECTSIZE ≤ 2 ^ 32) :
    ∃ m', readseg disk pa count offset m = some m' ∧
      (∀ k < count, m' (pa + k) = image disk (offset + k)) ∧
      ∀ a, a < pa - offset % SECTSIZE → m' a = m a := by
  have hpos : 0 < SECTSIZE := by decide
  let start := pa - offset % SECTSIZE
  let n := (pa + count - start + (SECTSIZE - 1)) / SECTSIZE
  have hstart : (pa + 2 ^ 32 - offset % SECTSIZE) % 2 ^ 32 = start := by
    have hle : start < 2 ^ 32 := by omega
    have hsum : pa + 2 ^ 32 - offset % SECTSIZE = start + 2 ^ 32 := by omega
    rw [hsum, Nat.add_mod_right, Nat.mod_eq_of_lt hle]
  have hend : (pa + count) % 2 ^ 32 = pa + count := Nat.mod_eq_of_lt (by omega)
  have hn : SECTSIZE * n ≤ pa + count - start + (SECTSIZE - 1) := Nat.mul_div_le _ _
  have hn' : pa + count - start + (SECTSIZE - 1) < SECTSIZE * n + SECTSIZE := by
    have := Nat.lt_mul_div_succ (pa + count - start + (SECTSIZE - 1)) hpos
    rwa [Nat.mul_succ] at this
  have hfuel : n < 2 ^ 32 := by
    have hle : n ≤ SECTSIZE * n := Nat.le_mul_of_pos_left n hpos
    unfold SECTSIZE at *
    omega
  have hloop : readsegLoop disk (2 ^ 32) start (pa + count) (offset / SECTSIZE + 1) m =
      some (copy m start (SECTSIZE * n) fun k => disk (SECTSIZE * (offset / SECTSIZE + 1) + k)) :=
    readsegLoop_spec (by omega) (by omega) hlt hfuel
  refine ⟨_, by rw [readseg, hstart, hend]; exact hloop, fun k hk => ?_,
    fun a ha => copy_of_not_mem (.inl ha)⟩
  have hdiv := Nat.div_add_mod offset SECTSIZE
  have hbyte : SECTSIZE * (offset / SECTSIZE + 1) + (pa + k - start) = SECTSIZE + (offset + k) := by
    rw [Nat.mul_succ]
    omega
  rw [copy_of_mem ⟨by omega, by omega⟩, hbyte, image]

def clear (p : Proghdr) (m : Mem) : Mem :=
  if p.memsz > p.filesz then stosb ((p.paddr + p.filesz) % 2 ^ 32) 0 (p.memsz - p.filesz) m else m

theorem clear_spec {p : Proghdr} (hlt : p.paddr + p.filesz < 2 ^ 32) (a : ℕ) :
    clear p m a = if p.paddr + p.filesz ≤ a ∧ a < p.paddr + p.memsz then 0 else m a := by
  unfold clear stosb
  rw [Nat.mod_eq_of_lt hlt]
  by_cases hmem : p.memsz > p.filesz
  · have hend : p.paddr + p.filesz + (p.memsz - p.filesz) = p.paddr + p.memsz := by omega
    rw [if_pos hmem, copy, hend]
  · rw [if_neg hmem, if_neg (by omega)]

theorem segment_spec (disk : ℕ → UInt8) (m : Mem) {p : Proghdr} (hsize : p.filesz ≤ p.memsz)
    (hoff : p.off % SECTSIZE ≤ p.paddr) (hlt : p.paddr + p.memsz + SECTSIZE ≤ 2 ^ 32) :
    ∃ m', readseg disk p.paddr p.filesz p.off m = some m' ∧ Loaded disk (clear p m') p ∧
      ∀ a, a < p.paddr - p.off % SECTSIZE → clear p m' a = m a := by
  have hpos : 0 < SECTSIZE := by decide
  obtain ⟨m', hread, hbytes, hfront⟩ :=
    readseg_spec disk m hoff (by omega : p.paddr + p.filesz + SECTSIZE ≤ 2 ^ 32)
  refine ⟨m', hread, fun k hk => ?_, fun a ha => ?_⟩
  · rw [clear_spec (by omega)]
    by_cases hfile : k < p.filesz
    · rw [if_neg (by omega), if_pos hfile, hbytes k hfile]
    · rw [if_pos (by omega), if_neg hfile]
  · rw [clear_spec (by omega), if_neg (by omega), hfront a ha]

theorem proghdr_congr {ph ph' : ℕ} (h : ∀ k < 32, m (ph + k) = m' (ph' + k)) :
    proghdr m ph = proghdr m' ph' := by
  have hword : ∀ o ≤ 28, word m 4 (ph + o) = word m' 4 (ph' + o) := fun o ho =>
    word_congr fun k hk => by
      rw [Nat.add_assoc, Nat.add_assoc]
      exact h (o + k) (by omega)
  simp only [proghdr, hword 4 (by omega), hword 12 (by omega), hword 16 (by omega),
    hword 20 (by omega)]

/-- The segments that are loaded, and the header, stay while the others are loaded. -/
theorem loadSegments_spec (h : Loadable disk) {n i fuel : ℕ} (hi : i + n = phnum disk)
    (hfuel : n < fuel)
    (hheader : ∀ a < 4096, m (elf + a) = image disk a)
    (hloaded : ∀ j < i, Loaded disk m (segment disk j)) :
    ∃ m', loadSegments disk fuel (elf + phoff disk + 32 * i)
    (elf + phoff disk + 32 * phnum disk) m =
      some m' ∧
      (∀ j < phnum disk, Loaded disk m' (segment disk j)) ∧ ∀ a < elf + 4096, m' a = m a := by
  induction n generalizing i fuel m with
  | zero =>
    obtain ⟨fuel, rfl⟩ := Nat.exists_eq_add_of_lt hfuel
    refine ⟨m, if_neg (by omega), fun j hj => hloaded j (by omega), fun _ _ => rfl⟩
  | succ n ih =>
    obtain ⟨fuel, rfl⟩ := Nat.exists_eq_add_of_lt hfuel
    have hlt : i < phnum disk := by omega
    have hheaders := h.headers
    have habove := h.above i hlt
    have hseg : proghdr m (elf + phoff disk + 32 * i) = segment disk i :=
      proghdr_congr fun k hk => by
        rw [Nat.add_assoc, Nat.add_assoc, hheader _ (by omega), Nat.add_assoc]
    obtain ⟨m₁, hread, hown, hfront⟩ := segment_spec disk m (h.size i hlt) (by omega)
        (h.below i hlt)
    have hkept : ∀ a < elf + 4096, clear (segment disk i) m₁ a = m a :=
      fun a ha => hfront a (by omega)
    have hbefore : ∀ j < i + 1, Loaded disk (clear (segment disk i) m₁) (segment disk j) := by
      intro j hj
      rcases Nat.lt_succ_iff_lt_or_eq.mp hj with hjlt | rfl
      · intro k hk
        have hincreasing := h.increasing i hlt j hjlt
        rw [hfront _ (by omega)]
        exact hloaded j hjlt k hk
      · exact hown
    have hwrap : (elf + phoff disk + 32 * i + 32) % 2 ^ 32 = elf + phoff disk + 32 * (i + 1) := by
      unfold elf
      rw [Nat.mod_eq_of_lt (by omega)]
      omega
    have hfuel' : n < n + 1 + fuel := by omega
    obtain ⟨m', hrest, hall, hlow⟩ := ih (by omega : i + 1 + n = phnum disk) hfuel'
      (fun a ha => (hkept _ (by omega)).trans (hheader a ha)) hbefore
    refine ⟨m', ?_, hall, fun a ha => (hlow a ha).trans (hkept a ha)⟩
    rw [loadSegments, if_pos (by omega), hseg, hwrap]
    simp only [hread, Option.bind_eq_bind, Option.bind_some]
    exact hrest

/-- The boot loader puts the kernel of the disk where its headers say, keeps what is below the
scratch space, and calls the kernel. -/
theorem bootmain_loads (h : Loadable disk) (m : Mem) :
    ∃ m', bootmain disk m = some (some (word (image disk) 4 24), m') ∧
      (∀ i < phnum disk, Loaded disk m' (segment disk i)) ∧ ∀ a < elf, m' a = m a := by
  obtain ⟨m₁, hread, hpage, hfront⟩ := readseg_spec disk m (by decide : 0 % SECTSIZE ≤ elf)
    (by decide : elf + 4096 + SECTSIZE ≤ 2 ^ 32)
  have hheader : ∀ a < 4096, m₁ (elf + a) = image disk a := by simpa using hpage
  have hword : ∀ w o, o + w ≤ 4096 → word m₁ w (elf + o) = word (image disk) w o := fun w o ho =>
    word_congr fun k hk => by
      rw [Nat.add_assoc]
      exact hheader (o + k) (by omega)
  have hmagic : word m₁ 4 elf = ELF_MAGIC := (hword 4 0 (by omega)).trans h.magic
  have hheaders := h.headers
  have hph : (elf + word m₁ 4 (elf + 28)) % 2 ^ 32 = elf + phoff disk + 32 * 0 := by
    rw [hword 4 28 (by omega), ← phoff, elf, Nat.mod_eq_of_lt (by omega)]
    rfl
  have heph : (elf + phoff disk + 32 * 0 + 32 * word m₁ 2 (elf + 44)) % 2 ^ 32 =
      elf + phoff disk + 32 * phnum disk := by
    rw [hword 2 44 (by omega), ← phnum, elf, Nat.mod_eq_of_lt (by omega)]
    rfl
  have hfuel : phnum disk < 2 ^ 32 := by omega
  obtain ⟨m', hload, hall, hlow⟩ := loadSegments_spec h (Nat.zero_add _) hfuel hheader
    fun j hj => absurd hj (Nat.not_lt_zero j)
  have hentry : word m' 4 (elf + 24) = word (image disk) 4 24 := by
    rw [← hword 4 24 (by omega)]
    exact word_congr fun k hk => hlow _ (by omega)
  refine ⟨m', ?_, hall, fun a ha => (hlow a (Nat.lt_add_right 4096 ha)).trans (hfront a ?_)⟩
  · rw [bootmain, hread, Option.bind_eq_bind, Option.bind_some, if_neg (not_not.mpr hmagic), hph]
    dsimp only
    rw [heph, hload, Option.bind_some, hentry]
  · rwa [Nat.zero_mod, Nat.sub_zero]

def little : ℕ → ℕ → List UInt8
  | 0, _ => []
  | w + 1, n => UInt8.ofNat n :: little w (n / 256)

/-- A kernel of two segments. The first sector of the second one has bytes of the first one, and the
second one goes on in memory behind its bytes in the file. -/
def twoSegments : ℕ → UInt8 :=
  let fields := [ELF_MAGIC, 0, 0, 0, 0, 0, 0x10000c, 52, 0, 0, 0, 2, 0,
    1, 4096, 0x80100000, 0x100000, 700, 700, 5, 4096,
    1, 4796, 0x801012bc, 0x1012bc, 300, 1000, 6, 4096]
  fun a => if a < SECTSIZE then 0 else (fields.flatMap (little 4)).getD (a - SECTSIZE) 7

theorem bootmain_loads_two_segments :
    ∃ m', bootmain twoSegments (fun _ => 0) = some (some 0x10000c, m') ∧
      (∀ i < phnum twoSegments, Loaded twoSegments m' (segment twoSegments i)) ∧
      ∀ a < elf, m' a = 0 := by
  have hloadable : Loadable twoSegments := by
    constructor <;> decide
  exact bootmain_loads hloadable _

end BootLoader

end Xv6Fairness
