import Mathlib.Order.Interval.Finset.Nat
import Xv6Fairness.GrowProcess

/-!
# Making and freeing address spaces

`setupkvm` takes a page for a directory and maps the kernel into it, and `freevm` gives back the
user pages, the page tables and the directory. Where the allocator runs out in between, what has
been taken is given back.
-/

namespace Xv6Fairness

open Outcomes Ownership

namespace VirtualMemory

def NPDENTRIES : ℕ := 1024

def PHYSTOP : UInt32 := 0xE000000

def EXTMEM : UInt32 := 0x100000

def DEVSPACE : UInt32 := 0xFE000000

def KERNLINK : UInt32 := KERNBASE + EXTMEM

def PTE_W : UInt32 := 2

def V2P (a : UInt32) : UInt32 := a - KERNBASE

def P2V (a : UInt32) : UInt32 := a + KERNBASE

structure Kmap where
  virt : UInt32
  phys_start : UInt32
  phys_end : UInt32
  perm : UInt32

/-- The address of `data` is chosen by the linker. -/
def kmap (data : UInt32) : List Kmap :=
  [⟨KERNBASE, 0, EXTMEM, PTE_W⟩,
    ⟨KERNLINK, V2P KERNLINK, V2P data, 0⟩,
    ⟨data, V2P data, PHYSTOP, PTE_W⟩,
    ⟨DEVSPACE, DEVSPACE, 0, PTE_W⟩]

namespace Space

def mapKernel (s : Space) : List Kmap → Except Panic (ℤ × Space)
  | [] => .ok (0, s)
  | k :: ks => do
    let (r, s) ← s.mappages k.virt (k.phys_end - k.phys_start) (k.phys_start.toNat / PGSIZE) k.perm
    if r < 0 then .ok (-1, s) else mapKernel s ks

variable (endFrame : ℕ) (s : Space)

def freeTable (s : Space) (d : ℕ) : Except Panic Space :=
  match s.pgdir d with
  | none => .ok s
  | some t => s.kfree endFrame t.frame

def freevm (pgdir : ℕ) : Except Panic Space :=
  if pgdir = 0 then .error .noPgdir
  else do
    let (_, s) ← s.deallocuvm endFrame KERNBASE 0
    let s ← (List.range NPDENTRIES).foldlM (freeTable endFrame) s
    let s ← s.kfree endFrame pgdir
    .ok { s with pgdir := fun _ => none }

/-- The page of the new directory, if there is one. -/
def setupkvm (data : UInt32) : Except Panic (Option ℕ × Space) :=
  match s.kalloc with
  | (none, s) => .ok (none, s)
  | (some pgdir, s) =>
    if DEVSPACE < P2V PHYSTOP then .error .tooHigh
    else do
      let (r, s) ← mapKernel { s with pgdir := fun _ => none } (kmap data)
      if r < 0 then do
        let s ← s.freevm endFrame pgdir
        .ok (none, s)
      else .ok (some pgdir, s)

end Space

variable {endFrame : ℕ} {κ : Type*} {others : κ → ℕ} {s t u : Space} {hand f d v w n lo : ℕ}
  {P Q : ℕ → Prop}

/-- A directory beside everything else that is in use. -/
def withDir (f : ℕ) (others : κ → ℕ) : Option κ → ℕ
  | none => f
  | some k => others k

/-- No entries beyond the end of the directory. -/
def Small (s : Space) : Prop := ∀ d, NPDENTRIES ≤ d → s.pgdir d = none

def Space.blank (s : Space) : Space := { s with pgdir := fun _ => none }

theorem refs_blank (k : Slot κ) : refs others s.blank hand k =
    match k with
    | .user _ => 0
    | .table _ => 0
    | .hand => hand
    | .other k => others k := by
  cases k with
  | user v => exact ite_self 0
  | table d => rfl
  | hand => rfl
  | other k => rfl

theorem Inv.of_owns (hnodup : s.freelist.Nodup) (hlt : ∀ f ∈ s.freelist, f < stopFrame)
    (howns : Owns endFrame stopFrame (fun f => f ∉ s.freelist) (refs others s.blank hand)) :
    Inv endFrame others s.blank hand :=
  ⟨hnodup, hlt, howns, fun _ _ _ hp => (by cases hp), fun _ _ ht => (by cases ht)⟩

theorem Inv.blank (h : Inv endFrame others s hand) :
    Inv endFrame (refs others s hand) s.blank 0 := by
  refine .of_owns h.nodup h.lt (h.owns.reindex (fun | .other k => k | _ => .hand) ?_ ?_ ?_)
  · intro k hk
    rw [refs_blank] at hk ⊢
    cases k with
    | other k => rfl
    | _ => exact absurd rfl hk
  · intro k l hk hl hkl
    rw [refs_blank] at hk hl
    cases k with
    | other k =>
        cases l with
        | other l => exact congrArg Slot.other hkl
        | _ => exact absurd rfl hl
    | _ => exact absurd rfl hk
  · intro k _
    exact ⟨.other k, rfl⟩

theorem Inv.unblank (huser : ∀ v < userPages, ∀ p, s.pte (PGSIZE * v) = some p → p.frame ≠ 0)
    (htable : ∀ d x, s.pgdir d = some x → x.frame ≠ 0)
    (ht : Inv endFrame (refs others s hand) t.blank 0) :
    Inv endFrame others { t with sz := s.sz, pgdir := s.pgdir } hand := by
  refine ⟨ht.nodup, ht.lt, ?_, huser, htable⟩
  have howns : Owns endFrame stopFrame (fun f => f ∉ t.freelist) (refs others s hand) := by
    refine ht.owns.reindex Slot.other (fun _ _ => rfl) (fun _ _ _ _ hkl => Slot.other.inj hkl) ?_
    intro k hk
    rw [refs_blank] at hk ⊢
    cases k with
    | other k => exact ⟨k, rfl⟩
    | _ => exact absurd rfl hk
  refine howns.congr (fun _ _ => Iff.rfl) fun k => ?_
  cases k with
  | _ => rfl

theorem Inv.addDir (h : Inv endFrame others s.blank f) :
    Inv endFrame (withDir f others) s.blank 0 := by
  refine .of_owns h.nodup h.lt
    (h.owns.reindex (fun | .other (some k) => .other k | _ => .hand) ?_ ?_ ?_)
  · intro k hk
    rw [refs_blank] at hk ⊢
    cases k with
    | other k =>
        cases k with
        | none => rfl
        | some k => rfl
    | _ => exact absurd rfl hk
  · intro k l hk hl hkl
    rw [refs_blank] at hk hl
    rcases k with _ | _ | _ | (_ | k)
    · exact absurd rfl hk
    · exact absurd rfl hk
    · exact absurd rfl hk
    · rcases l with _ | _ | _ | (_ | l)
      · exact absurd rfl hl
      · exact absurd rfl hl
      · exact absurd rfl hl
      · rfl
      · cases hkl
    · rcases l with _ | _ | _ | (_ | l)
      · exact absurd rfl hl
      · exact absurd rfl hl
      · exact absurd rfl hl
      · cases hkl
      · rw [Slot.other.inj hkl]
  · intro k hk
    rw [refs_blank] at hk ⊢
    cases k with
    | hand => exact ⟨.other none, rfl⟩
    | other k => exact ⟨.other (some k), rfl⟩
    | _ => exact absurd rfl hk

theorem Inv.of_withDir (h : Inv endFrame (withDir f others) s.blank 0) :
    Inv endFrame others s.blank f := by
  refine .of_owns h.nodup h.lt (h.owns.reindex
    (fun | .other k => .other (some k) | _ => .other none) ?_ ?_ ?_)
  · intro k hk
    rw [refs_blank] at hk ⊢
    cases k with
    | other k => rfl
    | hand => rfl
    | _ => exact absurd rfl hk
  · intro k l hk hl hkl
    rw [refs_blank] at hk hl
    cases k with
    | other k =>
        cases l with
        | other l => rw [Option.some_inj.mp (Slot.other.inj hkl)]
        | hand => cases hkl
        | _ => exact absurd rfl hl
    | hand =>
        cases l with
        | other l => cases hkl
        | hand => rfl
        | _ => exact absurd rfl hl
    | _ => exact absurd rfl hk
  · intro k hk
    rw [refs_blank] at hk ⊢
    rcases k with _ | _ | _ | (_ | k)
    · exact absurd rfl hk
    · exact absurd rfl hk
    · exact absurd rfl hk
    · exact ⟨.hand, rfl⟩
    · exact ⟨.other k, rfl⟩

theorem Inv.free_congr (h : Inv endFrame others s hand) (h' : Inv endFrame others t hand)
    (hrefs : refs others t hand = refs others s hand) : ∀ f, f ∈ t.freelist ↔ f ∈ s.freelist := by
  have howns : Owns endFrame stopFrame (fun f => f ∉ t.freelist) (refs others s hand) :=
    hrefs ▸ h'.owns
  intro f
  by_cases hf : f < stopFrame
  · have hiff : f ∉ t.freelist ↔ f ∉ s.freelist := h.owns.used_congr howns hf
    exact not_iff_not.mp hiff
  · exact iff_of_false (fun hmem => hf (h'.lt f hmem)) fun hmem => hf (h.lt f hmem)

/-- Only entries for the pages `P` have been filled. -/
structure MappedAt (P : ℕ → Prop) (s t : Space) : Prop where
  sz : t.sz = s.sz
  page : t.page = s.page
  kept : ∀ w, ¬ P w → t.pte (PGSIZE * w) = s.pte (PGSIZE * w)
  small : Small s → Small t

theorem MappedAt.refl : MappedAt P s s := ⟨rfl, rfl, fun _ _ => rfl, id⟩

theorem MappedAt.trans (h : MappedAt P s t) (h' : MappedAt P t u) : MappedAt P s u :=
  ⟨h'.sz.trans h.sz, h'.page.trans h.page, fun w hw => (h'.kept w hw).trans (h.kept w hw),
    fun hs => h'.small (h.small hs)⟩

theorem MappedAt.mono (h : MappedAt P s t) (hPQ : ∀ w, P w → Q w) : MappedAt Q s t :=
  ⟨h.sz, h.page, fun w hw => h.kept w (mt (hPQ w) hw), h.small⟩

theorem Small.setPte (h : Small s) (a : ℕ) (p : Option Pte) : Small (s.setPte a p) := by
  intro d hd
  rw [Space.setPte]
  dsimp only
  by_cases hda : d = PDX a
  · rw [hda, Function.update_self, ← hda, h d hd]
    rfl
  · rw [Function.update_of_ne hda, h d hd]

theorem PDX_lt (a : UInt32) : PDX a.toNat < NPDENTRIES := by
  have hlt := a.toNat_lt
  change a.toNat / 4194304 < 1024
  omega

theorem Small.walkpgdir (h : Small s) (a : UInt32) (alloc : Bool) :
    Small (s.walkpgdir a.toNat alloc).2 := by
  have hlt := PDX_lt a
  intro d hd
  rw [Space.walkpgdir]
  split_ifs
  · exact h d hd
  · rw [Space.kalloc]
    split
    · next heq =>
        split at heq
        · cases heq
          exact h d hd
        · cases heq
    · next heq =>
        split at heq
        · cases heq
        · cases heq
          exact (Function.update_of_ne (by omega) _ _).trans (h d hd)
  · exact h d hd

theorem Small.mapLoop {perm : UInt32} (n : ℕ) : ∀ {s : Space} {a : UInt32} {frame : ℕ}
    {r : ℤ}, Small s → s.mapLoop a frame perm n = .ok (r, t) → Small t := by
  induction n with
  | zero =>
      intro s a frame r h hrun
      have hwalk := h.walkpgdir a true
      rw [Space.mapLoop] at hrun
      split at hrun
      · next heq =>
          rw [heq] at hwalk
          cases hrun
          exact hwalk
      · next heq =>
          rw [heq] at hwalk
          split_ifs at hrun
          cases hrun
          exact hwalk.setPte _ _
  | succ n ih =>
      intro s a frame r h hrun
      have hwalk := h.walkpgdir a true
      rw [Space.mapLoop] at hrun
      split at hrun
      · next heq =>
          rw [heq] at hwalk
          cases hrun
          exact hwalk
      · next heq =>
          rw [heq] at hwalk
          split_ifs at hrun
          exact ih (hwalk.setPte _ _) hrun

theorem Inv.mapKernel (h : Inv endFrame others s hand) (hv : userPages ≤ v)
    (ht : (s.pgdir (PDX (PGSIZE * v))).isSome) (p : Option Pte) :
    Inv endFrame others (s.setPte (PGSIZE * v) p) hand := by
  have hne : ∀ w < userPages, w ≠ v := fun w hw => (hw.trans_le hv).ne
  refine ⟨h.nodup, h.lt, h.owns.congr (fun _ _ => Iff.rfl) fun k => ?_, fun w hw q hq => ?_,
    table_setPte h.table⟩
  · cases k with
    | user w =>
        rw [refs, refs]
        split_ifs with hw
        · rw [pte_setPte ht, if_neg (hne w hw)]
        · rfl
    | table d => rw [refs, frame_setPte, refs]
    | hand => rfl
    | other k => rfl
  · rw [pte_setPte ht, if_neg (hne w hw)] at hq
    exact h.user w hw q hq

theorem Walked.mappedAt (h : Walked s t) (hsmall : Small s → Small t) : MappedAt P s t :=
  ⟨h.sz, h.page, fun w _ => h.pte w, hsmall⟩

variable [DecidableEq κ]

theorem mapKernel_pass (h : Inv endFrame others s hand) {a : UInt32} (ha : a.toNat = PGSIZE * v)
    (hv : userPages ≤ v) (hnone : s.pte (PGSIZE * v) = none) (p : Pte) :
    ∃ b t, s.walkpgdir a.toNat true = (b, t) ∧ t.pte a.toNat = none ∧ Inv endFrame others t hand ∧
      MappedAt (· = v) s t ∧ (b = true → Inv endFrame others (t.setPte a.toNat (some p)) hand ∧
        MappedAt (· = v) s (t.setPte a.toNat (some p))) := by
  have hsmall := fun hs : Small s => hs.walkpgdir a true
  rw [ha] at hsmall ⊢
  obtain ⟨b, t, hwalk, hinv, hwalked, htable⟩ := walkpgdir_spec h (v := v)
  rw [hwalk] at hsmall
  have hmapped : MappedAt (· = v) s t := hwalked.mappedAt hsmall
  refine ⟨b, t, hwalk, (hwalked.pte v).trans hnone, hinv, hmapped, fun hb => ?_⟩
  refine ⟨hinv.mapKernel hv (htable hb) _, hmapped.sz, hmapped.page, fun w hw => ?_, fun hs =>
    (hmapped.small hs).setPte _ _⟩
  rw [pte_setPte (htable hb), if_neg hw, hmapped.kept w hw]

theorem mapLoop_kernel {perm : UInt32} (n : ℕ) : ∀ {s : Space} {a : UInt32} (frame : ℕ) {v : ℕ},
    Inv endFrame others s hand → a.toNat = PGSIZE * v → userPages ≤ v → v + n < 2 ^ 20 →
    (∀ w, v ≤ w → w ≤ v + n → s.pte (PGSIZE * w) = none) →
    ∃ r t, s.mapLoop a frame perm n = .ok (r, t) ∧ (r = 0 ∨ r = -1) ∧ Inv endFrame others t hand ∧
      MappedAt (fun w => v ≤ w ∧ w ≤ v + n) s t := by
  induction n with
  | zero =>
      intro s a frame v h ha hv _ hnone
      obtain ⟨b, t, hwalk, hpte, hinv, hmapped, hset⟩ :=
        mapKernel_pass h ha hv (hnone v le_rfl le_rfl) ⟨frame, perm⟩
      have hmono : ∀ w, w = v → v ≤ w ∧ w ≤ v + 0 := by
        rintro w rfl
        exact ⟨le_rfl, le_rfl⟩
      rw [Space.mapLoop, hwalk]
      cases b with
      | false => exact ⟨-1, t, rfl, .inr rfl, hinv, hmapped.mono hmono⟩
      | true =>
          dsimp only
          rw [hpte, if_neg (by decide)]
          exact ⟨0, _, rfl, .inl rfl, (hset rfl).1, (hset rfl).2.mono hmono⟩
  | succ n ih =>
      intro s a frame v h ha hv hn hnone
      obtain ⟨b, t, hwalk, hpte, hinv, hmapped, hset⟩ :=
        mapKernel_pass h ha hv (hnone v le_rfl (by omega)) ⟨frame, perm⟩
      have hmono : ∀ w, w = v → v ≤ w ∧ w ≤ v + (n + 1) := by
        rintro w rfl
        exact ⟨le_rfl, by omega⟩
      have hnext : (a + 4096).toNat = PGSIZE * (v + 1) := by
        rw [UInt32.toNat_add, ha]
        change (4096 * v + 4096) % 2 ^ 32 = 4096 * (v + 1)
        omega
      rw [Space.mapLoop, hwalk]
      cases b with
      | false => exact ⟨-1, t, rfl, .inr rfl, hinv, hmapped.mono hmono⟩
      | true =>
          obtain ⟨hinv', hmapped'⟩ := hset rfl
          obtain ⟨r, u, hrun, hr, hinvu, hmappedu⟩ := ih (frame + 1) hinv' hnext (by omega)
            (by omega) fun w hvw hwn => by
              rw [hmapped'.kept w (by omega)]
              exact hnone w (by omega) (by omega)
          dsimp only
          rw [hpte, if_neg (by decide), hrun]
          refine ⟨r, u, rfl, hr, hinvu, (hmapped'.mono hmono).trans (hmappedu.mono fun w hw => ?_)⟩
          omega

theorem mappages_kernel (h : Inv endFrame others s hand) {va size : UInt32} (frame : ℕ)
    (perm : UInt32)
    (hva : va.toNat = PGSIZE * v) (hsize : size.toNat = PGSIZE * (n + 1)) (hv : userPages ≤ v)
    (hn : v + n < 2 ^ 20) (hnone : ∀ w, v ≤ w → w ≤ v + n → s.pte (PGSIZE * w) = none) :
    ∃ r t, s.mappages va size frame perm = .ok (r, t) ∧ (r = 0 ∨ r = -1) ∧
      Inv endFrame others t hand ∧ MappedAt (fun w => v ≤ w ∧ w ≤ v + n) s t := by
  rw [Space.mappages, page_count hva hsize hn, PGROUNDDOWN_page hva]
  exact mapLoop_kernel n frame h hva hv hn hnone

/-- Regions of whole pages, one behind the other. -/
def Ascending : ℕ → List Kmap → Prop
  | _, [] => True
  | lo, k :: ks => ∃ v n, lo ≤ v ∧ v + n < 2 ^ 20 ∧ k.virt.toNat = PGSIZE * v ∧
      (k.phys_end - k.phys_start).toNat = PGSIZE * (n + 1) ∧ Ascending (v + n + 1) ks

theorem mapKernel_spec : ∀ (ks : List Kmap) {s : Space} {lo : ℕ}, Inv endFrame others s hand →
    userPages ≤ lo → Ascending lo ks → (∀ w, lo ≤ w → s.pte (PGSIZE * w) = none) →
    ∃ r t, s.mapKernel ks = .ok (r, t) ∧ (r = 0 ∨ r = -1) ∧ Inv endFrame others t hand ∧
      MappedAt (lo ≤ ·) s t
  | [], s, _, h, _, _, _ => ⟨0, s, rfl, .inl rfl, h, .refl⟩
  | k :: ks, s, lo, h, hlo, ⟨v, n, hv, hn, hva, hsize, hks⟩, hnone => by
      obtain ⟨r, t, hrun, hr, hinv, hmapped⟩ := mappages_kernel h
        (k.phys_start.toNat / PGSIZE) k.perm hva hsize (hlo.trans hv) hn fun w hw _ =>
          hnone w (hv.trans hw)
      have hmapped' : MappedAt (lo ≤ ·) s t := hmapped.mono fun w hw => hv.trans hw.1
      rw [Space.mapKernel, hrun, ok_bind]
      dsimp only
      rcases hr with rfl | rfl
      · obtain ⟨r', u, hrun', hr', hinvu, hmappedu⟩ := mapKernel_spec ks hinv (by omega) hks
          fun w hw => by
            rw [hmapped.kept w (by omega)]
            exact hnone w (by omega)
        rw [if_neg (lt_irrefl 0)]
        exact ⟨r', u, hrun', hr', hinvu, hmapped'.trans (hmappedu.mono fun w hw => by omega)⟩
      · rw [if_pos (by decide)]
        exact ⟨-1, t, rfl, .inr rfl, hinv, hmapped'⟩

/-- What the linker promises of `data`. -/
structure Linked (data : UInt32) : Prop where
  aligned : data.toNat % PGSIZE = 0
  above : KERNLINK < data
  below : data < P2V PHYSTOP

omit [DecidableEq κ] in
theorem kmap_ascending {data : UInt32} (h : Linked data) : Ascending userPages (kmap data) := by
  have haligned := h.aligned
  have habove := UInt32.lt_iff_toNat_lt.mp h.above
  have hbelow := UInt32.lt_iff_toNat_lt.mp h.below
  change data.toNat % 4096 = 0 at haligned
  change 0x80100000 < _ at habove
  change _ < 0x8E000000 at hbelow
  have htext : (V2P data - V2P KERNLINK).toNat = data.toNat - 0x80100000 := by
    rw [UInt32.toNat_sub, V2P, UInt32.toNat_sub]
    change (2 ^ 32 - 0x100000 + (2 ^ 32 - 0x80000000 + data.toNat) % 2 ^ 32) % 2 ^ 32 = _
    omega
  have hdata : (PHYSTOP - V2P data).toNat = 0x8E000000 - data.toNat := by
    rw [UInt32.toNat_sub, V2P, UInt32.toNat_sub]
    change (2 ^ 32 - (2 ^ 32 - 0x80000000 + data.toNat) % 2 ^ 32 + 0xE000000) % 2 ^ 32 = _
    omega
  refine ⟨0x80000, 0xFF,
    le_rfl, by decide, rfl, rfl, 0x80100, data.toNat / 4096 - 0x80101, by decide,
    by omega, rfl, ?_, data.toNat / 4096, 0x8DFFF - data.toNat / 4096, by omega, by omega, ?_, ?_,
    0xFE000, 0x1FFF, by omega, by decide, rfl, rfl, trivial⟩
  · rw [htext]
    change _ = 4096 * _
    omega
  · change data.toNat = 4096 * _
    omega
  · rw [hdata]
    change _ = 4096 * _
    omega

theorem kfree_congr (h : t.kfree endFrame f = .ok u) (s : Space) :
    s.kfree endFrame f = .ok (s.release f) := by
  rw [Space.kfree] at h ⊢
  split_ifs at h ⊢
  rfl

theorem Inv.freeTable (h : Inv endFrame others s hand) {table : PageTable}
    (ht : s.pgdir d = some table)
    (hnone : ∀ v < userPages, s.pte (PGSIZE * v) = none) :
    s.kfree endFrame table.frame = .ok (s.release table.frame) ∧ Inv endFrame others
      { s.release table.frame with pgdir := Function.update s.pgdir d none } hand := by
  have hframe : refs others s hand (.table d) = table.frame := by
    rw [refs, ht]
    rfl
  have hne : refs others s hand (.table d) ≠ 0 := hframe ▸ h.table d table ht
  have hrange := h.owns.range _ hne
  have hused : refs others s hand (.table d) ∉ s.freelist := h.owns.used_refs hne
  have howns : Owns endFrame stopFrame (fun c => c ∉ table.frame :: s.freelist) _ :=
    h.owns.release hne fun c _ => by rw [hframe, List.mem_cons, not_or]
  rw [hframe] at hrange hused
  have hpte : ∀ v < userPages, Space.pte { s.release table.frame with
      pgdir := Function.update s.pgdir d none } (PGSIZE * v) = none := by
    intro v hv
    have hold := hnone v hv
    rw [Space.pte] at hold ⊢
    dsimp only
    by_cases hd : PDX (PGSIZE * v) = d
    · rw [hd, Function.update_self]
      rfl
    · rwa [Function.update_of_ne hd]
  refine ⟨if_neg (not_or.mpr ⟨not_lt.mpr hrange.1, not_le.mpr hrange.2⟩),
    List.nodup_cons.mpr ⟨hused, h.nodup⟩, fun c hc => ?_,
      howns.congr (fun _ _ => Iff.rfl) fun k => ?_,
    fun v hv p hp => ?_, fun e x he => ?_⟩
  · rcases List.mem_cons.mp hc with rfl | hc
    · exact hrange.2
    · exact h.lt c hc
  · cases k with
    | user v =>
        rw [Function.update_of_ne (fun h => by cases h), refs, refs]
        split_ifs with hv
        · rw [hpte v hv, hnone v hv]
        · rfl
    | table e =>
        rw [Function.update_apply, refs]
        dsimp only
        by_cases he : e = d
        · rw [he, Function.update_self, if_pos rfl]
          rfl
        · rw [Function.update_of_ne he, if_neg fun h => he (Slot.table.inj h), refs]
    | hand => rw [Function.update_of_ne (fun h => by cases h), refs, refs]
    | other k => rw [Function.update_of_ne (fun h => by cases h), refs, refs]
  · rw [hpte v hv] at hp
    cases hp
  · dsimp only at he
    rw [Function.update_apply] at he
    split_ifs at he
    exact h.table e x he

def Space.dropTables (s : Space) (k : ℕ) : Space :=
  { s with pgdir := fun d => if d < k then none else s.pgdir d }

theorem dropTables_eq_blank {k : ℕ} (h : ∀ d, k ≤ d → s.pgdir d = none) :
    s.dropTables k = s.blank := by
  rw [Space.dropTables, Space.blank]
  congr 1
  funext d
  split_ifs with hlt
  · rfl
  · exact h d (not_lt.mp hlt)

/-- The first `k` page tables have been given back. -/
structure Freeing (endFrame : ℕ) (others : κ → ℕ) (hand : ℕ) (s : Space) (k : ℕ)
    (t : Space) : Prop where
  pgdir : t.pgdir = s.pgdir
  inv : Inv endFrame others (t.dropTables k) hand
  page : ∀ f, f ∉ t.freelist → t.page f = s.page f
  free : ∀ f ∈ s.freelist, f ∈ t.freelist

theorem freeTable_spec {k : ℕ} (h : Freeing endFrame others hand s k t)
    (hnone : ∀ v < userPages, s.pte (PGSIZE * v) = none) :
    Ends (fun _ => False) (t.freeTable endFrame k) (Freeing endFrame others hand s (k + 1)) := by
  have hdrop : ∀ v < userPages, (t.dropTables k).pte (PGSIZE * v) = none := by
    intro v hv
    have hold := hnone v hv
    rw [Space.pte, ← h.pgdir] at hold
    rw [Space.pte, Space.dropTables]
    dsimp only
    split_ifs
    · rfl
    · exact hold
  rw [Space.freeTable]
  cases ht : t.pgdir k with
  | none =>
      refine .ok ⟨h.pgdir, ?_, h.page, h.free⟩
      have hsame : t.dropTables (k + 1) = t.dropTables k := by
        rw [Space.dropTables, Space.dropTables]
        congr 1
        funext d
        by_cases hd : d = k
        · rw [hd, if_pos (Nat.lt_succ_self k), if_neg (lt_irrefl k), ht]
        · exact if_congr (by omega) rfl rfl
      rw [hsame]
      exact h.inv
  | some table =>
      have hget : (t.dropTables k).pgdir k = some table := (if_neg (lt_irrefl k)).trans ht
      obtain ⟨hfree, hinv⟩ := h.inv.freeTable hget hdrop
      have hrun := kfree_congr hfree t
      have hsame : (t.release table.frame).dropTables (k + 1) =
          { (t.dropTables k).release table.frame with
          pgdir := Function.update (t.dropTables k).pgdir k none } := by
        rw [Space.dropTables, Space.dropTables]
        congr 1
        funext d
        rw [Function.update_apply]
        by_cases hd : d = k
        · rw [if_pos hd, hd, if_pos (Nat.lt_succ_self k)]
        · rw [if_neg hd]
          exact if_congr (by omega) rfl rfl
      dsimp only
      rw [hrun]
      refine .ok ⟨h.pgdir, ?_, fun f hf => ?_, fun f hf => List.mem_cons_of_mem _ (h.free f hf)⟩
      · rw [hsame]
        exact hinv
      · have hne : f ≠ table.frame := by
          rintro rfl
          exact hf List.mem_cons_self
        have hold := h.page f fun hmem => hf (List.mem_cons_of_mem _ hmem)
        exact (Function.update_of_ne hne _ _).trans hold

/-- Everything a directory leads to goes back to the allocator, and the directory itself. -/
theorem freevm_spec (h : Inv endFrame (withDir f others) s 0) (hf : f ≠ 0) (hsmall : Small s) :
    ∃ t, s.freevm endFrame f = .ok t ∧ t = t.blank ∧ Inv endFrame others t 0 ∧
      ∀ g, g ∉ t.freelist → t.page g = s.page g := by
  obtain ⟨t, hrun, hinv, hd⟩ := deallocuvm_spec h (show (0 : UInt32) < KERNBASE by decide) le_rfl
  have hnone : ∀ v < userPages, t.pte (PGSIZE * v) = none := fun v hv =>
    hd.gone v hv ⟨Nat.zero_le v, Nat.mul_lt_mul_of_pos_left hv (by decide)⟩
  have hsmall' : Small t := fun d hlt => by
    have hframe := hd.tables d
    rw [hsmall d hlt] at hframe
    exact Option.map_eq_none_iff.mp hframe
  have hstart : Freeing endFrame (withDir f others) 0 t 0 t := by
    have hsame : t.dropTables 0 = t := by
      rw [Space.dropTables]
      congr 1
    exact ⟨rfl, hsame.symm ▸ hinv, fun _ _ => rfl, fun _ => id⟩
  obtain ⟨u, hloop, hpgdir, hinvu, hpage, hfreed⟩ := (Ends.foldlM_range
    (fun k u => Freeing endFrame (withDir f others) 0 t k u) NPDENTRIES hstart
    fun k u _ hu => freeTable_spec hu hnone).exists_ok
  have hblank : u.dropTables NPDENTRIES = u.blank := by
    refine dropTables_eq_blank fun d hlt => ?_
    rw [hpgdir, hsmall' d hlt]
  rw [hblank] at hinvu
  have hdir := hinvu.of_withDir
  obtain ⟨hkfree, hfinal⟩ := hdir.kfree hf
  have hrun' := kfree_congr hkfree u
  refine ⟨(u.release f).blank, ?_, rfl, hfinal, fun g hg => ?_⟩
  · rw [Space.freevm, if_neg hf, hrun, ok_bind]
    dsimp only
    rw [hloop, ok_bind, hrun', ok_bind]
    rfl
  · have hgf : g ≠ f := by
      rintro rfl
      exact hg List.mem_cons_self
    have hgu : g ∉ u.freelist := fun hmem => hg (List.mem_cons_of_mem f hmem)
    have hgt : g ∉ t.freelist := fun hmem => hgu (hfreed g hmem)
    exact (Function.update_of_ne hgf _ _).trans ((hpage g hgu).trans (hd.page g hgt))

/-- Only pages that were free have other contents. -/
def Keeps (s t : Space) : Prop := ∀ g, g ∉ s.freelist → t.page g = s.page g

/-- A directory at page `f` under construction over what others own in `s`. -/
structure Under (endFrame : ℕ) (others : κ → ℕ) (s : Space) (f hand : ℕ) (t : Space) : Prop where
  base : Inv endFrame others s.blank 0
  dir : f ≠ 0
  inv : Inv endFrame (withDir f others) t hand
  small : Small t
  keeps : Keeps s t

omit [DecidableEq κ] in
theorem Under.eq_other (h : Under endFrame others s f hand t) {g : ℕ} (hg : g ∉ s.freelist)
    (hlo : endFrame ≤ g) (hhi : g < stopFrame) : ∃ k, others k = g := by
  rcases (h.base.owns.used_iff g hhi).mp hg with hlow | ⟨k, hk⟩
  · exact absurd hlo (not_le.mpr hlow)
  · have hpos := h.base.owns.pos
    rw [refs_blank] at hk
    cases k with
    | other k => exact ⟨k, hk⟩
    | _ =>
        change 0 = g at hk
        omega

omit [DecidableEq κ] in
theorem Under.free_subset (h : Under endFrame others s f hand t) :
    ∀ g ∈ t.freelist, g ∈ s.freelist := by
  intro g hg
  by_contra hnot
  have hlt := h.inv.lt g hg
  have hlo : endFrame ≤ g := h.inv.owns.lo_le hlt (not_not.mpr hg)
  obtain ⟨k, hk⟩ := h.eq_other hnot hlo hlt
  have href : refs (withDir f others) t hand (.other (some k)) = g := hk
  exact h.inv.owns.ne_of_free hlt (not_not.mpr hg) href

omit [DecidableEq κ] in
theorem Under.user_fresh (h : Under endFrame others s f hand t) (hv : v < userPages) {q : Pte}
    (hq : t.pte (PGSIZE * v) = some q) : q.frame ∈ s.freelist := by
  by_contra hnot
  have href : refs (withDir f others) t hand (.user v) = q.frame := refs_user hv hq
  have hne : refs (withDir f others) t hand (.user v) ≠ 0 := href ▸ h.inv.user v hv q hq
  have hrange := h.inv.owns.range _ hne
  rw [href] at hrange
  obtain ⟨k, hk⟩ := h.eq_other hnot hrange.1 hrange.2
  cases h.inv.owns.unique (.user v) (.other (some k)) hne (href.trans hk.symm)

theorem Under.freevm (h : Under endFrame others s f 0 t) :
    ∃ u, t.freevm endFrame f = .ok u ∧ u = u.blank ∧ Inv endFrame others u 0 ∧
      (∀ g, g ∈ u.freelist ↔ g ∈ s.freelist) ∧ Keeps s u := by
  obtain ⟨u, hrun, hblank, hinv, hpage⟩ := freevm_spec h.inv h.dir h.small
  have hrefs : refs others u 0 = refs others s.blank 0 := by
    rw [hblank]
    rfl
  have hfree : ∀ g, g ∈ u.freelist ↔ g ∈ s.freelist := h.base.free_congr hinv hrefs
  refine ⟨u, hrun, hblank, hinv, hfree, fun g hg => ?_⟩
  rw [hpage g fun hmem => hg ((hfree g).mp hmem), h.keeps g hg]

theorem Under.take (h : Under endFrame others s f 0 t) {mem : ℕ} {rest : List ℕ}
    (hfree : t.freelist = mem :: rest) (x : Page) : Under endFrame others s f mem
      { t with freelist := rest, page := Function.update t.page mem x } := by
  have hinv := h.inv.kalloc hfree
  have hmem : mem ∈ s.freelist := by
    refine h.free_subset mem ?_
    rw [hfree]
    exact List.mem_cons_self
  refine ⟨h.base, h.dir, ⟨hinv.nodup, hinv.lt, hinv.owns, hinv.user, hinv.table⟩, h.small,
    fun g hg => ?_⟩
  exact (Function.update_of_ne (ne_of_mem_of_not_mem hmem hg).symm _ _).trans (h.keeps g hg)

theorem Under.kfree (h : Under endFrame others s f hand t) (hhand : hand ≠ 0) :
    t.kfree endFrame hand = .ok (t.release hand) ∧
    Under endFrame others s f 0 (t.release hand) := by
  obtain ⟨hrun, hinv⟩ := h.inv.kfree hhand
  refine ⟨hrun, h.base, h.dir, hinv, h.small, fun g hg => ?_⟩
  have hpage : (t.release hand).page g = t.page g := by
    refine Function.update_of_ne ?_ _ _
    rintro rfl
    have hrange := h.inv.owns.range .hand hhand
    obtain ⟨k, hk⟩ := h.eq_other hg hrange.1 hrange.2
    cases h.inv.owns.unique .hand (.other (some k)) hhand hk.symm
  exact hpage.trans (h.keeps g hg)

theorem Under.mappages (h : Under endFrame others s f hand t) (hhand : hand ≠ 0)
    (hv : v < userPages)
    (hnone : t.pte (PGSIZE * v) = none) (perm : UInt32) :
    ∃ r u, t.mappages (UInt32.ofNat (PGSIZE * v)) 4096 hand perm = .ok (r, u) ∧
      ((r = -1 ∧ Under endFrame others s f hand u ∧ Walked t u) ∨
        (r = 0 ∧ Under endFrame others s f 0 u ∧
        Mapped t v hand u ∧ u.pte (PGSIZE * v) = some ⟨hand, perm⟩)) := by
  obtain ⟨r, u, hrun, hcases⟩ := mappages_spec h.inv hhand hv hnone perm
  have hsmall : Small u := h.small.mapLoop _ hrun
  refine ⟨r, u, hrun, ?_⟩
  rcases hcases with ⟨hr, hinv, hwalked⟩ | ⟨hr, hinv, hmapped, hpte⟩
  · refine .inl ⟨hr, ⟨h.base, h.dir, hinv, hsmall, fun g hg => ?_⟩, hwalked⟩
    rw [hwalked.page, h.keeps g hg]
  · refine .inr ⟨hr, ⟨h.base, h.dir, hinv, hsmall, fun g hg => ?_⟩, hmapped, hpte⟩
    rw [hmapped.page, h.keeps g hg]

/-- There is a directory with nothing but the kernel, or there is none and nothing is lost. -/
theorem setupkvm_spec (h : Inv endFrame others s.blank 0) {data : UInt32} (hdata : Linked data) :
    ∃ r t, s.blank.setupkvm endFrame data = .ok (r, t) ∧
      ((r = none ∧ t = t.blank ∧ Inv endFrame others t 0 ∧ (∀ g, g ∈ t.freelist ↔ g ∈ s.freelist) ∧
          Keeps s t) ∨
        ∃ f, r = some f ∧ Under endFrame others s f 0 t ∧
          ∀ v < userPages, t.pte (PGSIZE * v) = none) := by
  cases hfree : s.blank.freelist with
  | nil =>
      refine ⟨none, s.blank, ?_, .inl ⟨rfl, rfl, h, fun _ => Iff.rfl, fun _ _ => rfl⟩⟩
      rw [Space.setupkvm, Space.kalloc, hfree]
  | cons f rest =>
      have hf := h.head_ne_zero hfree
      have hdir : Inv endFrame (withDir f others) ({ s with freelist := rest } : Space).blank 0 :=
        (show Inv endFrame others ({ s with freelist := rest } : Space).blank f from
          h.kalloc hfree).addDir
      obtain ⟨r, t, hrun, hr, hinv, hmapped⟩ := mapKernel_spec (kmap data) hdir le_rfl
        (kmap_ascending hdata) fun _ _ => rfl
      have hunder : Under endFrame others s f 0 t := by
        refine ⟨h, hf, hinv, hmapped.small fun _ _ => rfl, fun g _ => ?_⟩
        rw [hmapped.page]
        rfl
      have hstart : s.blank.setupkvm endFrame data = (do
          let (r, t) ← (({ s with freelist := rest } : Space).blank).mapKernel (kmap data)
          if r < 0 then do
            let t ← t.freevm endFrame f
            .ok (none, t)
          else .ok (some f, t)) := by
        rw [Space.setupkvm, Space.kalloc, hfree]
        dsimp only
        rw [if_neg (by decide)]
        rfl
      rw [hstart, hrun, ok_bind]
      dsimp only
      rcases hr with rfl | rfl
      · rw [if_neg (lt_irrefl 0)]
        refine ⟨some f, t, rfl, .inr ⟨f, rfl, hunder, fun v hv => ?_⟩⟩
        rw [hmapped.kept v (not_le.mpr hv)]
        rfl
      · obtain ⟨u, hfreevm, hblank, hinvu, hkept⟩ := hunder.freevm
        rw [if_pos (by decide), hfreevm, ok_bind]
        exact ⟨none, u, rfl, .inl ⟨rfl, hblank, hinvu, hkept⟩⟩

/-- The entries of the directory that `kmap` needs. -/
def kernelDirs : Finset ℕ := Finset.Ico 512 568 ∪ Finset.Ico 1016 1024

omit [DecidableEq κ] in
theorem kmap_dirs {data : UInt32} (h : Linked data) : ∀ k ∈ kmap data, ∃ v n, v + n < 2 ^ 20 ∧
    k.virt.toNat = PGSIZE * v ∧ (k.phys_end - k.phys_start).toNat = PGSIZE * (n + 1) ∧
    ∀ w, v ≤ w → w ≤ v + n → w / 1024 ∈ kernelDirs := by
  obtain ⟨v₁, n₁, -, hn₁, hva₁, hsize₁, v₂, n₂, hv₂, hn₂, hva₂, hsize₂, v₃, n₃, hv₃, hn₃,
      hva₃, hsize₃,
    v₄, n₄, hv₄, hn₄, hva₄, hsize₄, -⟩ := kmap_ascending h
  have hlow : 0x80000000 = 4096 * v₁ := hva₁
  have hend : (PHYSTOP - V2P data).toNat = 4096 * (n₃ + 1) := hsize₃
  have hhigh : 0xFE000000 = 4096 * v₄ := hva₄
  have hdata : data.toNat = 4096 * v₃ := hva₃
  have hbelow := UInt32.lt_iff_toNat_lt.mp h.below
  change _ < 0x8E000000 at hbelow
  rw [UInt32.toNat_sub, V2P, UInt32.toNat_sub] at hend
  change (2 ^ 32 - (2 ^ 32 - 0x80000000 + data.toNat) % 2 ^ 32 + 0xE000000) % 2 ^ 32 = _ at hend
  intro k hk
  simp only [kmap, List.mem_cons, List.not_mem_nil, or_false] at hk
  rcases hk with rfl | rfl | rfl | rfl
  · refine ⟨v₁, n₁, hn₁, hva₁, hsize₁, fun w hw hlt => ?_⟩
    simp only [kernelDirs, Finset.mem_union, Finset.mem_Ico]
    omega
  · refine ⟨v₂, n₂, hn₂, hva₂, hsize₂, fun w hw hlt => ?_⟩
    simp only [kernelDirs, Finset.mem_union, Finset.mem_Ico]
    omega
  · refine ⟨v₃, n₃, hn₃, hva₃, hsize₃, fun w hw hlt => ?_⟩
    simp only [kernelDirs, Finset.mem_union, Finset.mem_Ico]
    omega
  · refine ⟨v₄, n₄, hn₄, hva₄, hsize₄, fun w hw hlt => ?_⟩
    simp only [kernelDirs, Finset.mem_union, Finset.mem_Ico]
    omega

def kernelTables (s : Space) : ℕ := (kernelDirs.filter fun d => (s.pgdir d).isSome).card

theorem kernelTables_le (s : Space) : kernelTables s ≤ 64 := by
  have hle := Finset.card_filter_le kernelDirs fun d => (s.pgdir d).isSome
  have hcard := Finset.card_union_le (Finset.Ico 512 568) (Finset.Ico 1016 1024)
  rw [Nat.card_Ico, Nat.card_Ico] at hcard
  exact hle.trans hcard

/-- The pages that are free or have become page tables, all of them of the kernel's part. -/
structure Budget (n : ℕ) (s : Space) : Prop where
  sum : kernelTables s + s.freelist.length = n
  low : ∀ d < 512, s.pgdir d = none

section Budget

variable {va : ℕ}

theorem Budget.walkpgdir (h : Budget n s) (hdir : PDX va ∈ kernelDirs) :
    Budget n (s.walkpgdir va true).2 ∧ ((s.walkpgdir va true).1 = false → n ≤ 64) := by
  have hlo : 512 ≤ PDX va := by
    simp only [kernelDirs, Finset.mem_union, Finset.mem_Ico] at hdir
    omega
  unfold Space.walkpgdir Space.kalloc
  by_cases htable : (s.pgdir (PDX va)).isSome
  · rw [if_pos htable]
    exact ⟨h, fun hf => by cases hf⟩
  · rw [if_neg htable, if_pos rfl]
    have hsum := h.sum
    cases hfree : s.freelist with
    | nil =>
      have hle := kernelTables_le s
      refine ⟨h, fun _ => ?_⟩
      rw [hfree, List.length_nil] at hsum
      omega
    | cons f rest =>
      have hinsert : kernelDirs.filter
          (fun d => (Function.update s.pgdir (PDX va) (some ⟨f, fun _ => none⟩) d).isSome) =
          insert (PDX va) (kernelDirs.filter fun d => (s.pgdir d).isSome) := by
        ext d
        by_cases hd : d = PDX va
        · subst hd
          simp [hdir]
        · simp [hd]
      refine ⟨⟨?_, fun d hd => ?_⟩, fun hf => by cases hf⟩
      · rw [hfree, List.length_cons] at hsum
        rw [kernelTables, hinsert, Finset.card_insert_of_notMem (by simp [htable])]
        rw [kernelTables] at hsum
        dsimp only
        omega
      · exact (Function.update_of_ne (by omega) _ _).trans (h.low d hd)

theorem Budget.setPte (h : Budget n s) (p : Option Pte) : Budget n (s.setPte va p) := by
  have hsome : ∀ d, ((s.setPte va p).pgdir d).isSome = (s.pgdir d).isSome := fun d => by
    unfold Space.setPte
    by_cases hd : d = PDX va
    · subst hd
      simp
    · simp [hd]
  refine ⟨?_, fun d hd => ?_⟩
  · have htables : kernelTables (s.setPte va p) = kernelTables s := by
      simp only [kernelTables, hsome]
    rw [htables]
    exact h.sum
  · have hnone := hsome d
    rw [h.low d hd] at hnone
    exact Option.not_isSome_iff_eq_none.mp (by simpa using hnone)

theorem Budget.mapLoop {perm : UInt32} (hn : 64 < n) (m : ℕ) : ∀ {s t : Space} {a : UInt32}
    {frame v : ℕ} {r : ℤ}, Budget n s → a.toNat = PGSIZE * v → v + m < 2 ^ 20 →
    (∀ w, v ≤ w → w ≤ v + m → w / 1024 ∈ kernelDirs) →
    s.mapLoop a frame perm m = .ok (r, t) → r = 0 ∧ Budget n t := by
  have hpass : ∀ {s : Space} {a : UInt32} {v : ℕ}, Budget n s → a.toNat = PGSIZE * v →
      v / 1024 ∈ kernelDirs → ∃ t, s.walkpgdir a.toNat true = (true, t) ∧ Budget n t := by
    intro s a v h ha hv
    have hPDX : PDX a.toNat = v / 1024 := by rw [ha, PDX_page]
    obtain ⟨hbudget, hfull⟩ := h.walkpgdir (show PDX a.toNat ∈ kernelDirs from hPDX ▸ hv)
    cases hwalk : s.walkpgdir a.toNat true with
    | mk b t =>
      rw [hwalk] at hbudget hfull
      cases b with
      | true => exact ⟨t, rfl, hbudget⟩
      | false => exact absurd (hfull rfl) (not_le.mpr hn)
  induction m with
  | zero =>
    intro s t a frame v r h ha hlt hdirs hrun
    obtain ⟨u, hwalk, hu⟩ := hpass h ha (hdirs v le_rfl le_rfl)
    rw [Space.mapLoop, hwalk] at hrun
    dsimp only at hrun
    split_ifs at hrun
    cases hrun
    exact ⟨rfl, hu.setPte _⟩
  | succ m ih =>
    intro s t a frame v r h ha hlt hdirs hrun
    obtain ⟨u, hwalk, hu⟩ := hpass h ha (hdirs v le_rfl (by omega))
    rw [Space.mapLoop, hwalk] at hrun
    dsimp only at hrun
    split_ifs at hrun
    have hnext : (a + 4096).toNat = PGSIZE * (v + 1) := by
      rw [UInt32.toNat_add, ha]
      change (4096 * v + 4096) % 2 ^ 32 = 4096 * (v + 1)
      omega
    exact ih (hu.setPte _) hnext (by omega) (fun w hw hle => hdirs w (by omega) (by omega)) hrun

theorem Budget.mapKernel (hn : 64 < n) : ∀ (ks : List Kmap) {s t : Space} {r : ℤ}, Budget n s →
    (∀ k ∈ ks, ∃ v m, v + m < 2 ^ 20 ∧ k.virt.toNat = PGSIZE * v ∧
      (k.phys_end - k.phys_start).toNat = PGSIZE * (m + 1) ∧
      ∀ w, v ≤ w → w ≤ v + m → w / 1024 ∈ kernelDirs) →
    s.mapKernel ks = .ok (r, t) → r = 0 ∧ Budget n t
  | [], s, t, r, h, _, hrun => by
    cases hrun
    exact ⟨rfl, h⟩
  | k :: ks, s, t, r, h, hks, hrun => by
    obtain ⟨v, m, hm, hva, hsize, hdirs⟩ := hks k List.mem_cons_self
    rw [Space.mapKernel] at hrun
    cases hmap : s.mappages k.virt (k.phys_end - k.phys_start)
      (k.phys_start.toNat / PGSIZE) k.perm with
    | error e =>
      rw [hmap] at hrun
      cases hrun
    | ok x =>
      obtain ⟨r', u⟩ := x
      have hloop := hmap
      rw [Space.mappages, page_count hva hsize hm, PGROUNDDOWN_page hva] at hloop
      obtain ⟨rfl, hu⟩ := h.mapLoop hn m hva hm hdirs hloop
      rw [hmap, ok_bind] at hrun
      dsimp only at hrun
      rw [if_neg (lt_irrefl 0)] at hrun
      exact hu.mapKernel hn ks (fun k' hk' => hks k' (List.mem_cons_of_mem k hk')) hrun

end Budget

theorem setupkvm_some (h : Inv endFrame others s.blank 0) {data : UInt32} (hdata : Linked data)
    (hlength : 65 < s.freelist.length) :
    ∃ f t, s.blank.setupkvm endFrame data = .ok (some f, t) ∧ Under endFrame others s f 0 t ∧
      (∀ d < 512, t.pgdir d = none) ∧ s.freelist.length ≤ t.freelist.length + 65 := by
  obtain ⟨r, t, hrun, hcases⟩ := setupkvm_spec h hdata
  cases hfree : s.freelist with
  | nil => simp [hfree] at hlength
  | cons f rest =>
    rw [hfree, List.length_cons] at hlength
    have hstart : s.blank.setupkvm endFrame data = (do
        let (r, t) ← (({ s with freelist := rest } : Space).blank).mapKernel (kmap data)
        if r < 0 then do
          let t ← t.freevm endFrame f
          .ok (none, t)
        else .ok (some f, t)) := by
      rw [Space.setupkvm, Space.kalloc, Space.blank, hfree]
      rfl
    have hbudget : Budget rest.length ({ s with freelist := rest } : Space).blank :=
      ⟨by simp [kernelTables, Space.blank], fun _ _ => rfl⟩
    rw [hstart] at hrun
    cases hmap : (({ s with freelist := rest } : Space).blank).mapKernel (kmap data) with
    | error e =>
      rw [hmap] at hrun
      cases hrun
    | ok x =>
      obtain ⟨r', u⟩ := x
      obtain ⟨rfl, hu⟩ := hbudget.mapKernel (by omega) _ (kmap_dirs hdata) hmap
      rw [hmap, ok_bind] at hrun
      dsimp only at hrun
      rw [if_neg (lt_irrefl 0)] at hrun
      cases hrun
      rcases hcases with ⟨hnone, -⟩ | ⟨g, hg, hunder, -⟩
      · cases hnone
      · cases hg
        have hle := kernelTables_le t
        have hsum := hu.sum
        refine ⟨f, t, ?_, hunder, hu.low, ?_⟩
        · rw [hstart, hmap]
          rfl
        · rw [List.length_cons]
          omega

def roomy : Space := { onePage with freelist := List.range' 4 200 }

/-- The pages behind the free ones belong to something else. -/
def beyond (k : ℕ) : ℕ := if 204 ≤ k ∧ k < stopFrame then k else 0

theorem roomy_refs (k : Slot (Option ℕ)) : refs (withDir 3 beyond) roomy 0 k =
    match k with
    | .user v => if v = 0 then 1 else 0
    | .table d => if d = 0 then 2 else 0
    | .hand => 0
    | .other none => 3
    | .other (some k) => beyond k := by
  rcases k with v | d | _ | (_ | k)
  · exact onePage_refs (.user v)
  · exact onePage_refs (.table d)
  · rfl
  · rfl
  · rfl

def roomyOwner (f : ℕ) : Slot (Option ℕ) :=
  if f = 1 then .user 0 else if f = 2 then .table 0 else if f = 3 then .other none
    else .other (some f)

theorem roomy_owner (k : Slot (Option ℕ)) (hk : refs (withDir 3 beyond) roomy 0 k ≠ 0) :
    1 ≤ refs (withDir 3 beyond) roomy 0 k ∧ refs (withDir 3 beyond) roomy 0 k < stopFrame ∧
      k = roomyOwner (refs (withDir 3 beyond) roomy 0 k) ∧
      ¬ (4 ≤ refs (withDir 3 beyond) roomy 0 k ∧ refs (withDir 3 beyond) roomy 0 k < 204) := by
  rw [roomy_refs] at hk ⊢
  rcases k with v | d | _ | (_ | k)
  · dsimp only at hk ⊢
    split_ifs at hk ⊢ with hv
    · rw [hv]
      exact ⟨le_rfl, by decide, rfl, by decide⟩
    · exact absurd rfl hk
  · dsimp only at hk ⊢
    split_ifs at hk ⊢ with hd
    · rw [hd]
      exact ⟨by decide, by decide, rfl, by decide⟩
    · exact absurd rfl hk
  · exact absurd rfl hk
  · exact ⟨by decide, by decide, rfl, by decide⟩
  · dsimp only [beyond] at hk ⊢
    split_ifs at hk ⊢ with hlt
    · rw [roomyOwner, if_neg (by omega), if_neg (by omega), if_neg (by omega)]
      exact ⟨by omega, hlt.2, rfl, by omega⟩
    · exact absurd rfl hk

theorem roomy_inv : Inv 1 (withDir 3 beyond) roomy 0 := by
  have hmem : ∀ f, f ∈ roomy.freelist ↔ 4 ≤ f ∧ f < 204 := fun f => List.mem_range'_1
  refine ⟨List.nodup_range', fun f hf => ?_,
    ⟨Nat.one_pos, fun b hb => ⟨fun hused => ?_, ?_⟩, fun k hk =>
    ⟨(roomy_owner k hk).1, (roomy_owner k hk).2.1⟩, fun k l hk hkl => ?_⟩, onePage_sound.inv.user,
    onePage_sound.inv.table⟩
  · have hlt := ((hmem f).mp hf).2
    exact hlt.trans (by decide)
  · rw [hmem] at hused
    rcases (by omega : b = 0 ∨ b = 1 ∨ b = 2 ∨ b = 3 ∨ 204 ≤ b) with rfl | rfl | rfl | rfl | hb'
    · exact .inl Nat.one_pos
    · exact .inr ⟨.user 0, roomy_refs _⟩
    · exact .inr ⟨.table 0, roomy_refs _⟩
    · exact .inr ⟨.other none, rfl⟩
    · exact .inr ⟨.other (some b), if_pos ⟨hb', hb⟩⟩
  · rintro (hb0 | ⟨k, hk⟩) hfree
    · have hlo := ((hmem b).mp hfree).1
      omega
    · have hne : refs (withDir 3 beyond) roomy 0 k ≠ 0 := by
        have hlo := ((hmem b).mp hfree).1
        omega
      exact (roomy_owner k hne).2.2.2 (hk ▸ (hmem b).mp hfree)
  · rw [(roomy_owner k hk).2.2.1, hkl, ← (roomy_owner l (hkl ▸ hk)).2.2.1]

end VirtualMemory

end Xv6Fairness
