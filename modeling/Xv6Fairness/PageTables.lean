import Mathlib.Tactic.Common
import Mathlib.Tactic.NormNum.Pow
import Xv6Fairness.Outcomes
import Xv6Fairness.Ownership
import Xv6Fairness.Parameters

/-!
# Page tables and the page allocator

A page directory has entries for page tables and a page table has entries for pages. The tables lie
in pages of the same allocator that hands out the pages of a process. An address space is one
directory, the allocator and the contents of all pages.
-/

namespace Xv6Fairness

open Outcomes Ownership

namespace VirtualMemory

def PGSIZE : ℕ := 4096

def NPTENTRIES : ℕ := 1024

/-- `PHYSTOP / PGSIZE`. -/
def stopFrame : ℕ := 0xE000

/-- The pages below `KERNBASE`. -/
def userPages : ℕ := 0x80000

/-- `PTE_W | PTE_U`. -/
def userPerm : UInt32 := 6

def PDX (va : ℕ) : ℕ := va / 2 ^ 22

def PTX (va : ℕ) : ℕ := va / 2 ^ 12 % 2 ^ 10

/-- `a += PGSIZE`. -/
def nextPage (a : ℕ) : ℕ := a + PGSIZE

theorem lt_nextPage (a : ℕ) : a < nextPage a := Nat.lt_add_of_pos_right (by decide)

/-- `PGADDR(d, 0, 0)`. -/
def PGADDR (d : ℕ) : ℕ := d * 2 ^ 22

theorem lt_PGADDR (a : ℕ) : a < PGADDR (PDX a + 1) := by
  rw [PGADDR, PDX]
  omega

def PGROUNDUP (sz : UInt32) : UInt32 := (sz + 4095) / 4096 * 4096

def PGROUNDDOWN (a : UInt32) : UInt32 := a / 4096 * 4096

abbrev Page := ℕ → UInt8

/-- A present entry: the number of the physical page and the permissions. -/
structure Pte where
  frame : ℕ
  perm : UInt32
deriving DecidableEq

/-- The page that the table lies in, and its entries. -/
structure PageTable where
  frame : ℕ
  pte : ℕ → Option Pte

def PageTable.set (t : PageTable) (k : ℕ) (p : Option Pte) : PageTable :=
  { t with pte := Function.update t.pte k p }

theorem PageTable.set_pte (t : PageTable) (k : ℕ) (p : Option Pte) (j : ℕ) :
    (t.set k p).pte j = if j = k then p else t.pte j :=
  Function.update_apply _ _ _ _

structure Space where
  sz : UInt32
  pgdir : ℕ → Option PageTable
  freelist : List ℕ
  page : ℕ → Page

inductive Panic
  | kfree
  | remap
  | tooHigh
  | shouldExist
  | notPresent
  | notAligned
  | clearpteu
  | noPgdir
  | noKstack
  | trap
  | filedup

variable (endFrame : ℕ)

namespace Space

variable (s : Space)

def kalloc : Option ℕ × Space :=
  match s.freelist with
  | [] => (none, s)
  | f :: rest => (some f, { s with freelist := rest })

def memset (f : ℕ) (c : UInt8) : Space := { s with page := Function.update s.page f fun _ => c }

def release (f : ℕ) : Space := { s.memset f 1 with freelist := f :: s.freelist }

def kfree (f : ℕ) : Except Panic Space :=
  if f < endFrame ∨ stopFrame ≤ f then .error .kfree else .ok (s.release f)

/-- Whether there is a page table for the address, after making one if that is asked for. -/
def walkpgdir (va : ℕ) (alloc : Bool) : Bool × Space :=
  if (s.pgdir (PDX va)).isSome then (true, s)
  else if alloc then
    match s.kalloc with
    | (none, s) => (false, s)
    | (some f, s) =>
      (true, { s with pgdir := Function.update s.pgdir (PDX va) (some ⟨f, fun _ => none⟩) })
  else (false, s)

def pte (va : ℕ) : Option Pte := (s.pgdir (PDX va)).bind fun t => t.pte (PTX va)

def setPte (va : ℕ) (p : Option Pte) : Space :=
  let table := (s.pgdir (PDX va)).map fun t => t.set (PTX va) p
  { s with pgdir := Function.update s.pgdir (PDX va) table }

/-- The loop of `mappages` with `n` pages to go after this one. -/
def mapLoop (s : Space) (a : UInt32) (frame : ℕ) (perm : UInt32) : ℕ → Except Panic (ℤ × Space)
  | 0 => match s.walkpgdir a.toNat true with
    | (false, s) => .ok (-1, s)
    | (true, s) => if (s.pte a.toNat).isSome then .error .remap
      else .ok (0, s.setPte a.toNat (some ⟨frame, perm⟩))
  | n + 1 => match s.walkpgdir a.toNat true with
    | (false, s) => .ok (-1, s)
    | (true, s) => if (s.pte a.toNat).isSome then .error .remap
      else mapLoop (s.setPte a.toNat (some ⟨frame, perm⟩)) (a + 4096) (frame + 1) perm n

def mappages (va size : UInt32) (frame : ℕ) (perm : UInt32) : Except Panic (ℤ × Space) :=
  let a := PGROUNDDOWN va
  let last := PGROUNDDOWN (va + size - 1)
  s.mapLoop a frame perm ((last - a).toNat / PGSIZE)

/-- One pass of the loop of `deallocuvm`: the address that comes next, and what is left. -/
def deallocStep (s : Space) (a : ℕ) : Except Panic (ℕ × Space) :=
  if (s.walkpgdir a false).1 then
    match s.pte a with
    | none => .ok (nextPage a, s)
    | some p => if p.frame = 0 then .error .kfree
      else do
        let s ← s.kfree endFrame p.frame
        .ok (nextPage a, s.setPte a none)
  else .ok (PGADDR (PDX a + 1), s)

theorem lt_of_deallocStep {s : Space} {a : ℕ} {r : ℕ × Space}
    (h : s.deallocStep endFrame a = .ok r) : a < r.1 := by
  rw [deallocStep] at h
  split_ifs at h
  · cases hpte : s.pte a with
    | none =>
        rw [hpte] at h
        cases h
        exact lt_nextPage a
    | some p =>
        rw [hpte] at h
        dsimp only at h
        split_ifs at h
        cases hfree : s.kfree endFrame p.frame with
        | error e =>
            rw [hfree] at h
            cases h
        | ok t =>
            rw [hfree] at h
            cases h
            exact lt_nextPage a
  · cases h
    exact lt_PGADDR a

/-- Addresses below `oldsz ≤ KERNBASE` do not wrap. -/
def deallocLoop (s : Space) (oldsz a : ℕ) : Except Panic Space :=
  if a < oldsz then
    match _h : s.deallocStep endFrame a with
    | .error e => .error e
    | .ok r => deallocLoop r.2 oldsz r.1
  else .ok s
termination_by oldsz - a
decreasing_by
  have hlt := lt_of_deallocStep endFrame _h
  omega

def deallocuvm (oldsz newsz : UInt32) : Except Panic (UInt32 × Space) :=
  if oldsz ≤ newsz then .ok (oldsz, s)
  else do
    let s ← s.deallocLoop endFrame oldsz.toNat (PGROUNDUP newsz).toNat
    .ok (newsz, s)

/-- One pass of the loop of `allocuvm`: whether the page at `a` is mapped now. -/
def allocStep (s : Space) (oldsz newsz : UInt32) (a : ℕ) : Except Panic (Bool × Space) :=
  match s.kalloc with
  | (none, s) => do
    let (_, s) ← s.deallocuvm endFrame newsz oldsz
    .ok (false, s)
  | (some mem, s) => do
    let (r, s) ← (s.memset mem 0).mappages (UInt32.ofNat a) 4096 mem userPerm
    if r < 0 then do
      let (_, s) ← s.deallocuvm endFrame newsz oldsz
      let s ← s.kfree endFrame mem
      .ok (false, s)
    else .ok (true, s)

def allocLoop (s : Space) (oldsz newsz : UInt32) (a : ℕ) : Except Panic (UInt32 × Space) :=
  if a < newsz.toNat then do
    let (mapped, s) ← s.allocStep endFrame oldsz newsz a
    if mapped then allocLoop s oldsz newsz (nextPage a) else .ok (0, s)
  else .ok (newsz, s)
termination_by newsz.toNat - a
decreasing_by
  have hlt := lt_nextPage a
  omega

def allocuvm (oldsz newsz : UInt32) : Except Panic (UInt32 × Space) :=
  if KERNBASE ≤ newsz then .ok (0, s)
  else if newsz < oldsz then .ok (oldsz, s)
  else s.allocLoop endFrame oldsz newsz (PGROUNDUP oldsz).toNat

def growproc (n : Int32) : Except Panic (ℤ × Space) := do
  if 0 < n then
    let (sz, s) ← s.allocuvm endFrame s.sz (s.sz + n.toUInt32)
    if sz = 0 then .ok (-1, s) else .ok (0, { s with sz := sz })
  else if n < 0 then
    let (sz, s) ← s.deallocuvm endFrame s.sz (s.sz + n.toUInt32)
    if sz = 0 then .ok (-1, s) else .ok (0, { s with sz := sz })
  else .ok (0, s)

end Space

/-- What a page may be in use for: a user page, a page table, or something outside the address
space. `hand` is for a page on its way. -/
inductive Slot (κ : Type*)
  | user (v : ℕ)
  | table (d : ℕ)
  | hand
  | other (k : κ)
deriving DecidableEq

section Slots

variable {κ : Type*} [DecidableEq κ] (others : κ → ℕ)

def refs (s : Space) (hand : ℕ) : Slot κ → ℕ
  | .user v => if v < userPages then ((s.pte (PGSIZE * v)).map Pte.frame).getD 0 else 0
  | .table d => ((s.pgdir d).map PageTable.frame).getD 0
  | .hand => hand
  | .other k => others k

/-- Every page is free, or in use for one thing. -/
structure Inv (s : Space) (hand : ℕ) : Prop where
  nodup : s.freelist.Nodup
  lt : ∀ f ∈ s.freelist, f < stopFrame
  owns : Owns endFrame stopFrame (fun f => f ∉ s.freelist) (refs others s hand)
  user : ∀ v < userPages, ∀ p, s.pte (PGSIZE * v) = some p → p.frame ≠ 0
  table : ∀ d t, s.pgdir d = some t → t.frame ≠ 0

end Slots

section Entries

variable {s : Space} {v w : ℕ} {p : Option Pte}

theorem PDX_page : PDX (PGSIZE * v) = v / 1024 := by
  change 4096 * v / 4194304 = _
  omega

theorem PTX_page : PTX (PGSIZE * v) = v % 1024 := by
  change 4096 * v / 4096 % 1024 = _
  omega

theorem page_eq_iff : PDX (PGSIZE * v) = PDX (PGSIZE * w) ∧ PTX (PGSIZE * v) = PTX (PGSIZE * w) ↔
    v = w := by
  rw [PDX_page, PDX_page, PTX_page, PTX_page]
  omega

theorem PDX_congr {x y : ℕ} (h : x / 4096 = y / 4096) : PDX x = PDX y := by
  rw [PDX, PDX]
  omega

theorem pte_congr {x y : ℕ} (h : x / 4096 = y / 4096) : s.pte x = s.pte y := by
  have hPTX : PTX x = PTX y := by
    rw [PTX, PTX]
    omega
  rw [Space.pte, Space.pte, PDX_congr h, hPTX]

theorem pte_setPte (ht : (s.pgdir (PDX (PGSIZE * v))).isSome) :
    (s.setPte (PGSIZE * v) p).pte (PGSIZE * w) = if w = v then p else s.pte (PGSIZE * w) := by
  obtain ⟨t, ht⟩ := Option.isSome_iff_exists.mp ht
  have hiff := page_eq_iff (v := w) (w := v)
  rw [Space.pte, Space.pte, Space.setPte, ht]
  dsimp only
  by_cases hd : PDX (PGSIZE * w) = PDX (PGSIZE * v)
  · rw [hd, Function.update_self, ht, Option.map_some, Option.bind_some, Option.bind_some]
    by_cases hk : PTX (PGSIZE * w) = PTX (PGSIZE * v)
    · rw [if_pos (hiff.mp ⟨hd, hk⟩), PageTable.set_pte, if_pos hk]
    · rw [if_neg fun heq => hk (hiff.mpr heq).2, PageTable.set_pte, if_neg hk]
  · rw [Function.update_of_ne hd, if_neg fun heq => hd (hiff.mpr heq).1]

theorem frame_setPte (d : ℕ) :
    ((s.setPte (PGSIZE * v) p).pgdir d).map PageTable.frame = (s.pgdir d).map PageTable.frame := by
  rw [Space.setPte]
  dsimp only
  by_cases hd : d = PDX (PGSIZE * v)
  · rw [hd, Function.update_self, Option.map_map]
    rfl
  · rw [Function.update_of_ne hd]

theorem isSome_of_pte {q : Pte} (h : s.pte (PGSIZE * v) = some q) :
    (s.pgdir (PDX (PGSIZE * v))).isSome := by
  rw [Space.pte] at h
  obtain ⟨t, ht, -⟩ := Option.bind_eq_some_iff.mp h
  rw [ht]
  rfl

end Entries

section Steps

variable {endFrame} {κ : Type*} [DecidableEq κ] {others : κ → ℕ} {s : Space} {hand v w f : ℕ}
  {rest : List ℕ}

omit [DecidableEq κ] in
theorem refs_user {p : Pte} (hv : v < userPages) (hp : s.pte (PGSIZE * v) = some p) :
    refs others s hand (.user v) = p.frame := by
  rw [refs, if_pos hv, hp]
  rfl

theorem refs_setPte {p : Option Pte} (hv : v < userPages)
    (ht : (s.pgdir (PDX (PGSIZE * v))).isSome) :
    refs others (s.setPte (PGSIZE * v) p) hand =
      Function.update (refs others s hand) (.user v) ((p.map Pte.frame).getD 0) := by
  funext k
  cases k with
  | user w =>
      rw [refs, pte_setPte ht, Function.update_apply]
      by_cases hwv : w = v
      · rw [if_pos hwv, hwv, if_pos hv, if_pos rfl]
      · rw [if_neg hwv, if_neg fun h => hwv (Slot.user.inj h), refs]
  | table d => rw [refs, frame_setPte, Function.update_of_ne (fun h => by cases h), refs]
  | hand => rw [refs, Function.update_of_ne (fun h => by cases h), refs]
  | other k => rw [refs, Function.update_of_ne (fun h => by cases h), refs]

theorem refs_hand (g : ℕ) : refs others s g = Function.update (refs others s hand) .hand g := by
  funext k
  cases k with
  | user w => rw [Function.update_of_ne (fun h => by cases h), refs, refs]
  | table d => rw [Function.update_of_ne (fun h => by cases h), refs, refs]
  | hand => rw [Function.update_self, refs]
  | other k => rw [Function.update_of_ne (fun h => by cases h), refs, refs]

structure Head (s : Space) (f : ℕ) (rest : List ℕ) : Prop where
  lt : f < stopFrame
  mem : ¬ f ∉ s.freelist
  nodup : rest.Nodup
  used : ∀ c < stopFrame, c ∉ rest ↔ c = f ∨ c ∉ s.freelist
  lt_rest : ∀ c ∈ rest, c < stopFrame

omit [DecidableEq κ] in
theorem Inv.head (h : Inv endFrame others s hand) (hfree : s.freelist = f :: rest) :
    Head s f rest := by
  have hnodup : (f :: rest).Nodup := hfree ▸ h.nodup
  have hf := (List.nodup_cons.mp hnodup).1
  refine ⟨h.lt f ?_, not_not.mpr ?_, (List.nodup_cons.mp hnodup).2, fun c _ => ?_,
    fun c hc => h.lt c ?_⟩
  · rw [hfree]
    exact List.mem_cons_self
  · rw [hfree]
    exact List.mem_cons_self
  · rw [hfree, List.mem_cons, not_or]
    constructor
    · intro hc
      by_cases heq : c = f
      · exact .inl heq
      · exact .inr ⟨heq, hc⟩
    · rintro (rfl | ⟨-, hc⟩)
      · exact hf
      · exact hc
  · rw [hfree]
    exact List.mem_cons_of_mem f hc

omit [DecidableEq κ] in
theorem Inv.head_ne_zero (h : Inv endFrame others s hand) (hfree : s.freelist = f :: rest) :
    f ≠ 0 := by
  have hhead := h.head hfree
  have hle := h.owns.lo_le hhead.lt hhead.mem
  have hpos := h.owns.pos
  omega

theorem Inv.kalloc (h : Inv endFrame others s 0) (hfree : s.freelist = f :: rest) :
    Inv endFrame others { s with freelist := rest } f := by
  have hhead := h.head hfree
  have howns := h.owns.acquire (k := .hand) rfl hhead.lt hhead.mem hhead.used
  rw [← refs_hand] at howns
  exact ⟨hhead.nodup, hhead.lt_rest, howns, h.user, h.table⟩

theorem Inv.kfree (h : Inv endFrame others s f) (hf : f ≠ 0) :
    s.kfree endFrame f = .ok (s.release f) ∧ Inv endFrame others (s.release f) 0 := by
  have hhand : refs others s f .hand ≠ 0 := hf
  have hrange : endFrame ≤ f ∧ f < stopFrame := h.owns.range .hand hf
  have hused : f ∉ s.freelist := h.owns.used_refs hhand
  have howns : Owns endFrame stopFrame (fun c => c ∉ f :: s.freelist) _ :=
    h.owns.release hhand fun c _ => by
      rw [List.mem_cons, not_or]
      rfl
  rw [← refs_hand] at howns
  refine ⟨?_,
    List.nodup_cons.mpr ⟨hused, h.nodup⟩, fun c hc => ?_, howns, h.user, h.table⟩
  · have hnot : ¬ (f < endFrame ∨ stopFrame ≤ f) :=
      not_or.mpr ⟨not_lt.mpr hrange.1, not_le.mpr hrange.2⟩
    exact if_neg hnot
  · rcases List.mem_cons.mp hc with rfl | hc
    · exact hrange.2
    · exact h.lt c hc

theorem Inv.walk (h : Inv endFrame others s hand) (hfree : s.freelist = f :: rest) {d : ℕ}
    (hd : s.pgdir d = none) :
    Inv endFrame others { s with
      freelist := rest, pgdir := Function.update s.pgdir d (some ⟨f, fun _ => none⟩) } hand := by
  have hhead := h.head hfree
  have hpte : ∀ v, (Space.pte { s with
      freelist := rest, pgdir := Function.update s.pgdir d (some ⟨f, fun _ => none⟩) }
        (PGSIZE * v)) =
      s.pte (PGSIZE * v) := by
    intro v
    rw [Space.pte, Space.pte]
    dsimp only
    by_cases hv : PDX (PGSIZE * v) = d
    · rw [hv, Function.update_self, hd]
      rfl
    · rw [Function.update_of_ne hv]
  have hzero : refs others s hand (.table d) = 0 := by
    rw [refs, hd]
    rfl
  refine ⟨hhead.nodup, hhead.lt_rest, ?_, fun v hv p hp => ?_, fun e t ht => ?_⟩
  · refine (h.owns.acquire hzero hhead.lt hhead.mem hhead.used).congr
      (fun _ _ => Iff.rfl) fun k => ?_
    cases k with
    | user w => rw [refs, hpte, Function.update_of_ne (fun h => by cases h), refs]
    | table e =>
        rw [refs, Function.update_apply]
        dsimp only
        by_cases he : e = d
        · rw [he, Function.update_self, if_pos rfl]
          rfl
        · rw [Function.update_of_ne he, if_neg fun h => he (Slot.table.inj h), refs]
    | hand => rw [refs, Function.update_of_ne (fun h => by cases h), refs]
    | other k => rw [refs, Function.update_of_ne (fun h => by cases h), refs]
  · rw [hpte] at hp
    exact h.user v hv p hp
  · dsimp only at ht
    by_cases he : e = d
    · rw [he, Function.update_self] at ht
      cases ht
      exact h.head_ne_zero hfree
    · rw [Function.update_of_ne he] at ht
      exact h.table e t ht

omit [DecidableEq κ] in
theorem table_setPte {p : Option Pte} (htable : ∀ d t, s.pgdir d = some t → t.frame ≠ 0) (d : ℕ)
    (t : PageTable) (ht : (s.setPte (PGSIZE * v) p).pgdir d = some t) : t.frame ≠ 0 := by
  have hframe := frame_setPte (s := s) (v := v) (p := p) d
  rw [ht, Option.map_some] at hframe
  obtain ⟨t', ht', heq⟩ := Option.map_eq_some_iff.mp hframe.symm
  rw [← heq]
  exact htable d t' ht'

theorem Inv.map (h : Inv endFrame others s f) (hf : f ≠ 0) (hv : v < userPages)
    (ht : (s.pgdir (PDX (PGSIZE * v))).isSome) (hnone : s.pte (PGSIZE * v) = none) (perm : UInt32) :
    Inv endFrame others (s.setPte (PGSIZE * v) (some ⟨f, perm⟩)) 0 := by
  have hzero : refs others s f (.user v) = 0 := by
    rw [refs, if_pos hv, hnone]
    rfl
  have hhand : refs others s f .hand ≠ 0 := hf
  have howns := h.owns.move hhand hzero
  rw [← refs_hand] at howns
  refine ⟨h.nodup, h.lt, ?_, fun w hw q hq => ?_, table_setPte h.table⟩
  · rw [refs_setPte hv ht]
    exact howns
  · rw [pte_setPte ht] at hq
    split_ifs at hq
    · cases hq
      exact hf
    · exact h.user w hw q hq

theorem Inv.unmap (h : Inv endFrame others s hand) {p : Pte} (hv : v < userPages)
    (hp : s.pte (PGSIZE * v) = some p) :
    s.kfree endFrame p.frame = .ok (s.release p.frame) ∧
      Inv endFrame others ((s.release p.frame).setPte (PGSIZE * v) none) hand := by
  have hframe : refs others s hand (.user v) = p.frame := refs_user hv hp
  have hne : refs others s hand (.user v) ≠ 0 := hframe ▸ h.user v hv p hp
  have hrange := h.owns.range _ hne
  have hused : refs others s hand (.user v) ∉ s.freelist := h.owns.used_refs hne
  have howns : Owns endFrame stopFrame (fun c => c ∉ p.frame :: s.freelist) _ :=
    h.owns.release hne fun c _ => by rw [hframe, List.mem_cons, not_or]
  rw [hframe] at hrange hused
  have ht : ((s.release p.frame).pgdir (PDX (PGSIZE * v))).isSome := isSome_of_pte hp
  refine ⟨if_neg (not_or.mpr ⟨not_lt.mpr hrange.1, not_le.mpr hrange.2⟩),
    List.nodup_cons.mpr ⟨hused, h.nodup⟩, fun c hc => ?_, ?_, fun w hw q hq => ?_,
      table_setPte h.table⟩
  · rcases List.mem_cons.mp hc with rfl | hc
    · exact hrange.2
    · exact h.lt c hc
  · rw [refs_setPte hv ht]
    exact howns
  · rw [pte_setPte ht] at hq
    split_ifs at hq
    exact h.user w hw q hq

end Steps

end VirtualMemory

end Xv6Fairness
