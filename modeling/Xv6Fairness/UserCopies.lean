import Xv6Fairness.CellCopies
import Xv6Fairness.PageTables

/-!
# Copying to user pages

`copyout` copies bytes page by page to addresses of a page directory. It stops at the first page
that user code has no access to. The entry of a page is read without asking whether there is a page
table for it.
-/

namespace Xv6Fairness

open CellCopies

namespace VirtualMemory

def PTE_U : UInt32 := 4

/-- What is left of the page, or all there is. -/
def chunk (va len : UInt32) : UInt32 :=
  let n := 4096 - (va - PGROUNDDOWN va)
  if n > len then len else n

section Offsets

variable {va len : UInt32}

theorem toNat_PGROUNDDOWN : (PGROUNDDOWN va).toNat = va.toNat - va.toNat % 4096 := by
  have hlt : va.toNat < 2 ^ 32 := va.toNat_lt
  rw [PGROUNDDOWN, UInt32.toNat_mul, UInt32.toNat_div]
  change va.toNat / 4096 * 4096 % 2 ^ 32 = _
  omega

theorem toNat_offset (va : UInt32) : (va - PGROUNDDOWN va).toNat = va.toNat % 4096 := by
  have hle : PGROUNDDOWN va ≤ va := by
    rw [UInt32.le_iff_toNat_le, toNat_PGROUNDDOWN]
    exact Nat.sub_le _ _
  have hmod := Nat.mod_le va.toNat 4096
  rw [UInt32.toNat_sub_of_le _ _ hle, toNat_PGROUNDDOWN]
  omega

theorem toNat_chunk (va len : UInt32) :
    (chunk va len).toNat = min (4096 - va.toNat % 4096) len.toNat := by
  have hmod : va.toNat % 4096 < 4096 := Nat.mod_lt _ (by decide)
  have hoff := toNat_offset va
  have hle : va - PGROUNDDOWN va ≤ 4096 := by
    rw [UInt32.le_iff_toNat_le, hoff]
    exact hmod.le
  have hleft : (4096 - (va - PGROUNDDOWN va)).toNat = 4096 - va.toNat % 4096 := by
    rw [UInt32.toNat_sub_of_le _ _ hle, hoff]
    rfl
  rw [chunk]
  by_cases hmore : 4096 - (va - PGROUNDDOWN va) > len
  · rw [gt_iff_lt, UInt32.lt_iff_toNat_lt] at hmore
    rw [if_pos (UInt32.lt_iff_toNat_lt.mpr hmore)]
    omega
  · rw [if_neg hmore]
    rw [gt_iff_lt, UInt32.lt_iff_toNat_lt] at hmore
    omega

theorem sub_chunk_lt (h : 0 < len) : (len - chunk va len).toNat < len.toNat := by
  have hpos : 0 < len.toNat := UInt32.lt_iff_toNat_lt.mp h
  have hmod : va.toNat % 4096 < 4096 := Nat.mod_lt _ (by decide)
  have hchunk := toNat_chunk va len
  have hle : chunk va len ≤ len := UInt32.le_iff_toNat_le.mpr (by omega)
  rw [UInt32.toNat_sub_of_le _ _ hle]
  omega

end Offsets

namespace Space

variable (s : Space)

/-- `none` is a use of the null pointer that `walkpgdir` returns where there is no page table. -/
def uva2ka (uva : UInt32) : Option (Option ℕ) :=
  if (s.walkpgdir uva.toNat false).1 then
    match s.pte uva.toNat with
    | none => some none
    | some p => if p.perm &&& PTE_U = 0 then some none else some (some p.frame)
  else none

/-- `memmove` of `n` bytes to an offset of a page. -/
def memmove (f off : ℕ) (buf : ℕ → UInt8) (n : ℕ) : Space :=
  { s with page := Function.update s.page f fun i =>
      if off ≤ i ∧ i < off + n then buf (i - off) else s.page f i }

/-- The bytes that `buf` points to are known by their offsets. -/
def copyout (s : Space) (va : UInt32) (buf : ℕ → UInt8) (len : UInt32) : Option (ℤ × Space) :=
  if 0 < len then
    let va0 := PGROUNDDOWN va
    match s.uva2ka va0 with
    | none => none
    | some none => some (-1, s)
    | some (some pa0) =>
      let n := chunk va len
      copyout (s.memmove pa0 (va - va0).toNat buf n.toNat) (va0 + 4096) (fun i => buf (n.toNat + i))
        (len - n)
  else some (0, s)
termination_by len.toNat
decreasing_by exact sub_chunk_lt ‹0 < len›

def Accessible (a : UInt32) : Prop := ∃ p, s.pte a.toNat = some p ∧ p.perm &&& PTE_U ≠ 0

def HasTable (a : UInt32) : Prop := (s.pgdir (PDX a.toNat)).isSome

def storeByte (a : UInt32) (c : UInt8) : Space :=
  match s.pte a.toNat with
  | none => s
  | some p =>
    let contents := Function.update (s.page p.frame) (a.toNat % PGSIZE) c
    { s with page := Function.update s.page p.frame contents }

/-- The first `k` bytes are stored one after the other. -/
def stored (s : Space) (va : UInt32) (buf : ℕ → UInt8) (k : ℕ) : Space :=
  (List.range k).foldl (fun s i => s.storeByte (va + UInt32.ofNat i) (buf i)) s

end Space

section Bytes

variable {s : Space} {va a b : UInt32} {buf : ℕ → UInt8} {c : UInt8} {k n : ℕ}

instance : Decidable (s.HasTable a) :=
  inferInstanceAs (Decidable ((_ : Option PageTable).isSome = true))

theorem accessible_congr (h : a.toNat / 4096 = b.toNat / 4096) : s.Accessible a ↔
    s.Accessible b := by
  rw [Space.Accessible, Space.Accessible, pte_congr h]

theorem hasTable_congr (h : a.toNat / 4096 = b.toNat / 4096) : s.HasTable a ↔ s.HasTable b := by
  rw [Space.HasTable, Space.HasTable, PDX_congr h]

theorem Space.Accessible.hasTable (h : s.Accessible a) : s.HasTable a := by
  obtain ⟨p, hp, -⟩ := h
  obtain ⟨t, ht, -⟩ := Option.bind_eq_some_iff.mp hp
  exact Option.isSome_iff_exists.mpr ⟨t, ht⟩

theorem storeByte_eq : ∃ page, s.storeByte a c = { s with page := page } := by
  rw [Space.storeByte]
  split
  · exact ⟨s.page, rfl⟩
  · exact ⟨_, rfl⟩

theorem stored_zero : s.stored va buf 0 = s := rfl

theorem stored_succ : s.stored va buf (k + 1) =
    (s.stored va buf k).storeByte (va + UInt32.ofNat k) (buf k) := by
  rw [Space.stored, List.range_succ, List.foldl_append]
  rfl

theorem stored_eq : ∃ page, s.stored va buf k = { s with page := page } := by
  induction k with
  | zero => exact ⟨s.page, rfl⟩
  | succ k ih =>
      obtain ⟨page, hpage⟩ := ih
      obtain ⟨page', hpage'⟩ := storeByte_eq (s := s.stored va buf k) (a := va + UInt32.ofNat k)
        (c := buf k)
      rw [stored_succ, hpage', hpage]
      exact ⟨page', rfl⟩

theorem pgdir_stored : (s.stored va buf k).pgdir = s.pgdir := by
  obtain ⟨page, hpage⟩ := @stored_eq s va buf k
  rw [hpage]

theorem pte_stored {x : ℕ} : (s.stored va buf k).pte x = s.pte x := by
  rw [Space.pte, Space.pte, pgdir_stored]

theorem stored_add : s.stored va buf (n + k) =
    (s.stored va buf n).stored (va + UInt32.ofNat n) (fun i => buf (n + i)) k := by
  induction k with
  | zero => rfl
  | succ k ih => rw [← Nat.add_assoc, stored_succ, ih, stored_succ, add_ofNat_add]

theorem toNat_add_in_page (h : va.toNat % 4096 + n < 4096) :
    (va + UInt32.ofNat n).toNat = va.toNat + n := by
  have hlt : va.toNat < 2 ^ 32 := va.toNat_lt
  exact toNat_add_ofNat (by omega)

theorem page_add_ofNat (h : va.toNat % 4096 + n < 4096) :
    (va + UInt32.ofNat n).toNat / 4096 = va.toNat / 4096 := by
  rw [toNat_add_in_page h]
  omega

theorem memmove_eq_stored {p : Pte} (hp : s.pte va.toNat = some p)
    (hn : va.toNat % 4096 + n ≤ 4096) :
    s.memmove p.frame (va.toNat % 4096) buf n = s.stored va buf n := by
  induction n with
  | zero =>
      have hpage : Function.update s.page p.frame (fun i =>
          if va.toNat % 4096 ≤ i ∧ i < va.toNat % 4096 + 0 then buf (i - va.toNat % 4096)
          else s.page p.frame i) = s.page := by
        rw [Function.update_eq_self_iff]
        funext i
        exact if_neg (by omega)
      rw [Space.memmove, hpage, stored_zero]
  | succ n ih =>
      have hpte : (s.stored va buf n).pte (va + UInt32.ofNat n).toNat = some p := by
        rw [pte_stored, ← hp]
        exact pte_congr (page_add_ofNat (by omega))
      have hoff : (va + UInt32.ofNat n).toNat % PGSIZE = va.toNat % 4096 + n := by
        rw [toNat_add_in_page (by omega), PGSIZE]
        omega
      rw [stored_succ, Space.storeByte, hpte, ← ih (by omega)]
      dsimp only
      rw [hoff, Space.memmove, Space.memmove]
      dsimp only
      rw [Function.update_self, Function.update_idem]
      congr 2
      funext i
      rw [Function.update_apply]
      by_cases hi : i = va.toNat % 4096 + n
      · rw [if_pos (by omega), if_pos hi, hi, Nat.add_sub_cancel_left]
      · rw [if_neg hi]
        by_cases hin : va.toNat % 4096 ≤ i ∧ i < va.toNat % 4096 + n
        · rw [if_pos (by omega), if_pos hin]
        · rw [if_neg (by omega), if_neg hin]

theorem page_PGROUNDDOWN : (PGROUNDDOWN va).toNat / 4096 = va.toNat / 4096 := by
  rw [toNat_PGROUNDDOWN]
  omega

theorem walkpgdir_iff {x : ℕ} : (s.walkpgdir x false).1 = true ↔ (s.pgdir (PDX x)).isSome := by
  rw [Space.walkpgdir]
  by_cases h : (s.pgdir (PDX x)).isSome
  · rw [if_pos h]
    exact iff_of_true rfl h
  · rw [if_neg h]
    exact iff_of_false Bool.false_ne_true h

theorem uva2ka_of_accessible {p : Pte} (hp : s.pte va.toNat = some p) (hu : p.perm &&& PTE_U ≠ 0) :
    s.uva2ka (PGROUNDDOWN va) = some (some p.frame) := by
  have htable : s.HasTable (PGROUNDDOWN va) :=
    (hasTable_congr page_PGROUNDDOWN).mpr (Space.Accessible.hasTable ⟨p, hp, hu⟩)
  rw [Space.uva2ka, if_pos (walkpgdir_iff.mpr htable), pte_congr page_PGROUNDDOWN, hp]
  exact if_neg hu

theorem uva2ka_of_not_accessible (h : ¬ s.Accessible va) :
    s.uva2ka (PGROUNDDOWN va) = if s.HasTable va then some none else none := by
  have htable := hasTable_congr (s := s) (@page_PGROUNDDOWN va)
  rw [Space.uva2ka]
  by_cases hva : s.HasTable va
  · rw [if_pos (walkpgdir_iff.mpr (htable.mpr hva)), if_pos hva, pte_congr page_PGROUNDDOWN]
    cases hp : s.pte va.toNat with
    | none => rfl
    | some p => exact if_pos (not_not.mp fun hu => h ⟨p, hp, hu⟩)
  · rw [if_neg fun h => hva (htable.mp (walkpgdir_iff.mp h)), if_neg hva]

theorem copyout_zero : s.copyout va buf 0 = some (0, s) := by
  rw [Space.copyout]
  exact if_neg (by decide)

theorem copyout_page {len : UInt32} (hlen : 0 < len) (hva : s.Accessible va) :
    s.copyout va buf len =
      (s.stored va buf (chunk va len).toNat).copyout (va + UInt32.ofNat (chunk va len).toNat)
        (fun i => buf ((chunk va len).toNat + i)) (len - chunk va len) := by
  obtain ⟨p, hp, hu⟩ := hva
  have hchunk := toNat_chunk va len
  have hmod : va.toNat % 4096 < 4096 := Nat.mod_lt _ (by decide)
  rw [Space.copyout, if_pos hlen]
  dsimp only
  rw [uva2ka_of_accessible hp hu]
  dsimp only
  rw [toNat_offset, memmove_eq_stored hp (by omega)]
  by_cases hall : chunk va len = len
  · rw [hall, UInt32.sub_self, copyout_zero, copyout_zero]
  · have hne : (chunk va len).toNat ≠ len.toNat := fun h => hall (UInt32.toNat_inj.mp h)
    have hnext : PGROUNDDOWN va + 4096 = va + UInt32.ofNat (chunk va len).toNat := by
      have hlt : va.toNat < 2 ^ 32 := va.toNat_lt
      apply UInt32.toNat_inj.mp
      rw [UInt32.toNat_add, UInt32.toNat_add, toNat_PGROUNDDOWN, UInt32.toNat_ofNat']
      change (_ + 4096) % 2 ^ 32 = _
      omega
    rw [hnext]

theorem copyout_eq {len : UInt32} (hk : k ≤ len.toNat)
    (hgood : ∀ i < k, s.Accessible (va + UInt32.ofNat i))
    (hbad : k < len.toNat → ¬ s.Accessible (va + UInt32.ofNat k)) :
    s.copyout va buf len =
      if k = len.toNat then some (0, s.stored va buf k)
      else if s.HasTable (va + UInt32.ofNat k) then some (-1, s.stored va buf k)
      else none := by
  induction hn : len.toNat using Nat.strong_induction_on generalizing s va buf len k with
  | _ n ih =>
      subst hn
      by_cases hlen : 0 < len
      · have hpos : 0 < len.toNat := UInt32.lt_iff_toNat_lt.mp hlen
        by_cases hva : s.Accessible va
        · have hchunk := toNat_chunk va len
          have hmod : va.toNat % 4096 < 4096 := Nat.mod_lt _ (by decide)
          have hle : (chunk va len).toNat ≤ k := by
            by_contra hlt
            refine hbad (by omega) ((accessible_congr (page_add_ofNat ?_)).mpr hva)
            omega
          have hsub : (len - chunk va len).toNat = len.toNat - (chunk va len).toNat :=
            UInt32.toNat_sub_of_le _ _ (UInt32.le_iff_toNat_le.mpr (by omega))
          obtain ⟨j, rfl⟩ := Nat.exists_eq_add_of_le hle
          have haccess : ∀ i, (s.stored va buf (chunk va len).toNat).Accessible
              (va + UInt32.ofNat (chunk va len).toNat + UInt32.ofNat i) ↔
              s.Accessible (va + UInt32.ofNat ((chunk va len).toNat + i)) := by
            intro i
            rw [add_ofNat_add, Space.Accessible, Space.Accessible, pte_stored]
          have htable : (s.stored va buf (chunk va len).toNat).HasTable
              (va + UInt32.ofNat (chunk va len).toNat + UInt32.ofNat j) ↔
              s.HasTable (va + UInt32.ofNat ((chunk va len).toNat + j)) := by
            rw [add_ofNat_add, Space.HasTable, Space.HasTable, pgdir_stored]
          have hlast : j = len.toNat - (chunk va len).toNat ↔
              (chunk va len).toNat + j = len.toNat := by
            omega
          rw [copyout_page hlen hva, ih _ (sub_chunk_lt hlen) (k := j) (by omega)
            (fun i hi => (haccess i).mpr (hgood _ (by omega)))
            (fun hj hacc => hbad (by omega) ((haccess j).mp hacc)) rfl, ← stored_add,
            if_congr htable rfl rfl, hsub, if_congr hlast rfl rfl]
        · obtain rfl : k = 0 := by
            by_contra hk0
            exact hva (UInt32.add_zero va ▸ hgood 0 (by omega))
          rw [Space.copyout, if_pos hlen]
          dsimp only
          rw [uva2ka_of_not_accessible hva, if_neg hpos.ne, stored_zero]
          have hva0 : va + UInt32.ofNat 0 = va := UInt32.add_zero va
          by_cases htable : s.HasTable va
          · rw [hva0, if_pos htable, if_pos htable]
          · rw [hva0, if_neg htable, if_neg htable]
      · have hzero : len.toNat = 0 := by
          rw [UInt32.lt_iff_toNat_lt] at hlen
          exact Nat.eq_zero_of_not_pos hlen
        obtain rfl : len = 0 := UInt32.toNat_inj.mp hzero
        rw [copyout_zero, if_pos (by omega), Nat.le_zero.mp hk, stored_zero]

theorem exists_first_bad (P : ℕ → Prop) (n : ℕ) : ∃ k ≤ n, (∀ i < k, P i) ∧ (k < n → ¬ P k) := by
  induction n with
  | zero => exact ⟨0, le_rfl, fun i hi => absurd hi (Nat.not_lt_zero i),
      fun h => absurd h (lt_irrefl 0)⟩
  | succ n ih =>
      obtain ⟨k, hk, hgood, hbad⟩ := ih
      by_cases hPk : k < n ∨ ¬ P k
      · refine ⟨k, by omega, hgood, fun _ => ?_⟩
        exact hPk.elim hbad id
      · rw [not_or, not_not] at hPk
        obtain rfl : k = n := by omega
        refine ⟨k + 1, le_rfl, fun i hi => ?_, fun h => absurd h (lt_irrefl _)⟩
        rcases Nat.lt_succ_iff_lt_or_eq.mp hi with hi | rfl
        · exact hgood i hi
        · exact hPk.2

theorem page_stored (hgood : ∀ i < k, s.Accessible (va + UInt32.ofNat i)) {f : ℕ}
    (hf : (s.stored va buf k).page f ≠ s.page f) :
    ∃ i < k, ∃ p, s.pte (va + UInt32.ofNat i).toNat = some p ∧ p.perm &&& PTE_U ≠ 0 ∧
    p.frame = f := by
  induction k with
  | zero => exact absurd rfl hf
  | succ k ih =>
      by_cases hk : (s.stored va buf k).page f = s.page f
      · obtain ⟨p, hp, hu⟩ := hgood k (Nat.lt_succ_self k)
        refine ⟨k, Nat.lt_succ_self k, p, hp, hu, ?_⟩
        by_contra hne
        refine hf ?_
        rw [stored_succ, Space.storeByte, pte_stored, hp, ← hk]
        exact Function.update_of_ne (Ne.symm hne) _ _
      · obtain ⟨i, hi, hpage⟩ := ih (fun i hi => hgood i (hi.trans (Nat.lt_succ_self k))) hk
        exact ⟨i, hi.trans (Nat.lt_succ_self k), hpage⟩

/-- What `copyout` is for: it writes to accessible pages at the addresses, returns 0 only when all
bytes are stored in order, and -1 with the first address that is not accessible. -/
structure Copied (s : Space) (va : UInt32) (buf : ℕ → UInt8) (len : ℕ) (r : ℤ)
    (t : Space) : Prop where
  tables : t.pgdir = s.pgdir
  writes : ∀ f, t.page f ≠ s.page f → ∃ i < len, ∃ p, s.pte (va + UInt32.ofNat i).toNat = some p ∧
    p.perm &&& PTE_U ≠ 0 ∧ p.frame = f
  complete : r = 0 → (∀ i < len, s.Accessible (va + UInt32.ofNat i)) ∧ t = s.stored va buf len
  stops : ∀ k < len, (∀ i < k, s.Accessible (va + UInt32.ofNat i)) →
    ¬ s.Accessible (va + UInt32.ofNat k) → r = -1 ∧ t = s.stored va buf k

/-- `copyout` does so exactly where there are page tables for the addresses up to the first one that
is not accessible. -/
theorem copyout_copied_iff (s : Space) (va : UInt32) (buf : ℕ → UInt8) (len : UInt32) :
    (∃ r t, s.copyout va buf len = some (r, t) ∧ Copied s va buf len.toNat r t) ↔
      ∀ k < len.toNat, (∀ i < k, s.Accessible (va + UInt32.ofNat i)) →
        s.HasTable (va + UInt32.ofNat k) := by
  obtain ⟨k, hk, hgood, hbad⟩ :=
    exists_first_bad (fun i => s.Accessible (va + UInt32.ofNat i)) len.toNat
  have hrun := @copyout_eq s va buf k len hk hgood hbad
  have hwrites : ∀ f, (s.stored va buf k).page f ≠ s.page f → ∃ i < len.toNat, ∃ p,
      s.pte (va + UInt32.ofNat i).toNat = some p ∧ p.perm &&& PTE_U ≠ 0 ∧ p.frame = f := by
    intro f hf
    obtain ⟨i, hi, hpage⟩ := page_stored hgood hf
    exact ⟨i, hi.trans_le hk, hpage⟩
  constructor
  · rintro ⟨r, t, hcopy, -⟩ j hj hbefore
    by_cases hacc : s.Accessible (va + UInt32.ofNat j)
    · exact hacc.hasTable
    · obtain rfl : k = j := by
        rcases Nat.lt_trichotomy k j with hkj | rfl | hjk
        · exact absurd (hbefore k hkj) (hbad (hkj.trans hj))
        · rfl
        · exact absurd (hgood j hjk) hacc
      by_contra htable
      rw [if_neg hj.ne, if_neg htable, hcopy] at hrun
      cases hrun
  · intro htables
    by_cases hall : k = len.toNat
    · rw [if_pos hall] at hrun
      refine ⟨0, _, hrun, pgdir_stored, hwrites, fun _ => ?_, fun j hj _ hnot => ?_⟩
      · exact ⟨fun i hi => hgood i (hall ▸ hi), by rw [hall]⟩
      · exact absurd (hgood j (hall ▸ hj)) hnot
    · have hlt : k < len.toNat := lt_of_le_of_ne hk hall
      rw [if_neg hall, if_pos (htables k hlt hgood)] at hrun
      refine ⟨-1, _, hrun, pgdir_stored, hwrites, (fun h => by cases h),
        fun j hj hbefore hnot => ?_⟩
      obtain rfl : k = j := by
        rcases Nat.lt_trichotomy k j with hkj | rfl | hjk
        · exact absurd (hbefore k hkj) (hbad hlt)
        · rfl
        · exact absurd (hgood j hjk) hnot
      exact ⟨rfl, rfl⟩

/-- One page of user code and no page table for the upper half of the addresses. -/
def halfSpace : Space where
  sz := 4096
  pgdir d := if d = 0 then some ⟨1, fun k => if k = 0 then some ⟨2, 7⟩ else none⟩ else none
  freelist := []
  page _ _ := 0

theorem copyout_without_table :
    halfSpace.Accessible 0 ∧ halfSpace.copyout 0x90000000 (fun _ => 65) 1 = none := by
  have hnot : ¬ halfSpace.HasTable 0x90000000 := by decide
  refine ⟨⟨⟨2, 7⟩, rfl, by decide⟩, ?_⟩
  exact copyout_eq (k := 0) (Nat.zero_le _) (fun i hi => absurd hi (Nat.not_lt_zero i))
    (fun _ hacc => hnot hacc.hasTable)

end Bytes

end VirtualMemory

end Xv6Fairness
