import Mathlib.Algebra.Order.Ring.Int
import Xv6Fairness.PageTables

/-!
# Growing and shrinking a process

`growproc` maps fresh pages behind the old end of a process or gives pages back from the end. A
growth that runs out of memory is undone. The helpers return a size or zero for an error, so that
shrinking to nothing counts as an error after the pages are gone, and a size below zero wraps and is
answered with the old size.
-/

namespace Xv6Fairness

open Outcomes Ownership

namespace VirtualMemory

variable {endFrame : ℕ} {κ : Type*} [DecidableEq κ] {others : κ → ℕ} {s t s₀ : Space}
  {hand v v₀ w f : ℕ}

/-- The pages `P` are unmapped and all else in use stays. -/
structure Dealloc (s : Space) (P : ℕ → Prop) (t : Space) : Prop where
  sz : t.sz = s.sz
  gone : ∀ w < userPages, P w → t.pte (PGSIZE * w) = none
  kept : ∀ w < userPages, ¬ P w → t.pte (PGSIZE * w) = s.pte (PGSIZE * w)
  tables : ∀ d, (t.pgdir d).map PageTable.frame = (s.pgdir d).map PageTable.frame
  page : ∀ f, f ∉ t.freelist → t.page f = s.page f
  free : ∀ f ∈ s.freelist, f ∈ t.freelist

theorem Dealloc.refl {P : ℕ → Prop} (h : ∀ w < userPages, P w → s.pte (PGSIZE * w) = none) :
    Dealloc s P s :=
  ⟨rfl, h, fun _ _ _ => rfl, fun _ => rfl, fun _ _ => rfl, fun _ => id⟩

theorem nextPage_page : nextPage (PGSIZE * v) = PGSIZE * (v + 1) := (Nat.mul_succ _ _).symm

theorem deallocStep_spec (h : Inv endFrame others s hand) (hv : v < userPages) :
    ∃ u t, s.deallocStep endFrame (PGSIZE * v) = .ok (PGSIZE * u, t) ∧ v < u ∧
      Inv endFrame others t hand ∧ Dealloc s (· = v) t ∧
      ∀ w < userPages, v ≤ w → w < u → t.pte (PGSIZE * w) = none := by
  by_cases htable : (s.pgdir (PDX (PGSIZE * v))).isSome
  · have hwalk : (s.walkpgdir (PGSIZE * v) false).1 = true := by
      rw [Space.walkpgdir, if_pos htable]
    have hnext : nextPage (PGSIZE * v) = PGSIZE * (v + 1) := nextPage_page
    cases hpte : s.pte (PGSIZE * v) with
    | none =>
        refine ⟨v + 1, s, ?_, Nat.lt_succ_self v, h, .refl ?_, fun w _ hvw hwv => ?_⟩
        · rw [Space.deallocStep, if_pos hwalk, hpte, ← hnext]
        · rintro w - rfl
          exact hpte
        · obtain rfl : w = v := by omega
          exact hpte
    | some p =>
        obtain ⟨hfree, hinv⟩ := h.unmap hv hpte
        have hsome : ((s.release p.frame).pgdir (PDX (PGSIZE * v))).isSome := htable
        refine ⟨v + 1, (s.release p.frame).setPte (PGSIZE * v) none, ?_, Nat.lt_succ_self v, hinv,
          ⟨rfl, fun w _ hw => ?_, fun w _ hw => ?_, frame_setPte, fun f hf => ?_, fun f hf => ?_⟩,
          fun w _ hvw hwv => ?_⟩
        · rw [Space.deallocStep, if_pos hwalk, hpte, ← hnext]
          dsimp only
          rw [if_neg (h.user v hv p hpte), hfree, ok_bind]
        · rw [pte_setPte hsome, if_pos hw]
        · rw [pte_setPte hsome, if_neg hw]
          rfl
        · have hne : f ≠ p.frame := by
            rintro rfl
            exact hf List.mem_cons_self
          exact Function.update_of_ne hne _ _
        · exact List.mem_cons_of_mem _ hf
        · rw [pte_setPte hsome, if_pos (by omega)]
  · have hnone : ∀ w, PDX (PGSIZE * w) = PDX (PGSIZE * v) → s.pte (PGSIZE * w) = none := by
      intro w hw
      rw [Space.pte, hw, Option.not_isSome_iff_eq_none.mp htable, Option.bind_none]
    have hwalk : (s.walkpgdir (PGSIZE * v) false).1 = false := by
      rw [Space.walkpgdir, if_neg htable]
      rfl
    have hnext : PGADDR (PDX (PGSIZE * v) + 1) = PGSIZE * (1024 * (v / 1024 + 1)) := by
      rw [PDX_page]
      change (v / 1024 + 1) * 4194304 = 4096 * _
      omega
    refine ⟨1024 * (v / 1024 + 1), s, ?_, by omega, h, .refl ?_, fun w _ hvw hwv => hnone w ?_⟩
    · rw [Space.deallocStep, hwalk, if_neg Bool.false_ne_true, hnext]
    · rintro w - rfl
      exact hnone w rfl
    · rw [PDX_page, PDX_page]
      omega

theorem deallocLoop_of_step {oldsz a : ℕ} {r : ℕ × Space} (ha : a < oldsz)
    (hr : s.deallocStep endFrame a = .ok r) :
    s.deallocLoop endFrame oldsz a = r.2.deallocLoop endFrame oldsz r.1 := by
  rw [Space.deallocLoop, if_pos ha]
  split
  · next e he =>
      rw [hr] at he
      cases he
  · next r' hr' =>
      rw [hr] at hr'
      cases hr'
      rfl

theorem deallocLoop_spec {oldsz : ℕ} (hle : oldsz ≤ PGSIZE * userPages) (n : ℕ) :
    ∀ (s : Space) (v : ℕ), Inv endFrame others s hand → oldsz ≤ PGSIZE * v + n →
      ∃ t, s.deallocLoop endFrame oldsz (PGSIZE * v) = .ok t ∧ Inv endFrame others t hand ∧
        Dealloc s (fun w => v ≤ w ∧ PGSIZE * w < oldsz) t := by
  induction n using Nat.strong_induction_on with
  | _ n ih =>
      intro s v h hn
      by_cases hv : PGSIZE * v < oldsz
      · have hlt : v < userPages := Nat.lt_of_mul_lt_mul_left (hv.trans_le hle)
        obtain ⟨u, s₁, hstep, hvu, h₁, hd₁, hnone⟩ := deallocStep_spec h hlt
        have hmul : PGSIZE * v < PGSIZE * u := Nat.mul_lt_mul_of_pos_left hvu (by decide)
        obtain ⟨t, ht, hinv, hd⟩ := ih (n - (PGSIZE * u - PGSIZE * v)) (by omega) s₁ u h₁ (by omega)
        refine ⟨t, ?_, hinv, hd.sz.trans hd₁.sz, fun w hw hP => ?_, fun w hw hP => ?_, fun d => ?_,
          fun f hf => ?_, fun f hf => hd.free f (hd₁.free f hf)⟩
        · rw [deallocLoop_of_step hv hstep, ht]
        · by_cases huw : u ≤ w
          · exact hd.gone w hw ⟨huw, hP.2⟩
          · rw [hd.kept w hw fun h => huw h.1]
            exact hnone w hw hP.1 (not_le.mp huw)
        · have hne : ¬ w = v := by
            rintro rfl
            exact hP ⟨le_rfl, hv⟩
          rw [hd.kept w hw fun h => hP ⟨hvu.le.trans h.1, h.2⟩, hd₁.kept w hw hne]
        · rw [hd.tables, hd₁.tables]
        · rw [hd.page f hf, hd₁.page f fun hf₁ => hf (hd.free f hf₁)]
      · refine ⟨s, ?_, h, .refl fun w _ hP => ?_⟩
        · rw [Space.deallocLoop, if_neg hv]
        · have hmul : PGSIZE * v ≤ PGSIZE * w := Nat.mul_le_mul_left _ hP.1
          omega

theorem PGROUNDUP_toNat {sz : UInt32} (h : sz.toNat ≤ PGSIZE * userPages) :
    (PGROUNDUP sz).toNat = PGSIZE * ((sz.toNat + 4095) / 4096) := by
  have hle : sz.toNat ≤ 2147483648 := h
  rw [PGROUNDUP, UInt32.toNat_mul, UInt32.toNat_div, UInt32.toNat_add]
  change ((sz.toNat + 4095) % 4294967296 / 4096 * 4096) % 4294967296 = 4096 * _
  omega

theorem deallocuvm_spec (h : Inv endFrame others s hand) {oldsz newsz : UInt32}
    (hlt : newsz < oldsz)
    (hle : oldsz.toNat ≤ PGSIZE * userPages) :
    ∃ t, s.deallocuvm endFrame oldsz newsz = .ok (newsz, t) ∧ Inv endFrame others t hand ∧
      Dealloc s (fun w => (newsz.toNat + 4095) / 4096 ≤ w ∧ PGSIZE * w < oldsz.toNat) t := by
  have hlt' := UInt32.lt_iff_toNat_lt.mp hlt
  obtain ⟨t, ht, hinv, hd⟩ := deallocLoop_spec hle oldsz.toNat s _ h (Nat.le_add_left _ _)
  refine ⟨t, ?_, hinv, hd⟩
  rw [Space.deallocuvm, if_neg (UInt32.not_le.mpr hlt), PGROUNDUP_toNat (by omega), ht, ok_bind]

/-- A page table may have been added. -/
structure Walked (s t : Space) : Prop where
  sz : t.sz = s.sz
  pte : ∀ w, t.pte (PGSIZE * w) = s.pte (PGSIZE * w)
  tables : ∀ d x, (s.pgdir d).map PageTable.frame = some x →
    (t.pgdir d).map PageTable.frame = some x
  page : t.page = s.page

theorem walkpgdir_spec (h : Inv endFrame others s hand) :
    ∃ b t, s.walkpgdir (PGSIZE * v) true = (b, t) ∧ Inv endFrame others t hand ∧ Walked s t ∧
      (b = true → (t.pgdir (PDX (PGSIZE * v))).isSome) := by
  by_cases htable : (s.pgdir (PDX (PGSIZE * v))).isSome
  · exact ⟨true, s, if_pos htable, h, ⟨rfl, fun _ => rfl, fun _ _ => id, rfl⟩, fun _ => htable⟩
  · have hnone : s.pgdir (PDX (PGSIZE * v)) = none := Option.not_isSome_iff_eq_none.mp htable
    cases hfree : s.freelist with
    | nil =>
        refine ⟨false, s, ?_, h, ⟨rfl, fun _ => rfl, fun _ _ => id, rfl⟩, fun h => by cases h⟩
        rw [Space.walkpgdir, if_neg htable, if_pos rfl, Space.kalloc, hfree]
    | cons f rest =>
        refine ⟨true, _, ?_, h.walk hfree hnone, ⟨rfl, fun w => ?_, fun d x hx => ?_, rfl⟩,
          fun _ => ?_⟩
        · rw [Space.walkpgdir, if_neg htable, if_pos rfl, Space.kalloc, hfree]
        · rw [Space.pte, Space.pte]
          dsimp only
          by_cases hw : PDX (PGSIZE * w) = PDX (PGSIZE * v)
          · rw [hw, Function.update_self, hnone]
            rfl
          · rw [Function.update_of_ne hw]
        · dsimp only
          by_cases hd : d = PDX (PGSIZE * v)
          · rw [hd, hnone] at hx
            cases hx
          · rwa [Function.update_of_ne hd]
        · dsimp only
          rw [Function.update_self]
          rfl

theorem PGROUNDDOWN_page {va : UInt32} {v : ℕ} (hva : va.toNat = PGSIZE * v) :
    PGROUNDDOWN va = va := by
  apply UInt32.toNat.inj
  rw [PGROUNDDOWN, UInt32.toNat_mul, UInt32.toNat_div, hva]
  have hlt := va.toNat_lt
  rw [hva] at hlt
  change 4096 * v < 2 ^ 32 at hlt
  change 4096 * v / 4096 * 4096 % 2 ^ 32 = 4096 * v
  omega

theorem page_count {va size : UInt32} {v n : ℕ} (hva : va.toNat = PGSIZE * v)
    (hsize : size.toNat = PGSIZE * (n + 1)) (hn : v + n < 2 ^ 20) :
    (PGROUNDDOWN (va + size - 1) - PGROUNDDOWN va).toNat / PGSIZE = n := by
  change va.toNat = 4096 * v at hva
  change size.toNat = 4096 * (n + 1) at hsize
  have hlast : (PGROUNDDOWN (va + size - 1)).toNat = 4096 * (v + n) := by
    rw [PGROUNDDOWN, UInt32.toNat_mul, UInt32.toNat_div, UInt32.toNat_sub, UInt32.toNat_add,
      hva, hsize]
    change (2 ^ 32 - 1 + (4096 * v + 4096 * (n + 1)) % 2 ^ 32) % 2 ^ 32 / 4096 * 4096 % 2 ^ 32 = _
    omega
  rw [PGROUNDDOWN_page hva, UInt32.toNat_sub, hlast, hva]
  change (2 ^ 32 - 4096 * v + 4096 * (v + n)) % 2 ^ 32 / 4096 = n
  omega

/-- The page in hand has been mapped at `v`. -/
structure Mapped (s : Space) (v f : ℕ) (t : Space) : Prop where
  sz : t.sz = s.sz
  new : ∃ p, t.pte (PGSIZE * v) = some p ∧ p.frame = f
  kept : ∀ w, w ≠ v → t.pte (PGSIZE * w) = s.pte (PGSIZE * w)
  tables : ∀ d x, (s.pgdir d).map PageTable.frame = some x →
    (t.pgdir d).map PageTable.frame = some x
  page : t.page = s.page

theorem mappages_spec (h : Inv endFrame others s f) (hf : f ≠ 0) (hv : v < userPages)
    (hnone : s.pte (PGSIZE * v) = none) (perm : UInt32) :
    ∃ r t, s.mappages (UInt32.ofNat (PGSIZE * v)) 4096 f perm = .ok (r, t) ∧
      ((r = -1 ∧ Inv endFrame others t f ∧ Walked s t) ∨
        (r = 0 ∧ Inv endFrame others t 0 ∧ Mapped s v f t ∧
          t.pte (PGSIZE * v) = some ⟨f, perm⟩)) := by
  have hva : (UInt32.ofNat (PGSIZE * v)).toNat = PGSIZE * v := by
    have hlt : v < 524288 := hv
    change 4096 * v % 4294967296 = 4096 * v
    omega
  have hsize : (4096 : UInt32).toNat = PGSIZE * (0 + 1) := rfl
  have hcount := page_count hva hsize (by
    have hlt : v < 524288 := hv
    omega)
  obtain ⟨b, t, hwalk, hinv, hwalked, htable⟩ := walkpgdir_spec h (v := v)
  rw [Space.mappages, hcount, PGROUNDDOWN_page hva, Space.mapLoop, hva, hwalk]
  cases b with
  | false => exact ⟨-1, t, rfl, .inl ⟨rfl, hinv, hwalked⟩⟩
  | true =>
      have hnone' : t.pte (PGSIZE * v) = none := (hwalked.pte v).trans hnone
      dsimp only
      rw [hnone', if_neg (by decide)]
      have hpte : (t.setPte (PGSIZE * v) (some ⟨f, perm⟩)).pte (PGSIZE * v) = some ⟨f, perm⟩ := by
        rw [pte_setPte (htable rfl), if_pos rfl]
      refine ⟨0, _, rfl, .inr ⟨rfl, hinv.map hf hv (htable rfl) hnone' perm, ⟨hwalked.sz,
        ⟨_, hpte, rfl⟩, fun w hw => ?_, fun d x hx => ?_, hwalked.page⟩, hpte⟩⟩
      · rw [pte_setPte (htable rfl), if_neg hw, hwalked.pte]
      · rw [frame_setPte]
        exact hwalked.tables d x hx

/-- A space whose pages below `v₀` were mapped, and which has been extended up to page `v`. -/
structure Extends (s₀ : Space) (v₀ v : ℕ) (s : Space) : Prop where
  le : v₀ ≤ v
  sz : s.sz = s₀.sz
  old : ∀ w < userPages, v₀ ≤ w → s₀.pte (PGSIZE * w) = none
  inside : ∀ w < v₀, s.pte (PGSIZE * w) = s₀.pte (PGSIZE * w)
  fresh : ∀ w, v₀ ≤ w → w < v → ∃ p, s.pte (PGSIZE * w) = some p ∧ s.page p.frame = fun _ => 0
  beyond : ∀ w < userPages, v ≤ w → s.pte (PGSIZE * w) = none
  tables : ∀ d x, (s₀.pgdir d).map PageTable.frame = some x →
    (s.pgdir d).map PageTable.frame = some x
  page : ∀ f, f ∉ s₀.freelist → s.page f = s₀.page f

omit [DecidableEq κ] in
theorem Extends.free_subset (he : Extends s₀ v₀ v s) (h₀ : Inv endFrame others s₀ 0)
    (h : Inv endFrame others s hand) : ∀ f ∈ s.freelist, f ∈ s₀.freelist := by
  intro f hf
  have hlt := h.lt f hf
  by_contra hused
  have hnot : ¬ (f < endFrame ∨ ∃ k, refs others s hand k = f) := fun hk =>
    (h.owns.used_iff f hlt).mpr hk hf
  rw [not_or] at hnot
  rcases (h₀.owns.used_iff f hlt).mp hused with hlow | ⟨k, hk⟩
  · exact hnot.1 hlow
  · refine hnot.2 ⟨k, ?_⟩
    have hne : f ≠ 0 := by
      have hpos := h.owns.pos
      omega
    cases k with
    | user w =>
        rw [refs] at hk ⊢
        split_ifs at hk ⊢ with hw
        · by_cases hv : w < v₀
          · rw [he.inside w hv, hk]
          · rw [he.old w hw (not_lt.mp hv)] at hk
            exact absurd hk.symm hne
        · exact absurd hk.symm hne
    | table d =>
        rw [refs] at hk ⊢
        cases hd : (s₀.pgdir d).map PageTable.frame with
        | none =>
            rw [hd] at hk
            exact absurd hk.symm hne
        | some x =>
            rw [hd] at hk
            rw [he.tables d x hd, hk]
    | hand => exact absurd hk.symm hne
    | other k => exact hk

omit [DecidableEq κ] in
theorem Extends.dealloc (he : Extends s₀ v₀ v s) (h₀ : Inv endFrame others s₀ 0)
    (hinv : Inv endFrame others t hand) {size : ℕ}
    (hd : Dealloc s (fun w => v₀ ≤ w ∧ PGSIZE * w < size) t)
    (hsize : ∀ w < v, PGSIZE * w < size) (hle : v₀ ≤ userPages) : Extends s₀ v₀ v₀ t := by
  have hbase : Extends s₀ v₀ v₀ { t with page := s₀.page } := by
    refine ⟨le_rfl, hd.sz.trans he.sz, he.old, fun w hw => ?_, fun w hw hlt => by omega,
      fun w hw hvw => ?_, fun d x hx => ?_, fun _ _ => rfl⟩
    · exact (hd.kept w (hw.trans_le hle) fun h => by omega).trans (he.inside w hw)
    · by_cases hwv : w < v
      · exact hd.gone w hw ⟨hvw, hsize w hwv⟩
      · by_cases hP : v₀ ≤ w ∧ PGSIZE * w < size
        · exact hd.gone w hw hP
        · exact (hd.kept w hw hP).trans (he.beyond w hw (not_lt.mp hwv))
    · exact (hd.tables d).trans (he.tables d x hx)
  have hinv' : Inv endFrame others { t with page := s₀.page } hand :=
    ⟨hinv.nodup, hinv.lt, hinv.owns, hinv.user, hinv.table⟩
  refine ⟨le_rfl, hbase.sz, hbase.old, hbase.inside, fun w hw hlt => by omega, hbase.beyond,
    hbase.tables, fun f hf => ?_⟩
  rw [hd.page f fun hft => hf (hbase.free_subset h₀ hinv' f hft), he.page f hf]

theorem Extends.fill (he : Extends s₀ v₀ v s) {x : Page} (hsz : t.sz = s.sz)
    (hpgdir : t.pgdir = s.pgdir)
    (hpage : t.page = Function.update s.page f x) (hf : f ∈ s₀.freelist)
    (hfresh : ∀ w, v₀ ≤ w → w < v → ∀ p, s.pte (PGSIZE * w) = some p → p.frame ≠ f) :
    Extends s₀ v₀ v t := by
  have hpte : ∀ a, t.pte a = s.pte a := fun a => by rw [Space.pte, Space.pte, hpgdir]
  refine ⟨he.le, hsz.trans he.sz, he.old, fun w hw => (hpte _).trans (he.inside w hw),
    fun w hw hlt => ?_,
    fun w hw hvw => (hpte _).trans (he.beyond w hw hvw), fun d x hx => ?_, fun g hg => ?_⟩
  · obtain ⟨p, hp, hzero⟩ := he.fresh w hw hlt
    refine ⟨p, (hpte _).trans hp, ?_⟩
    rw [hpage, Function.update_of_ne (hfresh w hw hlt p hp), hzero]
  · rw [hpgdir]
    exact he.tables d x hx
  · have hne : g ≠ f := by
      rintro rfl
      exact hg hf
    rw [hpage, Function.update_of_ne hne, he.page g hg]

theorem Extends.walked (he : Extends s₀ v₀ v s) (hw : Walked s t) : Extends s₀ v₀ v t := by
  refine ⟨he.le, hw.sz.trans he.sz, he.old, fun w hlt => (hw.pte w).trans (he.inside w hlt),
    fun w hv hlt => ?_, fun w hlt hv => (hw.pte w).trans (he.beyond w hlt hv),
    fun d x hx => hw.tables d x (he.tables d x hx), fun f hf => ?_⟩
  · obtain ⟨p, hp, hzero⟩ := he.fresh w hv hlt
    refine ⟨p, (hw.pte w).trans hp, ?_⟩
    rw [hw.page, hzero]
  · rw [hw.page, he.page f hf]

theorem Extends.mapped (he : Extends s₀ v₀ v s) (hm : Mapped s v f t)
    (hzero : s.page f = fun _ => 0) :
    Extends s₀ v₀ (v + 1) t := by
  have hle := he.le
  refine ⟨by omega, hm.sz.trans he.sz, he.old, fun w hw => ?_, fun w hv hlt => ?_,
    fun w hw hv => ?_,
    fun d x hx => hm.tables d x (he.tables d x hx), fun g hg => ?_⟩
  · rw [hm.kept w (by omega), he.inside w hw]
  · by_cases hwv : w = v
    · obtain ⟨p, hp, rfl⟩ := hm.new
      exact ⟨p, hwv ▸ hp, by rw [hm.page, hzero]⟩
    · obtain ⟨p, hp, hfresh⟩ := he.fresh w hv (by omega)
      exact ⟨p, by rw [hm.kept w hwv, hp], by rw [hm.page, hfresh]⟩
  · rw [hm.kept w (by omega), he.beyond w hw (by omega)]
  · rw [hm.page, he.page g hg]

theorem rollback (he : Extends s₀ v₀ v s) (h₀ : Inv endFrame others s₀ 0)
    (h : Inv endFrame others s hand) {oldsz newsz : UInt32} (hlt : oldsz < newsz)
    (hle : newsz.toNat ≤ PGSIZE * userPages) (hv₀ : (oldsz.toNat + 4095) / 4096 = v₀)
    (hv : PGSIZE * v < newsz.toNat) :
    ∃ t, s.deallocuvm endFrame newsz oldsz = .ok (oldsz, t) ∧ Inv endFrame others t hand ∧
      Extends s₀ v₀ v₀ t := by
  obtain ⟨t, ht, hinv, hd⟩ := deallocuvm_spec h hlt hle
  rw [hv₀] at hd
  have hpages : v₀ ≤ userPages := by
    have hv' : v < userPages := Nat.lt_of_mul_lt_mul_left (hv.trans_le hle)
    exact he.le.trans hv'.le
  refine ⟨t, ht, hinv, he.dealloc h₀ hinv hd (fun w hw => ?_) hpages⟩
  exact (Nat.mul_le_mul_left _ hw.le).trans_lt hv

theorem allocStep_spec (he : Extends s₀ v₀ v s) (h₀ : Inv endFrame others s₀ 0)
    (h : Inv endFrame others s 0) {oldsz newsz : UInt32} (hlt : oldsz < newsz)
    (hle : newsz.toNat ≤ PGSIZE * userPages) (hv₀ : (oldsz.toNat + 4095) / 4096 = v₀)
    (hv : PGSIZE * v < newsz.toNat) :
    ∃ b t, s.allocStep endFrame oldsz newsz (PGSIZE * v) = .ok (b, t) ∧ Inv endFrame others t 0 ∧
      Extends s₀ v₀ (if b then v + 1 else v₀) t := by
  have hvu : v < userPages := Nat.lt_of_mul_lt_mul_left (hv.trans_le hle)
  cases hfree : s.freelist with
  | nil =>
      obtain ⟨t, ht, hinv, hext⟩ := rollback he h₀ h hlt hle hv₀ hv
      refine ⟨false, t, ?_, hinv, hext⟩
      rw [Space.allocStep, Space.kalloc, hfree]
      dsimp only
      rw [ht, ok_bind]
  | cons f rest =>
      have hf := h.head_ne_zero hfree
      have hmem : f ∈ s.freelist := by
        rw [hfree]
        exact List.mem_cons_self
      have hf₀ := he.free_subset h₀ h f hmem
      have hinv := h.kalloc hfree
      set s₁ : Space := ({ s with freelist := rest } : Space).memset f 0 with hs₁
      have hinv₁ : Inv endFrame others s₁ f :=
        ⟨hinv.nodup, hinv.lt, hinv.owns, hinv.user, hinv.table⟩
      have he₁ : Extends s₀ v₀ v s₁ := by
        refine he.fill rfl rfl rfl hf₀ fun w hw hlt p hp => ?_
        rintro rfl
        have hne : refs others s 0 (.user w) = p.frame := refs_user (hlt.trans hvu) hp
        exact h.owns.used_refs (hne ▸ hf) (hne ▸ hmem)
      have hzero : s₁.page f = fun _ => 0 := Function.update_self _ _ _
      obtain ⟨r, t, hmap, ⟨hr, hinvt, hwalked⟩ | ⟨hr, hinvt, hmapped, -⟩⟩ :=
        mappages_spec hinv₁ hf hvu (he₁.beyond v hvu le_rfl) userPerm
      · obtain ⟨u, hu, hinvu, hext⟩ := rollback (he₁.walked hwalked) h₀ hinvt hlt hle hv₀ hv
        obtain ⟨hkfree, hinv'⟩ := hinvu.kfree hf
        refine ⟨false, u.release f, ?_, hinv', hext.fill rfl rfl rfl hf₀ fun w hw hlt => by omega⟩
        rw [Space.allocStep, Space.kalloc, hfree]
        dsimp only
        rw [hmap, ok_bind, hr]
        dsimp only
        rw [if_pos (by decide), hu, ok_bind]
        dsimp only
        rw [hkfree, ok_bind]
      · refine ⟨true, t, ?_, hinvt, he₁.mapped hmapped hzero⟩
        rw [Space.allocStep, Space.kalloc, hfree]
        dsimp only
        rw [hmap, ok_bind, hr]
        rfl

theorem allocLoop_spec (h₀ : Inv endFrame others s₀ 0) {oldsz newsz : UInt32} (hlt : oldsz < newsz)
    (hle : newsz.toNat ≤ PGSIZE * userPages) (hv₀ : (oldsz.toNat + 4095) / 4096 = v₀) (n : ℕ) :
    ∀ (s : Space) (v : ℕ), Extends s₀ v₀ v s → Inv endFrame others s 0 →
      newsz.toNat ≤ PGSIZE * v + n → (∀ w, v₀ ≤ w → w < v → PGSIZE * w < newsz.toNat) →
      ∃ r t, s.allocLoop endFrame oldsz newsz (PGSIZE * v) = .ok (r, t) ∧ Inv endFrame others t 0 ∧
        ((r = newsz ∧ ∃ u, Extends s₀ v₀ u t ∧ ∀ w, v₀ ≤ w → (w < u ↔ PGSIZE * w < newsz.toNat)) ∨
          (r = 0 ∧ Extends s₀ v₀ v₀ t)) := by
  induction n using Nat.strong_induction_on with
  | _ n ih =>
      intro s v he h hn hbelow
      by_cases hv : PGSIZE * v < newsz.toNat
      · obtain ⟨b, s₁, hstep, h₁, he₁⟩ := allocStep_spec he h₀ h hlt hle hv₀ hv
        have hmul : PGSIZE * (v + 1) = PGSIZE * v + 4096 := Nat.mul_succ _ _
        rw [Space.allocLoop, if_pos hv, hstep, ok_bind]
        dsimp only
        cases b with
        | false => exact ⟨0, s₁, rfl, h₁, .inr ⟨rfl, he₁⟩⟩
        | true =>
            rw [if_pos rfl, nextPage_page]
            refine ih (n - 4096) (by omega) s₁ (v + 1) he₁ h₁ (by omega) fun w hw hlt => ?_
            rcases Nat.lt_succ_iff_lt_or_eq.mp hlt with hlt | rfl
            · exact hbelow w hw hlt
            · exact hv
      · refine ⟨newsz, s, ?_, h, .inl ⟨rfl, v, he, fun w hw => ⟨hbelow w hw, fun hw' => ?_⟩⟩⟩
        · rw [Space.allocLoop, if_neg hv]
        · by_contra hvw
          have hmul : PGSIZE * v ≤ PGSIZE * w := Nat.mul_le_mul_left _ (not_lt.mp hvw)
          omega

/-- A process with the pages below its size mapped, no others, and no page in use twice. -/
structure Sound (endFrame : ℕ) (others : κ → ℕ) (s : Space) : Prop where
  inv : Inv endFrame others s 0
  size : s.sz < KERNBASE
  mapped : ∀ v < userPages, (s.pte (PGSIZE * v)).isSome ↔ PGSIZE * v < (PGROUNDUP s.sz).toNat

def Space.byteAt (s : Space) (a : ℕ) : Option UInt8 :=
  (s.pte a).map fun p => s.page p.frame (a % PGSIZE)

structure Resized (s : Space) (n : Int32) (t : Space) : Prop where
  size : (t.sz.toNat : ℤ) = s.sz.toNat + n.toInt
  size_lt : t.sz < KERNBASE
  mapped : ∀ v < userPages, (t.pte (PGSIZE * v)).isSome ↔ PGSIZE * v < (PGROUNDUP t.sz).toNat
  bytes : ∀ a < min s.sz.toNat t.sz.toNat, t.byteAt a = s.byteAt a
  zero : ∀ v < userPages, s.pte (PGSIZE * v) = none → ∀ p, t.pte (PGSIZE * v) = some p →
    ∀ o < PGSIZE, t.page p.frame o = 0

/-- Page tables that were added are kept for later. -/
structure Unchanged (s t : Space) : Prop where
  size : t.sz = s.sz
  mapped : ∀ v < userPages, t.pte (PGSIZE * v) = s.pte (PGSIZE * v)
  contents : ∀ v < userPages, ∀ p, s.pte (PGSIZE * v) = some p → t.page p.frame = s.page p.frame
  free : ∀ f, f ∈ t.freelist ↔ f ∈ s.freelist ∧ ∀ d table, t.pgdir d = some table → table.frame ≠ f

def SbrkExact (endFrame : ℕ) (s : Space) (n : Int32) : Prop :=
  ∃ r t, s.growproc endFrame n = .ok (r, t) ∧ ((r = 0 ∧ Resized s n t) ∨ (r = -1 ∧ Unchanged s t))

/-- The new size is zero or negative, and the old one is not zero. -/
def ShrinksToNothing (s : Space) (n : Int32) : Prop :=
  n.toInt < 0 ∧ 0 < s.sz.toNat ∧ s.sz.toNat + n.toInt ≤ 0

section Growproc

variable {n : Int32}

theorem lt_PGROUNDUP {sz : UInt32} (h : sz.toNat ≤ PGSIZE * userPages) :
    PGSIZE * v < (PGROUNDUP sz).toNat ↔ PGSIZE * v < sz.toNat := by
  rw [PGROUNDUP_toNat h]
  change 4096 * v < 4096 * _ ↔ 4096 * v < _
  omega

omit [DecidableEq κ] in
theorem Sound.size_le (h : Sound endFrame others s) : s.sz.toNat ≤ PGSIZE * userPages :=
  (UInt32.lt_iff_toNat_lt.mp h.size).le

omit [DecidableEq κ] in
theorem Sound.pte_none_iff (h : Sound endFrame others s) (hv : v < userPages) :
    s.pte (PGSIZE * v) = none ↔ (s.sz.toNat + 4095) / 4096 ≤ v := by
  rw [← Option.not_isSome_iff_eq_none, h.mapped v hv, lt_PGROUNDUP h.size_le]
  change ¬ 4096 * v < _ ↔ _
  omega

omit [DecidableEq κ] in
theorem Sound.extends (h : Sound endFrame others s) :
    Extends s ((s.sz.toNat + 4095) / 4096) ((s.sz.toNat + 4095) / 4096) s :=
  ⟨le_rfl, rfl, fun _ hw hv => (h.pte_none_iff hw).mpr hv, fun _ _ => rfl,
    fun _ hw hlt => absurd hw (not_le.mpr hlt), fun _ hw hv => (h.pte_none_iff hw).mpr hv,
    fun _ _ => id, fun _ _ => rfl⟩

omit [DecidableEq κ] in
theorem Inv.frame_not_mem (h : Inv endFrame others s hand) (hv : v < userPages) {p : Pte}
    (hp : s.pte (PGSIZE * v) = some p) : p.frame ∉ s.freelist := by
  have href : refs others s hand (.user v) = p.frame := refs_user hv hp
  have hne : refs others s hand (.user v) ≠ 0 := href ▸ h.user v hv p hp
  exact href ▸ h.owns.used_refs hne

omit [DecidableEq κ] in
theorem Extends.unchanged (he : Extends s v₀ v₀ t) (h₀ : Inv endFrame others s 0)
    (h : Inv endFrame others t 0) : Unchanged s t := by
  have hpte : ∀ w < userPages, t.pte (PGSIZE * w) = s.pte (PGSIZE * w) := fun w hw => by
    by_cases hv : w < v₀
    · exact he.inside w hv
    · rw [he.beyond w hw (not_lt.mp hv), he.old w hw (not_lt.mp hv)]
  refine ⟨he.sz, hpte, fun w hw p hp => he.page _ (h₀.frame_not_mem hw hp), fun f => ⟨fun hf =>
    ⟨he.free_subset h₀ h f hf, fun d table hd heq => ?_⟩, fun hf => ?_⟩⟩
  · have href : refs others t 0 (.table d) = table.frame := by
      rw [refs, hd]
      rfl
    have hused := h.owns.used_refs (k := .table d) (href ▸ h.table d table hd)
    rw [href, heq] at hused
    exact hused hf
  · have hlt := h₀.lt f hf.1
    by_contra hused
    have hnot : ¬ (f < endFrame ∨ ∃ k, refs others s 0 k = f) := fun hk =>
      (h₀.owns.used_iff f hlt).mpr hk hf.1
    rw [not_or] at hnot
    rcases (h.owns.used_iff f hlt).mp hused with hlow | ⟨k, hk⟩
    · exact hnot.1 hlow
    · have hne : f ≠ 0 := by
        have hpos := h.owns.pos
        omega
      cases k with
      | user w =>
          refine hnot.2 ⟨.user w, ?_⟩
          rw [refs] at hk ⊢
          split_ifs at hk ⊢ with hw
          · rw [← hpte w hw, hk]
          · exact absurd hk.symm hne
      | table d =>
          rw [refs] at hk
          cases hd : t.pgdir d with
          | none =>
              rw [hd] at hk
              exact absurd hk.symm hne
          | some table =>
              rw [hd] at hk
              exact hf.2 d table hd hk
      | hand => exact absurd hk.symm hne
      | other k => exact hnot.2 ⟨.other k, hk⟩

theorem toInt_cases (n : Int32) :
    n.toInt = if 2 * n.toUInt32.toNat < 2 ^ 32 then (n.toUInt32.toNat : ℤ)
    else n.toUInt32.toNat - 2 ^ 32 := BitVec.toInt_eq_toNat_cond n.toBitVec

theorem lt_zero_iff : n < 0 ↔ n.toInt < 0 := Int32.lt_iff_toInt_lt

theorem zero_lt_iff : 0 < n ↔ 0 < n.toInt := Int32.lt_iff_toInt_lt

theorem pte_page (s : Space) (a : ℕ) : s.pte a = s.pte (PGSIZE * (a / PGSIZE)) := by
  refine pte_congr ?_
  change a / 4096 = 4096 * (a / 4096) / 4096
  omega

theorem byteAt_congr {a : ℕ} (hpte : t.pte (PGSIZE * (a / PGSIZE)) = s.pte (PGSIZE * (a / PGSIZE)))
    (hpage : ∀ p, s.pte (PGSIZE * (a / PGSIZE)) = some p → t.page p.frame = s.page p.frame) :
    t.byteAt a = s.byteAt a := by
  rw [Space.byteAt, Space.byteAt, pte_page t, pte_page s, hpte]
  cases hp : s.pte (PGSIZE * (a / PGSIZE)) with
  | none => rfl
  | some p => rw [Option.map_some, Option.map_some, hpage p hp]

omit [DecidableEq κ] in
theorem Sound.resized_of_extends (h : Sound endFrame others s) {newsz : UInt32} {u : ℕ}
    (hsize : (newsz.toNat : ℤ) = s.sz.toNat + n.toInt) (hlt : newsz < KERNBASE) (hle : s.sz ≤ newsz)
    (he : Extends s ((s.sz.toNat + 4095) / 4096) u t)
    (hu : ∀ w, (s.sz.toNat + 4095) / 4096 ≤ w → (w < u ↔ PGSIZE * w < newsz.toNat)) :
    Resized s n { t with sz := newsz } := by
  have hlt' : newsz.toNat < PGSIZE * userPages := UInt32.lt_iff_toNat_lt.mp hlt
  have hle' := UInt32.le_iff_toNat_le.mp hle
  have hold : ∀ w, w < (s.sz.toNat + 4095) / 4096 ↔ PGSIZE * w < s.sz.toNat := fun w => by
    change _ ↔ 4096 * w < _
    omega
  refine ⟨hsize, hlt, fun v hv => ?_, fun a ha => ?_, fun v hv hnone p hp o _ => ?_⟩
  · change (t.pte (PGSIZE * v)).isSome ↔ PGSIZE * v < (PGROUNDUP newsz).toNat
    rw [lt_PGROUNDUP hlt'.le]
    by_cases hv₀ : v < (s.sz.toNat + 4095) / 4096
    · rw [he.inside v hv₀, h.mapped v hv, lt_PGROUNDUP h.size_le]
      have hvs := (hold v).mp hv₀
      exact iff_of_true hvs (hvs.trans_le hle')
    · rw [← hu v (not_lt.mp hv₀)]
      by_cases hvu : v < u
      · obtain ⟨p, hp, -⟩ := he.fresh v (not_lt.mp hv₀) hvu
        rw [hp]
        exact iff_of_true rfl hvu
      · rw [he.beyond v hv (not_lt.mp hvu)]
        exact iff_of_false Bool.false_ne_true hvu
  · have ha' : a < s.sz.toNat := ha.trans_le (min_le_left _ _)
    have hpage : a / PGSIZE < (s.sz.toNat + 4095) / 4096 := by
      change a / 4096 < _
      omega
    have hv : a / PGSIZE < userPages := by
      have hsz := h.size_le
      change _ ≤ 4096 * 524288 at hsz
      change a / 4096 < 524288
      omega
    exact byteAt_congr (he.inside _ hpage) fun p hp => he.page _ (h.inv.frame_not_mem hv hp)
  · have hv₀ := (h.pte_none_iff hv).mp hnone
    have hvu : v < u := by
      by_contra hvu
      have hbeyond := he.beyond v hv (not_lt.mp hvu)
      rw [show t.pte (PGSIZE * v) = some p from hp] at hbeyond
      cases hbeyond
    obtain ⟨q, hq, hzero⟩ := he.fresh v hv₀ hvu
    obtain rfl : q = p := Option.some_inj.mp (hq.symm.trans hp)
    exact congrFun hzero o

omit [DecidableEq κ] in
theorem Sound.resized_of_dealloc (h : Sound endFrame others s) {newsz : UInt32}
    (hsize : (newsz.toNat : ℤ) = s.sz.toNat + n.toInt) (hlt : newsz < s.sz)
    (hinv : Inv endFrame others t 0)
    (hd : Dealloc s (fun w => (newsz.toNat + 4095) / 4096 ≤ w ∧ PGSIZE * w < s.sz.toNat) t) :
    Resized s n { t with sz := newsz } := by
  have hlt' := UInt32.lt_iff_toNat_lt.mp hlt
  have hle := h.size_le
  have hsmall : newsz < KERNBASE := UInt32.lt_trans hlt h.size
  have hnew : ∀ w, w < (newsz.toNat + 4095) / 4096 ↔ PGSIZE * w < newsz.toNat := fun w => by
    change _ ↔ 4096 * w < _
    omega
  have hkept : ∀ w < userPages, PGSIZE * w < newsz.toNat →
      t.pte (PGSIZE * w) = s.pte (PGSIZE * w) :=
    fun w hw hlow => hd.kept w hw fun hP => absurd ((hnew w).mpr hlow) (not_lt.mpr hP.1)
  have hnone : ∀ w < userPages, ¬ PGSIZE * w < newsz.toNat → t.pte (PGSIZE * w) = none := by
    intro w hw hhigh
    by_cases hold : PGSIZE * w < s.sz.toNat
    · exact hd.gone w hw ⟨not_lt.mp (mt (hnew w).mp hhigh), hold⟩
    · rw [hd.kept w hw fun hP => hold hP.2, h.pte_none_iff hw]
      change ¬ 4096 * w < _ at hold
      omega
  refine ⟨hsize, hsmall, fun v hv => ?_, fun a ha => ?_, fun v hv hold p hp o _ => ?_⟩
  · change (t.pte (PGSIZE * v)).isSome ↔ PGSIZE * v < (PGROUNDUP newsz).toNat
    rw [lt_PGROUNDUP (hlt'.le.trans hle)]
    by_cases hlow : PGSIZE * v < newsz.toNat
    · rw [hkept v hv hlow, h.mapped v hv, lt_PGROUNDUP hle]
      exact iff_of_true (hlow.trans hlt') hlow
    · rw [hnone v hv hlow]
      exact iff_of_false Bool.false_ne_true hlow
  · have ha' : a < newsz.toNat := ha.trans_le (min_le_right _ _)
    have hlow : PGSIZE * (a / PGSIZE) < newsz.toNat := (Nat.mul_div_le a PGSIZE).trans_lt ha'
    have hv : a / PGSIZE < userPages :=
      Nat.lt_of_mul_lt_mul_left ((hlow.trans hlt').trans_le hle)
    have hpte := hkept _ hv hlow
    exact byteAt_congr hpte fun p hp => hd.page _ (hinv.frame_not_mem hv (hpte.trans hp))
  · by_cases hlow : PGSIZE * v < newsz.toNat
    · have hpte := hkept v hv hlow
      rw [hold, show t.pte (PGSIZE * v) = some p from hp] at hpte
      cases hpte
    · have hpte := hnone v hv hlow
      rw [show t.pte (PGSIZE * v) = some p from hp] at hpte
      cases hpte

omit [DecidableEq κ] in
theorem Unchanged.refl (h : Sound endFrame others s) : Unchanged s s :=
  h.extends.unchanged h.inv h.inv

theorem growproc_grow (h : Sound endFrame others s)
    (hn : 0 < n.toInt) : SbrkExact endFrame s n := by
  have hcases := toInt_cases n
  have hnat := n.toUInt32.toNat_lt
  have hsz := UInt32.lt_iff_toNat_lt.mp h.size
  change _ < 2147483648 at hsz
  have hsum : (s.sz + n.toUInt32).toNat = s.sz.toNat + n.toUInt32.toNat := by
    rw [UInt32.toNat_add]
    split_ifs at hcases with hsmall
    · omega
    · omega
  have hint : ((s.sz + n.toUInt32).toNat : ℤ) = s.sz.toNat + n.toInt := by
    rw [hsum]
    split_ifs at hcases
    · omega
    · omega
  have hlt : s.sz < s.sz + n.toUInt32 := by
    rw [UInt32.lt_iff_toNat_lt]
    omega
  rw [SbrkExact, Space.growproc, if_pos (zero_lt_iff.mpr hn), Space.allocuvm]
  by_cases hbig : KERNBASE ≤ s.sz + n.toUInt32
  · rw [if_pos hbig]
    exact ⟨-1, s, rfl, .inr ⟨rfl, .refl h⟩⟩
  · have hsmall : s.sz + n.toUInt32 < KERNBASE := UInt32.not_le.mp hbig
    have hle : (s.sz + n.toUInt32).toNat ≤ PGSIZE * userPages :=
      (UInt32.lt_iff_toNat_lt.mp hsmall).le
    rw [if_neg hbig, if_neg (UInt32.not_lt.mpr (UInt32.le_of_lt hlt)), PGROUNDUP_toNat h.size_le]
    obtain ⟨r, t, ht, hinv, ⟨rfl, u, he, hu⟩ | ⟨rfl, he⟩⟩ := allocLoop_spec h.inv hlt hle rfl
      (s.sz + n.toUInt32).toNat s _ h.extends h.inv (Nat.le_add_left _ _) fun w hw hlt => by omega
    · have hne : ¬ s.sz + n.toUInt32 = 0 := fun heq => by
        rw [heq] at hlt
        exact absurd hlt (UInt32.not_lt.mpr (UInt32.zero_le))
      rw [ht, ok_bind]
      dsimp only
      rw [if_neg hne]
      exact ⟨0, _, rfl, .inl ⟨rfl, h.resized_of_extends hint hsmall (UInt32.le_of_lt hlt) he hu⟩⟩
    · rw [ht, ok_bind]
      exact ⟨-1, t, rfl, .inr ⟨rfl, he.unchanged h.inv hinv⟩⟩

theorem growproc_shrink (h : Sound endFrame others s) (hn : n.toInt < 0)
    (hle : 0 ≤ s.sz.toNat + n.toInt) :
    ∃ newsz t, (newsz.toNat : ℤ) = s.sz.toNat + n.toInt ∧ newsz < s.sz ∧ Inv endFrame others t 0 ∧
      Dealloc s (fun w => (newsz.toNat + 4095) / 4096 ≤ w ∧ PGSIZE * w < s.sz.toNat) t ∧
      s.growproc endFrame n = .ok (if newsz = 0 then (-1, t) else (0, { t with sz := newsz })) := by
  have hcases := toInt_cases n
  have hnat := n.toUInt32.toNat_lt
  have hsz := s.sz.toNat_lt
  have hint : ((s.sz + n.toUInt32).toNat : ℤ) = s.sz.toNat + n.toInt := by
    rw [UInt32.toNat_add]
    split_ifs at hcases
    · omega
    · omega
  have hlt : s.sz + n.toUInt32 < s.sz := by
    rw [UInt32.lt_iff_toNat_lt]
    omega
  obtain ⟨t, ht, hinv, hd⟩ := deallocuvm_spec h.inv hlt h.size_le
  refine ⟨s.sz + n.toUInt32, t, hint, hlt, hinv, hd, ?_⟩
  rw [Space.growproc, if_neg (fun h => absurd (zero_lt_iff.mp h) (by omega)),
    if_pos (lt_zero_iff.mpr hn),
    ht, ok_bind]
  dsimp only
  by_cases hzero : s.sz + n.toUInt32 = 0
  · rw [if_pos hzero, if_pos hzero]
  · rw [if_neg hzero, if_neg hzero]

theorem growproc_below (endFrame : ℕ) (hn : n.toInt < 0) (hsize : s.sz < KERNBASE)
    (hneg : s.sz.toNat + n.toInt < 0) :
    s.growproc endFrame n = .ok (if s.sz = 0 then (-1, s) else (0, s)) := by
  have hcases := toInt_cases n
  have hnat := n.toUInt32.toNat_lt
  have hsz := UInt32.lt_iff_toNat_lt.mp hsize
  change _ < 2147483648 at hsz
  have hle : s.sz ≤ s.sz + n.toUInt32 := by
    rw [UInt32.le_iff_toNat_le, UInt32.toNat_add]
    split_ifs at hcases
    · omega
    · omega
  rw [Space.growproc, if_neg (fun h => absurd (zero_lt_iff.mp h) (by omega)),
    if_pos (lt_zero_iff.mpr hn),
    Space.deallocuvm, if_pos hle, ok_bind]
  dsimp only
  by_cases hzero : s.sz = 0
  · rw [if_pos hzero, if_pos hzero]
  · rw [if_neg hzero, if_neg hzero]

theorem growproc_negative (h : Sound endFrame others s) (hn : n.toInt < 0) :
    SbrkExact endFrame s n ↔ ¬ ShrinksToNothing s n := by
  by_cases hneg : s.sz.toNat + n.toInt < 0
  · have hgrow := growproc_below endFrame hn h.size hneg
    by_cases hzero : s.sz = 0
    · rw [if_pos hzero] at hgrow
      refine iff_of_true ⟨-1, s, hgrow, .inr ⟨rfl, .refl h⟩⟩ fun hs => ?_
      rw [ShrinksToNothing, hzero] at hs
      exact absurd hs.2.1 (lt_irrefl 0)
    · rw [if_neg hzero] at hgrow
      have hpos : 0 < s.sz.toNat := Nat.pos_of_ne_zero fun heq => hzero (UInt32.toNat.inj heq)
      refine iff_of_false ?_ (not_not.mpr ⟨hn, hpos, hneg.le⟩)
      rintro ⟨r, t, hr, ⟨-, hresized⟩ | ⟨hminus, -⟩⟩
      · rw [hgrow] at hr
        cases hr
        have hsize := hresized.size
        omega
      · rw [hgrow] at hr
        cases hr
        cases hminus
  · obtain ⟨newsz, t, hint, hlt, hinv, hd, hgrow⟩ := growproc_shrink h hn (not_lt.mp hneg)
    have hlt' := UInt32.lt_iff_toNat_lt.mp hlt
    by_cases hzero : newsz = 0
    · rw [if_pos hzero] at hgrow
      rw [hzero] at hint hlt' hd
      change ((0 : ℕ) : ℤ) = _ at hint
      change 0 < _ at hlt'
      refine iff_of_false ?_ (not_not.mpr ⟨hn, hlt', by omega⟩)
      rintro ⟨r, u, hr, ⟨hplus, -⟩ | ⟨-, hunchanged⟩⟩
      · rw [hgrow] at hr
        cases hr
        cases hplus
      · rw [hgrow] at hr
        cases hr
        have hgone := hd.gone 0 (by decide) ⟨le_rfl, hlt'⟩
        rw [hunchanged.mapped 0 (by decide), h.pte_none_iff (by decide)] at hgone
        omega
    · rw [if_neg hzero] at hgrow
      have hpos : 0 < newsz.toNat := Nat.pos_of_ne_zero fun heq => hzero (UInt32.toNat.inj heq)
      refine iff_of_true ⟨0, _, hgrow, .inl ⟨rfl, h.resized_of_dealloc hint hlt hinv hd⟩⟩ fun hs =>
        ?_
      have hle := hs.2.2
      omega

/-- `growproc` resizes a process exactly or leaves it as it was, unless it is asked to take
everything or more from a process that has something. -/
theorem growproc_exact_iff (h : Sound endFrame others s) (n : Int32) :
    SbrkExact endFrame s n ↔ ¬ ShrinksToNothing s n := by
  rcases lt_trichotomy n.toInt 0 with hn | hn | hn
  · exact growproc_negative h hn
  · have hnot : ¬ 0 < n ∧ ¬ n < 0 := by
      rw [zero_lt_iff, lt_zero_iff, hn]
      exact ⟨lt_irrefl 0, lt_irrefl 0⟩
    refine iff_of_true ⟨0, s, ?_, .inl ⟨rfl, ⟨?_, h.size, h.mapped, fun _ _ => rfl, ?_⟩⟩⟩ fun hs =>
      ?_
    · rw [Space.growproc, if_neg hnot.1, if_neg hnot.2]
    · rw [hn, add_zero]
    · intro v hv hnone p hp
      rw [hnone] at hp
      cases hp
    · have hlt := hs.1
      omega
  · refine iff_of_true (growproc_grow h hn) fun hs => ?_
    have hlt := hs.1
    omega

def onePage : Space where
  sz := 4096
  pgdir := fun d => if d = 0 then some ⟨2, fun k => if k = 0 then some ⟨1, userPerm⟩ else none⟩
    else none
  freelist := []
  page := fun _ _ => 7

/-- The pages behind the first three belong to something else. -/
def elsewhere (k : ℕ) : ℕ := if 3 ≤ k ∧ k < stopFrame then k else 0

theorem onePage_pte (v : ℕ) : onePage.pte (PGSIZE * v) = if v = 0 then some ⟨1, userPerm⟩
    else none := by
  rw [Space.pte, PDX_page, PTX_page]
  change (if v / 1024 = 0 then some _ else none : Option PageTable).bind _ = _
  by_cases hd : v / 1024 = 0
  · have hv : v % 1024 = v := by omega
    rw [if_pos hd, Option.bind_some, hv]
  · rw [if_neg hd, Option.bind_none, if_neg (by omega)]

theorem onePage_refs (k : Slot ℕ) : refs elsewhere onePage 0 k =
    match k with
    | .user v => if v = 0 then 1 else 0
    | .table d => if d = 0 then 2 else 0
    | .hand => 0
    | .other k => elsewhere k := by
  cases k with
  | user v =>
      rw [refs, onePage_pte]
      by_cases hv : v = 0
      · rw [hv]
        rfl
      · rw [if_neg hv]
        dsimp only
        rw [if_neg hv]
        exact ite_self 0
  | table d =>
      change ((if d = 0 then some _ else none : Option PageTable).map _).getD 0 =
        if d = 0 then 2 else 0
      split_ifs
      · rfl
      · rfl
  | hand => rfl
  | other k => rfl

def ownerOf (f : ℕ) : Slot ℕ := if f = 1 then .user 0 else if f = 2 then .table 0 else .other f

theorem onePage_owner (k : Slot ℕ) (hk : refs elsewhere onePage 0 k ≠ 0) :
    1 ≤ refs elsewhere onePage 0 k ∧ refs elsewhere onePage 0 k < stopFrame ∧
      k = ownerOf (refs elsewhere onePage 0 k) := by
  rw [onePage_refs] at hk ⊢
  cases k with
  | user v =>
      dsimp only at hk ⊢
      split_ifs at hk ⊢ with hv
      · rw [hv]
        exact ⟨le_rfl, by decide, rfl⟩
      · exact absurd rfl hk
  | table d =>
      dsimp only at hk ⊢
      split_ifs at hk ⊢ with hd
      · rw [hd]
        exact ⟨by decide, by decide, rfl⟩
      · exact absurd rfl hk
  | hand => exact absurd rfl hk
  | other k =>
      dsimp only [elsewhere] at hk ⊢
      split_ifs at hk ⊢ with hlt
      · rw [ownerOf, if_neg (by omega), if_neg (by omega)]
        exact ⟨by omega, hlt.2, rfl⟩
      · exact absurd rfl hk

theorem onePage_owns : Owns 1 stopFrame (fun f => f ∉ onePage.freelist)
    (refs elsewhere onePage 0) := by
  refine ⟨Nat.one_pos, fun b hb => ⟨fun _ => ?_, fun _ => List.not_mem_nil⟩, fun k hk =>
    ⟨(onePage_owner k hk).1, (onePage_owner k hk).2.1⟩, fun k l hk hkl => ?_⟩
  · rcases (by omega : b = 0 ∨ b = 1 ∨ b = 2 ∨ 3 ≤ b) with rfl | rfl | rfl | hb'
    · exact .inl Nat.one_pos
    · exact .inr ⟨.user 0, onePage_refs _⟩
    · exact .inr ⟨.table 0, onePage_refs _⟩
    · exact .inr ⟨.other b, if_pos ⟨hb', hb⟩⟩
  · rw [(onePage_owner k hk).2.2, hkl, ← (onePage_owner l (hkl ▸ hk)).2.2]

theorem onePage_sound : Sound 1 elsewhere onePage := by
  refine ⟨⟨List.nodup_nil, fun f hf => absurd hf List.not_mem_nil, onePage_owns, fun v _ p hp => ?_,
    fun d t ht => ?_⟩, by decide, fun v hv => ?_⟩
  · rw [onePage_pte] at hp
    split_ifs at hp
    cases hp
    exact Nat.one_ne_zero
  · change (if d = 0 then some _ else none : Option PageTable) = some t at ht
    split_ifs at ht
    cases ht
    exact two_ne_zero
  · have hup : (PGROUNDUP onePage.sz).toNat = 4096 := by decide
    rw [onePage_pte, hup]
    change _ ↔ 4096 * v < 4096
    split_ifs with hv
    · rw [hv]
      exact iff_of_true rfl (by decide)
    · exact iff_of_false Bool.false_ne_true (by omega)

theorem growproc_exact_iff_one_page : SbrkExact 1 onePage (-1) :=
  (growproc_exact_iff onePage_sound (-1)).mpr fun h => absurd h.2.2 (by decide)

/-- Taking the whole page, and taking more than there is. -/
theorem one_page_not_exact : Sound 1 elsewhere onePage ∧ ¬ SbrkExact 1 onePage (-4096) ∧
    ¬ SbrkExact 1 onePage (-8192) := by
  refine ⟨onePage_sound, fun h => ?_, fun h => ?_⟩
  · exact (growproc_negative onePage_sound (by decide)).mp h ⟨by decide, by decide, by decide⟩
  · exact (growproc_negative onePage_sound (by decide)).mp h ⟨by decide, by decide, by decide⟩

end Growproc

end VirtualMemory

end Xv6Fairness
