import Xv6Fairness.PageViews

/-!
# Page directories of one process

What the functions of `vm.c` do to the view of the process that runs them. They edit one page
directory and leave the others and the pages in hand alone.
-/

namespace Xv6Fairness

open ThreadPrograms VirtualMemory.Space
open VirtualMemory (PDX PTX PGSIZE PGADDR PGROUNDUP PGROUNDDOWN NPDENTRIES userPages userPerm
  nextPage Pte PageTable Kmap kmap Inode Proghdr chunk sub_chunk_lt lt_nextPage lt_PGADDR Ascending
  Linked kmap_ascending PGROUNDUP_toNat PGROUNDDOWN_page page_count)

namespace SharedMemory

/-- Page directories outside `D` and pages in hand are kept. -/
structure Kept (D : ℕ → Prop) (v w : View) : Prop where
  tree : ∀ d T, v.tree d = some T → ¬ D d → w.tree d = some T
  hand : v.hand ⊆ w.hand
  stale : w.stale = none
  claims : w.claims = v.claims

/-- The directory `d` may have other entries. -/
structure Edited (d : ℕ) (T : Tree) (v w : View) : Prop where
  kept : Kept (· = d) v w
  self : ∃ T', w.tree d = some T' ∧ T'.dir.live = T.dir.live ∧ T'.freed = T.freed

variable {p : Fin NPROC} {v w x : View} {d a n : ℕ} {T T' : Tree} {D E : ℕ → Prop}

theorem Kept.refl (hs : v.stale = none) : Kept D v v := ⟨fun _ _ h _ => h, subset_rfl, hs, rfl⟩

theorem Kept.trans (h : Kept D v w) (h' : Kept D w x) : Kept D v x :=
  ⟨fun d T hT hd => h'.tree d T (h.tree d T hT hd) hd, h.hand.trans h'.hand, h'.stale,
    h'.claims.trans h.claims⟩

theorem Kept.mono (h : Kept D v w) (hDE : ∀ d T, v.tree d = some T → D d → E d) : Kept E v w :=
  ⟨fun d T hT hd => h.tree d T hT fun hD => hd (hDE d T hT hD), h.hand, h.stale, h.claims⟩

theorem Edited.refl (hs : v.stale = none) (hT : v.tree d = some T) : Edited d T v v :=
  ⟨.refl hs, T, hT, rfl, rfl⟩

theorem Edited.trans (h : Edited d T v w) (hlive : T'.dir.live = T.dir.live)
    (hfreed : T'.freed = T.freed)
    (h' : Edited d T' w x) : Edited d T v x := by
  obtain ⟨T'', hT'', hl, hf⟩ := h'.self
  exact ⟨h.kept.trans h'.kept, T'', hT'', hl.trans hlive, hf.trans hfreed⟩

theorem Edited.setTree (hs : v.stale = none) (hlive : T'.dir.live = T.dir.live)
    (hfreed : T'.freed = T.freed) :
    Edited d T v (v.setTree d (some T')) :=
  ⟨⟨fun _ _ hT hd => (View.setTree_of_ne hd).trans hT, subset_rfl, hs, rfl⟩, T',
    View.setTree_self, hlive,
    hfreed⟩

theorem panic_safe {α : Type} {post : α → View → Prop} (hs : v.stale = none) :
    (panic : Kernel α).Safe (Rule p) post v := ⟨_, .plain hs .panic, fun r => nomatch r⟩

theorem walkpgdir_safe (hs : v.stale = none) (hT : v.tree d = some T) (a : ℕ) (alloc : Bool) :
    (walkpgdir d a alloc).Safe (Rule p) (fun _ w => Edited d T v w) v := by
  refine .act (.plain hs (.load hT)) ?_
  rintro _ _ ⟨rfl, rfl⟩
  split_ifs
  · exact .refl hs hT
  · refine .act (.plain hs .kalloc) ?_
    rintro (_ | f) w hw
    · subst hw
      exact .refl hs hT
    · obtain ⟨hf, -, rfl⟩ := hw
      refine .act (.plain hs (.setPde hT (Set.mem_insert f _))) ?_
      rintro _ _ rfl
      refine ⟨⟨fun e T' hT' he => (View.setTree_of_ne he).trans hT', fun g hg => ?_, hs, rfl⟩, _,
        View.setTree_self, rfl, rfl⟩
      exact ⟨.inr hg, fun heq => hf (heq ▸ hg)⟩
  · exact .refl hs hT

theorem lookup_safe (hs : v.stale = none) (hT : v.tree d = some T) (a : ℕ) :
    (walkpgdir d a false).Safe (Rule p) (fun _ w => w = v) v := by
  refine .act (.plain hs (.load hT)) ?_
  rintro _ _ ⟨rfl, rfl⟩
  split_ifs with htable hfalse
  · rfl
  · exact hfalse.elim
  · rfl

theorem pte_safe (hs : v.stale = none) (hT : v.tree d = some T) (a : ℕ) :
    (pte d a).Safe (Rule p) (fun r w => r = T.dir.pte a ∧ w = v) v := by
  refine .act (.plain hs (.load hT)) ?_
  rintro _ _ ⟨rfl, rfl⟩
  exact ⟨rfl, rfl⟩

theorem mapPage_safe (hs : v.stale = none) (hT : v.tree d = some T) {f : ℕ} (hf : f ∈ v.hand)
    (a perm : UInt32) :
    (mapPage d a f perm).Safe (Rule p)
      (fun r w => Edited d T (v.drop f) w ∧ (r < 0 → f ∈ w.hand)) v := by
  refine (walkpgdir_safe hs hT a.toNat true).bind ?_
  rintro b w ⟨hkept, T₁, hT₁, hlive, hfreed⟩
  have hfw : f ∈ w.hand := hkept.hand hf
  have hdrop : Kept (· = d) (v.drop f) w :=
    ⟨hkept.tree, Set.sdiff_subset.trans hkept.hand, hkept.stale, hkept.claims⟩
  cases b with
  | false => exact ⟨⟨hdrop, T₁, hT₁, hlive, hfreed⟩, fun _ => hfw⟩
  | true =>
      rw [if_pos rfl]
      refine (pte_safe hkept.stale hT₁ a.toNat).bind ?_
      rintro q _ ⟨-, rfl⟩
      split_ifs
      · exact panic_safe hkept.stale
      · refine .act (.plain hkept.stale (.map hT₁ hfw)) ?_
        rintro _ _ rfl
        refine ⟨⟨⟨fun e T' hT' he => ?_, fun g hg => ⟨hkept.hand hg.1, hg.2⟩, hkept.stale,
          hkept.claims⟩, _,
          View.setTree_self, hlive, hfreed⟩, fun hneg => absurd hneg (lt_irrefl 0)⟩
        exact (View.setTree_of_ne he).trans (hkept.tree e T' hT' he)

theorem mapPage_kernel_safe (hs : v.stale = none) (hT : v.tree d = some T) (f : ℕ) {a : UInt32}
    (ha : userTables ≤ PDX a.toNat) (perm : UInt32) :
    (mapPage d a f perm).Safe (Rule p) (fun _ w => Edited d T v w) v := by
  refine (walkpgdir_safe hs hT a.toNat true).bind ?_
  rintro b w hw
  obtain ⟨T₁, hT₁, hlive, hfreed⟩ := hw.self
  cases b with
  | false => exact hw
  | true =>
      rw [if_pos rfl]
      refine (pte_safe hw.kept.stale hT₁ a.toNat).bind ?_
      rintro q _ ⟨-, rfl⟩
      split_ifs
      · exact panic_safe hw.kept.stale
      · refine .act (.plain hw.kept.stale (.mapKernel hT₁ ha)) ?_
        rintro _ _ rfl
        exact hw.trans hlive hfreed (.setTree hw.kept.stale rfl rfl)

theorem mappages_safe (hs : v.stale = none) (hT : v.tree d = some T) {f : ℕ} (hf : f ∈ v.hand)
    {va : UInt32}
    (hva : va.toNat % PGSIZE = 0) (perm : UInt32) :
    (mappages d va 4096 f perm).Safe (Rule p)
      (fun r w => Edited d T (v.drop f) w ∧ (r < 0 → f ∈ w.hand)) v := by
  have hlt := va.toNat_lt
  have hpage : va.toNat = PGSIZE * (va.toNat / PGSIZE) :=
    (Nat.mul_div_cancel' (Nat.dvd_of_mod_eq_zero hva)).symm
  have hsize : (4096 : UInt32).toNat = PGSIZE * (0 + 1) := rfl
  have hcount := page_count hpage hsize (by
    change va.toNat / 4096 + 0 < 2 ^ 20
    omega)
  rw [mappages, hcount, PGROUNDDOWN_page hpage]
  exact mapPage_safe hs hT hf va perm

theorem mapLoop_kernel_safe (perm : UInt32) : ∀ (n : ℕ) {v : View} {T : Tree} {a : UInt32} (f : ℕ),
    v.stale = none → v.tree d = some T → 0x80000000 ≤ a.toNat → a.toNat + 4096 * n < 2 ^ 32 →
    (mapLoop d a f perm n).Safe (Rule p) (fun _ w => Edited d T v w) v
  | 0, v, T, a, f, hs, hT, ha, _ => mapPage_kernel_safe hs hT f (by
      change 512 ≤ a.toNat / 2 ^ 22
      omega) perm
  | n + 1, v, T, a, f, hs, hT, ha, hn => by
      have hnext : (a + 4096).toNat = a.toNat + 4096 := by
        rw [UInt32.toNat_add]
        change (a.toNat + 4096) % 2 ^ 32 = _
        omega
      rw [mapLoop]
      refine (mapPage_kernel_safe hs hT f (by
        change 512 ≤ a.toNat / 2 ^ 22
        omega) perm).bind ?_
      rintro r w hw
      split_ifs
      · exact hw
      · obtain ⟨T₁, hT₁, hlive, hfreed⟩ := hw.self
        refine (mapLoop_kernel_safe perm n (f + 1) hw.kept.stale hT₁ (by omega) (by omega)).mono ?_
        exact fun _ x hx => hw.trans hlive hfreed hx

theorem mapKernel_safe : ∀ (ks : List Kmap) {v : View} {T : Tree} {lo : ℕ}, v.stale = none →
    v.tree d = some T → userPages ≤ lo → Ascending lo ks →
    (mapKernel d ks).Safe (Rule p) (fun _ w => Edited d T v w) v
  | [], v, T, _, hs, hT, _, _ => .refl hs hT
  | k :: ks, v, T, lo, hs, hT, hlo, ⟨b, n, hb, hn, hva, hsize, hks⟩ => by
      have hpage : 0x80000 ≤ b := hlo.trans hb
      have hva' : k.virt.toNat = 4096 * b := hva
      rw [mapKernel, mappages, page_count hva hsize hn, PGROUNDDOWN_page hva]
      refine (mapLoop_kernel_safe k.perm n _ hs hT (by omega) (by omega)).bind ?_
      rintro r w hw
      split_ifs
      · exact hw
      · obtain ⟨T₁, hT₁, hlive, hfreed⟩ := hw.self
        refine (mapKernel_safe ks hw.kept.stale hT₁ (by omega) hks).mono ?_
        exact fun _ x hx => hw.trans hlive hfreed hx

theorem unmap_safe {post : Unit → View → Prop} (hs : v.stale = none) (hT : v.tree d = some T)
    {q : Pte}
    (ha : PDX a < userTables) (hq : T.dir.pte a = some q) {k : Kernel Unit}
    (hk : ∀ w, Edited d T v w → k.Safe (Rule p) post w) :
    (do
      act (.kfree q.frame)
      act (.setPte d a none)
      k).Safe (Rule p) post v := by
  refine .act (.plain hs (.kfreeUser hT ha hq)) ?_
  rintro _ _ rfl
  refine .act (.unmap (v := v.setStale _) hT rfl) ?_
  rintro _ _ rfl
  refine hk _ ⟨⟨fun e T' hT' he => (View.setTree_of_ne he).trans hT', subset_rfl, rfl, rfl⟩, _,
    View.setTree_self, rfl, rfl⟩

theorem deallocLoop_safe {oldsz : ℕ} (hle : oldsz ≤ 0x80000000) : ∀ (n a : ℕ) {v : View} {T : Tree},
    oldsz ≤ n + a → v.stale = none → v.tree d = some T →
    (deallocLoop d oldsz a).Safe (Rule p) (fun _ w => Edited d T v w) v := by
  intro n
  induction n with
  | zero =>
      intro a v T hn hs hT
      rw [deallocLoop, if_neg (by omega)]
      exact .refl hs hT
  | succ n ih =>
      intro a v T hn hs hT
      rw [deallocLoop]
      split_ifs with ha
      · have hnext : a < nextPage a := lt_nextPage a
        have hdir : a < PGADDR (PDX a + 1) := lt_PGADDR a
        refine (walkpgdir_safe hs hT a false).bind ?_
        rintro b w hw
        obtain ⟨T₁, hT₁, hlive, hfreed⟩ := hw.self
        cases b with
        | false =>
            rw [if_neg Bool.false_ne_true]
            refine (ih _ (by omega) hw.kept.stale hT₁).mono ?_
            exact fun _ x hx => hw.trans hlive hfreed hx
        | true =>
            rw [if_pos rfl]
            refine (pte_safe hw.kept.stale hT₁ a).bind ?_
            rintro q _ ⟨hq, rfl⟩
            cases q with
            | none =>
                dsimp only
                refine (ih _ (by omega) hw.kept.stale hT₁).mono ?_
                exact fun _ x hx => hw.trans hlive hfreed hx
            | some q =>
                dsimp only
                split_ifs
                · exact panic_safe hw.kept.stale
                · refine unmap_safe hw.kept.stale hT₁ (by change a / 2 ^ 22 < 512; omega) hq.symm ?_
                  intro x hx
                  obtain ⟨T₂, hT₂, hlive', hfreed'⟩ := hx.self
                  refine (ih _ (by omega) hx.kept.stale hT₂).mono ?_
                  exact fun _ y hy => hw.trans hlive hfreed (hx.trans hlive' hfreed' hy)
      · exact .refl hs hT

theorem deallocuvm_safe {oldsz newsz : UInt32} (hle : oldsz ≤ KERNBASE) (hs : v.stale = none)
    (hT : v.tree d = some T) :
    (deallocuvm d oldsz newsz).Safe (Rule p) (fun r w => Edited d T v w ∧ r ≤ KERNBASE) v := by
  rw [deallocuvm]
  split_ifs with hge
  · exact ⟨.refl hs hT, hle⟩
  · refine (deallocLoop_safe (UInt32.le_iff_toNat_le.mp hle) oldsz.toNat _
      (Nat.le_add_right _ _) hs hT).bind ?_
    intro _ w hw
    exact ⟨hw, UInt32.le_trans (UInt32.le_of_lt (UInt32.not_le.mp hge)) hle⟩

theorem Kept.of_take {f : ℕ} (hf : f ∉ v.hand) (h : Kept D ((v.take f).drop f) w) : Kept D v w :=
  ⟨h.tree, fun _ hg => h.hand ⟨.inr hg, fun heq => hf (heq ▸ hg)⟩, h.stale, h.claims⟩

theorem Kept.drop {f : ℕ} (h : Kept D v w) (hf : f ∉ v.hand) : Kept D v (w.drop f) :=
  ⟨h.tree, fun _ hg => ⟨h.hand hg, fun heq => hf (heq ▸ hg)⟩, h.stale, h.claims⟩

theorem allocLoop_safe {oldsz newsz : UInt32} (hle : newsz ≤ KERNBASE) : ∀ (n a : ℕ) {v : View}
    {T : Tree},
    newsz.toNat ≤ n + a → a % PGSIZE = 0 → v.stale = none → v.tree d = some T →
    (allocLoop d oldsz newsz a).Safe (Rule p) (fun r w => Edited d T v w ∧ r ≤ KERNBASE) v := by
  have hzero : (0 : UInt32) ≤ KERNBASE := by decide
  intro n
  induction n with
  | zero =>
      intro a v T hn _ hs hT
      rw [allocLoop, if_neg (by omega)]
      exact ⟨.refl hs hT, hle⟩
  | succ n ih =>
      intro a v T hn ha hs hT
      have hlt : a < nextPage a := lt_nextPage a
      rw [allocLoop]
      split_ifs with hmore
      · refine .act (.plain hs .kalloc) ?_
        rintro (_ | f) w hw
        · subst hw
          dsimp only
          refine (deallocuvm_safe hle hs hT).bind ?_
          rintro _ w ⟨hw, -⟩
          exact ⟨hw, hzero⟩
        · obtain ⟨hf, -, rfl⟩ := hw
          dsimp only
          have hnat : (UInt32.ofNat a).toNat = a := by
            have h32 := newsz.toNat_lt
            exact Nat.mod_eq_of_lt (hmore.trans h32)
          refine (mappages_safe (v := v.take f) hs hT (Set.mem_insert f _)
            (by rw [hnat]; exact ha) _).bind ?_
          rintro r w ⟨⟨hkept, T₁, hT₁, hlive, hfreed⟩, hhand⟩
          have hw : Edited d T v w := ⟨hkept.of_take hf, T₁, hT₁, hlive, hfreed⟩
          split_ifs with hneg
          · refine (deallocuvm_safe hle hw.kept.stale hT₁).bind ?_
            rintro _ x ⟨hx, -⟩
            refine .act (.plain hx.kept.stale (.kfree (hx.kept.hand (hhand hneg)))) ?_
            rintro _ _ rfl
            have hall := hw.trans hlive hfreed hx
            exact ⟨⟨hall.kept.drop hf, hall.self⟩, hzero⟩
          · refine (ih _ (by omega) ?_ hw.kept.stale hT₁).mono ?_
            · change (a + 4096) % 4096 = 0
              change a % 4096 = 0 at ha
              omega
            · exact fun _ x hx => ⟨hw.trans hlive hfreed hx.1, hx.2⟩
      · exact ⟨.refl hs hT, hle⟩

theorem PGROUNDUP_mod (sz : UInt32) : (PGROUNDUP sz).toNat % PGSIZE = 0 := by
  rw [PGROUNDUP, UInt32.toNat_mul, UInt32.toNat_div]
  have hlt := (sz + 4095).toNat_lt
  change (sz + 4095).toNat / 4096 * 4096 % 2 ^ 32 % 4096 = 0
  omega

theorem allocuvm_safe {oldsz newsz : UInt32} (hle : oldsz ≤ KERNBASE) (hs : v.stale = none)
    (hT : v.tree d = some T) :
    (allocuvm d oldsz newsz).Safe (Rule p) (fun r w => Edited d T v w ∧ r ≤ KERNBASE) v := by
  rw [allocuvm]
  split_ifs with hbig
  · exact ⟨.refl hs hT, by decide⟩
  · exact ⟨.refl hs hT, hle⟩
  · exact allocLoop_safe (UInt32.le_of_lt (UInt32.not_le.mp hbig)) newsz.toNat _
      (Nat.le_add_right _ _)
      (PGROUNDUP_mod oldsz) hs hT

theorem freeTables_safe : ∀ (is : List ℕ) {v : View} {T : Tree}, v.stale = none →
    v.tree d = some T →
    T.dir.live = false → is.Pairwise (· < ·) → (∀ i ∈ is, T.freed ≤ i) →
    (freeTables d is).Safe (Rule p) (fun _ w => Kept (· = d) v w ∧ ∃ T', w.tree d = some T') v
  | [], v, T, hs, hT, _, _, _ => ⟨.refl hs, T, hT⟩
  | i :: is, v, T, hs, hT, hlive, hsorted, hfreed => by
      obtain ⟨hi, hsorted⟩ := List.pairwise_cons.mp hsorted
      rw [freeTables]
      refine .act (.plain hs (.load hT)) ?_
      rintro _ w ⟨rfl, hw⟩
      rw [hw, Option.bind_some]
      cases ht : T.dir.tables i with
      | none =>
          exact freeTables_safe is hs hT hlive hsorted fun j hj =>
            hfreed j (List.mem_cons_of_mem i hj)
      | some t =>
          refine .act (.plain hs (.kfreeTable hT hlive ht (hfreed i List.mem_cons_self))) ?_
          rintro _ _ rfl
          have hkept : Kept (· = d) v (v.setTree d (some ⟨T.dir, i + 1⟩)) :=
            ⟨fun e T' hT' he => (View.setTree_of_ne he).trans hT', subset_rfl, hs, rfl⟩
          refine (freeTables_safe is (T := ⟨T.dir, i + 1⟩) hkept.stale View.setTree_self
            hlive hsorted
            fun j hj => hi j hj).mono ?_
          exact fun _ x hx => ⟨hkept.trans hx.1, hx.2⟩

theorem freeDir_safe {is : List ℕ} (hsorted : is.Pairwise (· < ·)) (hlive : T.dir.live = false)
    (hfreed : T.freed = 0) (hw : Edited d T v w) :
    (do
      freeTables d is
      act (.kfree d)).Safe (Rule p) (fun _ x => Kept (· = d) v x) w := by
  obtain ⟨T₁, hT₁, hlive₁, hfreed₁⟩ := hw.self
  have hall : ∀ i ∈ is, T₁.freed ≤ i := fun i _ => (hfreed₁.trans hfreed) ▸ Nat.zero_le i
  refine (freeTables_safe is hw.kept.stale hT₁ (hlive₁.trans hlive) hsorted hall).bind ?_
  rintro _ x ⟨hx, T₂, hT₂⟩
  refine (Prog.Safe.perform (.plain hx.stale (.kfreeDir hT₂))).mono ?_
  rintro _ _ rfl
  refine (hw.kept.trans hx).trans ⟨fun e T' hT' he => ?_, subset_rfl, hx.stale, rfl⟩
  exact (View.setTree_of_ne he).trans hT'

theorem freevm_safe (hs : v.stale = none) (hT : v.tree d = some T) (hlive : T.dir.live = true) :
    (freevm d).Safe (Rule p) (fun _ w => Kept (· = d) v w) v := by
  have hle : KERNBASE ≤ KERNBASE := UInt32.le_refl _
  have hsorted : (List.range NPDENTRIES).Pairwise (· < ·) := List.pairwise_lt_range
  rw [freevm]
  -- the list is not to be evaluated
  generalize List.range NPDENTRIES = is at hsorted ⊢
  split_ifs
  · exact panic_safe hs
  · refine .act (.plain hs (.retire hT hlive)) ?_
    rintro _ _ rfl
    have hkept : Kept (· = d) v (v.setTree d (some ⟨{ T.dir with live := false }, 0⟩)) :=
      ⟨fun e T' hT' he => (View.setTree_of_ne he).trans hT', subset_rfl, hs, rfl⟩
    refine (deallocuvm_safe hle hkept.stale View.setTree_self).bind fun _ w hw => ?_
    exact (freeDir_safe hsorted rfl rfl hw.1).mono fun _ x hx => hkept.trans hx

/-- A new directory is made, or everything is as before. -/
def Made (v : View) (r : Option ℕ) (w : View) : Prop :=
  Kept (fun _ => False) v w ∧
    ∀ d, r = some d → v.tree d = none ∧ ∃ T, w.tree d = some T ∧ T.dir.live = true

theorem Kept.of_new (h : Kept (· = d) v w) (hd : v.tree d = none) : Kept (fun _ => False) v w :=
  h.mono fun e T hT he => by
    rw [he, hd] at hT
    cases hT

variable {data : UInt32}

theorem setupkvm_safe (hdata : Linked data) (hs : v.stale = none) :
    (setupkvm data).Safe (Rule p) (Made v) v := by
  rw [setupkvm]
  refine .act (.plain hs .kalloc) ?_
  rintro (_ | d) w hw
  · subst hw
    exact ⟨.refl hs, fun _ h => nomatch h⟩
  · obtain ⟨hd, hnone, rfl⟩ := hw
    refine .act (.plain hs (.newPgdir (Set.mem_insert d _))) ?_
    rintro _ _ rfl
    split_ifs
    · exact panic_safe hs
    · have hkept :
        Kept (· = d) v (((v.take d).drop d).setTree d (some ⟨⟨fun _ => none, true⟩, 0⟩)) :=
        ⟨fun e T' hT' he => (View.setTree_of_ne he).trans hT',
          fun _ hg => ⟨.inr hg, fun heq => hd (heq ▸ hg)⟩, hs, rfl⟩
      refine (mapKernel_safe (kmap data) hkept.stale View.setTree_self le_rfl
        (kmap_ascending hdata)).bind ?_
      rintro r w hw
      obtain ⟨T₁, hT₁, hlive, -⟩ := hw.self
      split_ifs
      · refine (freevm_safe hw.kept.stale hT₁ hlive).bind ?_
        intro _ x hx
        exact ⟨(hkept.trans (hw.kept.trans hx)).of_new hnone, fun _ h => nomatch h⟩
      · refine ⟨(hkept.trans hw.kept).of_new hnone, fun e he => ?_⟩
        cases he
        exact ⟨hnone, T₁, hT₁, hlive⟩

theorem copyLoop_safe {t : ℕ} (htd : d ≠ t) {sz : ℕ} (hle : sz ≤ 0x80000000) : ∀ (n i : ℕ)
    {v : View} {T S : Tree},
    sz ≤ n + i → i % PGSIZE = 0 → v.stale = none → v.tree d = some S → v.tree t = some T →
    (copyLoop d t sz i).Safe (Rule p) (fun _ w => Edited t T v w) v := by
  intro n
  induction n with
  | zero =>
      intro i v T S hn _ hs _ hT
      rw [copyLoop, if_neg (by omega)]
      exact .refl hs hT
  | succ n ih =>
      intro i v T S hn hi hs hS hT
      have hlt : i < nextPage i := lt_nextPage i
      rw [copyLoop]
      split_ifs with hmore
      · refine (lookup_safe hs hS i).bind ?_
        rintro b w hw
        rw [hw]
        split_ifs
        · refine (pte_safe hs hS i).bind ?_
          rintro q w ⟨-, hw⟩
          rw [hw]
          cases q with
          | none => exact panic_safe hs
          | some q =>
              refine .act (.plain hs .kalloc) ?_
              rintro (_ | f) w hw
              · subst hw
                exact .refl hs hT
              · obtain ⟨hf, -, rfl⟩ := hw
                have hnat : (UInt32.ofNat i).toNat = i := Nat.mod_eq_of_lt (by omega)
                refine (mappages_safe (v := v.take f) hs hT (Set.mem_insert f _)
                  (by rw [hnat]; exact hi) _).bind ?_
                rintro r w ⟨⟨hkept, T₁, hT₁, hlive, hfreed⟩, hhand⟩
                have hw := hkept.of_take hf
                split_ifs with hneg
                · refine .act (.plain hw.stale (.kfree (hhand hneg))) ?_
                  rintro _ _ rfl
                  exact ⟨hw.drop hf, T₁, hT₁, hlive, hfreed⟩
                · refine (ih _ (by omega) ?_ hw.stale (hw.tree d S hS htd) hT₁).mono ?_
                  · change (i + 4096) % 4096 = 0
                    change i % 4096 = 0 at hi
                    omega
                  · exact fun _ x hx => Edited.trans ⟨hw, T₁, hT₁, hlive, hfreed⟩ hlive hfreed hx
        · exact panic_safe hs
      · exact .refl hs hT

theorem copyuvm_safe (hdata : Linked data) {sz : UInt32} (hle : sz ≤ KERNBASE) (hs : v.stale = none)
    (hT : v.tree d = some T) : (copyuvm data d sz).Safe (Rule p) (Made v) v := by
  rw [copyuvm]
  refine (setupkvm_safe hdata hs).bind ?_
  rintro (_ | t) w ⟨hw, hnew⟩
  · exact ⟨hw, fun _ h => nomatch h⟩
  · obtain ⟨hnone, T₁, hT₁, hlive⟩ := hnew t rfl
    have hdt : d ≠ t := by
      rintro rfl
      rw [hT] at hnone
      cases hnone
    refine (copyLoop_safe hdt (UInt32.le_iff_toNat_le.mp hle) sz.toNat 0 le_rfl rfl hw.stale
      (hw.tree d T hT id) hT₁).bind ?_
    rintro b x hx
    obtain ⟨T₂, hT₂, hlive₂, -⟩ := hx.self
    have hkept : Kept (· = t) v x := (hw.mono fun _ _ _ h => h.elim).trans hx.kept
    split_ifs
    · refine ⟨hkept.of_new hnone, fun e he => ?_⟩
      cases he
      exact ⟨hnone, T₂, hT₂, hlive₂.trans hlive⟩
    · refine (freevm_safe hx.kept.stale hT₂ (hlive₂.trans hlive)).bind ?_
      intro _ y hy
      exact ⟨(hkept.trans hy).of_new hnone, fun _ h => nomatch h⟩

end SharedMemory

end Xv6Fairness
