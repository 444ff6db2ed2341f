import Xv6Fairness.SpaceSafety

/-!
# System calls and the pages

Each system call is safe in the view of a process in user mode and leaves such a view behind.
-/

namespace Xv6Fairness

open ThreadPrograms VirtualMemory.Space
open VirtualMemory (PDX PTX PGSIZE PGADDR PGROUNDUP PGROUNDDOWN NPDENTRIES userPages nextPage Pte
  PTE_U Inode Proghdr chunk sub_chunk_lt lt_nextPage Linked PGROUNDUP_toNat)

namespace SharedMemory

variable {p k : Fin NPROC} {v w x : View} {d a n : ℕ} {T T' : Tree} {D : ℕ → Prop} {e : Known}

theorem loadLoop_safe (hs : v.stale = none) (hT : v.tree d = some T) (ip : Inode)
    (addr offset sz : UInt32) :
    ∀ (n i : ℕ), sz.toNat ≤ n + i →
    (loadLoop d ip addr offset sz i).Safe (Rule p) (fun _ w => w = v) v := by
  intro n
  induction n with
  | zero =>
      intro i hn
      rw [loadLoop, if_neg (by omega)]
      rfl
  | succ n ih =>
      intro i hn
      have hlt : i < nextPage i := lt_nextPage i
      rw [loadLoop]
      by_cases hmore : i < sz.toNat
      · rw [if_pos hmore]
        refine (lookup_safe hs hT _).bind ?_
        intro b w hw
        rw [hw]
        cases b with
        | false => exact panic_safe hs
        | true =>
            rw [if_pos rfl]
            extract_lets size
            split_ifs
            · exact ih _ (by omega)
            · rfl
      · rw [if_neg hmore]
        rfl

theorem loaduvm_safe (hs : v.stale = none) (hT : v.tree d = some T) (addr : UInt32) (ip : Inode)
    (offset sz : UInt32) : (loaduvm d addr ip offset sz).Safe (Rule p) (fun _ w => w = v) v := by
  rw [loaduvm]
  split_ifs
  · exact panic_safe hs
  · exact loadLoop_safe hs hT ip addr offset sz sz.toNat 0 le_rfl

theorem clearpteu_safe (hs : v.stale = none) (hT : v.tree d = some T) (uva : UInt32) :
    (clearpteu d uva).Safe (Rule p) (fun _ w => Edited d T v w) v := by
  refine (lookup_safe hs hT _).bind ?_
  intro b w hw
  rw [hw]
  split_ifs
  · refine (pte_safe hs hT _).bind ?_
    rintro q w ⟨rfl, hw⟩
    rw [hw]
    have hframe :
        ((T.dir.pte uva.toNat).map fun q => { q with perm := q.perm &&& ~~~PTE_U }).map Pte.frame =
        (T.dir.pte uva.toNat).map Pte.frame := by
      rw [Option.map_map]
      rfl
    refine (Prog.Safe.perform (.plain hs (.protect hT hframe))).mono ?_
    rintro _ _ rfl
    exact .setTree hs rfl rfl
  · exact panic_safe hs

theorem copyout_safe (hs : v.stale = none) (hT : v.tree d = some T) : ∀ (n : ℕ) (va len : UInt32),
    len.toNat ≤ n → (copyout d va len).Safe (Rule p) (fun _ w => w = v) v := by
  intro n
  induction n with
  | zero =>
      intro va len hn
      have hzero : ¬ 0 < len := fun hlt => by
        have hpos : 0 < len.toNat := UInt32.lt_iff_toNat_lt.mp hlt
        omega
      rw [copyout, if_neg hzero]
      rfl
  | succ n ih =>
      intro va len hn
      rw [copyout]
      split_ifs with hpos
      · have hlt : (len - chunk va len).toNat < len.toNat := sub_chunk_lt hpos
        refine (lookup_safe hs hT _).bind ?_
        intro b w hw
        rw [hw]
        split_ifs
        · refine (pte_safe hs hT _).bind ?_
          rintro q w ⟨-, hw⟩
          rw [hw]
          cases q with
          | none => rfl
          | some q =>
              dsimp only
              split_ifs
              · rfl
              · exact ih _ _ (by omega)
        · exact panic_safe hs
      · rfl

theorem loadSegment_safe (hs : v.stale = none) (hT : v.tree d = some T) (ip : Inode) (ph : Proghdr)
    {sz : UInt32}
    (hle : sz ≤ KERNBASE) :
    (loadSegment d ip ph sz).Safe (Rule p)
      (fun r w => Edited d T v w ∧ ∀ sz', r = some sz' → sz' ≤ KERNBASE) v := by
  rw [loadSegment]
  split
  · exact ⟨.refl hs hT, fun sz' h => by cases h; exact hle⟩
  split
  · exact ⟨.refl hs hT, fun _ h => nomatch h⟩
  split
  · exact ⟨.refl hs hT, fun _ h => nomatch h⟩
  refine (allocuvm_safe hle hs hT).bind ?_
  rintro r w ⟨hw, hr⟩
  obtain ⟨T₁, hT₁, -, -⟩ := hw.self
  split_ifs
  · exact ⟨hw, fun _ h => nomatch h⟩
  · exact ⟨hw, fun _ h => nomatch h⟩
  · refine (loaduvm_safe hw.kept.stale hT₁ _ ip _ _).bind ?_
    intro _ x hx
    rw [hx]
    split_ifs
    · exact ⟨hw, fun _ h => nomatch h⟩
    · exact ⟨hw, fun sz' h => by cases h; exact hr⟩

theorem loadProgram_safe (ip : Inode) : ∀ (n : ℕ) {v : View} {T : Tree} (off : UInt32)
    {sz : UInt32},
    v.stale = none → v.tree d = some T → sz ≤ KERNBASE →
    (loadProgram d ip off sz n).Safe (Rule p)
      (fun r w => Edited d T v w ∧ ∀ sz', r = some sz' → sz' ≤ KERNBASE) v
  | 0, _, _, _, _, hs, hT, hle => ⟨.refl hs hT, fun sz' h => by cases h; exact hle⟩
  | n + 1, v, T, off, sz, hs, hT, hle => by
      rw [loadProgram]
      split_ifs
      · exact ⟨.refl hs hT, fun _ h => nomatch h⟩
      · refine (loadSegment_safe hs hT ip _ hle).bind ?_
        rintro (_ | sz') w ⟨hw, hr⟩
        · exact ⟨hw, fun _ h => nomatch h⟩
        · obtain ⟨T₁, hT₁, hlive, hfreed⟩ := hw.self
          refine (loadProgram_safe ip n _ hw.kept.stale hT₁ (hr sz' rfl)).mono ?_
          exact fun _ x hx => ⟨hw.trans hlive hfreed hx.1, hx.2⟩

theorem pushArgs_safe (hs : v.stale = none) (hT : v.tree d = some T) : ∀ (args : List (List UInt8))
    (sp : UInt32)
    (argc : ℕ), (pushArgs d sp argc args).Safe (Rule p) (fun _ w => w = v) v
  | [], _, _ => rfl
  | arg :: args, sp, argc => by
      rw [pushArgs]
      split_ifs
      · rfl
      · refine (copyout_safe hs hT _ _ _ le_rfl).bind ?_
        intro r w hw
        rw [hw]
        split_ifs
        · rfl
        · exact pushArgs_safe hs hT args _ _

theorem PGROUNDUP_le {sz : UInt32} (hle : sz ≤ KERNBASE) : PGROUNDUP sz ≤ KERNBASE := by
  have hnat : sz.toNat ≤ 0x80000000 := UInt32.le_iff_toNat_le.mp hle
  refine UInt32.le_iff_toNat_le.mpr ?_
  rw [PGROUNDUP_toNat hnat]
  change 4096 * ((sz.toNat + 4095) / 4096) ≤ 0x80000000
  omega

theorem buildStack_safe (hs : v.stale = none) (hT : v.tree d = some T) {sz : UInt32}
    (hle : sz ≤ KERNBASE)
    (argv : List (List UInt8)) :
    (buildStack d sz argv).Safe (Rule p)
      (fun r w => Edited d T v w ∧ ∀ sz', r = some sz' → sz' ≤ KERNBASE) v := by
  rw [buildStack]
  refine (allocuvm_safe (PGROUNDUP_le hle) hs hT).bind ?_
  rintro r w ⟨hw, hr⟩
  obtain ⟨T₁, hT₁, hlive, hfreed⟩ := hw.self
  split_ifs
  · exact ⟨hw, fun _ h => nomatch h⟩
  · refine (clearpteu_safe hw.kept.stale hT₁ _).bind ?_
    intro _ x hx
    obtain ⟨T₂, hT₂, -, -⟩ := hx.self
    have hall := hw.trans hlive hfreed hx
    refine (pushArgs_safe hx.kept.stale hT₂ argv _ _).bind ?_
    rintro (_ | sp) y hy
    · rw [hy]
      exact ⟨hall, fun _ h => nomatch h⟩
    · rw [hy]
      refine (copyout_safe hx.kept.stale hT₂ _ _ _ le_rfl).bind ?_
      intro _ z hz
      rw [hz]
      split_ifs
      · exact ⟨hall, fun _ h => nomatch h⟩
      · exact ⟨hall, fun sz' h => by cases h; exact hr⟩

theorem Home.of_kept (h : Home p v) (hw : Kept D v w)
    (hD : ∀ e, v.claims.known p = some e → ¬ D e.pgdir) :
    Home p w := by
  obtain ⟨e, T, he, hT, hlive, hsz⟩ := h
  exact ⟨e, T, hw.claims ▸ he, hw.tree _ T hT (hD e he), hlive, hsz⟩

theorem Home.setKnown (h : Home p v) (hk : k ≠ p) (y : Option Known) : Home p (v.setKnown k y) := by
  obtain ⟨e, T, he, hT, hlive, hsz⟩ := h
  exact ⟨e, T, (View.setKnown_of_ne hk.symm).trans he, hT, hlive, hsz⟩

theorem Home.setTree (h : Home p v) (hd : ∀ e, v.claims.known p = some e → e.pgdir ≠ d)
    (y : Option Tree) :
    Home p (v.setTree d y) := by
  obtain ⟨e, T, he, hT, hlive, hsz⟩ := h
  exact ⟨e, T, he, (View.setTree_of_ne (hd e he)).trans hT, hlive, hsz⟩

theorem Idle.of_kept (h : Idle p v) (hw : Kept D v w)
    (hD : ∀ e, v.claims.known p = some e → ¬ D e.pgdir) :
    Idle p w :=
  ⟨⟨hw.stale, hw.claims ▸ h.lock, hw.claims ▸ h.reaping, hw.claims ▸ h.buffer⟩,
    h.home.of_kept hw hD⟩

theorem Idle.of_edited (h : Idle p v) (he : v.claims.known p = some e) (hlive : T.dir.live = true)
    (hsz : e.sz ≤ KERNBASE) (hw : Edited e.pgdir T v w) : Idle p w := by
  obtain ⟨T₁, hT₁, hlive₁, -⟩ := hw.self
  have hc := hw.kept.claims
  exact ⟨⟨hw.kept.stale, hc ▸ h.lock, hc ▸ h.reaping, hc ▸ h.buffer⟩, e, T₁, hc ▸ he, hT₁,
    hlive₁.trans hlive, hsz⟩

theorem Idle.setSz (h : Idle p v) (he : v.claims.known p = some e) {sz : UInt32}
    (hsz : sz ≤ KERNBASE) :
    Idle p (v.setKnown p (some { e with sz := sz })) := by
  obtain ⟨⟨hs, hl, hr, hb⟩, e', T, he', hT, hlive, -⟩ := h
  rw [he] at he'
  cases he'
  exact ⟨⟨hs, hl, hr, hb⟩, _, T, View.setKnown_self, hT, hlive, hsz⟩

variable {data : UInt32}

theorem growproc_safe (h : Idle p v) (n : Int32) : (growproc p n).Safe (Rule p)
    (fun _ w => Idle p w) v := by
  obtain ⟨e, T, he, hT, hlive, hsz⟩ := h.home
  refine .act (.plain h.stale .proc) ?_
  rintro r w ⟨hr, hw⟩
  obtain rfl := hr e he
  rw [hw]
  have hstore : ∀ {x : View} {sz : UInt32}, Edited r.pgdir T v x → sz ≤ KERNBASE →
      (do
        act (.store p (.sz sz))
        pure 0 : Kernel ℤ).Safe (Rule p) (fun _ w => Idle p w) x := by
    intro x sz hx hle
    have hknown : x.claims.known p = some r.known := hx.kept.claims ▸ he
    refine .act (.plain hx.kept.stale (.setSz hknown)) ?_
    rintro _ _ rfl
    exact (h.of_edited he hlive hsz hx).setSz hknown hle
  split_ifs
  · refine (allocuvm_safe hsz h.stale hT).bind ?_
    rintro sz x ⟨hx, hle⟩
    split_ifs
    · exact h.of_edited he hlive hsz hx
    · exact hstore hx hle
  · refine (deallocuvm_safe hsz h.stale hT).bind ?_
    rintro sz x ⟨hx, hle⟩
    split_ifs
    · exact h.of_edited he hlive hsz hx
    · exact hstore hx hle
  · exact h

theorem commit_safe (h : Idle p v) (hT : v.tree d = some T) (hlive : T.dir.live = true)
    (hd : ∀ e, v.claims.known p = some e → e.pgdir ≠ d) {sz : UInt32} (hsz : sz ≤ KERNBASE) :
    (commit p d sz).Safe (Rule p) (fun _ w => Idle p w) v := by
  obtain ⟨e, S, he, hS, hliveS, -⟩ := h.home
  rw [commit]
  refine .act (.plain h.stale .proc) ?_
  rintro r w ⟨hr, hw⟩
  obtain rfl := hr e he
  rw [hw]
  refine .act (.plain h.stale (.setPgdir (d := d) he)) ?_
  rintro _ _ rfl
  refine .act (.plain h.stale (.setSz (n := sz) View.setKnown_self)) ?_
  rintro _ _ rfl
  split_ifs
  · exact panic_safe h.stale
  · refine Prog.Safe.bind (freevm_safe (T := S) ?_ ?_ hliveS) ?_
    · exact h.stale
    · exact hS
    intro _ x hx
    have hown : x.claims.known p = some ⟨r.kstack, d, sz⟩ := by
      rw [hx.claims]
      exact View.setKnown_self
    have htree : x.tree d = some T := hx.tree d T hT fun heq => hd _ he heq.symm
    have hc := hx.claims
    exact ⟨⟨hx.stale, hc ▸ h.lock, hc ▸ h.reaping, hc ▸ h.buffer⟩, _, T, hown, htree, hlive, hsz⟩

theorem discard_safe (h : Idle p v) (hT : v.tree d = some T) (hlive : T.dir.live = true)
    (hd : ∀ e, v.claims.known p = some e → e.pgdir ≠ d) :
    (do
      freevm d
      pure (-1) : Kernel ℤ).Safe (Rule p) (fun _ w => Idle p w) v :=
  (freevm_safe h.stale hT hlive).bind fun _ _ hw => h.of_kept hw hd

theorem Idle.ne_of_new (h : Idle p v) (hd : v.tree d = none) : ∀ e, v.claims.known p = some e →
    e.pgdir ≠ d := by
  obtain ⟨e, T, he, hT, -⟩ := h.home
  rintro e' he' rfl
  rw [he] at he'
  cases he'
  rw [hT] at hd
  cases hd

theorem exec_safe (hdata : Linked data) (h : Idle p v) (ip : Option Inode)
    (argv : List (List UInt8)) :
    (exec data p ip argv).Safe (Rule p) (fun _ w => Idle p w) v := by
  cases ip with
  | none => exact h
  | some ip =>
      rw [exec]
      split_ifs
      · exact h
      · exact h
      · refine (setupkvm_safe hdata h.stale).bind ?_
        rintro (_ | d) w ⟨hw, hnew⟩
        · exact h.of_kept hw fun _ _ => id
        · obtain ⟨hnone, T, hT, hlive⟩ := hnew d rfl
          have hidle : Idle p w := h.of_kept hw fun _ _ => id
          have hne : ∀ e, w.claims.known p = some e → e.pgdir ≠ d := hw.claims ▸ h.ne_of_new hnone
          refine (loadProgram_safe ip _ _ hw.stale hT (by decide)).bind ?_
          rintro (_ | sz) x ⟨hx, hsz⟩
          · obtain ⟨T₁, hT₁, hlive₁, -⟩ := hx.self
            exact discard_safe (hidle.of_kept hx.kept hne) hT₁ (hlive₁.trans hlive)
              (hx.kept.claims ▸ hne)
          · obtain ⟨T₁, hT₁, hlive₁, hfreed₁⟩ := hx.self
            refine (buildStack_safe hx.kept.stale hT₁ (hsz sz rfl) argv).bind ?_
            rintro r y ⟨hy, hsz'⟩
            have hall := hx.trans hlive₁ hfreed₁ hy
            obtain ⟨T₂, hT₂, hlive₂, -⟩ := hall.self
            have hidle' : Idle p y := hidle.of_kept hall.kept hne
            have hne' : ∀ e, y.claims.known p = some e → e.pgdir ≠ d := hall.kept.claims ▸ hne
            cases r with
            | none => exact discard_safe hidle' hT₂ (hlive₂.trans hlive) hne'
            | some sz' => exact commit_safe hidle' hT₂ (hlive₂.trans hlive) hne' (hsz' sz' rfl)

theorem fileclose_safe (h : Idle p v) (i : Fin NFILE) : (fileclose i).Safe (Rule p)
    (fun _ w => Idle p w) v := by
  refine .act (.plain h.stale .fileput) ?_
  rintro (_ | _ | ⟨f, b⟩) w hw
  · subst hw
    exact h
  · subst hw
    exact h
  · subst hw
    refine .act (.plain h.stale (.closeEnd (Set.mem_insert _ _) h.buffer)) ?_
    rintro r _ rfl
    cases r with
    | false => exact ⟨⟨h.stale, h.lock, h.reaping, rfl⟩, h.home⟩
    | true =>
        refine (Prog.Safe.perform (.plain h.stale (.kfreeBuffer rfl))).mono ?_
        rintro _ _ rfl
        exact ⟨⟨h.stale, h.lock, h.reaping, rfl⟩, h.home⟩

theorem pipealloc_safe (h : Idle p v) : pipealloc.Safe (Rule p) (fun _ w => Idle p w) v := by
  refine .act (.plain h.stale .filealloc) ?_
  rintro (_ | i) w hw
  · subst hw
    exact h
  · rw [hw]
    refine .act (.plain h.stale .filealloc) ?_
    rintro (_ | j) w hw
    · rw [hw]
      exact (fileclose_safe h i).bind fun _ x hx => hx
    · rw [hw]
      refine .act (.plain h.stale .kalloc) ?_
      rintro (_ | f) w hw
      · rw [hw]
        exact (fileclose_safe h i).bind fun _ x hx => (fileclose_safe hx j).bind fun _ y hy => hy
      · obtain ⟨-, -, rfl⟩ := hw
        refine .act (.plain h.stale (.newPipe (Set.mem_insert f _))) ?_
        rintro _ _ rfl
        refine .act (.plain h.stale (.setFile (.inr (Set.mem_insert _ _)))) ?_
        rintro _ _ rfl
        refine .act (.plain h.stale (.setFile ⟨Set.mem_insert _ _, nofun⟩)) ?_
        rintro _ _ rfl
        exact ⟨⟨h.stale, h.lock, h.reaping, h.buffer⟩, h.home⟩

theorem setOfile_safe {Q : Unit → View → Prop} (hs : v.stale = none) (k : Fin NPROC)
    (fd : Fin NOFILE)
    (i : Option (Fin NFILE)) (hpost : Q () v) :
    (act (.store k (.ofile fd i))).Safe (Rule p) Q v :=
  (Prog.Safe.perform (.plain hs (.store fun _ => ⟨rfl, rfl⟩))).mono fun _ _ hw => hw ▸ hpost

theorem fdalloc_safe (h : Idle p v) (i : Fin NFILE) : (fdalloc p i).Safe (Rule p)
    (fun _ w => Idle p w) v := by
  refine .act (.plain h.stale .proc) ?_
  rintro r w ⟨-, hw⟩
  rw [hw]
  split
  · exact h
  · exact (setOfile_safe (Q := fun _ w => Idle p w) h.stale _ _ _ h).bind fun _ _ hx => hx

theorem pipe_safe (h : Idle p v) : (pipe p).Safe (Rule p) (fun _ w => Idle p w) v := by
  refine (pipealloc_safe h).bind ?_
  rintro (_ | ⟨rf, wf⟩) w hw
  · exact hw
  · refine (fdalloc_safe hw rf).bind ?_
    rintro (_ | fd0) x hx
    · exact (fileclose_safe hx rf).bind fun _ y hy => (fileclose_safe hy wf).bind fun _ z hz => hz
    · refine (fdalloc_safe hx wf).bind ?_
      rintro (_ | fd1) y hy
      · refine (setOfile_safe (Q := fun _ w => Idle p w) hy.stale _ _ _ hy).bind fun _ z hz => ?_
        exact (fileclose_safe hz rf).bind fun _ z hz => (fileclose_safe hz wf).bind fun _ z hz => hz
      · exact hy

theorem close_safe (h : Idle p v) (fd : Fin NOFILE) : (close p fd).Safe (Rule p)
    (fun _ w => Idle p w) v := by
  refine .act (.plain h.stale .proc) ?_
  rintro r w ⟨-, hw⟩
  rw [hw]
  split
  · exact h
  · refine (setOfile_safe (Q := fun _ w => Idle p w) h.stale _ _ _ h).bind fun _ x hx => ?_
    exact (fileclose_safe hx _).bind fun _ y hy => hy

theorem closeFiles_safe : ∀ (fds : List (Fin NOFILE)) {v : View}, Idle p v →
    (closeFiles p fds).Safe (Rule p) (fun _ w => Idle p w) v
  | [], _, h => h
  | fd :: fds, v, h => by
      refine .act (.plain h.stale .proc) ?_
      rintro r w ⟨-, hw⟩
      rw [hw]
      split
      · exact closeFiles_safe fds h
      · refine (fileclose_safe h _).bind fun _ x hx => ?_
        refine (setOfile_safe (Q := fun _ w => Idle p w) hx.stale _ _ _ hx).bind fun _ y hy => ?_
        exact closeFiles_safe fds hy

/-- A process in the kernel that fills or empties the entry of another one. -/
structure Tends (p k : Fin NPROC) (e : Known) (lock : Bool) (reaping : Option (Fin NPROC))
    (v : View) : Prop where
  stale : v.stale = none
  lock : v.claims.lock = lock
  reaping : v.claims.reaping = reaping
  buffer : v.claims.buffer = none
  home : Home p v
  known : v.claims.known k = some e
  ne : k ≠ p

variable {b : Bool} {o : Option (Fin NPROC)}

namespace Tends

theorem setKnown (h : Tends p k e b o v) (e' : Known) : Tends p k e' b o (v.setKnown k (some e')) :=
  ⟨h.stale, h.lock, h.reaping, h.buffer, h.home.setKnown h.ne _, View.setKnown_self, h.ne⟩

theorem of_kept (h : Tends p k e b o v) (hw : Kept D v w)
    (hD : ∀ e, v.claims.known p = some e → ¬ D e.pgdir) : Tends p k e b o w :=
  ⟨hw.stale, hw.claims ▸ h.lock, hw.claims ▸ h.reaping, hw.claims ▸ h.buffer, h.home.of_kept hw hD,
    hw.claims ▸ h.known, h.ne⟩

theorem freeKstack (h : Tends p k e b o v) {α : Type} {last : α → View → Prop} {y : Kernel α}
    (hy : ∀ w, Tends p k { e with kstack := 0 } b o w → w.tree = v.tree →
      w.claims.known p = v.claims.known p → y.Safe (Rule p) last w) :
    (do
      act (.kfree e.kstack)
      act (.store k (.kstack 0))
      y).Safe (Rule p) last v := by
  refine .act (.plain h.stale (.kfreeKstack h.known)) ?_
  rintro _ _ rfl
  refine .act (.dropKstack (v := v.setStale _) h.known rfl) ?_
  rintro _ _ rfl
  refine hy _ ⟨rfl, h.lock, h.reaping, h.buffer, ?_, View.setKnown_self, h.ne⟩ rfl
    (View.setKnown_of_ne h.ne.symm)
  exact h.home.setKnown h.ne _

end Tends

theorem Tends.idle (h : Tends p k e b o v)
    (hb : b = false) : Idle p ((v.setKnown k none).setReaping none) :=
  ⟨⟨h.stale, hb ▸ h.lock, rfl, h.buffer⟩, h.home.setKnown h.ne none⟩

theorem Home.ne (h : Home p v) (hk : v.claims.known k = none) : k ≠ p := by
  obtain ⟨e, T, he, -⟩ := h
  rintro rfl
  rw [he] at hk
  cases hk

theorem allocproc_safe (h : Idle p v) :
    allocproc.Safe (Rule p) (fun r w => match r with
      | none => Idle p w
      | some k => ∃ e, Tends p k e false none w) v := by
  refine .act (.plain h.stale .acquire) ?_
  rintro _ _ rfl
  refine .act (.plain h.stale .takeUnused) ?_
  rintro (_ | k) w hw
  · rw [hw]
    refine .act (.plain h.stale (.release rfl h.reaping)) ?_
    rintro _ _ rfl
    exact ⟨⟨h.stale, rfl, h.reaping, h.buffer⟩, h.home⟩
  · obtain ⟨hnone, e, hkstack, rfl⟩ := hw
    have hne : k ≠ p := h.home.ne hnone
    refine .act (.plain h.stale (.release rfl h.reaping)) ?_
    rintro _ u rfl
    have ht : Tends p k e false none (((v.setLock true).setKnown k (some e)).setLock false) :=
      ⟨h.stale, rfl, h.reaping, h.buffer, h.home.setKnown hne _, View.setKnown_self, hne⟩
    refine .act (.plain ht.stale .kalloc) ?_
    rintro (_ | f) w hw
    · rw [hw]
      refine .act (.plain ht.stale (.noKstack ht.known)) ?_
      rintro _ _ rfl
      have ht' := ht.setKnown { e with kstack := 0 }
      refine .act (.plain ht'.stale (.setUnused ht'.known hne rfl (.inl ht'.reaping))) ?_
      rintro _ _ rfl
      exact ht'.idle rfl
    · obtain ⟨-, -, rfl⟩ := hw
      refine .act (.plain ht.stale (.setKstack ht.known (Set.mem_insert f _))) ?_
      rintro _ _ rfl
      exact ⟨_, ht.stale, rfl, h.reaping, h.buffer, (h.home.setKnown hne _).setKnown hne _,
        View.setKnown_self, hne⟩

theorem dupFiles_safe (hs : v.stale = none) : ∀ fds : List (Fin NOFILE),
    (dupFiles p k fds).Safe (Rule p) (fun _ w => w = v) v
  | [] => rfl
  | fd :: fds => by
      refine .act (.plain hs .proc) ?_
      rintro r w ⟨-, hw⟩
      rw [hw]
      split
      · exact dupFiles_safe hs fds
      · refine .act (.plain hs .filedup) ?_
        intro _ w hw
        rw [hw]
        refine (setOfile_safe (Q := fun _ w => w = v) hs _ _ _ rfl).bind ?_
        intro _ w hw
        rw [hw]
        exact dupFiles_safe hs fds

theorem Tends.giveUp (h : Tends p k e false none v) :
    (do
      act (.store k (.pgdir 0))
      let child ← act (.proc k)
      act (.kfree child.kstack)
      act (.store k (.kstack 0))
      act (.store k (.state .unused))
      pure (-1) : Kernel ℤ).Safe (Rule p) (fun _ w => Idle p w) v := by
  refine .act (.plain h.stale (.setPgdir h.known)) ?_
  rintro _ _ rfl
  have h' := h.setKnown { e with pgdir := 0 }
  refine .act (.plain h'.stale .proc) ?_
  rintro child w ⟨hchild, hw⟩
  have hkstack : child.kstack = e.kstack := congrArg Known.kstack (hchild _ h'.known)
  rw [hw, hkstack]
  refine h'.freeKstack fun x hx _ _ => ?_
  refine .act (.plain hx.stale (.setUnused hx.known hx.ne rfl (.inl hx.reaping))) ?_
  rintro _ _ rfl
  exact hx.idle rfl

theorem Tends.runnable (h : Tends p k e false none v) (hT : v.tree d = some T)
    (hlive : T.dir.live = true)
    (hd : ∀ e, v.claims.known p = some e → e.pgdir ≠ d) {sz : UInt32} (hsz : sz ≤ KERNBASE) :
    (do
      act (.store k (.pgdir d))
      act (.store k (.sz sz))
      act (.store k (.parent p))
      dupFiles p k (List.finRange NOFILE)
      let child ← act (.proc k)
      act .acquire
      act (.store k (.state .runnable))
      act .release
      pure child.pid : Kernel ℤ).Safe (Rule p) (fun _ w => Idle p w) v := by
  refine .act (.plain h.stale (.setPgdir h.known)) ?_
  rintro _ _ rfl
  have h₁ := h.setKnown { e with pgdir := d }
  refine .act (.plain h₁.stale (.setSz h₁.known)) ?_
  rintro _ _ rfl
  have h₂ := h₁.setKnown { kstack := e.kstack, pgdir := d, sz := sz }
  have hown : ((v.setKnown k (some { e with pgdir := d })).setKnown k
      (some { kstack := e.kstack, pgdir := d, sz := sz })).claims.known p = v.claims.known p :=
    (View.setKnown_of_ne h.ne.symm).trans (View.setKnown_of_ne h.ne.symm)
  refine .act (.plain h₂.stale (.store fun _ => ⟨rfl, rfl⟩)) ?_
  intro _ w hw
  rw [hw]
  refine (dupFiles_safe h₂.stale _).bind ?_
  intro _ w hw
  rw [hw]
  refine .act (.plain h₂.stale .proc) ?_
  rintro child w ⟨-, hw⟩
  rw [hw]
  refine .act (.plain h₂.stale .acquire) ?_
  rintro _ _ rfl
  refine .act (.plain h₂.stale (.setRunnable h₂.known h.ne hT hlive hsz h₂.reaping)) ?_
  rintro _ _ rfl
  refine .act (.plain h₂.stale (.release rfl h₂.reaping)) ?_
  rintro _ _ rfl
  refine ⟨⟨h₂.stale, rfl, h₂.reaping, h₂.buffer⟩, ?_⟩
  exact (h₂.home.setKnown h.ne none).setTree
    (fun e' he' => hd e' (hown ▸ (View.setKnown_of_ne h.ne.symm) ▸ he')) none

theorem fork_safe (hdata : Linked data) (h : Idle p v) : (fork data p).Safe (Rule p)
    (fun _ w => Idle p w) v := by
  refine (allocproc_safe h).bind ?_
  rintro (_ | k) w hw
  · exact hw
  · obtain ⟨e, ht⟩ := hw
    obtain ⟨e₀, T, he₀, hT, hlive, hsz⟩ := ht.home
    refine .act (.plain ht.stale .proc) ?_
    rintro r x ⟨hr, hx⟩
    obtain rfl := hr e₀ he₀
    rw [hx]
    refine (copyuvm_safe hdata hsz ht.stale hT).bind ?_
    rintro (_ | d) y ⟨hy, hnew⟩
    · exact (ht.of_kept hy fun _ _ => id).giveUp
    · obtain ⟨hnone, T', hT', hlive'⟩ := hnew d rfl
      refine (ht.of_kept hy fun _ _ => id).runnable hT' hlive' ?_ hsz
      rw [hy.claims]
      rintro e' he' rfl
      rw [he₀] at he'
      cases he'
      rw [hT] at hnone
      cases hnone

theorem wait_safe (h : Idle p v) : (wait p).Safe (Rule p) (Leaves p) v := by
  refine .act (.plain h.stale .acquire) ?_
  rintro _ _ rfl
  refine .act (.plain h.stale (.findZombie rfl h.reaping)) ?_
  rintro ⟨b, _ | k⟩ w hw
  · rw [hw]
    refine .act (.plain h.stale .proc) ?_
    rintro r w ⟨-, hw⟩
    rw [hw]
    refine .act (.plain h.stale (.release rfl h.reaping)) ?_
    rintro _ _ rfl
    have hidle : Idle p ((v.setLock true).setLock false) :=
      ⟨⟨h.stale, rfl, h.reaping, h.buffer⟩, h.home⟩
    split_ifs
    · exact hidle
    · exact hidle
  · obtain ⟨hne, e, T, hnone, hlive, rfl⟩ := hw
    have hown : ∀ e', v.claims.known p = some e' → e'.pgdir ≠ e.pgdir := h.ne_of_new hnone
    have ht : Tends p k e true (some k)
        ((((v.setLock true).setKnown k (some e)).setTree e.pgdir (some T)).setReaping
          (some k)) := by
      refine ⟨h.stale, rfl, rfl, h.buffer, (h.home.setKnown hne (some e)).setTree
        (fun e' he' => hown e' ?_) _,
        View.setKnown_self, hne⟩
      exact (View.setKnown_of_ne hne.symm).symm.trans he'
    refine .act (.plain ht.stale .proc) ?_
    rintro child w ⟨hchild, hw⟩
    obtain rfl := hchild e ht.known
    rw [hw]
    refine ht.freeKstack fun x hx htree hpx => ?_
    have hT : x.tree child.pgdir = some T := by
      rw [htree]
      exact View.setTree_self
    have hx₀ : x.claims.known p = v.claims.known p := hpx.trans (View.setKnown_of_ne hne.symm)
    refine (freevm_safe hx.stale hT hlive).bind ?_
    intro _ y hy
    have hty := hx.of_kept hy fun e' he' => hown e' (hx₀ ▸ he')
    refine .act (.plain hty.stale (.store fun _ => ⟨rfl, rfl⟩)) ?_
    intro _ w hw
    rw [hw]
    refine .act (.plain hty.stale (.setUnused hty.known hne rfl (.inr hty.reaping))) ?_
    rintro _ _ rfl
    refine .act (.plain hty.stale (.release hty.lock rfl)) ?_
    rintro _ _ rfl
    exact ⟨⟨hty.stale, rfl, rfl, hty.buffer⟩, hty.home.setKnown hne none⟩

theorem exit_safe (h : Idle p v) : (exit p).Safe (Rule p) (Leaves p) v := by
  rw [exit]
  split_ifs
  · exact panic_safe h.stale
  · refine (closeFiles_safe _ h).bind ?_
    intro _ w hw
    refine .act (.plain hw.stale .acquire) ?_
    rintro _ _ rfl
    exact ⟨rfl, ⟨hw.stale, rfl, hw.reaping, hw.buffer⟩, hw.home⟩

theorem Call.prog_safe (hdata : Linked data) (h : Idle p v) (c : Call) :
    (c.prog data p).Safe (Rule p) (Leaves p) v := by
  cases c with
  | fork => exact (fork_safe hdata h).bind fun _ _ hw => hw
  | exec ip argv => exact (exec_safe hdata h ip argv).bind fun _ _ hw => hw
  | sbrk n =>
      refine .act (.plain h.stale .proc) ?_
      rintro r w ⟨-, hw⟩
      rw [hw]
      exact (growproc_safe h n).bind fun _ _ hw => hw
  | exit => exact exit_safe h
  | wait => exact wait_safe h
  | pipe => exact (pipe_safe h).bind fun _ _ hw => hw
  | close fd => exact (close_safe h fd).bind fun _ _ hw => hw

end SharedMemory

end Xv6Fairness
