import Mathlib.Data.Finset.Filter
import Mathlib.Logic.Relation
import Xv6Fairness.MemoryIsolation

/-!
# A fork that succeeds

A process that has the kernel to itself and finds a slot and enough free pages comes out of `fork`
with a child that can run. A directory never needs more pages than it has entries without a table.
-/

namespace Xv6Fairness

open ThreadPrograms TransitionRuns
open VirtualMemory (PDX PTX PGSIZE NPDENTRIES Pte PageTable Kmap kmap Ascending Linked userPages
  PDX_lt nextPage)

namespace SharedMemory

variable {endFrame : ℕ} {data : UInt32} {p np : Fin NPROC} {m : Memory} {d d₀ v n : ℕ}
  {fl : List ℕ} {c c₀ : Pgdir}

/-- The entries of a directory without a table. -/
def Pgdir.missing (c : Pgdir) : ℕ := {i ∈ Finset.range NPDENTRIES | (c.tables i).isNone}.card

theorem Pgdir.missing_setPde {i f : ℕ} (hi : i < NPDENTRIES) (h : c.tables i = none) :
    (c.setPde i f).missing + 1 = c.missing := by
  have hmem : i ∈ {j ∈ Finset.range NPDENTRIES | (c.tables j).isNone} :=
    Finset.mem_filter.mpr ⟨Finset.mem_range.mpr hi, by rw [h]; rfl⟩
  have herase : {j ∈ Finset.range NPDENTRIES | ((c.setPde i f).tables j).isNone} =
      ({j ∈ Finset.range NPDENTRIES | (c.tables j).isNone} : Finset ℕ).erase i := by
    ext j
    rw [Finset.mem_erase, Finset.mem_filter, Finset.mem_filter, Pgdir.setPde]
    dsimp only
    by_cases hj : j = i
    · refine iff_of_false (fun h => ?_) fun h => h.1 hj
      rw [hj, Function.update_self] at h
      cases h.2
    · rw [Function.update_of_ne hj]
      exact (and_iff_right hj).symm
  rw [missing, missing, herase, Finset.card_erase_add_one hmem]

theorem Pgdir.pte_setPde {i f a : ℕ} (h : c.tables i = none) :
    (c.setPde i f).pte a = c.pte a := by
  rw [Pgdir.pte, Pgdir.pte, Pgdir.setPde]
  dsimp only
  by_cases hi : PDX a = i
  · rw [hi, Function.update_self, h]
    rfl
  · rw [Function.update_of_ne hi]

theorem Pgdir.missing_setPte {a : ℕ} {q : Option Pte} : (c.setPte a q).missing = c.missing := by
  have htables : ∀ j, ((c.setPte a q).tables j).isNone = (c.tables j).isNone := by
    intro j
    rw [Pgdir.setPte]
    dsimp only
    by_cases hj : j = PDX a
    · rw [hj, Function.update_self, Option.isNone_map]
    · rw [Function.update_of_ne hj]
  rw [missing, missing, Finset.filter_congr fun j _ => by rw [htables j]]

theorem Pgdir.pte_setPte_of_ne {w : ℕ} {q : Option Pte} (h : w ≠ v) :
    (c.setPte (PGSIZE * v) q).pte (PGSIZE * w) = c.pte (PGSIZE * w) := by
  rw [Pgdir.pte, Pgdir.pte, Pgdir.setPte]
  dsimp only
  by_cases hd : PDX (PGSIZE * w) = PDX (PGSIZE * v)
  · have hk : PTX (PGSIZE * w) ≠ PTX (PGSIZE * v) := fun hk =>
      h (VirtualMemory.page_eq_iff.mp ⟨hd, hk⟩)
    rw [hd, Function.update_self]
    cases c.tables (PDX (PGSIZE * v)) with
    | none => rfl
    | some t => exact (PageTable.set_pte t _ q _).trans (if_neg hk)
  · rw [Function.update_of_ne hd]

/-- The memory with other free pages and with the directory `c` in the page `d`. -/
def Memory.withDir (m : Memory) (d : ℕ) (fl : List ℕ) (c : Pgdir) : Memory :=
  { m with freelist := fl, pgdir := Function.update m.pgdir d (some c) }

theorem Memory.withDir_pgdir : (m.withDir d fl c).pgdir d = some c := Function.update_self _ _ _

theorem Memory.withDir_pgdir_of_ne (h : d₀ ≠ d) : (m.withDir d fl c).pgdir d₀ = m.pgdir d₀ :=
  Function.update_of_ne h _ _

theorem Memory.withDir_map (f : Pgdir → Pgdir) :
    (m.withDir d fl c).setPgdir d (((m.withDir d fl c).pgdir d).map f) = m.withDir d fl (f c) := by
  rw [withDir_pgdir, Option.map_some, setPgdir, withDir]
  dsimp only
  rw [Function.update_idem]
  rfl

section Directories

variable (endFrame p m d)

theorem load_alone : Memory.run endFrame p (.load d) (m.withDir d fl c) =
    some (some c, m.withDir d fl c) :=
  congrArg (fun x => some (x, m.withDir d fl c)) Memory.withDir_pgdir

/-- With enough free pages `walkpgdir` finds a table or makes one. -/
theorem walkpgdir_alone {a : ℕ} (ha : PDX a < NPDENTRIES) (hroom : c.missing + n ≤ fl.length) :
    ∃ fl' c', (walkpgdir d a true).alone (Memory.run endFrame p) (m.withDir d fl c) =
        some (true, m.withDir d fl' c') ∧ c'.missing + n ≤ fl'.length ∧
        ∀ x, c'.pte x = c.pte x := by
  rw [walkpgdir, Prog.alone_act (load_alone endFrame p m d)]
  cases htable : c.tables (PDX a) with
  | some t =>
      refine ⟨fl, c, ?_, hroom, fun _ => rfl⟩
      rw [if_pos (by rw [Option.bind_some, htable]; rfl)]
      rfl
  | none =>
      have hcount : ∀ f, (c.setPde (PDX a) f).missing + 1 = c.missing := fun _ =>
        Pgdir.missing_setPde ha htable
      rw [if_neg (by rw [Option.bind_some, htable]; decide), if_pos rfl]
      cases fl with
      | nil =>
          rw [List.length_nil] at hroom
          have hzero := hcount 0
          omega
      | cons f fl =>
          have hf := hcount f
          rw [List.length_cons] at hroom
          refine ⟨fl, c.setPde (PDX a) f, ?_, by omega, fun x => Pgdir.pte_setPde htable⟩
          have hkalloc : Memory.run endFrame p .kalloc (m.withDir d (f :: fl) c) =
            some (some f, m.withDir d fl c) := rfl
          rw [Prog.alone_act hkalloc]
          have hset : Memory.run endFrame p (.setPde d (PDX a) f) (m.withDir d fl c) =
              some ((), m.withDir d fl (c.setPde (PDX a) f)) :=
            congrArg (fun x => some ((), x)) (Memory.withDir_map fun c => c.setPde (PDX a) f)
          exact Prog.alone_act hset

/-- One page is mapped, and the other entries are as before. -/
theorem mapPage_alone {a : UInt32} (ha : a.toNat = PGSIZE * v) (frame : ℕ) (perm : UInt32)
    (hroom : c.missing + n ≤ fl.length) (hnone : c.pte (PGSIZE * v) = none) :
    ∃ fl' c', (mapPage d a frame perm).alone (Memory.run endFrame p) (m.withDir d fl c) =
        some (0, m.withDir d fl' c') ∧ c'.missing + n ≤ fl'.length ∧
      ∀ w, w ≠ v → c'.pte (PGSIZE * w) = c.pte (PGSIZE * w) := by
  obtain ⟨fl', c', hwalk, hroom', hpte⟩ := walkpgdir_alone endFrame p m d (PDX_lt a) hroom
  have hset : Memory.run endFrame p (.setPte d a.toNat (some ⟨frame, perm⟩)) (m.withDir d fl' c') =
      some ((), m.withDir d fl' (c'.setPte a.toNat (some ⟨frame, perm⟩))) :=
    congrArg (fun x => some ((), x)) (Memory.withDir_map fun c => c.setPte a.toNat _)
  refine ⟨fl', c'.setPte a.toNat (some ⟨frame, perm⟩), ?_, ?_, fun w hw => ?_⟩
  · rw [mapPage, Prog.alone_bind hwalk, if_pos rfl, pte]
    have hload : (do
        let c ← act (.load d)
        pure (c.bind fun c => c.pte a.toNat) : Kernel (Option Pte)).alone (Memory.run endFrame p)
          (m.withDir d fl' c') = some (none, m.withDir d fl' c') := by
      rw [Prog.alone_act (load_alone endFrame p m d), Option.bind_some, hpte, ha, hnone]
      rfl
    rw [Prog.alone_bind hload, if_neg (by decide), Prog.alone_act hset]
    rfl
  · rw [Pgdir.missing_setPte]
    exact hroom'
  · rw [ha, Pgdir.pte_setPte_of_ne hw, hpte]

theorem mapLoop_alone (perm : UInt32) (k : ℕ) {a : UInt32} (frame : ℕ) (ha : a.toNat = PGSIZE * v)
    (hk : v + k < 2 ^ 20) (hroom : c.missing + n ≤ fl.length)
    (hnone : ∀ w, v ≤ w → w ≤ v + k → c.pte (PGSIZE * w) = none) :
    ∃ fl' c', (mapLoop d a frame perm k).alone (Memory.run endFrame p) (m.withDir d fl c) =
        some (0, m.withDir d fl' c') ∧ c'.missing + n ≤ fl'.length ∧
      ∀ w, w < v ∨ v + k < w → c'.pte (PGSIZE * w) = c.pte (PGSIZE * w) := by
  induction k generalizing a v frame fl c with
  | zero =>
      obtain ⟨fl', c', hrun, hroom', hpte⟩ :=
        mapPage_alone endFrame p m d ha frame perm hroom (hnone v le_rfl le_rfl)
      exact ⟨fl', c', hrun, hroom', fun w hw => hpte w (by omega)⟩
  | succ k ih =>
      obtain ⟨fl₁, c₁, hrun, hroom₁, hpte₁⟩ :=
        mapPage_alone endFrame p m d ha frame perm hroom (hnone v le_rfl (by omega))
      have hnext : (a + 4096).toNat = PGSIZE * (v + 1) := by
        rw [UInt32.toNat_add, ha]
        change (4096 * v + 4096) % 2 ^ 32 = 4096 * (v + 1)
        omega
      obtain ⟨fl', c', hloop, hroom', hpte⟩ := ih (frame + 1) hnext (by omega) hroom₁
        fun w hvw hwk => by
          rw [hpte₁ w (by omega)]
          exact hnone w (by omega) (by omega)
      refine ⟨fl', c', ?_, hroom', fun w hw => ?_⟩
      · rw [mapLoop, Prog.alone_bind hrun, if_neg (lt_irrefl 0)]
        exact hloop
      · rw [hpte w (by omega), hpte₁ w (by omega)]

theorem mappages_alone {va size : UInt32} (frame : ℕ) (perm : UInt32) (hva : va.toNat = PGSIZE * v)
    {k : ℕ} (hsize : size.toNat = PGSIZE * (k + 1)) (hk : v + k < 2 ^ 20)
    (hroom : c.missing + n ≤ fl.length)
    (hnone : ∀ w, v ≤ w → w ≤ v + k → c.pte (PGSIZE * w) = none) :
    ∃ fl' c', (mappages d va size frame perm).alone (Memory.run endFrame p) (m.withDir d fl c) =
        some (0, m.withDir d fl' c') ∧ c'.missing + n ≤ fl'.length ∧
      ∀ w, w < v ∨ v + k < w → c'.pte (PGSIZE * w) = c.pte (PGSIZE * w) := by
  rw [mappages, VirtualMemory.page_count hva hsize hk, VirtualMemory.PGROUNDDOWN_page hva]
  exact mapLoop_alone endFrame p m d perm k frame hva hk hroom hnone

theorem mapKernel_alone (ks : List Kmap) {lo : ℕ} (hks : Ascending lo ks)
    (hroom : c.missing + n ≤ fl.length) (hnone : ∀ w, lo ≤ w → c.pte (PGSIZE * w) = none) :
    ∃ fl' c', (mapKernel d ks).alone (Memory.run endFrame p) (m.withDir d fl c) =
        some (0, m.withDir d fl' c') ∧ c'.missing + n ≤ fl'.length ∧
      ∀ w < lo, c'.pte (PGSIZE * w) = c.pte (PGSIZE * w) := by
  induction ks generalizing lo fl c with
  | nil => exact ⟨fl, c, rfl, hroom, fun _ _ => rfl⟩
  | cons k ks ih =>
      obtain ⟨v, j, hv, hj, hva, hsize, hks⟩ := hks
      obtain ⟨fl₁, c₁, hrun, hroom₁, hpte₁⟩ := mappages_alone endFrame p m d
        (k.phys_start.toNat / PGSIZE) k.perm hva hsize hj hroom fun w hvw _ =>
          hnone w (hv.trans hvw)
      obtain ⟨fl', c', hrest, hroom', hpte⟩ := ih hks hroom₁ fun w hw => by
        rw [hpte₁ w (by omega)]
        exact hnone w (by omega)
      refine ⟨fl', c', ?_, hroom', fun w hw => ?_⟩
      · rw [mapKernel, Prog.alone_bind hrun, if_neg (lt_irrefl 0)]
        exact hrest
      · rw [hpte w (by omega), hpte₁ w (by omega)]

variable {m d}

/-- A page for the directory and one for each of its tables are enough for `setupkvm`. -/
theorem setupkvm_alone (hdata : Linked data) (hfree : m.freelist = d :: fl)
    (hroom : NPDENTRIES + n ≤ fl.length) :
    ∃ fl' c', (setupkvm data).alone (Memory.run endFrame p) m = some (some d, m.withDir d fl' c') ∧
      c'.missing + n ≤ fl'.length ∧ ∀ w < userPages, c'.pte (PGSIZE * w) = none := by
  have hkalloc : Memory.run endFrame p .kalloc m = some (some d, { m with freelist := fl }) := by
    rw [Memory.run, hfree]
  have hnew : Memory.run endFrame p (.newPgdir d) { m with freelist := fl } =
      some ((), m.withDir d fl ⟨fun _ => none, true⟩) := rfl
  have hmissing : Pgdir.missing ⟨fun _ => none, true⟩ ≤ NPDENTRIES :=
    (Finset.card_filter_le _ _).trans_eq (Finset.card_range _)
  have hempty : Pgdir.missing ⟨fun _ => none, true⟩ + n ≤ fl.length := by omega
  obtain ⟨fl', c', hrun, hroom', hpte⟩ := mapKernel_alone endFrame p m d (kmap data)
    (VirtualMemory.kmap_ascending hdata) hempty fun _ _ => rfl
  refine ⟨fl', c', ?_, hroom', hpte⟩
  rw [setupkvm, Prog.alone_act hkalloc]
  dsimp only
  rw [Prog.alone_act hnew, if_neg (by decide), Prog.alone_bind hrun, if_neg (lt_irrefl 0)]
  rfl

/-- The pages behind `v` are copied, one free page for each. -/
theorem copyLoop_alone {sz : ℕ} (hne : d₀ ≠ d) (h₀ : m.pgdir d₀ = some c₀) (hsz : sz ≤ 2 ^ 31)
    (hfull : ∀ w, PGSIZE * w < sz → (c₀.pte (PGSIZE * w)).isSome) (k : ℕ)
    (hk : sz ≤ PGSIZE * (v + k)) (hroom : c.missing + (n + k) ≤ fl.length)
    (hnone : ∀ w, v ≤ w → w < userPages → c.pte (PGSIZE * w) = none) :
    ∃ fl' c', (copyLoop d₀ d sz (PGSIZE * v)).alone (Memory.run endFrame p) (m.withDir d fl c) =
      some (true, m.withDir d fl' c') ∧ n ≤ fl'.length := by
  induction k generalizing v fl c with
  | zero =>
      rw [copyLoop, if_neg (show ¬ PGSIZE * v < sz from not_lt.mpr hk)]
      exact ⟨fl, c, rfl, by omega⟩
  | succ k ih =>
      by_cases hv : PGSIZE * v < sz
      · obtain ⟨q, hq⟩ := Option.isSome_iff_exists.mp (hfull v hv)
        have hlt : 4096 * v < sz := hv
        have huser : v < userPages := by
          change v < 0x80000
          omega
        have hload : Memory.run endFrame p (.load d₀) (m.withDir d fl c) =
            some (some c₀, m.withDir d fl c) :=
          congrArg (fun x => some (x, m.withDir d fl c))
            ((Memory.withDir_pgdir_of_ne hne).trans h₀)
        have hwalk : (walkpgdir d₀ (PGSIZE * v) false).alone (Memory.run endFrame p)
            (m.withDir d fl c) = some (true, m.withDir d fl c) := by
          obtain ⟨t, ht, -⟩ := Option.bind_eq_some_iff.mp hq
          rw [walkpgdir, Prog.alone_act hload, if_pos (by rw [Option.bind_some, ht]; rfl)]
          rfl
        have hpte : (pte d₀ (PGSIZE * v)).alone (Memory.run endFrame p) (m.withDir d fl c) =
            some (some q, m.withDir d fl c) := by
          rw [pte, Prog.alone_act hload, Option.bind_some, hq]
          rfl
        cases fl with
        | nil =>
            rw [List.length_nil] at hroom
            omega
        | cons mem fl =>
            rw [List.length_cons] at hroom
            have hkalloc : Memory.run endFrame p .kalloc (m.withDir d (mem :: fl) c) =
              some (some mem, m.withDir d fl c) := rfl
            have hva : (UInt32.ofNat (PGSIZE * v)).toNat = PGSIZE * v := by
              rw [UInt32.toNat_ofNat']
              change 4096 * v % 2 ^ 32 = 4096 * v
              omega
            have hroom' : c.missing + (n + k) ≤ fl.length := by omega
            obtain ⟨fl₁, c₁, hmap, hroom₁, hpte₁⟩ := mappages_alone endFrame p m d mem q.perm hva
              (show (4096 : UInt32).toNat = PGSIZE * (0 + 1) from rfl)
                (by omega) hroom' fun w hvw hwv => by
                obtain rfl : w = v := le_antisymm hwv hvw
                exact hnone w le_rfl huser
            obtain ⟨fl', c', hloop, hlength⟩ := ih (v := v + 1)
                (by rwa [Nat.add_assoc, Nat.add_comm 1 k])
              hroom₁ fun w hvw hwu => by
                rw [hpte₁ w (by omega)]
                exact hnone w (by omega) hwu
            refine ⟨fl', c', ?_, hlength⟩
            rw [copyLoop, if_pos hv, Prog.alone_bind hwalk, if_pos rfl, Prog.alone_bind hpte]
            dsimp only
            rw [Prog.alone_act hkalloc]
            dsimp only
            rw [Prog.alone_bind hmap, if_neg (lt_irrefl 0)]
            exact hloop
      · rw [copyLoop, if_neg hv]
        exact ⟨fl, c, rfl, by omega⟩

theorem copyuvm_alone (hdata : Linked data) {sz : UInt32} (hfree : m.freelist = d :: fl)
    (hne : d₀ ≠ d) (h₀ : m.pgdir d₀ = some c₀) (hsz : sz ≤ KERNBASE)
    (hfull : ∀ w, PGSIZE * w < sz.toNat → (c₀.pte (PGSIZE * w)).isSome) {k : ℕ}
    (hk : sz.toNat ≤ PGSIZE * k) (hroom : NPDENTRIES + (n + k) ≤ fl.length) :
    ∃ fl' c', (copyuvm data d₀ sz).alone (Memory.run endFrame p) m =
      some (some d, m.withDir d fl' c') ∧ n ≤ fl'.length := by
  obtain ⟨fl₁, c₁, hsetup, hroom₁, hpte₁⟩ := setupkvm_alone endFrame p hdata hfree hroom
  have hbound : sz.toNat ≤ 2 ^ 31 := UInt32.le_iff_toNat_le.mp hsz
  obtain ⟨fl', c', hcopy, hlength⟩ := copyLoop_alone endFrame p (v := 0) hne h₀ hbound hfull k
    (by rwa [Nat.zero_add]) hroom₁ fun w _ hw => hpte₁ w hw
  rw [Nat.mul_zero] at hcopy
  refine ⟨fl', c', ?_, hlength⟩
  rw [copyuvm, Prog.alone_bind hsetup]
  dsimp only
  rw [Prog.alone_bind hcopy, if_pos rfl]
  rfl

end Directories

/-- Only the entry `np` differs, and files have more references. -/
structure Beside (np : Fin NPROC) (m m' : Memory) : Prop where
  proc : ∀ q ≠ np, m'.proc q = m.proc q
  lock : m'.lock = m.lock
  freelist : m'.freelist = m.freelist
  pgdir : m'.pgdir = m.pgdir
  ref : ∀ i, (m.file i).ref ≤ (m'.file i).ref

theorem Beside.refl : Beside np m m := ⟨fun _ _ => rfl, rfl, rfl, rfl, fun _ => le_rfl⟩

theorem Beside.trans {m' m'' : Memory} (h : Beside np m m') (h' : Beside np m' m'') :
    Beside np m m'' where
  proc q hq := (h'.proc q hq).trans (h.proc q hq)
  lock := h'.lock.trans h.lock
  freelist := h'.freelist.trans h.freelist
  pgdir := h'.pgdir.trans h.pgdir
  ref i := (h.ref i).trans (h'.ref i)

theorem Beside.setProc (x : Proc) : Beside np m (m.setProc np x) :=
  ⟨fun _ hq => Memory.setProc_of_ne hq, rfl, rfl, rfl, fun _ => le_rfl⟩

theorem Beside.filedup (i : Fin NFILE) :
    Beside np m (m.setFile i { m.file i with ref := (m.file i).ref + 1 }) := by
  refine ⟨fun _ _ => rfl, rfl, rfl, rfl, fun j => ?_⟩
  rw [Memory.setFile]
  dsimp only
  by_cases hj : j = i
  · rw [hj, Function.update_self]
    exact Nat.le_succ _
  · rw [Function.update_of_ne hj]

theorem takeUnused_beside (h : ∃ k, (m.proc k).state = .unused) : ∃ np m',
    m.takeUnused = (some np, m') ∧ (m.proc np).state = .unused ∧ Beside np m m' := by
  rw [Memory.takeUnused]
  cases hfind : (List.finRange NPROC).find? fun k => (m.proc k).state = .unused with
  | none =>
      obtain ⟨k, hk⟩ := h
      exact absurd (decide_eq_true hk) (List.find?_eq_none.mp hfind k (List.mem_finRange k))
  | some np =>
      have hfound := List.find?_some hfind
      refine ⟨np, _, rfl, of_decide_eq_true hfound, ?_⟩
      exact (Beside.setProc (m := m) _).trans ⟨fun _ _ => rfl, rfl, rfl, rfl, fun _ => le_rfl⟩

section Calls

variable (endFrame p)

theorem allocproc_alone (hlock : m.lock = none) (hunused : ∃ k, (m.proc k).state = .unused)
    {f : ℕ} (hfree : m.freelist = f :: fl) : ∃ np m', allocproc.alone (Memory.run endFrame p) m =
      some (some np, m') ∧ (m.proc np).state = .unused ∧
      Beside np { m with freelist := fl } m' := by
  have hacquire : Memory.run endFrame p .acquire m = some ((), { m with lock := some p }) :=
    if_pos hlock
  obtain ⟨np, m₁, htake, hnp, hbeside⟩ :=
    takeUnused_beside (m := { m with lock := some p }) hunused
  have htaken : Memory.run endFrame p .takeUnused { m with lock := some p } = some (some np, m₁) :=
    congrArg some htake
  have hrelease : Memory.run endFrame p .release m₁ = some ((), { m₁ with lock := none }) :=
    if_pos hbeside.lock
  have hkalloc : Memory.run endFrame p .kalloc { m₁ with lock := none } =
      some (some f, { m₁ with lock := none, freelist := fl }) := by
    rw [Memory.run]
    dsimp only
    rw [hbeside.freelist, hfree]
  refine ⟨np, ({ m₁ with lock := none, freelist := fl } : Memory).setProc np
    ((Store.kstack f).apply (m₁.proc np)), ?_, hnp, ?_⟩
  · rw [allocproc, Prog.alone_act hacquire, Prog.alone_act htaken]
    dsimp only
    rw [Prog.alone_act hrelease, Prog.alone_act hkalloc]
    rfl
  · refine ⟨fun q hq => ?_, hlock.symm, rfl, hbeside.pgdir, hbeside.ref⟩
    exact (Memory.setProc_of_ne hq).trans (hbeside.proc q hq)

theorem store_alone (w : Store) (np : Fin NPROC) (m : Memory) : ∃ m', Beside np m m' ∧
    ∀ {α : Type} (g : Unit → Kernel α), (act (.store np w) >>= g).alone (Memory.run endFrame p) m =
      (g ()).alone (Memory.run endFrame p) m' :=
  ⟨m.setProc np (w.apply (m.proc np)), .setProc _, fun _ => Prog.alone_act rfl⟩

theorem dupFiles_alone {p : Fin NPROC} (hne : p ≠ np) (fds : List (Fin NOFILE))
    (hfiles : ∀ fd i, (m.proc p).ofile fd = some i → 1 ≤ (m.file i).ref) :
    ∃ m', (dupFiles p np fds).alone (Memory.run endFrame p) m = some ((), m') ∧ Beside np m m' := by
  induction fds generalizing m with
  | nil => exact ⟨m, rfl, .refl⟩
  | cons fd fds ih =>
      have hproc : Memory.run endFrame p (.proc p) m = some (m.proc p, m) := rfl
      cases hfile : (m.proc p).ofile fd with
      | none =>
          obtain ⟨m', hrun, hbeside⟩ := ih hfiles
          refine ⟨m', ?_, hbeside⟩
          rw [dupFiles, Prog.alone_act hproc, hfile]
          exact hrun
      | some i =>
          have hdup : Memory.run endFrame p (.filedup i) m =
              some ((), m.setFile i { m.file i with ref := (m.file i).ref + 1 }) :=
            if_neg (by have href := hfiles fd i hfile; omega)
          have hcounted : Beside np m (m.setFile i { m.file i with ref := (m.file i).ref + 1 }) :=
            .filedup i
          have hbeside := hcounted.trans (.setProc ((Store.ofile fd (some i)).apply (m.proc np)))
          obtain ⟨m', hrun, hbeside'⟩ := ih fun fd' j hj => by
            rw [hbeside.proc p hne] at hj
            exact (hfiles fd' j hj).trans (hbeside.ref j)
          refine ⟨m', ?_, hbeside.trans hbeside'⟩
          rw [dupFiles, Prog.alone_act hproc, hfile]
          dsimp only
          rw [Prog.alone_act hdup]
          exact hrun

/-- With an unused slot and with pages for the stack, the directory, its tables and the memory of
the process `fork` succeeds, and the child is runnable. -/
theorem fork_alone (hdata : Linked data) (hlock : m.lock = none)
    (hunused : ∃ k, (m.proc k).state = .unused) (hp : (m.proc p).state ≠ .unused)
    (h₀ : m.pgdir (m.proc p).pgdir = some c₀) (hsz : (m.proc p).sz ≤ KERNBASE)
    (hfull : ∀ w, PGSIZE * w < (m.proc p).sz.toNat → (c₀.pte (PGSIZE * w)).isSome) {k : ℕ}
    (hk : (m.proc p).sz.toNat ≤ PGSIZE * k)
    (hfiles : ∀ fd i, (m.proc p).ofile fd = some i → 1 ≤ (m.file i).ref)
    (hfree : ∀ f ∈ m.freelist, m.pgdir f = none)
    (hroom : NPDENTRIES + (n + k) + 2 ≤ m.freelist.length) : ∃ np r m',
      (fork data p).alone (Memory.run endFrame p) m = some (r, m') ∧ (m.proc np).state = .unused ∧
        (m'.proc np).state = .runnable ∧ m'.lock = none ∧ (∀ q ≠ np, m'.proc q = m.proc q) ∧
        n ≤ m'.freelist.length := by
  obtain ⟨f, d, fl, hlist⟩ : ∃ f d fl, m.freelist = f :: d :: fl := by
    obtain ⟨f, rest, hf⟩ := List.exists_cons_of_length_pos (by omega : 0 < m.freelist.length)
    rw [hf, List.length_cons] at hroom
    obtain ⟨d, fl, rfl⟩ := List.exists_cons_of_length_pos (by omega : 0 < rest.length)
    exact ⟨f, d, fl, hf⟩
  rw [hlist] at hroom hfree
  obtain ⟨np, m₁, halloc, hnp, h₁⟩ := allocproc_alone endFrame p hlock hunused hlist
  have hne : p ≠ np := by
    rintro rfl
    exact hp hnp
  have hcur : m₁.proc p = m.proc p := h₁.proc p hne
  have hd : (m.proc p).pgdir ≠ d := by
    intro heq
    rw [heq, hfree d (List.mem_cons_of_mem f List.mem_cons_self)] at h₀
    cases h₀
  have hroom' : NPDENTRIES + (n + k) ≤ fl.length := by
    rw [List.length_cons, List.length_cons] at hroom
    omega
  obtain ⟨fl', c', hcopy, hlength⟩ := copyuvm_alone endFrame p hdata h₁.freelist hd
    ((congrFun h₁.pgdir _).trans h₀) hsz hfull hk hroom'
  obtain ⟨m₂, h₂, hpgdir⟩ := store_alone endFrame p (.pgdir d) np (m₁.withDir d fl' c')
  obtain ⟨m₃, h₃, hstore⟩ := store_alone endFrame p (.sz (m₁.proc p).sz) np m₂
  obtain ⟨m₄, h₄, hparent⟩ := store_alone endFrame p (.parent p) np m₃
  have hstores : Beside np (m₁.withDir d fl' c') m₄ := (h₂.trans h₃).trans h₄
  have hfiles' : ∀ fd i, (m₄.proc p).ofile fd = some i → 1 ≤ (m₄.file i).ref := by
    intro fd i hi
    rw [hstores.proc p hne] at hi
    exact (hfiles fd i (hcur ▸ hi)).trans ((h₁.ref i).trans (hstores.ref i))
  obtain ⟨m₅, hdup, h₅⟩ := dupFiles_alone endFrame hne (List.finRange NOFILE) hfiles'
  have hlocked : m₅.lock = none :=
    h₅.lock.trans (hstores.lock.trans (h₁.lock.trans hlock))
  have hproc : Memory.run endFrame p (.proc p) m₁ = some (m₁.proc p, m₁) := rfl
  have hchild : Memory.run endFrame p (.proc np) m₅ = some (m₅.proc np, m₅) := rfl
  have hacquire : Memory.run endFrame p .acquire m₅ = some ((), { m₅ with lock := some p }) :=
    if_pos hlocked
  have hrelease : ∀ x, Memory.run endFrame p .release
      (({ m₅ with lock := some p } : Memory).setProc np x) =
        some ((), ({ m₅ with lock := none } : Memory).setProc np x) := fun x => if_pos rfl
  refine ⟨np, (m₅.proc np).pid, ({ m₅ with lock := none } : Memory).setProc np
    ((Store.state .runnable).apply (m₅.proc np)), ?_, hnp, ?_, rfl, fun q hq => ?_, ?_⟩
  · rw [fork, Prog.alone_bind halloc]
    dsimp only
    rw [Prog.alone_act hproc, hcur, Prog.alone_bind hcopy]
    dsimp only
    rw [hcur] at hstore
    rw [hpgdir, hstore, hparent, Prog.alone_bind hdup, Prog.alone_act hchild,
      Prog.alone_act hacquire]
    have hrun : Memory.run endFrame p (.store np (.state .runnable))
        { m₅ with lock := some p } =
      some ((), ({ m₅ with lock := some p } : Memory).setProc np
        ((Store.state .runnable).apply (m₅.proc np))) := rfl
    rw [Prog.alone_act hrun, Prog.alone_act (hrelease _)]
    rfl
  · rw [Memory.setProc_self]
    rfl
  · exact (Memory.setProc_of_ne hq).trans ((h₅.proc q hq).trans ((hstores.proc q hq).trans
      (h₁.proc q hq)))
  · exact hlength.trans_eq (congrArg List.length (h₅.freelist.trans hstores.freelist)).symm

/-- The others are not in the kernel meanwhile. -/
theorem System.steps_alone {α : Type} {x : Kernel α} {r : α} {m' : Memory}
    (h : x.alone (Memory.run endFrame p) m = some (r, m')) (K : α → Kernel Next)
    (thread : Fin NPROC → Option (Kernel Next)) :
    Relation.ReflTransGen (fun s t : System => s.Step data endFrame t ∧
        ∀ k, k ≠ p → t.thread k = s.thread k)
      ⟨m, Function.update thread p (some (x.bind K))⟩
      ⟨m', Function.update thread p (some (K r))⟩ := by
  induction x generalizing m with
  | ret b =>
      cases h
      exact .refl
  | act a g ih =>
      obtain ⟨⟨b, m₁⟩, hrun, h⟩ := Option.bind_eq_some_iff.mp h
      refine .head ⟨.act (Function.update_self _ _ _) hrun, fun k hk => ?_⟩ ?_
      · exact Function.update_of_ne hk _ _
      · dsimp only
        rw [Function.update_idem]
        exact ih b h

end Calls

end SharedMemory

end Xv6Fairness
