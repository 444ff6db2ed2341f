import Xv6Fairness.PrivateSpaces

/-!
# The entries that system calls store

A process in user mode can use the entries with `PTE_U` of its page directory. The system calls
store such entries only for addresses below `KERNBASE` and for pages that came from the allocator,
and no process grows beyond `KERNBASE`, given that the sizes that they read are not beyond it.
-/

namespace Xv6Fairness

open ThreadPrograms
open VirtualMemory (PDX PGSIZE NPDENTRIES PTE_U PTE_W stopFrame Pte Kmap kmap Inode Proghdr chunk
  sub_chunk_lt lt_nextPage lt_PGADDR PGROUNDDOWN_page page_count)

namespace SharedMemory

/-- User mode cannot use the entry. -/
def Closed (perm : UInt32) : Prop := perm &&& PTE_U = 0

/-- The pages that the allocator hands out. -/
def Ram (endFrame f : ℕ) : Prop := endFrame ≤ f ∧ f < stopFrame

/-- An entry of the `i`-th page table, for user mode, is for a page of the allocator below
`KERNBASE`. -/
def Fenced (endFrame i : ℕ) (q : Pte) : Prop := Closed q.perm ∨ i < userTables ∧
    Ram endFrame q.frame

/-- Entries that are stored are fenced and sizes are up to `KERNBASE`. The program may rely on the
sizes that it reads and on the pages that it gets. -/
def guard (endFrame : ℕ) (_ : Unit) : (a : Action) → (a.Res → Unit → Prop) → Prop
  | .kalloc, R => ∀ r : Option ℕ, (∀ f, r = some f → Ram endFrame f) → R r ()
  | .setPte _ a (some q), R => Fenced endFrame (PDX a) q ∧ R () ()
  | .store _ (.sz n), R => n ≤ KERNBASE ∧ R () ()
  | .proc _, R => ∀ r : Proc, r.sz ≤ KERNBASE → R r ()
  | _, R => ∀ r, R r ()

section Programs

variable {α β : Type} {endFrame d a f n : ℕ} {alloc : Bool}
  {va perm oldsz newsz sz len data : UInt32}
  {p k : Fin NPROC} {post : α → Unit → Prop} {last : β → Unit → Prop} {x : Kernel α}
    {y : α → Kernel β}

/-- The program keeps to the guard. -/
abbrev Guards (endFrame : ℕ) (x : Kernel α) : Prop := x.Safe (guard endFrame) (fun _ _ => True) ()

theorem Guards.next (h : Guards endFrame x) (hy : ∀ r, (y r).Safe (guard endFrame) last ()) :
    (x >>= y).Safe (guard endFrame) last () :=
  h.bind fun r _ _ => hy r

theorem guards_panic : (panic : Kernel α).Safe (guard endFrame) post () :=
  ⟨fun _ _ => True, fun r => r.elim, fun r => r.elim⟩

theorem guards_act {c : Action} {z : c.Res → Kernel β}
    (hc : ∀ R : c.Res → Unit → Prop, (∀ r, R r ()) → guard endFrame () c R)
    (hz : ∀ r, (z r).Safe (guard endFrame) last ()) : (act c >>= z).Safe (guard endFrame) last () :=
  .act (hc (fun _ _ => True) fun _ => trivial) fun r _ _ => hz r

theorem guards_last {c : Action}
    (hc : ∀ R : c.Res → Unit → Prop, (∀ r, R r ()) → guard endFrame () c R) :
    Guards endFrame (act c) :=
  .perform (hc (fun _ _ => True) fun _ => trivial)

theorem guards_kalloc {z : Option ℕ → Kernel β} (hnone : (z none).Safe (guard endFrame) last ())
    (hsome : ∀ f, Ram endFrame f → (z (some f)).Safe (guard endFrame) last ()) :
    (act .kalloc >>= z).Safe (guard endFrame) last () := by
  refine .act (R := fun r _ => ∀ f, r = some f → Ram endFrame f) (fun _ => id) ?_
  rintro (_ | f) _ hr
  · exact hnone
  · exact hsome f (hr f rfl)

theorem guards_proc {z : Proc → Kernel β}
    (hz : ∀ r : Proc, r.sz ≤ KERNBASE → (z r).Safe (guard endFrame) last ()) :
    (act (.proc k) >>= z).Safe (guard endFrame) last () :=
  .act (R := fun r _ => r.sz ≤ KERNBASE) (fun _ => id) fun r _ hr => hz r hr

theorem guards_sz {z : Unit → Kernel β} (h : sz ≤ KERNBASE)
    (hz : (z ()).Safe (guard endFrame) last ()) :
    (act (.store k (.sz sz)) >>= z).Safe (guard endFrame) last () :=
  guards_act (fun _ hR => ⟨h, hR ()⟩) fun _ => hz

theorem guards_walkpgdir : Guards endFrame (walkpgdir d a alloc) := by
  refine guards_act (fun _ => id) fun c => ?_
  split_ifs
  · trivial
  · refine guards_kalloc trivial fun f _ => ?_
    exact guards_act (fun _ => id) fun _ => trivial
  · trivial

theorem guards_pte : Guards endFrame (pte d a) := guards_act (fun _ => id) fun _ => trivial

theorem guards_mapPage (h : Fenced endFrame (PDX va.toNat) ⟨f, perm⟩) :
    Guards endFrame (mapPage d va f perm) := by
  refine guards_walkpgdir.next fun b => ?_
  split_ifs
  · refine guards_pte.next fun q => ?_
    split_ifs
    · exact guards_panic
    · exact guards_act (fun R hR => ⟨h, hR ()⟩) fun _ => trivial
  · trivial

theorem guards_mapLoop (h : Closed perm) (n : ℕ) : Guards endFrame (mapLoop d va f perm n) := by
  induction n generalizing va f with
  | zero => exact guards_mapPage (.inl h)
  | succ n ih =>
      refine (guards_mapPage (.inl h)).next fun r => ?_
      split_ifs
      · trivial
      · exact ih

theorem guards_mappages (hf : Ram endFrame f) (hva : va.toNat % PGSIZE = 0)
    (hlt : va.toNat < KERNBASE.toNat) : Guards endFrame (mappages d va 4096 f perm) := by
  have hlt' : va.toNat < 0x80000000 := hlt
  have hpage : va.toNat = PGSIZE * (va.toNat / PGSIZE) :=
    (Nat.mul_div_cancel' (Nat.dvd_of_mod_eq_zero hva)).symm
  have hsize : (4096 : UInt32).toNat = PGSIZE * (0 + 1) := rfl
  have hcount := page_count hpage hsize (by
    change va.toNat / 4096 + 0 < 2 ^ 20
    omega)
  rw [mappages, hcount, PGROUNDDOWN_page hpage]
  refine guards_mapPage (.inr ⟨?_, hf⟩)
  change va.toNat / 2 ^ 22 < 512
  omega

theorem guards_deallocLoop (oldsz : ℕ) : Guards endFrame (deallocLoop d oldsz a) := by
  induction hn : oldsz - a using Nat.strong_induction_on generalizing a with
  | _ n ih =>
    have hnext := lt_nextPage a
    have hdir := lt_PGADDR a
    rw [deallocLoop]
    split_ifs with ha
    · refine guards_walkpgdir.next fun b => ?_
      split_ifs
      · refine guards_pte.next fun q => ?_
        cases q with
        | none => exact ih _ (by omega) rfl
        | some q =>
            dsimp only
            split_ifs
            · exact guards_panic
            · refine guards_act (fun _ => id) fun _ => guards_act (fun _ => id) fun _ => ?_
              exact ih _ (by omega) rfl
      · exact ih _ (by omega) rfl
    · trivial

theorem guards_deallocuvm (h : oldsz ≤ KERNBASE) :
    (deallocuvm d oldsz newsz).Safe (guard endFrame) (fun r _ => r ≤ KERNBASE) () := by
  rw [deallocuvm]
  split_ifs with hge
  · exact h
  · refine (guards_deallocLoop _).next fun _ => ?_
    exact UInt32.le_trans (UInt32.le_of_lt (UInt32.not_le.mp hge)) h

theorem guards_allocLoop (hle : newsz ≤ KERNBASE) (ha : a % PGSIZE = 0) :
    (allocLoop d oldsz newsz a).Safe (guard endFrame) (fun r _ => r ≤ KERNBASE) () := by
  have hzero : (0 : UInt32) ≤ KERNBASE := by decide
  have hbelow : newsz.toNat ≤ 0x80000000 := UInt32.le_iff_toNat_le.mp hle
  induction hn : newsz.toNat - a using Nat.strong_induction_on generalizing a with
  | _ n ih =>
    have hlt := lt_nextPage a
    rw [allocLoop]
    split_ifs with hmore
    · refine guards_kalloc ((guards_deallocuvm hle).bind fun _ _ _ => hzero) fun mem hmem => ?_
      have hnat : (UInt32.ofNat a).toNat = a := Nat.mod_eq_of_lt (hmore.trans newsz.toNat_lt)
      refine (guards_mappages hmem (by rwa [hnat]) ?_).next fun r => ?_
      · rw [hnat]
        exact hmore.trans_le hbelow
      · split_ifs
        · exact (guards_deallocuvm hle).bind fun _ _ _ => guards_act (fun _ => id) fun _ => hzero
        · refine ih _ (by omega) ?_ rfl
          change (a + 4096) % 4096 = 0
          change a % 4096 = 0 at ha
          omega
    · exact hle

theorem guards_allocuvm (h : oldsz ≤ KERNBASE) :
    (allocuvm d oldsz newsz).Safe (guard endFrame) (fun r _ => r ≤ KERNBASE) () := by
  rw [allocuvm]
  split_ifs with hbig
  · exact (by decide : (0 : UInt32) ≤ KERNBASE)
  · exact h
  · exact guards_allocLoop (UInt32.le_of_lt (UInt32.not_le.mp hbig)) (PGROUNDUP_mod oldsz)

theorem guards_freeTables (is : List ℕ) : Guards endFrame (freeTables d is) := by
  induction is with
  | nil => trivial
  | cons i is ih =>
      refine guards_act (fun _ => id) fun c => ?_
      split
      · exact ih
      · exact guards_act (fun _ => id) fun _ => ih

theorem guards_freevm : Guards endFrame (freevm d) := by
  rw [freevm]
  -- the list is not to be evaluated
  generalize List.range NPDENTRIES = is
  split_ifs
  · exact guards_panic
  · refine guards_act (fun _ => id) fun _ => ?_
    refine (guards_deallocuvm (UInt32.le_refl _)).bind fun _ _ _ => ?_
    exact (guards_freeTables is).next fun _ => guards_last fun _ => id

theorem guards_mapKernel {ks : List Kmap} (h : ∀ k ∈ ks, Closed k.perm) :
    Guards endFrame (mapKernel d ks) := by
  induction ks with
  | nil => trivial
  | cons k ks ih =>
      refine (guards_mapLoop (h k List.mem_cons_self) _).next fun r => ?_
      split_ifs
      · trivial
      · exact ih fun l hl => h l (List.mem_cons_of_mem k hl)

theorem kmap_closed : ∀ k ∈ kmap data, Closed k.perm := by
  have hwrite : Closed PTE_W := by
    unfold Closed
    decide
  have hread : Closed 0 := by
    unfold Closed
    decide
  intro k hk
  simp only [kmap, List.mem_cons, List.not_mem_nil, or_false] at hk
  rcases hk with rfl | rfl | rfl | rfl
  · exact hwrite
  · exact hread
  · exact hwrite
  · exact hwrite

theorem guards_setupkvm : Guards endFrame (setupkvm data) := by
  rw [setupkvm]
  refine guards_kalloc trivial fun d _ => ?_
  refine guards_act (fun _ => id) fun _ => ?_
  split_ifs
  · exact guards_panic
  · refine (guards_mapKernel kmap_closed).next fun r => ?_
    split_ifs
    · exact guards_freevm.next fun _ => trivial
    · trivial

theorem guards_copyLoop {t sz i : ℕ} (hle : sz ≤ KERNBASE.toNat) (hi : i % PGSIZE = 0) :
    Guards endFrame (copyLoop d t sz i) := by
  have hbelow : sz ≤ 0x80000000 := hle
  induction hn : sz - i using Nat.strong_induction_on generalizing i with
  | _ n ih =>
    have hlt := lt_nextPage i
    rw [copyLoop]
    split_ifs with hmore
    · refine guards_walkpgdir.next fun b => ?_
      split_ifs
      · refine guards_pte.next fun q => ?_
        cases q with
        | none => exact guards_panic
        | some q =>
            refine guards_kalloc trivial fun mem hmem => ?_
            have hnat : (UInt32.ofNat i).toNat = i := Nat.mod_eq_of_lt (by omega)
            refine (guards_mappages hmem (by rwa [hnat]) ?_).next fun r => ?_
            · rw [hnat]
              exact hmore.trans_le hle
            · split_ifs
              · exact guards_act (fun _ => id) fun _ => trivial
              · refine ih _ (by omega) ?_ rfl
                change (i + 4096) % 4096 = 0
                change i % 4096 = 0 at hi
                omega
      · exact guards_panic
    · trivial

theorem guards_copyuvm (hle : sz ≤ KERNBASE) : Guards endFrame (copyuvm data d sz) := by
  rw [copyuvm]
  refine guards_setupkvm.next fun r => ?_
  cases r with
  | none => trivial
  | some t =>
      refine (guards_copyLoop (UInt32.le_iff_toNat_le.mp hle) (Nat.zero_mod _)).next fun b => ?_
      split_ifs
      · trivial
      · exact guards_freevm.next fun _ => trivial

theorem guards_loadLoop (ip : Inode) (addr offset : UInt32) (i : ℕ) :
    Guards endFrame (loadLoop d ip addr offset sz i) := by
  induction hn : sz.toNat - i using Nat.strong_induction_on generalizing i with
  | _ n ih =>
    have hlt := lt_nextPage i
    rw [loadLoop]
    by_cases hmore : i < sz.toNat
    · rw [if_pos hmore]
      refine guards_walkpgdir.next fun b => ?_
      cases b with
      | false => exact guards_panic
      | true =>
          rw [if_pos rfl]
          extract_lets size
          split_ifs
          · exact ih _ (by omega) _ rfl
          · trivial
    · rw [if_neg hmore]
      trivial

theorem guards_loaduvm (addr : UInt32) (ip : Inode) (offset : UInt32) :
    Guards endFrame (loaduvm d addr ip offset sz) := by
  rw [loaduvm]
  split_ifs
  · exact guards_panic
  · exact guards_loadLoop ip addr offset 0

theorem closed_clear (perm : UInt32) : Closed (perm &&& ~~~PTE_U) := VirtualMemory.not_user perm

theorem guards_clearpteu (uva : UInt32) : Guards endFrame (clearpteu d uva) := by
  refine guards_walkpgdir.next fun b => ?_
  split_ifs
  · refine guards_pte.next fun q => ?_
    cases q with
    | none => exact guards_last fun _ => id
    | some q => exact guards_last fun R hR => ⟨.inl (closed_clear q.perm), hR ()⟩
  · exact guards_panic

theorem guards_copyout (va : UInt32) : Guards endFrame (copyout d va len) := by
  induction hn : len.toNat using Nat.strong_induction_on generalizing va len with
  | _ n ih =>
    rw [copyout]
    split_ifs with hpos
    · have hlt : (len - chunk va len).toNat < len.toNat := sub_chunk_lt hpos
      refine guards_walkpgdir.next fun b => ?_
      split_ifs
      · refine guards_pte.next fun q => ?_
        cases q with
        | none => trivial
        | some q =>
            dsimp only
            split_ifs
            · trivial
            · exact ih _ (hn ▸ hlt) _ rfl
      · exact guards_panic
    · trivial

/-- A size that a part of `exec` hands on. -/
def Sized (r : Option UInt32) (_ : Unit) : Prop := ∀ sz, r = some sz → sz ≤ KERNBASE

theorem sized_none : Sized none () := by
  intro sz h
  cases h

theorem sized_some (h : sz ≤ KERNBASE) : Sized (some sz) () := by
  rintro _ ⟨⟩
  exact h

theorem guards_loadSegment (ip : Inode) (ph : Proghdr) (hle : sz ≤ KERNBASE) :
    (loadSegment d ip ph sz).Safe (guard endFrame) Sized () := by
  rw [loadSegment]
  split
  · exact sized_some hle
  split
  · exact sized_none
  split
  · exact sized_none
  refine (guards_allocuvm hle).bind fun r _ hr => ?_
  split_ifs
  · exact sized_none
  · exact sized_none
  · refine (guards_loaduvm _ ip _).next fun _ => ?_
    split_ifs
    · exact sized_none
    · exact sized_some hr

theorem guards_loadProgram (ip : Inode) (n : ℕ) (off : UInt32) (hle : sz ≤ KERNBASE) :
    (loadProgram d ip off sz n).Safe (guard endFrame) Sized () := by
  induction n generalizing off sz with
  | zero => exact sized_some hle
  | succ n ih =>
      rw [loadProgram]
      split_ifs
      · exact sized_none
      · refine (guards_loadSegment ip _ hle).bind fun r _ hr => ?_
        cases r with
        | none => exact sized_none
        | some sz' => exact ih _ (hr sz' rfl)

theorem guards_pushArgs (args : List (List UInt8)) (sp : UInt32) (argc : ℕ) :
    Guards endFrame (pushArgs d sp argc args) := by
  induction args generalizing sp argc with
  | nil => trivial
  | cons arg args ih =>
      rw [pushArgs]
      split_ifs
      · trivial
      · refine (guards_copyout _).next fun r => ?_
        split_ifs
        · trivial
        · exact ih _ _

theorem guards_buildStack (hle : sz ≤ KERNBASE) (argv : List (List UInt8)) :
    (buildStack d sz argv).Safe (guard endFrame) Sized () := by
  rw [buildStack]
  refine (guards_allocuvm (PGROUNDUP_le hle)).bind fun r _ hr => ?_
  split_ifs
  · exact sized_none
  · refine (guards_clearpteu _).next fun _ => (guards_pushArgs argv _ _).next fun sp => ?_
    cases sp with
    | none => exact sized_none
    | some sp =>
        refine (guards_copyout _).next fun _ => ?_
        split_ifs
        · exact sized_none
        · exact sized_some hr

theorem guards_commit (hle : sz ≤ KERNBASE) : Guards endFrame (commit p d sz) := by
  rw [commit]
  refine guards_proc fun r _ => guards_act (fun _ => id) fun _ => guards_sz hle ?_
  split_ifs
  · exact guards_panic
  · exact guards_freevm.next fun _ => trivial

theorem guards_exec (ip : Option Inode) (argv : List (List UInt8)) :
    Guards endFrame (exec data p ip argv) := by
  have hdiscard : ∀ d, Guards endFrame (freevm d >>= fun _ => (pure (-1) : Kernel ℤ)) := fun d =>
    guards_freevm.next fun _ => trivial
  cases ip with
  | none => trivial
  | some ip =>
      rw [exec]
      split_ifs
      · trivial
      · trivial
      · refine guards_setupkvm.next fun r => ?_
        cases r with
        | none => trivial
        | some d =>
            refine (guards_loadProgram ip _ _ (by decide)).bind fun r _ hr => ?_
            cases r with
            | none => exact hdiscard d
            | some sz =>
                refine (guards_buildStack (hr sz rfl) argv).bind fun r _ hr => ?_
                cases r with
                | none => exact hdiscard d
                | some sz => exact guards_commit (hr sz rfl)

theorem guards_growproc (n : Int32) : Guards endFrame (growproc p n) := by
  refine guards_proc fun r hle => ?_
  split_ifs
  · refine (guards_allocuvm hle).bind fun sz _ hsz => ?_
    split_ifs
    · trivial
    · exact guards_sz hsz trivial
  · refine (guards_deallocuvm hle).bind fun sz _ hsz => ?_
    split_ifs
    · trivial
    · exact guards_sz hsz trivial
  · trivial

theorem guards_fileclose (i : Fin NFILE) : Guards endFrame (fileclose i) := by
  refine guards_act (fun _ => id) fun r => ?_
  rcases r with _ | _ | ⟨f, b⟩
  · trivial
  · trivial
  · refine guards_act (fun _ => id) fun r => ?_
    split_ifs
    · exact guards_last fun _ => id
    · trivial

theorem guards_pipealloc : Guards endFrame pipealloc := by
  refine guards_act (fun _ => id) fun r => ?_
  cases r with
  | none => trivial
  | some i =>
      refine guards_act (fun _ => id) fun r => ?_
      cases r with
      | none => exact (guards_fileclose i).next fun _ => trivial
      | some j =>
          refine guards_kalloc ?_ fun f _ => ?_
          · exact (guards_fileclose i).next fun _ => (guards_fileclose j).next fun _ => trivial
          · refine guards_act (fun _ => id) fun _ => guards_act (fun _ => id) fun _ => ?_
            exact guards_act (fun _ => id) fun _ => trivial

theorem guards_fdalloc (i : Fin NFILE) : Guards endFrame (fdalloc p i) := by
  refine guards_proc fun r _ => ?_
  split
  · trivial
  · exact guards_act (fun _ => id) fun _ => trivial

theorem guards_pipe : Guards endFrame (pipe p) := by
  have hclose : ∀ i j, Guards endFrame (do
      fileclose i
      fileclose j
      pure (-1) : Kernel ℤ) := fun i j =>
    (guards_fileclose i).next fun _ => (guards_fileclose j).next fun _ => trivial
  refine guards_pipealloc.next fun r => ?_
  rcases r with _ | ⟨rf, wf⟩
  · trivial
  · refine (guards_fdalloc rf).next fun r => ?_
    cases r with
    | none => exact hclose rf wf
    | some fd0 =>
        refine (guards_fdalloc wf).next fun r => ?_
        cases r with
        | none => exact guards_act (fun _ => id) fun _ => hclose rf wf
        | some fd1 => trivial

theorem guards_close (fd : Fin NOFILE) : Guards endFrame (close p fd) := by
  refine guards_proc fun r _ => ?_
  split
  · trivial
  · exact guards_act (fun _ => id) fun _ => (guards_fileclose _).next fun _ => trivial

theorem guards_allocproc : Guards endFrame allocproc := by
  refine guards_act (fun _ => id) fun _ => guards_act (fun _ => id) fun r => ?_
  cases r with
  | none => exact guards_act (fun _ => id) fun _ => trivial
  | some k =>
      refine guards_act (fun _ => id) fun _ => guards_kalloc ?_ fun f _ => ?_
      · exact guards_act (fun _ => id) fun _ => guards_act (fun _ => id) fun _ => trivial
      · exact guards_act (fun _ => id) fun _ => trivial

theorem guards_dupFiles (fds : List (Fin NOFILE)) : Guards endFrame (dupFiles p k fds) := by
  induction fds with
  | nil => trivial
  | cons fd fds ih =>
      refine guards_proc fun r _ => ?_
      split
      · exact ih
      · exact guards_act (fun _ => id) fun _ => guards_act (fun _ => id) fun _ => ih

theorem guards_fork : Guards endFrame (fork data p) := by
  refine guards_allocproc.next fun r => ?_
  cases r with
  | none => trivial
  | some k =>
      refine guards_proc fun r hle => (guards_copyuvm hle).next fun d => ?_
      cases d with
      | none =>
          refine guards_act (fun _ => id) fun _ => guards_proc fun child _ => ?_
          refine guards_act (fun _ => id) fun _ => guards_act (fun _ => id) fun _ => ?_
          exact guards_act (fun _ => id) fun _ => trivial
      | some d =>
          refine guards_act (fun _ => id) fun _ => guards_sz hle ?_
          refine guards_act (fun _ => id) fun _ => (guards_dupFiles _).next fun _ => ?_
          refine guards_proc fun child _ => ?_
          refine guards_act (fun _ => id) fun _ => guards_act (fun _ => id) fun _ => ?_
          exact guards_act (fun _ => id) fun _ => trivial

theorem guards_closeFiles (fds : List (Fin NOFILE)) : Guards endFrame (closeFiles p fds) := by
  induction fds with
  | nil => trivial
  | cons fd fds ih =>
      refine guards_proc fun r _ => ?_
      split
      · exact ih
      · exact (guards_fileclose _).next fun _ => guards_act (fun _ => id) fun _ => ih

theorem guards_exit : Guards endFrame (exit p) := by
  rw [exit]
  split_ifs
  · exact guards_panic
  · exact (guards_closeFiles _).next fun _ => guards_act (fun _ => id) fun _ => trivial

theorem guards_wait : Guards endFrame (wait p) := by
  refine guards_act (fun _ => id) fun _ => guards_act (fun _ => id) fun r => ?_
  rcases r with ⟨b, _ | k⟩
  · refine guards_proc fun r _ => guards_act (fun _ => id) fun _ => ?_
    split_ifs
    · trivial
    · trivial
  · refine guards_proc fun child _ => guards_act (fun _ => id) fun _ =>
      guards_act (fun _ => id) fun _ => ?_
    refine guards_freevm.next fun _ => guards_act (fun _ => id) fun _ => ?_
    exact guards_act (fun _ => id) fun _ => guards_act (fun _ => id) fun _ => trivial

theorem Call.guards (c : Call) : Guards endFrame (c.prog data p) := by
  cases c with
  | fork => exact guards_fork.next fun _ => trivial
  | exec ip argv => exact (guards_exec ip argv).next fun _ => trivial
  | sbrk n => exact guards_proc fun _ _ => (guards_growproc n).next fun _ => trivial
  | exit => exact guards_exit
  | wait => exact guards_wait
  | pipe => exact guards_pipe.next fun _ => trivial
  | close fd => exact (guards_close fd).next fun _ => trivial

end Programs

end SharedMemory

end Xv6Fairness
