import Xv6Fairness.HeapMalloc

/-!
# The heap in every run

A program calls `malloc` and `free` and stores into its blocks. In every state of a run the free
list is a ring of free blocks in the order of their addresses, the free blocks and the blocks in use
partition the memory from `sbrk`, and every call returns.
-/

namespace Xv6Fairness

namespace Heap

open CircularLists TransitionRuns

/-- The blocks in use are given with the number of bytes asked for. -/
structure Program where
  heap : State
  live : List (ℕ × ℕ)

inductive Step (base : ℕ) (P : Program) : Program → Prop
  | malloc {t : State} {res : Option ℕ} (sbrk : ℕ → ℕ → Bool) (nb : ℕ) (hnb : nb < 2 ^ 30)
      (h : malloc P.heap base sbrk nb = some (t, res)) :
      Step base P ⟨t, (res.toList.map fun q => (q, nb)) ++ P.live⟩
  | free {t : State} {bp r : ℕ} (hlive : (bp, r) ∈ P.live) (h : free P.heap bp = some t) :
      Step base P ⟨t, P.live.erase (bp, r)⟩
  | store {q r a : ℕ} (x : Header) (hlive : (q, r) ∈ P.live) (ha : q < a)
      (har : (a - q - 1) * HEADER < r) :
      Step base P ⟨{ P.heap with mem := Function.update P.heap.mem a x }, P.live⟩

structure Initial (base start : ℕ) (P : Program) : Prop where
  base_lt : base < start
  brk : P.heap.brk = start
  freep : P.heap.freep = none
  live : P.live = []

def Reachable (base start : ℕ) : Program → Prop := Reaches (Initial base start) (Step base)

/-- Before the first call of `malloc` there is no list. -/
def Kept (base start : ℕ) (P : Program) : Prop :=
  Initial base start P ∨ ∃ bs, Inv base start P.heap bs ∧ P.live.Perm (lives start bs)

section Steps

variable {base start q r a : ℕ} {P Q : Program} {s : State} {bs : List Block} {x : Header}

theorem Inv.store (h : Inv base start s bs) (hlive : (q, r) ∈ lives start bs) (ha : q < a)
    (har : (a - q - 1) * HEADER < r) :
    Inv base start { s with mem := Function.update s.mem a x } bs := by
  obtain ⟨pre, n, post, rfl, rfl⟩ := exists_live hlive
  have hbase := h.base_lt
  have hroom := h.room ⟨n, some r⟩ (List.mem_append_right _ List.mem_cons_self) r rfl
  have hplace := h.place rfl
  have hlt : a < start + total pre + n := by
    unfold HEADER at har hroom
    simp only at hroom
    omega
  have hkeep : ∀ y, y ≠ a → Function.update s.mem a x y = s.mem y := fun y hy =>
    Function.update_of_ne hy _ _
  obtain ⟨hpre, hsize, hpost⟩ := sized_append.mp h.sized
  refine ⟨hbase, h.brk, ?_, sized_append.mpr ⟨hpre.congr hplace.pos_pre fun y _ hy => ?_, ?_,
    hpost.congr hplace.pos_post fun y hy _ => ?_⟩, h.pos, h.ring.congr fun y hy => ?_,
      h.apart, h.room,
    h.freep⟩
  · simp only [hkeep base (by omega)]
    exact h.base_size
  · simp only [hkeep y (by omega)]
  · simp only [hkeep (start + total pre) (by omega)]
    exact hsize
  · simp only at hy
    simp only [hkeep y (by omega)]
  · have hy' : y ≠ a := by
      rw [frees_append, frees, if_neg (Option.some_ne_none r), ← List.cons_append] at hy
      rcases List.mem_append.mp hy with hy | hy
      · have hlow := hplace.below hy
        omega
      · have hhigh := hplace.above hy
        omega
    simp only [hkeep y hy']

theorem Kept.inv_malloc (h : Kept base start P) (sbrk : ℕ → ℕ → Bool) {nb : ℕ} (hnb : nb < 2 ^ 30) :
    ∃ t res bs s, malloc P.heap base sbrk nb = some (t, res) ∧ s.brk = P.heap.brk ∧
      P.live.Perm (lives start bs) ∧ Inv base start s bs ∧
      Serves base start s (lives start bs) sbrk nb t res := by
  rcases h with h | ⟨bs, h, hlive⟩
  · have hinit : Inv base P.heap.brk (init P.heap base) [] := init_inv (h.brk ▸ h.base_lt)
    rw [h.brk] at hinit
    obtain ⟨t, res, hmalloc, hserves⟩ := hinit.malloc sbrk hnb
    rw [← malloc_init sbrk h.freep] at hmalloc
    exact ⟨t, res, [], init P.heap base, hmalloc, rfl, h.live ▸ .refl _, hinit, hserves⟩
  · obtain ⟨t, res, hmalloc, hserves⟩ := h.malloc sbrk hnb
    exact ⟨t, res, bs, P.heap, hmalloc, rfl, hlive, h, hserves⟩

theorem Kept.step (h : Kept base start P) (hstep : Step base P Q) : Kept base start Q := by
  cases hstep with
  | @malloc t res sbrk nb hnb hmalloc =>
      obtain ⟨t', res', bs, s, hmalloc', -, hlive, hinv, hserves⟩ := h.inv_malloc sbrk hnb
      obtain ⟨rfl, rfl⟩ := Prod.mk.inj (Option.some.inj (hmalloc.symm.trans hmalloc'))
      cases res with
      | none =>
          obtain ⟨rfl, -⟩ := hserves
          exact .inr ⟨bs, hinv, hlive⟩
      | some q =>
          obtain ⟨bs', hinv', hperm⟩ := hserves
          exact .inr ⟨bs', hinv', (hlive.cons _).trans hperm.symm⟩
  | @free t bp r hlive hfree =>
      rcases h with h | ⟨bs, h, hperm⟩
      · rw [h.live] at hlive
        cases hlive
      · obtain ⟨t', bs', hfree', hinv, hperm'⟩ := h.free (hperm.mem_iff.mp hlive)
        obtain rfl := Option.some.inj (hfree.symm.trans hfree')
        refine .inr ⟨bs', hinv, ?_⟩
        have herase := (hperm.trans hperm').erase (bp, r)
        rw [List.erase_cons_head] at herase
        exact herase
  | store x hlive ha har =>
      rcases h with h | ⟨bs, h, hperm⟩
      · rw [h.live] at hlive
        cases hlive
      · exact .inr ⟨bs, h.store (hperm.mem_iff.mp hlive) ha har, hperm⟩

theorem Reachable.kept (h : Reachable base start P) : Kept base start P :=
  Reaches.invariant (fun _ h0 => .inl h0) (fun _ _ _ hs h => hs.step h) h

end Steps

/-- The blocks at these addresses are disjoint and fill the memory between two addresses. -/
structure Partitions (start stop : ℕ) (size : ℕ → ℕ) (blocks : List ℕ) : Prop where
  nodup : blocks.Nodup
  inside : ∀ b ∈ blocks, start ≤ b ∧ 0 < size b ∧ b + size b ≤ stop
  cover : ∀ x, start ≤ x → x < stop → ∃! b, b ∈ blocks ∧ b ≤ x ∧ x < b + size b

def starts : ℕ → List Block → List ℕ
  | _, [] => []
  | a, b :: bs => a :: starts (a + b.size) bs

section Partition

variable {a start stop : ℕ} {bs : List Block} {mem : ℕ → Header} {size : ℕ → ℕ} {xs ys : List ℕ}

theorem Partitions.perm (h : Partitions start stop size xs) (hperm : xs.Perm ys) :
    Partitions start stop size ys := by
  refine ⟨hperm.nodup_iff.mp h.nodup, fun b hb => h.inside b (hperm.mem_iff.mpr hb),
    fun x hle hlt => ?_⟩
  obtain ⟨b, ⟨hb, hin⟩, hunique⟩ := h.cover x hle hlt
  exact ⟨b, ⟨hperm.mem_iff.mp hb, hin⟩, fun c ⟨hc, hin'⟩ => hunique c ⟨hperm.mem_iff.mpr hc, hin'⟩⟩

theorem partitions_starts (hsized : Sized mem a bs) (hpos : ∀ b ∈ bs, 0 < b.size) :
    Partitions a (a + total bs) (fun p => (mem p).size) (starts a bs) := by
  induction bs generalizing a with
  | nil => exact ⟨List.nodup_nil, nofun, fun x hle hlt => absurd hlt (not_lt.mpr hle)⟩
  | cons b bs ih =>
      have hb := hpos b List.mem_cons_self
      have hsize := hsized.1
      obtain ⟨hnodup, hinside, hcover⟩ := ih hsized.2 fun c hc => hpos c (List.mem_cons_of_mem _ hc)
      rw [total_cons, ← Nat.add_assoc]
      refine ⟨List.nodup_cons.mpr ⟨fun hmem => ?_, hnodup⟩, fun c hc => ?_, fun x hle hlt => ?_⟩
      · have hle := (hinside a hmem).1
        omega
      · rcases List.mem_cons.mp hc with rfl | hc
        · simp only [hsize]
          omega
        · obtain ⟨hle, hpos', hend⟩ := hinside c hc
          exact ⟨by omega, hpos', hend⟩
      · by_cases hx : x < a + b.size
        · refine ⟨a, ⟨List.mem_cons_self, hle, by simp only [hsize]; omega⟩,
            fun c ⟨hc, hcx, _⟩ => ?_⟩
          rcases List.mem_cons.mp hc with rfl | hc
          · rfl
          · have hlow := (hinside c hc).1
            omega
        · obtain ⟨c, ⟨hc, hin⟩, hunique⟩ := hcover x (not_lt.mp hx) hlt
          refine ⟨c, ⟨List.mem_cons_of_mem _ hc, hin⟩, fun d ⟨hd, hdx, hxd⟩ => ?_⟩
          rcases List.mem_cons.mp hd with rfl | hd
          · simp only [hsize] at hxd
            exact absurd hxd hx
          · exact hunique d ⟨hd, hdx, hxd⟩

theorem starts_perm : (frees a bs ++ (lives a bs).map Prod.fst).Perm (starts a bs) := by
  induction bs generalizing a with
  | nil => exact .refl _
  | cons b bs ih =>
      obtain ⟨n, use⟩ := b
      cases use with
      | none => exact ih.cons a
      | some r => exact List.perm_middle.trans (ih.cons a)

theorem frees_apart (hsized : Sized mem a bs) (hpos : ∀ b ∈ bs, 0 < b.size) (hapart : Apart bs) :
    ∀ p ∈ frees a bs, p + (mem p).size ∉ frees a bs := by
  induction bs generalizing a with
  | nil => exact nofun
  | cons b bs ih =>
      have hb := hpos b List.mem_cons_self
      have hpos' : ∀ c ∈ bs, 0 < c.size := fun c hc => hpos c (List.mem_cons_of_mem _ hc)
      obtain ⟨hhead, hapart'⟩ := List.isChain_cons.mp hapart
      have htail := ih hsized.2 hpos' hapart'
      by_cases hfree : b.use = none
      · rw [frees, if_pos hfree]
        intro p hp hmem
        rcases List.mem_cons.mp hp with rfl | hp
        · rw [hsized.1] at hmem
          rcases List.mem_cons.mp hmem with heq | hmem
          · omega
          · cases bs with
            | nil => cases hmem
            | cons c bs =>
                have hc := hpos' c List.mem_cons_self
                rw [frees, if_neg (hhead c rfl hfree)] at hmem
                have hle := (frees_bounds (fun d hd => hpos' d (List.mem_cons_of_mem _ hd)) hmem).1
                omega
        · have hle := (frees_bounds hpos' hp).1
          rcases List.mem_cons.mp hmem with heq | hmem
          · omega
          · exact htail p hp hmem
      · rw [frees, if_neg hfree]
        exact htail

theorem live_size {q r : ℕ} (hsized : Sized mem a bs) (hx : (q, r) ∈ lives a bs) :
    ∃ b ∈ bs, b.use = some r ∧ (mem q).size = b.size := by
  obtain ⟨pre, n, post, rfl, rfl⟩ := exists_live hx
  exact ⟨⟨n, some r⟩, List.mem_append_right _ List.mem_cons_self, rfl, (sized_append.mp hsized).2.1⟩

end Partition

section Runs

variable {base start : ℕ} {P : Program}

/-- Either `malloc` has not been called, or the free list is a ring that is sorted by address but
for its one wrap at `base` and without adjacent blocks, and it partitions the heap with the blocks
in use; a block in use has the bytes asked for behind its header. Every call returns, and `malloc`
returns 0 only after `sbrk` has refused. -/
theorem heap_partitioned (h : Reachable base start P) :
    (P.heap.freep = none ∧ P.heap.brk = start ∧ P.live = [] ∨
      ∃ free, (∃ p ∈ base :: free, P.heap.freep = some p) ∧
        Path (fun p => (P.heap.mem p).ptr) base free base ∧ (base :: free).Pairwise (· < ·) ∧
        (∀ p ∈ free, p + (P.heap.mem p).size ∉ free) ∧
        Partitions start P.heap.brk (fun p => (P.heap.mem p).size) (free ++ P.live.map Prod.fst)) ∧
    (∀ q r, (q, r) ∈ P.live → r ≤ ((P.heap.mem q).size - 1) * HEADER) ∧
    (∀ nb < 2 ^ 30, ∀ sbrk, ∃ t res, malloc P.heap base sbrk nb = some (t, res) ∧
      (res = none → sbrk P.heap.brk (max (nunits nb) 4096 * HEADER) = false)) ∧
    ∀ q r, (q, r) ∈ P.live → ∃ t, free P.heap q = some t := by
  have hkept := h.kept
  refine ⟨?_, ?_, fun nb hnb sbrk => ?_, ?_⟩
  · rcases hkept with h | ⟨bs, h, hperm⟩
    · exact .inl ⟨h.freep, h.brk, h.live⟩
    · refine .inr ⟨frees start bs, h.freep, h.ring, ?_, frees_apart h.sized h.pos h.apart, ?_⟩
      · refine List.pairwise_cons.mpr ⟨fun x hx => ?_, frees_sorted h.pos⟩
        exact h.base_lt.trans_le (frees_bounds h.pos hx).1
      · rw [h.brk]
        exact (partitions_starts h.sized h.pos).perm
          (((hperm.map Prod.fst).append_left _).trans starts_perm).symm
  · intro q r hlive
    rcases hkept with h | ⟨bs, h, hperm⟩
    · rw [h.live] at hlive
      cases hlive
    · obtain ⟨b, hb, huse, hsize⟩ := live_size h.sized (hperm.mem_iff.mp hlive)
      rw [hsize]
      exact h.room b hb r huse
  · obtain ⟨t, res, bs, s, hmalloc, hbrk, -, -, hserves⟩ := hkept.inv_malloc sbrk hnb
    refine ⟨t, res, hmalloc, ?_⟩
    rintro rfl
    rw [← hbrk]
    exact hserves.2
  · intro q r hlive
    rcases hkept with h | ⟨bs, h, hperm⟩
    · rw [h.live] at hlive
      cases hlive
    · obtain ⟨t, -, hfree, -⟩ := h.free (hperm.mem_iff.mp hlive)
      exact ⟨t, hfree⟩

/-- A heap with one block in use. -/
theorem heap_partitioned_malloc : ∃ P, Reachable 1 8 P ∧ P.live = [(4101, 10)] ∧
    ∃ free, Partitions 8 P.heap.brk (fun p => (P.heap.mem p).size)
    (free ++ P.live.map Prod.fst) := by
  let s : State := ⟨fun _ => ⟨0, 0⟩, none, 8⟩
  have hrun : (malloc s 1 (fun _ _ => true) 10).any (fun r => decide (r.2 = some 4101)) = true := by
    decide +kernel
  obtain ⟨⟨t, res⟩, hmalloc, hres⟩ := (Option.any_eq_true _ _).mp hrun
  obtain rfl : res = some 4101 := of_decide_eq_true hres
  have hstep := Step.malloc (P := ⟨s, []⟩) (fun _ _ => true) 10 (by decide) hmalloc
  have hreach : Reachable 1 8 ⟨t, [(4101, 10)]⟩ := .step (.start ⟨by decide, rfl, rfl, rfl⟩) hstep
  refine ⟨_, hreach, rfl, ?_⟩
  rcases (heap_partitioned hreach).1 with ⟨-, -, hnil⟩ | ⟨free, -, -, -, -, hpart⟩
  · cases hnil
  · exact ⟨free, hpart⟩

end Runs

end Heap

end Xv6Fairness
