import Mathlib.Data.Fintype.EquivFin
import Mathlib.GroupTheory.Perm.Basic
import Mathlib.Data.List.FinRange
import Xv6Fairness.Ledgers
import Xv6Fairness.UserStrings

/-!
# The I/O-bound program

`perform_io_operations` fills lines in allocated memory, writes and reads them, swaps their pointers
and writes them again. Each of its six ways out gives back what has been taken so far. Blocks and
descriptors are known by the number of the call that returned them. The contents of the file and the
times are not modelled; `none` is a use of a null pointer.
-/

namespace Xv6Fairness

namespace IoBound

open Ledgers

def NUM_LINES : ℕ := 20

def LINE_LENGTH : ℕ := 50

instance : NeZero NUM_LINES := ⟨by decide⟩

/-- What the kernel and the heap answer, by the number of the call. -/
structure Env where
  opens : ℕ → Bool
  mallocs : ℕ → Bool
  reads : ℕ → ℤ

structure State where
  seed : UInt32
  heap : Ledger
  files : Ledger
  reads : ℕ

/-- The array `lines`. -/
abbrev Lines := Fin NUM_LINES → Option ℕ

/-- `generate_random_line` with the text it stores. -/
def generateRandomLine (seed : UInt32) : List UInt8 × UInt32 :=
  (List.range (LINE_LENGTH - 1)).foldl (fun s _ =>
    let (r, seed) := customRand s.2
    (s.1 ++ [65 + (r % 26).toUInt8], seed)) ([], seed)

def allocLines (env : Env) : List (Fin NUM_LINES) → Lines → Ledger →
    Lines × Ledger × Option (Fin NUM_LINES)
  | [], lines, heap => (lines, heap, none)
  | i :: rest, lines, heap =>
    match heap.request (env.mallocs heap.next) with
    | (none, heap) => (Function.update lines i none, heap, some i)
    | (some block, heap) => allocLines env rest (Function.update lines i (some block)) heap

def freeLine (lines : Lines) (heap : Ledger) (i : Fin NUM_LINES) : Option Ledger :=
  (lines i).map heap.release

def freeLines (lines : Lines) (array : ℕ) (heap : Ledger) : Option Ledger := do
  let heap ← (List.finRange NUM_LINES).foldlM (freeLine lines) heap
  some (heap.release array)

/-- A random text for line `i`, written to the file. -/
def fillLine (lines : Lines) (seed : UInt32) (i : Fin NUM_LINES) : Option UInt32 :=
  (lines i).map fun _ => (generateRandomLine seed).2

/-- The reads up to the first that returns nothing. -/
def readLines (env : Env) : ℕ → ℕ → ℕ
  | 0, reads => reads
  | k + 1, reads => if env.reads reads ≤ 0 then reads + 1 else readLines env k (reads + 1)

def swapLines (s : Lines × UInt32) : Lines × UInt32 :=
  let (lines, seed) := s
  let (r, seed) := customRand seed
  let idx1 := Fin.ofNat NUM_LINES r.toNat
  let (r, seed) := customRand seed
  let idx2 := Fin.ofNat NUM_LINES r.toNat
  (Function.update (Function.update lines idx1 (lines idx2)) idx2 (lines idx1), seed)

/-- From the third `open` on. -/
def writePermuted (env : Env) (lines : Lines) (array : ℕ) (s : State) : Option State :=
  let (fd, files) := s.files.request (env.opens s.files.next)
  match fd with
  | none => do
    let heap ← freeLines lines array s.heap
    some { s with files := files, heap := heap }
  | some fd => do
    let _ ← (List.finRange NUM_LINES).mapM lines
    let heap ← freeLines lines array s.heap
    some { s with files := files.release fd, heap := heap }

/-- From the second `open` on. -/
def readAndPermute (env : Env) (lines : Lines) (array : ℕ) (s : State) : Option State :=
  let (fd, files) := s.files.request (env.opens s.files.next)
  match fd with
  | none => do
    let heap ← freeLines lines array s.heap
    some { s with files := files, heap := heap }
  | some fd =>
    let reads := readLines env NUM_LINES s.reads
    let files := files.release fd
    let (lines, seed) := (List.range 10).foldl (fun s _ => swapLines s) (lines, s.seed)
    writePermuted env lines array ⟨seed, s.heap, files, reads⟩

/-- From the allocation of the lines on. -/
def allocAndWrite (env : Env) (fd array : ℕ) (s : State) : Option State :=
  match allocLines env (List.finRange NUM_LINES) (fun _ => none) s.heap with
  | (lines, heap, some i) => do
    let heap ← ((List.finRange NUM_LINES).filter fun j => j < i).foldlM (freeLine lines) heap
    some { s with files := s.files.release fd, heap := heap.release array }
  | (lines, heap, none) => do
    let seed ← (List.finRange NUM_LINES).foldlM (fillLine lines) s.seed
    readAndPermute env lines array ⟨seed, heap, s.files.release fd, s.reads⟩

def performIoOperations (env : Env) (s : State) : Option State :=
  let (fd, files) := s.files.request (env.opens s.files.next)
  match fd with
  | none => some { s with files := files }
  | some fd =>
    let (array, heap) := s.heap.request (env.mallocs s.heap.next)
    match array with
    | none => some { s with files := files.release fd, heap := heap }
    | some array => allocAndWrite env fd array { s with files := files, heap := heap }

section Balance

variable {env : Env} {lines : Lines} {l : List (Fin NUM_LINES)} {heap : Ledger} {out : List ℕ}
  {array : ℕ}

theorem freeLine_foldlM (hsome : ∀ i ∈ l, (lines i).isSome)
    (h : heap.Owes (l.filterMap lines ++ out)) :
    ∃ t, l.foldlM (freeLine lines) heap = some t ∧ t.Owes out := by
  induction l generalizing heap with
  | nil => exact ⟨heap, rfl, h⟩
  | cons i l ih =>
      obtain ⟨block, hblock⟩ := Option.isSome_iff_exists.mp (hsome i List.mem_cons_self)
      rw [List.filterMap_cons_some hblock] at h
      obtain ⟨t, ht, howes⟩ := ih (fun j hj => hsome j (List.mem_cons_of_mem _ hj)) h.release
      refine ⟨t, ?_, howes⟩
      rw [List.foldlM_cons, freeLine, hblock]
      exact ht

theorem freeLines_spec (hsome : ∀ i, (lines i).isSome)
    (h : heap.Owes ((List.finRange NUM_LINES).filterMap lines ++ [array])) :
    ∃ t, freeLines lines array heap = some t ∧ t.Owes [] := by
  obtain ⟨t, ht, howes⟩ := freeLine_foldlM (fun i _ => hsome i) h
  refine ⟨t.release array, ?_, howes.release⟩
  rw [freeLines, ht]
  rfl

theorem allocLines_spec (env : Env) (pre rest : List (Fin NUM_LINES)) (lines : Lines)
    (hnodup : (pre ++ rest).Nodup)
    (hsome : ∀ i ∈ pre, (lines i).isSome) (h : heap.Owes (pre.filterMap lines ++ out)) :
    (∃ lines' heap', allocLines env rest lines heap = (lines', heap', none) ∧
      (∀ i ∈ pre ++ rest, (lines' i).isSome) ∧
      heap'.Owes ((pre ++ rest).filterMap lines' ++ out)) ∨
    ∃ lines' heap' i done todo, allocLines env rest lines heap = (lines', heap', some i) ∧
      rest = done ++ i :: todo ∧ (∀ j ∈ pre ++ done, (lines' j).isSome) ∧
      heap'.Owes ((pre ++ done).filterMap lines' ++ out) := by
  induction rest generalizing pre lines heap with
  | nil =>
      rw [List.append_nil]
      exact Or.inl ⟨lines, heap, rfl, hsome, h⟩
  | cons i rest ih =>
      have hi : i ∉ pre := fun hmem =>
        (List.disjoint_of_nodup_append hnodup) hmem List.mem_cons_self
      have hkept : ∀ v, ∀ j ∈ pre, Function.update lines i v j = lines j := by
        intro v j hj
        have hne : j ≠ i := fun heq => hi (heq ▸ hj)
        rw [Function.update_of_ne hne]
      have hmap : ∀ v, pre.filterMap (Function.update lines i v) = pre.filterMap lines := fun v =>
        List.filterMap_congr (hkept v)
      have hsome' : ∀ v, ∀ j ∈ pre, (Function.update lines i v j).isSome := fun v j hj => by
        rw [hkept v j hj]
        exact hsome j hj
      rw [allocLines]
      have howes := h.request (env.mallocs heap.next)
      cases hgranted : env.mallocs heap.next with
      | false =>
          rw [hgranted] at howes
          refine Or.inr ⟨_, _, i, [], rest, rfl, rfl, ?_, ?_⟩
          · rw [List.append_nil]
            exact hsome' none
          · rw [List.append_nil, hmap]
            exact howes
      | true =>
          rw [hgranted] at howes
          have hpre : pre ++ i :: rest = (pre ++ [i]) ++ rest := by
            rw [List.append_assoc, List.singleton_append]
          have hall : ∀ j ∈ pre ++ [i], (Function.update lines i (some heap.next) j).isSome := by
            intro j hj
            rcases List.mem_append.mp hj with hj | hj
            · exact hsome' _ j hj
            · rw [List.mem_singleton.mp hj, Function.update_self]
              rfl
          have hnext : (heap.request true).2.Owes
              ((pre ++ [i]).filterMap (Function.update lines i (some heap.next)) ++ out) := by
            refine howes.congr ?_
            have hself : Function.update lines i (some heap.next) i = some heap.next := by
              rw [Function.update_self]
            rw [List.filterMap_append, hmap, List.filterMap_cons_some hself, List.filterMap_nil,
              List.append_assoc]
            have hmiddle : (heap.next :: (pre.filterMap lines ++ out)).Perm
                (pre.filterMap lines ++ heap.next :: out) := List.perm_middle.symm
            exact hmiddle
          rw [hpre] at hnodup ⊢
          rcases ih (pre ++ [i]) _ hnodup hall hnext with hdone | ⟨lines', heap', k, done, todo,
            heq, hrest, hdone⟩
          · exact Or.inl hdone
          · refine Or.inr ⟨lines', heap', k, i :: done, todo, heq, ?_, ?_⟩
            · rw [hrest, List.cons_append]
            · rw [← List.singleton_append (l := done), ← List.append_assoc]
              exact hdone

theorem filter_lt {i : Fin NUM_LINES} {done todo : List (Fin NUM_LINES)}
    (h : List.finRange NUM_LINES = done ++ i :: todo) :
    ((List.finRange NUM_LINES).filter fun j => j < i) = done := by
  have hsorted := List.pairwise_lt_finRange NUM_LINES
  rw [h, List.pairwise_append] at hsorted
  obtain ⟨-, htail, hless⟩ := hsorted
  have hleft : (done.filter fun j => j < i) = done := by
    refine List.filter_eq_self.mpr fun j hj => ?_
    rw [decide_eq_true_iff]
    exact hless j hj i List.mem_cons_self
  have hright : ((i :: todo).filter fun j => j < i) = [] := by
    refine List.filter_eq_nil_iff.mpr fun j hj => ?_
    rw [decide_eq_true_iff, not_lt]
    rcases List.mem_cons.mp hj with rfl | hj
    · exact le_rfl
    · exact (List.rel_of_pairwise_cons htail hj).le
  rw [h, List.filter_append, hleft, hright, List.append_nil]

theorem swapLines_perm (s : Lines × UInt32) (count : ℕ) :
    ∃ σ : Equiv.Perm (Fin NUM_LINES),
      ((List.range count).foldl (fun s _ => swapLines s) s).1 = s.1 ∘ σ := by
  induction count with
  | zero => exact ⟨1, rfl⟩
  | succ count ih =>
      obtain ⟨σ, hσ⟩ := ih
      rw [List.range_succ, List.foldl_append, List.foldl_cons, List.foldl_nil]
      generalize (List.range count).foldl (fun s _ => swapLines s) s = t at hσ ⊢
      obtain ⟨i, j, hswap⟩ : ∃ i j, (swapLines t).1 =
          Function.update (Function.update t.1 i (t.1 j)) j (t.1 i) := ⟨_, _, rfl⟩
      refine ⟨(Equiv.swap j i).trans σ, ?_⟩
      rw [hswap, ← Equiv.comp_swap_eq_update, hσ]
      rfl

theorem filterMap_perm (lines : Lines) (σ : Equiv.Perm (Fin NUM_LINES)) :
    ((List.finRange NUM_LINES).filterMap lines).Perm
      ((List.finRange NUM_LINES).filterMap (lines ∘ σ)) := by
  rw [← List.filterMap_map]
  exact (σ.map_finRange_perm.filterMap lines).symm

theorem mapM_isSome (hsome : ∀ i, (lines i).isSome) (l : List (Fin NUM_LINES)) :
    ∃ blocks, l.mapM lines = some blocks := by
  induction l with
  | nil => exact ⟨[], rfl⟩
  | cons i l ih =>
      obtain ⟨blocks, hblocks⟩ := ih
      obtain ⟨block, hblock⟩ := Option.isSome_iff_exists.mp (hsome i)
      exact ⟨block :: blocks, by rw [List.mapM_cons, hblock, hblocks]; rfl⟩

theorem fillLine_foldlM (hsome : ∀ i, (lines i).isSome) (l : List (Fin NUM_LINES)) (seed : UInt32) :
    ∃ seed', l.foldlM (fillLine lines) seed = some seed' := by
  induction l generalizing seed with
  | nil => exact ⟨seed, rfl⟩
  | cons i l ih =>
      obtain ⟨block, hblock⟩ := Option.isSome_iff_exists.mp (hsome i)
      obtain ⟨seed', hseed⟩ := ih (generateRandomLine seed).2
      exact ⟨seed', by rw [List.foldlM_cons, fillLine, hblock]; exact hseed⟩

theorem writePermuted_spec (env : Env) {s : State} (hsome : ∀ i, (lines i).isSome)
    (hheap : s.heap.Owes ((List.finRange NUM_LINES).filterMap lines ++ [array]))
    (hfiles : s.files.Owes []) :
    ∃ t, writePermuted env lines array s = some t ∧ t.heap.Owes [] ∧ t.files.Owes [] := by
  have hopen := hfiles.request (env.opens s.files.next)
  obtain ⟨heap, hfree, howes⟩ := freeLines_spec hsome hheap
  rw [writePermuted]
  cases hfd : env.opens s.files.next with
  | false =>
      rw [hfd] at hopen
      exact ⟨_, by dsimp only [Ledger.request]; rw [hfree]; rfl, howes, hopen⟩
  | true =>
      rw [hfd] at hopen
      obtain ⟨blocks, hblocks⟩ := mapM_isSome hsome (List.finRange NUM_LINES)
      exact ⟨_, by dsimp only [Ledger.request]; rw [hblocks, hfree]; rfl, howes, hopen.release⟩

theorem readAndPermute_spec (env : Env) {s : State} (hsome : ∀ i, (lines i).isSome)
    (hheap : s.heap.Owes ((List.finRange NUM_LINES).filterMap lines ++ [array]))
    (hfiles : s.files.Owes []) :
    ∃ t, readAndPermute env lines array s = some t ∧ t.heap.Owes [] ∧ t.files.Owes [] := by
  have hopen := hfiles.request (env.opens s.files.next)
  rw [readAndPermute]
  cases hfd : env.opens s.files.next with
  | false =>
      rw [hfd] at hopen
      obtain ⟨heap, hfree, howes⟩ := freeLines_spec hsome hheap
      exact ⟨_, by dsimp only [Ledger.request]; rw [hfree]; rfl, howes, hopen⟩
  | true =>
      rw [hfd] at hopen
      obtain ⟨σ, hσ⟩ := swapLines_perm (lines, s.seed) 10
      dsimp only [Ledger.request]
      generalize (List.range 10).foldl (fun s _ => swapLines s) (lines, s.seed) = t at hσ ⊢
      refine writePermuted_spec env (fun i => ?_) ?_ hopen.release
      · rw [hσ]
        exact hsome (σ i)
      · rw [hσ]
        exact hheap.congr ((filterMap_perm lines σ).append_right _)

theorem allocAndWrite_spec (env : Env) {s : State} {fd : ℕ} (hheap : s.heap.Owes [array])
    (hfiles : s.files.Owes [fd]) :
    ∃ t, allocAndWrite env fd array s = some t ∧ t.heap.Owes [] ∧ t.files.Owes [] := by
  rw [allocAndWrite]
  rcases allocLines_spec env [] (List.finRange NUM_LINES) (fun _ => none)
    (List.nodup_finRange NUM_LINES) (fun i hi => absurd hi List.not_mem_nil) hheap with
    ⟨lines, heap, heq, hsome, howes⟩ | ⟨lines, heap, i, done, todo, heq, hlist, hsome, howes⟩
  · have hall : ∀ i, (lines i).isSome := fun i => hsome i (List.mem_finRange i)
    obtain ⟨seed, hseed⟩ := fillLine_foldlM hall (List.finRange NUM_LINES) s.seed
    rw [heq]
    dsimp only
    rw [hseed]
    exact readAndPermute_spec env hall howes hfiles.release
  · obtain ⟨t, ht, hdone⟩ := freeLine_foldlM hsome howes
    rw [heq]
    dsimp only
    rw [filter_lt hlist]
    rw [List.nil_append] at ht
    rw [ht]
    exact ⟨_, rfl, hdone.release, hfiles.release⟩

theorem performIoOperations_spec (env : Env) {s : State} (hheap : s.heap.Owes [])
    (hfiles : s.files.Owes []) :
    ∃ t, performIoOperations env s = some t ∧ t.heap.Owes [] ∧ t.files.Owes [] := by
  have hopen := hfiles.request (env.opens s.files.next)
  have harray := hheap.request (env.mallocs s.heap.next)
  rw [performIoOperations]
  cases hfd : env.opens s.files.next with
  | false =>
      rw [hfd] at hopen
      exact ⟨_, rfl, hheap, hopen⟩
  | true =>
      rw [hfd] at hopen
      cases hmalloc : env.mallocs s.heap.next with
      | false =>
          rw [hmalloc] at harray
          exact ⟨_, rfl, harray, hopen.release⟩
      | true =>
          rw [hmalloc] at harray
          exact allocAndWrite_spec env harray hopen

/-- Whatever fails, and in whatever order the lines end up, every block is freed once, nothing else
is, and every descriptor is closed once. -/
theorem io_operations_balanced (env : Env) (seed : UInt32) (reads : ℕ) :
    ∃ t, performIoOperations env ⟨seed, {}, {}, reads⟩ = some t ∧ t.heap.Settled ∧
      t.files.Settled := by
  obtain ⟨t, ht, hheap, hfiles⟩ := performIoOperations_spec env
    (s := ⟨seed, {}, {}, reads⟩) Ledger.Owes.start Ledger.Owes.start
  exact ⟨t, ht, hheap.settled_iff.mpr rfl, hfiles.settled_iff.mpr rfl⟩

end Balance

end IoBound

end Xv6Fairness
