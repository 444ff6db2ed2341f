import Xv6Fairness.GraphDistances

/-!
# Memory of the graph program

Where each of its calls of `malloc` succeeds, `generate_and_solve_graph` gives every block back. It
looks at no row before it stores into it, and it leaves without giving anything back where `dist` or
`visited` is null; so one failure is enough for a null row to be used or for a block to be lost.
-/

namespace Xv6Fairness

namespace CpuBound

open Ledgers Outcomes

section Stores

variable {n : ℕ} {graph : Rows n} {i j : Fin n} {x : ℤ} {edges : ℕ} {seed : UInt32}

/-- The blocks behind the pointers. -/
def blocks (graph : Rows n) (i : Fin n) : Option ℕ := (graph i).map Row.block

theorem store_ends (graph : Rows n) (i j : Fin n) (x : ℤ) :
    Ends (fun _ => ∃ i, blocks graph i = none) (store graph i j x)
      fun t => (blocks graph i).isSome ∧ blocks t = blocks graph := by
  rw [store]
  cases hrow : graph i with
  | none =>
      refine .error ⟨i, ?_⟩
      rw [blocks, hrow]
      rfl
  | some row =>
      refine .ok ⟨?_, ?_⟩
      · rw [blocks, hrow]
        rfl
      · funext k
        by_cases hk : k = i
        · rw [blocks, blocks, hk, Function.update_self, hrow]
          rfl
        · rw [blocks, blocks, Function.update_of_ne hk]

theorem clearRow_ends (graph : Rows n) (i : Fin n) :
    Ends (fun _ => ∃ i, blocks graph i = none) (clearRow graph i)
      fun t => (blocks graph i).isSome ∧ blocks t = blocks graph := by
  have hloop : Ends (fun _ => ∃ i, blocks graph i = none) (clearRow graph i)
      fun t => (0 < n → (blocks graph i).isSome) ∧ blocks t = blocks graph := by
    refine Ends.foldlM_finRange (fun k t => (0 < k → (blocks graph i).isSome) ∧
      blocks t = blocks graph) ⟨fun h => absurd h (lt_irrefl 0), rfl⟩ fun k t ht => ?_
    have hstore := store_ends t i k (if i ≠ k then INF else 0)
    rw [ht.2] at hstore
    exact hstore.imp fun u hu => ⟨fun _ => hu.1, hu.2⟩
  exact hloop.imp fun t ht => ⟨ht.1 (Nat.zero_lt_of_lt i.isLt), ht.2⟩

theorem addEdge_ends [NeZero n] (s : Rows n × UInt32) :
    Ends (fun _ => ∃ i, blocks s.1 i = none) (addEdge s) fun t => blocks t.1 = blocks s.1 := by
  rw [addEdge]
  dsimp only
  refine .ite (fun _ => ?_) fun _ => .ok rfl
  exact (store_ends _ _ _ _).bind fun t ht => .ok ht.2

theorem initializeRandomGraph_ends [NeZero n] (graph : Rows n) (edges : ℕ) (seed : UInt32) :
    Ends (fun _ => ∃ i, blocks graph i = none) (initializeRandomGraph graph edges seed)
      fun t => (∀ i, (blocks graph i).isSome) ∧ blocks t.1 = blocks graph := by
  rw [initializeRandomGraph]
  have hclear : Ends (fun _ => ∃ i, blocks graph i = none) ((List.finRange n).foldlM clearRow graph)
      fun t => (∀ i : Fin n, i.val < n → (blocks graph i).isSome) ∧ blocks t = blocks graph := by
    refine Ends.foldlM_finRange (fun k t => (∀ i : Fin n, i.val < k → (blocks graph i).isSome) ∧
      blocks t = blocks graph) ⟨fun i hi => absurd hi (Nat.not_lt_zero _), rfl⟩ fun k t ht => ?_
    have hrow := clearRow_ends t k
    rw [ht.2] at hrow
    refine hrow.imp fun u hu => ⟨fun i hi => ?_, hu.2⟩
    by_cases hik : i = k
    · exact hik ▸ hu.1
    · exact ht.1 i (by have := Fin.val_ne_of_ne hik; omega)
  refine hclear.bind fun t ht => ?_
  have hedges : Ends (fun _ => ∃ i, blocks graph i = none)
      ((List.range edges).foldlM (fun s _ => addEdge s) (t, seed))
      fun s => blocks s.1 = blocks graph := by
    refine Ends.foldlM_range (fun _ (s : Rows n × UInt32) => blocks s.1 = blocks graph) edges ht.2
      fun _ s _ hs => ?_
    have hedge := addEdge_ends s
    rw [hs] at hedge
    exact hedge
  exact hedges.imp fun s hs => ⟨fun i => ht.1 i i.isLt, hs⟩

end Stores

section Calls

variable {n : ℕ} {malloc : Malloc} {l : Ledger} {rest : List ℕ}

/-- Every call that `generate_and_solve_graph` makes succeeds. -/
def AllGranted (malloc : Malloc) (n : ℕ) : Prop := ∀ k < n + 3, (malloc k).isSome

/-- The block of row `i`, if it gets one. -/
def rowBlock (malloc : Malloc) (i : ℕ) : Option ℕ :=
  if (malloc (i + 1)).isSome then some (i + 1) else none

/-- The ledger and the pointers after the rows below `k`. -/
structure Allocated (malloc : Malloc) (k : ℕ) (s : Rows n × Ledger) : Prop where
  next : s.2.next = k + 1
  rows : ∀ i : Fin n, i.val < k → blocks s.1 i = rowBlock malloc i
  owes : s.2.Owes (((List.range k).filterMap (rowBlock malloc)) ++ [0])

theorem allocRow_ends {s : Rows n × Ledger} {i : Fin n} (h : Allocated malloc i.val s) :
    Ends (fun _ => False) (allocRow malloc (some 0) s i) (Allocated malloc (i.val + 1)) := by
  rw [allocRow]
  have hrow : blocks (Function.update s.1 i ((malloc s.2.next).map fun cells =>
      ⟨s.2.next, fun j => cells j⟩)) i = rowBlock malloc i := by
    rw [blocks, Function.update_self, h.next, rowBlock]
    cases malloc (i.val + 1) <;> rfl
  refine .ok ⟨?_, fun j hj => ?_, ?_⟩
  · rw [Ledger.request_next, h.next]
  · by_cases hji : j = i
    · rw [hji]
      exact hrow
    · refine Eq.trans ?_ (h.rows j (by have := Fin.val_ne_of_ne hji; omega))
      dsimp only
      rw [blocks, blocks, Function.update_of_ne hji]
  · have howes := h.owes.request (malloc s.2.next).isSome
    refine howes.congr ?_
    rw [Ledger.request_fst, h.next, List.range_succ, List.filterMap_append, List.append_assoc]
    have hsame : List.filterMap (rowBlock malloc) [i.val] =
        (if (malloc (i.val + 1)).isSome = true then some (i.val + 1) else none).toList := by
      rw [List.filterMap_cons, rowBlock]
      split_ifs <;> rfl
    rw [hsame, ← List.append_assoc, ← List.append_assoc]
    exact List.perm_append_comm.append_right _

theorem freeRow_ends {rows : Rows n} (hrows : ∀ i, blocks rows i = some (i.val + 1))
    (h : l.Owes ((List.range n).map (· + 1) ++ rest)) :
    Ends (fun _ => False) ((List.finRange n).foldlM (freeRow rows) l) fun l => l.Owes rest := by
  have hloop : Ends (fun _ => False) ((List.finRange n).foldlM (freeRow rows) l)
      fun l => l.Owes (((List.range n).drop n).map (· + 1) ++ rest) := by
    refine Ends.foldlM_finRange
      (fun k (l : Ledger) => l.Owes (((List.range n).drop k).map (· + 1) ++ rest)) h fun k l hl =>
        ?_
    have hcons : (List.range n).drop k = k.val :: (List.range n).drop (k + 1) := by
      rw [List.drop_eq_getElem_cons (by rw [List.length_range]; exact k.isLt), List.getElem_range]
    rw [hcons] at hl
    obtain ⟨row, hrow, hblock⟩ := Option.map_eq_some_iff.mp (hrows k)
    rw [freeRow, hrow]
    refine .ok ?_
    rw [hblock]
    exact hl.release
  refine hloop.imp fun l hl => ?_
  rwa [List.drop_eq_nil_of_le (by rw [List.length_range])] at hl

theorem load_eq {rows : Rows n} (hrows : ∀ i, (blocks rows i).isSome) :
    ∃ g : Fin n → Fin n → ℤ, load rows = fun u => .ok (g u) := by
  have hrow : ∀ i, ∃ row, rows i = some row := by
    intro i
    obtain ⟨b, hb⟩ := Option.isSome_iff_exists.mp (hrows i)
    obtain ⟨row, hrow, -⟩ := Option.map_eq_some_iff.mp hb
    exact ⟨row, hrow⟩
  choose row hrow using hrow
  refine ⟨fun i => (row i).cells, ?_⟩
  funext i
  rw [load, hrow]

theorem solve_ends [NeZero n] {rows : Rows n} (edges : ℕ) (seed : UInt32)
    (hrows : ∀ i : Fin n, blocks rows i = rowBlock malloc i) :
    Ends (fun _ => ∃ i : Fin n, rowBlock malloc i = none) (initializeRandomGraph rows edges seed)
      fun t => (∀ i : Fin n, (rowBlock malloc i).isSome) ∧
        ∀ i : Fin n, blocks t.1 i = rowBlock malloc i := by
  refine (initializeRandomGraph_ends rows edges seed).mono (fun _ h => ?_) fun t ht =>
    ⟨fun i => ?_, fun i => ?_⟩
  · obtain ⟨i, hi⟩ := h
    exact ⟨i, by rw [← hrows i, hi]⟩
  · rw [← hrows i]
    exact ht.1 i
  · rw [ht.2, hrows i]

theorem rowBlock_isSome {i : ℕ} (h : (rowBlock malloc i).isSome) : (malloc (i + 1)).isSome := by
  by_contra hnone
  rw [rowBlock, if_neg hnone] at h
  cases h

theorem allGranted_of_rows (hgraph : (malloc 0).isSome)
    (hrows : ∀ i : Fin n, (rowBlock malloc i).isSome) (hdist : (malloc (n + 1)).isSome)
    (hvisited : (malloc (n + 2)).isSome) : AllGranted malloc n := by
  intro k hk
  rcases Nat.eq_zero_or_pos k with rfl | hpos
  · exact hgraph
  by_cases hkn : k ≤ n
  · have hk' := rowBlock_isSome (hrows ⟨k - 1, by omega⟩)
    rwa [Nat.sub_add_cancel hpos] at hk'
  · rcases (by omega : k = n + 1 ∨ k = n + 2) with rfl | rfl
    · exact hdist
    · exact hvisited

/-- From the initialization of the graph on, where `dist` and `visited` are not null. -/
theorem solveRows_ends [NeZero n] {rows : Rows n} {dist visited : ℕ} (edges : ℕ) (seed : UInt32)
    (hgraph : (malloc 0).isSome) (hdist : (malloc (n + 1)).isSome)
    (hvisited : (malloc (n + 2)).isSome) (hrows : ∀ i : Fin n, blocks rows i = rowBlock malloc i)
    (howes : l.Owes ([visited, dist] ++ ((List.range n).filterMap (rowBlock malloc) ++ [0]))) :
    Ends (fun _ => ¬ AllGranted malloc n) (solveRows rows 0 dist visited edges seed l)
      fun r => r.2.Settled ↔ AllGranted malloc n := by
  rw [solveRows]
  have hinit := solve_ends edges seed hrows
  refine (hinit.mono (fun _ h hall => ?_) fun _ => id).bind fun t ht => ?_
  · obtain ⟨i, hi⟩ := h
    rw [rowBlock, if_pos (hall (i.val + 1) (by omega))] at hi
    cases hi
  · obtain ⟨hsome, hblocks⟩ := ht
    have hall := allGranted_of_rows hgraph hsome hdist hvisited
    have hrow : ∀ i < n, rowBlock malloc i = some (i + 1) := fun i hi =>
      if_pos (hall (i + 1) (by omega))
    have hmap : List.filterMap (rowBlock malloc) (List.range n) = (List.range n).map (· + 1) := by
      rw [← List.filterMap_eq_map]
      exact List.filterMap_congr fun i hi => hrow i (List.mem_range.mp hi)
    have howes' : l.Owes ((List.range n).map (· + 1) ++ [0, dist, visited]) := by
      refine howes.congr ?_
      rw [hmap]
      refine List.perm_append_comm.trans ?_
      rw [List.append_assoc]
      exact ((List.Perm.swap _ _ _).cons 0).append_left _
    obtain ⟨g, hload⟩ := load_eq fun i => by
      rw [hblocks i]
      exact hsome i
    dsimp only
    rw [hload]
    obtain ⟨labels, hdijkstra⟩ := dijkstra_total g (Fin.ofNat n (customRand t.2).1.toNat)
    rw [hdijkstra, ok_bind]
    have hfree := freeRow_ends (fun i => by rw [hblocks i, hrow i i.isLt]) howes'
    refine hfree.of_never.bind fun l' hl' => .ok (iff_of_true ?_ hall)
    exact hl'.release.release.release.settled_iff.mpr rfl

theorem solveGraph_ends (n : ℕ) [NeZero n] (malloc : Malloc) (edges : ℕ) (seed : UInt32) :
    Ends (fun _ => ¬ AllGranted malloc n) (solveGraph n malloc edges seed {})
      fun r => r.2.Settled ↔ AllGranted malloc n := by
  have hn : 0 < n := Nat.pos_of_ne_zero (NeZero.ne n)
  have hnot : ∀ k < n + 3, (malloc k).isSome = false → ¬ AllGranted malloc n := by
    intro k hk hnone h
    rw [h k hk] at hnone
    cases hnone
  rw [solveGraph]
  cases hgraph : (malloc 0).isSome with
  | false =>
      have hnull : Ends (fun _ => ¬ AllGranted malloc n) ((List.finRange n).foldlM
          (allocRow malloc none) (fun _ => none, (({} : Ledger).request false).2)) fun _ => n = 0 :=
        Ends.foldlM_finRange (fun k _ => k = 0) rfl fun k s _ => .error (hnot 0 (by omega) hgraph)
      exact hnull.bind fun s hs => absurd hs (NeZero.ne n)
  | true =>
      have hstart : Allocated malloc 0 ((fun _ => none : Rows n), (({} : Ledger).request true).2) :=
        ⟨rfl, fun i hi => absurd hi (Nat.not_lt_zero _), Ledger.Owes.start.request true⟩
      have hrows : Ends (fun _ => False) ((List.finRange n).foldlM (allocRow malloc (some 0))
          (fun _ => none, (({} : Ledger).request true).2)) (Allocated malloc n) :=
        Ends.foldlM_finRange (Allocated malloc) hstart fun k s hs => allocRow_ends hs
      refine hrows.of_never.bind fun s hs => ?_
      obtain ⟨rows, l⟩ := s
      have hnext : l.next = n + 1 := hs.next
      have hvisited := (hs.owes.request (malloc (n + 1)).isSome).request (malloc (n + 2)).isSome
      have hlost : ∀ {xs : List ℕ} {l' : Ledger}, l'.Owes (xs ++ (List.filterMap (rowBlock malloc)
          (List.range n) ++ [0])) → ¬ l'.Settled := by
        intro xs l' howes hsettled
        exact List.append_ne_nil_of_right_ne_nil _ (List.append_ne_nil_of_right_ne_nil _
          (List.cons_ne_nil 0 [])) (howes.settled_iff.mp hsettled)
      dsimp only at hvisited ⊢
      rw [hnext, Ledger.request_next, hnext]
      rw [← List.append_assoc] at hvisited
      cases hd : (malloc (n + 1)).isSome with
      | false =>
          rw [hd] at hvisited
          cases hv : (malloc (n + 2)).isSome with
          | false =>
              rw [hv] at hvisited
              exact .ok (iff_of_false (hlost hvisited) (hnot (n + 1) (by omega) hd))
          | true =>
              rw [hv] at hvisited
              exact .ok (iff_of_false (hlost hvisited) (hnot (n + 1) (by omega) hd))
      | true =>
          rw [hd] at hvisited
          cases hv : (malloc (n + 2)).isSome with
          | false =>
              rw [hv] at hvisited
              exact .ok (iff_of_false (hlost hvisited) (hnot (n + 2) (by omega) hv))
          | true =>
              rw [hv] at hvisited
              exact solveRows_ends edges seed hgraph hd hv (fun i => hs.rows i i.isLt) hvisited

theorem balanced_iff {r : Except Fault (UInt32 × Ledger)}
    (h : Ends (fun _ => ¬ AllGranted malloc n) r fun t => t.2.Settled ↔ AllGranted malloc n) :
    (∃ seed l, r = .ok (seed, l) ∧ l.Settled) ↔ AllGranted malloc n := by
  constructor
  · rintro ⟨seed, l, heq, hsettled⟩
    exact (h.of_ok heq).mp hsettled
  · intro hall
    obtain ⟨⟨seed, l⟩, heq, hsettled⟩ := (h.mono (fun _ hn => hn hall) fun _ => id).exists_ok
    exact ⟨seed, l, heq, hsettled.mpr hall⟩

theorem generateAndSolveGraph_ends (malloc : Malloc) (seed : UInt32) :
    Ends (fun _ => ¬ AllGranted malloc (100 + ((customRand seed).1 % 100).toNat))
      (generateAndSolveGraph malloc seed {})
      fun t => t.2.Settled ↔ AllGranted malloc (100 + ((customRand seed).1 % 100).toNat) := by
  have : NeZero (100 + ((customRand seed).1 % 100).toNat) :=
    ⟨Nat.ne_of_gt (Nat.add_pos_left (by decide) _)⟩
  exact solveGraph_ends _ malloc _ _

/-- No null pointer is used and every block is given back exactly where no call of `malloc` fails.
-/
theorem graph_memory_balanced (n : ℕ) [NeZero n] (malloc : Malloc) (edges : ℕ) (seed : UInt32) :
    ((∃ seed' l, solveGraph n malloc edges seed {} = .ok (seed', l) ∧ l.Settled) ↔
      ∀ k < n + 3, (malloc k).isSome) ∧
    ((∃ seed' l, generateAndSolveGraph malloc seed {} = .ok (seed', l) ∧ l.Settled) ↔
      ∀ k < 100 + ((customRand seed).1 % 100).toNat + 3, (malloc k).isSome) := by
  constructor
  · exact balanced_iff (solveGraph_ends n malloc edges seed)
  · exact balanced_iff (generateAndSolveGraph_ends malloc seed)

theorem graph_memory_balanced_five_vertices : ∃ seed l,
    solveGraph 5 (fun k => some fun _ => k) 50 12345 {} = .ok (seed, l) ∧ l.Settled :=
  (graph_memory_balanced 5 (fun k => some fun _ => k) 50 12345).1.mpr fun _ _ => rfl

/-- With the seed of `main` and no memory at all. -/
theorem null_graph_used : ¬ ∃ seed l,
    generateAndSolveGraph (fun _ => none) 12345 {} = .ok (seed, l) ∧ l.Settled := by
  intro h
  have hall := (balanced_iff (generateAndSolveGraph_ends (fun _ => none) 12345)).mp h
  have hnone := hall 0 (Nat.succ_pos _)
  cases hnone

end Calls

end CpuBound

end Xv6Fairness
