import Mathlib.Data.List.FinRange
import Mathlib.Logic.Function.Basic
import Xv6Fairness.Ledgers
import Xv6Fairness.Outcomes
import Xv6Fairness.UserStrings

/-!
# The graphs of the CPU-bound program

`cpu_bound` fills an adjacency matrix at random and runs Dijkstra's algorithm on it. A matrix is an
array of pointers to rows, each of which may be null; an `int` is an integer, as the sums stay
small.
-/

namespace Xv6Fairness

namespace CpuBound

open Ledgers Outcomes

def INF : ℤ := 1000000

inductive Fault
  | null
  | range
  deriving DecidableEq

/-- An array index. -/
def index {n : ℕ} (i : ℤ) : Except Fault (Fin n) :=
  if h : 0 ≤ i ∧ i < n then .ok ⟨i.toNat, by omega⟩ else .error .range

section Dijkstra

variable {n : ℕ}

structure Labels (n : ℕ) where
  dist : Fin n → ℤ
  visited : Fin n → Bool

def minTurn (s : Labels n) (best : ℤ × ℤ) (v : Fin n) : ℤ × ℤ :=
  if s.visited v = false ∧ s.dist v ≤ best.1 then (s.dist v, v) else best

def minDistance (s : Labels n) : ℤ := ((List.finRange n).foldl (minTurn s) (INF, -1)).2

/-- One turn of the inner loop of `dijkstra`. -/
def relax (graph : Fin n → Except Fault (Fin n → ℤ)) (visited : Fin n → Bool) (u : Fin n)
    (dist : Fin n → ℤ) (v : Fin n) : Except Fault (Fin n → ℤ) :=
  if visited v = false then do
    let row ← graph u
    if row v ≠ INF ∧ dist u ≠ INF ∧ dist u + row v < dist v then
      .ok (Function.update dist v (dist u + row v))
    else .ok dist
  else .ok dist

/-- One turn of the main loop. -/
def selectVertex (graph : Fin n → Except Fault (Fin n → ℤ)) (s : Labels n) :
    Except Fault (Labels n) := do
  let u ← index (minDistance s)
  let visited := Function.update s.visited u true
  let dist ← (List.finRange n).foldlM (relax graph visited u) s.dist
  .ok ⟨dist, visited⟩

def startLabels (src : Fin n) : Labels n := ⟨Function.update (fun _ => INF) src 0, fun _ => false⟩

/-- The labels after `count` turns of the main loop. -/
def rounds (graph : Fin n → Except Fault (Fin n → ℤ)) (src : Fin n) (count : ℕ) :
    Except Fault (Labels n) :=
  (List.range count).foldlM (fun s _ => selectVertex graph s) (startLabels src)

def dijkstra (graph : Fin n → Except Fault (Fin n → ℤ)) (src : Fin n) :
    Except Fault (Fin n → ℤ) := do
  let s ← rounds graph src (n - 1)
  .ok s.dist

/-- A path along the edges of the matrix, with its total weight. -/
inductive Path (g : Fin n → Fin n → ℤ) (src : Fin n) : Fin n → ℤ → Prop
  | nil : Path g src src 0
  | edge {u v : Fin n} {k : ℤ} (h : Path g src u k) (hg : g u v ≠ INF) : Path g src v (k + g u v)

/-- The matrices that `initialize_random_graph` can make. -/
structure Graph (g : Fin n → Fin n → ℤ) : Prop where
  diagonal : ∀ u, g u u = 0
  edges : ∀ u v, u ≠ v → g u v = INF ∨ 1 ≤ g u v ∧ g u v ≤ 20

end Dijkstra

section Allocation

/-- A row that `malloc` has returned. -/
structure Row (n : ℕ) where
  block : ℕ
  cells : Fin n → ℤ

/-- The pointers of `graph`. -/
abbrev Rows (n : ℕ) := Fin n → Option (Row n)

variable {n : ℕ}

/-- `graph[i][j] = x`. -/
def store (graph : Rows n) (i j : Fin n) (x : ℤ) : Except Fault (Rows n) :=
  match graph i with
  | none => .error .null
  | some row => .ok (Function.update graph i (some ⟨row.block, Function.update row.cells j x⟩))

def load (graph : Rows n) (i : Fin n) : Except Fault (Fin n → ℤ) :=
  match graph i with
  | none => .error .null
  | some row => .ok row.cells

def clearRow (graph : Rows n) (i : Fin n) : Except Fault (Rows n) :=
  (List.finRange n).foldlM (fun graph j => store graph i j (if i ≠ j then INF else 0)) graph

def addEdge [NeZero n] (s : Rows n × UInt32) : Except Fault (Rows n × UInt32) := do
  let (graph, seed) := s
  let (r, seed) := customRand seed
  let u := Fin.ofNat n r.toNat
  let (r, seed) := customRand seed
  let v := Fin.ofNat n r.toNat
  let (r, seed) := customRand seed
  let weight : ℤ := 1 + (r % 20).toNat
  if u ≠ v then
    let graph ← store graph u v weight
    .ok (graph, seed)
  else .ok (graph, seed)

def initializeRandomGraph [NeZero n] (graph : Rows n) (edges : ℕ) (seed : UInt32) :
    Except Fault (Rows n × UInt32) := do
  let graph ← (List.finRange n).foldlM clearRow graph
  (List.range edges).foldlM (fun s _ => addEdge s) (graph, seed)

/-- The results of `malloc`, by the number of the call: null, or a block with some contents. -/
abbrev Malloc := ℕ → Option (ℕ → ℤ)

/-- `graph[i] = malloc(vertices * sizeof(int))`. -/
def allocRow (malloc : Malloc) (graph : Option ℕ) (s : Rows n × Ledger) (i : Fin n) :
    Except Fault (Rows n × Ledger) :=
  match graph with
  | none => .error .null
  | some _ =>
    let row := (malloc s.2.next).map fun cells => ⟨s.2.next, fun j => cells j⟩
    .ok (Function.update s.1 i row, (s.2.request (malloc s.2.next).isSome).2)

/-- `free`, which reads the header in front of its argument. -/
def freeRow (graph : Rows n) (l : Ledger) (i : Fin n) : Except Fault Ledger :=
  match graph i with
  | none => .error .null
  | some row => .ok (l.release row.block)

/-- `generate_and_solve_graph` from the initialization of the graph on. -/
def solveRows {n : ℕ} [NeZero n] (rows : Rows n) (graph dist visited : ℕ) (edges : ℕ)
    (seed : UInt32)
    (l : Ledger) : Except Fault (UInt32 × Ledger) := do
  let (rows, seed) ← initializeRandomGraph rows edges seed
  let (r, seed) := customRand seed
  let _ ← dijkstra (load rows) (Fin.ofNat n r.toNat)
  let l ← (List.finRange n).foldlM (freeRow rows) l
  .ok (seed, ((l.release graph).release dist).release visited)

/-- `generate_and_solve_graph` behind the choice of `vertices` and `edges`. -/
def solveGraph (n : ℕ) [NeZero n] (malloc : Malloc) (edges : ℕ) (seed : UInt32) (l : Ledger) :
    Except Fault (UInt32 × Ledger) := do
  let (graph, l) := l.request (malloc l.next).isSome
  let (rows, l) ← (List.finRange n).foldlM (allocRow malloc graph) (fun _ => none, l)
  let (dist, l) := l.request (malloc l.next).isSome
  let (visited, l) := l.request (malloc l.next).isSome
  match graph, dist, visited with
  | some graph, some dist, some visited => solveRows rows graph dist visited edges seed l
  | _, _, _ => .ok (seed, l)

def generateAndSolveGraph (malloc : Malloc) (seed : UInt32) (l : Ledger) :
    Except Fault (UInt32 × Ledger) :=
  let (r, seed) := customRand seed
  let vertices := 100 + (r % 100).toNat
  let (r, seed) := customRand seed
  let edges := 50 + (r % 350).toNat
  have : NeZero vertices := ⟨Nat.ne_of_gt (Nat.add_pos_left (by decide) _)⟩
  solveGraph vertices malloc edges seed l

end Allocation

end CpuBound

end Xv6Fairness
