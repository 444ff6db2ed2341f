import Mathlib.Algebra.BigOperators.Group.List.Basic
import Mathlib.Algebra.GroupWithZero.Nat
import Mathlib.Algebra.Order.Group.Nat
import Mathlib.Tactic.SplitIfs
import Xv6Fairness.CircularLists

/-!
# The heap of a user program

`malloc` and `free` of `umalloc.c`. Addresses count units of `sizeof(Header)`; memory holds a header
wherever one has been stored. The memory that `sbrk` has given out is a row of blocks in the order
of their addresses, each in use or free, and the free list is the ring of the free ones behind
`base`.
-/

namespace Xv6Fairness

namespace Heap

open CircularLists

structure Header where
  ptr : ℕ
  size : ℕ
  deriving DecidableEq

/-- `sizeof(Header)` -/
def HEADER : ℕ := 8

structure State where
  mem : ℕ → Header
  freep : Option ℕ    -- none for 0
  brk : ℕ             -- the end of the heap

def setPtr (mem : ℕ → Header) (p q : ℕ) : ℕ → Header :=
  Function.update mem p { mem p with ptr := q }

def setSize (mem : ℕ → Header) (p n : ℕ) : ℕ → Header :=
  Function.update mem p { mem p with size := n }

section Code

variable (mem : ℕ → Header) (s : State) (bp p : ℕ)

/-- Where the first loop of `free` stops. -/
def stops : Bool :=
  decide (p < bp ∧ bp < (mem p).ptr) ||
    decide ((mem p).ptr ≤ p ∧ (p < bp ∨ bp < (mem p).ptr))

/-- The stores of `free` behind the loop. -/
def join : ℕ → Header :=
  let mem :=
    if bp + (mem bp).size = (mem p).ptr then
      setPtr (setSize mem bp ((mem bp).size + (mem (mem p).ptr).size)) bp (mem (mem p).ptr).ptr
    else setPtr mem bp (mem p).ptr
  if p + (mem p).size = bp then
    setPtr (setSize mem p ((mem p).size + (mem bp).size)) p (mem bp).ptr
  else setPtr mem p bp

/-- The walk ends within as many steps as the heap has units. -/
def free : Option State := do
  let start ← s.freep
  let p ← search (stops s.mem bp) (fun p => (s.mem p).ptr) (s.brk + 1) start
  some { s with mem := join s.mem bp p, freep := some p }

/-- `sbrk` decides on the end of the heap and the number of bytes; `false` is the return of 0. -/
def morecore (sbrk : ℕ → ℕ → Bool) (nu : ℕ) : Option (State × Bool) :=
  let nu := if nu < 4096 then 4096 else nu
  let bytes := nu * HEADER % 2 ^ 32
  if sbrk s.brk bytes then do
    let t ← free { s with mem := setSize s.mem s.brk nu, brk := s.brk + bytes / HEADER } s.brk
    some (t, true)
  else some (s, false)

/-- The block is taken out of the list, or its tail is cut off. -/
def carve (prevp p nunits : ℕ) : State × ℕ :=
  if (s.mem p).size = nunits then
    ({ s with mem := setPtr s.mem prevp (s.mem p).ptr, freep := some prevp }, p)
  else
    let n := (s.mem p).size - nunits
    ({ s with mem := setSize (setSize s.mem p n) (p + n) nunits, freep := some prevp }, p + n)

def mallocLoop (sbrk : ℕ → ℕ → Bool) (nunits : ℕ) : ℕ → State → ℕ → ℕ → Option (State × Option ℕ)
  | 0, _, _, _ => none
  | n + 1, s, prevp, p =>
    if nunits ≤ (s.mem p).size then
      some ((carve s prevp p nunits).1, some (carve s prevp p nunits).2)
    else if s.freep = some p then do
      let (t, more) ← morecore s sbrk nunits
      if more then
        let p ← t.freep
        mallocLoop sbrk nunits n t p (t.mem p).ptr
      else some (t, none)
    else mallocLoop sbrk nunits n s p (s.mem p).ptr

/-- The number of units for `nbytes` with their header, in the arithmetic of `uint`. -/
def nunits (nbytes : ℕ) : ℕ := (nbytes + HEADER - 1) % 2 ^ 32 / HEADER + 1

/-- `base.s.ptr = freep = prevp = &base; base.s.size = 0` -/
def init (base : ℕ) : State :=
  { s with mem := Function.update s.mem base ⟨base, 0⟩, freep := some base }

/-- The header of the block that is returned. -/
def malloc (base : ℕ) (sbrk : ℕ → ℕ → Bool) (nbytes : ℕ) : Option (State × Option ℕ) :=
  let s := if s.freep = none then init s base else s
  let prevp := s.freep.getD base
  let n := nunits nbytes
  mallocLoop sbrk n (2 * (s.brk + max n 4096 + 2)) s prevp (s.mem prevp).ptr

end Code

structure Block where
  size : ℕ
  use : Option ℕ    -- the number of bytes asked for, or none for a free block

def total (bs : List Block) : ℕ := (bs.map Block.size).sum

/-- The free blocks of a row that starts at an address. -/
def frees : ℕ → List Block → List ℕ
  | _, [] => []
  | a, b :: bs => if b.use = none then a :: frees (a + b.size) bs else frees (a + b.size) bs

/-- The blocks in use, with the number of bytes asked for. -/
def lives : ℕ → List Block → List (ℕ × ℕ)
  | _, [] => []
  | a, b :: bs => (b.use.toList.map fun r => (a, r)) ++ lives (a + b.size) bs

/-- The headers of the blocks hold their sizes. -/
def Sized (mem : ℕ → Header) : ℕ → List Block → Prop
  | _, [] => True
  | a, b :: bs => (mem a).size = b.size ∧ Sized mem (a + b.size) bs

section Rows

variable {mem mem' : ℕ → Header} {a x : ℕ} {b : Block} {bs cs : List Block}

theorem total_append : total (bs ++ cs) = total bs + total cs := by
  rw [total, List.map_append, List.sum_append]
  rfl

theorem total_cons : total (b :: bs) = b.size + total bs := by
  rw [total, List.map_cons, List.sum_cons]
  rfl

theorem frees_append : frees a (bs ++ cs) = frees a bs ++ frees (a + total bs) cs := by
  induction bs generalizing a with
  | nil => rfl
  | cons b bs ih =>
      rw [List.cons_append, frees, frees, ih, total_cons, Nat.add_assoc]
      split_ifs
      · rfl
      · rfl

theorem lives_append : lives a (bs ++ cs) = lives a bs ++ lives (a + total bs) cs := by
  induction bs generalizing a with
  | nil => rfl
  | cons b bs ih => rw [List.cons_append, lives, lives, ih, total_cons, Nat.add_assoc,
      List.append_assoc]

theorem sized_append : Sized mem a (bs ++ cs) ↔ Sized mem a bs ∧ Sized mem (a + total bs) cs := by
  induction bs generalizing a with
  | nil => exact (and_iff_right trivial).symm
  | cons b bs ih => rw [List.cons_append, Sized, Sized, ih, total_cons, Nat.add_assoc, and_assoc]

theorem frees_bounds (hpos : ∀ b ∈ bs, 0 < b.size) (hx : x ∈ frees a bs) : a ≤ x ∧
    x < a + total bs := by
  induction bs generalizing a with
  | nil => cases hx
  | cons b bs ih =>
      have hb := hpos b List.mem_cons_self
      have htail : x ∈ frees (a + b.size) bs → a ≤ x ∧ x < a + total (b :: bs) := fun hx => by
        obtain ⟨hle, hlt⟩ := ih (fun c hc => hpos c (List.mem_cons_of_mem _ hc)) hx
        rw [total_cons]
        omega
      rw [frees] at hx
      split_ifs at hx
      · rcases List.mem_cons.mp hx with rfl | hx
        · rw [total_cons]
          omega
        · exact htail hx
      · exact htail hx

theorem frees_sorted (hpos : ∀ b ∈ bs, 0 < b.size) : (frees a bs).Pairwise (· < ·) := by
  induction bs generalizing a with
  | nil => exact List.Pairwise.nil
  | cons b bs ih =>
      have hb := hpos b List.mem_cons_self
      have hpos' : ∀ c ∈ bs, 0 < c.size := fun c hc => hpos c (List.mem_cons_of_mem _ hc)
      rw [frees]
      split_ifs
      · refine List.pairwise_cons.mpr ⟨fun y hy => ?_, ih hpos'⟩
        have hle := (frees_bounds hpos' hy).1
        omega
      · exact ih hpos'

theorem Sized.congr (h : Sized mem a bs) (hpos : ∀ b ∈ bs, 0 < b.size)
    (heq : ∀ y, a ≤ y → y < a + total bs → (mem' y).size = (mem y).size) : Sized mem' a bs := by
  induction bs generalizing a with
  | nil => exact trivial
  | cons b bs ih =>
      have hb := hpos b List.mem_cons_self
      rw [total_cons] at heq
      exact ⟨(heq a le_rfl (by omega)).trans h.1,
        ih h.2 (fun c hc => hpos c (List.mem_cons_of_mem _ hc))
        fun y hy hlt => heq y (by omega) (by omega)⟩

end Rows

/-- A free block has no free block next to it. -/
def Apart (bs : List Block) : Prop := bs.IsChain fun b c => b.use = none → c.use ≠ none

structure Inv (base start : ℕ) (s : State) (bs : List Block) : Prop where
  base_lt : base < start
  brk : s.brk = start + total bs
  base_size : (s.mem base).size = 0
  sized : Sized s.mem start bs
  pos : ∀ b ∈ bs, 0 < b.size
  ring : Path (fun p => (s.mem p).ptr) base (frees start bs) base
  apart : Apart bs
  room : ∀ b ∈ bs, ∀ r, b.use = some r → r ≤ (b.size - 1) * HEADER
  freep : ∃ p ∈ base :: frees start bs, s.freep = some p

section Memory

variable (mem : ℕ → Header) (p q n x : ℕ)

@[simp] theorem setPtr_size : (setPtr mem p q x).size = (mem x).size := by
  by_cases h : x = p
  · rw [h, setPtr, Function.update_self]
  · rw [setPtr, Function.update_of_ne h]

@[simp] theorem setSize_ptr : (setSize mem p n x).ptr = (mem x).ptr := by
  by_cases h : x = p
  · rw [h, setSize, Function.update_self]
  · rw [setSize, Function.update_of_ne h]

@[simp] theorem setPtr_ptr : (setPtr mem p q x).ptr = if x = p then q else (mem x).ptr := by
  by_cases h : x = p
  · rw [if_pos h, h, setPtr, Function.update_self]
  · rw [if_neg h, setPtr, Function.update_of_ne h]

@[simp] theorem setSize_size : (setSize mem p n x).size = if x = p then n else (mem x).size := by
  by_cases h : x = p
  · rw [if_pos h, h, setSize, Function.update_self]
  · rw [if_neg h, setSize, Function.update_of_ne h]

end Memory

section Free

variable {base start n r : ℕ} {s : State} {pre post : List Block}

/-- The block at `bp` is in use, between the free blocks `xs` below it and `ys` above it. -/
structure Place (base start : ℕ) (s : State) (pre post : List Block) (n bp : ℕ) : Prop where
  base_lt : base < start
  pos_pre : ∀ b ∈ pre, 0 < b.size
  pos_post : ∀ b ∈ post, 0 < b.size
  pos : 0 < n
  at_eq : bp = start + total pre
  ring : Path (fun p => (s.mem p).ptr) base (frees start pre ++ frees (bp + n) post) base

theorem Inv.place {bp : ℕ} (h : Inv base start s (pre ++ ⟨n, some r⟩ :: post))
    (hbp : bp = start + total pre) : Place base start s pre post n bp := by
  have hring := h.ring
  rw [frees_append, frees, if_neg (Option.some_ne_none r), ← hbp] at hring
  exact ⟨h.base_lt, fun b hb => h.pos b (List.mem_append_left _ hb),
    fun b hb => h.pos b (List.mem_append_right _ (List.mem_cons_of_mem _ hb)),
    h.pos ⟨n, some r⟩ (List.mem_append_right _ List.mem_cons_self), hbp, hring⟩

variable {bp : ℕ} (h : Place base start s pre post n bp)

include h

theorem Place.below {x : ℕ} (hx : x ∈ base :: frees start pre) : x < bp := by
  have hbase := h.base_lt
  have hat := h.at_eq
  rcases List.mem_cons.mp hx with rfl | hx
  · omega
  · have hlt := (frees_bounds h.pos_pre hx).2
    omega

theorem Place.above {x : ℕ} (hx : x ∈ frees (bp + n) post) : bp + n ≤ x :=
  (frees_bounds h.pos_post hx).1

theorem Place.base_le {x : ℕ} (hx : x ∈ base :: (frees start pre ++ frees (bp + n) post)) :
    base ≤ x := by
  have hbase := h.base_lt
  have hat := h.at_eq
  rcases List.mem_cons.mp hx with rfl | hx
  · exact le_rfl
  · rcases List.mem_append.mp hx with hx | hx
    · have hle := (frees_bounds h.pos_pre hx).1
      omega
    · have hle := h.above hx
      omega

theorem Place.sorted : (base :: (frees start pre ++ frees (bp + n) post)).Pairwise (· < ·) := by
  have hbase := h.base_lt
  have hat := h.at_eq
  have hpos := h.pos
  refine List.pairwise_cons.mpr ⟨fun x hx => ?_, List.pairwise_append.mpr
    ⟨frees_sorted h.pos_pre, frees_sorted h.pos_post, fun x hx y hy => ?_⟩⟩
  · rcases List.mem_append.mp hx with hx | hx
    · have hle := (frees_bounds h.pos_pre hx).1
      omega
    · have hle := h.above hx
      omega
  · have hlt := h.below (List.mem_cons_of_mem _ hx)
    have hle := h.above hy
    omega

theorem Place.stops_iff {x : ℕ} (hx : x ∈ base :: (frees start pre ++ frees (bp + n) post)) :
    stops s.mem bp x = true ↔ x = lastNode base (frees start pre) := by
  have hpos := h.pos
  have hbase := h.base_lt
  have hat := h.at_eq
  have hlast := h.below lastNode_mem
  constructor
  · intro hstop
    have hstop' := (Bool.or_eq_true _ _).mp hstop
    simp only [decide_eq_true_iff] at hstop'
    have hlow : x < bp → x ≤ lastNode base (frees start pre) := fun hlt => by
      refine le_lastNode (List.Pairwise.sublist ?_ h.sorted) ?_
      · exact List.Sublist.cons_cons _ (List.sublist_append_left _ _)
      · rcases List.mem_cons.mp hx with rfl | hx
        · exact List.mem_cons_self
        · rcases List.mem_append.mp hx with hx | hx
          · exact List.mem_cons_of_mem _ hx
          · have hle := h.above hx
            omega
    rcases h.ring.next_of_sorted h.sorted hx with ⟨hlt, -, hleast⟩ | ⟨hxlast, hnext⟩
    · by_contra hne
      rcases hstop' with ⟨hxlt, hbplt⟩ | ⟨hle, -⟩
      · have hle := hleast _ (List.mem_cons.mpr ((List.mem_cons.mp lastNode_mem).imp_right
          (List.mem_append_left _))) (lt_of_le_of_ne (hlow hxlt) hne)
        exact absurd (hbplt.trans_le hle) (not_lt_of_gt hlast)
      · exact absurd hlt (not_lt_of_ge hle)
    · have hxlt : x < bp := by
        change (s.mem x).ptr = base at hnext
        omega
      refine le_antisymm (hlow hxlt) ?_
      rw [hxlast]
      exact le_lastNode h.sorted (List.mem_cons.mpr ((List.mem_cons.mp lastNode_mem).imp_right
        (List.mem_append_left _)))
  · rintro rfl
    refine (Bool.or_eq_true _ _).mpr ?_
    simp only [decide_eq_true_iff]
    have hring := h.ring
    cases hys : frees (bp + n) post with
    | nil =>
        rw [hys, List.append_nil] at hring
        have hnext : (s.mem (lastNode base (frees start pre))).ptr = base := hring.next_lastNode
        rw [hnext]
        exact .inr ⟨h.base_le hx, .inl hlast⟩
    | cons y ys =>
        rw [hys] at hring
        have hnext : (s.mem (lastNode base (frees start pre))).ptr = y :=
          (path_append.mp hring).1.next_lastNode
        have hle := h.above (hys ▸ List.mem_cons_self)
        rw [hnext]
        exact .inl ⟨hlast, by omega⟩

end Free

end Heap

end Xv6Fairness
