import Mathlib.Data.List.Chain
import Xv6Fairness.HeapAllocator

/-!
# What free does to the blocks

The walk of `free` ends at the last free block below, and the stores behind it join the block with
its free neighbours: the blocks stay a row with no two free ones next to each other.
-/

namespace Xv6Fairness

namespace Heap

open CircularLists

section Neighbours

variable {base start n r m l bp : ℕ} {s : State} {pre post bs : List Block} {mem : ℕ → Header}
  {a x : ℕ}
  {b : Block}

theorem frees_length_le (hpos : ∀ b ∈ bs, 0 < b.size) : (frees a bs).length ≤ total bs := by
  induction bs generalizing a with
  | nil => exact le_rfl
  | cons b bs ih =>
      have hb := hpos b List.mem_cons_self
      have hle := ih (a := a + b.size) fun c hc => hpos c (List.mem_cons_of_mem _ hc)
      rw [frees, total_cons]
      split_ifs
      · rw [List.length_cons]
        omega
      · omega

theorem frees_end (h : Sized mem a bs) (hx : x ∈ frees a bs) : x + (mem x).size ≤ a + total bs := by
  induction bs generalizing a with
  | nil => cases hx
  | cons b bs ih =>
      rw [total_cons]
      rw [frees] at hx
      split_ifs at hx
      · rcases List.mem_cons.mp hx with rfl | hx
        · rw [h.1]
          omega
        · have hle := ih h.2 hx
          omega
      · have hle := ih h.2 hx
        omega

theorem apart_mid : Apart (pre ++ b :: post) ↔ Apart pre ∧ Apart post ∧
    (∀ c ∈ pre.getLast?, c.use = none → b.use ≠ none) ∧
    ∀ c ∈ post.head?, b.use = none → c.use ≠ none := by
  rw [Apart, List.isChain_append, List.isChain_cons]
  constructor
  · rintro ⟨hpre, ⟨hpost, hpost'⟩, hmid⟩
    exact ⟨hpre, hpost', fun c hc => hmid c hc b rfl, hpost⟩
  · rintro ⟨hpre, hpost', hmid, hpost⟩
    refine ⟨hpre, ⟨hpost, hpost'⟩, fun c hc y hy => ?_⟩
    cases hy
    exact hmid c hc

theorem Place.search (h : Place base start s pre post n bp) (hbrk : bp + n + total post = s.brk)
    (hx : x ∈ base :: (frees start pre ++ frees (bp + n) post)) :
    search (stops s.mem bp) (fun p => (s.mem p).ptr) (s.brk + 1) x =
      some (lastNode base (frees start pre)) := by
  have hlast : lastNode base (frees start pre) ∈ base :: (frees start pre ++ frees (bp + n) post) :=
    List.mem_cons.mpr ((List.mem_cons.mp lastNode_mem).imp_right (List.mem_append_left _))
  refine h.ring.search_ring hx hlast (fun y hy => h.stops_iff hy) ?_
  have hpre := frees_length_le (a := start) h.pos_pre
  have hpost := frees_length_le (a := bp + n) h.pos_post
  have hat := h.at_eq
  rw [List.length_append]
  omega

theorem Place.next_cases (h : Place base start s pre post n bp)
    (hsized : Sized s.mem (bp + n) post) :
    (∃ m post', post = ⟨m, none⟩ :: post' ∧
        (s.mem (lastNode base (frees start pre))).ptr = bp + n ∧ (s.mem (bp + n)).size = m) ∨
      bp + n ≠ (s.mem (lastNode base (frees start pre))).ptr ∧ ∀ c ∈ post.head?, c.use ≠ none := by
  have hring := h.ring
  have hbase := h.base_lt
  have hat := h.at_eq
  cases post with
  | nil =>
      rw [frees, List.append_nil] at hring
      have hnext : (s.mem (lastNode base (frees start pre))).ptr = base := hring.next_lastNode
      exact .inr ⟨by omega, by rintro c ⟨⟩⟩
  | cons c post =>
      rw [frees] at hring
      by_cases hc : c.use = none
      · rw [if_pos hc] at hring
        obtain ⟨m, use⟩ := c
        obtain rfl : use = none := hc
        exact .inl ⟨m, post, rfl, (path_append.mp hring).1.next_lastNode, hsized.1⟩
      · rw [if_neg hc] at hring
        refine .inr ⟨fun heq => ?_, fun d hd => ?_⟩
        · have hpos := h.pos_post c List.mem_cons_self
          cases hys : frees (bp + n + c.size) post with
          | nil =>
              rw [hys, List.append_nil] at hring
              have hnext : (s.mem (lastNode base (frees start pre))).ptr = base :=
                hring.next_lastNode
              omega
          | cons y ys =>
              rw [hys] at hring
              have hnext : (s.mem (lastNode base (frees start pre))).ptr = y :=
                (path_append.mp hring).1.next_lastNode
              have hle := (frees_bounds (fun d hd => h.pos_post d (List.mem_cons_of_mem _ hd))
                (hys ▸ List.mem_cons_self : y ∈ frees (bp + n + c.size) post)).1
              omega
        · cases hd
          exact hc

theorem Place.prev_cases (h : Place base start s pre post n bp) (hsized : Sized s.mem start pre)
    (hzero : (s.mem base).size = 0) :
    (∃ l pre', pre = pre' ++ [⟨l, none⟩] ∧ lastNode base (frees start pre) = start + total pre' ∧
        (s.mem (start + total pre')).size = l ∧ start + total pre' + l = bp) ∨
      lastNode base (frees start pre) + (s.mem (lastNode base (frees start pre))).size ≠ bp ∧
        ∀ b ∈ pre.getLast?, b.use ≠ none := by
  have hbase := h.base_lt
  have hat := h.at_eq
  induction pre using List.reverseRecOn with
  | nil =>
      refine .inr ⟨?_, nofun⟩
      rw [frees, lastNode, hzero]
      omega
  | append_singleton pre b _ =>
      rw [sized_append] at hsized
      rw [total_append, total_cons] at hat
      have hnil : total [] = 0 := rfl
      by_cases hb : b.use = none
      · obtain ⟨l, use⟩ := b
        obtain rfl : use = none := hb
        refine .inl ⟨l, pre, rfl, ?_, hsized.2.1, ?_⟩
        · rw [frees_append]
          exact lastNode_append
        · simp only at hat
          omega
      · refine .inr ⟨fun heq => ?_, fun c hc => ?_⟩
        · have hfrees : frees start (pre ++ [b]) = frees start pre := by
            rw [frees_append, frees, if_neg hb, frees, List.append_nil]
          have hpos := h.pos_pre b (List.mem_append_right _ (List.mem_singleton.mpr rfl))
          rw [hfrees] at heq
          have hmem : lastNode base (frees start pre) ∈ base :: frees start pre := lastNode_mem
          rcases List.mem_cons.mp hmem with hlast | hlast
          · rw [hlast, hzero] at heq
            omega
          · have hle := frees_end hsized.1 hlast
            omega
        · rw [List.getLast?_append_cons] at hc
          cases hc
          exact hb

theorem Place.nodup (h : Place base start s pre post n bp) :
    (base :: (frees start pre ++ frees (bp + n) post)).Nodup :=
  h.sorted.imp fun hlt => ne_of_lt hlt

theorem Place.not_mem (h : Place base start s pre post n bp) :
    bp ∉ base :: (frees start pre ++ frees (bp + n) post) := by
  have hpos := h.pos
  intro hmem
  rw [← List.cons_append] at hmem
  rcases List.mem_append.mp hmem with hmem | hmem
  · exact absurd (h.below hmem) (lt_irrefl _)
  · have hle := h.above hmem
    omega

end Neighbours

section Join

variable {base start n r bp k p : ℕ} {s t : State} {pre post L R : List Block}

theorem lives_free : lives start (L ++ ⟨k, none⟩ :: R) = lives start L ++
    lives (start + total L + k) R := by
  rw [lives_append, lives]
  rfl

/-- What is left to show of a row with one free block between two rows that have no free block at
that end. -/
structure Joined (base start : ℕ) (t : State) (L R : List Block) (k : ℕ) : Prop where
  zero : (t.mem base).size = 0
  left : Sized t.mem start L
  size : (t.mem (start + total L)).size = k
  right : Sized t.mem (start + total L + k) R
  ring : Path (fun p => (t.mem p).ptr) base
    (frees start L ++ (start + total L) :: frees (start + total L + k) R) base
  last : ∀ b ∈ L.getLast?, b.use ≠ none
  head : ∀ b ∈ R.head?, b.use ≠ none
  freep : ∃ p ∈ base :: (frees start L ++ (start + total L) :: frees (start + total L + k) R),
    t.freep = some p

theorem Joined.inv (h : Joined base start t L R k) (hbase : base < start)
    (hbrk : t.brk = start + total L + k + total R) (hk : 0 < k)
    (hpos : ∀ b ∈ L ++ R, 0 < b.size)
    (hroom : ∀ b ∈ L ++ R, ∀ r, b.use = some r → r ≤ (b.size - 1) * HEADER)
    (hapart : Apart L ∧ Apart R) : Inv base start t (L ++ ⟨k, none⟩ :: R) := by
  have hfrees : frees start (L ++ ⟨k, none⟩ :: R) =
      frees start L ++ (start + total L) :: frees (start + total L + k) R := by
    rw [frees_append, frees, if_pos rfl]
  have hmem : ∀ b ∈ L ++ ⟨k, none⟩ :: R, b = ⟨k, none⟩ ∨ b ∈ L ++ R := fun b hb => by
    rcases List.mem_append.mp hb with hb | hb
    · exact .inr (List.mem_append_left _ hb)
    · exact (List.mem_cons.mp hb).imp_right (List.mem_append_right _)
  refine ⟨hbase, ?_, h.zero, ?_, fun b hb => ?_, ?_, ?_, fun b hb r hr => ?_, ?_⟩
  · rw [hbrk, total_append, total_cons]
    simp only [Nat.add_assoc]
  · exact sized_append.mpr ⟨h.left, h.size, h.right⟩
  · rcases hmem b hb with rfl | hb
    · exact hk
    · exact hpos b hb
  · rw [hfrees]
    exact h.ring
  · exact apart_mid.mpr ⟨hapart.1, hapart.2, fun c hc hfree => absurd hfree (h.last c hc),
      fun c hc _ => h.head c hc⟩
  · rcases hmem b hb with rfl | hb
    · cases hr
    · exact hroom b hb r hr
  · rw [hfrees]
    exact h.freep

variable (h : Inv base start s (pre ++ ⟨n, some r⟩ :: post)) (hbp : bp = start + total pre)

include h hbp

theorem Inv.sized_pre : Sized s.mem start pre ∧ (s.mem bp).size = n ∧
    Sized s.mem (bp + n) post := by
  rw [hbp]
  exact sized_append.mp h.sized

theorem Inv.keep_pre (hsize : ∀ y, y ≠ bp → y < bp → (t.mem y).size = (s.mem y).size) :
    Sized t.mem start pre := by
  have hpos := (h.place hbp).pos_pre
  exact (h.sized_pre hbp).1.congr hpos fun y _ hlt => hsize y (by omega) (by omega)

theorem Inv.keep_post (hsize : ∀ y, bp < y → (t.mem y).size = (s.mem y).size) :
    Sized t.mem (bp + n) post := by
  have hplace := h.place hbp
  have hpos := hplace.pos
  exact (h.sized_pre hbp).2.2.congr hplace.pos_post fun y hle _ => hsize y (by omega)

end Join

section Cases

variable {base start n r bp l m : ℕ} {s : State} {pre post pre' post' : List Block}

theorem mem_pair {α : Type*} {xs ys : List α} {x z : α} (hz : z ∈ xs ++ ys) :
    z ∈ xs ++ x :: ys := by
  rcases List.mem_append.mp hz with hz | hz
  · exact List.mem_append_left _ hz
  · exact List.mem_append_right _ (List.mem_cons_of_mem _ hz)

theorem lastNode_mem_append {a : ℕ} {xs ys : List ℕ} : lastNode a xs ∈ a :: (xs ++ ys) :=
  List.mem_cons.mpr ((List.mem_cons.mp lastNode_mem).imp_right (List.mem_append_left _))

theorem join_none (h : Inv base start s (pre ++ ⟨n, some r⟩ :: post)) (hbp : bp = start + total pre)
    {p : ℕ} (hp : p = lastNode base (frees start pre)) (hnext : bp + n ≠ (s.mem p).ptr)
    (hprev : p + (s.mem p).size ≠ bp) (hhead : ∀ b ∈ post.head?, b.use ≠ none)
    (hlast : ∀ b ∈ pre.getLast?, b.use ≠ none) :
    Joined base start { s with mem := join s.mem bp p, freep := some p } pre post n := by
  have hplace := h.place hbp
  have hsize := (h.sized_pre hbp).2.1
  have hlt : p < bp := hplace.below (hp ▸ lastNode_mem)
  have hjoin : join s.mem bp p = setPtr (setPtr s.mem bp (s.mem p).ptr) p bp := by
    simp only [join, hsize, if_neg hnext, setPtr_size, if_neg hprev]
  rw [hjoin]
  refine ⟨?_, ?_, ?_, ?_, ?_, hlast, hhead, p, ?_, rfl⟩
  · simp only [setPtr_size]
    exact h.base_size
  · exact h.keep_pre hbp fun y _ _ => by simp only [setPtr_size]
  · rw [← hbp]
    simp only [setPtr_size]
    exact hsize
  · rw [← hbp]
    exact h.keep_post hbp fun y _ => by simp only [setPtr_size]
  · rw [← hbp]
    subst hp
    refine hplace.ring.insert hplace.nodup hplace.not_mem ?_ ?_ fun y hy hy' => ?_
    · simp only [setPtr_ptr, if_neg hlt.ne', if_true]
    · simp only [setPtr_ptr, if_true]
    · simp only [setPtr_ptr, if_neg hy, if_neg hy']
  · rw [hp]
    exact lastNode_mem_append

theorem join_next (h : Inv base start s (pre ++ ⟨n, some r⟩ :: ⟨m, none⟩ :: post))
    (hbp : bp = start + total pre) {p : ℕ} (hp : p = lastNode base (frees start pre))
    (hnext : (s.mem p).ptr = bp + n) (hm : (s.mem (bp + n)).size = m)
    (hprev : p + (s.mem p).size ≠ bp) (hhead : ∀ b ∈ post.head?, b.use ≠ none)
    (hlast : ∀ b ∈ pre.getLast?, b.use ≠ none) :
    Joined base start { s with mem := join s.mem bp p, freep := some p } pre post (n + m) := by
  have hplace := h.place hbp
  have hn := hplace.pos
  have hsize := (h.sized_pre hbp).2.1
  have hlt : p < bp := hplace.below (hp ▸ lastNode_mem)
  have hjoin : join s.mem bp p =
      setPtr (setPtr (setSize s.mem bp (n + m)) bp (s.mem (bp + n)).ptr) p bp := by
    simp only [join, hsize, hnext, if_true, hm, setPtr_size, setSize_size, if_neg hlt.ne,
      if_neg hprev]
  have hbase : base ≠ bp := (hplace.below List.mem_cons_self).ne
  rw [hjoin]
  refine ⟨?_, ?_, ?_, ?_, ?_, hlast, hhead, p, ?_, rfl⟩
  · simp only [setPtr_size, setSize_size, if_neg hbase]
    exact h.base_size
  · exact h.keep_pre hbp fun y hy _ => by simp only [setPtr_size, setSize_size, if_neg hy]
  · rw [← hbp]
    simp only [setPtr_size, setSize_size, if_true]
  · rw [← hbp, ← Nat.add_assoc]
    have hpost :=
      h.keep_post (t := ⟨setPtr (setPtr (setSize s.mem bp (n + m)) bp (s.mem (bp + n)).ptr) p bp,
      none, 0⟩) hbp fun y hy => by simp only [setPtr_size, setSize_size, if_neg hy.ne']
    exact hpost.2
  · rw [← hbp, ← Nat.add_assoc]
    subst hp
    have hring := hplace.ring
    have hnodup := hplace.nodup
    have hnot := hplace.not_mem
    rw [frees, if_pos rfl] at hring hnodup hnot
    refine hring.replace hnodup (fun hmem => hnot ?_) ?_ ?_ fun y hy hy' hy'' => ?_
    · exact List.mem_cons.mpr ((List.mem_cons.mp hmem).imp_right mem_pair)
    · simp only [setPtr_ptr, if_true]
    · simp only [setPtr_ptr, if_neg hlt.ne', if_true]
    · simp only [setPtr_ptr, setSize_ptr, if_neg hy', if_neg hy'']
  · rw [hp]
    exact lastNode_mem_append

theorem join_prev (h : Inv base start s (pre ++ [⟨l, none⟩] ++ ⟨n, some r⟩ :: post))
    (hbp : bp = start + total (pre ++ [⟨l, none⟩])) {p : ℕ} (hp : p = start + total pre)
    (hpl : p + l = bp) (hl : (s.mem p).size = l) (hnext : bp + n ≠ (s.mem p).ptr)
    (hhead : ∀ b ∈ post.head?, b.use ≠ none) (hlast : ∀ b ∈ pre.getLast?, b.use ≠ none) :
    Joined base start { s with mem := join s.mem bp p, freep := some p } pre post (l + n) := by
  have hplace := h.place hbp
  have hsize := (h.sized_pre hbp).2.1
  have hpre := (sized_append.mp (h.sized_pre hbp).1).1
  have hpos : 0 < l :=
    hplace.pos_pre ⟨l, none⟩ (List.mem_append_right _ (List.mem_singleton.mpr rfl))
  have hne : p ≠ bp := by omega
  have hjoin : join s.mem bp p =
      setPtr (setSize (setPtr s.mem bp (s.mem p).ptr) p (l + n)) p (s.mem p).ptr := by
    simp only [join, hsize, if_neg hnext, setPtr_size, setPtr_ptr, hl, hpl, if_true]
  rw [hjoin]
  have hfrees : frees start (pre ++ [⟨l, none⟩]) = frees start pre ++ [p] := by
    rw [frees_append, hp]
    rfl
  have hring := hplace.ring
  have hnot := hplace.not_mem
  rw [hfrees, List.append_assoc, List.singleton_append] at hring hnot
  have hbase : base ≠ p := by
    have hlt := h.base_lt
    omega
  refine ⟨?_, ?_, ?_, ?_, ?_, hlast, hhead, p, ?_, rfl⟩
  · simp only [setPtr_size, setSize_size, if_neg hbase]
    exact h.base_size
  · refine hpre.congr (fun b hb => hplace.pos_pre b (List.mem_append_left _ hb)) fun y _ hy => ?_
    simp only [setPtr_size, setSize_size, if_neg (by omega : y ≠ p)]
  · rw [← hp]
    simp only [setPtr_size, setSize_size, if_true]
  · rw [← hp, ← Nat.add_assoc, hpl]
    refine h.keep_post hbp fun y hy => ?_
    simp only [setPtr_size, setSize_size, if_neg (by omega : y ≠ p)]
  · rw [← hp, ← Nat.add_assoc, hpl]
    refine hring.congr fun y hy => ?_
    have hy' : y ≠ bp := fun heq => hnot (heq ▸ hy)
    by_cases hyp : y = p
    · simp only [setPtr_ptr, hyp, if_true]
    · simp only [setPtr_ptr, setSize_ptr, if_neg hyp, if_neg hy']
  · rw [← hp]
    exact List.mem_cons_of_mem _ (List.mem_append_right _ List.mem_cons_self)

theorem join_both (h : Inv base start s (pre ++ [⟨l, none⟩] ++ ⟨n, some r⟩ :: ⟨m, none⟩ :: post))
    (hbp : bp = start + total (pre ++ [⟨l, none⟩])) {p : ℕ} (hp : p = start + total pre)
    (hpl : p + l = bp) (hl : (s.mem p).size = l) (hnext : (s.mem p).ptr = bp + n)
    (hm : (s.mem (bp + n)).size = m) (hhead : ∀ b ∈ post.head?, b.use ≠ none)
    (hlast : ∀ b ∈ pre.getLast?, b.use ≠ none) :
    Joined base start { s with mem := join s.mem bp p, freep := some p } pre post
    (l + (n + m)) := by
  have hplace := h.place hbp
  have hn := hplace.pos
  have hsize := (h.sized_pre hbp).2.1
  have hpre := (sized_append.mp (h.sized_pre hbp).1).1
  have hpos : 0 < l :=
    hplace.pos_pre ⟨l, none⟩ (List.mem_append_right _ (List.mem_singleton.mpr rfl))
  have hne : p ≠ bp := by omega
  have haddr : p + (l + (n + m)) = bp + n + m := by omega
  have hjoin : join s.mem bp p =
      setPtr (setSize (setPtr (setSize s.mem bp (n + m)) bp (s.mem (bp + n)).ptr) p (l + (n + m))) p
        (s.mem (bp + n)).ptr := by
    simp only [join, hsize, hnext, if_true, hm, setPtr_size, setSize_size, setPtr_ptr,
      if_neg hne, hl, hpl]
  rw [hjoin]
  have hfrees : frees start (pre ++ [⟨l, none⟩]) = frees start pre ++ [p] := by
    rw [frees_append, hp]
    rfl
  have hring := hplace.ring
  have hnodup := hplace.nodup
  have hnot := hplace.not_mem
  rw [hfrees, frees, if_pos rfl] at hring hnodup hnot
  have hbase : base ≠ bp ∧ base ≠ p := by
    have hlt := h.base_lt
    omega
  refine ⟨?_, ?_, ?_, ?_, ?_, hlast, hhead, p, ?_, rfl⟩
  · simp only [setPtr_size, setSize_size, if_neg hbase.1, if_neg hbase.2]
    exact h.base_size
  · refine hpre.congr (fun b hb => hplace.pos_pre b (List.mem_append_left _ hb)) fun y _ hy => ?_
    simp only [setPtr_size, setSize_size, if_neg (by omega : y ≠ p), if_neg (by omega : y ≠ bp)]
  · rw [← hp]
    simp only [setPtr_size, setSize_size, if_true]
  · rw [← hp, haddr]
    have hpost := h.keep_post (t := ⟨setPtr (setSize (setPtr (setSize s.mem bp (n + m)) bp
      (s.mem (bp + n)).ptr) p (l + (n + m))) p (s.mem (bp + n)).ptr, none, 0⟩) hbp fun y hy => by
        simp only [setPtr_size, setSize_size, if_neg (by omega : y ≠ p), if_neg (by omega : y ≠ bp)]
    exact hpost.2
  · rw [← hp, haddr]
    have hlastp : lastNode base (frees start pre ++ [p]) = p := lastNode_append
    rw [← List.singleton_append, ← List.append_assoc]
    refine hring.remove hnodup ?_ fun y hy hy' => ?_
    · simp only [hlastp, setPtr_ptr, if_true]
    · have hy'' := List.mem_cons.mpr ((List.mem_cons.mp hy).imp_right (mem_pair (x := bp + n)))
      have hybp : y ≠ bp := fun heq => hnot (heq ▸ hy'')
      rw [hlastp] at hy'
      simp only [setPtr_ptr, setSize_ptr, if_neg hy', if_neg hybp]
  · rw [← hp]
    exact List.mem_cons_of_mem _ (List.mem_append_right _ List.mem_cons_self)

/-- What `free` is to leave of the blocks on both sides of a block of `n` units. -/
def Freed (base start : ℕ) (t : State) (n : ℕ) (used : List (ℕ × ℕ)) : Prop :=
  ∃ bs, Inv base start t bs ∧ lives start bs = used ∧ ∃ q ∈ frees start bs, n ≤ (t.mem q).size

theorem Joined.freed {t : State} {L R : List Block} {k : ℕ} (h : Joined base start t L R k)
    (hbase : base < start) (hbrk : t.brk = start + total L + k + total R) (hn : 0 < n) (hle : n ≤ k)
    (hpos : ∀ b ∈ L ++ R, 0 < b.size)
    (hroom : ∀ b ∈ L ++ R, ∀ r, b.use = some r → r ≤ (b.size - 1) * HEADER)
    (hapart : Apart L ∧ Apart R) :
    Freed base start t n (lives start L ++ lives (start + total L + k) R) := by
  refine ⟨_, h.inv hbase hbrk (by omega) hpos hroom hapart, lives_free, start + total L, ?_, ?_⟩
  · rw [frees_append]
    exact List.mem_append_right _ List.mem_cons_self
  · rw [h.size]
    exact hle

/-- `free` turns a block in use into free memory, and the blocks stay a row without free neighbours.
-/
theorem free_spec (h : Inv base start s (pre ++ ⟨n, some r⟩ :: post))
    (hbp : bp = start + total pre) :
    ∃ t, free s bp = some t ∧ t.brk = s.brk ∧
      Freed base start t n (lives start pre ++ lives (bp + n) post) := by
  have hplace := h.place hbp
  obtain ⟨hspre, hsize, hspost⟩ := h.sized_pre hbp
  obtain ⟨hapre, hapost, hmid, hmid'⟩ := apart_mid.mp h.apart
  have hbrk : bp + n + total post = s.brk := by
    rw [h.brk, total_append, total_cons, hbp]
    simp only [Nat.add_assoc]
  have hfree : free s bp = some { s with
      mem := join s.mem bp (lastNode base (frees start pre))
      freep := some (lastNode base (frees start pre)) } := by
    obtain ⟨x, hx, hxeq⟩ := h.freep
    rw [frees_append, frees, if_neg (Option.some_ne_none r), ← hbp] at hx
    rw [free, hxeq, Option.bind_eq_bind, Option.bind_some, hplace.search hbrk hx]
    rfl
  have hroom : ∀ b ∈ pre ++ post, ∀ r, b.use = some r → r ≤ (b.size - 1) * HEADER := fun b hb =>
    h.room b (mem_pair hb)
  have hpos : ∀ b ∈ pre ++ post, 0 < b.size := fun b hb => h.pos b (mem_pair hb)
  have hn := hplace.pos
  have hzero := h.base_size
  refine ⟨_, hfree, rfl, ?_⟩
  rcases hplace.prev_cases hspre hzero with ⟨l, pre', rfl, hp, hl, hpl⟩ | ⟨hprev, hlast⟩
  · obtain ⟨hapre', -, hlast, -⟩ := apart_mid.mp hapre
    have hlast' : ∀ b ∈ pre'.getLast?, b.use ≠ none := fun b hb hfree => hlast b hb hfree rfl
    have hlives : lives start (pre' ++ [⟨l, none⟩]) = lives start pre' := by
      rw [lives_free]
      exact List.append_nil _
    rw [hlives, hp]
    rw [hp] at hfree
    rcases hplace.next_cases hspost with ⟨m, post', rfl, hnext, hm⟩ | ⟨hnext, hhead⟩
    · obtain ⟨hhead, hapost'⟩ := List.isChain_cons.mp hapost
      rw [hp] at hnext
      have hsub : ∀ b ∈ pre' ++ post', b ∈ pre' ++ [⟨l, none⟩] ++ ⟨m, none⟩ :: post' :=
        fun b hb => by
        rw [List.append_assoc]
        exact mem_pair (mem_pair hb)
      have hjoin := join_both h hbp rfl hpl hl hnext hm (fun b hb => hhead b hb rfl) hlast'
      rw [total_cons] at hbrk
      simp only at hbrk
      have haddr : start + total pre' + (l + (n + m)) = bp + n + m := by omega
      have hfreed := hjoin.freed h.base_lt (by simp only; omega) hn (by omega)
        (fun b hb => hpos b (hsub b hb)) (fun b hb => hroom b (hsub b hb)) ⟨hapre', hapost'⟩
      rw [haddr] at hfreed
      exact hfreed
    · have hsub : ∀ b ∈ pre' ++ post, b ∈ pre' ++ [⟨l, none⟩] ++ post := fun b hb => by
        rw [List.append_assoc]
        exact mem_pair hb
      rw [hp] at hnext
      have hjoin := join_prev h hbp rfl hpl hl hnext hhead hlast'
      have haddr : start + total pre' + (l + n) = bp + n := by omega
      have hfreed := hjoin.freed h.base_lt (by simp only; omega) hn (by omega)
        (fun b hb => hpos b (hsub b hb)) (fun b hb => hroom b (hsub b hb)) ⟨hapre', hapost⟩
      rw [haddr] at hfreed
      exact hfreed
  · rcases hplace.next_cases hspost with ⟨m, post', rfl, hnext, hm⟩ | ⟨hnext, hhead⟩
    · obtain ⟨hhead, hapost'⟩ := List.isChain_cons.mp hapost
      have hjoin := join_next h hbp rfl hnext hm hprev (fun b hb => hhead b hb rfl) hlast
      rw [total_cons] at hbrk
      simp only at hbrk
      have haddr : start + total pre + (n + m) = bp + n + m := by omega
      have hfreed := hjoin.freed h.base_lt (by simp only; omega) hn (by omega)
        (fun b hb => hpos b (mem_pair hb)) (fun b hb => hroom b (mem_pair hb)) ⟨hapre, hapost'⟩
      rw [haddr] at hfreed
      exact hfreed
    · have hjoin := join_none h hbp rfl hnext hprev hhead hlast
      have hfreed :=
        hjoin.freed h.base_lt (by simp only; omega) hn le_rfl hpos hroom ⟨hapre, hapost⟩
      rw [← hbp] at hfreed
      exact hfreed

end Cases

end Heap

end Xv6Fairness
