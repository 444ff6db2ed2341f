import Xv6Fairness.HeapFree
import Xv6Fairness.TransitionRuns

/-!
# Programs that call malloc and free

`malloc` walks round the ring once, asks `sbrk` for more memory when nothing fits, and then comes to
the new block. A program may call `malloc` and `free` in any order and store into its blocks.
-/

namespace Xv6Fairness

namespace Heap

open CircularLists TransitionRuns

section Rows

variable {a q r x : ℕ} {bs pre post : List Block} {mem : ℕ → Header}

theorem exists_free (hx : x ∈ frees a bs) :
    ∃ pre k post, bs = pre ++ ⟨k, none⟩ :: post ∧ x = a + total pre := by
  induction bs generalizing a with
  | nil => cases hx
  | cons b bs ih =>
      have htail : x ∈ frees (a + b.size) bs →
          ∃ pre k post, b :: bs = pre ++ ⟨k, none⟩ :: post ∧ x = a + total pre := fun hx => by
        obtain ⟨pre, k, post, rfl, rfl⟩ := ih hx
        exact ⟨b :: pre, k, post, rfl, by rw [total_cons, Nat.add_assoc]⟩
      rw [frees] at hx
      split_ifs at hx with hb
      · rcases List.mem_cons.mp hx with rfl | hx
        · obtain ⟨k, use⟩ := b
          obtain rfl : use = none := hb
          exact ⟨[], k, bs, rfl, rfl⟩
        · exact htail hx
      · exact htail hx

theorem exists_live (hx : (q, r) ∈ lives a bs) :
    ∃ pre n post, bs = pre ++ ⟨n, some r⟩ :: post ∧ q = a + total pre := by
  induction bs generalizing a with
  | nil => cases hx
  | cons b bs ih =>
      rcases List.mem_append.mp hx with hx | hx
      · obtain ⟨n, use⟩ := b
        cases use with
        | none => cases hx
        | some r' =>
            cases List.mem_singleton.mp hx
            exact ⟨[], n, bs, rfl, rfl⟩
      · obtain ⟨pre, n, post, rfl, rfl⟩ := ih hx
        exact ⟨b :: pre, n, post, rfl, by rw [total_cons, Nat.add_assoc]⟩

end Rows

section Carve

variable {base start p prevp k n nb : ℕ} {s : State} {bs pre post : List Block}

/-- The block found is a free one, and the pointer behind it is the one in front of it on the list.
-/
theorem Inv.found (h : Inv base start s bs) (hp : p ∈ base :: frees start bs)
    (hprev : prevp ∈ base :: frees start bs) (hlink : (s.mem prevp).ptr = p)
    (hsize : 0 < (s.mem p).size) : ∃ pre k post, bs = pre ++ ⟨k, none⟩ :: post ∧
    p = start + total pre ∧
      (s.mem p).size = k ∧ prevp = lastNode base (frees start pre) := by
  have hzero := h.base_size
  rcases List.mem_cons.mp hp with rfl | hp'
  · omega
  obtain ⟨pre, k, post, rfl, rfl⟩ := exists_free hp'
  have hring := h.ring
  have hsorted : (base :: frees start (pre ++ ⟨k, none⟩ :: post)).Nodup := by
    refine List.nodup_cons.mpr ⟨fun hmem => ?_, (frees_sorted h.pos).imp fun hlt => ne_of_lt hlt⟩
    have hle := (frees_bounds h.pos hmem).1
    have hlt := h.base_lt
    omega
  have hfrees : frees start (pre ++ ⟨k, none⟩ :: post) =
      frees start pre ++ (start + total pre) :: frees (start + total pre + k) post := by
    rw [frees_append, frees, if_pos rfl]
  refine ⟨pre, k, post, rfl, rfl, (sized_append.mp h.sized).2.1, ?_⟩
  refine hring.next_inj hsorted hprev (hfrees ▸ lastNode_mem_append) ?_
  rw [hfrees] at hring
  exact hlink.trans (path_append.mp hring).1.next_lastNode.symm

/-- The row with a block taken out of the free ones, or with the tail of one. -/
def Carved (base start : ℕ) (t : State) (q nb : ℕ) (used : List (ℕ × ℕ)) : Prop :=
  ∃ bs, Inv base start t bs ∧ (lives start bs).Perm ((q, nb) :: used)

theorem Inv.take (h : Inv base start s (pre ++ ⟨k, none⟩ :: post)) (hk : nb ≤ (k - 1) * HEADER)
    (hp : p = start + total pre) (hprev : prevp = lastNode base (frees start pre)) :
    Carved base start { s with mem := setPtr s.mem prevp (s.mem p).ptr, freep := some prevp } p nb
      (lives start (pre ++ ⟨k, none⟩ :: post)) := by
  obtain ⟨hapre, hapost, -, -⟩ := apart_mid.mp h.apart
  have hring := h.ring
  have hfrees : frees start (pre ++ ⟨k, none⟩ :: post) =
      frees start pre ++ p :: frees (p + k) post := by
    rw [frees_append, frees, if_pos rfl, hp]
  have hfrees' : frees start (pre ++ ⟨k, some nb⟩ :: post) = frees start pre ++
      frees (p + k) post := by
    rw [frees_append, frees, if_neg (Option.some_ne_none nb), hp]
  have hpos : ∀ b ∈ pre ++ post, 0 < b.size := fun b hb => h.pos b (mem_pair hb)
  have hkpos : 0 < k := h.pos ⟨k, none⟩ (List.mem_append_right _ List.mem_cons_self)
  have hmem : ∀ b ∈ pre ++ ⟨k, some nb⟩ :: post, b = ⟨k, some nb⟩ ∨ b ∈ pre ++ post :=
    fun b hb => by
    rcases List.mem_append.mp hb with hb | hb
    · exact .inr (List.mem_append_left _ hb)
    · exact (List.mem_cons.mp hb).imp_right (List.mem_append_right _)
  have hnodup : (base :: frees start (pre ++ ⟨k, none⟩ :: post)).Nodup := by
    refine List.nodup_cons.mpr ⟨fun hmem => ?_, (frees_sorted h.pos).imp fun hlt => ne_of_lt hlt⟩
    have hle := (frees_bounds h.pos hmem).1
    have hlt := h.base_lt
    omega
  rw [hfrees] at hring hnodup
  refine ⟨pre ++ ⟨k, some nb⟩ :: post,
    ⟨h.base_lt, ?_, ?_, ?_, fun b hb => ?_, ?_, ?_, fun b hb r hr => ?_,
    prevp, ?_, rfl⟩, ?_⟩
  · rw [h.brk, total_append, total_append, total_cons, total_cons]
  · simp only [setPtr_size]
    exact h.base_size
  · have hsized := sized_append.mp h.sized
    refine sized_append.mpr ⟨hsized.1.congr (fun b hb => hpos b (List.mem_append_left _ hb)) ?_, ?_,
      hsized.2.2.congr (fun b hb => hpos b (List.mem_append_right _ hb)) ?_⟩
    · exact fun y _ _ => by simp only [setPtr_size]
    · simp only [setPtr_size]
      exact hsized.2.1
    · exact fun y _ _ => by simp only [setPtr_size]
  · rcases hmem b hb with rfl | hb
    · exact hkpos
    · exact hpos b hb
  · rw [hfrees']
    refine hring.remove hnodup ?_ fun y hy hne => ?_
    · simp only [setPtr_ptr, hprev, if_true]
    · simp only [setPtr_ptr, hprev, if_neg hne]
  · exact apart_mid.mpr ⟨hapre, hapost, fun _ _ _ => Option.some_ne_none nb,
      fun _ _ hfree => absurd hfree (Option.some_ne_none nb)⟩
  · rcases hmem b hb with rfl | hb
    · cases hr
      exact hk
    · exact h.room b (mem_pair hb) r hr
  · rw [hfrees', hprev]
    exact lastNode_mem_append
  · rw [lives_append, lives, lives_free, ← hp]
    exact List.perm_middle

theorem Inv.split (h : Inv base start s (pre ++ ⟨k, none⟩ :: post)) (hn : 0 < n) (hlt : n < k)
    (hnb : nb ≤ (n - 1) * HEADER) (hp : p = start + total pre)
    (hprev : prevp = lastNode base (frees start pre)) :
    Carved base start { s with
      mem := setSize (setSize s.mem p (k - n)) (p + (k - n)) n, freep := some prevp }
      (p + (k - n)) nb
      (lives start (pre ++ ⟨k, none⟩ :: post)) := by
  obtain ⟨hapre, hapost, hmid, hmid'⟩ := apart_mid.mp h.apart
  have hring := h.ring
  have hfrees : frees start (pre ++ ⟨k, none⟩ :: post) =
      frees start pre ++ p :: frees (p + k) post := by
    rw [frees_append, frees, if_pos rfl, hp]
  have haddr : p + (k - n) + n = p + k := by omega
  have hfrees' : frees start (pre ++ ⟨k - n, none⟩ :: ⟨n, some nb⟩ :: post) =
      frees start pre ++ p :: frees (p + k) post := by
    rw [frees_append, frees, if_pos rfl, frees, if_neg (Option.some_ne_none nb), ← hp, haddr]
  have hpos : ∀ b ∈ pre ++ post, 0 < b.size := fun b hb => h.pos b (mem_pair hb)
  have hmem : ∀ b ∈ pre ++ ⟨k - n, none⟩ :: ⟨n, some nb⟩ :: post,
      b = ⟨k - n, none⟩ ∨ b = ⟨n, some nb⟩ ∨ b ∈ pre ++ post := fun b hb => by
    rcases List.mem_append.mp hb with hb | hb
    · exact .inr (.inr (List.mem_append_left _ hb))
    · rcases List.mem_cons.mp hb with hb | hb
      · exact .inl hb
      · exact .inr ((List.mem_cons.mp hb).imp_right (List.mem_append_right _))
  have hbase := h.base_lt
  refine ⟨pre ++ ⟨k - n, none⟩ :: ⟨n, some nb⟩ :: post,
    ⟨h.base_lt, ?_, ?_, ?_, fun b hb => ?_, ?_, ?_,
    fun b hb r hr => ?_, prevp, ?_, rfl⟩, ?_⟩
  · rw [h.brk, total_append, total_append, total_cons, total_cons, total_cons]
    simp only
    omega
  · simp only [setSize_size, if_neg (by omega : base ≠ p + (k - n)), if_neg (by omega : base ≠ p)]
    exact h.base_size
  · have hsized := sized_append.mp h.sized
    refine sized_append.mpr ⟨hsized.1.congr (fun b hb => hpos b (List.mem_append_left _ hb)) ?_,
      ?_, ?_, ?_⟩
    · intro y _ hy
      simp only [setSize_size, if_neg (by omega : y ≠ p + (k - n)), if_neg (by omega : y ≠ p)]
    · rw [← hp]
      simp only [setSize_size, if_neg (by omega : p ≠ p + (k - n)), if_true]
    · rw [← hp]
      simp only [setSize_size, if_true]
    · have hpost := hsized.2.2
      rw [← hp] at hpost ⊢
      rw [haddr]
      refine hpost.congr (fun b hb => hpos b (List.mem_append_right _ hb)) fun y hy _ => ?_
      simp only at hy
      simp only [setSize_size, if_neg (by omega : y ≠ p + (k - n)), if_neg (by omega : y ≠ p)]
  · rcases hmem b hb with rfl | rfl | hb
    · exact Nat.sub_pos_of_lt hlt
    · exact hn
    · exact hpos b hb
  · rw [hfrees']
    rw [hfrees] at hring
    exact hring.congr fun y _ => by simp only [setSize_ptr]
  · refine apart_mid.mpr ⟨hapre, List.isChain_cons.mpr ⟨fun _ _ hfree => ?_, hapost⟩, hmid,
      fun c hc _ => ?_⟩
    · exact absurd hfree (Option.some_ne_none nb)
    · cases hc
      exact Option.some_ne_none nb
  · rcases hmem b hb with rfl | rfl | hb
    · cases hr
    · cases hr
      exact hnb
    · exact h.room b (mem_pair hb) r hr
  · rw [hfrees', hprev]
    exact lastNode_mem_append
  · rw [lives_free, lives, lives_free, ← hp, haddr]
    exact List.perm_middle

theorem carve_spec (h : Inv base start s bs) (hp : p ∈ base :: frees start bs)
    (hprev : prevp ∈ base :: frees start bs) (hlink : (s.mem prevp).ptr = p) (hn : 0 < n)
    (hsize : n ≤ (s.mem p).size) (hnb : nb ≤ (n - 1) * HEADER) :
    Carved base start (carve s prevp p n).1 (carve s prevp p n).2 nb (lives start bs) := by
  obtain ⟨pre, k, post, rfl, hpeq, rfl, hlast⟩ := h.found hp hprev hlink (by omega)
  by_cases hfit : (s.mem p).size = n
  · rw [carve, if_pos hfit]
    exact h.take (hfit ▸ hnb) hpeq hlast
  · rw [carve, if_neg hfit]
    exact h.split hn (by omega) hnb hpeq hlast

end Carve

section More

variable {base start n : ℕ} {s : State} {bs : List Block}

theorem Inv.extend (h : Inv base start s bs) (hn : 0 < n) :
    Inv base start { s with mem := setSize s.mem s.brk n, brk := s.brk + n }
    (bs ++ [⟨n, some 0⟩]) := by
  have hbase := h.base_lt
  have hbrk := h.brk
  have hfrees : frees start (bs ++ [⟨n, some 0⟩]) = frees start bs := by
    rw [frees_append, frees, if_neg (Option.some_ne_none 0), frees, List.append_nil]
  have hmem : ∀ b ∈ bs ++ [⟨n, some 0⟩], b ∈ bs ∨ b = ⟨n, some 0⟩ := fun b hb =>
    (List.mem_append.mp hb).imp_right List.mem_singleton.mp
  refine ⟨hbase, ?_, ?_, ?_, fun b hb => ?_, ?_, ?_, fun b hb r hr => ?_, ?_⟩
  · rw [total_append, total_cons]
    simp only [hbrk, total, List.map_nil, List.sum_nil]
    omega
  · simp only [setSize_size, if_neg (by omega : base ≠ s.brk)]
    exact h.base_size
  · refine sized_append.mpr ⟨h.sized.congr h.pos fun y _ hy => ?_, ?_, trivial⟩
    · simp only [setSize_size, if_neg (by omega : y ≠ s.brk)]
    · rw [← hbrk]
      simp only [setSize_size, if_true]
  · rcases hmem b hb with hb | rfl
    · exact h.pos b hb
    · exact hn
  · rw [hfrees]
    exact h.ring.congr fun y _ => by simp only [setSize_ptr]
  · refine List.isChain_append.mpr ⟨h.apart, List.isChain_singleton _, fun c _ d hd => ?_⟩
    cases hd
    exact fun _ => Option.some_ne_none 0
  · rcases hmem b hb with hb | rfl
    · exact h.room b hb r hr
    · cases hr
      exact Nat.zero_le _
  · rw [hfrees]
    exact h.freep

theorem morecore_spec (h : Inv base start s bs) (sbrk : ℕ → ℕ → Bool)
    (hn : max n 4096 * HEADER < 2 ^ 32) :
    if sbrk s.brk (max n 4096 * HEADER) = true then
      ∃ t, morecore s sbrk n = some (t, true) ∧ t.brk = s.brk + max n 4096 ∧
        Freed base start t (max n 4096) (lives start bs)
    else morecore s sbrk n = some (s, false) := by
  have hmax : (if n < 4096 then 4096 else n) = max n 4096 := by
    split_ifs with hlt
    · exact (max_eq_right hlt.le).symm
    · exact (max_eq_left (not_lt.mp hlt)).symm
  have hpos : 0 < max n 4096 := lt_of_lt_of_le (by decide) (le_max_right n 4096)
  have hbytes : max n 4096 * HEADER / HEADER = max n 4096 := Nat.mul_div_cancel _ (by decide)
  simp only [morecore, hmax, Nat.mod_eq_of_lt hn, hbytes]
  split_ifs with hgrant
  · obtain ⟨t, hfree, hbrk, hfreed⟩ := free_spec (h.extend hpos) h.brk
    refine ⟨t, ?_, hbrk, ?_⟩
    · rw [hfree]
      rfl
    · rw [lives, List.append_nil] at hfreed
      exact hfreed
  · rfl

end More

section Walk

variable {base start n m f prevp : ℕ} {s : State} {bs : List Block} {ys : List ℕ}

/-- The walk comes to a block that fits, or back to `freep` without having found one. -/
theorem mallocLoop_walk (sbrk : ℕ → ℕ → Bool) (hpath : Path (fun p => (s.mem p).ptr) prevp ys f)
    (hf : s.freep = some f)
    (hnot : f ∉ ys) (hm : ys.length < m) :
    (∃ prev q, mallocLoop sbrk n m s prevp (s.mem prevp).ptr =
        some ((carve s prev q n).1, some (carve s prev q n).2) ∧
      prev ∈ prevp :: ys ∧ (s.mem prev).ptr = q ∧ n ≤ (s.mem q).size) ∨
    (∀ q ∈ ys ++ [f], (s.mem q).size < n) ∧ ∃ m', m = m' + 1 + ys.length ∧
      mallocLoop sbrk n m s prevp (s.mem prevp).ptr = (morecore s sbrk n).bind fun r =>
        if r.2 = true then r.1.freep.bind fun p => mallocLoop sbrk n m' r.1 p (r.1.mem p).ptr
        else some (r.1, none) := by
  induction ys generalizing prevp m with
  | nil =>
      obtain ⟨m, rfl⟩ := Nat.exists_eq_succ_of_ne_zero (Nat.ne_zero_of_lt hm)
      have hnext : (s.mem prevp).ptr = f := hpath
      rw [hnext, mallocLoop]
      by_cases hfit : n ≤ (s.mem f).size
      · rw [if_pos hfit]
        exact .inl ⟨prevp, f, rfl, List.mem_cons_self, hnext, hfit⟩
      · rw [if_neg hfit, if_pos hf]
        refine .inr ⟨fun q hq => ?_, m, rfl, rfl⟩
        rw [List.mem_singleton.mp hq]
        exact not_le.mp hfit
  | cons y ys ih =>
      obtain ⟨m, rfl⟩ := Nat.exists_eq_succ_of_ne_zero (Nat.ne_zero_of_lt hm)
      have hnext : (s.mem prevp).ptr = y := hpath.1
      have hfy : f ≠ y := fun h => hnot (h ▸ List.mem_cons_self)
      rw [hnext, mallocLoop]
      by_cases hfit : n ≤ (s.mem y).size
      · rw [if_pos hfit]
        exact .inl ⟨prevp, y, rfl, List.mem_cons_self, hnext, hfit⟩
      · rw [if_neg hfit, if_neg fun h => hfy (Option.some.inj (hf.symm.trans h))]
        rcases ih hpath.2 (fun h => hnot (List.mem_cons_of_mem _ h))
          (Nat.lt_of_succ_lt_succ hm) with
          ⟨prev, q, heq, hprev, hlink, hq⟩ | ⟨hsmall, m', rfl, heq⟩
        · exact .inl ⟨prev, q, heq, List.mem_cons_of_mem _ hprev, hlink, hq⟩
        · refine .inr ⟨fun q hq => ?_, m', rfl, heq⟩
          rcases List.mem_cons.mp hq with rfl | hq
          · exact not_le.mp hfit
          · exact hsmall q hq

theorem Inv.walk (h : Inv base start s bs) (sbrk : ℕ → ℕ → Bool) (n : ℕ)
    (hm : total bs < m) : ∃ f, s.freep = some f ∧
    ((∃ prev q, mallocLoop sbrk n m s f (s.mem f).ptr =
        some ((carve s prev q n).1, some (carve s prev q n).2) ∧
      prev ∈ base :: frees start bs ∧ q ∈ base :: frees start bs ∧ (s.mem prev).ptr = q ∧
      n ≤ (s.mem q).size) ∨
    (∀ q ∈ frees start bs, (s.mem q).size < n) ∧ ∃ m', m ≤ m' + 1 + total bs ∧
      mallocLoop sbrk n m s f (s.mem f).ptr = (morecore s sbrk n).bind fun r =>
        if r.2 = true then r.1.freep.bind fun p => mallocLoop sbrk n m' r.1 p (r.1.mem p).ptr
        else some (r.1, none)) := by
  obtain ⟨f, hf, hfreep⟩ := h.freep
  refine ⟨f, hfreep, ?_⟩
  obtain ⟨ys, hring, hperm⟩ := h.ring.rotate hf
  have hsorted : (base :: frees start bs).Nodup := by
    refine List.nodup_cons.mpr ⟨fun hmem => ?_, (frees_sorted h.pos).imp fun hlt => ne_of_lt hlt⟩
    have hle := (frees_bounds h.pos hmem).1
    have hlt := h.base_lt
    omega
  have hlen : ys.length = (frees start bs).length := Nat.succ.inj hperm.length_eq
  have hle := frees_length_le (a := start) h.pos
  have hnot : f ∉ ys := (List.nodup_cons.mp (hperm.nodup_iff.mpr hsorted)).1
  have hsteps : ys.length < m := by omega
  rcases mallocLoop_walk (n := n) sbrk hring hfreep hnot hsteps with
    ⟨prev, q, heq, hprev, hlink, hq⟩ | ⟨hsmall, m', hm', heq⟩
  · have hprev' := hperm.mem_iff.mp hprev
    exact .inl ⟨prev, q, heq, hprev', hlink ▸ h.ring.next_mem hprev', hlink, hq⟩
  · refine .inr ⟨fun q hq => hsmall q ?_, m', by omega, heq⟩
    have hq' := hperm.mem_iff.mpr (List.mem_cons_of_mem _ hq)
    rcases List.mem_cons.mp hq' with rfl | hq'
    · exact List.mem_append_right _ (List.mem_singleton.mpr rfl)
    · exact List.mem_append_left _ hq'

end Walk

section Calls

variable {base start nb bp r : ℕ} {s : State} {bs : List Block}

theorem nunits_spec (hnb : nb < 2 ^ 30) : 0 < nunits nb ∧ nb ≤ (nunits nb - 1) * HEADER ∧
    max (nunits nb) 4096 * HEADER < 2 ^ 32 := by
  unfold nunits HEADER
  omega

/-- What `malloc` returns: a block, or 0 after `sbrk` has refused. -/
def Serves (base start : ℕ) (s : State) (used : List (ℕ × ℕ)) (sbrk : ℕ → ℕ → Bool) (nb : ℕ)
    (t : State) : Option ℕ → Prop
  | some q => Carved base start t q nb used
  | none => t = s ∧ sbrk s.brk (max (nunits nb) 4096 * HEADER) = false

theorem Inv.malloc_units (h : Inv base start s bs) (sbrk : ℕ → ℕ → Bool) (hn : 0 < nunits nb)
    (hroom : nb ≤ (nunits nb - 1) * HEADER) (hbytes : max (nunits nb) 4096 * HEADER < 2 ^ 32) :
    ∃ t res, malloc s base sbrk nb = some (t, res) ∧
      Serves base start s (lives start bs) sbrk nb t res := by
  have hbrk := h.brk
  obtain ⟨f, hf, hwalk⟩ := h.walk sbrk (nunits nb)
    (m := 2 * (s.brk + max (nunits nb) 4096 + 2)) (by omega)
  have heq : Heap.malloc s base sbrk nb = mallocLoop sbrk (nunits nb)
      (2 * (s.brk + max (nunits nb) 4096 + 2)) s f (s.mem f).ptr := by
    simp only [Heap.malloc, hf, Option.some_ne_none, if_false, Option.getD_some]
  rw [heq]
  rcases hwalk with ⟨prev, q, hloop, hprev, hq, hlink, hsize⟩ | ⟨-, m', hm', hloop⟩
  · exact ⟨_, _, hloop, carve_spec h hq hprev hlink hn hsize hroom⟩
  · have hmore := morecore_spec h sbrk hbytes
    split_ifs at hmore with hgrant
    · obtain ⟨t, hmore, htbrk, bs', ht, hlives, q₀, hq₀, hsize₀⟩ := hmore
      have htotal := ht.brk
      obtain ⟨f', hf', hwalk'⟩ := ht.walk sbrk (nunits nb) (m := m') (by omega)
      rw [hloop, hmore, Option.bind_some, if_pos rfl, hf', Option.bind_some]
      rcases hwalk' with ⟨prev, q, hloop', hprev, hq, hlink, hsize⟩ | ⟨hsmall, -⟩
      · refine ⟨_, _, hloop', ?_⟩
        have hcarved := carve_spec ht hq hprev hlink hn hsize hroom
        rw [hlives] at hcarved
        exact hcarved
      · exact absurd (hsmall q₀ hq₀) (not_lt.mpr ((le_max_left _ _).trans hsize₀))
    · rw [hloop, hmore]
      exact ⟨s, none, rfl, rfl, Bool.eq_false_iff.mpr hgrant⟩

theorem Inv.malloc (h : Inv base start s bs) (sbrk : ℕ → ℕ → Bool) (hnb : nb < 2 ^ 30) : ∃ t res,
    malloc s base sbrk nb = some (t, res) ∧ Serves base start s (lives start bs) sbrk nb t res := by
  obtain ⟨hn, hroom, hbytes⟩ := nunits_spec hnb
  exact h.malloc_units sbrk hn hroom hbytes

theorem init_inv (hbase : base < s.brk) : Inv base s.brk (init s base) [] := by
  refine ⟨hbase, rfl, ?_, trivial, nofun, ?_, List.isChain_nil, nofun, base,
    List.mem_cons_self, rfl⟩
  · simp only [init, Function.update_self]
  · change (Function.update s.mem base ⟨base, 0⟩ base).ptr = base
    rw [Function.update_self]

theorem malloc_init (sbrk : ℕ → ℕ → Bool) (hf : s.freep = none) :
    Heap.malloc s base sbrk nb = Heap.malloc (init s base) base sbrk nb := by
  simp only [Heap.malloc, hf, init, if_true, Option.some_ne_none, if_false]

theorem Inv.free (h : Inv base start s bs) (hlive : (bp, r) ∈ lives start bs) : ∃ t bs',
    free s bp = some t ∧ Inv base start t bs' ∧
    (lives start bs).Perm ((bp, r) :: lives start bs') := by
  obtain ⟨pre, n, post, rfl, rfl⟩ := exists_live hlive
  obtain ⟨t, hfree, -, bs', ht, hlives, -⟩ := free_spec h rfl
  refine ⟨t, bs', hfree, ht, ?_⟩
  rw [hlives, lives_append, lives]
  exact List.perm_middle

end Calls

end Heap

end Xv6Fairness
