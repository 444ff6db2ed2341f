import Mathlib.Data.Set.Insert
import Xv6Fairness.HeapMalloc

/-!
# Requests of any size

`malloc` counts units and bytes in words of 32 bits, and `sbrk` takes its number of bytes as an
`int`. For large sizes the rounding wraps, the number of bytes wraps, or it is negative for `sbrk`
and takes memory away. A store behind the last page of the process ends the program.
-/

namespace Xv6Fairness

namespace Heap

open CircularLists

/-- The end of the last page, in units. -/
def mapped (brk : ℕ) : ℕ := (brk + 511) / 512 * 512

/-- The argument of `sbrk` in `morecore`. -/
def request (nu : ℕ) : ℕ := (if nu < 4096 then 4096 else nu) * HEADER % 2 ^ 32

/-- The new end of the heap, or `none` for an error. A size below zero wraps and is answered with
the old size, and a size of zero counts as an error. -/
def sbrkEnd (grant : ℕ → ℕ → Bool) (brk bytes : ℕ) : Option ℕ :=
  if bytes = 0 then some brk
  else if bytes < 2 ^ 31 then
    if grant brk bytes then some (brk + bytes / HEADER) else none
  else
    let less := (2 ^ 32 - bytes) / HEADER
    if brk < less then some brk else if brk = less then none else some (brk - less)

inductive Ending
  | fault
  | returned (res : Option ℕ)
  deriving DecidableEq

/-- A call of `malloc`, with the arguments of `sbrk`. -/
structure Call where
  asks : List ℕ
  heap : State
  ending : Ending

def callLoop (grant : ℕ → ℕ → Bool) (nunits : ℕ) : ℕ → State → ℕ → ℕ → Option Call
  | 0, _, _, _ => none
  | n + 1, s, prevp, p =>
    if nunits ≤ (s.mem p).size then
      some ⟨[], (carve s prevp p nunits).1, .returned (some (carve s prevp p nunits).2)⟩
    else if s.freep = some p then
      match sbrkEnd grant s.brk (request nunits) with
      | none => some ⟨[request nunits], s, .returned none⟩
      | some brk =>
        if mapped brk ≤ s.brk then some ⟨[request nunits], { s with brk := brk }, .fault⟩
        else do
          let nu := if nunits < 4096 then 4096 else nunits
          let t ← free { s with mem := setSize s.mem s.brk nu, brk := brk } s.brk
          let p ← t.freep
          let c ← callLoop grant nunits n t p (t.mem p).ptr
          some { c with asks := request nunits :: c.asks }
    else callLoop grant nunits n s p (s.mem p).ptr

def mallocCall (s : State) (base : ℕ) (grant : ℕ → ℕ → Bool) (nbytes : ℕ) : Option Call :=
  let s := if s.freep = none then init s base else s
  let prevp := s.freep.getD base
  let n := nunits nbytes
  callLoop grant n (2 * (s.brk + max n 4096 + 2)) s prevp (s.mem prevp).ptr

/-- The call ends, asks for no negative number of bytes, and a block that it returns is large enough
and lies within the memory of the process. -/
def Sound (nbytes : ℕ) (call : Option Call) : Prop :=
  ∃ c, call = some c ∧ (∀ bytes ∈ c.asks, bytes < 2 ^ 31) ∧
    ∀ q, c.ending = .returned (some q) →
      nbytes ≤ ((c.heap.mem q).size - 1) * HEADER ∧ q + (c.heap.mem q).size ≤ c.heap.brk

section Loop

variable {base start n m p prevp q : ℕ} {s t : State} {bs : List Block} {grant : ℕ → ℕ → Bool}
  {c : Call}
  {res : Option ℕ}

theorem carve_size (hsize : n ≤ (s.mem p).size) :
    ((carve s prevp p n).1.mem (carve s prevp p n).2).size = n := by
  rw [carve]
  split_ifs with hfit
  · simp only [setPtr_size, hfit]
  · have hne : (s.mem p).size - n ≠ 0 := by omega
    simp only [setSize_size, if_pos]

/-- The state in which `free` gets the memory from `sbrk`. -/
def extended (s : State) (nunits brk : ℕ) : State :=
  { s with mem := setSize s.mem s.brk (if nunits < 4096 then 4096 else nunits), brk := brk }

theorem callLoop_cases (hc : callLoop grant n (m + 1) s prevp p = some c) :
    (n ≤ (s.mem p).size ∧
        c = ⟨[], (carve s prevp p n).1, .returned (some (carve s prevp p n).2)⟩) ∨
      ((s.mem p).size < n ∧ s.freep = some p ∧ sbrkEnd grant s.brk (request n) = none ∧
        c = ⟨[request n], s, .returned none⟩) ∨
      (∃ brk, (s.mem p).size < n ∧ s.freep = some p ∧ sbrkEnd grant s.brk (request n) = some brk ∧
        mapped brk ≤ s.brk ∧ c = ⟨[request n], { s with brk := brk }, .fault⟩) ∨
      (∃ brk t q c', (s.mem p).size < n ∧ s.freep = some p ∧
        sbrkEnd grant s.brk (request n) = some brk ∧ s.brk < mapped brk ∧
        free (extended s n brk) s.brk = some t ∧ t.freep = some q ∧
        callLoop grant n m t q (t.mem q).ptr = some c' ∧
        c = { c' with asks := request n :: c'.asks }) ∨
      ((s.mem p).size < n ∧ callLoop grant n m s p (s.mem p).ptr = some c) := by
  rw [callLoop] at hc
  by_cases hfit : n ≤ (s.mem p).size
  · rw [if_pos hfit] at hc
    exact .inl ⟨hfit, (Option.some_inj.mp hc).symm⟩
  · have hlt := not_le.mp hfit
    rw [if_neg hfit] at hc
    by_cases hlast : s.freep = some p
    · rw [if_pos hlast] at hc
      cases hbrk : sbrkEnd grant s.brk (request n) with
      | none =>
          rw [hbrk] at hc
          exact .inr (.inl ⟨hlt, hlast, rfl, (Option.some_inj.mp hc).symm⟩)
      | some brk =>
          rw [hbrk] at hc
          dsimp only at hc
          by_cases hmapped : mapped brk ≤ s.brk
          · rw [if_pos hmapped] at hc
            exact .inr (.inr (.inl ⟨brk, hlt, hlast, rfl, hmapped, (Option.some_inj.mp hc).symm⟩))
          · rw [if_neg hmapped] at hc
            obtain ⟨t, hfree, hc⟩ := Option.bind_eq_some_iff.mp hc
            obtain ⟨q, hq, hc⟩ := Option.bind_eq_some_iff.mp hc
            obtain ⟨c', hc', hc⟩ := Option.bind_eq_some_iff.mp hc
            exact .inr (.inr
              (.inr (.inl ⟨brk, t, q, c', hlt, hlast, rfl, not_le.mp hmapped, hfree, hq,
              hc', (Option.some_inj.mp hc).symm⟩)))
    · rw [if_neg hlast] at hc
      exact .inr (.inr (.inr (.inr ⟨hlt, hc⟩)))

theorem free_brk {bp : ℕ} (h : free s bp = some t) : t.brk = s.brk := by
  obtain ⟨start, -, h⟩ := Option.bind_eq_some_iff.mp h
  obtain ⟨p, -, h⟩ := Option.bind_eq_some_iff.mp h
  cases h
  rfl

theorem callLoop_asks (hc : callLoop grant n m s prevp p = some c) :
    (∀ bytes ∈ c.asks, bytes = request n) ∧
      ∀ q, c.ending = .returned (some q) → (c.heap.mem q).size = n := by
  induction m generalizing s prevp p c with
  | zero => cases hc
  | succ m ih =>
      rcases callLoop_cases hc with ⟨hfit, rfl⟩ | ⟨-, -, -, rfl⟩ | ⟨brk, -, -, -, -, rfl⟩ |
        ⟨brk, t, q, c', -, -, -, -, -, -, hc', rfl⟩ | ⟨-, hc'⟩
      · refine ⟨fun _ hb => absurd hb List.not_mem_nil, fun q hq => ?_⟩
        obtain rfl := Option.some_inj.mp (Ending.returned.inj hq)
        exact carve_size hfit
      · exact ⟨fun _ hb => List.mem_singleton.mp hb, fun q hq => by cases hq⟩
      · exact ⟨fun _ hb => List.mem_singleton.mp hb, fun q hq => by cases hq⟩
      · obtain ⟨hasks, hsize⟩ := ih hc'
        exact ⟨fun b hb => (List.mem_cons.mp hb).elim id (hasks b), hsize⟩
      · exact ih hc'

/-- Where `sbrk` always gives memory that can be stored to, the call ends with a block. -/
theorem callLoop_granted {B : Set ℕ}
    (hB : ∀ b ∈ B, ∃ b' ∈ B, sbrkEnd grant b (request n) = some b' ∧ b < mapped b') (hs : s.brk ∈ B)
    (hc : callLoop grant n m s prevp p = some c) :
    ∃ q, c.ending = .returned (some q) ∧ c.heap.brk ∈ B := by
  induction m generalizing s prevp p c with
  | zero => cases hc
  | succ m ih =>
      obtain ⟨b', hb', hend, hlt⟩ := hB s.brk hs
      rcases callLoop_cases hc with ⟨hfit, rfl⟩ | ⟨-, -, hnone, rfl⟩ | ⟨brk, -, -, hsome,
        hmapped, rfl⟩ |
        ⟨brk, t, q, c', -, -, hsome, -, hfree, -, hc', rfl⟩ | ⟨-, hc'⟩
      · refine ⟨_, rfl, ?_⟩
        rw [carve]
        split_ifs
        · exact hs
        · exact hs
      · cases hnone.symm.trans hend
      · obtain rfl := Option.some_inj.mp (hsome.symm.trans hend)
        exact absurd hmapped (not_le.mpr hlt)
      · obtain rfl := Option.some_inj.mp (hsome.symm.trans hend)
        have hbrk : t.brk ∈ B := by
          rw [free_brk hfree]
          exact hb'
        obtain ⟨r, hr, hheap⟩ := ih hbrk hc'
        exact ⟨r, hr, hheap⟩
      · exact ih hs hc'

theorem callLoop_asks_ne_nil (h : Inv base start s bs)
    (hsmall : ∀ q ∈ base :: frees start bs, (s.mem q).size < n) (hp : p ∈ base :: frees start bs)
    (hc : callLoop grant n m s prevp p = some c) : c.asks ≠ [] := by
  induction m generalizing prevp p c with
  | zero => cases hc
  | succ m ih =>
      rcases callLoop_cases hc with ⟨hfit, rfl⟩ | ⟨-, -, -, rfl⟩ | ⟨brk, -, -, -, -, rfl⟩ |
        ⟨brk, t, q, c', -, -, -, -, -, -, hc', rfl⟩ | ⟨-, hc'⟩
      · exact absurd hfit (not_le.mpr (hsmall p hp))
      · exact List.cons_ne_nil _ _
      · exact List.cons_ne_nil _ _
      · exact List.cons_ne_nil _ _
      · exact ih (h.ring.next_mem hp) hc'

theorem morecore_eq : morecore s grant n = if grant s.brk (request n) then
    (free (extended s n (s.brk + request n / HEADER)) s.brk).bind fun t => some (t, true)
    else some (s, false) := rfl

theorem le_mapped (brk : ℕ) : brk ≤ mapped brk := by
  rw [mapped]
  omega

theorem request_div (hpos : 0 < request n) : 0 < request n / HEADER := by
  rw [request, HEADER] at hpos ⊢
  omega

theorem callLoop_of_mallocLoop (hpos : 0 < request n) (hlt : request n < 2 ^ 31)
    (h : mallocLoop grant n m s prevp p = some (t, res)) :
    ∃ asks, callLoop grant n m s prevp p = some ⟨asks, t, .returned res⟩ := by
  induction m generalizing s prevp p with
  | zero => cases h
  | succ m ih =>
      rw [mallocLoop] at h
      rw [callLoop]
      by_cases hfit : n ≤ (s.mem p).size
      · rw [if_pos hfit] at h ⊢
        cases h
        exact ⟨[], rfl⟩
      · rw [if_neg hfit] at h ⊢
        by_cases hlast : s.freep = some p
        · rw [if_pos hlast, morecore_eq] at h
          rw [if_pos hlast, sbrkEnd, if_neg hpos.ne', if_pos hlt]
          by_cases hgrant : grant s.brk (request n) = true
          · have hmapped : ¬ mapped (s.brk + request n / HEADER) ≤ s.brk := by
              have hle := le_mapped (s.brk + request n / HEADER)
              have hdiv := request_div hpos
              omega
            rw [if_pos hgrant] at h ⊢
            obtain ⟨r, hr, h⟩ := Option.bind_eq_some_iff.mp h
            obtain ⟨t', hfree, hr⟩ := Option.bind_eq_some_iff.mp hr
            cases hr
            obtain ⟨q, hq, h⟩ := Option.bind_eq_some_iff.mp h
            obtain ⟨asks, hcall⟩ := ih h
            refine ⟨request n :: asks, ?_⟩
            dsimp only
            rw [if_neg hmapped]
            refine Option.bind_eq_some_iff.mpr ⟨t', hfree, Option.bind_eq_some_iff.mpr ⟨q, hq, ?_⟩⟩
            exact Option.bind_eq_some_iff.mpr ⟨_, hcall, rfl⟩
          · rw [if_neg hgrant] at h ⊢
            cases h
            exact ⟨[request n], rfl⟩
        · rw [if_neg hlast] at h ⊢
          exact ih h

/-- Where no memory comes and the process ends with a page, the store behind it is a fault. -/
theorem callLoop_fault (hzero : request n = 0) (hmapped : mapped s.brk ≤ s.brk)
    (h : mallocLoop (fun _ _ => false) n m s prevp p = some (t, none)) :
    callLoop grant n m s prevp p = some ⟨[request n], s, .fault⟩ := by
  induction m generalizing prevp p with
  | zero => cases h
  | succ m ih =>
      rw [mallocLoop] at h
      rw [callLoop]
      by_cases hfit : n ≤ (s.mem p).size
      · rw [if_pos hfit] at h
        cases h
      · rw [if_neg hfit] at h ⊢
        by_cases hlast : s.freep = some p
        · have hend : sbrkEnd grant s.brk (request n) = some s.brk := by
            rw [sbrkEnd, if_pos hzero]
          rw [if_pos hlast, hend]
          exact if_pos hmapped
        · rw [if_neg hlast] at h ⊢
          exact ih h

end Loop

section Sizes

variable {base start nb : ℕ} {s : State} {bs : List Block} {grant : ℕ → ℕ → Bool}

/-- A heap before the first call of `malloc` or with its free list, within the memory of a process.
-/
structure Valid (base : ℕ) (s : State) : Prop where
  heap : s.freep = none ∧ base < s.brk ∨ ∃ start bs, Inv base start s bs
  size : s.brk * HEADER < 2 ^ 31

theorem mallocCall_init (hf : s.freep = none) :
    mallocCall s base grant nb = mallocCall (init s base) base grant nb := by
  simp only [mallocCall, hf, init, if_true, Option.some_ne_none, if_false]

theorem Valid.exists_inv (h : Valid base s) : ∃ s' start bs, s'.brk = s.brk ∧ Inv base start s' bs ∧
    ∀ grant nb, mallocCall s base grant nb = mallocCall s' base grant nb := by
  rcases h.heap with ⟨hf, hbase⟩ | ⟨start, bs, h⟩
  · exact ⟨init s base, s.brk, [], rfl, init_inv hbase, fun _ _ => mallocCall_init hf⟩
  · exact ⟨s, start, bs, rfl, h, fun _ _ => rfl⟩

theorem mallocCall_loop (h : Inv base start s bs) (nb : ℕ) : ∃ f m, s.freep = some f ∧
    total bs < m ∧
    (s.mem f).ptr ∈ base :: frees start bs ∧
    (∀ grant, mallocCall s base grant nb = callLoop grant (nunits nb) m s f (s.mem f).ptr) ∧
    ∀ sbrk, malloc s base sbrk nb = mallocLoop sbrk (nunits nb) m s f (s.mem f).ptr := by
  obtain ⟨f, hmem, hf⟩ := h.freep
  have hbrk := h.brk
  refine ⟨f, 2 * (s.brk + max (nunits nb) 4096 + 2),
    hf, by omega, h.ring.next_mem hmem, fun grant => ?_,
    fun sbrk => ?_⟩
  · simp only [mallocCall, hf, Option.some_ne_none, if_false, Option.getD_some]
  · simp only [malloc, hf, Option.some_ne_none, if_false, Option.getD_some]

theorem Inv.live_bounds (h : Inv base start s bs) {q : ℕ} (hlive : (q, nb) ∈ lives start bs) :
    nb ≤ ((s.mem q).size - 1) * HEADER ∧ q + (s.mem q).size ≤ s.brk := by
  obtain ⟨pre, k, post, rfl, rfl⟩ := exists_live hlive
  have hsize : (s.mem (start + total pre)).size = k := (sized_append.mp h.sized).2.1
  have hroom := h.room ⟨k, some nb⟩ (List.mem_append_right _ List.mem_cons_self) nb rfl
  have hbrk := h.brk
  rw [total_append, total_cons] at hbrk
  rw [hsize]
  refine ⟨hroom, ?_⟩
  dsimp only at hbrk
  omega

theorem Inv.size_le (h : Inv base start s bs) {q : ℕ} (hq : q ∈ base :: frees start bs) :
    (s.mem q).size ≤ s.brk := by
  rcases List.mem_cons.mp hq with rfl | hq
  · rw [h.base_size]
    exact Nat.zero_le _
  · have hend := frees_end h.sized hq
    rw [← h.brk] at hend
    omega

theorem sound_of_small (h : Inv base start s bs) (hnb : nb ≤ 2 ^ 31 - 16) :
    Sound nb (mallocCall s base grant nb) := by
  have hn : 0 < nunits nb ∧ nb ≤ (nunits nb - 1) * HEADER ∧
      max (nunits nb) 4096 * HEADER < 2 ^ 32 := by
    unfold nunits HEADER
    omega
  have hrequest : 0 < request (nunits nb) ∧ request (nunits nb) < 2 ^ 31 := by
    unfold request nunits HEADER
    split_ifs <;> omega
  obtain ⟨t, res, hmalloc, hserves⟩ := h.malloc_units grant hn.1 hn.2.1 hn.2.2
  obtain ⟨f, m, -, -, -, hcall, hloop⟩ := mallocCall_loop h nb
  rw [hloop] at hmalloc
  obtain ⟨asks, hrun⟩ := callLoop_of_mallocLoop hrequest.1 hrequest.2 hmalloc
  refine ⟨_, (hcall grant).trans hrun, fun b hb => ?_, fun q hq => ?_⟩
  · rw [(callLoop_asks hrun).1 b hb]
    exact hrequest.2
  · obtain rfl := Ending.returned.inj hq
    obtain ⟨bs', ht, hlives⟩ := hserves
    exact ht.live_bounds (hlives.mem_iff.mpr List.mem_cons_self)

theorem sound_of_fault (h : Inv base start s bs) (hsize : s.brk * HEADER < 2 ^ 31)
    (hnb : 2 ^ 32 - 15 ≤ nb ∧ nb ≤ 2 ^ 32 - 8) (hpage : 512 ∣ s.brk) :
    Sound nb (mallocCall s base grant nb) := by
  have hn : nunits nb = 2 ^ 29 := by
    unfold nunits HEADER
    omega
  have hzero : request (nunits nb) = 0 := by
    rw [hn]
    decide
  have hmapped : mapped s.brk ≤ s.brk := by
    rw [mapped]
    omega
  obtain ⟨f, m, hf, hm, -, hcall, -⟩ := mallocCall_loop h nb
  obtain ⟨f', hf', hwalk⟩ := h.walk (fun _ _ => false) (nunits nb) hm
  obtain rfl := Option.some_inj.mp (hf'.symm.trans hf)
  rcases hwalk with ⟨-, q, -, -, hq, -, hfit⟩ | ⟨-, m', -, hloop⟩
  · have hle := h.size_le hq
    rw [HEADER] at hsize
    omega
  · rw [hcall, callLoop_fault (t := s) hzero hmapped hloop]
    refine ⟨_, rfl, fun b hb => ?_, fun q hq => by cases hq⟩
    rw [List.mem_singleton.mp hb, hzero]
    decide

theorem not_sound_of_negative (h : Inv base start s bs) (hsize : s.brk * HEADER < 2 ^ 31)
    (hnb : 2 ^ 31 - 16 < nb ∧ nb < 2 ^ 32 - 15) : ¬ Sound nb (mallocCall s base grant nb) := by
  rintro ⟨c, hc, hasks, -⟩
  have hn : 2 ^ 28 ≤ nunits nb := by
    unfold nunits HEADER
    omega
  have hrequest : 2 ^ 31 ≤ request (nunits nb) := by
    unfold request nunits HEADER
    split_ifs <;> omega
  have hsmall : ∀ q ∈ base :: frees start bs, (s.mem q).size < nunits nb := by
    intro q hq
    have hle := h.size_le hq
    rw [HEADER] at hsize
    omega
  obtain ⟨f, m, -, -, hnext, hcall, -⟩ := mallocCall_loop h nb
  rw [hcall] at hc
  obtain ⟨b, hb⟩ := List.exists_mem_of_ne_nil _ (callLoop_asks_ne_nil h hsmall hnext hc)
  have heq := (callLoop_asks hc).1 b hb
  have hlt := hasks b hb
  omega

theorem not_sound_of_zero (h : Inv base start s bs) (hsize : s.brk * HEADER < 2 ^ 31)
    (hnb : 2 ^ 32 - 15 ≤ nb ∧ nb ≤ 2 ^ 32 - 8) (hpage : ¬ 512 ∣ s.brk) :
    ¬ Sound nb (mallocCall s base grant nb) := by
  rintro ⟨c, hc, -, hblock⟩
  have hn : nunits nb = 2 ^ 29 := by
    unfold nunits HEADER
    omega
  have hzero : request (nunits nb) = 0 := by
    rw [hn]
    decide
  have hmapped : s.brk < mapped s.brk := by
    rw [mapped]
    omega
  obtain ⟨f, m, -, -, -, hcall, -⟩ := mallocCall_loop h nb
  rw [hcall] at hc
  obtain ⟨q, hq, hbrk⟩ := callLoop_granted (B := {s.brk})
    (fun b hb => ⟨s.brk, rfl, by rw [hb, sbrkEnd, if_pos hzero], hb ▸ hmapped⟩) rfl hc
  have hbound := (hblock q hq).2
  rw [(callLoop_asks hc).2 q hq, hn, Set.mem_singleton_iff.mp hbrk] at hbound
  rw [HEADER] at hsize
  omega

theorem not_sound_of_wrap (h : Inv base start s bs) (hnb : 2 ^ 32 - 8 < nb ∧ nb < 2 ^ 32) :
    ¬ Sound nb (mallocCall s base (fun _ _ => true) nb) := by
  rintro ⟨c, hc, -, hblock⟩
  have hn : nunits nb = 1 := by
    unfold nunits HEADER
    omega
  have hmore : ∀ b, sbrkEnd (fun _ _ => true) b (request (nunits nb)) = some (b + 4096) ∧
      b < mapped (b + 4096) := by
    intro b
    have hle := le_mapped (b + 4096)
    refine ⟨?_, by omega⟩
    rw [hn]
    rfl
  obtain ⟨f, m, -, -, -, hcall, -⟩ := mallocCall_loop h nb
  rw [hcall] at hc
  obtain ⟨q, hq, -⟩ := callLoop_granted (B := Set.univ)
    (fun b _ => ⟨b + 4096, trivial, (hmore b).1, (hmore b).2⟩) trivial hc
  have hbound := (hblock q hq).1
  rw [(callLoop_asks hc).2 q hq, hn] at hbound
  omega

/-- Whatever `sbrk` grants, `malloc` is sound exactly for sizes whose number of bytes with the
header is not negative as an `int`, and for those that wrap to zero bytes where that ends the
program. -/
theorem malloc_sound_iff (h : Valid base s) (nbytes : UInt32) :
    (∀ grant, Sound nbytes.toNat (mallocCall s base grant nbytes.toNat)) ↔
      nbytes.toNat ≤ 2 ^ 31 - 16 ∨
        2 ^ 32 - 15 ≤ nbytes.toNat ∧ nbytes.toNat ≤ 2 ^ 32 - 8 ∧ 512 ∣ s.brk := by
  have hlt : nbytes.toNat < 2 ^ 32 := nbytes.toNat_lt
  have hsize := h.size
  obtain ⟨s', start, bs, hbrk, hinv, hcall⟩ := h.exists_inv
  rw [← hbrk] at hsize
  rw [← hbrk]
  simp only [hcall]
  constructor
  · intro hsound
    by_cases hsmall : nbytes.toNat ≤ 2 ^ 31 - 16
    · exact .inl hsmall
    · by_cases hzero : 2 ^ 32 - 15 ≤ nbytes.toNat
      · by_cases hwrap : nbytes.toNat ≤ 2 ^ 32 - 8
        · refine .inr ⟨hzero, hwrap, ?_⟩
          by_contra hpage
          exact not_sound_of_zero hinv hsize ⟨hzero, hwrap⟩ hpage (hsound fun _ _ => true)
        · exact absurd (hsound _) (not_sound_of_wrap hinv ⟨not_le.mp hwrap, hlt⟩)
      · exact absurd (hsound fun _ _ => true)
          (not_sound_of_negative hinv hsize ⟨not_le.mp hsmall, not_le.mp hzero⟩)
  · rintro (hsmall | ⟨hzero, hwrap, hpage⟩) grant
    · exact sound_of_small hinv hsmall
    · exact sound_of_fault hinv hsize ⟨hzero, hwrap⟩ hpage

/-- A heap that starts at the second page. -/
def freshHeap : State where
  mem _ := ⟨0, 0⟩
  freep := none
  brk := 512

theorem malloc_sound_iff_fresh :
    Valid 1 freshHeap ∧ ∀ grant, Sound 100 (mallocCall freshHeap 1 grant 100) := by
  have hvalid : Valid 1 freshHeap := ⟨.inl ⟨rfl, by decide⟩, by decide⟩
  exact ⟨hvalid, (malloc_sound_iff hvalid 100).mpr (.inl (by decide))⟩

/-- For the largest size `malloc` returns a header without a byte behind it. -/
theorem malloc_wraps :
    (mallocCall freshHeap 1 (fun _ _ => true) (2 ^ 32 - 1)).map
      (fun c => (c.asks, c.ending, (c.heap.mem 4607).size)) =
        some ([32768], .returned (some 4607), 1) := by
  decide +kernel

end Sizes

end Heap

end Xv6Fairness
