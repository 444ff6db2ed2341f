import Mathlib.Algebra.Ring.Defs
import Mathlib.Data.ENat.Lattice
import Mathlib.Data.Fintype.Card
import Mathlib.Data.Fintype.Basic
import Xv6Fairness.Counting
import Xv6Fairness.GraphProgram
import Xv6Fairness.ShortestPaths

/-!
# Shortest distances of the CPU-bound program

The labels of `dijkstra` are distances with `INF` as the top element. A label that is not `INF`
grows by at most 20 in a turn, so that it stays below `INF` in all the turns that there are.
-/

namespace Xv6Fairness

namespace CpuBound

open Outcomes ShortestPaths

/-- `INF` stands for no distance at all. -/
def distance (x : ℤ) : ℕ∞ := if x = INF then ⊤ else (x.toNat : ℕ∞)

section Distances

variable {x y : ℤ}

theorem distance_inf : distance INF = ⊤ := if_pos rfl

theorem distance_of_ne (h : x ≠ INF) : distance x = (x.toNat : ℕ∞) := if_neg h

theorem distance_eq_top : distance x = ⊤ ↔ x = INF := by
  by_cases h : x = INF
  · exact iff_of_true (by rw [h, distance_inf]) h
  · rw [distance_of_ne h]
    exact iff_of_false (ENat.natCast_ne_top _) h

theorem distance_le_iff (hx : 0 ≤ x) (hxi : x ≤ INF) (hyi : y ≤ INF) (hy : 0 ≤ y) :
    distance x ≤ distance y ↔ x ≤ y := by
  by_cases hy' : y = INF
  · rw [hy', distance_inf]
    exact iff_of_true le_top hxi
  · by_cases hx' : x = INF
    · rw [hx', distance_inf, top_le_iff, distance_eq_top]
      omega
    · rw [distance_of_ne hx', distance_of_ne hy', Nat.cast_le]
      omega

theorem distance_add (hx : 0 ≤ x) (hy : 0 ≤ y) (hx' : x ≠ INF) (hy' : y ≠ INF)
    (hsum : x + y < INF) : distance (x + y) = distance x + distance y := by
  rw [distance_of_ne hx', distance_of_ne hy', distance_of_ne (by omega), Int.toNat_add hx hy,
    Nat.cast_add]

end Distances

section Selection

variable {n : ℕ} {s : Labels n} {u : Fin n}

theorem minTurn_foldl (s : Labels n) (l : List (Fin n)) (best : ℤ × ℤ) :
    l.foldl (minTurn s) best = best ∧ (∀ v ∈ l, s.visited v = false → best.1 < s.dist v) ∨
      ∃ u ∈ l, s.visited u = false ∧ s.dist u ≤ best.1 ∧
        l.foldl (minTurn s) best = (s.dist u, (u.val : ℤ)) ∧
        ∀ v ∈ l, s.visited v = false → s.dist u ≤ s.dist v := by
  induction l generalizing best with
  | nil => exact Or.inl ⟨rfl, fun v hv => absurd hv List.not_mem_nil⟩
  | cons a l ih =>
      rw [List.foldl_cons]
      by_cases ha : s.visited a = false ∧ s.dist a ≤ best.1
      · have hturn : minTurn s best a = (s.dist a, (a.val : ℤ)) := if_pos ha
        rw [hturn]
        right
        rcases ih (s.dist a, (a.val : ℤ)) with ⟨heq, hless⟩ | ⟨u, hu, hfree, hle, heq, hleast⟩
        · refine ⟨a, List.mem_cons_self, ha.1, ha.2, heq, fun v hv hvfree => ?_⟩
          rcases List.mem_cons.mp hv with rfl | hv
          · exact le_rfl
          · exact (hless v hv hvfree).le
        · refine ⟨u, List.mem_cons_of_mem _ hu, hfree, hle.trans ha.2, heq, fun v hv hvfree => ?_⟩
          rcases List.mem_cons.mp hv with rfl | hv
          · exact hle
          · exact hleast v hv hvfree
      · have hturn : minTurn s best a = best := if_neg ha
        have hskip : s.visited a = false → best.1 < s.dist a := fun hfree => by
          by_contra hle
          exact ha ⟨hfree, not_lt.mp hle⟩
        rw [hturn]
        rcases ih best with ⟨heq, hless⟩ | ⟨u, hu, hfree, hle, heq, hleast⟩
        · refine Or.inl ⟨heq, fun v hv hvfree => ?_⟩
          rcases List.mem_cons.mp hv with rfl | hv
          · exact hskip hvfree
          · exact hless v hv hvfree
        · refine Or.inr ⟨u, List.mem_cons_of_mem _ hu, hfree, hle, heq, fun v hv hvfree => ?_⟩
          rcases List.mem_cons.mp hv with rfl | hv
          · exact hle.trans (hskip hvfree).le
          · exact hleast v hv hvfree

theorem minDistance_spec (hle : ∀ v, s.dist v ≤ INF) (hfree : s.visited u = false) :
    ∃ u : Fin n, minDistance s = u.val ∧ s.visited u = false ∧
      ∀ v, s.visited v = false → s.dist u ≤ s.dist v := by
  rcases minTurn_foldl s (List.finRange n) (INF, -1) with ⟨-, hless⟩ | ⟨u, -, hu, -, heq, hleast⟩
  · exact absurd (hless u (List.mem_finRange u) hfree) (not_lt.mpr (hle u))
  · exact ⟨u, congrArg Prod.snd heq, hu, fun v => hleast v (List.mem_finRange v)⟩

theorem index_val (u : Fin n) : index (u.val : ℤ) = .ok u := by
  have hu := u.isLt
  rw [index, dif_pos (by omega)]
  rfl

end Selection

section Relaxation

variable {n : ℕ} {graph : Fin n → Except Fault (Fin n → ℤ)} {row dist : Fin n → ℤ}
  {visited : Fin n → Bool} {u v : Fin n} {l : List (Fin n)}

/-- The label of `v` after the turn for it. -/
def relaxed (row : Fin n → ℤ) (visited : Fin n → Bool) (u : Fin n) (dist : Fin n → ℤ)
    (v : Fin n) : ℤ :=
  if visited v = false ∧ row v ≠ INF ∧ dist u ≠ INF ∧ dist u + row v < dist v then dist u + row v
  else dist v

theorem relaxed_of_visited (h : visited v = true) : relaxed row visited u dist v = dist v := by
  rw [relaxed, if_neg]
  rintro ⟨hv, -⟩
  rw [hv] at h
  cases h

theorem relaxed_congr {dist' : Fin n → ℤ} (hu : dist' u = dist u) (hv : dist' v = dist v) :
    relaxed row visited u dist' v = relaxed row visited u dist v := by
  rw [relaxed, relaxed, hu, hv]

theorem relax_eq (hrow : graph u = .ok row) :
    relax graph visited u dist v = .ok (Function.update dist v (relaxed row visited u dist v)) := by
  rw [relax, relaxed, hrow]
  by_cases hv : visited v = false
  · rw [if_pos hv, ok_bind]
    by_cases h : row v ≠ INF ∧ dist u ≠ INF ∧ dist u + row v < dist v
    · rw [if_pos h, if_pos ⟨hv, h⟩]
    · rw [if_neg h, if_neg fun hall => h hall.2, Function.update_eq_self]
  · rw [if_neg hv, if_neg fun hall => hv hall.1, Function.update_eq_self]

theorem relax_foldlM (hrow : graph u = .ok row) (hu : visited u = true) (hl : l.Nodup) :
    l.foldlM (relax graph visited u) dist =
      .ok fun v => if v ∈ l then relaxed row visited u dist v else dist v := by
  induction l generalizing dist with
  | nil => simp only [List.foldlM_nil, List.not_mem_nil, if_false, pure, Except.pure]
  | cons a l ih =>
      obtain ⟨ha, hl⟩ := List.nodup_cons.mp hl
      have hself : Function.update dist a (relaxed row visited u dist a) u = dist u := by
        by_cases hau : u = a
        · rw [hau, Function.update_self, ← hau, relaxed_of_visited hu]
        · exact Function.update_of_ne hau _ _
      rw [List.foldlM_cons, relax_eq hrow, ok_bind, ih hl]
      congr 1
      funext v
      by_cases hva : v = a
      · rw [hva, if_neg ha, Function.update_self, if_pos List.mem_cons_self]
      · have hmem : v ∈ a :: l ↔ v ∈ l := by simp only [List.mem_cons, hva, false_or]
        have hkept : Function.update dist a (relaxed row visited u dist a) v = dist v :=
          Function.update_of_ne hva _ _
        simp only [hmem, relaxed_congr hself hkept, hkept]

end Relaxation

section Rounds

variable {n : ℕ} {g : Fin n → Fin n → ℤ} {src : Fin n} {s : Labels n} {count : ℕ}

theorem Graph.bounds (h : Graph g) (u v : Fin n) : 0 ≤ g u v ∧ (g u v = INF ∨ g u v ≤ 20) := by
  have hinf : (0 : ℤ) ≤ INF := by decide
  by_cases huv : u = v
  · subst huv
    rw [h.diagonal]
    exact ⟨le_rfl, Or.inr (by decide)⟩
  · rcases h.edges u v huv with heq | ⟨hpos, hle⟩
    · exact ⟨heq ▸ hinf, Or.inl heq⟩
    · exact ⟨by omega, Or.inr hle⟩

/-- The labels after `count` turns. -/
structure Settled (g : Fin n → Fin n → ℤ) (src : Fin n) (count : ℕ) (s : Labels n) : Prop where
  greedy : Greedy (fun u v => distance (g u v)) src (fun v => s.visited v = true)
    fun v => distance (s.dist v)
  nonneg : ∀ v, 0 ≤ s.dist v
  small : ∀ v, s.dist v = INF ∨ s.dist v ≤ 20 * count
  visited : (Finset.univ.filter fun v => s.visited v = true).card = count

theorem Settled.le_inf (h : Settled g src count s) (hn : n ≤ 50000) (hcount : count < n)
    (v : Fin n) :
    s.dist v ≤ INF := by
  rcases h.small v with heq | hle
  · exact heq.le
  · rw [INF]
    omega

theorem settled_start (g : Fin n → Fin n → ℤ)
    (src : Fin n) : Settled g src 0 (startLabels src) := by
  have hself : (startLabels src).dist src = 0 := by
    simp only [startLabels, Function.update_self]
  have hother : ∀ v, v ≠ src → (startLabels src).dist v = INF := fun v hv => by
    simp only [startLabels, Function.update_of_ne hv]
  refine ⟨.start ?_ (fun v hv => ?_) fun v => Bool.false_ne_true, fun v => ?_, fun v => ?_, ?_⟩
  · rw [hself]
    rfl
  · rw [hother v hv, distance_inf]
  · by_cases hv : v = src
    · rw [hv, hself]
    · rw [hother v hv]
      decide
  · by_cases hv : v = src
    · rw [hv, hself]
      exact Or.inr le_rfl
    · exact Or.inl (hother v hv)
  · rw [Finset.card_eq_zero, Finset.filter_eq_empty_iff]
    exact fun v _ => Bool.false_ne_true

theorem exists_left (h : (Finset.univ.filter fun v => s.visited v = true).card = count)
    (hcount : count < n) : ∃ v, s.visited v = false := by
  by_contra hall
  have huniv : Finset.univ.filter (fun v => s.visited v = true) = Finset.univ := by
    refine Finset.filter_true_of_mem fun v _ => ?_
    by_contra hv
    exact hall ⟨v, Bool.not_eq_true _ ▸ hv⟩
  rw [huniv, Finset.card_univ, Fintype.card_fin] at h
  omega

theorem selectVertex_eq (hle : ∀ v, s.dist v ≤ INF)
    (hcard : (Finset.univ.filter fun v => s.visited v = true).card = count) (hcount : count < n) :
    ∃ u : Fin n, minDistance s = u.val ∧ s.visited u = false ∧
      (∀ v, s.visited v = false → s.dist u ≤ s.dist v) ∧
      selectVertex (fun u => .ok (g u)) s = .ok ⟨relaxed (g u) (Function.update s.visited u true) u
        s.dist, Function.update s.visited u true⟩ ∧
      (Finset.univ.filter fun v => Function.update s.visited u true v = true).card = count + 1 := by
  obtain ⟨x, hx⟩ := exists_left hcard hcount
  obtain ⟨u, hmin, hu, hleast⟩ := minDistance_spec hle hx
  refine ⟨u, hmin, hu, hleast, ?_, ?_⟩
  · have hself : Function.update s.visited u true u = true := by rw [Function.update_self]
    have hloop : (List.finRange n).foldlM (relax (fun u => .ok (g u))
        (Function.update s.visited u true) u) s.dist = _ :=
      relax_foldlM rfl hself (List.nodup_finRange n)
    simp only [List.mem_finRange, if_true] at hloop
    rw [selectVertex, hmin, index_val, ok_bind]
    dsimp only
    rw [hloop]
    rfl
  · have hupdate := Counting.card_filter_update s.visited (fun b => b = true) u true
    rw [hu] at hupdate
    simp only [if_true, Bool.false_eq_true, if_false] at hupdate
    omega

theorem Settled.sum_lt (h : Settled g src count s) (hg : Graph g) (hn : n ≤ 50000)
    (hcount : count + 1 < n) {u v : Fin n} (hu : s.dist u ≠ INF) (hv : g u v ≠ INF) :
    s.dist u + g u v ≤ 20 * (count + 1 : ℕ) ∧ s.dist u + g u v < INF := by
  have hdist := (h.small u).resolve_left hu
  have hedge := (hg.bounds u v).2.resolve_left hv
  rw [INF]
  omega

theorem Settled.relaxed_distance (h : Settled g src count s) (hg : Graph g) (hn : n ≤ 50000)
    (hcount : count + 1 < n) {u v : Fin n} {visited : Fin n → Bool} (hv : visited v = false) :
    distance (relaxed (g u) visited u s.dist v) =
      min (distance (s.dist v)) (distance (s.dist u) + distance (g u v)) := by
  by_cases hedge : g u v = INF
  · rw [relaxed, if_neg fun hall => hall.2.1 hedge, hedge, distance_inf, add_top,
      min_eq_left le_top]
  by_cases hu : s.dist u = INF
  · rw [relaxed, if_neg fun hall => hall.2.2.1 hu, hu, distance_inf, top_add, min_eq_left le_top]
  have hsum := (h.sum_lt hg hn hcount hu hedge).2
  have hbound := (hg.bounds u v).1
  have hpos := h.nonneg u
  have hle := h.le_inf hn (Nat.lt_of_succ_lt hcount) v
  rw [← distance_add hpos hbound hu hedge hsum]
  by_cases hless : s.dist u + g u v < s.dist v
  · rw [relaxed, if_pos ⟨hv, hedge, hu, hless⟩, min_eq_right]
    exact (distance_le_iff (by omega) hsum.le hle (h.nonneg v)).mpr hless.le
  · rw [relaxed, if_neg fun hall => hless hall.2.2.2, min_eq_left]
    exact (distance_le_iff (h.nonneg v) hle hsum.le (by omega)).mpr (not_lt.mp hless)

theorem Settled.selectVertex (h : Settled g src count s) (hg : Graph g) (hn : n ≤ 50000)
    (hcount : count + 1 < n) : ∃ u : Fin n, minDistance s = u.val ∧ s.visited u = false ∧
      ∃ t, selectVertex (fun u => .ok (g u)) s = .ok t ∧ Settled g src (count + 1) t := by
  have hle := h.le_inf hn (Nat.lt_of_succ_lt hcount)
  obtain ⟨u, hmin, hu, hleast, heq, hcard⟩ :=
    selectVertex_eq (g := g) hle h.visited (Nat.lt_of_succ_lt hcount)
  refine ⟨u, hmin, hu, _, heq, ?_⟩
  have hsettled : ∀ v, Function.update s.visited u true v = true ↔ v = u ∨ s.visited v = true := by
    intro v
    by_cases hv : v = u
    · rw [hv, Function.update_self]
      exact iff_of_true rfl (Or.inl rfl)
    · rw [Function.update_of_ne hv]
      exact ⟨Or.inr, fun h => h.resolve_left hv⟩
  have hunvisited : ∀ v, ¬ s.visited v = true ↔ s.visited v = false := fun v =>
    (Bool.not_eq_true _).to_iff
  refine ⟨h.greedy.settle (u := u) ?_ (fun v hv => ?_) hsettled (fun v hv => ?_) fun v hv => ?_,
    fun v => ?_, fun v => ?_, hcard⟩
  · rw [hu]
    exact Bool.false_ne_true
  · exact (distance_le_iff (h.nonneg u) (hle u) (hle v) (h.nonneg v)).mpr
      (hleast v ((hunvisited v).mp hv))
  · exact congrArg distance (relaxed_of_visited hv)
  · exact h.relaxed_distance hg hn hcount (Bool.not_eq_true _ ▸ hv)
  · have hv := h.nonneg v
    have hu := h.nonneg u
    have hedge := (hg.bounds u v).1
    dsimp only
    rw [relaxed]
    split_ifs
    · omega
    · exact hv
  · dsimp only
    rw [relaxed]
    split_ifs with hless
    · exact Or.inr (h.sum_lt hg hn hcount hless.2.2.1 hless.2.1).1
    · rcases h.small v with heq | hsmall
      · exact Or.inl heq
      · right
        push_cast
        omega

theorem rounds_spec (hg : Graph g) (hn : n ≤ 50000) (src : Fin n) (hcount : count < n) :
    ∃ s, rounds (fun u => .ok (g u)) src count = .ok s ∧ Settled g src count s := by
  induction count with
  | zero => exact ⟨_, rfl, settled_start g src⟩
  | succ count ih =>
      obtain ⟨s, hs, hsettled⟩ := ih (Nat.lt_of_succ_lt hcount)
      obtain ⟨u, -, -, t, ht, hnext⟩ := hsettled.selectVertex hg hn hcount
      refine ⟨t, ?_, hnext⟩
      rw [rounds] at hs ⊢
      rw [List.range_succ, List.foldlM_append, hs, ok_bind, List.foldlM_cons, ht, ok_bind]
      rfl

theorem relaxed_le {row dist : Fin n → ℤ} {visited : Fin n → Bool} {u v : Fin n} :
    relaxed row visited u dist v ≤ dist v := by
  rw [relaxed]
  split_ifs with h
  · exact h.2.2.2.le
  · exact le_rfl

theorem dijkstra_total (g : Fin n → Fin n → ℤ) (src : Fin n) :
    ∃ dist, dijkstra (fun u => .ok (g u)) src = .ok dist := by
  have hloop : ∀ count < n, ∃ s, rounds (fun u => .ok (g u)) src count = .ok s ∧
      (∀ v, s.dist v ≤ INF) ∧ (Finset.univ.filter fun v => s.visited v = true).card = count := by
    intro count hcount
    induction count with
    | zero =>
        refine ⟨_, rfl, fun v => ?_, (settled_start g src).visited⟩
        rcases (settled_start g src).small v with h | h
        · exact h.le
        · exact h.trans (by decide)
    | succ count ih =>
        obtain ⟨s, hs, hle, hcard⟩ := ih (Nat.lt_of_succ_lt hcount)
        obtain ⟨u, -, -, -, heq, hnext⟩ :=
          selectVertex_eq (g := g) hle hcard (Nat.lt_of_succ_lt hcount)
        refine ⟨⟨relaxed (g u) (Function.update s.visited u true) u s.dist,
          Function.update s.visited u true⟩, ?_, fun v => relaxed_le.trans (hle v), hnext⟩
        rw [rounds] at hs ⊢
        rw [List.range_succ, List.foldlM_append, hs, ok_bind, List.foldlM_cons, heq, ok_bind]
        rfl
  obtain ⟨s, hs, -⟩ := hloop (n - 1) (Nat.sub_lt (Nat.zero_lt_of_lt src.isLt) Nat.one_pos)
  exact ⟨s.dist, by rw [dijkstra, hs, ok_bind]⟩

end Rounds

section Paths

variable {n : ℕ} {g : Fin n → Fin n → ℤ} {src v : Fin n} {k : ℤ}

theorem Path.walk (hg : Graph g) (h : Path g src v k) :
    0 ≤ k ∧ Walk (fun u v => distance (g u v)) src v (k.toNat : ℕ∞) := by
  induction h with
  | nil => exact ⟨le_rfl, .nil⟩
  | @edge u v k _ hedge ih =>
      obtain ⟨hk, hwalk⟩ := ih
      have hpos := (hg.bounds u v).1
      have hlast := hwalk.snoc (v := v)
      rw [distance_of_ne hedge, ← Nat.cast_add, ← Int.toNat_add hk hpos] at hlast
      exact ⟨by omega, hlast⟩

theorem exists_path (hg : Graph g) {m : ℕ∞}
    (h : Walk (fun u v => distance (g u v)) src v m) (hm : m ≠ ⊤) :
    ∃ k, Path g src v k ∧ 0 ≤ k ∧ m = (k.toNat : ℕ∞) := by
  induction h with
  | nil => exact ⟨0, .nil, le_rfl, rfl⟩
  | @snoc u v m _ ih =>
      have hedge : g u v ≠ INF := fun heq => hm (by rw [heq, distance_inf, add_top])
      obtain ⟨k, hpath, hk, rfl⟩ := ih fun htop => hm (by rw [htop, top_add])
      have hpos := (hg.bounds u v).1
      refine ⟨k + g u v, .edge hpath hedge, by omega, ?_⟩
      rw [distance_of_ne hedge, Int.toNat_add hk hpos, Nat.cast_add]

theorem label_of_shortest (hg : Graph g) {d : ℤ} (hd : 0 ≤ d)
    (h : Shortest (fun u v => distance (g u v)) src v (distance d)) :
    d = INF ∧ (∀ k, ¬ Path g src v k) ∨ Path g src v d ∧ ∀ k, Path g src v k → d ≤ k := by
  by_cases hinf : d = INF
  · left
    refine ⟨hinf, fun k hpath => ?_⟩
    have hle := h.least _ (hpath.walk hg).2
    rw [hinf, distance_inf, top_le_iff] at hle
    exact ENat.natCast_ne_top _ hle
  · right
    have hne : distance d ≠ ⊤ := fun htop => hinf (distance_eq_top.mp htop)
    obtain ⟨k, hpath, hk, heq⟩ := exists_path hg (h.attained.resolve_left hne) hne
    rw [distance_of_ne hinf, Nat.cast_inj] at heq
    have hkd : k = d := by omega
    refine ⟨hkd ▸ hpath, fun k' hpath' => ?_⟩
    obtain ⟨hk', hwalk⟩ := hpath'.walk hg
    have hle := h.least _ hwalk
    rw [distance_of_ne hinf, Nat.cast_le] at hle
    omega

theorem Settled.last {s : Labels n} (h : Settled g src (n - 1) s) {x y : Fin n}
    (hx : ¬ s.visited x = true) (hy : ¬ s.visited y = true) : x = y := by
  have hle : (Finset.univ.filter fun v => ¬ s.visited v = true).card ≤ 1 := by
    have hsum := Finset.card_filter_add_card_filter_not (s := Finset.univ)
      (fun v => s.visited v = true)
    rw [h.visited, Finset.card_univ, Fintype.card_fin] at hsum
    omega
  exact Finset.card_le_one.mp hle x (Finset.mem_filter.mpr ⟨Finset.mem_univ x, hx⟩) y
    (Finset.mem_filter.mpr ⟨Finset.mem_univ y, hy⟩)

/-- `dijkstra` ends with the least weight of a path to each vertex, or `INF` if there is none. Every
selection finds a vertex that is left, and no sum in the inner loop gets beyond `INF + 20`. -/
theorem dijkstra_shortest (hg : Graph g) (hn : n ≤ 50000) (src : Fin n) :
    (∃ dist, dijkstra (fun u => .ok (g u)) src = .ok dist ∧ ∀ v,
      dist v = INF ∧ (∀ k, ¬ Path g src v k) ∨
        Path g src v (dist v) ∧ ∀ k, Path g src v k → dist v ≤ k) ∧
    ∀ count < n - 1, ∃ s, ∃ u : Fin n, rounds (fun u => .ok (g u)) src count = .ok s ∧
      minDistance s = u.val ∧ s.visited u = false ∧
      ∀ l, l <+: List.finRange n → ∃ dist,
        l.foldlM (relax (fun u => .ok (g u)) (Function.update s.visited u true) u) s.dist =
        .ok dist ∧
        ∀ v, g u v ≠ INF → dist u ≠ INF → dist u + g u v ≤ INF + 20 := by
  have hpos : 0 < n := Nat.lt_of_le_of_lt (Nat.zero_le _) src.isLt
  constructor
  · obtain ⟨s, hs, hsettled⟩ := rounds_spec hg hn src (Nat.sub_lt hpos Nat.one_pos)
    refine ⟨s.dist, ?_, fun v => label_of_shortest hg (hsettled.nonneg v) ?_⟩
    · rw [dijkstra, hs, ok_bind]
    · exact hsettled.greedy.shortest (fun x y hx hy => hsettled.last hx hy) v
  · intro count hcount
    have hlt : count + 1 < n := Nat.add_lt_of_lt_sub hcount
    obtain ⟨s, hs, hsettled⟩ := rounds_spec hg hn src (Nat.lt_of_succ_lt hlt)
    obtain ⟨u, hmin, hu, -⟩ := hsettled.selectVertex hg hn hlt
    have hself : Function.update s.visited u true u = true := by rw [Function.update_self]
    refine ⟨s, u, hs, hmin, hu, fun l hl => ⟨_, relax_foldlM rfl hself
      ((List.nodup_finRange n).sublist hl.sublist), fun v hv hdist => ?_⟩⟩
    have hkept : (if u ∈ l then relaxed (g u) (Function.update s.visited u true) u s.dist u
        else s.dist u) = s.dist u := by
      rw [relaxed_of_visited hself, ite_self]
    rw [hkept] at hdist ⊢
    have hsum := (hsettled.sum_lt hg hn hlt hdist hv).2
    omega

/-- A way of three edges is shorter than the edge of weight 20, and vertex 3 cannot be reached. -/
def detour : Fin 5 → Fin 5 → ℤ := fun u v =>
  if u = v then 0
  else if u = 0 ∧ v = 2 then 20
  else if u = 0 ∧ v = 1 ∨ u = 1 ∧ v = 4 ∨ u = 4 ∧ v = 2 then 5
  else INF

theorem dijkstra_shortest_detour : ∃ dist, dijkstra (fun u => .ok (detour u)) 0 = .ok dist ∧
    dist 2 = 15 ∧ dist 3 = INF ∧ ∀ k, Path detour 0 2 k → 15 ≤ k := by
  have hg : Graph detour := ⟨by decide, by decide⟩
  have hn : 5 ≤ 50000 := by decide
  obtain ⟨⟨dist, hdist, hlabel⟩, -⟩ := dijkstra_shortest hg hn 0
  have hrun : (dijkstra (fun u => .ok (detour u)) 0).toOption.any
      (fun dist => decide (dist 2 = 15 ∧ dist 3 = INF)) = true := by decide +kernel
  rw [hdist] at hrun
  obtain ⟨htwo, hthree⟩ := of_decide_eq_true hrun
  refine ⟨dist, hdist, htwo, hthree, fun k hpath => ?_⟩
  rcases hlabel 2 with ⟨-, hnone⟩ | ⟨-, hleast⟩
  · exact absurd hpath (hnone k)
  · exact htwo ▸ hleast k hpath

end Paths

end CpuBound

end Xv6Fairness
