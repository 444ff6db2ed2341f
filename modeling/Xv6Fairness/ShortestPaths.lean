import Mathlib.Algebra.Order.Monoid.Canonical.Defs
import Mathlib.Order.BoundedOrder.Basic

/-!
# Shortest paths by greedy selection

Edges carry weights in an ordered monoid with a top element, the weight of an edge that is not
there. Vertices are settled one after another, always one with the least label of those left; then
the labels of the others are relaxed along its edges. Once at most one vertex is left, every label
is the least weight of a walk from the source.
-/

namespace ShortestPaths

variable {V M : Type*} [AddCommMonoid M] [LinearOrder M] {w : V → V → M}

inductive Walk (w : V → V → M) (s : V) : V → M → Prop
  | nil : Walk w s s 0
  | snoc {u v : V} {k : M} (h : Walk w s u k) : Walk w s v (k + w u v)

/-- The label of a vertex is the least weight of a walk to it. -/
structure Shortest [OrderTop M] (w : V → V → M) (s v : V) (d : M) : Prop where
  attained : d = ⊤ ∨ Walk w s v d
  least : ∀ k, Walk w s v k → d ≤ k

/-- The labels while the vertices in `settled` are done. -/
structure Greedy [OrderTop M] (w : V → V → M) (s : V) (settled : V → Prop) (d : V → M) : Prop where
  source : d s = 0
  attained : ∀ v, d v = ⊤ ∨ Walk w s v (d v)
  relaxed : ∀ u, settled u → ∀ v, d v ≤ d u + w u v
  ordered : ∀ u, settled u → ∀ v, ¬ settled v → d u ≤ d v

variable [OrderTop M] {s u v : V} {settled settled' : V → Prop} {d d' : V → M} {k : M}

theorem Greedy.start (hs : d s = 0) (hd : ∀ v, v ≠ s → d v = ⊤) (hnone : ∀ v, ¬ settled v) :
    Greedy w s settled d := by
  refine ⟨hs, fun v => ?_, fun u hu => absurd hu (hnone u), fun u hu => absurd hu (hnone u)⟩
  by_cases hv : v = s
  · subst hv
    rw [hs]
    exact Or.inr .nil
  · exact Or.inl (hd v hv)

variable [CanonicallyOrderedAdd M]

/-- A walk is bounded below by the label of its end or by that of a vertex that is left. -/
theorem Greedy.walk [IsOrderedAddMonoid M] (h : Greedy w s settled d) (hwalk : Walk w s v k) :
    d v ≤ k ∨ ∃ x, ¬ settled x ∧ d x ≤ k := by
  induction hwalk with
  | nil => exact Or.inl h.source.le
  | @snoc u v k _ ih =>
      rcases ih with hu | ⟨x, hx, hle⟩
      · by_cases hsettled : settled u
        · exact Or.inl ((h.relaxed u hsettled v).trans (add_le_add_left hu _))
        · exact Or.inr ⟨u, hsettled, hu.trans le_self_add⟩
      · exact Or.inr ⟨x, hx, hle.trans le_self_add⟩

theorem Greedy.shortest_of_settled [IsOrderedAddMonoid M] (h : Greedy w s settled d)
    (hv : settled v) :
    Shortest w s v (d v) := by
  refine ⟨h.attained v, fun k hwalk => ?_⟩
  rcases h.walk hwalk with hle | ⟨x, hx, hle⟩
  · exact hle
  · exact (h.ordered v hv x hx).trans hle

theorem Greedy.shortest [IsOrderedAddMonoid M] (h : Greedy w s settled d)
    (hlast : ∀ x y, ¬ settled x → ¬ settled y → x = y) (v : V) : Shortest w s v (d v) := by
  by_cases hv : settled v
  · exact h.shortest_of_settled hv
  · refine ⟨h.attained v, fun k hwalk => ?_⟩
    rcases h.walk hwalk with hle | ⟨x, hx, hle⟩
    · exact hle
    · rw [hlast v x hv hx]
      exact hle

theorem Greedy.settle (h : Greedy w s settled d) (hu : ¬ settled u)
    (hmin : ∀ v, ¬ settled v → d u ≤ d v) (hsettled : ∀ v, settled' v ↔ v = u ∨ settled v)
    (hkept : ∀ v, settled' v → d' v = d v)
    (hrelax : ∀ v, ¬ settled' v → d' v = min (d v) (d u + w u v)) : Greedy w s settled' d' := by
  have hself : d' u = d u := hkept u ((hsettled u).mpr (Or.inl rfl))
  have hle : ∀ v, d' v ≤ d v := by
    intro v
    by_cases hv : settled' v
    · exact (hkept v hv).le
    · rw [hrelax v hv]
      exact min_le_left _ _
  refine ⟨?_, fun v => ?_, fun x hx v => ?_, fun x hx v hv => ?_⟩
  · refine le_antisymm ?_ zero_le
    exact (hle s).trans h.source.le
  · by_cases hv : settled' v
    · rw [hkept v hv]
      exact h.attained v
    · rw [hrelax v hv]
      rcases min_choice (d v) (d u + w u v) with heq | heq
      · rw [heq]
        exact h.attained v
      · rw [heq]
        rcases h.attained u with htop | hwalk
        · left
          rw [htop]
          exact top_le_iff.mp le_self_add
        · exact Or.inr (.snoc hwalk)
  · rcases (hsettled x).mp hx with rfl | hx'
    · rw [hself]
      by_cases hv : settled' v
      · rw [hkept v hv]
        rcases (hsettled v).mp hv with rfl | hv'
        · exact le_self_add
        · exact (h.ordered v hv' x hu).trans le_self_add
      · rw [hrelax v hv]
        exact min_le_right _ _
    · rw [hkept x hx]
      exact (hle v).trans (h.relaxed x hx' v)
  · have hv' : ¬ settled v := fun h => hv ((hsettled v).mpr (Or.inr h))
    rw [hrelax v hv]
    rcases (hsettled x).mp hx with rfl | hx'
    · rw [hself]
      exact le_min (hmin v hv') le_self_add
    · rw [hkept x hx]
      exact le_min (h.ordered x hx' v hv') ((h.ordered x hx' u hu).trans le_self_add)

end ShortestPaths
