import Mathlib.Data.List.Perm.Basic
import Mathlib.Data.List.Nodup
import Mathlib.Logic.Function.Basic
import Mathlib.Order.Basic

/-!
# Circular lists

Nodes with one link each. A path leads from a node over others to an end; a ring is a path back to
its first node, and it can be entered at any of its nodes. A walk along the links of a ring comes to
every node.
-/

namespace CircularLists

variable {α : Type*} {next next' : α → α} {a b c d p q : α} {xs ys : List α}

/-- The links lead from `a` over `xs` to `c`. -/
def Path (next : α → α) : α → List α → α → Prop
  | a, [], c => next a = c
  | a, x :: xs, c => next a = x ∧ Path next x xs c

/-- The last node of a path before its end. -/
def lastNode : α → List α → α
  | a, [] => a
  | _, x :: xs => lastNode x xs

theorem path_append :
    Path next a (xs ++ b :: ys) c ↔ Path next a xs b ∧ Path next b ys c := by
  induction xs generalizing a with
  | nil => exact Iff.rfl
  | cons x xs ih =>
      rw [List.cons_append, Path, Path, ih]
      exact and_assoc.symm

theorem Path.congr (h : Path next a xs c) (heq : ∀ y ∈ a :: xs, next' y = next y) :
    Path next' a xs c := by
  induction xs generalizing a with
  | nil => exact (heq a List.mem_cons_self).trans h
  | cons x xs ih =>
      exact ⟨(heq a List.mem_cons_self).trans h.1,
        ih h.2 fun y hy => heq y (List.mem_cons_of_mem _ hy)⟩

theorem lastNode_mem : lastNode a xs ∈ a :: xs := by
  induction xs generalizing a with
  | nil => exact List.mem_cons_self
  | cons x xs ih => exact List.mem_cons_of_mem _ ih

theorem lastNode_append : lastNode a (xs ++ b :: ys) = lastNode b ys := by
  induction xs generalizing a with
  | nil => rfl
  | cons x xs ih => exact ih

theorem Path.next_lastNode (h : Path next a xs c) : next (lastNode a xs) = c := by
  induction xs generalizing a with
  | nil => exact h
  | cons x xs ih => exact ih h.2

theorem Path.map_next (h : Path next a xs c) : (a :: xs).map next = xs ++ [c] := by
  induction xs generalizing a with
  | nil => rw [List.map_cons, h, List.map_nil, List.nil_append]
  | cons x xs ih => rw [List.map_cons, h.1, ih h.2, List.cons_append]

section Rings

variable (h : Path next a xs a)

include h

theorem Path.next_mem (hp : p ∈ a :: xs) : next p ∈ a :: xs := by
  have hmem := List.mem_map_of_mem (f := next) hp
  rw [h.map_next, List.mem_append, List.mem_singleton] at hmem
  exact List.mem_cons.mpr hmem.symm

theorem Path.next_inj (hnodup : (a :: xs).Nodup) (hp : p ∈ a :: xs) (hq : q ∈ a :: xs)
    (heq : next p = next q) : p = q := by
  have hmap : ((a :: xs).map next).Nodup := by
    rw [h.map_next]
    exact (List.perm_append_singleton a xs).nodup_iff.mpr hnodup
  exact List.inj_on_of_nodup_map hmap hp hq heq

theorem Path.rotate (hp : p ∈ a :: xs) : ∃ ys, Path next p ys p ∧ (p :: ys).Perm (a :: xs) := by
  rcases List.mem_cons.mp hp with rfl | hp
  · exact ⟨xs, h, .refl _⟩
  · obtain ⟨ys, zs, rfl⟩ := List.append_of_mem hp
    obtain ⟨h₁, h₂⟩ := path_append.mp h
    refine ⟨zs ++ a :: ys, path_append.mpr ⟨h₂, h₁⟩, ?_⟩
    rw [← List.cons_append, ← List.cons_append]
    exact List.perm_append_comm

end Rings

theorem Path.insert (h : Path next a (xs ++ ys) c) (hnodup : (a :: (xs ++ ys)).Nodup)
    (hb : b ∉ a :: (xs ++ ys)) (hlink : next' b = next (lastNode a xs))
    (hlast : next' (lastNode a xs) = b)
    (heq : ∀ y, y ≠ b → y ≠ lastNode a xs → next' y = next y) : Path next' a (xs ++ b :: ys) c := by
  have hne : ∀ y ∈ a :: (xs ++ ys), y ≠ b := fun y hy h => hb (h ▸ hy)
  induction xs generalizing a with
  | nil =>
      refine ⟨hlast, ?_⟩
      cases ys with
      | nil => exact hlink.trans h
      | cons y ys =>
          refine ⟨hlink.trans h.1, h.2.congr fun z hz => ?_⟩
          have hza : z ≠ a := fun h => (List.nodup_cons.mp hnodup).1 (h ▸ hz)
          exact heq z (hne z (List.mem_cons_of_mem _ hz)) hza
  | cons x xs ih =>
      obtain ⟨hnot, hnodup'⟩ := List.nodup_cons.mp hnodup
      have hlast' : a ≠ lastNode x xs := fun h =>
        hnot (h ▸ List.mem_append_left ys lastNode_mem)
      exact ⟨(heq a (hne a List.mem_cons_self) hlast').trans h.1,
        ih h.2 hnodup' (fun hmem => hb (List.mem_cons_of_mem _ hmem)) hlink hlast heq
          fun y hy => hne y (List.mem_cons_of_mem _ hy)⟩

theorem Path.remove (h : Path next a (xs ++ b :: ys) c) (hnodup : (a :: (xs ++ b :: ys)).Nodup)
    (hlast : next' (lastNode a xs) = next b)
    (heq : ∀ y ∈ a :: (xs ++ ys), y ≠ lastNode a xs → next' y = next y) :
    Path next' a (xs ++ ys) c := by
  induction xs generalizing a with
  | nil =>
      obtain ⟨hnot, -⟩ := List.nodup_cons.mp hnodup
      cases ys with
      | nil => exact hlast.trans h.2
      | cons y ys =>
          refine ⟨hlast.trans h.2.1, h.2.2.congr fun z hz => ?_⟩
          exact heq z (List.mem_cons_of_mem _ hz) fun (hza : z = a) =>
            hnot (hza ▸ List.mem_cons_of_mem _ hz)
  | cons x xs ih =>
      obtain ⟨hnot, hnodup'⟩ := List.nodup_cons.mp hnodup
      have hlast' : a ≠ lastNode x xs := fun h =>
        hnot (h ▸ List.mem_append_left (b :: ys) lastNode_mem)
      exact ⟨(heq a List.mem_cons_self hlast').trans h.1,
        ih h.2 hnodup' hlast fun y hy => heq y (List.mem_cons_of_mem _ hy)⟩

theorem Path.replace (h : Path next a (xs ++ b :: ys) c) (hnodup : (a :: (xs ++ b :: ys)).Nodup)
    (hd : d ∉ a :: (xs ++ ys)) (hlast : next' (lastNode a xs) = d) (hlink : next' d = next b)
    (heq : ∀ y, y ≠ b → y ≠ d → y ≠ lastNode a xs → next' y = next y) :
    Path next' a (xs ++ d :: ys) c := by
  obtain ⟨h₁, h₂⟩ := path_append.mp h
  rw [← List.cons_append] at hnodup hd
  obtain ⟨hnodup₁, hnodup₂, hdisj⟩ := List.nodup_append.mp hnodup
  have hbys := (List.nodup_cons.mp hnodup₂).1
  refine path_append.mpr ⟨?_, ?_⟩
  · have hne : ∀ y ∈ a :: xs, y ≠ b ∧ y ≠ d := fun y hy =>
      ⟨hdisj y hy b List.mem_cons_self, fun h => hd (h ▸ List.mem_append_left _ hy)⟩
    clear h hnodup hd hdisj
    induction xs generalizing a with
    | nil => exact hlast
    | cons x xs ih =>
        have hne' := hne a List.mem_cons_self
        have hlast' : a ≠ lastNode x xs := fun h =>
          (List.nodup_cons.mp hnodup₁).1 (h ▸ lastNode_mem)
        exact ⟨(heq a hne'.1 hne'.2 hlast').trans h₁.1,
          ih hlast heq h₁.2 (List.nodup_cons.mp hnodup₁).2
            fun y hy => hne y (List.mem_cons_of_mem _ hy)⟩
  · have hkeep : ∀ y ∈ ys, next' y = next y := fun y hy =>
      heq y (fun h => hbys (h ▸ hy)) (fun h => hd (h ▸ List.mem_append_right _ hy))
        fun h => hdisj _ lastNode_mem y (List.mem_cons_of_mem _ hy) h.symm
    cases ys with
    | nil => exact hlink.trans h₂
    | cons y ys => exact ⟨hlink.trans h₂.1, h₂.2.congr hkeep⟩

section Order

variable {β : Type*} [Preorder β] {next : β → β} {a c r z : β} {xs : List β}

theorem le_lastNode (h : (a :: xs).Pairwise (· < ·)) (hz : z ∈ a :: xs) : z ≤ lastNode a xs := by
  induction xs generalizing a with
  | nil => exact (List.mem_singleton.mp hz).le
  | cons x xs ih =>
      obtain ⟨ha, h⟩ := List.pairwise_cons.mp h
      rcases List.mem_cons.mp hz with rfl | hz
      · exact (ha _ lastNode_mem).le
      · exact ih h hz

theorem Path.next_of_sorted (hp : Path next a xs c) (h : (a :: xs).Pairwise (· < ·))
    (hr : r ∈ a :: xs) : (r < next r ∧ next r ∈ xs ∧ ∀ z ∈ a :: xs, r < z → next r ≤ z) ∨
      r = lastNode a xs ∧ next r = c := by
  induction xs generalizing a with
  | nil =>
      obtain rfl := List.mem_singleton.mp hr
      exact .inr ⟨rfl, hp⟩
  | cons x xs ih =>
      obtain ⟨ha, hsorted⟩ := List.pairwise_cons.mp h
      rcases List.mem_cons.mp hr with rfl | hr'
      · rw [hp.1]
        refine .inl ⟨ha x List.mem_cons_self, List.mem_cons_self, fun z hz hlt => ?_⟩
        rcases List.mem_cons.mp hz with rfl | hz
        · exact absurd hlt (lt_irrefl _)
        · rcases List.mem_cons.mp hz with rfl | hz
          · exact le_rfl
          · exact ((List.pairwise_cons.mp hsorted).1 z hz).le
      · refine (ih hp.2 hsorted hr').imp_left fun ⟨hlt, hmem, hleast⟩ => ?_
        refine ⟨hlt, List.mem_cons_of_mem _ hmem, fun z hz hrz => ?_⟩
        rcases List.mem_cons.mp hz with rfl | hz
        · exact absurd (hrz.trans (ha r hr')) (lt_irrefl _)
        · exact hleast z hz hrz

end Order

/-- The first node from `p` on at which the walk stops; `none` when the steps run out. -/
def search (stop : α → Bool) (next : α → α) : ℕ → α → Option α
  | 0, _ => none
  | steps + 1, p => if stop p then some p else search stop next steps (next p)

theorem Path.search {stop : α → Bool} {steps : ℕ} (h : Path next p ys c)
    (hstop : ∃ q ∈ p :: ys, stop q = true) (hsteps : ys.length < steps) :
    ∃ q ∈ p :: ys, search stop next steps p = some q ∧ stop q = true := by
  induction ys generalizing p steps with
  | nil =>
      obtain ⟨steps, rfl⟩ := Nat.exists_eq_succ_of_ne_zero (Nat.ne_zero_of_lt hsteps)
      obtain ⟨q, hq, hstop⟩ := hstop
      obtain rfl := List.mem_singleton.mp hq
      exact ⟨q, hq, if_pos hstop, hstop⟩
  | cons y ys ih =>
      obtain ⟨steps, rfl⟩ := Nat.exists_eq_succ_of_ne_zero (Nat.ne_zero_of_lt hsteps)
      by_cases hp : stop p = true
      · exact ⟨p, List.mem_cons_self, if_pos hp, hp⟩
      · obtain ⟨q, hq, hstop⟩ := hstop
        have hq' : q ∈ y :: ys := (List.mem_cons.mp hq).resolve_left fun h => hp (h ▸ hstop)
        obtain ⟨r, hr, hsearch, hrstop⟩ :=
          ih h.2 ⟨q, hq', hstop⟩ (Nat.lt_of_succ_lt_succ hsteps)
        refine ⟨r, List.mem_cons_of_mem _ hr, ?_, hrstop⟩
        rw [CircularLists.search, if_neg hp, h.1]
        exact hsearch

theorem Path.search_ring {stop : α → Bool} {steps : ℕ} (h : Path next a xs a) (hp : p ∈ a :: xs)
    (hq : q ∈ a :: xs) (hstop : ∀ r ∈ a :: xs, stop r = true ↔ r = q) (hsteps : xs.length < steps) :
    CircularLists.search stop next steps p = some q := by
  obtain ⟨ys, hring, hperm⟩ := h.rotate hp
  have hlen : ys.length = xs.length := Nat.succ.inj hperm.length_eq
  have hstops : ∃ q ∈ p :: ys, stop q = true := ⟨q, hperm.mem_iff.mpr hq, (hstop q hq).mpr rfl⟩
  have hlt : ys.length < steps := hlen.trans_lt hsteps
  obtain ⟨r, hr, hsearch, hrstop⟩ := hring.search hstops hlt
  rw [hsearch, (hstop r (hperm.mem_iff.mp hr)).mp hrstop]

end CircularLists
