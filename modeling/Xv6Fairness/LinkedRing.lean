import Mathlib.Data.Option.Basic
import Mathlib.Logic.Function.Basic
import Mathlib.Data.List.Nodup

/-!
# Circular lists with a sentinel

The links of a doubly linked list are two functions on nodes, where `none` is the sentinel and `some
b` a member. `Represents` says which list the links form. Members are taken out and put behind the
sentinel by assignments to single links, and the list is searched in both directions by following
the links.
-/

namespace LinkedRing

structure Links (α : Type*) where
  next : Option α → Option α
  prev : Option α → Option α

namespace Links

variable {α : Type*} [DecidableEq α] (r : Links α) {a c : Option α} {b : α} {xs ys zs : List α}

/-- The links of the sentinel alone. -/
def empty : Links α := ⟨fun _ => none, fun _ => none⟩

def setNext (a c : Option α) : Links α := { r with next := Function.update r.next a c }

def setPrev (a c : Option α) : Links α := { r with prev := Function.update r.prev a c }

def flip : Links α := ⟨r.prev, r.next⟩

/-- `b->next->prev = b->prev; b->prev->next = b->next`. -/
def unlink (b : α) : Links α :=
  let r := r.setPrev (r.next (some b)) (r.prev (some b))
  r.setNext (r.prev (some b)) (r.next (some b))

/-- `b->next = head.next; b->prev = &head; head.next->prev = b; head.next = b`. -/
def pushFront (b : α) : Links α :=
  let r := r.setNext (some b) (r.next none)
  let r := r.setPrev (some b) none
  let r := r.setPrev (r.next none) (some b)
  r.setNext none (some b)

/-- The first member from a node on that satisfies `P`, or `some none` when the sentinel is reached
before; `none` when the steps run out. -/
def scan (next : Option α → Option α) (P : α → Bool) : ℕ → Option α → Option (Option α)
  | _, none => some none
  | 0, some _ => none
  | steps + 1, some b => if P b then some (some b) else scan next P steps (next (some b))

/-- The links lead from `a` over `xs` to `c` and back. -/
def Path : Option α → List α → Option α → Prop
  | a, [], c => r.next a = c ∧ r.prev c = a
  | a, x :: xs, c => (r.next a = some x ∧ r.prev (some x) = a) ∧ Path (some x) xs c

def Represents (xs : List α) : Prop := xs.Nodup ∧ r.Path none xs none

variable {r} {r' : Links α}

omit [DecidableEq α] in
theorem path_append : r.Path a (xs ++ b :: ys) c ↔ r.Path a xs (some b) ∧ r.Path (some b) ys c := by
  induction xs generalizing a with
  | nil => exact Iff.rfl
  | cons x xs ih =>
      rw [List.cons_append, Path, Path, ih]
      exact and_assoc.symm

omit [DecidableEq α] in
theorem Path.congr (h : r.Path a xs c) (hnext : ∀ y, y = a ∨ y ∈ xs.map some → r'.next y = r.next y)
    (hprev : ∀ y, y ∈ xs.map some ∨ y = c → r'.prev y = r.prev y) : r'.Path a xs c := by
  induction xs generalizing a with
  | nil =>
      obtain ⟨hn, hp⟩ := h
      exact ⟨(hnext a (.inl rfl)).trans hn, (hprev c (.inr rfl)).trans hp⟩
  | cons x xs ih =>
      obtain ⟨⟨hn, hp⟩, h⟩ := h
      refine ⟨⟨(hnext a (.inl rfl)).trans hn, (hprev (some x) (.inl List.mem_cons_self)).trans hp⟩,
        ih h ?_ ?_⟩
      · intro y hy
        apply hnext y (.inr _)
        rcases hy with rfl | hy
        · exact List.mem_cons_self
        · exact List.mem_cons_of_mem _ hy
      · intro y hy
        rcases hy with hy | rfl
        · exact hprev y (.inl (List.mem_cons_of_mem _ hy))
        · exact hprev y (.inr rfl)

omit [DecidableEq α] in
theorem Path.flip (h : r.Path a xs c) : r.flip.Path c xs.reverse a := by
  induction xs generalizing a with
  | nil => exact ⟨h.2, h.1⟩
  | cons x xs ih =>
      rw [List.reverse_cons, path_append]
      exact ⟨ih h.2, h.1.2, h.1.1⟩

omit [DecidableEq α] in
theorem Represents.flip (h : r.Represents xs) : r.flip.Represents xs.reverse :=
  ⟨List.nodup_reverse.mpr h.1, h.2.flip⟩

/-- The last node of a path before its end. -/
def lastNode : Option α → List α → Option α
  | a, [] => a
  | _, x :: xs => lastNode (some x) xs

omit [DecidableEq α] in
theorem Path.prev_end (h : r.Path a xs c) : r.prev c = lastNode a xs := by
  induction xs generalizing a with
  | nil => exact h.2
  | cons x xs ih => exact ih h.2

omit [DecidableEq α] in
theorem lastNode_mem (a : Option α) (xs : List α) :
    lastNode a xs = a ∨ lastNode a xs ∈ xs.map some := by
  induction xs generalizing a with
  | nil => exact .inl rfl
  | cons x xs ih =>
      rcases ih (some x) with h | h
      · exact .inr (by rw [lastNode, h]; exact List.mem_cons_self)
      · exact .inr (List.mem_cons_of_mem _ h)

theorem Path.redirect (h : r.Path a xs c) (hnodup : (a :: xs.map some).Nodup) {c' : Option α}
    (hc : c' ∉ xs.map some) :
    ((r.setPrev c' (lastNode a xs)).setNext (lastNode a xs) c').Path a xs c' := by
  induction xs generalizing a with
  | nil => exact ⟨Function.update_self _ _ _, Function.update_self _ _ _⟩
  | cons x xs ih =>
      obtain ⟨⟨hn, hp⟩, h⟩ := h
      rw [List.map_cons, List.nodup_cons] at hnodup
      rw [List.map_cons, List.mem_cons, not_or] at hc
      have hlast : a ≠ lastNode (some x) xs := by
        intro heq
        apply hnodup.1
        rcases lastNode_mem (some x) xs with hl | hl
        · rw [heq, hl]
          exact List.mem_cons_self
        · rw [heq]
          exact List.mem_cons_of_mem _ hl
      refine ⟨⟨?_, ?_⟩, ih h hnodup.2 hc.2⟩
      · exact (Function.update_of_ne hlast _ _).trans hn
      · exact (Function.update_of_ne (Ne.symm hc.1) _ _).trans hp

omit [DecidableEq α] in
theorem nodup_map_some (h : xs.Nodup) : (xs.map some).Nodup := h.map (Option.some_injective α)

omit [DecidableEq α] in
theorem none_notMem_map : (none : Option α) ∉ xs.map some := by
  intro h
  obtain ⟨x, -, hx⟩ := List.mem_map.mp h
  cases hx

omit [DecidableEq α] in
theorem some_mem_map : some b ∈ xs.map some ↔ b ∈ xs :=
  List.mem_map_of_injective (Option.some_injective α)

omit [DecidableEq α] in
theorem represents_empty : (empty : Links α).Represents [] := ⟨List.nodup_nil, rfl, rfl⟩

theorem Represents.unlink (h : r.Represents (ys ++ b :: zs)) :
    (r.unlink b).Represents (ys ++ zs) := by
  obtain ⟨hnodup, hpath⟩ := h
  obtain ⟨hys, hzs⟩ := path_append.mp hpath
  have hb : b ∉ ys ++ zs := (List.nodup_middle.mp hnodup).notMem
  have hrest : (ys ++ zs).Nodup := (List.nodup_middle.mp hnodup).of_cons
  rw [List.mem_append, not_or] at hb
  have hlast := hys.prev_end
  have hstart : (none :: ys.map some).Nodup :=
    List.nodup_cons.mpr ⟨none_notMem_map, nodup_map_some hrest.of_append_left⟩
  have hne : r.next (some b) ≠ some b := by
    cases zs with
    | nil =>
        rw [hzs.1]
        exact (Option.some_ne_none b).symm
    | cons z zs =>
        rw [hzs.1.1]
        intro heq
        cases heq
        exact hb.2 List.mem_cons_self
  have hunlink : r.unlink b = (r.setPrev (r.next (some b)) (lastNode none ys)).setNext
      (lastNode none ys) (r.next (some b)) := by
    have hprev : (r.setPrev (r.next (some b)) (r.prev (some b))).prev (some b) = r.prev (some b) :=
      Function.update_of_ne hne.symm _ _
    rw [Links.unlink, hprev, hlast]
    rfl
  refine ⟨hrest, ?_⟩
  cases zs with
  | nil =>
      rw [hunlink, hzs.1, List.append_nil]
      exact hys.redirect hstart none_notMem_map
  | cons z zs =>
      obtain ⟨⟨hn, hp⟩, hzs⟩ := hzs
      have hz : z ∉ ys ∧ z ∉ zs := by
        have hmid := (List.nodup_middle.mp hrest).notMem
        rwa [List.mem_append, not_or] at hmid
      have hdisj : ∀ y ∈ ys, y ∉ zs := fun y hy hy' =>
        (List.disjoint_of_nodup_append hrest) hy (List.mem_cons_of_mem z hy')
      rw [hunlink, hn, path_append]
      refine ⟨hys.redirect hstart (fun hmem => hz.1 (some_mem_map.mp hmem)), hzs.congr ?_ ?_⟩
      · intro y hy
        apply Function.update_of_ne
        rintro rfl
        rcases lastNode_mem none ys with hl | hl
        · rw [hl] at hy
          rcases hy with hy | hy
          · cases hy
          · exact none_notMem_map hy
        · obtain ⟨y, hymem, hyeq⟩ := List.mem_map.mp hl
          rw [← hyeq] at hy
          rcases hy with hy | hy
          · cases hy
            exact hz.1 hymem
          · exact hdisj y hymem (some_mem_map.mp hy)
      · intro y hy
        apply Function.update_of_ne
        rintro rfl
        rcases hy with hy | hy
        · exact hz.2 (some_mem_map.mp hy)
        · cases hy

theorem Represents.pushFront (h : r.Represents xs) (hb : b ∉ xs) :
    (r.pushFront b).Represents (b :: xs) := by
  obtain ⟨hnodup, hpath⟩ := h
  have hhead : Function.update r.next (some b) (r.next none) none = r.next none :=
    Function.update_of_ne (Option.some_ne_none b).symm _ _
  have hnext : (r.pushFront b).next =
      Function.update (Function.update r.next (some b) (r.next none)) none (some b) := rfl
  have hprev : (r.pushFront b).prev =
      Function.update (Function.update r.prev (some b) none) (r.next none) (some b) := by
    conv_rhs => rw [← hhead]
    rfl
  have hfirst : (r.pushFront b).next none = some b := by
    rw [hnext, Function.update_self]
  have hsecond : (r.pushFront b).next (some b) = r.next none := by
    rw [hnext, Function.update_of_ne (Option.some_ne_none b), Function.update_self]
  have hback : (r.pushFront b).prev (r.next none) = some b := by
    rw [hprev, Function.update_self]
  have hstart : r.next none ≠ some b → (r.pushFront b).prev (some b) = none := fun hne => by
    rw [hprev, Function.update_of_ne hne.symm, Function.update_self]
  refine ⟨List.nodup_cons.mpr ⟨hb, hnodup⟩, ?_⟩
  cases xs with
  | nil =>
      have hn : r.next none = none := hpath.1
      refine ⟨⟨hfirst, hstart ?_⟩, hsecond.trans hn, ?_⟩
      · rw [hn]
        exact (Option.some_ne_none b).symm
      · rw [hn] at hback
        exact hback
  | cons x xs =>
      obtain ⟨⟨hn, -⟩, hpath⟩ := hpath
      rw [List.mem_cons, not_or] at hb
      have hx : x ∉ xs := (List.nodup_cons.mp hnodup).1
      rw [hn] at hsecond hback hstart hprev
      refine ⟨⟨hfirst, hstart fun h => hb.1 (Option.some_inj.mp h).symm⟩, ⟨hsecond, hback⟩,
        hpath.congr ?_ ?_⟩
      · intro y hy
        obtain ⟨z, rfl, hz⟩ : ∃ z, y = some z ∧ z ∈ x :: xs := by
          rcases hy with rfl | hy
          · exact ⟨x, rfl, List.mem_cons_self⟩
          · obtain ⟨z, hz, rfl⟩ := List.mem_map.mp hy
            exact ⟨z, rfl, List.mem_cons_of_mem x hz⟩
        have hzb : z ≠ b := by
          rintro rfl
          rcases List.mem_cons.mp hz with rfl | hz
          · exact hb.1 rfl
          · exact hb.2 hz
        rw [hnext, Function.update_of_ne (Option.some_ne_none z),
          Function.update_of_ne fun h => hzb (Option.some_inj.mp h)]
      · intro y hy
        have hyx : y ≠ some x := by
          rintro rfl
          rcases hy with hy | hy
          · exact hx (some_mem_map.mp hy)
          · cases hy
        have hyb : y ≠ some b := by
          rintro rfl
          rcases hy with hy | hy
          · exact hb.2 (some_mem_map.mp hy)
          · cases hy
        rw [hprev, Function.update_of_ne hyx, Function.update_of_ne hyb]

theorem Represents.moveFront (h : r.Represents (ys ++ b :: zs)) :
    ((r.unlink b).pushFront b).Represents (b :: (ys ++ zs)) :=
  h.unlink.pushFront (List.nodup_middle.mp h.1).notMem

omit [DecidableEq α] in
theorem Path.scan (h : r.Path a xs none) (P : α → Bool) {steps : ℕ} (hsteps : xs.length ≤ steps) :
    Links.scan r.next P steps (r.next a) = some (xs.find? P) := by
  induction xs generalizing a steps with
  | nil =>
      rw [h.1, Links.scan, List.find?_nil]
  | cons x xs ih =>
      rw [List.length_cons] at hsteps
      obtain ⟨steps, rfl⟩ : ∃ k, steps = k + 1 := ⟨steps - 1, by omega⟩
      rw [h.1.1, Links.scan, ih h.2 (by omega), List.find?_cons]
      cases P x <;> rfl

omit [DecidableEq α] in
theorem Represents.scan_next (h : r.Represents xs) (P : α → Bool) {steps : ℕ}
    (hsteps : xs.length ≤ steps) :
    Links.scan r.next P steps (r.next none) = some (xs.find? P) :=
  h.2.scan P hsteps

omit [DecidableEq α] in
theorem Represents.scan_prev (h : r.Represents xs) (P : α → Bool) {steps : ℕ}
    (hsteps : xs.length ≤ steps) :
    Links.scan r.prev P steps (r.prev none) = some (xs.reverse.find? P) :=
  h.flip.2.scan P (by rwa [List.length_reverse])

end Links

end LinkedRing
