import Mathlib.Data.List.Basic
import Mathlib.Logic.Function.Basic

/-!
# Linked queues

A queue is a head and a link for each member. New members are written to the place at its end, which
is the head or the link of the last member, and the first member is taken off at the head.
-/

namespace LinkedQueues

variable {α : Type*}

structure Queue (α : Type*) where
  head : Option α
  next : α → Option α

/-- Where a link is stored. -/
inductive Place (α : Type*)
  | head
  | next (a : α)

namespace Queue

variable (q : Queue α)

def read : Place α → Option α
  | .head => q.head
  | .next a => q.next a

def write [DecidableEq α] (p : Place α) (o : Option α) : Queue α :=
  match p with
  | .head => { q with head := o }
  | .next a => { q with next := Function.update q.next a o }

/-- The place behind the last member, from a place on. -/
def last (q : Queue α) : ℕ → Place α → Option (Place α)
  | 0, _ => none
  | n + 1, p => match q.read p with
    | none => some p
    | some a => last q n (.next a)

/-- The members from a link on. -/
def Linked (next : α → Option α) : Option α → List α → Prop
  | o, [] => o = none
  | o, a :: as => o = some a ∧ Linked next (next a) as

variable {q} {a : α} {o : Option α} {as : List α} {p p' : Place α}
  {next next' : α → Option α} {n : ℕ}

theorem Linked.congr (h : Linked next o as) (heq : ∀ a ∈ as, next' a = next a) :
    Linked next' o as := by
  induction as generalizing o with
  | nil => exact h
  | cons a as ih =>
      refine ⟨h.1, ?_⟩
      rw [heq a List.mem_cons_self]
      exact ih h.2 fun b hb => heq b (List.mem_cons_of_mem a hb)

theorem Linked.head_eq (h : Linked next o as) : o = as.head? := by
  cases as with
  | nil => exact h
  | cons a as => exact h.1

theorem Linked.tail (h : Linked next o (a :: as)) : Linked next (next a) as := h.2

theorem exists_last (h : Linked q.next (q.read p) as) : ∃ n p', q.last n p = some p' := by
  induction as generalizing p with
  | nil =>
      refine ⟨1, p, ?_⟩
      rw [last, show q.read p = none from h]
  | cons a as ih =>
      obtain ⟨n, p', hlast⟩ := ih (p := .next a) h.2
      refine ⟨n + 1, p', ?_⟩
      rw [last, h.1]
      exact hlast

theorem last_mem (h : Linked q.next (q.read p) as) (hlast : q.last n p = some p') :
    p' = p ∨ ∃ a ∈ as, p' = .next a := by
  induction as generalizing p n with
  | nil =>
      cases n with
      | zero => cases hlast
      | succ n =>
          rw [last, show q.read p = none from h] at hlast
          exact .inl (Option.some_inj.mp hlast).symm
  | cons a as ih =>
      cases n with
      | zero => cases hlast
      | succ n =>
          rw [last, h.1] at hlast
          rcases ih (p := .next a) h.2 hlast with rfl | ⟨b, hb, rfl⟩
          · exact .inr ⟨a, List.mem_cons_self, rfl⟩
          · exact .inr ⟨b, List.mem_cons_of_mem a hb, rfl⟩

variable [DecidableEq α]

theorem read_write : (q.write p o).read p = o := by
  cases p with
  | head => rfl
  | next a => exact Function.update_self a o q.next

theorem read_write_of_ne (h : p' ≠ p) : (q.write p o).read p' = q.read p' := by
  cases p with
  | head =>
      cases p' with
      | head => exact absurd rfl h
      | next b => rfl
  | next a =>
      cases p' with
      | head => rfl
      | next b =>
          have hne : b ≠ a := fun hba => h (congrArg Place.next hba)
          exact Function.update_of_ne hne o q.next

theorem Linked.append (h : Linked q.next (q.read p) as) (hlast : q.last n p = some p')
    (hnodup : as.Nodup) (hp : ∀ b ∈ as, p ≠ .next b) (ha : a ∉ as) (hpa : p ≠ .next a)
    (hend : q.next a = none) :
    Linked (q.write p' (some a)).next ((q.write p' (some a)).read p) (as ++ [a]) := by
  induction as generalizing p n with
  | nil =>
      cases n with
      | zero => cases hlast
      | succ n =>
          rw [last, show q.read p = none from h] at hlast
          obtain rfl := Option.some_inj.mp hlast
          have hnext : (q.write p (some a)).read (.next a) = q.read (.next a) :=
            read_write_of_ne hpa.symm
          exact ⟨read_write, hnext.trans hend⟩
  | cons b as ih =>
      cases n with
      | zero => cases hlast
      | succ n =>
          rw [last, h.1] at hlast
          have hne : p ≠ p' := by
            rcases last_mem (p := .next b) h.2 hlast with rfl | ⟨c, hc, rfl⟩
            · exact hp b List.mem_cons_self
            · exact hp c (List.mem_cons_of_mem b hc)
          refine ⟨(read_write_of_ne hne).trans h.1, ?_⟩
          refine ih (p := .next b) h.2 hlast (List.nodup_cons.mp hnodup).2 (fun c hc hbc => ?_)
            (fun hmem => ha (List.mem_cons_of_mem b hmem)) (fun hba => ?_)
          · cases hbc
            exact (List.nodup_cons.mp hnodup).1 hc
          · cases hba
            exact ha List.mem_cons_self

end Queue

end LinkedQueues
