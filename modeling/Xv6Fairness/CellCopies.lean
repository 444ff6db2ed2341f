import Mathlib.Data.List.Nodup
import Mathlib.Logic.Function.Basic
import Mathlib.Tactic.NormNum.Pow

/-!
# Copying cell by cell

Cells are filled one after the other, each from a cell that may have been filled before. Where no
cell is read after it was filled, the order does not matter and the contents are those of before the
copy.
-/

namespace CellCopies

section Copies

variable {ι α β : Type*} [DecidableEq α] {dst src : ι → α} {m : α → β} {l before after : List ι}
variable {i : ι} {a : α}

def copyCells (dst src : ι → α) (m : α → β) (l : List ι) : α → β :=
  l.foldl (fun m i => Function.update m (dst i) (m (src i))) m

theorem copyCells_cons : copyCells dst src m (i :: l) =
    copyCells dst src (Function.update m (dst i) (m (src i))) l := rfl

theorem copyCells_append : copyCells dst src m (before ++ after) =
    copyCells dst src (copyCells dst src m before) after := List.foldl_append

theorem copyCells_map {κ : Type*} (f : κ → ι) (l : List κ) :
    copyCells dst src m (l.map f) = copyCells (dst ∘ f) (src ∘ f) m l := List.foldl_map

theorem copyCells_of_ne (h : ∀ i ∈ l, dst i ≠ a) : copyCells dst src m l a = m a := by
  induction l generalizing m with
  | nil => rfl
  | cons i l ih =>
      rw [copyCells_cons, ih fun j hj => h j (List.mem_cons_of_mem i hj)]
      exact Function.update_of_ne (h i List.mem_cons_self).symm _ _

theorem copyCells_turn (h : ∀ j ∈ after, dst j ≠ dst i) :
    copyCells dst src m (before ++ i :: after) (dst i) = copyCells dst src m before (src i) := by
  rw [copyCells_append, copyCells_cons, copyCells_of_ne h, Function.update_self]

/-- A source that is not filled from its turn on holds in the end what was copied from it. -/
theorem copyCells_final (hlast : ∀ j ∈ after, dst j ≠ dst i)
    (hkept : ∀ j ∈ i :: after, dst j ≠ src i) :
    copyCells dst src m (before ++ i :: after) (dst i) =
      copyCells dst src m (before ++ i :: after) (src i) := by
  rw [copyCells_turn hlast, copyCells_append, copyCells_of_ne hkept]

/-- Where no cell is filled twice and none before it is read, the sources keep their first contents.
-/
theorem copyCells_of_pairwise (h : l.Pairwise fun i j => dst i ≠ dst j ∧ dst i ≠ src j)
    (hi : i ∈ l) :
    copyCells dst src m l (dst i) = m (src i) := by
  obtain ⟨before, after, rfl⟩ := List.append_of_mem hi
  obtain ⟨-, hafter, hbefore⟩ := List.pairwise_append.mp h
  have hlast : ∀ j ∈ after, dst j ≠ dst i :=
    fun j hj => ((List.pairwise_cons.mp hafter).1 j hj).1.symm
  rw [copyCells_turn hlast, copyCells_of_ne]
  exact fun j hj => (hbefore j hj i List.mem_cons_self).2

end Copies

section Addresses

variable {a : UInt32} {i j n : ℕ}

theorem add_ofNat_add : a + UInt32.ofNat i + UInt32.ofNat j = a + UInt32.ofNat (i + j) := by
  rw [UInt32.ofNat_add, UInt32.add_assoc]

theorem toNat_add_ofNat (h : a.toNat + i < 2 ^ 32) : (a + UInt32.ofNat i).toNat = a.toNat + i := by
  rw [UInt32.toNat_add, UInt32.toNat_ofNat']
  omega

end Addresses

end CellCopies
