import Mathlib.Data.List.Basic
import Mathlib.Data.List.Flatten

/-!
# Lines of a stream

A delimiter cuts a sequence into complete lines, each of which ends with it, and an unfinished rest.
What comes later in the stream continues the rest and leaves the complete lines as they are.
-/

namespace TextLines

variable {α : Type*} [DecidableEq α] (d : α)

/-- The lines without their delimiters. -/
def complete (s : List α) : List (List α) := (s.splitOn d).dropLast

def unfinished (s : List α) : List α := (s.splitOn d).getLastD []

/-- The text of complete lines. -/
def text (ls : List (List α)) : List α := ls.flatMap (· ++ [d])

/-- The text of those complete lines that are chosen. -/
def chosen (choose : List α → Bool) (s : List α) : List α := text d ((complete d s).filter choose)

variable {d} {l s t : List α} {choose : List α → Bool}

theorem splitOn_of_notMem (h : d ∉ s) : s.splitOn d = [s] :=
  List.splitOnP_eq_singleton fun _ hx => beq_false_of_ne (ne_of_mem_of_not_mem hx h)

theorem splitOn_append_cons (h : d ∉ l) : (l ++ d :: s).splitOn d = l :: s.splitOn d :=
  List.splitOnP_append_cons_of_forall_mem
    (fun _ hx => beq_false_of_ne (ne_of_mem_of_not_mem hx h)) d (beq_self_eq_true d) s

theorem splitOn_ne_nil : s.splitOn d ≠ [] := List.splitOnP_ne_nil _ s

theorem complete_of_notMem (h : d ∉ s) : complete d s = [] := by
  rw [complete, splitOn_of_notMem h]
  rfl

theorem unfinished_of_notMem (h : d ∉ s) : unfinished d s = s := by
  rw [unfinished, splitOn_of_notMem h]
  rfl

theorem complete_append_cons (h : d ∉ l) : complete d (l ++ d :: s) = l :: complete d s := by
  rw [complete, splitOn_append_cons h, List.dropLast_cons_of_ne_nil splitOn_ne_nil, complete]

theorem unfinished_append_cons (h : d ∉ l) : unfinished d (l ++ d :: s) = unfinished d s := by
  obtain ⟨l', ls, hsplit⟩ := List.exists_cons_of_ne_nil (splitOn_ne_nil : s.splitOn d ≠ [])
  rw [unfinished, splitOn_append_cons h, unfinished, hsplit]
  rfl

theorem lines_induction {P : List α → Prop} (hrest : ∀ s, d ∉ s → P s)
    (hline : ∀ l s, d ∉ l → P s → P (l ++ d :: s)) (s : List α) : P s := by
  induction hn : s.length using Nat.strongRecOn generalizing s with
  | ind n ih =>
      by_cases h : d ∈ s
      · obtain ⟨l, t, rfl, hl⟩ := List.eq_append_cons_of_mem h
        refine hline l t hl (ih t.length ?_ t rfl)
        rw [← hn, List.length_append, List.length_cons]
        omega
      · exact hrest s h

theorem notMem_unfinished : d ∉ unfinished d s := by
  induction s using lines_induction (d := d) with
  | hrest s h => rwa [unfinished_of_notMem h]
  | hline l s h ih => rwa [unfinished_append_cons h]

theorem length_unfinished_le : (unfinished d s).length ≤ s.length := by
  induction s using lines_induction (d := d) with
  | hrest s h => exact Nat.le_of_eq (congrArg List.length (unfinished_of_notMem h))
  | hline l s h ih =>
      rw [unfinished_append_cons h, List.length_append, List.length_cons]
      omega

theorem length_unfinished_lt (h : d ∈ s) : (unfinished d s).length < s.length := by
  obtain ⟨l, t, rfl, hl⟩ := List.eq_append_cons_of_mem h
  have ht : (unfinished d t).length ≤ t.length := length_unfinished_le
  rw [unfinished_append_cons hl, List.length_append, List.length_cons]
  omega

theorem unfinished_append (hs : d ∉ s) (ht : d ∈ t) : unfinished d (s ++ t) = unfinished d t := by
  obtain ⟨l, r, rfl, hl⟩ := List.eq_append_cons_of_mem ht
  have hsl : d ∉ s ++ l := fun h => (List.mem_append.mp h).elim hs hl
  rw [← List.append_assoc, unfinished_append_cons hsl, unfinished_append_cons hl]

theorem complete_append :
    complete d (s ++ t) = complete d s ++ complete d (unfinished d s ++ t) := by
  induction s using lines_induction (d := d) with
  | hrest s h => rw [complete_of_notMem h, unfinished_of_notMem h, List.nil_append]
  | hline l s h ih =>
      rw [List.append_assoc, List.cons_append, complete_append_cons h, ih, complete_append_cons h,
        unfinished_append_cons h, List.cons_append]

theorem text_complete_append : text d (complete d s) ++ unfinished d s = s := by
  induction s using lines_induction (d := d) with
  | hrest s h =>
      rw [complete_of_notMem h, unfinished_of_notMem h, text, List.flatMap_nil, List.nil_append]
  | hline l s h ih =>
      rw [text] at ih ⊢
      rw [complete_append_cons h, unfinished_append_cons h, List.flatMap_cons,
        List.append_assoc, ih,
        List.append_assoc, List.singleton_append]

theorem chosen_append : chosen d choose (s ++ t) =
    chosen d choose s ++ chosen d choose (unfinished d s ++ t) := by
  rw [chosen, complete_append, List.filter_append, text, List.flatMap_append, ← text,
    ← text, chosen,
    chosen]

theorem chosen_of_notMem (h : d ∉ s) : chosen d choose s = [] := by
  rw [chosen, complete_of_notMem h]
  rfl

theorem chosen_append_cons (h : d ∉ l) : chosen d choose (l ++ d :: s) =
    (if choose l then l ++ [d] else []) ++ chosen d choose s := by
  rw [chosen, complete_append_cons h, List.filter_cons]
  split_ifs
  · rfl
  · rfl

theorem mem_of_mem_unfinished {x : α} (h : x ∈ unfinished d s) : x ∈ s := by
  rw [← text_complete_append (d := d) (s := s)]
  exact List.mem_append_right _ h

theorem length_chosen (hall : ∀ l, choose l = true) :
    (chosen d choose s).length + (unfinished d s).length = s.length := by
  have hfilter : (complete d s).filter choose = complete d s :=
    List.filter_eq_self.mpr fun l _ => hall l
  rw [chosen, hfilter, ← List.length_append, text_complete_append]

end TextLines
