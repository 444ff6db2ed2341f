import Xv6Fairness.PathNames

/-!
# The elements of a path

The elements of a path are its parts between slashes that are not empty. `skipelem` takes the first
one off, however many slashes there are around it.
-/

namespace Xv6Fairness

open ByteStrings

def slash : UInt8 := 47

/-- The non-empty parts between slashes. -/
def elems (s : Bytes) : List Bytes := (s.splitOn slash).filter (· ≠ [])

section Elements

variable {s path rest name : Bytes} {c : UInt8}

theorem elems_slash (s : Bytes) : elems (slash :: s) = elems s := by
  have hsplit : (slash :: s).splitOn slash = [] :: s.splitOn slash :=
    @List.splitOnP_append_cons_of_forall_mem _ (· == slash) [] (fun x hx => by cases hx) slash
      (beq_self_eq_true slash) s
  rw [elems, hsplit, List.filter_cons_of_neg (by decide), elems]

/-- The path without the slashes that it begins with. -/
def dropSlashes (s : Bytes) : Bytes := s.dropWhile (· = slash)

theorem dropSlashes_slash (s : Bytes) : dropSlashes (slash :: s) = dropSlashes s :=
  List.dropWhile_cons_of_pos (decide_eq_true rfl)

theorem dropSlashes_cons (hc : c ≠ slash) (s : Bytes) : dropSlashes (c :: s) = c :: s :=
  List.dropWhile_cons_of_neg fun hd => hc (of_decide_eq_true hd)

theorem head_dropSlashes (s : Bytes) : ∀ c ∈ (dropSlashes s).head?, c ≠ slash := by
  intro c hc
  have hnot := List.head?_dropWhile_not (fun c => decide (c = slash)) s
  rw [dropSlashes] at hc
  rw [Option.mem_def.mp hc] at hnot
  exact of_decide_eq_false hnot

theorem elems_dropSlashes (s : Bytes) : elems (dropSlashes s) = elems s := by
  induction s with
  | nil => rfl
  | cons c s ih =>
      by_cases hc : c = slash
      · rw [hc, dropSlashes_slash, ih, elems_slash]
      · rw [dropSlashes_cons hc]

theorem filter_cons {e : Bytes} (hne : e ≠ []) (l : List Bytes) :
    (e :: l).filter (· ≠ []) = e :: l.filter (· ≠ []) :=
  List.filter_cons_of_pos (decide_eq_true hne)

theorem elems_single {e : Bytes} (h : IsElem e) (hne : e ≠ []) : elems e = [e] := by
  have hsplit : e.splitOn slash = [e] := by
    rw [List.splitOn_eq_splitOnP]
    exact List.splitOnP_eq_singleton fun x hx => beq_eq_false_iff_ne.mpr (h x hx).1
  rw [elems, hsplit, filter_cons hne, List.filter_nil]

theorem elems_append {e : Bytes} (h : IsElem e) (hne : e ≠ []) (s : Bytes) :
    elems (e ++ slash :: s) = e :: elems s := by
  have hsplit : (e ++ slash :: s).splitOn slash = e :: s.splitOn slash := by
    rw [List.splitOn_eq_splitOnP, List.splitOn_eq_splitOnP]
    exact List.splitOnP_append_cons_of_forall_mem
      (fun x hx => beq_eq_false_iff_ne.mpr (h x hx).1) slash
      (beq_self_eq_true slash) s
  rw [elems, hsplit, filter_cons hne, elems]

theorem skipSlashes_eq (h : ∀ c ∈ s, c ≠ 0) :
    skipSlashes (s ++ 0 :: rest) = some (dropSlashes s ++ 0 :: rest) := by
  induction s with
  | nil => rfl
  | cons c s ih =>
      rw [List.cons_append, skipSlashes]
      change (if c = slash then _ else _) = _
      by_cases hc : c = slash
      · rw [if_pos hc, hc, dropSlashes_slash]
        exact ih fun d hd => h d (List.mem_cons_of_mem c hd)
      · rw [if_neg hc, dropSlashes_cons hc, List.cons_append]

theorem skipelem_slash : skipelem (slash :: path) name = skipelem path name := by
  rw [skipelem, skipelem]
  have hskip : skipSlashes (slash :: path) = skipSlashes path := if_pos rfl
  rw [hskip]

/-- What is left of a path behind its first element: nothing, or slashes and more. -/
theorem split_elem (h : ∀ c ∈ s, c ≠ 0) (hhead : ∀ c ∈ s.head?, c ≠ slash) (hne : s ≠ []) :
    ∃ e r, s = e ++ r ∧ IsElem e ∧ e ≠ [] ∧ ∀ c ∈ r.head?, c = slash := by
  refine ⟨s.takeWhile (· ≠ slash), s.dropWhile (· ≠ slash), List.takeWhile_append_dropWhile.symm,
    fun c hc => ⟨?_, ?_⟩, ?_, fun c hc => ?_⟩
  · have hkeep := List.mem_takeWhile_imp (p := fun x => decide (x ≠ slash)) hc
    exact of_decide_eq_true hkeep
  · exact h c (List.takeWhile_subset _ hc)
  · obtain ⟨c, s, rfl⟩ := List.exists_cons_of_ne_nil hne
    have hc : c ≠ slash := hhead c rfl
    have hkeep : (c :: s).takeWhile (· ≠ slash) = c :: s.takeWhile (· ≠ slash) :=
      List.takeWhile_cons_of_pos (decide_eq_true hc)
    rw [hkeep]
    exact List.cons_ne_nil _ _
  · have hnot := List.head?_dropWhile_not (fun c => decide (c ≠ slash)) s
    rw [Option.mem_def.mp hc] at hnot
    exact not_not.mp (of_decide_eq_false hnot)

theorem elems_ne_nil (h : ∀ c ∈ s, c ≠ 0) (hhead : ∀ c ∈ s.head?, c ≠ slash) (hne : s ≠ []) :
    elems s ≠ [] := by
  obtain ⟨e, r, hsplit, he, hne', hr⟩ := split_elem h hhead hne
  rw [hsplit]
  cases r with
  | nil =>
      rw [List.append_nil, elems_single he hne']
      exact List.cons_ne_nil _ _
  | cons c r =>
      obtain rfl : c = slash := hr c rfl
      rw [elems_append he hne']
      exact List.cons_ne_nil _ _

theorem dropSlashes_ne_zero (h : ∀ c ∈ s, c ≠ 0) : ∀ c ∈ dropSlashes s, c ≠ 0 := fun c hc =>
  h c (List.dropWhile_subset _ hc)

theorem dropSlashes_eq_nil_iff (h : ∀ c ∈ s, c ≠ 0) : dropSlashes s = [] ↔ elems s = [] := by
  rw [← elems_dropSlashes]
  constructor
  · intro hnil
    rw [hnil]
    rfl
  · intro hnil
    by_contra hne
    exact elems_ne_nil (dropSlashes_ne_zero h) (head_dropSlashes s) hne hnil

theorem skipelem_none (h : ∀ c ∈ s, c ≠ 0) (helems : elems s = []) :
    skipelem (s ++ 0 :: rest) name = some (none, name) := by
  have hskip : skipSlashes (s ++ 0 :: rest) = some (0 :: rest) := by
    rw [skipSlashes_eq h, (dropSlashes_eq_nil_iff h).mpr helems, List.nil_append]
  rw [skipelem, hskip]
  rfl

theorem skipelem_some {e : Bytes} {es : List Bytes} (rest : Bytes) (h : ∀ c ∈ s, c ≠ 0)
    (helems : elems s = e :: es) (hname : name.length = DIRSIZ) :
    ∃ s' name', skipelem (s ++ 0 :: rest) name = some (some (s' ++ 0 :: rest), name') ∧
      elems s' = es ∧ (s' = [] ↔ es = []) ∧ (∀ c ∈ s', c ≠ 0) ∧ name'.length = DIRSIZ ∧
      cString name' = e.take DIRSIZ := by
  induction s with
  | nil => cases helems
  | cons c s ih =>
      by_cases hc : c = slash
      · rw [hc, elems_slash] at helems
        rw [hc, List.cons_append, skipelem_slash]
        exact ih (fun d hd => h d (List.mem_cons_of_mem c hd)) helems
      · obtain ⟨e', r, hsplit, he, hne, hr⟩ := split_elem h (fun d hd => by cases hd; exact hc)
          (List.cons_ne_nil c s)
        have hnul : ∀ d ∈ r, d ≠ 0 :=
          fun d hd => h d (by rw [hsplit]; exact List.mem_append_right e' hd)
        obtain ⟨d, path, hpath, hd⟩ : ∃ d path, r ++ 0 :: rest = d :: path ∧ (d = 47 ∨ d = 0) := by
          cases r with
          | nil => exact ⟨0, rest, rfl, .inr rfl⟩
          | cons d r => exact ⟨d, r ++ 0 :: rest, rfl, .inl (hr d rfl)⟩
        obtain ⟨name', hskip, hlen, hkey⟩ := @skipelem_eq e' path name d he hne hd hname
        have hparts : e' = e ∧ elems r = es := by
          rw [hsplit] at helems
          cases r with
          | nil =>
              rw [List.append_nil, elems_single he hne] at helems
              cases helems
              exact ⟨rfl, rfl⟩
          | cons d r =>
              obtain rfl : d = slash := hr d rfl
              rw [elems_append he hne] at helems
              cases helems
              exact ⟨rfl, elems_slash r⟩
        refine ⟨dropSlashes r, name', ?_, ?_, ?_, dropSlashes_ne_zero hnul, hlen, hparts.1 ▸ hkey⟩
        · rw [hsplit, List.append_assoc, hpath, hskip, ← hpath, skipSlashes_eq hnul]
          rfl
        · rw [elems_dropSlashes, hparts.2]
        · rw [← hparts.2]
          exact dropSlashes_eq_nil_iff hnul

end Elements

end Xv6Fairness
