import Xv6Fairness.ByteStrings
import Xv6Fairness.PatternLanguages

/-!
# The matcher of `grep`

`match` looks for a pattern in a text by backtracking. Patterns and texts are read byte by byte up
to their terminators, and `none` is a read behind the end of the memory. A pattern stands for a
sequence of items that is read off it from left to right, and the matcher finds exactly its
occurrences.
-/

namespace Xv6Fairness

open ByteStrings

namespace Grep

def star : UInt8 := 42

def dollar : UInt8 := 36

def dot : UInt8 := 46

def caret : UInt8 := 94

mutual

def matchhere (re text : Bytes) : Option Bool :=
  match re with
  | [] => none
  | c :: re =>
    if c = 0 then some true
    else match re with
    | [] => none
    | d :: re' =>
      if d = star then matchstar c re' text
      else match text with
      | [] => none
      | t :: text =>
        if c = dollar ∧ d = 0 then some (t = 0)
        else if t ≠ 0 ∧ (c = dot ∨ c = t) then matchhere (d :: re') text
        else some false
termination_by 2 * (re.length + text.length)

def matchstar (c : UInt8) (re text : Bytes) : Option Bool :=
  match matchhere re text with
  | none => none
  | some true => some true
  | some false =>
    match text with
    | [] => none
    | t :: text => if t ≠ 0 ∧ (t = c ∨ c = dot) then matchstar c re text else some false
termination_by 2 * (re.length + text.length) + 1

end

/-- The loop of `match`. -/
def matchAnywhere (re text : Bytes) : Option Bool :=
  match matchhere re text with
  | none => none
  | some true => some true
  | some false =>
    match text with
    | [] => none
    | t :: text => if t ≠ 0 then matchAnywhere re text else some false

def matchText (re text : Bytes) : Option Bool :=
  match re with
  | [] => none
  | c :: re' => if c = caret then matchhere re' text else matchAnywhere re text

section Equations

variable {re text : Bytes} {c d t : UInt8}

theorem matchhere_zero : matchhere (0 :: re) text = some true := by
  rw [matchhere.eq_def]
  rfl

theorem matchhere_star (hc : c ≠ 0) : matchhere (c :: star :: re) text = matchstar c re text := by
  rw [matchhere.eq_def]
  exact if_neg hc

theorem matchhere_other (hc : c ≠ 0) (hd : d ≠ star) :
    matchhere (c :: d :: re) (t :: text) =
      if c = dollar ∧ d = 0 then some (decide (t = 0))
      else if t ≠ 0 ∧ (c = dot ∨ c = t) then matchhere (d :: re) text
      else some false := by
  rw [matchhere.eq_def]
  exact (if_neg hc).trans (if_neg hd)

theorem matchstar_true (h : matchhere re text = some true) : matchstar c re text = some true := by
  rw [matchstar.eq_def, h]

theorem matchstar_false (h : matchhere re (t :: text) = some false) :
    matchstar c re (t :: text) =
      if t ≠ 0 ∧ (t = c ∨ c = dot) then matchstar c re text else some false := by
  rw [matchstar.eq_def, h]

theorem matchAnywhere_true (h : matchhere re text = some true) :
    matchAnywhere re text = some true := by
  rw [matchAnywhere.eq_def, h]

theorem matchAnywhere_false (h : matchhere re (t :: text) = some false) :
    matchAnywhere re (t :: text) = if t ≠ 0 then matchAnywhere re text else some false := by
  rw [matchAnywhere.eq_def, h]

end Equations

/-- `.` is for every symbol, any other character for itself. -/
def symbols (c : UInt8) : Set UInt8 := {t | c = dot ∨ c = t}

/-- A character before a star is for any number of its symbols. A dollar at the end is for the end.
-/
def parse : Bytes → Patterns.Pattern UInt8
  | [] => ⟨[], false⟩
  | [c] => if c = dollar then ⟨[], true⟩ else ⟨[.one (symbols c)], false⟩
  | c :: d :: re =>
    if d = star then (parse re).cons (.many (symbols c))
    else (parse (d :: re)).cons (.one (symbols c))

/-- A caret at the beginning is for the beginning of the text. -/
def Matches (re text : Bytes) : Prop :=
  if re.head? = some caret then (parse re.tail).Begins text else (parse re).Occurs text

variable {re text rest rest' : Bytes} {c : UInt8}

/-- The result of a function of the matcher on terminated strings. -/
def Decides (result : Option Bool) (P : Prop) : Prop := ∃ b, result = some b ∧ (b = true ↔ P)

theorem matchstar_spec (hhere : ∀ text : Bytes, (∀ x ∈ text, x ≠ 0) →
    Decides (matchhere (re ++ 0 :: rest) (text ++ 0 :: rest')) ((parse re).Begins text))
    (htext : ∀ x ∈ text, x ≠ 0) :
    Decides (matchstar c (re ++ 0 :: rest) (text ++ 0 :: rest'))
      (((parse re).cons (.many (symbols c))).Begins text) := by
  induction text with
  | nil =>
      obtain ⟨b, hb, hiff⟩ := hhere [] htext
      have hmany : ((parse re).cons (.many (symbols c))).Begins [] ↔ (parse re).Begins [] := by
        rw [Patterns.begins_many]
        refine or_iff_left ?_
        rintro ⟨a, v, heq, -⟩
        cases heq
      cases b with
      | true => exact ⟨true, matchstar_true hb, hiff.trans hmany.symm⟩
      | false =>
          refine ⟨false, ?_, hiff.trans hmany.symm⟩
          exact (matchstar_false hb).trans (if_neg fun h => h.1 rfl)
  | cons t text ih =>
      obtain ⟨b, hb, hiff⟩ := hhere (t :: text) htext
      rw [List.cons_append] at hb
      rw [Patterns.begins_many]
      cases b with
      | true => exact ⟨true, matchstar_true hb, iff_of_true rfl (.inl (hiff.mp rfl))⟩
      | false =>
          have hnot : ¬ (parse re).Begins (t :: text) := fun h => Bool.noConfusion (hiff.mpr h)
          rw [or_iff_right hnot, List.cons_append, matchstar_false hb]
          by_cases hstep : t ≠ 0 ∧ (t = c ∨ c = dot)
          · obtain ⟨b', hb', hiff'⟩ := ih fun x hx => htext x (List.mem_cons_of_mem t hx)
            rw [if_pos hstep, hb']
            refine ⟨b', rfl, hiff'.trans ⟨fun h => ⟨t, text, rfl, ?_, h⟩, ?_⟩⟩
            · exact hstep.2.symm.imp_right Eq.symm
            · rintro ⟨a, v, heq, -, h⟩
              cases heq
              exact h
          · rw [if_neg hstep]
            refine ⟨false, rfl, iff_of_false Bool.false_ne_true ?_⟩
            rintro ⟨a, v, heq, ha, -⟩
            cases heq
            exact hstep ⟨htext t List.mem_cons_self, ha.symm.imp_left Eq.symm⟩

theorem matchhere_one {d : UInt8} {re' : Bytes} (hc : c ≠ 0) (hd : d ≠ star)
    (hend : ¬ (c = dollar ∧ d = 0))
    (hnext : ∀ text : Bytes, (∀ x ∈ text, x ≠ 0) →
      Decides (matchhere (d :: re') (text ++ 0 :: rest')) ((parse re).Begins text))
    (htext : ∀ x ∈ text, x ≠ 0) :
    Decides (matchhere (c :: d :: re') (text ++ 0 :: rest'))
      (((parse re).cons (.one (symbols c))).Begins text) := by
  rw [Patterns.begins_one]
  cases text with
  | nil =>
      rw [List.nil_append, matchhere_other hc hd, if_neg hend, if_neg fun h => h.1 rfl]
      refine ⟨false, rfl, iff_of_false Bool.false_ne_true ?_⟩
      rintro ⟨a, v, heq, -⟩
      cases heq
  | cons t text =>
      rw [List.cons_append, matchhere_other hc hd, if_neg hend]
      by_cases hstep : t ≠ 0 ∧ (c = dot ∨ c = t)
      · obtain ⟨b, hb, hiff⟩ := hnext text fun x hx => htext x (List.mem_cons_of_mem t hx)
        rw [if_pos hstep, hb]
        refine ⟨b, rfl, hiff.trans ⟨fun h => ⟨t, text, rfl, hstep.2, h⟩, ?_⟩⟩
        rintro ⟨a, v, heq, -, h⟩
        cases heq
        exact h
      · rw [if_neg hstep]
        refine ⟨false, rfl, iff_of_false Bool.false_ne_true ?_⟩
        rintro ⟨a, v, heq, ha, -⟩
        cases heq
        exact hstep ⟨htext t List.mem_cons_self, ha⟩

theorem matchhere_spec (n : ℕ) : ∀ re text : Bytes, re.length ≤ n → (∀ x ∈ re, x ≠ 0) →
    (∀ x ∈ text, x ≠ 0) →
      Decides (matchhere (re ++ 0 :: rest) (text ++ 0 :: rest')) ((parse re).Begins text) := by
  induction n with
  | zero =>
      intro re text hlen _ _
      rw [List.length_eq_zero_iff.mp (Nat.le_zero.mp hlen), List.nil_append, matchhere_zero]
      exact ⟨true, rfl, iff_of_true rfl Patterns.begins_empty⟩
  | succ n ih =>
      intro re text hlen hre htext
      cases re with
      | nil => exact ih [] text (Nat.zero_le n) hre htext
      | cons c re =>
          have hc : c ≠ 0 := hre c List.mem_cons_self
          have hre' : ∀ x ∈ re, x ≠ 0 := fun x hx => hre x (List.mem_cons_of_mem c hx)
          have hlen' : re.length ≤ n := Nat.le_of_succ_le_succ hlen
          cases re with
          | nil =>
              rw [parse]
              by_cases hdollar : c = dollar
              · have hstop : ∀ t text', matchhere (c :: 0 :: rest) (t :: text') =
                    some (decide (t = 0)) :=
                  fun t text' => (matchhere_other hc (by decide)).trans (if_pos ⟨hdollar, rfl⟩)
                rw [if_pos hdollar, Patterns.begins_end, List.cons_append, List.nil_append]
                cases text with
                | nil => exact ⟨true, hstop 0 rest', iff_of_true rfl rfl⟩
                | cons t text =>
                    have ht : t ≠ 0 := htext t List.mem_cons_self
                    refine ⟨false, (hstop t _).trans (congrArg some (decide_eq_false ht)), ?_⟩
                    exact iff_of_false Bool.false_ne_true (List.cons_ne_nil t text)
              · rw [if_neg hdollar]
                exact @matchhere_one [] text rest' c 0 rest hc (by decide) (fun h => hdollar h.1)
                  (fun text htext => ih [] text (Nat.zero_le n)
                    (fun x hx => absurd hx List.not_mem_nil)
                    htext) htext
          | cons d re =>
              have hd : d ≠ 0 := hre' d List.mem_cons_self
              rw [parse]
              by_cases hstar : d = star
              · rw [if_pos hstar, List.cons_append, List.cons_append, hstar, matchhere_star hc]
                refine matchstar_spec (fun text htext => ih re text ?_ ?_ htext) htext
                · exact (Nat.le_succ _).trans hlen'
                · exact fun x hx => hre' x (List.mem_cons_of_mem d hx)
              · rw [if_neg hstar]
                exact matchhere_one hc hstar (fun h => hd h.2)
                  (fun text htext => ih (d :: re) text hlen' hre' htext) htext

theorem matchAnywhere_spec (hre : ∀ x ∈ re, x ≠ 0) (htext : ∀ x ∈ text, x ≠ 0) :
    Decides (matchAnywhere (re ++ 0 :: rest) (text ++ 0 :: rest')) ((parse re).Occurs text) := by
  induction text with
  | nil =>
      obtain ⟨b, hb, hiff⟩ := @matchhere_spec rest rest' re.length re [] le_rfl hre
        htext
      have hoccurs : (parse re).Occurs [] ↔ (parse re).Begins [] := by
        rw [Patterns.occurs_iff]
        refine or_iff_left ?_
        rintro ⟨a, v, heq, -⟩
        cases heq
      cases b with
      | true => exact ⟨true, matchAnywhere_true hb, hiff.trans hoccurs.symm⟩
      | false =>
          refine ⟨false, ?_, hiff.trans hoccurs.symm⟩
          exact (matchAnywhere_false hb).trans (if_neg fun h => h rfl)
  | cons t text ih =>
      obtain ⟨b, hb, hiff⟩ := @matchhere_spec rest rest' re.length re (t :: text)
        le_rfl hre htext
      rw [List.cons_append] at hb
      rw [Patterns.occurs_iff]
      cases b with
      | true => exact ⟨true, matchAnywhere_true hb, iff_of_true rfl (.inl (hiff.mp rfl))⟩
      | false =>
          have hnot : ¬ (parse re).Begins (t :: text) := fun h => Bool.noConfusion (hiff.mpr h)
          obtain ⟨b', hb', hiff'⟩ := ih fun x hx => htext x (List.mem_cons_of_mem t hx)
          rw [or_iff_right hnot, List.cons_append, matchAnywhere_false hb,
            if_pos (htext t List.mem_cons_self), hb']
          refine ⟨b', rfl, hiff'.trans ⟨fun h => ⟨t, text, rfl, h⟩, ?_⟩⟩
          rintro ⟨a, v, heq, h⟩
          cases heq
          exact h

/-- On terminated strings `match` ends, and its result is 1 exactly where the pattern occurs in the
text, or begins it where the pattern starts with a caret. -/
theorem match_iff (hre : ∀ x ∈ re, x ≠ 0) (htext : ∀ x ∈ text, x ≠ 0) :
    Decides (matchText (re ++ 0 :: rest) (text ++ 0 :: rest')) (Matches re text) := by
  rw [Matches]
  cases re with
  | nil => exact matchAnywhere_spec hre htext
  | cons c re =>
      rw [List.cons_append, matchText]
      by_cases hcaret : c = caret
      · have hhead : (c :: re).head? = some caret := congrArg some hcaret
        rw [if_pos hcaret, if_pos hhead]
        exact matchhere_spec re.length re text le_rfl
          (fun x hx => hre x (List.mem_cons_of_mem c hx)) htext
      · have hhead : (c :: re).head? ≠ some caret := fun h => hcaret (Option.some_inj.mp h)
        rw [if_neg hcaret, if_neg hhead]
        exact matchAnywhere_spec hre htext

theorem match_iff_starred :
    matchText (ascii ['a', '*', '^', '$', '\x00']) (ascii ['b', 'a', '^', '\x00']) = some true ∧
      Matches (ascii ['a', '*', '^', '$']) (ascii ['b', 'a', '^']) := by
  have hfound : matchText (ascii ['a', '*', '^', '$', '\x00']) (ascii ['b', 'a', '^', '\x00']) =
      some true := by
    decide +kernel
  obtain ⟨b, hb, hiff⟩ := @match_iff (ascii ['a', '*', '^', '$']) (ascii ['b', 'a', '^']) [] []
    (by decide +kernel) (by decide +kernel)
  exact ⟨hfound, hiff.mp (Option.some_inj.mp (hb.symm.trans hfound))⟩

end Grep

end Xv6Fairness
