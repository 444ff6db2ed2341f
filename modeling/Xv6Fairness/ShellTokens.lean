import Mathlib.Data.List.TakeWhile
import Mathlib.Tactic.SplitIfs
import Xv6Fairness.ByteStrings

/-!
# The tokens of a command line

`gettoken` and `peek` move a pointer over the command line. The tokens of a line are given without
pointers: a word is a maximal run of bytes that are neither whitespace nor symbols.
-/

namespace Xv6Fairness

namespace Shell

open ByteStrings

def whitespace : Bytes := ascii [' ', '\t', '\r', '\n', '\x0b']

def symbols : Bytes := ascii ['<', '|', '>', '&', ';', '(', ')']

def IsWord (b : UInt8) : Prop := b ∉ whitespace ∧ b ∉ symbols

instance : DecidablePred IsWord := fun _ => inferInstanceAs (Decidable (_ ∧ _))

def gt : UInt8 := 62   -- '>'

/-- What `gettoken` returns for a word. -/
def wordRet : UInt8 := 97   -- 'a'

/-- What `gettoken` returns for `>>`. -/
def appendRet : UInt8 := 43   -- '+'

section Code

variable (s : Bytes)

/-- `while(s < es && strchr(whitespace, *s)) s++;` -/
def skip (i : ℕ) : ℕ := i + ((s.drop i).takeWhile (· ∈ whitespace)).length

/-- The `switch` of `gettoken` on the bytes from `s` on: what is returned, and how far `s` moves. -/
def scan (u : Bytes) : UInt8 × ℕ :=
  let c := u.getD 0 0
  if c = 0 then (0, 0)
  else if c ∈ ascii ['|', '(', ')', ';', '&', '<'] then (c, 1)
  else if c = gt then if u.getD 1 0 = gt then (appendRet, 2) else (gt, 1)
  else (wordRet, (u.takeWhile fun b => decide (IsWord b)).length)

/-- A token and the pointer behind it. -/
structure Got where
  ret : UInt8
  q : ℕ
  eq : ℕ
  next : ℕ

def gettoken (i : ℕ) : Got :=
  let q := skip s i
  let r := scan (s.drop q)
  ⟨r.1, q, q + r.2, skip s (q + r.2)⟩

def peek (i : ℕ) (toks : Bytes) : Bool × ℕ :=
  let i := skip s i
  let c := s.getD i 0
  (decide (c ≠ 0 ∧ c ∈ toks), i)

end Code

inductive Token
  | word (w : Bytes)
  | symbol (c : UInt8)
  | append                  -- >>

inductive Tokens : Bytes → List Token → Prop
  | nil : Tokens [] []
  | space {b : UInt8} {u : Bytes} {ts : List Token} (hb : b ∈ whitespace) (h : Tokens u ts) :
      Tokens (b :: u) ts
  | symbol {c : UInt8} {u : Bytes} {ts : List Token} (hc : c ∈ symbols)
      (hgt : c = gt → u.head? ≠ some gt) (h : Tokens u ts) : Tokens (c :: u) (.symbol c :: ts)
  | append {u : Bytes} {ts : List Token} (h : Tokens u ts) : Tokens (gt :: gt :: u) (.append :: ts)
  | word {w u : Bytes} {ts : List Token} (hne : w ≠ []) (hw : ∀ b ∈ w, IsWord b)
      (hu : ∀ b, u.head? = some b → ¬ IsWord b) (h : Tokens u ts) : Tokens (w ++ u) (.word w :: ts)

namespace Token

/-- What `gettoken` returns for the token. -/
def ret : Token → UInt8
  | .word _ => wordRet
  | .symbol c => c
  | .append => appendRet

def text : Token → Bytes
  | .word w => w
  | .symbol c => [c]
  | .append => [gt, gt]

/-- The first byte, for a token that is a symbol. -/
def Starts (toks : Bytes) : Token → Prop
  | .word _ => False
  | .symbol c => c ∈ toks
  | .append => gt ∈ toks

instance (toks : Bytes) : DecidablePred (Starts toks) := fun t =>
  match t with
  | .word _ => .isFalse id
  | .symbol c => inferInstanceAs (Decidable (c ∈ toks))
  | .append => inferInstanceAs (Decidable (gt ∈ toks))

/-- A word ends where no byte of a word follows. -/
def Closed (rest : Bytes) : Token → Prop
  | .word w => (∀ b ∈ w, IsWord b) ∧ ∀ b, rest.head? = some b → ¬ IsWord b
  | .symbol c => c ∈ symbols
  | .append => True

end Token

section Tokens

variable {s u : Bytes} {ts : List Token} {i : ℕ}

theorem Token.ret_ne_zero {t : Token} {rest : Bytes} (h : t.Closed rest) : t.ret ≠ 0 := by
  cases t with
  | word w => exact (by decide : wordRet ≠ 0)
  | symbol c =>
      have hne : ∀ c ∈ symbols, c ≠ 0 := by decide +kernel
      exact hne c h
  | append => exact (by decide : appendRet ≠ 0)

theorem Token.word_of_ret {t : Token} {rest : Bytes} (h : t.Closed rest) (hret : t.ret = wordRet) :
    ∃ w, t = .word w := by
  cases t with
  | word w => exact ⟨w, rfl⟩
  | symbol c =>
      have hne : ∀ c ∈ symbols, c ≠ wordRet := by decide +kernel
      exact absurd hret (hne c h)
  | append => exact absurd hret (by decide)

theorem not_space_of_symbol {c : UInt8} (h : c ∈ symbols) : c ∉ whitespace := by
  revert c
  decide +kernel

theorem gt_mem : gt ∈ symbols := by decide

theorem Tokens.dropWhile (h : Tokens u ts) : Tokens (u.dropWhile (· ∈ whitespace)) ts := by
  induction h with
  | nil => exact .nil
  | space hb _ ih =>
      rw [List.dropWhile_cons_of_pos (by simpa using hb)]
      exact ih
  | symbol hc hgt h _ =>
      rw [List.dropWhile_cons_of_neg (by simpa using not_space_of_symbol hc)]
      exact .symbol hc hgt h
  | append h _ =>
      rw [List.dropWhile_cons_of_neg (by simpa using not_space_of_symbol gt_mem)]
      exact .append h
  | @word w u ts hne hw hu h _ =>
      obtain ⟨b, w, rfl⟩ := List.exists_cons_of_ne_nil hne
      rw [List.cons_append,
        List.dropWhile_cons_of_neg (by simpa using (hw b (List.mem_cons_self)).1)]
      exact .word hne hw hu h

theorem head_dropWhile (b : UInt8) (h : (u.dropWhile (· ∈ whitespace)).head? = some b) :
    b ∉ whitespace := by
  have hb := List.head?_dropWhile_not (· ∈ whitespace) u
  rw [h] at hb
  simpa using hb

theorem zero_of_symbol {c : UInt8} (h : c ∈ symbols) : c ≠ 0 := by
  revert c
  decide +kernel

theorem single_of_symbol {c : UInt8} (h : c ∈ symbols) (hgt : c ≠ gt) :
    c ∈ ascii ['|', '(', ')', ';', '&', '<'] := by
  revert c
  decide +kernel

theorem symbol_of_single {c : UInt8} (h : c ∈ ascii ['|', '(', ')', ';', '&', '<']) :
    c ∈ symbols := by
  revert c
  decide +kernel

theorem scan_symbol {c : UInt8} (hc : c ∈ symbols) (hgt : c = gt → u.head? ≠ some gt) :
    scan (c :: u) = (c, 1) := by
  simp only [scan, List.getD_cons_zero, if_neg (zero_of_symbol hc)]
  by_cases heq : c = gt
  · have hnext : u.getD 0 0 ≠ gt := by
      cases u with
      | nil => decide
      | cons b u => exact fun h => hgt heq (congrArg some h)
    subst heq
    rw [if_neg (by decide), if_pos rfl, List.getD_cons_succ, if_neg hnext]
  · rw [if_pos (single_of_symbol hc heq)]

theorem scan_append : scan (gt :: gt :: u) = (appendRet, 2) := by
  simp only [scan, List.getD_cons_zero, List.getD_cons_succ, if_true]
  rw [if_neg (by decide), if_neg (by decide)]

theorem scan_word {w : Bytes} (hne : w ≠ []) (hzero : (0 : UInt8) ∉ w) (hw : ∀ b ∈ w, IsWord b)
    (hu : ∀ b, u.head? = some b → ¬ IsWord b) : scan (w ++ u) = (wordRet, w.length) := by
  have hlen : ((w ++ u).takeWhile fun b => decide (IsWord b)).length = w.length := by
    rw [List.takeWhile_append_of_pos fun b hb => decide_eq_true (hw b hb)]
    cases u with
    | nil => rw [List.takeWhile_nil, List.append_nil]
    | cons b u => rw [List.takeWhile_cons_of_neg (by simpa using hu b rfl), List.append_nil]
  obtain ⟨b, w, rfl⟩ := List.exists_cons_of_ne_nil hne
  have hfirst : (b :: w ++ u).getD 0 0 = b := rfl
  have hb0 : b ≠ 0 := fun h => hzero (h ▸ List.mem_cons_self)
  have hb : b ∉ symbols := (hw b List.mem_cons_self).2
  have hgt : b ≠ gt := fun h => hb (h ▸ gt_mem)
  simp only [scan, hlen, hfirst]
  rw [if_neg hb0, if_neg fun h => hb (symbol_of_single h), if_neg hgt]

theorem Tokens.head (h : Tokens u ts) (hu : ∀ b, u.head? = some b → b ∉ whitespace)
    (hzero : (0 : UInt8) ∉ u) : ts = [] ∧ u = [] ∨ ∃ t ts' rest, ts = t :: ts' ∧
      u = t.text ++ rest ∧ Tokens rest ts' ∧ t.Closed rest ∧ t.text ≠ [] ∧
      scan u = (t.ret, t.text.length) := by
  cases h with
  | nil => exact .inl ⟨rfl, rfl⟩
  | space hb _ => exact absurd hb (hu _ rfl)
  | symbol hc hgt h =>
      exact .inr ⟨_, _, _, rfl, rfl, h, hc, List.cons_ne_nil _ _, scan_symbol hc hgt⟩
  | append h => exact .inr ⟨_, _, _, rfl, rfl, h, trivial, List.cons_ne_nil _ _, scan_append⟩
  | word hne hw hrest h =>
      have hword := scan_word hne (fun h => hzero (List.mem_append_left _ h)) hw hrest
      exact .inr ⟨_, _, _, rfl, rfl, h, ⟨hw, hrest⟩, hne, hword⟩

theorem Tokens.length_le (h : Tokens u ts) : ts.length ≤ u.length := by
  induction h with
  | nil => exact le_rfl
  | space _ _ ih => exact ih.trans (Nat.le_succ _)
  | symbol _ _ _ ih => exact Nat.succ_le_succ ih
  | append _ ih => exact (Nat.succ_le_succ ih).trans (Nat.le_succ _)
  | word hne _ _ _ ih =>
      have hpos := List.length_pos_of_ne_nil hne
      rw [List.length_append, List.length_cons]
      omega

theorem exists_tokens (u : Bytes) : ∃ ts, Tokens u ts := by
  induction hn : u.length using Nat.strong_induction_on generalizing u with
  | _ n ih =>
    have hshort : ∀ v : Bytes, v.length < u.length → ∃ ts, Tokens v ts := fun v hv =>
      ih v.length (hn ▸ hv) v rfl
    cases u with
    | nil => exact ⟨[], .nil⟩
    | cons b u =>
        obtain ⟨ts, hts⟩ := hshort u (Nat.lt_succ_self _)
        by_cases hb : b ∈ whitespace
        · exact ⟨ts, .space hb hts⟩
        by_cases hsymbol : b ∈ symbols
        · by_cases happend : b = gt ∧ u.head? = some gt
          · obtain ⟨rfl, hhead⟩ := happend
            obtain ⟨v, rfl⟩ := List.head?_eq_some_iff.mp hhead
            obtain ⟨ts, hts⟩ := hshort v (by simp only [List.length_cons]; omega)
            exact ⟨.append :: ts, .append hts⟩
          · exact ⟨.symbol b :: ts, .symbol hsymbol (fun hgt hhead => happend ⟨hgt, hhead⟩) hts⟩
        · have hword : IsWord b := ⟨hb, hsymbol⟩
          have hsplit := List.takeWhile_append_dropWhile (p := fun c => decide (IsWord c))
              (l := b :: u)
          have htake : (b :: u).takeWhile (fun c => decide (IsWord c)) ≠ [] := by
            rw [List.takeWhile_cons_of_pos (by simpa using hword)]
            exact List.cons_ne_nil _ _
          have hlen := congrArg List.length hsplit
          rw [List.length_append] at hlen
          have hpos := List.length_pos_of_ne_nil htake
          obtain ⟨ts, hts⟩ := hshort ((b :: u).dropWhile fun c => decide (IsWord c)) (by omega)
          have htokens := Tokens.word htake (fun c hc => ?_) (fun c hc => ?_) hts
          · rw [hsplit] at htokens
            exact ⟨_, htokens⟩
          · simpa using List.mem_takeWhile_imp hc
          · have hnot := List.head?_dropWhile_not (fun c => decide (IsWord c)) (b :: u)
            rw [hc] at hnot
            simpa using hnot

end Tokens

/-- What is left of the line from the pointer on are these tokens. -/
structure At (s : Bytes) (i : ℕ) (ts : List Token) : Prop where
  le : i ≤ s.length
  tokens : Tokens (s.drop i) ts

/-- The token and the tokens behind it. -/
structure Takes (s : Bytes) (g : Got) (t : Token) (ts : List Token) : Prop where
  ret : g.ret = t.ret
  next : At s g.next ts
  le : g.q ≤ g.eq
  end_le : g.eq ≤ s.length
  text : (s.drop g.q).take (g.eq - g.q) = t.text
  closed : t.Closed (s.drop g.eq)

section Pointer

variable {s toks : Bytes} {ts : List Token} {i : ℕ}

theorem drop_takeWhile (p : UInt8 → Bool) (u : Bytes) :
    u.drop (u.takeWhile p).length = u.dropWhile p :=
  calc u.drop (u.takeWhile p).length
      = (u.takeWhile p ++ u.dropWhile p).drop (u.takeWhile p).length := by
        rw [List.takeWhile_append_dropWhile]
    _ = u.dropWhile p := List.drop_left

theorem drop_skip : s.drop (skip s i) = (s.drop i).dropWhile (· ∈ whitespace) := by
  rw [skip, ← List.drop_drop, drop_takeWhile]

theorem At.skip (h : At s i ts) : At s (skip s i) ts := by
  refine ⟨?_, ?_⟩
  · have hlen := (List.takeWhile_prefix (l := s.drop i) (· ∈ whitespace)).length_le
    rw [List.length_drop] at hlen
    have hle := h.le
    unfold Shell.skip
    omega
  · rw [drop_skip]
    exact h.tokens.dropWhile

theorem head_skip (b : UInt8) (h : (s.drop (skip s i)).head? = some b) : b ∉ whitespace := by
  rw [drop_skip] at h
  exact head_dropWhile b h

variable (hzero : (0 : UInt8) ∉ s)

include hzero

theorem zero_not_mem_drop : (0 : UInt8) ∉ s.drop i := fun h => hzero (List.mem_of_mem_drop h)

theorem At.peek (h : At s i ts) (htoks : toks ⊆ symbols) : At s (Shell.peek s i toks).2 ts ∧
    ((Shell.peek s i toks).1 = true ↔ ∃ t ts', ts = t :: ts' ∧ t.Starts toks) := by
  refine ⟨h.skip, ?_⟩
  have hbyte : s.getD (Shell.skip s i) 0 = (s.drop (Shell.skip s i)).getD 0 0 := by simp
  rw [Shell.peek, decide_eq_true_iff, hbyte]
  rcases h.skip.tokens.head head_skip (zero_not_mem_drop hzero) with
    ⟨rfl, hu⟩ | ⟨t, ts', rest, rfl, hu, -, hclosed, hne, -⟩
  · rw [hu]
    exact iff_of_false (fun h => h.1 rfl) nofun
  · rw [hu]
    have hiff : (t.text ++ rest).getD 0 0 ∈ toks ↔ t.Starts toks := by
      cases t with
      | word w =>
          obtain ⟨b, w, rfl⟩ := List.exists_cons_of_ne_nil hne
          exact iff_of_false (fun h => (hclosed.1 b List.mem_cons_self).2 (htoks h)) id
      | symbol c => exact Iff.rfl
      | append => exact Iff.rfl
    constructor
    · rintro ⟨-, hmem⟩
      exact ⟨t, ts', rfl, hiff.mp hmem⟩
    · rintro ⟨t', ts'', heq, hstarts⟩
      obtain ⟨rfl, rfl⟩ := List.cons.inj heq
      have hmem := hiff.mpr hstarts
      exact ⟨zero_of_symbol (htoks hmem), hmem⟩

theorem At.peek_cases (h : At s i ts) (toks : Bytes) (htoks : toks ⊆ symbols) : ∃ j, At s j ts ∧
    ((Shell.peek s i toks = (true, j) ∧ ∃ t ts', ts = t :: ts' ∧ t.Starts toks) ∨
      Shell.peek s i toks = (false, j) ∧ ∀ t ts', ts = t :: ts' → ¬ t.Starts toks) := by
  obtain ⟨hat, hiff⟩ := h.peek hzero htoks
  refine ⟨(Shell.peek s i toks).2, hat, ?_⟩
  cases hp : (Shell.peek s i toks).1 with
  | true => exact .inl ⟨Prod.ext hp rfl, hiff.mp hp⟩
  | false =>
      refine .inr ⟨Prod.ext hp rfl, fun t ts' heq hstarts => ?_⟩
      rw [hiff.mpr ⟨t, ts', heq, hstarts⟩] at hp
      cases hp

theorem At.gettoken (h : At s i ts) : ts = [] ∧ (gettoken s i).ret = 0 ∧
      At s (gettoken s i).next [] ∨
    ∃ t ts', ts = t :: ts' ∧ Takes s (gettoken s i) t ts' := by
  have hskip := h.skip
  rcases hskip.tokens.head head_skip (zero_not_mem_drop hzero) with
    ⟨rfl, hu⟩ | ⟨t, ts', rest, rfl, hu, hrest, hclosed, hne, hscan⟩
  · have hscan : scan (s.drop (Shell.skip s i)) = (0, 0) := by
      rw [hu]
      rfl
    refine .inl ⟨rfl, congrArg Prod.fst hscan, ?_⟩
    have heq : Shell.skip s i + (scan (s.drop (Shell.skip s i))).2 =
        Shell.skip s i := by rw [hscan, add_zero]
    change At s (Shell.skip s (Shell.skip s i + (scan (s.drop (Shell.skip s i))).2)) []
    rw [heq]
    exact hskip.skip
  · have hq : (Shell.gettoken s i).q = Shell.skip s i := rfl
    have heq : (Shell.gettoken s i).eq = Shell.skip s i + t.text.length := by
      change _ + (scan (s.drop (Shell.skip s i))).2 = _
      rw [hscan]
    have hlen : (s.drop (Shell.skip s i)).length = t.text.length + rest.length := by
      rw [hu, List.length_append]
    rw [List.length_drop] at hlen
    have hpos : 0 < t.text.length := List.length_pos_of_ne_nil hne
    have hle : Shell.skip s i + t.text.length ≤ s.length := by omega
    have hdrop : s.drop (Shell.gettoken s i).eq = rest := by
      rw [heq, ← List.drop_drop, hu, List.drop_left]
    refine .inr ⟨t, ts', rfl, congrArg Prod.fst hscan, ?_, ?_, ?_, ?_, ?_⟩
    · have hat : At s (Shell.gettoken s i).eq ts' := ⟨heq ▸ hle, hdrop ▸ hrest⟩
      exact hat.skip
    · omega
    · rw [heq]
      exact hle
    · rw [hq, heq, Nat.add_sub_cancel_left, hu, List.take_left]
    · rw [hdrop]
      exact hclosed

theorem At.takes {t : Token} (h : At s i (t :: ts)) : Takes s (Shell.gettoken s i) t ts := by
  rcases h.gettoken hzero with ⟨heq, -⟩ | ⟨t', ts', heq, htakes⟩
  · cases heq
  · obtain ⟨rfl, rfl⟩ := List.cons.inj heq
    exact htakes

theorem At.peek_true {t : Token} (h : At s i (t :: ts)) (htoks : toks ⊆ symbols)
    (hstarts : t.Starts toks) : ∃ j, At s j (t :: ts) ∧ Shell.peek s i toks = (true, j) := by
  obtain ⟨j, hj, ⟨hp, -⟩ | ⟨-, hno⟩⟩ := h.peek_cases hzero toks htoks
  · exact ⟨j, hj, hp⟩
  · exact absurd hstarts (hno t ts rfl)

theorem At.peek_false (h : At s i ts) (toks : Bytes) (htoks : toks ⊆ symbols)
    (hno : ∀ t ts', ts = t :: ts' → ¬ t.Starts toks) : ∃ j, At s j ts ∧
    Shell.peek s i toks = (false, j) := by
  obtain ⟨j, hj, ⟨-, t, ts', heq, hstarts⟩ | ⟨hp, -⟩⟩ := h.peek_cases hzero toks htoks
  · exact absurd hstarts (hno t ts' heq)
  · exact ⟨j, hj, hp⟩

end Pointer

end Shell

end Xv6Fairness
