import Xv6Fairness.PatternMatching
import Xv6Fairness.TextLines

/-!
# The lines of `grep`

The input arrives in pieces, one for each successful `read`. `grep` looks for its pattern in the
lines of the buffer and moves the line that is not finished yet to the front. Where a piece brings
no end of line it drops what it has of that line, so that the output depends on how the input
arrives.
-/

namespace Xv6Fairness

open ByteStrings TextLines

namespace Grep

def newline : UInt8 := 10

def bufSize : ℕ := 1024

def strchr (c : UInt8) : Bytes → Option (Option ℕ)
  | [] => none
  | s :: rest =>
    if s = 0 then some none
    else if s = c then some (some 0)
    else (strchr c rest).map (Option.map (· + 1))

/-- The loop of `memmove`, which copies upwards. -/
def memmove (b : Bytes) (dst src : ℕ) : ℕ → Option Bytes
  | 0 => some b
  | n + 1 =>
    match b[src]? with
    | none => none
    | some c => (store b dst c).bind fun b => memmove b (dst + 1) (src + 1) n

theorem strchr_lt {c : UInt8} {s : Bytes} {k : ℕ} (h : strchr c s = some (some k)) :
    k < s.length := by
  induction s generalizing k with
  | nil => cases h
  | cons x s ih =>
      rw [strchr] at h
      rw [List.length_cons]
      split_ifs at h with hx hc
      · cases h
      · cases h
        exact Nat.succ_pos _
      · obtain ⟨o, ho, hmap⟩ := Option.map_eq_some_iff.mp h
        obtain ⟨j, hj, rfl⟩ := Option.map_eq_some_iff.mp hmap
        exact Nat.succ_lt_succ (ih (ho.trans (congrArg some hj)))

/-- The loop over the complete lines from `p` on, with what has been written. -/
def lineLoop (re buf : Bytes) (p : ℕ) (out : Bytes) : Option (Bytes × ℕ × Bytes) :=
  match _hq : strchr newline (buf.drop p) with
  | none => none
  | some none => some (buf, p, out)
  | some (some k) =>
    let q := p + k
    match matchText re ((buf.set q 0).drop p) with
    | none => none
    | some false => lineLoop re (buf.set q 0) (q + 1) out
    | some true =>
      lineLoop re (buf.set q newline) (q + 1)
        (out ++ ((buf.set q newline).drop p).take (q + 1 - p))
termination_by buf.length - p
decreasing_by
  all_goals
    have hk := strchr_lt _hq
    rw [List.length_drop] at hk
    rw [List.length_set]
    omega

def grep (re : Bytes) : List Bytes → Bytes → ℕ → Bytes → Option Bytes
  | [], _, _, out => some out
  | c :: cs, buf, m, out =>
    if c.length = 0 then some out
    else
      let m := m + c.length
      let buf := (buf.take (m - c.length) ++ c ++ buf.drop m).set m 0
      match lineLoop re buf 0 out with
      | none => none
      | some (buf, p, out) =>
        let m := if p = 0 then 0 else m
        if 0 < m then (memmove buf 0 p (m - p)).bind fun buf => grep re cs buf (m - p) out
        else grep re cs buf m out

/-- The pattern and the line are terminated. -/
def selects (re line : Bytes) : Bool := matchText (re ++ [0]) (line ++ [0]) = some true

variable {re rest' buf pre s out : Bytes} {c : UInt8} {p m : ℕ} {chunks : List Bytes}

theorem strchr_none {rest : Bytes} (h0 : ∀ x ∈ s, x ≠ 0) (hc : c ∉ s) :
    strchr c (s ++ 0 :: rest) = some none := by
  induction s with
  | nil => rfl
  | cons x s ih =>
      have hx0 : x ≠ 0 := h0 x List.mem_cons_self
      have hxc : x ≠ c := fun h => hc (h ▸ List.mem_cons_self)
      rw [List.cons_append, strchr, if_neg hx0, if_neg hxc,
        ih (fun y hy => h0 y (List.mem_cons_of_mem x hy)) fun h => hc (List.mem_cons_of_mem x h)]
      rfl

theorem strchr_some {rest : Bytes} (h0 : ∀ x ∈ s, x ≠ 0) (hc : c ∉ s) (hc0 : c ≠ 0) :
    strchr c (s ++ c :: rest) = some (some s.length) := by
  induction s with
  | nil => rw [List.nil_append, strchr, if_neg hc0, if_pos rfl, List.length_nil]
  | cons x s ih =>
      have hx0 : x ≠ 0 := h0 x List.mem_cons_self
      have hxc : x ≠ c := fun h => hc (h ▸ List.mem_cons_self)
      rw [List.cons_append, strchr, if_neg hx0, if_neg hxc,
        ih (fun y hy => h0 y (List.mem_cons_of_mem x hy)) fun h => hc (List.mem_cons_of_mem x h)]
      rfl

theorem memmove_spec {b : Bytes} {dst src : ℕ} (hds : dst ≤ src) (n : ℕ) (hn : src + n ≤ b.length) :
    ∃ b', memmove b dst src n = some b' ∧ b'.length = b.length ∧
      b'.take (dst + n) = b.take dst ++ (b.drop src).take n := by
  induction n generalizing b dst src with
  | zero => exact ⟨b, rfl, rfl, by rw [List.take_zero, List.append_nil, Nat.add_zero]⟩
  | succ n ih =>
      have hsrc : src < b.length := by omega
      have hdst : dst < b.length := by omega
      have hlen : (b.set dst b[src]).length = b.length := List.length_set
      obtain ⟨b', hmove, hlength, htake⟩ := ih (b := b.set dst b[src]) (Nat.succ_le_succ hds)
        (by rw [hlen]; omega)
      refine ⟨b', ?_, hlength.trans hlen, ?_⟩
      · rw [memmove, List.getElem?_eq_getElem hsrc]
        change (store b dst b[src]).bind _ = _
        rw [store_of_lt hdst]
        exact hmove
      · have hfirst : (b.set dst b[src]).take (dst + 1) = b.take dst ++ [b[src]] := by
          rw [List.take_add_one, List.take_set_of_le le_rfl, List.getElem?_set_self hdst]
          rfl
        have hrest : (b.set dst b[src]).drop (src + 1) = b.drop (src + 1) :=
          List.drop_set_of_lt (by omega)
        rw [show dst + (n + 1) = dst + 1 + n by omega, htake, hfirst, hrest, List.append_assoc,
          List.drop_eq_getElem_cons hsrc, List.take_succ_cons, List.singleton_append]

theorem matchText_append {line rest rest' : Bytes} (hre : ∀ x ∈ re, x ≠ 0)
    (hline : ∀ x ∈ line, x ≠ 0) :
    matchText (re ++ 0 :: rest) (line ++ 0 :: rest') = some (selects re line) := by
  obtain ⟨b, hb, hiff⟩ := @match_iff re line rest rest' hre hline
  obtain ⟨b', hb', hiff'⟩ := @match_iff re line [] [] hre hline
  have hbb' : b = b' := Bool.eq_iff_iff.mpr (hiff.trans hiff'.symm)
  have hselects : selects re line = b' := by
    rw [selects, hb']
    cases b' with
    | true => rfl
    | false => rfl
  rw [hb, hbb', hselects]

theorem lineLoop_end (h : strchr newline (buf.drop p) = some none) :
    lineLoop re buf p out = some (buf, p, out) := by
  rw [lineLoop.eq_def]
  split
  · next hq => cases h.symm.trans hq
  · rfl
  · next hq => cases h.symm.trans hq

theorem lineLoop_line {k : ℕ} {found : Bool} (h : strchr newline (buf.drop p) = some (some k))
    (hmatch : matchText re ((buf.set (p + k) 0).drop p) = some found) :
    lineLoop re buf p out =
      if found then
        lineLoop re (buf.set (p + k) newline) (p + k + 1)
          (out ++ ((buf.set (p + k) newline).drop p).take (k + 1))
      else lineLoop re (buf.set (p + k) 0) (p + k + 1) out := by
  rw [lineLoop.eq_def]
  split
  · next hq => cases h.symm.trans hq
  · next hq => cases h.symm.trans hq
  · next hq =>
      cases h.symm.trans hq
      dsimp only
      rw [hmatch]
      cases found with
      | false => rfl
      | true => rw [if_pos rfl, show p + k + 1 - p = k + 1 by omega]

theorem lineLoop_spec {rest : Bytes} (hre : ∀ x ∈ re, x ≠ 0) (hs : ∀ x ∈ s, x ≠ 0) :
    ∃ pre', lineLoop (re ++ 0 :: rest') (pre ++ (s ++ 0 :: rest)) pre.length out =
        some (pre' ++ (unfinished newline s ++ 0 :: rest), pre'.length,
          out ++ chosen newline (selects re) s) ∧
      pre'.length + (unfinished newline s).length = pre.length + s.length := by
  induction s using lines_induction (d := newline) generalizing pre out with
  | hrest s h =>
      refine ⟨pre, ?_, by rw [unfinished_of_notMem h]⟩
      rw [lineLoop_end, unfinished_of_notMem h, chosen_of_notMem h, List.append_nil]
      rw [List.drop_left]
      exact strchr_none hs h
  | hline l s h ih =>
      have hl : ∀ x ∈ l, x ≠ 0 := fun x hx => hs x (List.mem_append_left _ hx)
      have hs' : ∀ x ∈ s, x ≠ 0 := fun x hx => hs x
        (List.mem_append_right _ (List.mem_cons_of_mem newline hx))
      have hset : ∀ c, (pre ++ (l ++ newline :: s ++ 0 :: rest)).set (pre.length + l.length) c =
          pre ++ (l ++ c :: (s ++ 0 :: rest)) := by
        intro c
        rw [List.set_append_right _ _ (Nat.le_add_right _ _), Nat.add_sub_cancel_left,
          List.append_assoc, List.cons_append, List.set_append_right _ _ le_rfl, Nat.sub_self,
          List.set_cons_zero]
      have hfind : strchr newline ((pre ++ (l ++ newline :: s ++ 0 :: rest)).drop pre.length) =
          some (some l.length) := by
        rw [List.drop_left, List.append_assoc, List.cons_append]
        exact strchr_some hl h (by decide)
      have hmatch : matchText (re ++ 0 :: rest') (((pre ++ (l ++ newline :: s ++ 0 :: rest)).set
          (pre.length + l.length) 0).drop pre.length) = some (selects re l) := by
        rw [hset, List.drop_left]
        exact matchText_append hre hl
      have hnext : ∀ c, pre ++ (l ++ c :: (s ++ 0 :: rest)) = pre ++ l ++ [c] ++ (s ++ 0 :: rest) ∧
          pre.length + l.length + 1 = (pre ++ l ++ [c]).length := by
        intro c
        constructor
        · rw [List.append_assoc, List.append_assoc, List.singleton_append]
        · rw [List.length_append, List.length_append, List.length_singleton]
      rw [lineLoop_line hfind hmatch, chosen_append_cons h, unfinished_append_cons h, hset, hset]
      have hlength : ∀ c : UInt8, (pre ++ l ++ [c]).length + s.length =
          pre.length + (l ++ newline :: s).length := by
        intro c
        rw [List.length_append, List.length_append, List.length_append, List.length_singleton,
          List.length_cons]
        omega
      cases selects re l with
      | true =>
          obtain ⟨pre', hloop, hlen⟩ := @ih (pre ++ l ++ [newline])
            (out ++ (l ++ [newline])) hs'
          have hwritten : ((pre ++ (l ++ newline :: (s ++ 0 :: rest))).drop pre.length).take
              (l.length + 1) = l ++ [newline] := by
            rw [List.drop_left, List.take_append, List.take_of_length_le (Nat.le_succ _),
              Nat.add_sub_cancel_left, List.take_succ_cons, List.take_zero]
          rw [if_pos rfl, if_pos rfl, hwritten, (hnext newline).1, (hnext newline).2, hloop,
            List.append_assoc]
          exact ⟨pre', rfl, hlen.trans (hlength newline)⟩
      | false =>
          obtain ⟨pre', hloop, hlen⟩ := @ih (pre ++ l ++ [0]) out hs'
          rw [if_neg Bool.false_ne_true, if_neg Bool.false_ne_true, (hnext 0).1, (hnext 0).2, hloop,
            List.nil_append]
          exact ⟨pre', rfl, hlen.trans (hlength 0)⟩

/-- What stays in the buffer when a piece arrives behind `t`. -/
def kept (t c : Bytes) : Bytes := if newline ∈ c then unfinished newline (t ++ c) else []

/-- What is written when pieces arrive behind `t`. -/
def streamed (choose : Bytes → Bool) : Bytes → List Bytes → Bytes
  | _, [] => []
  | t, c :: cs => chosen newline choose (t ++ c) ++ streamed choose (kept t c) cs

/-- Each piece is not empty and fits into the free part of the buffer. -/
def Fits : Bytes → List Bytes → Prop
  | _, [] => True
  | t, c :: cs => c ≠ [] ∧ t.length + c.length < bufSize ∧ Fits (kept t c) cs

/-- Each piece before the one with the last end of line brings an end of line itself. -/
def Whole : List Bytes → Prop
  | [] => True
  | c :: cs => (newline ∈ cs.flatten → newline ∈ c) ∧ Whole cs

variable {t : Bytes} {cs : List Bytes} {choose : Bytes → Bool}

theorem notMem_kept {c : Bytes} : newline ∉ kept t c := by
  rw [kept]
  split_ifs
  · exact notMem_unfinished
  · exact List.not_mem_nil

theorem kept_ne_zero {c : Bytes} (ht : ∀ x ∈ t, x ≠ 0) (hc : ∀ x ∈ c, x ≠ 0) :
    ∀ x ∈ kept t c, x ≠ 0 := by
  intro x hx
  rw [kept] at hx
  split_ifs at hx
  · exact (List.mem_append.mp (mem_of_mem_unfinished hx)).elim (ht x) (hc x)
  · exact absurd hx List.not_mem_nil

theorem grep_cons {c : Bytes} (hre : ∀ x ∈ re, x ≠ 0) (hbuf : buf.length = bufSize)
    (htake : buf.take t.length = t) (ht : newline ∉ t) (ht0 : ∀ x ∈ t, x ≠ 0) (hc0 : ∀ x ∈ c, x ≠ 0)
    (hc : c ≠ []) (hroom : t.length + c.length < bufSize) :
    ∃ buf', buf'.length = bufSize ∧ buf'.take (kept t c).length = kept t c ∧
      grep (re ++ 0 :: rest') (c :: cs) buf t.length out =
        grep (re ++ 0 :: rest') cs buf' (kept t c).length
          (out ++ chosen newline (selects re) (t ++ c)) := by
  have hpos : 0 < c.length := List.length_pos_iff.mpr hc
  have hs0 : ∀ x ∈ t ++ c, x ≠ 0 := fun x hx => (List.mem_append.mp hx).elim (ht0 x) (hc0 x)
  obtain ⟨y, rest, hrest⟩ := List.exists_cons_of_length_pos
    (show 0 < (buf.drop (t.length + c.length)).length by rw [List.length_drop]; omega)
  have hstored : (buf.take (t.length + c.length - c.length) ++ c ++
      buf.drop (t.length + c.length)).set (t.length + c.length) 0 = t ++ c ++ 0 :: rest := by
    rw [Nat.add_sub_cancel, htake, hrest, ← List.length_append, List.set_append_right _ _ le_rfl,
      Nat.sub_self, List.set_cons_zero]
  have hlength : (t ++ c ++ 0 :: rest).length = bufSize := by
    have := congrArg List.length hrest
    rw [List.length_drop, List.length_cons] at this
    rw [List.length_append, List.length_append, List.length_cons]
    omega
  obtain ⟨pre', hloop, hpre⟩ := @lineLoop_spec re rest' [] (t ++ c) out rest hre hs0
  rw [List.nil_append, List.length_nil] at hloop
  rw [List.length_nil, Nat.zero_add, List.length_append] at hpre
  rw [grep, if_neg hpos.ne']
  dsimp only
  rw [hstored, hloop]
  dsimp only
  rw [kept]
  by_cases hnl : newline ∈ c
  · have hshort := length_unfinished_lt (List.mem_append_right t hnl)
    rw [List.length_append] at hshort
    have hp : pre'.length ≠ 0 := by omega
    have hm : 0 < t.length + c.length := by omega
    have hn : t.length + c.length - pre'.length = (unfinished newline (t ++ c)).length := by omega
    have hlen : (pre' ++ (unfinished newline (t ++ c) ++ 0 :: rest)).length = bufSize := by
      rw [← hlength, List.length_append, List.length_append, List.length_append,
        List.length_append, ← Nat.add_assoc, hpre]
    obtain ⟨buf', hmove, hlength', htake'⟩ := @memmove_spec
      (pre' ++ (unfinished newline (t ++ c) ++ 0 :: rest)) 0 pre'.length (Nat.zero_le _)
      (unfinished newline (t ++ c)).length
      (by rw [List.length_append, List.length_append, ← Nat.add_assoc]; omega)
    rw [if_neg hp, if_pos hm, if_pos hnl, hn, hmove]
    refine ⟨buf', hlength'.trans hlen, ?_, rfl⟩
    rw [Nat.zero_add, List.take_zero, List.nil_append, List.drop_left, List.take_left] at htake'
    exact htake'
  · have hnot : newline ∉ t ++ c := fun h => (List.mem_append.mp h).elim ht hnl
    rw [unfinished_of_notMem hnot, List.length_append] at hpre
    have hp : pre'.length = 0 := by omega
    have hnil : pre' = [] := List.length_eq_zero_iff.mp hp
    rw [if_pos hp, if_neg (lt_irrefl 0), if_neg hnl, hnil, unfinished_of_notMem hnot,
      List.nil_append]
    exact ⟨_, hlength, rfl, rfl⟩

theorem grep_eq_streamed (hre : ∀ x ∈ re, x ≠ 0) (hbuf : buf.length = bufSize)
    (htake : buf.take t.length = t) (ht : newline ∉ t) (ht0 : ∀ x ∈ t, x ≠ 0)
    (hcs0 : ∀ c ∈ cs, ∀ x ∈ c, x ≠ 0) (hfits : Fits t cs) :
    grep (re ++ 0 :: rest') cs buf t.length out = some (out ++ streamed (selects re) t cs) := by
  induction cs generalizing buf t out with
  | nil => rw [grep, streamed, List.append_nil]
  | cons c cs ih =>
      obtain ⟨hc, hroom, hfits⟩ := hfits
      have hc0 : ∀ x ∈ c, x ≠ 0 := hcs0 c List.mem_cons_self
      obtain ⟨buf', hbuf', htake', hgrep⟩ := @grep_cons re rest' buf out t cs c hre hbuf htake
        ht ht0 hc0 hc hroom
      rw [hgrep, ih hbuf' htake' notMem_kept (kept_ne_zero ht0 hc0)
        (fun d hd => hcs0 d (List.mem_cons_of_mem c hd)) hfits, streamed, List.append_assoc]

theorem whole_of_notMem (h : newline ∉ cs.flatten) : Whole cs := by
  induction cs with
  | nil => trivial
  | cons c cs ih =>
      have hcs : newline ∉ cs.flatten := fun hmem => h (List.mem_append_right c hmem)
      exact ⟨fun hmem => absurd hmem hcs, ih hcs⟩

theorem streamed_of_whole (ht : newline ∉ t) (hwhole : Whole cs) :
    streamed choose t cs = chosen newline choose (t ++ cs.flatten) := by
  induction cs generalizing t with
  | nil =>
      rw [streamed, List.flatten_nil, List.append_nil, chosen_of_notMem ht]
  | cons c cs ih =>
      rw [streamed, ih notMem_kept hwhole.2, List.flatten_cons, ← List.append_assoc,
        chosen_append (s := t ++ c), kept]
      by_cases hnl : newline ∈ c
      · rw [if_pos hnl]
      · have hrest : newline ∉ cs.flatten := fun h => hnl (hwhole.1 h)
        have hu : newline ∉ unfinished newline (t ++ c) ++ cs.flatten :=
          fun h => (List.mem_append.mp h).elim notMem_unfinished hrest
        rw [if_neg hnl, chosen_of_notMem hu, List.nil_append, chosen_of_notMem hrest]

theorem length_streamed_le (hfits : Fits t cs) (ht : newline ∉ t) :
    (streamed (fun _ => true) t cs).length ≤
        (chosen newline (fun _ => true) (t ++ cs.flatten)).length ∧
      ((streamed (fun _ => true) t cs).length =
        (chosen newline (fun _ => true) (t ++ cs.flatten)).length → Whole cs) := by
  induction cs generalizing t with
  | nil => exact ⟨Nat.zero_le _, fun _ => trivial⟩
  | cons c cs ih =>
      obtain ⟨hc, -, hfits⟩ := hfits
      obtain ⟨hle, hwhole⟩ := ih hfits notMem_kept
      rw [streamed, List.flatten_cons, ← List.append_assoc, List.length_append]
      by_cases hnl : newline ∈ c
      · rw [kept, if_pos hnl] at hle hwhole ⊢
        have hsplit := congrArg List.length (chosen_append (d := newline) (s := t ++ c)
          (t := cs.flatten) : chosen newline (fun _ => true) _ = _)
        rw [hsplit, List.length_append]
        exact ⟨Nat.add_le_add_left hle _, fun heq =>
          ⟨fun _ => hnl, hwhole (Nat.add_left_cancel heq)⟩⟩
      · have hnot : newline ∉ t ++ c := fun h => (List.mem_append.mp h).elim ht hnl
        rw [kept, if_neg hnl, List.nil_append] at hle
        rw [kept, if_neg hnl, chosen_of_notMem hnot, List.length_nil, Nat.zero_add]
        by_cases hrest : newline ∈ cs.flatten
        · have hpos : 0 < (t ++ c).length := List.length_pos_iff.mpr fun h =>
            hc (List.append_eq_nil_iff.mp h).2
          have hlength : ∀ s, (chosen newline (fun _ => true) s).length +
              (unfinished newline s).length = s.length := fun s => length_chosen fun _ => rfl
          have hall := hlength (t ++ c ++ cs.flatten)
          have hflat := hlength cs.flatten
          rw [unfinished_append hnot hrest, List.length_append] at hall
          exact ⟨by omega, fun heq => absurd heq (by omega)⟩
        · have hnone : newline ∉ t ++ c ++ cs.flatten :=
            fun h => (List.mem_append.mp h).elim hnot hrest
          rw [chosen_of_notMem hrest] at hle
          rw [chosen_of_notMem hnone]
          exact ⟨hle, fun _ => ⟨fun h => absurd h hrest, whole_of_notMem hrest⟩⟩

theorem selects_nil (line : Bytes) : selects [] line = true := by
  have hmatch : matchText [0] (line ++ [0]) = some true :=
    matchAnywhere_true matchhere_zero
  rw [selects, List.nil_append, hmatch]
  rfl

/-- For every pattern `grep` writes the selected lines of the input exactly where each piece before
the one with the last end of line brings an end of line. -/
theorem grep_output_iff (hbuf : buf.length = bufSize) (hcs0 : ∀ c ∈ cs, ∀ x ∈ c, x ≠ 0)
    (hfits : Fits [] cs) :
    (∀ re rest : Bytes, (∀ x ∈ re, x ≠ 0) →
        grep (re ++ 0 :: rest) cs buf 0 [] = some (chosen newline (selects re) cs.flatten)) ↔
      Whole cs := by
  have hgrep : ∀ re rest : Bytes, (∀ x ∈ re, x ≠ 0) →
      grep (re ++ 0 :: rest) cs buf 0 [] = some (streamed (selects re) [] cs) :=
    fun re rest hre => grep_eq_streamed (t := []) hre hbuf rfl List.not_mem_nil
      (fun x hx => absurd hx List.not_mem_nil) hcs0 hfits
  constructor
  · intro h
    have hall : selects [] = fun _ => true := funext selects_nil
    have hnil : ∀ x ∈ ([] : Bytes), x ≠ 0 := fun x hx => absurd hx List.not_mem_nil
    have heq := Option.some_inj.mp ((hgrep [] [] hnil).symm.trans (h [] [] hnil))
    rw [hall] at heq
    exact (length_streamed_le hfits List.not_mem_nil).2 (congrArg List.length heq)
  · intro hwhole re rest hre
    rw [hgrep re rest hre, streamed_of_whole List.not_mem_nil hwhole, List.nil_append]

theorem grep_output_iff_split :
    (∀ re rest : Bytes, (∀ x ∈ re, x ≠ 0) →
        grep (re ++ 0 :: rest) [ascii ['a', 'b', '\n', 'c'], ascii ['d', '\n']]
            (List.replicate bufSize 0) 0 [] =
          some (chosen newline (selects re) (ascii ['a', 'b', '\n', 'c', 'd', '\n']))) ↔
      Whole [ascii ['a', 'b', '\n', 'c'], ascii ['d', '\n']] := by
  refine grep_output_iff (List.length_replicate ..) (by decide +kernel) ?_
  exact ⟨by decide +kernel, by decide +kernel, by decide +kernel, by decide +kernel, trivial⟩

/-- A line that arrives in two pieces loses its first part. -/
theorem grep_drops_partial_line :
    Fits [] [ascii ['a'], ascii ['b', '\n']] ∧
      chosen newline (selects (ascii ['a'])) [ascii ['a'], ascii ['b', '\n']].flatten =
        ascii ['a', 'b', '\n'] ∧
      grep (ascii ['a', '\x00']) [ascii ['a'], ascii ['b', '\n']] (List.replicate bufSize 0) 0 [] =
        some [] := by
  refine ⟨?_, by decide +kernel, by decide +kernel⟩
  exact ⟨by decide +kernel, by decide +kernel, by decide +kernel, by decide +kernel, trivial⟩

end Grep

end Xv6Fairness
