import Mathlib.Data.List.Induction
import Xv6Fairness.RingHistory
import Xv6Fairness.TransitionRuns

/-!
# The input of the console

Interrupts put bytes into a ring and move the end of the edited line, and readers take bytes from
its beginning. All three indices wrap at 2^32. The text that readers get is the committed part of
what editing makes of the accepted bytes. The echo of the input is not modelled.
-/

namespace Xv6Fairness

open RingHistory TransitionRuns

namespace Console

def INPUT_BUF : ℕ := 128

abbrev Bytes := List UInt8

def newline : UInt8 := 10

/-- `C(x)` -/
def control (x : Char) : UInt8 := UInt8.ofNat x.toNat - 64

/-- The variable `input`. -/
structure Input where
  buf : ℕ → UInt8
  r : UInt32
  w : UInt32
  e : UInt32

theorem sub_one_lt {e w : UInt32} (h : e ≠ w) : (e - 1 - w).toNat < (e - w).toNat := by
  have hne : e.toNat ≠ w.toNat := fun heq => h (UInt32.toNat_inj.mp heq)
  have he : e.toNat < 2 ^ 32 := e.toNat_lt
  have hw : w.toNat < 2 ^ 32 := w.toNat_lt
  rw [UInt32.toNat_sub, UInt32.toNat_sub, UInt32.toNat_sub]
  change (2 ^ 32 - w.toNat + (2 ^ 32 - 1 + e.toNat) % 2 ^ 32) % 2 ^ 32 < _
  omega

/-- The loop for `C('U')`. -/
def killLine (s : Input) : Input :=
  if s.e ≠ s.w ∧ s.buf ((s.e - 1).toNat % INPUT_BUF) ≠ newline then
    killLine { s with e := s.e - 1 }
  else s
termination_by (s.e - s.w).toNat
decreasing_by exact sub_one_lt ‹_ ∧ _›.1

/-- One pass of the loop of `consoleintr`. -/
def intrByte (s : Input) (c : UInt8) : Input :=
  if c = control 'P' then s
  else if c = control 'U' then killLine s
  else if c = control 'H' ∨ c = 0x7f then
    if s.e ≠ s.w then { s with e := s.e - 1 } else s
  else if c ≠ 0 ∧ s.e - s.r < 128 then
    let c := if c = 13 then newline else c
    let s := { s with buf := Function.update s.buf (s.e.toNat % INPUT_BUF) c, e := s.e + 1 }
    if c = newline ∨ c = control 'D' ∨ s.e = s.r + 128 then { s with w := s.e } else s
  else s

def consoleintr (s : Input) (bytes : Bytes) : Input := bytes.foldl intrByte s

/-- Why the loop of `consoleread` is left: there is nothing to read and `n` bytes are still to come,
or the call is done, with or without a control-D. -/
inductive Stop
  | asleep (n : ℕ)
  | done (eof : Bool)

/-- The loop of `consoleread` until it sleeps or the call is done, with `n` bytes to go and what is
stored at `dst`. -/
def readLoop (target : ℕ) : ℕ → Input → Bytes → Input × Bytes × Stop
  | 0, s, dst => (s, dst, .done false)
  | n + 1, s, dst =>
    if s.r = s.w then (s, dst, .asleep (n + 1))
    else
      let c := s.buf (s.r.toNat % INPUT_BUF)
      let s := { s with r := s.r + 1 }
      if c = control 'D' then
        (if n + 1 < target then { s with r := s.r - 1 } else s, dst, .done true)
      else if c = newline then (s, dst ++ [c], .done false)
      else readLoop target n s (dst ++ [c])

/-- What interrupts ask for: to remove the last byte, to remove the line, or to add a byte, which
may fill the buffer. -/
inductive Event
  | erase
  | kill
  | put (c : UInt8) (full : Bool)

/-- The text that is committed, and the line that is still edited. -/
structure Text where
  committed : Bytes
  line : Bytes

def Ends (c : UInt8) : Prop := c = newline ∨ c = control 'D'

instance (c : UInt8) : Decidable (Ends c) := inferInstanceAs (Decidable (_ ∨ _))

def Text.edit (t : Text) : Event → Text
  | .erase => { t with line := t.line.dropLast }
  | .kill => { t with line := [] }
  | .put c full =>
    if Ends c ∨ full then ⟨t.committed ++ t.line ++ [c], []⟩ else { t with line := t.line ++ [c] }

def edited (events : List Event) : Text := events.foldl Text.edit ⟨[], []⟩

/-- A byte is accepted where there is room for it. -/
def eventOf (s : Input) (c : UInt8) : List Event :=
  if c = control 'P' then []
  else if c = control 'U' then [.kill]
  else if c = control 'H' ∨ c = 0x7f then [.erase]
  else if c ≠ 0 ∧ s.e - s.r < 128 then
    [.put (if c = 13 then newline else c) (s.e + 1 = s.r + 128)]
  else []

def eventsOf (s : Input) : Bytes → List Event
  | [] => []
  | c :: cs => eventOf s c ++ eventsOf (intrByte s c) cs

/-- A call of `consoleread`. -/
structure Read where
  target : ℕ
  n : ℕ
  dst : Bytes

/-- The console with the calls in progress, and what has happened: the accepted input, the bytes
that readers got with `none` for a call that returned none, and what each finished call has taken.
-/
structure System where
  input : Input
  reads : ℕ → Option Read
  events : List Event
  given : List (Option UInt8)
  ended : List Bytes

def System.run (s : System) (pid : ℕ) (rd : Read) : System :=
  match readLoop rd.target rd.n s.input rd.dst with
  | (input, dst, .asleep n) =>
    { s with
      input := input
      reads := Function.update s.reads pid (some ⟨rd.target, n, dst⟩)
      given := s.given ++ (dst.drop rd.dst.length).map some }
  | (input, dst, .done eof) =>
    { s with
      input := input
      reads := Function.update s.reads pid none
      given := s.given ++ (dst.drop rd.dst.length).map some ++ (if dst = [] then [none] else [])
      ended := s.ended ++ [dst ++ if eof then [control 'D'] else []] }

inductive Step (s : System) : System → Prop
  | intr (bytes : Bytes) : Step s { s with
      input := consoleintr s.input bytes, events := s.events ++ eventsOf s.input bytes }
  | call (pid n : ℕ) (hn : 0 < n) (h : s.reads pid = none) : Step s { s with
      reads := Function.update s.reads pid (some ⟨n, n, []⟩) }
  | run (pid : ℕ) (rd : Read) (h : s.reads pid = some rd) : Step s (s.run pid rd)

def Initial (s : System) : Prop :=
  s.input.r = 0 ∧ s.input.w = 0 ∧ s.input.e = 0 ∧ (∀ pid, s.reads pid = none) ∧
    s.events = [] ∧ s.given = [] ∧ s.ended = []

def Reachable : System → Prop := Reaches Initial Step

/-- A control-D is for one call that returns no byte. -/
def mark (c : UInt8) : Option UInt8 := if c = control 'D' then none else some c

/-- The first `k` bytes of the committed text have been taken. -/
structure Tracks (s : Input) (k : ℕ) (t : Text) : Prop where
  le : k ≤ t.committed.length
  r : s.r = UInt32.ofNat k
  w : s.w = UInt32.ofNat t.committed.length
  e : s.e = UInt32.ofNat (t.committed ++ t.line).length
  holds : Holds INPUT_BUF s.buf k (t.committed ++ t.line)
  line : ∀ c ∈ t.line, ¬ Ends c

section Indices

variable {s : Input} {k m n : ℕ} {t : Text} {c : UInt8}

theorem length_concat {xs : Bytes} : (xs ++ [c]).length = xs.length + 1 := List.length_append

theorem toNat_sub_ofNat (hmn : m ≤ n) (hlt : n < m + 2 ^ 32) :
    (UInt32.ofNat n - UInt32.ofNat m).toNat = n - m := by
  rw [UInt32.toNat_sub, UInt32.toNat_ofNat', UInt32.toNat_ofNat']
  omega

theorem ofNat_inj_iff (hmn : m ≤ n) (hlt : n < m + 2 ^ 32) :
    UInt32.ofNat n = UInt32.ofNat m ↔ n = m := by
  rw [← UInt32.toNat_inj, UInt32.toNat_ofNat', UInt32.toNat_ofNat']
  exact counter_eq_iff hmn hlt

theorem ofNat_mod : (UInt32.ofNat n).toNat % INPUT_BUF = n % INPUT_BUF := by
  rw [UInt32.toNat_ofNat', INPUT_BUF]
  omega

theorem Tracks.room (h : Tracks s k t) : (t.committed ++ t.line).length ≤ k + 128 := h.holds.room

theorem Tracks.e_eq_w (h : Tracks s k t) : s.e = s.w ↔ t.line = [] := by
  have hroom := h.room
  have hle := h.le
  rw [List.length_append] at hroom
  rw [h.e, h.w, ofNat_inj_iff, List.length_append, ← List.length_eq_zero_iff]
  · omega
  · rw [List.length_append]
    omega
  · rw [List.length_append]
    omega

theorem Tracks.r_eq_w (h : Tracks s k t) : s.r = s.w ↔ k = t.committed.length := by
  have hroom := h.room
  rw [List.length_append] at hroom
  rw [h.r, h.w, eq_comm, ofNat_inj_iff h.le (by omega), eq_comm]

theorem Tracks.used (h : Tracks s k t) :
    (s.e - s.r).toNat = (t.committed ++ t.line).length - k := by
  have hroom := h.room
  rw [h.e, h.r, toNat_sub_ofNat h.holds.le (by omega)]

theorem Tracks.erase {l : Bytes} (h : Tracks s k ⟨t.committed, l ++ [c]⟩) :
    Tracks { s with e := s.e - 1 } k ⟨t.committed, l⟩ := by
  have hholds := h.holds
  have he := h.e
  have hle := h.le
  dsimp only at hholds he hle
  rw [← List.append_assoc] at hholds he
  have hlen : (t.committed ++ l ++ [c]).length = (t.committed ++ l).length + 1 := List.length_append
  refine ⟨h.le, h.r, h.w, ?_, ⟨?_, ?_, fun i hi hki => ?_⟩,
    fun d hd => h.line d (List.mem_append_left _ hd)⟩
  · dsimp only
    rw [he, hlen, UInt32.ofNat_add]
    exact UInt32.add_sub_cancel _ _
  · dsimp only
    rw [List.length_append]
    omega
  · have hroom := hholds.room
    dsimp only
    omega
  · dsimp only at hi
    rw [hholds.cell i (by omega) hki, List.getElem_append_left hi]

theorem killLine_tracks (h : Tracks s k t) : Tracks (killLine s) k { t with line := [] } := by
  obtain ⟨committed, line⟩ := t
  induction line using List.reverseRecOn generalizing s with
  | nil =>
      have heq : s.e = s.w := h.e_eq_w.mpr rfl
      rw [killLine, if_neg fun hloop => hloop.1 heq]
      exact h
  | append_singleton l c ih =>
      have hne : s.e ≠ s.w := fun heq => by
        have hnil := h.e_eq_w.mp heq
        dsimp only at hnil
        exact List.append_ne_nil_of_right_ne_nil l (List.cons_ne_nil c []) hnil
      have herase : Tracks { s with e := s.e - 1 } k ⟨committed, l⟩ :=
        Tracks.erase (t := ⟨committed, l⟩) h
      have hlast : s.buf ((s.e - 1).toNat % INPUT_BUF) = c := by
        have hcell := h.holds.cell (committed ++ l).length
        have he : s.e - 1 = UInt32.ofNat (committed ++ l).length := herase.e
        dsimp only at hcell
        rw [he, ofNat_mod]
        simp only [← List.append_assoc] at hcell
        rw [hcell (by rw [length_concat]; exact Nat.lt_succ_self _) herase.holds.le,
          List.getElem_concat_length]
        rfl
      have hc : c ≠ newline := fun hc => h.line c (List.mem_append_right l List.mem_cons_self)
          (.inl hc)
      rw [killLine, if_pos ⟨hne, hlast ▸ hc⟩]
      exact ih herase

theorem Tracks.put (h : Tracks s k t) (hroom : (t.committed ++ t.line).length < k + 128)
    (c : UInt8) :
    Holds INPUT_BUF (Function.update s.buf (s.e.toNat % INPUT_BUF) c) k
        (t.committed ++ t.line ++ [c]) ∧
      s.e + 1 = UInt32.ofNat (t.committed ++ t.line ++ [c]).length := by
  constructor
  · rw [h.e, ofNat_mod]
    exact h.holds.put hroom
  · rw [h.e, length_concat, UInt32.ofNat_add]
    rfl

theorem intrByte_tracks (h : Tracks s k t) :
    Tracks (intrByte s c) k ((eventOf s c).foldl Text.edit t) := by
  rw [intrByte, eventOf]
  by_cases hP : c = control 'P'
  · rw [if_pos hP, if_pos hP]
    exact h
  rw [if_neg hP, if_neg hP]
  by_cases hU : c = control 'U'
  · rw [if_pos hU, if_pos hU]
    exact killLine_tracks h
  rw [if_neg hU, if_neg hU]
  by_cases hH : c = control 'H' ∨ c = 0x7f
  · rw [if_pos hH, if_pos hH]
    rcases List.eq_nil_or_concat' t.line with hline | ⟨l, d, hline⟩
    · have hdrop : t.edit .erase = t := by
        rw [Text.edit, hline]
        exact congrArg (Text.mk t.committed) hline.symm
      rw [if_neg (not_not.mpr (h.e_eq_w.mpr hline)), List.foldl_cons, List.foldl_nil, hdrop]
      exact h
    · have hne : s.e ≠ s.w := fun heq =>
        List.append_ne_nil_of_right_ne_nil l (List.cons_ne_nil d [])
          (hline.symm.trans (h.e_eq_w.mp heq))
      have ht : t = ⟨t.committed, l ++ [d]⟩ := congrArg (Text.mk t.committed) hline
      rw [if_pos hne, List.foldl_cons, List.foldl_nil, Text.edit, hline, List.dropLast_concat]
      rw [ht] at h
      exact h.erase
  rw [if_neg hH, if_neg hH]
  by_cases hc : c ≠ 0 ∧ s.e - s.r < 128
  · have hroom : (t.committed ++ t.line).length < k + 128 := by
      have hlt := UInt32.lt_iff_toNat_lt.mp hc.2
      rw [h.used] at hlt
      change _ < 128 at hlt
      have hle := h.holds.le
      omega
    rw [if_pos hc, if_pos hc, List.foldl_cons, List.foldl_nil, Text.edit]
    dsimp only
    obtain ⟨hholds, he⟩ := h.put hroom (if c = 13 then newline else c)
    generalize (if c = 13 then newline else c) = d at hholds he ⊢
    by_cases hcommit : d = newline ∨ d = control 'D' ∨ s.e + 1 = s.r + 128
    · have hedit : Ends d ∨ decide (s.e + 1 = s.r + 128) = true := by
        rw [Ends, decide_eq_true_iff, or_assoc]
        exact hcommit
      rw [if_pos hcommit, if_pos hedit]
      refine ⟨?_, h.r, he, ?_, ?_, fun x hx => absurd hx List.not_mem_nil⟩
      · dsimp only
        exact hholds.le
      · dsimp only
        rw [List.append_nil, he]
      · dsimp only
        rw [List.append_nil]
        exact hholds
    · have hedit : ¬ (Ends d ∨ decide (s.e + 1 = s.r + 128) = true) := by
        rw [Ends, decide_eq_true_iff, or_assoc]
        exact hcommit
      rw [if_neg hcommit, if_neg hedit]
      refine ⟨h.le, h.r, h.w, ?_, ?_, fun x hx => ?_⟩
      · dsimp only
        rw [he, List.append_assoc]
      · dsimp only
        rw [← List.append_assoc]
        exact hholds
      · rcases List.mem_append.mp hx with hx | hx
        · exact h.line x hx
        · rw [List.mem_singleton.mp hx]
          exact fun hends => hcommit (hends.imp_right .inl)
  · rw [if_neg hc, if_neg hc]
    exact h

theorem consoleintr_tracks (bytes : Bytes) (h : Tracks s k t) :
    Tracks (consoleintr s bytes) k ((eventsOf s bytes).foldl Text.edit t) := by
  induction bytes generalizing s t with
  | nil => exact h
  | cons c bytes ih =>
      rw [eventsOf, List.foldl_append]
      exact ih (intrByte_tracks h)

theorem Tracks.take (h : Tracks s k t) (hk : k < t.committed.length) :
    s.buf (s.r.toNat % INPUT_BUF) = t.committed[k] ∧ Tracks { s with r := s.r + 1 } (k + 1) t := by
  have hlt : k < (t.committed ++ t.line).length := by
    rw [List.length_append]
    omega
  obtain ⟨hcell, hholds⟩ := h.holds.get hlt
  refine ⟨?_, hk, ?_, h.w, h.e, hholds, h.line⟩
  · rw [h.r, ofNat_mod, hcell, List.getElem_append_left hk]
  · dsimp only
    rw [h.r, UInt32.ofNat_add]
    rfl

/-- What a call has got when it sleeps or is done, where `k` bytes of the text had been taken before
and `k'` have been taken now. -/
def Served (t : Text) (target k k' : ℕ) (dst new : Bytes) : Stop → Prop
  | .asleep n => (dst ++ new).length + n = target ∧
      (t.committed.take k').map mark = (t.committed.take k).map mark ++ new.map some ∧
      ∀ c ∈ dst ++ new, ¬ Ends c
  | .done eof =>
      (t.committed.take k').map mark = (t.committed.take k).map mark ++ new.map some ++
        (if dst ++ new = [] then [none] else []) ∧
      ∀ c ∈ (dst ++ new ++ if eof then [control 'D'] else []).dropLast, ¬ Ends c

theorem map_mark_take (hk : k < t.committed.length) : (t.committed.take (k + 1)).map mark =
    (t.committed.take k).map mark ++ [mark t.committed[k]] := by
  rw [List.take_add_one, List.getElem?_eq_getElem hk, List.map_append]
  rfl

theorem readLoop_spec {target : ℕ} {dst : Bytes} (h : Tracks s k t) (hn : dst.length + n = target)
    (htarget : 0 < target) (hdst : ∀ c ∈ dst, ¬ Ends c) :
    ∃ k' new, (readLoop target n s dst).2.1 = dst ++ new ∧ Tracks (readLoop target n s dst).1 k' t ∧
      Served t target k k' dst new (readLoop target n s dst).2.2 := by
  induction n generalizing s k dst with
  | zero =>
      have hne : dst ++ [] ≠ [] := by
        rw [List.append_nil, ← List.length_pos_iff]
        omega
      refine ⟨k, [], (List.append_nil dst).symm, h, ?_, fun c hc => hdst c ?_⟩
      · rw [if_neg hne, List.map_nil, List.append_nil, List.append_nil]
      · rw [List.append_nil] at hc
        exact List.append_nil dst ▸ List.dropLast_subset _ hc
  | succ n ih =>
      rw [readLoop]
      by_cases hw : s.r = s.w
      · rw [if_pos hw]
        refine ⟨k, [], (List.append_nil dst).symm, h, ?_, ?_, fun c hc => hdst c ?_⟩
        · rw [List.append_nil]
          exact hn
        · rw [List.map_nil, List.append_nil]
        · exact List.append_nil dst ▸ hc
      have hk : k < t.committed.length := lt_of_le_of_ne h.le fun hk => hw (h.r_eq_w.mpr hk)
      obtain ⟨hcell, htake⟩ := h.take hk
      have hmark := map_mark_take hk
      rw [if_neg hw]
      dsimp only
      rw [hcell]
      generalize t.committed[k] = c at hmark ⊢
      by_cases hD : c = control 'D'
      · have hseen : ∀ x ∈ (dst ++ [] ++ [control 'D']).dropLast, ¬ Ends x := by
          rw [List.dropLast_concat, List.append_nil]
          exact hdst
        rw [if_pos hD]
        by_cases hsome : n + 1 < target
        · have hne : dst ++ [] ≠ [] := by
            rw [List.append_nil, ← List.length_pos_iff]
            omega
          have hr : s.r + 1 - 1 = s.r := UInt32.add_sub_cancel _ _
          rw [if_pos hsome]
          refine ⟨k, [], (List.append_nil dst).symm, ?_, ?_, hseen⟩
          · dsimp only
            rw [hr]
            exact h
          · rw [if_neg hne, List.map_nil, List.append_nil, List.append_nil]
        · have hnil : dst ++ [] = [] := by
            rw [List.append_nil, ← List.length_eq_zero_iff]
            omega
          rw [if_neg hsome]
          refine ⟨k + 1, [], (List.append_nil dst).symm, htake, ?_, hseen⟩
          rw [if_pos hnil, List.map_nil, List.append_nil, hmark, mark, if_pos hD]
      · rw [if_neg hD]
        have hmark' : mark c = some c := if_neg hD
        by_cases hline : c = newline
        · have hne : dst ++ [c] ≠ [] :=
            List.append_ne_nil_of_right_ne_nil dst (List.cons_ne_nil c [])
          rw [if_pos hline]
          refine ⟨k + 1, [c], rfl, htake, ?_, ?_⟩
          · rw [if_neg hne, List.append_nil, hmark, hmark']
            rfl
          · rw [if_neg Bool.false_ne_true, List.append_nil, List.dropLast_concat]
            exact hdst
        · have hends : ¬ Ends c := fun hends => hends.elim hline hD
          rw [if_neg hline]
          obtain ⟨k', new, hnew, htracks, hserved⟩ := @ih _ _ (dst ++ [c]) htake
            (by rw [List.length_append, List.length_singleton]; omega) fun x hx => by
              rcases List.mem_append.mp hx with hx | hx
              · exact hdst x hx
              · exact List.mem_singleton.mp hx ▸ hends
          refine ⟨k', c :: new, hnew.trans (List.append_assoc dst [c] new), htracks, ?_⟩
          cases hstop : (readLoop target n { s with r := s.r + 1 } (dst ++ [c])).2.2 with
          | asleep m =>
              rw [hstop] at hserved
              obtain ⟨hlen, htext, hnone⟩ := hserved
              rw [List.append_assoc, List.singleton_append] at hlen hnone
              refine ⟨hlen, ?_, hnone⟩
              rw [htext, hmark, hmark', List.append_assoc]
              rfl
          | done eof =>
              rw [hstop] at hserved
              obtain ⟨htext, hseen⟩ := hserved
              rw [List.append_assoc dst [c] new, List.singleton_append] at htext hseen
              refine ⟨?_, hseen⟩
              rw [htext, hmark, hmark', List.append_assoc (List.map mark _)]
              rfl

end Indices

section Runs

variable {s s' : System} {t : Text}

theorem committed_grows (events : List Event) :
    t.committed <+: (events.foldl Text.edit t).committed := by
  induction events generalizing t with
  | nil => exact List.prefix_rfl
  | cons ev events ih =>
      refine List.IsPrefix.trans ?_ ih
      cases ev with
      | erase => exact List.prefix_rfl
      | kill => exact List.prefix_rfl
      | put c full =>
          rw [Text.edit]
          split_ifs
          · rw [List.append_assoc]
            exact List.prefix_append _ _
          · exact List.prefix_rfl

theorem take_of_grown {α : Type*} {xs ys : List α} {k : ℕ} (h : xs <+: ys) (hk : k ≤ xs.length) :
    ys.take k = xs.take k := by
  obtain ⟨zs, rfl⟩ := h
  exact List.take_append_of_le_length hk

structure Inv (s : System) : Prop where
  tracks : ∃ k, Tracks s.input k (edited s.events) ∧
    s.given = ((edited s.events).committed.take k).map mark
  reads : ∀ pid rd, s.reads pid = some rd → rd.dst.length + rd.n = rd.target ∧ 0 < rd.target ∧
    ∀ c ∈ rd.dst, ¬ Ends c
  ended : ∀ seen ∈ s.ended, ∀ c ∈ seen.dropLast, ¬ Ends c

theorem Inv.initial (h : Initial s) : Inv s := by
  obtain ⟨hr, hw, he, hreads, hevents, hgiven, hended⟩ := h
  refine ⟨⟨0, ?_, ?_⟩, fun pid rd hrd => ?_, fun seen hseen => ?_⟩
  · rw [hevents]
    exact ⟨le_rfl, hr, hw, he, holds_nil, fun c hc => absurd hc List.not_mem_nil⟩
  · rw [hgiven, List.take_zero, List.map_nil]
  · cases (hreads pid).symm.trans hrd
  · rw [hended] at hseen
    exact absurd hseen List.not_mem_nil

theorem Inv.intr (h : Inv s) (bytes : Bytes) : Inv { s with
    input := consoleintr s.input bytes, events := s.events ++ eventsOf s.input bytes } := by
  obtain ⟨k, htracks, hgiven⟩ := h.tracks
  have hedited : edited (s.events ++ eventsOf s.input bytes) =
      (eventsOf s.input bytes).foldl Text.edit (edited s.events) := List.foldl_append
  refine ⟨⟨k, ?_, ?_⟩, h.reads, h.ended⟩
  · dsimp only
    rw [hedited]
    exact consoleintr_tracks bytes htracks
  · dsimp only
    rw [hedited, take_of_grown (committed_grows _) htracks.le]
    exact hgiven

theorem Inv.call (h : Inv s) {pid n : ℕ} (hn : 0 < n) : Inv { s with
    reads := Function.update s.reads pid (some ⟨n, n, []⟩) } := by
  refine ⟨h.tracks, fun pid' rd hrd => ?_, h.ended⟩
  dsimp only at hrd
  by_cases hpid : pid' = pid
  · rw [hpid, Function.update_self] at hrd
    cases hrd
    exact ⟨Nat.zero_add n, hn, fun c hc => absurd hc List.not_mem_nil⟩
  · rw [Function.update_of_ne hpid] at hrd
    exact h.reads pid' rd hrd

theorem Inv.run (h : Inv s) {pid : ℕ} {rd : Read} (hrd : s.reads pid = some rd) :
    Inv (s.run pid rd) := by
  obtain ⟨k, htracks, hgiven⟩ := h.tracks
  obtain ⟨hn, htarget, hdst⟩ := h.reads pid rd hrd
  obtain ⟨k', new, hnew, htracks', hserved⟩ := readLoop_spec htracks hn htarget hdst
  rw [System.run]
  cases hloop : readLoop rd.target rd.n s.input rd.dst with
  | mk input rest =>
    obtain ⟨dst, stop⟩ := rest
    rw [hloop] at hnew htracks' hserved
    dsimp only at hnew htracks' hserved
    have hdrop : dst.drop rd.dst.length = new := by
      rw [hnew, List.drop_left]
    cases stop with
    | asleep n =>
        obtain ⟨hlen, htext, hnone⟩ := hserved
        refine ⟨⟨k', htracks', ?_⟩, fun pid' rd' hrd' => ?_, h.ended⟩
        · dsimp only
          rw [hdrop, hgiven, htext]
        · dsimp only at hrd'
          by_cases hpid : pid' = pid
          · rw [hpid, Function.update_self] at hrd'
            cases hrd'
            dsimp only
            rw [hnew]
            exact ⟨hlen, htarget, hnone⟩
          · rw [Function.update_of_ne hpid] at hrd'
            exact h.reads pid' rd' hrd'
    | done eof =>
        obtain ⟨htext, hseen⟩ := hserved
        refine ⟨⟨k', htracks', ?_⟩, fun pid' rd' hrd' => ?_, fun seen hmem => ?_⟩
        · dsimp only
          rw [hdrop, hgiven, htext, hnew]
        · dsimp only at hrd'
          by_cases hpid : pid' = pid
          · rw [hpid, Function.update_self] at hrd'
            cases hrd'
          · rw [Function.update_of_ne hpid] at hrd'
            exact h.reads pid' rd' hrd'
        · rcases List.mem_append.mp hmem with hmem | hmem
          · exact h.ended seen hmem
          · rw [List.mem_singleton.mp hmem, hnew]
            exact hseen

theorem Reachable.inv (h : Reachable s) : Inv s := by
  refine Reaches.invariant (fun t (h0 : Initial t) => Inv.initial h0) (fun _ _ _ hinv hstep => ?_) h
  cases hstep with
  | intr bytes => exact hinv.intr bytes
  | call pid n hn _ => exact hinv.call hn
  | run pid rd hrd => exact hinv.run hrd

/-- The law of the console: the order of the indices, the bytes between them, what readers got, and
where reads stop. -/
structure Lawful (s : System) : Prop where
  order : s.input.w - s.input.r ≤ s.input.e - s.input.r ∧ s.input.e - s.input.r ≤ 128
  text : ∃ unread,
    (edited s.events).committed.map mark = s.given ++ unread.map mark ∧
    unread.length = (s.input.w - s.input.r).toNat ∧
    (unread ++ (edited s.events).line).length = (s.input.e - s.input.r).toNat ∧
    ∀ i (hi : i < (unread ++ (edited s.events).line).length),
      s.input.buf ((s.input.r + UInt32.ofNat i).toNat % INPUT_BUF) =
        (unread ++ (edited s.events).line)[i]
  ended : ∀ seen ∈ s.ended, ∀ c ∈ seen.dropLast, ¬ Ends c
  reading : ∀ pid rd, s.reads pid = some rd → ∀ c ∈ rd.dst, ¬ Ends c

/-- In every run what readers get is the committed text in order, with one empty read for each
control-D. -/
theorem console_lawful (h : Reachable s) : Lawful s := by
  obtain ⟨⟨k, htracks, hgiven⟩, hreads, hended⟩ := h.inv
  have hroom := htracks.room
  have hle := htracks.le
  have hlen : ((edited s.events).committed.drop k).length =
      (edited s.events).committed.length - k := List.length_drop
  have hused := htracks.used
  have hready : (s.input.w - s.input.r).toNat = (edited s.events).committed.length - k := by
    rw [List.length_append] at hroom
    rw [htracks.w, htracks.r, toNat_sub_ofNat hle (by omega)]
  have hrest : (edited s.events).committed.drop k ++ (edited s.events).line =
      ((edited s.events).committed ++ (edited s.events).line).drop k :=
    (List.drop_append_of_le_length hle).symm
  refine ⟨⟨?_, ?_⟩, ⟨(edited s.events).committed.drop k, ?_, ?_, ?_, fun i hi => ?_⟩, hended,
    fun pid rd hrd => (hreads pid rd hrd).2.2⟩
  · rw [UInt32.le_iff_toNat_le, hready, hused, List.length_append]
    omega
  · rw [UInt32.le_iff_toNat_le, hused]
    change _ ≤ 128
    omega
  · rw [hgiven, ← List.map_append, List.take_append_drop]
  · rw [hlen, hready]
  · rw [hrest, List.length_drop, hused]
  · have hcell := htracks.holds.cell (k + i)
    rw [hrest, List.length_drop] at hi
    have hindex : (s.input.r + UInt32.ofNat i).toNat % INPUT_BUF = (k + i) % INPUT_BUF := by
      rw [htracks.r, ← UInt32.ofNat_add, ofNat_mod]
    simp only [hrest, List.getElem_drop]
    rw [hindex]
    exact hcell (by omega) (Nat.le_add_right k i)

def start : System where
  input := ⟨fun _ => 0, 0, 0, 0⟩
  reads _ := none
  events := []
  given := []
  ended := []

/-- A control-D behind another byte, read by two calls. -/
theorem console_lawful_eof : ∃ s, Reachable s ∧ s.given = [some 97, none] ∧
    s.ended = [[97, 4], [4]] ∧
    Lawful s := by
  have h0 : Reachable start := .start ⟨rfl, rfl, rfl, fun _ => rfl, rfl, rfl, rfl⟩
  have h1 := h0.step (.intr [97, 4])
  have h2 := h1.step (.call 0 5 (by decide) rfl)
  have h3 := h2.step (.run 0 ⟨5, 5, []⟩ rfl)
  have h4 := h3.step (.call 1 5 (by decide) rfl)
  have h5 := h4.step (.run 1 ⟨5, 5, []⟩ rfl)
  exact ⟨_, h5, by decide +kernel, by decide +kernel, console_lawful h5⟩

end Runs

end Console

end Xv6Fairness
