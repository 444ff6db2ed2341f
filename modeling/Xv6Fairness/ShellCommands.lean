import Mathlib.Data.List.GetD
import Xv6Fairness.ShellGrammar

/-!
# Command lines

What the grammar derives is parsed, and after `nulterminate` the strings of the tree are the texts
of their tokens.
-/

namespace Xv6Fairness

namespace Shell

open ByteStrings Outcomes

/-- The symbols that may follow. -/
def follow : Nonterminal → Bytes
  | .line => ascii [')']
  | .pipe => ascii ['&', ';', ')']
  | .exec => ascii ['|', ')', '&', ';']

/-- A text that starts with none but these symbols, or is empty. -/
def Follows (toks : Bytes) (ts : List Token) : Prop := ∀ t ts', ts = t :: ts' → t.Starts toks

theorem redirs_not_follow : ∀ c ∈ follow .exec, c ∉ ascii ['<', '>'] := by decide +kernel

theorem lparen_not_redir : ∀ c ∈ ascii ['<', '>'], c ∉ ascii ['('] := by decide +kernel

section Follow

variable {toks toks' : Bytes} {t : Token} {ts ts' : List Token} {rs : List Redir} {ws : List Bytes}

theorem Token.Starts.mono (h : t.Starts toks) (hsub : toks ⊆ toks') : t.Starts toks' := by
  cases t with
  | word w => exact h.elim
  | symbol c => exact hsub h
  | append => exact hsub h

theorem Token.Starts.disjoint (h : t.Starts toks) (hdis : ∀ c ∈ toks, c ∉ toks') :
    ¬ t.Starts toks' := by
  cases t with
  | word w => exact id
  | symbol c => exact hdis c h
  | append => exact hdis gt h

theorem Follows.mono (h : Follows toks ts) (hsub : toks ⊆ toks') : Follows toks' ts :=
  fun t ts' heq => (h t ts' heq).mono hsub

theorem Follows.not_starts (h : Follows toks ts) (hdis : ∀ c ∈ toks, c ∉ toks') :
    ∀ t ts', ts = t :: ts' → ¬ t.Starts toks' :=
  fun t ts' heq => (h t ts' heq).disjoint hdis

theorem Follows.cons (h : t.Starts toks) : Follows toks (t :: ts) := by
  rintro t' ts' heq
  cases heq
  exact h

theorem Words.not_starts (h : Words ts ws rs) (hts' : ∀ t ts₁, ts' = t :: ts₁ → ¬ t.Starts toks) :
    ∀ t ts₁, ts ++ ts' = t :: ts₁ → ¬ t.Starts toks := by
  cases h with
  | nil => exact hts'
  | cons hr h =>
      rintro t ts₁ heq
      cases heq
      exact id

theorem Redirs.not_starts (h : Redirs ts rs) (htoks : ∀ c ∈ ascii ['<', '>'], c ∉ toks)
    (hts' : ∀ t ts₁, ts' = t :: ts₁ → ¬ t.Starts toks) :
    ∀ t ts₁, ts ++ ts' = t :: ts₁ → ¬ t.Starts toks := by
  cases h with
  | nil => exact hts'
  | input h =>
      rintro t ts₁ heq
      cases heq
      exact htoks lt (by decide)
  | output h | append h =>
      rintro t ts₁ heq
      cases heq
      exact htoks gt (by decide)

theorem follows_backs (m : ℕ) {ts : List Token} (h : Follows (follow .pipe) ts) :
    Follows (follow .pipe) (List.replicate m (.symbol amp) ++ ts) := by
  cases m with
  | zero => exact h
  | succ m => exact .cons (by decide)

end Follow

section Complete

variable {s : Bytes} {t ts' : List Token} {i n argc : ℕ} {c : Cmd} {T : Tree} {ws ws' : List Bytes}
  {rs rs' : List Redir}

variable (hzero : (0 : UInt8) ∉ s)

include hzero

theorem parseredirs_cons {t : Token} {w : Bytes} {ts : List Token}
    (ht : t.Starts (ascii ['<', '>']))
    (hat : At s i (t :: .word w :: ts)) : ∃ file k, Spells s file w ∧ At s k ts ∧
      ∀ n c, parseredirs s (n + 1) c i = parseredirs s n (redirect c t.ret file) k := by
  obtain ⟨j, hj, hp⟩ := hat.peek_true hzero (by decide) ht
  have htakes := hj.takes hzero
  have hfile := htakes.next.takes hzero
  refine ⟨_, _, hfile.spells, hfile.next, fun n c => ?_⟩
  have hret : (gettoken s (gettoken s j).next).ret = wordRet := hfile.ret
  rw [parseredirs, hp]
  simp only [if_true]
  rw [if_neg (not_not_intro hret), htakes.ret]

theorem parseredirs_complete (h : Redirs t rs) (hat : At s i (t ++ ts'))
    (hfollow : ∀ t ts, ts' = t :: ts → ¬ t.Starts (ascii ['<', '>'])) (hn : (t ++ ts').length < n)
    (hc : Denotes s c T) : Ends (fun _ => False) (parseredirs s n c i) fun r =>
      At s r.2 ts' ∧ Denotes s r.1 (T.wrap rs) := by
  induction h generalizing i n c T with
  | nil =>
      obtain ⟨n, rfl⟩ := Nat.exists_eq_succ_of_ne_zero (Nat.ne_zero_of_lt hn)
      obtain ⟨j, hj, hp⟩ := hat.peek_false hzero (ascii ['<', '>']) (by decide) hfollow
      rw [parseredirs, hp]
      exact .ok ⟨hj, hc⟩
  | input h ih | output h ih | append h ih =>
      obtain ⟨n, rfl⟩ := Nat.exists_eq_succ_of_ne_zero (Nat.ne_zero_of_lt hn)
      obtain ⟨file, k, hfile, hk, heq⟩ := parseredirs_cons hzero (by decide) hat
      rw [heq]
      simp only [List.cons_append, List.length_cons] at hn
      exact ih hk (by omega) (.redir hc hfile)

theorem parseargs_complete (h : Words t ws' rs') (hat : At s i (t ++ ts'))
    (hfollow : Follows (follow .exec) ts') (hn : (t ++ ts').length < n)
    (hargs : argc + ws'.length < MAXARGS) (hc : Denotes s c ((Tree.exec ws).wrap rs)) :
    Ends (fun _ => False) (parseargs s n c argc i) fun r =>
      At s r.2 ts' ∧ Denotes s r.1 ((Tree.exec (ws ++ ws')).wrap (rs ++ rs')) := by
  induction h generalizing i n c ws rs argc with
  | nil =>
      obtain ⟨n, rfl⟩ := Nat.exists_eq_succ_of_ne_zero (Nat.ne_zero_of_lt hn)
      rw [List.append_nil, List.append_nil]
      cases ts' with
      | nil =>
          obtain ⟨j, hj, hp⟩ := hat.peek_false hzero (follow .exec) (by decide) nofun
          rcases hj.gettoken hzero with ⟨-, hret, hnext⟩ | ⟨t, ts, heq, -⟩
          · change peek s i (ascii ['|', ')', '&', ';']) = (false, j) at hp
            rw [parseargs, hp]
            simp only [Bool.false_eq_true, if_false]
            rw [if_pos hret]
            exact .ok ⟨hnext, hc⟩
          · cases heq
      | cons t ts =>
          obtain ⟨j, hj, hp⟩ := hat.peek_true hzero (by decide) (hfollow t ts rfl)
          change peek s i (ascii ['|', ')', '&', ';']) = (true, j) at hp
          rw [parseargs, hp]
          exact .ok ⟨hj, hc⟩
  | @cons w t₁ t₂ ws' rs₁ rs₂ hr h ih =>
      obtain ⟨n, rfl⟩ := Nat.exists_eq_succ_of_ne_zero (Nat.ne_zero_of_lt hn)
      rw [List.cons_append, List.append_assoc] at hat hn
      rw [List.length_cons, List.length_append] at hn
      rw [List.length_cons] at hargs
      obtain ⟨j, hj, hp⟩ := hat.peek_false hzero (ascii ['|', ')', '&', ';']) (by decide) (by
        rintro t ts heq
        cases heq
        exact id)
      have htakes := hj.takes hzero
      have hret : (gettoken s j).ret = wordRet := htakes.ret
      rw [parseargs, hp]
      simp only [Bool.false_eq_true, if_false]
      rw [if_neg (by rw [hret]; decide), if_neg (not_not_intro hret), if_neg (by omega)]
      have hnot := h.not_starts (hfollow.not_starts redirs_not_follow)
      have hlen : (t₁ ++ (t₂ ++ ts')).length < n := by rw [List.length_append]; omega
      refine (parseredirs_complete hzero hr htakes.next hnot hlen (hc.addArg htakes.spells)).bind ?_
      rintro ⟨c', k⟩ ⟨hk, hc'⟩
      rw [← wrap_append] at hc'
      refine (ih hk (by omega) (by omega) hc').imp ?_
      rintro ⟨c'', l⟩ ⟨hl, hc''⟩
      rw [List.append_assoc, List.singleton_append, List.append_assoc] at hc''
      exact ⟨hl, hc''⟩

theorem parsebacks_complete (m : ℕ) (hat : At s i (List.replicate m (.symbol amp) ++ ts'))
    (hfollow : ∀ t ts, ts' = t :: ts → ¬ t.Starts (ascii ['&'])) (hn : m < n) (hc : Denotes s c T) :
    Ends (fun _ => False) (parsebacks s n c i) fun r =>
      At s r.2 ts' ∧ Denotes s r.1 (Tree.back^[m] T) := by
  induction m generalizing i n c T with
  | zero =>
      obtain ⟨n, rfl⟩ := Nat.exists_eq_succ_of_ne_zero (Nat.ne_zero_of_lt hn)
      obtain ⟨j, hj, hp⟩ := hat.peek_false hzero (ascii ['&']) (by decide) hfollow
      rw [parsebacks, hp]
      exact .ok ⟨hj, hc⟩
  | succ m ih =>
      obtain ⟨n, rfl⟩ := Nat.exists_eq_succ_of_ne_zero (Nat.ne_zero_of_lt hn)
      have hstarts : (Token.symbol amp).Starts (ascii ['&']) := List.mem_singleton.mpr rfl
      obtain ⟨j, hj, hp⟩ := hat.peek_true hzero (by decide) hstarts
      rw [parsebacks, hp]
      simp only [if_true]
      exact ih (hj.takes hzero).next (by omega) hc.back

/-- The function parses what the nonterminal derives where a symbol follows that cannot continue it.
-/
def Complete (s : Bytes) (N : Nonterminal) (t : List Token) (T : Tree) (need : ℕ)
    (parse : ℕ → ℕ → Except Failure (Cmd × ℕ)) : Prop :=
  ∀ i ts' n, At s i (t ++ ts') → Follows (follow N) ts' → 4 * (t ++ ts').length + need < n →
    Ends (fun _ => False) (parse n i) fun r => At s r.2 ts' ∧ Denotes s r.1 T

variable {t' : List Token} {T' : Tree}

theorem parsepipe_single (hexec : Complete s .exec t T 1 (parseexec s)) :
    Complete s .pipe t T 2 (parsepipe s) := by
  intro i ts' n hat hfollow hn
  obtain ⟨n, rfl⟩ := Nat.exists_eq_succ_of_ne_zero (Nat.ne_zero_of_lt hn)
  rw [parsepipe]
  refine (hexec i ts' n hat (hfollow.mono (by decide)) (by omega)).bind ?_
  rintro ⟨c, j⟩ ⟨hj, hc⟩
  obtain ⟨k, hk, hp⟩ := hj.peek_false hzero (ascii ['|']) (by decide)
    (hfollow.not_starts (by decide +kernel))
  simp only [hp, Bool.false_eq_true, if_false]
  exact .ok ⟨hk, hc⟩

theorem parsepipe_bar (hexec : Complete s .exec t T 1 (parseexec s))
    (hpipe : Complete s .pipe t' T' 2 (parsepipe s)) :
    Complete s .pipe (t ++ .symbol bar :: t') (.pipe T T') 2 (parsepipe s) := by
  intro i ts' n hat hfollow hn
  obtain ⟨n, rfl⟩ := Nat.exists_eq_succ_of_ne_zero (Nat.ne_zero_of_lt hn)
  rw [List.append_assoc, List.cons_append] at hat hn
  have hlen : (t ++ .symbol bar :: (t' ++ ts')).length = t.length + ((t' ++ ts').length + 1) := by
    rw [List.length_append, List.length_cons]
  have hbar : (Token.symbol bar).Starts (ascii ['|']) := by decide
  rw [parsepipe]
  refine (hexec i _ n hat (.cons (by decide)) (by omega)).bind ?_
  rintro ⟨c, j⟩ ⟨hj, hc⟩
  obtain ⟨k, hk, hp⟩ := hj.peek_true hzero (by decide) hbar
  simp only [hp, if_true]
  refine (hpipe _ ts' n (hk.takes hzero).next hfollow (by omega)).bind ?_
  rintro ⟨c', l⟩ ⟨hl, hc'⟩
  exact .ok ⟨hl, .pipe hc hc'⟩

theorem parseline_last (m : ℕ) (hpipe : Complete s .pipe t T 2 (parsepipe s)) :
    Complete s .line (t ++ List.replicate m (.symbol amp)) (Tree.back^[m] T) 3 (parseline s) := by
  intro i ts' n hat hfollow hn
  obtain ⟨n, rfl⟩ := Nat.exists_eq_succ_of_ne_zero (Nat.ne_zero_of_lt hn)
  rw [List.append_assoc] at hat hn
  have hlen : (t ++ (List.replicate m (Token.symbol amp) ++ ts')).length =
      t.length + (m + ts'.length) := by
    rw [List.length_append, List.length_append, List.length_replicate]
  rw [parseline]
  refine (hpipe i _ n hat (follows_backs m (hfollow.mono (by decide))) (by omega)).bind ?_
  rintro ⟨c, j⟩ ⟨hj, hc⟩
  refine (parsebacks_complete hzero m hj (hfollow.not_starts (by decide +kernel))
    (by omega) hc).bind ?_
  rintro ⟨c₁, j₁⟩ ⟨hj₁, hc₁⟩
  obtain ⟨k, hk, hp⟩ := hj₁.peek_false hzero (ascii [';']) (by decide)
    (hfollow.not_starts (by decide +kernel))
  simp only [hp, Bool.false_eq_true, if_false]
  exact .ok ⟨hk, hc₁⟩

theorem parseline_seq (m : ℕ) (hpipe : Complete s .pipe t T 2 (parsepipe s))
    (hline : Complete s .line t' T' 3 (parseline s)) :
    Complete s .line (t ++ (List.replicate m (.symbol amp) ++ .symbol semi :: t'))
      (.list (Tree.back^[m] T) T') 3 (parseline s) := by
  intro i ts' n hat hfollow hn
  obtain ⟨n, rfl⟩ := Nat.exists_eq_succ_of_ne_zero (Nat.ne_zero_of_lt hn)
  rw [List.append_assoc, List.append_assoc, List.cons_append] at hat hn
  have hlen : (t ++
      (List.replicate m (Token.symbol amp) ++ Token.symbol semi :: (t' ++ ts'))).length =
      t.length + (m + ((t' ++ ts').length + 1)) := by
    rw [List.length_append, List.length_append, List.length_replicate, List.length_cons]
  have hsemi : Follows (ascii [';']) (.symbol semi :: (t' ++ ts')) := .cons (by decide)
  rw [parseline]
  refine (hpipe i _ n hat (follows_backs m (hsemi.mono (by decide))) (by omega)).bind ?_
  rintro ⟨c, j⟩ ⟨hj, hc⟩
  refine (parsebacks_complete hzero m hj (hsemi.not_starts (by decide +kernel))
    (by omega) hc).bind ?_
  rintro ⟨c₁, j₁⟩ ⟨hj₁, hc₁⟩
  obtain ⟨k, hk, hp⟩ := hj₁.peek_true hzero (by decide) (hsemi _ _ rfl)
  simp only [hp, if_true]
  refine (hline _ ts' n (hk.takes hzero).next hfollow (by omega)).bind ?_
  rintro ⟨c', l⟩ ⟨hl, hc'⟩
  exact .ok ⟨hl, .list hc₁ hc'⟩

theorem parseexec_block (hline : Complete s .line t T 3 (parseline s)) (hrs : Redirs t' rs) :
    Complete s .exec (.symbol lparen :: (t ++ .symbol rparen :: t'))
    (T.wrap rs) 1 (parseexec s) := by
  intro i ts' n hat hfollow hn
  rw [List.cons_append, List.append_assoc, List.cons_append] at hat hn
  have hlen : (Token.symbol lparen :: (t ++ .symbol rparen :: (t' ++ ts'))).length =
      t.length + ((t' ++ ts').length + 1) + 1 := by
    rw [List.length_cons, List.length_append, List.length_cons]
  obtain ⟨n, rfl⟩ : ∃ m, n = m + 2 := ⟨n - 2, by omega⟩
  have hopen : (Token.symbol lparen).Starts (ascii ['(']) := by decide
  have hclose : (Token.symbol rparen).Starts (ascii [')']) := by decide
  obtain ⟨j, hj, hp⟩ := hat.peek_true hzero (by decide) hopen
  obtain ⟨k, hk, hp'⟩ := hj.peek_true hzero (by decide) hopen
  rw [parseexec]
  simp only [hp, if_true]
  rw [parseblock]
  simp only [hp', Bool.not_true, Bool.false_eq_true, if_false]
  refine (hline _ _ n (hk.takes hzero).next (.cons (by decide)) ?_).bind ?_
  · rw [List.length_append, List.length_cons]
    omega
  rintro ⟨c, l⟩ ⟨hl, hc⟩
  obtain ⟨m, hm, hp''⟩ := hl.peek_true hzero (by decide) hclose
  simp only [hp'', Bool.not_true, Bool.false_eq_true, if_false]
  exact parseredirs_complete hzero hrs (hm.takes hzero).next
    (hfollow.not_starts (by decide +kernel)) (by omega) hc

theorem parseexec_words (hrs : Redirs t rs) (hws : Words t' ws rs') (hargs : ws.length < MAXARGS) :
    Complete s .exec (t ++ t') ((Tree.exec ws).wrap (rs ++ rs')) 1 (parseexec s) := by
  intro i ts' n hat hfollow hn
  obtain ⟨n, rfl⟩ := Nat.exists_eq_succ_of_ne_zero (Nat.ne_zero_of_lt hn)
  rw [List.append_assoc] at hat hn
  have hlen : (t ++ (t' ++ ts')).length = t.length + (t' ++ ts').length := List.length_append
  have hnot := hrs.not_starts lparen_not_redir
    (hws.not_starts (hfollow.not_starts (by decide +kernel)))
  obtain ⟨j, hj, hp⟩ := hat.peek_false hzero _ (by decide) hnot
  rw [parseexec]
  simp only [hp, Bool.false_eq_true, if_false]
  have hnot' := hws.not_starts (hfollow.not_starts redirs_not_follow)
  refine (parseredirs_complete hzero hrs hj hnot' (by omega) (T := .exec []) (.exec .nil)).bind ?_
  rintro ⟨c, k⟩ ⟨hk, hc⟩
  exact parseargs_complete hzero hws hk hfollow (by omega) (by omega) hc

/-- The function of the parser for a nonterminal. -/
def parse (s : Bytes) : Nonterminal → ℕ → ℕ → Except Failure (Cmd × ℕ)
  | .line => parseline s
  | .pipe => parsepipe s
  | .exec => parseexec s

def Nonterminal.need : Nonterminal → ℕ
  | .line => 3
  | .pipe => 2
  | .exec => 1

theorem parse_complete {N : Nonterminal}
    (h : Derives N t T) : Complete s N t T N.need (parse s N) := by
  induction h with
  | last m _ hpipe => exact parseline_last hzero m hpipe
  | seq m _ _ hpipe hline => exact parseline_seq hzero m hpipe hline
  | single _ hexec => exact parsepipe_single hzero hexec
  | pipe _ _ hexec hpipe => exact parsepipe_bar hzero hexec hpipe
  | block _ hrs hline => exact parseexec_block hzero hline hrs
  | exec hrs hws hargs => exact parseexec_words hzero hrs hws hargs

end Complete

section Strings

variable {s m : Bytes} {c : Cmd} {T : Tree} {sp : Span} {w : Bytes} {i : ℕ}

/-- The tree as it is read from the memory behind its pointers. -/
def Cmd.read (m : Bytes) : Cmd → Tree
  | .exec argv => .exec (argv.map fun arg => cString (m.drop arg.1))
  | .redir cmd file mode fd => .redir (cmd.read m) (cString (m.drop file.1)) mode fd
  | .pipe left right => .pipe (left.read m) (right.read m)
  | .list left right => .list (left.read m) (right.read m)
  | .back cmd => .back (cmd.read m)

/-- The pointers behind the strings of the tree. -/
def Cmd.ends : Cmd → List ℕ
  | .exec argv => argv.map Prod.snd
  | .redir cmd file _ _ => cmd.ends ++ [file.2]
  | .pipe left right => left.ends ++ right.ends
  | .list left right => left.ends ++ right.ends
  | .back cmd => cmd.ends

/-- NUL bytes at these places. -/
def terminate (ends : List ℕ) (m : Bytes) : Bytes := ends.foldl (fun m i => m.set i 0) m

theorem terminate_append (ends ends' : List ℕ) (m : Bytes) :
    terminate (ends ++ ends') m = terminate ends' (terminate ends m) := List.foldl_append

theorem nulterminate_eq (c : Cmd) (m : Bytes) : nulterminate c m = terminate c.ends m := by
  induction c generalizing m with
  | exec argv => rw [nulterminate, Cmd.ends, terminate, List.foldl_map]
  | redir cmd file mode fd ih =>
      rw [nulterminate, Cmd.ends, terminate_append, ih]
      rfl
  | pipe left right ihl ihr | list left right ihl ihr =>
      rw [nulterminate, Cmd.ends, terminate_append, ihl, ihr]
  | back cmd ih => exact ih m

theorem terminate_cons (e : ℕ) (ends : List ℕ) (m : Bytes) :
    terminate (e :: ends) m = terminate ends (m.set e 0) := rfl

theorem getD_terminate (ends : List ℕ) (m : Bytes) (i : ℕ) :
    (terminate ends m).getD i 0 = if i ∈ ends then 0 else m.getD i 0 := by
  induction ends generalizing m with
  | nil =>
      rw [if_neg List.not_mem_nil]
      rfl
  | cons e ends ih =>
      rw [terminate_cons, ih]
      by_cases hi : i ∈ ends
      · rw [if_pos hi, if_pos (List.mem_cons_of_mem _ hi)]
      · rw [if_neg hi]
        by_cases hie : i = e
        · subst hie
          rw [if_pos List.mem_cons_self]
          by_cases hlen : i < m.length
          · simp [hlen]
          · simp [hlen]
        · rw [if_neg (by simp [hie, hi])]
          simp [List.getElem?_set_ne (Ne.symm hie)]

theorem length_terminate (ends : List ℕ) (m : Bytes) : (terminate ends m).length = m.length := by
  induction ends generalizing m with
  | nil => rfl
  | cons e ends ih => rw [terminate_cons, ih, List.length_set]

/-- The pointer is behind a token: no byte of a word is there. -/
def Behind (s : Bytes) (i : ℕ) : Prop := ∀ b, (s.drop i).head? = some b → ¬ IsWord b

theorem Denotes.behind (h : Denotes s c T) : ∀ e ∈ c.ends, Behind s e := by
  induction h with
  | exec hargv =>
      intro e he
      induction hargv with
      | nil => exact absurd he List.not_mem_nil
      | cons harg _ ih =>
          rcases List.mem_cons.mp he with rfl | he
          · exact harg.closed.2
          · exact ih he
  | redir _ hfile ih =>
      intro e he
      rcases List.mem_append.mp he with he | he
      · exact ih e he
      · rw [List.mem_singleton.mp he]
        exact hfile.closed.2
  | pipe _ _ ihl ihr | list _ _ ihl ihr =>
      intro e he
      exact (List.mem_append.mp he).elim (ihl e) (ihr e)
  | back _ ih => exact ih

theorem Spells.cString (h : Spells s sp w) (hzero : (0 : UInt8) ∉ s) {ends : List ℕ}
    (hends : ∀ e ∈ ends, Behind s e) (hmem : sp.2 ∈ ends) :
    cString ((terminate ends (s ++ [0])).drop sp.1) = w := by
  obtain ⟨hle, hend, rfl, hclosed⟩ := h
  set m := terminate ends (s ++ [0]) with hm
  have hlen : m.length = s.length + 1 := by rw [hm, length_terminate, List.length_append]; rfl
  have hbyte : ∀ i (hi : i < m.length), m[i] = if i ∈ ends then 0 else (s ++ [0]).getD i 0 := by
    intro i hi
    rw [← List.getD_eq_getElem m 0 hi, hm, getD_terminate]
  have hword : (m.drop sp.1).take (sp.2 - sp.1) = (s.drop sp.1).take (sp.2 - sp.1) := by
    apply List.ext_getElem
    · simp only [List.length_take, List.length_drop]
      omega
    · intro j hj hj'
      have hjlt : j < sp.2 - sp.1 := by
        rw [List.length_take] at hj
        omega
      have hlt : sp.1 + j < s.length := by omega
      have hmem' := List.getElem_mem hj'
      rw [List.getElem_take, List.getElem_drop] at hmem' ⊢
      rw [List.getElem_take, List.getElem_drop, hbyte]
      have hnot : sp.1 + j ∉ ends := by
        intro he
        refine hends _ he s[sp.1 + j] ?_ (hclosed.1 _ hmem')
        rw [List.head?_drop, List.getElem?_eq_getElem hlt]
      rw [if_neg hnot, List.getD_append _ _ _ _ hlt, List.getD_eq_getElem _ _ hlt]
  have hrest : (m.drop sp.1).drop (sp.2 - sp.1) = 0 :: m.drop (sp.2 + 1) := by
    have hlt : sp.2 < m.length := by omega
    rw [List.drop_drop, Nat.add_sub_cancel' hle, List.drop_eq_getElem_cons hlt, hbyte, if_pos hmem]
  rw [← List.take_append_drop (sp.2 - sp.1) (m.drop sp.1), hrest, hword]
  refine cString_append_zero fun c hc hc0 => hzero ?_
  exact hc0 ▸ List.mem_of_mem_drop (List.mem_of_mem_take hc)

theorem Denotes.read (h : Denotes s c T) (hzero : (0 : UInt8) ∉ s) {ends : List ℕ}
    (hends : ∀ e ∈ ends, Behind s e) (hsub : c.ends ⊆ ends) :
    c.read (terminate ends (s ++ [0])) = T := by
  induction h with
  | @exec argv ws hargv =>
      rw [Cmd.read]
      congr 1
      induction hargv with
      | nil => rfl
      | @cons arg w argv ws harg hargv ih =>
          have hend : arg.2 ∈ ends := hsub List.mem_cons_self
          have htail : (Cmd.exec argv).ends ⊆ ends := fun e he => hsub (List.mem_cons_of_mem _ he)
          rw [List.map_cons, harg.cString hzero hends hend, ih htail]
  | redir h hfile ih =>
      have hend := hsub (List.mem_append_right _ (List.mem_singleton.mpr rfl))
      rw [Cmd.read, ih fun e he => hsub (List.mem_append_left _ he), hfile.cString hzero hends hend]
  | pipe _ _ ihl ihr | list _ _ ihl ihr =>
      rw [Cmd.read, ihl fun e he => hsub (List.mem_append_left _ he),
        ihr fun e he => hsub (List.mem_append_right _ he)]
  | back _ ih => rw [Cmd.read, ih hsub]

end Strings

section Commands

variable {s : Bytes} {ts : List Token} {T : Tree} {c : Cmd}

theorem Denotes.read_nulterminate (h : Denotes s c T) (hzero : (0 : UInt8) ∉ s) :
    c.read (nulterminate c (s ++ [0])) = T := by
  rw [nulterminate_eq]
  exact h.read hzero h.behind (List.Subset.refl _)

theorem At.end_iff {i : ℕ} (h : At s (Shell.skip s i) ts) (hzero : (0 : UInt8) ∉ s) :
    Shell.skip s i = s.length ↔ ts = [] := by
  rcases h.tokens.head head_skip (zero_not_mem_drop hzero) with
    ⟨rfl, hu⟩ | ⟨t, ts', rest, rfl, hu, -, -, hne, -⟩
  · exact iff_of_true (le_antisymm h.le (List.drop_eq_nil_iff.mp hu)) rfl
  · refine iff_of_false (fun heq => hne ?_) (List.cons_ne_nil _ _)
    rw [heq, List.drop_length] at hu
    exact (List.append_eq_nil_iff.mp hu.symm).1

theorem parsecmd_ends (hzero : (0 : UInt8) ∉ s) (hts : Tokens s ts) :
    Ends (· ≠ .depth) (parsecmd s) fun r => ∃ T, Derives .line ts T ∧ r.1.read r.2 = T := by
  have hlen := hts.length_le
  rw [parsecmd]
  refine ((parse_sound hzero _).1 0 ts ⟨Nat.zero_le _, hts⟩ (by omega)).bind ?_
  rintro ⟨c, i⟩ ⟨t, ts', T, rfl, hi, hT, hc⟩
  by_cases hend : skip s i = s.length
  · obtain rfl := (hi.skip.end_iff hzero).mp hend
    simp only [peek, hend, ne_eq, not_true_eq_false, if_false]
    rw [List.append_nil]
    exact .ok ⟨T, hT, hc.read_nulterminate hzero⟩
  · simp only [peek, ne_eq, hend, not_false_eq_true, if_true]
    exact .error (by rintro ⟨⟩)

theorem parsecmd_complete (hzero : (0 : UInt8) ∉ s) (hts : Tokens s ts) (hT : Derives .line ts T) :
    Ends (fun _ => False) (parsecmd s) fun r => r.1.read r.2 = T := by
  have hlen := hts.length_le
  have hat : At s 0 (ts ++ []) := ⟨Nat.zero_le _, by rwa [List.append_nil, List.drop_zero]⟩
  have hneed : 4 * (ts ++ []).length + 3 < 4 * s.length + 4 := by
    rw [List.append_nil]
    omega
  rw [parsecmd]
  refine (parse_complete hzero hT 0 [] _ hat nofun hneed).bind ?_
  rintro ⟨c, i⟩ ⟨hi, hc⟩
  have hend : skip s i = s.length := (hi.skip.end_iff hzero).mpr rfl
  simp only [peek, hend, ne_eq, not_true_eq_false, if_false]
  exact .ok (hc.read_nulterminate hzero)

end Commands

/-- The parser returns a tree where the grammar derives the line, and else it calls `panic`; the
tree is the one of the derivation, with the texts of the tokens for its strings. -/
theorem parsecmd_iff {s : Bytes} (hzero : (0 : UInt8) ∉ s) :
    (∀ T, (∃ c m, parsecmd s = .ok (c, m) ∧ c.read m = T) ↔
      ∃ ts, Tokens s ts ∧ Derives .line ts T) ∧
    ∀ e, parsecmd s = .error e → ∃ msg, e = .panic msg := by
  have hat {ts : List Token} (hts : Tokens s ts) : At s 0 ts := ⟨Nat.zero_le _, hts⟩
  refine ⟨fun T => ⟨?_, ?_⟩, ?_⟩
  · rintro ⟨c, m, hparse, rfl⟩
    obtain ⟨ts, hts⟩ := exists_tokens s
    obtain ⟨T, hT, hread⟩ := (parsecmd_ends hzero hts).of_ok hparse
    rw [hread]
    exact ⟨ts, hts, hT⟩
  · rintro ⟨ts, hts, hT⟩
    obtain ⟨⟨c, m⟩, hparse, hread⟩ := (parsecmd_complete hzero hts hT).exists_ok
    exact ⟨c, m, hparse, hread⟩
  · intro e he
    obtain ⟨ts, hts⟩ := exists_tokens s
    cases e with
    | panic msg => exact ⟨msg, rfl⟩
    | depth => exact absurd rfl ((parsecmd_ends hzero hts).of_error he)

/-- The line `(a;b)>c|d e&`. -/
theorem parsecmd_iff_line : ∃ ts,
    Tokens (ascii ['(', 'a', ';', 'b', ')', '>', 'c', '|', 'd', ' ', 'e', '&']) ts ∧
      Derives .line ts (.back (.pipe
        (.redir (.list (.exec [ascii ['a']]) (.exec [ascii ['b']])) (ascii ['c'])
          (O_WRONLY ||| O_CREATE) 1)
        (.exec [ascii ['d'], ascii ['e']]))) := by
  refine ((parsecmd_iff (by decide)).1 _).mp ?_
  have hrun : (parsecmd
      (ascii ['(', 'a', ';', 'b', ')', '>', 'c', '|', 'd', ' ', 'e', '&'])).toOption.any
      (fun r => decide (r.1.read r.2 = .back (.pipe
        (.redir (.list (.exec [ascii ['a']]) (.exec [ascii ['b']])) (ascii ['c'])
          (O_WRONLY ||| O_CREATE) 1)
        (.exec [ascii ['d'], ascii ['e']])))) = true := by decide +kernel
  obtain ⟨⟨c, m⟩, hr, hread⟩ := (Option.any_eq_true _ _).mp hrun
  exact ⟨c, m, ok_of_toOption hr, of_decide_eq_true hread⟩

end Shell

end Xv6Fairness
