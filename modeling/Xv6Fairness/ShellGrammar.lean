import Mathlib.Logic.Function.Iterate
import Xv6Fairness.Outcomes
import Xv6Fairness.ShellParser

/-!
# The grammar of the shell

What the parser accepts, stated against a grammar over tokens. A derivation gives a tree with the
texts of its tokens; the tree of the parser has pointers into the line in their place. Every run of
the parser has a derivation behind it, and what the grammar derives is parsed where a token follows
that cannot continue it.
-/

namespace Xv6Fairness

namespace Shell

open ByteStrings Outcomes

def lt : UInt8 := 60       -- '<'
def bar : UInt8 := 124     -- '|'
def amp : UInt8 := 38      -- '&'
def semi : UInt8 := 59     -- ';'
def lparen : UInt8 := 40   -- '('
def rparen : UInt8 := 41   -- ')'

inductive Tree
  | exec (argv : List Bytes)
  | redir (cmd : Tree) (file : Bytes) (mode fd : ℕ)
  | pipe (left right : Tree)
  | list (left right : Tree)
  | back (cmd : Tree)
  deriving DecidableEq

structure Redir where
  file : Bytes
  mode : ℕ
  fd : ℕ

/-- Each later redirection is outside the earlier ones. -/
def Tree.wrap (c : Tree) (rs : List Redir) : Tree :=
  rs.foldl (fun c r => .redir c r.file r.mode r.fd) c

/-- `redir*` -/
inductive Redirs : List Token → List Redir → Prop
  | nil : Redirs [] []
  | input {w : Bytes} {ts : List Token} {rs : List Redir} (h : Redirs ts rs) :
      Redirs (.symbol lt :: .word w :: ts) (⟨w, O_RDONLY, 0⟩ :: rs)
  | output {w : Bytes} {ts : List Token} {rs : List Redir} (h : Redirs ts rs) :
      Redirs (.symbol gt :: .word w :: ts) (⟨w, O_WRONLY ||| O_CREATE, 1⟩ :: rs)
  | append {w : Bytes} {ts : List Token} {rs : List Redir} (h : Redirs ts rs) :
      Redirs (.append :: .word w :: ts) (⟨w, O_WRONLY ||| O_CREATE, 1⟩ :: rs)

/-- `(word redir*)*` -/
inductive Words : List Token → List Bytes → List Redir → Prop
  | nil : Words [] [] []
  | cons {w : Bytes} {ts ts' : List Token} {ws : List Bytes} {rs rs' : List Redir}
      (hr : Redirs ts rs) (h : Words ts' ws rs') :
      Words (.word w :: (ts ++ ts')) (w :: ws) (rs ++ rs')

inductive Nonterminal
  | line | pipe | exec

inductive Derives : Nonterminal → List Token → Tree → Prop
  | last {ts : List Token} {c : Tree} (n : ℕ) (h : Derives .pipe ts c) :
      Derives .line (ts ++ List.replicate n (.symbol amp)) (Tree.back^[n] c)
  | seq {ts ts' : List Token} {c c' : Tree} (n : ℕ) (h : Derives .pipe ts c)
      (h' : Derives .line ts' c') :
      Derives .line (ts ++ (List.replicate n (.symbol amp) ++ .symbol semi :: ts'))
        (.list (Tree.back^[n] c) c')
  | single {ts : List Token} {c : Tree} (h : Derives .exec ts c) : Derives .pipe ts c
  | pipe {ts ts' : List Token} {c c' : Tree} (h : Derives .exec ts c) (h' : Derives .pipe ts' c') :
      Derives .pipe (ts ++ .symbol bar :: ts') (.pipe c c')
  | block {ts ts' : List Token} {c : Tree} {rs : List Redir} (h : Derives .line ts c)
      (hr : Redirs ts' rs) : Derives .exec (.symbol lparen :: (ts ++ .symbol rparen :: ts'))
      (c.wrap rs)
  | exec {ts ts' : List Token} {ws : List Bytes} {rs rs' : List Redir} (hr : Redirs ts rs)
      (h : Words ts' ws rs') (hargs : ws.length < MAXARGS) :
      Derives .exec (ts ++ ts') ((Tree.exec ws).wrap (rs ++ rs'))

/-- The pointers are those of the text of a word in the line. -/
structure Spells (s : Bytes) (sp : Span) (w : Bytes) : Prop where
  le : sp.1 ≤ sp.2
  end_le : sp.2 ≤ s.length
  text : (s.drop sp.1).take (sp.2 - sp.1) = w
  closed : (Token.word w).Closed (s.drop sp.2)

inductive Denotes (s : Bytes) : Cmd → Tree → Prop
  | exec {argv : List Span} {ws : List Bytes} (h : List.Forall₂ (Spells s) argv ws) :
      Denotes s (.exec argv) (.exec ws)
  | redir {c : Cmd} {T : Tree} {file : Span} {w : Bytes} {mode fd : ℕ} (h : Denotes s c T)
      (hfile : Spells s file w) : Denotes s (.redir c file mode fd) (.redir T w mode fd)
  | pipe {c c' : Cmd} {T T' : Tree} (h : Denotes s c T) (h' : Denotes s c' T') :
      Denotes s (.pipe c c') (.pipe T T')
  | list {c c' : Cmd} {T T' : Tree} (h : Denotes s c T) (h' : Denotes s c' T') :
      Denotes s (.list c c') (.list T T')
  | back {c : Cmd} {T : Tree} (h : Denotes s c T) : Denotes s (.back c) (.back T)

section Trees

variable {s : Bytes} {c : Cmd} {T : Tree} {ws : List Bytes} {w : Bytes} {rs rs' : List Redir}
  {arg file : Span}

theorem wrap_append : T.wrap (rs ++ rs') = (T.wrap rs).wrap rs' := List.foldl_append

theorem Denotes.addArg (h : Denotes s c ((Tree.exec ws).wrap rs)) (harg : Spells s arg w) :
    Denotes s (c.addArg arg) ((Tree.exec (ws ++ [w])).wrap rs) := by
  induction rs using List.reverseRecOn generalizing c with
  | nil =>
      cases h with
      | exec hargv => exact .exec (List.rel_append hargv (.cons harg .nil))
  | append_singleton rs r ih =>
      rw [wrap_append] at h ⊢
      cases h with
      | redir h hfile => exact .redir (ih h) hfile

end Trees

section Sound

variable {s : Bytes} {ts : List Token} {i n argc : ℕ} {c : Cmd} {T : Tree} {t : Token} {g : Got}
  {ws : List Bytes} {w : Bytes} {rs : List Redir}

theorem Takes.spells (h : Takes s g (.word w) ts) : Spells s (g.q, g.eq) w :=
  ⟨h.le, h.end_le, h.text, h.closed⟩

theorem symbol_of_starts {b : UInt8} (hb : b ≠ gt) (h : t.Starts [b]) : t = .symbol b := by
  cases t with
  | word w => exact h.elim
  | symbol c => rw [List.mem_singleton.mp h]
  | append => exact absurd (List.mem_singleton.mp h).symm hb

theorem redirect_denotes {file : Span} (ht : t.Starts (ascii ['<', '>'])) (hc : Denotes s c T)
    (hfile : Spells s file w) : ∃ r, Denotes s (redirect c t.ret file) (T.wrap [r]) ∧
      ∀ ts rs, Redirs ts rs → Redirs (t :: .word w :: ts) (r :: rs) := by
  cases t with
  | word w => exact ht.elim
  | symbol b =>
      have hall : ∀ b ∈ ascii ['<', '>'], b = lt ∨ b = gt := by decide +kernel
      rcases hall b ht with rfl | rfl
      · exact ⟨⟨w, O_RDONLY, 0⟩, .redir hc hfile, fun _ _ => .input⟩
      · exact ⟨⟨w, O_WRONLY ||| O_CREATE, 1⟩, .redir hc hfile, fun _ _ => .output⟩
  | append => exact ⟨⟨w, O_WRONLY ||| O_CREATE, 1⟩, .redir hc hfile, fun _ _ => .append⟩

variable (hzero : (0 : UInt8) ∉ s)

include hzero

theorem parseredirs_ends (hat : At s i ts) (hc : Denotes s c T) (hn : ts.length < n) :
    Ends (· ≠ .depth) (parseredirs s n c i) fun r => ∃ t ts' rs, ts = t ++ ts' ∧ At s r.2 ts' ∧
      Redirs t rs ∧ Denotes s r.1 (T.wrap rs) := by
  induction n generalizing i ts c T with
  | zero => exact absurd hn (Nat.not_lt_zero _)
  | succ n ih =>
      obtain ⟨j, hj, ⟨hp, t, ts', rfl, hstarts⟩ | ⟨hp, hno⟩⟩ :=
        hat.peek_cases hzero (ascii ['<', '>']) (by decide)
      · rw [parseredirs, hp]
        simp only [if_true]
        have htakes := hj.takes hzero
        rcases htakes.next.gettoken hzero with ⟨rfl, hret, -⟩ | ⟨t₂, ts₂, rfl, htakes'⟩
        · rw [if_pos (by rw [hret]; decide)]
          exact .error nofun
        · by_cases hret : t₂.ret = wordRet
          · obtain ⟨w, rfl⟩ := Token.word_of_ret htakes'.closed hret
            rw [if_neg (not_not_intro (htakes'.ret.trans hret)), htakes.ret]
            obtain ⟨r, hr, hredirs⟩ := redirect_denotes hstarts hc htakes'.spells
            refine (ih htakes'.next hr (by simp only [List.length_cons] at hn; omega)).imp ?_
            rintro ⟨c', k⟩ ⟨t', ts', rs, rfl, hk, hrs, hc'⟩
            exact ⟨_, ts', r :: rs, rfl, hk, hredirs _ _ hrs, hc'⟩
          · rw [if_pos fun h => hret (htakes'.ret.symm.trans h)]
            exact .error nofun
      · rw [parseredirs, hp]
        exact .ok ⟨[], ts, [], rfl, hj, .nil, hc⟩

theorem parseargs_ends (hat : At s i ts) (hc : Denotes s c ((Tree.exec ws).wrap rs))
    (hn : ts.length < n) (hargc : argc = ws.length) (hargs : argc < MAXARGS) :
    Ends (· ≠ .depth) (parseargs s n c argc i) fun r => ∃ t ts' ws' rs', ts = t ++ ts' ∧
      At s r.2 ts' ∧ Words t ws' rs' ∧ (ws ++ ws').length < MAXARGS ∧
      Denotes s r.1 ((Tree.exec (ws ++ ws')).wrap (rs ++ rs')) := by
  subst hargc
  induction n generalizing i ts c ws rs with
  | zero => exact absurd hn (Nat.not_lt_zero _)
  | succ n ih =>
      obtain ⟨j, hj, ⟨hp, -⟩ | ⟨hp, hno⟩⟩ :=
        hat.peek_cases hzero (ascii ['|', ')', '&', ';']) (by decide)
      · rw [parseargs, hp]
        exact .ok ⟨[], ts, [], [], rfl, hj, .nil, by simpa using hargs, by simpa using hc⟩
      · rw [parseargs, hp]
        simp only [Bool.false_eq_true, if_false]
        rcases hj.gettoken hzero with ⟨rfl, hret, hnext⟩ | ⟨t, ts', rfl, htakes⟩
        · rw [if_pos hret]
          exact .ok ⟨[], [], [], [], rfl, hnext, .nil, by simpa using hargs, by simpa using hc⟩
        rw [if_neg fun h => Token.ret_ne_zero htakes.closed (htakes.ret.symm.trans h)]
        by_cases hret : t.ret = wordRet
        · obtain ⟨w, rfl⟩ := Token.word_of_ret htakes.closed hret
          rw [if_neg (not_not_intro (htakes.ret.trans hret))]
          by_cases hmax : ws.length + 1 ≥ MAXARGS
          · rw [if_pos hmax]
            exact .error nofun
          rw [if_neg hmax]
          rw [List.length_cons] at hn
          have hlen : (ws ++ [w]).length = ws.length + 1 := by simp
          refine (parseredirs_ends hzero htakes.next (hc.addArg htakes.spells) (by omega)).bind ?_
          rintro ⟨c', k⟩ ⟨t, ts', rs', rfl, hk, hrs, hc'⟩
          rw [← wrap_append] at hc'
          rw [List.length_append] at hn
          have hrest := ih hk hc' (by omega) (by omega)
          rw [hlen] at hrest
          refine hrest.imp ?_
          rintro ⟨c'', l⟩ ⟨t', ts', ws', rs'', rfl, hl, hws, hargs', hc''⟩
          rw [List.append_assoc, List.singleton_append] at hargs'
          rw [List.append_assoc, List.singleton_append, List.append_assoc] at hc''
          exact ⟨.word w :: (t ++ t'), ts', w :: ws', rs' ++ rs'', by simp, hl, .cons hrs hws,
            hargs', hc''⟩
        · rw [if_pos fun h => hret (htakes.ret.symm.trans h)]
          exact .error nofun

theorem parsebacks_ends (hat : At s i ts) (hc : Denotes s c T) (hn : ts.length < n) :
    Ends (· ≠ .depth) (parsebacks s n c i) fun r => ∃ m ts',
      ts = List.replicate m (.symbol amp) ++ ts' ∧ At s r.2 ts' ∧
      Denotes s r.1 (Tree.back^[m] T) := by
  induction n generalizing i ts c T with
  | zero => exact absurd hn (Nat.not_lt_zero _)
  | succ n ih =>
      obtain ⟨j, hj, ⟨hp, t, ts', rfl, hstarts⟩ | ⟨hp, -⟩⟩ :=
        hat.peek_cases hzero (ascii ['&']) (by decide)
      · obtain rfl := symbol_of_starts (b := amp) (by decide) hstarts
        rw [parsebacks, hp]
        simp only [if_true]
        have htakes := hj.takes hzero
        refine (ih htakes.next hc.back (by simp only [List.length_cons] at hn; omega)).imp ?_
        rintro ⟨c', k⟩ ⟨m, ts', rfl, hk, hc'⟩
        exact ⟨m + 1, ts', rfl, hk, hc'⟩
      · rw [parsebacks, hp]
        exact .ok ⟨0, ts, rfl, hj, hc⟩

/-- What a run of the parser that ends with a tree has found in the tokens. -/
def Parsed (s : Bytes) (N : Nonterminal) (ts : List Token) (r : Cmd × ℕ) : Prop :=
  ∃ t ts' T, ts = t ++ ts' ∧ At s r.2 ts' ∧ Derives N t T ∧ Denotes s r.1 T

/-- The function never reaches a bound that is above the number of tokens. -/
def Sound (s : Bytes) (N : Nonterminal) (need : ℕ) (parse : ℕ → Except Failure (Cmd × ℕ)) (n : ℕ) :
    Prop :=
  ∀ i ts, At s i ts → 4 * ts.length + need < n → Ends (· ≠ .depth) (parse i) (Parsed s N ts)

theorem parsepipe_sound (hexec : Sound s .exec 1 (parseexec s n) n)
    (hpipe : Sound s .pipe 2 (parsepipe s n) n) : Sound s .pipe 2 (parsepipe s (n + 1))
    (n + 1) := by
  intro i ts hat hn
  rw [parsepipe]
  refine (hexec i ts hat (by omega)).bind ?_
  rintro ⟨c, j⟩ ⟨t, ts', T, rfl, hj, hT, hc⟩
  rw [List.length_append] at hn
  obtain ⟨k, hk, ⟨hp, t₁, ts₁, rfl, hstarts⟩ | ⟨hp, -⟩⟩ :=
    hj.peek_cases hzero (ascii ['|']) (by decide)
  · obtain rfl := symbol_of_starts (b := bar) (by decide) hstarts
    simp only [hp, if_true]
    have htakes := hk.takes hzero
    rw [List.length_cons] at hn
    refine (hpipe _ _ htakes.next (by omega)).bind ?_
    rintro ⟨c', l⟩ ⟨t', ts', T', rfl, hl, hT', hc'⟩
    refine .ok ⟨t ++ .symbol bar :: t', ts', _, ?_, hl, .pipe hT hT', .pipe hc hc'⟩
    rw [List.append_assoc, List.cons_append]
  · simp only [hp, Bool.false_eq_true, if_false]
    exact .ok ⟨t, ts', T, rfl, hk, .single hT, hc⟩

theorem parseline_sound (hpipe : Sound s .pipe 2 (parsepipe s n) n)
    (hline : Sound s .line 3 (parseline s n) n) : Sound s .line 3 (parseline s (n + 1))
    (n + 1) := by
  intro i ts hat hn
  rw [parseline]
  refine (hpipe i ts hat (by omega)).bind ?_
  rintro ⟨c, j⟩ ⟨t, ts', T, rfl, hj, hT, hc⟩
  rw [List.length_append] at hn
  refine (parsebacks_ends hzero hj hc (by omega)).bind ?_
  rintro ⟨c₁, j₁⟩ ⟨m, ts₁, rfl, hj₁, hc₁⟩
  rw [List.length_append, List.length_replicate] at hn
  obtain ⟨k, hk, ⟨hp, t₂, ts₂, rfl, hstarts⟩ | ⟨hp, -⟩⟩ :=
    hj₁.peek_cases hzero (ascii [';']) (by decide)
  · obtain rfl := symbol_of_starts (b := semi) (by decide) hstarts
    simp only [hp, if_true]
    have htakes := hk.takes hzero
    rw [List.length_cons] at hn
    refine (hline _ _ htakes.next (by omega)).bind ?_
    rintro ⟨c', l⟩ ⟨t', ts', T', rfl, hl, hT', hc'⟩
    refine .ok ⟨_, ts', _, ?_, hl, .seq m hT hT', .list hc₁ hc'⟩
    simp only [List.append_assoc, List.cons_append]
  · simp only [hp, Bool.false_eq_true, if_false]
    refine .ok ⟨_, ts₁, _, ?_, hk, .last m hT, hc₁⟩
    rw [List.append_assoc]

theorem parseblock_sound (hline : Sound s .line 3 (parseline s n) n) :
    ∀ i ts, At s i (.symbol lparen :: ts) → 4 * ts.length + 4 < n + 1 →
      Ends (· ≠ .depth) (parseblock s (n + 1) i) (Parsed s .exec (.symbol lparen :: ts)) := by
  intro i ts hat hn
  obtain ⟨j, hj, ⟨hp, -⟩ | ⟨hp, hno⟩⟩ := hat.peek_cases hzero (ascii ['(']) (by decide)
  · rw [parseblock, hp]
    simp only [Bool.not_true, Bool.false_eq_true, if_false]
    have htakes := hj.takes hzero
    refine (hline _ _ htakes.next (by omega)).bind ?_
    rintro ⟨c, k⟩ ⟨t, ts', T, rfl, hk, hT, hc⟩
    rw [List.length_append] at hn
    obtain ⟨l, hl, ⟨hp', t₁, ts₁, rfl, hstarts⟩ | ⟨hp', -⟩⟩ :=
      hk.peek_cases hzero (ascii [')']) (by decide)
    · obtain rfl := symbol_of_starts (b := rparen) (by decide) hstarts
      simp only [hp', Bool.not_true, Bool.false_eq_true, if_false]
      have htakes' := hl.takes hzero
      rw [List.length_cons] at hn
      refine (parseredirs_ends hzero htakes'.next hc (by omega)).imp ?_
      rintro ⟨c', m⟩ ⟨t', ts', rs, rfl, hm, hrs, hc'⟩
      refine ⟨_, ts', _, ?_, hm, .block hT hrs, hc'⟩
      simp only [List.append_assoc, List.cons_append]
    · simp only [hp', Bool.not_false, if_true]
      exact .error (by rintro ⟨⟩)
  · exact absurd (List.mem_singleton.mpr rfl) (hno _ _ rfl)

theorem parseexec_sound (hline : Sound s .line 3 (parseline s n) n) :
    Sound s .exec 1 (parseexec s (n + 2)) (n + 2) := by
  intro i ts hat hn
  rw [parseexec]
  obtain ⟨j, hj, ⟨hp, t, ts', rfl, hstarts⟩ | ⟨hp, -⟩⟩ :=
    hat.peek_cases hzero (ascii ['(']) (by decide)
  · obtain rfl := symbol_of_starts (b := lparen) (by decide) hstarts
    simp only [hp, if_true]
    rw [List.length_cons] at hn
    exact parseblock_sound hzero hline j ts' hj (by omega)
  · simp only [hp, Bool.false_eq_true, if_false]
    refine (parseredirs_ends hzero hj (T := .exec []) (.exec .nil) (by omega)).bind ?_
    rintro ⟨c, k⟩ ⟨t, ts', rs, rfl, hk, hrs, hc⟩
    rw [List.length_append] at hn
    refine (parseargs_ends hzero hk hc (by omega) rfl (by decide)).imp ?_
    rintro ⟨c', l⟩ ⟨t', ts', ws, rs', rfl, hl, hws, hargs, hc'⟩
    refine ⟨_, ts', _, ?_, hl, .exec hrs hws hargs, hc'⟩
    rw [List.append_assoc]

theorem parse_sound (n : ℕ) : Sound s .line 3 (parseline s n) n ∧
    Sound s .pipe 2 (parsepipe s n) n ∧
    Sound s .exec 1 (parseexec s n) n := by
  induction n using Nat.strong_induction_on with
  | _ n ih =>
    match n, ih with
    | 0, _ => exact ⟨nofun, nofun, nofun⟩
    | 1, _ =>
        refine ⟨?_, ?_, ?_⟩
        all_goals exact fun i ts _ hn => absurd hn (by omega)
    | n + 2, ih =>
        obtain ⟨hline, hpipe, hexec⟩ := ih (n + 1) (by omega)
        exact ⟨parseline_sound hzero hpipe hline, parsepipe_sound hzero hexec hpipe,
          parseexec_sound hzero (ih n (by omega)).1⟩

end Sound

end Shell

end Xv6Fairness
