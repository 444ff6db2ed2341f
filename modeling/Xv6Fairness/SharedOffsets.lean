import Mathlib.Logic.Function.Basic
import Xv6Fairness.TransitionRuns
import Xv6Fairness.WriteTransactions

/-!
# Files that processes share

After `fork` two processes have the same `struct file`, and with it one offset. `filewrite` gives up
the inode between its transactions, so calls of several processes are under way on one structure at
a time. What goes through a structure that is alone on its inode is still one sequence of bytes.
-/

namespace Xv6Fairness

open Outcomes TransitionRuns

namespace FileBlocks

variable (L : Layout) (devsw : Devsw) {φ ι : Type}

section Model

variable [DecidableEq φ] [DecidableEq ι]

/-- A call of `filewrite` in its loop. The length is not negative, which `argptr` checks. -/
structure Job (φ : Type) where
  file : φ
  addr : ℕ → UInt8
  n : ℕ
  i : ℕ

/-- The structures by their `φ`, the processes by their `ι`. -/
structure Shared (φ ι : Type) where
  state : State
  file : φ → File L
  readable : φ → Bool
  job : ι → Option (Job φ)

inductive Event (φ ι : Type)
  | began (p : ι) (f : φ) (addr : ℕ → UInt8) (n : ℕ)
  | wrote (p : ι) (f : φ) (bytes : List UInt8)
  | returned (p : ι) (addr : ℕ → UInt8) (n : ℕ) (r : ℤ)
  | read (p : ι) (f : φ) (answer : Answer)

inductive Action (φ ι : Type)
  | filewrite (p : ι) (f : φ) (addr : ℕ → UInt8) (n : ℕ)
  | run (p : ι)                                             -- the next pass of the loop
  | fileread (p : ι) (f : φ) (n : UInt32)

namespace Shared

variable {L}

/-- What comes behind the loop. -/
def finish (s : Shared L φ ι) (p : ι) (j : Job φ) : Option (Event φ ι) × Shared L φ ι :=
  (some (.returned p j.addr j.n (if j.i = j.n then j.n else -1)),
    { s with job := Function.update s.job p none })

/-- `f->off += r` -/
def advance (s : Shared L φ ι) (f : φ) (state : State) (r : ℤ) : Shared L φ ι :=
  { s with state, file := Function.update s.file f ((s.file f).advance r) }

/-- A pass of the loop is one transaction. -/
def runJob (s : Shared L φ ι) (p : ι) (j : Job φ) :
    Except WritePanic (Option (Event φ ι) × Shared L φ ι) :=
  if j.i < j.n then
    let n1 := chunk j.n j.i
    let src := fun k => j.addr (j.i + k)
    let f := s.file j.file
    match FileBlocks.step L devsw s.state (.writei f.ip src f.off (UInt32.ofNat n1)) with
    | .error e => .error (.inode e)
    | .ok ((r, _), state) =>
      let s := s.advance j.file state r
      if r < 0 then .ok (s.finish p j)
      else if r ≠ n1 then .error .shortWrite
      else .ok (some (.wrote p j.file ((List.range n1).map src)),
        { s with job := Function.update s.job p (some { j with i := j.i + n1 }) })
  else .ok (s.finish p j)

/-- A process does one call at a time, and structures of other types are left out. -/
def step (s : Shared L φ ι) : Action φ ι → Except WritePanic (Option (Event φ ι) × Shared L φ ι)
  | .filewrite p f addr n =>
    match s.job p, (s.file f).type with
    | none, .FD_INODE =>
      if ¬ (s.file f).writable then .ok (some (.returned p addr n (-1)), s)
      else .ok (some (.began p f addr n),
        { s with job := Function.update s.job p (some ⟨f, addr, n, 0⟩) })
    | _, _ => .ok (none, s)
  | .run p =>
    match s.job p with
    | none => .ok (none, s)
    | some j => s.runJob devsw p j
  | .fileread p f n =>
    match s.job p, (s.file f).type with
    | none, .FD_INODE =>
      if s.readable f = false then .ok (some (.read p f (-1, [])), s)
      else match FileBlocks.step L devsw s.state (.readi (s.file f).ip (s.file f).off n) with
      | .error e => .error (.inode e)
      | .ok ((r, bytes), state) => .ok (some (.read p f (r, bytes)), s.advance f state r)
    | _, _ => .ok (none, s)

end Shared

/-- What has happened, the last event first, and the state. -/
abbrev Record (φ ι : Type) := List (Event φ ι) × Shared L φ ι

variable {L} in
def Record.step (x : Record L φ ι) (a : Action φ ι) : Except WritePanic (Record L φ ι) := do
  let (e, s) ← x.2.step devsw a
  .ok (e.toList ++ x.1, s)

variable {L} in
abbrev Record.Next (x y : Record L φ ι) : Prop := ∃ a, Record.step devsw x a = .ok y

def Event.bytes (f : φ) : Event φ ι → List UInt8
  | .wrote _ g bytes => if g = f then bytes else []
  | .read _ g (_, bytes) => if g = f then bytes else []
  | _ => []

/-- The bytes that were written or read through `f`, in order. -/
def traffic (f : φ) : List (Event φ ι) → List UInt8
  | [] => []
  | e :: es => traffic f es ++ e.bytes f

/-- The bytes that the last `filewrite` of a process has written. -/
def sent (p : ι) : List (Event φ ι) → List UInt8
  | [] => []
  | .began q _ _ _ :: es => if q = p then [] else sent p es
  | .wrote q _ bytes :: es => if q = p then sent p es ++ bytes else sent p es
  | .returned _ _ _ _ :: es => sent p es
  | .read _ _ _ :: es => sent p es

end Model

section Transactions

variable {L devsw} {s t : State} {k : Fin L.ninodes} {bytes : List UInt8} {o : ℕ} {r : ℤ}

theorem overwrite_self {n : ℕ} : overwrite bytes o ((bytes.drop o).take n) = bytes := by
  rw [overwrite, List.append_assoc, List.length_take, ← List.drop_drop,
    List.take_eq_take_min (l := bytes.drop o), List.take_append_drop, List.take_append_drop]

theorem length_le_overwrite {a : List UInt8} (ho : o ≤ bytes.length) :
    bytes.length ≤ (overwrite bytes o a).length := by
  rw [overwrite, List.length_append, List.length_append, List.length_take, List.length_drop,
    min_eq_left ho]
  omega

/-- Bytes go from or to a file at offset `o`. -/
structure Passed (s : State) (k : Fin L.ninodes) (o : ℕ) (bytes : List UInt8) (r : ℤ) (t : State) :
    Prop where
  inv : Inv L t
  type : ∀ j < L.ninodes, (L.dinode t.disk j).type = (L.dinode s.disk j).type
  contents : contents L t = Function.update (contents L s) k (overwrite (contents L s k) o bytes)
  result : r = bytes.length ∨ r = -1 ∧ bytes = []
  bound : o + bytes.length < 2 ^ 32

theorem Passed.refused {call : FileCall L} {answer : Answer} (h : Simulated L s call (answer, t))
    (hfiles : FileBlocks.contents L t = FileBlocks.contents L s) (hr : r = -1) (ho : o < 2 ^ 32) :
    Passed s k o [] r t where
  inv := h.inv
  type := h.type
  contents := by rw [hfiles, overwrite_nil, Function.update_eq_self]
  result := .inr ⟨hr, rfl⟩
  bound := ho

theorem write_passed {src : ℕ → UInt8} {off n : UInt32} {answer : Answer}
    (h : Simulated L s (.write k src off n) (answer, t)) :
    ∃ bytes, Passed s k off.toNat bytes answer.1 t ∧
      (answer.1 = -1 ∨ answer.1 = n.toNat ∧ bytes = (List.range n.toNat).map src) := by
  have hstep := h.step
  rw [Files.step] at hstep
  split_ifs at hstep with hfits
  · obtain ⟨hr, hfiles⟩ := Prod.ext_iff.mp hstep
    have hanswer : answer.1 = n.toNat := (congrArg Prod.fst hr).symm
    refine ⟨_, ⟨h.inv, h.type, hfiles.symm, .inl ?_, ?_⟩, .inr ⟨hanswer, rfl⟩⟩
    · rw [hanswer, List.length_map, List.length_range]
    · rw [List.length_map, List.length_range]
      exact hfits.2.trans_lt (by decide)
  · obtain ⟨hr, hfiles⟩ := Prod.ext_iff.mp hstep
    have hanswer : answer.1 = -1 := (congrArg Prod.fst hr).symm
    exact ⟨[], .refused h hfiles.symm hanswer off.toNat_lt, .inl hanswer⟩

theorem read_passed {off n : UInt32} {answer : Answer}
    (h : Simulated L s (.read k off n) (answer, t)) :
    Passed s k off.toNat answer.2 answer.1 t := by
  have hstep := h.step
  rw [Files.step] at hstep
  split_ifs at hstep with hfits
  · obtain ⟨hr, hfiles⟩ := Prod.ext_iff.mp hstep
    change contents L s = contents L t at hfiles
    rw [← show _ = answer from hr]
    refine ⟨h.inv, h.type, ?_, .inl rfl, ?_⟩
    · rw [overwrite_self, Function.update_eq_self, hfiles]
    · rw [List.length_take, List.length_drop]
      omega
  · obtain ⟨hr, hfiles⟩ := Prod.ext_iff.mp hstep
    rw [← show _ = answer from hr]
    exact .refused h hfiles.symm rfl off.toNat_lt

theorem Passed.advance {f : File L} (h : Passed s k f.off.toNat bytes r t) :
    (f.advance r).off.toNat = f.off.toNat + bytes.length := by
  rcases h.result with hr | ⟨hr, rfl⟩
  · rcases Nat.eq_zero_or_pos bytes.length with hzero | hpos
    · rw [hr, hzero]
      rfl
    · have hlt : bytes.length < 2 ^ 32 := (Nat.le_add_left _ _).trans_lt h.bound
      rw [hr, File.advance_natCast hpos hlt]
      change (f.off + UInt32.ofNat bytes.length).toNat = _
      rw [UInt32.toNat_add, UInt32.toNat_ofNat', Nat.mod_eq_of_lt hlt, Nat.mod_eq_of_lt h.bound]
  · rw [hr]
    rfl

theorem File.advance_ip {f : File L} : (f.advance r).ip = f.ip := by
  rw [File.advance]
  split_ifs
  · rfl
  · rfl

end Transactions

section Tape

variable [DecidableEq φ] {L devsw} {s' s₀ : Shared L φ ι} {x : Record L φ ι} {f g : φ} {p : ι}
  {j : Job φ} {e : Event φ ι}

/-- The file at structure `f` is the one at the start, with what went through `f` written at the
place that `f` was at. -/
structure Tape (s₀ : Shared L φ ι) (f : φ) (x : Record L φ ι) : Prop where
  start : (s₀.file f).off.toNat ≤ (FileBlocks.contents L s₀.state (s₀.file f).ip).length
  contents : contents L x.2.state (s₀.file f).ip = overwrite (contents L s₀.state (s₀.file f).ip)
    (s₀.file f).off.toNat (traffic f x.1)
  off : (x.2.file f).off.toNat = (s₀.file f).off.toNat + (traffic f x.1).length

/-- The structures refer to regular files and are not behind their ends. -/
structure Shares (s₀ : Shared L φ ι) (x : Record L φ ι) : Prop where
  inv : Inv L x.2.state
  ip : ∀ g, (x.2.file g).ip = (s₀.file g).ip
  regular : ∀ g, (L.dinode x.2.state.disk (x.2.file g).ip).type = T_FILE
  within : ∀ g, (x.2.file g).off.toNat ≤ (contents L x.2.state (x.2.file g).ip).length
  tape : ∀ f, (∀ g, (s₀.file g).ip = (s₀.file f).ip → g = f) → Tape s₀ f x

theorem Shares.keep (h : Shares s₀ x) (hstate : s'.state = x.2.state) (hfile : s'.file = x.2.file)
    {es : List (Event φ ι)} (hbytes : ∀ f, traffic f es = traffic f x.1) : Shares s₀ (es, s') := by
  obtain ⟨hinv, hip, hregular, hwithin, htape⟩ := h
  constructor
  · rw [hstate]
    exact hinv
  · rw [hfile]
    exact hip
  · rw [hstate, hfile]
    exact hregular
  · rw [hstate, hfile]
    exact hwithin
  · intro f hf
    obtain ⟨hstart, hcontents, hoff⟩ := htape f hf
    refine ⟨hstart, ?_, ?_⟩
    · rw [hstate, hbytes]
      exact hcontents
    · rw [hfile, hbytes]
      exact hoff

theorem Shares.advance {t : State} {bytes : List UInt8} {r : ℤ} (h : Shares s₀ x)
    (hp : Passed x.2.state (x.2.file g).ip (x.2.file g).off.toNat bytes r t) (hstate : s'.state = t)
    (hfile : s'.file = (x.2.advance g t r).file)
    (hbytes : ∀ f, e.bytes f = if g = f then bytes else []) : Shares s₀ (e :: x.1, s') := by
  have hsame : ∀ f, f ≠ g → s'.file f = x.2.file f := fun f hf => by
    rw [hfile]
    exact Function.update_of_ne hf _ _
  have hself : s'.file g = (x.2.file g).advance r := by
    rw [hfile]
    exact Function.update_self _ _ _
  have hip : ∀ f, (s'.file f).ip = (x.2.file f).ip := fun f => by
    by_cases hf : f = g
    · rw [hf, hself, File.advance_ip]
    · rw [hsame f hf]
  have hcontents : ∀ f, contents L t (x.2.file f).ip =
      if (x.2.file f).ip = (x.2.file g).ip then
        overwrite (contents L x.2.state (x.2.file g).ip) (x.2.file g).off.toNat bytes
      else contents L x.2.state (x.2.file f).ip := fun f => by
    rw [hp.contents, Function.update_apply]
  refine ⟨hstate ▸ hp.inv, fun f => (hip f).trans (h.ip f), fun f => ?_, fun f => ?_,
    fun f hf => ?_⟩
  · change (L.dinode s'.state.disk (s'.file f).ip).type = _
    rw [hstate, hip, hp.type _ (x.2.file f).ip.isLt]
    exact h.regular f
  · change (s'.file f).off.toNat ≤ (contents L s'.state (s'.file f).ip).length
    rw [hstate, hip, hcontents]
    by_cases hf : f = g
    · rw [hf, hself, hp.advance, if_pos rfl]
      exact le_length_overwrite (h.within g)
    · rw [hsame f hf]
      split_ifs with heq
      · have hlength := h.within f
        rw [heq] at hlength
        exact hlength.trans (length_le_overwrite (h.within g))
      · exact h.within f
  · obtain ⟨hstart, hold, hoff⟩ := h.tape f hf
    have hsplit : traffic f (e :: x.1) = traffic f x.1 ++ if g = f then bytes else [] :=
      congrArg (traffic f x.1 ++ ·) (hbytes f)
    refine ⟨hstart, ?_, ?_⟩
    · change contents L s'.state (s₀.file f).ip = overwrite _ _ (traffic f (e :: x.1))
      rw [hstate, hsplit, ← h.ip f, hcontents]
      by_cases hg : g = f
      · subst hg
        rw [if_pos rfl, if_pos rfl, hoff, h.ip g, hold, overwrite_overwrite hstart]
      · rw [if_neg fun heq => hg (hf g ((h.ip g).symm.trans (heq.symm.trans (h.ip f)))), if_neg hg,
          List.append_nil, h.ip f, hold]
    · change (s'.file f).off.toNat = _ + (traffic f (e :: x.1)).length
      rw [hsplit]
      by_cases hg : g = f
      · subst hg
        rw [hself, hp.advance, hoff, if_pos rfl, List.length_append, Nat.add_assoc]
      · rw [hsame f (Ne.symm hg), if_neg hg, List.append_nil, hoff]

end Tape

section Calls

variable [DecidableEq ι] {L} {s' : Shared L φ ι} {x : Record L φ ι} {f : φ} {p : ι} {j : Job φ}

/-- What the calls of the processes have written. -/
structure Calls (x : Record L φ ι) : Prop where
  sent : ∀ p j, x.2.job p = some j → j.i ≤ j.n ∧ sent p x.1 = (List.range j.i).map j.addr
  returned : ∀ p addr n (r : ℤ) es, (Event.returned p addr n r :: es) <:+ x.1 →
    r = -1 ∨ r = n ∧ FileBlocks.sent p es = (List.range n).map addr

theorem Calls.keep (h : Calls x) (hjob : s'.job = x.2.job) : Calls (x.1, s') := by
  refine ⟨?_, h.returned⟩
  rw [hjob]
  exact h.sent

theorem Calls.read {answer : Answer} (h : Calls x) (hjob : s'.job = x.2.job) :
    Calls (.read p f answer :: x.1, s') := by
  refine ⟨?_, fun q addr n r es hes => ?_⟩
  · rw [hjob]
    exact h.sent
  · rcases List.suffix_cons_iff.mp hes with heq | hes
    · cases heq
    · exact h.returned q addr n r es hes

theorem Calls.began {addr : ℕ → UInt8} {n : ℕ} (h : Calls x)
    (hjob : s'.job = Function.update x.2.job p (some ⟨f, addr, n, 0⟩)) :
    Calls (.began p f addr n :: x.1, s') := by
  refine ⟨fun q j hj => ?_, fun q addr n r es hes => ?_⟩
  · rw [hjob, Function.update_apply] at hj
    rw [FileBlocks.sent]
    split_ifs at hj with hq
    · cases hj
      rw [if_pos hq.symm]
      exact ⟨Nat.zero_le n, rfl⟩
    · rw [if_neg (Ne.symm hq)]
      exact h.sent q j hj
  · rcases List.suffix_cons_iff.mp hes with heq | hes
    · cases heq
    · exact h.returned q addr n r es hes

theorem Calls.wrote {c : ℕ} (h : Calls x) (hj : x.2.job p = some j) (hc : j.i + c ≤ j.n)
    (hjob : s'.job = Function.update x.2.job p (some { j with i := j.i + c })) :
    Calls (.wrote p f ((List.range c).map fun k => j.addr (j.i + k)) :: x.1, s') := by
  refine ⟨fun q j' hj' => ?_, fun q addr n r es hes => ?_⟩
  · rw [hjob, Function.update_apply] at hj'
    rw [FileBlocks.sent]
    split_ifs at hj' with hq
    · cases hj'
      rw [if_pos hq.symm, hq, (h.sent p j hj).2, List.range_add, List.map_append, List.map_map]
      exact ⟨hc, rfl⟩
    · rw [if_neg (Ne.symm hq)]
      exact h.sent q j' hj'
  · rcases List.suffix_cons_iff.mp hes with heq | hes
    · cases heq
    · exact h.returned q addr n r es hes

theorem Calls.returned_cons {addr : ℕ → UInt8} {n : ℕ} {r : ℤ} (h : Calls x)
    (hr : r = -1 ∨ r = n ∧ FileBlocks.sent p x.1 = (List.range n).map addr)
    (hjob : ∀ q j, s'.job q = some j → x.2.job q = some j) :
    Calls (.returned p addr n r :: x.1, s') := by
  refine ⟨fun q j hj => h.sent q j (hjob q j hj), fun q addr' n' r' es hes => ?_⟩
  rcases List.suffix_cons_iff.mp hes with heq | hes
  · cases heq
    exact hr
  · exact h.returned q addr' n' r' es hes

theorem Calls.finish (h : Calls x) (hj : x.2.job p = some j)
    (hjob : s'.job = Function.update x.2.job p none) :
    Calls (.returned p j.addr j.n (if j.i = j.n then j.n else -1) :: x.1, s') := by
  refine h.returned_cons ?_ fun q j' hj' => ?_
  · split_ifs with hend
    · refine .inr ⟨rfl, ?_⟩
      rw [(h.sent p j hj).2, hend]
    · exact .inl rfl
  · rw [hjob, Function.update_apply] at hj'
    split_ifs at hj' with hq
    exact hj'

end Calls

section Runs

variable [DecidableEq φ] [DecidableEq ι] {L devsw} {s₀ : Shared L φ ι} {x : Record L φ ι} {p : ι}
  {j : Job φ}

/-- What every step keeps. -/
structure Kept (s₀ : Shared L φ ι) (x : Record L φ ι) : Prop extends Shares s₀ x, Calls x

theorem runJob_kept (devsw : Devsw) (h : Kept s₀ x) (hj : x.2.job p = some j) :
    Ends (· = .inode .outOfBlocks)
    (x.2.runJob devsw p j) fun q => Kept s₀ (q.1.toList ++ x.1, q.2) := by
  rw [Shared.runJob]
  by_cases hlt : j.i < j.n
  · rw [if_pos hlt]
    obtain ⟨hpos, hmax, hend⟩ := chunk_bounds hlt
    dsimp only
    generalize chunk j.n j.i = c at hpos hmax hend ⊢
    have hword : (UInt32.ofNat c).toNat = c := by
      rw [UInt32.toNat_ofNat', Nat.mod_eq_of_lt (by omega)]
    have hspec : Ends (· = .outOfBlocks) (step L devsw x.2.state (.writei (x.2.file j.file).ip
        (fun k => j.addr (j.i + k)) (x.2.file j.file).off (UInt32.ofNat c))) _ :=
      write_spec h.inv (h.regular j.file)
    cases hstep : step L devsw x.2.state (.writei (x.2.file j.file).ip (fun k => j.addr (j.i + k))
        (x.2.file j.file).off (UInt32.ofNat c)) with
    | error e => exact .error (congrArg WritePanic.inode (hspec.of_error hstep))
    | ok q =>
        obtain ⟨⟨r, answer⟩, t⟩ := q
        obtain ⟨bytes, hp, hr⟩ := write_passed (hspec.of_ok hstep)
        rw [hword] at hr
        have hshares : ∀ {e : Event φ ι} {s : Shared L φ ι}, s.state = t →
            s.file = (x.2.advance j.file t r).file →
            (∀ f, e.bytes f = if j.file = f then bytes else []) → Shares s₀ (e :: x.1, s) :=
          fun hstate hfile hbytes => h.toShares.advance hp hstate hfile hbytes
        dsimp only
        by_cases hneg : r < 0
        · rw [if_pos hneg]
          refine .ok ⟨hshares rfl rfl fun f => ?_, h.toCalls.finish hj rfl⟩
          rcases hp.result with hr | ⟨-, hbytes⟩
          · omega
          · rw [hbytes, ite_self]
            rfl
        rw [if_neg hneg]
        obtain ⟨hr, hbytes⟩ : r = c ∧ bytes = (List.range c).map fun k => j.addr (j.i + k) := by
          rcases hr with hr | hr
          · replace hr : r = -1 := hr
            omega
          · exact hr
        rw [if_neg (not_not.mpr hr)]
        refine .ok ⟨hshares rfl rfl fun f => ?_, h.toCalls.wrote hj hend rfl⟩
        rw [hbytes]
        rfl
  · rw [if_neg hlt]
    refine .ok ⟨h.toShares.keep ?_ ?_ fun f => List.append_nil _, h.toCalls.finish hj rfl⟩
    · rfl
    · rfl

theorem fileread_kept (devsw : Devsw) (h : Kept s₀ x) (f : φ) (n : UInt32) :
    Ends (· = .inode .outOfBlocks) (Record.step devsw x (.fileread p f n)) (Kept s₀) := by
  rw [Record.step, Shared.step]
  cases hjob : x.2.job p with
  | some j => exact .ok h
  | none =>
      cases htype : (x.2.file f).type with
      | FD_NONE => exact .ok h
      | FD_PIPE => exact .ok h
      | FD_INODE =>
          dsimp only
          by_cases hreadable : x.2.readable f = false
          · rw [if_pos hreadable]
            refine .ok ⟨h.toShares.keep ?_ ?_ fun g => ?_, h.toCalls.read rfl⟩
            · rfl
            · rfl
            · change _ ++ Event.bytes g (.read p f (-1, [])) = _
              rw [Event.bytes, ite_self, List.append_nil]
              rfl
          rw [if_neg hreadable]
          have hspec : Ends (· = .outOfBlocks) (step L devsw x.2.state (.readi (x.2.file f).ip
              (x.2.file f).off n)) _ := read_spec h.inv (h.regular f)
          cases hstep : step L devsw x.2.state (.readi (x.2.file f).ip (x.2.file f).off n) with
          | error e => exact .error (congrArg WritePanic.inode (hspec.of_error hstep))
          | ok q =>
              obtain ⟨⟨r, bytes⟩, t⟩ := q
              have hp := read_passed (hspec.of_ok hstep)
              refine .ok ⟨h.toShares.advance hp ?_ ?_ fun g => rfl, h.toCalls.read rfl⟩
              · rfl
              · rfl

theorem filewrite_kept (devsw : Devsw) (h : Kept s₀ x) (f : φ) (addr : ℕ → UInt8) (n : ℕ) :
    Ends (· = .inode .outOfBlocks) (Record.step devsw x (.filewrite p f addr n)) (Kept s₀) := by
  rw [Record.step, Shared.step]
  cases hjob : x.2.job p with
  | some j => exact .ok h
  | none =>
      cases htype : (x.2.file f).type with
      | FD_NONE => exact .ok h
      | FD_PIPE => exact .ok h
      | FD_INODE =>
          dsimp only
          by_cases hwritable : (x.2.file f).writable = true
          · rw [if_neg (not_not.mpr hwritable)]
            refine .ok ⟨h.toShares.keep ?_ ?_ fun g => List.append_nil _, h.toCalls.began rfl⟩
            · rfl
            · rfl
          · rw [if_pos hwritable]
            refine .ok ⟨h.toShares.keep ?_ ?_ fun g => List.append_nil _,
              h.toCalls.returned_cons (.inl rfl) fun _ _ => id⟩
            · rfl
            · rfl

theorem step_kept (devsw : Devsw) (h : Kept s₀ x) (a : Action φ ι) :
    Ends (· = .inode .outOfBlocks) (Record.step devsw x a) (Kept s₀) := by
  cases a with
  | filewrite p f addr n => exact filewrite_kept devsw h f addr n
  | fileread p f n => exact fileread_kept devsw h f n
  | run p =>
      rw [Record.step, Shared.step]
      cases hjob : x.2.job p with
      | none => exact .ok h
      | some j => exact (runJob_kept devsw h hjob).bind fun q hq => .ok hq

/-- A start: the structures refer to regular files and are not behind their ends. -/
structure Opened (s : Shared L φ ι) : Prop where
  inv : Inv L s.state
  regular : ∀ g, (L.dinode s.state.disk (s.file g).ip).type = T_FILE
  within : ∀ g, (s.file g).off.toNat ≤ (contents L s.state (s.file g).ip).length
  job : ∀ p, s.job p = none

theorem Opened.kept (h : Opened s₀) : Kept s₀ ([], s₀) where
  inv := h.inv
  ip _ := rfl
  regular := h.regular
  within := h.within
  tape f _ := ⟨h.within f, (overwrite_nil _ _).symm, rfl⟩
  sent p j hj := by cases (h.job p).symm.trans hj
  returned p addr n r es hes := by cases List.suffix_nil.mp hes

/-- Whatever calls of several processes run on a structure that is alone on its inode, their bytes
go through it as one sequence: the file is the old one with the sequence written behind the old
offset, and the offset stands behind it. A call that does not fail has written its bytes in order,
and nothing but a full disk stops a process. -/
theorem shared_offset (devsw : Devsw) (h₀ : Opened s₀)
    (h : Reaches (· = ([], s₀)) (Record.Next devsw) x) :
    (∀ f, (∀ g, (s₀.file g).ip = (s₀.file f).ip → g = f) →
      contents L x.2.state (s₀.file f).ip = overwrite (contents L s₀.state (s₀.file f).ip)
        (s₀.file f).off.toNat (traffic f x.1) ∧
      (x.2.file f).off.toNat = (s₀.file f).off.toNat + (traffic f x.1).length) ∧
    (∀ p j, x.2.job p = some j → sent p x.1 = (List.range j.i).map j.addr) ∧
    (∀ p addr n (r : ℤ) es, (Event.returned p addr n r :: es) <:+ x.1 → r ≠ -1 →
      r = n ∧ sent p es = (List.range n).map addr) ∧
    ∀ a e, Record.step devsw x a = .error e → e = .inode .outOfBlocks := by
  have hkept : Kept s₀ x := by
    apply h.invariant
    · rintro x rfl
      exact h₀.kept
    · rintro x y _ hx ⟨a, hstep⟩
      exact (step_kept devsw hx a).of_ok hstep
  refine ⟨fun f hf => ⟨(hkept.tape f hf).contents, (hkept.tape f hf).off⟩,
    fun p j hj => (hkept.sent p j hj).2,
    fun p addr n r es hes hr => (hkept.returned p addr n r es hes).resolve_left hr,
      fun a e he => ?_⟩
  exact (step_kept devsw hkept a).of_error he

/-- Process `false` writes 1538 bytes, and `true` gets in between its two transactions. -/
def betweenChunks : List (Action Unit Bool) :=
  [.filewrite false () (fun k => UInt8.ofNat k) 1538, .filewrite true ()
    (fun _ => 9) 3, .run false, .run true,
    .run false, .run false, .run true]

def noDevices : Devsw := ⟨fun _ => none, fun _ => none⟩

def shareNewFile (s : State) : Shared mkfsLayout Unit Bool where
  state := s
  file _ := newFile
  readable _ := true
  job _ := none

theorem shared_offset_two_processes :
    ∃ (s₀ : Shared mkfsLayout Unit Bool) (x : Record mkfsLayout Unit Bool),
      Reaches (· = ([], s₀)) (Record.Next noDevices) x ∧
      (traffic () x.1).drop 1535 = [255, 9, 9, 9, 0, 1] ∧
      (x.2.file ()).off.toNat = (traffic () x.1).length ∧
      contents mkfsLayout x.2.state firstInode =
        overwrite (contents mkfsLayout s₀.state firstInode) 0 (traffic () x.1) := by
  have hmade : ((run mkfsLayout noDevices newState [.ialloc T_FILE]).toOption.any fun q =>
      (mkfsLayout.dinode q.2.disk firstInode).type = T_FILE ∧
      ((execute (fun x a => (Record.step noDevices x a).toOption)
        ([], shareNewFile q.2) betweenChunks).any
        fun x => (traffic () x.1).drop 1535 = [255, 9, 9, 9, 0, 1]) = true) = true := by
    decide +kernel
  obtain ⟨q, hq, hfacts⟩ := (Option.any_eq_true _ _).mp hmade
  obtain ⟨htype, hany⟩ := of_decide_eq_true hfacts
  obtain ⟨x, hx, htraffic⟩ := (Option.any_eq_true _ _).mp hany
  have hopened : Opened (shareNewFile q.2) :=
    ⟨(run_spec newState_inv _).of_ok (ok_of_toOption hq), fun _ => htype, fun _ => Nat.zero_le _,
      fun _ => rfl⟩
  have hreach : Reaches (· = ([], shareNewFile q.2)) (Record.Next noDevices) x := by
    refine Reaches.mono ?_ (Reaches.execute (.start rfl) hx)
    rintro y z ⟨a, ha⟩
    exact ⟨a, ok_of_toOption ha⟩
  obtain ⟨htape, -⟩ := shared_offset noDevices hopened hreach
  obtain ⟨hcontents, hoff⟩ := htape () fun _ _ => rfl
  exact ⟨shareNewFile q.2, x, hreach, of_decide_eq_true htraffic, hoff.trans (Nat.zero_add _),
    hcontents⟩

end Runs

end FileBlocks

end Xv6Fairness
