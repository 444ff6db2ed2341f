import Mathlib.Data.List.TakeWhile
import Xv6Fairness.RoundStatistics

/-!
# Path elements in the kernel

`skipelem` copies the next element of a path into an array of `DIRSIZ` bytes and `dirlookup`
compares that array with the names in a directory by `namecmp`. A longer element is cut off, so that
two files are one as soon as the first `DIRSIZ` bytes of their names agree. The file names of the
test programs are put through these routines at the end. As in the string routines, `none` is an
access outside a buffer.
-/

namespace Xv6Fairness

open ByteStrings

def strncmp : ℕ → Bytes → Bytes → Option ℤ
  | 0, _, _ => some 0
  | n + 1, p :: ps, q :: qs =>
    if p ≠ 0 ∧ p = q then strncmp n ps qs else some ((p.toNat : ℤ) - q.toNat)
  | _ + 1, _, _ => none

def namecmp (s t : Bytes) : Option ℤ := strncmp DIRSIZ s t

theorem strncmp_isSome {n : ℕ} {s t : Bytes} (hs : n ≤ s.length) (ht : n ≤ t.length) :
    (strncmp n s t).isSome := by
  induction n generalizing s t with
  | zero => rfl
  | succ n ih =>
      obtain ⟨p, s, rfl⟩ := List.exists_cons_of_length_pos (by omega : 0 < s.length)
      obtain ⟨q, t, rfl⟩ := List.exists_cons_of_length_pos (by omega : 0 < t.length)
      rw [List.length_cons, Nat.succ_le_succ_iff] at hs ht
      rw [strncmp]
      split_ifs with h
      · exact ih hs ht
      · rfl

/-- The first `n` bytes, or those up to the terminator, may be read. -/
def Readable (n : ℕ) (s : Bytes) : Prop := n ≤ s.length ∨ 0 ∈ s

instance (n : ℕ) (s : Bytes) : Decidable (Readable n s) := inferInstanceAs (Decidable (_ ∨ _))

theorem Readable.cons {n : ℕ} {s : Bytes} (h : Readable (n + 1) s) :
    ∃ p s', s = p :: s' ∧ (p ≠ 0 → Readable n s') := by
  rcases h with h | h
  · obtain ⟨p, s', rfl⟩ := List.exists_cons_of_length_pos (by omega : 0 < s.length)
    rw [List.length_cons, Nat.succ_le_succ_iff] at h
    exact ⟨p, s', rfl, fun _ => .inl h⟩
  · obtain ⟨p, s', rfl⟩ := List.exists_cons_of_ne_nil (List.ne_nil_of_mem h)
    exact ⟨p, s', rfl, fun hp => .inr ((List.mem_cons.mp h).resolve_left hp.symm)⟩

/-- Two strings compare equal when they agree up to the first `n` bytes or the terminator. -/
theorem strncmp_eq_zero_iff {n : ℕ} {s t : Bytes} (hs : Readable n s) (ht : Readable n t) :
    strncmp n s t = some 0 ↔ cString (s.take n) = cString (t.take n) := by
  induction n generalizing s t with
  | zero => simp [strncmp]
  | succ n ih =>
      obtain ⟨p, s, rfl, hs'⟩ := hs.cons
      obtain ⟨q, t, rfl, ht'⟩ := ht.cons
      rw [strncmp, List.take_succ_cons, List.take_succ_cons, cString, cString, List.takeWhile_cons,
        List.takeWhile_cons]
      change _ ↔ (if _ then p :: cString (s.take n) else []) =
        if _ then q :: cString (t.take n) else []
      by_cases hp : p = 0
      · by_cases hq : q = 0
        · simp [hp, hq]
        · have hne : q.toNat ≠ 0 := fun h => hq (UInt8.toNat.inj h)
          simp [hp, hq, hne]
      · by_cases hpq : p = q
        · rw [if_pos ⟨hp, hpq⟩, ih (hs' hp) (ht' (hpq ▸ hp))]
          simp [← hpq, hp]
        · have hne : (p.toNat : ℤ) - q.toNat ≠ 0 := by
            intro h
            exact hpq (UInt8.toNat.inj (by omega))
          rw [if_neg fun h => hpq h.2, Option.some_inj]
          by_cases hq : q = 0
          · simp [hp, hq] at hne ⊢
            omega
          · simp [hp, hq, hne, hpq]

/-- `while(*path == '/') path++`. -/
def skipSlashes : Bytes → Option Bytes
  | [] => none
  | c :: path => if c = 47 then skipSlashes path else some (c :: path)

/-- `while(*path != '/' && *path != 0) path++`, as the number of bytes passed over. -/
def elemLength : Bytes → Option ℕ
  | [] => none
  | c :: path => if c ≠ 47 ∧ c ≠ 0 then (elemLength path).map (· + 1) else some 0

/-- `memmove(name, s, len)` into an array. -/
def copyInto (name data : Bytes) : Option Bytes :=
  if data.length ≤ name.length then some (overwrite data name) else none

/-- The path behind the next element, or `none` for the null pointer, and the array with the
element. -/
def skipelem (path name : Bytes) : Option (Option Bytes × Bytes) := do
  let path ← skipSlashes path
  if path.head? = some 0 then pure (none, name)
  else do
    let len ← elemLength path
    let name ← if DIRSIZ ≤ len then copyInto name (path.take DIRSIZ)
      else do
        let name ← copyInto name (path.take len)
        store name len 0
    let path ← skipSlashes (path.drop len)
    pure (some path, name)

/-- A path element: no slash and no terminator in it. -/
def IsElem (s : Bytes) : Prop := ∀ c ∈ s, c ≠ 47 ∧ c ≠ 0

instance (s : Bytes) : Decidable (IsElem s) := inferInstanceAs (Decidable (∀ c ∈ s, _))

section Elements

variable {s path name : Bytes} {c : UInt8}

theorem skipSlashes_cons (h : c ≠ 47) : skipSlashes (c :: path) = some (c :: path) := if_neg h

theorem elemLength_eq (hs : IsElem s) (hc : c = 47 ∨ c = 0) :
    elemLength (s ++ c :: path) = some s.length := by
  induction s with
  | nil =>
      rw [List.nil_append, elemLength, if_neg]
      · rfl
      · rintro ⟨hslash, hzero⟩
        exact hc.elim hslash hzero
  | cons d s ih =>
      rw [List.cons_append, elemLength, if_pos (hs d List.mem_cons_self),
        ih fun e he => hs e (List.mem_cons_of_mem d he)]
      rfl

theorem copyInto_eq {data : Bytes} (h : data.length ≤ name.length) :
    copyInto name data = some (data ++ name.drop data.length) := if_pos h

/-- The array after `skipelem` holds the first `DIRSIZ` bytes of the element, terminated where the
element is shorter. -/
theorem skipelem_eq (hs : IsElem s) (hne : s ≠ []) (hc : c = 47 ∨ c = 0)
    (hname : name.length = DIRSIZ) :
    ∃ name', skipelem (s ++ c :: path) name = (skipSlashes (c :: path)).map (some ·, name') ∧
      name'.length = DIRSIZ ∧ cString name' = s.take DIRSIZ := by
  obtain ⟨d, r, rfl⟩ := List.exists_cons_of_ne_nil hne
  have hd := hs d List.mem_cons_self
  have hskip : skipSlashes (d :: r ++ c :: path) = some (d :: r ++ c :: path) :=
    skipSlashes_cons hd.1
  have hhead : ¬ (d :: r ++ c :: path).head? = some 0 := by
    rw [List.cons_append, List.head?_cons, Option.some_inj]
    exact hd.2
  have hlen : elemLength (d :: r ++ c :: path) = _ := elemLength_eq hs hc
  have hdrop : (d :: r ++ c :: path).drop (d :: r).length = c :: path := List.drop_left
  generalize d :: r = s at *
  by_cases hlong : DIRSIZ ≤ s.length
  · have htake : (s ++ c :: path).take DIRSIZ = s.take DIRSIZ :=
      List.take_append_of_le_length hlong
    have hl : (s.take DIRSIZ).length = DIRSIZ := by
      rw [List.length_take]
      omega
    have hcopy : copyInto name (s.take DIRSIZ) = some (s.take DIRSIZ) := by
      rw [copyInto_eq (by omega), hl, ← hname, List.drop_length, List.append_nil]
    refine ⟨s.take DIRSIZ, ?_, hl, ?_⟩
    · simp only [skipelem, Option.bind_eq_bind, hskip, hlen, Option.bind_some, if_neg hhead,
        if_pos hlong, htake, hcopy, hdrop]
      cases skipSlashes (c :: path) <;> rfl
    · rw [cString, List.takeWhile_eq_self_iff]
      intro e he
      exact decide_eq_true (hs e (List.mem_of_mem_take he)).2
  · have htake : (s ++ c :: path).take s.length = s := List.take_left
    have hcopy : copyInto name s = some (s ++ name.drop s.length) := copyInto_eq (by omega)
    have hstore : store (s ++ name.drop s.length) s.length 0 =
        some (s ++ 0 :: (name.drop s.length).drop 1) := by
      apply store_append
      rw [List.length_drop]
      omega
    refine ⟨s ++ 0 :: (name.drop s.length).drop 1, ?_, ?_, ?_⟩
    · simp only [skipelem, Option.bind_eq_bind, hskip, hlen, Option.bind_some, if_neg hhead,
        if_neg hlong, htake, hcopy, hstore, hdrop]
      cases skipSlashes (c :: path) <;> rfl
    · rw [List.length_append, List.length_cons, List.length_drop, List.length_drop]
      omega
    · rw [cString_append_zero fun e he => (hs e he).2, List.take_of_length_le (by omega)]

theorem namecmp_eq_zero_iff {name' s' : Bytes} (hname : name.length = DIRSIZ)
    (hname' : name'.length = DIRSIZ) (hs : cString name = s.take DIRSIZ)
    (hs' : cString name' = s'.take DIRSIZ) :
    namecmp name name' = some 0 ↔ s.take DIRSIZ = s'.take DIRSIZ := by
  rw [namecmp, strncmp_eq_zero_iff (.inl hname.ge)
    (.inl hname'.ge), List.take_of_length_le hname.le,
    List.take_of_length_le hname'.le, hs, hs']

end Elements

/-- "testfile_". -/
def testfileText : Bytes := ascii ['t', 'e', 's', 't', 'f', 'i', 'l', 'e', '_']

/-- The prefixes that the programs pass to `build_filename`. -/
inductive FilePrefix
  | stats | statsMem | testfile
  deriving DecidableEq

def FilePrefix.text : FilePrefix → Bytes
  | .stats => statsText
  | .statsMem => statsMemText
  | .testfile => testfileText

/-- The number of digits for which a directory entry has room. -/
def FilePrefix.digitsKept (f : FilePrefix) : ℕ := DIRSIZ - f.text.length

/-- The name differs within `DIRSIZ` bytes: another prefix, a pid that leaves room for the dot, or
different leading digits. -/
def Distinguished (f g : FilePrefix) (p q : Int32) : Prop :=
  f ≠ g ∨ (decimal p.toUInt32.toNat).length < f.digitsKept ∨
    (decimal q.toUInt32.toNat).length < f.digitsKept ∨
      (decimal p.toUInt32.toNat).take f.digitsKept ≠ (decimal q.toUInt32.toNat).take f.digitsKept

instance (f g : FilePrefix) (p q : Int32) : Decidable (Distinguished f g p q) :=
  inferInstanceAs (Decidable (_ ∨ _ ∨ _ ∨ _))

theorem FilePrefix.text_length (f : FilePrefix) : 0 < f.text.length ∧ f.text.length ≤ 10 := by
  cases f <;> decide

theorem FilePrefix.isElem_text (f : FilePrefix) : IsElem f.text := by
  cases f <;> decide +kernel

theorem isElem_filenameOf (f : FilePrefix) (p : Int32) : IsElem (filenameOf f.text p) := by
  intro c hc
  rw [filenameOf, List.mem_append, List.mem_append] at hc
  rcases hc with (hc | hc) | hc
  · exact f.isElem_text c hc
  · have hdig := isDigit_iff.mp (isDigit_of_mem_decimal hc)
    constructor
    · rintro rfl
      exact absurd hdig.1 (by decide)
    · rintro rfl
      exact absurd hdig.1 (by decide)
  · revert c
    decide +kernel

theorem takeWhile_isDigit_take {ds ext : Bytes} (hds : ∀ c ∈ ds, IsDigit c)
    (hext : ∀ c ∈ ext.head?, ¬ IsDigit c) (k : ℕ) :
    ((ds ++ ext).take k).takeWhile (IsDigit ·) = ds.take k := by
  have hfirst : ((ext.take (k - ds.length)).takeWhile fun c => decide (IsDigit c)) = [] := by
    cases ext with
    | nil => rw [List.take_nil, List.takeWhile_nil]
    | cons c ext =>
        cases k - ds.length with
        | zero => rfl
        | succ m =>
            rw [List.take_succ_cons, List.takeWhile_cons_of_neg]
            simpa using hext c rfl
  rw [List.take_append, List.takeWhile_append_of_pos, hfirst, List.append_nil]
  intro c hc
  exact decide_eq_true (hds c (List.mem_of_mem_take hc))

theorem take_filenameOf (f : FilePrefix) (p : Int32) :
    (filenameOf f.text p).take DIRSIZ = f.text ++
      (decimal p.toUInt32.toNat ++ ascii ['.', 't', 'x', 't']).take f.digitsKept := by
  have hlen : f.text.length ≤ DIRSIZ := f.text_length.2.trans (by decide)
  rw [filenameOf, List.append_assoc, List.take_append, List.take_of_length_le hlen]
  rfl

theorem eq_of_take_eq {a b : Bytes} {k : ℕ} (ha : a.length < k) (h : a.take k = b.take k) :
    a = b := by
  rw [List.take_of_length_le ha.le] at h
  have hb : (b.take k).length < k := h ▸ ha
  rw [List.length_take] at hb
  rw [h, List.take_of_length_le (by omega)]

/-- For one prefix, names that agree after truncation have pids with the same leading digits, and
the pids are equal or both fill the room. -/
theorem take_digits_eq_iff {f : FilePrefix} {p q : Int32} (hne : p ≠ q) :
    (decimal p.toUInt32.toNat ++ ascii ['.', 't', 'x', 't']).take f.digitsKept =
        (decimal q.toUInt32.toNat ++ ascii ['.', 't', 'x', 't']).take f.digitsKept ↔
      ¬ Distinguished f f p q := by
  have hext : ∀ c ∈ (ascii ['.', 't', 'x', 't']).head?, ¬ IsDigit c := by decide +kernel
  have hp := takeWhile_isDigit_take (fun c => isDigit_of_mem_decimal (n := p.toUInt32.toNat)) hext
    f.digitsKept
  have hq := takeWhile_isDigit_take (fun c => isDigit_of_mem_decimal (n := q.toUInt32.toNat)) hext
    f.digitsKept
  have hdec : decimal p.toUInt32.toNat ≠ decimal q.toUInt32.toNat := fun h =>
    hne (Int32.toBitVec.inj (congrArg UInt32.toBitVec (UInt32.toNat.inj (decimal_injective h))))
  simp only [Distinguished, ne_eq, not_true_eq_false, false_or, not_or, not_lt, not_not]
  constructor
  · intro h
    rw [h, hq] at hp
    refine ⟨?_, ?_, hp.symm⟩
    · by_contra hlt
      exact hdec (eq_of_take_eq (not_le.mp hlt) hp.symm)
    · by_contra hlt
      exact hdec (eq_of_take_eq (not_le.mp hlt) hp).symm
  · rintro ⟨hlp, hlq, h⟩
    rw [List.take_append_of_le_length hlp, List.take_append_of_le_length hlq, h]

theorem filenameOf_getElem (f : FilePrefix) (p : Int32) :
    ∃ c, ((filenameOf f.text p).take DIRSIZ)[6]? = some c ∧ (f = .stats ↔ IsDigit c) ∧
      (f = .statsMem ↔ c = 109) := by
  rw [List.getElem?_take_of_lt (by decide), filenameOf, List.append_assoc]
  cases f with
  | stats =>
      obtain ⟨c, s, hs⟩ :=
        List.exists_cons_of_length_pos (decimal_length_pos (n := p.toUInt32.toNat))
      have hc : IsDigit c := isDigit_of_mem_decimal (hs ▸ List.mem_cons_self)
      refine ⟨c, ?_, iff_of_true rfl hc, iff_of_false (by decide) ?_⟩
      · rw [hs]
        rfl
      · rintro rfl
        exact absurd hc (by decide)
  | statsMem => exact ⟨109, List.getElem?_append_left (by decide), by decide, by decide⟩
  | testfile => exact ⟨108, List.getElem?_append_left (by decide), by decide, by decide⟩

theorem take_filenameOf_eq_iff {f g : FilePrefix} {p q : Int32} (hne : (f, p) ≠ (g, q)) :
    (filenameOf f.text p).take DIRSIZ = (filenameOf g.text q).take DIRSIZ ↔
      ¬ Distinguished f g p q := by
  by_cases hfg : f = g
  · subst hfg
    have hpq : p ≠ q := fun h => hne (by rw [h])
    rw [take_filenameOf, take_filenameOf, List.append_cancel_left_eq, take_digits_eq_iff hpq]
  · refine iff_of_false ?_ (not_not.mpr (.inl hfg))
    intro h
    obtain ⟨c, hc, hstats, hmem⟩ := filenameOf_getElem f p
    obtain ⟨d, hd, hstats', hmem'⟩ := filenameOf_getElem g q
    rw [h, hd, Option.some_inj] at hc
    subst hc
    cases f <;> cases g <;> simp_all

/-- The name that `dirlookup` is given when a program opens the file of a process. -/
def entryName (filename : Vector UInt8 32) (pidStr : Vector UInt8 12) (name : Vector UInt8 14)
    (f : FilePrefix) (pid : Int32) : Option Bytes := do
  let path ← buildFilename filename.toList pidStr pid (f.text ++ [0])
  let (_, name) ← skipelem path name.toList
  pure name

theorem filenameOf_length (f : FilePrefix) (pid : Int32) :
    0 < (filenameOf f.text pid).length ∧ (filenameOf f.text pid).length ≤ 24 := by
  have htext := f.text_length
  have hpid : (decimal pid.toUInt32.toNat).length ≤ 10 := decimal_uint32_length _
  have hext : (ascii ['.', 't', 'x', 't']).length = 4 := rfl
  rw [filenameOf, List.length_append, List.length_append, hext]
  omega

theorem buildFilename_text (filename : Vector UInt8 32) (pidStr : Vector UInt8 12)
    (f : FilePrefix) (pid : Int32) :
    ∃ path rest, buildFilename filename.toList pidStr pid (f.text ++ [0]) = some path ∧
      path = filenameOf f.text pid ++ 0 :: rest ∧ path.length = 32 := by
  obtain ⟨path, hpath, hname, hlen⟩ := buildFilename_eq filename.length_toList pidStr pid
    (fun c hc => (f.isElem_text c hc).2) (f.text_length.2.trans (by omega))
  have hshort := filenameOf_length f pid
  obtain ⟨rest, hrest⟩ := eq_cString_append (by rw [hname]; omega : (cString path).length < _)
  rw [hname] at hrest
  exact ⟨path, rest, hpath, hrest, hlen⟩

theorem entryName_eq (filename : Vector UInt8 32) (pidStr : Vector UInt8 12)
    (name : Vector UInt8 14) (f : FilePrefix) (pid : Int32) :
    ∃ s, entryName filename pidStr name f pid = some s ∧ s.length = DIRSIZ ∧
      cString s = (filenameOf f.text pid).take DIRSIZ := by
  obtain ⟨path, rest, hpath, hrest, -⟩ := buildFilename_text filename pidStr f pid
  have hne : filenameOf f.text pid ≠ [] := List.ne_nil_of_length_pos (filenameOf_length f pid).1
  obtain ⟨s, hs, hlen, hname⟩ :=
    skipelem_eq (isElem_filenameOf f pid) hne (.inr (Eq.refl 0)) name.length_toList
  refine ⟨s, ?_, hlen, hname⟩
  rw [skipSlashes_cons (by decide), Option.map_some, ← hrest] at hs
  simp only [entryName, Option.bind_eq_bind, hpath, Option.bind_some, hs, Option.pure_def]

/-- The path fits its buffer of 32 bytes, and `dirlookup` can tell the files of two processes or
programs apart exactly when their names differ early enough. -/
theorem entryNames_differ_iff (filename filename' : Vector UInt8 32)
    (pidStr pidStr' : Vector UInt8 12) (name name' : Vector UInt8 14) (f g : FilePrefix)
    (p q : Int32) (hne : (f, p) ≠ (g, q)) :
    ∃ path s t d, buildFilename filename.toList pidStr p (f.text ++ [0]) = some path ∧
      (cString path).length + 1 ≤ 32 ∧ entryName filename pidStr name f p = some s ∧
      entryName filename' pidStr' name' g q = some t ∧ namecmp s t = some d ∧
      (d ≠ 0 ↔ Distinguished f g p q) := by
  obtain ⟨path, rest, hpath, hrest, hlen⟩ := buildFilename_text filename pidStr f p
  obtain ⟨s, hs, hslen, hsname⟩ := entryName_eq filename pidStr name f p
  obtain ⟨t, ht, htlen, htname⟩ := entryName_eq filename' pidStr' name' g q
  obtain ⟨d, hd⟩ := Option.isSome_iff_exists.mp (strncmp_isSome hslen.ge htlen.ge)
  have htext : cString path = filenameOf f.text p := by
    rw [hrest]
    exact cString_append_zero fun c hc => (isElem_filenameOf f p c hc).2
  have hshort := filenameOf_length f p
  have hcmp := namecmp_eq_zero_iff hslen htlen hsname htname
  have hd' : namecmp s t = some d := hd
  refine ⟨path, s, t, d, hpath, ?_, hs, ht, hd', ?_⟩
  · rw [htext]
    omega
  · rw [hd', Option.some_inj, take_filenameOf_eq_iff hne] at hcmp
    rw [ne_eq, hcmp, not_not]

theorem entryNames_differ_iff_pids_4_7 :
    ∃ s t d, entryName (.replicate 32 0) (.replicate 12 0) (.replicate 14 0) .stats 4 = some s ∧
      entryName (.replicate 32 0) (.replicate 12 0) (.replicate 14 0) .stats 7 = some t ∧
      namecmp s t = some d ∧ d ≠ 0 := by
  obtain ⟨_, s, t, d, -, -, hs, ht, hd, h⟩ := entryNames_differ_iff (.replicate 32 0)
    (.replicate 32 0) (.replicate 12 0) (.replicate 12 0) (.replicate 14 0) (.replicate 14 0)
    .stats .stats 4 7 (by decide)
  exact ⟨s, t, d, hs, ht, hd, h.mpr (by decide +kernel)⟩

/-- `stats_mem_1000.txt` and `stats_mem_10000.txt` are one directory entry. -/
theorem entryNames_collide :
    ∃ s t, entryName (.replicate 32 0) (.replicate 12 0) (.replicate 14 0) .statsMem 1000 = some s ∧
      entryName (.replicate 32 0) (.replicate 12 0) (.replicate 14 0) .statsMem 10000 = some t ∧
      namecmp s t = some 0 :=
  ⟨statsMemText ++ ascii ['1', '0', '0', '0'], statsMemText ++ ascii ['1', '0', '0', '0'],
    by decide +kernel, by decide +kernel, by decide +kernel⟩

end Xv6Fairness
