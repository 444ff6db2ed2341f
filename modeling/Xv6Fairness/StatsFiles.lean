import Mathlib.Logic.Function.Basic
import Xv6Fairness.UserStrings

/-!
# The statistics files

A test program leaves its times in a text file that `run_experiment` reads. The writer opens the
file without truncating it, so that the end of a longer old file stays behind the new line; the
reader takes at most one buffer of the file and splits it with loops of its own.
-/

namespace Xv6Fairness

open ByteStrings

def DIRSIZ : ℕ := 14

/-- The contents of the files of a directory under the first `DIRSIZ` bytes of their names. -/
abbrev Directory := Bytes → Option Bytes

namespace Directory

variable (dir : Directory) (name content : Bytes)

def lookup : Option Bytes := dir (name.take DIRSIZ)

def link : Directory := Function.update dir (name.take DIRSIZ) (some content)

def unlink : Directory := Function.update dir (name.take DIRSIZ) none

theorem lookup_link : (dir.link name content).lookup name = some content :=
  Function.update_self _ _ _

theorem lookup_unlink : (dir.unlink name).lookup name = none :=
  Function.update_self _ _ _

variable {name} {name' : Bytes} (h : name'.take DIRSIZ ≠ name.take DIRSIZ)

include h

theorem lookup_link_of_ne : (dir.link name content).lookup name' = dir.lookup name' :=
  Function.update_of_ne h _ _

theorem lookup_unlink_of_ne : (dir.unlink name).lookup name' = dir.lookup name' :=
  Function.update_of_ne h _ _

end Directory

/-- A write at offset 0 that does not truncate. -/
def overwrite (data old : Bytes) : Bytes := data ++ old.drop data.length

structure IoTimes where
  write : UInt32
  read : UInt32
  delete : UInt32
  alloc : UInt32
  free : UInt32
  deriving DecidableEq

structure MemTimes where
  alloc : UInt32
  free : UInt32
  deriving DecidableEq

/-- `n += int_to_str(num, buffer + n); buffer[n++] = sep`. -/
def putField (num : UInt32) (sep : UInt8) (buffer : Bytes) (n : ℕ) : Option (Bytes × ℕ) := do
  let (buffer, k) ← intToStr num buffer n
  let buffer ← store buffer (n + k) sep
  pure (buffer, n + k + 1)

def putFields : List (UInt32 × UInt8) → Bytes → ℕ → Option (Bytes × ℕ)
  | [], buffer, n => some (buffer, n)
  | (num, sep) :: fields, buffer, n => do
    let (buffer, n) ← putField num sep buffer n
    putFields fields buffer n

/-- The times in the order of the file, each with the character behind it. -/
def IoTimes.fields (times : IoTimes) : List (UInt32 × UInt8) :=
  [(times.write, 32), (times.read, 32), (times.delete, 32), (times.alloc, 32), (times.free, 10)]

def MemTimes.fields (times : MemTimes) : List (UInt32 × UInt8) :=
  [(times.alloc, 32), (times.free, 10)]

def writeTimesToFile (opens : Bool) (dir : Directory) (filename : Bytes) (times : IoTimes)
    (buffer : Vector UInt8 150) : Option (Directory × Int32) :=
  if opens then do
    let (buffer, n) ← putFields times.fields buffer.toList 0
    let old := (dir.lookup filename).getD []
    pure (dir.link filename (overwrite (buffer.take n) old), 0)
  else some (dir, -1)

/-- The part of `main` of `cpu_bound` that leaves the statistics. -/
def writeMemTimes (opens : Bool) (dir : Directory) (filename : Bytes) (times : MemTimes)
    (buffer : Vector UInt8 100) : Option Directory :=
  if opens then do
    let (buffer, n) ← putFields times.fields buffer.toList 0
    let old := (dir.lookup filename).getD []
    pure (dir.link filename (overwrite (buffer.take n) old))
  else some dir

/-- What `read(fd, buffer, count)` delivers, nothing where `open` or `read` fails. -/
def readFile (opens : Bool) (dir : Directory) (filename : Bytes) (count : ℕ) : Bytes :=
  if opens then ((dir.lookup filename).getD []).take count else []

/-- `while (buffer[i] != ' ' && buffer[i] != '\0') i++`. -/
def skipText : Bytes → Option Bytes
  | [] => none
  | c :: s => if c ≠ 32 ∧ c ≠ 0 then skipText s else some (c :: s)

def nextField (s : Bytes) : Option Bytes := do
  let s ← skipText s
  pure (if s.head? = some 32 then s.tail else s)

/-- `*time = custom_atoi(&buffer[i])`, from `int` to `unsigned int`. -/
def readNumber (s : Bytes) : Option UInt32 := (customAtoi s).map Int32.toUInt32

def readStats (opens : Bool) (dir : Directory) (filename : Bytes) (buffer : Vector UInt8 150)
    (out : IoTimes) : Option IoTimes :=
  let data := readFile opens dir filename 149
  if data.length = 0 then some out
  else do
    let s ← store (overwrite data buffer.toList) data.length 0
    let write ← readNumber s
    let s ← nextField s
    let read ← readNumber s
    let s ← nextField s
    let delete ← readNumber s
    let s ← nextField s
    let alloc ← readNumber s
    let s ← nextField s
    let free ← readNumber s
    pure ⟨write, read, delete, alloc, free⟩

def readMemStats (opens : Bool) (dir : Directory) (filename : Bytes) (buffer : Vector UInt8 100)
    (out : MemTimes) : Option MemTimes :=
  let data := readFile opens dir filename 99
  if data.length = 0 then some out
  else do
    let s ← store (overwrite data buffer.toList) data.length 0
    let alloc ← readNumber s
    let s ← nextField s
    let free ← readNumber s
    pure ⟨alloc, free⟩

/-- A number with the character behind it. -/
def field (num : UInt32) (sep : UInt8) : Bytes := decimal num.toNat ++ [sep]

def lineOf (fields : List (UInt32 × UInt8)) : Bytes := (fields.map fun f => field f.1 f.2).flatten

theorem field_length_le (num : UInt32) (sep : UInt8) : (field num sep).length ≤ 11 := by
  have h := decimal_uint32_length num
  rw [field, List.length_append, List.length_singleton]
  omega

theorem field_length_pos (num : UInt32) (sep : UInt8) : 0 < (field num sep).length := by
  rw [field, List.length_append, List.length_singleton]
  omega

theorem putField_eq (num : UInt32) (sep : UInt8) (pre : Bytes) {room : Bytes}
    (hroom : 11 ≤ room.length) :
    ∃ room', putField num sep (pre ++ room) pre.length =
        some (pre ++ field num sep ++ room', (pre ++ field num sep).length) ∧
      room.length ≤ room'.length + 11 := by
  have hd := decimal_uint32_length num
  have hnum := intToStr_eq num pre (by omega : (decimal num.toNat).length < room.length)
  have hsep : store ((pre ++ decimal num.toNat) ++ 0 :: room.drop ((decimal num.toNat).length + 1))
      (pre ++ decimal num.toNat).length sep = _ := store_append_cons
  refine ⟨room.drop ((decimal num.toNat).length + 1), ?_, ?_⟩
  · rw [List.length_append] at hsep
    simp only [putField, Option.bind_eq_bind, hnum, Option.bind_some, hsep]
    simp [field, Nat.add_assoc]
  · rw [List.length_drop]
    omega

theorem putFields_eq (fields : List (UInt32 × UInt8)) (pre : Bytes) {room : Bytes}
    (hroom : 11 * fields.length ≤ room.length) :
    ∃ room', putFields fields (pre ++ room) pre.length =
      some (pre ++ lineOf fields ++ room', (pre ++ lineOf fields).length) := by
  induction fields generalizing pre room with
  | nil => exact ⟨room, by simp [putFields, lineOf]⟩
  | cons f fields ih =>
      rw [List.length_cons] at hroom
      obtain ⟨room₁, hput, hroom₁⟩ := putField_eq f.1 f.2 pre (by omega : 11 ≤ room.length)
      obtain ⟨room', hrest⟩ := ih (pre ++ field f.1 f.2) (by omega : _ ≤ room₁.length)
      refine ⟨room', ?_⟩
      simp only [putFields, Option.bind_eq_bind, hput, Option.bind_some, hrest]
      simp [lineOf]

theorem putFields_take (fields : List (UInt32 × UInt8)) {buffer : Bytes}
    (h : 11 * fields.length ≤ buffer.length) :
    ∃ b n, putFields fields buffer 0 = some (b, n) ∧ b.take n = lineOf fields := by
  obtain ⟨room, hput⟩ := putFields_eq fields [] h
  exact ⟨_, _, hput, List.take_left⟩

theorem writeTimesToFile_eq (dir : Directory) (filename : Bytes) (times : IoTimes)
    (buffer : Vector UInt8 150) :
    writeTimesToFile true dir filename times buffer =
      some (dir.link filename (overwrite (lineOf times.fields)
        ((dir.lookup filename).getD [])), 0) := by
  have hlen : 11 * times.fields.length ≤ buffer.toList.length := by
    rw [Vector.length_toList]
    change 55 ≤ 150
    omega
  obtain ⟨b, n, hput, hline⟩ := putFields_take times.fields hlen
  simp only [writeTimesToFile, if_true, Option.bind_eq_bind, hput, Option.bind_some, hline]
  rfl

theorem writeMemTimes_eq (dir : Directory) (filename : Bytes) (times : MemTimes)
    (buffer : Vector UInt8 100) :
    writeMemTimes true dir filename times buffer =
      some (dir.link filename (overwrite (lineOf times.fields)
        ((dir.lookup filename).getD []))) := by
  have hlen : 11 * times.fields.length ≤ buffer.toList.length := by
    rw [Vector.length_toList]
    change 22 ≤ 100
    omega
  obtain ⟨b, n, hput, hline⟩ := putFields_take times.fields hlen
  simp only [writeMemTimes, if_true, Option.bind_eq_bind, hput, Option.bind_some, hline]
  rfl

section Reading

variable {s data old buffer : Bytes} (rest : Bytes)

theorem store_overwrite (h : data.length < buffer.length) :
    store (overwrite data buffer) data.length 0 =
      some (data ++ 0 :: (buffer.drop data.length).drop 1) := by
  apply store_append
  rw [List.length_drop]
  omega

/-- A line that fits into the buffer is read with something behind it, whatever the old file was. -/
theorem readFile_link (dir : Directory) (filename : Bytes) {line : Bytes} {count : ℕ}
    (h : line.length ≤ count) :
    ∃ d, readFile true (dir.link filename (overwrite line old)) filename count = line ++ d := by
  refine ⟨(old.drop line.length).take (count - line.length), ?_⟩
  rw [readFile, if_pos rfl, Directory.lookup_link, Option.getD_some, overwrite, List.take_append,
    List.take_of_length_le h]

theorem readFile_length_le (opens : Bool) (dir : Directory) (filename : Bytes) (count : ℕ) :
    (readFile opens dir filename count).length ≤ count := by
  rw [readFile]
  split_ifs
  · exact List.length_take_le _ _
  · exact Nat.zero_le _

theorem readNumber_field (num : UInt32) {sep : UInt8} (hsep : ¬ IsDigit sep) :
    readNumber (field num sep ++ rest) = some num := by
  rw [field, List.append_assoc]
  exact customAtoi_decimal num hsep

theorem readNumber_isSome (h : 0 ∈ s) : ∃ n, readNumber s = some n := by
  rw [← Option.isSome_iff_exists, readNumber, Option.isSome_map]
  exact customAtoi_isSome h

theorem skipText_digits {c : UInt8} (h : ∀ d ∈ s, IsDigit d) (hc : c = 32 ∨ c = 0) :
    skipText (s ++ c :: rest) = some (c :: rest) := by
  induction s with
  | nil =>
      rw [List.nil_append, skipText, if_neg]
      rintro ⟨hspace, hzero⟩
      exact hc.elim hspace hzero
  | cons d s ih =>
      have hd := isDigit_iff.mp (h d List.mem_cons_self)
      have hskip : d ≠ 32 ∧ d ≠ 0 := by
        constructor
        · rintro rfl
          exact absurd hd.1 (by decide)
        · rintro rfl
          exact absurd hd.1 (by decide)
      rw [List.cons_append, skipText, if_pos hskip]
      exact ih fun e he => h e (List.mem_cons_of_mem d he)

theorem nextField_field (num : UInt32) : nextField (field num 32 ++ rest) = some rest := by
  have h : skipText (decimal num.toNat ++ 32 :: rest) = some (32 :: rest) :=
    skipText_digits rest (fun _ hd => isDigit_of_mem_decimal hd) (Or.inl rfl)
  rw [field, List.append_assoc, nextField]
  simp only [List.singleton_append, Option.bind_eq_bind, h, Option.bind_some]
  rfl

theorem nextField_mem (h : 0 ∈ s) : ∃ s', nextField s = some s' ∧ 0 ∈ s' := by
  induction s with
  | nil => exact absurd h List.not_mem_nil
  | cons c s ih =>
      by_cases hc : c ≠ 32 ∧ c ≠ 0
      · have hs : 0 ∈ s := by
          rcases List.mem_cons.mp h with hz | hs
          · exact absurd hz.symm hc.2
          · exact hs
        obtain ⟨s', hn, hz⟩ := ih hs
        refine ⟨s', ?_, hz⟩
        rw [nextField, skipText, if_pos hc]
        exact hn
      · by_cases hsp : c = 32
        · subst hsp
          refine ⟨s, rfl, ?_⟩
          rcases List.mem_cons.mp h with hz | hs
          · exact absurd hz (by decide)
          · exact hs
        · have hz : c = 0 := by_contra fun hz => hc ⟨hsp, hz⟩
          subst hz
          exact ⟨0 :: s, rfl, h⟩

end Reading

theorem lineOf_length_le (fields : List (UInt32 × UInt8)) :
    (lineOf fields).length ≤ 11 * fields.length := by
  induction fields with
  | nil => exact le_rfl
  | cons f fields ih =>
      have hf := field_length_le f.1 f.2
      have hcons : lineOf (f :: fields) = field f.1 f.2 ++ lineOf fields := rfl
      rw [hcons, List.length_append, List.length_cons]
      omega

theorem lineOf_length_pos {fields : List (UInt32 × UInt8)} (h : 0 < fields.length) :
    0 < (lineOf fields).length := by
  cases fields with
  | nil => exact absurd h (lt_irrefl 0)
  | cons f fields =>
      have hf := field_length_pos f.1 f.2
      have hcons : lineOf (f :: fields) = field f.1 f.2 ++ lineOf fields := rfl
      rw [hcons, List.length_append]
      omega

theorem scanned_line (dir : Directory) (filename old : Bytes) (fields : List (UInt32 × UInt8))
    (hfields : 0 < fields.length) {count : ℕ} (hcount : 11 * fields.length ≤ count)
    {buffer : Bytes} (hbuffer : count < buffer.length) :
    let data := readFile true (dir.link filename (overwrite (lineOf fields) old)) filename count
    data.length ≠ 0 ∧ ∃ rest, store (overwrite data buffer) data.length 0 =
      some (lineOf fields ++ rest) := by
  intro data
  have hdata : data.length ≤ count := readFile_length_le _ _ _ _
  obtain ⟨d, hd⟩ : ∃ d, data = lineOf fields ++ d :=
    readFile_link dir filename ((lineOf_length_le _).trans hcount)
  constructor
  · have hpos := lineOf_length_pos hfields
    rw [hd, List.length_append]
    omega
  · refine ⟨d ++ 0 :: (buffer.drop data.length).drop 1, ?_⟩
    rw [store_overwrite (by omega), hd, List.append_assoc]

theorem readStats_link (dir : Directory) (filename old : Bytes) (times : IoTimes)
    (buffer : Vector UInt8 150) (out : IoTimes) :
    readStats true (dir.link filename (overwrite (lineOf times.fields) old)) filename buffer out =
      some times := by
  have hsize : 149 < buffer.toList.length := by
    rw [Vector.length_toList]
    omega
  obtain ⟨hne, rest, hstore⟩ := scanned_line dir filename old times.fields
    (by change 0 < 5; omega) (by change 55 ≤ 149; omega) hsize
  have hline : lineOf times.fields ++ rest = field times.write 32 ++ (field times.read 32 ++
      (field times.delete 32 ++ (field times.alloc 32 ++ (field times.free 10 ++ rest)))) := by
    simp [lineOf, IoTimes.fields]
  have hspace : ¬ IsDigit 32 := by decide
  have hnewline : ¬ IsDigit 10 := by decide
  rw [hline] at hstore
  simp only [readStats, if_neg hne, Option.bind_eq_bind, hstore, Option.bind_some, nextField_field,
    readNumber_field _ _ hspace, readNumber_field _ _ hnewline]
  rfl

theorem readMemStats_link (dir : Directory) (filename old : Bytes) (times : MemTimes)
    (buffer : Vector UInt8 100) (out : MemTimes) :
    readMemStats true (dir.link filename (overwrite (lineOf times.fields) old)) filename buffer
      out = some times := by
  have hsize : 99 < buffer.toList.length := by
    rw [Vector.length_toList]
    omega
  obtain ⟨hne, rest, hstore⟩ := scanned_line dir filename old times.fields
    (by change 0 < 2; omega) (by change 22 ≤ 99; omega) hsize
  have hline : lineOf times.fields ++ rest =
      field times.alloc 32 ++ (field times.free 10 ++ rest) := by
    simp [lineOf, MemTimes.fields]
  have hspace : ¬ IsDigit 32 := by decide
  have hnewline : ¬ IsDigit 10 := by decide
  rw [hline] at hstore
  simp only [readMemStats, if_neg hne, Option.bind_eq_bind, hstore, Option.bind_some,
    nextField_field, readNumber_field _ _ hspace, readNumber_field _ _ hnewline]
  rfl

theorem scanned_terminated {data buffer : Bytes} (h : data.length < buffer.length) :
    ∃ s, store (overwrite data buffer) data.length 0 = some s ∧ 0 ∈ s :=
  ⟨_, store_overwrite h, mem_of_store (store_overwrite h)⟩

theorem readStats_isSome (opens : Bool) (dir : Directory) (filename : Bytes)
    (buffer : Vector UInt8 150) (out : IoTimes) :
    (readStats opens dir filename buffer out).isSome := by
  rw [readStats]
  by_cases hz : (readFile opens dir filename 149).length = 0
  · rw [if_pos hz]
    rfl
  · have hdata : (readFile opens dir filename 149).length < buffer.toList.length := by
      rw [Vector.length_toList]
      exact Nat.lt_succ_of_le (readFile_length_le opens dir filename 149)
    obtain ⟨s, hs, hs0⟩ := scanned_terminated hdata
    obtain ⟨s₁, hs₁, h₁⟩ := nextField_mem hs0
    obtain ⟨s₂, hs₂, h₂⟩ := nextField_mem h₁
    obtain ⟨s₃, hs₃, h₃⟩ := nextField_mem h₂
    obtain ⟨s₄, hs₄, h₄⟩ := nextField_mem h₃
    obtain ⟨w, hw⟩ := readNumber_isSome hs0
    obtain ⟨r, hr⟩ := readNumber_isSome h₁
    obtain ⟨d, hd⟩ := readNumber_isSome h₂
    obtain ⟨a, ha⟩ := readNumber_isSome h₃
    obtain ⟨f, hf⟩ := readNumber_isSome h₄
    simp only [if_neg hz, Option.bind_eq_bind, hs, Option.bind_some, hw, hs₁, hr, hs₂, hd, hs₃, ha,
      hs₄, hf]
    rfl

theorem readMemStats_isSome (opens : Bool) (dir : Directory) (filename : Bytes)
    (buffer : Vector UInt8 100) (out : MemTimes) :
    (readMemStats opens dir filename buffer out).isSome := by
  rw [readMemStats]
  by_cases hz : (readFile opens dir filename 99).length = 0
  · rw [if_pos hz]
    rfl
  · have hdata : (readFile opens dir filename 99).length < buffer.toList.length := by
      rw [Vector.length_toList]
      exact Nat.lt_succ_of_le (readFile_length_le opens dir filename 99)
    obtain ⟨s, hs, hs0⟩ := scanned_terminated hdata
    obtain ⟨s₁, hs₁, h₁⟩ := nextField_mem hs0
    obtain ⟨a, ha⟩ := readNumber_isSome hs0
    obtain ⟨f, hf⟩ := readNumber_isSome h₁
    simp only [if_neg hz, Option.bind_eq_bind, hs, Option.bind_some, ha, hs₁, hf]
    rfl

/-- What a program writes about itself is read back for all 32-bit times and over every old file;
the readers stay inside their buffers on every file. -/
theorem stats_roundTrip :
    (∀ (dir : Directory) (filename : Bytes) (times : IoTimes) (buffer : Vector UInt8 150),
      ∃ dir', writeTimesToFile true dir filename times buffer = some (dir', 0) ∧
        ∀ (buffer' : Vector UInt8 150) (out : IoTimes),
          readStats true dir' filename buffer' out = some times) ∧
    (∀ (dir : Directory) (filename : Bytes) (times : MemTimes) (buffer : Vector UInt8 100),
      ∃ dir', writeMemTimes true dir filename times buffer = some dir' ∧
        ∀ (buffer' : Vector UInt8 100) (out : MemTimes),
          readMemStats true dir' filename buffer' out = some times) ∧
    ∀ (opens : Bool) (dir : Directory) (filename : Bytes),
      (∀ (buffer : Vector UInt8 150) (out : IoTimes),
        (readStats opens dir filename buffer out).isSome) ∧
      ∀ (buffer : Vector UInt8 100) (out : MemTimes),
        (readMemStats opens dir filename buffer out).isSome := by
  refine ⟨?_, ?_, ?_⟩
  · intro dir filename times buffer
    exact ⟨_, writeTimesToFile_eq dir filename times buffer, readStats_link dir filename _ times⟩
  · intro dir filename times buffer
    exact ⟨_, writeMemTimes_eq dir filename times buffer, readMemStats_link dir filename _ times⟩
  · intro opens dir filename
    exact ⟨readStats_isSome opens dir filename, readMemStats_isSome opens dir filename⟩

end Xv6Fairness
