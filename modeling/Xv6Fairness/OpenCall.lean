import Xv6Fairness.Parameters
import Xv6Fairness.PathLookup

/-!
# Opening a file

`sys_open` finds an inode or makes a new one and then asks for a file structure and a descriptor. If
it has made the inode and there is no room for the rest, it returns an error and leaves the new file
in its directory.
-/

namespace Xv6Fairness

open ByteStrings Outcomes

namespace OpenCall

open InodeCache (NINODE)
open Mkfs (T_DIR)
open PathLookup (Dirent Inode follow followParent child start)

def T_FILE : Int16 := 2

def O_WRONLY : UInt32 := 1

def O_RDWR : UInt32 := 2

def O_CREATE : UInt32 := 0x200

inductive FileType
  | none
  | pipe
  | inode
deriving DecidableEq

structure File where
  type : FileType
  ref : ℕ
  readable : Bool
  writable : Bool
  ip : Fin NINODE
  off : ℕ

/-- The file system, the file table, the descriptors of the caller, and the system calls in the log.
-/
structure State where
  fs : PathLookup.State
  bitmap : ℕ → Bool
  file : Fin NFILE → File
  ofile : Fin NOFILE → Option (Fin NFILE)
  outstanding : ℕ

inductive Panic
  | fs (p : PathLookup.Panic)
  | noInodes     -- "ialloc: no inodes"
  | outOfBlocks  -- "balloc: out of blocks"
  | dirlink      -- "dirlink", on a directory of the largest size
  | create       -- "create: dirlink"
  | fileclose    -- "fileclose"
deriving DecidableEq

/-- The name array as `strncpy` writes it into an entry. -/
def newEntry (inum : ℕ) (name : Bytes) : Except Panic Dirent :=
  match Directory.strncpy DIRSIZ name with
  | none => .error (.fs .bounds)
  | some text => if h : text.length = DIRSIZ then .ok ⟨inum, text, h⟩ else .error (.fs .bounds)

/-- An entry is written into the first empty place or behind the last one. -/
def putEntry : List Dirent → Dirent → List Dirent
  | [], e => [e]
  | x :: xs, e => if x.inum = 0 then e :: xs else x :: putEntry xs e

/-- The blocks that `bmap` takes for the entry: one for each 32 entries behind the last one, and one
for their addresses with the thirteenth. -/
def blocksFor (es : List Dirent) : ℕ :=
  if es.any fun e => e.inum = 0 then 0
  else if 16 * es.length % BSIZE ≠ 0 then 0
  else if 16 * es.length / BSIZE = NDIRECT then 2 else 1

def balloc (size : ℕ) (bitmap : ℕ → Bool) : Except Panic (ℕ → Bool) :=
  match (List.range size).find? fun b => bitmap b = false with
  | none => .error .outOfBlocks
  | some b => .ok (Function.update bitmap b true)

def ballocs (size : ℕ) : ℕ → (ℕ → Bool) → Except Panic (ℕ → Bool)
  | 0, bitmap => .ok bitmap
  | n + 1, bitmap => do
    let bitmap ← balloc size bitmap
    ballocs size n bitmap

/-- The sizes in the superblock. -/
structure Sizes where
  ninodes : ℕ
  size : ℕ

variable (sb : Sizes)

/-- The number of a free inode, marked with its type. -/
def ialloc (fs : PathLookup.State) (type : Int16) : Except Panic (ℕ × PathLookup.State) :=
  match (List.range sb.ninodes).find? fun i => 1 ≤ i ∧ (fs.inode i).type = 0 with
  | none => .error .noInodes
  | some i => .ok (i, fs.setInode i ⟨type, 0, []⟩)

namespace State

variable (s : State)

def withFs (fs : PathLookup.State) : State := { s with fs := fs }

/-- `create` once the name has not been found in the directory `dp`. -/
def createNew (dp : Fin NINODE) (name : Bytes)
    (type : Int16) : Except Panic (Fin NINODE × State) := do
  let (inum, fs) ← ialloc sb s.fs type
  let (ip, fs) ← (fs.iget inum).mapError .fs
  let fs ← (fs.ilock ip).mapError .fs
  let fs := fs.setInode inum ⟨type, 1, []⟩
  let (found, fs) ← (fs.dirlookup dp name).mapError .fs
  if found.isSome then .error .create
  else do
    let es := (fs.ip dp).entries
    if (es.all fun e => e.inum ≠ 0) ∧ MAXFILE * BSIZE ≤ 16 * es.length then .error .dirlink
    else do
      let bitmap ← ballocs sb.size (blocksFor es) s.bitmap
      let entry ← newEntry inum name
      let fs := fs.setInode (fs.slot dp).inum { fs.ip dp with entries := putEntry es entry }
      .ok (ip, { s with fs := fs.iput dp, bitmap := bitmap })

/-- `create(path, T_FILE, 0, 0)`. -/
def create (cwd : Fin NINODE) (path name : Bytes) : Except Panic (Option (Fin NINODE) × State) := do
  let (dp, name, fs) ← (s.fs.nameiparent cwd path name).mapError .fs
  match dp with
  | none => .ok (none, s.withFs fs)
  | some dp => do
    let fs ← (fs.ilock dp).mapError .fs
    let (found, fs) ← (fs.dirlookup dp name).mapError .fs
    match found with
    | some ip => do
      let fs := fs.iput dp
      let fs ← (fs.ilock ip).mapError .fs
      if (fs.ip ip).type = T_FILE then .ok (some ip, s.withFs fs)
      else .ok (none, s.withFs (fs.iput ip))
    | none => do
      let (ip, s) ← (s.withFs fs).createNew sb dp name T_FILE
      .ok (some ip, s)

/-- Without `O_CREATE`. -/
def openOld (cwd : Fin NINODE) (path name : Bytes) (omode : UInt32) :
    Except Panic (Option (Fin NINODE) × State) := do
  let (ip, _, fs) ← (s.fs.namei cwd path name).mapError .fs
  match ip with
  | none => .ok (none, s.withFs fs)
  | some ip => do
    let fs ← (fs.ilock ip).mapError .fs
    if (fs.ip ip).type = T_DIR ∧ omode ≠ 0 then .ok (none, s.withFs (fs.iput ip))
    else .ok (some ip, s.withFs fs)

def openInode (cwd : Fin NINODE) (path name : Bytes) (omode : UInt32) :
    Except Panic (Option (Fin NINODE) × State) :=
  if omode &&& O_CREATE ≠ 0 then s.create sb cwd path name else s.openOld cwd path name omode

def setFile (f : Fin NFILE) (x : File) : State := { s with file := Function.update s.file f x }

def filealloc : Option (Fin NFILE × State) :=
  ((List.finRange NFILE).find? fun f => (s.file f).ref = 0).map fun f =>
    (f, s.setFile f { s.file f with ref := 1 })

def fdalloc (f : Fin NFILE) : Option (Fin NOFILE × State) :=
  ((List.finRange NOFILE).find? fun fd => s.ofile fd = none).map fun fd =>
    (fd, { s with ofile := Function.update s.ofile fd (some f) })

/-- What closing the last reference does to a pipe is not part of this state. -/
def fileclose (f : Fin NFILE) : Except Panic State :=
  if (s.file f).ref < 1 then .error .fileclose
  else if 1 < (s.file f).ref then .ok (s.setFile f { s.file f with ref := (s.file f).ref - 1 })
  else
    let t := s.setFile f { s.file f with ref := 0, type := .none }
    if (s.file f).type = .inode then .ok (t.withFs (t.fs.iput (s.file f).ip)) else .ok t

def beginOp : State := { s with outstanding := s.outstanding + 1 }

def endOp : State := { s with outstanding := s.outstanding - 1 }

/-- `sys_open` once it has an inode. -/
def openFile (ip : Fin NINODE) (omode : UInt32) : Except Panic (ℤ × State) :=
  match s.filealloc with
  | none => .ok (-1, (s.withFs (s.fs.iput ip)).endOp)
  | some (f, s) =>
    match s.fdalloc f with
    | none => do
      let s ← s.fileclose f
      .ok (-1, (s.withFs (s.fs.iput ip)).endOp)
    | some (fd, s) => .ok (fd.val, s.endOp.setFile f
        { s.file f with
          type := .inode, ip := ip, off := 0, readable := omode &&& O_WRONLY = 0,
          writable := omode &&& O_WRONLY ≠ 0 ∨ omode &&& O_RDWR ≠ 0 })

/-- The arguments are the path in user memory, if it is a valid string, and the mode. -/
def sysOpen (cwd : Fin NINODE) (path : Option Bytes) (name : Bytes) (omode : UInt32) :
    Except Panic (ℤ × State) :=
  match path with
  | none => .ok (-1, s)
  | some path => do
    let (ip, s) ← s.beginOp.openInode sb cwd path name omode
    match ip with
    | none => .ok (-1, s.endOp)
    | some ip => s.openFile ip omode

end State

structure Unchanged (s t : State) : Prop where
  inode : t.fs.inode = s.fs.inode
  refs : ∀ i, t.fs.refs i = s.fs.refs i
  bitmap : t.bitmap = s.bitmap
  file : t.file = s.file
  ofile : t.ofile = s.ofile
  outstanding : t.outstanding = s.outstanding

/-- The path names a file that is not there, in a directory that is. -/
def Creates (s : State) (cwd : Fin NINODE) (str : Bytes) (omode : UInt32) : Prop :=
  omode &&& O_CREATE ≠ 0 ∧ ∃ d e, followParent s.fs.inode (start s.fs cwd str)
    (elems str) = some (d, e) ∧
    child s.fs.inode d e = none

/-- No file structure or no descriptor is free. -/
def NoRoom (s : State) : Prop := (∀ f, (s.file f).ref ≠ 0) ∨ ∀ fd, s.ofile fd ≠ none

structure Ready (s : State) (cwd : Fin NINODE) : Prop where
  fs : PathLookup.Ready s.fs cwd
  file : ∀ f, (s.file f).ref = 0 → (s.file f).type = .none

/-- Only the file system has changed. -/
structure SameFiles (s t : State) : Prop where
  file : t.file = s.file
  ofile : t.ofile = s.ofile
  outstanding : t.outstanding = s.outstanding

/-- The outcomes of the search for an inode. -/
inductive Opened (s : State) (creates : Prop) : Option (Fin NINODE) × State → Prop
  | failed {t : State} (hnot : ¬ creates) (h : Unchanged s t) : Opened s creates (none, t)
  | old {t : State} {k : Fin NINODE} (hnot : ¬ creates) (hk : PathLookup.Holds s.fs t.fs k)
      (hbitmap : t.bitmap = s.bitmap) (hsame : SameFiles s t) : Opened s creates (some k, t)
  | new {t : State} {k : Fin NINODE} {inum : ℕ} (hcreates : creates)
      (hfree : (s.fs.inode inum).type = 0) (hnew : t.fs.inode inum = ⟨T_FILE, 1, []⟩)
      (hk : (t.fs.slot k).inum = inum) (hsame : SameFiles s t) : Opened s creates (some k, t)

section Opening

variable {sb : Sizes} {s t : State} {cwd k dp : Fin NINODE} {str rest name : Bytes} {omode : UInt32}
  {creates : Prop}

abbrev Any {ε : Type} : ε → Prop := fun _ => True

theorem Unchanged.withFs {fs : PathLookup.State} (hinode : fs.inode = s.fs.inode)
    (hrefs : ∀ i, fs.refs i = s.fs.refs i) : Unchanged s (s.withFs fs) :=
  ⟨hinode, hrefs, rfl, rfl, rfl, rfl⟩

theorem openOld_spec (hready : PathLookup.Ready s.fs cwd) (hnul : ∀ c ∈ str, c ≠ 0)
    (hname : name.length = DIRSIZ) (hnot : ¬ creates) :
    Ends Any (s.openOld cwd (str ++ 0 :: rest) name omode) (Opened s creates) := by
  have hwalk := PathLookup.namex_spec false rest hready hnul hname
  rw [State.openOld]
  apply (hwalk.mapError fun _ _ => trivial).bind
  rintro ⟨k | k, nm, fs⟩ hfound
  · exact .ok (.failed hnot (.withFs hfound.inode fun i => (hfound.refs i).trans (Nat.add_zero _)))
  · obtain ⟨fs', hlock, hk, -⟩ := (hfound.held k rfl).ilock
    have hput := hk.iput
    dsimp only at hlock ⊢
    rw [hlock]
    change Ends Any (if _ then _ else _) _
    apply Ends.ite
    · exact fun _ => .ok (.failed hnot (.withFs hput.1 hput.2))
    · exact fun _ => .ok (.old hnot hk rfl ⟨rfl, rfl, rfl⟩)

theorem ialloc_spec {fs : PathLookup.State} {type : Int16} :
    Ends Any (ialloc sb fs type) fun r => (fs.inode r.1).type = 0 ∧
    r.2 = fs.setInode r.1 ⟨type, 0, []⟩ := by
  rw [ialloc]
  cases hfind : (List.range sb.ninodes).find? fun i => 1 ≤ i ∧ (fs.inode i).type = 0 with
  | none => exact .error trivial
  | some i =>
      have hi : 1 ≤ i ∧ (fs.inode i).type = 0 := by simpa using List.find?_some hfind
      exact .ok ⟨hi.2, rfl⟩

theorem iput_inode {fs : PathLookup.State} {i : ℕ} (h : i ≠ (fs.slot k).inum) :
    (fs.iput k).inode i = fs.inode i := by
  rw [PathLookup.State.iput]
  split_ifs
  · exact Function.update_of_ne h _ _
  · rfl

theorem iput_inum {fs : PathLookup.State} (j : Fin NINODE) :
    ((fs.iput k).slot j).inum = (fs.slot j).inum := by
  rw [PathLookup.State.iput]
  split_ifs
  · by_cases hj : j = k
    · rw [hj, PathLookup.slot_setSlot_self]
    · rw [PathLookup.slot_setSlot_of_ne hj]
      rfl
  · by_cases hj : j = k
    · rw [hj, PathLookup.slot_setSlot_self]
      rfl
    · rw [PathLookup.slot_setSlot_of_ne hj]

theorem ilock_same {fs : PathLookup.State} : Ends Any (fs.ilock k) fun fs' =>
    fs'.inode = fs.inode ∧ ∀ j, (fs'.slot j).inum = (fs.slot j).inum := by
  rw [PathLookup.State.ilock]
  refine Ends.ite (fun _ => .error trivial) fun _ =>
    Ends.ite (fun _ => .ok ⟨rfl, fun _ => rfl⟩) fun _ =>
    Ends.ite (fun _ => .error trivial) fun _ => .ok ⟨rfl, fun j => ?_⟩
  by_cases hj : j = k
  · rw [hj, PathLookup.slot_setSlot_self]
  · rw [PathLookup.slot_setSlot_of_ne hj]

theorem dirlookup_none {fs : PathLookup.State} {r : Option (Fin NINODE) × PathLookup.State}
    (h : fs.dirlookup k name = .ok r) (hr : r.1 = none) : r.2 = fs := by
  rw [PathLookup.State.dirlookup] at h
  split_ifs at h
  cases hfind : PathLookup.State.findEntry name (fs.ip k).entries with
  | none =>
      rw [hfind] at h
      cases h
      rfl
  | some i =>
      rw [hfind] at h
      dsimp only at h
      cases hget : fs.iget i with
      | error p =>
          rw [hget] at h
          cases h
      | ok x =>
          rw [hget] at h
          cases h
          cases hr

theorem createNew_spec (hunique : s.fs.Unique) (hdp : 0 < (s.fs.slot dp).ref)
    (hdir : (s.fs.ip dp).type = T_DIR) :
    Ends Any (s.createNew sb dp name T_FILE) fun r => ∃ inum, (s.fs.inode inum).type = 0 ∧
      r.2.fs.inode inum = ⟨T_FILE, 1, []⟩ ∧ (r.2.fs.slot r.1).inum = inum ∧ SameFiles s r.2 := by
  rw [State.createNew]
  apply ialloc_spec.bind
  rintro ⟨inum, fs₁⟩ ⟨hfree, hfs₁⟩
  dsimp only at hfree hfs₁ ⊢
  subst hfs₁
  have hne : inum ≠ (s.fs.slot dp).inum := by
    rintro rfl
    rw [PathLookup.State.ip, hfree] at hdir
    exact absurd hdir (by decide)
  have hunique₁ : (s.fs.setInode inum ⟨T_FILE, 0, []⟩).Unique := hunique
  apply ((PathLookup.iget_spec hunique₁ inum).mapError fun _ _ => trivial).bind
  rintro ⟨ip, fs₂⟩ htaken
  have hdp₂ : (fs₂.slot dp).inum = (s.fs.slot dp).inum := (htaken.kept dp hdp).1
  apply (ilock_same.mapError fun _ _ => trivial).bind
  rintro fs₃ ⟨-, hinum₃⟩
  dsimp only at hinum₃ ⊢
  cases hlookup : (fs₃.setInode inum ⟨T_FILE, 1, []⟩).dirlookup dp name with
  | error p => exact .error trivial
  | ok r =>
      obtain ⟨found, fs₄⟩ := r
      change Ends Any (if found.isSome then _ else _) _
      apply Ends.ite
      · exact fun _ => .error trivial
      · intro hnone
        have hfound : found = none := Option.not_isSome_iff_eq_none.mp hnone
        have hfs₄ : fs₄ = fs₃.setInode inum ⟨T_FILE, 1, []⟩ := dirlookup_none hlookup hfound
        rw [hfs₄]
        apply Ends.ite
        · exact fun _ => .error trivial
        · intro _
          have hrest : ∀ {α : Type} {x : Except Panic α}, Ends Any x fun _ => True :=
            fun {_ x} => by
            cases x with
            | error e => exact .error trivial
            | ok a => exact .ok trivial
          apply hrest.bind
          intro bitmap _
          apply hrest.bind
          intro e _
          have hdp₃ : inum ≠ (fs₃.slot dp).inum := by
            rw [hinum₃, hdp₂]
            exact hne
          have hkept :
              ∀ x, (((fs₃.setInode inum ⟨T_FILE, 1, []⟩).setInode (fs₃.slot dp).inum x).iput
              dp).inode inum = ⟨T_FILE, 1, []⟩ := fun x => by
            rw [iput_inode (by exact hdp₃)]
            exact (Function.update_of_ne hdp₃ _ _).trans (Function.update_self _ _ _)
          have hslot :
              ∀ x, ((((fs₃.setInode inum ⟨T_FILE, 1, []⟩).setInode (fs₃.slot dp).inum x).iput
              dp).slot ip).inum = inum := fun x => by
            rw [iput_inum]
            exact (hinum₃ ip).trans htaken.inum
          exact .ok ⟨inum, hfree, hkept _, hslot _, rfl, rfl, rfl⟩

theorem create_spec (hready : PathLookup.Ready s.fs cwd) (hnul : ∀ c ∈ str, c ≠ 0)
    (hname : name.length = DIRSIZ) (homode : omode &&& O_CREATE ≠ 0) :
    Ends Any (s.create sb cwd (str ++ 0 :: rest) name) (Opened s (Creates s cwd str omode)) := by
  have hwalk := PathLookup.namex_spec true rest hready hnul hname
  rw [State.create]
  apply (hwalk.mapError fun _ _ => trivial).bind
  rintro ⟨dp, nm, fs⟩ hfound
  have hanswer : (PathLookup.found (dp, nm, fs)).map (·, cString nm) =
      followParent s.fs.inode (start s.fs cwd str) (elems str) := hfound.answer
  cases dp with
  | none =>
      refine .ok (.failed ?_ (.withFs hfound.inode fun i => (hfound.refs i).trans (Nat.add_zero _)))
      rintro ⟨-, d, e, hparent, -⟩
      rw [← hanswer] at hparent
      cases hparent
  | some dp =>
      have hlen : nm.length = DIRSIZ := hfound.length rfl dp rfl
      obtain ⟨fs', hlock, hdp, hinum⟩ := (hfound.held dp rfl).ilock
      dsimp only at hlock hinum ⊢
      have hparent : followParent s.fs.inode (start s.fs cwd str) (elems str) =
          some ((fs'.slot dp).inum, cString nm) := by
        rw [hinum]
        exact hanswer.symm
      have hdir : (s.fs.inode (fs'.slot dp).inum).type = T_DIR :=
        PathLookup.followParent_dir hparent
      have hcreates : Creates s cwd str omode ↔
          child s.fs.inode (fs'.slot dp).inum (cString nm) = none := by
        rw [Creates, and_iff_right homode, hparent]
        constructor
        · rintro ⟨d, e, heq, hchild⟩
          cases heq
          exact hchild
        · exact fun hchild => ⟨_, _, rfl, hchild⟩
      have hkey : cString nm = (cString nm).take DIRSIZ := by
        rw [List.take_of_length_le]
        exact (List.takeWhile_sublist _).length_le.trans hlen.le
      rw [hlock]
      change Ends Any ((fs'.dirlookup dp nm).mapError Panic.fs >>= _) _
      apply ((hdp.dirlookup hready hdir hlen hkey).mapError fun _ _ => trivial).bind
      rintro r (⟨rfl, hchild⟩ | ⟨i, j, u, rfl, htaken, hchild, htype, hlinked⟩)
      · have hdir' : (fs'.ip dp).type = T_DIR := by
          rw [PathLookup.State.ip, hdp.inode]
          exact hdir
        apply (createNew_spec (s := s.withFs fs') hdp.unique hdp.ref hdir').bind
        rintro ⟨ip, t⟩ ⟨inum, hfree, hnew, hslot, hsame⟩
        refine .ok (.new (hcreates.mpr hchild) ?_ hnew hslot ⟨hsame.file, hsame.ofile,
          hsame.outstanding⟩)
        rw [← hdp.inode]
        exact hfree
      · have hnot : ¬ Creates s cwd str omode := fun h => by
          rw [hcreates.mp h] at hchild
          cases hchild
        obtain ⟨hnext, -⟩ := hdp.advance htaken htype hlinked
        obtain ⟨fs'', hlock', hj, -⟩ := hnext.ilock
        have hput := hj.iput
        dsimp only
        rw [hlock']
        change Ends Any (if _ then _ else _) _
        apply Ends.ite
        · exact fun _ => .ok (.old hnot hj rfl ⟨rfl, rfl, rfl⟩)
        · exact fun _ => .ok (.failed hnot (.withFs hput.1 hput.2))

theorem fileclose_filealloc (hready : ∀ f, (s.file f).ref = 0 → (s.file f).type = .none)
    {f : Fin NFILE}
    (hf : (s.file f).ref = 0) : (s.setFile f { s.file f with ref := 1 }).fileclose f = .ok s := by
  have hself : (s.setFile f { s.file f with ref := 1 }).file f = { s.file f with ref := 1 } :=
    Function.update_self _ _ _
  have htype := hready f hf
  have hrestore :
      (⟨.none, 0, (s.file f).readable, (s.file f).writable, (s.file f).ip, (s.file f).off⟩ :
      File) = s.file f := by
    cases hx : s.file f with
    | mk type ref readable writable ip off =>
        rw [hx] at hf htype
        cases hf
        cases htype
        rfl
  rw [State.fileclose, hself]
  dsimp only
  rw [if_neg (by decide), if_neg (by decide), htype, if_neg (by decide), State.setFile,
    State.setFile]
  dsimp only
  rw [Function.update_idem, hrestore, Function.update_eq_self]

theorem openFile_spec (hfile : ∀ f, (s.file f).ref = 0 → (s.file f).type = .none) {r : ℤ × State}
    (h : s.openFile k omode = .ok r) (hr : r.1 = -1) :
    NoRoom s ∧ r.2 = (s.withFs (s.fs.iput k)).endOp := by
  rw [State.openFile, State.filealloc] at h
  cases hfind : (List.finRange NFILE).find? fun f => (s.file f).ref = 0 with
  | none =>
      rw [hfind] at h
      cases h
      refine ⟨.inl fun f hf => ?_, rfl⟩
      exact absurd (decide_eq_true hf) (List.find?_eq_none.mp hfind f (List.mem_finRange f))
  | some f =>
      have hf : (s.file f).ref = 0 := by simpa using List.find?_some hfind
      rw [hfind, Option.map_some] at h
      dsimp only at h
      rw [State.fdalloc] at h
      cases hfd : (List.finRange NOFILE).find? fun fd => s.ofile fd = none with
      | none =>
          have hfd' : ((List.finRange NOFILE).find? fun fd =>
              (s.setFile f { s.file f with ref := 1 }).ofile fd = none) = none := hfd
          rw [hfd', Option.map_none] at h
          dsimp only at h
          rw [fileclose_filealloc hfile hf] at h
          cases h
          refine ⟨.inr fun fd hnone => ?_, rfl⟩
          exact absurd (decide_eq_true hnone) (List.find?_eq_none.mp hfd fd (List.mem_finRange fd))
      | some fd =>
          have hfd' : ((List.finRange NOFILE).find? fun fd =>
              (s.setFile f { s.file f with ref := 1 }).ofile fd = none) = some fd := hfd
          rw [hfd', Option.map_some] at h
          cases h
          dsimp only at hr
          omega

theorem openInode_spec (hready : PathLookup.Ready s.fs cwd) (hnul : ∀ c ∈ str, c ≠ 0)
    (hname : name.length = DIRSIZ) :
    Ends Any (s.openInode sb cwd (str ++ 0 :: rest) name omode)
    (Opened s (Creates s cwd str omode)) := by
  rw [State.openInode]
  apply Ends.ite
  · exact fun homode => create_spec hready hnul hname homode
  · exact fun homode => openOld_spec hready hnul hname fun hcreates => homode hcreates.1

theorem sysOpen_failure (hready : Ready s cwd) (hnul : ∀ c ∈ str, c ≠ 0)
    (hname : name.length = DIRSIZ)
    (h : s.sysOpen sb cwd (some (str ++ 0 :: rest)) name omode = .ok (-1, t)) :
    Unchanged s t ↔ ¬ (Creates s cwd str omode ∧ NoRoom s) := by
  have hfs : PathLookup.Ready s.beginOp.fs cwd := hready.fs
  rw [State.sysOpen] at h
  obtain ⟨r, hopen, h⟩ := exists_of_bind_ok h
  have hopened := (openInode_spec hfs hnul hname).of_ok hopen
  have hend : s.beginOp.outstanding - 1 = s.outstanding := Nat.add_sub_cancel _ _
  cases hopened with
  | failed hnot hsame =>
      cases h
      refine iff_of_true ⟨hsame.inode, hsame.refs, hsame.bitmap, hsame.file, hsame.ofile, ?_⟩
        fun hc => hnot hc.1
      rw [State.endOp, hsame.outstanding]
      exact hend
  | @old u k hnot hk hbitmap hsame =>
      have hfile : ∀ f, (u.file f).ref = 0 → (u.file f).type = .none := hsame.file ▸ hready.file
      obtain ⟨-, hu⟩ := openFile_spec hfile h rfl
      have hput := hk.iput
      replace hu : t = _ := hu
      rw [hu]
      refine iff_of_true ⟨hput.1, hput.2, hbitmap, hsame.file, hsame.ofile, ?_⟩ fun hc => hnot hc.1
      rw [State.endOp]
      change u.outstanding - 1 = _
      rw [hsame.outstanding]
      exact hend
  | @new u k inum hcreates hfree hnew hk hsame =>
      have hfile : ∀ f, (u.file f).ref = 0 → (u.file f).type = .none := hsame.file ▸ hready.file
      obtain ⟨hroom, hu⟩ := openFile_spec hfile h rfl
      have hroom' : NoRoom s := by
        rw [NoRoom, hsame.file, hsame.ofile] at hroom
        exact hroom
      replace hu : t = _ := hu
      refine iff_of_false (fun hunchanged => ?_) (not_not.mpr ⟨hcreates, hroom'⟩)
      have hinode := congrFun hunchanged.inode inum
      have hstays : (u.fs.iput k).inode inum = ⟨T_FILE, 1, []⟩ := by
        rw [PathLookup.State.iput, PathLookup.State.ip, hk, hnew,
          if_neg fun h => absurd h.2.1 (by decide)]
        exact hnew
      rw [hu] at hinode
      change (u.fs.iput k).inode inum = s.fs.inode inum at hinode
      rw [hstays] at hinode
      change (s.fs.inode inum).type = 0 at hfree
      rw [← hinode] at hfree
      exact absurd hfree (by decide)

/-- A call of `open` that fails has changed nothing, except where it has made a new file and then
found no file structure or no descriptor. -/
theorem open_failure_iff (hready : Ready s cwd) (hname : name.length = DIRSIZ) (path : Option Bytes)
    (hpath : ∀ p ∈ path, 0 ∈ p) (h : s.sysOpen sb cwd path name omode = .ok (-1, t)) :
    Unchanged s t ↔ ¬ ((∃ p ∈ path, Creates s cwd (cString p) omode) ∧ NoRoom s) := by
  cases path with
  | none =>
      cases h
      refine iff_of_true ⟨rfl, fun _ => rfl, rfl, rfl, rfl, rfl⟩ ?_
      rintro ⟨⟨p, hp, -⟩, -⟩
      cases hp
  | some p =>
      have hmem : 0 ∈ p := hpath p rfl
      have hlt : (cString p).length < p.length := by
        by_contra hle
        have heq : cString p = p := (List.takeWhile_sublist _).eq_of_length_le (not_lt.mp hle)
        exact absurd rfl (of_decide_eq_true (List.mem_takeWhile_imp (p := fun c => decide (c ≠ 0))
          (show 0 ∈ cString p by rwa [heq])))
      obtain ⟨rest, hp⟩ := eq_cString_append hlt
      have hnul : ∀ c ∈ cString p, c ≠ 0 := fun c hc =>
        of_decide_eq_true (List.mem_takeWhile_imp (p := fun c => decide (c ≠ 0)) hc)
      rw [hp] at h
      rw [sysOpen_failure hready hnul hname h]
      refine not_congr (and_congr_left fun _ => ⟨fun hc => ⟨p, rfl, hc⟩, ?_⟩)
      rintro ⟨q, hq, hc⟩
      cases hq
      exact hc

/-- The two directories again, and no file structure left. -/
def fullTable : State where
  fs := PathLookup.smallTree
  bitmap := fun b => decide (b < 60)
  file := fun _ => ⟨.pipe, 1, true, true, InodeCache.first, 0⟩
  ofile := fun _ => none
  outstanding := 0

theorem fullTable_ready : Ready fullTable ⟨0, by decide⟩ :=
  ⟨PathLookup.smallTree_ready, fun _ h => absurd h Nat.one_ne_zero⟩

def sizes : Sizes := ⟨200, 1000⟩

/-- "b" exists. -/
theorem open_failure_iff_existing_file :
    ∃ t, fullTable.sysOpen sizes ⟨0, by decide⟩ (some [98, 0])
    (List.replicate 14 0) O_CREATE = .ok (-1, t) ∧
      Unchanged fullTable t := by
  have hrun : ((fullTable.sysOpen sizes ⟨0, by decide⟩ (some [98, 0]) (List.replicate 14 0)
      O_CREATE).toOption.any fun r => r.1 = -1) = true := by
    decide +kernel
  obtain ⟨⟨r, t⟩, hr, hminus⟩ := (Option.any_eq_true _ _).mp hrun
  obtain rfl : r = -1 := of_decide_eq_true hminus
  have hopen := ok_of_toOption hr
  refine ⟨t, hopen, (open_failure_iff fullTable_ready List.length_replicate _ ?_ hopen).mpr ?_⟩
  · rintro p hp
    cases hp
    decide
  · rintro ⟨⟨p, hp, -, d, e, hparent, hchild⟩, -⟩
    cases hp
    have hroot :
        followParent fullTable.fs.inode (start fullTable.fs ⟨0, by decide⟩ (cString [98, 0]))
        (elems (cString [98, 0])) = some (1, [98]) := by
      decide +kernel
    rw [hroot] at hparent
    cases hparent
    exact absurd hchild (by decide +kernel)

/-- "c" does not, and is left behind as inode 3. -/
theorem failed_open_creates :
    Ready fullTable ⟨0, by decide⟩ ∧
    ∃ t, fullTable.sysOpen sizes ⟨0, by decide⟩ (some [99, 0])
    (List.replicate 14 0) O_CREATE = .ok (-1, t) ∧
      ¬ Unchanged fullTable t := by
  have hrun : ((fullTable.sysOpen sizes ⟨0, by decide⟩ (some [99, 0]) (List.replicate 14 0)
      O_CREATE).toOption.any fun r => r.1 = -1 ∧ (r.2.fs.inode 3).type = T_FILE) = true := by
    decide +kernel
  obtain ⟨⟨r, t⟩, hr, hresult⟩ := (Option.any_eq_true _ _).mp hrun
  obtain ⟨hminus, htype⟩ : r = -1 ∧ (t.fs.inode 3).type = T_FILE := of_decide_eq_true hresult
  subst hminus
  refine ⟨fullTable_ready, t, ok_of_toOption hr, fun hunchanged => ?_⟩
  rw [hunchanged.inode] at htype
  exact absurd htype (by decide)

end Opening

end OpenCall

end Xv6Fairness
