import Xv6Fairness.FileBytes
import Xv6Fairness.PathNames

/-!
# Writing a disk image

`mkfs` writes a file system to the sectors of a file on the host. Blocks and inode numbers are
handed out by two counters; an inode is read from its sector and written back for every append, and
the bitmap is written at the end. A sector behind the end of the image cannot be read.
-/

namespace Xv6Fairness

open ByteBlocks ByteStrings Outcomes FileBlocks

namespace Mkfs

/-- What the superblock says. -/
abbrev sb : Layout := mkfsLayout

def ROOTINO : ℕ := 1

def T_DIR : Int16 := 1

inductive Failure
  | perror      -- `exit(1)`
  | assertion   -- `assert`
  deriving DecidableEq

/-- The image, its length, and the global counters. -/
structure State where
  sectors : ℕ
  disk : Disk
  freeinode : ℕ
  freeblock : ℕ

def nmeta : ℕ := 2 + LOGSIZE + (NINODES / IPB + 1) + (FSSIZE / (BSIZE * 8) + 1)

/-- The sector at the offset `sec * BSIZE`, a `uint`. -/
def sector (sec : ℕ) : ℕ := sec * BSIZE % 2 ^ 32 / BSIZE

section Program

variable (s : State) (sec inum used fbn j off n : ℕ) (buf : DiskBlock) (din : Dinode) (type : Int16)
  (src : ℕ → UInt8)

def wsect : State :=
  { s with
    sectors := max s.sectors (sector sec + 1)
    disk := Function.update s.disk (sector sec) buf }

def rsect : Except Failure DiskBlock :=
  if sector sec < s.sectors then .ok (s.disk (sector sec)) else .error .perror

def winode : Except Failure State := do
  let buf ← rsect s (sb.IBLOCK inum)
  .ok (wsect s (sb.IBLOCK inum) (Dinode.put buf (64 * (inum % IPB)) din))

def rinode : Except Failure Dinode := do
  let buf ← rsect s (sb.IBLOCK inum)
  .ok (Dinode.get buf (64 * (inum % IPB)))

/-- The inode that `ialloc` writes. -/
def freshDinode : Dinode where
  type := type
  major := 0
  minor := 0
  nlink := 1
  size := 0
  addrs _ := 0

def ialloc : Except Failure (ℕ × State) := do
  let inum := s.freeinode
  let s ← winode { s with freeinode := s.freeinode + 1 } inum (freshDinode type)
  .ok (inum, s)

/-- The buffer of `balloc`. -/
def bitmap : DiskBlock := (List.range used).foldl Block.setBit fun _ => 0

def balloc : Except Failure State :=
  if used < BSIZE * 8 then .ok (wsect s sb.bmapstart (bitmap used)) else .error .assertion

/-- `freeblock++`. -/
def State.take : State := { s with freeblock := s.freeblock + 1 }

/-- The first branch of `iappend`. -/
def directBlock : ℕ × Dinode × State :=
  if din.addr fbn = 0 then (s.freeblock, din.setAddr fbn s.freeblock, s.take)
  else (din.addr fbn, din, s)

/-- The indirect block of an inode. -/
def indirectAddr : Dinode × State :=
  if din.addr NDIRECT = 0 then (din.setAddr NDIRECT s.freeblock, s.take) else (din, s)

/-- Entry `j` of the indirect block. -/
def indirectEntry : Except Failure (ℕ × Dinode × State) := do
  let indirect ← rsect s (din.addr NDIRECT)
  if entry indirect j = 0 then
    .ok (s.freeblock, din,
      wsect s.take (din.addr NDIRECT) (indirect.putWord (4 * j) 4 s.freeblock))
  else .ok (entry indirect j, din, s)

/-- The address of a block of the file, "allocating if necessary". -/
def fileBlock : Except Failure (ℕ × Dinode × State) :=
  if fbn < NDIRECT then .ok (directBlock s fbn din)
  else
    let (din, s) := indirectAddr s din
    indirectEntry s (fbn - NDIRECT) din

theorem chunk_eq : min n ((off / BSIZE + 1) * BSIZE - off) = min n (BSIZE - off % BSIZE) := by
  change min n ((off / 512 + 1) * 512 - off) = min n (512 - off % 512)
  congr 1
  omega

theorem chunk_pos (hn : n ≠ 0) : 0 < min n ((off / BSIZE + 1) * BSIZE - off) := by
  rw [chunk_eq]
  exact FileBlocks.chunk_pos hn

/-- The loop of `iappend`. -/
def appendLoop (s : State) (din : Dinode) (src : ℕ → UInt8) (off n : ℕ) :
    Except Failure (ℕ × Dinode × State) :=
  if n = 0 then .ok (off, din, s)
  else
    let fbn := off / BSIZE
    if fbn < MAXFILE then do
      let (x, din, s) ← fileBlock s fbn din
      let n1 := min n ((fbn + 1) * BSIZE - off)
      let buf ← rsect s x
      let s := wsect s x (buf.patch (off - fbn * BSIZE) n1 src)
      appendLoop s din (fun k => src (n1 + k)) (off + n1) (n - n1)
    else .error .assertion
termination_by n
decreasing_by
  have hpos : 0 < min n ((off / BSIZE + 1) * BSIZE - off) := chunk_pos off n ‹¬ n = 0›
  omega

def iappend : Except Failure State := do
  let din ← rinode s inum
  let (off, din, s) ← appendLoop s din src din.size.toNat n
  winode s inum { din with size := UInt32.ofNat off }

end Program

/-- `iappend(inum, p, n)` where `p` points to `n` bytes. -/
def appendBytes (s : State) (inum : ℕ) (p : Bytes) : Except Failure State :=
  iappend s inum p.length fun k => p.getD k 0

def superblock : DiskBlock :=
  [sb.size, sb.nblocks, sb.ninodes, sb.nlog, sb.logstart, sb.inodestart, sb.bmapstart].zipIdx.foldl
    (fun buf w => buf.putWord (4 * w.2) 4 w.1) fun _ => 0

/-- The zeroed image with the superblock. -/
def newImage : State :=
  let s := (List.range FSSIZE).foldl (fun s i => wsect s i fun _ => 0) ⟨0, fun _ _ => 0, 1, nmeta⟩
  wsect s 1 superblock

/-- `struct dirent` after `bzero` and `strncpy(de.name, name, DIRSIZ)`. -/
def dirent (inum : ℕ) (name : Bytes) : Bytes :=
  [UInt8.ofNat inum, UInt8.ofNat (inum / 256)] ++ (name ++ List.replicate DIRSIZ 0).take DIRSIZ

/-- An argument, whether it can be opened, and what the calls of `read` return. -/
structure HostFile where
  arg : Bytes
  opened : Bool
  chunks : List Bytes
  arg_ne : ∀ c ∈ arg, c ≠ 0
  chunks_le : ∀ c ∈ chunks, 0 < c.length ∧ c.length ≤ BSIZE

/-- The name without the leading `_`. -/
def HostFile.name (f : HostFile) : Bytes := if f.arg.head? = some 95 then f.arg.tail else f.arg

def HostFile.content (f : HostFile) : Bytes := f.chunks.flatten

/-- One pass of the loop of `main`. -/
def addFile (s : State) (f : HostFile) : Except Failure State :=
  if 47 ∈ f.arg then .error .assertion
  else if f.opened = false then .error .perror
  else do
    let (inum, s) ← ialloc s T_FILE
    let s ← appendBytes s ROOTINO (dirent inum f.name)
    f.chunks.foldlM (fun s c => appendBytes s inum c) s

/-- "fix size of root inode dir". -/
def fixRoot (s : State) : Except Failure State := do
  let din ← rinode s ROOTINO
  winode s ROOTINO { din with size := UInt32.ofNat ((din.size.toNat / BSIZE + 1) * BSIZE) }

def main (files : List HostFile) : Except Failure State := do
  let (rootino, s) ← ialloc newImage T_DIR
  if rootino ≠ ROOTINO then .error .assertion
  else do
    let s ← appendBytes s rootino (dirent rootino (ascii ['.']))
    let s ← appendBytes s rootino (dirent rootino (ascii ['.', '.']))
    let s ← files.foldlM addFile s
    let s ← fixRoot s
    balloc s s.freeblock

end Mkfs

end Xv6Fairness
