import Xv6Fairness.ByteBlocks

/-!
# The layout of the disk

The constants of the file system and the superblock that `mkfs` writes: the log lies behind the boot
block and the superblock, and the inode blocks, the bitmap and the data blocks follow.
-/

namespace Xv6Fairness

/-- Bytes of a block. -/
def BSIZE : ℕ := 512

abbrev DiskBlock := ByteBlocks.Block BSIZE

/-- The most blocks that a file system operation writes. -/
def MAXOPBLOCKS : ℕ := 10

def LOGSIZE : ℕ := MAXOPBLOCKS * 3

/-- Buffers of the block cache. -/
def NBUF : ℕ := MAXOPBLOCKS * 3

def FSSIZE : ℕ := 1000

def NINODES : ℕ := 200

/-- Inodes per block. -/
def IPB : ℕ := BSIZE / 64

/-- Bits of the bitmap per block. -/
def BPB : ℕ := BSIZE * 8

structure Superblock where
  size : ℕ
  nblocks : ℕ
  ninodes : ℕ
  nlog : ℕ
  logstart : ℕ
  inodestart : ℕ
  bmapstart : ℕ

/-- The superblock of a new file system. -/
def mkfs : Superblock :=
  let nbitmap := FSSIZE / (BSIZE * 8) + 1
  let ninodeblocks := NINODES / IPB + 1
  let nlog := LOGSIZE
  let nmeta := 2 + nlog + ninodeblocks + nbitmap
  { size := FSSIZE
    nblocks := FSSIZE - nmeta
    ninodes := NINODES
    nlog := nlog
    logstart := 2
    inodestart := 2 + nlog
    bmapstart := 2 + nlog + ninodeblocks }

end Xv6Fairness
