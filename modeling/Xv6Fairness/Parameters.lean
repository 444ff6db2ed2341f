import Mathlib.Data.UInt

/-!
# The parameters of the kernel
-/

namespace Xv6Fairness

/-- Processors at most. -/
def NCPU : ℕ := 8

/-- Open files per process. -/
def NOFILE : ℕ := 16

/-- Open files per system. -/
def NFILE : ℕ := 100

/-- Arguments of `exec` at most. -/
def MAXARG : ℕ := 32

/-- The first kernel virtual address. -/
def KERNBASE : UInt32 := 0x80000000

end Xv6Fairness
