/-!
# Kernel constants

The constants of `kernel/param.h` and `kernel/fs.h` that the modelled code
reads.
-/

namespace SummerOsk

/-- Maximum number of processes. -/
def NPROC : Nat := 64

/-- Maximum number of CPUs. -/
def NCPU : Nat := 8

/-- Open files per process. -/
def NOFILE : Nat := 16

/-- Open files per system. -/
def NFILE : Nat := 100

/-- Max exec arguments. -/
def MAXARG : Nat := 32

/-- Max number of blocks any file system operation writes. -/
def MAXOPBLOCKS : Nat := 10

/-- Max number of data blocks in the on-disk log. -/
def LOGSIZE : Nat := MAXOPBLOCKS * 3

/-- Size of the disk block cache. -/
def NBUF : Nat := MAXOPBLOCKS * 3

/-- Maximum number of active i-nodes. -/
def NINODE : Nat := 50

/-- Major device numbers are below this. -/
def NDEV : Nat := 10

/-- Device number of the file system root disk. -/
def ROOTDEV : Nat := 1

/-- Block size in bytes. -/
def BSIZE : Nat := 1024

theorem zero_lt_NPROC : 0 < NPROC := by decide

theorem one_lt_NPROC : 1 < NPROC := by decide

theorem zero_lt_NBUF : 0 < NBUF := by decide

end SummerOsk
