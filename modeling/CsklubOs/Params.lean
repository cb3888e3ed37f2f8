/-
**The constants of the kernel.**

The numbers that `kernel/param.h`, `kernel/fs.h`, `kernel/riscv.h` and `kernel/memlayout.h` fix, for
the configuration that `conf/lab.mk` selects (`LAB=util`).  They are kept as definitions rather than
unfolded numerals so that a statement says which limit it is about.
-/

import Mathlib

set_option autoImplicit false

namespace CsklubOs

/-! ### `param.h` -/

/-- `NPROC`: the number of slots of the process table. -/
def nProc : ℕ := 64

theorem nProc_pos : 0 < nProc := by decide

instance : NeZero nProc := ⟨nProc_pos.ne'⟩

/-- `MAXOPBLOCKS`: the most blocks any file-system operation is expected to write. -/
def maxOpBlocks : ℕ := 10

/-- `LOGSIZE`: the capacity of `log.lh.block`. -/
def logSize : ℕ := maxOpBlocks * 3

/-- `NBUF`: the number of buffers of the block cache. -/
def nBuf : ℕ := maxOpBlocks * 3

/-- `NFILE`: the number of entries of the file table. -/
def nFile : ℕ := 100

/-- `NOFILE`: the number of descriptors of a process. -/
def nOFile : ℕ := 16

/-- `NINODE`: the number of entries of the table of in-memory inodes. -/
def nInode : ℕ := 50

theorem nInode_pos : 0 < nInode := by decide

/-- `NDEV`: one beyond the highest major device number. -/
def nDev : ℕ := 10

/-- `FSSIZE`: the blocks of the disk that `mkfs` makes. -/
def fsSize : ℕ := 2000

/-- `MAXARG`: the most arguments `exec` takes. -/
def maxArg : ℕ := 32

/-- `USERSTACK`: the pages of the stack that `exec` makes. -/
def userStack : ℕ := 2

/-! ### `riscv.h` and `memlayout.h` -/

/-- `PGSIZE`: the bytes of a page. -/
def pgSize : ℕ := 4096

/-- `MAXVA`: one beyond the highest virtual address that the kernel uses. -/
def maxVA : ℕ := 2 ^ 38

/-- `TRAMPOLINE`: the highest page of every address space. -/
def trampoline : ℕ := maxVA - pgSize

/-- `TRAPFRAME`: the page below the trampoline. -/
def trapframe : ℕ := trampoline - pgSize

/-- `KERNBASE`: the physical address at which memory starts. -/
def kernBase : ℕ := 0x80000000

/-- `PHYSTOP`: the end of physical memory. -/
def physTop : ℕ := kernBase + 128 * 1024 * 1024

/-! ### `fs.h` -/

/-- `BSIZE`: the bytes of a disk block. -/
def bSize : ℕ := 1024

/-- `ROOTINO`: the number of the root directory. -/
def rootIno : ℕ := 1

/-- `NDIRECT`: the blocks of a file whose numbers are in the inode. -/
def nDirect : ℕ := 12

/-- `NINDIRECT`: the block numbers that an indirect block holds. -/
def nIndirect : ℕ := bSize / 4

/-- `MAXFILE`: the most blocks a file has. -/
def maxFile : ℕ := nDirect + nIndirect

/-- `IPB`: the inodes of a block. -/
def ipb : ℕ := bSize / 64

/-- `BPB`: the free-map bits of a block. -/
def bpb : ℕ := bSize * 8

/-- `DIRSIZ`: the bytes of a name in a directory. -/
def dirSiz : ℕ := 14

end CsklubOs
