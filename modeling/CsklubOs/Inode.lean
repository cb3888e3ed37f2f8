/-
**Blocks and inodes of the file system.**

The block allocator and the inode layer of `kernel/fs.c`.  The free map is the row of its bits and
the inode blocks are the row of their `struct dinode`s; the other blocks are bytes, since the same
block may hold data or block numbers.  Block contents are those of the buffer cache.  One call runs
after the other, so the sleep-locks of the inodes are left out.

Main definitions:

* `Fs` — the file system; `Fs.logged` lists the blocks passed to `log_write`;
* `balloc`, `bfree`, `ialloc`, `iget`, `iput`, `bmap`, `itrunc` — the allocators, the table of
  inodes and the blocks of a file;
* `readi`, `writei` — the bytes of a file.
-/

import CsklubOs.Block
import CsklubOs.PageTable

set_option autoImplicit false

namespace CsklubOs

open Function

/-! ### The state -/

/-- What `fsinit` reads from the super block: `size` blocks, of which the last `nblocks` are the
data area, and `ninodes` inodes, whose numbers fit the two bytes of a directory entry. -/
class Superblock where
  size : ℕ
  nblocks : ℕ
  ninodes : ℕ
  inodestart : ℕ
  bmapstart : ℕ
  size_lt : size < 2 ^ 31
  nblocks_lt : nblocks < size
  root_lt : rootIno < ninodes
  ninodes_le : ninodes ≤ 2 ^ 16

/-- The types of an inode, `free` for `0`. -/
inductive IType
  | free
  | dir
  | file
  | device
  deriving DecidableEq

/-- `struct dinode`: `type`, `major`, `minor` and `nlink` are of type `short`. -/
structure Dinode where
  type : IType
  major : ℤ
  minor : ℤ
  nlink : ℤ
  size : ℕ
  addrs : Fin (nDirect + 1) → ℕ
  deriving DecidableEq

/-- The value that a `short` gets when `x` is assigned to it. -/
def short (x : ℤ) : ℤ := Int.bmod x (2 ^ 16)

/-- `struct inode`: the number, the count of references, and, once `valid`, a copy of the inode on
disk. -/
structure Inode where
  inum : ℕ
  ref : ℕ
  valid : Bool
  d : Dinode
  deriving DecidableEq

/-- A `struct inode *`. -/
abbrev IPtr : Type := Fin nInode

instance : LawfulBEq IPtr := inferInstance

/-- The file system: the free map, the inodes on disk, the contents of the blocks, the inode table,
and the blocks that were passed to `log_write`, latest first. -/
structure Fs where
  used : ℕ → Bool
  dinode : ℕ → Dinode
  data : ℕ → Block
  itable : IPtr → Inode
  logged : List ℕ

/-- Where the code gives up. -/
inductive FsPanic
  | freeingFreeBlock
  | igetNoInodes
  | ilock
  | ilockNoType
  | bmapOutOfRange
  | dirlookupNotDir
  | dirlookupRead
  | dirlinkRead
  | isdirempty
  | unlinkNlink
  | unlinkWritei
  | filedup
  | fileclose
  | initExiting
  /-- a pipe is used after its page was freed -/
  | freedPipe
  /-- an inode pointer is used that refers to nothing -/
  | badInode
  /-- the code for memory gives up -/
  | vm (e : VmPanic)
  deriving DecidableEq

/-- Code of the file system. -/
abbrev FsM := StateT Fs (Except FsPanic)

namespace Fs

variable [Superblock]

/-- `IBLOCK`: the block that holds inode `i`. -/
def iBlock (i : ℕ) : ℕ := i / ipb + Superblock.inodestart

/-- `BBLOCK`: the block of the free map with the bit for block `b`. -/
def bBlock (b : ℕ) : ℕ := b / bpb + Superblock.bmapstart

section

omit [Superblock]

def logWrite (b : ℕ) : FsM Unit := modify fun s => { s with logged := b :: s.logged }

/-! ### Blocks -/

/-- Changing a block in its buffer. -/
def modifyBlock (b : ℕ) (f : Block → Block) : FsM Unit :=
  modify fun s => { s with data := update s.data b (f (s.data b)) }

def bzero (b : ℕ) : FsM Unit := do
  modifyBlock b fun _ => Block.zero
  logWrite b

end

/-- The first of `n` numbers from `b` on that is not taken. -/
def firstFree (taken : ℕ → Bool) : ℕ → ℕ → Option ℕ
  | 0, _ => none
  | n + 1, b => if taken b then firstFree taken n (b + 1) else some b

/-- `balloc`: the two nested loops visit the bits of the free map in the order of the blocks. -/
def balloc : FsM ℕ := do
  let s ← get
  match firstFree s.used Superblock.size 0 with
  | none => pure 0
  | some b => do
    set { s with used := update s.used b true }
    logWrite (bBlock b)
    bzero b
    pure b

def bfree (b : ℕ) : FsM Unit := do
  let s ← get
  if s.used b = false then throw .freeingFreeBlock
  else do
    set { s with used := update s.used b false }
    logWrite (bBlock b)

/-! ### The inode table -/

section

omit [Superblock]

/-- Changing an entry of the table. -/
def modifyInode (p : IPtr) (f : Inode → Inode) : FsM Unit :=
  modify fun s => { s with itable := update s.itable p (f (s.itable p)) }

/-- Changing the copy of the inode that an entry of the table holds. -/
def modifyD (p : IPtr) (f : Dinode → Dinode) : FsM Unit :=
  modifyInode p fun ip => { ip with d := f ip.d }

/-- `iget`: the entry that has the inode, or the first that is not in use. -/
def iget (inum : ℕ) : FsM IPtr := do
  let s ← get
  match (List.finRange nInode).find? fun p => 0 < (s.itable p).ref ∧ (s.itable p).inum = inum with
  | some p => do
    modifyInode p fun ip => { ip with ref := ip.ref + 1 }
    pure p
  | none =>
    match (List.finRange nInode).find? fun p => (s.itable p).ref = 0 with
    | none => throw .igetNoInodes
    | some p => do
      modifyInode p fun ip => { ip with inum := inum, ref := 1, valid := false }
      pure p

end

/-- An inode that was filled with zeros and given a type. -/
def Dinode.fresh (type : IType) : Dinode :=
  { type := type, major := 0, minor := 0, nlink := 0, size := 0, addrs := fun _ => 0 }

def ialloc (type : IType) : FsM (Option IPtr) := do
  let s ← get
  match firstFree (fun i => (s.dinode i).type ≠ .free) (Superblock.ninodes - 1) 1 with
  | none => pure none
  | some inum => do
    set { s with dinode := update s.dinode inum (Dinode.fresh type) }
    logWrite (iBlock inum)
    let ip ← iget inum
    pure (some ip)

def iupdate (p : IPtr) : FsM Unit := do
  let s ← get
  set { s with dinode := update s.dinode (s.itable p).inum (s.itable p).d }
  logWrite (iBlock (s.itable p).inum)

omit [Superblock] in
def idup (p : IPtr) : FsM IPtr := do
  modifyInode p fun ip => { ip with ref := ip.ref + 1 }
  pure p

omit [Superblock] in
/-- `ilock`, without the lock: the inode is read from disk if it was not before. -/
def ilock (p : IPtr) : FsM Unit := do
  let s ← get
  if (s.itable p).ref < 1 then throw .ilock
  else if (s.itable p).valid then pure ()
  else if (s.dinode (s.itable p).inum).type = .free then throw .ilockNoType
  else modifyInode p fun ip => { ip with d := s.dinode ip.inum, valid := true }

/-! ### The contents of a file -/

/-- The place of the indirect block in `addrs`. -/
def indirect : Fin (nDirect + 1) := Fin.last nDirect

omit [Superblock] in
/-- Storing a block number in `ip->addrs`. -/
def setAddr (p : IPtr) (k : Fin (nDirect + 1)) (b : ℕ) : FsM Unit :=
  modifyD p fun d => { d with addrs := update d.addrs k b }

/-- The block `ip->addrs[k]`, which is allocated if there is none. -/
def mapAddr (p : IPtr) (k : Fin (nDirect + 1)) : FsM ℕ := do
  let s ← get
  if (s.itable p).d.addrs k = 0 then do
    let addr ← balloc
    if addr = 0 then pure 0
    else do
      setAddr p k addr
      pure addr
  else pure ((s.itable p).d.addrs k)

/-- The block that entry `j` of the indirect block `a` names, which is allocated if there is
none. -/
def mapEntry (a j : ℕ) : FsM ℕ := do
  let s ← get
  if (s.data a).word (4 * j) = 0 then do
    let addr ← balloc
    if addr = 0 then pure 0
    else do
      modifyBlock a fun blk => blk.setWord (4 * j) addr
      logWrite a
      pure addr
  else pure ((s.data a).word (4 * j))

/-- `bmap`; `0` if the disk is full. -/
def bmap (p : IPtr) (bn : ℕ) : FsM ℕ :=
  if h : bn < nDirect then mapAddr p ⟨bn, Nat.lt_succ_of_lt h⟩
  else if bn - nDirect < nIndirect then do
    let addr ← mapAddr p indirect
    if addr = 0 then pure 0 else mapEntry addr (bn - nDirect)
  else throw .bmapOutOfRange

/-- Freeing the block `ip->addrs[k]`, if there is one. -/
def freeAddr (p : IPtr) (k : Fin (nDirect + 1)) : FsM Unit := do
  let s ← get
  if (s.itable p).d.addrs k = 0 then pure ()
  else do
    bfree ((s.itable p).d.addrs k)
    setAddr p k 0

/-- Freeing a block that an indirect block names, if there is one. -/
def freeEntry (a : Block) (j : ℕ) : FsM Unit :=
  if a.word (4 * j) = 0 then pure () else bfree (a.word (4 * j))

/-- Freeing the blocks that the indirect block names, and the indirect block itself. -/
def freeIndirect (p : IPtr) : FsM Unit := do
  let s ← get
  if (s.itable p).d.addrs indirect = 0 then pure ()
  else do
    (List.range nIndirect).forM (freeEntry (s.data ((s.itable p).d.addrs indirect)))
    freeAddr p indirect

def itrunc (p : IPtr) : FsM Unit := do
  ((List.finRange nDirect).map Fin.castSucc).forM (freeAddr p)
  freeIndirect p
  modifyD p fun d => { d with size := 0 }
  iupdate p

/-- Freeing an inode on disk, when the last reference to it is dropped and it has no links. -/
def freeUnlinked (p : IPtr) : FsM Unit := do
  let s ← get
  if (s.itable p).ref = 1 ∧ (s.itable p).valid = true ∧ (s.itable p).d.nlink = 0 then do
    itrunc p
    modifyD p fun d => { d with type := .free }
    iupdate p
    modifyInode p fun ip => { ip with valid := false }
  else pure ()

def iput (p : IPtr) : FsM Unit := do
  freeUnlinked p
  modifyInode p fun ip => { ip with ref := ip.ref - 1 }

/-- The loop of `readi`: `room` bytes of the destination can be written, and `none` is the error of
`either_copyout`. -/
def readLoop (p : IPtr) (n room : ℕ) : ℕ → ℕ → ℕ → List UInt8 → FsM (Option (List UInt8))
  | 0, _, _, acc => pure (some acc)
  | fuel + 1, tot, off, acc =>
    if tot < n then do
      let addr ← bmap p (off / bSize)
      if addr = 0 then pure (some acc)
      else do
        let m := min (n - tot) (bSize - off % bSize)
        let s ← get
        if room < tot + m then pure none
        else readLoop p n room fuel (tot + m) (off + m) (acc ++ (s.data addr).read (off % bSize) m)
    else pure (some acc)

/-- `readi`: the bytes that were delivered, `none` for `-1`.  The sum `off + n` of two `uint`s wraps
when it reaches `2 ^ 32`. -/
def readi (p : IPtr) (off n room : ℕ) : FsM (Option (List UInt8)) := do
  let s ← get
  let size := (s.itable p).d.size
  if size < off ∨ 2 ^ 32 ≤ off + n then pure (some [])
  else
    let n := if size < off + n then size - off else n
    readLoop p n room n 0 off []

/-- The loop of `writei`, with `tot` and `off` where it ends.  `src` has the bytes of the source up
to the first that cannot be read; `either_copyin` copies what it can before it fails. -/
def writeLoop (p : IPtr) (src : List UInt8) (n : ℕ) : ℕ → ℕ → ℕ → FsM (ℕ × ℕ)
  | 0, tot, off => pure (tot, off)
  | fuel + 1, tot, off =>
    if tot < n then do
      let addr ← bmap p (off / bSize)
      if addr = 0 then pure (tot, off)
      else do
        let m := min (n - tot) (bSize - off % bSize)
        modifyBlock addr fun blk => blk.write (off % bSize) ((src.drop tot).take m)
        if src.length < tot + m then pure (tot, off)
        else do
          logWrite addr
          writeLoop p src n fuel (tot + m) (off + m)
    else pure (tot, off)

/-- `writei`: the number of bytes written, `none` for `-1`. -/
def writei (p : IPtr) (src : List UInt8) (off n : ℕ) : FsM (Option ℕ) := do
  let s ← get
  if (s.itable p).d.size < off ∨ 2 ^ 32 ≤ off + n then pure none
  else if maxFile * bSize < off + n then pure none
  else do
    let r ← writeLoop p src n n 0 off
    modifyD p fun d => { d with size := max d.size r.2 }
    iupdate p
    pure (some r.1)

end Fs

end CsklubOs

