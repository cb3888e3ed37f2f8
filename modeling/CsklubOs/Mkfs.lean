/-
**`mkfs`.**

The program of `mkfs/mkfs.c`, which builds the first file system.  It hands out inodes and blocks by
two counters, and has a mapping of its own from the blocks of a file to blocks of the disk.
`xshort` and `xint` put numbers into the byte order of the disk; on a machine that has that order,
which is what is modelled, they change nothing.  Reading beyond the end of the image stops the
program, and so does an `assert` that fails; only a run that does neither gets to `exit(0)`.

Main definitions:

* `ialloc`, `balloc`, `iappend` — inodes, the free map, and the bytes of a file;
* `main` — zeros in all blocks, the super block, the root directory and the input files, and at the
  end the free map.
-/

import CsklubOs.Dirent
import CsklubOs.DiskFormat

set_option autoImplicit false

namespace CsklubOs.Mkfs

open ByteSeq

/-! ### The layout -/

def nInodes : ℕ := 200

def nbitmap : ℕ := fsSize / bpb + 1

def ninodeblocks : ℕ := nInodes / ipb + 1

def nlog : ℕ := logSize

/-- The boot block, the super block, the log, the inode blocks and the free map. -/
def nmeta : ℕ := 2 + nlog + ninodeblocks + nbitmap

def nblocks : ℕ := fsSize - nmeta

/-- `xshort`: the number whose bytes in memory are those of `x`, least significant first. -/
def xshort (x : ℕ) : ℕ := leVal (leBytes 2 x)

def xint (x : ℕ) : ℕ := leVal (leBytes 4 x)

theorem xshort_eq {x : ℕ} (h : x < 2 ^ 16) : xshort x = x := leVal_leBytes_of_lt h

theorem xint_eq {x : ℕ} (h : x < 2 ^ 32) : xint x = x := leVal_leBytes_of_lt h

/-- `struct superblock`. -/
structure Sb where
  magic : ℕ
  size : ℕ
  nblocks : ℕ
  ninodes : ℕ
  nlog : ℕ
  logstart : ℕ
  inodestart : ℕ
  bmapstart : ℕ
  deriving DecidableEq

def sb : Sb where
  magic := 0x10203040
  size := xint fsSize
  nblocks := xint nblocks
  ninodes := xint nInodes
  nlog := xint nlog
  logstart := xint 2
  inodestart := xint (2 + nlog)
  bmapstart := xint (2 + nlog + ninodeblocks)

def Sb.bytes (s : Sb) : List UInt8 :=
  [s.magic, s.size, s.nblocks, s.ninodes, s.nlog, s.logstart, s.inodestart, s.bmapstart].flatMap
    (leBytes 4)

/-- The super block that `readsb` finds in a block. -/
def Sb.decode (b : Block) : Sb :=
  ⟨b.word 0, b.word 4, b.word 8, b.word 12, b.word 16, b.word 20, b.word 24, b.word 28⟩

/-- The layout that the kernel finds on the image. -/
@[reducible]
def superblock : Superblock where
  size := sb.size
  nblocks := sb.nblocks
  ninodes := sb.ninodes
  inodestart := sb.inodestart
  bmapstart := sb.bmapstart
  size_lt := by decide
  nblocks_lt := by decide
  root_lt := by decide
  ninodes_le := by decide

/-! ### Blocks and inodes -/

/-- The image, of which `len` blocks have been written, and the counters. -/
structure Image where
  disk : ℕ → Block
  len : ℕ
  freeinode : ℕ
  freeblock : ℕ

/-- Where the program ends before `exit(0)`. -/
inductive Stop
  /-- `die("read")` -/
  | read
  /-- `die(argv[i])`, for a file that cannot be opened -/
  | cannotOpen
  /-- an `assert` that fails -/
  | assertion
  deriving DecidableEq

abbrev MkfsM := StateT Image (Except Stop)

def wsect (sec : ℕ) (buf : Block) : MkfsM Unit :=
  modify fun s => { s with disk := Function.update s.disk sec buf, len := max s.len (sec + 1) }

/-- `rsect`: there is nothing to read beyond the end of the image. -/
def rsect (sec : ℕ) : MkfsM Block := do
  let s ← get
  if sec < s.len then pure (s.disk sec) else throw .read

/-- `IBLOCK(inum, sb)`. -/
def iBlock (inum : ℕ) : ℕ := inum / ipb + sb.inodestart

def winode (inum : ℕ) (din : Dinode) : MkfsM Unit := do
  let buf ← rsect (iBlock inum)
  wsect (iBlock inum) (buf.write (dinodeSize * (inum % ipb)) din.bytes)

def rinode (inum : ℕ) : MkfsM Dinode := do
  let buf ← rsect (iBlock inum)
  pure (Dinode.decode buf (inum % ipb))

/-- The inode that `ialloc` writes. -/
def freshInode (type : IType) : Dinode :=
  { type, major := 0, minor := 0, nlink := xshort 1, size := xint 0, addrs := fun _ => 0 }

def ialloc (type : IType) : MkfsM ℕ := do
  let s ← get
  set { s with freeinode := s.freeinode + 1 }
  winode s.freeinode (freshInode type)
  pure s.freeinode

/-- The loop of `balloc`, which sets the bits of the blocks below `used`. -/
def mark : ℕ → Block
  | 0 => Block.zero
  | i + 1 => (mark i).write (i / 8) [(mark i).byte (i / 8) ||| 1 <<< UInt8.ofNat (i % 8)]

def balloc (used : ℕ) : MkfsM Unit :=
  if used < bpb then wsect sb.bmapstart (mark used) else throw .assertion

/-! ### Appending to a file -/

/-- `freeblock++`. -/
def takeBlock : MkfsM ℕ := do
  let s ← get
  set { s with freeblock := s.freeblock + 1 }
  pure s.freeblock

/-- The inode with the block `din.addrs[k]`, which is taken if there is none. -/
def mapAddr (din : Dinode) (k : Fin (nDirect + 1)) : MkfsM Dinode :=
  if xint (din.addrs k) = 0 then do
    let b ← takeBlock
    pure { din with addrs := Function.update din.addrs k (xint b) }
  else pure din

/-- The block that entry `e` of the indirect block names, which is taken if there is none. -/
def mapEntry (din : Dinode) (e : ℕ) : MkfsM ℕ := do
  let indirect ← rsect (xint (din.addrs Fs.indirect))
  if indirect.word (4 * e) = 0 then do
    let b ← takeBlock
    let indirect := indirect.setWord (4 * e) (xint b)
    wsect (xint (din.addrs Fs.indirect)) indirect
    pure (xint (indirect.word (4 * e)))
  else pure (xint (indirect.word (4 * e)))

/-- The block `x` for block `fbn` of a file, and the inode with it. -/
def mapBlock (din : Dinode) (fbn : ℕ) : MkfsM (Dinode × ℕ) :=
  if h : fbn < nDirect then do
    let din ← mapAddr din ⟨fbn, Nat.lt_succ_of_lt h⟩
    pure (din, xint (din.addrs ⟨fbn, Nat.lt_succ_of_lt h⟩))
  else do
    let din ← mapAddr din Fs.indirect
    let x ← mapEntry din (fbn - nDirect)
    pure (din, x)

/-- The loop of `iappend`, with the bytes that are still to come; it returns the inode and `off`. -/
def appendLoop : ℕ → Dinode → List UInt8 → ℕ → MkfsM (Dinode × ℕ)
  | 0, din, _, off => pure (din, off)
  | fuel + 1, din, p, off =>
    if 0 < p.length then do
      let fbn := off / bSize
      if fbn < maxFile then do
        let (din, x) ← mapBlock din fbn
        let n1 := min p.length ((fbn + 1) * bSize - off)
        let buf ← rsect x
        wsect x (buf.write (off - fbn * bSize) (p.take n1))
        appendLoop fuel din (p.drop n1) (off + n1)
      else throw .assertion
    else pure (din, off)

def iappend (inum : ℕ) (p : List UInt8) : MkfsM Unit := do
  let din ← rinode inum
  let (din, off) ← appendLoop p.length din p (xint din.size)
  winode inum { din with size := xint off }

/-! ### The program -/

/-- An input file: its path, which is a C string, and what the calls of `read` return, `none` if it
cannot be opened. -/
structure Input where
  path : List UInt8
  reads : Option (List (List UInt8))
  noZero : 0 ∉ path

/-- `"user/"` and `'_'`. -/
def userDir : List UInt8 := [117, 115, 101, 114, 47]

def underscore : UInt8 := 95

/-- The path without `"user/"`. -/
def shortname (path : List UInt8) : List UInt8 :=
  if userDir.isPrefixOf path then path.drop 5 else path

/-- The name without its leading `'_'`. -/
def skipUnderscore (name : List UInt8) : List UInt8 :=
  if name.head? = some underscore then name.drop 1 else name

/-- The name under which a file is entered in the root directory. -/
def Input.name (f : Input) : List UInt8 := skipUnderscore (shortname f.path)

/-- The loop that copies a file, until `read` returns nothing. -/
def copyLoop (inum : ℕ) : List (List UInt8) → MkfsM Unit
  | [] => pure ()
  | buf :: reads =>
    if 0 < buf.length then do
      iappend inum buf
      copyLoop inum reads
    else pure ()

/-- One pass of the loop over the input files. -/
def addFile (f : Input) : MkfsM Unit :=
  if slash ∈ shortname f.path then throw .assertion
  else
    match f.reads with
    | none => throw .cannotOpen
    | some reads =>
      if f.name.length ≤ dirSiz then do
        let inum ← ialloc .file
        iappend rootIno (Dirent.bytes (xshort inum) f.name)
        copyLoop inum reads
      else throw .assertion

/-- The image before the first inode is made. -/
def format : MkfsM Unit := do
  modify fun s => { s with freeblock := nmeta }
  (List.range fsSize).forM fun i => wsect i Block.zero
  wsect 1 (Block.zero.write 0 sb.bytes)

/-- The root directory with its first entries. -/
def makeRoot : MkfsM Unit := do
  let rootino ← ialloc .dir
  if rootino = rootIno then do
    iappend rootino (Dirent.bytes (xshort rootino) dotName)
    iappend rootino (Dirent.bytes (xshort rootino) dotdotName)
  else throw .assertion

/-- The size of the root directory is rounded up. -/
def fixRoot : MkfsM Unit := do
  let din ← rinode rootIno
  winode rootIno { din with size := xint ((xint din.size / bSize + 1) * bSize) }

/-- `main`, for a list of input files. -/
def main (files : List Input) : MkfsM Unit := do
  format
  makeRoot
  files.forM addFile
  fixRoot
  let s ← get
  balloc s.freeblock

/-- The state in which the program starts; the image is empty. -/
def start : Image where
  disk _ := Block.zero
  len := 0
  freeinode := 1
  freeblock := 0

end CsklubOs.Mkfs
