/-
**The file system calls of processes.**

`kernel/sysfile.c` on the state of `CsklubOs/OpenFile.lean` with the inode layer of
`CsklubOs/Inode.lean` under it.

Main definitions:

* `sysOpen`, `sysMkdir`, `sysMknod`, `sysLink`, `sysUnlink`, `sysChdir` — the calls on paths;
* `SysCall`, `step` — a completed call of one process, one of these or one that only moves
  references.
-/

import CsklubOs.NameOps
import CsklubOs.OpenFile

set_option autoImplicit false

namespace CsklubOs

open Wp

variable [Superblock]

/-! ### The code -/

/-- The processes, their files and the file system. -/
abbrev FileSys := Files IPtr Fs

abbrev FileSysM := FilesM IPtr Fs

namespace Fs

/-- The inode layer, as the file table sees it. -/
def layer : Lower IPtr Fs where
  iput p := iput p
  idup p := do
    let _ ← idup p
    pure ()

/-- `namei` and `ilock`. -/
def nameiLock (cwd : IPtr) (path : List UInt8) : FsM (Option IPtr) := do
  match ← namei cwd path with
  | none => pure none
  | some ip => do
    ilock ip
    pure (some ip)

/-- The inode that `sys_open` opens. -/
def openPath (cwd : IPtr) (path : List UInt8) (omode : ℕ) : FsM (Option IPtr) :=
  if omode.testBit oCreate then create cwd path .file 0 0 else nameiLock cwd path

/-- `create` and `iunlockput`, as in `sys_mkdir` and `sys_mknod`. -/
def makeNode (cwd : IPtr) (path : List UInt8) (type : IType) (major minor : ℤ) : FsM Bool := do
  match ← create cwd path type major minor with
  | none => pure false
  | some ip => do
    iput ip
    pure true

end Fs

namespace FileSys

open Fs Files

/-- The path argument of a call: `none` if `argstr` fails. -/
abbrev Arg := Option (List UInt8)

/-- Code of the file system that looks up paths from the current directory of `p`. -/
def withCwd {α : Type} (p : Fin nProc) (m : IPtr → FsM α) : FileSysM α := do
  let s ← get
  match s.cwd p with
  | none => throw .badInode
  | some cwd => liftInodes (m cwd)

/-- The truncation by `sys_open`. -/
def openTrunc (ip : IPtr) (omode : ℕ) : FsM Unit := do
  let s ← get
  if omode.testBit oTrunc = true ∧ (s.itable ip).d.type = .file then itrunc ip else pure ()

/-- `sys_open`, from where the path has led to `ip`. -/
def openFound (p : Fin nProc) (ip : IPtr) (omode : ℕ) : FileSysM (Option (Fin nOFile)) := do
  let s ← get
  match ← openInode layer p ip (s.inodes.itable ip).d.type (s.inodes.itable ip).d.major omode with
  | none => pure none
  | some fd => do
    liftInodes (openTrunc ip omode)
    pure (some fd)

def sysOpen (p : Fin nProc) (path : Arg) (omode : ℕ) : FileSysM (Option (Fin nOFile)) :=
  match path with
  | none => pure none
  | some path => do
    match ← withCwd p fun cwd => openPath cwd path omode with
    | none => pure none
    | some ip => openFound p ip omode

def sysMkdir (p : Fin nProc) (path : Arg) : FileSysM Bool :=
  match path with
  | none => pure false
  | some path => withCwd p fun cwd => makeNode cwd path .dir 0 0

def sysMknod (p : Fin nProc) (path : Arg) (major minor : ℤ) : FileSysM Bool :=
  match path with
  | none => pure false
  | some path => withCwd p fun cwd => makeNode cwd path .device major minor

def sysLink (p : Fin nProc) (old new : Arg) : FileSysM Bool :=
  match old, new with
  | some old, some new => withCwd p fun cwd => Fs.sysLink cwd old new
  | _, _ => pure false

def sysUnlink (p : Fin nProc) (path : Arg) : FileSysM Bool :=
  match path with
  | none => pure false
  | some path => withCwd p fun cwd => Fs.sysUnlink cwd path

/-- `sys_chdir`, from where the path has led to `ip`. -/
def chdirFound (p : Fin nProc) (ip : IPtr) : FileSysM Bool := do
  let s ← get
  if (s.inodes.itable ip).d.type ≠ .dir then do
    liftInodes (iput ip)
    pure false
  else do
    iputPtr layer (s.cwd p)
    setCwd p (some ip)
    pure true

def sysChdir (p : Fin nProc) (path : Arg) : FileSysM Bool :=
  match path with
  | none => pure false
  | some path => do
    match ← withCwd p fun cwd => nameiLock cwd path with
    | none => pure false
    | some ip => chdirFound p ip

end FileSys

/-! ### Calls as steps -/

/-- The calls, with what decides their outcome besides the state: the arguments, the page that
`kalloc` finds, whether there is memory for a child, whether a user pointer is good. -/
inductive SysCall
  | sysOpen (path : FileSys.Arg) (omode : ℕ)
  | mkdir (path : FileSys.Arg)
  | mknod (path : FileSys.Arg) (major minor : ℤ)
  | link (old new : FileSys.Arg)
  | unlink (path : FileSys.Arg)
  | chdir (path : FileSys.Arg)
  | dup (fd : ℤ)
  | pipe (page : Option ℕ) (copied : Bool)
  | close (fd : ℤ)
  | fork (mem : Bool)
  | exit
  | wait (copied : Bool)

namespace FileSys

open Fs Files

/-- A call by process `p`. -/
def runCall (p : Fin nProc) : SysCall → FileSysM Unit
  | .sysOpen path omode => do
    let _ ← sysOpen p path omode
    pure ()
  | .mkdir path => do
    let _ ← sysMkdir p path
    pure ()
  | .mknod path major minor => do
    let _ ← sysMknod p path major minor
    pure ()
  | .link old new => do
    let _ ← sysLink p old new
    pure ()
  | .unlink path => do
    let _ ← sysUnlink p path
    pure ()
  | .chdir path => do
    let _ ← sysChdir p path
    pure ()
  | .dup fd => do
    let _ ← Files.sysDup p fd
    pure ()
  | .pipe page copied => do
    let _ ← Files.sysPipe (layer.answers page false copied) p anyAddr
    pure ()
  | .close fd => do
    let _ ← Files.sysClose layer p fd
    pure ()
  | .fork mem => do
    let _ ← Files.fork (layer.answers none mem false) p
    pure ()
  | .exit => Files.exit layer p
  | .wait copied => do
    let _ ← Files.wait (layer.answers none false copied) p anyAddr []
    pure ()

/-- The calls that complete: `wait` does not go to sleep, and `kalloc` finds no page that a pipe
lives in. -/
def Completes (s : FileSys) (p : Fin nProc) : SysCall → Prop
  | .wait _ => (∀ q, s.parent q ≠ some p) ∨ ∃ q, s.parent q = some p ∧ s.state q = .zombie
  | .pipe page _ => ∀ pi ∈ page, pi ∉ s.pipes.map Pipe.page
  | _ => True

omit [Superblock] in
instance (s : FileSys) (p : Fin nProc) (c : SysCall) : Decidable (Completes s p c) := by
  cases c <;> unfold Completes <;> infer_instance

/-- A completed call. -/
def step (s : FileSys) (a : Fin nProc × SysCall) : Option (Except FsPanic FileSys) :=
  callStep (s.state a.1 = .live ∧ Completes s a.1 a.2) (runCall a.1 a.2) (fun _ s' => s') s

end FileSys

/-! ### Where a path leads -/

namespace FileSys

open Fs NameTree

variable {E : FsPanic → Prop} {s : FileSys} {p : Fin nProc}

/-- The names on the disk. -/
def names (s : FileSys) : NameTree := tree s.inodes

/-- The inode that a path leads process `p` to. -/
def inodeOf (s : FileSys) (p : Fin nProc) (path : List UInt8) : Option ℕ :=
  (s.cwd p).bind fun cwd => resolve (names s) (startInum s.inodes cwd path) (elements path)

/-- The directory of a path, and the last element. -/
def parentOf (s : FileSys) (p : Fin nProc) (path : List UInt8) : Option (ℕ × List UInt8) :=
  (s.cwd p).bind fun cwd => resolveParent (names s) (startInum s.inodes cwd path) (elements path)

omit [Superblock] in
theorem wp_withCwd {α : Type} {m : IPtr → FsM α} {Q : α → FileSys → Prop}
    {H : Fs → Multiset IPtr → Prop} (h : Files.Inv H s 0) (hp : s.state p = .live)
    (hQ : ∀ cwd, s.cwd p = some cwd → cwd ∈ s.held →
      wp (m cwd) (fun a i => Q a { s with inodes := i }) E s.inodes) : wp (withCwd p m) Q E s := by
  obtain ⟨cwd, hcwd⟩ := Option.isSome_iff_exists.1 ((h.procs p).live hp)
  rw [withCwd, wp_bind, wp_get, hcwd]
  exact Files.wp_liftInodes.2 (hQ cwd hcwd (Files.mem_held_of_cwd hcwd))

end FileSys

end CsklubOs
