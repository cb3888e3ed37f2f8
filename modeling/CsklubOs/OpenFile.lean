/-
**Open files, descriptors and the inodes, pipes and processes behind them.**

The file table, the descriptors and current directories of the processes, and the system calls that
move references between them.  What is below is a parameter: inodes over an arbitrary type of
pointers, pages, and the memory of the processes.  The results hold for every `Lower` that keeps
count of what it has given out.  `counting` is the simplest one, `MemSys` has the memory, and
`FileSys` the file system; where memory is not below, what it would answer is an input of the call.

`fork`, `exit` and `wait` are completed calls here, with the references and the memory that they
move; how they run against each other, lock by lock, is in `CsklubOs/Sched.lean` and
`CsklubOs/ExitWait.lean`, on the fields of the process table that the locks are for.

Main definitions:

* `Files` — the state, over the state of what is below;
* `Lower`, `Lower.Sound` — what is below, and what is required of it;
* `Files.fork`, `Files.exit`, `Files.wait`, `Files.sysPipe` and others — the code;
* `Files.Ok` — the invariant between calls.

Main results:

* `Files.wp_fileclose`, `Files.wp_fork`, `Files.wp_exit` and others — the calls keep the invariant;
* `Files.open_files` — in every run the counts of the file table, the references to inodes and the
  open ends of the pipes are exact.
-/

import CsklubOs.ByteSeq
import CsklubOs.FileTable
import CsklubOs.Inode
import CsklubOs.Runs

set_option autoImplicit false

namespace CsklubOs

open Function Multiset
open Finset (card_filter sum_congr univ)
open List (finRange find?_some)
open Option (elim_none elim_some isSome_iff_exists some_inj)
open Wp

/-! ### The state -/

/-- `O_WRONLY`, `O_RDWR`, `O_CREATE` and `O_TRUNC`, as the numbers of their bits in `omode`. -/
def oWronly : ℕ := 0
def oRdwr : ℕ := 1
def oCreate : ℕ := 9
def oTrunc : ℕ := 10

/-- The file that `sys_open` makes for the inode `ip`. -/
def OpenFile.fill {ι : Type} (v : OpenFile ι) (ip : ι) (type : IType) (major : ℤ) (omode : ℕ) :
    OpenFile ι :=
  let v' := if type = .device then { v with type := .device, major := major }
    else { v with type := .inode }
  { v' with
    ip := some ip
    readable := !omode.testBit oWronly
    writable := omode.testBit oWronly || omode.testBit oRdwr }

/-- `enum procstate`, with the states in which a process runs or waits to run put together. -/
inductive PState
  | unused
  | used
  | live
  | zombie
  deriving DecidableEq

def PState.inUse (st : PState) : Bool := st != .unused

theorem PState.inUse_unused : PState.unused.inUse = false := rfl

/-- The file table, the pipes, the processes with their descriptors and current directories, and the
state of what is below. -/
structure Files (ι σ : Type) where
  ftable : Fin nFile → OpenFile ι
  pipes : List Pipe
  ofile : Fin nProc → Fin nOFile → Option (Fin nFile)
  cwd : Fin nProc → Option ι
  state : Fin nProc → PState
  parent : Fin nProc → Option (Fin nProc)
  initproc : Fin nProc
  inodes : σ

/-- Code of the file layer. -/
abbrev FilesM (ι σ : Type) := StateT (Files ι σ) (Except FsPanic)

/-- **What the file layer calls of the layers below.** -/
structure Lower (ι σ : Type) where
  iput : ι → StateT σ (Except FsPanic) Unit
  idup : ι → StateT σ (Except FsPanic) Unit
  kalloc : StateT σ (Except FsPanic) (Option ℕ) := pure none
  kfree : ℕ → StateT σ (Except FsPanic) Unit := fun _ => pure ()
  /-- `allocproc` and `uvmcopy`, for a child of the first process in the slot of the second. -/
  copyProc : Fin nProc → Fin nProc → StateT σ (Except FsPanic) Bool := fun _ _ => pure false
  /-- `freeproc`. -/
  freeProc : Fin nProc → StateT σ (Except FsPanic) Unit := fun _ => pure ()
  copyout : Fin nProc → ℕ → List UInt8 → StateT σ (Except FsPanic) Bool := fun _ _ _ => pure false

/-- Inodes alone, with given answers for the rest: the page that `kalloc` finds, whether there is
memory for a child, and whether a user pointer is good. -/
def Lower.answers {ι σ : Type} (L : Lower ι σ) (page : Option ℕ) (mem copied : Bool) :
    Lower ι σ where
  iput := L.iput
  idup := L.idup
  kalloc := pure page
  copyProc _ _ := pure mem
  copyout _ _ _ := pure copied

/-- The two `copyout`s of `sys_pipe`. -/
def Lower.copyFds {ι σ : Type} (L : Lower ι σ) (p : Fin nProc) (fdarray : ℕ) (fd0 fd1 : ℕ) :
    StateT σ (Except FsPanic) Bool := do
  if ← L.copyout p fdarray (ByteSeq.leBytes 4 fd0) then
    L.copyout p ((fdarray + 4) % 2 ^ 64) (ByteSeq.leBytes 4 fd1)
  else pure false

/-- The status that `wait` hands over, unless the pointer is 0. -/
def Lower.copyStatus {ι σ : Type} (L : Lower ι σ) (p : Fin nProc) (addr : ℕ) (xstate : List UInt8) :
    StateT σ (Except FsPanic) Bool :=
  if addr = 0 then pure true else L.copyout p addr xstate

namespace Files

variable {ι σ : Type}

/-- Code of what is below. -/
def liftInodes {α : Type} (m : StateT σ (Except FsPanic) α) : FilesM ι σ α :=
  zoom Files.inodes (fun i s => { s with inodes := i }) m

/-! ### The file table -/

def setFile (f : Fin nFile) (v : OpenFile ι) : FilesM ι σ Unit :=
  modify fun s => { s with ftable := update s.ftable f v }

def setFd (p : Fin nProc) (fd : Fin nOFile) (v : Option (Fin nFile)) : FilesM ι σ Unit :=
  modify fun s => { s with ofile := update s.ofile p (update (s.ofile p) fd v) }

def setState (p : Fin nProc) (v : PState) : FilesM ι σ Unit :=
  modify fun s => { s with state := update s.state p v }

def setCwd (p : Fin nProc) (v : Option ι) : FilesM ι σ Unit :=
  modify fun s => { s with cwd := update s.cwd p v }

def filealloc : FilesM ι σ (Option (Fin nFile)) := do
  let s ← get
  match (finRange nFile).find? fun f => (s.ftable f).ref = 0 with
  | none => pure none
  | some f => do
    setFile f { s.ftable f with ref := 1 }
    pure (some f)

def filedup (f : Fin nFile) : FilesM ι σ Unit := do
  let s ← get
  if (s.ftable f).ref < 1 then throw .filedup
  else setFile f { s.ftable f with ref := (s.ftable f).ref + 1 }

/-- `pipeclose`, for the pipe in page `pi`. -/
def pipeclose (L : Lower ι σ) (pi : ℕ) (writable : Bool) : FilesM ι σ Unit := do
  let s ← get
  match s.pipes.find? fun q => q.page = pi with
  | none => throw .freedPipe
  | some q =>
    if (q.close writable).readopen = false ∧ (q.close writable).writeopen = false then do
      set { s with pipes := s.pipes.filter fun q' : Pipe => q'.page ≠ pi }
      liftInodes (L.kfree pi)
    else
      set { s with
            pipes := s.pipes.map fun q' : Pipe => if q'.page = pi then q.close writable else q' }

/-- `iput` of a pointer that the file layer holds. -/
def iputPtr (L : Lower ι σ) : Option ι → FilesM ι σ Unit
  | none => throw .badInode
  | some ip => liftInodes (L.iput ip)

def fileclose (L : Lower ι σ) (f : Fin nFile) : FilesM ι σ Unit := do
  let s ← get
  let ff := s.ftable f
  if ff.ref < 1 then throw .fileclose
  else if 0 < ff.ref - 1 then setFile f { ff with ref := ff.ref - 1 }
  else do
    setFile f { ff with ref := 0, type := .none }
    if ff.type = .pipe then pipeclose L ff.pipe ff.writable
    else if ff.type = .inode ∨ ff.type = .device then iputPtr L ff.ip
    else pure ()

/-- `pipealloc`: the file for reading and the file for writing. -/
def pipealloc (L : Lower ι σ) : FilesM ι σ (Option (Fin nFile × Fin nFile)) := do
  match ← filealloc with
  | none => pure none
  | some f0 => do
    match ← filealloc with
    | none => do
      fileclose L f0
      pure none
    | some f1 => do
      match ← liftInodes L.kalloc with
      | none => do
        fileclose L f0
        fileclose L f1
        pure none
      | some pi => do
        modify fun s => { s with
          pipes := ⟨pi, true, true⟩ :: s.pipes
          ftable := update (update s.ftable f0
            { s.ftable f0 with type := .pipe, readable := true, writable := false, pipe := pi }) f1
            { s.ftable f1 with type := .pipe, readable := false, writable := true, pipe := pi } }
        pure (some (f0, f1))

def fdalloc (p : Fin nProc) (f : Fin nFile) : FilesM ι σ (Option (Fin nOFile)) := do
  let s ← get
  match (finRange nOFile).find? fun fd => (s.ofile p fd).isNone with
  | none => pure none
  | some fd => do
    setFd p fd (some f)
    pure (some fd)

/-! ### The system calls -/

theorem fd_lt {fd : ℤ} (h : 0 ≤ fd ∧ fd.toNat < nOFile) : fd.toNat < nOFile := h.2

/-- `argfd`: the descriptor and its file. -/
def argfd (s : Files ι σ) (p : Fin nProc) (fd : ℤ) : Option (Fin nOFile × Fin nFile) :=
  if h : 0 ≤ fd ∧ fd.toNat < nOFile then
    (s.ofile p ⟨fd.toNat, fd_lt h⟩).map fun f => (⟨fd.toNat, fd_lt h⟩, f)
  else none

section

variable (L : Lower ι σ)

/-- `sys_open` from where the path has led to the inode `ip`, up to the truncation, which moves no
reference. -/
def openInode (p : Fin nProc) (ip : ι) (type : IType) (major : ℤ) (omode : ℕ) :
    FilesM ι σ (Option (Fin nOFile)) := do
  if omode.testBit oCreate = false ∧ type = .dir ∧ omode ≠ 0 then do
    liftInodes (L.iput ip)
    pure none
  else if type = .device ∧ (major < 0 ∨ nDev ≤ major) then do
    liftInodes (L.iput ip)
    pure none
  else do
    match ← filealloc with
    | none => do
      liftInodes (L.iput ip)
      pure none
    | some f => do
      match ← fdalloc p f with
      | none => do
        fileclose L f
        liftInodes (L.iput ip)
        pure none
      | some fd => do
        let s ← get
        setFile f ((s.ftable f).fill ip type major omode)
        pure (some fd)

def sysDup (p : Fin nProc) (fd : ℤ) : FilesM ι σ (Option (Fin nOFile)) := do
  let s ← get
  match s.argfd p fd with
  | none => pure none
  | some (_, f) => do
    match ← fdalloc p f with
    | none => pure none
    | some fd' => do
      filedup f
      pure (some fd')

def sysClose (p : Fin nProc) (fd : ℤ) : FilesM ι σ Bool := do
  let s ← get
  match s.argfd p fd with
  | none => pure false
  | some (fd, f) => do
    setFd p fd none
    fileclose L f
    pure true

/-- The error exits of `sys_pipe`, which close both files. -/
def closeBothFiles (rf wf : Fin nFile) : FilesM ι σ Bool := do
  fileclose L rf
  fileclose L wf
  pure false

def sysPipe (p : Fin nProc) (fdarray : ℕ) : FilesM ι σ Bool := do
  match ← pipealloc L with
  | none => pure false
  | some (rf, wf) => do
    match ← fdalloc p rf with
    | none => closeBothFiles L rf wf
    | some fd0 => do
      match ← fdalloc p wf with
      | none => do
        setFd p fd0 none
        closeBothFiles L rf wf
      | some fd1 => do
        let copied ← liftInodes (L.copyFds p fdarray fd0 fd1)
        if copied then pure true
        else do
          setFd p fd0 none
          setFd p fd1 none
          closeBothFiles L rf wf

/-- One iteration of the loop of `fork` over the descriptors. -/
def dupFd (p q : Fin nProc) (fd : Fin nOFile) : FilesM ι σ Unit := do
  let s ← get
  match s.ofile p fd with
  | none => pure ()
  | some f => do
    filedup f
    setFd q fd (some f)

/-- `np->cwd = idup(p->cwd)`. -/
def dupCwd (p q : Fin nProc) : FilesM ι σ Unit := do
  let s ← get
  match s.cwd p with
  | none => throw .badInode
  | some ip => do
    liftInodes (L.idup ip)
    setCwd q (some ip)

/-- The child becomes a process. -/
def adopt (s : Files ι σ) (p q : Fin nProc) : Files ι σ :=
  { s with
    state := update s.state q .live
    parent := update s.parent q (some p) }

/-- `fork`; without memory for the child `freeproc` leaves the slot as it was. -/
def fork (p : Fin nProc) : FilesM ι σ Bool := do
  let s ← get
  match (finRange nProc).find? fun q => s.state q = .unused with
  | none => pure false
  | some q => do
    let copied ← liftInodes (L.copyProc p q)
    if copied then do
      setState q .used
      forM (finRange nOFile) (dupFd p q)
      dupCwd L p q
      modify fun s => s.adopt p q
      pure true
    else pure false

/-- One iteration of the loop of `exit` over the descriptors. -/
def closeFd (p : Fin nProc) (fd : Fin nOFile) : FilesM ι σ Unit := do
  let s ← get
  match s.ofile p fd with
  | none => pure ()
  | some f => do
    fileclose L f
    setFd p fd none

/-- `iput(p->cwd); p->cwd = 0`. -/
def putCwd (p : Fin nProc) : FilesM ι σ Unit := do
  let s ← get
  iputPtr L (s.cwd p)
  setCwd p none

/-- The end of `exit`: the children go to `init`, and the process is a zombie. -/
def leave (s : Files ι σ) (p : Fin nProc) : Files ι σ :=
  { s with
    parent := fun q => if s.parent q = some p then some s.initproc else s.parent q
    state := update s.state p .zombie }

def exit (p : Fin nProc) : FilesM ι σ Unit := do
  let s ← get
  if p = s.initproc then throw .initExiting
  else do
    forM (finRange nOFile) (closeFd L p)
    putCwd L p
    modify fun s => s.leave p

/-- What `freeproc` does to the entry of an exited child. -/
def reap (s : Files ι σ) (q : Fin nProc) : Files ι σ :=
  { s with
    state := update s.state q .unused
    parent := update s.parent q none }

/-- `wait`, when it does not go to sleep; `xstate` is the exit status of the child. -/
def wait (p : Fin nProc) (addr : ℕ) (xstate : List UInt8) : FilesM ι σ Bool := do
  let s ← get
  match (finRange nProc).find? fun q => s.parent q = some p ∧ s.state q = .zombie with
  | none => pure false
  | some q => do
    let copied ← liftInodes (L.copyStatus p addr xstate)
    if copied then do
      liftInodes (L.freeProc q)
      modify fun s => s.reap q
      pure true
    else pure false

end

/-! ### The references that are held -/

end Files

/-- The reference to an inode that a file holds. -/
def OpenFile.inodeRef {ι : Type} (v : OpenFile ι) : Multiset ι :=
  if v.type = .inode ∨ v.type = .device then v.ip.elim 0 fun i => {i} else 0

variable {ι : Type}

section

variable (v : OpenFile ι) (ip : ι) (type : IType)

theorem OpenFile.type_fill (major : ℤ) (omode : ℕ) :
    (v.fill ip type major omode).type = .inode ∨ (v.fill ip type major omode).type = .device := by
  rw [OpenFile.fill]
  split
  · exact .inr rfl
  · exact .inl rfl

theorem OpenFile.ref_fill (major : ℤ) (omode : ℕ) : (v.fill ip type major omode).ref = v.ref := by
  rw [OpenFile.fill]
  split <;> rfl

theorem OpenFile.inodeRef_fill (major : ℤ) (omode : ℕ) :
    (v.fill ip type major omode).inodeRef = {ip} := by
  rw [OpenFile.inodeRef, if_pos (type_fill v ip type major omode)]
  rfl

end

/-- What the layers below have given out: references to inodes, pages, and memory for processes. -/
abbrev Given (ι σ : Type) := σ → Multiset ι → Multiset ℕ → (Fin nProc → Bool) → Prop

/-- **What is required of the layers below**, with `Holds i R P U` for what they have given out: the
references `R` to inodes, the pages `P`, and memory for the processes in `U`. -/
structure Lower.Sound {ι σ : Type} (L : Lower ι σ)
    (Holds : Given ι σ) (E : FsPanic → Prop) : Prop where
  iput : ∀ {i R P U ip}, Holds i (ip ::ₘ R) P U → wp (L.iput ip) (fun _ i' => Holds i' R P U) E i
  idup : ∀ {i R P U ip}, ip ∈ R → Holds i R P U →
    wp (L.idup ip) (fun _ i' => Holds i' (ip ::ₘ R) P U) E i
  kalloc : ∀ {i R P U}, Holds i R P U →
    wp L.kalloc (fun r i' => Holds i' R (r.elim P (· ::ₘ P)) U) E i
  kfree : ∀ {i R P U pg}, Holds i R (pg ::ₘ P) U → wp (L.kfree pg) (fun _ i' => Holds i' R P U) E i
  copyProc : ∀ {i R P U p q}, U p = true → U q = false → Holds i R P U →
    wp (L.copyProc p q) (fun b i' => Holds i' R P (update U q b)) E i
  freeProc : ∀ {i R P U q}, U q = true → Holds i R P U →
    wp (L.freeProc q) (fun _ i' => Holds i' R P (update U q false)) E i
  copyout : ∀ {i R P U p} (addr bs), U p = true → Holds i R P U →
    wp (L.copyout p addr bs) (fun _ i' => Holds i' R P U) E i

section

variable {ι σ : Type} {L : Lower ι σ} {Holds : Given ι σ} {E : FsPanic → Prop}

theorem Lower.Sound.copyFds (hL : L.Sound Holds E) {i R P U p} (fdarray fd0 fd1) (hp : U p = true)
    (h : Holds i R P U) : wp (L.copyFds p fdarray fd0 fd1) (fun _ i' => Holds i' R P U) E i := by
  rw [Lower.copyFds, wp_bind]
  refine (hL.copyout _ _ hp h).mono fun _ i' h' => wp_ite (fun _ => ?_) fun _ => wp_pure.2 h'
  exact hL.copyout _ _ hp h'

theorem Lower.Sound.copyStatus (hL : L.Sound Holds E) {i R P U p} (addr xstate) (hp : U p = true)
    (h : Holds i R P U) : wp (L.copyStatus p addr xstate) (fun _ i' => Holds i' R P U) E i :=
  wp_ite (fun _ => wp_pure.2 h) fun _ => hL.copyout _ _ hp h

theorem Lower.answers_sound {H : σ → Multiset ι → Prop}
    (hiput : ∀ {i R ip}, H i (ip ::ₘ R) → wp (L.iput ip) (fun _ i' => H i' R) E i)
    (hidup : ∀ {i R ip}, ip ∈ R → H i R → wp (L.idup ip) (fun _ i' => H i' (ip ::ₘ R)) E i)
    (page : Option ℕ) (mem copied : Bool) :
    (L.answers page mem copied).Sound (fun i R _ _ => H i R) E where
  iput := hiput
  idup := hidup
  kalloc h := wp_pure.2 h
  kfree h := wp_pure.2 h
  copyProc _ _ h := wp_pure.2 h
  freeProc _ h := wp_pure.2 h
  copyout _ _ _ h := wp_pure.2 h

end

namespace Files

variable {ι σ : Type}

/-- The references to inodes that the files of a table hold. -/
@[irreducible]
def fileInodes (ft : Fin nFile → OpenFile ι) : Multiset ι := ∑ f, (ft f).inodeRef

/-- The references to inodes that the current directories hold. -/
@[irreducible]
def cwdInodes (cwd : Fin nProc → Option ι) : Multiset ι := ∑ p, (cwd p).elim 0 fun i => {i}

theorem fileInodes_update (ft : Fin nFile → OpenFile ι) (f : Fin nFile) (v : OpenFile ι) :
    fileInodes (update ft f v) + (ft f).inodeRef = fileInodes ft + v.inodeRef := by
  unfold fileInodes
  exact Tally.sum_update (Finset.mem_univ f) OpenFile.inodeRef ft v

theorem cwdInodes_update (cwd : Fin nProc → Option ι) (p : Fin nProc) (v : Option ι) :
    cwdInodes (update cwd p v) + (cwd p).elim 0 (fun i => {i}) =
      cwdInodes cwd + v.elim 0 fun i => {i} := by
  unfold cwdInodes
  exact Tally.sum_update (Finset.mem_univ p) (fun o : Option ι => o.elim 0 fun i =>
    ({i} : Multiset ι)) cwd v

/-- All references to inodes that files and processes hold. -/
def held (s : Files ι σ) : Multiset ι := fileInodes s.ftable + cwdInodes s.cwd

/-- The slots of the process table that are in use. -/
def inUse (s : Files ι σ) : Fin nProc → Bool := PState.inUse ∘ s.state

theorem inUse_update {state : Fin nProc → PState} {p : Fin nProc} {v : PState}
    (h : (state p).inUse = v.inUse) : PState.inUse ∘ update state p v = PState.inUse ∘ state := by
  rw [Function.comp_update, ← h]
  exact Function.update_eq_self ..

/-- **The invariant of the table**, when the references `R` to files are held, and the references
`X` to inodes besides those of files and processes. -/
structure TabOk (Holds : Given ι σ) (s : Files ι σ) (R : Multiset (Fin nFile))
    (X : Multiset ι) : Prop where
  files : FileOk s.ftable s.pipes R
  idle : ∀ f, (s.ftable f).ref = 0 → (s.ftable f).type = .none
  ptr : ∀ f, (s.ftable f).type = .inode ∨ (s.ftable f).type = .device → (s.ftable f).ip.isSome
  inodes : Holds s.inodes (s.held + X) (pipePages s.pipes) s.inUse

/-- What the code of the file table leaves alone. -/
structure SameProcs (s s' : Files ι σ) : Prop where
  ofile : s'.ofile = s.ofile
  cwd : s'.cwd = s.cwd
  state : s'.state = s.state
  parent : s'.parent = s.parent
  initproc : s'.initproc = s.initproc

theorem SameProcs.refl (s : Files ι σ) : SameProcs s s := ⟨rfl, rfl, rfl, rfl, rfl⟩

theorem SameProcs.trans {s s1 s' : Files ι σ} (h : SameProcs s s1) (h' : SameProcs s1 s') :
    SameProcs s s' :=
  ⟨h'.ofile.trans h.ofile, h'.cwd.trans h.cwd, h'.state.trans h.state, h'.parent.trans h.parent,
    h'.initproc.trans h.initproc⟩

section Table

variable {Holds : Given ι σ} {E : FsPanic → Prop} {L : Lower ι σ} {s s' : Files ι σ}
  {R : Multiset (Fin nFile)} {X : Multiset ι} {f : Fin nFile} {v : OpenFile ι}

theorem wp_liftInodes {α : Type} {m : StateT σ (Except FsPanic) α} {Q : α → Files ι σ → Prop} :
    wp (liftInodes m) Q E s ↔ wp m (fun a i => Q a { s with inodes := i }) E s.inodes :=
  wp_zoom

variable {R' : Multiset (Fin nFile)}

/-- Writing a file, with the pipes and inode references that the new table accounts for. -/
theorem TabOk.write (h : TabOk Holds s R X) {X' : Multiset ι} {pipes : List Pipe} {i : σ}
    (hfiles : FileOk (update s.ftable f v) pipes R') (hidle : v.ref = 0 → v.type = .none)
    (hptr : v.type = .inode ∨ v.type = .device → v.ip.isSome)
    (hinodes : Holds i (fileInodes (update s.ftable f v) + cwdInodes s.cwd + X') (pipePages pipes)
      s.inUse) :
    TabOk Holds { s with ftable := update s.ftable f v, pipes := pipes, inodes := i } R' X' := by
  refine ⟨hfiles, fun f' => ?_, fun f' => ?_, hinodes⟩
  · show (update s.ftable f v f').ref = 0 → (update s.ftable f v f').type = .none
    rw [update_apply]
    split
    · exact hidle
    · exact h.idle f'
  · show (update s.ftable f v f').type = .inode ∨ (update s.ftable f v f').type =
      .device → (update s.ftable f v f').ip.isSome
    rw [update_apply]
    split
    · exact hptr
    · exact h.ptr f'

theorem ref_update (h : FileOk s.ftable s.pipes R) (hv : v.ref = R'.count f)
    (hother : ∀ f', f' ≠ f → R'.count f' = R.count f') (f' : Fin nFile) :
    (update s.ftable f v f').ref = R'.count f' := by
  by_cases hf : f' = f
  · rw [hf, update_self, hv]
  · rw [update_of_ne hf, h.refs, hother f' hf]

theorem TabOk.setRef (h : TabOk Holds s R X) {n : ℕ} (hn : n = R'.count f) (hpos : n ≠ 0)
    (hother : ∀ f', f' ≠ f → R'.count f' = R.count f') :
    TabOk Holds { s with ftable := update s.ftable f { s.ftable f with ref := n } } R' X := by
  refine h.write ?_ (fun h0 => absurd h0 hpos) (h.ptr f) ?_
  · exact h.files.setFile Iff.rfl (fun _ => ⟨rfl, rfl⟩) (ref_update h.files hn hother)
      fun h0 => absurd h0 hpos
  · have hsum := fileInodes_update s.ftable f { s.ftable f with ref := n }
    rw [add_right_cancel hsum]
    exact h.inodes

theorem wp_filealloc {Q : Option (Fin nFile) → Files ι σ → Prop} (h : TabOk Holds s R X)
    (h0 : Q none s) (h1 : ∀ f s', (s.ftable f).ref = 0 →
      s' = { s with ftable := update s.ftable f { s.ftable f with ref := 1 } } →
      TabOk Holds s' (f ::ₘ R) X → Q (some f) s') : wp filealloc Q E s := by
  rw [filealloc, wp_bind, wp_get]
  cases hfind : (finRange nFile).find? fun f => decide ((s.ftable f).ref = 0) with
  | none => exact wp_pure.2 h0
  | some f =>
    have href := find?_some hfind
    rw [decide_eq_true_eq] at href
    have hcount : R.count f = 0 := by rw [← h.files.refs f, href]
    refine wp_bind.2 (wp_modify.2 (wp_pure.2 (h1 f _ href rfl ?_)))
    refine h.setRef ?_ Nat.one_ne_zero fun f' hf => count_cons_of_ne hf R
    rw [count_cons_self, hcount]

theorem wp_filedup {Q : Unit → Files ι σ → Prop} (h : TabOk Holds s R X) (hf : f ∈ R)
    (hQ : ∀ s', SameProcs s s' → TabOk Holds s' (f ::ₘ R) X → Q () s') : wp (filedup f) Q E s := by
  have href : (s.ftable f).ref = R.count f := h.files.refs f
  have hpos : 1 ≤ R.count f := one_le_count_iff_mem.2 hf
  rw [filedup, wp_bind, wp_get, if_neg (by omega)]
  refine wp_modify.2 (hQ _ ⟨rfl, rfl, rfl, rfl, rfl⟩ (h.setRef ?_ (Nat.succ_ne_zero _) ?_))
  · rw [count_cons_self, href]
  · exact fun f' hf' => count_cons_of_ne hf' R

theorem wp_iputPtr {Q : Unit → Files ι σ → Prop} (hL : L.Sound Holds E) {o : Option ι} {ip : ι}
    (ho : o = some ip) {Y : Multiset ι} {P : Multiset ℕ} {U : Fin nProc → Bool}
    (h : Holds s.inodes (ip ::ₘ Y) P U) (hQ : ∀ i, Holds i Y P U → Q () { s with inodes := i }) :
    wp (iputPtr L o) Q E s := by
  rw [ho, iputPtr, wp_liftInodes]
  exact (hL.iput h).mono fun _ i hi => hQ i hi

/-- **`fileclose`** drops one reference; with the last one it releases the inode or the end of the
pipe that the file refers to. -/
theorem wp_fileclose (hL : L.Sound Holds E) (h : TabOk Holds s (f ::ₘ R) X) :
    wp (fileclose L f) (fun _ s' => TabOk Holds s' R X ∧ SameProcs s s') E s := by
  have href : (s.ftable f).ref = R.count f + 1 := by
    rw [← count_cons_self f R]
    exact h.files.refs f
  have hother : ∀ f', f' ≠ f → R.count f' = (f ::ₘ R).count f' := fun f' hf =>
    (count_cons_of_ne hf R).symm
  rw [fileclose, wp_bind, wp_get]
  rw [if_neg (by omega)]
  refine wp_ite (fun hmore => ?_) fun hlast => ?_
  · exact wp_modify.2 ⟨h.setRef (by omega) (by omega) hother, rfl, rfl, rfl, rfl, rfl⟩
  · have hzero : R.count f = 0 := by omega
    -- the entry that is left behind holds nothing
    generalize hv : ({ s.ftable f with ref := 0, type := .none } : OpenFile ι) = v
    have hvref : v.ref = R.count f := by rw [hzero, ← hv]
    have hvtype : v.type = .none := by rw [← hv]
    have hvidle : v.ref = 0 → v.type = .none := fun _ => hvtype
    have hvptr : v.type = .inode ∨ v.type = .device → v.ip.isSome := by
      rw [hvtype]
      rintro (h | h) <;> cases h
    have hvinode : v.inodeRef = 0 := by
      rw [OpenFile.inodeRef, hvtype, if_neg]
      rintro (h | h) <;> cases h
    have hnopipe : v.type ≠ .pipe := by
      rw [hvtype]
      exact fun h => by cases h
    have hsum := fileInodes_update s.ftable f v
    rw [hvinode, add_zero] at hsum
    have hcount := ref_update h.files hvref hother
    have hhold := h.inodes
    rw [held, ← hsum] at hhold
    refine wp_bind.2 (wp_modify.2 (wp_ite (fun hpipe => ?_) fun hnot => wp_ite (fun hino => ?_) ?_))
    · -- the end of a pipe
      have hnoref : (s.ftable f).inodeRef = 0 := by
        rw [OpenFile.inodeRef, hpipe, if_neg]
        rintro (h | h) <;> cases h
      rw [hnoref, add_zero] at hhold
      obtain ⟨q, hq, hpage, hopen⟩ := h.files.ends f hpipe
      rw [pipeclose, wp_bind, wp_get]
      cases hfind : s.pipes.find? fun q => decide (q.page = (s.ftable f).pipe) with
      | none => exact absurd (decide_eq_true hpage) (List.find?_eq_none.1 hfind q hq)
      | some q' =>
        have hpage' := find?_some hfind
        rw [decide_eq_true_eq] at hpage'
        obtain rfl : q' = q :=
          h.files.eq_of_page (List.mem_of_find?_eq_some hfind) hq (hpage'.trans hpage.symm)
        refine wp_ite (fun hboth => wp_bind.2 (wp_set.2 (wp_liftInodes.2 ?_))) fun hopen =>
          wp_set.2 ⟨h.write ?_ hvidle hvptr ?_, rfl, rfl, rfl, rfl, rfl⟩
        · have hclosed : ∀ w, (q'.close (s.ftable f).writable).isOpen w ≠ true := by
            intro w
            cases w <;> simp [Pipe.isOpen, hboth.1, hboth.2]
          rw [pipePages_split h.files.nodup hq, hpage] at hhold
          exact (hL.kfree hhold).mono fun _ i hi => ⟨h.write
            (h.files.closeBoth hq hpipe hpage hnopipe hcount hclosed) hvidle hvptr hi,
            rfl, rfl, rfl, rfl, rfl⟩
        · exact h.files.closeEnd hq hpipe hpage hnopipe hcount (isOpen_other hopen)
        · rwa [pipePages_close hpage]
    · -- an inode
      obtain ⟨ip, hip⟩ := isSome_iff_exists.1 (h.ptr f hino)
      have hone : (s.ftable f).inodeRef = {ip} := by
        rw [OpenFile.inodeRef, if_pos hino, hip, elim_some]
      have hcons : fileInodes (update s.ftable f v) + {ip} + cwdInodes s.cwd + X =
          ip ::ₘ (fileInodes (update s.ftable f v) + cwdInodes s.cwd + X) := by
        rw [← singleton_add]
        abel
      rw [hone, hcons] at hhold
      refine wp_iputPtr hL hip hhold fun i hi => ⟨h.write ?_ hvidle hvptr hi, rfl, rfl, rfl, rfl,
        rfl⟩
      exact h.files.setFile (iff_of_false hnopipe hnot) (fun h => absurd h hnopipe) hcount
        fun _ => hnopipe
    · -- a file that `open` or `pipe` gives up before it is filled in
      intro hnoino
      have hnoref : (s.ftable f).inodeRef = 0 := by rw [OpenFile.inodeRef, if_neg hnoino]
      rw [hnoref, add_zero] at hhold
      refine wp_pure.2 ⟨h.write ?_ hvidle hvptr hhold, rfl, rfl, rfl, rfl, rfl⟩
      exact h.files.setFile (iff_of_false hnopipe hnot) (fun h => absurd h hnopipe) hcount
        fun _ => hnopipe

theorem TabOk.setInodes {Holds' : Given ι σ} {i : σ} {X' : Multiset ι} (h : TabOk Holds s R X)
    (hi : Holds' i (s.held + X') (pipePages s.pipes) s.inUse) :
    TabOk Holds' { s with inodes := i } R X' :=
  ⟨h.files, h.idle, h.ptr, hi⟩

theorem TabOk.newPipe (h : TabOk Holds s R X) {f0 f1 : Fin nFile} {pi : ℕ} {i : σ} (hne : f0 ≠ f1)
    (h0 : (s.ftable f0).type = .none) (h1 : (s.ftable f1).type = .none)
    (hr0 : (s.ftable f0).ref ≠ 0) (hr1 : (s.ftable f1).ref ≠ 0) (hpi : pi ∉ s.pipes.map Pipe.page)
    (hi : Holds i (s.held + X) (pi ::ₘ pipePages s.pipes) s.inUse) :
    TabOk Holds { s with
      pipes := ⟨pi, true, true⟩ :: s.pipes
      ftable := update (update s.ftable f0
        { s.ftable f0 with type := .pipe, readable := true, writable := false, pipe := pi }) f1
        { s.ftable f1 with type := .pipe, readable := false, writable := true, pipe := pi }
      inodes := i } R X := by
  have hempty : ∀ v : OpenFile ι, v.type = .none ∨ v.type = .pipe → v.inodeRef = 0 := by
    intro v hv
    rw [OpenFile.inodeRef, if_neg]
    rintro (h | h) <;> rw [h] at hv <;> rcases hv with hv | hv <;> cases hv
  have hfiles := h.files.newPipe hne (by rw [h0]; exact fun h => by cases h)
    (by rw [h1]; exact fun h => by cases h) hr0 hr1 hpi
  generalize hv0 : ({ s.ftable f0 with
    type := .pipe, readable := true, writable := false, pipe := pi } : OpenFile ι) = v0 at hfiles ⊢
  generalize hv1 : ({ s.ftable f1 with
    type := .pipe, readable := false, writable := true, pipe := pi } : OpenFile ι) = v1 at hfiles ⊢
  have ht0 : v0.type = .pipe := by rw [← hv0]
  have ht1 : v1.type = .pipe := by rw [← hv1]
  have hcase : ∀ f, update (update s.ftable f0 v0) f1 v1 f = s.ftable f ∨
      (update (update s.ftable f0 v0) f1 v1 f).type = .pipe ∧
        (update (update s.ftable f0 v0) f1 v1 f).ref ≠ 0 := by
    intro f
    rw [update_apply, update_apply]
    split
    · exact .inr ⟨ht1, by rw [← hv1]; exact hr1⟩
    · split
      · exact .inr ⟨ht0, by rw [← hv0]; exact hr0⟩
      · exact .inl rfl
  refine ⟨hfiles, fun f hf => ?_, fun f hf => ?_, ?_⟩
  · rcases hcase f with hsame | ⟨-, href⟩
    · dsimp only at hf ⊢
      rw [hsame] at hf ⊢
      exact h.idle f hf
    · exact absurd hf href
  · rcases hcase f with hsame | ⟨htype, -⟩
    · dsimp only at hf ⊢
      rw [hsame] at hf ⊢
      exact h.ptr f hf
    · rw [htype] at hf
      rcases hf with hf | hf <;> cases hf
  · have hsum0 := fileInodes_update s.ftable f0 v0
    have hsum1 := fileInodes_update (update s.ftable f0 v0) f1 v1
    rw [hempty _ (.inl h0), hempty _ (.inr ht0), add_zero, add_zero] at hsum0
    rw [update_of_ne hne.symm, hempty _ (.inl h1), hempty _ (.inr ht1), add_zero, add_zero,
      hsum0] at hsum1
    show Holds i (fileInodes _ + cwdInodes s.cwd + X) (pi ::ₘ pipePages s.pipes) s.inUse
    rw [hsum1]
    exact hi

theorem wp_pipealloc (hL : L.Sound Holds E) (h : TabOk Holds s R X)
    (hfresh : wp L.kalloc (fun r _ => ∀ pi ∈ r, pi ∉ s.pipes.map Pipe.page) E s.inodes) :
    wp (pipealloc L)
      (fun r s' => SameProcs s s' ∧ (r = none ∧ TabOk Holds s' R X ∨
        ∃ f0 f1, r = some (f0, f1) ∧ TabOk Holds s' (f0 ::ₘ f1 ::ₘ R) X)) E s := by
  rw [pipealloc, wp_bind]
  refine wp_filealloc h (wp_pure.2 ⟨.refl s, .inl ⟨rfl, h⟩⟩) ?_
  intro f0 s0 hz0 hs0 h₀
  have hsame0 : SameProcs s s0 := by rw [hs0]; exact ⟨rfl, rfl, rfl, rfl, rfl⟩
  refine wp_bind.2 (wp_filealloc h₀ (wp_bind.2 ?_) ?_)
  · exact (wp_fileclose hL h₀).mono fun _ s' hs' =>
      wp_pure.2 ⟨hsame0.trans hs'.2, .inl ⟨rfl, hs'.1⟩⟩
  · intro f1 s1 hz1 hs1 h₁
    have hsame1 : SameProcs s s1 := by
      refine hsame0.trans ?_
      rw [hs1]
      exact ⟨rfl, rfl, rfl, rfl, rfl⟩
    have hne : f0 ≠ f1 := by
      rintro rfl
      rw [hs0] at hz1
      dsimp only at hz1
      rw [update_self] at hz1
      exact absurd hz1 Nat.one_ne_zero
    have hf0 : s1.ftable f0 = { s.ftable f0 with ref := 1 } := by
      rw [hs1, hs0]
      dsimp only
      rw [update_of_ne hne, update_self]
    have hf1 : s1.ftable f1 = { s0.ftable f1 with ref := 1 } := by
      rw [hs1]
      dsimp only
      rw [update_self]
    have hinodes : s1.inodes = s.inodes := by rw [hs1, hs0]
    have hpipes : s1.pipes = s.pipes := by rw [hs1, hs0]
    rw [cons_swap] at h₁
    rw [← hinodes] at hfresh
    refine wp_bind.2 (wp_liftInodes.2 (((hL.kalloc h₁.inodes).and hfresh).mono ?_))
    rintro (_ | pi) i ⟨hi, hpi⟩
    · refine wp_bind.2 ((wp_fileclose hL (h₁.setInodes hi)).mono fun _ s2 hs2 => wp_bind.2 ?_)
      refine (wp_fileclose hL hs2.1).mono fun _ s3 hs3 => wp_pure.2 ?_
      have hsame2 : SameProcs s1 { s1 with inodes := i } := ⟨rfl, rfl, rfl, rfl, rfl⟩
      exact ⟨hsame1.trans (hsame2.trans (hs2.2.trans hs3.2)), .inl ⟨rfl, hs3.1⟩⟩
    · refine wp_bind.2 (wp_modify.2 (wp_pure.2 ⟨hsame1.trans ⟨rfl, rfl, rfl, rfl, rfl⟩,
        .inr ⟨f0, f1, rfl, h₁.newPipe hne ?_ ?_ ?_ ?_ ?_ hi⟩⟩))
      · rw [hf0]
        exact h.idle f0 hz0
      · rw [hf1]
        exact h₀.idle f1 hz1
      · rw [hf0]
        exact Nat.one_ne_zero
      · rw [hf1]
        exact Nat.one_ne_zero
      · rw [hpipes]
        exact hpi pi rfl

theorem wp_fdalloc {p : Fin nProc} {Q : Option (Fin nOFile) → Files ι σ → Prop} (h0 : Q none s)
    (h1 : ∀ fd o, o = update s.ofile p (update (s.ofile p) fd (some f)) →
      fdRefs o = f ::ₘ fdRefs s.ofile → s.ofile p fd = none →
      Q (some fd) { s with ofile := o }) : wp (fdalloc p f) Q E s := by
  rw [fdalloc, wp_bind, wp_get]
  cases hfind : (finRange nOFile).find? fun fd => (s.ofile p fd).isNone with
  | none => exact wp_pure.2 h0
  | some fd =>
    have hnone := find?_some hfind
    rw [Option.isNone_iff_eq_none] at hnone
    have hset := fdRefs_set s.ofile p fd (some f)
    rw [hnone, elim_none, add_zero, add_comm] at hset
    exact wp_bind.2 (wp_modify.2 (wp_pure.2 (h1 fd _ rfl hset hnone)))

theorem TabOk.setOfile (h : TabOk Holds s R X) (o : Fin nProc → Fin nOFile → Option (Fin nFile)) :
    TabOk Holds { s with ofile := o } R X :=
  ⟨h.files, h.idle, h.ptr, h.inodes⟩

end Table

/-! ### The invariant between calls -/

/-- What a process holds: a current directory if it runs, and otherwise nothing. -/
structure Holding (st : PState) (fds : Fin nOFile →
    Option (Fin nFile)) (cwd : Option ι) : Prop where
  live : st = .live → cwd.isSome
  dead : st ≠ .live → (∀ fd, fds fd = none) ∧ cwd = none

/-- **The invariant between calls**, when the caller holds the references `X` to inodes; every
reference to a file is a descriptor. -/
structure Ok (Holds : Given ι σ) (s : Files ι σ) (X : Multiset ι) : Prop where
  tab : TabOk Holds s (fdRefs s.ofile) X
  procs : ∀ p, Holding (s.state p) (s.ofile p) (s.cwd p)

/-- The same over inodes alone. -/
abbrev Inv (H : σ → Multiset ι → Prop) (s : Files ι σ) (X : Multiset ι) : Prop :=
  Ok (fun i R _ _ => H i R) s X

section Calls

variable {Holds : Given ι σ} {E : FsPanic → Prop} {L : Lower ι σ} {s s' s0 : Files ι σ}
  {X X' : Multiset ι} {p q : Fin nProc} {f : Fin nFile} {fd : Fin nOFile}

theorem Ok.retab (htab : TabOk Holds s' (fdRefs s'.ofile) X') (hcwd : s'.cwd = s.cwd)
    (hstate : s'.state = s.state) (hprocs : ∀ p, Holding (s.state p) (s'.ofile p) (s.cwd p)) :
    Ok Holds s' X' := by
  refine ⟨htab, fun p => ?_⟩
  rw [hstate, hcwd]
  exact hprocs p

theorem Ok.same (h : Ok Holds s X) (hs : SameProcs s s')
    (htab : TabOk Holds s' (fdRefs s.ofile) X') : Ok Holds s' X' := by
  rw [← hs.ofile] at htab
  refine .retab htab hs.cwd hs.state fun p => ?_
  rw [hs.ofile]
  exact h.procs p

theorem Ok.holding_set (h : Ok Holds s X) {v : Option (Fin nFile)}
    (hv : s.state p = .live ∨ v = none) (r : Fin nProc) :
    Holding (s.state r) (update s.ofile p (update (s.ofile p) fd v) r) (s.cwd r) := by
  refine ⟨(h.procs r).live, fun hr => ⟨fun i => ?_, ((h.procs r).dead hr).2⟩⟩
  by_cases hrp : r = p
  · subst hrp
    obtain rfl : v = none := hv.resolve_left hr
    rw [update_self, update_apply]
    split
    · rfl
    · exact ((h.procs r).dead hr).1 i
  · rw [update_of_ne hrp]
    exact ((h.procs r).dead hr).1 i

theorem Ok.setInodes {Holds' : Given ι σ} {i : σ} (h : Ok Holds s X)
    (hi : Holds' i (s.held + X') (pipePages s.pipes) s.inUse) :
    Ok Holds' { s with inodes := i } X' :=
  ⟨h.tab.setInodes hi, h.procs⟩

variable {ip : ι}

theorem mem_held_of_cwd (hip : s.cwd p = some ip) : ip ∈ s.held := by
  have hsum := cwdInodes_update s.cwd p none
  rw [hip, elim_none, add_zero] at hsum
  refine mem_add.2 (.inr ?_)
  rw [← hsum]
  exact mem_add.2 (.inr (mem_singleton_self _))

theorem TabOk.fill {R : Multiset (Fin nFile)} (h : TabOk Holds s R (ip ::ₘ X))
    (href : (s.ftable f).ref ≠ 0) (htype : (s.ftable f).type = .none) (type : IType) (major : ℤ)
    (omode : ℕ) : TabOk Holds { s with
      ftable := update s.ftable f ((s.ftable f).fill ip type major omode) } R X := by
  have hty := OpenFile.type_fill (s.ftable f) ip type major omode
  have hnopipe : ((s.ftable f).fill ip type major omode).type ≠ .pipe := by
    rcases hty with hty | hty <;> rw [hty] <;> exact fun h => by cases h
  have hnopipe0 : (s.ftable f).type ≠ .pipe := by
    rw [htype]
    exact fun h => by cases h
  have href' := OpenFile.ref_fill (s.ftable f) ip type major omode
  refine h.write ?_ (fun h0 => absurd (href'.symm.trans h0) href) (fun _ => rfl) ?_
  · refine h.files.setFile (iff_of_false hnopipe hnopipe0) (fun h => absurd h hnopipe) ?_ fun _ =>
      hnopipe
    exact ref_update h.files (href'.trans (h.files.refs f)) fun _ _ => rfl
  · have hsum := fileInodes_update s.ftable f ((s.ftable f).fill ip type major omode)
    have hnone : (s.ftable f).inodeRef = 0 := by
      rw [OpenFile.inodeRef, htype, if_neg]
      rintro (h | h) <;> cases h
    rw [hnone, add_zero, OpenFile.inodeRef_fill] at hsum
    have hheld := h.inodes
    rw [held, ← singleton_add] at hheld
    rw [hsum]
    convert hheld using 1
    abel

theorem ofile_of_argfd {n : ℤ} (h : s.argfd p n = some (fd, f)) : s.ofile p fd = some f := by
  rw [argfd] at h
  split at h
  · obtain ⟨f', hf', heq⟩ := Option.map_eq_some_iff.1 h
    cases heq
    exact hf'
  · cases h

theorem wp_sysDup (h : Ok Holds s X) (hp : s.state p = .live) (n : ℤ) :
    wp (sysDup p n) (fun _ s' => Ok Holds s' X) E s := by
  rw [sysDup, wp_bind, wp_get]
  cases harg : s.argfd p n with
  | none => exact wp_pure.2 h
  | some a =>
    obtain ⟨fd, f⟩ := a
    have hmem := mem_fdRefs (ofile_of_argfd harg)
    refine wp_bind.2 (wp_fdalloc (wp_pure.2 h) ?_)
    intro fd' o ho href hnone
    refine wp_bind.2 (wp_filedup (h.tab.setOfile o) hmem fun s1 hs1 h₁ => wp_pure.2 ?_)
    have hof1 : s1.ofile = o := hs1.ofile
    refine Ok.retab ?_ hs1.cwd hs1.state ?_
    · rw [hof1, href]
      exact h₁
    · rw [hof1, ho]
      exact h.holding_set (.inl hp)

theorem wp_dupFd (h : TabOk Holds s (fdRefs s.ofile) X) (hnone : s.ofile q fd = none) :
    wp (dupFd p q fd)
      (fun _ s' => TabOk Holds s' (fdRefs s'.ofile) X ∧ s'.cwd = s.cwd ∧ s'.state = s.state ∧
        (∀ i, i ≠ fd → s'.ofile q i = s.ofile q i) ∧ ∀ r, r ≠ q → s'.ofile r = s.ofile r) E s := by
  rw [dupFd, wp_bind, wp_get]
  cases hf : s.ofile p fd with
  | none => exact wp_pure.2 ⟨h, rfl, rfl, fun _ _ => rfl, fun _ _ => rfl⟩
  | some f =>
    refine wp_bind.2 (wp_filedup h (mem_fdRefs hf) fun s1 hs1 h₁ => wp_modify.2 ?_)
    have hset := fdRefs_set s.ofile q fd (some f)
    rw [hnone, elim_none, add_zero, add_comm] at hset
    refine ⟨?_, hs1.cwd, hs1.state, fun i hi => ?_, fun r hr => ?_⟩
    · rw [hs1.ofile, hset]
      exact h₁.setOfile _
    · show update s1.ofile q _ q i = _
      rw [update_self, update_of_ne hi, hs1.ofile]
    · show update s1.ofile q _ r = _
      rw [update_of_ne hr, hs1.ofile]

variable (hL : L.Sound Holds E)

include hL

theorem wp_iputHeld {Q : Unit → Files ι σ → Prop} (h : Ok Holds s (ip ::ₘ X))
    (hQ : ∀ s', SameProcs s s' → Ok Holds s' X → Q () s') : wp (liftInodes (L.iput ip)) Q E s := by
  rw [wp_liftInodes]
  have hhold := h.tab.inodes
  rw [add_cons] at hhold
  exact (hL.iput hhold).mono fun _ i hi => hQ _ ⟨rfl, rfl, rfl, rfl, rfl⟩ (h.setInodes hi)

/-- **`chdir`**: the reference of the caller takes the place of that to the old directory. -/
theorem wp_moveCwd {Q : Unit → Files ι σ → Prop} (h : Ok Holds s (ip ::ₘ X))
    (hp : s.state p = .live) (hQ : ∀ s', Ok Holds s' X → Q () s') :
    wp (do iputPtr L (s.cwd p); setCwd p (some ip)) Q E s := by
  obtain ⟨cwd, hcwd⟩ := isSome_iff_exists.1 ((h.procs p).live hp)
  have hsum := cwdInodes_update s.cwd p (some ip)
  rw [hcwd, elim_some, elim_some] at hsum
  have hhold := h.tab.inodes
  have hcons : s.held + ip ::ₘ X = cwd ::ₘ (fileInodes s.ftable +
      cwdInodes (update s.cwd p (some ip)) + X) := by
    rw [held, ← singleton_add cwd, ← singleton_add ip, add_assoc,
      ← add_assoc (cwdInodes s.cwd), ← hsum]
    abel
  rw [hcons] at hhold
  refine wp_bind.2 (wp_iputPtr hL hcwd hhold fun i hi => wp_modify.2 (hQ _ ?_))
  refine ⟨⟨h.tab.files, h.tab.idle, h.tab.ptr, hi⟩, fun q => ?_⟩
  show Holding (s.state q) (s.ofile q) (update s.cwd p (some ip) q)
  by_cases hqp : q = p
  · rw [hqp, update_self]
    exact ⟨fun _ => rfl, fun hq => absurd hp hq⟩
  · rw [update_of_ne hqp]
    exact h.procs q

/-- **`open`** turns the reference to the inode into one of the file table, or drops it. -/
theorem wp_openInode (h : Ok Holds s (ip ::ₘ X)) (hp : s.state p = .live) (type : IType) (major : ℤ)
    (omode : ℕ) :
    wp (openInode L p ip type major omode)
      (fun r s' => Ok Holds s' X ∧ s'.cwd = s.cwd ∧ s'.state = s.state ∧ s'.parent = s.parent ∧
        s'.initproc = s.initproc ∧ (r.isSome → s'.inodes = s.inodes ∧ ip ∈ s'.held)) E s := by
  have hdrop : ∀ {s1 : Files ι σ}, SameProcs s s1 → Ok Holds s1 (ip ::ₘ X) →
      wp (do liftInodes (L.iput ip); pure none)
        (fun (r : Option (Fin nOFile)) s' => Ok Holds s' X ∧ s'.cwd = s.cwd ∧ s'.state = s.state ∧
          s'.parent = s.parent ∧ s'.initproc = s.initproc ∧
          (r.isSome → s'.inodes = s.inodes ∧ ip ∈ s'.held)) E s1 := by
    intro s1 hsame h₁
    refine wp_bind.2 (wp_iputHeld hL h₁ fun s2 hs2 h2 => wp_pure.2 ?_)
    have hs := hsame.trans hs2
    exact ⟨h2, hs.cwd, hs.state, hs.parent, hs.initproc, fun h => by cases h⟩
  refine wp_ite (fun _ => hdrop (.refl s) h) fun _ => wp_ite (fun _ => hdrop (.refl s) h) fun _ =>
    ?_
  refine wp_bind.2 (wp_filealloc h.tab (hdrop (.refl s) h) ?_)
  intro f s1 hz hs1 h₁
  have hsame1 : SameProcs s s1 := by rw [hs1]; exact ⟨rfl, rfl, rfl, rfl, rfl⟩
  have hf₁ : s1.ftable f = { s.ftable f with ref := 1 } := by
    rw [hs1]
    dsimp only
    rw [update_self]
  refine wp_bind.2 (wp_fdalloc (wp_bind.2 ?_) ?_)
  · exact (wp_fileclose hL h₁).mono fun _ s2 hs2 =>
      hdrop (hsame1.trans hs2.2) (h.same (hsame1.trans hs2.2) hs2.1)
  · intro fd o ho href hnone
    rw [hsame1.ofile] at ho href
    have h2 : TabOk Holds { s1 with ofile := o } (f ::ₘ fdRefs s.ofile) (ip ::ₘ X) := h₁.setOfile o
    have hfill := h2.fill (f := f) (by rw [hf₁]; exact Nat.one_ne_zero)
      (by rw [hf₁]; exact h.tab.idle f hz) type major omode
    refine wp_bind.2 (wp_get.2 (wp_bind.2 (wp_modify.2 (wp_pure.2 ⟨?_, hsame1.cwd, hsame1.state,
      hsame1.parent, hsame1.initproc, fun _ => ⟨?_, ?_⟩⟩))))
    · refine Ok.retab ?_ hsame1.cwd hsame1.state ?_
      · rw [← href] at hfill
        exact hfill
      · rw [ho]
        exact h.holding_set (.inl hp)
    · rw [hs1]
    · have hsum := fileInodes_update s1.ftable f ((s1.ftable f).fill ip type major omode)
      rw [OpenFile.inodeRef_fill] at hsum
      have hmem : ip ∈ fileInodes (update s1.ftable f ((s1.ftable f).fill ip type major omode)) +
          (s1.ftable f).inodeRef := by
        rw [hsum]
        exact mem_add.2 (.inr (mem_singleton_self _))
      have hnoref : (s1.ftable f).inodeRef = 0 := by
        rw [OpenFile.inodeRef, hf₁, h.tab.idle f hz, if_neg]
        rintro (h | h) <;> cases h
      rw [hnoref, add_zero] at hmem
      exact mem_add.2 (.inl hmem)

theorem wp_sysClose (h : Ok Holds s X) (n : ℤ) :
    wp (sysClose L p n) (fun _ s' => Ok Holds s' X) E s := by
  rw [sysClose, wp_bind, wp_get]
  cases harg : s.argfd p n with
  | none => exact wp_pure.2 h
  | some a =>
    obtain ⟨fd, f⟩ := a
    have htab := h.tab
    rw [fdRefs_take (ofile_of_argfd harg)] at htab
    refine wp_bind.2 (wp_modify.2 (wp_bind.2 ((wp_fileclose hL (htab.setOfile _)).mono ?_)))
    rintro - s1 ⟨h₁, hs1⟩
    have hof1 : s1.ofile = update s.ofile p (update (s.ofile p) fd none) := hs1.ofile
    refine wp_pure.2 (Ok.retab ?_ hs1.cwd hs1.state ?_)
    · rw [hof1]
      exact h₁
    · rw [hof1]
      exact h.holding_set (.inr rfl)

theorem wp_closeBothFiles (h : Ok Holds s0 X) {rf wf : Fin nFile} (hs : SameProcs s0 s)
    (htab : TabOk Holds s (rf ::ₘ wf ::ₘ fdRefs s0.ofile) X) :
    wp (closeBothFiles L rf wf) (fun _ s' => Ok Holds s' X) E s := by
  rw [closeBothFiles, wp_bind]
  refine (wp_fileclose hL htab).mono ?_
  rintro - s1 ⟨h₁, hs1⟩
  refine wp_bind.2 ((wp_fileclose hL h₁).mono ?_)
  rintro - s2 ⟨h2, hs2⟩
  exact wp_pure.2 (h.same (hs.trans (hs1.trans hs2)) h2)

theorem wp_sysPipe (h : Ok Holds s X) (hp : s.state p = .live)
    (hfresh : wp L.kalloc (fun r _ => ∀ pi ∈ r, pi ∉ s.pipes.map Pipe.page) E s.inodes)
    (fdarray : ℕ) : wp (sysPipe L p fdarray) (fun _ s' => Ok Holds s' X) E s := by
  rw [sysPipe, wp_bind]
  refine (wp_pipealloc hL h.tab hfresh).mono ?_
  rintro r s1 ⟨hs1, ⟨rfl, h₁⟩ | ⟨rf, wf, rfl, h₁⟩⟩
  · exact wp_pure.2 (h.same hs1 h₁)
  · refine wp_bind.2 (wp_fdalloc (wp_closeBothFiles hL h hs1 h₁) ?_)
    intro fd0 o2 ho2 href2 hnone2
    have hclear2 : update o2 p (update (o2 p) fd0 none) = s1.ofile := by
      rw [ho2]
      exact update_clear hnone2
    refine wp_bind.2 (wp_fdalloc (wp_bind.2 (wp_modify.2 ?_)) ?_)
    · refine wp_closeBothFiles hL h ?_ (h₁.setOfile _)
      exact ⟨hclear2.trans hs1.ofile, hs1.cwd, hs1.state, hs1.parent, hs1.initproc⟩
    · intro fd1 o3 ho3 href3 hnone3
      dsimp only at ho3 href3 hnone3
      have hne : fd1 ≠ fd0 := by
        rintro rfl
        rw [ho2, update_self, update_self] at hnone3
        cases hnone3
      have hnone1 : s1.ofile p fd1 = none := by
        rw [ho2, update_self, update_of_ne hne] at hnone3
        exact hnone3
      have huse : s1.inUse p = true := by
        rw [inUse, hs1.state, Function.comp_apply, hp]
        rfl
      refine wp_bind.2 (wp_liftInodes.2 ((hL.copyFds _ _ _ huse h₁.inodes).mono fun _ i hi =>
        wp_ite (fun _ => wp_pure.2 ?_) fun _ => ?_))
      · -- both descriptors are in place
        refine Ok.retab ?_ hs1.cwd hs1.state ?_
        · rw [href3, href2, hs1.ofile, cons_swap]
          exact (h₁.setInodes hi).setOfile o3
        · intro r
          show Holding (s.state r) (o3 r) (s.cwd r)
          by_cases hrp : r = p
          · subst hrp
            exact ⟨(h.procs r).live, fun hr => absurd hp hr⟩
          · rw [ho3, update_of_ne hrp, ho2, update_of_ne hrp, hs1.ofile]
            exact h.procs r
      · -- the user pointer is bad: both descriptors are cleared
        refine wp_bind.2 (wp_modify.2 (wp_bind.2 (wp_modify.2 ?_)))
        have hclear3 : update (update o3 p (update (o3 p) fd0 none)) p
            (update (update o3 p (update (o3 p) fd0 none) p) fd1 none) =
              s1.ofile := by
          rw [update_self, update_idem, ho3, update_self,
            update_idem, ho2, update_self, update_idem]
          funext r i
          by_cases hr : r = p
          · subst hr
            rw [update_self]
            by_cases hi1 : i = fd1
            · rw [hi1, update_self, hnone1]
            · rw [update_of_ne hi1]
              by_cases hi0 : i = fd0
              · rw [hi0, update_self, hnone2]
              · rw [update_of_ne hi0, update_of_ne hi1, update_of_ne hi0]
          · rw [update_of_ne hr]
        refine wp_closeBothFiles hL h ?_ ⟨h₁.files, h₁.idle, h₁.ptr, hi⟩
        exact ⟨hclear3.trans hs1.ofile, hs1.cwd, hs1.state, hs1.parent, hs1.initproc⟩

/-! ### Processes -/

theorem wp_dupCwd (h : TabOk Holds s (fdRefs s.ofile) X) (hp : (s.cwd p).isSome)
    (hq : s.cwd q = none) :
    wp (dupCwd L p q)
      (fun _ s' => TabOk Holds s' (fdRefs s'.ofile) X ∧ s'.ofile = s.ofile ∧ s'.state = s.state ∧
        s'.cwd = update s.cwd q (s.cwd p)) E s := by
  obtain ⟨ip, hip⟩ := isSome_iff_exists.1 hp
  have hmem : ip ∈ s.held + X := mem_add.2 (.inl (mem_held_of_cwd hip))
  rw [dupCwd, wp_bind, wp_get]
  simp only [hip]
  refine wp_bind.2 (wp_liftInodes.2 ((hL.idup hmem h.inodes).mono fun _ i hi => wp_modify.2 ?_))
  refine ⟨⟨h.files, h.idle, h.ptr, ?_⟩, rfl, rfl, rfl⟩
  have hsum := cwdInodes_update s.cwd q (some ip)
  rw [hq, elim_none, add_zero, elim_some] at hsum
  show Holds i (fileInodes s.ftable + cwdInodes (update s.cwd q (some ip)) + X) _ s.inUse
  rw [hsum]
  convert hi using 1
  rw [held, ← singleton_add]
  abel

theorem wp_fork (h : Ok Holds s X) (hp : s.state p = .live) :
    wp (fork L p) (fun _ s' => Ok Holds s' X) E s := by
  rw [fork, wp_bind, wp_get]
  cases hfind : (finRange nProc).find? fun q => decide (s.state q = .unused) with
  | none => exact wp_pure.2 h
  | some q =>
    have hq := find?_some hfind
    rw [decide_eq_true_eq] at hq
    have hdead : s.state q ≠ .live := by
      rw [hq]
      exact fun h => by cases h
    have huse : s.inUse p = true := by
      rw [inUse, Function.comp_apply, hp]
      rfl
    have hfree : s.inUse q = false := by
      rw [inUse, Function.comp_apply, hq]
      rfl
    refine wp_bind.2 (wp_liftInodes.2 ((hL.copyProc huse hfree h.tab.inodes).mono ?_))
    rintro (_ | _) i hi
    · rw [← hfree, Function.update_eq_self] at hi
      exact wp_pure.2 (h.setInodes hi)
    refine wp_bind.2 (wp_modify.2 (wp_bind.2 ?_))
    have htab : TabOk Holds { s with inodes := i, state := update s.state q .used }
        (fdRefs s.ofile) X := by
      refine ⟨h.tab.files, h.tab.idle, h.tab.ptr, ?_⟩
      rw [inUse, Function.comp_update]
      exact hi
    -- the descriptors that are still to be copied are empty in the child
    refine wp_forM (I := fun l s' => TabOk Holds s' (fdRefs s'.ofile) X ∧ s'.cwd = s.cwd ∧
      s'.state = update s.state q .used ∧ (∀ r, r ≠ q → s'.ofile r = s.ofile r) ∧ l.Nodup ∧
      ∀ fd ∈ l, s'.ofile q fd = none) ⟨htab, rfl, rfl, fun _ _ => rfl, List.nodup_finRange _,
        fun fd _ => ((h.procs q).dead hdead).1 fd⟩ ?_ ?_
    · rintro fd l s1 ⟨h₁, hcwd1, hstate1, hof1, hnodup, hnone⟩
      refine (wp_dupFd h₁ (hnone fd (List.mem_cons_self ..))).mono ?_
      rintro - s2 ⟨h2, hcwd2, hstate2, hfd2, hof2⟩
      refine ⟨h2, hcwd2.trans hcwd1, hstate2.trans hstate1,
        fun r hr => (hof2 r hr).trans (hof1 r hr), (List.nodup_cons.1 hnodup).2, fun i hi => ?_⟩
      rw [hfd2 i fun hif => (List.nodup_cons.1 hnodup).1 (hif ▸ hi)]
      exact hnone i (List.mem_cons_of_mem _ hi)
    · rintro s1 ⟨h₁, hcwd1, hstate1, hof1, -, -⟩
      have hp1 : (s1.cwd p).isSome := by
        rw [hcwd1]
        exact (h.procs p).live hp
      have hq1 : s1.cwd q = none := by
        rw [hcwd1]
        exact ((h.procs q).dead hdead).2
      refine wp_bind.2 ((wp_dupCwd hL h₁ hp1 hq1).mono ?_)
      rintro - s2 ⟨h2, hof2, hstate2, hcwd2⟩
      have hlive : update s2.state q .live = update s.state q .live := by
        rw [hstate2, hstate1, update_idem]
      have hin := h2.inodes
      rw [inUse, ← inUse_update (v := .live) (by rw [hstate2, hstate1, update_self]; rfl)] at hin
      refine wp_bind.2 (wp_modify.2 (wp_pure.2 ⟨⟨h2.files, h2.idle, h2.ptr, hin⟩, fun r => ?_⟩))
      show Holding (update s2.state q .live r) (s2.ofile r) (s2.cwd r)
      rw [hlive, hcwd2]
      by_cases hrq : r = q
      · rw [hrq, update_self, update_self]
        exact ⟨fun _ => hp1, fun hr => absurd rfl hr⟩
      · rw [update_of_ne hrq, update_of_ne hrq, hof2, hof1 r hrq, hcwd1]
        exact h.procs r

theorem wp_closeFd (h : Ok Holds s X) :
    wp (closeFd L p fd)
      (fun _ s' => Ok Holds s' X ∧ s'.state = s.state ∧ s'.ofile p fd = none ∧
        ∀ i, s.ofile p i = none → s'.ofile p i = none) E s := by
  rw [closeFd, wp_bind, wp_get]
  cases hf : s.ofile p fd with
  | none => exact wp_pure.2 ⟨h, rfl, hf, fun _ hi => hi⟩
  | some f =>
    have htab := h.tab
    rw [fdRefs_take hf] at htab
    refine wp_bind.2 ((wp_fileclose hL htab).mono ?_)
    rintro - s1 ⟨h₁, hs1⟩
    refine wp_modify.2 ⟨Ok.retab ?_ hs1.cwd hs1.state ?_, hs1.state, ?_, fun i hi => ?_⟩
    · rw [hs1.ofile]
      exact h₁.setOfile _
    · rw [hs1.ofile]
      exact h.holding_set (.inr rfl)
    · show update s1.ofile p _ p fd = none
      rw [update_self, update_self]
    · show update s1.ofile p _ p i = none
      rw [update_self, update_apply, hs1.ofile]
      split
      · rfl
      · exact hi

/-- **`exit` keeps the invariant**, unless it is `init` that exits. -/
theorem wp_exit (h : Ok Holds s X) (hp : s.state p = .live)
    (hinit : p = s.initproc → E .initExiting) : wp (exit L p) (fun _ s' => Ok Holds s' X) E s := by
  rw [exit, wp_bind, wp_get]
  refine wp_ite (fun hpi => wp_throw.2 (hinit hpi)) fun _ => wp_bind.2 ?_
  refine wp_forM (I := fun l s' => Ok Holds s' X ∧ s'.state p = .live ∧
    ∀ fd, fd ∉ l → s'.ofile p fd = none) ⟨h, hp, fun fd hfd => absurd (List.mem_finRange fd) hfd⟩ ?_
    ?_
  · rintro fd l s1 ⟨h₁, hlive1, hdone⟩
    refine (wp_closeFd hL h₁).mono ?_
    rintro - s2 ⟨h2, hstate2, hfd2, hkeep⟩
    refine ⟨h2, by rw [hstate2, hlive1], fun i hi => ?_⟩
    by_cases hif : i = fd
    · rw [hif, hfd2]
    · exact hkeep i (hdone i fun hmem => (List.mem_cons.1 hmem).elim hif hi)
  · rintro s1 ⟨h₁, hlive1, hdone⟩
    obtain ⟨ip, hip⟩ := isSome_iff_exists.1 ((h₁.procs p).live hlive1)
    have hsum := cwdInodes_update s1.cwd p none
    rw [hip, elim_some, elim_none, add_zero] at hsum
    have hhold := h₁.tab.inodes
    have hcons : s1.held + X = ip ::ₘ (fileInodes s1.ftable +
        cwdInodes (update s1.cwd p none) + X) := by
      rw [held, ← hsum, ← singleton_add]
      abel
    rw [hcons] at hhold
    refine wp_bind.2 (wp_bind.2 (wp_get.2 (wp_bind.2 (wp_iputPtr hL hip hhold fun i hi => ?_))))
    rw [inUse, ← inUse_update (v := .zombie) (by rw [hlive1]; rfl)] at hi
    refine wp_modify.2 (wp_modify.2 ⟨⟨h₁.tab.files, h₁.tab.idle, h₁.tab.ptr, hi⟩, fun r => ?_⟩)
    show Holding (update s1.state p .zombie r) (s1.ofile r) (update s1.cwd p none r)
    by_cases hrp : r = p
    · rw [hrp, update_self, update_self]
      exact ⟨by rintro ⟨⟩, fun _ => ⟨fun fd => hdone fd List.not_mem_nil, rfl⟩⟩
    · rw [update_of_ne hrp, update_of_ne hrp]
      exact h₁.procs r

theorem wp_wait (h : Ok Holds s X) (hp : s.state p = .live) (addr : ℕ) (xstate : List UInt8) :
    wp (wait L p addr xstate) (fun _ s' => Ok Holds s' X) E s := by
  rw [wait, wp_bind, wp_get]
  cases hfind : (finRange nProc).find? fun q =>
      decide (s.parent q = some p ∧ s.state q = .zombie) with
  | none => exact wp_pure.2 h
  | some q =>
    have hq := find?_some hfind
    rw [decide_eq_true_eq] at hq
    have hdead : s.state q ≠ .live := by
      rw [hq.2]
      exact fun h => by cases h
    have hlive : s.inUse p = true := by
      rw [inUse, Function.comp_apply, hp]
      rfl
    have huse : s.inUse q = true := by
      rw [inUse, Function.comp_apply, hq.2]
      rfl
    refine wp_bind.2 (wp_liftInodes.2 ((hL.copyStatus addr xstate hlive h.tab.inodes).mono
      fun _ i hi =>
      wp_ite (fun _ => wp_bind.2 (wp_liftInodes.2 ?_)) fun _ => wp_pure.2 (h.setInodes hi)))
    refine (hL.freeProc huse hi).mono fun _ i' hi' => wp_bind.2 (wp_modify.2 (wp_pure.2 ?_))
    rw [inUse, ← PState.inUse_unused, ← Function.comp_update] at hi'
    refine ⟨⟨h.tab.files, h.tab.idle, h.tab.ptr, hi'⟩, fun r => ?_⟩
    show Holding (update s.state q .unused r) (s.ofile r) (s.cwd r)
    by_cases hrq : r = q
    · rw [hrq, update_self]
      exact ⟨by rintro ⟨⟩, fun _ => (h.procs q).dead hdead⟩
    · rw [update_of_ne hrq]
      exact h.procs r

end Calls

/-! ### Runs -/

/-- Some user pointer that is not 0, where `copyout` does not look at it. -/
def anyAddr : ℕ := 1

/-- The calls, with what decides their outcome: what the path led to, the page that `kalloc` finds,
whether there is memory for a child, whether a user pointer is good. -/
inductive FileCall (ι : Type)
  | sysOpen (found : Option (ι × IType × ℤ)) (omode : ℕ)
  | dup (fd : ℤ)
  | pipe (page : Option ℕ) (copied : Bool)
  | close (fd : ℤ)
  | fork (mem : Bool)
  | exit
  | wait (copied : Bool)

section Run

variable [DecidableEq ι]

/-- The inode layer as a count of the references it has given out.  A reference that was not given
out cannot be given back. -/
def counting : Lower ι (Multiset ι) where
  iput ip := do
    let R ← get
    if ip ∈ R then set (R.erase ip) else throw .badInode
  idup ip := do
    let R ← get
    if ip ∈ R then set (ip ::ₘ R) else throw .badInode

/-- A call by process `p`; the path of `open` leads to an inode with a reference of its own. -/
def runCall (p : Fin nProc) : FileCall ι → FilesM ι (Multiset ι) Unit
  | .sysOpen none _ => pure ()
  | .sysOpen (some (ip, type, major)) omode => do
    modify fun s => { s with inodes := ip ::ₘ s.inodes }
    let _ ← openInode counting p ip type major omode
    pure ()
  | .dup fd => do
    let _ ← sysDup p fd
    pure ()
  | .pipe page copied => do
    let _ ← sysPipe (counting.answers page false copied) p anyAddr
    pure ()
  | .close fd => do
    let _ ← sysClose counting p fd
    pure ()
  | .fork mem => do
    let _ ← fork (counting.answers none mem false) p
    pure ()
  | .exit => exit counting p
  | .wait copied => do
    let _ ← wait (counting.answers none false copied) p anyAddr []
    pure ()

omit [DecidableEq ι] in
/-- The calls that complete: `wait` does not go to sleep, and `kalloc` finds no page that a pipe
lives in. -/
def Completes (s : Files ι σ) (p : Fin nProc) : FileCall ι → Prop
  | .wait _ => (∀ q, s.parent q ≠ some p) ∨ ∃ q, s.parent q = some p ∧ s.state q = .zombie
  | .pipe page _ => ∀ pi ∈ page, pi ∉ s.pipes.map Pipe.page
  | _ => True

omit [DecidableEq ι] in
instance (s : Files ι σ) (p : Fin nProc) (c : FileCall ι) : Decidable (s.Completes p c) := by
  cases c <;> unfold Completes <;> infer_instance

/-- A completed call. -/
def step (s : Files ι (Multiset ι)) (a : Fin nProc × FileCall ι) :
    Option (Except FsPanic (Files ι (Multiset ι))) :=
  callStep (s.state a.1 = .live ∧ s.Completes a.1 a.2) (runCall a.1 a.2) (fun _ s' => s') s

omit [DecidableEq ι] in
/-- The state after `userinit`: `init` runs in the directory `root`, and no file is open. -/
def start (root : ι) (below : σ) : Files ι σ where
  ftable _ := ⟨0, .none, false, false, 0, none, 0⟩
  pipes := []
  ofile _ _ := none
  cwd := update (fun _ => none) ⟨0, nProc_pos⟩ (some root)
  state := update (fun _ => .unused) ⟨0, nProc_pos⟩ .live
  parent _ := none
  initproc := ⟨0, nProc_pos⟩
  inodes := below

omit [DecidableEq ι] in
def boot (root : ι) : Files ι (Multiset ι) := start root {root}

theorem counting_sound (E : FsPanic → Prop) (page : Option ℕ) (mem copied : Bool) :
    ((counting : Lower ι (Multiset ι)).answers page mem copied).Sound (fun i R _ _ => i = R) E := by
  refine Lower.answers_sound ?_ ?_ page mem copied
  · rintro i R ip rfl
    refine wp_bind.2 (wp_get.2 ?_)
    rw [if_pos (mem_cons_self ..)]
    exact wp_set.2 (erase_cons_head ..)
  · rintro i R ip hip rfl
    refine wp_bind.2 (wp_get.2 ?_)
    rw [if_pos hip]
    exact wp_set.2 rfl

variable {s s' : Files ι (Multiset ι)}

/-- **Every call keeps the invariant**, and stops only when `init` exits. -/
theorem wp_runCall {p : Fin nProc} {c : FileCall ι} (h : Inv (fun i R => i = R) s 0)
    (hp : s.state p = .live) (hc : s.Completes p c) :
    wp (runCall p c) (fun _ s' => Inv (fun i R => i = R) s' 0)
      (fun e => e = .initExiting ∧ p = s.initproc) s := by
  have hL := counting_sound (ι := ι) fun e => e = .initExiting ∧ p = s.initproc
  cases c with
  | sysOpen found omode =>
    cases found with
    | none => exact wp_pure.2 h
    | some r =>
      obtain ⟨ip, type, major⟩ := r
      have hopen : Inv (fun i R => i = R) { s with inodes := ip ::ₘ s.inodes } (ip ::ₘ 0) := by
        refine h.setInodes ?_
        show ip ::ₘ s.inodes = s.held + ip ::ₘ 0
        rw [h.tab.inodes, add_cons]
      refine wp_bind.2 (wp_modify.2 (wp_bind.2 ?_))
      exact (wp_openInode (hL none false false) hopen hp type major omode).mono fun _ _ h' =>
        wp_pure.2 h'.1
  | dup fd => exact wp_bind.2 ((wp_sysDup h hp fd).mono fun _ _ h' => wp_pure.2 h')
  | pipe page copied =>
    exact wp_bind.2 ((wp_sysPipe (hL page false copied) h hp (wp_pure.2 hc) anyAddr).mono
      fun _ _ h' => wp_pure.2 h')
  | close fd =>
    exact wp_bind.2 ((wp_sysClose (hL none false false) h fd).mono fun _ _ h' => wp_pure.2 h')
  | fork mem => exact wp_bind.2 ((wp_fork (hL none mem false) h hp).mono fun _ _ h' => wp_pure.2 h')
  | exit => exact wp_exit (hL none false false) h hp fun hpi => ⟨rfl, hpi⟩
  | wait copied =>
    exact wp_bind.2 ((wp_wait (hL none false copied) h hp anyAddr []).mono fun _ _ h' =>
      wp_pure.2 h')

theorem Inv.step {a : Fin nProc × FileCall ι} (h : Inv (fun i R => i = R) s 0)
    (hstep : step s a = some (.ok s')) : Inv (fun i R => i = R) s' 0 :=
  wp.callStep_ok (P := fun s => Inv (fun i R => i = R) s 0) (fun ha => wp_runCall h ha.1 ha.2) hstep

theorem Inv.panic {a : Fin nProc × FileCall ι} {e : FsPanic} (h : Inv (fun i R => i = R) s 0)
    (hstep : Files.step s a = some (.error e)) : e = .initExiting ∧ a.1 = s.initproc :=
  wp.callStep_error (E := fun e => e = .initExiting ∧ a.1 = s.initproc)
    (fun ha => wp_runCall h ha.1 ha.2) hstep

section

omit [DecidableEq ι]

theorem start_ok {Holds : Given ι σ} {root : ι} {below : σ}
    (hbelow : Holds below {root} 0 (update (fun _ => false) ⟨0, nProc_pos⟩ true)) :
    Ok Holds (start root below) 0 := by
  have hfiles : fileInodes (start root below).ftable = 0 := by
    unfold fileInodes
    exact Finset.sum_eq_zero fun _ _ => rfl
  have hcwd : cwdInodes (start root below).cwd = {root} := by
    have hnone : cwdInodes (fun _ : Fin nProc => (none : Option ι)) = 0 := by
      unfold cwdInodes
      exact Finset.sum_eq_zero fun _ _ => rfl
    have hsum := cwdInodes_update (fun _ : Fin nProc => (none : Option ι)) ⟨0,
      nProc_pos⟩ (some root)
    rwa [hnone, elim_none, add_zero] at hsum
  refine ⟨⟨fileOk_init, fun _ _ => rfl, fun f hf => ?_, ?_⟩, fun p => ?_⟩
  · rcases hf with hf | hf <;> cases hf
  · rw [held, hfiles, hcwd, inUse]
    show Holds below ({root} + 0) 0 (PState.inUse ∘ update (fun _ => .unused) _ _)
    rw [Function.comp_update]
    exact hbelow
  · by_cases hp : p = ⟨0, nProc_pos⟩
    · rw [hp]
      exact ⟨fun _ => rfl, fun h => absurd rfl h⟩
    · have hstate : (start root below).state p = .unused :=
        update_of_ne hp _ fun _ => PState.unused
      rw [hstate]
      exact ⟨by rintro ⟨⟩, fun _ => ⟨fun _ => rfl, update_of_ne hp _ fun _ => none⟩⟩

theorem boot_inv (root : ι) : Inv (fun i R => i = R) (boot root) 0 := start_ok rfl

/-! ### The references of open files are exact -/

/-- A file with a descriptor. -/
def Opened (s : Files ι σ) (f : Fin nFile) : Prop := ∃ p fd, s.ofile p fd = some f

instance (s : Files ι σ) (f : Fin nFile) : Decidable (s.Opened f) := by
  unfold Opened
  infer_instance

end

/-- **References are exact.**  The count of a file is the number of descriptors that point at it;
the inode layer has given out one reference for every open file that refers to an inode and one for
every current directory; an end of a pipe is open exactly while one open file, and no other, refers
to it; and a free slot of the process table has no descriptors. -/
structure Exact (s : Files ι (Multiset ι)) : Prop where
  refs : ∀ f, (s.ftable f).ref =
    (univ.filter fun d : Fin nProc × Fin nOFile => s.ofile d.1 d.2 = some f).card
  inodes : ∀ ip, s.inodes.count ip =
    (univ.filter fun f => s.Opened f ∧
      ((s.ftable f).type = .inode ∨ (s.ftable f).type = .device) ∧ (s.ftable f).ip = some ip).card +
    (univ.filter fun p => s.cwd p = some ip).card
  ends : ∀ f, s.Opened f → (s.ftable f).type = .pipe →
    ∃ q ∈ s.pipes, q.page = (s.ftable f).pipe ∧ q.isOpen (s.ftable f).writable = true
  pipes : ∀ q ∈ s.pipes, ∀ w, q.isOpen w = true →
    ∃! f, s.Opened f ∧ (s.ftable f).type = .pipe ∧ (s.ftable f).pipe = q.page ∧
      (s.ftable f).writable = w
  freed : ∀ q ∈ s.pipes, ∃ w, q.isOpen w = true
  unused : ∀ p, s.state p = .unused → ∀ fd, s.ofile p fd = none

theorem count_fdRefs (o : Fin nProc → Fin nOFile → Option (Fin nFile)) (f : Fin nFile) :
    (fdRefs o).count f =
      (univ.filter fun d : Fin nProc × Fin nOFile => o d.1 d.2 = some f).card := by
  have hone : ∀ v : Option (Fin nFile), (v.elim 0 fun f => ({f} : Multiset (Fin nFile))).count f =
      if v = some f then 1 else 0 := by
    intro v
    cases v with
    | none => rfl
    | some f' =>
      rw [elim_some, count_singleton]
      exact if_congr ⟨fun h => h ▸ rfl, fun h => (some_inj.1 h).symm⟩ rfl rfl
  unfold fdRefs
  rw [count_sum', card_filter, Fintype.sum_prod_type]
  refine sum_congr rfl fun p _ => ?_
  rw [count_sum']
  exact sum_congr rfl fun fd _ => hone (o p fd)

theorem count_cwdInodes (cwd : Fin nProc → Option ι) (ip : ι) :
    (cwdInodes cwd).count ip = (univ.filter fun p => cwd p = some ip).card := by
  unfold cwdInodes
  rw [count_sum', card_filter]
  refine sum_congr rfl fun p _ => ?_
  cases cwd p with
  | none => rfl
  | some i =>
    rw [elim_some, count_singleton]
    exact if_congr ⟨fun h => h ▸ rfl, fun h => (some_inj.1 h).symm⟩ rfl rfl

theorem count_fileInodes (ft : Fin nFile → OpenFile ι) (ip : ι) :
    (fileInodes ft).count ip = (univ.filter fun f =>
      ((ft f).type = .inode ∨ (ft f).type = .device) ∧ (ft f).ip = some ip).card := by
  unfold fileInodes
  rw [count_sum', card_filter]
  refine sum_congr rfl fun f _ => ?_
  rw [OpenFile.inodeRef]
  by_cases htype : (ft f).type = .inode ∨ (ft f).type = .device
  · rw [if_pos htype]
    cases hip : (ft f).ip with
    | none => rw [if_neg fun h => by cases h.2]; rfl
    | some i =>
      rw [elim_some, count_singleton]
      exact if_congr ⟨fun h => ⟨htype, h ▸ rfl⟩, fun h => (some_inj.1 h.2).symm⟩ rfl rfl
  · rw [if_neg htype, if_neg fun h => htype h.1, count_zero]

omit [DecidableEq ι] in
theorem Inv.opened_iff {Holds : σ → Multiset ι → Prop} {s : Files ι σ} {X : Multiset ι}
    (h : Inv Holds s X) (f : Fin nFile) : s.Opened f ↔ (s.ftable f).ref ≠ 0 := by
  have href : (s.ftable f).ref = (fdRefs s.ofile).count f := h.tab.files.refs f
  rw [href]
  constructor
  · rintro ⟨p, fd, hf⟩
    exact count_ne_zero.2 (mem_fdRefs hf)
  · intro h0
    rw [count_fdRefs, Finset.card_ne_zero, Finset.filter_nonempty_iff] at h0
    obtain ⟨⟨p, fd⟩, -, hf⟩ := h0
    exact ⟨p, fd, hf⟩

omit [DecidableEq ι] in
theorem Inv.opened {Holds : σ → Multiset ι → Prop} {s : Files ι σ} {X : Multiset ι}
    (h : Inv Holds s X) {f : Fin nFile} (hf : (s.ftable f).type ≠ .none) : s.Opened f :=
  (h.opened_iff f).2 fun h0 => hf (h.tab.idle f h0)

theorem Inv.exact (h : Inv (fun i R => i = R) s 0) : Exact s where
  refs f := (h.tab.files.refs f).trans (count_fdRefs s.ofile f)
  inodes ip := by
    have hinodes : s.inodes = s.held + 0 := h.tab.inodes
    rw [hinodes, add_zero, held, count_add, count_fileInodes, count_cwdInodes]
    refine congrArg (· + _) (congrArg Finset.card (Finset.filter_congr fun f _ => ?_))
    refine ⟨fun hf => ⟨h.opened ?_, hf⟩, fun hf => hf.2⟩
    rcases hf.1 with ht | ht <;> rw [ht] <;> exact fun h => by cases h
  ends f _ hf := h.tab.files.ends f hf
  pipes q hq w ho := by
    obtain ⟨f, ht, hpage, hw⟩ := h.tab.files.held q hq w ho
    have hopen : s.Opened f := h.opened <| by
      rw [show (s.ftable f).type = .pipe from ht]
      exact fun h => by cases h
    refine ⟨f, ⟨hopen, ht, hpage, hw⟩, ?_⟩
    rintro f' ⟨-, ht', hpage', hw'⟩
    exact h.tab.files.uniq f' f ht' ht (hpage'.trans hpage.symm) (hw'.trans hw.symm)
  freed := h.tab.files.live
  unused p hp := ((h.procs p).dead (by rw [hp]; exact fun h => by cases h)).1

/-- **The references of open files are exact** in every state that completed calls reach from the
start, and no call stops except the exit of `init`: `filedup` and `fileclose` find every file they
are called on in use, and nothing is released that is not held. -/
theorem open_files (root : ι) {s : Files ι (Multiset ι)}
    (h : Runs.Reach Files.step (fun _ _ => True) (boot root) s) :
    Exact s ∧ ∀ a e, Files.step s a = some (.error e) → e = .initExiting ∧ a.1 = s.initproc := by
  have hinv : Inv (fun i R => i = R) s 0 :=
    h.invariant (I := fun s => Inv (fun i R => i = R) s 0) (boot_inv root)
      fun _ _ _ hs _ hstep => hs.step hstep
  exact ⟨hinv.exact, fun a e hstep => hinv.panic hstep⟩

/-- After `init` has opened a file, duplicated the descriptor, made a pipe and a child, and the
child has exited and was waited for, the file has two descriptors again and the pipe one for each
end. -/
theorem open_files_fork :
    ∃ s : Files ℕ (Multiset ℕ), ((s.ftable (0 : Fin 100)).ref = 2 ∧
      (s.ftable (1 : Fin 100)).ref = 1 ∧ s.inodes = {1, 7}) ∧ Exact s ∧
        ∀ a e, Files.step s a = some (.error e) → e = .initExiting ∧ a.1 = s.initproc := by
  have hrun : ∃ s, Runs.Reach Files.step (fun _ _ => True) (boot 1) s ∧
      ((s.ftable (0 : Fin 100)).ref = 2 ∧ (s.ftable (1 : Fin 100)).ref = 1 ∧ s.inodes = {1, 7}) :=
    Runs.exists_reach_of_exec
      [((0 : Fin 64), .sysOpen (some (7, .file, 0)) 2), ((0 : Fin 64), .dup 0),
        ((0 : Fin 64), .pipe (some 40) true), ((0 : Fin 64), .fork true), ((1 : Fin 64), .exit),
        ((0 : Fin 64), .wait true)] (by decide +kernel)
  obtain ⟨s, hreach, hs⟩ := hrun
  exact ⟨s, hs, open_files 1 hreach⟩

end Run

end Files

end CsklubOs
