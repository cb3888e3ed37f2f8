/-
**`exec` on the file system, and how it fails.**

`exec` of `kernel/exec.c` with everything that it touches: the process, the free pages, the inode
with its lock and reference, and the transaction.  The file is what `readi` finds behind the inode
that `namei` returned, whatever that is.  The loading of the program and the stack are those of
`Exec`; they run on the state that contains memory, and at each `goto bad` something else is to be
given back.

Main definitions:

* `ExecSys` — what `exec` works on;
* `ExecSys.exec`, `ExecSys.sysExec` — the code;
* `ExecSys.Outcome` — what a call leaves.

Main results:

* `ExecSys.wp_sysExec` — the argument pages are given back as well;
* `ExecSys.exec_returns` — `exec` returns, and a call that fails leaves nothing behind.
-/

import CsklubOs.Exec
import CsklubOs.FailedCalls

set_option autoImplicit false

namespace CsklubOs

open Wp Multiset

/-! ### The state -/

/-- The registers in the trapframe that `exec` sets. -/
structure Trapframe where
  a1 : ℕ
  epc : ℕ
  sp : ℕ

/-- The process that calls `exec`; `tf` is the page of its trapframe. -/
structure ExecProc where
  pagetable : PageTable
  sz : ℕ
  tf : ℕ
  trapframe : Trapframe
  name : List UInt8
  ofile : Fin nOFile → Option (Fin nFile)
  cwd : IPtr

/-- What `exec` works on: the process, the free pages, the file system, the sleep-locks of inodes
that the process holds, and how many transactions it has begun and ended. -/
structure ExecSys where
  proc : ExecProc
  mem : Kmem
  fs : Fs
  locks : List IPtr
  begun : ℕ
  ended : ℕ

namespace ExecSys

/-- The panics, and waiting for a lock that the process itself holds. -/
inductive ExecPanic
  | vm (e : VmPanic)
  | fs (e : FsPanic)
  | iunlock
  | deadlock

abbrev ExecM := StateT ExecSys (Except ExecPanic)

/-- The state with other free pages. -/
def withMem (s : ExecSys) (km : Kmem) : ExecSys := { s with mem := km }

/-- Where memory is. -/
def view : MemView ExecSys ExecPanic := ⟨.vm, ExecSys.mem, fun km s => s.withMem km⟩

/-- Code of the file system. -/
def liftFs {α : Type} (m : FsM α) :
    ExecM α := embed .fs ExecSys.fs (fun i s => { s with fs := i }) m

/-! ### The code -/

def beginOp : ExecM Unit := modify fun s => { s with begun := s.begun + 1 }

def endOp : ExecM Unit := modify fun s => { s with ended := s.ended + 1 }

def ilock (ip : IPtr) : ExecM Unit := do
  let s ← get
  if ip ∈ s.locks then throw .deadlock
  else do
    set { s with locks := ip :: s.locks }
    liftFs (Fs.ilock ip)

def iunlock (ip : IPtr) : ExecM Unit := do
  let s ← get
  if ip ∉ s.locks ∨ (s.fs.itable ip).ref < 1 then throw .iunlock
  else set { s with locks := s.locks.erase ip }

/-- `for(last=s=path; *s; s++) if(*s == '/') last = s+1;` -/
def scanLast : List UInt8 → List UInt8 → List UInt8
  | last, [] => last
  | last, c :: s => if c = 0 then last else scanLast (if c = slash then s else last) s

/-- `safestrcpy` into the name of a process, which has room for 15 bytes and the null. -/
def procName (path : List UInt8) :
    List UInt8 := ((scanLast path path).takeWhile fun c => c ≠ 0).take 15

section Code

variable [KernelImage]

/-- Committing to the new image. -/
def commit (path : List UInt8) (entry argc sp : ℕ) (pt : PageTable) (sz : ℕ) :
    ExecM (Option ℕ) := do
  let s ← get
  set { s with proc := { s.proc with
    trapframe := ⟨sp, entry, sp⟩, name := procName path, pagetable := pt, sz := sz } }
  view.vm (procFreepagetable s.proc.pagetable s.proc.sz)
  pure (some argc)

variable [Superblock]

/-- `iunlockput(ip); end_op();` -/
def closeFile (ip : IPtr) : ExecM Unit := do
  iunlock ip
  liftFs (Fs.iput ip)
  endOp

/-- The file of an inode. -/
def ofInode (ip : IPtr) : ExecEnv ExecSys ExecPanic :=
  { view with
    readi := fun off n => do
      let r ← liftFs (Fs.readi ip off n n)
      pure (r.getD []) }

/-- `exec` after the loading of the program; the inode is locked. -/
def execImage (path : List UInt8) (argv : ArgVec) (ip : IPtr) : Loaded → ExecM (Option ℕ)
  | .bad image => do
    view.vm (freeImage image)
    closeFile ip
    pure none
  | .image pt sz entry => do
    closeFile ip
    match ← view.vm (execStack argv.bytes pt (pgRoundUp sz)) with
    | none => pure none
    | some (pt, sz, argc, sp) => commit path entry argc sp pt sz

/-- **`exec`**: the number of arguments, or `none` for `-1`. -/
def exec (path : List UInt8) (argv : ArgVec) : ExecM (Option ℕ) := do
  beginOp
  let s ← get
  match ← liftFs (Fs.namei s.proc.cwd path) with
  | none => do
    endOp
    pure none
  | some ip => do
    ilock ip
    let loaded ← (ofInode ip).load s.proc.tf
    execImage path argv ip loaded

/-- `sys_exec`, for a path that could be fetched or not and what is found in user memory at
`uargv`. -/
def sysExec (path : Option (List UInt8)) (uargv : ℕ → ArgFetch) : ExecM (Option ℕ) :=
  match path with
  | none => pure none
  | some path => view.withArgs uargv (exec path)

end Code

end ExecSys

/-! ### The references of path lookup -/

theorem Fs.wp_namei_refs [Superblock] {s : Fs} {R : Multiset IPtr} {cwd : IPtr} {path : List UInt8}
    {E : FsPanic → Prop} (hE : ∀ e, E e) (hs : Sound s R) (hc : cwd ∈ R) :
    wp (namei cwd path) (fun r s' => FsOk s' (r.elim R fun ip => ip ::ₘ R)) E s := by
  rw [namei, wp_bind]
  refine wp_namex_standing hs.dir (hs.steady.walkable fun _ => hE _) hc
    ⟨.inl ⟨cwd, hc, rfl⟩, fun _ => hE _⟩ (fun _ => hE _) (fun s1 h1 _ _ _ => ?_)
    fun ip name s1 hwalk _ _ _ => ?_
  · exact wp_pure.2 h1.fs
  · exact wp_pure.2 hwalk.dir.fs

namespace ExecSys

/-! ### The parts that change one component -/

variable {R : Multiset IPtr} {s s0 : ExecSys} {ip : IPtr} {tf : ℕ} {T : Multiset ℕ}
  {E : ExecPanic → Prop}

theorem wp_vm {α : Type} {m : VmM α} {P : α → Kmem → Prop} {Q : α → ExecSys → Prop}
    (h : wp m P noPanic s.mem) (hQ : ∀ a km, P a km → Q a (s.withMem km)) : wp (view.vm m) Q E s :=
  wp_embed.2 (wp_mono h hQ fun _ he => he.elim)

theorem wp_liftFs {α : Type} {m : FsM α} {Q : α → ExecSys → Prop}
    (h : wp m (fun a i => Q a { s with fs := i }) (fun e => E (.fs e)) s.fs) :
    wp (liftFs m) Q E s :=
  wp_embed.2 h

section Spec

variable [Superblock]

/-- The file is open: it is locked and referred to, in a transaction. -/
structure Opened (R : Multiset IPtr) (ip : IPtr) (s0 s : ExecSys) : Prop where
  fs : Fs.FsOk s.fs (ip ::ₘ R)
  valid : (s.fs.itable ip).valid = true
  locks : s.locks = [ip]
  proc : s.proc = s0.proc
  begun : s.begun = s0.begun + 1
  ended : s.ended = s0.ended

/-- Lock, reference and transaction are given back. -/
structure Closed (R : Multiset IPtr) (s0 s : ExecSys) : Prop where
  fs : Fs.FsOk s.fs R
  locks : s.locks = []
  begun : s.begun = s0.begun + 1
  ended : s.ended = s0.ended + 1

theorem Opened.withMem (h : Opened R ip s0 s) (km : Kmem) : Opened R ip s0 (s.withMem km) :=
  ⟨h.fs, h.valid, h.locks, h.proc, h.begun, h.ended⟩

theorem Closed.withMem (h : Closed R s0 s) (km : Kmem) : Closed R s0 (s.withMem km) :=
  ⟨h.fs, h.locks, h.begun, h.ended⟩

/-- Reading the file changes nothing, and what is read may be anything. -/
theorem keeps_ofInode (R : Multiset IPtr) (ip : IPtr) (s0 : ExecSys) (E : ExecPanic → Prop) :
    (ofInode ip).Keeps E (Opened R ip s0) where
  mem_setMem _ _ := rfl
  setMem km _ h := Opened.withMem h km
  readi _ _ _ _ h hQ :=
    wp_bind.2 (wp_liftFs (Fs.wp_readi h.fs (mem_cons_self ip R) h.valid (wp_pure.2 (hQ _))))

theorem Opened.wp_closeFile [KernelImage] {Q : Unit → ExecSys → Prop} (h : Opened R ip s0 s)
    (hQ : ∀ s', Closed R s0 s' → s'.proc = s0.proc → s'.mem = s.mem → Q () s') :
    wp (closeFile ip) Q E s := by
  have href : 0 < (s.fs.itable ip).ref := h.fs.ref_pos (mem_cons_self ip R)
  have hclosed : ∀ i, Fs.FsOk i R →
      Closed R s0 { s with locks := s.locks.erase ip, fs := i, ended := s.ended + 1 } := by
    refine fun i hi => ⟨hi, ?_, h.begun, ?_⟩
    · rw [h.locks]
      exact List.erase_cons_head ..
    · rw [h.ended]
  rw [closeFile, wp_bind, iunlock, wp_bind, wp_get]
  refine wp_ite (fun hbad => ?_) fun _ => wp_set.2 (wp_bind.2 (wp_liftFs ?_))
  · rcases hbad with hbad | hbad
    · rw [h.locks] at hbad
      exact absurd (List.mem_singleton_self ip) hbad
    · omega
  · refine Fs.wp_iput h.fs (fun _ i hi _ _ => ?_) fun _ i hi _ _ _ => ?_
    · exact wp_modify.2 (hQ _ (hclosed i hi) h.proc rfl)
    · exact wp_modify.2 (hQ _ (hclosed i hi) h.proc rfl)

end Spec

section Vm

variable [KernelImage]

variable {pt : PageTable} {sz : ℕ} {g0 : Option ℕ} {path : List UInt8} {argv : ArgVec}

variable [Superblock]

/-! ### The exits -/

/-- What `exec` leaves: everything that it held is given back; when it fails the process and the
free pages are as before, and when it succeeds the process has a new image for its old one. -/
structure Outcome (R : Multiset IPtr) (s0 : ExecSys) (r : Option ℕ) (s : ExecSys) : Prop where
  closed : Closed R s0 s
  ofile : s.proc.ofile = s0.proc.ofile
  cwd : s.proc.cwd = s0.proc.cwd
  failed : r = none → s.proc = s0.proc ∧ s.mem.free = s0.mem.free
  image : r ≠ none → s.mem.free + ptPages s.proc.pagetable = s0.mem.free +
    ptPages s0.proc.pagetable ∧ ∃ g, Space (leaf s.proc.pagetable) (npages s.proc.sz) s0.proc.tf g

theorem Closed.outcome_none (h : Closed R s0 s) (hproc : s.proc = s0.proc)
    (hfree : s.mem.free = s0.mem.free) : Outcome R s0 none s :=
  ⟨h, by rw [hproc], by rw [hproc], fun _ => ⟨hproc, hfree⟩, fun hne => absurd rfl hne⟩

theorem Closed.wp_commit {entry argc sp : ℕ} {g : Option ℕ} (h : Closed R s0 s)
    (hproc : s.proc = s0.proc)
    (hold : Space (leaf s0.proc.pagetable) (npages s0.proc.sz) s0.proc.tf g0)
    (hT : s.mem.free + ptPages pt = s0.mem.free) (hsp : Space (leaf pt) (npages sz) s0.proc.tf g)
    (hfit : Fits (s0.mem.free + ptPages s0.proc.pagetable)) :
    wp (commit path entry argc sp pt sz) (Outcome R s0) E s := by
  have hfit' : Fits (s.mem.free + ptPages s.proc.pagetable) := by
    refine hfit.mono ?_
    rw [← hT, hproc, add_right_comm]
    exact Multiset.le_add_right ..
  rw [← hproc] at hold
  rw [commit, wp_bind, wp_get, wp_bind, wp_set, wp_bind]
  refine wp_vm (wp_procFreepagetable hold hfit') fun _ km hkm => wp_pure.2 ?_
  refine ⟨⟨h.fs, h.locks, h.begun, h.ended⟩, ?_, ?_, (nofun), fun _ => ⟨?_, g, hsp⟩⟩
  · exact (congrArg ExecProc.ofile hproc :)
  · exact (congrArg ExecProc.cwd hproc :)
  · show km.free + ptPages pt = _
    rw [hkm.free, ← hT, hproc]
    abel

/-! ### The whole call -/

theorem wp_execImage {r : Loaded} (h : Opened R ip s0 s) (hr : r.Holds s0.mem.free s0.proc.tf s.mem)
    (hold : Space (leaf s0.proc.pagetable) (npages s0.proc.sz) s0.proc.tf g0)
    (hfit : Fits (s0.mem.free + ptPages s0.proc.pagetable)) :
    wp (execImage path argv ip r) (Outcome R s0) E s := by
  have hfree : Fits s0.mem.free := hfit.mono (Multiset.le_add_right ..)
  cases r with
  | bad image =>
    refine wp_bind.2 (wp_vm (wp_freeImage hr hfree) fun _ km hkm => wp_bind.2 ?_)
    refine (h.withMem km).wp_closeFile fun s' hc hproc hmem => wp_pure.2 (hc.outcome_none hproc ?_)
    rw [hmem]
    exact hkm
  | image pt sz entry =>
    obtain ⟨hT, hsp⟩ := hr
    refine wp_bind.2 (h.wp_closeFile fun s1 hc hproc hmem => wp_bind.2 ?_)
    rw [← hmem] at hT
    rw [pgRoundUp_eq hsp.bound]
    refine wp_vm (wp_execStack argv.length_bytes argv.short hsp hT hfree) ?_
    rintro r km (⟨rfl, hkm⟩ | ⟨pt', sp, rfl, hT', hsp', -⟩)
    · exact wp_pure.2 ((hc.withMem km).outcome_none hproc hkm)
    · rw [← npages_mul (npages sz + (userStack + 1))] at hsp'
      exact (hc.withMem km).wp_commit hproc hold hT' hsp' hfit

/-- A process that may call `exec`: it holds no lock, its image is an address space with pages of
its own, and the file system is in order. -/
structure Ready (R : Multiset IPtr) (s : ExecSys) : Prop where
  fs : Fs.Sound s.fs R
  cwd : s.proc.cwd ∈ R
  locks : s.locks = []
  space : ∃ g, Space (leaf s.proc.pagetable) (npages s.proc.sz) s.proc.tf g
  fits : Fits (s.mem.free + ptPages s.proc.pagetable)

theorem Ready.withMem {km : Kmem} (h : Ready R s) (hle : km.free ≤ s.mem.free) :
    Ready R (s.withMem km) :=
  ⟨h.fs, h.cwd, h.locks, h.space, h.fits.mono (Multiset.add_le_add_right hle)⟩

/-- The path was resolved, to a file if there is one. -/
def Resolved (s : ExecSys) (path : List UInt8) : Prop :=
  ∃ r fs1, Fs.namei s.proc.cwd path s.fs = .ok (r, fs1) ∧
    ∀ ip ∈ r, Fs.Allocated fs1.dinode (fs1.itable ip).inum

theorem wp_exec (h : Ready R s) (hres : Resolved s path) :
    wp (exec path argv) (Outcome R s) E s := by
  obtain ⟨r, fs1, hres, hfile⟩ := hres
  obtain ⟨g, hold⟩ := h.space
  have hrefs : Fs.FsOk fs1 (r.elim R fun ip => ip ::ₘ R) :=
    (Fs.wp_namei_refs (fun _ => trivial) h.fs h.cwd :
      wp (Fs.namei s.proc.cwd path) _ (fun _ => True) s.fs).of_ok hres
  rw [exec, wp_bind, beginOp, wp_modify, wp_bind, wp_get, wp_bind]
  refine wp_liftFs ((wp_of_ok hres).2 ?_)
  cases r with
  | none =>
    refine wp_bind.2 (wp_modify.2 (wp_pure.2 (Closed.outcome_none ⟨hrefs, h.locks, rfl,
      rfl⟩ rfl rfl)))
  | some ip =>
    refine wp_bind.2 ?_
    rw [ilock, wp_bind, wp_get]
    refine wp_ite (fun hmem => ?_) fun _ => wp_bind.2 (wp_set.2 (wp_liftFs ?_))
    · rw [h.locks] at hmem
      cases hmem
    · refine Fs.wp_ilock hrefs (mem_cons_self ip R) (fun _ hfree => ?_)
        fun i hi _ _ hv _ => ?_
      · exact absurd hfree (hfile ip rfl).2
      · have ho : Opened R ip s { s with locks := ip :: s.locks, fs := i, begun := s.begun + 1 } :=
          ⟨hi, hv, by rw [h.locks], rfl, rfl, rfl⟩
        have hfree : Fits s.mem.free := h.fits.mono (Multiset.le_add_right ..)
        refine wp_bind.2 ((ExecEnv.wp_load (keeps_ofInode R ip s E) ho hfree).mono ?_)
        exact fun r s2 h2 => wp_execImage h2.1 h2.2 hold h.fits

theorem wp_sysExec {path : Option (List UInt8)} {uargv : ℕ → ArgFetch} (h : Ready R s)
    (hres : ∀ p ∈ path, Resolved s p) :
    wp (sysExec path uargv) (fun r s' => Fs.FsOk s'.fs R ∧ s'.locks = [] ∧
      s'.ended + s.begun = s'.begun + s.ended ∧
      (r = none → s'.proc = s.proc ∧ s'.mem.free = s.mem.free)) E s := by
  cases path with
  | none => exact wp_pure.2 ⟨h.fs.dir.fs, h.locks, Nat.add_comm .., fun _ => ⟨rfl, rfl⟩⟩
  | some path =>
    have hv : view.Keeps fun t => ∃ km, t = s.withMem km :=
      ⟨fun _ _ => rfl, fun km _ ht => ht.elim fun _ ht => ⟨km, ht ▸ rfl⟩⟩
    refine MemView.wp_withArgs hv ⟨s.mem, rfl⟩ (fun p hp => h.fits.usable p (mem_add.2 (.inl hp)))
      ?_ ?_
    · rintro _ ⟨km, rfl⟩ hfree
      exact ⟨h.fs.dir.fs, h.locks, Nat.add_comm .., fun _ => ⟨rfl, hfree⟩⟩
    · rintro argv A _ ⟨km, rfl⟩ (hA : km.free + A = s.mem.free)
      have hready := h.withMem (hA ▸ Multiset.le_add_right .. : km.free ≤ s.mem.free)
      refine (wp_exec hready (hres path rfl)).mono fun r s2 ho km3 hkm3 => ?_
      refine ⟨ho.closed.fs, ho.closed.locks, ?_, fun hr => ⟨(ho.failed hr).1, ?_⟩⟩
      · have hb : s2.begun = s.begun + 1 := ho.closed.begun
        have he : s2.ended = s.ended + 1 := ho.closed.ended
        show s2.ended + s.begun = s2.begun + s.ended
        omega
      · show km3.free = s.mem.free
        rw [hkm3, ← hA]
        exact congrArg (· + A) (ho.failed hr).2

/-- **`exec` returns, whatever is in the file, and a call that fails leaves nothing behind.** -/
theorem exec_returns {path : List UInt8} (argv : ArgVec) (h : Ready R s) (hres : Resolved s path) :
    ∃ r s', exec path argv s = .ok (r, s') ∧
      s'.locks = s.locks ∧ (∀ q, (s'.fs.itable q).ref = (s.fs.itable q).ref) ∧
      s'.begun = s.begun + 1 ∧ s'.ended = s.ended + 1 ∧
      (r = none → s'.proc = s.proc ∧ s'.mem.free = s.mem.free) := by
  obtain ⟨r, s', heq, ho⟩ := (wp_exec h hres : wp (exec path argv) _ (fun _ => False) s).exists_ok
  refine ⟨r, s', heq, ho.closed.locks.trans h.locks.symm, fun q => ?_, ho.closed.begun,
    ho.closed.ended, ho.failed⟩
  rw [ho.closed.fs.refs, h.fs.dir.fs.refs]

end Vm

/-- The first process with an empty image. -/
def firstProc (pt : PageTable) (km : Kmem) (fs : Fs) : ExecSys where
  proc := ⟨pt, 0, 30, ⟨0, 0, 0⟩, [], fun _ => none, ⟨0, nInode_pos⟩⟩
  mem := km
  fs := fs
  locks := []
  begun := 0
  ended := 0

/-- A `struct proghdr` for a segment at address 0. -/
def progHdrBytes (filesz memsz : ℕ) : List UInt8 :=
  ByteSeq.leBytes 4 elfProgLoad ++ List.replicate 28 0 ++ ByteSeq.leBytes 8 filesz ++
    ByteSeq.leBytes 8 memsz ++ List.replicate 8 0

/-- A program of two segments, the second of which is larger in the file than in memory. -/
def badSegment : List UInt8 :=
  ByteSeq.leBytes 4 elfMagic ++ List.replicate 28 0 ++ ByteSeq.leBytes 8 elfHdrSize ++
    List.replicate 16 0 ++ ByteSeq.leBytes 8 2 ++ progHdrBytes 100 pgSize ++ progHdrBytes 1 0

/-- The memory of the first process, when twenty pages are free. -/
def emptySpace [KernelImage] : Option (PageTable × Kmem) :=
  (procPagetable 30 ⟨List.range' 1 20, 20, fun _ => 0⟩).toOption.bind fun x =>
    x.1.map fun pt => (pt, x.2)

theorem exists_emptySpace [KernelImage] (h : ∀ x ∈ List.range' 1 20, Usable x) :
    ∃ pt km, emptySpace = some (pt, km) ∧ Space (leaf pt) (npages 0) 30 none ∧
      Fits (km.free + ptPages pt) := by
  have hfit : Fits (Kmem.free ⟨List.range' 1 20, 20, fun _ => 0⟩) := ⟨h, by decide⟩
  obtain ⟨_, km, hrun, ⟨-, -, hstock⟩ | ⟨pt, rfl, hT, hsp, -⟩⟩ :=
    (wp_procPagetable hfit : wp (procPagetable 30) _ noPanic _).exists_ok
  · exact absurd hstock (by decide)
  · refine ⟨pt, km, by rw [emptySpace, hrun]; rfl, ?_, hT ▸ hfit⟩
    rwa [show npages 0 = 0 by decide]

/-- The first segment has been loaded when the second is refused. -/
theorem exec_returns_segment : ∃ (_ : KernelImage) (_ : Superblock) (s s' : ExecSys),
    exec [slash, 97] ⟨[], by decide⟩ s = .ok (none, s') ∧ s'.mem.freelist ≠ s.mem.freelist ∧
      s'.locks = [] ∧ s'.ended = 1 ∧ s'.proc = s.proc ∧ s'.mem.free = s.mem.free := by
  let K : KernelImage := ⟨1, 0⟩
  let S : Superblock := FileSys.threeInodes
  have hrun : ∃ s, Runs.Reach InodeSys.step (fun _ _ => True) FileSys.formatted s ∧ FileSys.Tidy s ∧
      (Fs.namei ⟨0, nInode_pos⟩ [slash, 97] s.fs).toOption.any (fun x => x.1.all fun ip =>
        decide ((x.2.itable ip).inum < Superblock.ninodes) &&
          decide ((x.2.dinode (x.2.itable ip).inum).type ≠ .free)) = true ∧
      emptySpace.any (fun x => (exec [slash, 97] ⟨[],
        by decide⟩ (firstProc x.1 x.2 s.fs)).toOption.any fun r =>
        r.1.isNone && decide (r.2.mem.freelist ≠ x.2.freelist)) = true :=
    Runs.exists_reach_of_exec [.create .dir 0 0, .create .file 0 0,
      .writei (0 : Fin 50) (2 :: 0 :: 97 :: List.replicate 13 0) 0 16,
      .writei (1 : Fin 50) badSegment 0 badSegment.length, .iput (1 : Fin 50)] (by decide +kernel)
  obtain ⟨i, hreach, htidy, hnamei, hexec⟩ := hrun
  obtain ⟨⟨r, fs1⟩, hres, hall⟩ := exists_ok_of_any hnamei
  obtain ⟨pt, km, hspace, hsp, hfit⟩ := exists_emptySpace (by decide)
  rw [hspace] at hexec
  obtain ⟨⟨r', s'⟩, heq, hr'⟩ := exists_ok_of_any hexec
  have hready : Ready {⟨0, by decide⟩} (firstProc pt km i.fs) :=
    ⟨htidy.sound hreach, mem_singleton_self _, rfl, ⟨none, hsp⟩, hfit⟩
  have hresolved : Resolved (firstProc pt km i.fs) [slash, 97] := by
    refine ⟨r, fs1, hres, fun ip hip => ?_⟩
    obtain rfl : r = some ip := hip
    simpa [Fs.Allocated] using hall
  obtain ⟨r1, s1, heq1, hlocks, -, -, hended, hfailed⟩ :=
    exec_returns ⟨[], by decide⟩ hready hresolved
  obtain ⟨rfl, rfl⟩ : r1 = r' ∧ s1 = s' := by
    rw [heq] at heq1
    cases heq1
    exact ⟨rfl, rfl⟩
  rw [Bool.and_eq_true, Option.isNone_iff_eq_none, decide_eq_true_eq] at hr'
  obtain rfl : r1 = none := hr'.1
  exact ⟨K, S, _, s1, heq1, hr'.2, hlocks, hended, hfailed rfl⟩

end ExecSys

end CsklubOs
