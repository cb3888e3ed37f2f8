/-
**Physical pages and address spaces of the whole system.**

The memory of the machine below the file layer: the free list and what every entry of the process
table has of memory.  The system calls that move pages between the free list, processes and pipes
are `fork`, `exec`, `sbrk`, `pipe`, `close`, `exit` and `wait`, called by any processes in any
order, with allocations that may fail at any point.

Main definitions:

* `Mem`, `memory` — the memory, and what the file layer calls of it;
* `MemSys`, `MemSys.step` — the system, and a completed call;
* `Mem.Holds` — every page is in one place, and processes that are in use have a whole address
  space.

Main results:

* `memory_sound` — the memory is sound below the file layer;
* `MemSys.page_conservation` — no page is lost or used twice;
* `MemSys.address_spaces` — what is mapped in every process, and that no call reaches a panic.
-/

import CsklubOs.OpenFile
import CsklubOs.ProcMem

set_option autoImplicit false

namespace CsklubOs

open Function List Multiset
open Wp

/-! ### The memory of the machine -/

/-- The free list, and the entries of the process table. -/
structure Mem where
  kmem : Kmem
  proc : Fin nProc → UProc

/-- Code that changes the memory. -/
abbrev MemM := StateT Mem (Except FsPanic)

def liftVm {α : Type} (m : VmM α) : MemM α :=
  embed FsPanic.vm Mem.kmem (fun km s => { s with kmem := km }) m

def setProc (p : Fin nProc) (u : UProc) : MemM Unit :=
  modify fun s => { s with proc := update s.proc p u }

theorem wp_liftVm {α : Type} {s : Mem} {E : FsPanic → Prop} {m : VmM α} {Q : α → Mem → Prop}
    {R : α → Kmem → Prop} (hm : wp m R noPanic s.kmem)
    (hQ : ∀ a km, R a km → Q a { s with kmem := km }) : wp (liftVm m) Q E s :=
  wp_embed.2 (wp_mono hm hQ fun _ he => he.elim)

variable [KernelImage]

/-- `allocproc` for slot `q`, and the copy that `fork` makes of the memory of `p`. -/
def copyProc (p q : Fin nProc) : MemM Bool := do
  let s ← get
  let (np, allocated) ← liftVm (allocproc (s.proc q))
  if allocated then do
    let (np, copied) ← liftVm (forkMem (s.proc p) np)
    setProc q np
    pure copied
  else do
    setProc q np
    pure false

def freeProc (q : Fin nProc) : MemM Unit := do
  let s ← get
  let u ← liftVm (freeproc (s.proc q))
  setProc q u

/-- `copyout` to the memory of process `p`. -/
def copyoutProc (p : Fin nProc) (addr : ℕ) (src : List UInt8) : MemM Bool := do
  let s ← get
  match (s.proc p).pagetable with
  | none => throw (.vm .nullPage)
  | some pt => liftVm (copyout pt addr src)

/-- **The memory below the file layer**; inodes are not kept count of. -/
def memory : Lower Unit Mem where
  iput _ := pure ()
  idup _ := pure ()
  kalloc := liftVm kalloc
  kfree pg := liftVm (kfree pg)
  copyProc := copyProc
  freeProc := freeProc
  copyout := copyoutProc

/-- `sys_sbrk`. -/
def sysSbrk (p : Fin nProc) (n : ℤ) : MemM Bool := do
  let s ← get
  let (u, grown) ← liftVm (growproc (s.proc p) n)
  setProc p u
  pure grown

/-- `sys_exec`. -/
def sysExecProc (p : Fin nProc) (a : ExecArg) : MemM Bool := do
  let s ← get
  let (u, executed) ← liftVm (execProc (s.proc p) a)
  setProc p u
  pure executed

/-! ### The invariant -/

section

omit [KernelImage]

/-- The pages of all processes. -/
@[irreducible]
def procPages (proc : Fin nProc → UProc) : Multiset ℕ := ∑ p, (proc p).pages

theorem procPages_update (proc : Fin nProc → UProc) (p : Fin nProc) (u : UProc) :
    procPages (update proc p u) + (proc p).pages = procPages proc + u.pages := by
  unfold procPages
  exact Tally.sum_update (Finset.mem_univ p) UProc.pages proc u

theorem pages_le_procPages (proc : Fin nProc → UProc) (p : Fin nProc) :
    (proc p).pages ≤ procPages proc := by
  unfold procPages
  exact Finset.single_le_sum (f := fun p => (proc p).pages) (fun q _ => zero_le _)
    (Finset.mem_univ p)

end

/-- The invariant of an entry: it has a whole address space when it is in use, and nothing
otherwise. -/
def ProcOk (used : Bool) (u : UProc) : Prop :=
  match used with
  | true => ∃ tf pt, Image u tf pt
  | false => u = UProc.free

/-- **The invariant**, with `T` for the pages that are not the kernel's own, `P` for those that the
file layer has, and `U` for the processes in use: each page is on the free list, in a process, or
with the file layer, and every entry is in order. -/
structure Mem.Holds (T : Multiset ℕ) (s : Mem) (P : Multiset ℕ) (U : Fin nProc → Bool) : Prop where
  total : s.kmem.free + procPages s.proc + P = T
  procs : ∀ p, ProcOk (U p) (s.proc p)

variable {T P : Multiset ℕ} {U : Fin nProc → Bool} {s : Mem} {p q : Fin nProc} {E : FsPanic → Prop}

section

variable (h : s.Holds T P U)

include h

theorem Mem.Holds.used (hp : U p = true) : ∃ tf pt, Image (s.proc p) tf pt := by
  have hok := h.procs p
  rwa [hp] at hok

theorem Mem.Holds.unused (hp : U p = false) : s.proc p = UProc.free := by
  have hok := h.procs p
  rwa [hp] at hok

theorem Mem.Holds.le_proc (p : Fin nProc) : s.kmem.free + (s.proc p).pages ≤ T := by
  rw [← h.total]
  exact le_trans (add_le_add_right (pages_le_procPages s.proc p) _) (Multiset.le_add_right ..)

theorem Mem.Holds.le_pages : s.kmem.free + P ≤ T := by
  rw [← h.total, add_right_comm]
  exact Multiset.le_add_right ..

theorem Mem.Holds.setKmem {km : Kmem} {P' : Multiset ℕ} (hkm : km.free + P' = s.kmem.free + P) :
    Mem.Holds T { s with kmem := km } P' U where
  total := by
    rw [← h.total, add_right_comm, hkm, add_right_comm]
  procs := h.procs

theorem Mem.Holds.setProc {u : UProc} {km : Kmem} {b : Bool}
    (hpages : km.free + u.pages = s.kmem.free + (s.proc q).pages) (hok : ProcOk b u) :
    Mem.Holds T ⟨km, update s.proc q u⟩ P (update U q b) where
  total := by
    have hbal := procPages_update s.proc q u
    refine Eq.trans ?_ h.total
    refine congrArg (· + P) (add_right_cancel (b := (s.proc q).pages) ?_)
    calc km.free + procPages (update s.proc q u) + (s.proc q).pages
        = km.free + u.pages + procPages s.proc := by
          rw [add_assoc, hbal]
          abel
      _ = s.kmem.free + procPages s.proc + (s.proc q).pages := by
          rw [hpages]
          abel
  procs p := by
    show ProcOk (update U q b p) (update s.proc q u p)
    by_cases hpq : p = q
    · rw [hpq, update_self, update_self]
      exact hok
    · rw [update_of_ne hpq, update_of_ne hpq]
      exact h.procs p

/-- **An entry with an address space gets another one** of the same pages. -/
theorem Mem.Holds.setImage (hp : U p = true) {u : UProc} {km : Kmem}
    (hpages : km.free + u.pages = s.kmem.free + (s.proc p).pages) (hu : ∃ tf pt, Image u tf pt) :
    Mem.Holds T ⟨km, update s.proc p u⟩ P U := by
  have hset := h.setProc (b := true) hpages hu
  rwa [← hp, Function.update_eq_self] at hset

end

/-! ### The operations -/

section

variable (h : s.Holds T P U) (hfit : Fits T)

include h hfit

theorem wp_sysSbrk (hp : U p = true) (n : ℤ) :
    wp (sysSbrk p n) (fun _ s' => s'.Holds T P U) E s := by
  obtain ⟨tf, pt, himg⟩ := h.used hp
  rw [sysSbrk, wp_bind, wp_get, wp_bind]
  refine wp_liftVm (wp_growproc himg rfl (hfit.mono (h.le_proc p))) ?_
  rintro ⟨u, grown⟩ km ⟨hpages, pt', himg'⟩
  exact wp_bind.2 (wp_modify.2 (wp_pure.2 (h.setImage hp hpages ⟨tf, pt', himg'⟩)))

theorem wp_sysExecProc (hp : U p = true) (a : ExecArg) :
    wp (sysExecProc p a) (fun _ s' => s'.Holds T P U) E s := by
  obtain ⟨tf, pt, himg⟩ := h.used hp
  rw [sysExecProc, wp_bind, wp_get, wp_bind]
  refine wp_liftVm (wp_execProc himg rfl (hfit.mono (h.le_proc p))) ?_
  rintro ⟨u, executed⟩ km ⟨hpages, pt', himg'⟩
  exact wp_bind.2 (wp_modify.2 (wp_pure.2 (h.setImage hp hpages ⟨tf, pt', himg'⟩)))

theorem wp_copyProc (hp : U p = true) (hq : U q = false) :
    wp (copyProc p q) (fun b s' => s'.Holds T P (update U q b)) E s := by
  obtain ⟨tf, pt, himg⟩ := h.used hp
  have hfree : s.kmem.free + (s.proc q).pages = s.kmem.free := by
    rw [h.unused hq, idle_free.pages, add_zero]
  have hfit0 : Fits s.kmem.free := hfit.mono (hfree ▸ h.le_proc q)
  -- what was allocated and freed again
  have hundo : ∀ (np : UProc) (km : Kmem), np = UProc.free → km.free + np.pages = s.kmem.free →
      Mem.Holds T ⟨km, update s.proc q np⟩ P (update U q false) := fun np km hnp hkm =>
    h.setProc (b := false) (hkm.trans hfree.symm) hnp
  rw [copyProc, wp_bind, wp_get, wp_bind, h.unused hq]
  refine wp_liftVm (wp_allocproc idle_free rfl hfit0) ?_
  rintro ⟨np, allocated⟩ km1 (⟨rfl, (hnp : np = _), hkm1, -⟩ | ⟨rfl, hnp, hsz, hg, hkm1, -⟩)
  · refine wp_bind.2 (wp_modify.2 (wp_pure.2 (hundo np km1 hnp ?_)))
    rw [hnp, idle_free.pages, add_zero, hkm1]
  · have hnodup : (km1.free + (s.proc p).pages).Nodup := by
      refine nodup_of_le (le_trans (add_le_add_left ?_ _) (h.le_proc p)) hfit.nodup
      rw [← hkm1]
      exact Multiset.le_add_right ..
    refine wp_bind.2 (wp_liftVm (wp_forkMem himg hnp hsz hg hkm1 hfit0 hnodup) ?_)
    rintro ⟨np', copied⟩ km2 ⟨hkm2, ⟨rfl, hnp'⟩ | ⟨rfl, hnp'⟩⟩
    · exact wp_bind.2 (wp_modify.2 (wp_pure.2 (hundo np' km2 hnp' hkm2)))
    · exact wp_bind.2 (wp_modify.2 (wp_pure.2 (h.setProc (b := true) (hkm2.trans hfree.symm) hnp')))

theorem wp_freeProc (hq : U q = true) :
    wp (freeProc q) (fun _ s' => s'.Holds T P (update U q false)) E s := by
  obtain ⟨tf, pt, himg⟩ := h.used hq
  rw [freeProc, wp_bind, wp_get, wp_bind]
  refine wp_liftVm (wp_freeproc (fun pt1 hpt1 => ?_) rfl (hfit.mono (h.le_proc q))) ?_
  · rw [himg.pagetable] at hpt1
    cases hpt1
    exact ⟨tf, _, himg.space⟩
  · rintro u km ⟨rfl, hkm⟩
    refine wp_modify.2 (h.setProc (b := false) ?_ rfl)
    rw [hkm, idle_free.pages, add_zero]

end

theorem wp_copyoutProc (h : s.Holds T P U) (hp : U p = true) (addr : ℕ) (src : List UInt8) :
    wp (copyoutProc p addr src) (fun _ s' => s'.Holds T P U) E s := by
  obtain ⟨tf, pt, himg⟩ := h.used hp
  rw [copyoutProc, wp_bind, wp_get]
  simp only [himg.pagetable]
  exact wp_liftVm (R := fun _ km => km.free = s.kmem.free) (wp_copyout rfl fun _ => rfl)
    fun _ _ hkm =>
    h.setKmem (by rw [hkm])

/-- **The memory is sound below the file layer.** -/
theorem memory_sound (hfit : Fits T) : memory.Sound (fun s _ P U => s.Holds T P U) E where
  iput h := wp_pure.2 h
  idup _ h := wp_pure.2 h
  kalloc {s _ P _} h := by
    refine wp_liftVm (R := fun r km => km.free + r.elim P (· ::ₘ P) = s.kmem.free + P)
      (wp_kalloc (fun _ => rfl) fun pg km ht => ?_) fun _ _ hkm => h.setKmem hkm
    show km.free + pg ::ₘ P = _
    rw [ht.free, add_cons, singleton_add, cons_add]
  kfree {s _ P _ pg} h := by
    have husable : Usable pg := hfit.usable pg (mem_of_le h.le_pages
      (mem_add.2 (.inr (mem_cons_self ..))))
    refine wp_liftVm (R := fun _ km => km.free = s.kmem.free + {pg})
      (wp_kfree husable fun km hkm => hkm.free) fun _ _ hkm => h.setKmem ?_
    rw [hkm, add_assoc, singleton_add]
  copyProc hp hq h := wp_copyProc h hfit hp hq
  freeProc hq h := wp_freeProc h hfit hq
  copyout addr bs hp h := wp_copyoutProc h hp addr bs

/-- A page that `kalloc` finds is with no one else. -/
theorem wp_kalloc_fresh (h : s.Holds T P U) (hfit : Fits T) :
    wp memory.kalloc (fun r _ => ∀ pg ∈ r, pg ∉ P) E s := by
  refine wp_liftVm (R := fun r _ => ∀ pg ∈ r, pg ∈ s.kmem.free)
    (wp_kalloc (fun _ pg h => by cases h) fun pg km ht pg' hpg => ?_) fun _ _ hr pg hpg => ?_
  · cases hpg
    rw [ht.free]
    exact Multiset.mem_add.2 (.inl (Multiset.mem_singleton_self _))
  · have hnd := nodup_of_le h.le_pages hfit.nodup
    exact disjoint_left.1 (nodup_add.1 hnd).2.2 (hr pg hpg)

/-! ### The system calls -/

/-- The system calls that move pages, with their arguments; for `wait` also the status that it hands
over. -/
inductive Call
  | fork
  | exec (a : ExecArg)
  | sbrk (n : ℤ)
  | pipe (fdarray : ℕ)
  | dup (fd : ℤ)
  | close (fd : ℤ)
  | exit
  | wait (addr : ℕ) (xstate : List UInt8)

/-- A call by the process in slot `p`, during which `budget` allocations can succeed. -/
structure Act where
  p : Fin nProc
  budget : ℕ
  call : Call

/-- The system: files over memory. -/
abbrev MemSys := Files Unit Mem

namespace MemSys

omit [KernelImage] in
def kmem (s : MemSys) : Kmem := s.inodes.kmem

omit [KernelImage] in
def proc (s : MemSys) : Fin nProc → UProc := s.inodes.proc

/-- A call by process `p`. -/
def runCall (p : Fin nProc) : Call → FilesM Unit Mem Unit
  | .fork => do
    let _ ← Files.fork memory p
    pure ()
  | .exec a => do
    let _ ← Files.liftInodes (sysExecProc p a)
    pure ()
  | .sbrk n => do
    let _ ← Files.liftInodes (sysSbrk p n)
    pure ()
  | .pipe fdarray => do
    let _ ← Files.sysPipe memory p fdarray
    pure ()
  | .dup fd => do
    let _ ← Files.sysDup p fd
    pure ()
  | .close fd => do
    let _ ← Files.sysClose memory p fd
    pure ()
  | .exit => Files.exit memory p
  | .wait addr xstate => do
    let _ ← Files.wait memory p addr xstate
    pure ()

omit [KernelImage] in
/-- `wait` goes to sleep: there are children, and none of them has exited. -/
def Sleeps (s : MemSys) (p : Fin nProc) : Call → Prop
  | .wait _ _ => (∃ q, s.parent q = some p) ∧ ∀ q, s.parent q = some p → s.state q ≠ .zombie
  | _ => False

instance (s : MemSys) (p : Fin nProc) (c : Call) : Decidable (s.Sleeps p c) := by
  cases c <;> unfold MemSys.Sleeps <;> infer_instance

omit [KernelImage] in
/-- The next `b` allocations can succeed, as far as there are pages. -/
def setBudget (s : MemSys) (b : ℕ) : MemSys :=
  { s with inodes := { s.inodes with kmem := { s.inodes.kmem with budget := b } } }

/-- A completed call. -/
def step (s : MemSys) (a : Act) : Option (Except FsPanic MemSys) :=
  callStep (s.state a.p = .live ∧ ¬ s.Sleeps a.p a.call) (runCall a.p a.call) (fun _ s' => s')
    (s.setBudget a.budget)

/-- **The invariant of the system.** -/
abbrev Inv (T : Multiset ℕ) (s : MemSys) : Prop := Files.Ok (fun s _ P U => s.Holds T P U) s 0

variable {s s' s0 : MemSys} {m : ℕ} {mem : ℕ → UInt8}

/-- **Every call keeps the invariant**, and reaches no panic except the exit of `init`. -/
theorem wp_runCall (h : Inv T s) (hfit : Fits T) (hp : s.state p = .live) (c : Call) :
    wp (runCall p c) (fun _ s' => Inv T s') (fun e => e = .initExiting) s := by
  have hL := memory_sound (T := T) (E := fun e => e = .initExiting) hfit
  have huse : s.inUse p = true := by
    rw [Files.inUse, Function.comp_apply, hp]
    rfl
  have hdone : ∀ m : FilesM Unit Mem Bool,
      wp m (fun _ s' => Inv T s') (fun e => e = .initExiting) s →
      wp (do let _ ← m; pure ()) (fun _ s' => Inv T s') (fun e => e = .initExiting) s :=
    fun m hm => wp_bind.2 (hm.mono fun _ s' hs' => wp_pure.2 hs')
  have hmem : ∀ m : MemM Bool, wp m (fun _ i => i.Holds T (pipePages s.pipes) s.inUse)
      (fun e => e = .initExiting) s.inodes →
      wp (Files.liftInodes m) (fun _ s' => Inv T s') (fun e => e = .initExiting) s :=
    fun m hm => Files.wp_liftInodes.2 (hm.mono fun _ i hi => h.setInodes hi)
  cases c with
  | fork => exact hdone _ (Files.wp_fork hL h hp)
  | exec a => exact hdone _ (hmem _ (wp_sysExecProc h.tab.inodes hfit huse a))
  | sbrk n => exact hdone _ (hmem _ (wp_sysSbrk h.tab.inodes hfit huse n))
  | pipe fdarray =>
    exact hdone _ (Files.wp_sysPipe hL h hp (wp_kalloc_fresh h.tab.inodes hfit) fdarray)
  | dup fd => exact wp_bind.2 ((Files.wp_sysDup h hp fd).mono fun _ _ h' => wp_pure.2 h')
  | close fd => exact hdone _ (Files.wp_sysClose hL h fd)
  | exit => exact Files.wp_exit hL h hp fun _ => rfl
  | wait addr xstate => exact hdone _ (Files.wp_wait hL h hp addr xstate)

/-! ### Runs -/

/-- The list that `kinit` builds: `kfree` of every page from the end of the kernel to `PHYSTOP`. -/
def kinit : List ℕ :=
  (List.range' KernelImage.endPage (physTop / pgSize - KernelImage.endPage)).foldl
    (fun freelist pg => pg :: freelist) []

/-- The state after `userinit`, when the kernel has taken `m` pages for its own page table, the
kernel stacks and the rings of the disk driver. -/
def boot (m : ℕ) (mem : ℕ → UInt8) : Except VmPanic MemSys :=
  match userinit ⟨kinit.drop m, (kinit.drop m).length, mem⟩ with
  | .error e => .error e
  | .ok (u, km) => .ok (Files.start () ⟨km, update (fun _ => UProc.free) ⟨0, nProc_pos⟩ u⟩)

/-- The places where a page can be: the free list, a process, a pipe, or the kernel. -/
def places (m : ℕ) (s : MemSys) : Multiset ℕ :=
  s.kmem.free + procPages s.proc + pipePages s.pipes + (kinit.take m : List ℕ)

theorem kinit_eq_reverse : kinit =
    (List.range' KernelImage.endPage (physTop / pgSize - KernelImage.endPage)).reverse := by
  rw [kinit, foldl_flip_cons_eq_append', append_nil]

theorem nodup_kinit : kinit.Nodup := by
  rw [kinit_eq_reverse, nodup_reverse]
  exact nodup_range'

theorem usable_of_mem_kinit {pg : ℕ} (h : pg ∈ kinit) : Usable pg := by
  rw [kinit_eq_reverse, mem_reverse, mem_range'_1] at h
  exact ⟨h.1, by omega⟩

theorem length_kinit : kinit.length = physTop / pgSize - KernelImage.endPage := by
  rw [kinit_eq_reverse, length_reverse, length_range']

theorem fits_drop (m : ℕ) : Fits ((kinit.drop m : List ℕ) : Multiset ℕ) :=
  ⟨fun _ hx => usable_of_mem_kinit (mem_of_mem_drop hx), nodup_kinit.sublist (drop_sublist ..)⟩

/-- **`userinit` establishes the invariant**, if the kernel leaves it nine pages. -/
theorem inv_boot (mem : ℕ → UInt8) (hm : m + 9 ≤ physTop / pgSize - KernelImage.endPage) :
    ∃ s0, boot m mem = .ok s0 ∧ Inv (kinit.drop m : List ℕ) s0 := by
  have hlen : 9 ≤ (kinit.drop m).length := by
    rw [length_drop, length_kinit]
    omega
  have hinit : wp userinit _ noPanic ⟨kinit.drop m, (kinit.drop m).length, mem⟩ :=
    wp_userinit (fits_drop m) (le_min hlen hlen)
  obtain ⟨u, km, hrun, hpages, -, himg, -⟩ := hinit.exists_ok
  rw [boot, hrun]
  refine ⟨_, rfl, Files.start_ok ?_⟩
  have hempty : Mem.Holds (kinit.drop m : List ℕ) ⟨⟨kinit.drop m, 0, mem⟩, fun _ => UProc.free⟩ 0
      fun _ => false := by
    refine ⟨?_, fun _ => rfl⟩
    have hzero : procPages (fun _ => UProc.free) = 0 := by
      unfold procPages
      exact Finset.sum_eq_zero fun _ _ => idle_free.pages
    rw [hzero, add_zero, add_zero]
    rfl
  refine hempty.setProc (b := true) ?_ himg
  rw [hpages, idle_free.pages, add_zero]
  rfl

theorem Inv.setBudget (h : Inv T s) (b : ℕ) : Inv T (s.setBudget b) :=
  h.setInodes (h.tab.inodes.setKmem rfl)

theorem Inv.step (h : Inv T s) (hfit : Fits T) {a : Act} (hstep : step s a = some (.ok s')) :
    Inv T s' :=
  wp.callStep_ok (fun hc => wp_runCall (h.setBudget a.budget) hfit hc.1 a.call) hstep

theorem Inv.panic (h : Inv T s) (hfit : Fits T) {a : Act} {e : FsPanic}
    (hstep : MemSys.step s a = some (.error e)) : e = .initExiting :=
  wp.callStep_error (E := fun e => e = .initExiting)
    (fun hc => wp_runCall (h.setBudget a.budget) hfit hc.1 a.call) hstep

theorem inv_of_reach (hm : m + 9 ≤ physTop / pgSize - KernelImage.endPage)
    (hboot : boot m mem = .ok s0) (h : Runs.Reach MemSys.step (fun _ _ => True) s0 s) :
    Inv (kinit.drop m : List ℕ) s := by
  obtain ⟨s1, hs1, hinv⟩ := inv_boot mem hm
  obtain rfl := Except.ok.inj (hs1.symm.trans hboot)
  exact h.invariant (I := Inv (kinit.drop m : List ℕ)) hinv fun _ _ _ hinv _ hstep =>
    hinv.step (fits_drop m) hstep

/-- The free list and the pages of the kernel are those of `kinit`, and the rest is where the
invariant says. -/
theorem Inv.places_eq (h : Inv (kinit.drop m : List ℕ) s) : places m s = (kinit : List ℕ) := by
  have htotal : s.kmem.free + procPages s.proc + pipePages s.pipes = (kinit.drop m : List ℕ) :=
    h.tab.inodes.total
  rw [places, htotal, coe_add, coe_eq_coe]
  exact (perm_append_comm).trans (List.Perm.of_eq (take_append_drop ..))

/-- **Physical page conservation**: after every run of completed calls by any processes, each page
that `kinit` handed out is in exactly one place exactly once, on the free list, in one process, in
one pipe, or in the kernel; unused processes own nothing, and every pipe is open in some process. -/
theorem page_conservation {m : ℕ} {mem : ℕ → UInt8} {s0 s : MemSys}
    (hm : m + 9 ≤ physTop / pgSize - KernelImage.endPage) (hboot : boot m mem = .ok s0)
    (h : Runs.Reach MemSys.step (fun _ _ => True) s0 s) :
    (∀ pg, (places m s).count pg = if pg ∈ kinit then 1 else 0) ∧
      (∀ p, s.state p = .unused → (s.proc p).pages = 0) ∧
      (∀ q ∈ s.pipes, ∃ p fd f, s.ofile p fd = some f ∧ (s.ftable f).type = .pipe ∧
        (s.ftable f).pipe = q.page) := by
  have hinv := inv_of_reach hm hboot h
  refine ⟨fun pg => ?_, fun p hp => ?_, fun q hq => ?_⟩
  · rw [hinv.places_eq, coe_count]
    split
    · exact count_eq_one_of_mem nodup_kinit ‹_›
    · exact count_eq_zero.2 ‹_›
  · have hfree : s.proc p = UProc.free := hinv.tab.inodes.unused (by
      rw [Files.inUse, Function.comp_apply, hp]
      rfl)
    rw [hfree, idle_free.pages]
  · have hfiles := hinv.tab.files
    obtain ⟨w, hw⟩ := hfiles.live q hq
    obtain ⟨f, htype, hpipe, -⟩ := hfiles.held q hq w hw
    have hpos : f ∈ fdRefs s.ofile := by
      rw [← count_ne_zero, ← hfiles.refs]
      exact fun hzero => hfiles.idle f hzero htype
    obtain ⟨p, fd, hfd⟩ := exists_of_mem_fdRefs hpos
    exact ⟨p, fd, f, hfd, htype, hpipe⟩

omit [KernelImage] in
/-- A machine with twenty-four pages beyond the kernel, two of which the kernel takes. -/
theorem page_conservation_fork : ∃ (_ : KernelImage) (s0 s : MemSys), boot 2 (fun _ => 1) = .ok s0 ∧
    Runs.Reach MemSys.step (fun _ _ => True) s0 s ∧ s.state (1 : Fin 64) = .live ∧
    ∀ pg, (places 2 s).count pg = if pg ∈ kinit then 1 else 0 := by
  let K : KernelImage := ⟨physTop / pgSize - 24, kernBase / pgSize⟩
  have hrun : ((boot 2 fun _ => 1).toOption.bind fun s => Runs.exec MemSys.step (fun _ _ => True) s
      [⟨(0 : Fin 64), 100, .fork⟩]).any (fun s => s.state (1 : Fin 64) = .live) = true := by
    decide +kernel
  have hm : 2 + 9 ≤ physTop / pgSize - KernelImage.endPage := by decide
  obtain ⟨s0, hboot, -⟩ := inv_boot (fun _ => 1) hm
  rw [hboot] at hrun
  obtain ⟨s, hreach, hlive⟩ := Runs.exists_reach_of_exec _ hrun
  exact ⟨K, s0, s, hboot, hreach, hlive, (page_conservation hm hboot hreach).1⟩

/-- **User address spaces**: in every state that is reached, the valid leaf entries of the page
table of a process are one for each page number below `PGROUNDUP(sz)/PGSIZE`, each with a physical
page of its own and accessible to the user except for the guard page of `exec`, and the trapframe
and the trampoline, which are not.  No call reaches a panic from there, except the exit of
`init`. -/
theorem address_spaces {m : ℕ} {mem : ℕ → UInt8} {s0 s : MemSys}
    (hm : m + 9 ≤ physTop / pgSize - KernelImage.endPage) (hboot : boot m mem = .ok s0)
    (h : Runs.Reach MemSys.step (fun _ _ => True) s0 s) :
    (∀ p, s.state p ≠ .unused → ∃ tf pt, (s.proc p).trapframe = some tf ∧
      (s.proc p).pagetable = some pt ∧
      (∀ k < pgRoundUp (s.proc p).sz / pgSize, ∃ e, leaf pt k = some e ∧
        (e.perm.u = true ↔ (s.proc p).guard ≠ some k) ∧
        ∀ k' < pgRoundUp (s.proc p).sz / pgSize, ∀ e', leaf pt k' = some e' → e.ppn = e'.ppn →
          k = k') ∧
      (∀ k, pgRoundUp (s.proc p).sz / pgSize ≤ k → leaf pt k =
        if k = trampoline / pgSize then
          some ⟨KernelImage.trampolinePage, ⟨true, false, true, false⟩⟩
        else if k = trapframe / pgSize then some ⟨tf, ⟨true, true, false, false⟩⟩
        else none)) ∧
      ∀ a e, MemSys.step s a = some (.error e) → e = .initExiting := by
  have hinv := inv_of_reach hm hboot h
  refine ⟨fun p hp => ?_, fun a e hstep => hinv.panic (fits_drop m) hstep⟩
  obtain ⟨tf, pt, himg⟩ : ∃ tf pt, Image (s.proc p) tf pt := hinv.tab.inodes.used (bne_iff_ne.2 hp)
  have hbound := himg.space.bound
  have hsize : pgRoundUp (s.proc p).sz / pgSize = npages (s.proc p).sz := by
    rw [pgRoundUp_eq hbound, Nat.mul_div_cancel _ (by decide)]
  have hnd : (pagesOf (leaf pt)).Nodup := by
    refine nodup_of_le ?_ (fits_drop m).nodup
    refine le_trans ?_ (hinv.tab.inodes.le_proc p)
    rw [show s.inodes.proc p = s.proc p from rfl, himg.pages, ptPages, ← add_assoc, ← add_assoc]
    exact Multiset.le_add_left ..
  refine ⟨tf, pt, himg.trapframe, himg.pagetable, fun k hk => ?_, fun k hk => ?_⟩
  · rw [hsize] at hk ⊢
    obtain ⟨e, he, -, hu⟩ := himg.space.user k hk
    refine ⟨e, he, hu, fun k' hk' e' he' hppn => ?_⟩
    exact ppn_inj hnd (by omega) (by omega) he he' hppn
  · rw [hsize] at hk
    rw [himg.space.rest k hk, hiMap, trampolineNo, trapframeNo]

omit [KernelImage] in
theorem address_spaces_sbrk : ∃ (_ : KernelImage) (s0 s : MemSys), boot 2 (fun _ => 1) = .ok s0 ∧
    Runs.Reach MemSys.step (fun _ _ => True) s0 s ∧ (s.proc (0 : Fin 64)).sz = 9096 ∧
    ∀ a e, MemSys.step s a = some (.error e) → e = .initExiting := by
  let K : KernelImage := ⟨physTop / pgSize - 24, kernBase / pgSize⟩
  have hrun : ((boot 2 fun _ => 1).toOption.bind fun s => Runs.exec MemSys.step (fun _ _ => True) s
      [⟨(0 : Fin 64), 100, .sbrk 5000⟩]).any (fun s => (s.proc (0 : Fin 64)).sz = 9096) = true := by
    decide +kernel
  have hm : 2 + 9 ≤ physTop / pgSize - KernelImage.endPage := by decide
  obtain ⟨s0, hboot, -⟩ := inv_boot (fun _ => 1) hm
  rw [hboot] at hrun
  obtain ⟨s, hreach, hsz⟩ := Runs.exists_reach_of_exec _ hrun
  exact ⟨K, s0, s, hboot, hreach, hsz, (address_spaces hm hboot hreach).2⟩

end MemSys

end CsklubOs
