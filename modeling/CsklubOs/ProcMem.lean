/-
**The memory of one process through its life.**

The functions of `kernel/proc.c` that allocate, copy, resize and free the memory of a process, as
operations on one entry of the process table and the free list: `allocproc`, `freeproc`, the part of
`fork` that makes the child, `growproc`, `exec`, and `userinit`.

Each of them takes an entry that is empty or holds a whole address space to one that is empty or
holds a whole address space, and what the entry holds together with the free list is the same before
and after, on success and on every error path.

Main definitions:

* `UProc` — an entry of the process table, as far as memory goes;
* `allocproc`, `freeproc`, `forkMem`, `growproc`, `execProc`, `userinit` — the code;
* `Image` — an entry with an address space.

Main results:

* `wp_freeproc`, `wp_allocproc`, `wp_forkMem`, `wp_growproc`, `wp_execProc`, `wp_userinit` — the
  functions keep the invariant and lose no page.
-/

import CsklubOs.Exec

set_option autoImplicit false

namespace CsklubOs

open Option (elim_none elim_some)

open Wp

/-! ### The code -/

/-- An entry of the process table, as far as memory goes.  The number of the guard page that the
last `exec` made is not in the source; it is what the statements about `PTE_U` refer to. -/
structure UProc where
  pagetable : Option PageTable
  sz : ℕ
  trapframe : Option ℕ
  guard : Option ℕ

/-- The entry that `freeproc` leaves. -/
def UProc.free : UProc := ⟨none, 0, none, none⟩

variable [KernelImage]

def freeproc (u : UProc) : VmM UProc := do
  match u.trapframe with
  | none => pure ()
  | some tf => kfree tf
  match u.pagetable with
  | none => pure ()
  | some pt => procFreepagetable pt u.sz
  pure UProc.free

/-- `allocproc` on an entry that is unused: the entry, and whether it was allocated. -/
def allocproc (u : UProc) : VmM (UProc × Bool) := do
  match ← kalloc with
  | none => do
    let u ← freeproc { u with trapframe := none }
    pure (u, false)
  | some tf => do
    match ← procPagetable tf with
    | none => do
      let u ← freeproc { u with trapframe := some tf, pagetable := none }
      pure (u, false)
    | some pt =>
      pure ({ u with trapframe := some tf, pagetable := some pt }, true)

/-- `fork` after `allocproc`, for the parent `u` and the new entry `np`. -/
def forkMem (u np : UProc) : VmM (UProc × Bool) :=
  match u.pagetable, np.pagetable with
  | some old, some new => do
    let (new, copied) ← uvmcopy old new u.sz
    if copied then
      pure ({ np with pagetable := some new, sz := u.sz, guard := u.guard }, true)
    else do
      let np ← freeproc { np with pagetable := some new }
      pure (np, false)
  | _, _ => throw .nullPage

/-- `sz + n` on 64-bit numbers, with the sign of the `int` extended. -/
def addInt64 (sz : ℕ) (n : ℤ) : ℕ := ((sz + n) % 2 ^ 64).toNat

/-- `growproc`: the process, and whether 0 was returned. -/
def growproc (u : UProc) (n : ℤ) : VmM (UProc × Bool) :=
  match u.pagetable with
  | none => throw .nullPage
  | some pt =>
    if 0 < n then do
      let (pt, sz) ← uvmalloc pt u.sz (addInt64 u.sz n) Perm.write
      if sz = 0 then pure ({ u with pagetable := some pt }, false)
      else pure ({ u with pagetable := some pt, sz := sz }, true)
    else if n < 0 then do
      let (pt, sz) ← uvmdealloc pt u.sz (addInt64 u.sz n)
      pure ({ u with
        pagetable := some pt, sz := sz, guard := u.guard.filter fun k => k < npages sz }, true)
    else pure (u, true)

/-- `sys_exec` in process `u`. -/
def execProc (u : UProc) (a : ExecArg) : VmM (UProc × Bool) :=
  match u.pagetable, u.trapframe with
  | some pt, some tf => do
    match ← sysExec a tf pt u.sz with
    | none => pure (u, false)
    | some (pt, sz) =>
      pure ({ u with
        pagetable := some pt, sz := sz, guard := some (npages sz - (userStack + 1)) }, true)
  | _, _ => throw .nullPage

/-- `userinit`, for the first entry of the process table. -/
def userinit : VmM UProc := do
  let (u, allocated) ← allocproc UProc.free
  match allocated, u.pagetable with
  | true, some pt => do
    let pt ← uvmfirst pt
    pure { u with pagetable := some pt, sz := pgSize }
  | _, _ => throw .nullPage

/-! ### What an entry owns -/

/-- The pages that an entry owns: its trapframe, and the pages of its table. -/
def UProc.pages (u : UProc) : Multiset ℕ :=
  (u.trapframe.elim 0 fun tf => {tf}) + u.pagetable.elim 0 ptPages

/-- An entry that owns nothing. -/
structure Idle (u : UProc) : Prop where
  trapframe : u.trapframe = none
  pagetable : u.pagetable = none
  sz : u.sz = 0

/-- An entry with trapframe `tf` and an address space in `pt`. -/
structure Image (u : UProc) (tf : ℕ) (pt : PageTable) : Prop where
  trapframe : u.trapframe = some tf
  pagetable : u.pagetable = some pt
  space : Space (leaf pt) (npages u.sz) tf u.guard
  guard : ∀ j, u.guard = some j → j < npages u.sz

variable {u : UProc} {pt : PageTable} {tf : ℕ} {T : Multiset ℕ} {km : Kmem}

omit [KernelImage] in
theorem Idle.pages (h : Idle u) : u.pages = 0 := by
  rw [UProc.pages, h.trapframe, h.pagetable]
  rfl

theorem Image.pages (h : Image u tf pt) : u.pages = {tf} + ptPages pt := by
  rw [UProc.pages, h.trapframe, h.pagetable]
  rfl

omit [KernelImage] in
theorem idle_free : Idle UProc.free := ⟨rfl, rfl, rfl⟩

/-! ### Their specifications -/

/-- **`freeproc`** gives back all that the entry owns; the entry may also be one that `allocproc`
has given a trapframe and no page table. -/
theorem wp_freeproc (hpt : ∀ pt, u.pagetable = some pt → ∃ tf g, Space (leaf pt) (npages u.sz) tf g)
    (hT : km.free + u.pages = T) (hfit : Fits T) :
    wp (freeproc u) (fun u' km' => u' = UProc.free ∧ km'.free = T) noPanic km := by
  obtain ⟨pagetable, sz, trapframe, guard⟩ := u
  have htable : ∀ km1 : Kmem, km1.free + pagetable.elim 0 ptPages = T →
      wp (do
        match pagetable with
        | none => pure ()
        | some pt => procFreepagetable pt sz
        pure UProc.free) (fun u' km' => u' = UProc.free ∧ km'.free = T) noPanic km1 := by
    intro km1 hT1
    cases pagetable with
    | none =>
      rw [elim_none, add_zero] at hT1
      exact wp_bind.2 (wp_pure.2 (wp_pure.2 ⟨rfl, hT1⟩))
    | some pt =>
      obtain ⟨tf, g, hsp⟩ := hpt pt rfl
      subst hT1
      refine wp_bind.2 ((wp_procFreepagetable hsp hfit).mono fun _ km2 hkm2 => ?_)
      exact wp_pure.2 ⟨rfl, hkm2.free⟩
  cases trapframe with
  | none =>
    rw [UProc.pages, elim_none, zero_add] at hT
    exact wp_bind.2 (wp_pure.2 (htable km hT))
  | some tf =>
    rw [UProc.pages, elim_some, ← add_assoc, add_comm km.free] at hT
    have htf : Usable tf := by
      refine hfit.usable tf ?_
      rw [← hT, add_assoc]
      exact Multiset.mem_add.2 (.inl (Multiset.mem_singleton_self _))
    refine wp_bind.2 (wp_kfree htf fun km1 hkm1 => htable km1 ?_)
    rw [hkm1.free, add_comm km.free, hT]

/-- **`allocproc`** makes an entry with an empty address space, or leaves it unused; it does not
fail while six pages can be allocated. -/
theorem wp_allocproc (hidle : Idle u) (hguard : u.guard = none) (hfit : Fits km.free) :
    wp (allocproc u)
      (fun r km' => r.2 = false ∧ r.1 = UProc.free ∧ km'.free = km.free ∧ km.stock < 6 ∨
        r.2 = true ∧ (∃ tf pt, Image r.1 tf pt) ∧ r.1.sz = 0 ∧ r.1.guard = none ∧
          km'.free + r.1.pages = km.free ∧ km.stock ≤ km'.stock + 6)
      noPanic km := by
  rw [allocproc, wp_bind]
  refine wp_kalloc (fun hs => wp_bind.2 ?_) fun tf km1 ht => wp_bind.2 ?_
  · refine (wp_freeproc (T := km.free) (fun pt hpt => ?_) ?_ hfit).mono fun u' km' h => ?_
    · cases hidle.pagetable.symm.trans hpt
    · show km.free + (0 + u.pagetable.elim 0 ptPages) = km.free
      rw [hidle.pagetable, elim_none, add_zero, add_zero]
    · exact wp_pure.2 (.inl ⟨rfl, h.1, h.2, by omega⟩)
  · have hs := ht.stock
    have hfit1 : Fits km1.free := hfit.mono (ht.free ▸ Multiset.le_add_left ..)
    refine (wp_procPagetable hfit1).mono ?_
    rintro r km2 (⟨rfl, hfree, hlt⟩ | ⟨pt, rfl, hT, hsp, hle⟩)
    · refine wp_bind.2 ((wp_freeproc (T := km.free) (fun pt hpt => ?_) ?_ hfit).mono
        fun u' km' h => ?_)
      · cases hpt
      · rw [UProc.pages, elim_some, elim_none, add_zero, hfree, ht.free, add_comm]
      · exact wp_pure.2 (.inl ⟨rfl, h.1, h.2, by omega⟩)
    · refine wp_pure.2 (.inr ⟨rfl, ⟨tf, pt, rfl, rfl, ?_, ?_⟩, hidle.sz, hguard, ?_, by omega⟩)
      · show Space (leaf pt) (npages u.sz) tf u.guard
        rw [hidle.sz, hguard]
        exact hsp
      · intro j hj
        cases hguard.symm.trans hj
      · rw [UProc.pages, ht.free, ← hT]
        abel

/-- **The child of `fork`** gets a copy of the parent's address space, or is freed again. -/
theorem wp_forkMem {np : UProc} {tf0 : ℕ} {old : PageTable} (hu : Image u tf0 old)
    (hnp : ∃ tf pt, Image np tf pt) (hsz : np.sz = 0) (hg : np.guard = none)
    (hT : km.free + np.pages = T) (hfit : Fits T) (hnd : (km.free + u.pages).Nodup) :
    wp (forkMem u np)
      (fun r km' => km'.free + r.1.pages = T ∧
        (r.2 = false ∧ r.1 = UProc.free ∨ r.2 = true ∧ ∃ tf pt, Image r.1 tf pt)) noPanic km := by
  obtain ⟨tf, new, hnp⟩ := hnp
  have hsp : Space (leaf new) 0 tf none := by
    have := hnp.space
    rwa [hsz, hg] at this
  rw [hnp.pages, ← add_assoc] at hT
  have hle : km.free + ptPages new ≤ T := by
    rw [← hT, add_right_comm]
    exact Multiset.le_add_right ..
  rw [hu.pages, add_left_comm] at hnd
  simp only [forkMem, hu.pagetable, hnp.pagetable]
  refine wp_bind.2 ((wp_uvmcopy hu.space hsp rfl (hfit.mono hle) fun j hj e he => ?_).mono ?_)
  · exact notMem_free_of_leaf (Multiset.nodup_add.1 hnd).2.1 (hj.trans_le hu.space.bound) he
  rintro ⟨new', copied⟩ km1 ⟨hT1, ⟨rfl, hsp1⟩ | ⟨rfl, hsp1⟩⟩
  · refine wp_pure.2 ⟨?_, .inr ⟨rfl, tf, new', hnp.trapframe, rfl, hsp1, hu.guard⟩⟩
    rw [UProc.pages, hnp.trapframe, elim_some, elim_some, ← hT, add_left_comm, hT1]
    abel
  · refine wp_bind.2 ((wp_freeproc (T := T) (fun pt hpt => ?_) ?_ hfit).mono fun u' km' h => ?_)
    · cases hpt
      exact ⟨tf, none, by rw [hsz]; exact hsp1⟩
    · rw [UProc.pages, hnp.trapframe, elim_some, elim_some, ← hT, add_left_comm, hT1]
      abel
    · refine wp_pure.2 ⟨?_, .inl ⟨rfl, h.1⟩⟩
      rw [h.1, h.2, idle_free.pages, add_zero]

theorem wp_growproc {n : ℤ} (hu : Image u tf pt) (hT : km.free + u.pages = T) (hfit : Fits T) :
    wp (growproc u n)
      (fun r km' => km'.free + r.1.pages = T ∧ ∃ pt', Image r.1 tf pt') noPanic km := by
  rw [hu.pages, ← add_assoc] at hT
  have hle : km.free + ptPages pt ≤ T := by
    rw [← hT, add_right_comm]
    exact Multiset.le_add_right ..
  -- an entry that differs in the table only
  have hpages : ∀ (u' : UProc) (pt' : PageTable) (km' : Kmem), u'.trapframe = some tf →
      u'.pagetable = some pt' → km'.free + ptPages pt' = km.free + ptPages pt →
      km'.free + u'.pages = T := by
    intro u' pt' km' htf hpt hbal
    rw [UProc.pages, htf, hpt, elim_some, elim_some, ← hT, add_left_comm, hbal]
    abel
  simp only [growproc, hu.pagetable]
  refine wp_ite (fun _ => wp_bind.2 ?_) fun _ => wp_ite (fun _ => wp_bind.2 ?_) fun _ => ?_
  · refine (wp_uvmalloc hu.space hu.guard rfl (hfit.mono hle)).mono ?_
    rintro ⟨pt', sz⟩ km1 ⟨hT1, hres⟩
    refine wp_ite (fun hzero => ?_) fun hnz => ?_
    · refine wp_pure.2 ⟨hpages _ pt' km1 hu.trapframe rfl hT1, pt', hu.trapframe, rfl, ?_,
        hu.guard⟩
      rcases hres with ⟨(hsz : sz = _), hsp⟩ | ⟨-, hsp⟩
      · have hmax : max u.sz (addInt64 u.sz n) = u.sz := by omega
        rwa [hmax] at hsp
      · exact hsp
    · rcases hres with ⟨(hsz : sz = _), hsp⟩ | ⟨hsz, -⟩
      · refine wp_pure.2 ⟨hpages _ pt' km1 hu.trapframe rfl hT1, pt', hu.trapframe, rfl,
          hsz ▸ hsp, fun j hj => (hu.guard j hj).trans_le (npages_mono ?_)⟩
        exact hsz ▸ le_max_left ..
      · exact absurd hsz hnz
  · refine (wp_uvmdealloc hu.space rfl (hfit.mono hle)).mono ?_
    rintro ⟨pt', sz⟩ km1 ⟨hT1, (hsz : sz = _), hsp⟩
    rw [← hsz] at hsp
    refine wp_pure.2 ⟨hpages _ pt' km1 hu.trapframe rfl hT1, pt', hu.trapframe, rfl, hsp, ?_⟩
    intro j hj
    exact of_decide_eq_true (Option.filter_eq_some_iff.1 hj).2
  · exact wp_pure.2 ⟨hpages u pt km hu.trapframe hu.pagetable rfl, pt, hu⟩

theorem wp_execProc {a : ExecArg} (hu : Image u tf pt) (hT : km.free + u.pages = T)
    (hfit : Fits T) :
    wp (execProc u a)
      (fun r km' => km'.free + r.1.pages = T ∧ ∃ pt', Image r.1 tf pt') noPanic km := by
  have hT' := hT
  rw [hu.pages, ← add_assoc] at hT'
  have hle : km.free + ptPages pt ≤ T := by
    rw [← hT', add_right_comm]
    exact Multiset.le_add_right ..
  simp only [execProc, hu.pagetable, hu.trapframe]
  refine wp_bind.2 ((wp_sysExec hu.space (hfit.mono hle)).mono ?_)
  rintro r km1 (⟨rfl, hfree⟩ | ⟨pt', sz, rfl, hT1, hsp, hguard⟩)
  · exact wp_pure.2 ⟨by rw [hfree, hT], pt, hu⟩
  · refine wp_pure.2 ⟨?_, pt', rfl, rfl, hsp, fun j hj => ?_⟩
    · rw [UProc.pages, elim_some, elim_some, ← hT', add_left_comm, hT1]
      abel
    · cases hj
      show npages sz - (userStack + 1) < npages sz
      omega

/-- **`userinit`** makes a process with one page of memory, if nine pages can be allocated. -/
theorem wp_userinit (hfit : Fits km.free) (hstock : 9 ≤ km.stock) :
    wp userinit
      (fun u km' => km'.free + u.pages = km.free ∧ u.sz = pgSize ∧ (∃ tf pt, Image u tf pt) ∧
        km.stock ≤ km'.stock + 9) noPanic km := by
  rw [userinit, wp_bind]
  refine (wp_allocproc idle_free rfl hfit).mono ?_
  rintro ⟨u, allocated⟩ km1 (⟨-, -, -, hlt⟩ | ⟨rfl, ⟨tf, pt, hu⟩, hsz, hg, hT, hle⟩)
  · omega
  · have hpt : u.pagetable = some pt := hu.pagetable
    have htf : u.trapframe = some tf := hu.trapframe
    have hsp : Space (leaf pt) 0 tf none := by
      have := hu.space
      rwa [show u.sz = 0 from hsz, show u.guard = none from hg] at this
    have hT' : km1.free + ptPages pt + {tf} = km.free := by
      rw [← hT, hu.pages]
      abel
    simp only [hpt]
    refine wp_bind.2 ((wp_uvmfirst hsp rfl (hfit.mono ?_) (by omega)).mono ?_)
    · rw [← hT']
      exact Multiset.le_add_right ..
    · rintro pt1 km2 ⟨hT1, hsp1, hle1⟩
      refine wp_pure.2 ⟨?_, rfl, ⟨tf, pt1, htf, rfl, ?_, fun j hj => ?_⟩, by omega⟩
      · rw [UProc.pages, htf, elim_some, ← hT', ← hT1]
        abel
      · show Space (leaf pt1) (npages pgSize) tf u.guard
        rw [show u.guard = none from hg]
        exact hsp1
      · cases hg.symm.trans hj

end CsklubOs
