/-
**Physical pages and page tables.**

The allocator of `kernel/kalloc.c` and the page-table code at the bottom of `kernel/vm.c`, on the
three-level tables of the Sv39 scheme.  A physical page is given by its number, and memory holds the
bytes of all pages.  A page-table page is a node of a tree that carries the page it occupies; its
entries are in the tree and not in memory.

Main definitions:

* `Kmem`, `kalloc`, `kfree` — the free list and the bytes of the pages;
* `PageTable`, `walk`, `mappages`, `uvmunmap` — the code on tables;
* `leaf`, `tablePages`, `pagesOf` — the entry of each virtual page, and the pages of a table.

Main results:

* `wp_walk_alloc`, `wp_mappages` — pages that leave the free list are pages of the table;
* `wp_uvmunmap` — entries are removed, and their pages given back.
-/

import CsklubOs.Params
import CsklubOs.Tally
import CsklubOs.Wp

set_option autoImplicit false

namespace CsklubOs

open Function Multiset Option Nat
open Wp

/-- What the linker fixes: the first page beyond the kernel, and the page that holds the trampoline
code. -/
class KernelImage where
  endPage : ℕ
  trampolinePage : ℕ

/-- The panics of the code that manages memory.  The last five stand for behaviour that the source
does not check for: `freewalk` descending into a page of user memory, a write through the null
pointer of a failed allocation, and in `exec` a write behind the end of `ustack`, a vector without a
null pointer at its end, and a loop of `loadseg` that has made more rounds than the segment has
pages. -/
inductive VmPanic
  | kfree
  | walk
  | mappagesVa
  | mappagesSizeAligned
  | mappagesSize
  | mappagesRemap
  | uvmunmapAligned
  | uvmunmapWalk
  | uvmunmapNotMapped
  | uvmunmapNotLeaf
  | freewalkLeaf
  | uvmcopyPte
  | uvmcopyPresent
  | uvmclear
  | loadseg
  | freewalkUser
  | nullPage
  | ustack
  | argv
  | endless
  deriving DecidableEq

/-- No panic is allowed. -/
abbrev noPanic : VmPanic → Prop := fun _ => False

/-! ### The allocator -/

/-- `kmem` and the bytes of memory: the free list, the number of allocations that still succeed
before the processes on the other processors have taken what is left, and what the pages hold. -/
structure Kmem where
  freelist : List ℕ
  budget : ℕ
  mem : ℕ → UInt8

/-- The free pages. -/
def Kmem.free (km : Kmem) : Multiset ℕ := km.freelist

/-- The allocations that succeed before one fails. -/
def Kmem.stock (km : Kmem) : ℕ := min km.budget km.freelist.length

/-- Code that can allocate and free pages, and panic. -/
abbrev VmM := StateT Kmem (Except VmPanic)

/-- `memset` or `memmove` of a whole page. -/
def fillPage (pg : ℕ) (byte : ℕ → UInt8) (mem : ℕ → UInt8) : ℕ → UInt8 :=
  fun a => if a / pgSize = pg then byte (a % pgSize) else mem a

/-- `kalloc`, which fills the page with fives; `none` is the null pointer. -/
def kalloc : VmM (Option ℕ) := fun km =>
  match km.budget, km.freelist with
  | b + 1, pg :: rest => .ok (some pg, ⟨rest, b, fillPage pg (fun _ => 5) km.mem⟩)
  | _, _ => .ok (none, km)

/-- The range check of `kfree`. -/
def Usable [KernelImage] (pg : ℕ) : Prop := KernelImage.endPage ≤ pg ∧ pg < physTop / pgSize

instance [KernelImage] (pg : ℕ) : Decidable (Usable pg) := by unfold Usable; infer_instance

/-- `kfree`, which fills the page with ones. -/
def kfree [KernelImage] (pg : ℕ) : VmM Unit :=
  if Usable pg then modify fun km =>
    { km with freelist := pg :: km.freelist, mem := fillPage pg (fun _ => 1) km.mem }
  else throw .kfree

theorem Kmem.free_cons (pg : ℕ) (l : List ℕ) (b b' : ℕ) (mem mem' : ℕ → UInt8) :
    Kmem.free ⟨pg :: l, b, mem⟩ = {pg} + Kmem.free ⟨l, b', mem'⟩ := by
  rw [Kmem.free, ← cons_coe, singleton_add, Kmem.free]

variable {E : VmPanic → Prop} {km km' km'' : Kmem} {pg k va x n : ℕ} {i : Fin 512}

theorem fillPage_of_ne {a : ℕ} {src mem : ℕ → UInt8} (h : a / pgSize ≠ pg) :
    fillPage pg src mem a = mem a := if_neg h

theorem add_div_pgSize {o : ℕ} (ho : o < pgSize) : (pg * pgSize + o) / pgSize = pg := by
  unfold pgSize at *
  omega

theorem fillPage_add {o : ℕ} {src mem : ℕ → UInt8} (ho : o < pgSize) :
    fillPage pg src mem (pg * pgSize + o) = src o := by
  rw [fillPage, if_pos (add_div_pgSize ho), mul_add_mod', mod_eq_of_lt ho]

/-- A page has been taken from the free list, and no other page was written to. -/
structure Kmem.Taken (km : Kmem) (pg : ℕ) (km' : Kmem) : Prop where
  free : km.free = {pg} + km'.free
  stock : km.stock = km'.stock + 1
  mem : ∀ a, a / pgSize ≠ pg → km'.mem a = km.mem a

/-- Pages have been given back, and the pages that are not free are as before. -/
structure Kmem.Freed (km : Kmem) (P : Multiset ℕ) (km' : Kmem) : Prop where
  free : km'.free = km.free + P
  mem : ∀ a, a / pgSize ∉ km'.free → km'.mem a = km.mem a

theorem Kmem.Freed.refl (km : Kmem) : km.Freed 0 km := ⟨(add_zero _).symm, fun _ _ => rfl⟩

theorem Kmem.Freed.trans {P P' : Multiset ℕ} (h : km.Freed P km') (h' : km'.Freed P' km'') :
    km.Freed (P + P') km'' where
  free := by rw [h'.free, h.free, add_assoc]
  mem a ha := by
    refine (h'.mem a ha).trans (h.mem a fun hf => ha ?_)
    rw [h'.free]
    exact mem_add.2 (.inl hf)

theorem wp_kalloc {Q : Option ℕ → Kmem → Prop} (h0 : km.stock = 0 → Q none km)
    (h1 : ∀ pg km', km.Taken pg km' → Q (some pg) km') : wp kalloc Q E km := by
  unfold kalloc wp
  obtain ⟨l, b, mem⟩ := km
  cases b with
  | zero => exact h0 (zero_min _)
  | succ b =>
    cases l with
    | nil => exact h0 (min_zero _)
    | cons pg rest =>
      exact h1 pg _ ⟨Kmem.free_cons .., succ_min_succ .., fun _ ha => if_neg ha⟩

theorem wp_kfree [KernelImage] {Q : Unit → Kmem → Prop} (h : Usable pg)
    (hQ : ∀ km', km.Freed {pg} km' → Q () km') : wp (kfree pg) Q E km := by
  rw [kfree, if_pos h, wp_modify]
  have hfree : Kmem.free ⟨pg :: km.freelist, km.budget, fillPage pg (fun _ => 1) km.mem⟩ =
      km.free + {pg} := (Kmem.free_cons ..).trans (add_comm ..)
  refine hQ _ ⟨hfree, fun a ha => ?_⟩
  have hne : a / pgSize ≠ pg := by
    rintro rfl
    exact ha (hfree ▸ mem_add.2 (.inr (mem_singleton_self _)))
  exact if_neg hne

/-! ### Page tables -/

/-- The permission bits of an entry. -/
structure Perm where
  r : Bool
  w : Bool
  x : Bool
  u : Bool
  deriving DecidableEq

/-- No bit beside `PTE_V`. -/
def Perm.zero : Perm := ⟨false, false, false, false⟩

/-- A valid leaf entry: `PA2PTE(pa) | perm | PTE_V`. -/
structure Pte where
  ppn : ℕ
  perm : Perm
  deriving DecidableEq

/-- A page-table page: the page it occupies, and its entries; `none` is an entry without `PTE_V`. -/
structure Dir (α : Type) where
  page : ℕ
  pte : Fin 512 → Option α

variable {α : Type}

/-- A fresh page-table page, after `memset`. -/
def Dir.zero (pg : ℕ) : Dir α := ⟨pg, fun _ => none⟩

/-- Writing one entry. -/
def Dir.set (d : Dir α) (i : Fin 512) (e : Option α) : Dir α :=
  { d with pte := update d.pte i e }

/-- `pagetable_t`: three levels, the lowest one with leaf entries. -/
abbrev PageTable := Dir (Dir (Dir Pte))

/-- `PX(level, va)`. -/
def px (level va : ℕ) : Fin 512 := ⟨va / 2 ^ (12 + 9 * level) % 512, mod_lt _ (by decide)⟩

/-- What `walk` does at one level: follow the entry, or make a page for it. -/
def Dir.next (d : Dir (Dir α)) (i : Fin 512) (alloc : Bool) : VmM (Dir (Dir α) × Option (Dir α)) :=
  match d.pte i with
  | some c => pure (d, some c)
  | none =>
    if alloc then do
      match ← kalloc with
      | none => pure (d, none)
      | some pg => pure (d.set i (some (Dir.zero pg)), some (Dir.zero pg))
    else pure (d, none)

/-- `walk`: the table afterwards, and whether the address of an entry was returned. -/
def walk (pt : PageTable) (va : ℕ) (alloc : Bool) : VmM (PageTable × Bool) :=
  if maxVA ≤ va then throw .walk
  else do
    let (pt, l1) ← pt.next (px 2 va) alloc
    match l1 with
    | none => pure (pt, false)
    | some d1 => do
      let (d1, l0) ← d1.next (px 1 va) alloc
      pure (pt.set (px 2 va) (some d1), l0.isSome)

/-- The entry that `walk` returns the address of; `none` also when there is none. -/
def pteAt (pt : PageTable) (va : ℕ) : Option Pte :=
  (pt.pte (px 2 va)).bind fun d1 => (d1.pte (px 1 va)).bind fun d0 => d0.pte (px 0 va)

/-- Writing the entry that `walk` returns the address of. -/
def setPte (pt : PageTable) (va : ℕ) (e : Option Pte) : PageTable :=
  match pt.pte (px 2 va) with
  | none => pt
  | some d1 =>
    match d1.pte (px 1 va) with
    | none => pt
    | some d0 => pt.set (px 2 va) (some (d1.set (px 1 va) (some (d0.set (px 0 va) e))))

/-- The loop of `mappages`, for the number of pages that is left. -/
def mapLoop (perm : Perm) : ℕ → PageTable → ℕ → ℕ → VmM (PageTable × Bool)
  | 0, pt, _, _ => pure (pt, true)
  | n + 1, pt, a, pg => do
    let (pt, found) ← walk pt a true
    if found then
      match pteAt pt a with
      | some _ => throw .mappagesRemap
      | none => mapLoop perm n (setPte pt a (some ⟨pg, perm⟩)) (a + pgSize) (pg + 1)
    else pure (pt, false)

/-- `mappages`, from the physical page `pg` on. -/
def mappages (pt : PageTable) (va size pg : ℕ) (perm : Perm) : VmM (PageTable × Bool) :=
  if va % pgSize ≠ 0 then throw .mappagesVa
  else if size % pgSize ≠ 0 then throw .mappagesSizeAligned
  else if size = 0 then throw .mappagesSize
  else mapLoop perm (size / pgSize) pt va pg

/-- The loop of `uvmunmap`, for the number of pages that is left. -/
def unmapLoop [KernelImage] (doFree : Bool) : ℕ → PageTable → ℕ → VmM PageTable
  | 0, pt, _ => pure pt
  | n + 1, pt, a => do
    let (pt, found) ← walk pt a false
    if found then
      match pteAt pt a with
      | none => throw .uvmunmapNotMapped
      | some e =>
        if e.perm = Perm.zero then throw .uvmunmapNotLeaf
        else do
          let _ ← (if doFree then kfree e.ppn else pure ())
          unmapLoop doFree n (setPte pt a none) (a + pgSize)
    else throw .uvmunmapWalk

def uvmunmap [KernelImage] (pt : PageTable) (va npages : ℕ) (doFree : Bool) : VmM PageTable :=
  if va % pgSize ≠ 0 then throw .uvmunmapAligned else unmapLoop doFree npages pt va

/-! ### The entries of a table -/

/-- The number of the page that holds the trapframe in every address space: `TRAPFRAME / PGSIZE`. -/
@[irreducible]
def trapframeNo : ℕ := trapframe / pgSize

/-- `TRAMPOLINE / PGSIZE`. -/
@[irreducible]
def trampolineNo : ℕ := trampoline / pgSize

theorem trapframeNo_eq : trapframeNo = 67108862 := by
  unfold trapframeNo
  rfl

theorem trampolineNo_eq : trampolineNo = 67108863 := by
  unfold trampolineNo
  rfl

theorem lt_of_lt_trapframeNo (h : k < trapframeNo) : k < 2 ^ 26 := by
  rw [trapframeNo_eq] at h
  omega

/-- The leaf entry of each of the `2 ^ 27` virtual pages. -/
def leaf (pt : PageTable) (k : ℕ) : Option Pte :=
  if k < 2 ^ 27 then pteAt pt (k * pgSize) else none

/-- The page-table pages on the way to the entry of `va` exist. -/
def HasPath (pt : PageTable) (va : ℕ) : Prop :=
  ∃ d1 d0, pt.pte (px 2 va) = some d1 ∧ d1.pte (px 1 va) = some d0

variable {e : Pte} {pt : PageTable} {d : Dir α} {f : ℕ → Option Pte}

theorem hasPath_of_pteAt (h : pteAt pt va = some e) : HasPath pt va := by
  obtain ⟨d1, h1, h⟩ := bind_eq_some_iff.1 h
  obtain ⟨d0, h0, _⟩ := bind_eq_some_iff.1 h
  exact ⟨d1, d0, h1, h0⟩

theorem eq_of_px {k' : ℕ} (hk : k < 2 ^ 27) (hk' : k' < 2 ^ 27)
    (h2 : px 2 (k * pgSize) = px 2 (k' * pgSize)) (h1 : px 1 (k * pgSize) = px 1 (k' * pgSize))
    (h0 : px 0 (k * pgSize) = px 0 (k' * pgSize)) : k = k' := by
  simp only [px, pgSize, Fin.mk.injEq] at h2 h1 h0
  omega

theorem pteAt_setPte {va' : ℕ} {e : Option Pte} (h : HasPath pt va) :
    pteAt (setPte pt va e) va' =
      if px 2 va' = px 2 va ∧ px 1 va' = px 1 va ∧ px 0 va' = px 0 va then e
      else pteAt pt va' := by
  obtain ⟨d1, d0, h1, h0⟩ := h
  have hset : setPte pt va e =
      pt.set (px 2 va) (some (d1.set (px 1 va) (some (d0.set (px 0 va) e)))) := by
    simp only [setPte, h1, h0]
  rw [hset]
  by_cases e2 : px 2 va' = px 2 va
  · by_cases e1 : px 1 va' = px 1 va
    · by_cases e0 : px 0 va' = px 0 va
      · simp [pteAt, Dir.set, e2, e1, e0]
      · simp [pteAt, Dir.set, e2, e1, e0, h1, h0]
    · simp [pteAt, Dir.set, e2, e1, h1]
  · simp [pteAt, Dir.set, e2]

theorem leaf_setPte {e : Option Pte} (hk : k < 2 ^ 27) (h : HasPath pt (k * pgSize)) :
    leaf (setPte pt (k * pgSize) e) = update (leaf pt) k e := by
  funext k'
  by_cases hk' : k' < 2 ^ 27
  · rw [leaf, if_pos hk', pteAt_setPte h]
    by_cases hkk : k' = k
    · subst hkk
      rw [if_pos ⟨rfl, rfl, rfl⟩, update_self]
    · rw [if_neg fun h => hkk (eq_of_px hk' hk h.1 h.2.1 h.2.2), update_of_ne hkk, leaf,
        if_pos hk']
  · have hkk : k' ≠ k := by omega
    rw [update_of_ne hkk, leaf, leaf, if_neg hk', if_neg hk']

/-! ### The pages of a table -/

section

variable (f : α → Multiset ℕ) (d : Dir α)

/-- The pages that the entries of one page-table page stand for. -/
@[irreducible]
def Dir.entries : Multiset ℕ := ∑ i, (d.pte i).elim 0 f

/-- The pages of the tree. -/
@[irreducible]
def tablePages (pt : PageTable) : Multiset ℕ :=
  {pt.page} + pt.entries fun d1 => {d1.page} + d1.entries fun d0 => {d0.page}

theorem Dir.entries_set (i : Fin 512) (e : Option α) :
    (d.set i e).entries f + (d.pte i).elim 0 f = d.entries f + e.elim 0 f := by
  unfold Dir.entries
  exact Tally.sum_update (Finset.mem_univ i) (fun e : Option α => e.elim 0 f) d.pte e

theorem Dir.entries_eq_sum :
    ((List.finRange 512).map fun i => (d.pte i).elim 0 f).sum = d.entries f := by
  unfold Dir.entries
  exact (Fin.sum_univ_def _).symm

end

theorem Dir.entries_eq_zero {f : α → Multiset ℕ} (h : ∀ i, d.pte i = none) : d.entries f = 0 := by
  unfold Dir.entries
  exact Finset.sum_eq_zero fun i _ => by rw [h i]; rfl

theorem Dir.mem_entries {f : α → Multiset ℕ} {c : α} (h : d.pte i = some c) (hx : x ∈ f c) :
    x ∈ d.entries f := by
  have hmem : x ∈ (d.pte i).elim 0 f := by rwa [h]
  unfold Dir.entries
  rw [mem_sum]
  exact ⟨i, Finset.mem_univ i, hmem⟩

theorem Dir.page_set (d : Dir α) (i : Fin 512) (e : Option α) : (d.set i e).page = d.page := rfl

theorem tablePages_setPte (pt : PageTable) (va : ℕ) (e : Option Pte) :
    tablePages (setPte pt va e) = tablePages pt := by
  unfold setPte
  split
  · rfl
  · rename_i d1 h1
    split
    · rfl
    · rename_i d0 h0
      have hin := Dir.entries_set (fun d0 : Dir Pte => {d0.page}) d1 (px 1 va)
        (some (d0.set (px 0 va) e))
      have hout := Dir.entries_set (fun d1 : Dir (Dir Pte) => {d1.page} + d1.entries fun d0 =>
        ({d0.page} : Multiset ℕ)) pt (px 2 va) (some (d1.set (px 1 va) (some (d0.set (px 0 va) e))))
      simp only [h0, elim_some] at hin
      simp only [h1, elim_some] at hout
      have hin' := add_right_cancel hin
      rw [hin'] at hout
      have hout' := add_right_cancel hout
      unfold tablePages
      rw [hout', Dir.page_set]

/-- The physical page of an entry, as a collection of at most one page. -/
def ppnOf (e : Option Pte) : Multiset ℕ := e.elim 0 fun e => {e.ppn}

/-- The pages mapped below `TRAPFRAME`: the user pages. -/
@[irreducible]
def pagesOf (f : ℕ → Option Pte) : Multiset ℕ := ∑ k ∈ Finset.range trapframeNo, ppnOf (f k)

theorem pagesOf_update (hk : k < trapframeNo) (f : ℕ → Option Pte) (e : Option Pte) :
    pagesOf (update f k e) + ppnOf (f k) = pagesOf f + ppnOf e := by
  unfold pagesOf
  exact Tally.sum_update (Finset.mem_range.2 hk) ppnOf f e

theorem pagesOf_update_of_le (hk : trapframeNo ≤ k) (f : ℕ → Option Pte) (e : Option Pte) :
    pagesOf (update f k e) = pagesOf f := by
  unfold pagesOf
  have hnot : k ∉ Finset.range trapframeNo := by rwa [Finset.mem_range, not_lt]
  exact Tally.sum_update_of_notMem hnot ppnOf f e

theorem mem_pagesOf (hk : k < trapframeNo) (h : f k = some e) : e.ppn ∈ pagesOf f := by
  have hmem : e.ppn ∈ ppnOf (f k) := by rw [h, ppnOf, elim_some, mem_singleton]
  unfold pagesOf
  rw [mem_sum]
  exact ⟨k, Finset.mem_range.2 hk, hmem⟩

theorem exists_of_mem_pagesOf (h : x ∈ pagesOf f) :
    ∃ k < trapframeNo, ∃ e, f k = some e ∧ e.ppn = x := by
  unfold pagesOf at h
  obtain ⟨k, hk, hx⟩ := mem_sum.1 h
  cases hf : f k with
  | none =>
    rw [hf] at hx
    exact absurd hx (notMem_zero x)
  | some e =>
    rw [hf, ppnOf, elim_some, mem_singleton] at hx
    exact ⟨k, Finset.mem_range.1 hk, e, hf, hx.symm⟩

theorem ppn_inj (hnd : (pagesOf f).Nodup) {k' : ℕ} {e' : Pte} (hk : k < trapframeNo)
    (hk' : k' < trapframeNo) (he : f k = some e) (he' : f k' = some e') (hp : e.ppn = e'.ppn) :
    k = k' := by
  by_contra hne
  have hbal := pagesOf_update hk f none
  rw [he, ppnOf, ppnOf, elim_some, elim_none, add_zero, add_comm, singleton_add] at hbal
  rw [← hbal, nodup_cons] at hnd
  refine hnd.1 ?_
  rw [hp]
  exact mem_pagesOf hk' (by rw [update_of_ne (Ne.symm hne), he'])

/-- All pages of a process's table: those of the tree and those of its user memory. -/
def ptPages (pt : PageTable) : Multiset ℕ := tablePages pt + pagesOf (leaf pt)

theorem mem_total_of_pagesOf {T : Multiset ℕ} (hT : km.free + ptPages pt = T)
    (hx : x ∈ pagesOf (leaf pt)) : x ∈ T := by
  rw [← hT]
  exact mem_add.2 (.inr (mem_add.2 (.inr hx)))

/-! ### `walk` -/

theorem Dir.set_self {e : Option α} (h : d.pte i = e) : d.set i e = d := by
  rw [Dir.set, ← h, update_eq_self]

theorem Dir.pte_set_self (d : Dir α) (i : Fin 512) (e : Option α) : (d.set i e).pte i = e := by
  simp only [Dir.set, update_self]

/-- Page-table pages were added: they came from the free list, and no other page was written to. -/
structure Grown (km : Kmem) (pt : PageTable) (km' : Kmem) (pt' : PageTable) : Prop where
  free : km'.free ≤ km.free
  pages : km'.free + tablePages pt' = km.free + tablePages pt
  stock : km.stock + (tablePages pt).card = km'.stock + (tablePages pt').card
  mem : ∀ a, a / pgSize ∉ km.free → km'.mem a = km.mem a

theorem Grown.refl (km : Kmem) (pt : PageTable) : Grown km pt km pt :=
  ⟨le_rfl, rfl, rfl, fun _ _ => rfl⟩

theorem Grown.trans {km1 : Kmem} {pt1 pt' : PageTable} (h : Grown km pt km1 pt1)
    (h' : Grown km1 pt1 km' pt') : Grown km pt km' pt' :=
  ⟨h'.free.trans h.free, h'.pages.trans h.pages, h.stock.trans h'.stock, fun a ha =>
    (h'.mem a fun hf => ha (mem_of_le h.free hf)).trans (h.mem a ha)⟩

theorem Grown.card_le {pt' : PageTable} (h : Grown km pt km' pt') :
    (tablePages pt).card ≤ (tablePages pt').card := by
  have hpages := congrArg Multiset.card h.pages
  have hfree := card_le_card h.free
  rw [card_add, card_add] at hpages
  omega

theorem Grown.of_taken {pt' : PageTable} (ht : km.Taken pg km')
    (hpages : tablePages pt' = tablePages pt + {pg}) : Grown km pt km' pt' where
  free := ht.free ▸ Multiset.le_add_left ..
  pages := by
    rw [hpages, ht.free]
    abel
  stock := by
    rw [hpages, ht.stock, card_add, card_singleton]
    omega
  mem a ha := by
    refine ht.mem a fun heq => ha ?_
    rw [ht.free, heq]
    exact mem_add.2 (.inl (mem_singleton_self _))

theorem leaf_top (h1 : pt.pte i = none) : leaf (pt.set i (some (Dir.zero pg))) = leaf pt := by
  funext k
  unfold leaf pteAt
  by_cases hi : px 2 (k * pgSize) = i
  · rw [hi, Dir.pte_set_self, h1]
    rfl
  · simp only [Dir.set, update_of_ne hi]

theorem tablePages_top (h1 : pt.pte i = none) :
    tablePages (pt.set i (some (Dir.zero pg))) = tablePages pt + {pg} := by
  have h := Dir.entries_set (fun d1 : Dir (Dir Pte) => {d1.page} + d1.entries fun d0 =>
    ({d0.page} : Multiset ℕ)) pt i (some (Dir.zero pg))
  have hz : (Dir.zero pg : Dir (Dir Pte)).entries (fun d0 => ({d0.page} : Multiset ℕ)) = 0 :=
    Dir.entries_eq_zero fun _ => rfl
  rw [h1, elim_none, elim_some, add_zero, hz, add_zero] at h
  unfold tablePages
  rw [h, Dir.page_set, ← add_assoc]
  rfl

theorem leaf_mid {d1 : Dir (Dir Pte)} {j : Fin 512} (h1 : pt.pte i = some d1)
    (h0 : d1.pte j = none) : leaf (pt.set i (some (d1.set j (some (Dir.zero pg))))) = leaf pt := by
  funext k
  unfold leaf pteAt
  by_cases hi : px 2 (k * pgSize) = i
  · rw [hi, Dir.pte_set_self, h1, bind_some, bind_some]
    by_cases hj : px 1 (k * pgSize) = j
    · rw [hj, Dir.pte_set_self, h0]
      rfl
    · simp only [Dir.set, update_of_ne hj]
  · simp only [Dir.set, update_of_ne hi]

theorem tablePages_mid {d1 : Dir (Dir Pte)} {j : Fin 512} (h1 : pt.pte i = some d1)
    (h0 : d1.pte j = none) :
    tablePages (pt.set i (some (d1.set j (some (Dir.zero pg))))) = tablePages pt + {pg} := by
  have hin := Dir.entries_set (fun d0 : Dir Pte => ({d0.page} : Multiset ℕ)) d1 j
    (some (Dir.zero pg))
  have hout := Dir.entries_set (fun d1 : Dir (Dir Pte) => {d1.page} + d1.entries fun d0 =>
    ({d0.page} : Multiset ℕ)) pt i (some (d1.set j (some (Dir.zero pg))))
  rw [h0, elim_none, add_zero] at hin
  rw [h1, elim_some, elim_some, hin] at hout
  have hout' : (pt.set i (some (d1.set j (some (Dir.zero pg))))).entries
      (fun d1 => {d1.page} + d1.entries fun d0 => ({d0.page} : Multiset ℕ)) =
      pt.entries (fun d1 => {d1.page} + d1.entries fun d0 => ({d0.page} : Multiset ℕ)) + {pg} := by
    refine add_right_cancel (hout.trans ?_)
    rw [Dir.page_set]
    abel
  unfold tablePages
  rw [hout', Dir.page_set, add_assoc]

theorem wp_next {d : Dir (Dir α)} {alloc : Bool} {Q : Dir (Dir α) × Option (Dir α) → Kmem → Prop}
    (hsame : (alloc = true → d.pte i = none → km.stock = 0) → Q (d, d.pte i) km)
    (hnew : ∀ pg km', d.pte i = none → km.Taken pg km' →
      Q (d.set i (some (Dir.zero pg)), some (Dir.zero pg)) km') : wp (d.next i alloc) Q E km := by
  unfold Dir.next
  cases h : d.pte i with
  | some c =>
    rw [h] at hsame
    exact wp_pure.2 (hsame fun _ h => by cases h)
  | none =>
    rw [h] at hsame
    refine wp_ite (fun _ => wp_bind.2 ?_) fun hno => wp_pure.2 (hsame fun h => absurd h hno)
    exact wp_kalloc (fun hs => wp_pure.2 (hsame fun _ _ => hs))
      fun pg km' ht => wp_pure.2 (hnew pg km' h ht)

/-- **`walk` with `alloc` set** adds at most two page-table pages and changes no leaf entry; it
fails when no page is left. -/
theorem wp_walk_alloc (hva : va < maxVA) :
    wp (walk pt va true)
      (fun r km' => Grown km pt km' r.1 ∧ leaf r.1 = leaf pt ∧ (r.2 = true → HasPath r.1 va) ∧
        km.stock ≤ km'.stock + 2 ∧ (r.2 = false → km'.stock = 0 ∧ km.stock < 2)) noPanic km := by
  rw [walk, if_neg (not_le.2 hva), wp_bind]
  refine wp_next (fun hs => ?_) fun pg km1 h1 ht => ?_
  · cases h1 : pt.pte (px 2 va) with
    | none =>
      have hs0 := hs rfl h1
      exact wp_pure.2 ⟨.refl .., rfl, fun h => absurd h Bool.false_ne_true, by omega, by omega⟩
    | some d1 =>
      refine wp_bind.2 (wp_next (fun hs => wp_pure.2 ?_) fun pg km' h0 ht => wp_pure.2 ?_)
      · rw [Dir.set_self h1]
        refine ⟨.refl .., rfl, fun h => ?_, by omega, fun h => ?_⟩
        · obtain ⟨d0, h0⟩ := isSome_iff_exists.1 h
          exact ⟨d1, d0, h1, h0⟩
        · have hs0 := hs rfl (isSome_eq_false_iff.1 h |> isNone_iff_eq_none.1)
          omega
      · have hs := ht.stock
        exact ⟨.of_taken ht (tablePages_mid h1 h0), leaf_mid h1 h0,
          fun _ => ⟨_, _, Dir.pte_set_self .., Dir.pte_set_self ..⟩, by omega, fun h => by cases h⟩
  · have hpte := Dir.pte_set_self pt (px 2 va) (some (Dir.zero pg))
    have htop : Grown km pt km1 (pt.set (px 2 va) (some (Dir.zero pg))) :=
      .of_taken ht (tablePages_top h1)
    have hs := ht.stock
    refine wp_bind.2 (wp_next (fun hs' => wp_pure.2 ?_) fun pg' km' h0 ht' => wp_pure.2 ?_)
    · rw [Dir.set_self hpte]
      have hs0 := hs' rfl rfl
      exact ⟨htop, leaf_top h1, fun h => absurd h Bool.false_ne_true, by omega, by omega⟩
    · have hs' := ht'.stock
      exact ⟨htop.trans (.of_taken ht' (tablePages_mid hpte h0)),
        (leaf_mid hpte h0).trans (leaf_top h1), fun _ => ⟨_, _, Dir.pte_set_self ..,
        Dir.pte_set_self ..⟩, by omega, fun h => by cases h⟩

theorem walk_false (hva : va < maxVA) : walk pt va false =
    (pure (pt, (pt.pte (px 2 va)).any fun d1 => (d1.pte (px 1 va)).isSome) : VmM _) := by
  rw [walk, if_neg (not_le.2 hva)]
  cases h1 : pt.pte (px 2 va) with
  | none => simp [Dir.next, h1]
  | some d1 => cases h0 : d1.pte (px 1 va) <;> simp [Dir.next, h1, h0, Dir.set_self h1]

theorem wp_walk_find {Q : PageTable × Bool → Kmem → Prop} (hva : va < maxVA) (hpath : HasPath pt va)
    (hQ : Q (pt, true) km) : wp (walk pt va false) Q E km := by
  obtain ⟨d1, d0, h1, h0⟩ := hpath
  rw [walk_false hva, wp_pure, h1, any_some, h0]
  exact hQ

/-! ### `mappages` and `uvmunmap` -/

theorem pteAt_eq_leaf (hk : k < 2 ^ 26) : pteAt pt (k * pgSize) = leaf pt k := by
  rw [leaf, if_pos (by omega)]

theorem mul_pgSize_lt (hk : k < 2 ^ 26) : k * pgSize < maxVA := by
  unfold pgSize maxVA
  omega

/-- **`mappages` for one page** that is not mapped yet adds its entry, or fails for want of a
page-table page and adds none. -/
theorem wp_mappages {perm : Perm} (hk : k < 2 ^ 26) (hnone : leaf pt k = none) :
    wp (mappages pt (k * pgSize) pgSize pg perm)
      (fun r km' => Grown km pt km' r.1 ∧
        (leaf r.1 = if r.2 then update (leaf pt) k (some ⟨pg, perm⟩) else leaf pt) ∧
        km.stock ≤ km'.stock + 2 ∧ (r.2 = false → km'.stock = 0 ∧ km.stock < 2))
      noPanic km := by
  have hva : ¬ k * pgSize % pgSize ≠ 0 := by simp
  rw [mappages, if_neg hva, if_neg (by decide), if_neg (by decide),
    show pgSize / pgSize = 0 + 1 by decide, mapLoop, wp_bind]
  refine (wp_walk_alloc (mul_pgSize_lt hk)).mono ?_
  rintro ⟨pt', found⟩ km' ⟨hgrown, hleaf, hpath, hstock⟩
  cases found with
  | false => exact wp_pure.2 ⟨hgrown, hleaf, hstock⟩
  | true =>
    have hpte : pteAt pt' (k * pgSize) = none := by rw [pteAt_eq_leaf hk, hleaf, hnone]
    simp only [↓reduceIte, hpte]
    have htab := tablePages_setPte pt' (k * pgSize) (some ⟨pg, perm⟩)
    refine wp_pure.2 ⟨⟨hgrown.free, htab ▸ hgrown.pages, htab ▸ hgrown.stock, hgrown.mem⟩, ?_,
      hstock⟩
    rw [leaf_setPte (by omega) (hpath rfl), hleaf]
    rfl

/-- Removing the entries of `n` pages from page `k` on. -/
def clear (f : ℕ → Option Pte) (k n : ℕ) : ℕ → Option Pte :=
  fun j => if k ≤ j ∧ j < k + n then none else f j

theorem clear_zero (f : ℕ → Option Pte) (k : ℕ) : clear f k 0 = f := by
  funext j
  exact if_neg (by omega)

theorem clear_succ (f : ℕ → Option Pte) (k n : ℕ) :
    clear f k (n + 1) = clear (update f k none) (k + 1) n := by
  funext j
  unfold clear
  by_cases hj : j = k
  · subst hj
    rw [if_pos (by omega), if_neg (by omega), update_self]
  · rw [update_of_ne hj]
    exact if_congr (by omega) rfl rfl

/-- Entries were removed, and their pages given back. -/
structure Unmapped (km : Kmem) (pt : PageTable) (k n : ℕ) (km' : Kmem) (pt' : PageTable) : Prop
    where
  entries : leaf pt' = clear (leaf pt) k n
  table : tablePages pt' = tablePages pt
  pages : km'.free + pagesOf (leaf pt') = km.free + pagesOf (leaf pt)
  free : km.free ≤ km'.free
  mem : ∀ a, a / pgSize ∉ km'.free → km'.mem a = km.mem a

theorem Unmapped.refl : Unmapped km pt k 0 km pt :=
  ⟨(clear_zero ..).symm, rfl, rfl, le_rfl, fun _ _ => rfl⟩

theorem Unmapped.balance {pt' : PageTable} (h : Unmapped km pt k n km' pt') :
    km'.free + ptPages pt' = km.free + ptPages pt := by
  rw [ptPages, ptPages, h.table, add_left_comm, h.pages, add_left_comm]

variable [KernelImage]

theorem wp_unmapLoop_succ {doFree : Bool} {Q : PageTable → Kmem → Prop} (hk : k < 2 ^ 26)
    (he : leaf pt k = some e) (hperm : e.perm ≠ Perm.zero)
    (h : wp (if doFree then kfree e.ppn else pure ()) (fun _ km' =>
      ∀ pt', leaf pt' = update (leaf pt) k none → tablePages pt' = tablePages pt →
        wp (unmapLoop doFree n pt' ((k + 1) * pgSize)) Q E km') E km) :
    wp (unmapLoop doFree (n + 1) pt (k * pgSize)) Q E km := by
  have hpte : pteAt pt (k * pgSize) = some e := by rw [pteAt_eq_leaf hk, he]
  have hpath := hasPath_of_pteAt hpte
  rw [unmapLoop, wp_bind]
  refine wp_walk_find (mul_pgSize_lt hk) hpath ?_
  simp only [↓reduceIte, hpte, hperm]
  rw [wp_bind]
  refine h.mono fun _ km' h' => ?_
  rw [← succ_mul]
  exact h' _ (leaf_setPte (by omega) hpath) (tablePages_setPte ..)

theorem wp_uvmunmap_keep {Q : PageTable → Kmem → Prop} (hk : k < 2 ^ 26) (he : leaf pt k = some e)
    (hperm : e.perm ≠ Perm.zero)
    (hQ : ∀ pt', leaf pt' = update (leaf pt) k none → tablePages pt' = tablePages pt →
      Q pt' km) : wp (uvmunmap pt (k * pgSize) 1 false) Q E km := by
  have hva : ¬ k * pgSize % pgSize ≠ 0 := by simp
  rw [uvmunmap, if_neg hva]
  exact wp_unmapLoop_succ hk he hperm (wp_pure.2 fun pt' hl ht => wp_pure.2 (hQ pt' hl ht))

section

variable (hk : k + n ≤ trapframeNo) (hmap : ∀ j < n, ∃ e, leaf pt (k + j) = some e ∧
  e.perm ≠ Perm.zero) (husable : ∀ x ∈ pagesOf (leaf pt), Usable x)

include hk hmap husable

theorem wp_unmapLoop :
    wp (unmapLoop true n pt (k * pgSize)) (fun pt' km' => Unmapped km pt k n km' pt') noPanic
    km := by
  induction n generalizing k pt km with
  | zero => exact wp_pure.2 .refl
  | succ n ih =>
    obtain ⟨e, he, hperm⟩ := hmap 0 (succ_pos n)
    rw [add_zero] at he
    have hlt : k < trapframeNo := by omega
    refine wp_unmapLoop_succ (lt_of_lt_trapframeNo hlt) he hperm ?_
    refine wp_kfree (husable _ (mem_pagesOf hlt he)) fun km1 hkm1 pt1 hleaf htab => ?_
    -- the entry and the page that was pushed balance
    have hbal := pagesOf_update hlt (leaf pt) none
    rw [← hleaf, he, ppnOf, ppnOf, elim_some, elim_none, add_zero] at hbal
    refine (ih (by omega) (fun j hj => ?_) fun x hx => husable x ?_).mono ?_
    · rw [hleaf, update_of_ne (by omega)]
      have := hmap (j + 1) (by omega)
      rwa [show k + (j + 1) = k + 1 + j by omega] at this
    · rw [← hbal]
      exact mem_add.2 (.inl hx)
    · rintro pt' km' h
      have hle : km.free ≤ km1.free := hkm1.free ▸ Multiset.le_add_right ..
      refine ⟨?_, h.table.trans htab, ?_, hle.trans h.free, fun a ha => ?_⟩
      · rw [h.entries, hleaf, clear_succ]
      · rw [h.pages, hkm1.free, ← hbal]
        abel
      · exact (h.mem a ha).trans (hkm1.mem a fun hf => ha (mem_of_le h.free hf))

/-- **`uvmunmap` of mapped user pages** removes their entries and gives the pages back. -/
theorem wp_uvmunmap :
    wp (uvmunmap pt (k * pgSize) n true) (fun pt' km' => Unmapped km pt k n km' pt') noPanic
    km := by
  have hva : ¬ k * pgSize % pgSize ≠ 0 := by simp
  rw [uvmunmap, if_neg hva]
  exact wp_unmapLoop hk hmap husable

end

end CsklubOs
