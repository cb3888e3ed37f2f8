/-
**The memory of a user process.**

The part of `kernel/vm.c` that builds, grows, shrinks, copies and frees the address space of a
process, and `proc_pagetable` and `proc_freepagetable` of `kernel/proc.c`.  An address space of `n`
pages maps the pages `0, …, n - 1` and, far above them, the trapframe and the trampoline; nothing
else.  Every function takes such a space to such a space, in every way in which it can return, and
neither loses nor invents a physical page: with `T` for the free pages together with the pages of
the table, `T` is the same before and after.

Main definitions:

* `uvmalloc`, `uvmdealloc`, `uvmcopy`, `uvmfree`, `procPagetable` — the code;
* `Space` — an address space;
* `Filled` — the pages that the rounds of a loop have filled and mapped;
* `RanOut` — all pages that could be allocated were.

Main results:

* `wp_uvmalloc_filled`, `wp_uvmcopy_filled` — the pages that were added, with their bytes;
* `wp_uvmdealloc`, `wp_procPagetable`, `wp_procFreepagetable` — what the others do; none can panic.
-/

import CsklubOs.PageTable

set_option autoImplicit false

namespace CsklubOs

open Function Multiset Option Nat
open Wp

/-! ### The code -/

/-- `PGROUNDUP` on 64-bit numbers. -/
def pgRoundUp (sz : ℕ) : ℕ := (sz + (pgSize - 1)) % 2 ^ 64 / pgSize * pgSize

/-- `|` on permission bits. -/
def Perm.or (p q : Perm) : Perm := ⟨p.r || q.r, p.w || q.w, p.x || q.x, p.u || q.u⟩

/-- `PTE_W`. -/
def Perm.write : Perm := ⟨false, true, false, false⟩

/-- `PTE_R|PTE_U`, what every page that `uvmalloc` maps has. -/
def Perm.readUser : Perm := ⟨true, false, false, true⟩

def uvmcreate : VmM (Option PageTable) := do
  match ← kalloc with
  | none => pure none
  | some pg => pure (some (Dir.zero pg))

/-- One iteration of `freewalk`. -/
def Dir.freeEntry {α : Type} (free : α → VmM Unit) (d : Dir α) (i : Fin 512) : VmM Unit :=
  match d.pte i with
  | none => pure ()
  | some c => free c

section Code

variable [KernelImage]

/-- `uvmdealloc`: the table and the new size. -/
def uvmdealloc (pt : PageTable) (oldsz newsz : ℕ) : VmM (PageTable × ℕ) :=
  if oldsz ≤ newsz then pure (pt, oldsz)
  else if pgRoundUp newsz < pgRoundUp oldsz then do
    let pt ← uvmunmap pt (pgRoundUp newsz) ((pgRoundUp oldsz - pgRoundUp newsz) / pgSize) true
    pure (pt, newsz)
  else pure (pt, newsz)

/-- A round of `uvmalloc` or `uvmcopy` at address `a`, up to the error exits: a new page is filled
with the bytes `src`, which may come from memory, and mapped. -/
def mapFilled (pt : PageTable) (a : ℕ) (src : (ℕ → UInt8) → ℕ → UInt8) (perm : Perm) :
    VmM (PageTable × Bool) := do
  match ← kalloc with
  | none => pure (pt, false)
  | some mem => do
    modify fun km => { km with mem := fillPage mem (src km.mem) km.mem }
    let (pt, mapped) ← mappages pt a pgSize mem perm
    if mapped then pure (pt, true)
    else do
      kfree mem
      pure (pt, false)

/-- The loop of `uvmalloc` from address `a` on, for the number of pages that is left. -/
def allocLoop (oldsz newsz : ℕ) (xperm : Perm) : ℕ → PageTable → ℕ → VmM (PageTable × ℕ)
  | 0, pt, _ => pure (pt, newsz)
  | n + 1, pt, a => do
    let (pt, mapped) ← mapFilled pt a (fun _ _ => 0) (Perm.readUser.or xperm)
    if mapped then allocLoop oldsz newsz xperm n pt (a + pgSize)
    else do
      let (pt, _) ← uvmdealloc pt a oldsz
      pure (pt, 0)

/-- `uvmalloc`: the table and the new size, or 0. -/
def uvmalloc (pt : PageTable) (oldsz newsz : ℕ) (xperm : Perm) : VmM (PageTable × ℕ) :=
  if newsz < oldsz then pure (pt, oldsz)
  else
    allocLoop (pgRoundUp oldsz) newsz xperm ((newsz - pgRoundUp oldsz + (pgSize - 1)) / pgSize) pt
      (pgRoundUp oldsz)

/-- One level of `freewalk`. -/
def Dir.freewalk {α : Type} (free : α → VmM Unit) (d : Dir α) : VmM Unit := do
  forM (List.finRange 512) (d.freeEntry free)
  kfree d.page

/-- `freewalk` at a leaf entry: without `PTE_R`, `PTE_W` and `PTE_X` it would be taken for a
page-table page. -/
def freeLeaf (e : Pte) : VmM Unit :=
  if e.perm.r || e.perm.w || e.perm.x then throw .freewalkLeaf else throw .freewalkUser

def freewalk (pt : PageTable) : VmM Unit :=
  pt.freewalk fun d1 => d1.freewalk fun d0 => d0.freewalk freeLeaf

def uvmfree (pt : PageTable) (sz : ℕ) : VmM Unit := do
  let pt ← (if 0 < sz then uvmunmap pt 0 (pgRoundUp sz / pgSize) true else pure pt)
  freewalk pt

/-- The `err` exit of `uvmcopy`, at address `i`. -/
def uvmcopyErr (new : PageTable) (i : ℕ) : VmM (PageTable × Bool) := do
  let new ← uvmunmap new 0 (i / pgSize) true
  pure (new, false)

/-- The loop of `uvmcopy` from address `i` on, for the number of pages that is left. -/
def copyLoop (old : PageTable) : ℕ → PageTable → ℕ → VmM (PageTable × Bool)
  | 0, new, _ => pure (new, true)
  | n + 1, new, i => do
    let (_, found) ← walk old i false
    if found then
      match pteAt old i with
      | none => throw .uvmcopyPresent
      | some e => do
        let (new, mapped) ← mapFilled new i (fun mem o => mem (e.ppn * pgSize + o)) e.perm
        if mapped then copyLoop old n new (i + pgSize) else uvmcopyErr new i
    else throw .uvmcopyPte

/-- `uvmcopy`: the new table, and whether 0 was returned. -/
def uvmcopy (old new : PageTable) (sz : ℕ) : VmM (PageTable × Bool) :=
  copyLoop old ((sz + (pgSize - 1)) / pgSize) new 0

def uvmclear (pt : PageTable) (va : ℕ) : VmM PageTable := do
  let (pt, found) ← walk pt va false
  if found then
    pure (setPte pt va ((pteAt pt va).map fun e => { e with perm := { e.perm with u := false } }))
  else throw .uvmclear

/-- `initcode` of `kernel/proc.c`. -/
def initcode : List UInt8 :=
  [0x17, 0x05, 0x00, 0x00, 0x13, 0x05, 0x45, 0x02, 0x97, 0x05, 0x00, 0x00, 0x93, 0x85, 0x35, 0x02,
   0x93, 0x08, 0x70, 0x00, 0x73, 0x00, 0x00, 0x00, 0x93, 0x08, 0x20, 0x00, 0x73, 0x00, 0x00, 0x00,
   0xef, 0xf0, 0x9f, 0xff, 0x2f, 0x69, 0x6e, 0x69, 0x74, 0x00, 0x00, 0x24, 0x00, 0x00, 0x00, 0x00,
   0x00, 0x00, 0x00, 0x00]

/-- `uvmfirst` for `initcode`; a failed allocation is written through. -/
def uvmfirst (pt : PageTable) : VmM PageTable := do
  match ← kalloc with
  | none => throw .nullPage
  | some mem => do
    let (pt, _) ← mappages pt 0 pgSize mem ⟨true, true, true, true⟩
    modify fun km => { km with mem := fillPage mem (fun o => initcode.getD o 0) km.mem }
    pure pt

/-- `proc_pagetable`, for a process with trapframe page `tf`. -/
def procPagetable (tf : ℕ) : VmM (Option PageTable) := do
  match ← uvmcreate with
  | none => pure none
  | some pt => do
    let (pt, mapped) ←
      mappages pt trampoline pgSize KernelImage.trampolinePage ⟨true, false, true, false⟩
    if mapped then do
      let (pt, mapped) ← mappages pt trapframe pgSize tf ⟨true, true, false, false⟩
      if mapped then pure (some pt)
      else do
        let pt ← uvmunmap pt trampoline 1 false
        uvmfree pt 0
        pure none
    else do
      uvmfree pt 0
      pure none

def procFreepagetable (pt : PageTable) (sz : ℕ) : VmM Unit := do
  let pt ← uvmunmap pt trampoline 1 false
  let pt ← uvmunmap pt trapframe 1 false
  uvmfree pt sz

end Code

/-- `walkaddr`; `none` is the null pointer. -/
def walkaddr (pt : PageTable) (va : ℕ) : VmM (Option ℕ) :=
  if maxVA ≤ va then pure none
  else do
    let (_, found) ← walk pt va false
    if found then
      match pteAt pt va with
      | none => pure none
      | some e => if e.perm.u then pure (some e.ppn) else pure none
    else pure none

/-! ### Sizes and pages -/

/-- `PGROUNDUP(sz) / PGSIZE`: the pages of a process of `sz` bytes. -/
def npages (sz : ℕ) : ℕ := (sz + (pgSize - 1)) / pgSize

theorem npages_mul (k : ℕ) : npages (k * pgSize) = k := by
  unfold npages pgSize
  omega

theorem npages_mono {a b : ℕ} (h : a ≤ b) : npages a ≤ npages b :=
  Nat.div_le_div_right (Nat.add_le_add_right h _)

theorem le_npages_mul (sz : ℕ) : sz ≤ npages sz * pgSize := by
  unfold npages pgSize
  omega

theorem pgRoundUp_eq {sz : ℕ} (h : npages sz ≤ trapframeNo) :
    pgRoundUp sz = npages sz * pgSize := by
  rw [trapframeNo_eq] at h
  unfold pgRoundUp
  rw [mod_eq_of_lt]
  · rfl
  · unfold npages pgSize at *
    omega

theorem mul_sub_div_pgSize (a b : ℕ) : (a * pgSize - b * pgSize) / pgSize = a - b := by
  rw [← Nat.sub_mul, Nat.mul_div_cancel _ (by decide)]

theorem npages_add_alloc {oldsz newsz : ℕ} (h : oldsz ≤ newsz) :
    npages oldsz + (newsz - npages oldsz * pgSize + (pgSize - 1)) / pgSize = npages newsz := by
  unfold npages pgSize
  omega

/-! ### Address spaces -/

section Spec

variable [KernelImage]

/-- The two entries above the user memory: trampoline and trapframe, both without `PTE_U`. -/
def hiMap (tf : ℕ) : ℕ → Option Pte := fun k =>
  if k = trampolineNo then some ⟨KernelImage.trampolinePage, ⟨true, false, true, false⟩⟩
  else if k = trapframeNo then some ⟨tf, ⟨true, true, false, false⟩⟩
  else none

/-- **An address space of `n` pages**: the leaf entries `f` map the first `n` pages, all but the
guard page accessible to the user, the trapframe `tf` and the trampoline, and nothing else. -/
structure Space (f : ℕ → Option Pte) (n tf : ℕ) (guard : Option ℕ) : Prop where
  user : ∀ k < n, ∃ e, f k = some e ∧ e.perm.r = true ∧ (e.perm.u = true ↔ guard ≠ some k)
  rest : ∀ k, n ≤ k → f k = hiMap tf k
  bound : n ≤ trapframeNo

/-- Different pages that `kfree` accepts. -/
structure Fits (m : Multiset ℕ) : Prop where
  usable : ∀ x ∈ m, Usable x
  nodup : m.Nodup

theorem Fits.mono {m m' : Multiset ℕ} (h : Fits m) (hle : m' ≤ m) : Fits m' :=
  ⟨fun x hx => h.usable x (mem_of_le hle hx), nodup_of_le hle h.nodup⟩

theorem Fits.card_le {m : Multiset ℕ} (h : Fits m) : m.card ≤ physTop / pgSize :=
  Tally.card_le_of_nodup h.nodup fun x hx => (h.usable x hx).2

theorem Fits.card {m : Multiset ℕ} (h : Fits m) : m.card < trapframeNo := by
  refine h.card_le.trans_lt ?_
  rw [trapframeNo_eq]
  decide

variable {k tf n newsz oldsz sz : ℕ} {f : ℕ → Option Pte} {g : Option ℕ} {T : Multiset ℕ}
  {km : Kmem} {pt new : PageTable}

theorem hiMap_of_lt (h : k < trapframeNo) : hiMap tf k = none := by
  rw [hiMap, if_neg, if_neg]
  · exact h.ne
  · rw [trampolineNo_eq]
    rw [trapframeNo_eq] at h
    omega

section

variable (h : Space f n tf g)

include h

theorem Space.perm_ne_zero (hk : k < n) : ∃ e, f k = some e ∧ e.perm ≠ Perm.zero := by
  obtain ⟨e, he, hr, _⟩ := h.user k hk
  refine ⟨e, he, fun hz => ?_⟩
  rw [hz] at hr
  exact Bool.false_ne_true hr

theorem Space.next (hn : n < trapframeNo) : f n = none := by
  rw [h.rest n le_rfl, hiMap_of_lt hn]

theorem Space.le_card : n ≤ (pagesOf f).card := by
  have hsub : Finset.range n ⊆ Finset.range trapframeNo := Finset.range_mono h.bound
  have hone : ∀ k ∈ Finset.range n, 1 ≤ (ppnOf (f k)).card := by
    intro k hk
    obtain ⟨e, he, _⟩ := h.user k (Finset.mem_range.1 hk)
    rw [he]
    exact le_rfl
  unfold pagesOf
  rw [card_sum]
  calc n = ∑ _k ∈ Finset.range n, 1 := by simp
    _ ≤ ∑ k ∈ Finset.range n, (ppnOf (f k)).card := Finset.sum_le_sum hone
    _ ≤ ∑ k ∈ Finset.range trapframeNo, (ppnOf (f k)).card :=
        Finset.sum_le_sum_of_subset hsub

theorem Space.push {e : Pte} (hn : n < trapframeNo) (hr : e.perm.r = true)
    (hu : e.perm.u = true ↔ g ≠ some n) : Space (update f n (some e)) (n + 1) tf g where
  user k hk := by
    rcases Nat.lt_succ_iff_lt_or_eq.1 hk with hk | rfl
    · rw [update_of_ne hk.ne]
      exact h.user k hk
    · exact ⟨e, update_self .., hr, hu⟩
  rest k hk := by
    rw [update_of_ne (by omega)]
    exact h.rest k (by omega)
  bound := hn

theorem Space.clear {n' : ℕ} {g' : Option ℕ} (hn : n' ≤ n)
    (hg : ∀ k < n', g' = some k ↔ g = some k) : Space (clear f n' (n - n')) n' tf g' where
  user k hk := by
    obtain ⟨e, he, hr, hu⟩ := h.user k (by omega)
    refine ⟨e, ?_, hr, hu.trans (not_congr (hg k hk).symm)⟩
    rw [CsklubOs.clear, if_neg (by omega), he]
  rest k hk := by
    unfold CsklubOs.clear
    split
    · rw [hiMap_of_lt]
      have := h.bound
      omega
    · exact h.rest k (by omega)
  bound := hn.trans h.bound

end

/-! ### Shrinking and growing -/

/-- `uvmdealloc` removes the entries between the two sizes. -/
theorem wp_uvmdealloc_unmaps (hsp : Space (leaf pt) (npages oldsz) tf g)
    (husable : ∀ x ∈ pagesOf (leaf pt), Usable x) :
    wp (uvmdealloc pt oldsz newsz)
      (fun r km' => Unmapped km pt (npages newsz) (npages oldsz - npages newsz) km' r.1 ∧
        r.2 = min oldsz newsz) noPanic km := by
  have hbound := hsp.bound
  refine wp_ite (fun hle => ?_) fun hlt => ?_
  · rw [Nat.sub_eq_zero_of_le (npages_mono hle), Nat.min_eq_left hle]
    exact wp_pure.2 ⟨.refl, rfl⟩
  · rw [not_le] at hlt
    have hle := npages_mono hlt.le
    rw [pgRoundUp_eq hbound, pgRoundUp_eq (hle.trans hbound), mul_sub_div_pgSize,
      min_eq_right hlt.le]
    refine wp_ite (fun _ => wp_bind.2 ?_) fun hn => ?_
    · exact (wp_uvmunmap (by omega) (fun j hj => hsp.perm_ne_zero (by omega)) husable).mono
        fun pt' km' h => wp_pure.2 ⟨h, rfl⟩
    · rw [Nat.sub_eq_zero_of_le (Nat.le_of_mul_le_mul_right (Nat.not_lt.1 hn) (by decide))]
      exact wp_pure.2 ⟨.refl, rfl⟩

theorem wp_uvmdealloc (hsp : Space (leaf pt) (npages oldsz) tf g) (hT : km.free + ptPages pt = T)
    (hfit : Fits T) :
    wp (uvmdealloc pt oldsz newsz)
      (fun r km' => km'.free + ptPages r.1 = T ∧ r.2 = min oldsz newsz ∧
        Space (leaf r.1) (npages (min oldsz newsz)) tf
          (g.filter fun k => k < npages (min oldsz newsz))) noPanic km := by
  refine (wp_uvmdealloc_unmaps hsp fun x hx => hfit.usable x (mem_total_of_pagesOf hT hx)).mono ?_
  rintro ⟨pt', sz⟩ km' ⟨h, hsz⟩
  refine ⟨h.balance.trans hT, hsz, ?_⟩
  have hmin : leaf pt' = clear (leaf pt) (npages (min oldsz newsz))
      (npages oldsz - npages (min oldsz newsz)) := by
    rcases le_total oldsz newsz with hle | hle
    · rw [h.entries, Nat.min_eq_left hle, Nat.sub_eq_zero_of_le (npages_mono hle), Nat.sub_self,
        clear_zero, clear_zero]
    · rw [h.entries, min_eq_right hle]
  rw [hmin]
  refine hsp.clear (npages_mono (min_le_left ..)) fun k hk => ?_
  rw [filter_eq_some_iff]
  exact ⟨fun h => h.1, fun h => ⟨h, decide_eq_true hk⟩⟩

section

variable (hsp : Space (leaf pt) n tf g) (hT : km.free + ptPages pt = T)

include hsp hT

theorem Space.le_total : n ≤ T.card := by
  have hle := hsp.le_card
  rw [← hT, ptPages, card_add, card_add]
  omega

theorem Space.lt_trapframeNo (hfit : Fits T) : n < trapframeNo :=
  (hsp.le_total hT).trans_lt hfit.card

/-- Mapping a page just taken from the free list, next to the pages already mapped: either it is
mapped, or it is still in the hands of the caller. -/
theorem wp_mappages_next {km1 : Kmem} {mem : ℕ} {perm : Perm} (hfit : Fits T)
    (hmem : km.free = {mem} + km1.free) (hr : perm.r = true) (hu : perm.u = true ↔ g ≠ some n) :
    wp (mappages pt (n * pgSize) pgSize mem perm)
      (fun r km2 =>
        r.2 = true ∧ km2.free + ptPages r.1 = T ∧ Space (leaf r.1) (n + 1) tf g ∧
          km1.stock ≤ km2.stock + 2 ∨
        r.2 = false ∧ {mem} + km2.free + ptPages r.1 = T ∧ Space (leaf r.1) n tf g ∧ Usable mem ∧
          km1.stock < 2)
      noPanic km1 := by
  have hlt := hsp.lt_trapframeNo hT hfit
  refine (wp_mappages (lt_of_lt_trapframeNo hlt) (hsp.next hlt)).mono ?_
  rintro ⟨pt2, mapped⟩ km2 ⟨hgrown, hleaf, hle, hstock⟩
  have hpages := hgrown.pages
  cases mapped with
  | true =>
    left
    simp only [↓reduceIte] at hpages hleaf ⊢
    have hbal := pagesOf_update hlt (leaf pt) (some ⟨mem, perm⟩)
    rw [hsp.next hlt, ← hleaf, ppnOf, ppnOf, elim_none, add_zero, elim_some] at hbal
    refine ⟨trivial, ?_, ?_, hle⟩
    · calc km2.free + ptPages pt2
          = km2.free + tablePages pt2 + (pagesOf (leaf pt) + {mem}) := by
            rw [ptPages, hbal, add_assoc]
        _ = km1.free + tablePages pt + (pagesOf (leaf pt) + {mem}) := by rw [hpages]
        _ = T := by
            rw [← hT, hmem, ptPages]
            abel
    · rw [hleaf]
      exact hsp.push hlt hr hu
  | false =>
    right
    simp only [Bool.false_eq_true, ↓reduceIte] at hpages hleaf ⊢
    refine ⟨trivial, ?_, hleaf ▸ hsp, hfit.usable mem ?_, (hstock rfl).2⟩
    · calc {mem} + km2.free + ptPages pt2
          = {mem} + (km2.free + tablePages pt2) + pagesOf (leaf pt) := by
            rw [ptPages, hleaf]
            abel
        _ = {mem} + (km1.free + tablePages pt) + pagesOf (leaf pt) := by rw [hpages]
        _ = T := by
            rw [← hT, hmem, ptPages]
            abel
    · rw [← hT, hmem, add_assoc]
      exact mem_add.2 (.inl (mem_singleton_self _))

end

/-! ### The rounds of a loop -/

/-- **What some rounds have done**: the pages from `k0` to `k` are pages that were free, with given
permissions and bytes.  The other entries are as before, and so is memory except for the pages that
were free. -/
structure Filled (pt : PageTable) (km : Kmem) (perm : ℕ → Perm) (byte : ℕ → ℕ → UInt8) (k0 k : ℕ)
    (pt' : PageTable) (km' : Kmem) : Prop where
  balance : km'.free + ptPages pt' = km.free + ptPages pt
  free : ∀ x ∈ km'.free, x ∈ km.free
  page : ∀ j, k0 ≤ j → j < k → ∃ pg ∈ km.free, leaf pt' j = some ⟨pg, perm j⟩ ∧
    ∀ o < pgSize, km'.mem (pg * pgSize + o) = byte j o
  rest : ∀ j, ¬ (k0 ≤ j ∧ j < k) → leaf pt' j = leaf pt j
  mem : ∀ a, a / pgSize ∉ km.free → km'.mem a = km.mem a

/-- What `n` rounds have allocated: a page each, and page-table pages. -/
def Spent (pt : PageTable) (km : Kmem) (n : ℕ) (pt' : PageTable) (km' : Kmem) : Prop :=
  ∃ t ≤ 2 * n, (tablePages pt').card = (tablePages pt).card + t ∧ km.stock = km'.stock + n + t

/-- **Nothing was left to allocate**: all that `kalloc` had has become page-table pages and, for a
time, at most `n` other pages. -/
def RanOut (pt : PageTable) (km : Kmem) (n : ℕ) (pt' : PageTable) : Prop :=
  ∃ d ≤ n, ∃ t ≤ 2 * n, (tablePages pt').card = (tablePages pt).card + t ∧ km.stock = d + t

section Rounds

variable {pt' pt'' : PageTable} {km' km'' : Kmem} {perm : ℕ → Perm} {byte : ℕ → ℕ → UInt8}
  {k0 pg : ℕ} {g0 : Option ℕ}

section

omit [KernelImage]

theorem RanOut.mono {n' : ℕ} (h : RanOut pt km n pt') (hn : n ≤ n') : RanOut pt km n' pt' := by
  obtain ⟨d, hd, t, ht, h⟩ := h
  exact ⟨d, hd.trans hn, t, by omega, h⟩

theorem Filled.refl : Filled pt km perm byte k k pt km :=
  ⟨rfl, fun _ hx => hx, fun _ hj hj' => absurd hj' (not_lt.2 hj), fun _ _ => rfl, fun _ _ => rfl⟩

theorem Spent.refl : Spent pt km (k - k) pt km := by
  rw [Nat.sub_self]
  exact ⟨0, le_rfl, rfl, rfl⟩

theorem notMem_free_of_leaf {e : Pte} (hnd : (km.free + ptPages pt).Nodup) (hk : k < trapframeNo)
    (he : leaf pt k = some e) : e.ppn ∉ km.free := by
  have hmem : e.ppn ∈ ptPages pt := mem_add.2 (.inr (mem_pagesOf hk he))
  exact fun hf => disjoint_left.1 (nodup_add.1 hnd).2.2 hf hmem

section

variable (h : Filled pt km perm byte k0 k pt' km') (hnd : (km.free + ptPages pt).Nodup)

include h hnd

theorem Filled.keeps (hk : k ≤ trapframeNo)
    (hmem : ∀ a, a / pgSize ∉ km'.free → km''.mem a = km'.mem a) {j : ℕ} (hj : k0 ≤ j)
    (hjk : j < k) : ∃ pg ∈ km.free, leaf pt' j = some ⟨pg, perm j⟩ ∧
      ∀ o < pgSize, km''.mem (pg * pgSize + o) = byte j o := by
  obtain ⟨pg, hpg, hleaf, hbyte⟩ := h.page j hj hjk
  have hnot := notMem_free_of_leaf (h.balance ▸ hnd) (hjk.trans_le hk) hleaf
  exact ⟨pg, hpg, hleaf, fun o ho => (hmem _ (by rwa [add_div_pgSize ho])).trans (hbyte o ho)⟩

theorem Filled.same (hk : k ≤ trapframeNo) (hbal : km''.free + ptPages pt'' = km.free + ptPages pt)
    (hfree : km''.free ≤ km'.free) (hleaf : leaf pt'' = leaf pt')
    (hmem : ∀ a, a / pgSize ∉ km'.free → km''.mem a = km'.mem a) :
    Filled pt km perm byte k0 k pt'' km'' where
  balance := hbal
  free x hx := h.free x (mem_of_le hfree hx)
  page _ hj hjk := hleaf ▸ h.keeps hnd hk hmem hj hjk
  rest j hj := hleaf ▸ h.rest j hj
  mem a ha := (hmem a fun hf => ha (h.free _ hf)).trans (h.mem a ha)

theorem Filled.push (hk0 : k0 ≤ k) (hk : k ≤ trapframeNo)
    (hbal : km''.free + ptPages pt'' = km.free + ptPages pt) (hfree : km''.free ≤ km'.free)
    (hpg : pg ∈ km'.free) (hleaf : leaf pt'' = update (leaf pt') k (some ⟨pg, perm k⟩))
    (hbyte : ∀ o < pgSize, km''.mem (pg * pgSize + o) = byte k o)
    (hmem : ∀ a, a / pgSize ∉ km'.free → km''.mem a = km'.mem a) :
    Filled pt km perm byte k0 (k + 1) pt'' km'' where
  balance := hbal
  free x hx := h.free x (mem_of_le hfree hx)
  page j hj hjk := by
    rw [hleaf]
    rcases Nat.lt_succ_iff_lt_or_eq.1 hjk with hlt | rfl
    · rw [update_of_ne hlt.ne]
      exact h.keeps hnd hk hmem hj hlt
    · exact ⟨pg, h.free pg hpg, update_self .., hbyte⟩
  rest j hj := by
    rw [hleaf, update_of_ne (by omega)]
    exact h.rest j (by omega)
  mem a ha := (hmem a fun hf => ha (h.free _ hf)).trans (h.mem a ha)

end

theorem Filled.tablePages_balance (h : Filled pt km perm byte k0 k pt' km')
    (hleaf : leaf pt' = leaf pt) : km'.free + tablePages pt' = km.free + tablePages pt := by
  have hbal := h.balance
  rw [ptPages, ptPages, hleaf, ← add_assoc, ← add_assoc] at hbal
  exact add_right_cancel hbal

end

/-- Giving back the pages of all rounds. -/
theorem Filled.undo (h : Filled pt km perm byte k0 k pt' km') (hnd : (km.free + ptPages pt).Nodup)
    (hk : k ≤ trapframeNo) (hsp : Space (leaf pt) k0 tf g0)
    (hun : Unmapped km' pt' k0 (k - k0) km'' pt'') : Filled pt km perm byte k0 k0 pt'' km'' := by
  have hbal := hun.balance.trans h.balance
  -- a page that is free now was free, or was taken by one of the rounds
  have hfree : ∀ x ∈ km''.free, x ∈ km.free := by
    intro x hx
    rcases mem_add.1 (hun.pages ▸ mem_add.2 (.inl hx)) with hf | hp
    · exact h.free x hf
    · obtain ⟨j, hj, e, he, rfl⟩ := exists_of_mem_pagesOf hp
      by_cases hr : k0 ≤ j ∧ j < k
      · obtain ⟨pg, hpg, hl, -⟩ := h.page j hr.1 hr.2
        cases he.symm.trans hl
        exact hpg
      · have he' : leaf pt'' j = some e := by rw [hun.entries, clear, if_neg (by omega), he]
        exact absurd hx (notMem_free_of_leaf (hbal ▸ hnd) hj he')
  refine ⟨hbal, hfree, fun j hj hj' => absurd hj' (not_lt.2 hj), fun j _ => ?_, fun a ha => ?_⟩
  · rw [hun.entries, clear]
    split
    · rw [hsp.rest j (by omega), hiMap_of_lt (by omega)]
    · exact h.rest j (by omega)
  · exact (hun.mem a fun hf => ha (hfree _ hf)).trans (h.mem a ha)

/-- **One round** fills a page and maps it, or there was no page left. -/
theorem wp_mapFilled {src : (ℕ → UInt8) → ℕ → UInt8} (h : Filled pt km perm byte k0 k pt' km')
    (hst : Spent pt km (k - k0) pt' km') (hfit : Fits (km.free + ptPages pt)) (hk0 : k0 ≤ k)
    (hsp : Space (leaf pt') k tf g) (hr : (perm k).r = true) (hu : (perm k).u = true ↔ g ≠ some k)
    (hsrc : ∀ mem : ℕ → UInt8, (∀ a, a / pgSize ∉ km.free → mem a = km.mem a) →
      ∀ o < pgSize, src mem o = byte k o) :
    wp (mapFilled pt' (k * pgSize) src (perm k))
      (fun r km'' => Space (leaf r.1) (if r.2 then k + 1 else k) tf g ∧
        Filled pt km perm byte k0 (if r.2 then k + 1 else k) r.1 km'' ∧
        if r.2 then Spent pt km (k + 1 - k0) r.1 km'' else RanOut pt km (k + 1 - k0) r.1)
      noPanic km' := by
  have hlt := hsp.lt_trapframeNo h.balance hfit
  obtain ⟨t, ht, htab, hstock⟩ := hst
  rw [mapFilled, wp_bind]
  refine wp_kalloc (fun h0 => wp_pure.2 ⟨hsp, h, k - k0, by omega, t, by omega, htab, by omega⟩)
    fun pg km1 htk => ?_
  have hmem : pg ∈ km'.free :=
    htk.free ▸ mem_add.2 (.inl (mem_singleton_self _))
  have hs1 := htk.stock
  refine wp_bind.2 (wp_modify.2 (wp_bind.2 ?_))
  have hfree : km'.free =
      {pg} + ({ km1 with mem := fillPage pg (src km1.mem) km1.mem } : Kmem).free := htk.free
  refine ((wp_mappages_next hsp h.balance hfit hfree hr hu).and
    (wp_mappages (lt_of_lt_trapframeNo hlt) (hsp.next hlt))).mono ?_
  rintro ⟨pt'', mapped⟩ km2 ⟨hnext, hgrown, hleaf, hle2, hstock2⟩
  have hgs : km1.stock + (tablePages pt').card = km2.stock + (tablePages pt'').card := hgrown.stock
  have hcard : (tablePages pt').card ≤ (tablePages pt'').card := hgrown.card_le
  replace hle2 : km1.stock ≤ km2.stock + 2 := hle2
  have hle : km2.free ≤ km1.free := hgrown.free
  -- the page is overwritten twice, all others are not
  have hpage : ∀ a, a / pgSize ∉ km1.free → km2.mem a = fillPage pg (src km1.mem) km1.mem a :=
    hgrown.mem
  have hother : ∀ a, a / pgSize ∉ km'.free → km2.mem a = km'.mem a := fun a ha => by
    have hne : a / pgSize ≠ pg := fun heq => ha (heq ▸ hmem)
    have hnot : a / pgSize ∉ km1.free := fun hf =>
      ha (htk.free ▸ mem_add.2 (.inr hf))
    rw [hpage a hnot, fillPage_of_ne hne, htk.mem a hne]
  rcases hnext with ⟨(rfl : mapped = true), hbal, hsp2, -⟩ | ⟨(rfl : mapped = false), hbal, hsp2,
    hus, -⟩
  · have hnot : pg ∉ km1.free := by
      have hnd := (nodup_add.1 (h.balance ▸ hfit.nodup)).1
      rw [htk.free, singleton_add] at hnd
      exact (nodup_cons.1 hnd).1
    refine wp_pure.2 ⟨hsp2, h.push hfit.nodup hk0 hlt.le hbal
      (hle.trans (htk.free ▸ Multiset.le_add_left ..)) hmem hleaf (fun o ho => ?_) hother,
      t + ((tablePages pt'').card - (tablePages pt').card), by omega, ?_, by omega⟩
    · rw [hpage _ (by rwa [add_div_pgSize ho]), fillPage_add ho]
      refine hsrc _ (fun a ha => ?_) o ho
      rw [htk.mem a fun heq => ha (h.free _ (heq ▸ hmem)), h.mem a ha]
    · show (tablePages pt'').card = _
      omega
  · refine wp_bind.2 (wp_kfree hus fun km3 hkm3 => wp_pure.2 ⟨hsp2, ?_, ?_⟩)
    · have hle3 : km3.free ≤ km'.free := by
        rw [hkm3.free, htk.free, add_comm]
        exact add_le_add_right hle _
      refine h.same hfit.nodup hlt.le ?_ hle3 hleaf fun a ha => ?_
      · rw [hkm3.free, add_comm km2.free]
        exact hbal
      · exact (hkm3.mem a fun hf => ha (mem_of_le hle3 hf)).trans (hother a ha)
    · have h0 := (hstock2 rfl).1
      refine ⟨k - k0 + 1, by omega, t + ((tablePages pt'').card - (tablePages pt').card), by omega,
        ?_, by omega⟩
      show (tablePages pt'').card = _
      omega

theorem wp_allocLoop {xperm : Perm} (hsp0 : Space (leaf pt) k0 tf g) (hg : ∀ j, g = some j → j < k0)
    (hfit : Fits (km.free + ptPages pt))
    (h : Filled pt km (fun _ => Perm.readUser.or xperm) (fun _ _ => 0) k0 k pt' km')
    (hst : Spent pt km (k - k0) pt' km') (hk0 : k0 ≤ k) (hsp : Space (leaf pt') k tf g) :
    wp (allocLoop (k0 * pgSize) newsz xperm n pt' (k * pgSize))
      (fun r km'' => r.2 = newsz ∧ Space (leaf r.1) (k + n) tf g ∧
          Filled pt km (fun _ => Perm.readUser.or xperm) (fun _ _ => 0) k0 (k + n) r.1 km'' ∨
        r.2 = 0 ∧ Filled pt km (fun _ => Perm.readUser.or xperm) (fun _ _ => 0) k0 k0 r.1 km'' ∧
          RanOut pt km (k + n - k0) r.1)
      noPanic km' := by
  induction n generalizing k pt' km' with
  | zero => exact wp_pure.2 (.inl ⟨rfl, hsp, h⟩)
  | succ n ih =>
    rw [allocLoop, wp_bind]
    refine (wp_mapFilled h hst hfit hk0 hsp rfl ?_ fun _ _ _ _ => rfl).mono ?_
    · exact iff_of_true rfl fun hgk => absurd (hg k hgk) (not_lt.2 hk0)
    · rintro ⟨pt1, mapped⟩ km1 ⟨hsp1, h₁, hst1⟩
      cases mapped with
      | true =>
        rw [← succ_add_eq_add_succ]
        have hnext := ih (k := k + 1) h₁ hst1 (hk0.trans (le_succ k)) hsp1
        rwa [succ_mul] at hnext
      | false =>
        replace hsp1 : Space (leaf pt1) (npages (k * pgSize)) tf g := (npages_mul k).symm ▸ hsp1
        refine wp_bind.2 ((wp_uvmdealloc_unmaps hsp1 fun x hx => ?_).mono ?_)
        · exact hfit.usable x (mem_total_of_pagesOf h₁.balance hx)
        · rintro ⟨pt2, sz⟩ km2 ⟨hun, -⟩
          rw [npages_mul, npages_mul] at hun
          refine wp_pure.2 (.inr ⟨rfl, h₁.undo hfit.nodup hsp.bound hsp0 hun, ?_⟩)
          have hout : RanOut pt km (k + (n + 1) - k0) pt1 := RanOut.mono hst1 (by omega)
          rw [RanOut, ← hun.table] at hout
          exact hout

theorem wp_uvmalloc_filled {xperm : Perm} (hle : oldsz ≤ newsz)
    (hsp : Space (leaf pt) (npages oldsz) tf g) (hg : ∀ j, g = some j → j < npages oldsz)
    (hfit : Fits (km.free + ptPages pt)) :
    wp (uvmalloc pt oldsz newsz xperm)
      (fun r km' => ∃ k, Space (leaf r.1) k tf g ∧
        Filled pt km (fun _ => Perm.readUser.or xperm) (fun _ _ => 0) (npages oldsz) k r.1 km' ∧
        (r.2 = newsz ∧ k = npages newsz ∨
          r.2 = 0 ∧ k = npages oldsz ∧ RanOut pt km (npages newsz - npages oldsz) r.1))
      noPanic km := by
  rw [uvmalloc, if_neg (not_lt.2 hle), pgRoundUp_eq hsp.bound]
  refine (wp_allocLoop hsp hg hfit .refl .refl le_rfl hsp).mono ?_
  rintro r km' (⟨hr, hsp', h⟩ | ⟨hr, h, hout⟩)
  · exact ⟨_, hsp', h, .inl ⟨hr, npages_add_alloc hle⟩⟩
  · have hleaf : leaf r.1 = leaf pt := funext fun j => h.rest j (by omega)
    rw [npages_add_alloc hle] at hout
    exact ⟨_, hleaf ▸ hsp, h, .inr ⟨hr, rfl, hout⟩⟩

/-- **`uvmalloc`** grows the address space to the larger size, or fails and leaves it as it was. -/
theorem wp_uvmalloc {xperm : Perm} (hsp : Space (leaf pt) (npages oldsz) tf g)
    (hg : ∀ j, g = some j → j < npages oldsz) (hT : km.free + ptPages pt = T) (hfit : Fits T) :
    wp (uvmalloc pt oldsz newsz xperm)
      (fun r km' => km'.free + ptPages r.1 = T ∧
        (r.2 = max oldsz newsz ∧ Space (leaf r.1) (npages (max oldsz newsz)) tf g ∨
          r.2 = 0 ∧ Space (leaf r.1) (npages oldsz) tf g)) noPanic km := by
  subst hT
  by_cases hle : oldsz ≤ newsz
  · refine (wp_uvmalloc_filled hle hsp hg hfit).mono ?_
    rw [max_eq_right hle]
    rintro r km' ⟨k, hsp', h, ⟨hr, rfl⟩ | ⟨hr, rfl, -⟩⟩
    · exact ⟨h.balance, .inl ⟨hr, hsp'⟩⟩
    · exact ⟨h.balance, .inr ⟨hr, hsp'⟩⟩
  · rw [uvmalloc, if_pos (Nat.not_le.1 hle), wp_pure, Nat.max_eq_left (Nat.le_of_not_le hle)]
    exact ⟨rfl, .inl ⟨rfl, hsp⟩⟩

end Rounds

/-! ### Freeing -/

omit [KernelImage] in
theorem wp_freeEntries {α : Type} {free : α → VmM Unit} {w : α → Multiset ℕ} {d : Dir α}
    {l : List (Fin 512)} (hfree : ∀ i c, d.pte i = some c → ∀ km,
      wp (free c) (fun _ km' => km.Freed (w c) km') noPanic km) :
    wp (forM l (d.freeEntry free))
      (fun _ km' => km.Freed (l.map fun i => (d.pte i).elim 0 w).sum km') noPanic km := by
  refine wp_forM (I := fun l' km' => ∃ P, km.Freed P km' ∧
    P + (l'.map fun i => (d.pte i).elim 0 w).sum = (l.map fun i => (d.pte i).elim 0 w).sum)
    ⟨0, .refl km, zero_add _⟩ ?_ ?_
  · rintro i l' km1 ⟨P, hP, hsum⟩
    rw [List.map_cons, List.sum_cons] at hsum
    unfold Dir.freeEntry
    cases h : d.pte i with
    | none =>
      rw [h, elim_none, zero_add] at hsum
      exact wp_pure.2 ⟨P, hP, hsum⟩
    | some c =>
      rw [h, ← add_assoc] at hsum
      exact (hfree i c h km1).mono fun _ km2 hkm2 => ⟨_, hP.trans hkm2, hsum⟩
  · rintro km1 ⟨P, hP, hsum⟩
    rw [List.map_nil, List.sum_nil, add_zero] at hsum
    exact hsum ▸ hP

theorem wp_dirFreewalk {α : Type} {free : α → VmM Unit} {w : α → Multiset ℕ} {d : Dir α}
    (hpage : Usable d.page) (hfree : ∀ i c, d.pte i = some c → ∀ km,
      wp (free c) (fun _ km' => km.Freed (w c) km') noPanic km) :
    wp (d.freewalk free) (fun _ km' => km.Freed ({d.page} + d.entries w) km') noPanic km := by
  rw [Dir.freewalk, wp_bind]
  refine (wp_freeEntries hfree).mono fun _ km1 hkm1 => wp_kfree hpage fun km2 hkm2 => ?_
  rw [Dir.entries_eq_sum] at hkm1
  rw [add_comm]
  exact hkm1.trans hkm2

omit [KernelImage] in
theorem px_index (i j k : Fin 512) :
    px 2 ((i.val * 262144 + j.val * 512 + k.val) * pgSize) = i ∧
      px 1 ((i.val * 262144 + j.val * 512 + k.val) * pgSize) = j ∧
      px 0 ((i.val * 262144 + j.val * 512 + k.val) * pgSize) = k := by
  simp only [px, pgSize, Fin.ext_iff]
  omega

omit [KernelImage] in
theorem pte_eq_none_of_leaf {d1 : Dir (Dir Pte)} {d0 : Dir Pte} {i j : Fin 512}
    (hleaf : ∀ k, leaf pt k = none) (h1 : pt.pte i = some d1) (h0 : d1.pte j = some d0)
    (k : Fin 512) : d0.pte k = none := by
  obtain ⟨e2, e1, e0⟩ := px_index i j k
  have h := hleaf (i.val * 262144 + j.val * 512 + k.val)
  rw [leaf, if_pos (by omega), pteAt, e2, e1, e0, h1, bind_some, h0] at h
  exact h

theorem wp_freewalk (hleaf : ∀ k, leaf pt k = none) (husable : ∀ x ∈ tablePages pt, Usable x) :
    wp (freewalk pt) (fun _ km' => km.Freed (tablePages pt) km') noPanic km := by
  unfold tablePages at husable ⊢
  have htop : Usable pt.page :=
    husable _ (mem_add.2 (.inl (mem_singleton_self _)))
  refine wp_dirFreewalk htop fun i d1 h1 km1 => ?_
  have hmid : ∀ x ∈ ({d1.page} + d1.entries fun d0 => ({d0.page} : Multiset ℕ) : Multiset ℕ),
      Usable x := fun x hx => husable x (mem_add.2 (.inr (Dir.mem_entries h1 hx)))
  refine wp_dirFreewalk (hmid _ (mem_add.2 (.inl (mem_singleton_self _))))
    fun j d0 h0 km2 => ?_
  have hlow : Usable d0.page :=
    hmid _ (mem_add.2 (.inr (Dir.mem_entries h0 (mem_singleton_self _))))
  refine (wp_dirFreewalk (w := fun _ => 0) hlow fun k e he => ?_).mono fun _ km3 hkm3 => ?_
  · rw [pte_eq_none_of_leaf hleaf h1 h0 k] at he
    cases he
  · rwa [Dir.entries_eq_zero (pte_eq_none_of_leaf hleaf h1 h0), add_zero] at hkm3

omit [KernelImage] in
theorem pagesOf_eq_zero (h : ∀ k, f k = none) : pagesOf f = 0 := by
  unfold pagesOf
  exact Finset.sum_eq_zero fun k _ => by rw [h k]; rfl

/-- **`uvmfree`** gives back all pages of a table whose leaf entries are those of `sz` bytes. -/
theorem wp_uvmfree (hn : npages sz ≤ trapframeNo)
    (huser : ∀ k < npages sz, ∃ e, leaf pt k = some e ∧ e.perm ≠ Perm.zero)
    (hrest : ∀ k, npages sz ≤ k → leaf pt k = none) (hfit : Fits (km.free + ptPages pt)) :
    wp (uvmfree pt sz) (fun _ km' => km.Freed (ptPages pt) km') noPanic km := by
  have hpages : ∀ x ∈ ptPages pt, Usable x := fun x hx =>
    hfit.usable x (mem_add.2 (.inr hx))
  have hleafU : ∀ x ∈ pagesOf (leaf pt), Usable x := fun x hx =>
    hpages x (mem_add.2 (.inr hx))
  have htabU : ∀ x ∈ tablePages pt, Usable x := fun x hx =>
    hpages x (mem_add.2 (.inl hx))
  rw [uvmfree, wp_bind]
  refine wp_ite (fun _ => ?_) fun hsz => ?_
  · rw [pgRoundUp_eq hn, Nat.mul_div_cancel _ (by decide)]
    have hunmap : wp (uvmunmap pt (0 * pgSize) (npages sz) true) _ noPanic km :=
      wp_uvmunmap (by omega) (fun j hj => by rw [zero_add]; exact huser j hj) hleafU
    refine hunmap.mono ?_
    rintro pt' km1 h
    have hnone : ∀ k, leaf pt' k = none := by
      intro k
      rw [h.entries, clear]
      split
      · rfl
      · exact hrest k (by omega)
    have hfreed : km.Freed (pagesOf (leaf pt)) km1 := by
      refine ⟨?_, h.mem⟩
      rw [← h.pages, pagesOf_eq_zero hnone, add_zero]
    refine (wp_freewalk hnone (h.table ▸ htabU)).mono fun _ km2 hkm2 => ?_
    rw [ptPages, add_comm, ← h.table]
    exact hfreed.trans hkm2
  · have hzero : sz = 0 := by omega
    have hnone : ∀ k, leaf pt k = none := fun k => hrest k (by rw [hzero]; exact zero_le k)
    refine wp_pure.2 ((wp_freewalk hnone htabU).mono fun _ km2 hkm2 => ?_)
    rwa [ptPages, pagesOf_eq_zero hnone, add_zero]

section

omit [KernelImage]

theorem trampoline_eq : trampoline = trampolineNo * pgSize := by
  rw [trampolineNo_eq]
  rfl

theorem trapframe_eq : trapframe = trapframeNo * pgSize := by
  rw [trapframeNo_eq]
  rfl

theorem trapframeNo_lt : trapframeNo < trampolineNo := by
  rw [trapframeNo_eq, trampolineNo_eq]
  omega

end

theorem hiMap_trampoline (tf : ℕ) : hiMap tf trampolineNo =
    some ⟨KernelImage.trampolinePage, ⟨true, false, true, false⟩⟩ := if_pos rfl

theorem hiMap_trapframe (tf : ℕ) :
    hiMap tf trapframeNo = some ⟨tf, ⟨true, true, false, false⟩⟩ := by
  rw [hiMap, if_neg trapframeNo_lt.ne, if_pos rfl]

theorem wp_procFreepagetable (hsp : Space (leaf pt) (npages sz) tf g)
    (hfit : Fits (km.free + ptPages pt)) :
    wp (procFreepagetable pt sz) (fun _ km' => km.Freed (ptPages pt) km') noPanic km := by
  have hlt := trapframeNo_lt
  have hbound := hsp.bound
  rw [procFreepagetable, trampoline_eq, trapframe_eq, wp_bind]
  refine wp_uvmunmap_keep (by rw [trampolineNo_eq]; omega)
    ((hsp.rest _ (by omega)).trans (hiMap_trampoline tf)) (fun h => by cases h)
    fun pt1 hleaf1 htab1 => wp_bind.2 ?_
  refine wp_uvmunmap_keep (by rw [trapframeNo_eq]; omega)
    (by rw [hleaf1, update_of_ne hlt.ne]
        exact (hsp.rest _ hbound).trans (hiMap_trapframe tf)) (fun h => by cases h)
    fun pt2 hleaf2 htab2 => ?_
  -- what is left are the user pages
  have hpages : ptPages pt2 = ptPages pt := by
    rw [ptPages, ptPages, htab2, htab1, hleaf2, pagesOf_update_of_le le_rfl, hleaf1,
      pagesOf_update_of_le hlt.le]
  rw [← hpages] at hfit ⊢
  refine wp_uvmfree hbound (fun k hk => ?_) (fun k hk => ?_) hfit
  · rw [hleaf2, update_of_ne (by omega), hleaf1, update_of_ne (by omega)]
    exact hsp.perm_ne_zero hk
  · rw [hleaf2]
    by_cases h2 : k = trapframeNo
    · rw [h2, update_self]
    · rw [update_of_ne h2, hleaf1]
      by_cases h₁ : k = trampolineNo
      · rw [h₁, update_self]
      · rw [update_of_ne h₁, hsp.rest k hk, hiMap, if_neg h₁, if_neg h2]

/-! ### Copying -/

/-- The permissions that a page of the child gets. -/
def permOf (old : PageTable) (k : ℕ) : Perm := (leaf old k).elim Perm.zero Pte.perm

/-- The bytes that a page of the child gets. -/
def byteOf (old : PageTable) (mem : ℕ → UInt8) (k o : ℕ) : UInt8 :=
  mem ((leaf old k).elim 0 Pte.ppn * pgSize + o)

section Copy

variable {old new' : PageTable} {tf0 : ℕ} {km' : Kmem}

theorem wp_copyLoop (hold : Space (leaf old) (k + n) tf0 g) (hsp0 : Space (leaf new) 0 tf none)
    (hfit : Fits (km.free + ptPages new))
    (hapart : ∀ j < k + n, ∀ e, leaf old j = some e → e.ppn ∉ km.free)
    (h : Filled new km (permOf old) (byteOf old km.mem) 0 k new' km')
    (hst : Spent new km k new' km') (hsp : Space (leaf new') k tf g) :
    wp (copyLoop old n new' (k * pgSize))
      (fun r km'' => Filled new km (permOf old) (byteOf old km.mem) 0 (if r.2 then k + n else 0) r.1
      km'' ∧
        if r.2 then Space (leaf r.1) (k + n) tf g else RanOut new km (k + n) r.1)
      noPanic km' := by
  induction n generalizing k new' km' with
  | zero => exact wp_pure.2 ⟨h, hsp⟩
  | succ n ih =>
    have hlt := hsp.lt_trapframeNo h.balance hfit
    obtain ⟨e, he, hr, hu⟩ := hold.user k (by omega)
    have hpte : pteAt old (k * pgSize) = some e := by
      rw [pteAt_eq_leaf (lt_of_lt_trapframeNo hlt), he]
    have hperm : permOf old k = e.perm := by rw [permOf, he, elim_some]
    rw [copyLoop, wp_bind]
    refine wp_walk_find (mul_pgSize_lt (lt_of_lt_trapframeNo hlt)) (hasPath_of_pteAt hpte) ?_
    simp only [↓reduceIte, hpte, ← hperm]
    rw [wp_bind]
    refine (wp_mapFilled h hst hfit (zero_le k) hsp (hperm ▸ hr) (hperm ▸ hu)
      fun mem hmem o ho => ?_).mono ?_
    · rw [byteOf, he]
      exact hmem _ (by rw [add_div_pgSize ho]; exact hapart k (by omega) e he)
    · rintro ⟨new1, mapped⟩ km1 ⟨hsp1, h₁, hst1⟩
      cases mapped with
      | true =>
        rw [← succ_add_eq_add_succ] at hold hapart ⊢
        have hnext := ih (k := k + 1) hold hapart h₁ hst1 hsp1
        rwa [succ_mul] at hnext
      | false =>
        simp only [Bool.false_eq_true, ↓reduceIte] at hsp1 h₁ hst1 ⊢
        rw [uvmcopyErr, Nat.mul_div_cancel _ (by decide), wp_bind]
        have hunmap : wp (uvmunmap new1 (0 * pgSize) k true) _ noPanic km1 :=
          wp_uvmunmap (by omega) (fun j hj => hsp1.perm_ne_zero (by omega))
            fun x hx => hfit.usable x (mem_total_of_pagesOf h₁.balance hx)
        refine hunmap.mono fun new2 km2 hun => wp_pure.2 ⟨h₁.undo hfit.nodup hlt.le hsp0 hun, ?_⟩
        have hout : RanOut new km (k + (n + 1)) new1 := RanOut.mono hst1 (by omega)
        rw [RanOut, ← hun.table] at hout
        exact hout

theorem wp_uvmcopy_filled (hold : Space (leaf old) (npages sz) tf0 g)
    (hsp : Space (leaf new) 0 tf none) (hfit : Fits (km.free + ptPages new))
    (hapart : ∀ j < npages sz, ∀ e, leaf old j = some e → e.ppn ∉ km.free) :
    wp (uvmcopy old new sz)
      (fun r km' =>
        Filled new km (permOf old) (byteOf old km.mem) 0 (if r.2 then npages sz else 0) r.1 km' ∧
        if r.2 then Space (leaf r.1) (npages sz) tf g else RanOut new km (npages sz) r.1)
      noPanic km := by
  have hsp' : Space (leaf new) 0 tf g :=
    ⟨fun k hk => absurd hk (not_lt_zero k), hsp.rest, hsp.bound⟩
  rw [← zero_add (npages sz)] at hold hapart ⊢
  have h := wp_copyLoop hold hsp hfit hapart .refl ⟨0, le_rfl, rfl, rfl⟩ hsp'
  rwa [zero_mul] at h

/-- **`uvmcopy`** makes a copy of the address space, or fails and leaves the new one empty. -/
theorem wp_uvmcopy (hold : Space (leaf old) (npages sz) tf0 g) (hsp : Space (leaf new) 0 tf none)
    (hT : km.free + ptPages new = T) (hfit : Fits T)
    (hapart : ∀ j < npages sz, ∀ e, leaf old j = some e → e.ppn ∉ km.free) :
    wp (uvmcopy old new sz)
      (fun r km' => km'.free + ptPages r.1 = T ∧
        (r.2 = true ∧ Space (leaf r.1) (npages sz) tf g ∨
          r.2 = false ∧ Space (leaf r.1) 0 tf none)) noPanic km := by
  subst hT
  refine (wp_uvmcopy_filled hold hsp hfit hapart).mono ?_
  rintro ⟨new', copied⟩ km' ⟨h, hres⟩
  refine ⟨h.balance, ?_⟩
  cases copied with
  | true => exact .inl ⟨rfl, hres⟩
  | false =>
    have hleaf : leaf new' = leaf new := funext fun j => h.rest j (by simp)
    exact .inr ⟨rfl, hleaf ▸ hsp⟩

end Copy

theorem wp_uvmclear {Q : PageTable → Kmem → Prop} {E : VmPanic → Prop}
    (hsp : Space (leaf pt) n tf none) (hk : k < n)
    (hQ : ∀ pt', (∀ j e, leaf pt j = some e → ∃ e', leaf pt' j = some e' ∧ e'.ppn = e.ppn) →
      ptPages pt' = ptPages pt → Space (leaf pt') n tf (some k) → Q pt' km) :
    wp (uvmclear pt (k * pgSize)) Q E km := by
  have hbound := hsp.bound
  have hlt : k < trapframeNo := by omega
  obtain ⟨e, he, hr, hu⟩ := hsp.user k hk
  have hpte : pteAt pt (k * pgSize) = some e := by
    rw [pteAt_eq_leaf (lt_of_lt_trapframeNo hlt), he]
  have hpath := hasPath_of_pteAt hpte
  have hleaf := leaf_setPte (e := some { e with perm := { e.perm with u := false } })
    (lt_of_lt_of_le (lt_of_lt_trapframeNo hlt) (by decide)) hpath
  rw [uvmclear, wp_bind]
  refine wp_walk_find (mul_pgSize_lt (lt_of_lt_trapframeNo hlt)) hpath ?_
  simp only [↓reduceIte, hpte, map_some, wp_pure]
  refine hQ _ (fun j e' he' => ?_) ?_ ⟨fun j hj => ?_, fun j hj => ?_, hbound⟩
  · rw [hleaf, update_apply]
    split
    · rename_i hjk
      cases he.symm.trans (hjk ▸ he')
      exact ⟨_, rfl, rfl⟩
    · exact ⟨e', he', rfl⟩
  · have hbal := pagesOf_update hlt (leaf pt)
      (some { e with perm := { e.perm with u := false } })
    rw [he] at hbal
    rw [ptPages, ptPages, tablePages_setPte, hleaf, add_right_cancel hbal]
  · rw [hleaf]
    by_cases hjk : j = k
    · subst hjk
      rw [update_self]
      exact ⟨_, rfl, hr, iff_of_false Bool.false_ne_true fun h => h rfl⟩
    · rw [update_of_ne hjk]
      obtain ⟨e', he', hr', hu'⟩ := hsp.user j hj
      refine ⟨e', he', hr', hu'.trans (iff_of_true (fun h => by cases h) fun h => ?_)⟩
      exact hjk (Option.some.inj h).symm
  · rw [hleaf, update_of_ne (by omega)]
    exact hsp.rest j hj

/-! ### New address spaces -/

omit [KernelImage] in
theorem leaf_zero (pg k : ℕ) : leaf (Dir.zero pg) k = none := by
  unfold leaf
  split
  · rfl
  · rfl

omit [KernelImage] in
theorem ptPages_zero (pg : ℕ) : ptPages (Dir.zero pg) = {pg} := by
  rw [ptPages, tablePages, Dir.entries_eq_zero fun _ => rfl, pagesOf_eq_zero (leaf_zero pg),
    add_zero, add_zero, Dir.zero]

theorem wp_uvmfree_empty (hleaf : ∀ k, leaf pt k = none) (hT : km.free + ptPages pt = T)
    (hfit : Fits T) : wp (uvmfree pt 0) (fun _ km' => km'.free = T) noPanic km := by
  subst hT
  have hnone : ∀ k < npages 0, ∃ e, leaf pt k = some e ∧ e.perm ≠ Perm.zero :=
    fun k hk => absurd hk (not_lt_zero k)
  exact (wp_uvmfree (Nat.zero_le _) hnone (fun k _ => hleaf k) hfit).mono fun _ _ h => h.free

/-- **`proc_pagetable`** makes an empty address space, or fails and gives everything back; it does
not fail while five pages can be allocated. -/
theorem wp_procPagetable (hfit : Fits km.free) :
    wp (procPagetable tf)
      (fun r km' => (r = none ∧ km'.free = km.free ∧ km.stock < 5) ∨
        ∃ pt, r = some pt ∧ km'.free + ptPages pt = km.free ∧ Space (leaf pt) 0 tf none ∧
          km.stock ≤ km'.stock + 5) noPanic km := by
  have hne := trapframeNo_lt.ne
  rw [procPagetable, wp_bind, uvmcreate, wp_bind, trampoline_eq, trapframe_eq]
  refine wp_kalloc (fun hs => wp_pure.2 (wp_pure.2 (.inl ⟨rfl, rfl, by omega⟩)))
    fun pg km1 ht => wp_pure.2 (wp_bind.2 ?_)
  have hs1 := ht.stock
  have hT1 : km1.free + ptPages (Dir.zero pg) = km.free := by
    rw [ptPages_zero, ht.free, add_comm]
  refine (wp_mappages (by rw [trampolineNo_eq]; omega) (leaf_zero pg _)).mono ?_
  rintro ⟨pt2, mapped⟩ km2 ⟨hgrown2, hleaf2, hstock2, hok2⟩
  have hpages2 := hgrown2.pages
  -- the entries above the user memory do not count
  have hT2 : pagesOf (leaf pt2) = 0 → km2.free + ptPages pt2 = km.free := by
    intro hzero
    rw [← hT1, ptPages, ptPages, pagesOf_eq_zero (leaf_zero pg), hzero, add_zero, add_zero]
    exact hpages2
  cases mapped with
  | false =>
    simp only [Bool.false_eq_true, ↓reduceIte, forall_const] at hleaf2 hok2 ⊢
    have hnone : ∀ k, leaf pt2 k = none := fun k => by rw [hleaf2, leaf_zero]
    refine wp_bind.2 ((wp_uvmfree_empty hnone (hT2 (pagesOf_eq_zero hnone)) hfit).mono ?_)
    exact fun _ km' hkm' => wp_pure.2 (.inl ⟨rfl, hkm', by omega⟩)
  | true =>
    simp only [↓reduceIte] at hleaf2 hpages2 hstock2 ⊢
    have hzero2 : pagesOf (leaf pt2) = 0 := by
      rw [hleaf2, pagesOf_update_of_le trapframeNo_lt.le, pagesOf_eq_zero (leaf_zero pg)]
    have hnone2 : ∀ k, k ≠ trampolineNo → leaf pt2 k = none := fun k hk => by
      rw [hleaf2, update_of_ne hk, leaf_zero]
    refine wp_bind.2 ((wp_mappages (by rw [trapframeNo_eq]; omega) (hnone2 _ hne)).mono ?_)
    rintro ⟨pt3, mapped⟩ km3 ⟨hgrown3, hleaf3, hstock3, hok3⟩
    have hpages3 := hgrown3.pages
    have hT3 : pagesOf (leaf pt3) = 0 → km3.free + ptPages pt3 = km.free := by
      intro hzero
      rw [← hT2 hzero2, ptPages, ptPages, hzero2, hzero, add_zero, add_zero]
      exact hpages3
    cases mapped with
    | true =>
      simp only [↓reduceIte] at hleaf3 hstock3 ⊢
      refine wp_pure.2 (.inr ⟨pt3, rfl, hT3 ?_, ⟨fun k hk => absurd hk (not_lt_zero k),
        fun k _ => ?_, zero_le _⟩, by omega⟩)
      · rw [hleaf3, pagesOf_update_of_le le_rfl, hzero2]
      · rw [hleaf3, hiMap]
        by_cases htf : k = trapframeNo
        · rw [htf, update_self, if_neg hne, if_pos rfl]
        · rw [update_of_ne htf, if_neg htf]
          by_cases htr : k = trampolineNo
          · rw [htr, if_pos rfl, hleaf2, update_self]
          · rw [if_neg htr, hnone2 k htr]
    | false =>
      simp only [Bool.false_eq_true, ↓reduceIte, forall_const] at hleaf3 hok3 ⊢
      have htr : leaf pt3 trampolineNo =
          some ⟨KernelImage.trampolinePage, ⟨true, false, true, false⟩⟩ := by
        rw [hleaf3, hleaf2, update_self]
      refine wp_bind.2 (wp_uvmunmap_keep (by rw [trampolineNo_eq]; omega) htr
        (fun h => by cases h) fun pt4 hleaf4 htab4 => ?_)
      have hnone4 : ∀ k, leaf pt4 k = none := by
        intro k
        rw [hleaf4]
        by_cases hk : k = trampolineNo
        · rw [hk, update_self]
        · rw [update_of_ne hk, hleaf3, hnone2 k hk]
      have hT4 : km3.free + ptPages pt4 = km.free := by
        rw [← hT3 (by rw [hleaf3, hzero2]), ptPages, ptPages, htab4, pagesOf_eq_zero hnone4,
          hleaf3, hzero2]
      refine wp_bind.2 ((wp_uvmfree_empty hnone4 hT4 hfit).mono ?_)
      exact fun _ km' hkm' => wp_pure.2 (.inl ⟨rfl, hkm', by omega⟩)

theorem wp_uvmfirst (hsp : Space (leaf pt) 0 tf none) (hT : km.free + ptPages pt = T)
    (hfit : Fits T) (hstock : 3 ≤ km.stock) :
    wp (uvmfirst pt)
      (fun pt' km' => km'.free + ptPages pt' = T ∧ Space (leaf pt') 1 tf none ∧
        km.stock ≤ km'.stock + 3) noPanic km := by
  rw [uvmfirst, wp_bind]
  refine wp_kalloc (fun hs => absurd hs (by omega)) fun mem km1 ht => wp_bind.2 ?_
  have hs := ht.stock
  have h : wp (mappages pt (0 * pgSize) pgSize mem ⟨true, true, true, true⟩) _ noPanic km1 :=
    wp_mappages_next hsp hT hfit ht.free rfl (iff_of_true rfl fun h => by cases h)
  refine h.mono ?_
  rintro ⟨pt', mapped⟩ km' (⟨-, hT', hsp', hle⟩ | ⟨-, -, -, -, hlt⟩)
  · refine wp_bind.2 (wp_modify.2 (wp_pure.2 ⟨hT', hsp', ?_⟩))
    show km.stock ≤ km'.stock + 3
    omega
  · omega

end Spec

/-! ### Reading an address space -/

theorem wp_walkaddr {pt : PageTable} {va : ℕ} {km : Kmem} {e : Pte} {Q : Option ℕ → Kmem → Prop}
    {E : VmPanic → Prop} (hva : va < maxVA) (he : pteAt pt va = some e) (hu : e.perm.u = true)
    (hQ : Q (some e.ppn) km) : wp (walkaddr pt va) Q E km := by
  rw [walkaddr, if_neg (not_le.2 hva), wp_bind]
  refine wp_walk_find hva (hasPath_of_pteAt he) ?_
  simp only [↓reduceIte, he, hu]
  exact wp_pure.2 hQ

end CsklubOs
