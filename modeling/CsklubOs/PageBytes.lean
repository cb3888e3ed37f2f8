/-
**What `fork` and `sbrk` do to memory.**

`uvmcopy` of `kernel/vm.c` and `growproc` of `kernel/proc.c`, seen from the process: which pages it
has before and after, and which bytes are in them.

Main definitions:

* `Grew` — the size, the pages and the bytes are as `growproc` reports.

Main results:

* `uvmcopy_faithful` — the child has a copy of the parent's memory, or there was no memory left;
* `growproc_exact` — `growproc` does what it reports exactly if the size does not become negative;
* `growproc_wraps` — a process of one page that asks to shrink by two.
-/

import CsklubOs.ProcMem

set_option autoImplicit false

namespace CsklubOs

open Wp Multiset

section

variable [KernelImage] {km : Kmem} {pt : PageTable} {tf : ℕ} {g : Option ℕ}

/-- **`fork` copies memory faithfully or not at all.**  On success every page of the child is a page
that was free and is nothing else now, with the permissions and the bytes of the parent's page, so
that no user address of the child stands for the same byte as one of the parent.  It fails only when
nothing is left to allocate; then the child's address space is as it was, and all pages but those of
its table have been given back.  The memory of everyone else is the same in both cases. -/
theorem uvmcopy_faithful {old new : PageTable} {sz tf0 : ℕ}
    (hold : Space (leaf old) (npages sz) tf0 g) (hnew : Space (leaf new) 0 tf none)
    (hnd : (km.free + ptPages new).Nodup) (husable : ∀ x ∈ km.free + ptPages new, Usable x)
    (hapart : ∀ k < npages sz, ∀ e, leaf old k = some e → e.ppn ∉ km.free) :
    wp (uvmcopy old new sz) (fun r km' =>
      (∀ a, a / pgSize ∉ km.free → km'.mem a = km.mem a) ∧
      (r.2 = true ∧ (∀ k, npages sz ≤ k → leaf r.1 k = leaf new k) ∧
        (∀ k < npages sz, ∃ e pg, leaf old k = some e ∧ leaf r.1 k = some ⟨pg, e.perm⟩ ∧
          pg ∈ km.free ∧ pg ∉ km'.free + tablePages r.1 ∧
          (∀ k' < npages sz, ∀ e', leaf r.1 k' = some e' → e'.ppn = pg → k' = k) ∧
          ∀ o < pgSize, km'.mem (pg * pgSize + o) = km.mem (e.ppn * pgSize + o)) ∧
        (∀ va va', va < npages sz * pgSize → va' < npages sz * pgSize →
          userAddr old va ≠ userAddr r.1 va') ∨
      r.2 = false ∧ RanOut new km (npages sz) r.1 ∧ leaf r.1 = leaf new ∧
        km'.free + tablePages r.1 = km.free + tablePages new)) noPanic km := by
  have hbound := hold.bound
  refine (wp_uvmcopy_filled hold hnew ⟨husable, hnd⟩ hapart).mono ?_
  rintro ⟨pt', copied⟩ km' ⟨h, hres⟩
  refine ⟨h.mem, ?_⟩
  cases copied with
  | true =>
    simp only [↓reduceIte] at h
    have hpages := h.balance ▸ hnd
    have hinj : (pagesOf (leaf pt')).Nodup :=
      (nodup_add.1 (nodup_add.1 hpages).2.1).2.1
    have hpage : ∀ k < npages sz, ∃ e pg, leaf old k = some e ∧ leaf pt' k = some ⟨pg, e.perm⟩ ∧
        pg ∈ km.free ∧ ∀ o < pgSize, km'.mem (pg * pgSize + o) = km.mem (e.ppn * pgSize + o) := by
      intro k hk
      obtain ⟨e, he, -⟩ := hold.user k hk
      obtain ⟨pg, hpg, hleaf, hbyte⟩ := h.page k (Nat.zero_le k) hk
      simp only [permOf, byteOf, he, Option.elim_some] at hleaf hbyte
      exact ⟨e, pg, he, hleaf, hpg, hbyte⟩
    refine .inl ⟨rfl, fun k hk => h.rest k (by omega), fun k hk => ?_,
      fun va va' hva hva' heq => ?_⟩
    · obtain ⟨e, pg, he, hleaf, hpg, hbyte⟩ := hpage k hk
      refine ⟨e, pg, he, hleaf, hpg, fun hmem => ?_, fun k' hk' e' he' hpp => ?_, hbyte⟩
      · rw [ptPages, ← add_assoc] at hpages
        exact disjoint_left.1 (nodup_add.1 hpages).2.2 hmem
          (mem_pagesOf (hk.trans_le hbound) hleaf)
      · exact ppn_inj hinj (hk'.trans_le hbound) (hk.trans_le hbound) he' hleaf hpp
    · have hk : va / pgSize < npages sz := Nat.div_lt_of_lt_mul (Nat.mul_comm .. ▸ hva)
      have hk' : va' / pgSize < npages sz := Nat.div_lt_of_lt_mul (Nat.mul_comm .. ▸ hva')
      obtain ⟨e, he, -⟩ := hold.user _ hk
      obtain ⟨e', pg, -, hleaf, hpg, -⟩ := hpage _ hk'
      rw [userAddr_of_leaf (lt_of_lt_trapframeNo (hk.trans_le hbound)) he,
        userAddr_of_leaf (lt_of_lt_trapframeNo (hk'.trans_le hbound)) hleaf] at heq
      replace heq : e.ppn * 4096 + va % 4096 = pg * 4096 + va' % 4096 := heq
      have hpp : e.ppn = pg := by omega
      exact hapart _ hk e he (hpp ▸ hpg)
  | false =>
    have hleaf : leaf pt' = leaf new := funext fun k => h.rest k (by simp)
    exact .inr ⟨rfl, hres, hleaf, h.tablePages_balance hleaf⟩

omit [KernelImage] in
/-- A copy of a process of one page. -/
theorem uvmcopy_faithful_page : ∃ (_ : KernelImage) (old new new' : PageTable) (km km' : Kmem),
    (leaf old 0).isSome ∧ uvmcopy old new pgSize km = .ok ((new', true), km') ∧
      ∀ o < pgSize, km'.mem (userAddr new' o) = km.mem (userAddr old o) := by
  let K : KernelImage := ⟨1, 0⟩
  let km0 : Kmem := ⟨List.range' 1 40, 40, fun _ => 0⟩
  have hfit : Fits km0.free := ⟨by decide, by decide⟩
  obtain ⟨⟨old, new⟩, km, -, hT, hold, hnew, hstock⟩ := (wp_twoSpaces hfit (by decide)).exists_ok
  replace hstock : 40 ≤ km.stock + 13 := hstock
  have hle : km.free + ptPages new ≤ km0.free := hT ▸ Multiset.le_add_right ..
  have hle' : km.free + ptPages old ≤ km0.free := by
    rw [← hT, add_right_comm]
    exact Multiset.le_add_right ..
  have hcopy : wp (uvmcopy old new pgSize) _ noPanic km :=
    uvmcopy_faithful hold hnew (hfit.mono hle).nodup (hfit.mono hle).usable fun k hk e he =>
      notMem_free_of_leaf (hfit.mono hle').nodup (hk.trans_le hold.bound) he
  obtain ⟨⟨new', copied⟩, km', hrun, -, hres⟩ := hcopy.exists_ok
  rcases hres with ⟨(rfl : copied = true), -, hpage, -⟩ | ⟨-, ⟨d, hd, t, ht, -, hall⟩, -⟩
  · obtain ⟨e, pg, he, hleaf, -, -, -, hbyte⟩ := hpage 0 (by decide)
    refine ⟨K, old, new, new', km, km', by rw [he]; rfl, hrun, fun o ho => ?_⟩
    have hdiv : o / pgSize = 0 := Nat.div_eq_of_lt ho
    rw [← hdiv] at he hleaf
    rw [userAddr_of_leaf (by omega) hleaf, userAddr_of_leaf (by omega) he, Nat.mod_eq_of_lt ho,
      hbyte o ho]
  · rw [show npages pgSize = 1 by decide] at hd ht
    omega

/-! ### `growproc` -/

/-- **What `growproc` reports is what it did.**  When it returns 0 the size has changed by `n`, the
pages that were added are zero, and those that were removed are not mapped any more.  When it
returns -1 it was to add pages and nothing was left to allocate, the size and the mappings are as
they were, and all pages but those of the table have been given back. -/
def Grew (u : UProc) (n : ℤ) (pt : PageTable) (km : Kmem) (r : UProc × Bool) (km' : Kmem) : Prop :=
  ∃ pt', r.1.pagetable = some pt' ∧ km'.free + ptPages pt' = km.free + ptPages pt ∧
    (∀ a, a / pgSize ∉ km.free → a / pgSize ∉ km'.free → km'.mem a = km.mem a) ∧
    (r.2 = true ∧ (r.1.sz : ℤ) = u.sz + n ∧
      (∀ k, npages u.sz ≤ k → k < npages r.1.sz → ∃ pg ∈ km.free,
        leaf pt' k = some ⟨pg, ⟨true, true, false, true⟩⟩ ∧
          ∀ o < pgSize, km'.mem (pg * pgSize + o) = 0) ∧
      (∀ k, npages r.1.sz ≤ k → k < npages u.sz → leaf pt' k = none) ∧
      (∀ k, (k < npages u.sz ↔ k < npages r.1.sz) → leaf pt' k = leaf pt k) ∨
    r.2 = false ∧ 0 < n ∧ RanOut pt km (npages (addInt64 u.sz n) - npages u.sz) pt' ∧
      r.1.sz = u.sz ∧ leaf pt' = leaf pt ∧ km'.free + tablePages pt' = km.free + tablePages pt)

theorem Image.sz_lt {u : UProc} (hu : Image u tf pt) : u.sz < 2 ^ 38 := by
  have hle := le_npages_mul u.sz
  have hbound := hu.space.bound
  rw [trapframeNo_eq] at hbound
  unfold pgSize at hle
  omega

/-- `growproc` does what it reports, or the new size would be negative and nothing happens. -/
theorem wp_growproc_grew {u : UProc} {n : BitVec 32} (hu : Image u tf pt)
    (hfit : Fits (km.free + ptPages pt)) :
    wp (growproc u n.toInt) (fun r km' => 0 ≤ (u.sz : ℤ) + n.toInt ∧ Grew u n.toInt pt km r km' ∨
      (u.sz : ℤ) + n.toInt < 0 ∧ r.2 = true ∧ r.1.sz = u.sz) noPanic km := by
  have hsz := hu.sz_lt
  have hlt := BitVec.toInt_lt (x := n)
  have hgt := BitVec.le_toInt (x := n)
  simp only [growproc, hu.pagetable]
  refine wp_ite (fun hpos => wp_bind.2 ?_) fun hpos => wp_ite (fun hneg => wp_bind.2 ?_) fun hneg =>
    ?_
  · have hnew : (addInt64 u.sz n.toInt : ℤ) = u.sz + n.toInt := by
      rw [addInt64, Int.toNat_of_nonneg (by omega), Int.emod_eq_of_lt (by omega) (by omega)]
    have hmono : npages u.sz ≤ npages (addInt64 u.sz n.toInt) := npages_mono (by omega)
    refine (wp_uvmalloc_filled (by omega) hu.space hu.guard hfit).mono ?_
    rintro ⟨pt', sz⟩ km' ⟨k, -, h, ⟨(rfl : sz = _), rfl⟩ | ⟨(rfl : sz = 0), rfl, hout⟩⟩
    · rw [if_neg (by omega)]
      refine wp_pure.2 (.inl ⟨by omega, pt', rfl, h.balance, fun a ha _ => h.mem a ha,
        .inl ⟨rfl, hnew, h.page, fun k hk hk' => ?_,
          fun k (hk : _ ↔ k < npages (addInt64 u.sz n.toInt)) => h.rest k (by omega)⟩⟩)
      exact absurd (hk.trans_lt hk') (Nat.not_lt.2 hmono)
    · have hleaf : leaf pt' = leaf pt := funext fun k => h.rest k (by omega)
      exact wp_pure.2 (.inl ⟨by omega, pt', rfl, h.balance, fun a ha _ => h.mem a ha,
        .inr ⟨rfl, hpos, hout, rfl, hleaf, h.tablePages_balance hleaf⟩⟩)
  · refine (wp_uvmdealloc_unmaps hu.space fun x hx =>
      hfit.usable x (mem_total_of_pagesOf rfl hx)).mono ?_
    rintro ⟨pt', sz⟩ km' ⟨h, hmin : sz = _⟩
    refine wp_pure.2 ?_
    by_cases hn : 0 ≤ (u.sz : ℤ) + n.toInt
    · have hnew : (addInt64 u.sz n.toInt : ℤ) = u.sz + n.toInt := by
        rw [addInt64, Int.toNat_of_nonneg (by omega), Int.emod_eq_of_lt hn (by omega)]
      have hmono : npages (addInt64 u.sz n.toInt) ≤ npages u.sz := npages_mono (by omega)
      obtain rfl : sz = addInt64 u.sz n.toInt := hmin.trans (Nat.min_eq_right (by omega))
      refine .inl ⟨hn, pt', rfl, h.balance, fun a _ ha => h.mem a ha, .inl ⟨rfl, hnew,
        fun k hk hk' => absurd (hk.trans_lt hk') (Nat.not_lt.2 hmono),
        fun k (hk : npages (addInt64 u.sz n.toInt) ≤ k) hk' => ?_,
        fun k (hk : _ ↔ k < npages (addInt64 u.sz n.toInt)) => ?_⟩⟩
      · rw [h.entries, clear, if_pos (by omega)]
      · rw [h.entries, clear, if_neg (by omega)]
    · -- the sum wraps around to a size above the old one
      have hwrap : u.sz ≤ addInt64 u.sz n.toInt := by
        unfold addInt64
        omega
      exact .inr ⟨by omega, rfl, hmin.trans (Nat.min_eq_left hwrap)⟩
  · have hzero : n.toInt = 0 := by omega
    refine wp_pure.2 (.inl ⟨by omega, pt, hu.pagetable, rfl, fun _ _ _ => rfl, .inl ⟨rfl, ?_,
      fun k hk hk' => absurd (hk.trans_lt hk') (Nat.lt_irrefl _),
      fun k hk hk' => absurd (hk.trans_lt hk') (Nat.lt_irrefl _), fun _ _ => rfl⟩⟩)
    rw [hzero, add_zero]

/-- **`sbrk` does what it reports** exactly if the size does not become negative. -/
theorem growproc_exact {u : UProc} {n : BitVec 32} (hu : Image u tf pt)
    (hnd : (km.free + ptPages pt).Nodup) (husable : ∀ x ∈ km.free + ptPages pt, Usable x) :
    wp (growproc u n.toInt) (fun r km' => Grew u n.toInt pt km r km' ↔ 0 ≤ (u.sz : ℤ) + n.toInt)
      noPanic km := by
  refine (wp_growproc_grew hu ⟨husable, hnd⟩).mono ?_
  rintro r km' (⟨hn, hgrew⟩ | ⟨hn, hr, hsz⟩)
  · exact iff_of_true hgrew hn
  · refine iff_of_false ?_ (by omega)
    rintro ⟨pt', -, -, -, ⟨-, hsz', -⟩ | ⟨hr', -⟩⟩
    · omega
    · cases hr.symm.trans hr'

/-- The first process, with pages to spare. -/
theorem exists_image (hfit : Fits km.free) (hstock : 9 ≤ km.stock) :
    ∃ u tf pt, ∃ km' : Kmem, Image u tf pt ∧ u.sz = pgSize ∧ Fits (km'.free + ptPages pt) ∧
      km.stock ≤ km'.stock + 9 := by
  obtain ⟨u, km', -, hpages, hsz, ⟨tf, pt, hu⟩, hle⟩ := (wp_userinit hfit hstock).exists_ok
  refine ⟨u, tf, pt, km', hu, hsz, hfit.mono ?_, hle⟩
  rw [← hpages, hu.pages]
  exact add_le_add_right (le_add_left ..) _

omit [KernelImage] in
/-- The first process grows by a page. -/
theorem growproc_exact_page : ∃ (_ : KernelImage) (u u' : UProc) (pt : PageTable) (km km' : Kmem),
    u.sz = 4096 ∧ growproc u (4096#32).toInt km = .ok ((u', true), km') ∧ u'.sz = 8192 ∧
      Grew u (4096#32).toInt pt km (u', true) km' := by
  let K : KernelImage := ⟨1, 0⟩
  let km0 : Kmem := ⟨List.range' 1 20, 20, fun _ => 0⟩
  have hfit : Fits km0.free := ⟨by decide, by decide⟩
  obtain ⟨u, tf, pt, km, hu, hsz, hfit, hstock⟩ := exists_image hfit (by decide)
  replace hstock : 20 ≤ km.stock + 9 := hstock
  have hgrow : wp (growproc u (4096#32).toInt) _ noPanic km :=
    growproc_exact hu hfit.nodup hfit.usable
  obtain ⟨⟨u', grown⟩, km', hrun, hiff⟩ := hgrow.exists_ok
  rw [hsz] at hiff
  have hgrew := hiff.2 (by decide)
  obtain ⟨pt', -, -, -, ⟨(rfl : grown = true), hsz', -⟩ | ⟨-, -, ⟨d, hd, t, ht, -, hall⟩, -⟩⟩ :=
    id hgrew
  · rw [hsz] at hsz'
    exact ⟨K, u, u', pt, km, km', hsz, hrun, Int.ofNat.inj hsz', hgrew⟩
  · rw [hsz, show npages (addInt64 pgSize (4096#32).toInt) - npages pgSize = 1 by decide] at hd ht
    omega

omit [KernelImage] in
/-- **`growproc` reports success and does nothing** when a process of one page asks to shrink by
two: `sz + n` wraps around, and `uvmdealloc` takes that for a size to which nothing has to be
removed. -/
theorem growproc_wraps :
    ∃ (_ : KernelImage) (u : UProc) (tf : ℕ) (pt : PageTable) (km : Kmem) (u' : UProc)
    (km' : Kmem), Image u tf pt ∧ (km.free + ptPages pt).Nodup ∧
      (∀ x ∈ km.free + ptPages pt, Usable x) ∧ u.sz = 4096 ∧
      growproc u (-8192#32).toInt km = .ok ((u', true), km') ∧ u'.sz = 4096 := by
  let K : KernelImage := ⟨1, 0⟩
  let km0 : Kmem := ⟨List.range' 1 20, 20, fun _ => 0⟩
  have hfit : Fits km0.free := ⟨by decide, by decide⟩
  obtain ⟨u, tf, pt, km, hu, hsz, hfit, -⟩ := exists_image hfit (by decide)
  obtain ⟨pagetable, sz, trapframe, guard⟩ := u
  obtain rfl : pagetable = some pt := hu.pagetable
  obtain rfl : sz = 4096 := hsz
  exact ⟨K, _, tf, pt, km, _, _, hu, hfit.nodup, hfit.usable, rfl, rfl, rfl⟩

end

end CsklubOs
