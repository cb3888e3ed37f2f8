/-
**The arguments of a new program.**

The end of `exec` in `kernel/exec.c`: the stack of the new image, the strings and the array of
pointers that `copyout` puts on it, and the commit, which frees the old image.  An argument is given
by its bytes without the null at its end.

The stack pointer only goes down, and each copy goes below what is already on the stack.  Different
user addresses of one image stand for different bytes, so a copy changes nothing above it.

Main definitions:

* `pushArgs`, `execStack`, `execTail` — the code;
* `Placed` — the strings are on the stack, each at its pointer;
* `Stacked` — what `main` finds.

Main results:

* `wp_execStack` — the stack of the new image is as `main` expects it, or all pages are given back;
* `exec_args_faithful` — it still is after the old image has been freed.
-/

import CsklubOs.UserBytes

set_option autoImplicit false

namespace CsklubOs

open Function List Nat
open Wp

/-! ### The code -/

/-- Subtraction of 64-bit numbers. -/
def sub64 (a b : ℕ) : ℕ := (a + 2 ^ 64 - b % 2 ^ 64) % 2 ^ 64

/-- `sp -= n; sp -= sp % 16`. -/
def pushSp (sp n : ℕ) : ℕ := sub64 sp n - sub64 sp n % 16

/-- The loop of `exec` over the arguments: `ustack` and the stack pointer, or `none` for
`goto bad`. -/
def pushArgs (pt : PageTable) (stackbase : ℕ) :
    List (List UInt8) → List ℕ → ℕ → VmM (Option (List ℕ × ℕ))
  | [], ustack, sp => pure (some (ustack, sp))
  | arg :: argv, ustack, sp =>
    if maxArg ≤ ustack.length then pure none
    else
      let sp := pushSp sp (arg.length + 1)
      if sp < stackbase then pure none
      else do
        let copied ← copyout pt sp (arg ++ [0])
        if copied then pushArgs pt stackbase argv (ustack ++ [sp]) sp else pure none

/-- An array of pointers in memory. -/
def pointerBytes (ptrs : List ℕ) : List UInt8 := ptrs.flatMap (ByteSeq.leBytes 8)

section Code

variable [KernelImage]

/-- The exit `bad`, after the file has been closed. -/
def execBad (pt : PageTable) (sz : ℕ) : VmM (Option (PageTable × ℕ × ℕ × ℕ)) := do
  procFreepagetable pt sz
  pure none

/-- `exec` from the allocation of the stack to the commit, for an image of `sz` bytes: the new table
and size, `argc` and the stack pointer. -/
def execStack (argv : List (List UInt8)) (pt : PageTable) (sz : ℕ) :
    VmM (Option (PageTable × ℕ × ℕ × ℕ)) := do
  let (pt, sz1) ← uvmalloc pt sz ((sz + (userStack + 1) * pgSize) % 2 ^ 64) Perm.write
  if sz1 = 0 then execBad pt sz
  else do
    let pt ← uvmclear pt (sz1 - (userStack + 1) * pgSize)
    let stackbase := sz1 - userStack * pgSize
    match ← pushArgs pt stackbase argv [] sz1 with
    | none => execBad pt sz1
    | some (ustack, sp) =>
      -- `ustack[argc] = 0`, in an array of `MAXARG` words
      if maxArg ≤ ustack.length then throw .ustack
      else
        let sp := pushSp sp ((ustack.length + 1) * 8)
        if sp < stackbase then execBad pt sz1
        else do
          let copied ← copyout pt sp (pointerBytes (ustack ++ [0]))
          if copied then pure (some (pt, sz1, ustack.length, sp)) else execBad pt sz1

/-- The same with the commit, which frees the old image. -/
def execTail (argv : List (List UInt8)) (pt : PageTable) (sz : ℕ) (oldpt : PageTable) (oldsz : ℕ) :
    VmM (Option (PageTable × ℕ × ℕ × ℕ)) := do
  match ← execStack argv pt sz with
  | none => pure none
  | some image => do
    procFreepagetable oldpt oldsz
    pure (some image)

end Code

/-! ### The stack -/

variable {pt : PageTable} {km : Kmem} {mem mem' : ℕ → UInt8} {va p sp lo hi : ℕ}
  {bs arg : List UInt8} {argv done : List (List UInt8)} {ptrs ustack : List ℕ} {E : VmPanic → Prop}

theorem pushSp_eq {m : ℕ} (hm : m ≤ sp) (hsp : sp < 2 ^ 64) : pushSp sp m = (sp - m) / 16 * 16 := by
  unfold pushSp sub64
  omega

/-- The user addresses below `hi` stand for different bytes. -/
def Apart (pt : PageTable) (hi : ℕ) : Prop :=
  ∀ va va', va < hi → va' < hi → userAddr pt va = userAddr pt va' → va = va'

theorem Space.apart [KernelImage] {n tf : ℕ} {g : Option ℕ} (h : Space (leaf pt) n tf g)
    (hnd : (pagesOf (leaf pt)).Nodup) : Apart pt (n * pgSize) := by
  intro va va' hva hva' heq
  have hk : va / pgSize < n := Nat.div_lt_of_lt_mul (Nat.mul_comm .. ▸ hva)
  have hk' : va' / pgSize < n := Nat.div_lt_of_lt_mul (Nat.mul_comm .. ▸ hva')
  obtain ⟨e, he, -⟩ := h.user _ hk
  obtain ⟨e', he', -⟩ := h.user _ hk'
  have hb := hk.trans_le h.bound
  have hb' := hk'.trans_le h.bound
  rw [userAddr_of_leaf (lt_of_lt_trapframeNo hb) he,
    userAddr_of_leaf (lt_of_lt_trapframeNo hb') he'] at heq
  have hpage := ppn_inj hnd hb hb' he he' (by unfold pgSize at heq; omega)
  unfold pgSize at heq hpage
  omega

theorem userBytes_congr {n : ℕ}
    (h : ∀ i < n, mem' (userAddr pt (va + i)) = mem (userAddr pt (va + i))) :
    userBytes pt mem' va n = userBytes pt mem va n :=
  map_congr_left fun i hi => h i (mem_range.1 hi)

theorem userBytes_userPoke (h : Apart pt hi) (hva : va + bs.length ≤ hi) :
    userBytes pt (userPoke pt va bs mem) va bs.length = bs := by
  induction bs generalizing va mem with
  | nil => rfl
  | cons b bs ih =>
    rw [length_cons] at hva ⊢
    rw [add_comm bs.length, userBytes_add, userPoke, ih (by omega)]
    have hhead : userPoke pt (va + 1) bs (Function.update mem (userAddr pt va) b) (userAddr pt va) =
        b := by
      rw [userPoke_of_notMem fun i hi heq => ?_, update_self]
      have := h _ _ (by omega) (by omega) heq
      omega
    exact congrArg (· :: bs) hhead

/-- **The strings on the stack**: each at its pointer, between `lo` and `hi`, and below the ones
before. -/
structure Placed (pt : PageTable) (mem : ℕ → UInt8) (lo hi : ℕ) (argv : List (List UInt8))
    (ptrs : List ℕ) : Prop where
  strings : List.Forall₂ (fun arg p => lo ≤ p ∧ p + (arg.length + 1) ≤ hi ∧
    userBytes pt mem p (arg.length + 1) = arg ++ [0]) argv ptrs
  apart : (argv.zip ptrs).Pairwise fun x y => y.2 + (y.1.length + 1) ≤ x.2

theorem Placed.keep {lo' : ℕ} (h : Placed pt mem lo hi argv ptrs) (hle : lo' ≤ lo)
    (hmem : ∀ va, lo ≤ va → va < hi → mem' (userAddr pt va) = mem (userAddr pt va)) :
    Placed pt mem' lo' hi argv ptrs := by
  refine ⟨h.strings.imp fun arg p ⟨hlo, hhi, hb⟩ => ⟨hle.trans hlo, hhi, ?_⟩, h.apart⟩
  rw [← hb]
  exact userBytes_congr fun i hi => hmem _ (by omega) (by omega)

theorem Placed.push (h : Placed pt mem lo hi done ustack) (hlo : lo ≤ hi)
    (hp : p + (arg.length + 1) ≤ lo) (hmem : userBytes pt mem p (arg.length + 1) = arg ++ [0]) :
    Placed pt mem p hi (done ++ [arg]) (ustack ++ [p]) := by
  have hlow : Placed pt mem p hi done ustack := h.keep (by omega) fun _ _ _ => rfl
  refine ⟨rel_append hlow.strings (.cons ⟨le_rfl, by omega, hmem⟩ .nil), ?_⟩
  rw [zip_append h.strings.length_eq, pairwise_append]
  refine ⟨h.apart, pairwise_singleton .., fun x hx y hy => ?_⟩
  obtain rfl := mem_singleton.1 hy
  exact hp.trans (forall₂_zip h.strings hx).1

theorem Placed.poke (h : Placed pt mem lo hi argv ptrs) (hapart : Apart pt hi)
    (hva : va + bs.length ≤ lo) : Placed pt (userPoke pt va bs mem) lo hi argv ptrs := by
  refine h.keep le_rfl fun a ha ha' => userPoke_of_notMem fun i hi heq => ?_
  have := hapart _ _ ha' (by omega) heq
  omega

/-- **The loop over the arguments** puts all of them on the stack. -/
theorem wp_pushArgs {Q : Option (List ℕ × ℕ) → Kmem → Prop} {base : ℕ} (hapart : Apart pt hi)
    (hlen : ∀ arg ∈ argv, arg.length < pgSize) (hbase : pgSize ≤ base) (hhi : hi < 2 ^ 64)
    (h : Placed pt km.mem sp hi done ustack) (hsp : base ≤ sp) (hle : sp ≤ hi)
    (hnone : ∀ mem, Q none { km with mem })
    (hsome : ∀ mem sp' ptrs, Placed pt mem sp' hi (done ++ argv) ptrs → base ≤ sp' → sp' ≤ hi →
      (∀ va < base, mem (userAddr pt va) = km.mem (userAddr pt va)) →
      Q (some (ptrs, sp')) { km with mem }) : wp (pushArgs pt base argv ustack sp) Q E km := by
  induction argv generalizing done ustack sp km with
  | nil =>
    rw [append_nil] at hsome
    exact wp_pure.2 (hsome _ sp ustack h hsp hle fun _ _ => rfl)
  | cons arg argv ih =>
    have harg := hlen arg mem_cons_self
    have hpush : pushSp sp (arg.length + 1) = _ := pushSp_eq (by omega) (by omega)
    refine wp_ite (fun _ => wp_pure.2 (hnone _)) fun _ => ?_
    generalize pushSp sp (arg.length + 1) = p at hpush
    refine wp_ite (fun _ => wp_pure.2 (hnone _)) fun hp => wp_bind.2 (wp_copyout ?_ fun mem => ?_)
    · have hlen' : (arg ++ [0]).length = arg.length + 1 := length_append
      have hroom : p + (arg ++ [0]).length ≤ sp := by omega
      refine ih (fun a ha => hlen a (mem_cons_of_mem _ ha))
        ((h.poke hapart hroom).push hle (hlen' ▸ hroom) ?_) (by omega) (by omega) hnone ?_
      · rw [← hlen']
        exact userBytes_userPoke hapart (hroom.trans hle)
      · intro mem sp' ptrs hpl hb hh hlow
        rw [append_assoc] at hpl
        refine hsome mem sp' ptrs hpl hb hh fun va hva => (hlow va hva).trans ?_
        refine userPoke_of_notMem fun i hi heq => ?_
        have := hapart _ _ (by omega) (by omega) heq
        omega
    · exact wp_pure.2 (hnone mem)

/-! ### The image -/

variable [KernelImage] {n tf tf0 oldsz : ℕ} {pt' oldpt : PageTable} {km' : Kmem} {g : Option ℕ}
  {T : Multiset ℕ}

theorem Space.notMem_free (h : Space (leaf pt) n tf g) (hnd : (km.free + ptPages pt).Nodup)
    (hva : va < n * pgSize) : userAddr pt va / pgSize ∉ km.free := by
  have hk : va / pgSize < n := Nat.div_lt_of_lt_mul (Nat.mul_comm .. ▸ hva)
  obtain ⟨e, he, -⟩ := h.user _ hk
  have hb := hk.trans_le h.bound
  rw [userAddr_of_leaf (lt_of_lt_trapframeNo hb) he, add_div_pgSize (mod_lt _ (by decide))]
  exact notMem_free_of_leaf hnd hb he

theorem Filled.below {pt1 pt2 : PageTable} {km1 : Kmem} {perm : ℕ → Perm} {m : ℕ}
    (h : Filled pt km perm (fun _ _ => 0) n m pt1 km1) (hnd : (km.free + ptPages pt).Nodup)
    (hsp : Space (leaf pt) n tf g) (hm : n < m) (hm' : m ≤ trapframeNo)
    (hppn : ∀ j e, leaf pt1 j = some e → ∃ e', leaf pt2 j = some e' ∧ e'.ppn = e.ppn)
    (hva : va < (n + 1) * pgSize) :
    km1.mem (userAddr pt2 va) = if va < n * pgSize then km.mem (userAddr pt va) else 0 := by
  have hk : va / pgSize < n + 1 := Nat.div_lt_of_lt_mul (Nat.mul_comm .. ▸ hva)
  have hb : va / pgSize < trapframeNo := by omega
  have haddr : ∀ e, leaf pt1 (va / pgSize) = some e →
      userAddr pt2 va = e.ppn * pgSize + va % pgSize := by
    intro e he
    obtain ⟨e', he', hpp⟩ := hppn _ e he
    rw [userAddr_of_leaf (lt_of_lt_trapframeNo hb) he', hpp]
  split
  · rename_i hlt
    have hk' : va / pgSize < n := Nat.div_lt_of_lt_mul (Nat.mul_comm .. ▸ hlt)
    obtain ⟨e, he, -⟩ := hsp.user _ hk'
    have hsame : userAddr pt2 va = userAddr pt va := by
      rw [haddr e (by rw [h.rest _ (by omega), he]), userAddr_of_leaf (lt_of_lt_trapframeNo hb) he]
    rw [hsame]
    exact h.mem _ (hsp.notMem_free hnd hlt)
  · rename_i hlt
    have hk' : n ≤ va / pgSize := (le_div_iff_mul_le (by decide)).2 (not_lt.1 hlt)
    obtain ⟨pg, -, hleaf, hbyte⟩ := h.page _ hk' (by omega)
    rw [haddr _ hleaf]
    exact hbyte _ (mod_lt _ (by decide))

/-- **What `main` finds**: the strings, the array of pointers to them at `sp`, and below the stack
the image as it was loaded and a page of zeros. -/
structure Stacked (km : Kmem) (pt : PageTable) (n : ℕ) (argv : List (List UInt8)) (km' : Kmem)
    (pt' : PageTable) (sp : ℕ) : Prop where
  aligned : sp % 16 = 0
  base : (n + 1) * pgSize ≤ sp
  args : ∃ ptrs, Placed pt' km'.mem (sp + (argv.length + 1) * 8) ((n + (userStack + 1)) * pgSize)
      argv ptrs ∧
    sp + (argv.length + 1) * 8 ≤ (n + (userStack + 1)) * pgSize ∧
    userBytes pt' km'.mem sp ((argv.length + 1) * 8) = pointerBytes (ptrs ++ [0])
  below : ∀ va < (n + 1) * pgSize,
    km'.mem (userAddr pt' va) = if va < n * pgSize then km.mem (userAddr pt va) else 0

omit [KernelImage] in
theorem Stacked.keep {km'' : Kmem} (h : Stacked km pt n argv km' pt' sp)
    (hmem : ∀ va < (n + (userStack + 1)) * pgSize,
      km''.mem (userAddr pt' va) = km'.mem (userAddr pt' va)) :
    Stacked km pt n argv km'' pt' sp := by
  obtain ⟨ptrs, hpl, hle, hptrs⟩ := h.args
  have hbase : (n + 1) * pgSize ≤ (n + (userStack + 1)) * pgSize :=
    mul_le_mul_right _ (by omega)
  refine ⟨h.aligned, h.base, ⟨ptrs, hpl.keep le_rfl fun va _ hva => hmem va hva, hle, ?_⟩,
    fun va hva => ?_⟩
  · exact (userBytes_congr fun i hi => hmem _ (by omega)).trans hptrs
  · exact (hmem va (hva.trans_le hbase)).trans (h.below va hva)

omit [KernelImage] in
theorem length_pointerBytes (ptrs : List ℕ) :
    (pointerBytes (ptrs ++ [0])).length = (ptrs.length + 1) * 8 := by
  rw [pointerBytes, ByteSeq.length_flatMap_of_length (ByteSeq.length_leBytes 8), length_append,
    mul_comm]
  rfl

theorem wp_execBad {sz : ℕ} {Q : Option (PageTable × ℕ × ℕ × ℕ) → Kmem → Prop}
    (hsp : Space (leaf pt) (npages sz) tf g) (hT : km.free + ptPages pt = T) (hfit : Fits T)
    (hQ : ∀ km', km'.free = T → Q none km') : wp (execBad pt sz) Q noPanic km := by
  subst hT
  exact wp_bind.2 ((wp_procFreepagetable hsp hfit).mono fun _ _ h => wp_pure.2 (hQ _ h.free))

section

variable (hargs : argv.length < maxArg) (hlen : ∀ arg ∈ argv, arg.length < pgSize)
  (hsp : Space (leaf pt) n tf none)

include hargs hlen hsp

/-- **The stack of the new image** holds the arguments, or everything has been given back. -/
theorem wp_execStack (hT : km.free + ptPages pt = T) (hfit : Fits T) :
    wp (execStack argv pt (n * pgSize)) (fun r km' => r = none ∧ km'.free = T ∨
      ∃ pt' sp, r = some (pt', (n + (userStack + 1)) * pgSize, argv.length, sp) ∧
        km'.free + ptPages pt' = T ∧ Space (leaf pt') (n + (userStack + 1)) tf (some n) ∧
        Stacked km pt n argv km' pt' sp) noPanic km := by
  subst hT
  have hbound := hsp.bound
  rw [trapframeNo_eq] at hbound
  have hsz : (n + (userStack + 1)) * pgSize < 2 ^ 64 := by
    unfold userStack pgSize
    omega
  have hsum : (n * pgSize + (userStack + 1) * pgSize) % 2 ^ 64 =
      (n + (userStack + 1)) * pgSize := by
    rw [← add_mul, mod_eq_of_lt hsz]
  rw [execStack, hsum, wp_bind]
  have hsp0 := hsp
  rw [← npages_mul n] at hsp0
  refine (wp_uvmalloc_filled (Nat.mul_le_mul_right _ (Nat.le_add_right ..)) hsp0
    (fun j hj => by cases hj) hfit).mono ?_
  rintro ⟨pt1, sz₁⟩ km1 ⟨k, hsp1, h1, ⟨(rfl : sz₁ = _), rfl⟩ | ⟨(rfl : sz₁ = 0), rfl, -⟩⟩
  · rw [npages_mul] at hsp1
    rw [npages_mul, npages_mul] at h1
    have hclear : (n + (userStack + 1)) * pgSize - (userStack + 1) * pgSize = n * pgSize := by
      rw [Nat.add_mul, Nat.add_sub_cancel]
    have hbase : (n + (userStack + 1)) * pgSize - userStack * pgSize = (n + 1) * pgSize := by
      unfold userStack pgSize
      omega
    have hpos : ¬ (n + (userStack + 1)) * pgSize = 0 := by
      unfold userStack pgSize
      omega
    simp only [hclear, hbase, if_neg hpos]
    refine wp_bind.2 (wp_uvmclear hsp1 (by omega) fun pt2 hppn hpages hsp2 => ?_)
    have hbal : km1.free + ptPages pt2 = km.free + ptPages pt := hpages ▸ h1.balance
    have hnd := hbal ▸ hfit.nodup
    have hapart := hsp2.apart (Multiset.nodup_add.1 (Multiset.nodup_add.1 hnd).2.1).2.1
    have hsp3 := hsp2
    rw [← npages_mul (n + (userStack + 1))] at hsp3
    have hbad : ∀ mem {Q : _ → _ → Prop}, (∀ km' : Kmem, km'.free = km.free + ptPages pt →
        Q none km') → wp (execBad pt2 ((n + (userStack + 1)) * pgSize)) Q noPanic
        { km1 with mem } :=
      fun _ _ => wp_execBad hsp3 hbal hfit
    have hroom : pgSize ≤ (n + 1) * pgSize := Nat.le_mul_of_pos_left _ (Nat.succ_pos n)
    have hbase' : (n + 1) * pgSize ≤ (n + (userStack + 1)) * pgSize :=
      mul_le_mul_right _ (by omega)
    have hempty : Placed pt2 km1.mem ((n + (userStack + 1)) * pgSize)
      ((n + (userStack + 1)) * pgSize) [] [] := ⟨.nil, .nil⟩
    refine wp_bind.2 (wp_pushArgs hapart hlen hroom hsz hempty hbase' le_rfl
      (fun mem => hbad mem fun _ h => .inl ⟨rfl, h⟩) ?_)
    intro mem sp ptrs hpl hlo hle hlow
    have hargc : argv.length = ptrs.length := hpl.strings.length_eq
    have hm : (ptrs.length + 1) * 8 ≤ sp := by
      unfold maxArg pgSize at *
      omega
    have hpush := pushSp_eq hm (hle.trans_lt hsz)
    simp only [if_neg (not_le.2 (hargc ▸ hargs))]
    generalize pushSp sp ((ptrs.length + 1) * 8) = p at hpush
    have hp' : p + (ptrs.length + 1) * 8 ≤ sp := by omega
    refine wp_ite (fun _ => hbad mem fun _ h => .inl ⟨rfl, h⟩) fun hp => wp_bind.2
      (wp_copyout (wp_pure.2 (.inr ⟨pt2, p, by rw [hargc], hbal, hsp2, ?_⟩))
        fun mem => hbad mem fun _ h => .inl ⟨rfl, h⟩)
    have hbytes := length_pointerBytes ptrs
    refine ⟨by omega, not_lt.1 hp, ⟨ptrs, ?_, ?_, ?_⟩, fun va hva => ?_⟩
    · rw [hargc]
      exact (hpl.poke hapart (hbytes ▸ hp')).keep hp' fun _ _ _ => rfl
    · rw [hargc]
      exact hp'.trans hle
    · rw [hargc, ← hbytes]
      exact userBytes_userPoke hapart (hbytes ▸ hp'.trans hle)
    · have hpoke : userPoke pt2 p (pointerBytes (ptrs ++ [0])) mem (userAddr pt2 va) =
          mem (userAddr pt2 va) := by
        refine userPoke_of_notMem fun i hi heq => ?_
        have := hapart _ _ (by omega) (by omega) heq
        omega
      refine hpoke.trans ((hlow va hva).trans ?_)
      exact h1.below hfit.nodup hsp (by omega) hsp1.bound hppn hva
  · exact wp_execBad hsp1 h1.balance hfit fun _ h => .inl ⟨rfl, h⟩

/-- The same for the commit, which leaves the new image alone. -/
theorem wp_execTail (hold : Space (leaf oldpt) (npages oldsz) tf0 g)
    (hfit : Fits (km.free + ptPages pt + ptPages oldpt)) :
    wp (execTail argv pt (n * pgSize) oldpt oldsz) (fun r km' =>
      r = none ∧ km'.free = km.free + ptPages pt ∨
      ∃ pt' sp, r = some (pt', (n + (userStack + 1)) * pgSize, argv.length, sp) ∧
        km'.free + ptPages pt' = km.free + ptPages pt + ptPages oldpt ∧
        Space (leaf pt') (n + (userStack + 1)) tf (some n) ∧
        Stacked km pt n argv km' pt' sp) noPanic km := by
  rw [execTail, wp_bind]
  refine (wp_execStack hargs hlen hsp rfl (hfit.mono (Multiset.le_add_right ..))).mono ?_
  rintro r km1 (⟨rfl, hfree⟩ | ⟨pt', sp, rfl, hbal, hsp', hst⟩)
  · exact wp_pure.2 (.inl ⟨rfl, hfree⟩)
  · have htotal : km1.free + ptPages oldpt + ptPages pt' = km.free + ptPages pt +
        ptPages oldpt := by
      rw [add_right_comm, hbal]
    refine wp_bind.2 ((wp_procFreepagetable hold (hfit.mono
      (htotal ▸ Multiset.le_add_right ..))).mono fun _ km2 hkm2 =>
      wp_pure.2 (.inr ⟨pt', sp, rfl, ?_, hsp', hst.keep fun va hva => ?_⟩))
    · rw [hkm2.free, htotal]
    · refine hkm2.mem _ (hsp'.notMem_free ?_ hva)
      rw [hkm2.free, htotal]
      exact hfit.nodup

end

/-- **`exec` passes arguments faithfully.** -/
theorem exec_args_faithful (hargs : argv.length < maxArg) (hlen : ∀ arg ∈ argv, arg.length < pgSize)
    (hsp : Space (leaf pt) n tf none) (hold : Space (leaf oldpt) (npages oldsz) tf0 g)
    (hnd : (km.free + ptPages pt + ptPages oldpt).Nodup)
    (husable : ∀ x ∈ km.free + ptPages pt + ptPages oldpt, Usable x) :
    (∀ sp m, (n + 1) * pgSize ≤ sp → sp ≤ (n + (userStack + 1)) * pgSize → m ≤ pgSize →
      m ≤ sp ∧ pushSp sp m = (sp - m) / 16 * 16) ∧
    wp (execTail argv pt (n * pgSize) oldpt oldsz) (fun r km' => ∀ pt' sz argc sp,
      r = some (pt', sz, argc, sp) → argc = argv.length ∧ argc < maxArg ∧
        sz = (n + (userStack + 1)) * pgSize ∧ sp % 16 = 0 ∧ (n + 1) * pgSize ≤ sp ∧
        (∃ ptrs, Placed pt' km'.mem (sp + (argc + 1) * 8) sz argv ptrs ∧
          userBytes pt' km'.mem sp ((argc + 1) * 8) = pointerBytes (ptrs ++ [0])) ∧
        ∀ va < (n + 1) * pgSize, km'.mem (userAddr pt' va) =
          if va < n * pgSize then km.mem (userAddr pt va) else 0) noPanic km := by
  have hbound := hsp.bound
  rw [trapframeNo_eq] at hbound
  refine ⟨fun sp m hlo hhi hm => ?_, ?_⟩
  · have hle : m ≤ sp := hm.trans ((Nat.le_mul_of_pos_left _ (Nat.succ_pos n)).trans hlo)
    refine ⟨hle, pushSp_eq hle ?_⟩
    unfold userStack pgSize at hhi
    omega
  · refine (wp_execTail hargs hlen hsp hold ⟨husable, hnd⟩).mono ?_
    rintro r km' (⟨rfl, -⟩ | ⟨pt', sp, rfl, -, -, hst⟩) _ _ _ _ hr
    · cases hr
    · cases hr
      obtain ⟨ptrs, hpl, -, hptrs⟩ := hst.args
      exact ⟨rfl, hargs, rfl, hst.aligned, hst.base, ⟨ptrs, hpl, hptrs⟩, hst.below⟩

/-- An address space of one page, and an empty one. -/
def twoSpaces : VmM (PageTable × PageTable) := do
  let oldpt ← procPagetable 0
  let oldpt ← uvmfirst (oldpt.getD (Dir.zero 0))
  let pt ← procPagetable 0
  pure (oldpt, pt.getD (Dir.zero 0))

theorem wp_twoSpaces (hfit : Fits km.free) (hstock : 13 ≤ km.stock) :
    wp twoSpaces (fun r km' => km'.free + ptPages r.2 + ptPages r.1 = km.free ∧
      Space (leaf r.1) 1 0 none ∧ Space (leaf r.2) 0 0 none ∧ km.stock ≤ km'.stock + 13)
      noPanic km := by
  rw [twoSpaces, wp_bind]
  refine (wp_procPagetable hfit).mono ?_
  rintro - km1 (⟨-, -, hlt⟩ | ⟨old, rfl, hT1, hsp1, hle1⟩)
  · omega
  rw [Option.getD_some, wp_bind]
  refine (wp_uvmfirst hsp1 hT1 hfit (by omega)).mono ?_
  rintro oldpt km2 ⟨hT2, hsp2, hle2⟩
  rw [wp_bind]
  refine (wp_procPagetable (hfit.mono (hT2 ▸ Multiset.le_add_right ..))).mono ?_
  rintro - km3 (⟨-, -, hlt⟩ | ⟨pt, rfl, hT3, hsp3, hle3⟩)
  · omega
  · exact wp_pure.2 ⟨hT2 ▸ hT3 ▸ rfl, hsp2, hsp3, by omega⟩

omit [KernelImage] in
/-- A program without segments, called by the first process with two arguments. -/
theorem exec_args_faithful_two : ∃ (_ : KernelImage) (pt oldpt pt' : PageTable) (km km' : Kmem)
    (sz sp : ℕ), execTail [[101], [104, 105]] pt 0 oldpt pgSize km =
      .ok (some (pt', sz, 2, sp), km') ∧ ∃ p q, userBytes pt' km'.mem p 2 = [101, 0] ∧
        userBytes pt' km'.mem q 3 = [104, 105, 0] ∧ q + 3 ≤ p := by
  let K : KernelImage := ⟨1, 0⟩
  let km0 : Kmem := ⟨List.range' 1 40, 40, fun _ => 0⟩
  have hfit : Fits km0.free := ⟨by decide, by decide⟩
  have hall : ((twoSpaces >>= fun r => execTail [[101], [104, 105]] r.2 0 r.1 pgSize)
      km0).toOption.any (fun x : Option _ × _ => x.1.isSome) = true := by decide +kernel
  obtain ⟨⟨oldpt, pt⟩, km, hrun, hT, hold, hsp, -⟩ := (wp_twoSpaces hfit (by decide)).exists_ok
  simp only [bind, StateT.bind, Except.bind, hrun] at hall
  obtain ⟨⟨r, km'⟩, hexec, hr⟩ := exists_ok_of_any hall
  obtain ⟨⟨pt', sz, argc, sp⟩, rfl⟩ := Option.isSome_iff_exists.1 hr
  have hlen : ([[101], [104, 105]] : List (List UInt8)).length < maxArg := by decide
  have hargs := (exec_args_faithful hlen (by decide) hsp hold (hT ▸ hfit.nodup)
    (hT ▸ hfit.usable)).2.of_ok hexec
  obtain ⟨rfl, -, -, -, -, ⟨ptrs, hpl, -⟩, -⟩ := hargs pt' sz argc sp rfl
  refine ⟨K, pt, oldpt, pt', km, km', sz, sp, hexec, ?_⟩
  rcases hpl.strings with _ | ⟨⟨-, -, hp⟩, _ | ⟨⟨-, -, hq⟩, _ | _⟩⟩
  exact ⟨_, _, hp, hq, (pairwise_cons.1 hpl.apart).1 _ mem_cons_self⟩

end CsklubOs
