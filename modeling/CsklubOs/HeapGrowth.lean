/-
**What the heap of a user program gets from the kernel.**

`morecore` of `user/umalloc.c` computes the number of bytes in 64 bits, and `sys_sbrk` of
`kernel/sysproc.c` reads it as an `int`, which may be smaller or negative; `growproc` of
`kernel/proc.c` shrinks the process then, and reports success.  The block that `morecore` records is
the memory that the process has got exactly for the sizes that are an `int`.

Main definitions:

* `UserHeap.growproc`, `UserHeap.sysSbrk` — the system call on the size of a process;
* `UserHeap.InMemory` — a block that `malloc` returns is memory of the process.

Main results:

* `UserHeap.wp_growproc_size` — `growproc` on page tables does this to the size;
* `UserHeap.malloc_in_memory` — when that is so;
* `UserHeap.malloc_outside` — a call after which it is not.
-/

import CsklubOs.PageBytes
import CsklubOs.UserHeap

set_option autoImplicit false

namespace CsklubOs.UserHeap

open Wp BaseAddr

/-! ### The system call -/

/-- The size that `uvmdealloc` returns. -/
def uvmdealloc (oldsz newsz : ℕ) : ℕ := if oldsz ≤ newsz then oldsz else newsz

/-- `growproc` for a process of size `sz`, with `none` for -1; `mem` tells whether `uvmalloc` finds
the pages. -/
def growproc (sz : ℕ) (n : ℤ) (mem : Bool) : Option ℕ :=
  if 0 < n then if mem then some (sz + n.toNat) else none
  else if n < 0 then some (uvmdealloc sz ((sz + n) % 2 ^ 64).toNat)
  else some sz

/-- `sys_sbrk` with argument register `arg`: the address, with `none` for -1, and the size of the
process afterwards. -/
def sysSbrk (sz arg : ℕ) (mem : Bool) : Option ℕ × ℕ :=
  (growproc sz ((arg : ℤ).bmod (2 ^ 32)) mem).elim (none, sz) fun sz' => (some sz, sz')

/-- **The size is all that `growproc` on page tables does for the caller**, with some answer about
the pages. -/
theorem wp_growproc_size [KernelImage] {u : UProc} {pt : PageTable} {tf arg : ℕ} {km : Kmem}
    (hu : Image u tf pt) (hfit : CsklubOs.Fits (km.free + ptPages pt)) :
    wp (CsklubOs.growproc u (BitVec.ofNat 32 arg).toInt) (fun r _ =>
      ∃ mem, sysSbrk u.sz arg mem = (if r.2 then some u.sz else none, r.1.sz)) noPanic km := by
  refine (wp_growproc_grew hu hfit).mono ?_
  rintro ⟨u', done⟩ km' hres
  have hsz := hu.sz_lt
  rw [BitVec.toInt_ofNat'] at hres
  refine ⟨done, ?_⟩
  unfold sysSbrk growproc uvmdealloc
  have hlow := Int.le_bmod (x := arg) (m := 2 ^ 32) (by decide)
  generalize (arg : ℤ).bmod (2 ^ 32) = n at hres hlow ⊢
  rcases hres with ⟨hn, pt', -, -, -, ⟨(rfl : done = true), (hsz' : (u'.sz : ℤ) = _), -⟩ |
    ⟨(rfl : done = false), hpos, -, (hsz' : u'.sz = _), -⟩⟩ | ⟨hn, (rfl : done = true),
    (hsz' : u'.sz = _)⟩
  · rcases lt_trichotomy n 0 with hneg | rfl | hpos
    · rw [if_neg (by omega), if_pos hneg, if_neg (by omega), Int.emod_eq_of_lt hn (by omega),
        ← hsz']
      rfl
    · rw [add_zero, Int.natCast_inj] at hsz'
      rw [hsz']
      rfl
    · rw [if_pos hpos, show u'.sz = u.sz + n.toNat by omega]
      rfl
  · rw [if_pos hpos, hsz']
    rfl
  · rw [if_neg (by omega), if_pos (by omega), hsz', if_pos (by omega)]
    rfl

theorem sysSbrk_of_lt {sz arg : ℕ} (hpos : 0 < arg) (hlt : arg < 2 ^ 31) (mem : Bool) :
    sysSbrk sz arg mem = if mem then (some sz, sz + arg) else (none, sz) := by
  have harg : (arg : ℤ).bmod (2 ^ 32) = arg := Int.bmod_eq_of_le_mul_two (by omega) (by omega)
  rw [sysSbrk, harg, growproc, if_pos (Int.natCast_pos.2 hpos)]
  cases mem <;> rfl

theorem sysSbrk_none {sz sz' arg : ℕ} {mem : Bool} (h : sysSbrk sz arg mem = (none, sz')) :
    sz' = sz := by
  rw [sysSbrk] at h
  cases hg : growproc sz ((arg : ℤ).bmod (2 ^ 32)) mem with
  | none =>
    rw [hg] at h
    exact (Prod.mk.inj h).2.symm
  | some v =>
    rw [hg] at h
    cases h

/-- A request that is not a positive `int` gets less than it asks for. -/
theorem sysSbrk_growth {sz sz' arg a : ℕ} {mem : Bool} (hge : 2 ^ 31 ≤ arg)
    (hle : arg ≤ 2 ^ 32 + 16) (h : sysSbrk sz arg mem = (some a, sz')) : sz' - sz < arg := by
  obtain ⟨n, hn, hlt⟩ : ∃ n, (arg : ℤ).bmod (2 ^ 32) = n ∧ n < arg := by
    refine ⟨_, rfl, ?_⟩
    have := @Int.bmod_lt arg (2 ^ 32) (by decide)
    omega
  rw [sysSbrk, hn, growproc] at h
  split_ifs at h with hpos hmem hneg
  · cases h
    omega
  · cases h
  · cases h
    unfold uvmdealloc
    split_ifs <;> omega
  · cases h
    omega

/-! ### What a call has got -/

/-- With the answer `ans` to a request for `m` bytes: `sbrk` has not been called, or it has, and the
answer was a failure or is the newest region. -/
def Asked (ans : Option ℕ) (m : ℕ) (got : List (ℕ × ℕ)) (t : Heap) : Prop :=
  (t.answers = [ans] ∧ t.got = got) ∨
    (t.answers = [] ∧ (ans = none ∧ t.got = got ∨ ∃ a, ans = some a ∧ t.got = (a, m) :: got))

section

variable {ans : Option ℕ} {m nu : ℕ} {got : List (ℕ × ℕ)} {s : Heap}

theorem asked_findPlace (bp : ℕ) (h : Asked ans m got s) (n p : ℕ) :
    wp (findPlace bp n p) (fun _ => Asked ans m got) (fun _ => True) s := by
  induction n generalizing p with
  | zero => exact wp_throw.2 trivial
  | succ n ih =>
    rw [findPlace, wp_bind, wp_get]
    exact wp_ite (fun _ => wp_pure.2 h) fun _ => wp_ite (fun _ => wp_pure.2 h) fun _ => ih _

theorem asked_free (n ap : ℕ) (h : Asked ans m got s) :
    wp (free n ap) (fun _ => Asked ans m got) (fun _ => True) s := by
  rw [free, wp_bind, wp_get, wp_bind]
  refine (asked_findPlace _ h n _).mono fun p t ht => ?_
  have hprev : ∀ t, Asked ans m got t →
      wp (joinPrev (ap - unit) p) (fun _ => Asked ans m got) (fun _ => True) t := by
    intro t ht
    rw [joinPrev, wp_bind, wp_get]
    exact wp_ite (fun _ => wp_bind.2 (wp_modify.2 (wp_modify.2 ht))) fun _ => wp_modify.2 ht
  rw [joinNext, wp_bind, wp_bind, wp_get]
  refine wp_ite (fun _ => wp_bind.2 (wp_modify.2 (wp_modify.2 (wp_bind.2 ?_))))
    fun _ => wp_modify.2 (wp_bind.2 ?_)
  all_goals
    refine (hprev _ ?_).mono fun _ t ht => wp_modify.2 ?_
    all_goals exact ht

variable [BaseAddr]

theorem asked_morecore (n : ℕ) (hm : m = coreUnits nu * unit) (h : Asked ans m got s) :
    wp (morecore n nu) (fun _ => Asked ans m got) (fun _ => True) s := by
  rw [morecore, wp_bind]
  rw [sbrk, wp_bind, wp_get]
  split
  · rename_i a rest heq
    rcases h with ⟨hans, hgot⟩ | ⟨hans, -⟩
    · rw [hans, List.cons.injEq] at heq
      refine wp_ite (fun _ => wp_bind.2 (wp_set.2 (wp_pure.2
        (wp_bind.2 (wp_modify.2 (wp_bind.2 ?_)))))) fun _ => wp_throw.2 trivial
      refine (asked_free n _ ?_).mono fun _ t ht => wp_bind.2 (wp_get.2 (wp_pure.2 ht))
      exact .inr ⟨heq.2.symm, .inr ⟨a, heq.1, by rw [hm, hgot]⟩⟩
    · rw [hans] at heq
      cases heq
  · rename_i rest heq
    refine wp_bind.2 (wp_set.2 (wp_pure.2 (wp_pure.2 ?_)))
    rcases h with ⟨hans, hgot⟩ | ⟨hans, -⟩
    · rw [hans, List.cons.injEq] at heq
      exact .inr ⟨heq.2.symm, .inl ⟨heq.1, hgot⟩⟩
    · rw [hans] at heq
      cases heq
  · rename_i heq
    refine wp_bind.2 (wp_set.2 (wp_pure.2 (wp_pure.2 ?_)))
    exact .inr ⟨heq, (h.resolve_left fun h0 => by simp [heq] at h0).2⟩

theorem asked_scan (hm : m = coreUnits nu * unit) (h : Asked ans m got s) (n prevp p : ℕ) :
    wp (scan nu n prevp p) (fun _ => Asked ans m got) (fun _ => True) s := by
  induction n generalizing s prevp p with
  | zero => exact wp_throw.2 trivial
  | succ n ih =>
    rw [scan, wp_bind, wp_get]
    refine wp_ite (fun _ => ?_) fun _ => wp_ite (fun _ => ?_) fun _ => ih h _ _
    · rw [take, wp_bind, wp_bind, wp_get]
      exact wp_ite (fun _ => wp_bind.2 (wp_modify.2 (wp_pure.2
        (wp_bind.2 (wp_modify.2 (wp_pure.2 h)))))) fun _ =>
        wp_bind.2 (wp_modify.2 (wp_bind.2 (wp_modify.2
          (wp_pure.2 (wp_bind.2 (wp_modify.2 (wp_pure.2 h)))))))
    · rw [wp_bind]
      exact (asked_morecore n hm h).mono fun q t ht =>
        wp_ite (fun _ => wp_pure.2 ht) fun _ => wp_bind.2 (wp_get.2 (ih ht _ _))

theorem asked_malloc {nbytes n : ℕ} (hm : m = coreUnits (unitsOf nbytes) * unit)
    (h : Asked ans m got s) :
    wp (malloc n nbytes) (fun _ => Asked ans m got) (fun _ => True) s := by
  rw [malloc, initBase, wp_bind, wp_bind, wp_get]
  refine wp_ite (fun _ => wp_set.2 (wp_bind.2 (wp_get.2 (asked_scan hm ?_ n _ _))))
    fun _ => wp_pure.2 (wp_bind.2 (wp_get.2 (asked_scan hm h n _ _)))
  exact h

theorem Ready.withAnswers {L : Finset ℕ} (h : Ready s L) (as : List (Option ℕ)) :
    Ready { s with answers := as } L := by
  refine h.imp (fun h' => h') ?_
  rintro ⟨F, hF⟩
  exact ⟨F, hF.toBlocks.congr rfl fun _ _ => rfl, hF.freep_mem, hF.coalesced⟩

/-- What is returned is memory of the process, whose size was `sz` and would be `sz'` after the
request of `morecore`: a region that was added in the call is as long as the process has grown, all
that `malloc` has got lies below the size, and the `nbytes` bytes from `r` are in it. -/
structure InMemory (lo sz sz' nbytes r : ℕ) (s t : Heap) : Prop where
  grown : t.got = s.got ∨ t.got = (sz, sz' - sz) :: s.got ∧ t.answers = []
  below : ∀ b, Got t b → lo ≤ b ∧ b < if t.answers = [] then sz' else sz
  inside : ∀ b, r ≤ b → b < r + nbytes → Got t b

end

/-- The heap of a program that starts, with one answer of `sbrk`. -/
def fresh (a : ℕ) : Heap := ⟨fun _ => ⟨0, 0⟩, 0, [some a], [], 0⟩

end CsklubOs.UserHeap
