/-
**Adding up what the cells of a table hold.**

A resource is accounted for by adding up what each cell of a table holds of it.

Main results:

* `sum_update` — what overwriting a cell changes in the sum;
* `exists_notMem_iff` — when a table that gives every key one cell has a free cell.
-/

import Mathlib

set_option autoImplicit false

namespace Tally

open Finset

variable {ι β M : Type} [DecidableEq ι] [AddCommMonoid M]

theorem sum_update_of_notMem {s : Finset ι} {i : ι} (hi : i ∉ s) (F : β → M) (d : ι → β) (e : β) :
    ∑ j ∈ s, F (Function.update d i e j) = ∑ j ∈ s, F (d j) :=
  sum_congr rfl fun j hj => by rw [Function.update_of_ne (ne_of_mem_of_not_mem hj hi)]

theorem sum_update {s : Finset ι} {i : ι} (hi : i ∈ s) (F : β → M) (d : ι → β) (e : β) :
    ∑ j ∈ s, F (Function.update d i e j) + F (d i) = ∑ j ∈ s, F (d j) + F e := by
  have hnew := add_sum_erase s (fun j => F (Function.update d i e j)) hi
  have hold := add_sum_erase s (fun j => F (d j)) hi
  rw [sum_update_of_notMem (notMem_erase i s), Function.update_self] at hnew
  rw [← hnew, ← hold]
  abel

theorem card_le_of_nodup {m : Multiset ℕ} {n : ℕ} (hm : m.Nodup) (hn : ∀ x ∈ m, x < n) :
    m.card ≤ n := by
  have hle : m ≤ Multiset.range n :=
    (Multiset.le_iff_subset hm).2 fun x hx => Multiset.mem_range.2 (hn x hx)
  simpa using Multiset.card_le_card hle

omit [DecidableEq ι] in
/-- **A cell is free** if and only if fewer keys are in use than there are cells, when the cells in
use have different keys. -/
theorem exists_notMem_iff {κ : Type} [DecidableEq κ] [Fintype ι] {key : ι → κ} {busy : Finset ι}
    (hinj : Set.InjOn key busy) : (∃ i, i ∉ busy) ↔ (busy.image key).card < Fintype.card ι := by
  rw [card_image_of_injOn hinj, card_lt_iff_ne_univ, Ne, eq_univ_iff_forall, not_forall]

end Tally
