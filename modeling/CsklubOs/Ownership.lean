/-
**Cells that own the slots which name them.**

An allocator marks cells as used; the clients store the numbers of the cells they were given in
slots, and an empty slot holds `0`.  The slots and the cells are arbitrary.

Main definitions:

* `Owns` — every used cell is named by one slot, and every slot that is not empty names a used cell:
  nothing is shared and nothing is lost.

Main results:

* `Owns.attach`, `Owns.detach` — the two moves that keep it.
-/

import Mathlib

set_option autoImplicit false

namespace Ownership

open Function

variable {ι β : Type} [DecidableEq ι] [DecidableEq β] [Zero β]

/-- Every used cell of the area has exactly one slot that names it, and every slot that is not empty
names a used cell of the area. -/
structure Owns (area : Set β) (used : β → Bool) (val : ι → β) : Prop where
  held : ∀ i, val i ≠ 0 → val i ∈ area ∧ used (val i) = true
  owner : ∀ b ∈ area, used b = true → ∃! i, val i = b

variable {area : Set β} {used : β → Bool} {val : ι → β} {i j : ι} {b : β}

section

omit [DecidableEq ι] [DecidableEq β]

theorem Owns.inj (h : Owns area used val) (hi : val i ≠ 0) (hij : val i = val j) : i = j := by
  obtain ⟨harea, hused⟩ := h.held i hi
  exact (h.owner _ harea hused).unique rfl hij.symm

theorem Owns.ne_of_free (h : Owns area used val) (hb : b ≠ 0) (hfree : used b = false) (j : ι) :
    val j ≠ b := by
  rintro rfl
  rw [(h.held j hb).2] at hfree
  cases hfree

theorem Owns.congr_used {used' : β → Bool} (h : Owns area used val)
    (hu : ∀ b ∈ area, used' b = used b) : Owns area used' val := by
  refine ⟨fun i hi => ?_, fun b hb hused => ?_⟩
  · obtain ⟨harea, hused⟩ := h.held i hi
    exact ⟨harea, (hu _ harea).trans hused⟩
  · rw [hu b hb] at hused
    exact h.owner b hb hused

end

/-- **Allocating**: a free cell is marked and stored in an empty slot. -/
theorem Owns.attach (h : Owns area used val) (h0 : (0 : β) ∉ area) (hi : val i = 0) (hb : b ∈ area)
    (hfree : used b = false) : Owns area (update used b true) (update val i b) := by
  have hb0 : b ≠ 0 := ne_of_mem_of_not_mem hb h0
  refine ⟨fun j hj => ?_, fun c hc hcu => ?_⟩
  · by_cases hji : j = i
    · rw [hji, update_self, update_self]
      exact ⟨hb, rfl⟩
    · rw [update_of_ne hji] at hj ⊢
      rw [update_of_ne (h.ne_of_free hb0 hfree j)]
      exact h.held j hj
  · by_cases hcb : c = b
    · refine ⟨i, (update_self i b val).trans hcb.symm, fun j hj => ?_⟩
      by_contra hji
      simp only [update_of_ne hji] at hj
      exact h.ne_of_free hb0 hfree j (hj.trans hcb)
    · rw [update_of_ne hcb] at hcu
      obtain ⟨j, hj, huniq⟩ := h.owner c hc hcu
      have hji : j ≠ i := by
        rintro rfl
        exact ne_of_mem_of_not_mem hc h0 (hj.symm.trans hi)
      refine ⟨j, (update_of_ne hji b val).trans hj, fun k hk => ?_⟩
      by_cases hki : k = i
      · rw [hki] at hk
        exact absurd ((update_self i b val).symm.trans hk).symm hcb
      · exact huniq k ((update_of_ne hki b val).symm.trans hk)

/-- **Freeing**: the cell of a slot is unmarked and the slot cleared. -/
theorem Owns.detach (h : Owns area used val) (h0 : (0 : β) ∉ area) (hi : val i ≠ 0) :
    Owns area (update used (val i) false) (update val i 0) := by
  refine ⟨fun j hj => ?_, fun c hc hcu => ?_⟩
  · have hji : j ≠ i := by
      rintro rfl
      exact hj (update_self j 0 val)
    rw [update_of_ne hji] at hj ⊢
    rw [update_of_ne fun hv => hji (h.inj hj hv)]
    exact h.held j hj
  · have hcb : c ≠ val i := by
      rintro rfl
      rw [update_self] at hcu
      cases hcu
    rw [update_of_ne hcb] at hcu
    obtain ⟨j, hj, huniq⟩ := h.owner c hc hcu
    have hji : j ≠ i := by
      rintro rfl
      exact hcb hj.symm
    refine ⟨j, (update_of_ne hji 0 val).trans hj, fun k hk => ?_⟩
    by_cases hki : k = i
    · rw [hki] at hk
      exact absurd ((update_self i 0 val).symm.trans hk).symm (ne_of_mem_of_not_mem hc h0)
    · exact huniq k ((update_of_ne hki 0 val).symm.trans hk)

end Ownership

