/-
**Sequences of atomic writes to a store.**

A store is a function from addresses to values.  A device that performs its writes one at a time can
only be interrupted *between* two of them, so what an interruption leaves is the result of a prefix.

Main definitions:

* `applyAll` — the store after a sequence of writes.

Main results:

* `applyAll_replay` — a sequence may be started again after a prefix of it.
-/

import Mathlib

set_option autoImplicit false

namespace WriteSeq

open Function

variable {ι α : Type} [DecidableEq ι]

/-- The store after the writes `ws`, performed from left to right. -/
def applyAll (d : ι → α) (ws : List (ι × α)) : ι → α :=
  ws.foldl (fun d w => update d w.1 w.2) d

@[simp] theorem applyAll_nil (d : ι → α) : applyAll d [] = d := rfl

@[simp] theorem applyAll_cons (d : ι → α) (w : ι × α) (ws : List (ι × α)) :
    applyAll d (w :: ws) = applyAll (update d w.1 w.2) ws := rfl

theorem applyAll_append (d : ι → α) (ws vs : List (ι × α)) :
    applyAll d (ws ++ vs) = applyAll (applyAll d ws) vs := by
  simp [applyAll]

theorem applyAll_of_not_mem (d : ι → α) (ws : List (ι × α)) (x : ι) (h : ∀ w ∈ ws, w.1 ≠ x) :
    applyAll d ws x = d x := by
  induction ws generalizing d with
  | nil => rfl
  | cons w ws ih =>
    rw [applyAll_cons, ih _ fun v hv => h v (List.mem_cons_of_mem _ hv)]
    exact update_of_ne (Ne.symm (h w List.mem_cons_self)) _ _

/-- The value of an address after a sequence of writes only depends on the value before if the
address is not written. -/
theorem applyAll_congr {d e : ι → α} {ws : List (ι × α)} {x : ι}
    (h : (∀ w ∈ ws, w.1 ≠ x) → d x = e x) : applyAll d ws x = applyAll e ws x := by
  induction ws generalizing d e with
  | nil => exact h (by simp)
  | cons w ws ih =>
    rw [applyAll_cons, applyAll_cons]
    refine ih fun hws => ?_
    by_cases hx : w.1 = x
    · subst hx; simp
    · rw [update_of_ne (Ne.symm hx), update_of_ne (Ne.symm hx)]
      refine h fun v hv => ?_
      rcases List.mem_cons.1 hv with rfl | hv
      · exact hx
      · exact hws v hv

/-- **Redoing is idempotent**: a whole sequence of writes performed after a prefix of itself gives
what it gives when performed once. -/
theorem applyAll_replay (d : ι → α) (ws : List (ι × α)) (k : ℕ) (x : ι) :
    applyAll (applyAll d (ws.take k)) ws x = applyAll d ws x := by
  refine applyAll_congr fun h => ?_
  exact applyAll_of_not_mem _ _ _ fun w hw => h w (List.mem_of_mem_take hw)

theorem applyAll_of_mem (d : ι → α) (ws : List (ι × α)) (hnd : (ws.map Prod.fst).Nodup) {w : ι × α}
    (hw : w ∈ ws) : applyAll d ws w.1 = w.2 := by
  induction ws generalizing d with
  | nil => simp at hw
  | cons v ws ih =>
    rw [List.map_cons, List.nodup_cons] at hnd
    rw [applyAll_cons]
    rcases List.mem_cons.1 hw with rfl | hw
    · rw [applyAll_of_not_mem, update_self]
      intro u hu huw
      exact hnd.1 (huw ▸ List.mem_map_of_mem hu)
    · exact ih _ hnd.2 hw

end WriteSeq
