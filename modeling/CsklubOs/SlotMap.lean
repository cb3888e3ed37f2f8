/-
**Finite maps kept in slots.**

A row of slots, each empty or holding a key with its value, is read as a map.

Main definitions:

* `lookup` — the value of a key is the one in the first slot that holds it;
* `Unique` — no key is in two slots.

Main results:

* `Unique.fill`, `Unique.clear` — filling and emptying a slot change the map at one key, whichever
  slot is taken.
-/

import Mathlib

set_option autoImplicit false

namespace CsklubOs

open Function
open Option (some_inj)
open Prod (mk)

namespace SlotMap

variable {κ ν : Type*} [DecidableEq κ] {l l' : List (Option (κ × ν))} {i : ℕ} {k : κ} {v : ν}

/-! ### Rows of slots -/

/-- The value that a slot has for `k`. -/
def slotValue (k : κ) : Option (κ × ν) → Option ν
  | none => none
  | some x => if x.1 = k then some x.2 else none

/-- The value in the first slot that holds `k`. -/
def lookup (l : List (Option (κ × ν))) (k : κ) : Option ν := l.findSome? (slotValue k)

/-- No key is in two slots. -/
def Unique (l : List (Option (κ × ν))) : Prop :=
  ∀ (i j : ℕ) (k : κ) (v w : ν), l[i]? = some (some (k, v)) → l[j]? = some (some (k, w)) → i = j

theorem slotValue_eq_some {o : Option (κ × ν)} : slotValue k o = some v ↔ o = some (k, v) := by
  cases o with
  | none => exact iff_of_false (fun h => by cases h) fun h => by cases h
  | some x =>
    obtain ⟨x, w⟩ := x
    rw [slotValue, some_inj, mk.injEq]
    constructor
    · intro h
      split at h
      · exact ⟨‹_›, some_inj.1 h⟩
      · cases h
    · rintro ⟨rfl, rfl⟩
      exact if_pos rfl

theorem lookup_eq_none : lookup l k = none ↔ ∀ (i : ℕ) (v : ν), l[i]? ≠ some (some (k, v)) := by
  rw [lookup, List.findSome?_eq_none_iff]
  constructor
  · intro h i v hi
    have hnone := h _ (List.mem_of_getElem? hi)
    rw [slotValue_eq_some.2 rfl] at hnone
    cases hnone
  · intro h o ho
    by_contra hne
    obtain ⟨v, hv⟩ := Option.ne_none_iff_exists'.1 hne
    obtain ⟨i, hi⟩ := List.mem_iff_getElem?.1 ho
    rw [slotValue_eq_some.1 hv] at hi
    exact h i v hi

theorem exists_of_lookup (h : lookup l k = some v) : ∃ i : ℕ, l[i]? = some (some (k, v)) := by
  obtain ⟨o, ho, hv⟩ := List.exists_of_findSome?_eq_some h
  obtain ⟨i, hi⟩ := List.mem_iff_getElem?.1 ho
  rw [slotValue_eq_some.1 hv] at hi
  exact ⟨i, hi⟩

/-- **The value of a key** is the one in the slot that holds it. -/
theorem Unique.lookup_eq_some (h : Unique l) :
    lookup l k = some v ↔ ∃ i : ℕ, l[i]? = some (some (k, v)) := by
  refine ⟨exists_of_lookup, fun ⟨i, hi⟩ => ?_⟩
  cases hl : lookup l k with
  | none => exact absurd hi (lookup_eq_none.1 hl i v)
  | some w =>
    obtain ⟨j, hj⟩ := exists_of_lookup hl
    have hij := h i j k v w hi hj
    rw [← hij, hi] at hj
    exact congrArg some (mk.inj (some_inj.1 (some_inj.1 hj))).2.symm

theorem Unique.lookup_congr {x : κ} (h : Unique l) (h' : Unique l')
    (hx : ∀ v, (∃ i : ℕ, l'[i]? = some (some (x, v))) ↔ ∃ i : ℕ, l[i]? = some (some (x, v))) :
    lookup l' x = lookup l x := by
  refine Option.ext fun v => ?_
  rw [h'.lookup_eq_some, h.lookup_eq_some]
  exact hx v

/-! ### Changing a slot -/

/-- **Filling an empty slot** with a key that is in none. -/
theorem Unique.fill (h : Unique l) (hl : ∀ m, l'[m]? = if m = i then some (some (k, v)) else l[m]?)
    (hempty : ∀ x, l[i]? ≠ some (some x)) (hnew : lookup l k = none) :
    Unique l' ∧ lookup l' = update (lookup l) k (some v) := by
  have hother : ∀ m, m ≠ i → l'[m]? = l[m]? := fun m hm => by rw [hl, if_neg hm]
  have hself : l'[i]? = some (some (k, v)) := by rw [hl, if_pos rfl]
  have hmiss := lookup_eq_none.1 hnew
  have huniq : Unique l' := by
    intro a b x w w' ha hb
    by_cases hai : a = i
    · by_cases hbi : b = i
      · rw [hai, hbi]
      · rw [hai, hself] at ha
        obtain ⟨rfl, -⟩ := mk.inj (some_inj.1 (some_inj.1 ha))
        rw [hother b hbi] at hb
        exact absurd hb (hmiss b w')
    · rw [hother a hai] at ha
      by_cases hbi : b = i
      · rw [hbi, hself] at hb
        obtain ⟨rfl, -⟩ := mk.inj (some_inj.1 (some_inj.1 hb))
        exact absurd ha (hmiss a w)
      · rw [hother b hbi] at hb
        exact h a b x w w' ha hb
  refine ⟨huniq, funext fun x => ?_⟩
  by_cases hx : x = k
  · rw [hx, update_self, huniq.lookup_eq_some]
    exact ⟨i, hself⟩
  · rw [update_of_ne hx]
    refine h.lookup_congr huniq fun w => exists_congr fun m => ?_
    by_cases hm : m = i
    · rw [hm, hself]
      refine iff_of_false (fun heq => hx ?_) (hempty _)
      exact (mk.inj (some_inj.1 (some_inj.1 heq))).1.symm
    · rw [hother m hm]

theorem Unique.clear (h : Unique l) (hl : ∀ m, l'[m]? = if m = i then some none else l[m]?)
    (hi : l[i]? = some (some (k, v))) : Unique l' ∧ lookup l' = update (lookup l) k none := by
  have hother : ∀ m, m ≠ i → l'[m]? = l[m]? := fun m hm => by rw [hl, if_neg hm]
  have hgone : ∀ x, l'[i]? ≠ some (some x) := by
    intro x hx
    rw [hl, if_pos rfl] at hx
    cases hx
  have hstill : ∀ m x, l'[m]? = some (some x) → m ≠ i ∧ l[m]? = some (some x) := by
    intro m x hm
    have hne : m ≠ i := by
      rintro rfl
      exact hgone x hm
    exact ⟨hne, by rwa [hother m hne] at hm⟩
  have huniq : Unique l' := fun a b x w w' ha hb =>
    h a b x w w' (hstill a _ ha).2 (hstill b _ hb).2
  refine ⟨huniq, funext fun x => ?_⟩
  by_cases hx : x = k
  · rw [hx, update_self, lookup_eq_none]
    intro m w hm
    obtain ⟨hne, hm'⟩ := hstill m _ hm
    exact hne (h m i k w v hm' hi)
  · rw [update_of_ne hx]
    refine h.lookup_congr huniq fun w => exists_congr fun m => ?_
    by_cases hm : m = i
    · rw [hm, hi]
      refine iff_of_false (hgone _) fun heq => hx ?_
      exact (mk.inj (some_inj.1 (some_inj.1 heq))).1.symm
    · rw [hother m hm]

/-! ### Histories -/

/-- A change of a map. -/
inductive Event (κ ν : Type*)
  | put (k : κ) (v : ν)
  | del (k : κ)

/-- The map after one change. -/
def Event.apply (m : κ → Option ν) : Event κ ν → κ → Option ν
  | .put k v => update m k (some v)
  | .del k => update m k none

/-- The map after a history: every key has the value last put there and not deleted since. -/
def replay (m : κ → Option ν) (es : List (Event κ ν)) : κ → Option ν := es.foldl Event.apply m

theorem replay_append (m : κ → Option ν) (es : List (Event κ ν)) (e : Event κ ν) :
    replay m (es ++ [e]) = Event.apply (replay m es) e :=
  List.foldl_concat ..

end SlotMap

end CsklubOs
