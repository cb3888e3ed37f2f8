/-
**Marking the nodes of a graph.**

A depth-first search that marks what it visits turns one set of marked nodes into a larger one.

Main definitions:

* `Visited` — what a search has to achieve whatever was marked before: the sources are marked, every
  new mark is on a node that a source leads to, and a node that was marked on the way has all its
  successors marked at the end.  This composes, since successors of nodes that were marked earlier
  are the business of the search that marked those.

Main results:

* `Visited.eq_reached` — from no marks, it marks what can be reached.
-/

import Mathlib

set_option autoImplicit false

namespace Marking

variable {α : Type} (edge : α → α → Prop)

/-- The nodes that some node of `src` leads to. -/
def reached (src : Set α) : Set α :=
  {b | ∃ a ∈ src, Relation.ReflTransGen edge a b}

/-- A search from `src` that finds the marks `M` and leaves the marks `M'`. -/
structure Visited (src M M' : Set α) : Prop where
  sub : M ⊆ M'
  found : src ⊆ M'
  sound : ∀ b ∈ M', b ∈ M ∨ b ∈ reached edge src
  closed : ∀ a ∈ M', a ∉ M → ∀ b, edge a b → b ∈ M'

variable {edge} {src src' M M' M'' : Set α}

theorem reached_mono (h : src ⊆ src') : reached edge src ⊆ reached edge src' := by
  rintro b ⟨a, ha, hab⟩
  exact ⟨a, h ha, hab⟩

theorem Visited.refl (h : src ⊆ M) : Visited edge src M M where
  sub := subset_rfl
  found := h
  sound := fun _ hb => .inl hb
  closed := fun _ ha hn => absurd ha hn

theorem Visited.seq (h : Visited edge src M M') (h' : Visited edge src' M' M'') :
    Visited edge (src ∪ src') M M'' where
  sub := h.sub.trans h'.sub
  found := Set.union_subset (h.found.trans h'.sub) h'.found
  sound := by
    intro b hb
    rcases h'.sound b hb with hb | hb
    · exact (h.sound b hb).imp id fun hr => reached_mono Set.subset_union_left hr
    · exact .inr (reached_mono Set.subset_union_right hb)
  closed := by
    intro a ha hn b hab
    by_cases ha' : a ∈ M'
    · exact h'.sub (h.closed a ha' hn b hab)
    · exact h'.closed a ha ha' b hab

theorem Visited.node {c : α} (h : Visited edge {b | edge c b} (insert c M) M') :
    Visited edge {c} M M' where
  sub := (Set.subset_insert c M).trans h.sub
  found := Set.singleton_subset_iff.2 (h.sub (Set.mem_insert c M))
  sound := by
    intro b hb
    rcases h.sound b hb with (rfl | hb) | ⟨a, hca, hab⟩
    · exact .inr ⟨b, rfl, .refl⟩
    · exact .inl hb
    · exact .inr ⟨c, rfl, .head hca hab⟩
  closed := by
    intro a ha hn b hab
    by_cases hac : a = c
    · subst hac
      exact h.found hab
    · exact h.closed a ha (fun hi => hi.elim hac hn) b hab

/-- **A search on a graph without marks marks exactly what the sources lead to.** -/
theorem Visited.eq_reached (h : Visited edge src ∅ M') : M' = reached edge src := by
  apply Set.Subset.antisymm
  · intro b hb
    exact (h.sound b hb).resolve_left (Set.notMem_empty b)
  · rintro b ⟨a, ha, hab⟩
    -- along the path: the source is marked, and a marked node hands its mark on
    induction hab with
    | refl => exact h.found ha
    | tail _ hbc ih => exact h.closed _ ih (Set.notMem_empty _) _ hbc

end Marking
