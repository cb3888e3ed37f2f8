/-
**Blocks that fill a region.**

A finite set of numbers with a length for each is a set of blocks, `[x, x + len x)` for `x` in the
set.

Main definitions:

* `Tiles` — they do not overlap and the region is their union.  Blocks of length 0 must not lie
  inside another block.

Main results:

* `Tiles.merge_iff` — joining two neighbours.
-/

import Mathlib

set_option autoImplicit false

namespace Tiling

variable {S : Finset ℕ} {len len' : ℕ → ℕ} {A A' : ℕ → Prop} {x y a b m n : ℕ}

/-- **The blocks tile the region `A`.** -/
structure Tiles (S : Finset ℕ) (len : ℕ → ℕ) (A : ℕ → Prop) : Prop where
  apart : ∀ x ∈ S, ∀ y ∈ S, x < y → x + len x ≤ y
  cover : ∀ b, A b ↔ ∃ x ∈ S, x ≤ b ∧ b < x + len x

theorem Tiles.congr (h : Tiles S len A) (hlen : ∀ x ∈ S, len' x = len x) (hA : ∀ b, A' b ↔ A b) :
    Tiles S len' A' := by
  refine ⟨fun x hx y hy hlt => ?_, fun b => ?_⟩
  · rw [hlen x hx]
    exact h.apart x hx y hy hlt
  · refine (hA b).trans ((h.cover b).trans (exists_congr fun x => and_congr_right fun hx => ?_))
    rw [hlen x hx]

theorem Tiles.notMem (h : Tiles S len A) (hx : x ∈ S) (hlt : x < b) (hb : b < x + len x) : b ∉ S :=
  fun hmem => absurd (h.apart x hx b hmem hlt) (Nat.not_le.2 hb)

theorem Tiles.unique (h : Tiles S len A) (hx : x ∈ S) (hy : y ∈ S) (hbx : x ≤ b ∧ b < x + len x)
    (hby : y ≤ b ∧ b < y + len y) : y = x := by
  have := h.apart x hx y hy
  have := h.apart y hy x hx
  omega

/-- **Two adjacent blocks and the block that they make together.** -/
theorem Tiles.merge_iff (hx : x ∈ S) (hm : len' x = m) (hy : x + m = y) (hlt : x < y) (hyS : y ∉ S)
    (hn : len' y = n) (hlen : len x = m + n) (hrest : ∀ z ∈ S, z ≠ x → len z = len' z) :
    Tiles (insert y S) len' A ↔ Tiles S len A := by
  have hin : ∀ b, (∃ z ∈ S, z ≤ b ∧ b < z + len z) ↔
      ∃ z ∈ insert y S, z ≤ b ∧ b < z + len' z := by
    intro b
    constructor
    · rintro ⟨z, hz, hb⟩
      by_cases hby : z = x ∧ y ≤ b
      · exact ⟨y, by grind⟩
      · exact ⟨z, by grind⟩
    · rintro ⟨z, hz, hb⟩
      by_cases hzy : z = y
      · exact ⟨x, by grind⟩
      · exact ⟨z, by grind⟩
  constructor
  · intro h
    refine ⟨fun u hu v hv huv => ?_, fun b => (h.cover b).trans (hin b).symm⟩
    -- a block after `x` is after `y` too
    have := h.apart u (Finset.mem_insert_of_mem hu) v (Finset.mem_insert_of_mem hv) huv
    have := h.apart y (Finset.mem_insert_self y S) v (Finset.mem_insert_of_mem hv)
    grind
  · intro h
    refine ⟨fun u hu v hv huv => ?_, fun b => (h.cover b).trans (hin b)⟩
    have := h.apart u
    have := h.apart x hx
    grind

theorem Tiles.insert (h : Tiles S len A) (hn : 0 < n)
    (hnew : ∀ b, a ≤ b → b < a + n → ¬ A b ∧ b ∉ S) (hlen : ∀ x ∈ S, len' x = len x)
    (ha : len' a = n) :
    Tiles (insert a S) len' fun b => (a ≤ b ∧ b < a + n) ∨ A b := by
  refine ⟨fun x hx y hy hlt => ?_, fun b => ?_⟩
  · have hA := h.cover a
    have hout := hnew y
    have := hnew a le_rfl (by omega)
    have := h.apart x
    grind
  · rw [h.cover, Finset.exists_mem_insert, ha]
    refine or_congr_right (exists_congr fun x => and_congr_right fun hx => ?_)
    rw [hlen x hx]

end Tiling
