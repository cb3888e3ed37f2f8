/-
**Rings of a linear order.**

A finite set of a linear order becomes a ring when each of its elements points to the next larger
one and the largest to the smallest, as in a circular list that is kept in ascending order.

Main definitions:

* `IsRing` — the ring as a property of the pointers;
* `Between` — the place of a new element.

Main results:

* `IsRing.insert`, `IsRing.erase` — the changes of the pointers for one element.
-/

import Mathlib

set_option autoImplicit false

namespace OrderRing

open Function Finset

variable {α : Type} [LinearOrder α] {F : Finset α} {next : α → α} {p q b : α}

/-- `q` follows `p`: it is the next larger element, or `p` is the largest and `q` the smallest. -/
def Follows (F : Finset α) (p q : α) : Prop :=
  q ∈ F ∧ ((p < q ∧ ∀ x ∈ F, x ≤ p ∨ q ≤ x) ∨ (q ≤ p ∧ ∀ x ∈ F, q ≤ x ∧ x ≤ p))

/-- **The pointers make the set a ring.** -/
def IsRing (F : Finset α) (next : α → α) : Prop := ∀ p ∈ F, Follows F p (next p)

/-- `b` belongs between `p` and the element `q` after it. -/
def Between (p b q : α) : Prop := (p < b ∧ b < q) ∨ (q ≤ p ∧ (p < b ∨ b < q))

instance (p b q : α) : Decidable (Between p b q) := inferInstanceAs (Decidable (_ ∨ _))

/-! ### Following the pointers -/

section

variable (h : IsRing F next)

include h

theorem IsRing.next_mem (hp : p ∈ F) : next p ∈ F := (h p hp).1

theorem IsRing.iterate_mem (hp : p ∈ F) (k : ℕ) : next^[k] p ∈ F := by
  induction k with
  | zero => exact hp
  | succ k ih =>
    rw [iterate_succ_apply']
    exact h.next_mem ih

theorem IsRing.reach_le (hq : q ∈ F) : ∀ (n : ℕ) {p : α}, p ∈ F → p ≤ q →
    (F.filter fun x => p < x ∧ x ≤ q).card ≤ n → ∃ k, next^[k] p = q := by
  intro n
  induction n with
  | zero =>
    intro p hp hpq hcard
    refine ⟨0, le_antisymm hpq (not_lt.1 fun hlt => ?_)⟩
    have hmem : q ∈ F.filter fun x => p < x ∧ x ≤ q := mem_filter.2 ⟨hq, hlt, le_rfl⟩
    rw [card_eq_zero.1 (Nat.le_zero.1 hcard)] at hmem
    exact absurd hmem (notMem_empty q)
  | succ n ih =>
    intro p hp hpq hcard
    rcases eq_or_lt_of_le hpq with rfl | hlt
    · exact ⟨0, rfl⟩
    · -- the pointer of `p` does not go past `q`
      obtain ⟨hmem, ⟨hup, hgap⟩ | ⟨-, hall⟩⟩ := h p hp
      · have hle : next p ≤ q := (hgap q hq).resolve_left (not_le.2 hlt)
        have hsub : (F.filter fun x => next p < x ∧ x ≤ q) ⊂ F.filter fun x => p < x ∧ x ≤ q := by
          refine ssubset_iff_of_subset (fun x hx => ?_) |>.2 ⟨next p, ?_, ?_⟩
          · obtain ⟨hxF, hx1, hx2⟩ := mem_filter.1 hx
            exact mem_filter.2 ⟨hxF, hup.trans hx1, hx2⟩
          · exact mem_filter.2 ⟨hmem, hup, hle⟩
          · exact fun hx => lt_irrefl _ (mem_filter.1 hx).2.1
        have hlt := card_lt_card hsub
        obtain ⟨k, hk⟩ := ih hmem hle (by omega)
        exact ⟨k + 1, by rw [iterate_succ_apply, hk]⟩
      · exact absurd (hall q hq).2 (not_le.2 hlt)

theorem IsRing.next_max (hp : p ∈ F) (hmax : ∀ x ∈ F, x ≤ p) : ∀ x ∈ F, next p ≤ x := by
  obtain ⟨hmem, ⟨hup, -⟩ | ⟨-, hall⟩⟩ := h p hp
  · exact absurd (hmax _ hmem) (not_le.2 hup)
  · exact fun x hx => (hall x hx).1

theorem IsRing.reach (hp : p ∈ F) (hq : q ∈ F) : ∃ k, next^[k] p = q := by
  have hne : F.Nonempty := ⟨p, hp⟩
  have hmax := F.max'_mem hne
  have hle : ∀ x ∈ F, x ≤ F.max' hne := fun x hx => F.le_max' x hx
  -- up to the largest element, over to the smallest, and up again
  obtain ⟨k1, hk1⟩ := h.reach_le hmax _ hp (hle p hp) le_rfl
  obtain ⟨k2, hk2⟩ := h.reach_le hq _ (h.next_mem hmax) (h.next_max hmax hle q hq) le_rfl
  refine ⟨k2 + (1 + k1), ?_⟩
  rw [iterate_add_apply, iterate_add_apply, hk1, iterate_one, hk2]

/-- **Every element is reached**, for the first time after fewer steps than there are elements. -/
theorem IsRing.exists_iterate (hp : p ∈ F) (hq : q ∈ F) :
    ∃ k < F.card, next^[k] p = q ∧ ∀ j < k, next^[j] p ≠ q := by
  classical
  have hex := h.reach hp hq
  have hspec := Nat.find_spec hex
  have hmin : ∀ j < Nat.find hex, next^[j] p ≠ q := fun j hj => Nat.find_min hex hj
  refine ⟨Nat.find hex, ?_, hspec, hmin⟩
  generalize Nat.find hex = k at hspec hmin
  -- an element that is visited twice could be left out
  have hinj : ∀ i j, i < j → j ≤ k → next^[i] p ≠ next^[j] p := by
    intro i j hij hjk heq
    refine hmin (k - j + i) (by omega) ?_
    rw [iterate_add_apply, heq, ← iterate_add_apply, Nat.sub_add_cancel hjk, hspec]
  have hcard : (Finset.range (k + 1)).card ≤ F.card := by
    refine card_le_card_of_injOn (fun i => next^[i] p) (fun i _ => h.iterate_mem hp i) ?_
    intro i hi j hj heq
    have hi' := mem_range.1 hi
    have hj' := mem_range.1 hj
    rcases lt_trichotomy i j with hlt | heq' | hgt
    · exact absurd heq (hinj i j hlt (by omega))
    · exact heq'
    · exact absurd heq.symm (hinj j i hgt (by omega))
  rw [card_range] at hcard
  omega

theorem IsRing.existsUnique_wrap (hne : F.Nonempty) : ∃! p, p ∈ F ∧ next p ≤ p := by
  have hmax := F.max'_mem hne
  refine ⟨F.max' hne, ⟨hmax, F.le_max' _ (h.next_mem hmax)⟩, ?_⟩
  rintro p ⟨hp, hle⟩
  obtain ⟨-, ⟨hup, -⟩ | ⟨-, hall⟩⟩ := h p hp
  · exact absurd hle (not_le.2 hup)
  · exact le_antisymm (F.le_max' p hp) (hall _ hmax).2

theorem IsRing.next_inj (hp : p ∈ F) (hq : q ∈ F) (heq : next p = next q) : p = q := by
  obtain ⟨-, ⟨hup, hgap⟩ | ⟨hle, hall⟩⟩ := h p hp
  · obtain ⟨-, ⟨hup', hgap'⟩ | ⟨hle', hall'⟩⟩ := h q hq
    · rw [heq] at hup hgap
      exact le_antisymm ((hgap' p hp).resolve_right (not_le.2 hup))
        ((hgap q hq).resolve_right (not_le.2 hup'))
    · exact absurd (hall' p hp).1 (not_le.2 (heq ▸ hup))
  · obtain ⟨-, ⟨hup', hgap'⟩ | ⟨hle', hall'⟩⟩ := h q hq
    · exact absurd (hall q hq).1 (not_le.2 (heq ▸ hup'))
    · exact le_antisymm (hall' p hp).2 (hall q hq).2

end

/-! ### Inserting and removing -/

theorem IsRing.exists_between (h : IsRing F next) (hne : F.Nonempty) (hb : b ∉ F) :
    ∃ p ∈ F, Between p b (next p) := by
  by_cases hlow : (F.filter (· < b)).Nonempty
  · -- after the largest element below `b`
    have hp := mem_filter.1 ((F.filter (· < b)).max'_mem hlow)
    refine ⟨_, hp.1, ?_⟩
    generalize hpdef : (F.filter (· < b)).max' hlow = p at hp
    rcases lt_or_ge p (next p) with hup | hdown
    · refine .inl ⟨hp.2, lt_of_not_ge fun hle => ?_⟩
      have hmem := h.next_mem hp.1
      have hlt : next p < b := lt_of_le_of_ne hle fun heq => hb (heq ▸ hmem)
      have hmax := (F.filter (· < b)).le_max' _ (mem_filter.2 ⟨hmem, hlt⟩)
      rw [hpdef] at hmax
      exact absurd hmax (not_le.2 hup)
    · exact .inr ⟨hdown, .inl hp.2⟩
  · have hmax := F.max'_mem hne
    refine ⟨_, hmax, .inr ⟨F.le_max' _ (h.next_mem hmax), .inr ?_⟩⟩
    have hmem := h.next_mem hmax
    refine lt_of_le_of_ne (not_lt.1 fun hlt => hlow ⟨_, mem_filter.2 ⟨hmem, hlt⟩⟩) ?_
    exact fun heq => hb (heq ▸ hmem)

variable {x : α}

section

variable (h : IsRing F next) (hp : p ∈ F)

include h hp

theorem IsRing.between_left (hbt : Between p b (next p)) (hx : x ∈ F) (hxb : x < b) : x ≤ p := by
  obtain ⟨-, ⟨hup, hgap⟩ | ⟨hle, hall⟩⟩ := h p hp
  · rcases hbt with ⟨-, hb⟩ | ⟨hle, -⟩
    · exact (hgap x hx).resolve_right fun hle => absurd (hle.trans_lt hxb) (not_lt.2 hb.le)
    · exact absurd hle (not_le.2 hup)
  · exact (hall x hx).2

theorem IsRing.between_right (hbt : Between p b (next p)) (hx : x ∈ F) (hbx : b < x) :
    next p ≤ x := by
  obtain ⟨-, ⟨hup, hgap⟩ | ⟨hle, hall⟩⟩ := h p hp
  · rcases hbt with ⟨hb, -⟩ | ⟨hle, -⟩
    · exact (hgap x hx).resolve_left fun hle => absurd (hbx.trans_le hle) (not_lt.2 hb.le)
    · exact absurd hle (not_le.2 hup)
  · exact (hall x hx).1

theorem IsRing.between_end (hle : next p ≤ p) (hx : x ∈ F) : next p ≤ x ∧ x ≤ p := by
  obtain ⟨-, ⟨hup, -⟩ | ⟨-, hall⟩⟩ := h p hp
  · exact absurd hle (not_le.2 hup)
  · exact hall x hx

theorem IsRing.insert (hb : b ∉ F) (hbt : Between p b (next p)) :
    IsRing (insert b F) (update (update next b (next p)) p b) := by
  have hF : ∀ {x}, x ∈ F → x < b ∨ b < x := fun hx => lt_or_gt_of_ne fun heq => hb (heq ▸ hx)
  have hleft : ∀ {x}, x ∈ F → x < b → x ≤ p := fun hx => h.between_left hp hbt hx
  have hright : ∀ {x}, x ∈ F → b < x → next p ≤ x := fun hx => h.between_right hp hbt hx
  have hnp := h.next_mem hp
  intro y hy
  rcases eq_or_ne y p with rfl | hyp
  · rw [update_self]
    refine ⟨mem_insert_self b F, ?_⟩
    rcases hF hp with hlt | hgt
    · refine .inl ⟨hlt, (forall_mem_insert ..).2 ⟨.inr le_rfl, fun x hx => ?_⟩⟩
      exact (hF hx).imp (hleft hx) le_of_lt
    · have hle := (hright hp hgt)
      have hlow : b < next y := (hbt.resolve_left fun hin => lt_asymm hin.1 hgt).2.resolve_left
        (lt_asymm hgt)
      refine .inr ⟨hgt.le, (forall_mem_insert ..).2 ⟨⟨le_rfl, hgt.le⟩, fun x hx => ?_⟩⟩
      exact ⟨hlow.le.trans (h.between_end hp hle hx).1, (h.between_end hp hle hx).2⟩
  · rw [update_of_ne hyp]
    rcases mem_insert.1 hy with rfl | hyF
    · rw [update_self]
      refine ⟨mem_insert_of_mem hnp, ?_⟩
      rcases hF hnp with hlt | hgt
      · have hend := hbt.resolve_left fun hin => lt_asymm hin.2 hlt
        have hpy : p < y := hend.2.resolve_right (lt_asymm hlt)
        refine .inr ⟨hlt.le, (forall_mem_insert ..).2 ⟨⟨hlt.le, le_rfl⟩, fun x hx => ?_⟩⟩
        exact ⟨(h.between_end hp hend.1 hx).1, (h.between_end hp hend.1 hx).2.trans hpy.le⟩
      · refine .inl ⟨hgt, (forall_mem_insert ..).2 ⟨.inl le_rfl, fun x hx => ?_⟩⟩
        exact (hF hx).imp le_of_lt (hright hx)
    · have hyb : y ≠ b := fun heq => hb (heq ▸ hyF)
      rw [update_of_ne hyb]
      obtain ⟨hmem, ⟨hup, hgap⟩ | ⟨hle, hall⟩⟩ := h y hyF
      · refine ⟨mem_insert_of_mem hmem, .inl ⟨hup, (forall_mem_insert ..).2 ⟨?_, hgap⟩⟩⟩
        rcases hF hyF with hlt | hgt
        · -- `p` is above `y`, so it is not below the element after `y`
          have hyp' : y < p := lt_of_le_of_ne (hleft hyF hlt) hyp
          have hnext : next y ≤ p := (hgap p hp).resolve_left (not_le.2 hyp')
          rcases hbt with ⟨hpb', -⟩ | ⟨hend, hpb' | hlow⟩
          · exact .inr (hnext.trans hpb'.le)
          · exact .inr (hnext.trans hpb'.le)
          · exact absurd (hlow.trans_le (h.between_end hp hend hyF).1) (lt_asymm hlt)
        · exact .inl hgt.le
      · -- `y` is the largest element, so `b` is inside
        have hpy : p < y := lt_of_le_of_ne (hall p hp).2 (Ne.symm hyp)
        rcases hbt with ⟨hpb', hbn⟩ | ⟨hend, -⟩
        · refine ⟨mem_insert_of_mem hmem, .inr ⟨hle, (forall_mem_insert ..).2 ⟨⟨?_, ?_⟩, hall⟩⟩⟩
          · exact (hall p hp).1.trans hpb'.le
          · exact hbn.le.trans (hall _ hnp).2
        · exact absurd (h.between_end hp hend hyF).2 (not_le.2 hpy)

theorem IsRing.erase (hne : next p ≠ p) :
    IsRing (F.erase (next p)) (update next p (next (next p))) := by
  have hq := h.next_mem hp
  have hlast : next (next p) ≠ next p := fun heq => hne (h.next_inj hq hp heq)
  intro y hy
  obtain ⟨hyq, hyF⟩ := mem_erase.1 hy
  rcases eq_or_ne y p with rfl | hyp
  · rw [update_self]
    refine ⟨mem_erase.2 ⟨hlast, h.next_mem hq⟩, ?_⟩
    obtain ⟨-, ⟨hup, hgap⟩ | ⟨hle, hall⟩⟩ := h y hp
    · obtain ⟨-, ⟨hup', hgap'⟩ | ⟨hle', hall'⟩⟩ := h _ hq
      · refine .inl ⟨hup.trans hup', fun x hx => ?_⟩
        obtain ⟨hxq, hxF⟩ := mem_erase.1 hx
        rcases hgap x hxF with hx' | hx'
        · exact .inl hx'
        · exact .inr ((hgap' x hxF).resolve_left fun hle => hxq (le_antisymm hle hx'))
      · refine .inr ⟨(hall' y hp).1, fun x hx => ⟨(hall' x (mem_of_mem_erase hx)).1, ?_⟩⟩
        obtain ⟨hxq, hxF⟩ := mem_erase.1 hx
        exact (hgap x hxF).resolve_right fun hge => hxq (le_antisymm (hall' x hxF).2 hge)
    · have hlt : next y < y := lt_of_le_of_ne hle hne
      obtain ⟨-, ⟨hup', hgap'⟩ | ⟨hle', hall'⟩⟩ := h _ hq
      · refine .inr ⟨(hgap' y hp).resolve_left (not_le.2 hlt), fun x hx => ?_⟩
        obtain ⟨hxq, hxF⟩ := mem_erase.1 hx
        exact ⟨(hgap' x hxF).resolve_left fun hge => hxq (le_antisymm hge (hall x hxF).1),
          (hall x hxF).2⟩
      · exact absurd (hall' y hp).2 (not_le.2 hlt)
  · rw [update_of_ne hyp]
    have hmem : next y ≠ next p := fun heq => hyp (h.next_inj hyF hp heq)
    refine ⟨mem_erase.2 ⟨hmem, h.next_mem hyF⟩, ?_⟩
    obtain ⟨-, ⟨hup, hgap⟩ | ⟨hle, hall⟩⟩ := h y hyF
    · exact .inl ⟨hup, fun x hx => hgap x (mem_of_mem_erase hx)⟩
    · exact .inr ⟨hle, fun x hx => hall x (mem_of_mem_erase hx)⟩

end

end OrderRing
