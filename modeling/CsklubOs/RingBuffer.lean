/-
**Ring buffers with free-running counters.**

A producer stores at the index `nwrite` modulo the capacity and increments `nwrite`; a consumer
takes from the index `nread` modulo the capacity and increments `nread`.  The counters are machine
words that wrap around, which does no harm when the capacity divides `2 ^ w`.

Main definitions:

* `RingBuf` — the cells and the counters;
* `contents` — the stored values, first in first out.

Main results:

* `nread_eq_iff`, `full_iff` — the tests of the code for an empty and a full buffer are right.
-/

import Mathlib

set_option autoImplicit false

/-- A buffer of `N` places with counters of `w` bits. -/
structure RingBuf (w N : ℕ) (α : Type) where
  data : Fin N → α
  nread : BitVec w
  nwrite : BitVec w

namespace RingBuf

open List

variable {w N : ℕ} [NeZero N] {α : Type} (r : RingBuf w N α)

/-- The place that a counter stands for. -/
def slot (N : ℕ) [NeZero N] (c : BitVec w) : Fin N := Fin.ofNat N c.toNat

/-- The number of values that are stored. -/
def count : ℕ := (r.nwrite - r.nread).toNat

/-- The stored values, the oldest first. -/
def contents : List α :=
  (List.range r.count).map fun i => r.data (slot N (r.nread + BitVec.ofNat w i))

/-- Storing a value. -/
def put (x : α) : RingBuf w N α :=
  { r with
    data := Function.update r.data (slot N r.nwrite) x
    nwrite := r.nwrite + 1 }

/-- The value that is taken next. -/
def head : α := r.data (slot N r.nread)

/-- Taking a value. -/
def take : RingBuf w N α := { r with nread := r.nread + 1 }

/-! ### Counters -/

section

omit [NeZero N]

theorem nread_add_count : r.nread + BitVec.ofNat w r.count = r.nwrite := by
  rw [count, BitVec.ofNat_toNat, BitVec.setWidth_eq, BitVec.add_comm, BitVec.sub_add_cancel]

theorem count_lt : r.count < 2 ^ w := (r.nwrite - r.nread).isLt

/-- **The buffer is empty when the counters are equal.** -/
theorem nread_eq_iff : r.nread = r.nwrite ↔ r.count = 0 := by
  constructor
  · intro h
    simp [count, h]
  · intro h
    have hadd := r.nread_add_count
    rw [h] at hadd
    simpa using hadd

/-- **The buffer is full when the counters are the capacity apart.** -/
theorem full_iff (hlt : N < 2 ^ w) (r : RingBuf w N α) :
    r.nwrite = r.nread + BitVec.ofNat w N ↔ r.count = N := by
  constructor
  · intro h
    rw [count, h, BitVec.add_comm, BitVec.add_sub_cancel, BitVec.toNat_ofNat, Nat.mod_eq_of_lt hlt]
  · intro h
    have hadd := r.nread_add_count
    rw [h] at hadd
    exact hadd.symm

end

theorem slot_add_eq_iff (hdvd : N ∣ 2 ^ w) (c : BitVec w) {i j : ℕ} :
    slot N (c + BitVec.ofNat w i) = slot N (c + BitVec.ofNat w j) ↔ i % N = j % N := by
  have hval : ∀ k, (slot N (c + BitVec.ofNat w k)).val = (c.toNat + k) % N := by
    intro k
    show ((c + BitVec.ofNat w k).toNat) % N = _
    rw [BitVec.toNat_add, Nat.mod_mod_of_dvd _ hdvd, BitVec.toNat_ofNat, Nat.add_mod,
      Nat.mod_mod_of_dvd _ hdvd, ← Nat.add_mod]
  rw [Fin.ext_iff, hval, hval]
  exact ⟨fun h => Nat.ModEq.add_left_cancel' _ h, fun h => Nat.ModEq.add_left _ h⟩

/-! ### Stores and takes -/

theorem toNat_one (hw : 1 < 2 ^ w) : (1 : BitVec w).toNat = 1 := by
  rw [BitVec.ofNat_eq_ofNat, BitVec.toNat_ofNat, Nat.mod_eq_of_lt hw]

theorem count_put (hlt : N < 2 ^ w) (r : RingBuf w N α) (x : α) (h : r.count < N) :
    (r.put x).count = r.count + 1 := by
  have hsub : (r.put x).nwrite - (r.put x).nread = r.nwrite - r.nread + 1 := by
    simp only [put]
    rw [BitVec.sub_eq_add_neg, BitVec.sub_eq_add_neg, BitVec.add_assoc, BitVec.add_assoc,
      BitVec.add_comm 1]
  rw [count, hsub, BitVec.toNat_add, toNat_one (Nat.lt_of_le_of_lt (Nat.one_le_of_lt h) hlt),
    Nat.mod_eq_of_lt]
  · rfl
  · exact lt_of_le_of_lt (Nat.succ_le_of_lt h) hlt

theorem contents_put (hdvd : N ∣ 2 ^ w) (hlt : N < 2 ^ w) (r : RingBuf w N α) (x : α)
    (h : r.count < N) : (r.put x).contents = r.contents ++ [x] := by
  rw [contents, count_put hlt r x h, range_succ, map_append, map_singleton]
  congr 1
  · refine map_congr_left fun i hi => ?_
    have hi : i < r.count := mem_range.1 hi
    -- a place that is in use is not the one that is written
    refine Function.update_of_ne ?_ _ _
    show slot N (r.nread + BitVec.ofNat w i) ≠ slot N r.nwrite
    rw [← r.nread_add_count, Ne, slot_add_eq_iff hdvd, Nat.mod_eq_of_lt (by omega),
      Nat.mod_eq_of_lt h]
    omega
  · show [Function.update r.data (slot N r.nwrite) x (slot N (r.nread + BitVec.ofNat w r.count))] =
      [x]
    rw [r.nread_add_count, Function.update_self]

omit [NeZero N] in
theorem count_take (h : r.count ≠ 0) : r.take.count + 1 = r.count := by
  have hsub : r.take.nwrite - r.take.nread = r.nwrite - r.nread - 1 := by
    simp only [take]
    rw [BitVec.sub_eq_add_neg, BitVec.sub_eq_add_neg, BitVec.sub_eq_add_neg, BitVec.add_assoc,
      BitVec.neg_add, BitVec.sub_eq_add_neg]
  have hw : 1 < 2 ^ w := by
    have := r.count_lt
    omega
  have h1 := toNat_one hw
  have hle : (1 : BitVec w) ≤ r.nwrite - r.nread := by
    rw [BitVec.le_def, h1]
    exact Nat.one_le_iff_ne_zero.2 h
  rw [count, hsub, BitVec.toNat_sub_of_le hle, h1]
  exact Nat.sub_add_cancel (Nat.one_le_iff_ne_zero.2 h)

theorem contents_take (h : r.count ≠ 0) : r.contents = r.head :: r.take.contents := by
  rw [contents, ← r.count_take h, range_succ_eq_map, map_cons, map_map]
  congr 1
  · simp [head]
  · refine map_congr_left fun i _ => ?_
    show r.data _ = r.data (slot N (r.nread + 1 + BitVec.ofNat w i))
    rw [BitVec.add_assoc]
    congr 3
    rw [Nat.succ_eq_add_one, Nat.add_comm, BitVec.ofNat_add]
    rfl

/-! ### Taking back, and a counter in between -/

/-- Taking the last value back. -/
def unput : RingBuf w N α := { r with nwrite := r.nwrite - 1 }

omit [NeZero N] in
theorem count_unput (h : r.count ≠ 0) : r.unput.count + 1 = r.count := by
  -- the same difference of counters as after a take
  have hsub : r.nwrite - 1 - r.nread = r.nwrite - (r.nread + 1) := by grind
  have hsame : r.unput.count = r.take.count := congrArg BitVec.toNat hsub
  rw [hsame, r.count_take h]

theorem contents_unput (h : r.count ≠ 0) :
    r.contents = r.unput.contents ++ [r.data (slot N (r.nwrite - 1))] := by
  have hlast : r.nread + BitVec.ofNat w r.unput.count = r.nwrite - 1 := r.unput.nread_add_count
  rw [contents, ← r.count_unput h, range_succ, map_append, map_singleton, hlast]
  rfl

omit [NeZero N] in
theorem count_split (m : BitVec w) (h : (m - r.nread).toNat ≤ r.count) :
    r.count = (m - r.nread).toNat + (r.nwrite - m).toNat := by
  have hle : m - r.nread ≤ r.nwrite - r.nread := h
  have hsub : r.nwrite - m = r.nwrite - r.nread - (m - r.nread) := by grind
  rw [hsub, BitVec.toNat_sub_of_le hle]
  exact (Nat.add_sub_cancel' h).symm

theorem contents_split (m : BitVec w) (h : (m - r.nread).toNat ≤ r.count) :
    r.contents = contents ⟨r.data, r.nread, m⟩ ++ contents ⟨r.data, m, r.nwrite⟩ := by
  rw [contents, r.count_split m h, range_add, map_append, map_map]
  congr 1
  refine map_congr_left fun i _ => ?_
  have hplace : r.nread + BitVec.ofNat w ((m - r.nread).toNat + i) = m + BitVec.ofNat w i := by
    rw [BitVec.ofNat_add, BitVec.ofNat_toNat, BitVec.setWidth_eq]
    grind
  exact congrArg (fun c => r.data (slot N c)) hplace

@[simp] theorem length_contents : r.contents.length = r.count := by
  simp [contents]

end RingBuf

