/-
**Sequences of bytes.**

Structures that a program overlays on raw memory are, on a little-endian machine, sequences of bytes
in which a `k`-byte number is stored least significant byte first.

Main definitions:

* `leVal`, `leBytes` — the number in a sequence of bytes, and the bytes of a number;
* `splice` — a sequence of which a part is overwritten.

Main results:

* `leVal_leBytes` — the two codings are inverse.
-/

import Mathlib

set_option autoImplicit false

namespace ByteSeq

open List

/-- The number that a sequence of bytes, least significant first, stands for. -/
def leVal : List UInt8 → ℕ
  | [] => 0
  | b :: bs => b.toNat + 256 * leVal bs

/-- The `k` bytes, least significant first, of a number. -/
def leBytes : ℕ → ℕ → List UInt8
  | 0, _ => []
  | k + 1, v => UInt8.ofNat v :: leBytes k (v / 256)

@[simp] theorem leVal_nil : leVal [] = 0 := rfl

@[simp] theorem length_leBytes (k v : ℕ) : (leBytes k v).length = k := by
  induction k generalizing v with
  | zero => rfl
  | succ k ih => simp [leBytes, ih]

/-- **Reading back** what was stored in `k` bytes gives the number modulo `256 ^ k`. -/
theorem leVal_leBytes (k v : ℕ) : leVal (leBytes k v) = v % 256 ^ k := by
  induction k generalizing v with
  | zero => simp [leBytes, Nat.mod_one]
  | succ k ih =>
    have h256 : (UInt8.ofNat v).toNat = v % 256 := by simp
    rw [leBytes, leVal, ih, h256, pow_succ', Nat.mod_mul]

theorem leVal_leBytes_of_lt {k v : ℕ} (h : v < 256 ^ k) : leVal (leBytes k v) = v := by
  rw [leVal_leBytes, Nat.mod_eq_of_lt h]

theorem leVal_lt (bs : List UInt8) : leVal bs < 256 ^ bs.length := by
  induction bs with
  | nil => simp
  | cons b bs ih =>
    have hb : b.toNat < 256 := b.toNat_lt
    rw [leVal, length_cons, pow_succ']
    omega

variable {m off : ℕ} {α : Type}

theorem take_drop_flatMap {β : Type} {f : α → List β} (hf : ∀ a, (f a).length = m) :
    ∀ (l : List α) (k : ℕ) (hk : k < l.length), ((l.flatMap f).drop (m * k)).take m = f l[k]
  | [], k, hk => absurd hk (Nat.not_lt_zero k)
  | a :: l, 0, _ => by
    exact take_left' (hf a)
  | a :: l, k + 1, hk => by
    rw [flatMap_cons, Nat.mul_succ, Nat.add_comm, ← drop_drop, drop_left' (hf a)]
    exact take_drop_flatMap hf l k (Nat.lt_of_succ_lt_succ hk)

theorem length_flatMap_of_length {β : Type} {f : α → List β} (hf : ∀ a, (f a).length = m)
    (l : List α) : (l.flatMap f).length = m * l.length := by
  induction l with
  | nil => rfl
  | cons a l ih => rw [flatMap_cons, length_append, hf, ih, length_cons, Nat.mul_succ, Nat.add_comm]

/-! ### Overwriting -/

/-- The sequence with `new` in place of what was at `off`; it grows if it has to. -/
def splice {α : Type} (old : List α) (off : ℕ) (new : List α) : List α :=
  old.take off ++ new ++ old.drop (off + new.length)

theorem length_splice {old new : List α} (h : off ≤ old.length) :
    (splice old off new).length = max old.length (off + new.length) := by
  simp only [splice, length_append, length_take, length_drop]
  omega

theorem getElem?_splice {old new : List α} (h : off ≤ old.length) (x : ℕ) :
    (splice old off new)[x]? =
      if off ≤ x ∧ x < off + new.length then new[x - off]? else old[x]? := by
  have htake : (old.take off).length = off := by
    rw [length_take]
    omega
  rw [splice, append_assoc, List.getElem?_append, htake]
  by_cases hlt : x < off
  · rw [if_pos hlt, if_neg (by omega), List.getElem?_take_of_lt hlt]
  · rw [if_neg hlt, List.getElem?_append]
    by_cases hin : x - off < new.length
    · rw [if_pos hin, if_pos (by omega)]
    · rw [if_neg hin, if_neg (by omega), List.getElem?_drop]
      congr 1
      omega

theorem map_range_eq_splice_iff {f g : ℕ → α} {m' : ℕ} {new : List α} (hoff : off ≤ m)
    (hm : m' = max m (off + new.length)) :
    (List.range m').map g = splice ((List.range m).map f) off new ↔
      ∀ x < m', some (g x) =
        if off ≤ x ∧ x < off + new.length then new[x - off]? else some (f x) := by
  have hoff' : off ≤ ((List.range m).map f).length := by simpa using hoff
  have hg : ∀ x < m', ((List.range m').map g)[x]? = some (g x) := by
    intro x hx
    simp [hx]
  have hf : ∀ x, x < m' → (splice ((List.range m).map f) off new)[x]? =
      if off ≤ x ∧ x < off + new.length then new[x - off]? else some (f x) := by
    intro x hx
    rw [getElem?_splice hoff']
    by_cases hin : off ≤ x ∧ x < off + new.length
    · rw [if_pos hin, if_pos hin]
    · have hxm : x < m := by omega
      simp [hxm]
  constructor
  · intro h x hx
    rw [← hf x hx, ← h, hg x hx]
  · intro h
    refine ext_getElem? fun x => ?_
    by_cases hx : x < m'
    · rw [hg x hx, hf x hx, h x hx]
    · have hlen : (splice ((List.range m).map f) off new).length = m' := by
        rw [length_splice hoff', length_map, length_range, hm]
      rw [List.getElem?_eq_none (by simpa using hx), List.getElem?_eq_none (by omega)]

end ByteSeq
