/-
**Moves of bytes between ranges that may overlap.**

`memmove` of `kernel/string.c` and `memmove` of `user/ulib.c`, which decide by different tests
whether to copy upwards or downwards.  Memory is a function of the address, and pointers are numbers
of 64 bits.

Main results:

* `copyUp_moved`, `copyDown_moved` — a copy upwards is exact unless the destination begins inside
  the source, and a copy downwards unless the source begins inside the destination;
* `memmove_moves` — both functions move the bytes.
-/

import Mathlib

set_option autoImplicit false

namespace CsklubOs

open Function

/-! ### The code -/

/-- A pointer: an address of 64 bits. -/
def ptr (a : ℕ) : ℕ := a % 2 ^ 64

/-- `while(n-- > 0) *d++ = *s++;` -/
def copyUp : ℕ → ℕ → ℕ → (ℕ → UInt8) → ℕ → UInt8
  | 0, _, _, mem => mem
  | n + 1, d, s, mem => copyUp n (ptr (d + 1)) (ptr (s + 1)) (update mem d (mem s))

/-- `while(n-- > 0) *--d = *--s;` -/
def copyDown : ℕ → ℕ → ℕ → (ℕ → UInt8) → ℕ → UInt8
  | 0, _, _, mem => mem
  | n + 1, d, s, mem =>
    let d := ptr (d + (2 ^ 64 - 1))
    let s := ptr (s + (2 ^ 64 - 1))
    copyDown n d s (update mem d (mem s))

/-- `memmove` of the kernel: the value that it returns and the memory. -/
def Kernel.memmove (dst src n : ℕ) (mem : ℕ → UInt8) : ℕ × (ℕ → UInt8) :=
  if n = 0 then (dst, mem)
  else if src < dst ∧ dst < ptr (src + n) then (dst, copyDown n (ptr (dst + n)) (ptr (src + n)) mem)
  else (dst, copyUp n dst src mem)

/-- `memmove` of the user library, whose length is an `int`. -/
def User.memmove (dst src : ℕ) (n : ℤ) (mem : ℕ → UInt8) : ℕ × (ℕ → UInt8) :=
  if dst < src then (dst, copyUp n.toNat dst src mem)
  else (dst, copyDown n.toNat (ptr (dst + n.toNat)) (ptr (src + n.toNat)) mem)

/-! ### The loops -/

variable {dst src n : ℕ} {mem mem' : ℕ → UInt8}

/-- `n` bytes have been moved from `src` to `dst`, and nothing else has changed. -/
structure Moved (dst src n : ℕ) (mem mem' : ℕ → UInt8) : Prop where
  inside : ∀ i < n, mem' (dst + i) = mem (src + i)
  outside : ∀ a, a < dst ∨ dst + n ≤ a → mem' a = mem a

theorem ptr_of_lt {a : ℕ} (h : a < 2 ^ 64) : ptr a = a := Nat.mod_eq_of_lt h

theorem ptr_pred {a : ℕ} (h : a < 2 ^ 64) : ptr (ptr (a + 1) + (2 ^ 64 - 1)) = a := by
  unfold ptr
  omega

/-- **A copy upwards is a move** unless the destination begins inside the source. -/
theorem copyUp_moved (hd : dst + n ≤ 2 ^ 64) (hs : src + n ≤ 2 ^ 64)
    (h : dst ≤ src ∨ src + n ≤ dst) : Moved dst src n mem (copyUp n dst src mem) := by
  induction n generalizing dst src mem with
  | zero => exact ⟨fun i hi => absurd hi i.not_lt_zero, fun _ _ => rfl⟩
  | succ n ih =>
    rw [copyUp]
    rcases n.eq_zero_or_pos with rfl | hn
    · refine ⟨fun i hi => ?_, fun a ha => ?_⟩
      · obtain rfl : i = 0 := by omega
        simp [copyUp]
      · simp [copyUp, show a ≠ dst by omega]
    · rw [ptr_of_lt (by omega), ptr_of_lt (by omega)]
      obtain ⟨hin, hout⟩ := @ih (dst + 1) (src + 1) (update mem dst (mem src)) (by omega) (by omega)
        (by omega)
      refine ⟨fun i hi => ?_, fun a ha => ?_⟩
      · cases i with
        | zero => simp [hout dst (by omega)]
        | succ i =>
          -- the byte at `dst` is not one that is still to be read
          have hstep := hin i (by omega)
          rw [update_apply, if_neg (by omega)] at hstep
          rwa [Nat.add_right_comm, Nat.add_right_comm src] at hstep
      · simp [hout a (by omega), show a ≠ dst by omega]

/-- **A copy downwards is a move** unless the source begins inside the destination. -/
theorem copyDown_moved (hd : dst + n ≤ 2 ^ 64) (hs : src + n ≤ 2 ^ 64)
    (h : src ≤ dst ∨ dst + n ≤ src) :
    Moved dst src n mem (copyDown n (ptr (dst + n)) (ptr (src + n)) mem) := by
  induction n generalizing mem with
  | zero => exact ⟨fun i hi => absurd hi i.not_lt_zero, fun _ _ => rfl⟩
  | succ n ih =>
    have hd' : dst + n < 2 ^ 64 := by omega
    have hs' : src + n < 2 ^ 64 := by omega
    simp only [copyDown, ← Nat.add_assoc, ptr_pred hd', ptr_pred hs']
    have hstep := @ih (update mem (dst + n) (mem (src + n))) (by omega) (by omega) (by omega)
    rw [ptr_of_lt hd', ptr_of_lt hs'] at hstep
    obtain ⟨hin, hout⟩ := hstep
    refine ⟨fun i hi => ?_, fun a ha => ?_⟩
    · rcases (Nat.lt_succ_iff_lt_or_eq.1 hi) with hlt | rfl
      · rw [hin i hlt, update_apply, if_neg (by omega)]
      · rw [hout _ (by omega), update_apply, if_pos rfl]
    · rw [hout a (by omega), update_apply, if_neg (by omega)]

/-! ### The functions -/

theorem Kernel.memmove_moved (hd : dst + n ≤ 2 ^ 64) (hs : src + n ≤ 2 ^ 64) :
    Moved dst src n mem (Kernel.memmove dst src n mem).2 := by
  unfold Kernel.memmove
  split_ifs with hn hdown
  · exact ⟨fun i hi => by omega, fun _ _ => rfl⟩
  · exact copyDown_moved hd hs (.inl hdown.1.le)
  · refine copyUp_moved hd hs ?_
    -- `src + n` wraps only when `src` is not below `dst`
    by_contra hover
    rw [ptr_of_lt (by omega)] at hdown
    omega

theorem User.memmove_moved {n : ℤ} (hd : dst + n.toNat ≤ 2 ^ 64) (hs : src + n.toNat ≤ 2 ^ 64) :
    Moved dst src n.toNat mem (User.memmove dst src n mem).2 := by
  unfold User.memmove
  split_ifs with hup
  · exact copyUp_moved hd hs (.inl hup.le)
  · exact copyDown_moved hd hs (.inl (Nat.not_lt.1 hup))

/-- **Both functions move the bytes**, for every relative position of the two ranges, of which
neither wraps around the end of the address space, and return the destination. -/
theorem memmove_moves (dst src : ℕ) (mem : ℕ → UInt8) :
    (∀ n : ℕ, dst + n ≤ 2 ^ 64 → src + n ≤ 2 ^ 64 →
      (Kernel.memmove dst src n mem).1 = dst ∧ Moved dst src n mem
      (Kernel.memmove dst src n mem).2) ∧
    ∀ n : ℤ, dst + n.toNat ≤ 2 ^ 64 → src + n.toNat ≤ 2 ^ 64 →
      (User.memmove dst src n mem).1 = dst ∧ Moved dst src n.toNat mem
      (User.memmove dst src n mem).2 := by
  constructor
  · intro n hd hs
    refine ⟨?_, Kernel.memmove_moved hd hs⟩
    unfold Kernel.memmove
    split_ifs <;> rfl
  · intro n hd hs
    refine ⟨?_, User.memmove_moved hd hs⟩
    unfold User.memmove
    split_ifs <;> rfl

/-- Three bytes are moved one place up, and one place down. -/
theorem memmove_moves_three :
    (Kernel.memmove 1 0 3 UInt8.ofNat).2 3 = 2 ∧ (User.memmove 0 1 3 UInt8.ofNat).2 0 = 1 :=
  ⟨((memmove_moves 1 0 _).1 3 (by decide) (by decide)).2.inside 2 (by decide),
    ((memmove_moves 0 1 _).2 3 (by decide) (by decide)).2.inside 0 (by decide)⟩

end CsklubOs
