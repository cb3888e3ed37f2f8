/-
**Disk blocks.**

A disk block is a row of `BSIZE` bytes.  The kernel reads and writes its blocks either whole or
through structures overlaid on `b->data`.

Main definitions:

* `Block.read`, `Block.write` — access to bytes at an offset;
* `Block.word`, `Block.setWord` — access to a four-byte number.
-/

import CsklubOs.Params
import CsklubOs.ByteSeq

set_option autoImplicit false

namespace CsklubOs

open ByteSeq List

/-- The contents of a disk block. -/
def Block : Type := Fin bSize → UInt8

instance : DecidableEq Block := inferInstanceAs (DecidableEq (Fin bSize → UInt8))

instance : Inhabited Block := ⟨fun _ => 0⟩

namespace Block

/-- The all-zero block. -/
def zero : Block := fun _ => 0

/-- The byte at offset `i`; offsets outside the block read as `0`. -/
def byte (b : Block) (i : ℕ) : UInt8 :=
  if h : i < bSize then b ⟨i, h⟩ else 0

/-- The `k` bytes from offset `o` on. -/
def read (b : Block) (o k : ℕ) : List UInt8 :=
  (List.range k).map fun i => b.byte (o + i)

/-- The block with the bytes `bs` copied to offset `o`. -/
def write (b : Block) (o : ℕ) (bs : List UInt8) : Block :=
  fun j => if o ≤ j.val ∧ j.val < o + bs.length then bs.getD (j.val - o) 0 else b j

/-- The four-byte number at offset `o`. -/
def word (b : Block) (o : ℕ) : ℕ := leVal (b.read o 4)

/-- The block with a four-byte number stored at offset `o`. -/
def setWord (b : Block) (o v : ℕ) : Block := b.write o (leBytes 4 v)

@[ext] theorem ext_byte {b c : Block} (h : ∀ i < bSize, b.byte i = c.byte i) : b = c := by
  funext j
  have hj := h j.val j.isLt
  simpa [byte, j.isLt] using hj

@[simp] theorem length_read (b : Block) (o k : ℕ) : (b.read o k).length = k := by simp [read]

variable {i : ℕ}

section

variable (b : Block) (o : ℕ) (bs : List UInt8)

theorem byte_write (hi : i < bSize) :
    (b.write o bs).byte i =
      if o ≤ i ∧ i < o + bs.length then bs.getD (i - o) 0 else b.byte i := by
  simp [byte, hi, write]

theorem byte_write_of_disjoint (hd : i < o ∨ o + bs.length ≤ i) :
    (b.write o bs).byte i = b.byte i := by
  by_cases hi : i < bSize
  · rw [byte_write b o bs hi, if_neg (by omega)]
  · simp [byte, hi]

theorem read_write_sub {k : ℕ} (hik : i + k ≤ bs.length) (ho : o + bs.length ≤ bSize) :
    (b.write o bs).read (o + i) k = (bs.drop i).take k := by
  refine ext_getElem (by simp; omega) ?_
  intro l h1 h2
  have hl : l < k := by simpa using h1
  simp only [read, getElem_map, getElem_range, getElem_take, getElem_drop]
  rw [byte_write _ _ _ (by omega), if_pos (by omega), getD_eq_getElem _ _ (by omega)]
  congr 1
  omega

theorem read_write_self (ho : o + bs.length ≤ bSize) : (b.write o bs).read o bs.length = bs := by
  have h := read_write_sub b o bs (i := 0) (k := bs.length) (by omega) ho
  simpa using h

theorem read_write_of_disjoint {o' k : ℕ} (hd : o' + k ≤ o ∨ o + bs.length ≤ o') :
    (b.write o bs).read o' k = b.read o' k := by
  refine map_congr_left ?_
  intro i hi
  have hik : i < k := mem_range.1 hi
  exact byte_write_of_disjoint b o bs (by omega)

end

@[simp] theorem byte_zero (i : ℕ) : zero.byte i = 0 := by
  simp [byte, zero]

@[simp] theorem word_zero (o : ℕ) : zero.word o = 0 := by
  simp [word, read, leVal, range_succ]

theorem word_lt (b : Block) (o : ℕ) : b.word o < 2 ^ 32 := by
  have h := leVal_lt (b.read o 4)
  rw [length_read] at h
  exact h

theorem word_setWord (b : Block) {o : ℕ} (v : ℕ) (ho : o + 4 ≤ bSize) :
    (b.setWord o v).word o = v % 2 ^ 32 := by
  have h := read_write_self b o (leBytes 4 v) (by simpa using ho)
  rw [length_leBytes] at h
  rw [word, setWord, h, leVal_leBytes]
  norm_num

theorem word_setWord_of_disjoint (b : Block) {o o' : ℕ} (v : ℕ) (hd : o' + 4 ≤ o ∨ o + 4 ≤ o') :
    (b.setWord o v).word o' = b.word o' := by
  rw [word, setWord, read_write_of_disjoint b o (leBytes 4 v) (by simpa using hd), word]

end Block

end CsklubOs
