/-
**The disk as bytes.**

`kernel/fs.h` fixes where the inodes and the bits of the free map are in the blocks of the disk.  An
inode is 64 bytes: four numbers of two bytes and fourteen of four bytes, least significant byte
first.

Main definitions:

* `bytes`, `decode` — the bytes of an inode;
* `Fs.mount` — what the kernel sees of a disk: the inodes and the bits that it reads from there,
  with an empty inode table.
-/

import CsklubOs.Inode

set_option autoImplicit false

namespace CsklubOs

open ByteSeq List

/-! ### Numbers of two bytes and bits in a block -/

namespace Block

/-- The two-byte number at offset `o`. -/
def half (b : Block) (o : ℕ) : ℕ := leVal (b.read o 2)

/-- Bit `k` of a block of the free map. -/
def bit (b : Block) (k : ℕ) : Bool := (b.byte (k / 8)).toNat.testBit (k % 8)

end Block

/-! ### Inodes -/

/-- `sizeof(struct dinode)`. -/
def dinodeSize : ℕ := 64

/-- `T_DIR`, `T_FILE` and `T_DEVICE`, and `0` for an inode that is free. -/
def IType.code : IType → ℕ
  | .free => 0
  | .dir => 1
  | .file => 2
  | .device => 3

/-- The type that a number stands for. -/
def IType.ofCode : ℕ → IType
  | 1 => .dir
  | 2 => .file
  | 3 => .device
  | _ => .free

theorem IType.ofCode_code (type : IType) : IType.ofCode type.code = type := by
  cases type <;> rfl

/-- The two bytes of a `short`, as a number. -/
def shortBits (x : ℤ) : ℕ := (x % 2 ^ 16).toNat

namespace Dinode

/-- The numbers of two bytes of an inode. -/
def halves (d : Dinode) : List ℕ :=
  [d.type.code, shortBits d.major, shortBits d.minor, shortBits d.nlink]

/-- The numbers of four bytes of an inode. -/
def words (d : Dinode) : List ℕ := d.size :: List.ofFn d.addrs

/-- The bytes of an inode. -/
def bytes (d : Dinode) : List UInt8 := d.halves.flatMap (leBytes 2) ++ d.words.flatMap (leBytes 4)

/-- The inode at place `k` of a block. -/
def decode (b : Block) (k : ℕ) : Dinode where
  type := .ofCode (b.half (dinodeSize * k))
  major := short (b.half (dinodeSize * k + 2))
  minor := short (b.half (dinodeSize * k + 4))
  nlink := short (b.half (dinodeSize * k + 6))
  size := b.word (dinodeSize * k + 8)
  addrs j := b.word (dinodeSize * k + (12 + 4 * j))

/-- The fields of the inode fit the bytes that they have. -/
structure Fits (d : Dinode) : Prop where
  major : -2 ^ 15 ≤ d.major ∧ d.major < 2 ^ 15
  minor : -2 ^ 15 ≤ d.minor ∧ d.minor < 2 ^ 15
  nlink : -2 ^ 15 ≤ d.nlink ∧ d.nlink < 2 ^ 15
  size : d.size < 2 ^ 32
  addrs : ∀ k, d.addrs k < 2 ^ 32

theorem Fits.withSize {d : Dinode} (h : d.Fits) {n : ℕ} (hn : n < 2 ^ 32) :
    Fits { d with size := n } :=
  ⟨h.major, h.minor, h.nlink, hn, h.addrs⟩

theorem short_mem (x : ℤ) : -2 ^ 15 ≤ short x ∧ short x < 2 ^ 15 := by
  simp only [short, Int.bmod]
  omega

theorem fits_decode (b : Block) (k : ℕ) : (decode b k).Fits := by
  constructor <;> simp only [decode]
  · exact short_mem _
  · exact short_mem _
  · exact short_mem _
  · exact b.word_lt _
  · exact fun _ => b.word_lt _

theorem length_halves_bytes (d : Dinode) : (d.halves.flatMap (leBytes 2)).length = 8 :=
  length_flatMap_of_length (length_leBytes 2) d.halves

theorem length_words (d : Dinode) : d.words.length = 14 := by
  rfl

theorem length_bytes (d : Dinode) : d.bytes.length = dinodeSize := by
  rfl

variable {d : Dinode} {b : Block} {k j : ℕ}

theorem end_le (hk : k < ipb) : dinodeSize * k + dinodeSize ≤ bSize := by
  exact Nat.mul_le_mul_left _ hk

theorem half_write (hk : k < ipb) (hj : j < 4) :
    (b.write (dinodeSize * k) d.bytes).half (dinodeSize * k + 2 * j) =
      (d.halves.getD j 0) % 256 ^ 2 := by
  have hlen := d.length_bytes
  have hle := end_le hk
  have hdin : dinodeSize = 64 := rfl
  have h8 := d.length_halves_bytes
  have hj' : j < d.halves.length := hj
  have hpiece : (d.bytes.drop (2 * j)).take 2 = leBytes 2 d.halves[j] := by
    rw [bytes, drop_append_of_le_length (by omega), take_append_of_le_length
      (by rw [length_drop]; omega)]
    exact take_drop_flatMap (length_leBytes 2) d.halves j hj'
  rw [Block.half, Block.read_write_sub _ _ _ (by omega) (by omega), hpiece, leVal_leBytes,
    getD_eq_getElem _ _ hj']

theorem word_write (hk : k < ipb) (hj : j < 14) :
    (b.write (dinodeSize * k) d.bytes).word (dinodeSize * k + (8 + 4 * j)) =
      (d.words.getD j 0) % 256 ^ 4 := by
  have hlen := d.length_bytes
  have hle := end_le hk
  have hdin : dinodeSize = 64 := rfl
  have hj' : j < d.words.length := by rwa [length_words]
  have hpiece : (d.bytes.drop (8 + 4 * j)).take 4 = leBytes 4 d.words[j] := by
    rw [← drop_drop]
    exact take_drop_flatMap (length_leBytes 4) d.words j hj'
  rw [Block.word, Block.read_write_sub _ _ _ (by omega) (by omega), hpiece, leVal_leBytes,
    getD_eq_getElem _ _ hj']

theorem short_shortBits {x : ℤ} (h : -2 ^ 15 ≤ x ∧ x < 2 ^ 15) :
    short ((shortBits x % 256 ^ 2 : ℕ) : ℤ) = x := by
  simp only [short, shortBits, Int.bmod]
  omega

theorem decode_write (hd : d.Fits) (hk : k < ipb) :
    decode (b.write (dinodeSize * k) d.bytes) k = d := by
  have htype : (b.write (dinodeSize * k) d.bytes).half (dinodeSize * k) = d.type.code % 256 ^ 2 :=
    half_write hk (j := 0) (by decide)
  have hmajor : (b.write (dinodeSize * k) d.bytes).half (dinodeSize * k + 2) =
      shortBits d.major % 256 ^ 2 := half_write hk (j := 1) (by decide)
  have hminor : (b.write (dinodeSize * k) d.bytes).half (dinodeSize * k + 4) =
      shortBits d.minor % 256 ^ 2 := half_write hk (j := 2) (by decide)
  have hnlink : (b.write (dinodeSize * k) d.bytes).half (dinodeSize * k + 6) =
      shortBits d.nlink % 256 ^ 2 := half_write hk (j := 3) (by decide)
  have hsize : (b.write (dinodeSize * k) d.bytes).word (dinodeSize * k + 8) = d.size % 256 ^ 4 :=
    word_write hk (j := 0) (by decide)
  have haddrs : (fun a : Fin (nDirect + 1) => (b.write (dinodeSize * k) d.bytes).word
      (dinodeSize * k + (12 + 4 * a))) = d.addrs := by
    funext a
    have ha : a.val < 13 := a.isLt
    have hw := word_write (d := d) (b := b) hk (j := a + 1) (by omega)
    rw [words, getD_cons_succ,
      List.getD_eq_getElem _ _ (by rw [List.length_ofFn]; exact a.isLt), List.getElem_ofFn,
      Nat.mul_succ, Nat.add_comm _ 4, ← Nat.add_assoc 8] at hw
    exact hw.trans (Nat.mod_eq_of_lt (hd.addrs a))
  have hcode : d.type.code % 256 ^ 2 = d.type.code := by cases d.type <;> rfl
  rw [decode, htype, hmajor, hminor, hnlink, hsize, haddrs, hcode, IType.ofCode_code,
    short_shortBits hd.major, short_shortBits hd.minor, short_shortBits hd.nlink,
    show d.size % 256 ^ 4 = d.size from Nat.mod_eq_of_lt hd.size]

theorem decode_write_of_ne (hkj : j ≠ k) :
    decode (b.write (dinodeSize * k) d.bytes) j = decode b j := by
  have hread : ∀ o n, o + n ≤ dinodeSize → (b.write (dinodeSize * k) d.bytes).read
      (dinodeSize * j + o) n = b.read (dinodeSize * j + o) n := by
    intro o n ho
    refine Block.read_write_of_disjoint _ _ _ ?_
    rw [length_bytes]
    simp only [dinodeSize] at ho ⊢
    omega
  have hhalf : ∀ o, o + 2 ≤ dinodeSize → (b.write (dinodeSize * k) d.bytes).half
      (dinodeSize * j + o) = b.half (dinodeSize * j + o) := fun o ho => by
    rw [Block.half, hread o 2 ho, Block.half]
  have hword : ∀ o, o + 4 ≤ dinodeSize → (b.write (dinodeSize * k) d.bytes).word
      (dinodeSize * j + o) = b.word (dinodeSize * j + o) := fun o ho => by
    rw [Block.word, hread o 4 ho, Block.word]
  have haddrs : (fun a : Fin (nDirect + 1) => (b.write (dinodeSize * k) d.bytes).word
      (dinodeSize * j + (12 + 4 * a))) = fun a => b.word (dinodeSize * j + (12 + 4 * a.val)) := by
    funext a
    have ha : a.val < 13 := a.isLt
    have hdin : dinodeSize = 64 := rfl
    exact hword _ (by omega)
  have h0 := hhalf 0 (by decide)
  rw [Nat.add_zero] at h0
  rw [decode, h0, hhalf 2 (by decide), hhalf 4 (by decide), hhalf 6 (by decide),
    hword 8 (by decide), haddrs, decode]

end Dinode

/-! ### What the kernel sees -/

/-- The file system on a disk, with an empty inode table. -/
def Fs.mount [Superblock] (disk : ℕ → Block) : Fs where
  used b := (disk (bBlock b)).bit (b % bpb)
  dinode i := Dinode.decode (disk (iBlock i)) (i % ipb)
  data := disk
  itable _ := ⟨0, 0, false, ⟨.free, 0, 0, 0, 0, fun _ => 0⟩⟩
  logged := []

end CsklubOs
