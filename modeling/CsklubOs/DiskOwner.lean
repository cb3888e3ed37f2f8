/-
**Who owns the blocks of the disk.**

The slots of the file system are the entries of `addrs` and the entries of the indirect blocks.
This module follows their contents, and those of the files, through the single writes that the code
makes: storing a new block in a slot, writing file data, clearing a slot.

Main definitions:

* `Consistent` — every data block whose bit in the free map is set is in exactly one slot of an
  allocated inode, and every slot that is not empty holds a data block whose bit is set;
* `fbyte` — a byte of a file.

Main results:

* `DiskOk.writeBlock` — writing file data leaves the slots alone.
-/

import CsklubOs.Inode
import CsklubOs.Ownership

set_option autoImplicit false

namespace CsklubOs

open Function

namespace Fs

open Ownership

/-! ### Slots -/

/-- The slots of an inode: the entries of `addrs`, and the entries of its indirect block. -/
inductive Slot
  | addr (k : Fin (nDirect + 1))
  | entry (j : Fin nIndirect)
  deriving DecidableEq

/-- The block number in a slot, `0` if it is empty or if there is no such slot. -/
def slotVal (data : ℕ → Block) (d : Dinode) : Slot → ℕ
  | .addr k => d.addrs k
  | .entry j => if d.addrs indirect = 0 then 0 else (data (d.addrs indirect)).word (4 * j)

/-- The slot for block `bn` of a file. -/
def slotOfBlock (bn : ℕ) : Option Slot :=
  if h : bn < nDirect then some (.addr ⟨bn, Nat.lt_succ_of_lt h⟩)
  else if h : bn - nDirect < nIndirect then some (.entry ⟨bn - nDirect, h⟩)
  else none

/-- The block that holds block `bn` of a file, `0` if it is not mapped. -/
def blockNo (data : ℕ → Block) (d : Dinode) (bn : ℕ) : ℕ :=
  (slotOfBlock bn).elim 0 (slotVal data d)

variable [Superblock]

/-- The blocks that files may use. -/
def dataArea : Set ℕ := { b | Superblock.size - Superblock.nblocks ≤ b ∧ b < Superblock.size }

/-- The block number in a slot of an allocated inode, `0` for the other inodes. -/
def slotOf (data : ℕ → Block) (dinode : ℕ → Dinode) (x : ℕ × Slot) : ℕ :=
  if x.1 < Superblock.ninodes ∧ (dinode x.1).type ≠ .free then slotVal data (dinode x.1) x.2 else 0

/-- **A consistent disk.** -/
def Consistent (used : ℕ → Bool) (data : ℕ → Block) (dinode : ℕ → Dinode) : Prop :=
  Owns dataArea used (slotOf data dinode)

/-- An inode that is allocated. -/
def Allocated (dinode : ℕ → Dinode) (i : ℕ) : Prop :=
  i < Superblock.ninodes ∧ (dinode i).type ≠ .free

/-- What the inode layer relies on. -/
structure DiskOk (used : ℕ → Bool) (data : ℕ → Block) (dinode : ℕ → Dinode) : Prop where
  owns : Consistent used data dinode
  reserved : ∀ b < Superblock.size - Superblock.nblocks, used b = true
  mapped : ∀ i, Allocated dinode i → ∀ bn, bn * bSize < (dinode i).size →
    blockNo data (dinode i) bn ≠ 0

/-- The mapped blocks of the files in `P` are where they were, with the same contents. -/
def Keeps (P : ℕ → ℕ → Prop) (data : ℕ → Block) (dinode : ℕ → Dinode) (data' : ℕ → Block)
    (dinode' : ℕ → Dinode) : Prop :=
  ∀ i bn, Allocated dinode i → P i bn → blockNo data (dinode i) bn ≠ 0 →
    blockNo data' (dinode' i) bn = blockNo data (dinode i) bn ∧
      data' (blockNo data (dinode i) bn) = data (blockNo data (dinode i) bn)

variable {used : ℕ → Bool} {data : ℕ → Block} {dinode : ℕ → Dinode} {i j b : ℕ} {d : Dinode}

theorem zero_notMem_dataArea : 0 ∉ (dataArea : Set ℕ) := by
  have h := Superblock.nblocks_lt
  simp only [dataArea, Set.mem_ofPred_eq, not_and]
  omega

theorem slotOf_of_allocated (h : Allocated dinode i) (sl : Slot) :
    slotOf data dinode (i, sl) = slotVal data (dinode i) sl :=
  if_pos h

theorem slotOf_of_not_allocated (h : ¬ Allocated dinode i) (sl : Slot) :
    slotOf data dinode (i, sl) = 0 :=
  if_neg h

variable {bn : ℕ} {sl : Slot} {k : Fin (nDirect + 1)}

section

omit [Superblock]

theorem slotOfBlock_ne_indirect : slotOfBlock bn ≠ some (.addr indirect) := by
  unfold slotOfBlock
  split
  · rename_i hbn
    intro h
    have hval := congrArg Fin.val (Slot.addr.inj (Option.some.inj h))
    simp only [indirect, Fin.val_last] at hval
    omega
  · split
    · intro h
      cases h
    · intro h
      cases h

theorem slotOfBlock_inj {bn' : ℕ} (h : slotOfBlock bn = some sl) (h' : slotOfBlock bn' = some sl) :
    bn = bn' := by
  unfold slotOfBlock at h h'
  split at h <;> split at h' <;> (try split at h) <;> (try split at h') <;> cases h <;>
    simp only [Option.some.injEq, Slot.addr.injEq, Slot.entry.injEq, Fin.mk.injEq, reduceCtorEq]
      at h' <;> omega

theorem slotOfBlock_entry (hbn : bn < maxFile) (hd : ¬ bn < nDirect) :
    ∃ hlt : bn - nDirect < nIndirect, slotOfBlock bn = some (.entry ⟨bn - nDirect, hlt⟩) := by
  have hmax : maxFile = nDirect + nIndirect := rfl
  have hlt : bn - nDirect < nIndirect := by omega
  exact ⟨hlt, by rw [slotOfBlock, dif_neg hd, dif_pos hlt]⟩

theorem exists_slot_of_blockNo (h : blockNo data d bn ≠ 0) :
    ∃ sl, slotOfBlock bn = some sl ∧ sl ≠ .addr indirect := by
  cases hsl : slotOfBlock bn with
  | none => exact absurd (by rw [blockNo, hsl]; rfl) h
  | some sl => exact ⟨sl, rfl, fun hs => slotOfBlock_ne_indirect (hsl.trans (congrArg some hs))⟩

theorem blockNo_of_slot (h : slotOfBlock bn = some sl) : blockNo data d bn = slotVal data d sl := by
  rw [blockNo, h]
  rfl

theorem lt_maxFile_of_blockNo (h : blockNo data d bn ≠ 0) : bn < maxFile := by
  by_contra hbn
  have hd : ¬ bn < nDirect := by
    have : nDirect ≤ maxFile := by decide
    omega
  have hi : ¬ bn - nDirect < nIndirect := by
    have : maxFile = nDirect + nIndirect := rfl
    omega
  exact h (by rw [blockNo, slotOfBlock, dif_neg hd, dif_neg hi]; rfl)

/-! ### How single writes move the slots -/

theorem slotVal_update_data {blk : Block} (h : d.addrs indirect ≠ 0 → d.addrs indirect ≠ b)
    (sl : Slot) : slotVal (update data b blk) d sl = slotVal data d sl := by
  cases sl with
  | addr k => rfl
  | entry e =>
    simp only [slotVal]
    split
    · rfl
    · rename_i hne
      rw [update_of_ne (h hne)]

end

theorem slotOf_update_data {blk : Block}
    (h : ∀ j, Allocated dinode j → (dinode j).addrs indirect ≠ 0 → (dinode j).addrs indirect ≠ b) :
    slotOf (update data b blk) dinode = slotOf data dinode := by
  funext ⟨j, sl⟩
  by_cases hj : Allocated dinode j
  · rw [slotOf_of_allocated hj, slotOf_of_allocated hj, slotVal_update_data (h j hj)]
  · rw [slotOf_of_not_allocated hj, slotOf_of_not_allocated hj]

theorem slotOf_update_dinode_of_ne (hji : j ≠ i) (sl : Slot) :
    slotOf data (update dinode i d) (j, sl) = slotOf data dinode (j, sl) := by
  simp only [slotOf, update_of_ne hji]

/-- The inode with the block number `b` in `addrs[k]`. -/
def Dinode.withAddr (d : Dinode) (k : Fin (nDirect + 1)) (b : ℕ) : Dinode :=
  { d with addrs := update d.addrs k b }

omit [Superblock] in
theorem Allocated.withAddr [Superblock] (hi : Allocated dinode i) (k : Fin (nDirect + 1)) (b : ℕ) :
    Allocated (update dinode i (Dinode.withAddr (dinode i) k b)) i := by
  refine ⟨hi.1, ?_⟩
  rw [update_self]
  exact hi.2

/-- Storing the number of a block in an empty entry of `addrs`; the indirect block must be zero. -/
theorem slotOf_withAddr (hi : Allocated dinode i) (hk : (dinode i).addrs k = 0)
    (hz : data b = Block.zero) :
    slotOf data (update dinode i (Dinode.withAddr (dinode i) k b)) =
      update (slotOf data dinode) (i, .addr k) b := by
  funext ⟨j, sl⟩
  by_cases hji : j = i
  · subst hji
    rw [slotOf_of_allocated (hi.withAddr k b), update_self]
    cases sl with
    | addr k' =>
      by_cases hk' : k' = k
      · rw [hk', update_self]
        exact update_self _ _ _
      · rw [update_of_ne (by simp [hk']), slotOf_of_allocated hi]
        exact update_of_ne hk' _ _
    | entry e =>
      rw [update_of_ne (by simp), slotOf_of_allocated hi]
      by_cases hki : k = indirect
      · subst hki
        simp only [slotVal, Dinode.withAddr, update_self, hk, if_pos, hz]
        rw [Block.word_zero, ite_self]
      · simp only [slotVal, Dinode.withAddr, update_of_ne (Ne.symm hki)]
  · rw [slotOf_update_dinode_of_ne hji, update_of_ne (by simp [hji])]

section

variable (ho : Consistent used data dinode) (hi : Allocated dinode i)

include ho hi

theorem Consistent.slotVal_inj (hj : Allocated dinode j) {sl' : Slot}
    (hv : slotVal data (dinode i) sl ≠ 0)
    (heq : slotVal data (dinode i) sl = slotVal data (dinode j) sl') : i = j ∧ sl = sl' := by
  rw [← slotOf_of_allocated hi] at hv heq
  rw [← slotOf_of_allocated hj] at heq
  exact Prod.mk.inj (ho.inj hv heq)

theorem Consistent.slotVal_ne (hb : b ∈ (dataArea : Set ℕ)) (hfree : used b = false) (sl : Slot) :
    slotVal data (dinode i) sl ≠ b := by
  rw [← slotOf_of_allocated hi]
  exact ho.ne_of_free (ne_of_mem_of_not_mem hb zero_notMem_dataArea) hfree _

theorem slotOf_setWord (ha : (dinode i).addrs indirect ≠ 0) (e : Fin nIndirect) (hb : b < 2 ^ 32) :
    slotOf (update data ((dinode i).addrs indirect)
        ((data ((dinode i).addrs indirect)).setWord (4 * e) b)) dinode =
      update (slotOf data dinode) (i, .entry e) b := by
  have hsize : 4 * nIndirect = bSize := rfl
  funext ⟨j, sl⟩
  by_cases hj : Allocated dinode j
  · rw [slotOf_of_allocated hj]
    by_cases hji : j = i
    · subst hji
      cases sl with
      | addr k => rw [update_of_ne (by simp), slotOf_of_allocated hj]; rfl
      | entry e' =>
        simp only [slotVal, if_neg ha, update_self]
        by_cases hee : e' = e
        · rw [hee, update_self, Block.word_setWord _ _ (by omega), Nat.mod_eq_of_lt hb]
        · rw [update_of_ne (by simp [hee]), slotOf_of_allocated hj,
            Block.word_setWord_of_disjoint _ _ (by omega)]
          simp only [slotVal, if_neg ha]
    · rw [update_of_ne (by simp [hji]), slotOf_of_allocated hj]
      refine slotVal_update_data (fun _ hja => ?_) sl
      have hv : slotVal data (dinode i) (.addr indirect) ≠ 0 := ha
      have heq : slotVal data (dinode i) (.addr indirect) =
        slotVal data (dinode j) (.addr indirect) :=
        hja.symm
      exact hji (ho.slotVal_inj hi hj hv heq).1.symm
  · have hji : j ≠ i := fun h => hj (h ▸ hi)
    rw [slotOf_of_not_allocated hj, update_of_ne (by simp [hji]),
      slotOf_of_not_allocated hj]

end

/-! ### How single writes move the contents of files -/

variable {data' : ℕ → Block} {dinode' : ℕ → Dinode} {P : ℕ → ℕ → Prop}

theorem keeps_of_slots (halloc : ∀ i, Allocated dinode i → Allocated dinode' i)
    (hslot : ∀ x, slotOf data dinode x ≠ 0 → slotOf data' dinode' x = slotOf data dinode x)
    (hdata : ∀ i bn sl, Allocated dinode i → P i bn → slotOfBlock bn = some sl →
      sl ≠ .addr indirect → slotVal data (dinode i) sl ≠ 0 →
      data' (slotVal data (dinode i) sl) = data (slotVal data (dinode i) sl)) :
    Keeps P data dinode data' dinode' := by
  intro i bn hi hP hbn
  obtain ⟨sl, hsl, hind⟩ := exists_slot_of_blockNo hbn
  rw [blockNo_of_slot hsl] at hbn ⊢
  rw [blockNo_of_slot hsl]
  refine ⟨?_, hdata i bn sl hi hP hsl hind hbn⟩
  have hx := hslot (i, sl) (by rw [slotOf_of_allocated hi]; exact hbn)
  rwa [slotOf_of_allocated hi, slotOf_of_allocated (halloc i hi)] at hx

theorem DiskOk.of_keeps {used' : ℕ → Bool} (h : DiskOk used data dinode)
    (ho : Consistent used' data' dinode')
    (hres : ∀ b < Superblock.size - Superblock.nblocks, used' b = used b)
    (halloc : ∀ i, Allocated dinode' i → Allocated dinode i ∧ (dinode' i).size = (dinode i).size)
    (hk : Keeps (fun _ _ => True) data dinode data' dinode') : DiskOk used' data' dinode' := by
  refine ⟨ho, fun b hb => (hres b hb).trans (h.reserved b hb), fun i hi bn hbn => ?_⟩
  obtain ⟨hi', hsize⟩ := halloc i hi
  rw [hsize] at hbn
  have hne := h.mapped i hi' bn hbn
  rw [(hk i bn hi' trivial hne).1]
  exact hne

theorem slotOf_bzero (ho : Consistent used data dinode) (hb : b ∈ (dataArea : Set ℕ))
    (hfree : used b = false) : slotOf (update data b Block.zero) dinode = slotOf data dinode :=
  slotOf_update_data fun _ hj _ => ho.slotVal_ne hj hb hfree (.addr indirect)

theorem update_used_reserved (hb : b ∈ (dataArea : Set ℕ)) (v : Bool) :
    ∀ c < Superblock.size - Superblock.nblocks, update used b v c = used c := by
  intro c hc
  have hb1 : Superblock.size - Superblock.nblocks ≤ b := hb.1
  exact update_of_ne (by omega) _ _

theorem slotOf_attachAddr (ho : Consistent used data dinode) (hi : Allocated dinode i)
    (hk : (dinode i).addrs k = 0) (hb : b ∈ (dataArea : Set ℕ)) (hfree : used b = false) :
    slotOf (update data b Block.zero)
        (update dinode i (Dinode.withAddr (dinode i) k b)) =
      update (slotOf data dinode) (i, .addr k) b := by
  rw [slotOf_withAddr hi hk (update_self _ _ _), slotOf_bzero ho hb hfree]

theorem DiskOk.attachAddr (h : DiskOk used data dinode) (hi : Allocated dinode i)
    (hk : (dinode i).addrs k = 0) (hb : b ∈ (dataArea : Set ℕ)) (hfree : used b = false) :
    DiskOk (update used b true) (update data b Block.zero)
        (update dinode i (Dinode.withAddr (dinode i) k b)) ∧
      Keeps (fun _ _ => True) data dinode (update data b Block.zero)
        (update dinode i (Dinode.withAddr (dinode i) k b)) := by
  have hempty : slotOf data dinode (i, .addr k) = 0 := by
    rw [slotOf_of_allocated hi]
    exact hk
  have hslot := slotOf_attachAddr h.owns hi hk hb hfree
  have halloc : ∀ j, (Allocated (update dinode i (Dinode.withAddr (dinode i) k b)) j ↔
      Allocated dinode j) ∧
      (update dinode i (Dinode.withAddr (dinode i) k b) j).size = (dinode j).size := by
    intro j
    by_cases hji : j = i
    · rw [hji, update_self]
      exact ⟨⟨fun _ => hi, fun _ => hi.withAddr k b⟩, rfl⟩
    · simp only [Allocated, update_of_ne hji, and_self]
  have hkeeps : Keeps (fun _ _ => True) data dinode (update data b Block.zero)
      (update dinode i (Dinode.withAddr (dinode i) k b)) := by
    refine keeps_of_slots (fun j => (halloc j).1.2) (fun x hx => ?_)
      fun j bn sl hj _ _ _ _ => update_of_ne (h.owns.slotVal_ne hj hb hfree sl) _ _
    rw [hslot, update_of_ne]
    rintro rfl
    exact hx hempty
  refine ⟨h.of_keeps ?_ (update_used_reserved hb true)
    (fun j hj => ⟨(halloc j).1.1 hj, (halloc j).2⟩) hkeeps, hkeeps⟩
  rw [Consistent, hslot]
  exact h.owns.attach zero_notMem_dataArea hempty hb hfree

theorem slotOf_attachEntry (ho : Consistent used data dinode) (hi : Allocated dinode i)
    (ha : (dinode i).addrs indirect ≠ 0) (e : Fin nIndirect) (hb : b ∈ (dataArea : Set ℕ))
    (hfree : used b = false) (hdata : data' = update (update data b Block.zero)
      ((dinode i).addrs indirect) ((data ((dinode i).addrs indirect)).setWord (4 * e) b)) :
    slotOf data' dinode = update (slotOf data dinode) (i, .entry e) b := by
  have hne : (dinode i).addrs indirect ≠ b := ho.slotVal_ne hi hb hfree (.addr indirect)
  have hblt : b < 2 ^ 32 := by
    have hb2 : b < Superblock.size := hb.2
    have hsz := Superblock.size_lt
    omega
  rw [hdata, update_comm hne.symm, slotOf_update_data, slotOf_setWord ho hi ha e hblt]
  exact fun j hj _ => ho.slotVal_ne hj hb hfree (.addr indirect)

theorem DiskOk.attachEntry (h : DiskOk used data dinode) (hi : Allocated dinode i)
    (ha : (dinode i).addrs indirect ≠ 0) (e : Fin nIndirect)
    (he : (data ((dinode i).addrs indirect)).word (4 * e) = 0) (hb : b ∈ (dataArea : Set ℕ))
    (hfree : used b = false) (hdata : data' = update (update data b Block.zero)
      ((dinode i).addrs indirect) ((data ((dinode i).addrs indirect)).setWord (4 * e) b)) :
    DiskOk (update used b true) data' dinode ∧
      Keeps (fun _ _ => True) data dinode data' dinode := by
  have hempty : slotOf data dinode (i, .entry e) = 0 := by
    rw [slotOf_of_allocated hi]
    simp only [slotVal, if_neg ha, he]
  have hslot := slotOf_attachEntry h.owns hi ha e hb hfree hdata
  have hkeeps : Keeps (fun _ _ => True) data dinode data' dinode := by
    refine keeps_of_slots (fun _ hj => hj) (fun x hx => ?_) fun j bn sl hj _ _ hind hv => ?_
    · rw [hslot, update_of_ne]
      rintro rfl
      exact hx hempty
    · rw [hdata, update_of_ne, update_of_ne (h.owns.slotVal_ne hj hb hfree sl)]
      intro heq
      have heq : slotVal data (dinode j) sl = slotVal data (dinode i) (.addr indirect) := heq
      exact hind (h.owns.slotVal_inj hj hi hv heq).2
  refine ⟨h.of_keeps ?_ (update_used_reserved hb true) (fun _ hj => ⟨hj, rfl⟩) hkeeps, hkeeps⟩
  rw [Consistent, hslot]
  exact h.owns.attach zero_notMem_dataArea hempty hb hfree

theorem Consistent.slotVal_write (ho : Consistent used data dinode) (hi : Allocated dinode i)
    (hj : Allocated dinode j) (hind : sl ≠ .addr indirect) (hv : slotVal data (dinode i) sl ≠ 0)
    (blk : Block) (sl' : Slot) :
    slotVal (update data (slotVal data (dinode i) sl) blk) (dinode j) sl' =
      slotVal data (dinode j) sl' := by
  refine slotVal_update_data (fun _ heq => ?_) sl'
  have heq : slotVal data (dinode i) sl = slotVal data (dinode j) (.addr indirect) := heq.symm
  exact hind (ho.slotVal_inj hi hj hv heq).2

theorem Consistent.slotOf_write (ho : Consistent used data dinode) (hi : Allocated dinode i)
    (hind : sl ≠ .addr indirect) (hv : slotVal data (dinode i) sl ≠ 0) (blk : Block) :
    slotOf (update data (slotVal data (dinode i) sl) blk) dinode = slotOf data dinode := by
  funext ⟨j, sl'⟩
  by_cases hj : Allocated dinode j
  · rw [slotOf_of_allocated hj, slotOf_of_allocated hj, ho.slotVal_write hi hj hind hv]
  · rw [slotOf_of_not_allocated hj, slotOf_of_not_allocated hj]

/-- **Writing a data block** of a file moves no slot, and changes no other block of a file. -/
theorem DiskOk.writeBlock (h : DiskOk used data dinode) (hi : Allocated dinode i)
    (hbn : blockNo data (dinode i) bn ≠ 0) (blk : Block) :
    DiskOk used (update data (blockNo data (dinode i) bn) blk) dinode ∧
      Keeps (fun j bn' => (j, bn') ≠ (i, bn)) data dinode
        (update data (blockNo data (dinode i) bn) blk) dinode ∧
      (∀ j bn', Allocated dinode j → blockNo (update data (blockNo data (dinode i) bn) blk)
        (dinode j) bn' = blockNo data (dinode j) bn') := by
  obtain ⟨sl, hsl, hind⟩ := exists_slot_of_blockNo hbn
  rw [blockNo_of_slot hsl] at hbn ⊢
  have hslot := h.owns.slotOf_write hi hind hbn blk
  have hblock : ∀ j bn', Allocated dinode j →
      blockNo (update data (slotVal data (dinode i) sl) blk) (dinode j) bn' =
        blockNo data (dinode j) bn' := by
    intro j bn' hj
    simp only [blockNo]
    congr 1
    funext sl'
    exact h.owns.slotVal_write hi hj hind hbn blk sl'
  refine ⟨⟨?_, h.reserved, fun j hj bn' hsz => ?_⟩, ?_, hblock⟩
  · rw [Consistent, hslot]
    exact h.owns
  · rw [hblock j bn' hj]
    exact h.mapped j hj bn' hsz
  · refine keeps_of_slots (fun _ hj => hj) (fun x _ => by rw [hslot]) ?_
    intro j bn' sl' hj hne hsl' _ hv
    refine update_of_ne (fun heq => hne ?_) _ _
    obtain ⟨rfl, rfl⟩ := h.owns.slotVal_inj hj hi hv heq
    rw [slotOfBlock_inj hsl' hsl]

/-! ### Clearing slots -/

theorem slotOf_clearAddr (hi : Allocated dinode i) (hk : k ≠ indirect) :
    slotOf data (update dinode i (Dinode.withAddr (dinode i) k 0)) =
      update (slotOf data dinode) (i, .addr k) 0 := by
  funext ⟨j, sl⟩
  by_cases hji : j = i
  · subst hji
    rw [slotOf_of_allocated (hi.withAddr k 0), update_self]
    cases sl with
    | addr k' =>
      by_cases hk' : k' = k
      · rw [hk', update_self]
        exact update_self _ _ _
      · rw [update_of_ne (by simp [hk']), slotOf_of_allocated hi]
        exact update_of_ne hk' _ _
    | entry e =>
      rw [update_of_ne (by simp), slotOf_of_allocated hi]
      simp only [slotVal, Dinode.withAddr, update_of_ne hk.symm]
  · rw [slotOf_update_dinode_of_ne hji, update_of_ne (by simp [hji])]

/-- The slots without the first `n` entries of the indirect block of inode `i`: the loop of `itrunc`
frees these blocks and leaves their numbers in the indirect block. -/
def clearEntries (i n : ℕ) (v : ℕ × Slot → ℕ) : ℕ × Slot → ℕ
  | (j, .addr k) => v (j, .addr k)
  | (j, .entry e) => if j = i ∧ e.val < n then 0 else v (j, .entry e)

omit [Superblock] in
theorem clearEntries_zero (v : ℕ × Slot → ℕ) : clearEntries i 0 v = v := by
  funext ⟨j, sl⟩
  cases sl with
  | addr k => rfl
  | entry e => simp [clearEntries]

omit [Superblock] in
theorem clearEntries_succ (e : Fin nIndirect) (v : ℕ × Slot → ℕ) :
    clearEntries i (e + 1) v = update (clearEntries i e v) (i, .entry e) 0 := by
  funext ⟨j, sl⟩
  cases sl with
  | addr k => rw [update_of_ne (by simp)]; rfl
  | entry e' =>
    by_cases heq : j = i ∧ e' = e
    · rw [heq.1, heq.2]
      simp [clearEntries]
    · rw [update_of_ne (by simpa using heq)]
      refine if_congr (and_congr_right fun hj => ?_) rfl rfl
      omega

theorem slotOf_clearIndirect (hi : Allocated dinode i) :
    slotOf data (update dinode i (Dinode.withAddr (dinode i) indirect 0)) =
      update (clearEntries i nIndirect (slotOf data dinode)) (i, .addr indirect) 0 := by
  funext ⟨j, sl⟩
  by_cases hji : j = i
  · subst hji
    rw [slotOf_of_allocated (hi.withAddr indirect 0), update_self]
    cases sl with
    | addr k =>
      by_cases hk : k = indirect
      · rw [hk, update_self]
        exact update_self indirect 0 (dinode j).addrs
      · rw [update_of_ne (by simp [hk])]
        show _ = slotOf data dinode (j, .addr k)
        rw [slotOf_of_allocated hi]
        exact update_of_ne hk _ _
    | entry e =>
      rw [update_of_ne (by simp)]
      simp only [slotVal, Dinode.withAddr, update_self, if_true, clearEntries, e.isLt, and_self]
  · rw [slotOf_update_dinode_of_ne hji, update_of_ne (by simp [hji])]
    cases sl with
    | addr k => rfl
    | entry e => simp only [clearEntries, hji, false_and, if_false]

/-- An inode without blocks. -/
def Dinode.Empty (d : Dinode) : Prop := ∀ k, d.addrs k = 0

theorem slotOf_update_empty (hold : ¬ Allocated dinode i ∨ Dinode.Empty (dinode i))
    (hnew : d.type = .free ∨ Dinode.Empty d) :
    slotOf data (update dinode i d) = slotOf data dinode := by
  have hval : ∀ d' : Dinode, Dinode.Empty d' → ∀ sl, slotVal data d' sl = 0 := by
    intro d' hd' sl
    cases sl with
    | addr k => exact hd' k
    | entry e => simp only [slotVal, hd' indirect, if_true]
  funext ⟨j, sl⟩
  by_cases hji : j = i
  · subst hji
    have hl : slotOf data (update dinode j d) (j, sl) = 0 := by
      unfold slotOf
      split
      · rename_i hj
        rw [update_self] at hj ⊢
        exact hval d (hnew.resolve_left hj.2) sl
      · rfl
    have hr : slotOf data dinode (j, sl) = 0 := by
      unfold slotOf
      split
      · rename_i hj
        exact hval _ (hold.resolve_left (not_not_intro hj)) sl
      · rfl
    rw [hl, hr]
  · rw [slotOf_update_dinode_of_ne hji]

/-! ### Changing the other fields of an inode -/

omit [Superblock] in
theorem slotVal_congr {d' : Dinode} (h : d'.addrs = d.addrs) (sl : Slot) :
    slotVal data d' sl = slotVal data d sl := by
  cases sl with
  | addr k => exact congrFun h k
  | entry e => simp only [slotVal, h]

omit [Superblock] in
theorem blockNo_congr {d' : Dinode} (h : d'.addrs = d.addrs) (bn : ℕ) :
    blockNo data d' bn = blockNo data d bn := by
  simp only [blockNo]
  congr 1
  funext sl
  exact slotVal_congr h sl

/-- The fields other than `addrs` may change, as long as the blocks below the size are mapped. -/
theorem DiskOk.update_dinode (h : DiskOk used data dinode) (haddrs : d.addrs = (dinode i).addrs)
    (htype : d.type = .free ↔ (dinode i).type = .free)
    (hmapped : ∀ bn, bn * bSize < d.size → blockNo data (dinode i) bn ≠ 0) :
    DiskOk used data (update dinode i d) := by
  have halloc : ∀ j, Allocated (update dinode i d) j ↔ Allocated dinode j := by
    intro j
    by_cases hji : j = i
    · rw [hji, Allocated, Allocated, update_self, Ne, htype]
    · rw [Allocated, Allocated, update_of_ne hji]
  have hval : ∀ j sl, slotVal data (update dinode i d j) sl = slotVal data (dinode j) sl := by
    intro j sl
    by_cases hji : j = i
    · rw [hji, update_self]
      exact slotVal_congr haddrs sl
    · rw [update_of_ne hji]
  have hslot : slotOf data (update dinode i d) = slotOf data dinode := by
    funext ⟨j, sl⟩
    by_cases hj : Allocated dinode j
    · rw [slotOf_of_allocated hj, slotOf_of_allocated ((halloc j).2 hj), hval]
    · rw [slotOf_of_not_allocated hj, slotOf_of_not_allocated fun h' => hj ((halloc j).1 h')]
  refine ⟨by rw [Consistent, hslot]; exact h.owns, h.reserved, fun j hj bn hbn => ?_⟩
  by_cases hji : j = i
  · rw [hji, update_self] at hbn ⊢
    rw [blockNo_congr haddrs]
    exact hmapped bn hbn
  · rw [update_of_ne hji] at hbn ⊢
    exact h.mapped j ((halloc j).1 hj) bn hbn

theorem DiskOk.update_empty (h : DiskOk used data dinode)
    (hold : ¬ Allocated dinode i ∨ Dinode.Empty (dinode i)) (hnew : Dinode.Empty d)
    (hsize : d.size = 0) : DiskOk used data (update dinode i d) := by
  refine ⟨by rw [Consistent, slotOf_update_empty hold (.inr hnew)]; exact h.owns, h.reserved,
    fun j hj bn hbn => ?_⟩
  by_cases hji : j = i
  · rw [hji, update_self, hsize] at hbn
    exact absurd hbn (Nat.not_lt_zero _)
  · rw [Allocated, update_of_ne hji] at hj
    rw [update_of_ne hji] at hbn ⊢
    exact h.mapped j hj bn hbn

/-- The byte at offset `x` of a file. -/
def fbyte (data : ℕ → Block) (d : Dinode) (x : ℕ) : UInt8 :=
  (data (blockNo data d (x / bSize))).byte (x % bSize)

theorem Keeps.fbyte (h : Keeps P data dinode data' dinode') (hi : Allocated dinode i) {x : ℕ}
    (hP : P i (x / bSize)) (hx : blockNo data (dinode i) (x / bSize) ≠ 0) :
    fbyte data' (dinode' i) x = fbyte data (dinode i) x := by
  obtain ⟨h1, h2⟩ := h i _ hi hP hx
  rw [Fs.fbyte, Fs.fbyte, h1, h2]

end Fs

end CsklubOs
