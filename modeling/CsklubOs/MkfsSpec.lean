/-
**What `iappend` does.**

The image is followed through its single writes with the slots of `CsklubOs/DiskOwner.lean`.  While
`iappend` runs, the inode that it has in memory takes the place of the one on the image.

Main definitions:

* `Growing` — a block below `freeblock` is in one slot of one inode, and the slots that an inode has
  are those that its size needs.

Main results:

* `wp_mapBlock`, `wp_appendLoop` — a block is mapped, and the bytes are written.
-/

import CsklubOs.InodeIo
import CsklubOs.Mkfs

set_option autoImplicit false

namespace CsklubOs.Mkfs

open Function Nat
open Wp Fs

local instance instSuperblock : Superblock := superblock

/-! ### The layout in numbers -/

theorem nmeta_eq : nmeta = 46 := by decide

theorem fsSize_eq : fsSize = 2000 := rfl

theorem nInodes_eq : nInodes = 200 := rfl

theorem ninodes_eq : (Superblock.ninodes : ℕ) = nInodes := by decide

theorem mem_dataArea {b : ℕ} : b ∈ (dataArea : Set ℕ) ↔ nmeta ≤ b ∧ b < fsSize := by
  have hsize : (Superblock.size : ℕ) = fsSize := by decide
  have hblocks : (Superblock.size : ℕ) - Superblock.nblocks = nmeta := by decide
  rw [dataArea, Set.mem_ofPred_eq, ← hblocks, hsize]

theorem iBlock_lt {i : ℕ} (hi : i < nInodes) : 1 < iBlock i ∧ iBlock i < nmeta := by
  have hstart : sb.inodestart = 32 := by decide
  have hipb : ipb = 16 := rfl
  rw [nInodes_eq] at hi
  rw [iBlock, hipb, nmeta_eq]
  omega

theorem iBlock_ne_bmap {i : ℕ} (hi : i < nInodes) : iBlock i ≠ sb.bmapstart := by
  have hstart : sb.inodestart = 32 := by decide
  have hmap : sb.bmapstart = 45 := by decide
  have hipb : ipb = 16 := rfl
  rw [nInodes_eq] at hi
  rw [iBlock, hipb]
  omega

/-! ### Inodes of the image -/

/-- The inodes of the image. -/
def inodes (s : Image) : ℕ → Dinode := fun i =>
  if i < nInodes then Dinode.decode (s.disk (iBlock i)) (i % ipb) else Dinode.fresh .free

variable {s s' s0 : Image} {E : Stop → Prop} {i j : ℕ} {d din : Dinode}

theorem inodes_of_lt (hi : i < nInodes) :
    inodes s i = Dinode.decode (s.disk (iBlock i)) (i % ipb) := if_pos hi

theorem inodes_congr (h : ∀ j < nInodes, s'.disk (iBlock j) = s.disk (iBlock j)) :
    inodes s' = inodes s := by
  funext j
  unfold inodes
  split
  · rename_i hj
    rw [h j hj]
  · rfl

theorem wp_rsect {Q : Block → Image → Prop} {sec : ℕ} (hin : sec < s.len → Q (s.disk sec) s)
    (hout : s.len ≤ sec → E .read) : wp (rsect sec) Q E s := by
  rw [rsect, wp_bind, wp_get]
  exact wp_ite (fun h => wp_pure.2 (hin h)) fun h => wp_throw.2 (hout (not_lt.1 h))

theorem wp_rinode {Q : Dinode → Image → Prop} (hlen : s.len = fsSize) (hi : i < nInodes)
    (hQ : Q (inodes s i) s) : wp (rinode i) Q E s := by
  have hb := (iBlock_lt hi).2
  have hmeta := nmeta_eq
  have hsize := fsSize_eq
  rw [rinode, wp_bind]
  refine wp_rsect (fun _ => wp_pure.2 ?_) fun h => absurd h (by omega)
  rwa [← inodes_of_lt hi]

theorem wp_winode {Q : Unit → Image → Prop} (hlen : s.len = fsSize) (hi : i < nInodes) (hd : d.Fits)
    (hQ : ∀ s', s'.len = s.len → s'.freeinode = s.freeinode →
      s'.freeblock = s.freeblock → inodes s' = update (inodes s) i d →
      (∃ blk, s'.disk = update s.disk (iBlock i) blk) → Q () s') : wp (winode i d) Q E s := by
  have hb := (iBlock_lt hi).2
  have hmeta := nmeta_eq
  have hsize := fsSize_eq
  have hmod : i % ipb < ipb := mod_lt _ (by decide)
  rw [winode, wp_bind]
  refine wp_rsect (fun _ => wp_modify.2 (hQ _ ?_ rfl rfl ?_ ⟨_, rfl⟩)) fun h => absurd h (by omega)
  · show max s.len (iBlock i + 1) = s.len
    omega
  · funext j
    by_cases hj : j < nInodes
    · rw [inodes_of_lt hj]
      show Dinode.decode (update s.disk (iBlock i) _ (iBlock j)) (j % ipb) = _
      by_cases hji : j = i
      · rw [hji, update_self, update_self]
        exact Dinode.decode_write hd hmod
      · rw [update_of_ne hji, inodes_of_lt hj]
        by_cases hblock : iBlock j = iBlock i
        · rw [hblock, update_self]
          refine Dinode.decode_write_of_ne fun hmod => hji ?_
          have hdiv : j / ipb = i / ipb := add_right_cancel hblock
          rw [← div_add_mod j ipb, ← div_add_mod i ipb, hdiv, hmod]
        · rw [update_of_ne hblock]
    · have hji : j ≠ i := fun h => hj (h ▸ hi)
      rw [update_of_ne hji, inodes, inodes, if_neg hj, if_neg hj]

/-! ### The slots that a file has -/

/-- The slots that a file of `size` bytes has. -/
def Needs (size : ℕ) : Slot → Prop
  | .addr k => k * bSize < size
  | .entry e => (nDirect + e) * bSize < size

/-- The number of blocks that a file of `size` bytes takes, with its indirect block. -/
def cost (size : ℕ) : ℕ := (size + (bSize - 1)) / bSize + if nDirect * bSize < size then 1 else 0

/-- The blocks that a file of `off` bytes takes to hold one more. -/
def newBlocks (off : ℕ) : ℕ :=
  if off % bSize = 0 then if off / bSize = nDirect then 2 else 1 else 0

theorem not_needs_zero (sl : Slot) : ¬ Needs 0 sl := by
  cases sl <;> exact not_lt_zero _

variable {m : ℕ}

theorem needs_add {off : ℕ} (hm : 0 < m) (hle : off % bSize + m ≤ bSize) (sl : Slot) :
    Needs (off + m) sl ↔ Needs (off + 1) sl := by
  simp only [bSize] at hle
  cases sl with
  | addr k => simp only [Needs, bSize]; omega
  | entry e => simp only [Needs, bSize]; omega

theorem cost_add {off : ℕ} (hm : 0 < m) (hle : off % bSize + m ≤ bSize) :
    cost (off + m) = cost off + newBlocks off := by
  unfold cost newBlocks
  split_ifs <;> simp only [bSize, nDirect] at * <;> omega

theorem cost_mono {n : ℕ} (h : m ≤ n) : cost m ≤ cost n := by
  have hdiv : (m + (bSize - 1)) / bSize ≤ (n + (bSize - 1)) / bSize :=
    Nat.div_le_div_right (by omega)
  unfold cost
  split_ifs <;> omega

/-- The free map that the image ends up with, when the blocks below `n` are in use. -/
def below (n : ℕ) : ℕ → Bool := fun b => decide (b < n)

theorem update_below (n : ℕ) : update (below n) n true = below (n + 1) := by
  funext b
  by_cases hb : b = n
  · rw [hb, update_self]
    exact (decide_eq_true (lt_succ_self n)).symm
  · rw [update_of_ne hb]
    exact decide_eq_decide.2 (by omega)

/-! ### The image while `iappend` runs -/

/-- **The image while `iappend` runs** on inode `i`, which it has in memory as `din`.  `content` is
what the file will hold, `off` bytes of it are there; `c` blocks have been taken since the image was
`s0`, and `din` has the slots in `N`. -/
structure Growing (content : List UInt8) (i : ℕ) (s0 : Image) (N : Slot → Prop) (off c : ℕ)
    (din : Dinode) (s : Image) : Prop where
  alloc : Allocated (inodes s0) i
  len : s.len = fsSize
  freeinode : s.freeinode = s0.freeinode
  freeblock : s.freeblock = s0.freeblock + c
  lo : nmeta ≤ s.freeblock
  hi : s.freeblock ≤ fsSize
  sameMeta : ∀ b < nmeta, s.disk b = s0.disk b
  zero : ∀ b, s.freeblock ≤ b → s.disk b = Block.zero
  same : din = { inodes s0 i with addrs := din.addrs }
  owns : Consistent (below s.freeblock) s.disk (update (inodes s0) i din)
  need : ∀ sl, slotVal s.disk din sl ≠ 0 ↔ N sl
  bytes : ∀ x < off, blockNo s.disk din (x / bSize) ≠ 0 ∧ fbyte s.disk din x = content.getD x 0
  others : ∀ j, j ≠ i → Allocated (inodes s0) j →
    (∀ sl, slotVal s.disk (inodes s0 j) sl = slotVal s0.disk (inodes s0 j) sl) ∧
    ∀ bn, blockNo s0.disk (inodes s0 j) bn ≠ 0 →
      s.disk (blockNo s0.disk (inodes s0 j) bn) = s0.disk (blockNo s0.disk (inodes s0 j) bn)

section Growing

variable {content : List UInt8} {N : Slot → Prop} {off c : ℕ}

section

variable (h : Growing content i s0 N off c din s)

include h

theorem Growing.allocated : Allocated (update (inodes s0) i din) i := by
  refine ⟨h.alloc.1, ?_⟩
  rw [update_self, h.same]
  exact h.alloc.2

theorem Growing.slotOf_eq (sl : Slot) :
    slotOf s.disk (update (inodes s0) i din) (i, sl) = slotVal s.disk din sl := by
  rw [slotOf_of_allocated h.allocated, update_self]

theorem Growing.slotVal_lt (sl : Slot) : slotVal s.disk din sl < s.freeblock ∧
      (slotVal s.disk din sl ≠ 0 → nmeta ≤ slotVal s.disk din sl) := by
  have hlo := h.lo
  have hmeta := nmeta_eq
  by_cases hv : slotVal s.disk din sl = 0
  · rw [hv]
    exact ⟨by omega, fun hne => absurd rfl hne⟩
  · have hheld := h.owns.held (i, sl)
    rw [h.slotOf_eq] at hheld
    obtain ⟨harea, hused⟩ := hheld hv
    exact ⟨of_decide_eq_true hused, fun _ => (mem_dataArea.1 harea).1⟩

theorem Growing.free (hroom : s.freeblock < fsSize) :
    s.freeblock ∈ (dataArea : Set ℕ) ∧ below s.freeblock s.freeblock = false :=
  ⟨mem_dataArea.2 ⟨h.lo, hroom⟩, decide_eq_false (lt_irrefl _)⟩

theorem Growing.update_zero : update s.disk s.freeblock Block.zero = s.disk := by
  rw [← h.zero s.freeblock (le_refl _)]
  exact update_eq_self _ _

variable {sl sl₀ : Slot} {k : Fin (nDirect + 1)} {e : Fin nIndirect} {disk : ℕ →
  Block} {din' : Dinode}

/-- The block of a mapped slot of another inode, and what a write to a slot of inode `i` does
to it. -/
theorem Growing.ne_other (hji : j ≠ i) (hj : Allocated (inodes s0) j) {sl' : Slot}
    (hv : slotVal s.disk din sl ≠ 0) :
    slotVal s.disk (inodes s0 j) sl' ≠ slotVal s.disk din sl := by
  intro heq
  have hj' : Allocated (update (inodes s0) i din) j := by
    rwa [Allocated, update_of_ne hji]
  have hself : update (inodes s0) i din i = din := update_self _ _ _
  have hother : update (inodes s0) i din j = inodes s0 j := update_of_ne hji _ _
  rw [← hself] at hv
  rw [← hself, ← hother] at heq
  exact hji (h.owns.slotVal_inj h.allocated hj' hv heq.symm).1.symm

/-- What is in the slots when the next block has been put into slot `sl₀`. -/
theorem Growing.slotVal_take (hsame : din' = { inodes s0 i with addrs := din'.addrs })
    (hslot : slotOf disk (update (inodes s0) i din') =
      update (slotOf s.disk (update (inodes s0) i din)) (i, sl₀) s.freeblock) (sl : Slot) :
    slotVal disk din' sl = if sl = sl₀ then s.freeblock else slotVal s.disk din sl := by
  have halloc : Allocated (update (inodes s0) i din') i := by
    refine ⟨h.alloc.1, ?_⟩
    rw [update_self, hsame]
    exact h.alloc.2
  have hx := congrFun hslot (i, sl)
  rw [slotOf_of_allocated halloc, update_self] at hx
  rw [hx, update_apply, h.slotOf_eq]
  exact if_congr (by rw [Prod.mk.injEq, and_iff_right rfl]) rfl rfl

theorem Growing.take (hroom : s.freeblock < fsSize) (hsl : ¬ N sl₀)
    (hsame : din' = { inodes s0 i with addrs := din'.addrs })
    (hslot : slotOf disk (update (inodes s0) i din') =
      update (slotOf s.disk (update (inodes s0) i din)) (i, sl₀) s.freeblock)
    (hmeta : ∀ b < nmeta, disk b = s0.disk b) (hzero : ∀ b, s.freeblock ≤ b → disk b = Block.zero)
    (hbytes : ∀ x < off, blockNo disk din' (x / bSize) ≠ 0 ∧ fbyte disk din' x = content.getD x 0)
    (hothers : ∀ j, j ≠ i → Allocated (inodes s0) j →
      (∀ sl, slotVal disk (inodes s0 j) sl = slotVal s0.disk (inodes s0 j) sl) ∧
      ∀ bn, blockNo s0.disk (inodes s0 j) bn ≠ 0 →
        disk (blockNo s0.disk (inodes s0 j) bn) = s0.disk (blockNo s0.disk (inodes s0 j) bn)) :
    Growing content i s0 (fun sl => N sl ∨ sl = sl₀) off (c + 1) din'
      { s with disk := disk, freeblock := s.freeblock + 1 } := by
  obtain ⟨harea, hfree⟩ := h.free hroom
  have hlo := h.lo
  have hmeta46 := nmeta_eq
  refine ⟨h.alloc, h.len, h.freeinode, ?_, le_succ_of_le h.lo, hroom, hmeta,
    fun b hb => hzero b (le_of_succ_le hb), hsame, ?_, fun sl => ?_, hbytes, hothers⟩
  · show s.freeblock + 1 = _
    rw [h.freeblock, add_assoc]
  · show Ownership.Owns _ (below (s.freeblock + 1)) _
    rw [hslot, ← update_below]
    refine h.owns.attach zero_notMem_dataArea ?_ harea hfree
    rw [h.slotOf_eq]
    exact not_not.1 fun hne => hsl ((h.need sl₀).1 hne)
  · show slotVal disk din' sl ≠ 0 ↔ _
    rw [h.slotVal_take hsame hslot]
    split
    · exact iff_of_true (by omega) (.inr ‹_›)
    · rename_i hne
      rw [h.need sl]
      exact (or_iff_left hne).symm

theorem Growing.takeAddr (hk : ¬ N (.addr k)) (hroom : s.freeblock < fsSize) :
    Growing content i s0 (fun sl => N sl ∨ sl = .addr k) off (c + 1)
      (Dinode.withAddr din k s.freeblock) { s with freeblock := s.freeblock + 1 } := by
  obtain ⟨harea, hfree⟩ := h.free hroom
  have hk0 : din.addrs k = 0 := not_not.1 fun hne => hk ((h.need (.addr k)).1 hne)
  have hslot := slotOf_attachAddr h.owns h.allocated (k := k) (by rw [update_self]; exact hk0)
    harea hfree
  rw [h.update_zero, update_self, update_idem] at hslot
  have hsame : Dinode.withAddr din k s.freeblock =
      { inodes s0 i with addrs := (Dinode.withAddr din k s.freeblock).addrs } := by
    rw [Dinode.withAddr, h.same]
  refine h.take hroom hk hsame hslot h.sameMeta h.zero (fun x hx => ?_) h.others
  obtain ⟨hmapped, hbyte⟩ := h.bytes x hx
  have hbn : blockNo s.disk (Dinode.withAddr din k s.freeblock) (x / bSize) =
      blockNo s.disk din (x / bSize) := by
    obtain ⟨sl, hsl, -⟩ := exists_slot_of_blockNo hmapped
    rw [blockNo_of_slot hsl] at hmapped
    rw [blockNo_of_slot hsl, blockNo_of_slot hsl, h.slotVal_take hsame hslot, if_neg]
    rintro rfl
    exact hmapped hk0
  refine ⟨hbn ▸ hmapped, ?_⟩
  rw [← hbyte, fbyte, fbyte, hbn]

/-- Writing a block of inode `i` leaves the blocks before the data area, the blocks that are not
taken and the other files alone. -/
theorem Growing.others_update (hv : slotVal s.disk din sl ≠ 0) (blk : Block) :
    (∀ b < nmeta, update s.disk (slotVal s.disk din sl) blk b = s0.disk b) ∧
    (∀ b, s.freeblock ≤ b → update s.disk (slotVal s.disk din sl) blk b = Block.zero) ∧
    ∀ j, j ≠ i → Allocated (inodes s0) j →
      (∀ sl', slotVal (update s.disk (slotVal s.disk din sl) blk) (inodes s0 j) sl' =
        slotVal s0.disk (inodes s0 j) sl') ∧
      ∀ bn, blockNo s0.disk (inodes s0 j) bn ≠ 0 →
        update s.disk (slotVal s.disk din sl) blk (blockNo s0.disk (inodes s0 j) bn) =
          s0.disk (blockNo s0.disk (inodes s0 j) bn) := by
  obtain ⟨hlt, hge⟩ := h.slotVal_lt sl
  refine ⟨fun b hb => ?_, fun b hb => ?_, fun j hji hj => ⟨fun sl' => ?_, fun bn hbn => ?_⟩⟩
  · rw [update_of_ne (by omega), h.sameMeta b hb]
  · rw [update_of_ne (by omega), h.zero b hb]
  · rw [← (h.others j hji hj).1 sl']
    have hne : slotVal s.disk (inodes s0 j) (.addr indirect) ≠ slotVal s.disk din sl :=
      h.ne_other hji hj hv
    exact slotVal_update_data (fun _ => hne) sl'
  · rw [← (h.others j hji hj).2 bn hbn, update_of_ne]
    obtain ⟨sl', hsl', -⟩ := exists_slot_of_blockNo hbn
    rw [blockNo_of_slot hsl', ← (h.others j hji hj).1 sl']
    exact h.ne_other hji hj hv

theorem Growing.slot_inj {sl' : Slot} (hv : slotVal s.disk din sl ≠ 0)
    (heq : slotVal s.disk din sl = slotVal s.disk din sl') : sl = sl' := by
  have hself : update (inodes s0) i din i = din := update_self _ _ _
  rw [← hself] at hv heq
  exact (h.owns.slotVal_inj h.allocated h.allocated hv heq).2

/-- **A block is taken for an entry of the indirect block.** -/
theorem Growing.takeEntry (ha : N (.addr indirect)) (he : ¬ N (.entry e))
    (hroom : s.freeblock < fsSize) :
    Growing content i s0 (fun sl => N sl ∨ sl = .entry e) off (c + 1) din
      { s with
        disk := update s.disk (din.addrs indirect)
          ((s.disk (din.addrs indirect)).setWord (4 * e) s.freeblock)
        freeblock := s.freeblock + 1 } := by
  obtain ⟨harea, hfree⟩ := h.free hroom
  have ha0 : slotVal s.disk din (.addr indirect) ≠ 0 := (h.need _).2 ha
  have he0 : slotVal s.disk din (.entry e) = 0 := not_not.1 fun hne => he ((h.need _).1 hne)
  generalize hblk : (s.disk (din.addrs indirect)).setWord (4 * e) s.freeblock = blk
  have hslot := slotOf_attachEntry h.owns h.allocated (by rw [update_self]; exact ha0) e harea hfree
    rfl
  rw [h.update_zero, update_self, hblk] at hslot
  obtain ⟨hmeta, hzero, hothers⟩ := h.others_update ha0 blk
  refine h.take hroom he h.same hslot hmeta hzero (fun x hx => ?_) hothers
  obtain ⟨hmapped, hbyte⟩ := h.bytes x hx
  obtain ⟨sl, hsl, hind⟩ := exists_slot_of_blockNo hmapped
  have hbn : blockNo (update s.disk (din.addrs indirect) blk) din (x / bSize) =
      blockNo s.disk din (x / bSize) := by
    rw [blockNo_of_slot hsl] at hmapped
    rw [blockNo_of_slot hsl, blockNo_of_slot hsl, h.slotVal_take h.same hslot, if_neg]
    rintro rfl
    exact hmapped he0
  refine ⟨hbn ▸ hmapped, ?_⟩
  rw [← hbyte, fbyte, fbyte]
  show (update s.disk (din.addrs indirect) blk _).byte _ = _
  rw [hbn, update_of_ne]
  rw [blockNo_of_slot hsl] at hmapped ⊢
  exact fun heq => hind (h.slot_inj hmapped heq)

theorem Growing.write {m : ℕ} (hle : off % bSize + m ≤ bSize) (hm : off + m ≤ content.length)
    (hbn : blockNo s.disk din (off / bSize) ≠ 0) {p : List UInt8} (hp : content.drop off = p) :
    Growing content i s0 N (off + m) c din { s with
      disk := update s.disk (blockNo s.disk din (off / bSize))
        ((s.disk (blockNo s.disk din (off / bSize))).write (off % bSize) (p.take m)) } := by
  obtain ⟨sl, hsl, hind⟩ := exists_slot_of_blockNo hbn
  have hlen : (p.take m).length = m := by
    rw [List.length_take, ← hp, List.length_drop]
    omega
  generalize hblk : (s.disk (blockNo s.disk din (off / bSize))).write (off % bSize) (p.take m) = blk
  have hv : slotVal s.disk din sl ≠ 0 := by rwa [← blockNo_of_slot hsl]
  have hval : ∀ sl', slotVal (update s.disk (slotVal s.disk din sl) blk) din sl' =
      slotVal s.disk din sl' := by
    intro sl'
    have hw := h.owns.slotVal_write h.allocated h.allocated hind (by rwa [update_self])
      blk sl'
    rwa [update_self] at hw
  have hnum : ∀ bn, blockNo (update s.disk (slotVal s.disk din sl) blk) din bn =
      blockNo s.disk din bn := by
    intro bn
    simp only [blockNo]
    congr 1
    funext sl'
    exact hval sl'
  obtain ⟨hmeta, hzero, hothers⟩ := h.others_update hv blk
  have hslot := h.owns.slotOf_write h.allocated hind (by rwa [update_self]) blk
  rw [update_self] at hslot
  rw [blockNo_of_slot hsl]
  refine ⟨h.alloc, h.len, h.freeinode, h.freeblock, h.lo, h.hi, hmeta, hzero, h.same, ?_,
    fun sl' => ?_, fun x hx => ?_, hothers⟩
  · show Ownership.Owns _ _ _
    rw [hslot]
    exact h.owns
  · show slotVal (update s.disk (slotVal s.disk din sl) blk) din sl' ≠ 0 ↔ _
    rw [hval]
    exact h.need sl'
  · show blockNo (update s.disk (slotVal s.disk din sl) blk) din (x / bSize) ≠ 0 ∧
      (update s.disk (slotVal s.disk din sl) blk
        (blockNo (update s.disk (slotVal s.disk din sl) blk) din (x / bSize))).byte (x % bSize) = _
    rw [hnum]
    have hmod : x % bSize < bSize := mod_lt _ (by decide)
    by_cases hx' : x < off
    · -- a byte that was there before
      obtain ⟨hmapped, hbyte⟩ := h.bytes x hx'
      refine ⟨hmapped, ?_⟩
      rw [← hbyte, fbyte]
      by_cases hdiv : x / bSize = off / bSize
      · rw [hdiv, blockNo_of_slot hsl, update_self, ← hblk, blockNo_of_slot hsl]
        refine Block.byte_write_of_disjoint _ _ _ (.inl ?_)
        exact (not_le.1 fun hge => absurd ((sub_mod_of_div_eq hdiv).1.1 hge) (by omega))
      · obtain ⟨sl', hsl', -⟩ := exists_slot_of_blockNo hmapped
        rw [blockNo_of_slot hsl'] at hmapped ⊢
        rw [update_of_ne fun heq => ?_]
        obtain rfl := h.slot_inj hmapped heq
        exact hdiv (slotOfBlock_inj hsl' hsl)
    · -- a byte of the new ones
      have hdiv := div_eq_of_run (x := x) hle (by omega) hx
      obtain ⟨hiff, hsub⟩ := sub_mod_of_div_eq hdiv
      rw [hdiv]
      refine ⟨hbn, ?_⟩
      rw [blockNo_of_slot hsl, update_self, ← hblk, Block.byte_write _ _ _ hmod,
        if_pos (by omega), hsub, ← hp, List.getD_eq_getElem?_getD,
          List.getElem?_take_of_lt (by omega),
        List.getElem?_drop, Nat.add_sub_cancel' (Nat.not_lt.1 hx'), ← List.getD_eq_getElem?_getD]

/-! ### The mapping -/

theorem Growing.xint_slotVal (sl : Slot) :
    xint (slotVal s.disk din sl) = slotVal s.disk din sl := by
  have hlt := (h.slotVal_lt sl).1
  have hhi := h.hi
  have hsize := fsSize_eq
  exact xint_eq (by omega)

theorem Growing.xint_freeblock : xint s.freeblock = s.freeblock := by
  have hhi := h.hi
  have hsize := fsSize_eq
  exact xint_eq (by omega)

/-- **The entry of `addrs`**, which is taken if there is none.  If no block is left, its number is
the size of the image. -/
theorem wp_mapAddr {Q : Dinode → Image → Prop} (hold : N (.addr k) → Q din s)
    (hnew : ¬ N (.addr k) → ∀ din' s', din'.addrs k = s.freeblock →
      (s.freeblock < fsSize →
        Growing content i s0 (fun sl => N sl ∨ sl = .addr k) off (c + 1) din' s') →
      s'.len = fsSize → Q din' s') : wp (mapAddr din k) Q E s := by
  have hx := h.xint_slotVal (.addr k)
  have hneed := h.need (.addr k)
  simp only [slotVal] at hx hneed
  rw [mapAddr, hx]
  refine wp_ite (fun hzero => ?_) fun hne => wp_pure.2 (hold (hneed.1 hne))
  refine wp_bind.2 (wp_bind.2 (wp_get.2 (wp_bind.2 (wp_set.2 (wp_pure.2 (wp_pure.2 ?_))))))
  rw [h.xint_freeblock]
  have hk : ¬ N (.addr k) := fun hn => hneed.2 hn hzero
  exact hnew hk _ _ (update_self _ _ _) (fun hroom => h.takeAddr hk hroom) h.len

/-- **The entry of the indirect block**, which is taken if there is none. -/
theorem wp_mapEntry {Q : ℕ → Image → Prop} (ha : N (.addr indirect)) (e : Fin nIndirect)
    (hold : N (.entry e) → Q (slotVal s.disk din (.entry e)) s)
    (hnew : ¬ N (.entry e) → s.freeblock < fsSize → ∀ s',
      Growing content i s0 (fun sl => N sl ∨ sl = .entry e) off (c + 1) din s' →
      Q (slotVal s'.disk din (.entry e)) s')
    (hfull : ¬ N (.entry e) → fsSize ≤ s.freeblock → ∀ s', s'.len = fsSize → Q s.freeblock s') :
    wp (mapEntry din e) Q E s := by
  have ha0 : din.addrs indirect ≠ 0 := (h.need (.addr indirect)).2 ha
  obtain ⟨halt, -⟩ := h.slotVal_lt (.addr indirect)
  have hx := h.xint_slotVal (.addr indirect)
  simp only [slotVal] at halt hx
  have hentry : ∀ disk, slotVal disk din (.entry e) = (disk (din.addrs indirect)).word (4 * e) :=
    fun disk => if_neg ha0
  have hneed := h.need (.entry e)
  have hxe := h.xint_slotVal (.entry e)
  rw [hentry] at hneed hxe hold
  have hlen := h.len
  have hhi := h.hi
  have hind : 4 * nIndirect = bSize := rfl
  rw [mapEntry, hx, wp_bind]
  refine wp_rsect (fun _ => ?_) fun hout => absurd hout (by omega)
  refine wp_ite (fun hzero => ?_) fun hne => wp_pure.2 ?_
  · have hn : ¬ N (.entry e) := fun hn => hneed.2 hn hzero
    refine wp_bind.2 (wp_bind.2 (wp_get.2 (wp_bind.2 (wp_set.2 (wp_pure.2 ?_)))))
    refine wp_bind.2 (wp_modify.2 (wp_pure.2 ?_))
    have hword : (((s.disk (din.addrs indirect)).setWord (4 * e) (xint s.freeblock)).word (4 * e)) =
        s.freeblock := by
      have hsize := fsSize_eq
      rw [h.xint_freeblock, Block.word_setWord _ _ (by omega), mod_eq_of_lt (by omega)]
    have hmax : max s.len (din.addrs indirect + 1) = s.len := by omega
    rw [hword, h.xint_freeblock, hmax]
    by_cases hroom : s.freeblock < fsSize
    · have hg := h.takeEntry ha hn hroom
      have hres := hnew hn hroom _ hg
      rw [hentry] at hres
      simp only [update_self] at hres
      rw [h.xint_freeblock] at hword
      rwa [hword] at hres
    · exact hfull hn (not_lt.1 hroom) _ hlen
  · rw [hxe]
    exact hold (hneed.1 hne)

end

variable {sl : Slot} {k : Fin (nDirect + 1)} {e : Fin nIndirect}

theorem Growing.congr {N' : Slot → Prop} (h : Growing content i s0 N off c din s)
    (hN : ∀ sl, N sl ↔ N' sl) : Growing content i s0 N' off c din s :=
  { h with need := fun sl => (h.need sl).trans (hN sl) }

theorem needs_succ_same (h : off % bSize ≠ 0) (sl : Slot) : Needs off sl ↔ Needs (off + 1) sl := by
  simp only [bSize] at h
  cases sl <;> simp only [Needs, bSize] <;> omega

theorem needs_succ_addr (h : off = k * bSize) (hk : k.val < nDirect) (sl : Slot) :
    Needs off sl ∨ sl = .addr k ↔ Needs (off + 1) sl := by
  simp only [bSize, nDirect] at h hk
  cases sl with
  | addr j =>
    rw [Slot.addr.injEq]
    simp only [Needs, bSize]
    omega
  | entry e =>
    rw [or_iff_left nofun]
    simp only [Needs, bSize, nDirect]
    omega

/-- At the beginning of an indirect block, one more byte needs an entry, and the first one needs the
indirect block. -/
theorem needs_succ_entry (h : off = (nDirect + e) * bSize) (sl : Slot) :
    (Needs off sl ∨ sl = .addr indirect) ∨ sl = .entry e ↔ Needs (off + 1) sl := by
  have hind : (indirect : Fin (nDirect + 1)).val = 12 := rfl
  simp only [bSize, nDirect] at h
  cases sl with
  | addr j =>
    rw [Slot.addr.injEq, Fin.ext_iff]
    have hj := j.isLt
    simp only [Needs, bSize, nDirect] at hj ⊢
    omega
  | entry j =>
    rw [or_iff_left (a := Needs off (.entry j)) nofun, Slot.entry.injEq]
    simp only [Needs, bSize, nDirect]
    omega

theorem newBlocks_of_lt (ha : Needs off (.addr indirect)) (h : off = (nDirect + e) * bSize) :
    newBlocks off = 1 := by
  have hind : (indirect : Fin (nDirect + 1)).val = 12 := rfl
  simp only [Needs, hind, bSize, nDirect] at ha h
  rw [newBlocks, if_pos (by simp only [bSize]; omega),
    if_neg (by simp only [bSize, nDirect]; omega)]

theorem needs_slotOfBlock {bn size : ℕ} (h : slotOfBlock bn = some sl) :
    Needs size sl ↔ bn * bSize < size := by
  unfold slotOfBlock at h
  split at h
  · cases h
    rfl
  · split at h
    · rename_i hdir _
      cases h
      simp only [Needs, Nat.add_sub_cancel' (Nat.not_lt.1 hdir)]
    · cases h

/-- **The block for the next byte.**  If no block is left, its number is at least the size of the
image. -/
theorem wp_mapBlock {Q : Dinode × ℕ → Image → Prop}
    (h : Growing content i s0 (Needs off) off c din s) (hfbn : off / bSize < maxFile)
    (hread : fsSize < s.freeblock + newBlocks off → E .read)
    (hfull : fsSize < s.freeblock + newBlocks off → ∀ din' x s', s'.len = fsSize → fsSize ≤ x →
      Q (din', x) s')
    (hQ : ∀ din' s', Growing content i s0 (Needs (off + 1)) off (c + newBlocks off) din' s' →
      blockNo s'.disk din' (off / bSize) ≠ 0 → Q (din', blockNo s'.disk din' (off / bSize)) s') :
    wp (mapBlock din (off / bSize)) Q E s := by
  have hmod := div_add_mod off bSize
  have hpos : off % bSize < bSize := mod_lt _ (by decide)
  rw [mapBlock]
  split
  · rename_i hdir
    have hsl : slotOfBlock (off / bSize) = some (.addr ⟨off / bSize, lt_succ_of_lt hdir⟩) :=
      dif_pos hdir
    refine wp_bind.2 (wp_mapAddr h (fun hold => wp_pure.2 ?_) fun hnew din' s' haddr hg hlen =>
      wp_pure.2 ?_)
    · -- the block is there
      have hne : off % bSize ≠ 0 := by
        simp only [Needs, bSize] at hold hmod ⊢
        omega
      have hnew : newBlocks off = 0 := if_neg hne
      have hx := h.xint_slotVal (.addr ⟨off / bSize, lt_succ_of_lt hdir⟩)
      have hneed := (h.need (.addr ⟨off / bSize, lt_succ_of_lt hdir⟩)).2 hold
      rw [← blockNo_of_slot hsl] at hx hneed
      have hres := hQ din s (by rw [hnew]; exact h.congr (needs_succ_same hne)) hneed
      rwa [← hx, blockNo_of_slot hsl] at hres
    · have hzero : off % bSize = 0 := by
        simp only [Needs, bSize] at hnew hmod ⊢
        omega
      have hone : newBlocks off = 1 := by rw [newBlocks, if_pos hzero, if_neg (by omega)]
      rw [hone] at hread hfull hQ
      rw [haddr, h.xint_freeblock]
      by_cases hroom : s.freeblock < fsSize
      · have hmul : off = off / bSize * bSize := by
          rw [mul_comm]
          omega
        have hg := (hg hroom).congr (needs_succ_addr hmul hdir)
        have hval : blockNo s'.disk din' (off / bSize) = s.freeblock := by
          rw [blockNo_of_slot hsl]
          exact haddr
        have hlo := h.lo
        have hmeta := nmeta_eq
        have hres := hQ din' s' hg (by omega)
        rwa [hval] at hres
      · exact hfull (by omega) _ _ _ hlen (by omega)
  · rename_i hdir
    obtain ⟨hlt, hsl⟩ := slotOfBlock_entry (show off / bSize < maxFile by omega) hdir
    generalize he : (⟨off / bSize - nDirect, hlt⟩ : Fin nIndirect) = e at hsl
    have he' : off / bSize - nDirect = e := congrArg Fin.val he
    have hdone : ∀ din' s', Growing content i s0 (Needs (off + 1)) off (c + newBlocks off) din' s' →
        Q (din', slotVal s'.disk din' (.entry e)) s' := by
      intro din' s' hg
      have hres := hQ din' s' hg
      rw [blockNo_of_slot hsl] at hres
      exact hres ((hg.need _).2 ((needs_slotOfBlock hsl).2 (by rw [mul_comm]; omega)))
    have hfirst : ¬ Needs off (.entry e) → off = (nDirect + e) * bSize := by
      intro hn
      simp only [Needs, bSize, nDirect] at hn hmod hpos hdir he' ⊢
      omega
    rw [he']
    refine wp_bind.2 (wp_mapAddr h (fun hold => ?_) fun hnew din' s' haddr hg hlen => ?_)
    · -- the indirect block is there
      refine wp_bind.2 (wp_mapEntry h hold e (fun hold' => wp_pure.2 ?_)
        (fun hnew hroom s' hg => wp_pure.2 ?_) fun hnew hroom s' hlen => wp_pure.2 ?_)
      · have hne : off % bSize ≠ 0 := by
          simp only [Needs, bSize, nDirect] at hold' hmod hpos hdir he' ⊢
          omega
        have hnew : newBlocks off = 0 := if_neg hne
        rw [hnew] at hdone
        exact hdone _ _ (h.congr (needs_succ_same hne))
      · have hone := newBlocks_of_lt hold (hfirst hnew)
        rw [hone] at hdone
        refine hdone _ _ (hg.congr fun sl => ?_)
        have hmem : Needs off sl ∨ sl = .addr indirect ↔ Needs off sl :=
          or_iff_left_of_imp fun heq => heq ▸ hold
        rw [← needs_succ_entry (hfirst hnew), hmem]
      · have hone := newBlocks_of_lt hold (hfirst hnew)
        exact hfull (by omega) _ _ _ hlen hroom
    · -- it is taken, too
      have hoff : off = nDirect * bSize := by
        have hind : (indirect : Fin (nDirect + 1)).val = 12 := rfl
        simp only [Needs, hind, bSize, nDirect] at hnew hmod hpos hdir ⊢
        omega
      have htwo : newBlocks off = 2 := by rw [hoff]; decide
      rw [htwo] at hread hfull hdone
      by_cases hroom : s.freeblock < fsSize
      · have hg := hg hroom
        have hfree : s'.freeblock = s.freeblock + 1 := by
          rw [hg.freeblock, h.freeblock, add_assoc]
        have hn : ¬ Needs off (.entry e) := by
          simp only [Needs, bSize, nDirect] at hoff ⊢
          omega
        refine wp_bind.2 (wp_mapEntry hg (.inr rfl) e (fun hold' => ?_)
          (fun _ _ s'' hg' => wp_pure.2 ?_) fun _ hroom' s'' hlen => wp_pure.2 ?_)
        · exact absurd hold' (not_or.2 ⟨hn, by simp⟩)
        · exact hdone _ _ (hg'.congr (needs_succ_entry (hfirst hn)))
        · exact hfull (by omega) _ _ _ hlen hroom'
      · -- the number of the indirect block is the size of the image, where nothing can be read
        rw [mapEntry, haddr, h.xint_freeblock]
        exact wp_bind.2 (wp_bind.2 (wp_rsect (fun hin => absurd hin (by omega)) fun _ =>
          hread (by omega)))

/-- **The loop of `iappend`** writes the rest of the content, if it is not too long for a file and
the blocks for it are there. -/
theorem wp_appendLoop {Q : Dinode × ℕ → Image → Prop} {base : ℕ}
    (hassert : maxFile * bSize < content.length → E .assertion)
    (hread : fsSize + base < s0.freeblock + cost content.length → E .read)
    (hQ : content.length ≤ maxFile * bSize → ∀ c din s, c + base = cost content.length →
      Growing content i s0 (Needs content.length) content.length c din s →
      Q (din, content.length) s)
    (fuel : ℕ) : ∀ {off c : ℕ} {din : Dinode} {s : Image} {p : List UInt8},
      Growing content i s0 (Needs off) off c din s → c + base = cost off → content.drop off = p →
      off ≤ maxFile * bSize → off ≤ content.length → p.length ≤ fuel →
      wp (appendLoop fuel din p off) Q E s := by
  have hend : ∀ {off c : ℕ} {din : Dinode} {s : Image} {p : List UInt8},
      Growing content i s0 (Needs off) off c din s → c + base = cost off → content.drop off = p →
      off ≤ maxFile * bSize → off ≤ content.length → p.length = 0 → Q (din, off) s := by
    intro off c din s p h hc hp hmax hoff hzero
    have hlen := congrArg List.length hp
    rw [List.length_drop] at hlen
    obtain rfl : off = content.length := by omega
    exact hQ hmax c din s hc h
  induction fuel with
  | zero =>
    intro off c din s p h hc hp hmax hoff hfuel
    exact wp_pure.2 (hend h hc hp hmax hoff (le_zero.1 hfuel))
  | succ fuel ih =>
    intro off c din s p h hc hp hmax hoff hfuel
    have hlen := congrArg List.length hp
    rw [List.length_drop] at hlen
    refine wp_ite (fun hpos => ?_) fun hzero => wp_pure.2 (hend h hc hp hmax hoff (by omega))
    have hdiv := div_add_mod off bSize
    have hmod : off % bSize < bSize := mod_lt _ (by decide)
    have hcomm := mul_comm bSize (off / bSize)
    refine wp_ite (fun hfbn => ?_) fun hfbn => wp_throw.2 (hassert ?_)
    · have hsucc : (off / bSize + 1) * bSize = off / bSize * bSize + bSize := succ_mul _ _
      have hcost : cost (off + 1) ≤ cost content.length := cost_mono (by omega)
      rw [cost_add one_pos hmod] at hcost
      have hfree := h.freeblock
      refine wp_bind.2 (wp_mapBlock h hfbn (fun _ => hread (by omega))
        (fun _ din' x s' hlen' hx => ?_) fun din' s' hg hbn => ?_)
      · -- there is no such block
        exact wp_bind.2 (wp_rsect (fun hin => absurd hin (by omega)) fun _ => hread (by omega))
      · generalize hn : min p.length ((off / bSize + 1) * bSize - off) = n1
        have hle : off % bSize + n1 ≤ bSize := by omega
        obtain ⟨sl, hsl, -⟩ := exists_slot_of_blockNo hbn
        have hlt := (hg.slotVal_lt sl).1
        have hhi := hg.hi
        have hlen' := hg.len
        have hx : blockNo s'.disk din' (off / bSize) < s'.len := by
          rw [blockNo_of_slot hsl]
          omega
        refine wp_bind.2 (wp_rsect (fun _ => ?_) fun hout => absurd hx (not_lt.2 hout))
        have hw := (hg.write hle (by omega) hbn hp).congr fun sl =>
          (needs_add (by omega) hle sl).symm
        have hsub : off - off / bSize * bSize = off % bSize := by omega
        have hmaxlen : max s'.len (blockNo s'.disk din' (off / bSize) + 1) = s'.len := by omega
        refine wp_bind.2 (wp_modify.2 ?_)
        rw [hsub, hmaxlen]
        refine ih hw ?_ ?_ ?_ (by omega) ?_
        · rw [cost_add (by omega) hle]
          omega
        · rw [← hp, List.drop_drop]
        · have hmul : (off / bSize + 1) * bSize ≤ maxFile * bSize := mul_le_mul_right _ hfbn
          omega
        · rw [List.length_drop]
          omega
    · have hmul : maxFile * bSize ≤ off / bSize * bSize := mul_le_mul_right _ (not_lt.1 hfbn)
      omega

end Growing

end CsklubOs.Mkfs
