/-
**The files on the image.**

The image between the calls of `ialloc` and `iappend`.

Main definitions:

* `Layout` — the bytes of each file are in the blocks that its inode names, the blocks below
  `freeblock` are those of the files, and their number is the sum of what the files cost.

Main results:

* `wp_iappend` — the bytes are appended.
-/

import CsklubOs.MkfsSpec

set_option autoImplicit false

namespace CsklubOs.Mkfs

open Function Finset Nat
open Wp Fs

local instance instSuperblockFiles : Superblock := superblock

/-! ### Contents -/

/-- The blocks that an image with these files takes. -/
def total (content : ℕ → List UInt8) : ℕ :=
  nmeta + ∑ i ∈ Finset.range nInodes, cost (content i).length

theorem total_mono {content content' : ℕ → List UInt8}
    (h : ∀ i, (content i).length ≤ (content' i).length) : total content ≤ total content' :=
  Nat.add_le_add_left (sum_le_sum fun i _ => cost_mono (h i)) _

theorem total_update (content : ℕ → List UInt8) {i : ℕ} (hi : i < nInodes) (p : List UInt8) :
    total (update content i p) + cost (content i).length = total content + cost p.length := by
  have hmem : i ∈ Finset.range nInodes := mem_range.2 hi
  have hold := add_sum_erase _ (fun j => cost (content j).length) hmem
  have hnew := add_sum_erase _ (fun j => cost (update content i p j).length) hmem
  have hrest : ∑ j ∈ (Finset.range nInodes).erase i, cost (update content i p j).length =
      ∑ j ∈ (Finset.range nInodes).erase i, cost (content j).length :=
    sum_congr rfl fun j hj => by rw [update_of_ne (ne_of_mem_erase hj)]
  rw [update_self] at hnew
  rw [total, total]
  omega

/-- **The blocks and the inodes of an image** with certain contents; `dn` are the inodes. -/
structure Layout (content : ℕ → List UInt8) (dn : ℕ → Dinode) (s : Image) : Prop where
  len : s.len = fsSize
  inodeLo : 1 ≤ s.freeinode
  inodeHi : s.freeinode ≤ nInodes
  lo : nmeta ≤ s.freeblock
  hi : s.freeblock ≤ fsSize
  sbBlock : s.disk 1 = Block.zero.write 0 sb.bytes
  zero : ∀ b, s.freeblock ≤ b → s.disk b = Block.zero
  alloc : ∀ i, Allocated dn i ↔ 1 ≤ i ∧ i < s.freeinode
  owns : Consistent (below s.freeblock) s.disk dn
  need : ∀ i, Allocated dn i → ∀ sl, slotVal s.disk (dn i) sl ≠ 0 ↔ Needs (content i).length sl
  bytes : ∀ i, Allocated dn i → ∀ x < (content i).length,
    fbyte s.disk (dn i) x = (content i).getD x 0
  short : ∀ i, (content i).length ≤ maxFile * bSize
  empty : ∀ i, ¬ Allocated dn i → content i = []
  blocks : s.freeblock = total content

/-- **The image between calls.** -/
structure Ok (content : ℕ → List UInt8) (s : Image) : Prop extends Layout content (inodes s) s where
  size : ∀ i, Allocated (inodes s) i → (inodes s i).size = (content i).length

/-- The types of the inodes. -/
def types (s : Image) : ℕ → IType := fun i => (inodes s i).type

variable {content : ℕ → List UInt8} {dn dn' : ℕ → Dinode} {s s' s0 : Image} {E : Stop → Prop}
  {i j b : ℕ} {din : Dinode}

theorem Layout.mapped (h : Layout content dn s) (hi : Allocated dn i) {bn : ℕ} :
    blockNo s.disk (dn i) bn ≠ 0 ↔ bn * bSize < (content i).length := by
  cases hsl : slotOfBlock bn with
  | none =>
    have hmax : maxFile ≤ bn := by
      unfold slotOfBlock at hsl
      split at hsl
      · cases hsl
      · split at hsl
        · cases hsl
        · have hsum : maxFile = nDirect + nIndirect := rfl
          omega
    have hmul := mul_le_mul_right bSize hmax
    have hshort := h.short i
    rw [blockNo, hsl]
    exact iff_of_false (fun hne => hne rfl) (by omega)
  | some sl => rw [blockNo_of_slot hsl, h.need i hi sl, needs_slotOfBlock hsl]

theorem Layout.nmeta_le (h : Layout content dn s) (hi : Allocated dn i) {sl : Slot}
    (hv : slotVal s.disk (dn i) sl ≠ 0) : nmeta ≤ slotVal s.disk (dn i) sl := by
  have hheld := h.owns.held (i, sl)
  rw [slotOf_of_allocated hi] at hheld
  exact (mem_dataArea.1 (hheld hv).1).1

/-- **A write before the data area**, after which the inodes have the same blocks and types. -/
theorem Layout.update_meta (h : Layout content dn s) (hb : b < nmeta) (hb1 : b ≠ 1) {blk : Block}
    (hdisk : s'.disk = update s.disk b blk) (hlen : s'.len = s.len)
    (hfi : s'.freeinode = s.freeinode) (hfb : s'.freeblock = s.freeblock)
    (haddrs : ∀ j, (dn' j).addrs = (dn j).addrs) (htype : ∀ j, (dn' j).type = (dn j).type) :
    Layout content dn' s' := by
  have halloc : ∀ j, Allocated dn' j ↔ Allocated dn j := fun j => by
    rw [Allocated, Allocated, htype]
  have hindirect : ∀ j, Allocated dn j → (dn j).addrs indirect ≠ 0 → (dn j).addrs indirect ≠ b := by
    intro j hj hne heq
    have hge : nmeta ≤ slotVal s.disk (dn j) (.addr indirect) := h.nmeta_le hj hne
    simp only [slotVal] at hge
    omega
  have hval : ∀ j, Allocated dn j → ∀ sl, slotVal s'.disk (dn' j) sl =
      slotVal s.disk (dn j) sl := by
    intro j hj sl
    rw [slotVal_congr (haddrs j), hdisk, slotVal_update_data (hindirect j hj)]
  have hslot : slotOf s'.disk dn' = slotOf s.disk dn := by
    ext ⟨j, sl⟩
    by_cases hj : Allocated dn j
    · rw [slotOf_of_allocated hj, slotOf_of_allocated ((halloc j).2 hj), hval j hj]
    · rw [slotOf_of_not_allocated hj, slotOf_of_not_allocated fun h' => hj ((halloc j).1 h')]
  have hlo := h.lo
  refine ⟨hlen.trans h.len, hfi ▸ h.inodeLo, hfi ▸ h.inodeHi, hfb ▸ h.lo, hfb ▸ h.hi, ?_,
    fun c hc => ?_, fun j => ?_, ?_, fun j hj sl => ?_, fun j hj x hx => ?_, h.short,
    fun j hj => ?_, hfb ▸ h.blocks⟩
  · rw [hdisk, update_of_ne hb1.symm]
    exact h.sbBlock
  · rw [hdisk, update_of_ne (by omega), h.zero c (by omega)]
  · rw [halloc, hfi]
    exact h.alloc j
  · rw [Consistent, hslot, hfb]
    exact h.owns
  · rw [halloc] at hj
    rw [hval j hj]
    exact h.need j hj sl
  · rw [halloc] at hj
    have hle : x / bSize * bSize ≤ x := div_mul_le_self x bSize
    have hmapped := (h.mapped hj).2 (show x / bSize * bSize < _ by omega)
    obtain ⟨sl, hsl, -⟩ := exists_slot_of_blockNo hmapped
    rw [← h.bytes j hj x hx, fbyte, fbyte, blockNo_of_slot hsl, blockNo_of_slot hsl, hval j hj,
      hdisk]
    rw [blockNo_of_slot hsl] at hmapped
    have hge := h.nmeta_le hj hmapped
    rw [update_of_ne (by omega)]
  · rw [halloc] at hj
    exact h.empty j hj

theorem iBlock_ne_one (hi : i < nInodes) : iBlock i ≠ 1 := by
  have h := (iBlock_lt hi).1
  omega

/-! ### `ialloc` -/

theorem fits_freshInode (type : IType) : (freshInode type).Fits := by
  constructor <;> simp [freshInode, xshort_eq, xint_eq]

theorem Layout.fresh (h : Layout content dn s) (hroom : s.freeinode < nInodes)
    (htype : din.type ≠ .free) (hempty : Dinode.Empty din) :
    Layout content (update dn s.freeinode din)
      { s with freeinode := s.freeinode + 1 } := by
  have hlo := h.inodeLo
  have hnew : ¬ Allocated dn s.freeinode := fun hk => absurd ((h.alloc _).1 hk).2 (lt_irrefl _)
  have hcontent := h.empty _ hnew
  have hval : ∀ sl, slotVal s.disk din sl = 0 := by
    intro sl
    cases sl with
    | addr k => exact hempty k
    | entry e => exact if_pos (hempty indirect)
  have hold : ∀ j, j ≠ s.freeinode → (Allocated (update dn s.freeinode din) j ↔
      Allocated dn j) := fun j hj => by
    rw [Allocated, Allocated, update_of_ne hj]
  have hself : Allocated (update dn s.freeinode din) s.freeinode := by
    refine ⟨ninodes_eq ▸ hroom, ?_⟩
    rwa [update_self]
  refine ⟨h.len, le_succ_of_le hlo, hroom, h.lo, h.hi, h.sbBlock, h.zero, fun j => ?_, ?_,
    fun j hj sl => ?_, fun j hj x hx => ?_, h.short, fun j hj => ?_, h.blocks⟩
  · show _ ↔ 1 ≤ j ∧ j < s.freeinode + 1
    by_cases hj : j = s.freeinode
    · rw [hj]
      exact iff_of_true hself ⟨hlo, lt_succ_self _⟩
    · rw [hold j hj, h.alloc]
      omega
  · show Consistent (below s.freeblock) s.disk _
    rw [Consistent, slotOf_update_empty (.inl hnew) (.inr hempty)]
    exact h.owns
  · show slotVal s.disk _ sl ≠ 0 ↔ _
    by_cases hj' : j = s.freeinode
    · rw [hj', update_self, hval, hcontent]
      exact iff_of_false (fun hne => hne rfl) (not_needs_zero sl)
    · rw [hold j hj'] at hj
      rw [update_of_ne hj']
      exact h.need j hj sl
  · show fbyte s.disk _ x = _
    by_cases hj' : j = s.freeinode
    · rw [hj', hcontent] at hx
      exact absurd hx (not_lt_zero _)
    · rw [hold j hj'] at hj
      rw [update_of_ne hj']
      exact h.bytes j hj x hx
  · have hj' : j ≠ s.freeinode := fun heq => hj (heq ▸ hself)
    rw [hold j hj'] at hj
    exact h.empty j hj

theorem wp_ialloc {Q : ℕ → Image → Prop} {type : IType} (htype : type ≠ .free) (h : Ok content s)
    (hroom : s.freeinode < nInodes) (hQ : ∀ s', Ok content s' → s'.freeinode = s.freeinode + 1 →
      types s' = update (types s) s.freeinode type → Q s.freeinode s') :
    wp (ialloc type) Q E s := by
  have hnew : ¬ Allocated (inodes s) s.freeinode := fun hk =>
    absurd ((h.alloc _).1 hk).2 (lt_irrefl _)
  rw [ialloc, wp_bind, wp_get, wp_bind, wp_set, wp_bind]
  refine wp_winode h.len hroom (fits_freshInode type) fun s' hlen hfi hfb hinodes hdisk =>
    wp_pure.2 ?_
  obtain ⟨blk, hdisk⟩ := hdisk
  change inodes s' = update (inodes s) s.freeinode (freshInode type) at hinodes
  have hfresh : Layout content (update (inodes s) s.freeinode (freshInode type))
      { s with freeinode := s.freeinode + 1 } := h.toLayout.fresh hroom htype fun _ => rfl
  rw [← hinodes] at hfresh
  refine hQ s' ⟨hfresh.update_meta (iBlock_lt hroom).2 (iBlock_ne_one hroom) hdisk hlen hfi hfb
    (fun _ => rfl) fun _ => rfl, fun j hj => ?_⟩ hfi ?_
  · rw [hinodes] at hj ⊢
    by_cases hj' : j = s.freeinode
    · rw [hj', update_self, h.empty _ hnew]
      exact xint_eq (by decide)
    · rw [Allocated, update_of_ne hj'] at hj
      rw [update_of_ne hj']
      exact h.size j hj
  · funext j
    rw [types, hinodes]
    by_cases hj' : j = s.freeinode
    · rw [hj', update_self, update_self]
      rfl
    · rw [update_of_ne hj', update_of_ne hj']
      rfl

/-! ### `iappend` -/

theorem Ok.growing (h : Ok content s) (hi : Allocated (inodes s) i) (p : List UInt8) :
    Growing (content i ++ p) i s (Needs (content i).length) (content i).length 0 (inodes s i)
    s := by
  refine ⟨hi, h.len, rfl, rfl, h.lo, h.hi, fun _ _ => rfl, h.zero, rfl, ?_, h.need i hi,
    fun x hx => ?_, fun j _ _ => ⟨fun _ => rfl, fun _ _ => rfl⟩⟩
  · rw [update_eq_self]
    exact h.owns
  · have hle : x / bSize * bSize ≤ x := div_mul_le_self x bSize
    refine ⟨(h.mapped hi).2 (by omega), ?_⟩
    rw [h.bytes i hi x hx, List.getD_append _ _ _ _ hx]

theorem Growing.layout {p : List UInt8} {c : ℕ}
    (hg : Growing (content i ++ p) i s0 (Needs (content i ++ p).length) (content i ++ p).length c
    din s) (h : Ok content s0) (hc : c + cost (content i).length = cost (content i ++ p).length)
    (hmax : (content i ++ p).length ≤ maxFile * bSize) :
    Layout (update content i (content i ++ p)) (update (inodes s0) i din) s := by
  have halloc : ∀ j, Allocated (update (inodes s0) i din) j ↔ Allocated (inodes s0) j := by
    intro j
    by_cases hj : j = i
    · rw [hj]
      exact iff_of_true hg.allocated hg.alloc
    · rw [Allocated, Allocated, update_of_ne hj]
  have hmeta : (1 : ℕ) < nmeta := by decide
  refine ⟨hg.len, hg.freeinode ▸ h.inodeLo, hg.freeinode ▸ h.inodeHi, hg.lo, hg.hi,
    (hg.sameMeta 1 hmeta).trans h.sbBlock, hg.zero, fun j => ?_, hg.owns, fun j hj sl => ?_,
    fun j hj x hx => ?_, fun j => ?_, fun j hj => ?_, ?_⟩
  · rw [halloc, hg.freeinode]
    exact h.alloc j
  · rw [halloc] at hj
    by_cases hji : j = i
    · rw [hji, update_self, update_self]
      exact hg.need sl
    · rw [update_of_ne hji, update_of_ne hji, (hg.others j hji hj).1]
      exact h.need j hj sl
  · rw [halloc] at hj
    by_cases hji : j = i
    · rw [hji, update_self] at hx ⊢
      rw [update_self]
      exact (hg.bytes x hx).2
    · rw [update_of_ne hji] at hx ⊢
      rw [update_of_ne hji, ← h.bytes j hj x hx]
      have hle : x / bSize * bSize ≤ x := div_mul_le_self x bSize
      have hmapped := (h.mapped hj).2 (show x / bSize * bSize < _ by omega)
      obtain ⟨sl, hsl, -⟩ := exists_slot_of_blockNo hmapped
      have hblock := (hg.others j hji hj).2 _ hmapped
      rw [fbyte, fbyte, ← hblock]
      congr 2
      rw [blockNo_of_slot hsl, blockNo_of_slot hsl, (hg.others j hji hj).1]
  · by_cases hji : j = i
    · rw [hji, update_self]
      exact hmax
    · rw [update_of_ne hji]
      exact h.short j
  · rw [halloc] at hj
    have hji : j ≠ i := fun heq => hj (heq ▸ hg.alloc)
    rw [update_of_ne hji]
    exact h.empty j hj
  · have htotal := total_update content (ninodes_eq ▸ hg.alloc.1) (content i ++ p)
    have hblocks := h.blocks
    have hfree := hg.freeblock
    omega

theorem Growing.fits {whole : List UInt8} {N : Slot → Prop} {off c size : ℕ}
    (hg : Growing whole i s0 N off c din s) (hsize : size < 2 ^ 32) :
    Dinode.Fits { din with size := size } := by
  have hlt : i < nInodes := ninodes_eq ▸ hg.alloc.1
  have hfits : (inodes s0 i).Fits := by
    rw [inodes_of_lt hlt]
    exact Dinode.fits_decode _ _
  have hhi := hg.hi
  have hfs := fsSize_eq
  rw [hg.same]
  refine ⟨hfits.major, hfits.minor, hfits.nlink, hsize, fun k => ?_⟩
  have hk : din.addrs k < s.freeblock := (hg.slotVal_lt (.addr k)).1
  show din.addrs k < 2 ^ 32
  omega

/-- **`iappend`** adds bytes to a file.  It stops if the file gets too long, or if the blocks for it
are not there. -/
theorem wp_iappend {Q : Unit → Image → Prop} {p : List UInt8} (h : Ok content s)
    (hi : Allocated (inodes s) i)
    (hassert : maxFile * bSize < (content i ++ p).length → E .assertion)
    (hread : fsSize < total (update content i (content i ++ p)) → E .read)
    (hQ : ∀ s', Ok (update content i (content i ++ p)) s' → s'.freeinode = s.freeinode →
      types s' = types s → Q () s') : wp (iappend i p) Q E s := by
  have hlt : i < nInodes := ninodes_eq ▸ hi.1
  have hsize : xint (inodes s i).size = (content i).length := by
    have hshort := h.short i
    have hmax : maxFile * bSize = 274432 := by decide
    rw [h.size i hi]
    exact xint_eq (by omega)
  rw [iappend, wp_bind]
  refine wp_rinode h.len hlt ?_
  rw [hsize, wp_bind]
  have hdrop : (content i ++ p).drop (content i).length = p := List.drop_left
  have htotal := total_update content hlt (content i ++ p)
  have hblocks := h.blocks
  refine wp_appendLoop hassert (fun hlt => hread (by omega))
    (fun hmax c din s1 hc hg => ?_) p.length (h.growing hi p) (zero_add _) hdrop (h.short i)
    (by rw [List.length_append]; omega) (le_refl _)
  have hsize32 : maxFile * bSize = 274432 := by decide
  have hlen : xint (content i ++ p).length = (content i ++ p).length := xint_eq (by omega)
  have hlayout := hg.layout h hc hmax
  have hfits : Dinode.Fits { din with size := xint (content i ++ p).length } :=
    hg.fits (by omega)
  refine wp_winode hg.len hlt hfits fun s' hlen' hfi hfb hinodes hdisk => ?_
  obtain ⟨blk, hdisk⟩ := hdisk
  rw [inodes_congr fun j hj => hg.sameMeta _ (iBlock_lt hj).2] at hinodes
  have hsame := hg.same
  refine hQ s' ⟨hlayout.update_meta (iBlock_lt hlt).2 (iBlock_ne_one hlt) hdisk hlen' hfi hfb
    (fun j => ?_) fun j => ?_, fun j hj => ?_⟩ (hfi.trans hg.freeinode) ?_
  · rw [hinodes]
    by_cases hji : j = i
    · rw [hji, update_self, update_self]
    · rw [update_of_ne hji, update_of_ne hji]
  · rw [hinodes]
    by_cases hji : j = i
    · rw [hji, update_self, update_self]
    · rw [update_of_ne hji, update_of_ne hji]
  · rw [hinodes] at hj ⊢
    by_cases hji : j = i
    · rw [hji, update_self, update_self]
      exact hlen
    · rw [Allocated, update_of_ne hji] at hj
      rw [update_of_ne hji, update_of_ne hji]
      exact h.size j hj
  · funext j
    rw [types, types, hinodes]
    by_cases hji : j = i
    · rw [hji, update_self, hsame]
    · rw [update_of_ne hji]

/-! ### The empty image -/

theorem cost_zero : cost 0 = 0 := by decide

theorem total_empty : total (fun _ => []) = nmeta := by
  simp only [total, List.length_nil, cost_zero, sum_const_zero, add_zero]

theorem inodes_type_of_zero (h : ∀ b, b ≠ 1 → s.disk b = Block.zero) (i : ℕ) :
    (inodes s i).type = .free := by
  unfold inodes
  split
  · rename_i hi
    rw [h _ (iBlock_ne_one hi)]
    show IType.ofCode (ByteSeq.leVal (Block.zero.read _ 2)) = .free
    simp [Block.read, ByteSeq.leVal, IType.ofCode]
  · rfl

theorem ok_of_zero (hlen : s.len = fsSize) (hfi : s.freeinode = 1) (hfb : s.freeblock = nmeta)
    (hsb : s.disk 1 = Block.zero.write 0 sb.bytes) (hzero : ∀ b, b ≠ 1 → s.disk b = Block.zero) :
    Ok (fun _ => []) s := by
  have hnone : ∀ i, ¬ Allocated (inodes s) i := fun i hi => hi.2 (inodes_type_of_zero hzero i)
  have hmeta := nmeta_eq
  have hfs := fsSize_eq
  have hin := nInodes_eq
  refine ⟨⟨hlen, by omega, by omega, by omega, by omega, hsb, fun b hb => hzero b (by omega),
    fun i => iff_of_false (hnone i) (by omega), ⟨fun x hx => ?_, fun b hb hused => ?_⟩,
    fun i hi => absurd hi (hnone i), fun i hi => absurd hi (hnone i), fun i => zero_le _,
    fun i _ => rfl, ?_⟩, fun i hi => absurd hi (hnone i)⟩
  · exact absurd (slotOf_of_not_allocated (hnone x.1) x.2) hx
  · have hlt : b < s.freeblock := of_decide_eq_true hused
    have hge := (mem_dataArea.1 hb).1
    omega
  · rw [hfb, total_empty]

theorem wp_format {Q : Unit → Image → Prop}
    (hQ : ∀ s, Ok (fun _ => []) s → s.freeinode = 1 → Q () s) : wp format Q E start := by
  have hlen : ∀ n, (List.range n).foldl (fun n i => max n (i + 1)) 0 = n := by
    intro n
    induction n with
    | zero => rfl
    | succ n ih =>
      rw [List.range_succ, List.foldl_append, ih]
      exact max_eq_right (le_succ n)
  rw [format, wp_bind, wp_modify, wp_bind]
  -- what is still to be written takes the length of the image to its size
  refine wp_forM (I := fun (l : List ℕ) (s : Image) => (∀ b, s.disk b = Block.zero) ∧
    l.foldl (fun n i => max n (i + 1)) s.len = fsSize ∧ s.freeinode = 1 ∧ s.freeblock = nmeta)
    ⟨fun _ => rfl, hlen fsSize, rfl, rfl⟩ (fun i l s ⟨hzero, hfold, hfi, hfb⟩ => wp_modify.2
      ⟨fun b => ?_, hfold, hfi, hfb⟩) fun s ⟨hzero, hlen', hfi, hfb⟩ => wp_modify.2 ?_
  · show update s.disk i Block.zero b = _
    by_cases hb : b = i
    · rw [hb, update_self]
    · rw [update_of_ne hb, hzero]
  · refine hQ _ (ok_of_zero ?_ hfi hfb ?_ fun b hb => ?_) hfi
    · show max s.len (1 + 1) = fsSize
      rw [show s.len = fsSize from hlen']
      rfl
    · exact update_self 1 _ s.disk
    · show update s.disk 1 _ b = _
      rw [update_of_ne hb, hzero]

end CsklubOs.Mkfs
