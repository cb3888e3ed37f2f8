/-
**How many blocks an operation passes to the log.**

`begin_op` reserves room in the log for `MAXOPBLOCKS` blocks.  This module counts the different
blocks that the code of `kernel/fs.c` passes to `log_write` in one operation: for the chunk that one
round of `filewrite` writes, and for the removal of a file by `sys_unlink`, by the last `close` and
by `sys_open` with `O_TRUNC`.  A chunk fits on every disk.  A removal logs one block of the free map
for every region in which the file has a block, and there is no bound on these but the number of
blocks of the free map.

Main definitions:

* `Fs.FitsOp` — code that logs at most `MAXOPBLOCKS` blocks;
* `Fs.removed`, `Fs.unlinkBlocks` — the blocks that a removal logs.

Main results:

* `Fs.writei_fits_op` — a chunk fits;
* `Fs.removal_fits_op` — which removals fit;
* `Fs.unlink_overflows` — one that does not.
-/

import CsklubOs.FileOffset
import CsklubOs.FileSys

set_option autoImplicit false

namespace CsklubOs

open Function Finset Nat

namespace Fs

open Wp Ownership

/-- Only the blocks `F` are passed to `log_write` on the way from `s` to `s'`. -/
def Logs (F : Finset ℕ) (s s' : Fs) : Prop := ∃ L, s'.logged = L ++ s.logged ∧ ∀ b ∈ L, b ∈ F

variable {F G : Finset ℕ} {s s' s'' : Fs} {p : IPtr} {E : FsPanic → Prop} {n off : ℕ}

theorem Logs.of_eq (h : s'.logged = s.logged) : Logs F s s' := ⟨[], h, nofun⟩

variable {b : ℕ}

theorem Logs.cons (h : Logs F s s') (hb : b ∈ F) (hlog : s''.logged = b :: s'.logged) :
    Logs F s s'' := by
  obtain ⟨L, hL, hF⟩ := h
  exact ⟨b :: L, hlog.trans (congrArg _ hL), List.forall_mem_cons.2 ⟨hb, hF⟩⟩

theorem Logs.trans (h : Logs F s s') (h' : Logs F s' s'') : Logs F s s'' := by
  obtain ⟨L, hL, hF⟩ := h
  obtain ⟨L', hL', hF'⟩ := h'
  refine ⟨L' ++ L, by rw [hL', hL, List.append_assoc], fun b hb => ?_⟩
  exact (List.mem_append.1 hb).elim (hF' b) (hF b)

theorem Logs.mono (h : Logs F s s') (hle : F ⊆ G) : Logs G s s' :=
  h.imp fun _ hL => ⟨hL.1, fun b hb => hle (hL.2 b hb)⟩

/-- The code runs without a panic and passes at most `MAXOPBLOCKS` different blocks to
`log_write`. -/
def FitsOp {α : Type} (m : FsM α) (s : Fs) : Prop :=
  wp m (fun _ s' => ∃ F : Finset ℕ, F.card ≤ maxOpBlocks ∧ Logs F s s') (fun _ => False) s

variable [Superblock]

/-! ### Writing a chunk -/

/-- What the indirect block adds: itself, and the block of the free map if it was allocated. -/
def indirectBlocks (a a' : ℕ) : Finset ℕ :=
  if a' = 0 then ∅ else if a = 0 then {a', bBlock a'} else {a'}

/-- Blocks were added to the file of `p`, which passed to the log no more than `F` and what belongs
to the indirect block. -/
structure Adds (p : IPtr) (F : Finset ℕ) (s s' : Fs) : Prop where
  inum : (s'.itable p).inum = (s.itable p).inum
  kept : (s.itable p).d.addrs indirect ≠ 0 →
    (s'.itable p).d.addrs indirect = (s.itable p).d.addrs indirect
  logs : Logs (F ∪ indirectBlocks ((s.itable p).d.addrs indirect) ((s'.itable p).d.addrs indirect))
    s s'

theorem Adds.of_logs (ht : s'.itable = s.itable) (h : Logs F s s') : Adds p F s s' := by
  rw [show s' = { s' with itable := s.itable } by rw [← ht]] at h ⊢
  exact ⟨rfl, fun _ => rfl, h.mono subset_union_left⟩

theorem card_indirectBlocks (a a' : ℕ) : (indirectBlocks a a').card ≤ 2 := by
  unfold indirectBlocks
  split_ifs
  · exact zero_le 2
  · exact card_le_two
  · exact (card_singleton a').le.trans (by decide)

theorem Adds.trans (h : Adds p F s s') (h' : Adds p G s' s'') : Adds p (F ∪ G) s s'' := by
  refine ⟨h'.inum.trans h.inum, fun h0 => ?_, (h.logs.mono ?_).trans (h'.logs.mono ?_)⟩
  · rw [h'.kept (by rwa [h.kept h0]), h.kept h0]
  · refine union_subset_union subset_union_left fun b hb => ?_
    by_cases h0 : (s'.itable p).d.addrs indirect = 0
    · simp [indirectBlocks, h0] at hb
    · rwa [h'.kept h0]
  · refine union_subset_union subset_union_right fun b hb => ?_
    have hkept := h.kept
    simp only [indirectBlocks] at hb ⊢
    split_ifs at hb ⊢ <;> simp_all

theorem wp_balloc_logs :
    wp balloc (fun b s' => s'.itable = s.itable ∧ Logs {b, bBlock b} s s') E s := by
  rw [balloc, wp_bind, wp_get]
  split
  · exact wp_pure.2 ⟨rfl, .of_eq rfl⟩
  · rename_i b _
    rw [wp_bind, wp_set, logWrite, wp_bind, wp_modify, bzero, logWrite, modifyBlock, wp_bind,
      wp_bind, wp_modify, wp_modify, wp_pure]
    exact ⟨rfl, [b, bBlock b], rfl, by simp⟩

theorem wp_mapAddr_logs (k : Fin (nDirect + 1)) :
    wp (mapAddr p k) (fun addr s' => s' = s ∧ (s.itable p).d.addrs k = addr ∧ addr ≠ 0 ∨
      (s.itable p).d.addrs k = 0 ∧ (s'.itable p).inum = (s.itable p).inum ∧
        (s'.itable p).d.addrs = update (s.itable p).d.addrs k addr ∧
        Logs {addr, bBlock addr} s s') E s := by
  rw [mapAddr, wp_bind, wp_get]
  refine wp_ite (fun hk => wp_bind.2 ?_) fun hk => wp_pure.2 (.inl ⟨rfl, rfl, hk⟩)
  refine wp_balloc_logs.mono ?_
  rintro addr s1 ⟨ht, hlogs⟩
  refine wp_ite (fun h0 => wp_pure.2 (.inr ?_)) fun _ => ?_
  · rw [ht]
    refine ⟨hk, rfl, ?_, h0 ▸ hlogs⟩
    rw [← hk, update_eq_self]
  · rw [wp_bind, setAddr, modifyD, modifyInode, wp_modify, wp_pure]
    exact .inr ⟨hk, by simp [ht], by simp [ht], hlogs⟩

theorem wp_mapEntry_logs (a j : ℕ) :
    wp (mapEntry a j) (fun addr s' => s'.itable = s.itable ∧
    Logs {addr, bBlock addr, a} s s') E s := by
  rw [mapEntry, wp_bind, wp_get]
  refine wp_ite (fun _ => wp_bind.2 ?_) fun _ => wp_pure.2 ⟨rfl, .of_eq rfl⟩
  refine wp_balloc_logs.mono ?_
  rintro addr s1 ⟨ht, hlogs⟩
  have hmono : Logs {addr, bBlock addr, a} s s1 := hlogs.mono (by grind)
  refine wp_ite (fun h0 => wp_pure.2 ⟨ht, h0 ▸ hmono⟩) fun _ => ?_
  rw [wp_bind, modifyBlock, wp_modify, wp_bind, logWrite, wp_modify, wp_pure]
  exact ⟨ht, hmono.cons (by simp) rfl⟩

/-- **`bmap`** logs the block that it returns, the block of the free map with its bit, and what
belongs to the indirect block. -/
theorem wp_bmap_logs {bn : ℕ} (hbn : bn < maxFile) :
    wp (bmap p bn) (fun addr s' => Adds p {addr, bBlock addr} s s') E s := by
  unfold bmap
  split
  · rename_i hd
    refine (wp_mapAddr_logs _).mono fun addr s' h => ?_
    obtain ⟨rfl, -, -⟩ | ⟨-, hi, ha, hlogs⟩ := h
    · exact .of_logs rfl (.of_eq rfl)
    · have hne : indirect ≠ (⟨bn, lt_succ_of_lt hd⟩ : Fin (nDirect + 1)) :=
        fun heq => hd.ne' (congrArg Fin.val heq)
      have hind := congrFun ha indirect
      rw [update_of_ne hne] at hind
      exact ⟨hi, fun _ => hind, hlogs.mono subset_union_left⟩
  · obtain ⟨hlt, -⟩ := slotOfBlock_entry hbn ‹_›
    rw [if_pos hlt, wp_bind]
    refine (wp_mapAddr_logs indirect).mono fun a s1 h => ?_
    obtain ⟨rfl, ha, h0⟩ | ⟨hz, hi, ha, hlogs⟩ := h
    · rw [if_neg h0]
      refine (wp_mapEntry_logs a _).mono fun addr s' ⟨ht, hlogs⟩ => ?_
      refine ⟨by rw [ht], fun _ => by rw [ht], hlogs.mono fun b hb => ?_⟩
      simp only [ht, ha, indirectBlocks, if_neg h0]
      grind
    · have hind : (s1.itable p).d.addrs indirect = a := by rw [ha, update_self]
      refine wp_ite (fun h0 => wp_pure.2 ⟨hi, fun h => absurd hz h, ?_⟩) fun h0 => ?_
      · exact (h0 ▸ hlogs).mono subset_union_left
      · refine (wp_mapEntry_logs a _).mono fun addr s' ⟨ht, hlogs'⟩ => ?_
        refine ⟨by rw [ht, hi], fun h => absurd hz h, (hlogs.mono ?_).trans (hlogs'.mono ?_)⟩
        all_goals
          simp only [ht, hind, hz, indirectBlocks, if_neg h0, if_true]
          grind

/-- The loop of `writei`, when what is left is in `k` blocks of the file.  Each of them costs itself
and a block of the free map; the first costs only itself if it is there already. -/
theorem wp_writeLoop_logs {src : List UInt8} {fuel tot k c : ℕ}
    (hk : tot < n → off % bSize + (n - tot) ≤ k * bSize) (hmax : off + (n - tot) ≤ maxFile * bSize)
    (hc : c = 2 * k ∨ c + 1 = 2 * k ∧ blockNo s.data (s.itable p).d (off / bSize) ≠ 0) :
    wp (writeLoop p src n fuel tot off) (fun _ s' => ∃ F, F.card ≤ c ∧ Adds p F s s') E s := by
  have hstop : ∃ F : Finset ℕ, F.card ≤ c ∧ Adds p F s s :=
    ⟨∅, zero_le c, .of_logs rfl (.of_eq rfl)⟩
  induction fuel generalizing tot off k c s with
  | zero => exact wp_pure.2 hstop
  | succ fuel ih =>
    refine wp_ite (fun hlt => ?_) fun _ => wp_pure.2 hstop
    have hpos : 0 < bSize := by decide
    have hbn : off / bSize < maxFile := (div_lt_iff_lt_mul hpos).2 (by omega)
    obtain ⟨k, rfl⟩ : ∃ k', k = k' + 1 := exists_eq_succ_of_ne_zero (by rintro rfl; omega)
    have hmap : wp (bmap p (off / bSize)) (fun addr s1 => ∃ F, F.card + 2 * k ≤ c ∧ addr ∈ F ∧
        Adds p F s s1) E s := by
      rcases hc with hc | ⟨hc, hb⟩
      · refine (wp_bmap_logs hbn).mono fun addr s1 h => ⟨_, ?_, mem_insert_self _ _, h⟩
        have hcard : ({addr, bBlock addr} : Finset ℕ).card ≤ 2 := card_le_two
        omega
      · refine wp_bmap_mapped hb ⟨_, ?_, mem_singleton_self _, .of_logs rfl (.of_eq rfl)⟩
        rw [card_singleton]
        omega
    rw [wp_bind]
    refine hmap.mono ?_
    rintro addr s1 ⟨F, hF, hmem, hadds⟩
    refine wp_ite (fun _ => wp_pure.2 ⟨F, by omega, hadds⟩) fun _ => ?_
    rw [wp_bind, modifyBlock, wp_modify]
    refine wp_ite (fun _ => wp_pure.2 ⟨F, by omega, hadds.inum, hadds.kept, hadds.logs⟩) fun _ => ?_
    rw [wp_bind, logWrite, wp_modify]
    generalize hmdef : min (n - tot) (bSize - off % bSize) = m
    have hlogged : ∀ {d}, Adds p F s { s1 with data := d, logged := addr :: s1.logged } :=
      ⟨hadds.inum, hadds.kept, hadds.logs.cons (mem_union_left _ hmem) rfl⟩
    refine (ih (k := k) (c := 2 * k) (fun hlt' => ?_) (by omega) (.inl rfl)
      ⟨∅, zero_le _, .of_logs rfl (.of_eq rfl)⟩).mono ?_
    · -- what is left begins with a block of the file
      rw [show bSize = 1024 from rfl] at hmdef hk ⊢
      omega
    · rintro _ s' ⟨G, hG, hadds'⟩
      exact ⟨F ∪ G, (card_union_le F G).trans (by omega), hlogged.trans hadds'⟩

theorem wp_iupdate_logs {Q : Unit → Fs → Prop} (hQ : ∀ s', s'.data = s.data → s'.itable = s.itable →
      s'.logged = iBlock (s.itable p).inum :: s.logged → Q () s') : wp (iupdate p) Q E s := by
  rw [iupdate, wp_bind, wp_get, wp_bind, wp_set, logWrite, wp_modify]
  exact hQ _ rfl rfl rfl

/-- **One chunk of `filewrite` fits one operation.**  For a file without holes, a write of a chunk
at an offset within the file passes at most `MAXOPBLOCKS` different blocks to `log_write`: the
blocks of the file that it touches, the blocks of the free map from which new ones come, the
indirect block, and the block of the inode. -/
theorem writei_fits_op {src : List UInt8}
    (hholes : ∀ bn, bn * bSize < (s.itable p).d.size → blockNo s.data (s.itable p).d bn ≠ 0)
    (hoff : off ≤ (s.itable p).d.size) (hn : n ≤ maxWrite) : FitsOp (writei p src off n) s := by
  have hnone : ∃ F : Finset ℕ, F.card ≤ maxOpBlocks ∧ Logs F s s := ⟨∅, zero_le _, .of_eq rfl⟩
  rw [FitsOp, writei, wp_bind, wp_get]
  refine wp_ite (fun _ => wp_pure.2 hnone) fun _ => wp_ite (fun _ => wp_pure.2 hnone) fun hmax => ?_
  have hchunk : maxWrite = 3 * bSize := rfl
  have hmod := mod_lt off (show 0 < bSize by decide)
  have hdm := div_add_mod' off bSize
  -- an offset within a block is below the size, so that its block is there already
  have hloop : wp (writeLoop p src n n 0 off) (fun _ s' => ∃ F, F.card ≤ 7 ∧ Adds p F s s')
      (fun _ => False) s := by
    by_cases hal : off % bSize = 0
    · refine (wp_writeLoop_logs (k := 3) (by omega) (by omega) (.inl rfl)).mono ?_
      rintro _ s' ⟨F, hF, h⟩
      exact ⟨F, by omega, h⟩
    · exact wp_writeLoop_logs (k := 4) (by omega) (by omega) (.inr ⟨rfl, hholes _ (by omega)⟩)
  rw [wp_bind]
  refine hloop.mono ?_
  rintro r s1 ⟨F, hF, hadds⟩
  rw [wp_bind, modifyD, modifyInode, wp_modify, wp_bind]
  refine wp_iupdate_logs fun s' _ _ hlog => wp_pure.2 ?_
  have hcard := card_indirectBlocks ((s.itable p).d.addrs indirect) ((s1.itable p).d.addrs indirect)
  refine ⟨insert _ (F ∪ _), (card_insert_le _ _).trans (succ_le_succ
    ((card_union_le _ _).trans (Nat.add_le_add hF hcard))), Logs.cons (hadds.logs.mono
    (subset_insert _ _)) (mem_insert_self _ _) hlog⟩

omit [Superblock] in
/-- A chunk of full size at the end of a file of one byte. -/
theorem writei_fits_op_append : ∃ (_ : Superblock) (s : Fs), (s.itable (0 : Fin 50)).d.size = 1 ∧
    FitsOp (writei (0 : Fin 50) (List.replicate 3072 65) 1 3072) s := by
  let S : Superblock := InodeSys.smallDisk
  let s : Fs := { (InodeSys.emptyDisk (· < 5)).fs with
    itable := fun _ => ⟨1, 1, true, { Dinode.fresh .file with
      size := 1, addrs := fun k => if k = 0 then 5 else 0 }⟩ }
  refine ⟨S, s, rfl, writei_fits_op (fun bn hbn => ?_) (le_refl 1) (le_refl 3072)⟩
  replace hbn : bn * 1024 < 1 := hbn
  obtain rfl : bn = 0 := by omega
  decide

/-! ### Removing a file -/

section

omit [Superblock]

/-- Exactly the blocks `B` are passed to `log_write` on the way from `s` to `s'`. -/
def LogsAll (B : Set ℕ) (s s' : Fs) : Prop := ∃ L, s'.logged = L ++ s.logged ∧ ∀ b, b ∈ L ↔ b ∈ B

variable {B B' : Set ℕ}

theorem LogsAll.trans (h : LogsAll B s s') (h' : LogsAll B' s' s'') : LogsAll (B ∪ B') s s'' := by
  obtain ⟨L, hL, hB⟩ := h
  obtain ⟨L', hL', hB'⟩ := h'
  refine ⟨L' ++ L, by rw [hL', hL, List.append_assoc], fun b => ?_⟩
  rw [List.mem_append, hB, hB', or_comm]
  rfl

theorem LogsAll.fitsOp_iff {α : Type} {m : FsM α}
    (h : wp m (fun _ => LogsAll B s) (fun _ => False) s) : FitsOp m s ↔ B.ncard ≤ maxOpBlocks := by
  obtain ⟨r, s', hrun, L, hL, hB⟩ := h.exists_ok
  have hcard : B.ncard = L.toFinset.card := by
    rw [← Set.ncard_coe_finset]
    exact congrArg Set.ncard (Set.ext fun b => by simp [hB])
  rw [hcard]
  refine ⟨fun hfits => ?_, fun hle => (wp_of_ok hrun).2 ⟨_, hle, L, hL,
    fun b hb => List.mem_toFinset.2 hb⟩⟩
  obtain ⟨G, hG, L', hL', hsub⟩ := hfits.of_ok hrun
  obtain rfl : L = L' := List.append_cancel_right (hL.symm.trans hL')
  exact (card_le_card fun b hb => hsub b (List.mem_toFinset.1 hb)).trans hG

/-- The inode of `p` was changed, and lost the blocks in `K`; exactly `B` was passed to the log. -/
structure Trims (p : IPtr) (K : Set (Fin (nDirect + 1))) (B : Set ℕ) (s s' : Fs) : Prop where
  data : s'.data = s.data
  other : ∀ q ≠ p, s'.itable q = s.itable q
  inum : (s'.itable p).inum = (s.itable p).inum
  lost : ∀ k ∈ K, (s'.itable p).d.addrs k = 0
  kept : ∀ k ∉ K, (s'.itable p).d.addrs k = (s.itable p).d.addrs k
  logs : LogsAll B s s'

variable {K K' : Set (Fin (nDirect + 1))}

theorem Trims.refl : Trims p ∅ ∅ s s :=
  ⟨rfl, fun _ _ => rfl, rfl, by simp, fun _ _ => rfl, [], rfl, by simp⟩

theorem Trims.trans (h : Trims p K B s s') (h' : Trims p K' B' s' s'') :
    Trims p (K ∪ K') (B ∪ B') s s'' := by
  refine ⟨h'.data.trans h.data, fun q hq => (h'.other q hq).trans (h.other q hq),
    h'.inum.trans h.inum, fun k hk => ?_, fun k hk => ?_, h.logs.trans h'.logs⟩
  · by_cases hk' : k ∈ K'
    · exact h'.lost k hk'
    · exact (h'.kept k hk').trans (h.lost k (hk.resolve_right hk'))
  · rw [Set.mem_union, not_or] at hk
    exact (h'.kept k hk.2).trans (h.kept k hk.1)

theorem Trims.congr (h : Trims p K B s s') (hK : K = K') (hB : B = B') :
    Trims p K' B' s s' := hB ▸ hK ▸ h

theorem wp_modifyInode_trims {f : Inode → Inode} (hi : (f (s.itable p)).inum = (s.itable p).inum)
    (ha : (f (s.itable p)).d.addrs = (s.itable p).d.addrs) :
    wp (modifyInode p f) (fun _ => Trims p ∅ ∅ s) E s := by
  rw [modifyInode, wp_modify]
  refine ⟨rfl, fun q hq => update_of_ne hq _ _, ?_, by simp, fun k _ => ?_, [], rfl, by simp⟩
  · simpa only [update_self] using hi
  · simp only [update_self, ha]

end

variable {B B' : Set ℕ} {K K' : Set (Fin (nDirect + 1))}

theorem wp_iupdate_trims : wp (iupdate p) (fun _ => Trims p ∅ {iBlock (s.itable p).inum} s) E s :=
  wp_iupdate_logs fun s' hd ht hlog => ⟨hd, fun q _ => congrFun ht q, by rw [ht], by simp,
    fun _ _ => by rw [ht], [_], hlog, by simp⟩

theorem wp_bfree_trims (hE : E .freeingFreeBlock) :
    wp (bfree b) (fun _ => Trims p ∅ {bBlock b} s) E s := by
  rw [bfree, wp_bind, wp_get]
  refine wp_ite (fun _ => wp_throw.2 hE) fun _ => ?_
  rw [wp_bind, wp_set, logWrite, wp_modify]
  exact ⟨rfl, fun _ _ => rfl, rfl, by simp, fun _ _ => rfl, [_], rfl, by simp⟩

/-- The block of the free map with the bit of block `b`, if there is a block. -/
def region (b : ℕ) : Set ℕ := { x | b ≠ 0 ∧ x = bBlock b }

theorem region_zero : region 0 = ∅ := Set.eq_empty_of_forall_notMem fun _ hx => hx.1 rfl

theorem region_of_ne (hb : b ≠ 0) : region b = {bBlock b} := Set.ext fun _ => and_iff_right hb

section

variable (hE : E .freeingFreeBlock)

include hE

theorem wp_freeAddr_trims {k : Fin (nDirect + 1)} :
    wp (freeAddr p k) (fun _ => Trims p {k} (region ((s.itable p).d.addrs k)) s) E s := by
  rw [freeAddr, wp_bind, wp_get]
  refine wp_ite (fun h0 => wp_pure.2 ?_) fun h0 => ?_
  · rw [h0, region_zero]
    exact ⟨rfl, fun _ _ => rfl, rfl, by simp [h0], fun _ _ => rfl, [], rfl, by simp⟩
  · rw [region_of_ne h0, wp_bind]
    refine (wp_bfree_trims hE (p := p)).mono fun _ s1 h1 => ?_
    rw [setAddr, modifyD, modifyInode, wp_modify]
    refine ⟨h1.data, fun q hq => (update_of_ne hq _ _).trans (h1.other q hq), ?_, by simp,
      fun j hj => ?_, h1.logs⟩
    · simpa using h1.inum
    · simpa [show j ≠ k from hj] using h1.kept j (Set.notMem_empty _)

theorem wp_freeAddrs_trims (l : List (Fin (nDirect + 1))) :
    wp (l.forM (freeAddr p)) (fun _ =>
      Trims p { k | k ∈ l } (⋃ k ∈ l, region ((s.itable p).d.addrs k)) s) E s := by
  induction l generalizing s with
  | nil => exact wp_pure.2 (Trims.refl.congr (by simp) (by simp))
  | cons k l ih =>
    show wp (do freeAddr p k; l.forM (freeAddr p)) _ E s
    refine wp_bind.2 ((wp_freeAddr_trims hE).mono fun _ s1 h1 => ih.mono fun _ s2 h2 =>
      (h1.trans h2).congr (by ext; simp) (Set.ext fun x => ?_))
    -- a block that has been freed is not found again
    have hj : ∀ j, x ∈ region ((s1.itable p).d.addrs j) ↔ j ≠ k ∧
        x ∈ region ((s.itable p).d.addrs j) := by
      intro j
      by_cases hjk : j = k
      · rw [h1.lost j hjk, region_zero]
        simp [hjk]
      · rw [h1.kept j hjk]
        simp [hjk]
    simp only [Set.mem_union, Set.mem_iUnion, exists_prop, List.mem_cons, hj]
    grind

theorem wp_freeEntries_trims (a : Block) (l : List ℕ) :
    wp (l.forM (freeEntry a)) (fun _ => Trims p ∅ (⋃ j ∈ l, region (a.word (4 * j))) s) E s := by
  induction l generalizing s with
  | nil => exact wp_pure.2 (Trims.refl.congr rfl (by simp))
  | cons j l ih =>
    have hstep : wp (freeEntry a j) (fun _ => Trims p ∅ (region (a.word (4 * j))) s) E s := by
      refine wp_ite (fun h0 => ?_) fun h0 => ?_
      · rw [h0, region_zero]
        exact wp_pure.2 .refl
      · rw [region_of_ne h0]
        exact wp_bfree_trims hE
    show wp (do freeEntry a j; l.forM (freeEntry a)) _ E s
    refine wp_bind.2 (hstep.mono fun _ s1 h1 => ih.mono fun _ s2 h2 =>
      (h1.trans h2).congr (by simp) ?_)
    simp [Set.iUnion_or, Set.iUnion_union_distrib]

theorem wp_freeIndirect_trims : wp (freeIndirect p) (fun _ => Trims p {indirect}
    ((⋃ j, region (slotVal s.data (s.itable p).d (.entry j))) ∪
    region ((s.itable p).d.addrs indirect)) s) E s := by
  rw [freeIndirect, wp_bind, wp_get]
  refine wp_ite (fun h0 => wp_pure.2 ?_) fun h0 => wp_bind.2 ?_
  · simp only [slotVal, h0, if_true, region_zero, Set.iUnion_empty, Set.union_empty]
    exact ⟨rfl, fun _ _ => rfl, rfl, by simp [h0], fun _ _ => rfl, [], rfl, by simp⟩
  · refine (wp_freeEntries_trims hE (p := p) _ _).mono fun _ s1 h1 => (wp_freeAddr_trims hE).mono
      fun _ s2 h2 =>
      (h1.trans h2).congr (by simp) ?_
    rw [h1.kept _ (Set.notMem_empty _)]
    refine congrArg (· ∪ _) (Set.ext fun x => ?_)
    simp only [slotVal, h0, if_false, Set.mem_iUnion, List.mem_range, exists_prop]
    constructor
    · rintro ⟨j, hj, hx⟩
      exact ⟨⟨j, hj⟩, hx⟩
    · rintro ⟨j, hx⟩
      exact ⟨j, j.isLt, hx⟩

end

/-- What the removal of the file of `p` logs: the blocks of the free map with the bits of its
blocks, and the block of its inode. -/
def removed (s : Fs) (p : IPtr) : Set ℕ :=
  insert (iBlock (s.itable p).inum) (⋃ sl, region (slotVal s.data (s.itable p).d sl))

/-- **`itrunc`** logs all of this. -/
theorem wp_itrunc_trims (hE : E .freeingFreeBlock) :
    wp (itrunc p) (fun _ => Trims p Set.univ (removed s p) s) E s := by
  have hlist : ∀ k, k ∈ (List.finRange nDirect).map Fin.castSucc ↔ k ≠ indirect := by decide
  rw [itrunc, wp_bind]
  refine (wp_freeAddrs_trims hE _).mono fun _ s1 h1 =>
    wp_bind.2 ((wp_freeIndirect_trims hE).mono fun _ s2 h2 =>
    wp_bind.2 ((wp_modifyInode_trims rfl rfl).mono fun _ s3 h3 => wp_iupdate_trims.mono
      fun _ s' h4 => ?_))
  simp only [hlist] at h1
  have hind : (s1.itable p).d.addrs indirect = (s.itable p).d.addrs indirect := h1.kept _ (by simp)
  refine (h1.trans (h2.trans (h3.trans h4))).congr (Set.ext fun k => by simp [em])
    (Set.ext fun x => ?_)
  simp only [removed, slotVal, hind, h1.data, h3.inum, h2.inum, h1.inum, Set.mem_union,
    Set.mem_iUnion, Set.mem_insert_iff, Set.mem_singleton_iff, Set.mem_empty_iff_false, exists_prop]
  constructor
  · rintro (⟨k, -, hx⟩ | (⟨j, hx⟩ | hx) | h0 | hx)
    · exact .inr ⟨.addr k, hx⟩
    · exact .inr ⟨.entry j, hx⟩
    · exact .inr ⟨.addr indirect, hx⟩
    · exact h0.elim
    · exact .inl hx
  · rintro (hx | ⟨k | j, hx⟩)
    · exact .inr (.inr (.inr hx))
    · by_cases hk : k = indirect
      · exact .inr (.inl (.inr (hk ▸ hx)))
      · exact .inl ⟨k, hk, hx⟩
    · exact .inr (.inl (.inl ⟨j, hx⟩))

/-- The last reference to a file without links. -/
def Unlinked (ip : Inode) : Prop := ip.ref = 1 ∧ ip.valid = true ∧ ip.d.nlink = 0

/-- **`iput`** logs as much if it drops the last reference to a file without links, and otherwise
nothing. -/
theorem wp_iput_trims (hE : E .freeingFreeBlock) : wp (iput p) (fun _ s' => ∃ K,
    Trims p K { x ∈ removed s p | Unlinked (s.itable p) } s s') E s := by
  rw [iput, wp_bind, freeUnlinked, wp_bind, wp_get]
  refine wp_ite (fun hd => wp_bind.2 ((wp_itrunc_trims hE).mono fun _ s1 h1 => wp_bind.2
    ((wp_modifyInode_trims rfl rfl).mono fun _ s2 h2 =>
    wp_bind.2 (wp_iupdate_trims.mono fun _ s3 h3 =>
    (wp_modifyInode_trims rfl rfl).mono fun _ s4 h4 => (wp_modifyInode_trims rfl rfl).mono
      fun _ s5 h5 =>
    ⟨_, (h1.trans (h2.trans (h3.trans (h4.trans h5)))).congr rfl (Set.ext fun x => ?_)⟩))))
      fun hd => wp_pure.2
    ((wp_modifyInode_trims rfl rfl).mono fun _ s1 h1 => ⟨_, h1.congr rfl (Set.ext fun x => ?_)⟩)
  · have hu : Unlinked (s.itable p) := hd
    simp [hu, h2.inum, h1.inum, removed]
  · have hu : ¬ Unlinked (s.itable p) := hd
    simp [hu]

/-- The inode with one link less. -/
def dropped (ip : Inode) : Inode := { ip with d := { ip.d with nlink := short (ip.d.nlink - 1) } }

theorem wp_dropLink_trims : wp (dropLink p) (fun _ s' => Trims p ∅ {iBlock (s.itable p).inum} s s' ∧
    s'.itable p = dropped (s.itable p)) E s := by
  rw [dropLink, modifyD, modifyInode, wp_bind, wp_modify]
  refine wp_iupdate_logs fun s' hd ht hlog => ⟨⟨hd, fun q hq => ?_, ?_, by simp, fun k _ => ?_, [_],
    hlog, ?_⟩, ?_⟩
  · rw [ht]
    exact update_of_ne hq _ _
  all_goals simp [ht, dropped]

theorem removed_congr (hi : (s'.itable p).inum = (s.itable p).inum)
    (hsl : ∀ sl, slotVal s'.data (s'.itable p).d sl = slotVal s.data (s.itable p).d sl) :
    removed s' p = removed s p := by
  simp only [removed, hi, hsl]

theorem Trims.removed (h : Trims p ∅ B s s') : Fs.removed s' p = Fs.removed s p := by
  refine removed_congr h.inum fun sl => ?_
  cases sl <;> simp only [slotVal, h.data, h.kept _ (Set.notMem_empty _)]

/-- Clearing a directory entry logs the block with the entry, and the block of the directory's
inode. -/
theorem wp_clearEntry_logs {Q : Unit → Fs → Prop} (hsize : off + 16 ≤ (s.itable p).d.size)
    (hin : off % bSize + 16 ≤ bSize) (hb : blockNo s.data (s.itable p).d (off / bSize) ≠ 0)
    (hQ : ∀ s' blk, s'.data = update s.data (blockNo s.data (s.itable p).d (off / bSize)) blk →
      s'.itable = s.itable → s'.logged = iBlock (s.itable p).inum ::
        blockNo s.data (s.itable p).d (off / bSize) :: s.logged → Q () s') :
    wp (clearEntry p off) Q E s := by
  have hlt : off / 1024 < 268 := lt_maxFile_of_blockNo hb
  have hmax : maxFile * bSize = 274432 := rfl
  have hm : min (16 - 0) (bSize - off % bSize) = 16 := by omega
  replace hin : off % 1024 + 16 ≤ 1024 := hin
  rw [clearEntry, wp_bind, writei, wp_bind, wp_get, if_neg (by omega), if_neg (by omega), wp_bind]
  show wp (writeLoop p (List.replicate 16 0) 16 (15 + 1) 0 off) _ E s
  rw [writeLoop, if_pos (by decide), wp_bind]
  refine wp_bmap_mapped hb ?_
  rw [if_neg hb, wp_bind, modifyBlock, wp_modify, hm, if_neg (by decide), wp_bind, logWrite,
    wp_modify]
  show wp (writeLoop p (List.replicate 16 0) 16 (14 + 1) 16 (off + 16)) _ E _
  rw [writeLoop, if_neg (by decide), wp_pure, wp_bind, modifyD, modifyInode, wp_modify, wp_bind]
  refine wp_iupdate_logs fun s' hd ht hlog => wp_pure.2
    (wp_ite (fun _ => wp_pure.2 (hQ s' _ hd ?_ ?_)) fun h => absurd rfl h)
  · rw [ht, max_eq_left hsize, update_eq_self]
  · simpa only [update_self] using hlog

theorem ncard_removed_le {R : Multiset IPtr} {k : ℕ} (h : FsOk s R) (hp : p ∈ R)
    (hv : (s.itable p).valid = true) (hsize : Superblock.size ≤ k * bpb) (hB : B ⊆ removed s p) :
    B.ncard ≤ k + 1 := by
  have hsub : removed s p ⊆ ((insert (iBlock (s.itable p).inum)
      ((Finset.range k).image (· + Superblock.bmapstart)) : Finset ℕ) : Set ℕ) := by
    rintro x (rfl | hx)
    · simp
    · obtain ⟨sl, h0, rfl⟩ := Set.mem_iUnion.1 hx
      rw [(h.sync p hp hv).1, ← slotOf_of_allocated (h.allocated hp hv)] at h0 ⊢
      have hlt := (h.disk.owns.held _ h0).1.2
      refine mem_insert_of_mem (mem_image.2 ⟨_, mem_range.2 (Nat.div_lt_of_lt_mul ?_), rfl⟩)
      rw [Nat.mul_comm]
      exact hlt.trans_le hsize
  refine (Set.ncard_le_ncard (hB.trans hsub) (finite_toSet _)).trans ?_
  rw [Set.ncard_coe_finset]
  exact (card_insert_le _ _).trans (succ_le_succ (card_image_le.trans (card_range k).le))

/-- A block of a file is not the indirect block of a file, so that a store to it does not change
where blocks are. -/
theorem FsOk.slotVal_store {R : Multiset IPtr} {dp q : IPtr} {bn : ℕ} {blk : Block} (h : FsOk s R)
    (hd : dp ∈ R) (hdv : (s.itable dp).valid = true) (hq : q ∈ R) (hqv : (s.itable q).valid = true)
    (hb : blockNo s.data (s.itable dp).d bn ≠ 0) (sl : Slot) :
    slotVal (update s.data (blockNo s.data (s.itable dp).d bn) blk) (s.itable q).d sl =
      slotVal s.data (s.itable q).d sl := by
  cases sl with
  | addr k => rfl
  | entry j =>
    obtain ⟨sl, hsl⟩ : ∃ sl, slotOfBlock bn = some sl :=
      Option.ne_none_iff_exists'.1 fun hnone => hb (by rw [blockNo, hnone]; rfl)
    have hne : (s.itable q).d.addrs indirect ≠ blockNo s.data (s.itable dp).d bn := by
      intro heq
      rw [blockNo_of_slot hsl, (h.sync dp hd hdv).1] at hb heq
      rw [(h.sync q hq hqv).1] at heq
      have hslot : _ = slotVal s.data (s.dinode (s.itable q).inum) (.addr indirect) := heq.symm
      have hinj := h.disk.owns.slotVal_inj (h.allocated hd hdv) (h.allocated hq hqv) hb hslot
      exact slotOfBlock_ne_indirect (hsl.trans (congrArg some hinj.2))
    simp only [slotVal, update_of_ne hne]

/-- The directory's inode when the entry of `p` has been removed from it. -/
def parentAfter (s : Fs) (dp p : IPtr) : Inode :=
  if (s.itable p).d.type = .dir then dropped (s.itable dp) else s.itable dp

/-- What `sys_unlink` logs when it removes `p` from offset `off` of `dp`: the block of the entry and
those of the two inodes, and what is removed with the last references to them. -/
def unlinkBlocks (s : Fs) (dp p : IPtr) (off : ℕ) : Set ℕ :=
  {blockNo s.data (s.itable dp).d (off / bSize), iBlock (s.itable dp).inum,
    iBlock (s.itable p).inum} ∪ ({ x ∈ removed s dp | Unlinked (parentAfter s dp p) } ∪
    { x ∈ removed s p | Unlinked (dropped (s.itable p)) })

theorem wp_dropParentLink_trims {dp : IPtr} : wp (dropParentLink dp p) (fun _ s' =>
    ∃ B ⊆ {iBlock (s.itable dp).inum}, Trims dp ∅ B s s' ∧
      s'.itable dp = parentAfter s dp p) E s := by
  rw [dropParentLink, wp_bind, wp_get]
  refine wp_ite (fun hdir => wp_dropLink_trims.mono ?_) fun hdir => wp_pure.2 ⟨∅, by simp, .refl,
    (if_neg hdir).symm⟩
  rintro _ s' ⟨ht, hs'⟩
  exact ⟨_, subset_rfl, ht, hs'.trans (if_pos hdir).symm⟩

theorem wp_unlinkInode_logs {R : Multiset IPtr} {dp : IPtr} (h : FsOk s (dp ::ₘ p ::ₘ R))
    (hne : dp ≠ p) (hdv : (s.itable dp).valid = true) (hv : (s.itable p).valid = true)
    (hdvd : direntSize ∣ off) (hsize : off + direntSize ≤ (s.itable dp).d.size)
    (hE : E .freeingFreeBlock) :
    wp (unlinkInode dp p off) (fun _ => LogsAll (unlinkBlocks s dp p off) s) E s := by
  have hd : dp ∈ dp ::ₘ p ::ₘ R := Multiset.mem_cons_self _ _
  have hp : p ∈ dp ::ₘ p ::ₘ R := Multiset.mem_cons_of_mem (Multiset.mem_cons_self _ _)
  have hb : blockNo s.data (s.itable dp).d (off / bSize) ≠ 0 := by
    rw [(h.sync dp hd hdv).1] at hsize ⊢
    refine h.disk.mapped _ (h.allocated hd hdv) _ ((div_mul_le_self _ _).trans_lt ?_)
    exact (Nat.lt_add_of_pos_right (by decide)).trans_le hsize
  have hin : off % bSize + 16 ≤ bSize := by
    obtain ⟨k, rfl⟩ := hdvd
    show 16 * k % 1024 + 16 ≤ 1024
    omega
  rw [unlinkInode, wp_bind]
  refine wp_clearEntry_logs hsize hin hb fun s1 blk hd1 ht1 hlog1 => ?_
  have hsame : ∀ q ∈ dp ::ₘ p ::ₘ R, (s.itable q).valid = true → removed s1 q = removed s q := by
    intro q hq hqv
    refine removed_congr (by rw [ht1]) fun sl => ?_
    rw [hd1, ht1]
    exact h.slotVal_store hd hdv hq hqv hb sl
  rw [wp_bind]
  refine wp_dropParentLink_trims.mono ?_
  rintro _ s2 ⟨B, hB, h2, hdp⟩
  refine wp_bind.2 ((wp_iput_trims hE).mono ?_)
  rintro _ s3 ⟨K, h3⟩
  -- the directory is released, the entry of the file is as it was
  have hs3 : s3.itable p = s1.itable p := (h3.other p hne.symm).trans (h2.other p hne.symm)
  have hrem : removed s3 p = removed s p := by
    rw [← hsame p hp hv]
    exact removed_congr (by rw [hs3]) fun sl => by rw [hs3, h3.data, h2.data]
  refine wp_bind.2 (wp_dropLink_trims.mono ?_)
  rintro _ s4 ⟨h4, hp4⟩
  refine (wp_iput_trims hE).mono ?_
  rintro _ s5 ⟨K', h5⟩
  have h1 : LogsAll {blockNo s.data (s.itable dp).d (off / bSize),
    iBlock (s.itable dp).inum} s s1 :=
    ⟨[_, _], hlog1, by simp [or_comm]⟩
  have hall := h1.trans (h2.logs.trans (h3.logs.trans (h4.logs.trans h5.logs)))
  rw [h2.removed, hsame dp hd hdv, hdp, h4.removed, hrem, hp4, hs3, ht1] at hall
  have hparent : parentAfter s1 dp p = parentAfter s dp p := by rw [parentAfter, ht1]; rfl
  rw [hparent] at hall
  have hB' : ∀ x ∈ B, x = iBlock (s.itable dp).inum := fun x hx => by simpa [ht1] using hB hx
  convert hall using 1
  ext x
  simp only [unlinkBlocks, Set.mem_union, Set.mem_insert_iff, Set.mem_singleton_iff]
  have := hB' x
  tauto

section

omit [Superblock]

/-- The disk that `mkfs` lays out for 200000 blocks. -/
@[reducible] def labDisk : Superblock :=
  ⟨200000, 199930, 200, 32, 45, by decide, by decide, by decide, by decide⟩

/-- The root directory of `labDisk` with a file `a`, whose twelve blocks are in twelve regions. -/
def scattered : Fs :=
  let root : Dinode :=
    { Dinode.fresh .dir with nlink := 1, size := 48, addrs := fun k => if k.val = 0 then 70 else 0 }
  { used := fun b => b < 71 ∨ b % 8192 = 71 ∧ b / 8192 < 12
    dinode := fun i =>
      if i = 1 then root
      else if i = 2 then { Dinode.fresh .file with
        nlink := 1, size := 12 * 1024, addrs := fun k => if k.val < 12 then 8192 * k.val +
          71 else 0 }
      else Dinode.fresh .free
    data := fun _ => Block.zero.write 0 ([1, 0, 46] ++ List.replicate 13 0 ++ [1, 0, 46, 46] ++
      List.replicate 12 0 ++ [2, 0, 97])
    itable := fun q => if q = ⟨0, nInode_pos⟩ then ⟨1, 1, true, root⟩ else ⟨0, 0, false,
      Dinode.fresh .free⟩
    logged := [] }

theorem slotOf_scattered {x : ℕ × Slot} (hb : b ≠ 0) :
    @slotOf labDisk scattered.data scattered.dinode x = b ↔
      x = (1, .addr 0) ∧ b = 70 ∨ ∃ k : Fin (nDirect + 1), k.val < 12 ∧ x = (2, .addr k) ∧
        b = 8192 * k.val + 71 := by
  let S : Superblock := labDisk
  obtain ⟨i, sl⟩ := x
  by_cases h1 : i = 1
  · rw [h1]
    cases sl with
    | addr k =>
      show (if k.val = 0 then 70 else 0) = b ↔ _
      split <;> simp_all [eq_comm]
    | entry j =>
      show 0 = b ↔ _
      simp [hb.symm]
  · by_cases h2 : i = 2
    · rw [h2]
      cases sl with
      | addr k =>
        show (if k.val < 12 then 8192 * k.val + 71 else 0) = b ↔ _
        split <;> simp_all [eq_comm]
      | entry j =>
        show 0 = b ↔ _
        simp [hb.symm]
    · simp [slotOf, scattered, Dinode.fresh, h1, h2, hb.symm]

theorem diskOk_scattered : @DiskOk labDisk scattered.used scattered.data scattered.dinode := by
  let S : Superblock := labDisk
  have hmark : ∀ b, scattered.used b = true ↔ b < 71 ∨ b % 8192 = 71 ∧ b / 8192 < 12 :=
    fun b => decide_eq_true_iff
  have hstart : Superblock.size - Superblock.nblocks = 70 := by decide +kernel
  have harea : ∀ b, b ∈ (dataArea : Set ℕ) ↔ 70 ≤ b ∧ b < 200000 := fun b => by
    rw [dataArea, hstart]
    exact Iff.rfl
  refine ⟨⟨fun x hx => ?_, fun b hb hused => ?_⟩, fun b hb => ?_, fun i hi bn hbn => ?_⟩
  · rw [hmark, harea]
    obtain ⟨-, hb⟩ | ⟨k, hk, -, hb⟩ := (slotOf_scattered hx).1 rfl <;> omega
  · rw [harea] at hb
    have hb0 : b ≠ 0 := by omega
    refine existsUnique_of_exists_of_unique ?_ fun x y hx hy => ?_
    · rcases (hmark b).1 hused with hlt | ⟨hmod, hdiv⟩
      · exact ⟨(1, .addr 0), (slotOf_scattered hb0).2 (.inl ⟨rfl, by omega⟩)⟩
      · refine ⟨(2, .addr ⟨b / 8192, lt_succ_of_lt hdiv⟩),
          (slotOf_scattered hb0).2 (.inr ⟨_, hdiv, rfl, ?_⟩)⟩
        exact (div_add_mod b 8192).symm.trans (by rw [hmod])
    · obtain ⟨rfl, hx⟩ | ⟨k, hk, rfl, hx⟩ := (slotOf_scattered hb0).1 hx <;>
        obtain ⟨rfl, hy⟩ | ⟨k', hk', rfl, hy⟩ := (slotOf_scattered hb0).1 hy
      · rfl
      · omega
      · omega
      · rw [show k = k' from Fin.ext (by omega)]
  · exact (hmark b).2 (.inl (by omega))
  · have hsmall : ∀ i < 200, (scattered.dinode i).size ≤ 12 * 1024 ∧ ∀ bn < 12,
        bn * bSize < (scattered.dinode i).size → blockNo scattered.data (scattered.dinode i) bn ≠
        0 := by
      decide +kernel
    have hle := (hsmall i hi.1).1
    refine (hsmall i hi.1).2 bn ?_ hbn
    replace hbn : bn * 1024 < _ := hbn
    omega

end

end Fs

end CsklubOs
