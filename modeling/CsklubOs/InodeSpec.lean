/-
**What the inode layer does.**

The functions of `CsklubOs/Inode.lean` that map, allocate and free blocks.

Main definitions:

* `eff` — the disk as a call sees it: its copy of an inode is ahead of the one on disk;
* `Grown`, `Trimmed` — what mapping and freeing blocks may change.

Main results:

* `wp_bmap`, `wp_itrunc` — the blocks of a file are mapped and freed.
-/

import CsklubOs.DiskOwner

set_option autoImplicit false

namespace CsklubOs

open Function List

namespace Fs

open Wp Ownership

/-- The inodes as the holder of `p` sees them: its copy is ahead of the disk. -/
def eff (s : Fs) (p : IPtr) : ℕ → Dinode :=
  update s.dinode (s.itable p).inum (s.itable p).d

theorem eff_self (s : Fs) (p : IPtr) : s.eff p (s.itable p).inum = (s.itable p).d :=
  update_self _ _ _

theorem eff_of_ne (s : Fs) {p : IPtr} {i : ℕ} (h : i ≠ (s.itable p).inum) :
    s.eff p i = s.dinode i :=
  update_of_ne h _ _

/-- The entry with another copy of the inode. -/
def Inode.withD (ip : Inode) (d : Dinode) : Inode := { ip with d := d }

variable [Superblock] {s : Fs} {p : IPtr} {E : FsPanic → Prop} {b : ℕ}

/-! ### The table and the disk change separately -/

variable {Q : Unit → Fs → Prop} {s' s1 : Fs} {K : Fin (nDirect + 1) → Prop}

section

omit [Superblock]

theorem wp_modifyInode {f : Inode → Inode}
    (h : ∀ s', s'.used = s.used → s'.data = s.data → s'.dinode = s.dinode →
      s'.itable = update s.itable p (f (s.itable p)) → Q () s') : wp (modifyInode p f) Q E s := by
  rw [modifyInode, wp_modify]
  exact h _ rfl rfl rfl rfl

theorem wp_modifyD {f : Dinode → Dinode}
    (h : ∀ s', s'.used = s.used → s'.data = s.data → s'.dinode = s.dinode →
      s'.itable = update s.itable p (Inode.withD (s.itable p) (f (s.itable p).d)) →
      Q () s') : wp (modifyD p f) Q E s :=
  wp_modifyInode h

theorem wp_modifyBlock {f : Block → Block}
    (h : ∀ s', s'.used = s.used → s'.data = update s.data b (f (s.data b)) →
      s'.dinode = s.dinode → s'.itable = s.itable → Q () s') : wp (modifyBlock b f) Q E s := by
  rw [modifyBlock, wp_modify]
  exact h _ rfl rfl rfl rfl

theorem wp_logWrite
    (h : ∀ s', s'.used = s.used → s'.data = s.data → s'.dinode = s.dinode → s'.itable = s.itable →
      Q () s') : wp (logWrite b) Q E s := by
  rw [logWrite, wp_modify]
  exact h _ rfl rfl rfl rfl

end

theorem wp_iupdate
    (h : ∀ s', s'.used = s.used → s'.data = s.data → s'.dinode = s.eff p → s'.itable = s.itable →
      Q () s') : wp (iupdate p) Q E s := by
  rw [iupdate, wp_bind, wp_get, wp_bind, wp_set, logWrite, wp_modify]
  exact h _ rfl rfl rfl rfl

section

omit [Superblock]

theorem eff_withD {d : Dinode} (hdinode : s'.dinode = s.dinode)
    (hitable : s'.itable = update s.itable p (Inode.withD (s.itable p) d)) :
    s'.eff p = update (s.eff p) (s.itable p).inum d := by
  rw [eff, eff, hdinode, hitable, update_self, update_idem]
  rfl

theorem eff_congr (hdinode : s'.dinode = s.dinode) (hitable : s'.itable = s.itable) :
    s'.eff p = s.eff p := by
  rw [eff, eff, hdinode, hitable]

/-! ### Blocks -/

theorem firstFree_eq_some {taken : ℕ → Bool} {n b c : ℕ} (h : firstFree taken n b = some c) :
    b ≤ c ∧ c < b + n ∧ taken c = false := by
  induction n generalizing b with
  | zero => cases h
  | succ n ih =>
    rw [firstFree] at h
    split at h
    · obtain ⟨h1, h2, h3⟩ := ih h
      exact ⟨by omega, by omega, h3⟩
    · rename_i hb
      obtain rfl := Option.some.inj h
      exact ⟨le_refl _, by omega, by simpa using hb⟩

theorem firstFree_eq_none {taken : ℕ → Bool} {n b c : ℕ} (h : firstFree taken n b = none)
    (hbc : b ≤ c) (hc : c < b + n) : taken c = true := by
  induction n generalizing b with
  | zero => omega
  | succ n ih =>
    rw [firstFree] at h
    split at h
    · rename_i hb
      by_cases hcb : c = b
      · rw [hcb]
        exact hb
      · exact ih h (by omega) (by omega)
    · cases h

end

theorem wp_balloc {Q : ℕ → Fs → Prop}
    (hres : ∀ b < Superblock.size - Superblock.nblocks, s.used b = true) (hnone : Q 0 s)
    (hsome : ∀ b s', b ∈ (dataArea : Set ℕ) → s.used b = false →
      s'.used = update s.used b true → s'.data = update s.data b Block.zero →
      s'.dinode = s.dinode → s'.itable = s.itable → Q b s') : wp balloc Q E s := by
  rw [balloc, wp_bind, wp_get]
  split
  · exact wp_pure.2 hnone
  · rename_i b hb
    obtain ⟨-, hlt, hfree⟩ := firstFree_eq_some hb
    have harea : b ∈ (dataArea : Set ℕ) := by
      refine ⟨?_, by omega⟩
      by_contra hlt'
      rw [hres b (by omega)] at hfree
      cases hfree
    rw [wp_bind, wp_set, logWrite, wp_bind, wp_modify, bzero, logWrite, modifyBlock, wp_bind,
      wp_bind, wp_modify, wp_modify, wp_pure]
    exact hsome b _ harea hfree rfl rfl rfl rfl

theorem wp_bfree (hused : s.used b = true)
    (h : ∀ s', s'.used = update s.used b false → s'.data = s.data → s'.dinode = s.dinode →
      s'.itable = s.itable → Q () s') : wp (bfree b) Q E s := by
  rw [bfree, wp_bind, wp_get]
  refine wp_ite (fun hf => absurd hf (by simp [hused])) fun _ => ?_
  rw [wp_bind, wp_set, logWrite, wp_modify]
  exact h _ rfl rfl rfl rfl

/-! ### Mapping the blocks of a file -/

/-- The disk as the holder of `p` sees it is consistent. -/
structure EffOk (p : IPtr) (s : Fs) : Prop where
  disk : DiskOk s.used s.data (s.eff p)
  alloc : Allocated (s.eff p) (s.itable p).inum

/-- What `bmap` may change: blocks are added to `addrs` and to the indirect block, and everything
that was mapped stays as it is. -/
structure Grown (p : IPtr) (s s' : Fs) : Prop where
  dinode : s'.dinode = s.dinode
  itable : ∃ a, s'.itable = update s.itable p
    (Inode.withD (s.itable p) { (s.itable p).d with addrs := a })
  keeps : Keeps (fun _ _ => True) s.data (s.eff p) s'.data (s'.eff p)

theorem Grown.refl (p : IPtr) (s : Fs) : Grown p s s := by
  refine ⟨rfl, ⟨(s.itable p).d.addrs, ?_⟩, fun i bn _ _ _ => ⟨rfl, rfl⟩⟩
  exact (update_eq_self _ _).symm

theorem Grown.inum (h : Grown p s s') : (s'.itable p).inum = (s.itable p).inum := by
  obtain ⟨a, ha⟩ := h.itable
  rw [ha, update_self]
  rfl

theorem Grown.d_eq (h : Grown p s s') :
    ∃ a, (s'.itable p).d = { (s.itable p).d with addrs := a } := by
  obtain ⟨a, ha⟩ := h.itable
  refine ⟨a, ?_⟩
  rw [ha, update_self]
  rfl

theorem Grown.allocated (h : Grown p s s') (i : ℕ) :
    Allocated (s'.eff p) i ↔ Allocated (s.eff p) i := by
  obtain ⟨a, ha⟩ := h.d_eq
  by_cases hi : i = (s.itable p).inum
  · subst hi
    have h1 := eff_self s p
    have h2 := eff_self s' p
    rw [h.inum] at h2
    rw [Allocated, Allocated, h1, h2, ha]
  · rw [Allocated, Allocated, eff_of_ne s hi, eff_of_ne s' (by rwa [h.inum]), h.dinode]

theorem Grown.trans {s'' : Fs} (h : Grown p s s') (h' : Grown p s' s'') : Grown p s s'' := by
  refine ⟨h'.dinode.trans h.dinode, ?_, fun i bn hi hP hbn => ?_⟩
  · obtain ⟨a, ha⟩ := h.itable
    obtain ⟨a', ha'⟩ := h'.itable
    refine ⟨a', ?_⟩
    rw [ha', ha, update_self, update_idem]
    rfl
  · obtain ⟨h1, h2⟩ := h.keeps i bn hi hP hbn
    obtain ⟨h3, h4⟩ := h'.keeps i bn ((h.allocated i).2 hi) hP (by rwa [h1])
    rw [h1] at h3 h4
    exact ⟨h3, h4.trans h2⟩

theorem wp_mapAddr (h : EffOk p s) (k : Fin (nDirect + 1)) :
    wp (mapAddr p k) (fun addr s' => EffOk p s' ∧ Grown p s s' ∧ (s'.itable p).d.addrs k = addr)
      E s := by
  rw [mapAddr, wp_bind, wp_get]
  refine wp_ite (fun hk => ?_) fun _ => wp_pure.2 ⟨h, Grown.refl p s, rfl⟩
  rw [wp_bind]
  refine wp_balloc h.disk.reserved ?_ fun b s' hb hfree hused hdata hdinode hitable => ?_
  · exact wp_pure.2 ⟨h, Grown.refl p s, hk⟩
  · have hk' : (s.eff p (s.itable p).inum).addrs k = 0 := by rwa [eff_self]
    obtain ⟨hok, hkeeps⟩ := h.disk.attachAddr h.alloc hk' hb hfree
    have halloc := h.alloc.withAddr k b
    rw [eff_self] at hok hkeeps halloc
    rw [if_neg (ne_of_mem_of_not_mem hb zero_notMem_dataArea), wp_bind]
    refine wp_modifyD fun t hu hd hn ht => wp_pure.2 ?_
    rw [hitable] at ht
    have heff := eff_withD (hn.trans hdinode) ht
    refine ⟨⟨?_, ?_⟩, ⟨hn.trans hdinode, ⟨_, ht⟩, ?_⟩, ?_⟩
    · rw [heff, hu, hused, hd, hdata]
      exact hok
    · rw [heff, ht, update_self]
      exact halloc
    · rw [heff, hd, hdata]
      exact hkeeps
    · rw [ht, update_self]
      exact update_self k b (s.itable p).d.addrs

theorem wp_mapEntry (h : EffOk p s) (ha : (s.itable p).d.addrs indirect ≠ 0) (e : Fin nIndirect) :
    wp (mapEntry ((s.itable p).d.addrs indirect) e) (fun addr s' => EffOk p s' ∧ Grown p s s' ∧
      slotVal s'.data (s'.itable p).d (.entry e) = addr) E s := by
  rw [mapEntry, wp_bind, wp_get]
  refine wp_ite (fun he => ?_) fun _ => wp_pure.2 ⟨h, Grown.refl p s, if_neg ha⟩
  rw [wp_bind]
  refine wp_balloc h.disk.reserved ?_ fun b s' hb hfree hused hdata hdinode hitable => ?_
  · refine wp_pure.2 ⟨h, Grown.refl p s, ?_⟩
    simp only [slotVal, if_neg ha, he]
  · have hne : (s.itable p).d.addrs indirect ≠ b := by
      have hne := h.disk.owns.slotVal_ne h.alloc hb hfree (.addr indirect)
      rwa [eff_self] at hne
    have hdata' : update s'.data ((s.itable p).d.addrs indirect)
        ((s'.data ((s.itable p).d.addrs indirect)).setWord (4 * e) b) =
        update (update s.data b Block.zero) ((s.itable p).d.addrs indirect)
          ((s.data ((s.itable p).d.addrs indirect)).setWord (4 * e) b) := by
      rw [hdata, update_of_ne hne]
    obtain ⟨hok, hkeeps⟩ := h.disk.attachEntry (b := b) h.alloc (by rwa [eff_self]) e
      (by rwa [eff_self]) hb hfree (by rw [eff_self])
    rw [if_neg (ne_of_mem_of_not_mem hb zero_notMem_dataArea), wp_bind]
    refine wp_modifyBlock fun t hu hd hn ht => ?_
    rw [wp_bind]
    refine wp_logWrite fun t' hu' hd' hn' ht' => wp_pure.2 ?_
    have hd1 := hd'.trans (hd.trans hdata')
    have hn1 := hn'.trans (hn.trans hdinode)
    have ht1 := ht'.trans (ht.trans hitable)
    have hblt : b < 2 ^ 32 := by
      have hb2 : b < Superblock.size := hb.2
      have hsz := Superblock.size_lt
      omega
    have he4 : 4 * e.val + 4 ≤ bSize := by
      have hsize : 4 * nIndirect = bSize := rfl
      omega
    refine ⟨⟨?_, ?_⟩, ⟨hn1, ⟨(s.itable p).d.addrs, ?_⟩, ?_⟩, ?_⟩
    · rw [eff_congr hn1 ht1, hu', hu, hused, hd1]
      exact hok
    · rw [eff_congr hn1 ht1, ht1]
      exact h.alloc
    · exact ht1.trans (update_eq_self p s.itable).symm
    · rw [eff_congr hn1 ht1, hd1]
      exact hkeeps
    · simp only [ht1, slotVal, if_neg ha, hd1, update_self]
      rw [Block.word_setWord _ _ he4, Nat.mod_eq_of_lt hblt]

/-- **`bmap`**: whichever branch it takes, the disk stays consistent and what was mapped stays. -/
theorem wp_bmap (h : EffOk p s) {bn : ℕ} (hbn : bn < maxFile) :
    wp (bmap p bn) (fun addr s' => EffOk p s' ∧ Grown p s s' ∧
      blockNo s'.data (s'.itable p).d bn = addr) E s := by
  unfold bmap
  split
  · rename_i hd
    refine (wp_mapAddr h _).mono ?_
    rintro addr s' ⟨hok, hg, haddr⟩
    refine ⟨hok, hg, ?_⟩
    rw [blockNo_of_slot (dif_pos hd)]
    exact haddr
  · rename_i hd
    obtain ⟨hlt, hslot⟩ := slotOfBlock_entry hbn hd
    rw [if_pos hlt, wp_bind]
    refine (wp_mapAddr h indirect).mono ?_
    rintro addr s' ⟨hok, hg, haddr⟩
    refine wp_ite (fun h0 => ?_) fun h0 => ?_
    · refine wp_pure.2 ⟨hok, hg, ?_⟩
      rw [blockNo_of_slot hslot]
      exact if_pos (haddr.trans h0)
    · rw [← haddr] at h0 ⊢
      refine (wp_mapEntry hok h0 ⟨bn - nDirect, hlt⟩).mono ?_
      rintro addr' s'' ⟨hok', hg', haddr'⟩
      refine ⟨hok', hg.trans hg', ?_⟩
      rw [blockNo_of_slot hslot]
      exact haddr'

theorem wp_bmap_mapped {Q : ℕ → Fs → Prop} {bn : ℕ} (hbn : blockNo s.data (s.itable p).d bn ≠ 0)
    (hQ : Q (blockNo s.data (s.itable p).d bn) s) : wp (bmap p bn) Q E s := by
  have hlt := lt_maxFile_of_blockNo hbn
  unfold bmap
  split
  · rename_i hd
    rw [blockNo_of_slot (dif_pos hd), slotVal] at hbn hQ
    rw [mapAddr, wp_bind, wp_get, if_neg hbn]
    exact wp_pure.2 hQ
  · rename_i hd
    obtain ⟨hlt, hslot⟩ := slotOfBlock_entry hlt hd
    rw [blockNo_of_slot hslot] at hbn hQ
    have hind : (s.itable p).d.addrs indirect ≠ 0 := fun h0 => hbn (if_pos h0)
    simp only [slotVal, if_neg hind] at hbn hQ
    rw [if_pos hlt, wp_bind, mapAddr, wp_bind, wp_get, if_neg hind, wp_pure, if_neg hind, mapEntry,
      wp_bind, wp_get, if_neg hbn]
    exact wp_pure.2 hQ

/-! ### Truncating a file -/

theorem wp_bfree_owned {v : ℕ × Slot → ℕ} {x : ℕ × Slot} (ho : Owns dataArea s.used v)
    (hres : ∀ b < Superblock.size - Superblock.nblocks, s.used b = true) (hx : v x ≠ 0)
    (h : ∀ s', Owns dataArea s'.used (update v x 0) →
      (∀ b < Superblock.size - Superblock.nblocks, s'.used b = true) → s'.data = s.data →
      s'.dinode = s.dinode → s'.itable = s.itable → Q () s') : wp (bfree (v x)) Q E s := by
  obtain ⟨harea, hused⟩ := ho.held x hx
  refine wp_bfree hused fun s' hu hd hn ht => h s' ?_ (fun b hb => ?_) hd hn ht
  · rw [hu]
    exact ho.detach zero_notMem_dataArea hx
  · rw [hu, update_used_reserved harea false b hb]
    exact hres b hb

/-- What `itrunc` has done when the entries of `addrs` in `K` are cleared. -/
structure Trimmed (p : IPtr) (s : Fs) (K : Fin (nDirect + 1) → Prop) (s' : Fs) : Prop where
  owns : Consistent s'.used s'.data (s'.eff p)
  reserved : ∀ b < Superblock.size - Superblock.nblocks, s'.used b = true
  data : s'.data = s.data
  dinode : s'.dinode = s.dinode
  itable : ∃ a, s'.itable = update s.itable p
    (Inode.withD (s.itable p) { (s.itable p).d with addrs := a }) ∧ ∀ k, K k → a k = 0

theorem Trimmed.inum (h : Trimmed p s K s') : (s'.itable p).inum = (s.itable p).inum := by
  obtain ⟨a, ha, -⟩ := h.itable
  rw [ha, update_self]
  rfl

theorem Trimmed.allocated (h : Trimmed p s K s') (hi : Allocated (s.eff p) (s.itable p).inum) :
    Allocated (s'.eff p) (s'.itable p).inum := by
  obtain ⟨a, ha, -⟩ := h.itable
  have hi2 := hi.2
  rw [eff_self] at hi2
  refine ⟨h.inum ▸ hi.1, ?_⟩
  rw [eff_self, ha, update_self]
  exact hi2

theorem Trimmed.setAddr {s2 : Fs} {k : Fin (nDirect + 1)} (h : Trimmed p s K s1)
    (hres : ∀ b < Superblock.size - Superblock.nblocks, s2.used b = true) (hd2 : s2.data = s1.data)
    (hn2 : s2.dinode = s1.dinode) (ht2 : s2.itable = s1.itable) (hu : s'.used = s2.used)
    (hd : s'.data = s2.data) (hn : s'.dinode = s2.dinode) (ht : s'.itable = update s2.itable p
      (Inode.withD (s2.itable p) (Dinode.withAddr (s2.itable p).d k 0)))
    (ho : Consistent s2.used s1.data (update (s1.eff p) (s1.itable p).inum
      (Dinode.withAddr (s1.eff p (s1.itable p).inum) k 0))) :
    Trimmed p s (fun j => K j ∨ j = k) s' := by
  rw [ht2] at ht
  refine ⟨?_, fun b hb => hu ▸ hres b hb, hd.trans (hd2.trans h.data),
    hn.trans (hn2.trans h.dinode), ?_⟩
  · rw [eff_withD (hn.trans hn2) ht, hu, hd, hd2]
    rwa [eff_self] at ho
  · obtain ⟨a, ha, hK⟩ := h.itable
    refine ⟨update a k 0, ?_, ?_⟩
    · rw [ht, ha, update_self, update_idem]
      rfl
    · rintro j (hj | rfl)
      · by_cases hjk : j = k
        · rw [hjk, update_self]
        · rw [update_of_ne hjk]
          exact hK j hj
      · exact update_self _ _ _

theorem Trimmed.skip {k : Fin (nDirect + 1)} (h : Trimmed p s K s1)
    (h0 : (s1.itable p).d.addrs k = 0) : Trimmed p s (fun j => K j ∨ j = k) s1 := by
  obtain ⟨a, ha, hK⟩ := h.itable
  refine ⟨h.owns, h.reserved, h.data, h.dinode, a, ha, ?_⟩
  rintro j (hj | rfl)
  · exact hK j hj
  · rwa [ha, update_self] at h0

theorem wp_freeAddr {k : Fin (nDirect + 1)} (h : Trimmed p s K s1)
    (hi : Allocated (s.eff p) (s.itable p).inum) (hk : k ≠ indirect) :
    wp (freeAddr p k) (fun _ s' => Trimmed p s (fun j => K j ∨ j = k) s') E s1 := by
  rw [freeAddr, wp_bind, wp_get]
  refine wp_ite (fun h0 => wp_pure.2 (h.skip h0)) fun h0 => ?_
  · have hi1 := h.allocated hi
    have hval : slotOf s1.data (s1.eff p) ((s1.itable p).inum, .addr k) =
        (s1.itable p).d.addrs k := by
      rw [slotOf_of_allocated hi1, eff_self]
      rfl
    rw [wp_bind, ← hval]
    refine wp_bfree_owned h.owns h.reserved (by rwa [hval]) fun s2 ho2 hres2 hd2 hn2 ht2 => ?_
    refine wp_modifyD fun s' hu hd hn ht => h.setAddr hres2 hd2 hn2 ht2 hu hd hn ht ?_
    rw [Consistent, slotOf_clearAddr hi1 hk]
    exact ho2

theorem wp_freeIndirect (h : Trimmed p s K s1) (hi : Allocated (s.eff p) (s.itable p).inum) :
    wp (freeIndirect p) (fun _ s' => Trimmed p s (fun j => K j ∨ j = indirect) s') E s1 := by
  rw [freeIndirect, wp_bind, wp_get]
  refine wp_ite (fun h0 => wp_pure.2 (h.skip h0)) fun h0 => ?_
  · have hi1 := h.allocated hi
    -- the slots whose blocks are still taken after `n` rounds of the loop
    let v : ℕ → ℕ × Slot → ℕ := fun n =>
      clearEntries (s1.itable p).inum n (slotOf s1.data (s1.eff p))
    have hentry : ∀ e : Fin nIndirect, v e ((s1.itable p).inum, .entry e) =
        (s1.data ((s1.itable p).d.addrs indirect)).word (4 * e) := by
      intro e
      have hv : v e ((s1.itable p).inum, .entry e) =
          slotOf s1.data (s1.eff p) ((s1.itable p).inum, .entry e) := if_neg (by omega)
      rw [hv, slotOf_of_allocated hi1, eff_self]
      exact if_neg h0
    rw [wp_bind]
    refine wp_forM (I := fun l s2 => ∃ n, l = List.range' n (nIndirect - n) ∧ n ≤ nIndirect ∧
      Owns dataArea s2.used (v n) ∧ (∀ b < Superblock.size - Superblock.nblocks, s2.used b = true) ∧
      s2.data = s1.data ∧ s2.dinode = s1.dinode ∧ s2.itable = s1.itable) ?_ ?_ ?_
    · refine ⟨0, by rw [range_eq_range']; rfl, Nat.zero_le _, ?_, h.reserved, rfl, rfl, rfl⟩
      have hv : v 0 = slotOf s1.data (s1.eff p) := clearEntries_zero _
      rw [hv]
      exact h.owns
    · rintro b l s2 ⟨n, hl, hn, ho, hres, hd, hdi, ht⟩
      have hlt : n < nIndirect := by
        by_contra hge
        rw [Nat.sub_eq_zero_of_le (by omega)] at hl
        cases hl
      obtain ⟨m, hm⟩ : ∃ m, nIndirect - n = m + 1 := ⟨nIndirect - n - 1, by omega⟩
      rw [hm] at hl
      obtain ⟨rfl, rfl⟩ := List.cons.inj hl
      have hsucc : v (b + 1) = update (v b) ((s1.itable p).inum, .entry ⟨b, hlt⟩) 0 :=
        clearEntries_succ ⟨b, hlt⟩ _
      have hrest : List.range' (b + 1) m = List.range' (b + 1) (nIndirect - (b + 1)) := by
        congr 1
        omega
      have hval := hentry ⟨b, hlt⟩
      refine wp_ite (fun hz => wp_pure.2 ⟨b + 1, hrest, hlt, ?_, hres, hd, hdi, ht⟩) fun hz => ?_
      · rw [hsucc, ← hz, ← hval, update_eq_self]
        exact ho
      · rw [← hval] at hz ⊢
        refine wp_bfree_owned ho hres hz fun s3 ho3 hres3 hd3 hn3 ht3 =>
          ⟨b + 1, hrest, hlt, ?_, hres3, hd3.trans hd, hn3.trans hdi, ht3.trans ht⟩
        rw [hsucc]
        exact ho3
    · rintro s2 ⟨n, hl, hn, ho, hres, hd, hdi, ht⟩
      have hn' : n = nIndirect := by
        have hlen := congrArg List.length hl
        simp only [length_nil, length_range'] at hlen
        omega
      subst hn'
      have hval : v nIndirect ((s1.itable p).inum, .addr indirect) =
          (s1.itable p).d.addrs indirect := by
        show slotOf s1.data (s1.eff p) ((s1.itable p).inum, .addr indirect) = _
        rw [slotOf_of_allocated hi1, eff_self]
        rfl
      rw [freeAddr, wp_bind, wp_get, ht, if_neg h0, wp_bind, ← hval]
      refine wp_bfree_owned ho hres (by rwa [hval]) fun s3 ho3 hres3 hd3 hn3 ht3 => ?_
      refine wp_modifyD fun s' hu' hd' hn' ht' => h.setAddr hres3 (hd3.trans hd) (hn3.trans hdi)
        (ht3.trans ht) hu' hd' hn' ht' ?_
      rw [Consistent, slotOf_clearIndirect hi1]
      exact ho3

/-- The inode without its contents. -/
def Dinode.truncated (d : Dinode) : Dinode := { d with size := 0, addrs := fun _ => 0 }

theorem wp_itrunc (h : EffOk p s) (hQ : ∀ s', DiskOk s'.used s'.data s'.dinode → s'.data = s.data →
      s'.dinode = update s.dinode (s.itable p).inum (Dinode.truncated (s.itable p).d) →
      s'.itable = update s.itable p
        (Inode.withD (s.itable p) (Dinode.truncated (s.itable p).d)) → Q () s') :
    wp (itrunc p) Q E s := by
  rw [itrunc, wp_bind]
  refine wp_forM (I := fun l s1 => (∀ k ∈ l, k ≠ indirect) ∧
    Trimmed p s (fun k => k ≠ indirect ∧ k ∉ l) s1) ⟨?_, ?_⟩ ?_ ?_
  · intro k hk
    obtain ⟨k', -, rfl⟩ := mem_map.1 hk
    exact (Fin.castSucc_lt_last k').ne
  · refine ⟨h.disk.owns, h.disk.reserved, rfl, rfl, (s.itable p).d.addrs,
      (update_eq_self _ _).symm, fun k hk => absurd ?_ hk.2⟩
    obtain ⟨k', rfl⟩ := Fin.exists_castSucc_eq.2 hk.1
    exact mem_map.2 ⟨k', mem_finRange k', rfl⟩
  · rintro k l s1 ⟨hne, ht⟩
    refine (wp_freeAddr ht h.alloc (hne k mem_cons_self)).mono fun _ s2 h2 =>
      ⟨fun j hj => hne j (mem_cons_of_mem k hj), h2.owns, h2.reserved, h2.data, h2.dinode, ?_⟩
    obtain ⟨a, ha, hK⟩ := h2.itable
    refine ⟨a, ha, fun j hj => hK j ?_⟩
    by_cases hjk : j = k
    · exact .inr hjk
    · exact .inl ⟨hj.1, fun hmem => (mem_cons.1 hmem).elim hjk hj.2⟩
  · rintro s1 ⟨-, ht⟩
    rw [wp_bind]
    refine (wp_freeIndirect ht h.alloc).mono fun _ s2 h2 => ?_
    obtain ⟨a, ha, hK⟩ := h2.itable
    have ha0 : a = fun _ => 0 := by
      funext k
      by_cases hk : k = indirect
      · exact hK k (.inr hk)
      · exact hK k (.inl ⟨hk, by simp⟩)
    subst ha0
    rw [wp_bind]
    refine wp_modifyD fun s3 hu3 hd3 hn3 ht3 => wp_iupdate fun s' hu hd hn ht' => ?_
    have heff2 : s2.eff p = update (s.eff p) (s.itable p).inum
        { (s.itable p).d with addrs := fun _ => 0 } := eff_withD h2.dinode ha
    have hit : s3.itable = update s.itable p
        (Inode.withD (s.itable p) (Dinode.truncated (s.itable p).d)) := by
      rw [ht3, ha, update_self, update_idem]
      rfl
    have heff3 : s3.eff p = update (s.eff p) (s.itable p).inum
        (Dinode.truncated (s.itable p).d) := eff_withD (hn3.trans h2.dinode) hit
    refine hQ s' ⟨?_, fun b hb => ?_, fun j hj bn hbn => ?_⟩ (hd.trans (hd3.trans h2.data)) ?_
      (ht'.trans hit)
    · have hslot : slotOf s'.data (s3.eff p) = slotOf s2.data (s2.eff p) := by
        have hcut : s3.eff p = update (s2.eff p) (s.itable p).inum
            (Dinode.truncated (s.itable p).d) := by rw [heff3, heff2, update_idem]
        rw [hd, hd3, hcut, slotOf_update_empty (.inr ?_) (.inr fun _ => rfl)]
        intro k
        rw [heff2, update_self]
      rw [Consistent, hn, hslot, hu, hu3]
      exact h2.owns
    · rw [hu, hu3]
      exact h2.reserved b hb
    · rw [hn, heff3] at hj hbn ⊢
      by_cases hji : j = (s.itable p).inum
      · rw [hji, update_self] at hbn
        exact absurd hbn (Nat.not_lt_zero _)
      · rw [update_of_ne hji] at hbn ⊢
        rw [hd, hd3, h2.data]
        rw [Allocated, update_of_ne hji] at hj
        exact h.disk.mapped j hj bn hbn
    · rw [hn, heff3, eff, update_idem]

end Fs

end CsklubOs

