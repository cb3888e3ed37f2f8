/-
**Reading and writing the bytes of a file.**

The loops of `readi` and `writei`.  A file without unmapped blocks below its size is a row of bytes.
A write may be cut short by a full disk or by a source that cannot be read; the disk is consistent
in every case.

Main definitions:

* `Written` — some bytes of a file are replaced, and the other files are as before.

Main results:

* `wp_readLoop`, `wp_writeLoop` — reading delivers the bytes and changes nothing, and writing
  replaces them.
-/

import CsklubOs.InodeSpec

set_option autoImplicit false

namespace CsklubOs

open Function List Nat

namespace Fs

open Wp

variable [Superblock] {s0 s : Fs} {p : IPtr} {E : FsPanic → Prop} {src : List UInt8} {off0 n : ℕ}

/-! ### Offsets and blocks -/

variable {m off x tot : ℕ}

omit [Superblock] in
theorem div_eq_of_run (hm : off % bSize + m ≤ bSize) (h1 : off ≤ x) (h2 : x < off + m) :
    x / bSize = off / bSize := by
  have hb : bSize = 1024 := rfl
  rw [hb] at hm ⊢
  omega

omit [Superblock] in
theorem sub_mod_of_div_eq (h : x / bSize = off / bSize) :
    (off % bSize ≤ x % bSize ↔ off ≤ x) ∧ x % bSize - off % bSize = x - off := by
  have hx := div_add_mod x bSize
  have hoff := div_add_mod off bSize
  rw [h] at hx
  omega

/-! ### The loop of `writei` -/

/-- What the loop of `writei` has done after `tot` bytes: the blocks up to there are mapped, and
unless the source faults the bytes are those of the source. -/
structure Written (p : IPtr) (src : List UInt8) (off0 n : ℕ) (s0 : Fs) (tot : ℕ) (s : Fs) : Prop
    where
  ok : EffOk p s
  dinode : s.dinode = s0.dinode
  itable : ∃ a, s.itable = update s0.itable p
    (Inode.withD (s0.itable p) { (s0.itable p).d with addrs := a })
  others : Keeps (fun j _ => j ≠ (s0.itable p).inum) s0.data (s0.eff p) s.data (s.eff p)
  mapped : ∀ bn, bn * bSize < off0 + tot → blockNo s.data (s.itable p).d bn ≠ 0
  bytes : n ≤ src.length → ∀ x, x < (s0.itable p).d.size ∨ x < off0 + tot →
    fbyte s.data (s.itable p).d x =
      if off0 ≤ x ∧ x < off0 + tot then src.getD (x - off0) 0
      else fbyte s0.data (s0.itable p).d x

theorem Written.inum (h : Written p src off0 n s0 tot s) :
    (s.itable p).inum = (s0.itable p).inum := by
  obtain ⟨a, ha⟩ := h.itable
  rw [ha, update_self]
  rfl

theorem Written.size (h : Written p src off0 n s0 tot s) :
    (s.itable p).d.size = (s0.itable p).d.size := by
  obtain ⟨a, ha⟩ := h.itable
  rw [ha, update_self]
  rfl

theorem Written.mapped_byte (h : Written p src off0 n s0 tot s)
    (hx : x < (s0.itable p).d.size ∨ x < off0 + tot) :
    blockNo s.data (s.itable p).d (x / bSize) ≠ 0 := by
  have hle : x / bSize * bSize ≤ x := div_mul_le_self x bSize
  rcases hx with hx | hx
  · have hm := h.ok.disk.mapped _ h.ok.alloc (x / bSize)
    rw [eff_self, h.size] at hm
    exact hm (by omega)
  · exact h.mapped _ (by omega)

theorem Written.start (h : EffOk p s) (hoff : off0 ≤ (s.itable p).d.size) :
    Written p src off0 n s 0 s := by
  refine ⟨h, rfl, ⟨(s.itable p).d.addrs, (update_eq_self _ _).symm⟩,
    fun i bn _ _ _ => ⟨rfl, rfl⟩, fun bn hbn => ?_, fun _ x _ => ?_⟩
  · have hm := h.disk.mapped _ h.alloc bn
    rw [eff_self] at hm
    exact hm (by omega)
  · rw [if_neg (by omega)]

theorem Written.grown {s' : Fs} (h : Written p src off0 n s0 tot s) (hg : Grown p s s')
    (hok : EffOk p s') : Written p src off0 n s0 tot s' := by
  have hkeep : ∀ bn, blockNo s.data (s.itable p).d bn ≠ 0 →
      blockNo s'.data (s'.itable p).d bn = blockNo s.data (s.itable p).d bn ∧
        s'.data (blockNo s.data (s.itable p).d bn) = s.data (blockNo s.data (s.itable p).d bn) := by
    intro bn hbn
    have hk := hg.keeps (s.itable p).inum bn h.ok.alloc trivial (by rwa [eff_self])
    have heff := eff_self s' p
    rw [hg.inum] at heff
    rwa [eff_self, heff] at hk
  refine ⟨hok, hg.dinode.trans h.dinode, ?_, fun j bn hj hne hbn => ?_, fun bn hbn => ?_,
    fun hsrc x hx => ?_⟩
  · obtain ⟨a, ha⟩ := h.itable
    obtain ⟨a', ha'⟩ := hg.itable
    refine ⟨a', ?_⟩
    rw [ha', ha, update_self, update_idem]
    rfl
  · obtain ⟨h1, h2⟩ := h.others j bn hj hne hbn
    have hj' : Allocated (s.eff p) j := by
      have hne' : j ≠ (s.itable p).inum := by rwa [h.inum]
      rw [Allocated, eff_of_ne s hne', h.dinode]
      rwa [Allocated, eff_of_ne s0 hne] at hj
    obtain ⟨h3, h4⟩ := hg.keeps j bn hj' trivial (by rwa [h1])
    rw [h1] at h3 h4
    exact ⟨h3, h4.trans h2⟩
  · rw [(hkeep bn (h.mapped bn hbn)).1]
    exact h.mapped bn hbn
  · rw [← h.bytes hsrc x hx]
    obtain ⟨h1, h2⟩ := hkeep _ (h.mapped_byte hx)
    rw [fbyte, fbyte, h1, h2]

theorem Written.write {s' : Fs} (h : Written p src off0 n s0 tot s)
    (haddr : blockNo s.data (s.itable p).d ((off0 + tot) / bSize) ≠ 0) (bs : List UInt8)
    (hu : s'.used = s.used) (hd : s'.data = update s.data
      (blockNo s.data (s.itable p).d ((off0 + tot) / bSize))
      ((s.data (blockNo s.data (s.itable p).d ((off0 + tot) / bSize))).write
        ((off0 + tot) % bSize) bs)) (hn : s'.dinode = s.dinode) (ht : s'.itable = s.itable)
    (hm : (off0 + tot) % bSize + m ≤ bSize)
    (hbs : n ≤ src.length → bs.length = m ∧ ∀ k < m, bs.getD k 0 = src.getD (tot + k) 0) :
    Written p src off0 n s0 (tot + m) s' := by
  have heff := eff_congr (p := p) hn ht
  have haddr' := haddr
  rw [← eff_self s p] at haddr'
  obtain ⟨hok, hkeeps, hblock⟩ := h.ok.disk.writeBlock h.ok.alloc haddr'
    ((s.data (blockNo s.data (s.itable p).d ((off0 + tot) / bSize))).write ((off0 + tot) % bSize)
    bs)
  rw [eff_self, ← hd] at hok hkeeps hblock
  have hself : ∀ bn, blockNo s'.data (s'.itable p).d bn = blockNo s.data (s.itable p).d bn := by
    intro bn
    have hb := hblock (s.itable p).inum bn h.ok.alloc
    rw [eff_self] at hb
    rwa [ht]
  have hpos : 0 < bSize := by decide
  refine ⟨⟨?_, ?_⟩, hn.trans h.dinode, ?_, fun j bn hj hne hbn => ?_, fun bn hbn => ?_,
    fun hsrc x hx => ?_⟩
  · rw [heff, hu]
    exact hok
  · rw [heff, ht]
    exact h.ok.alloc
  · rw [ht]
    exact h.itable
  · obtain ⟨h1, h2⟩ := h.others j bn hj hne hbn
    have hne' : j ≠ (s.itable p).inum := by rwa [h.inum]
    have hj' : Allocated (s.eff p) j := by
      rw [Allocated, eff_of_ne s hne', h.dinode]
      rwa [Allocated, eff_of_ne s0 hne] at hj
    obtain ⟨h3, h4⟩ := hkeeps j bn hj' (fun hjb => hne' (Prod.mk.inj hjb).1) (by rwa [h1])
    rw [h1] at h3 h4
    rw [heff]
    exact ⟨h3, h4.trans h2⟩
  · rw [hself]
    by_cases hlt : bn * bSize < off0 + tot
    · exact h.mapped bn hlt
    · -- the block of the current offset is the only new one
      have hdiv : bn = (off0 + tot) / bSize := by
        have hrun := div_eq_of_run hm (x := bn * bSize) (by omega) (by omega)
        rwa [Nat.mul_div_cancel _ hpos] at hrun
      rwa [hdiv]
  · obtain ⟨hlen, hget⟩ := hbs hsrc
    by_cases hdiv : x / bSize = (off0 + tot) / bSize
    · -- the block that was written
      obtain ⟨hle, hsub⟩ := sub_mod_of_div_eq hdiv
      have hmod : x % bSize < bSize := mod_lt x hpos
      have hbyte : fbyte s'.data (s'.itable p).d x =
          if off0 + tot ≤ x ∧ x < off0 + tot + m then bs.getD (x - (off0 + tot)) 0
          else fbyte s.data (s.itable p).d x := by
        rw [fbyte, hself, hdiv, hd, update_self, Block.byte_write _ _ _ hmod, hsub, fbyte, hdiv]
        exact if_congr (and_congr hle (by omega)) rfl rfl
      rw [hbyte]
      by_cases hin : off0 + tot ≤ x ∧ x < off0 + tot + m
      · rw [if_pos hin, if_pos (by omega), hget _ (by omega)]
        congr 1
        omega
      · rw [if_neg hin, h.bytes hsrc x (by omega)]
        exact if_congr (by omega) rfl rfl
    · -- another block of the file
      have hout : ¬ (off0 + tot ≤ x ∧ x < off0 + tot + m) := fun hin =>
        hdiv (div_eq_of_run hm hin.1 hin.2)
      have hx' : x < (s0.itable p).d.size ∨ x < off0 + tot := by omega
      have hk := hkeeps (s.itable p).inum (x / bSize) h.ok.alloc
        (fun hjb => hdiv (Prod.mk.inj hjb).2) (by rw [eff_self]; exact h.mapped_byte hx')
      rw [eff_self] at hk
      have hbyte : fbyte s'.data (s'.itable p).d x = fbyte s.data (s.itable p).d x := by
        rw [fbyte, fbyte, hself, hk.2]
      rw [hbyte, h.bytes hsrc x hx']
      exact if_congr (by omega) rfl rfl

/-- **The loop of `writei`**: it ends after all bytes, or at the start of a block, or before the
first byte. -/
theorem wp_writeLoop {fuel : ℕ} (h : Written p src off0 n s0 tot s) (hfuel : n ≤ tot + fuel)
    (htot : tot ≤ n) (hmax : off0 + n ≤ maxFile * bSize)
    (hend : tot = 0 ∨ tot = n ∨ (off0 + tot) % bSize = 0) :
    wp (writeLoop p src n fuel tot (off0 + tot)) (fun r s' => r.2 = off0 + r.1 ∧ r.1 ≤ n ∧
      Written p src off0 n s0 r.1 s' ∧ (r.1 = 0 ∨ r.1 = n ∨ (off0 + r.1) % bSize = 0)) E s := by
  induction fuel generalizing tot s with
  | zero => exact wp_pure.2 ⟨rfl, htot, h, hend⟩
  | succ fuel ih =>
    refine wp_ite (fun hlt => ?_) fun _ => wp_pure.2 ⟨rfl, htot, h, hend⟩
    have hpos : 0 < bSize := by decide
    have hbn : (off0 + tot) / bSize < maxFile := (div_lt_iff_lt_mul hpos).2 (by omega)
    rw [wp_bind]
    refine (wp_bmap h.ok hbn).mono fun addr s1 ⟨hok, hg, haddr⟩ => ?_
    have h1 := h.grown hg hok
    refine wp_ite (fun _ => wp_pure.2 ⟨rfl, htot, h1, hend⟩) fun h0 => ?_
    rw [← haddr] at h0 ⊢
    have hm := mod_lt (off0 + tot) hpos
    have hmin1 := min_le_left (n - tot) (bSize - (off0 + tot) % bSize)
    have hmin2 := min_le_right (n - tot) (bSize - (off0 + tot) % bSize)
    have hmpos : 0 < min (n - tot) (bSize - (off0 + tot) % bSize) := by
      omega
    have hmend : min (n - tot) (bSize - (off0 + tot) % bSize) = n - tot ∨
        min (n - tot) (bSize - (off0 + tot) % bSize) = bSize - (off0 + tot) % bSize := by
      rw [min_def]
      split
      · exact .inl rfl
      · exact .inr rfl
    generalize min (n - tot) (bSize - (off0 + tot) % bSize) = m at hmin1 hmin2 hmpos hmend ⊢
    have hbs : n ≤ src.length → ((src.drop tot).take m).length = m ∧
        ∀ k < m, ((src.drop tot).take m).getD k 0 = src.getD (tot + k) 0 := by
      intro hsrc
      refine ⟨by rw [length_take, length_drop]; omega, fun k hk => ?_⟩
      rw [getD_eq_getElem?_getD, List.getElem?_take_of_lt hk, List.getElem?_drop,
        getD_eq_getElem?_getD]
    rw [wp_bind]
    refine wp_modifyBlock fun s2 hu hd hn ht => ?_
    refine wp_ite (fun hfault => ?_) fun _ => ?_
    · -- the source faulted: the bytes copied before are beyond what is reported
      have h2 := h1.write (m := 0) h0 _ hu hd hn ht (by omega) fun hsrc => by omega
      exact wp_pure.2 ⟨rfl, htot, h2, hend⟩
    · rw [wp_bind]
      refine wp_logWrite fun s3 hu3 hd3 hn3 ht3 => ?_
      have h2 := h1.write h0 _ (hu3.trans hu) (hd3.trans hd) (hn3.trans hn) (ht3.trans ht)
        (by omega) hbs
      rw [add_assoc]
      refine ih h2 (by omega) (by omega) ?_
      rcases hmend with hm' | hm'
      · exact .inr (.inl (by omega))
      · refine .inr (.inr ?_)
        have hdm := div_add_mod (off0 + tot) bSize
        have hsum : off0 + (tot + m) = bSize * ((off0 + tot) / bSize + 1) := by
          rw [mul_add]
          omega
        rw [hsum]
        exact mul_mod_right _ _

/-! ### The loop of `readi` -/

/-- The `n` bytes of a file from `off` on. -/
def fbytes (data : ℕ → Block) (d : Dinode) (off n : ℕ) : List UInt8 :=
  (List.range n).map fun k => fbyte data d (off + k)

section

omit [Superblock]

@[simp] theorem length_fbytes (data : ℕ → Block) (d : Dinode) (off n : ℕ) :
    (fbytes data d off n).length = n := by
  simp [fbytes]

theorem fbytes_add (data : ℕ → Block) (d : Dinode) (off m n : ℕ) :
    fbytes data d off (m + n) = fbytes data d off m ++ fbytes data d (off + m) n := by
  simp only [fbytes, range_add, map_append, map_map]
  congr 1
  refine map_congr_left fun k _ => ?_
  simp only [comp_apply, add_assoc]

theorem read_eq_fbytes (data : ℕ → Block) (d : Dinode) (hm : off % bSize + m ≤ bSize) :
    (data (blockNo data d (off / bSize))).read (off % bSize) m = fbytes data d off m := by
  refine map_congr_left fun k hk => ?_
  have hlt : k < m := mem_range.1 hk
  have hdiv := div_eq_of_run (x := off + k) hm (by omega) (by omega)
  obtain ⟨hle, hsub⟩ := sub_mod_of_div_eq hdiv
  rw [fbyte, hdiv]
  congr 1
  omega

end

/-- **The loop of `readi`** delivers the bytes, or `none` if the destination has no room for them,
and changes nothing. -/
theorem wp_readLoop {Q : Option (List UInt8) → Fs → Prop} {room fuel : ℕ} {acc : List UInt8}
    (hmapped : ∀ bn, bn * bSize < off + (n - tot) → blockNo s.data (s.itable p).d bn ≠ 0)
    (hfuel : n ≤ tot + fuel) (htot : tot ≤ n) (hroom : room < n → tot < n)
    (hQ : Q (if room < n then none else some (acc ++ fbytes s.data (s.itable p).d off (n - tot)))
    s) : wp (readLoop p n room fuel tot off acc) Q E s := by
  induction fuel generalizing tot off acc with
  | zero =>
    have htn : tot = n := by omega
    have hr : ¬ room < n := fun h => absurd (hroom h) (by omega)
    rw [if_neg hr, htn] at hQ
    exact wp_pure.2 (by simpa [fbytes] using hQ)
  | succ fuel ih =>
    refine wp_ite (fun hlt => ?_) fun hlt => ?_
    · have hpos : 0 < bSize := by decide
      have hle : off / bSize * bSize ≤ off := div_mul_le_self off bSize
      have hbn := hmapped (off / bSize) (by omega)
      rw [wp_bind]
      refine wp_bmap_mapped hbn ?_
      rw [if_neg hbn, wp_bind, wp_get]
      have hm := mod_lt off hpos
      have hmin1 := min_le_left (n - tot) (bSize - off % bSize)
      have hmin2 := min_le_right (n - tot) (bSize - off % bSize)
      have hmpos : 0 < min (n - tot) (bSize - off % bSize) := by
        omega
      generalize min (n - tot) (bSize - off % bSize) = m at hmin1 hmin2 hmpos ⊢
      refine wp_ite (fun hfault => ?_) fun hfault => ?_
      · rw [if_pos (by omega)] at hQ
        exact wp_pure.2 hQ
      · refine ih (fun bn hlt => hmapped bn (by omega)) (by omega) (by omega) (fun hr => by omega)
          ?_
        rw [read_eq_fbytes _ _ (by omega), append_assoc, ← fbytes_add]
        rwa [show m + (n - (tot + m)) = n - tot by omega]
    · have htn : tot = n := by omega
      have hr : ¬ room < n := fun h => absurd (hroom h) (by omega)
      rw [if_neg hr, htn] at hQ
      exact wp_pure.2 (by simpa [fbytes] using hQ)

end Fs

end CsklubOs

