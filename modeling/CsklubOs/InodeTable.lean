/-
**The table of inodes.**

Every function of the inode layer is specified by how it changes the references that are held.

Main definitions:

* `FsOk` — `FsOk s R` holds between calls when `R` are held: counts are exact, an inode is in the
  table once, a valid copy agrees with the disk, and the disk is consistent.

Main results:

* `wp_iget`, `wp_ialloc`, `wp_iput` — a reference more, and one less;
* `wp_readi`, `wp_modifyD_iupdate` — a locked inode is read and changed.
-/

import CsklubOs.InodeIo

set_option autoImplicit false

namespace CsklubOs

open Function
open Multiset (count_cons_of_ne count_cons_self count_eq_zero count_pos mem_cons)

namespace Fs

open Wp

variable [Superblock] {s s' : Fs} {p q : IPtr} {E : FsPanic → Prop} {R : Multiset IPtr} {i : ℕ}

/-- **The invariant of the inode layer**, when the references `R` are held. -/
structure FsOk (s : Fs) (R : Multiset IPtr) : Prop where
  refs : ∀ p, (s.itable p).ref = R.count p
  uniq : ∀ p ∈ R, ∀ q ∈ R, (s.itable p).inum = (s.itable q).inum → p = q
  range : ∀ p ∈ R, (s.itable p).inum < Superblock.ninodes
  sync : ∀ p ∈ R, (s.itable p).valid = true →
    (s.itable p).d = s.dinode (s.itable p).inum ∧ (s.itable p).d.type ≠ .free
  disk : DiskOk s.used s.data s.dinode

/-- The entries that are referenced keep their inode, and stay valid. -/
def Kept (R : Multiset IPtr) (s s' : Fs) : Prop :=
  ∀ q ∈ R, (s'.itable q).inum = (s.itable q).inum ∧
    ((s.itable q).valid = true → (s'.itable q).valid = true)

/-- The blocks, the free map and the inodes on disk are the same. -/
structure SameDisk (s s' : Fs) : Prop where
  used : s'.used = s.used
  data : s'.data = s.data
  dinode : s'.dinode = s.dinode

section

omit [Superblock]

theorem Kept.refl (R : Multiset IPtr) (s : Fs) : Kept R s s := fun _ _ => ⟨rfl, fun h => h⟩

theorem Kept.trans {s'' : Fs} (h : Kept R s s') (h' : Kept R s' s'') : Kept R s s'' :=
  fun q hq => ⟨(h' q hq).1.trans (h q hq).1, fun hv => (h' q hq).2 ((h q hq).2 hv)⟩

theorem Kept.mono {R' : Multiset IPtr} (h : Kept R s s') (hle : ∀ q ∈ R', q ∈ R) : Kept R' s s' :=
  fun q hq => h q (hle q hq)

theorem SameDisk.refl (s : Fs) : SameDisk s s := ⟨rfl, rfl, rfl⟩

theorem SameDisk.trans {s'' : Fs} (h : SameDisk s s') (h' : SameDisk s' s'') : SameDisk s s'' :=
  ⟨h'.used.trans h.used, h'.data.trans h.data, h'.dinode.trans h.dinode⟩

end

theorem SameDisk.diskOk (h : SameDisk s s') (hd : DiskOk s.used s.data s.dinode) :
    DiskOk s'.used s'.data s'.dinode := by
  rw [h.used, h.data, h.dinode]
  exact hd

theorem FsOk.ref_pos (h : FsOk s R) (hp : p ∈ R) : 0 < (s.itable p).ref := by
  rw [h.refs p]
  exact count_pos.2 hp

theorem FsOk.mem_of_ref_pos (h : FsOk s R) (hp : 0 < (s.itable p).ref) : p ∈ R := by
  rw [h.refs p] at hp
  exact count_pos.1 hp

theorem FsOk.eff_eq (h : FsOk s R) (hp : p ∈ R) (hv : (s.itable p).valid = true) :
    s.eff p = s.dinode := by
  rw [eff, (h.sync p hp hv).1]
  exact update_eq_self _ _

theorem FsOk.allocated (h : FsOk s R) (hp : p ∈ R) (hv : (s.itable p).valid = true) :
    Allocated s.dinode (s.itable p).inum := by
  refine ⟨h.range p hp, ?_⟩
  rw [← (h.sync p hp hv).1]
  exact (h.sync p hp hv).2

theorem FsOk.size_le (h : FsOk s R) (hi : Allocated s.dinode i) :
    (s.dinode i).size ≤ maxFile * bSize := by
  by_contra hlt
  refine h.disk.mapped i hi maxFile (Nat.not_le.1 hlt) ?_
  rfl

theorem FsOk.effOk (h : FsOk s R) (hp : p ∈ R) (hv : (s.itable p).valid = true) : EffOk p s := by
  refine ⟨?_, ?_⟩
  · rw [h.eff_eq hp hv]
    exact h.disk
  · rw [h.eff_eq hp hv]
    exact h.allocated hp hv

/-! ### Taking references -/

theorem FsOk.addRef (h : FsOk s R) (hp : p ∈ R) (hdisk : SameDisk s s')
    (ht : s'.itable = update s.itable p { s.itable p with ref := (s.itable p).ref + 1 }) :
    FsOk s' (p ::ₘ R) ∧ Kept R s s' ∧ (s'.itable p).inum = (s.itable p).inum := by
  have hfield : ∀ q, (s'.itable q).inum = (s.itable q).inum ∧
      (s'.itable q).valid = (s.itable q).valid ∧ (s'.itable q).d = (s.itable q).d := by
    intro q
    rw [ht]
    by_cases hqp : q = p
    · rw [hqp, update_self]
      exact ⟨rfl, rfl, rfl⟩
    · rw [update_of_ne hqp]
      exact ⟨rfl, rfl, rfl⟩
  have hmem : ∀ q, q ∈ p ::ₘ R → q ∈ R := by
    intro q hq
    rcases mem_cons.1 hq with rfl | hq
    · exact hp
    · exact hq
  refine ⟨⟨fun q => ?_, fun q hq q' hq' heq => ?_, fun q hq => ?_, fun q hq hv => ?_,
    hdisk.diskOk h.disk⟩, fun q _ => ⟨(hfield q).1, fun hv => (hfield q).2.1.trans hv⟩,
    (hfield p).1⟩
  · rw [ht]
    by_cases hqp : q = p
    · rw [hqp, update_self, count_cons_self, ← h.refs p]
    · rw [update_of_ne hqp, count_cons_of_ne hqp, h.refs q]
  · rw [(hfield q).1, (hfield q').1] at heq
    exact h.uniq q (hmem q hq) q' (hmem q' hq') heq
  · rw [(hfield q).1]
    exact h.range q (hmem q hq)
  · rw [(hfield q).2.1] at hv
    rw [(hfield q).1, (hfield q).2.2, hdisk.dinode]
    exact h.sync q (hmem q hq) hv

theorem FsOk.newEntry (h : FsOk s R) (hp : (s.itable p).ref = 0) (hi : i < Superblock.ninodes)
    (hnew : ∀ q ∈ R, (s.itable q).inum ≠ i) (hdisk : SameDisk s s')
    (ht : s'.itable = update s.itable p { s.itable p with inum := i, ref := 1, valid := false }) :
    FsOk s' (p ::ₘ R) ∧ Kept R s s' ∧ (s'.itable p).inum = i ∧ (s'.itable p).valid = false := by
  have hpR : p ∉ R := by
    rw [h.refs p] at hp
    exact count_eq_zero.1 hp
  have hself : s'.itable p = { s.itable p with inum := i, ref := 1, valid := false } := by
    rw [ht, update_self]
  have hother : ∀ q ∈ R, s'.itable q = s.itable q := by
    intro q hq
    rw [ht, update_of_ne (ne_of_mem_of_not_mem hq hpR)]
  refine ⟨⟨fun q => ?_, fun q hq q' hq' heq => ?_, fun q hq => ?_, fun q hq hv => ?_,
    hdisk.diskOk h.disk⟩, fun q hq => ?_, by rw [hself], by rw [hself]⟩
  · by_cases hqp : q = p
    · rw [hqp, hself, count_cons_self, count_eq_zero.2 hpR]
    · rw [ht, update_of_ne hqp, count_cons_of_ne hqp, h.refs q]
  · rcases mem_cons.1 hq with rfl | hqR
    · rcases mem_cons.1 hq' with rfl | hqR'
      · rfl
      · rw [hself, hother q' hqR'] at heq
        exact absurd heq.symm (hnew q' hqR')
    · rcases mem_cons.1 hq' with rfl | hqR'
      · rw [hself, hother q hqR] at heq
        exact absurd heq (hnew q hqR)
      · rw [hother q hqR, hother q' hqR'] at heq
        exact h.uniq q hqR q' hqR' heq
  · rcases mem_cons.1 hq with rfl | hq
    · rw [hself]
      exact hi
    · rw [hother q hq]
      exact h.range q hq
  · rcases mem_cons.1 hq with rfl | hq
    · rw [hself] at hv
      cases hv
    · rw [hother q hq] at hv ⊢
      rw [hdisk.dinode]
      exact h.sync q hq hv
  · rw [hother q hq]
    exact ⟨rfl, fun hv => hv⟩

omit [Superblock] in
/-- No entry of the table has the inode, and none is unused. -/
def NoEntry (s : Fs) (i : ℕ) : Prop := ∀ q, (s.itable q).ref ≠ 0 ∧ (s.itable q).inum ≠ i

omit [Superblock] in
theorem wp_iget_cases {Q : IPtr → Fs → Prop} (hE : NoEntry s i → E .igetNoInodes)
    (hfound : ∀ q s', 0 < (s.itable q).ref → (s.itable q).inum = i → SameDisk s s' →
      s'.itable = update s.itable q { s.itable q with ref := (s.itable q).ref + 1 } → Q q s')
    (hnew : (∀ q, 0 < (s.itable q).ref → (s.itable q).inum ≠ i) → ∀ q s', (s.itable q).ref = 0 →
      SameDisk s s' →
      s'.itable = update s.itable q { s.itable q with inum := i, ref := 1, valid := false } →
      Q q s') : wp (iget i) Q E s := by
  rw [iget, wp_bind, wp_get]
  split
  · rename_i q hfind
    have hq := List.find?_some hfind
    rw [decide_eq_true_eq] at hq
    rw [wp_bind]
    exact wp_modifyInode fun s' hu hd hn ht => wp_pure.2 (hfound q s' hq.1 hq.2 ⟨hu, hd, hn⟩ ht)
  · rename_i hnone
    have hno : ∀ q, 0 < (s.itable q).ref → (s.itable q).inum ≠ i := by
      intro q hq heq
      exact List.find?_eq_none.1 hnone q (List.mem_finRange q) (decide_eq_true ⟨hq, heq⟩)
    split
    · rename_i hfull
      refine wp_throw.2 (hE fun q => ?_)
      have hq : (s.itable q).ref ≠ 0 := fun h0 =>
        List.find?_eq_none.1 hfull q (List.mem_finRange q) (decide_eq_true h0)
      exact ⟨hq, hno q (Nat.pos_of_ne_zero hq)⟩
    · rename_i q hfind
      have hq := List.find?_some hfind
      rw [decide_eq_true_eq] at hq
      rw [wp_bind]
      exact wp_modifyInode fun s' hu hd hn ht => wp_pure.2 (hnew hno q s' hq ⟨hu, hd, hn⟩ ht)

/-- **`iget`** adds a reference to the inode; the entry is the one that has the inode, or new. -/
theorem wp_iget {Q : IPtr → Fs → Prop} (h : FsOk s R) (hi : i < Superblock.ninodes)
    (hE : (∀ q, q ∈ R) → E .igetNoInodes)
    (hQ : ∀ p s', FsOk s' (p ::ₘ R) → Kept R s s' → SameDisk s s' → (s'.itable p).inum = i →
      ((s'.itable p).valid = true → p ∈ R ∧ (s.itable p).valid = true) → Q p s') :
    wp (iget i) Q E s := by
  refine wp_iget_cases (fun hno => hE fun q => ?_) (fun p s' href hinum hdisk ht => ?_)
    fun hno p s' href hdisk ht => ?_
  · exact h.mem_of_ref_pos (Nat.pos_of_ne_zero (hno q).1)
  · have hmem := h.mem_of_ref_pos href
    obtain ⟨hok, hkept, hinum'⟩ := h.addRef hmem hdisk ht
    refine hQ p s' hok hkept hdisk (hinum'.trans hinum) fun hv => ⟨hmem, ?_⟩
    rwa [ht, update_self] at hv
  · obtain ⟨hok, hkept, hinum, hvalid⟩ :=
      h.newEntry href hi (fun q hq => hno q (h.ref_pos hq)) hdisk ht
    refine hQ p s' hok hkept hdisk hinum fun hv => ?_
    rw [hvalid] at hv
    cases hv

theorem wp_idup {Q : IPtr → Fs → Prop} (h : FsOk s R) (hp : p ∈ R)
    (hQ : ∀ s', FsOk s' (p ::ₘ R) → Kept R s s' → SameDisk s s' → Q p s') : wp (idup p) Q E s := by
  rw [idup, wp_bind]
  refine wp_modifyInode fun s' hu hd hn ht => wp_pure.2 ?_
  obtain ⟨hok, hkept, -⟩ := h.addRef hp ⟨hu, hd, hn⟩ ht
  exact hQ s' hok hkept ⟨hu, hd, hn⟩

variable {Q : Unit → Fs → Prop} {n off : ℕ} {src : List UInt8}

theorem wp_ilock (h : FsOk s R) (hp : p ∈ R)
    (hE : (s.itable p).valid = false → (s.dinode (s.itable p).inum).type = .free → E .ilockNoType)
    (hQ : ∀ s', FsOk s' R → Kept R s s' → SameDisk s s' → (s'.itable p).valid = true →
      (s'.itable p).inum = (s.itable p).inum → Q () s') : wp (ilock p) Q E s := by
  rw [ilock, wp_bind, wp_get]
  have href := h.ref_pos hp
  refine wp_ite (fun hlt => absurd hlt (by omega)) fun _ => wp_ite (fun hv => ?_) fun hv => ?_
  · exact wp_pure.2 (hQ s h (Kept.refl R s) (SameDisk.refl s) hv rfl)
  · refine wp_ite (fun hfree => wp_throw.2 (hE (by simpa using hv) hfree)) fun hfree => ?_
    refine wp_modifyInode fun s' hu hd hn ht => ?_
    have hself : s'.itable p = { s.itable p with d := s.dinode (s.itable p).inum, valid := true }
        := by
      rw [ht, update_self]
    have hother : ∀ q, q ≠ p → s'.itable q = s.itable q := by
      intro q hq
      rw [ht, update_of_ne hq]
    have hinum : ∀ q, (s'.itable q).inum = (s.itable q).inum := by
      intro q
      by_cases hqp : q = p
      · rw [hqp, hself]
      · rw [hother q hqp]
    refine hQ s' ⟨fun q => ?_, fun q hq q' hq' heq => ?_, fun q hq => ?_, fun q hq hv' => ?_,
      SameDisk.diskOk ⟨hu, hd, hn⟩ h.disk⟩ (fun q hq => ⟨hinum q, fun hv' => ?_⟩) ⟨hu, hd, hn⟩
      (by rw [hself]) (hinum p)
    · by_cases hqp : q = p
      · rw [hqp, hself, ← h.refs p]
      · rw [hother q hqp, h.refs q]
    · rw [hinum, hinum] at heq
      exact h.uniq q hq q' hq' heq
    · rw [hinum]
      exact h.range q hq
    · by_cases hqp : q = p
      · rw [hqp, hself, hn]
        exact ⟨rfl, hfree⟩
      · rw [hother q hqp] at hv' ⊢
        rw [hn]
        exact h.sync q hq hv'
    · by_cases hqp : q = p
      · rw [hqp, hself]
      · rw [hother q hqp]
        exact hv'

theorem FsOk.fresh {type : IType} (h : FsOk s R) (hfree : (s.dinode i).type = .free)
    (hu : s'.used = s.used) (hd : s'.data = s.data) (ht : s'.itable = s.itable)
    (hn : s'.dinode = update s.dinode i (Dinode.fresh type)) : FsOk s' R := by
  refine ⟨fun q => ?_, fun q hq q' hq' heq => ?_, fun q hq => ?_, fun q hq hv => ?_, ?_⟩
  · rw [ht]
    exact h.refs q
  · rw [ht] at heq
    exact h.uniq q hq q' hq' heq
  · rw [ht]
    exact h.range q hq
  · rw [ht] at hv ⊢
    obtain ⟨hdq, htype⟩ := h.sync q hq hv
    rw [hn, update_of_ne]
    · exact ⟨hdq, htype⟩
    · rintro rfl
      rw [hdq] at htype
      exact htype hfree
  · rw [hu, hd, hn]
    exact h.disk.update_empty (.inl fun hi => hi.2 hfree) (fun _ => rfl) rfl

/-- **`ialloc`** makes an inode from a free one and adds a reference to it, or finds none. -/
theorem wp_ialloc {Q : Option IPtr → Fs → Prop} {type : IType} (h : FsOk s R) (hE : E .igetNoInodes)
    (hnone : (∀ i, 0 < i → i < Superblock.ninodes → (s.dinode i).type ≠ .free) → Q none s)
    (hQ : ∀ p s', FsOk s' (p ::ₘ R) → Kept R s s' → s'.used = s.used → s'.data = s.data →
      0 < (s'.itable p).inum → (s.dinode (s'.itable p).inum).type = .free →
      s'.dinode = update s.dinode (s'.itable p).inum (Dinode.fresh type) →
      (s'.itable p).valid = false → Q (some p) s') : wp (ialloc type) Q E s := by
  rw [ialloc, wp_bind, wp_get]
  split
  · rename_i hfull
    refine wp_pure.2 (hnone fun i hpos hlt => ?_)
    simpa using firstFree_eq_none hfull hpos (by omega)
  · rename_i i hfind
    obtain ⟨hpos, hlt, hfree⟩ := firstFree_eq_some hfind
    have hfree' : (s.dinode i).type = .free := by simpa using hfree
    rw [wp_bind, wp_set, wp_bind]
    refine wp_logWrite fun s1 hu hd hn ht => ?_
    have h1 : FsOk s1 R := h.fresh hfree' hu hd ht hn
    rw [wp_bind]
    refine wp_iget h1 (by omega) (fun _ => hE) fun p s' hok hkept hdisk hinum hnew => wp_pure.2 ?_
    have hvalid : (s'.itable p).valid = false := by
      -- a valid entry would hold an inode that is not free
      by_contra hv
      obtain ⟨hpR, hv1⟩ := hnew (by simpa using hv)
      have hinum1 := (hkept p hpR).1
      rw [ht] at hv1 hinum1
      obtain ⟨hdq, htype⟩ := h.sync p hpR hv1
      rw [hdq, ← hinum1, hinum] at htype
      exact htype hfree'
    refine hQ p s' hok (fun q hq => ?_) (hdisk.used.trans hu) (hdisk.data.trans hd) (by omega)
      (by rwa [hinum]) (by rw [hinum, hdisk.dinode, hn]) hvalid
    rw [← congrFun ht q]
    exact hkept q hq

/-! ### Changing an inode that is held -/

section

variable (h : FsOk s R) (hp : p ∈ R) (hv : (s.itable p).valid = true)

include h hp hv

theorem FsOk.writeBack {d : Dinode} (hd : d.type ≠ .free)
    (ht : s'.itable = update s.itable p (Inode.withD (s.itable p) d))
    (hn : s'.dinode = update s.dinode (s.itable p).inum d)
    (hdisk : DiskOk s'.used s'.data s'.dinode) :
    FsOk s' R ∧ Kept R s s' ∧ (s'.itable p).inum = (s.itable p).inum ∧
      (s'.itable p).valid = true ∧ (s'.itable p).d = d := by
  have hself : s'.itable p = Inode.withD (s.itable p) d := by
    rw [ht, update_self]
  have hother : ∀ q, q ≠ p → s'.itable q = s.itable q := by
    intro q hq
    rw [ht, update_of_ne hq]
  have hfield : ∀ q, (s'.itable q).inum = (s.itable q).inum ∧
      (s'.itable q).valid = (s.itable q).valid ∧ (s'.itable q).ref = (s.itable q).ref := by
    intro q
    by_cases hqp : q = p
    · rw [hqp, hself]
      exact ⟨rfl, rfl, rfl⟩
    · rw [hother q hqp]
      exact ⟨rfl, rfl, rfl⟩
  refine ⟨⟨fun q => (hfield q).2.2.trans (h.refs q), fun q hq q' hq' heq => ?_, fun q hq => ?_,
    fun q hq hvq => ?_, hdisk⟩, fun q _ => ⟨(hfield q).1, fun hvq => (hfield q).2.1.trans hvq⟩,
    (hfield p).1, (hfield p).2.1.trans hv, by rw [hself]; rfl⟩
  · rw [(hfield q).1, (hfield q').1] at heq
    exact h.uniq q hq q' hq' heq
  · rw [(hfield q).1]
    exact h.range q hq
  · rw [(hfield q).2.1] at hvq
    rw [(hfield q).1, hn]
    by_cases hqp : q = p
    · rw [hqp, hself, update_self]
      exact ⟨rfl, hd⟩
    · rw [hother q hqp, update_of_ne fun heq => hqp (h.uniq q hq p hp heq)]
      exact h.sync q hq hvq

/-- **Changing fields** of an inode other than its type, size and blocks, and writing it back. -/
theorem wp_modifyD_iupdate {f : Dinode → Dinode}
    (hf : ∀ d, (f d).type = d.type ∧ (f d).addrs = d.addrs ∧ (f d).size = d.size)
    (hQ : ∀ s', FsOk s' R → Kept R s s' → s'.used = s.used → s'.data = s.data →
      s'.dinode = update s.dinode (s.itable p).inum (f (s.dinode (s.itable p).inum)) →
      Q () s') : wp (do modifyD p f; iupdate p) Q E s := by
  have hd := (h.sync p hp hv).1
  obtain ⟨htype, haddrs, hsize⟩ := hf (s.itable p).d
  rw [wp_bind]
  refine wp_modifyD fun s1 hu1 hd1 hn1 ht1 => wp_iupdate fun s' hu hdt hn ht => ?_
  have hn' : s'.dinode = update s.dinode (s.itable p).inum (f (s.itable p).d) := by
    rw [hn, eff_withD hn1 ht1, h.eff_eq hp hv]
  have halloc := h.allocated hp hv
  have hdisk : DiskOk s'.used s'.data s'.dinode := by
    rw [hn', hu, hu1, hdt, hd1]
    refine h.disk.update_dinode (by rw [haddrs, hd]) (by rw [htype, hd]) fun bn hbn => ?_
    rw [hsize, hd] at hbn
    exact h.disk.mapped _ halloc bn hbn
  obtain ⟨hok, hkept, -⟩ := h.writeBack hp hv (by rw [htype]; exact (h.sync p hp hv).2)
    (ht.trans ht1) hn' hdisk
  rw [hd] at hn'
  exact hQ s' hok hkept (hu.trans hu1) (hdt.trans hd1) hn'

theorem wp_trunc (hQ : ∀ s', FsOk s' R → Kept R s s' → s'.data = s.data → s'.dinode =
      update s.dinode (s.itable p).inum (Dinode.truncated (s.dinode (s.itable p).inum)) →
      Q () s') : wp (itrunc p) Q E s := by
  refine wp_itrunc (h.effOk hp hv) fun s' hdisk hd hn ht => ?_
  obtain ⟨hok, hkept, -⟩ := h.writeBack (d := Dinode.truncated (s.itable p).d) hp hv
    (h.sync p hp hv).2 ht hn hdisk
  rw [(h.sync p hp hv).1] at hn
  exact hQ s' hok hkept hd hn

end

/-- The result of `writei` on the inode that `p` refers to. -/
structure WriteDone (p : IPtr) (src : List UInt8) (off n tot : ℕ) (s s' : Fs) : Prop where
  le : tot ≤ n
  cut : tot = 0 ∨ tot = n ∨ (off + tot) % bSize = 0
  dinode : ∃ a, s'.dinode = update s.dinode (s.itable p).inum
    { s.dinode (s.itable p).inum with
      size := max (s.dinode (s.itable p).inum).size (off + tot), addrs := a }
  others : Keeps (fun j _ => j ≠ (s.itable p).inum) s.data s.dinode s'.data s'.dinode
  bytes : n ≤ src.length → ∀ x, x < (s'.dinode (s.itable p).inum).size →
    fbyte s'.data (s'.dinode (s.itable p).inum) x =
      if off ≤ x ∧ x < off + tot then src.getD (x - off) 0
      else fbyte s.data (s.dinode (s.itable p).inum) x

/-- The result of `writei` as the holder of `p` sees it, whatever the rest of the table. -/
structure HeldWrite (p : IPtr) (src : List UInt8) (off n tot : ℕ) (s s' : Fs) : Prop where
  le : tot ≤ n
  cut : tot = 0 ∨ tot = n ∨ (off + tot) % bSize = 0
  disk : DiskOk s'.used s'.data s'.dinode
  itable : ∃ a, s'.itable = update s.itable p (Inode.withD (s.itable p)
    { (s.itable p).d with size := max (s.itable p).d.size (off + tot), addrs := a })
  dinode : s'.dinode = update s.dinode (s.itable p).inum (s'.itable p).d
  others : Keeps (fun j _ => j ≠ (s.itable p).inum) s.data (s.eff p) s'.data s'.dinode
  bytes : n ≤ src.length → ∀ x, x < (s'.itable p).d.size → fbyte s'.data (s'.itable p).d x =
    if off ≤ x ∧ x < off + tot then src.getD (x - off) 0 else fbyte s.data (s.itable p).d x

theorem HeldWrite.d_eq {tot : ℕ} (h : HeldWrite p src off n tot s s') :
    ∃ a, (s'.itable p).d =
      { (s.itable p).d with size := max (s.itable p).d.size (off + tot), addrs := a } := by
  obtain ⟨a, ha⟩ := h.itable
  refine ⟨a, ?_⟩
  rw [ha, update_self]
  rfl

theorem wp_writei_held {Q : Option ℕ → Fs → Prop} (h : EffOk p s)
    (hnone : (s.itable p).d.size < off ∨ maxFile * bSize < off + n → Q none s)
    (hsome : ∀ tot s', HeldWrite p src off n tot s s' → Q (some tot) s') :
    wp (writei p src off n) Q E s := by
  have hbig : maxFile * bSize < 2 ^ 32 := by decide
  rw [writei, wp_bind, wp_get]
  refine wp_ite (fun hlt => wp_pure.2 (hnone (by omega))) fun hlt => wp_ite (fun hmax => ?_)
    fun hmax => ?_
  · exact wp_pure.2 (hnone (.inr hmax))
  · rw [not_or, Nat.not_lt] at hlt
    rw [wp_bind]
    have hstart : Written p src off n s 0 s := Written.start h hlt.1
    refine (wp_writeLoop hstart (by omega) (by omega) (by omega)
      (.inl rfl)).mono fun r s1 ⟨hr, hle, hw, hcut⟩ => ?_
    rw [wp_bind]
    refine wp_modifyD fun s2 hu2 hd2 hn2 ht2 => ?_
    rw [wp_bind]
    refine wp_iupdate fun s' hu hdt hn ht => wp_pure.2 ?_
    obtain ⟨a, ha⟩ := hw.itable
    -- the inode that is written back
    have hd1 : (s1.itable p).d = { (s.itable p).d with addrs := a } := by
      rw [ha, update_self]
      rfl
    have hit : s'.itable = update s.itable p (Inode.withD (s.itable p)
        { (s.itable p).d with size := max (s.itable p).d.size (off + r.1), addrs := a }) := by
      rw [ht, ht2, hr, ha, update_self, update_idem]
      rfl
    have hself : (s'.itable p).d =
        { (s.itable p).d with size := max (s.itable p).d.size (off + r.1), addrs := a } := by
      rw [hit, update_self]
      rfl
    have heff : s1.eff p = update s.dinode (s.itable p).inum
        { (s.itable p).d with addrs := a } := by
      rw [eff, hw.dinode, hw.inum, hd1]
    have hn' : s'.dinode = update s.dinode (s.itable p).inum (s'.itable p).d := by
      rw [hn, eff_withD hn2 ht2, heff, hw.inum, hd1, hr, update_idem, hself]
    have hmap : ∀ bn, bn * bSize < max (s.itable p).d.size (off + r.1) →
        blockNo s1.data (s1.itable p).d bn ≠ 0 := by
      intro bn hbn
      rcases lt_max_iff.1 hbn with hbn | hbn
      · have hm := hw.ok.disk.mapped _ hw.ok.alloc bn
        rw [eff_self, hw.size] at hm
        exact hm hbn
      · exact hw.mapped bn hbn
    have hdisk : DiskOk s'.used s'.data s'.dinode := by
      have hup := hw.ok.disk.update_dinode (i := (s.itable p).inum) (d := (s'.itable p).d)
        (by rw [heff, update_self, hself]) (by rw [heff, update_self, hself]) (by
          intro bn hbn
          have heq := eff_self s1 p
          rw [hw.inum] at heq
          rw [heq]
          rw [hself] at hbn
          exact hmap bn hbn)
      rw [heff, update_idem] at hup
      rw [hn', hu, hu2, hdt, hd2]
      exact hup
    have hdata : s'.data = s1.data := hdt.trans hd2
    refine hsome r.1 s' ⟨hle, hcut, hdisk, ⟨a, hit⟩, hn', fun j bn hj hne hbn => ?_,
      fun hsrc x hx => ?_⟩
    · have hk := hw.others j bn hj hne hbn
      rw [heff, update_of_ne hne] at hk
      rw [hn', update_of_ne hne, hdata]
      exact hk
    · have haddrs : (s'.itable p).d.addrs = (s1.itable p).d.addrs := by rw [hself, hd1]
      rw [hself] at hx
      rw [← hw.bytes hsrc x (lt_max_iff.1 hx), fbyte, fbyte, hdata,
        blockNo_congr haddrs (x / bSize)]

theorem wp_writei {Q : Option ℕ → Fs → Prop} (h : FsOk s R) (hp : p ∈ R)
    (hv : (s.itable p).valid = true)
    (hnone : (s.dinode (s.itable p).inum).size < off ∨ maxFile * bSize < off + n → Q none s)
    (hsome : ∀ tot s', FsOk s' R → Kept R s s' → WriteDone p src off n tot s s' →
      Q (some tot) s') : wp (writei p src off n) Q E s := by
  obtain ⟨hd, htype⟩ := h.sync p hp hv
  refine wp_writei_held (h.effOk hp hv) (by rwa [hd]) fun tot s' hw => ?_
  obtain ⟨a, ha⟩ := hw.itable
  obtain ⟨a', hself⟩ := hw.d_eq
  have hit : s'.itable = update s.itable p (Inode.withD (s.itable p) (s'.itable p).d) := by
    rw [ha, update_self]
    rfl
  obtain ⟨hok, hkept, -⟩ := h.writeBack hp hv (by rw [hself]; exact htype) hit hw.dinode hw.disk
  have hothers := hw.others
  rw [h.eff_eq hp hv] at hothers
  have hnew : s'.dinode (s.itable p).inum = (s'.itable p).d := by
    rw [hw.dinode, update_self]
  refine hsome tot s' hok hkept ⟨hw.le, hw.cut, ⟨a', ?_⟩, hothers, fun hsrc x hx => ?_⟩
  · rw [hw.dinode, hself, hd]
  · rw [hnew] at hx ⊢
    rw [hw.bytes hsrc x hx, hd]

/-- What `readi` returns for the contents of a file. -/
def readResult (data : ℕ → Block) (d : Dinode) (off n room : ℕ) : Option (List UInt8) :=
  if d.size < off ∨ 2 ^ 32 ≤ off + n then some []
  else if room < min n (d.size - off) then none
  else some (fbytes data d off (min n (d.size - off)))

theorem wp_readi_mapped {Q : Option (List UInt8) → Fs → Prop} {room : ℕ}
    (hmapped : ∀ bn, bn * bSize < min (off + n) (s.itable p).d.size →
      blockNo s.data (s.itable p).d bn ≠ 0)
    (hQ : Q (readResult s.data (s.itable p).d off n room) s) : wp (readi p off n room) Q E s := by
  rw [readResult] at hQ
  rw [readi, wp_bind, wp_get]
  refine wp_ite (fun hlt => ?_) fun hlt => ?_
  · rw [if_pos hlt] at hQ
    exact wp_pure.2 hQ
  · rw [if_neg hlt] at hQ
    have hmin : (if (s.itable p).d.size < off + n then (s.itable p).d.size - off else n) =
        min n ((s.itable p).d.size - off) := by
      rw [Nat.min_def]
      split <;> split <;> omega
    show wp (readLoop p _ room _ 0 off []) Q E s
    rw [hmin]
    refine wp_readLoop (fun bn hbn => hmapped bn (by omega)) (by omega) (by omega)
      (fun hr => by omega) ?_
    rwa [Nat.sub_zero]

/-- **`readi`** of an inode that is held changes nothing: no block below the size is missing. -/
theorem wp_readi {Q : Option (List UInt8) → Fs → Prop} {room : ℕ} (h : FsOk s R) (hp : p ∈ R)
    (hv : (s.itable p).valid = true)
    (hQ : Q (readResult s.data (s.dinode (s.itable p).inum) off n room) s) :
    wp (readi p off n room) Q E s := by
  have hd := (h.sync p hp hv).1
  rw [← hd] at hQ
  refine wp_readi_mapped (fun bn hbn => ?_) hQ
  have hm := h.disk.mapped _ (h.allocated hp hv) bn
  rw [← hd] at hm
  exact hm (by omega)

/-! ### Dropping references -/

theorem FsOk.dropRef (h : FsOk s (p ::ₘ R)) (hdisk : DiskOk s'.used s'.data s'.dinode)
    (hn : ∀ q ∈ R, s'.dinode (s.itable q).inum = s.dinode (s.itable q).inum)
    (hself : (s'.itable p).ref = (s.itable p).ref - 1)
    (hsame : p ∈ R → (s'.itable p).inum = (s.itable p).inum ∧
      (s'.itable p).valid = (s.itable p).valid ∧ (s'.itable p).d = (s.itable p).d)
    (hother : ∀ q, q ≠ p → s'.itable q = s.itable q) : FsOk s' R ∧ Kept R s s' := by
  have hfield : ∀ q ∈ R, (s'.itable q).inum = (s.itable q).inum ∧
      (s'.itable q).valid = (s.itable q).valid ∧ (s'.itable q).d = (s.itable q).d := by
    intro q hq
    by_cases hqp : q = p
    · rw [hqp] at hq ⊢
      exact hsame hq
    · rw [hother q hqp]
      exact ⟨rfl, rfl, rfl⟩
  have hmem : ∀ q ∈ R, q ∈ p ::ₘ R := fun q hq => Multiset.mem_cons_of_mem hq
  refine ⟨⟨fun q => ?_, fun q hq q' hq' heq => ?_, fun q hq => ?_, fun q hq hv => ?_, hdisk⟩,
    fun q hq => ⟨(hfield q hq).1, fun hv => (hfield q hq).2.1.trans hv⟩⟩
  · have hr := h.refs q
    by_cases hqp : q = p
    · rw [hqp, count_cons_self] at hr
      rw [hqp, hself, hr]
      rfl
    · rw [count_cons_of_ne hqp] at hr
      rw [hother q hqp, hr]
  · rw [(hfield q hq).1, (hfield q' hq').1] at heq
    exact h.uniq q (hmem q hq) q' (hmem q' hq') heq
  · rw [(hfield q hq).1]
    exact h.range q (hmem q hq)
  · rw [(hfield q hq).2.1] at hv
    rw [(hfield q hq).1, (hfield q hq).2.2, hn q hq]
    exact h.sync q (hmem q hq) hv

/-- The inode when it was freed. -/
def Dinode.freed (d : Dinode) : Dinode := { Dinode.truncated d with type := .free }

/-- Whether dropping a reference to `p`, when `R` are the other references, frees the inode. -/
def LastRef (s : Fs) (R : Multiset IPtr) (p : IPtr) : Prop :=
  p ∉ R ∧ (s.itable p).valid = true ∧ (s.dinode (s.itable p).inum).nlink = 0

/-- **`iput`**: the inode is freed if this was the last reference and it has no links; otherwise the
disk does not change. -/
theorem wp_iput (h : FsOk s (p ::ₘ R))
    (hkeep : ¬ LastRef s R p → ∀ s', FsOk s' R → Kept R s s' → SameDisk s s' → Q () s')
    (hfree : LastRef s R p → ∀ s', FsOk s' R → Kept R s s' → s'.data = s.data →
      s'.dinode = update s.dinode (s.itable p).inum
        (Dinode.freed (s.dinode (s.itable p).inum)) → Q () s') : wp (iput p) Q E s := by
  have hp : p ∈ p ::ₘ R := Multiset.mem_cons_self p R
  have hone : (s.itable p).ref = 1 ↔ p ∉ R := by
    rw [h.refs p, count_cons_self, ← count_eq_zero]
    omega
  rw [iput, wp_bind, freeUnlinked, wp_bind, wp_get]
  refine wp_ite (fun hc => ?_) fun hc => ?_
  · obtain ⟨href, hv, hlink⟩ := hc
    have hd := (h.sync p hp hv).1
    rw [hd] at hlink
    have hpR := hone.1 href
    have hne : ∀ q ∈ R, (s.itable q).inum ≠ (s.itable p).inum := fun q hq heq =>
      hpR (h.uniq q (Multiset.mem_cons_of_mem hq) p hp heq ▸ hq)
    rw [wp_bind]
    refine wp_itrunc (h.effOk hp hv) fun s1 hdisk1 hd1 hn1 ht1 => ?_
    rw [wp_bind]
    refine wp_modifyD fun s2 hu2 hd2 hn2 ht2 => ?_
    rw [wp_bind]
    refine wp_iupdate fun s3 hu3 hd3 hn3 ht3 => ?_
    refine wp_modifyInode fun s4 hu4 hd4 hn4 ht4 => ?_
    refine wp_modifyInode fun s' hu' hd' hn' ht' => ?_
    have hinum1 : (s1.itable p).inum = (s.itable p).inum := by
      rw [ht1, update_self]
      rfl
    have hdn : s'.dinode = update s.dinode (s.itable p).inum
        (Dinode.freed (s.dinode (s.itable p).inum)) := by
      rw [hn', hn4, hn3, eff_withD hn2 ht2, eff, hn1, hinum1, update_idem, update_idem,
        ht1, update_self, ← hd]
      rfl
    have hdisk : DiskOk s'.used s'.data s'.dinode := by
      have hup := hdisk1.update_empty (i := (s.itable p).inum)
        (d := Dinode.freed (s.dinode (s.itable p).inum))
        (.inr fun k => by rw [hn1, update_self]; rfl) (fun _ => rfl) rfl
      rw [hn1, update_idem] at hup
      rw [hdn, hu', hu4, hu3, hu2, hd', hd4, hd3, hd2]
      exact hup
    obtain ⟨hok, hkept⟩ := h.dropRef hdisk
      (fun q hq => by rw [hdn, update_of_ne (hne q hq)])
      (by simp only [ht', ht4, ht3, ht2, ht1, update_self, Inode.withD])
      (fun hq => absurd hq hpR)
      (fun q hq => by
        rw [ht', ht4, ht3, ht2, ht1]
        simp only [update_of_ne hq])
    exact hfree ⟨hpR, hv, hlink⟩ s' hok hkept (hd'.trans (hd4.trans (hd3.trans (hd2.trans hd1))))
      hdn
  · refine wp_pure.2 (wp_modifyInode fun s' hu hd hn ht => ?_)
    obtain ⟨hok, hkept⟩ := h.dropRef (SameDisk.diskOk ⟨hu, hd, hn⟩ h.disk)
      (fun q _ => by rw [hn]) (by rw [ht, update_self])
      (fun _ => by rw [ht, update_self]; exact ⟨rfl, rfl, rfl⟩)
      (fun q hq => by rw [ht, update_of_ne hq])
    refine hkeep (fun hl => hc ⟨hone.2 hl.1, hl.2.1, ?_⟩) s' hok hkept ⟨hu, hd, hn⟩
    rw [(h.sync p hp hl.2.1).1]
    exact hl.2.2

end Fs

end CsklubOs
