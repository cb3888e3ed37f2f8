/-
**What the block cache holds.**

The cache, the log and the disk together hold one array of blocks.  A block in the cache and its
copy on the disk may differ only while the block is pinned by the log or held by a process that has
stored to it; in both cases its buffer is referred to, so that `bget` does not recycle it.  In the
log region they differ only in the one buffer that a commit is about to write.

Main definitions:

* `Bcache.Inv` — where the contents of a block are.

Main results:

* `Bcache.Inv.data_eq_disk` — a buffer that may be recycled has the contents of the disk;
* `Bcache.Inv.bget`, `Bcache.Inv.fill`, `Bcache.Inv.store` — the functions keep this.
-/

import CsklubOs.Bio

set_option autoImplicit false

namespace CsklubOs.Bcache

open Function
open Multiset (mem_cons mem_cons_of_mem)

variable {dev : ℕ} {home dirty : ℕ → Prop} {disk arr : ℕ → Block} {pins : List ℕ}
  {mid : Option (Fin nBuf × Block)} {R : Multiset Handle} {c c' : Bcache} {i : Fin nBuf} {b : ℕ}

/-- The contents of the cache `c` and of the disk, for an array `arr` of blocks.  `home` are the
blocks outside the log, `dirty` those that a process holds with a store that is not logged yet, and
`mid` is the buffer of the log region that a commit has filled and not yet written. -/
structure Data (dev : ℕ) (home : ℕ → Prop) (c : Bcache) (disk arr : ℕ → Block) (pins : List ℕ)
    (dirty : ℕ → Prop) (mid : Option (Fin nBuf × Block)) : Prop where
  homeData : ∀ i, (c.buf i).dev = dev → (c.buf i).valid → home (c.buf i).blockno →
    (c.buf i).data = arr (c.buf i).blockno
  clean : ∀ b, home b → disk b ≠ arr b → b ∈ pins ∨ dirty b
  logData : ∀ i, (c.buf i).dev = dev → (c.buf i).valid → ¬ home (c.buf i).blockno →
    (c.buf i).data = disk (c.buf i).blockno ∨ ∃ v, mid = some (i, v)
  midData : ∀ i v, mid = some (i, v) → (c.buf i).data = v ∧ ¬ home (c.buf i).blockno

/-- **The invariant of the cache**: references, contents, and that what differs from the disk is
held. -/
structure Inv (dev : ℕ) (home : ℕ → Prop) (c : Bcache) (disk arr : ℕ → Block) (pins : List ℕ)
    (dirty : ℕ → Prop) (mid : Option (Fin nBuf × Block)) (R : Multiset Handle) : Prop where
  refs : Refs dev c pins R
  data : Data dev home c disk arr pins dirty mid
  dirtyHeld : ∀ b, dirty b → ∃ h ∈ R, h.blockno = b ∧ h.stage = .held
  midHeld : ∀ i v, mid = some (i, v) → ∃ h ∈ R, h.buf = i ∧ h.stage = .held

theorem Data.congr (h : Data dev home c disk arr pins dirty mid)
    (hc : ∀ j, (c'.buf j).dev = (c.buf j).dev ∧ (c'.buf j).blockno = (c.buf j).blockno ∧
      (c'.buf j).valid = (c.buf j).valid ∧ (c'.buf j).data = (c.buf j).data) :
    Data dev home c' disk arr pins dirty mid := by
  constructor
  · intro j
    rw [(hc j).1, (hc j).2.1, (hc j).2.2.1, (hc j).2.2.2]
    exact h.homeData j
  · exact h.clean
  · intro j
    rw [(hc j).1, (hc j).2.1, (hc j).2.2.1, (hc j).2.2.2]
    exact h.logData j
  · intro j v
    rw [(hc j).2.1, (hc j).2.2.2]
    exact h.midData j v

theorem Data.congr_set (h : Data dev home c disk arr pins dirty mid) {n : ℕ} {l : Bool}
    (hc : c'.buf = (c.set i { c.buf i with refcnt := n, locked := l }).buf) :
    Data dev home c' disk arr pins dirty mid := by
  refine h.congr fun j => ?_
  rw [hc, buf_set]
  split
  · rename_i hj
    subst hj
    exact ⟨rfl, rfl, rfl, rfl⟩
  · exact ⟨rfl, rfl, rfl, rfl⟩

theorem Inv.buf_eq (h : Inv dev home c disk arr pins dirty mid R) {x : Handle} (hx : x ∈ R)
    (hdev : (c.buf i).dev = dev) (hblock : (c.buf i).blockno = x.blockno) : i = x.buf :=
  h.refs.unique i x.buf hdev (h.refs.key x hx).1 (hblock.trans (h.refs.key x hx).2.symm)

/-- **A buffer that nobody refers to is as on the disk.** -/
theorem Inv.data_eq_disk (h : Inv dev home c disk arr pins dirty mid R) (hdev : (c.buf i).dev = dev)
    (hvalid : (c.buf i).valid) (href : (c.buf i).refcnt = 0) :
    (c.buf i).data = disk (c.buf i).blockno := by
  have hfree : ∀ x ∈ R, x.buf ≠ i := fun x hx heq => by
    have := h.refs.refcnt_pos hx
    rw [heq, href] at this
    exact lt_irrefl _ this
  by_cases hhome : home (c.buf i).blockno
  · rw [h.data.homeData i hdev hvalid hhome]
    by_contra hne
    rcases h.data.clean _ hhome (Ne.symm hne) with hpin | hdirty
    · exact absurd (h.refs.refcnt_pos_of_pin hdev hpin) (by omega)
    · obtain ⟨x, hx, hblock, -⟩ := h.dirtyHeld _ hdirty
      exact hfree x hx (h.buf_eq hx hdev hblock.symm).symm
  · rcases h.data.logData i hdev hvalid hhome with heq | ⟨v, hmid⟩
    · exact heq
    · obtain ⟨x, hx, hbuf, -⟩ := h.midHeld i v hmid
      exact absurd hbuf (hfree x hx)

/-! ### Operations on handles -/

theorem Inv.of_refs {R' : Multiset Handle} (h : Inv dev home c disk arr pins dirty mid R)
    (hrefs : Refs dev c' pins R') (hdata : Data dev home c' disk arr pins dirty mid)
    (hheld : ∀ x ∈ R, x.stage = .held → x ∈ R') : Inv dev home c' disk arr pins dirty mid R' := by
  refine ⟨hrefs, hdata, fun p hp => ?_, fun j v hj => ?_⟩
  · obtain ⟨x, hx, hxp, hst⟩ := h.dirtyHeld p hp
    exact ⟨x, hheld x hx hst, hxp, hst⟩
  · obtain ⟨x, hx, hxj, hst⟩ := h.midHeld j v hj
    exact ⟨x, hheld x hx hst, hxj, hst⟩

theorem Inv.bget (h : Inv dev home c disk arr pins dirty mid R) (hc : c.bget dev b = some (c', i)) :
    Inv dev home c' disk arr pins dirty mid (⟨i, b, .waiting⟩ ::ₘ R) := by
  refine h.of_refs (h.refs.bget hc) ?_ fun x hx _ => mem_cons_of_mem hx
  rcases bget_eq_some h.refs.mem hc with ⟨-, -, rfl⟩ | ⟨-, href, rfl⟩
  · exact h.data.congr_set rfl
  · -- the recycled buffer is not valid, and it is not the one that a commit is filling
    constructor
    · intro j hdev hvalid
      by_cases hj : j = i
      · subst hj; simp at hvalid
      · rw [buf_set_of_ne _ _ hj] at *
        exact h.data.homeData j hdev hvalid
    · exact h.data.clean
    · intro j hdev hvalid
      by_cases hj : j = i
      · subst hj; simp at hvalid
      · rw [buf_set_of_ne _ _ hj] at *
        exact h.data.logData j hdev hvalid
    · intro j v hmid
      have hj : j ≠ i := fun heq => by
        obtain ⟨x, hx, hbuf, -⟩ := h.midHeld j v hmid
        have := h.refs.refcnt_pos hx
        rw [hbuf, heq, href] at this
        exact lt_irrefl _ this
      rw [buf_set_of_ne _ _ hj]
      exact h.data.midData j v hmid

theorem Inv.acquiresleep (h : Inv dev home c disk arr pins dirty mid (⟨i, b, .waiting⟩ ::ₘ R))
    (hc : c.acquiresleep i = some c') :
    Inv dev home c' disk arr pins dirty mid (⟨i, b, .locked⟩ ::ₘ R) := by
  refine h.of_refs (h.refs.acquiresleep hc) ?_ ?_
  · unfold Bcache.acquiresleep at hc
    split at hc
    · cases hc
    · obtain rfl := Option.some.inj hc
      exact h.data.congr_set rfl
  · intro x hx hst
    rcases mem_cons.1 hx with rfl | hx
    · cases hst
    · exact mem_cons_of_mem hx

/-- **`bread` fills the buffer** with the contents of the block: if the disk had others, the block
would be pinned or held, and its buffer would be valid. -/
theorem Inv.fill (h : Inv dev home c disk arr pins dirty mid (⟨i, b, .locked⟩ ::ₘ R)) :
    Inv dev home (c.fill disk i) disk arr pins dirty mid (⟨i, b, .held⟩ ::ₘ R) := by
  refine h.of_refs (h.refs.fill disk) ?_ ?_
  · have hi : (⟨i, b, .locked⟩ : Handle) ∈ (⟨i, b, .locked⟩ : Handle) ::ₘ R :=
      Multiset.mem_cons_self ..
    obtain ⟨hdev, hblock⟩ := h.refs.key _ hi
    unfold Bcache.fill
    split
    · exact h.data
    · rename_i hinvalid
      have hdisk : home b → disk b = arr b := by
        intro hhome
        by_contra hne
        rcases h.data.clean b hhome hne with hpin | hdirty
        · obtain ⟨j, hj, hjb, hv⟩ := h.refs.pinned b hpin
          exact hinvalid (h.refs.unique j i hj hdev (hjb.trans hblock.symm) ▸ hv)
        · obtain ⟨x, hx, hxb, hst⟩ := h.dirtyHeld b hdirty
          have := h.refs.valid x hx hst
          rw [← h.buf_eq hx hdev (hblock.trans hxb.symm)] at this
          exact hinvalid this
      constructor
      · intro j hjdev hvalid
        by_cases hj : j = i
        · subst hj; simpa [hblock] using hdisk
        · rw [buf_set_of_ne _ _ hj] at *
          exact h.data.homeData j hjdev hvalid
      · exact h.data.clean
      · intro j hjdev hvalid
        by_cases hj : j = i
        · subst hj; simp
        · rw [buf_set_of_ne _ _ hj] at *
          exact h.data.logData j hjdev hvalid
      · intro j v hmid
        have hj : j ≠ i := fun heq => by
          obtain ⟨x, hx, hbuf, hst⟩ := h.midHeld j v hmid
          have := h.refs.valid x hx hst
          rw [hbuf, heq] at this
          exact hinvalid this
        rw [buf_set_of_ne _ _ hj]
        exact h.data.midData j v hmid
  · intro x hx hst
    rcases mem_cons.1 hx with rfl | hx
    · cases hst
    · exact mem_cons_of_mem hx

theorem Inv.releasesleep (h : Inv dev home c disk arr pins dirty mid (⟨i, b, .held⟩ ::ₘ R))
    (hdirty : ¬ dirty b) (hmid : ∀ v, mid ≠ some (i, v)) :
    Inv dev home (c.releasesleep i) disk arr pins dirty mid (⟨i, b, .releasing⟩ ::ₘ R) := by
  refine ⟨h.refs.releasesleep, h.data.congr_set rfl, fun p hp => ?_, fun j v hj => ?_⟩
  · obtain ⟨x, hx, hxp, hst⟩ := h.dirtyHeld p hp
    rcases mem_cons.1 hx with rfl | hx
    · subst hxp
      exact absurd hp hdirty
    · exact ⟨x, mem_cons_of_mem hx, hxp, hst⟩
  · obtain ⟨x, hx, hxj, hst⟩ := h.midHeld j v hj
    rcases mem_cons.1 hx with rfl | hx
    · subst hxj
      exact absurd hj (hmid v)
    · exact ⟨x, mem_cons_of_mem hx, hxj, hst⟩

theorem Inv.brelse (h : Inv dev home c disk arr pins dirty mid (⟨i, b, .releasing⟩ ::ₘ R)) :
    Inv dev home (c.brelse i) disk arr pins dirty mid R := by
  refine h.of_refs h.refs.brelse (h.data.congr_set (buf_brelse c i)) ?_
  intro x hx hst
  rcases mem_cons.1 hx with rfl | hx
  · cases hst
  · exact hx

/-! ### Operations on contents -/

section Contents

variable {x : Handle}

section

variable (h : Inv dev home c disk arr pins dirty mid R)

include h

/-- **A store by a process** changes the array at the block it holds, and nowhere else. -/
theorem Inv.store (hx : x ∈ R) (hst : x.stage = .held) (hhome : home x.blockno) (v : Block)
    {dirty' : ℕ → Prop} (hdirty : ∀ b, dirty' b ↔ dirty b ∨ b = x.blockno) :
    Inv dev home (c.memmove x.buf v) disk (update arr x.blockno v) pins dirty' mid R := by
  obtain ⟨hdev, hblock⟩ := h.refs.key x hx
  refine ⟨h.refs.memmove _ _, ⟨?_, ?_, ?_, ?_⟩, ?_, h.midHeld⟩
  · intro j hjdev hvalid hjhome
    by_cases hj : j = x.buf
    · subst hj; simp [memmove, hblock]
    · rw [memmove, buf_set_of_ne _ _ hj] at *
      have hne : (c.buf j).blockno ≠ x.blockno := fun heq => hj (h.buf_eq hx hjdev heq)
      rw [update_of_ne hne]
      exact h.data.homeData j hjdev hvalid hjhome
  · intro b hb hne
    by_cases hbx : b = x.blockno
    · exact .inr ((hdirty b).2 (.inr hbx))
    · rw [update_of_ne hbx] at hne
      exact (h.data.clean b hb hne).imp id fun hd => (hdirty b).2 (.inl hd)
  · intro j hjdev hvalid hjlog
    by_cases hj : j = x.buf
    · subst hj; exact absurd hhome (by simpa [memmove, hblock] using hjlog)
    · rw [memmove, buf_set_of_ne _ _ hj] at *
      exact h.data.logData j hjdev hvalid hjlog
  · intro j w hmid
    have hj : j ≠ x.buf := fun heq =>
      (h.data.midData j w hmid).2 (by rw [heq, hblock]; exact hhome)
    rw [memmove, buf_set_of_ne _ _ hj]
    exact h.data.midData j w hmid
  · intro b hb
    rcases (hdirty b).1 hb with hb | rfl
    · exact h.dirtyHeld b hb
    · exact ⟨x, hx, rfl, hst⟩

theorem Inv.logged {b : ℕ} {dirty' : ℕ → Prop} (hpin : b ∈ pins) (hdirty : ∀ p, dirty' p → dirty p)
    (hdirty' : ∀ p, dirty p → p ≠ b → dirty' p) : Inv dev home c disk arr pins dirty' mid R := by
  refine ⟨h.refs, ⟨h.data.homeData, ?_, h.data.logData, h.data.midData⟩,
    fun p hp => h.dirtyHeld p (hdirty p hp), h.midHeld⟩
  intro p hp hne
  by_cases hpb : p = b
  · exact .inl (hpb ▸ hpin)
  · exact (h.data.clean p hp hne).imp id fun hd => hdirty' p hd hpb

theorem Inv.bpin (hx : x ∈ R) (hst : x.stage = .held) (hpin : x.blockno ∉ pins) :
    Inv dev home (c.bpin x.buf) disk arr (pins ++ [x.blockno]) dirty mid R := by
  have hdata : Data dev home (c.bpin x.buf) disk arr pins dirty mid :=
    h.data.congr_set (i := x.buf) rfl
  refine ⟨h.refs.bpin hx hst hpin, ⟨hdata.homeData, ?_, hdata.logData, hdata.midData⟩,
    h.dirtyHeld, h.midHeld⟩
  intro p hp hne
  exact (h.data.clean p hp hne).imp (List.mem_append_left _) id

end

theorem Inv.bunpin (h : Inv dev home c disk arr (b :: pins) dirty mid R) (hx : x ∈ R)
    (hb : x.blockno = b) (hpin : b ∉ pins) (hdisk : disk b = arr b) :
    Inv dev home (c.bunpin x.buf) disk arr pins dirty mid R := by
  have hdata : Data dev home (c.bunpin x.buf) disk arr (b :: pins) dirty mid :=
    h.data.congr_set (i := x.buf) rfl
  refine ⟨h.refs.bunpin hx hb hpin, ⟨hdata.homeData, ?_, hdata.logData, hdata.midData⟩,
    h.dirtyHeld, h.midHeld⟩
  intro p hp hne
  rcases h.data.clean p hp hne with hmem | hd
  · rcases List.mem_cons.1 hmem with rfl | hmem
    · exact absurd hdisk hne
    · exact .inl hmem
  · exact .inr hd

theorem Inv.copyToLog (h : Inv dev home c disk arr pins dirty none R) (hx : x ∈ R)
    (hst : x.stage = .held) (hlog : ¬ home x.blockno) (v : Block) :
    Inv dev home (c.memmove x.buf v) disk arr pins dirty (some (x.buf, v)) R := by
  obtain ⟨hdev, hblock⟩ := h.refs.key x hx
  refine ⟨h.refs.memmove _ _, ⟨?_, h.data.clean, ?_, ?_⟩, h.dirtyHeld, ?_⟩
  · intro j hjdev hvalid hjhome
    by_cases hj : j = x.buf
    · subst hj; exact absurd (by simpa [memmove, hblock] using hjhome) hlog
    · rw [memmove, buf_set_of_ne _ _ hj] at *
      exact h.data.homeData j hjdev hvalid hjhome
  · intro j hjdev hvalid hjlog
    by_cases hj : j = x.buf
    · subst hj; exact .inr ⟨v, rfl⟩
    · rw [memmove, buf_set_of_ne _ _ hj] at *
      rcases h.data.logData j hjdev hvalid hjlog with heq | ⟨w, hw⟩
      · exact .inl heq
      · cases hw
  · intro j w hmid
    obtain ⟨rfl, rfl⟩ := Prod.mk.inj (Option.some.inj hmid)
    simpa [memmove, hblock] using hlog
  · intro j w hmid
    obtain ⟨rfl, rfl⟩ := Prod.mk.inj (Option.some.inj hmid)
    exact ⟨x, hx, rfl, hst⟩

theorem Inv.writeToLog {v : Block} (h : Inv dev home c disk arr pins dirty (some (i, v)) R) :
    Inv dev home c (update disk (c.buf i).blockno (c.buf i).data) arr pins dirty none R := by
  obtain ⟨-, hlog⟩ := h.data.midData i v rfl
  obtain ⟨x, hx, rfl, -⟩ := h.midHeld i v rfl
  obtain ⟨hdev, hblock⟩ := h.refs.key x hx
  refine ⟨h.refs, ⟨h.data.homeData, ?_, ?_, ?_⟩, h.dirtyHeld, ?_⟩
  · intro b hb hne
    have hbx : b ≠ (c.buf x.buf).blockno := fun heq => hlog (heq ▸ hb)
    rw [update_of_ne hbx] at hne
    exact h.data.clean b hb hne
  · intro j hjdev hvalid hjlog
    by_cases hj : j = x.buf
    · subst hj; simp
    · have hne : (c.buf j).blockno ≠ (c.buf x.buf).blockno := fun heq =>
        hj (h.refs.unique j x.buf hjdev hdev heq)
      rw [update_of_ne hne]
      rcases h.data.logData j hjdev hvalid hjlog with heq | ⟨w, hw⟩
      · exact .inl heq
      · exact absurd (Prod.mk.inj (Option.some.inj hw)).1.symm hj
  · intro j w hmid; cases hmid
  · intro j w hmid; cases hmid

theorem Inv.install (h : Inv dev home c disk arr pins dirty none R) (hx : x ∈ R)
    (hst : x.stage = .held) (hhome : home x.blockno) :
    Inv dev home c (update disk (c.buf x.buf).blockno (c.buf x.buf).data) arr pins dirty
      none R := by
  obtain ⟨hdev, hblock⟩ := h.refs.key x hx
  refine ⟨h.refs, ⟨h.data.homeData, ?_, ?_, ?_⟩, h.dirtyHeld, h.midHeld⟩
  · intro b hb hne
    by_cases hbx : b = (c.buf x.buf).blockno
    · subst hbx
      rw [update_self] at hne
      exact absurd (h.data.homeData x.buf hdev (h.refs.valid x hx hst) hb) hne
    · rw [update_of_ne hbx] at hne
      exact h.data.clean b hb hne
  · intro j hjdev hvalid hjlog
    have hne : (c.buf j).blockno ≠ (c.buf x.buf).blockno := fun heq =>
      hjlog (by rw [heq, hblock]; exact hhome)
    rw [update_of_ne hne]
    exact h.data.logData j hjdev hvalid hjlog
  · exact h.data.midData

end Contents

end CsklubOs.Bcache
