/-
**The block cache is transparent.**

The steps of `commit` keep the invariant of `CsklubOs/CacheLog.lean`: `write_log` copies the current
contents of the blocks of the header to the log, nothing changes them while `install_trans` copies
them back to their home blocks, and a block is unpinned when the disk has its contents.

Main results:

* `CacheSys.Inv.copyStep`, `CacheSys.Inv.headStep` — the steps of the loops and of `write_head`;
* `CacheSys.cache_transparent` — a process that has read a block sees what was stored to it last;
* `CacheSys.header_changed` — the log region is different: the header changes without a store.
-/

import CsklubOs.CacheLog

set_option autoImplicit false

namespace CsklubOs.CacheSys

open Function List Multiset Option
open WriteSeq

variable {T : Type} [Fintype T] {start size dev : ℕ} {d : ℕ → Block}
  {s : CacheSys T}

theorem Inv.ofCommit (h : Inv start size dev d s) {t : T} (ht : s.group.InCommit t) {c : Bcache}
    {disk : ℕ → Block} {pc : CommitPc} (hroom : pc = .out ∨ pc = .skip ∨ 0 < size)
    (hpc : PcOk start s.group.log.lh disk (applyAll d s.stores) pc)
    (mid : Option (Fin nBuf × Block)) (hmid : MidOk s.group.log.lh (applyAll d s.stores) pc mid)
    (hc : c.Inv dev (LogMachine.Home start size) disk (applyAll d s.stores)
      (pc.pins s.group.log.lh) s.Dirty mid
      ((pc.handles start s.group.log.lh : Multiset Handle) +
        (s.refs.map Ref.handle : Multiset Handle))) :
    Inv start size dev d { s with cache := c, disk := disk, pc := pc } := by
  refine ⟨h.group, h.logStart, h.logSize, h.logDev, h.homes, h.fits, fun hno => absurd ht (hno t),
    hroom, h.dirty, hpc, mid, hmid, ?_⟩
  rw [handles, h.logStart]
  exact hc

theorem Inv.cacheAt (h : Inv start size dev d s) {pc : CommitPc} (hpc : s.pc = pc) :
    (pc = .out ∨ pc = .skip ∨ 0 < size) ∧
    PcOk start s.group.log.lh s.disk (applyAll d s.stores) pc ∧
    ∃ mid, MidOk s.group.log.lh (applyAll d s.stores) pc mid ∧
      s.cache.Inv dev (LogMachine.Home start size) s.disk (applyAll d s.stores)
        (pc.pins s.group.log.lh) s.Dirty mid
        ((pc.handles start s.group.log.lh : Multiset Handle) +
          (s.refs.map Ref.handle : Multiset Handle)) := by
  obtain ⟨mid, hmid, hcache⟩ := h.cache
  subst hpc
  refine ⟨h.room, h.pc, mid, hmid, ?_⟩
  rwa [handles, h.logStart] at hcache

theorem foldr_cons (l : List Handle) (R : Multiset Handle) :
    l.foldr Multiset.cons R = (l : Multiset Handle) + R := by
  induction l with
  | nil => exact (zero_add R).symm
  | cons x l ih => rw [List.foldr_cons, ih, ← cons_coe, cons_add]

theorem Inv.not_dirty [DecidableEq T] (h : Inv start size dev d s) {x : Handle}
    (hx : x ∈ s.pc.handles start s.group.log.lh) (hst : x.stage = .held) : ¬ s.Dirty x.blockno := by
  rintro ⟨r, hr, hd, hb⟩
  rw [← h.logStart] at hx
  exact (h.ne_commit hr hx (by rw [h.dirty r hr hd]; rfl) (by rw [hst]; rfl)).2 hb

/-! ### `write_log` and `install_trans` -/

section Copy

variable {installing : Bool} {tail : ℕ} {arr : ℕ →
  Block} {lh : List ℕ} {p : CopyPc} {i j : Fin nBuf}

section

omit [Fintype T]

theorem PcOk.tail_lt {disk : ℕ → Block} (h : PcOk start lh disk arr (.copy installing tail p)) :
    tail < lh.length := by
  cases installing <;> exact h.1

theorem PcOk.next {disk : ℕ → Block} {q : CopyPc}
    (h : PcOk start lh disk arr (.copy installing tail p)) (hrel : q.releasing = p.releasing)
    (hun : ∀ i j, q ≠ .unpin i j) : PcOk start lh disk arr (.copy installing tail q) := by
  cases installing with
  | false => exact ⟨h.1, hun, by rw [hrel]; exact h.2.2⟩
  | true => exact ⟨h.1, h.2.1, fun i j hq => absurd hq (hun i j)⟩

theorem pins_next {q : CopyPc} (hrel : q.releasing = p.releasing) :
    (CommitPc.copy installing tail q).pins lh = (CommitPc.copy installing tail p).pins lh := by
  cases installing with
  | false => rfl
  | true => simp only [CommitPc.pins, hrel]

theorem midOk_copy_iff {mid : Option (Fin nBuf × Block)} (hp : ∀ i j, p ≠ .write i j) :
    MidOk lh arr (.copy installing tail p) mid ↔ mid = none := by
  unfold MidOk
  split
  · rename_i heq
    cases heq
    exact absurd rfl (hp _ _)
  · rename_i heq
    cases heq
  · rfl

theorem mem_copy {x : Handle} (s : CacheSys T) (start tail : ℕ) (installing : Bool) (p : CopyPc)
    (hx : x ∈ p.handles installing (start + tail + 1) (s.group.log.lh.getD tail 0)) :
    x ∈ ((CommitPc.copy installing tail p).handles start s.group.log.lh : Multiset Handle) +
      (s.refs.map Ref.handle : Multiset Handle) :=
  mem_add.2 (.inl hx)

end

variable (h : Inv start size dev d s)

include h

/-- What is known of a pass of the loops: the log block is in the log region, and the home block is
not. -/
theorem Inv.blocks (htail : tail < s.group.log.lh.length) :
    ¬ LogMachine.Home start size (start + tail + 1) ∧
      LogMachine.Home start size (s.group.log.lh.getD tail 0) := by
  constructor
  · have := h.fits
    simp only [LogMachine.Home]
    omega
  · rw [getD_eq_getElem _ _ htail]
    exact h.homes _ (getElem_mem htail)

variable {t : T} (ht : s.group.InCommit t)

include ht

theorem Inv.copyNext (hpc : s.pc = .copy installing tail p) (q : CopyPc)
    (hp : ∀ i j, p ≠ .write i j) (hq : ∀ i j, q ≠ .write i j) (hrel : q.releasing = p.releasing)
    (hun : ∀ i j, q ≠ .unpin i j) {c : Bcache}
    (hc : ∀ pins (R : Multiset Handle), s.cache.Inv dev (LogMachine.Home start size) s.disk
        (applyAll d s.stores) pins s.Dirty none
        ((p.handles installing (start + tail + 1) (s.group.log.lh.getD tail 0)).foldr
          Multiset.cons R) →
      c.Inv dev (LogMachine.Home start size) s.disk (applyAll d s.stores) pins s.Dirty none
        ((q.handles installing (start + tail + 1) (s.group.log.lh.getD tail 0)).foldr
          Multiset.cons R)) :
    Inv start size dev d { s with cache := c, pc := .copy installing tail q } := by
  obtain ⟨hroom, hok, mid, hmid, hcache⟩ := h.cacheAt hpc
  obtain rfl := (midOk_copy_iff hp).1 hmid
  have hsize : 0 < size := by simpa using hroom
  rw [← pins_next hrel, ← foldr_cons] at hcache
  refine h.ofCommit ht (.inr (.inr hsize)) (hok.next hrel hun) none ((midOk_copy_iff hq).2 rfl) ?_
  rw [← foldr_cons]
  exact hc _ _ hcache

/-- `memmove`: `write_log` fills the buffer of the log block with the current contents of the home
block; `install_trans` finds them there and changes nothing. -/
theorem Inv.copyMove (hpc : s.pc = .copy installing tail (.move i j)) :
    Inv start size dev d { s with
      cache := if installing then s.cache.memmove j (s.cache.buf i).data
        else s.cache.memmove i (s.cache.buf j).data
      pc := .copy installing tail (.write i j) } := by
  obtain ⟨hroom, hok, mid, hmid, hcache⟩ := h.cacheAt hpc
  obtain rfl := (midOk_copy_iff (by simp)).1 hmid
  have hsize : 0 < size := by simpa using hroom
  obtain ⟨hlog, hhome⟩ := h.blocks hok.tail_lt
  have hmemj := mem_copy s start tail installing (.move i j) mem_cons_self
  have hmemi := mem_copy s start tail installing (.move i j) (mem_cons_of_mem _ mem_cons_self)
  obtain ⟨hjdev, hjb⟩ := hcache.refs.key _ hmemj
  obtain ⟨hidev, hib⟩ := hcache.refs.key _ hmemi
  simp only at hjdev hjb hidev hib
  have hj : (s.cache.buf j).data = applyAll d s.stores (s.group.log.lh.getD tail 0) := by
    rw [← hjb]
    exact hcache.data.homeData j hjdev (hcache.refs.valid _ hmemj rfl) (hjb ▸ hhome)
  have hnext := hok.next (q := .write i j) rfl (by simp)
  cases installing with
  | false =>
    refine h.ofCommit ht (.inr (.inr hsize)) hnext (some (i, (s.cache.buf j).data)) ?_ ?_
    · rw [hj]; rfl
    · exact hcache.copyToLog hmemi rfl hlog _
  | true =>
    have hi : (s.cache.buf i).data = (s.cache.buf j).data := by
      rcases hcache.data.logData i hidev (hcache.refs.valid _ hmemi rfl) (hib ▸ hlog) with
        heq | ⟨v, hv⟩
      · rw [heq, hib, hj]
        exact hok.2.1 tail hok.1
      · cases hv
    have hself : s.cache.memmove j (s.cache.buf i).data = s.cache := by
      rw [hi]; simp [Bcache.memmove, Bcache.set]
    refine h.ofCommit ht (.inr (.inr hsize)) hnext none rfl ?_
    simp only [if_true, hself]
    exact hcache

theorem Inv.copyWriteLog (hpc : s.pc = .copy false tail (.write i j)) :
    Inv start size dev d { s with
      disk := update s.disk (s.cache.buf i).blockno (s.cache.buf i).data
      pc := .copy false tail (.rel1 j i) } := by
  obtain ⟨hroom, ⟨htail, -, hcopied⟩, mid, hmid, hcache⟩ := h.cacheAt hpc
  have hsize : 0 < size := by simpa using hroom
  obtain rfl : mid = some (i, applyAll d s.stores (s.group.log.lh.getD tail 0)) := hmid
  have hmemi := mem_copy s start tail false (.write i j) (mem_cons_of_mem _ mem_cons_self)
  have hib := (hcache.refs.key _ hmemi).2
  have hdata := (hcache.data.midData i _ rfl).1
  refine h.ofCommit ht (.inr (.inr hsize)) ⟨htail, by simp, ?_⟩ none rfl hcache.writeToLog
  intro k hk
  simp only at hib
  rw [hib, hdata]
  rcases Nat.lt_or_eq_of_le (Nat.lt_succ_iff.1 hk) with hlt | rfl
  · rw [update_of_ne (by omega)]
    exact hcopied k hlt
  · rw [update_self]

theorem Inv.copyWriteHome (hpc : s.pc = .copy true tail (.write i j)) :
    Inv start size dev d { s with
      disk := update s.disk (s.cache.buf j).blockno (s.cache.buf j).data
      pc := .copy true tail (.unpin i j) } := by
  obtain ⟨hroom, ⟨htail, hcopied, -⟩, mid, hmid, hcache⟩ := h.cacheAt hpc
  have hsize : 0 < size := by simpa using hroom
  obtain rfl : mid = none := hmid
  have hhome := (h.blocks htail).2
  have hmemj := mem_copy s start tail true (.write i j) mem_cons_self
  obtain ⟨hjdev, hjb⟩ := hcache.refs.key _ hmemj
  simp only at hjdev hjb
  have hdata : (s.cache.buf j).data = applyAll d s.stores (s.group.log.lh.getD tail 0) := by
    rw [← hjb]
    exact hcache.data.homeData j hjdev (hcache.refs.valid _ hmemj rfl) (hjb ▸ hhome)
  refine h.ofCommit ht (.inr (.inr hsize)) ⟨htail, ?_, ?_⟩ none rfl
    (hcache.install hmemj rfl hhome)
  · intro k hk
    have hne : start + k + 1 ≠ (s.cache.buf j).blockno := fun heq =>
      (h.blocks hk).1 (by rw [heq, hjb]; exact hhome)
    rw [update_of_ne hne]
    exact hcopied k hk
  · intro _ _ _
    rw [hjb, update_self, hdata]

theorem Inv.copyUnpin (hpc : s.pc = .copy true tail (.unpin i j)) :
    Inv start size dev d { s with
      cache := s.cache.bunpin j
      pc := .copy true tail (.rel1 i j) } := by
  obtain ⟨hroom, ⟨htail, hcopied, hdisk⟩, mid, hmid, hcache⟩ := h.cacheAt hpc
  have hsize : 0 < size := by simpa using hroom
  obtain rfl : mid = none := hmid
  have hmemj := mem_copy s start tail true (.unpin i j) mem_cons_self
  have hdrop : s.group.log.lh.drop tail =
      s.group.log.lh.getD tail 0 :: s.group.log.lh.drop (tail + 1) := by
    rw [getD_eq_getElem _ _ htail, drop_eq_getElem_cons htail]
  have hnodup : s.group.log.lh.getD tail 0 ∉ s.group.log.lh.drop (tail + 1) := by
    have := h.group.nodup.sublist (drop_sublist tail s.group.log.lh)
    rw [hdrop] at this
    exact (nodup_cons.1 this).1
  simp only [CommitPc.pins, CopyPc.releasing, Bool.false_eq_true, if_false, hdrop] at hcache
  refine h.ofCommit ht (.inr (.inr hsize)) ⟨htail, hcopied, by simp⟩ none rfl ?_
  have hinv := hcache.bunpin hmemj rfl hnodup (hdisk i j rfl)
  simp only [CommitPc.handles, CopyPc.handles, CommitPc.pins, CopyPc.releasing, if_true] at hinv ⊢
  rwa [show (([⟨i, start + tail + 1, .held⟩, ⟨j, s.group.log.lh.getD tail 0, .held⟩] :
    List Handle) : Multiset Handle) = ([⟨j, s.group.log.lh.getD tail 0, .held⟩,
      ⟨i, start + tail + 1, .held⟩] : List Handle) from coe_eq_coe.2 (.swap ..)]

theorem Inv.copyEnd {y : Fin nBuf} (hpc : s.pc = .copy installing tail (.unref2 y)) :
    Inv start size dev d { s with
      cache := s.cache.brelse y
      pc := .loop s.group.log.lh installing (tail + 1) } := by
  obtain ⟨hroom, hok, mid, hmid, hcache⟩ := h.cacheAt hpc
  have hsize : 0 < size := by simpa using hroom
  obtain rfl := (midOk_copy_iff (by simp)).1 hmid
  have hinv := Bcache.Inv.brelse (R := (s.refs.map Ref.handle : Multiset Handle)) hcache
  unfold CommitPc.loop
  by_cases hmore : tail + 1 < s.group.log.lh.length
  · rw [if_pos hmore]
    refine h.ofCommit ht (.inr (.inr hsize)) ?_ none ((midOk_copy_iff (by simp)).2 rfl) ?_
    · cases installing with
      | false => exact ⟨hmore, by simp, hok.2.2⟩
      | true => exact ⟨hmore, hok.2.1, by simp⟩
    · cases installing <;>
        simpa [CommitPc.handles, CopyPc.handles, CommitPc.pins, CopyPc.releasing] using hinv
  · rw [if_neg hmore]
    cases installing with
    | false =>
      refine h.ofCommit ht (.inr (.inr hsize)) ?_ none rfl
        (by simpa [CommitPc.handles, HeadPc.handles, CommitPc.pins] using hinv)
      intro k hk
      exact hok.2.2 k (by simp only [CopyPc.releasing, if_true]; omega)
    | true =>
      -- nothing is left to unpin
      have hdrop : s.group.log.lh.drop (tail + 1) = [] := drop_eq_nil_iff.2 (by omega)
      simp only [CommitPc.pins, CopyPc.releasing, if_true, hdrop] at hinv
      exact h.ofCommit ht (.inr (.inr hsize)) trivial none rfl
        (by simpa [CommitPc.handles, CommitPc.pins] using hinv)

/-- **The steps of `write_log` and `install_trans`** keep the invariant. -/
theorem Inv.copyStep [DecidableEq T] (hpc : s.pc = .copy installing tail p) {s' : CacheSys T}
    (hs : s.copyStep installing tail p = some (.ok s')) : Inv start size dev d s' := by
  have hnd : ∀ x ∈ p.handles installing (start + tail + 1) (s.group.log.lh.getD tail 0),
      x.stage = .held → ¬ s.Dirty x.blockno := fun x hx =>
    h.not_dirty (by rw [hpc]; exact hx)
  cases p with
  | get1 =>
    simp only [CacheSys.copyStep, commitBget, h.logStart, h.logDev] at hs
    split at hs <;> cases hs
    rename_i hget
    exact h.copyNext ht hpc (.lock1 _) (by simp) (by simp) rfl (by simp) fun _ _ hinv =>
      hinv.bget hget
  | lock1 i =>
    simp only [CacheSys.copyStep, commitLock, map_eq_some_iff] at hs
    obtain ⟨c, hlock, hs⟩ := hs
    cases hs
    exact h.copyNext ht hpc (.read1 i) (by simp) (by simp) rfl (by simp) fun _ _ hinv =>
      hinv.acquiresleep hlock
  | read1 i =>
    cases hs
    exact h.copyNext ht hpc (.get2 i) (by simp) (by simp) rfl (by simp) fun _ _ hinv => hinv.fill
  | get2 i =>
    simp only [CacheSys.copyStep, commitBget, h.logDev] at hs
    split at hs <;> cases hs
    rename_i hget
    exact h.copyNext ht hpc (.lock2 i _) (by simp) (by simp) rfl (by simp) fun _ _ hinv =>
      hinv.bget hget
  | lock2 i j =>
    simp only [CacheSys.copyStep, commitLock, map_eq_some_iff] at hs
    obtain ⟨c, hlock, hs⟩ := hs
    cases hs
    exact h.copyNext ht hpc (.read2 i j) (by simp) (by simp) rfl (by simp) fun _ _ hinv =>
      hinv.acquiresleep hlock
  | read2 i j =>
    cases hs
    exact h.copyNext ht hpc (.move i j) (by simp) (by simp) rfl (by simp) fun _ _ hinv => hinv.fill
  | move i j =>
    cases hs
    exact h.copyMove ht hpc
  | write i j =>
    cases installing <;> cases hs
    · exact h.copyWriteLog ht hpc
    · exact h.copyWriteHome ht hpc
  | unpin i j =>
    cases hs
    cases installing with
    | false => exact absurd rfl ((h.cacheAt hpc).2.1.2.1 i j)
    | true => exact h.copyUnpin ht hpc
  | rel1 x y =>
    cases hs
    exact h.copyNext ht hpc (.unref1 x y) (by simp) (by simp) rfl (by simp) fun _ _ hinv =>
      hinv.releasesleep (hnd _ mem_cons_self rfl) (by simp)
  | unref1 x y =>
    cases hs
    exact h.copyNext ht hpc (.rel2 y) (by simp) (by simp) rfl (by simp) fun _ _ hinv => hinv.brelse
  | rel2 y =>
    cases hs
    exact h.copyNext ht hpc (.unref2 y) (by simp) (by simp) rfl (by simp) fun _ _ hinv =>
      hinv.releasesleep (hnd _ mem_cons_self rfl) (by simp)
  | unref2 y =>
    cases hs
    exact h.copyEnd ht hpc

end Copy

/-! ### `write_head` -/

section Head

variable {t : T} {erasing : Bool} {p : HeadPc}

omit [Fintype T] in
theorem midOk_head_iff {lh : List ℕ} {arr : ℕ → Block} {mid : Option (Fin nBuf × Block)}
    (hp : ∀ i, p ≠ .write i) : MidOk lh arr (.head erasing p) mid ↔ mid = none := by
  unfold MidOk
  split
  · rename_i heq
    cases heq
  · rename_i heq
    cases heq
    exact absurd rfl (hp _)
  · rfl

variable (h : Inv start size dev d s) (ht : s.group.InCommit t)

include h ht

theorem Inv.headNext (hpc : s.pc = .head erasing p) (q : HeadPc) (hp : ∀ i, p ≠ .write i)
    (hq : ∀ i, q ≠ .write i) {c : Bcache}
    (hc : ∀ pins (R : Multiset Handle), s.cache.Inv dev (LogMachine.Home start size) s.disk
        (applyAll d s.stores) pins s.Dirty none ((p.handles start).foldr Multiset.cons R) →
      c.Inv dev (LogMachine.Home start size) s.disk (applyAll d s.stores) pins s.Dirty none
        ((q.handles start).foldr Multiset.cons R)) :
    Inv start size dev d { s with cache := c, pc := .head erasing q } := by
  obtain ⟨hroom, hok, mid, hmid, hcache⟩ := h.cacheAt hpc
  obtain rfl := (midOk_head_iff hp).1 hmid
  have hsize : 0 < size := by simpa using hroom
  rw [← foldr_cons] at hcache
  refine h.ofCommit ht (.inr (.inr hsize)) ?_ none ((midOk_head_iff hq).2 rfl) ?_
  · cases erasing with
    | false => exact hok
    | true => trivial
  · rw [← foldr_cons]
    exact hc _ _ hcache

/-- **The steps of `write_head`** keep the invariant. -/
theorem Inv.headStep [DecidableEq T] (hpc : s.pc = .head erasing p) {s' : CacheSys T}
    (hs : s.headStep erasing p = some (.ok s')) : Inv start size dev d s' := by
  have hnd : ∀ x ∈ p.handles start, x.stage = .held → ¬ s.Dirty x.blockno := fun x hx =>
    h.not_dirty (by rw [hpc]; exact hx)
  have hsize : 0 < size := by simpa using (h.cacheAt hpc).1
  have hlog : ¬ LogMachine.Home start size start := by
    simp only [LogMachine.Home]
    omega
  cases p with
  | get =>
    simp only [CacheSys.headStep, commitBget, h.logStart, h.logDev] at hs
    split at hs <;> cases hs
    rename_i hget
    exact h.headNext ht hpc (.lock _) (by simp) (by simp) fun _ _ hinv => hinv.bget hget
  | lock i =>
    simp only [CacheSys.headStep, commitLock, map_eq_some_iff] at hs
    obtain ⟨c, hlock, hs⟩ := hs
    cases hs
    exact h.headNext ht hpc (.read i) (by simp) (by simp) fun _ _ hinv => hinv.acquiresleep hlock
  | read i =>
    cases hs
    exact h.headNext ht hpc (.put i) (by simp) (by simp) fun _ _ hinv => hinv.fill
  | put i =>
    cases hs
    obtain ⟨-, hok, mid, hmid, hcache⟩ := h.cacheAt hpc
    obtain rfl := (midOk_head_iff (by simp)).1 hmid
    refine h.ofCommit ht (.inr (.inr hsize)) ?_ _ ⟨_, rfl⟩
      (hcache.copyToLog (x := ⟨i, start, .held⟩) ?_ rfl hlog _)
    · cases erasing with
      | false => exact hok
      | true => trivial
    · simp [CommitPc.handles, HeadPc.handles]
  | write i =>
    cases hs
    obtain ⟨-, hok, mid, ⟨v, hmid⟩, hcache⟩ := h.cacheAt hpc
    subst hmid
    have hib := (hcache.refs.key ⟨i, start, .held⟩
      (by simp [CommitPc.handles, HeadPc.handles])).2
    simp only at hib
    refine h.ofCommit ht (.inr (.inr hsize)) ?_ none rfl hcache.writeToLog
    cases erasing with
    | false =>
      intro k hk
      rw [update_of_ne (by omega)]
      exact hok k hk
    | true => trivial
  | rel i =>
    cases hs
    exact h.headNext ht hpc (.unref i) (by simp) (by simp) fun _ _ hinv =>
      hinv.releasesleep (hnd _ mem_cons_self rfl) (by simp)
  | unref i =>
    cases hs
    obtain ⟨-, hok, mid, hmid, hcache⟩ := h.cacheAt hpc
    obtain rfl := (midOk_head_iff (by simp)).1 hmid
    have hinv := Bcache.Inv.brelse (R := (s.refs.map Ref.handle : Multiset Handle)) hcache
    cases erasing with
    | true =>
      exact h.ofCommit ht (.inl rfl) trivial none rfl
        (by simpa [CommitPc.handles, CommitPc.pins] using hinv)
    | false =>
      simp only [Bool.false_eq_true, if_false, CommitPc.loop, if_true]
      by_cases hmore : 0 < s.group.log.lh.length
      · rw [if_pos hmore]
        exact h.ofCommit ht (.inr (.inr hsize)) ⟨hmore, hok, by simp⟩ none rfl
          (by simpa [CommitPc.handles, CopyPc.handles, CommitPc.pins, CopyPc.releasing]
            using hinv)
      · rw [if_neg hmore]
        have hnil : s.group.log.lh = [] := length_eq_zero_iff.1 (by omega)
        exact h.ofCommit ht (.inr (.inr hsize)) trivial none rfl
          (by simpa [CommitPc.handles, CommitPc.pins, hnil] using hinv)

end Head

/-! ### Whole runs -/

section Runs

variable [DecidableEq T]

variable {g : GroupLog T} {t : T}

theorem Inv.startCommit (h : Inv start size dev d s)
    (hg : s.group.step (.startCommit t) = some (.ok g)) :
    Inv start size dev d { s with
      group := g
      pc := if s.group.log.lh.length > 0 then .loop s.group.log.lh false 0 else .skip } := by
  have hgi := h.group.step hg
  cases GroupLog.move_of_step hg with
  | startCommit _ ht =>
    -- no other process is in `commit`
    have hpc : s.pc = .out := h.idle fun q hq => by
      obtain rfl := h.group.unique q t (GroupLog.Commits.of_inCommit hq) (.inl ht)
      simp [GroupLog.InCommit, ht] at hq
    obtain ⟨-, -, mid, hmid, hcache⟩ := h.cacheAt hpc
    obtain rfl : mid = none := hmid
    have hin : ∀ (hno : ∀ q, ¬ GroupLog.InCommit { s.group with
        phase := update s.group.phase t .committing
        commits := s.group.commits ++ [s.group.log.lh] } q), False := fun hno =>
      hno t (.inl (update_self ..))
    by_cases hlen : s.group.log.lh.length > 0
    · have hfits : 0 < size := by have := h.fits; omega
      simp only [if_pos hlen, CommitPc.loop]
      refine ⟨hgi, h.logStart, h.logSize, h.logDev, h.homes, h.fits, fun hno => (hin hno).elim,
        .inr (.inr hfits), h.dirty, ⟨hlen, by simp, fun k hk => ?_⟩, none, rfl, hcache⟩
      simp [CopyPc.releasing] at hk
    · have hnil : s.group.log.lh = [] := length_eq_zero_iff.1 (by omega)
      simp only [if_neg hlen]
      refine ⟨hgi, h.logStart, h.logSize, h.logDev, h.homes, h.fits, fun hno => (hin hno).elim,
        .inr (.inl rfl), h.dirty, trivial, none, rfl, ?_⟩
      simp only [CommitPc.pins, hnil] at hcache ⊢
      exact hcache

theorem Inv.clearHead (h : Inv start size dev d s) {pc : CommitPc}
    (hg : s.group.step (.clearHead t) = some (.ok g))
    (hpc : s.pc = .clear ∧ pc = .head true .get ∨ s.pc = .skip ∧ pc = .out) :
    Inv start size dev d { s with group := g, pc := pc } := by
  have hgi := h.group.step hg
  cases GroupLog.move_of_step hg with
  | clearHead _ ht =>
    have hin : ∀ (hno : ∀ q, ¬ GroupLog.InCommit { s.group with
        log := s.group.log.clear
        phase := update s.group.phase t .cleared } q), False := fun hno =>
      hno t (.inr (update_self ..))
    rcases hpc with ⟨hpc, rfl⟩ | ⟨hpc, rfl⟩
    · obtain ⟨hroom, -, mid, hmid, hcache⟩ := h.cacheAt hpc
      obtain rfl : mid = none := hmid
      exact ⟨hgi, h.logStart, h.logSize, h.logDev, by simp [Log.clear], .inl rfl,
        fun hno => (hin hno).elim, .inr (.inr (by simpa using hroom)), h.dirty, trivial, none,
        rfl, hcache⟩
    · obtain ⟨-, -, mid, hmid, hcache⟩ := h.cacheAt hpc
      obtain rfl : mid = none := hmid
      exact ⟨hgi, h.logStart, h.logSize, h.logDev, by simp [Log.clear], .inl rfl,
        fun _ => rfl, .inl rfl, h.dirty, trivial, none, rfl, hcache⟩

theorem Inv.endCommit (h : Inv start size dev d s) (hg : s.group.step (.endCommit t) = some (.ok g))
    (hpc : s.pc = .out) : Inv start size dev d { s with group := g } := by
  have hgi := h.group.step hg
  cases GroupLog.move_of_step hg with
  | endCommit _ ht => exact h.ofGroup hgi rfl rfl rfl rfl fun _ => hpc

omit [Fintype T] [DecidableEq T] in
theorem lift_eq_some {o : Option (Except LogPanic (GroupLog T))} {f : GroupLog T → CacheSys T}
    {s' : CacheSys T} (h : lift o f = some (.ok s')) : ∃ g, o = some (.ok g) ∧ s' = f g := by
  unfold lift at h
  rw [map_eq_some_iff] at h
  obtain ⟨x, rfl, hx⟩ := h
  cases x with
  | ok g => exact ⟨g, rfl, (Except.ok.inj hx).symm⟩
  | error e => cases hx

theorem Inv.step (h : Inv start size dev d s) {a : CacheAct T} (ha : Plain start size dev s a)
    {s' : CacheSys T} (hs : s.step a = some (.ok s')) : Inv start size dev d s' := by
  cases a with
  | bget t dev' b =>
    obtain rfl : dev' = dev := ha
    simp only [CacheSys.step] at hs
    split at hs <;> cases hs
    rename_i hget
    exact h.clientBget hget
  | acquiresleep r =>
    obtain ⟨hr, hs⟩ := ite_none_right_eq_some.1 hs
    rw [map_eq_some_iff] at hs
    obtain ⟨c, hc, hs⟩ := hs
    cases hs
    exact h.clientAcquire hr.1 hr.2 hc
  | fill r =>
    simp only [CacheSys.step] at hs
    split at hs <;> cases hs
    rename_i hr
    exact h.clientFill hr.1 hr.2
  | store r v =>
    simp only [CacheSys.step] at hs
    split at hs <;> cases hs
    rename_i hr
    exact h.clientStore hr.1 hr.2.1 hr.2.2 ha v
  | logWrite r =>
    obtain ⟨hr, hs⟩ := ite_none_right_eq_some.1 hs
    obtain ⟨g, hg, rfl⟩ := lift_eq_some hs
    have hgi := h.group.step hg
    obtain ⟨mid, -, hcache⟩ := h.cache
    have hmem : r.handle ∈ s.handles := by
      rw [handles_eq_cons hr.1]; exact Multiset.mem_cons_self ..
    rw [(hcache.refs.key _ hmem).2] at hg ⊢
    cases GroupLog.move_of_step hg with
    | logWrite _ _ l new hop hl =>
      obtain ⟨⟨-, hroom, -⟩, hnew, rfl⟩ := Log.logWrite_ok hl
      rw [h.logSize] at hroom
      refine h.clientLogWrite hr.1 hr.2 hop ha hgi (by omega) rfl ?_ rfl rfl rfl rfl
      rw [hl, hnew]
      by_cases hb : r.handle.blockno ∈ s.group.log.lh <;> simp [hb]
  | releasesleep r =>
    simp only [CacheSys.step] at hs
    split at hs <;> cases hs
    rename_i hr
    exact h.clientRelease hr.1 hr.2.1 hr.2.2
  | brelse r =>
    simp only [CacheSys.step] at hs
    split at hs <;> cases hs
    rename_i hr
    exact h.clientBrelse hr.1 hr.2
  | beginOp t =>
    obtain ⟨g, hg, rfl⟩ := lift_eq_some hs
    exact h.opStep hg (.inl ⟨t, rfl⟩)
  | wake t =>
    obtain ⟨g, hg, rfl⟩ := lift_eq_some hs
    exact h.opStep hg (.inr (.inl ⟨t, rfl⟩))
  | endOp t =>
    obtain ⟨g, hg, rfl⟩ := lift_eq_some hs
    exact h.opStep hg (.inr (.inr ⟨t, rfl⟩))
  | startCommit t =>
    obtain ⟨g, hg, rfl⟩ := lift_eq_some hs
    exact h.startCommit hg
  | commit t =>
    obtain ⟨ht, hs⟩ := ite_none_right_eq_some.1 hs
    split at hs
    · rename_i hpc
      exact h.copyStep ht hpc hs
    · rename_i hpc
      exact h.headStep ht hpc hs
    · cases hs
  | clearHead t =>
    simp only [CacheSys.step] at hs
    split at hs
    · rename_i hpc
      obtain ⟨g, hg, rfl⟩ := lift_eq_some hs
      exact h.clearHead hg (.inl ⟨hpc, rfl⟩)
    · rename_i hpc
      obtain ⟨g, hg, rfl⟩ := lift_eq_some hs
      exact h.clearHead hg (.inr ⟨hpc, rfl⟩)
    · cases hs
  | endCommit t =>
    obtain ⟨hpc, hs⟩ := ite_none_right_eq_some.1 hs
    obtain ⟨g, hg, rfl⟩ := lift_eq_some hs
    exact h.endCommit hg hpc

omit [DecidableEq T] in
theorem inv_init {c : Bcache} (hc : c.Fresh dev d) :
    Inv start size dev d (init start size dev c d : CacheSys T) := by
  refine ⟨GroupLog.inv_init start size dev, rfl, rfl, rfl, by simp [init, GroupLog.init], .inl rfl,
    fun _ => rfl, .inl rfl, by simp [init], trivial, none, rfl, ?_⟩
  have hh : handles (init start size dev c d : CacheSys T) = 0 := rfl
  rw [hh]
  refine ⟨⟨hc.mem, ?_, ?_, hc.unique, by simp, by simp,
    by simp [CommitPc.pins, init, GroupLog.init]⟩, ⟨?_, ?_, ?_, by simp⟩, ?_, by simp⟩
  · intro i; simp [init, CommitPc.pins, GroupLog.init, hc.refcnt i]
  · intro i; simp [init, hc.locked i]
  · intro i hdev hvalid _; exact hc.data i hdev hvalid
  · intro b _ hne; exact absurd rfl hne
  · intro i hdev hvalid _; exact .inl (hc.data i hdev hvalid)
  · rintro b ⟨r, hr, -⟩; simp [init] at hr

/-- **The block cache is transparent.**  In every run in which the clients use the log's device and
store only outside the log region, a process that has read a block outside the log region sees what
was stored to it last, or what the disk held in the beginning; and a buffer that `bget` recycles has
the contents that are on the disk. -/
theorem cache_transparent {c : Bcache} (hc : c.Fresh dev d)
    (h : Runs.Reach step (Plain start size dev) (init start size dev c d) s) :
    (∀ r ∈ s.refs, r.handle.stage = .held → LogMachine.Home start size r.handle.blockno →
      (s.cache.buf r.handle.buf).data = applyAll d s.stores r.handle.blockno) ∧
    ∀ t b s', s.step (.bget t dev b) = some (.ok s') → ∀ i, (s.cache.buf i).dev = dev →
      (s'.cache.buf i).blockno ≠ (s.cache.buf i).blockno → (s.cache.buf i).valid →
      (s.cache.buf i).data = s.disk (s.cache.buf i).blockno := by
  have hinv : Inv start size dev d s :=
    h.invariant (inv_init hc) fun s a s' hi ha hs => hi.step ha hs
  obtain ⟨mid, -, hcache⟩ := hinv.cache
  constructor
  · intro r hr hst hhome
    have hmem : r.handle ∈ s.handles := by
      rw [handles_eq_cons hr]; exact Multiset.mem_cons_self ..
    obtain ⟨hdev, hblock⟩ := hcache.refs.key _ hmem
    rw [← hblock] at hhome ⊢
    exact hcache.data.homeData _ hdev (hcache.refs.valid _ hmem hst) hhome
  · intro t b s' hs i hdev hne hvalid
    simp only [step] at hs
    split at hs <;> cases hs
    rename_i c' j hget
    rcases Bcache.bget_eq_some hcache.refs.mem hget with ⟨-, -, rfl⟩ | ⟨-, href, rfl⟩
    · -- a block that is found changes no block number
      rw [Bcache.buf_set] at hne
      split at hne
      · rename_i hij
        subst hij
        exact absurd rfl hne
      · exact absurd rfl hne
    · by_cases hij : i = j
      · subst hij
        exact hcache.data_eq_disk hdev hvalid href
      · rw [Bcache.buf_set_of_ne _ _ hij] at hne
        exact absurd rfl hne

/-- A reference of process 0 to buffer `i`. -/
def refTo (i : Fin 30) (b : ℕ) (st : Stage) (dirty : Bool) : Ref (Fin 1) := ⟨0, ⟨i, b, st⟩, dirty⟩

/-- A process reads block 46 and stores to it. -/
theorem cache_transparent_one : ∃ s : CacheSys (Fin 1),
    Runs.Reach step (Plain 2 logSize 1) (init 2 logSize 1 Bcache.binit fun _ => Block.zero) s ∧
      refTo 0 46 .held true ∈ s.refs ∧
      (s.cache.buf (0 : Fin 30)).data = applyAll (fun _ => Block.zero) s.stores 46 := by
  have hrun : ∃ s : CacheSys (Fin 1),
      Runs.Reach step (Plain 2 logSize 1) (init 2 logSize 1 Bcache.binit fun _ => Block.zero) s ∧
        refTo 0 46 .held true ∈ s.refs :=
    Runs.exists_reach_of_exec [.beginOp 0, .bget 0 1 46,
      .acquiresleep (refTo 0 46 .waiting false),
      .fill (refTo 0 46 .locked false),
      .store (refTo 0 46 .held false) fun _ => 1] (by decide)
  obtain ⟨s, hs, hr⟩ := hrun
  exact ⟨s, hs, hr, (cache_transparent (Bcache.binit_fresh (by decide) _) hs).1 _ hr rfl
    (by decide)⟩

/-- The blocks of the log region are different: here a process stores to block 46, its `end_op`
commits, and it then reads the header block, to which no process has stored.  The header still has
the block number that the commit has left in it. -/
theorem header_changed : ∃ s : CacheSys (Fin 1),
    Runs.Reach step (fun _ _ => True) (init 2 logSize 1 Bcache.binit fun _ => Block.zero) s ∧
      ∃ r ∈ s.refs, r.handle.stage = .held ∧ (∀ w ∈ s.stores, w.1 ≠ r.handle.blockno) ∧
        (s.cache.buf r.handle.buf).data ≠
          applyAll (fun _ => Block.zero) s.stores r.handle.blockno := by
  have hrun : ∃ s : CacheSys (Fin 1),
      Runs.Reach step (fun _ _ => True) (init 2 logSize 1 Bcache.binit fun _ => Block.zero) s ∧
        ∃ r ∈ s.refs, r.handle.stage = .held ∧ (∀ w ∈ s.stores, w.1 ≠ r.handle.blockno) ∧
          (s.cache.buf r.handle.buf).data.word 4 ≠
            (applyAll (fun _ => Block.zero) s.stores r.handle.blockno).word 4 :=
    Runs.exists_reach_of_exec
      ([.beginOp 0, .bget 0 1 46, .acquiresleep (refTo 0 46 .waiting false),
          .fill (refTo 0 46 .locked false),
          .store (refTo 0 46 .held false) fun _ => 1,
          .logWrite (refTo 0 46 .held true),
          .releasesleep (refTo 0 46 .held false),
          .brelse (refTo 0 46 .releasing false), .endOp 0, .startCommit 0] ++
        List.replicate 32 (.commit 0) ++ [.clearHead 0] ++ List.replicate 7 (.commit 0) ++
        [.endCommit 0, .bget 0 1 2, .acquiresleep (refTo 2 2 .waiting false),
          .fill (refTo 2 2 .locked false)]) (by decide +kernel)
  obtain ⟨s, hs, r, hr, hst, hstores, hne⟩ := hrun
  exact ⟨s, hs, r, hr, hst, hstores, fun heq => hne (by rw [heq])⟩

end Runs

end CsklubOs.CacheSys

