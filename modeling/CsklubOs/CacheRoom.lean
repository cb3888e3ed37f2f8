/-
**Whether the block cache has a free buffer.**

`bget` panics if the block is not cached and every buffer is referred to.  A buffer is referred to
by the processes that use its block and by the log while the block is pinned.  Nothing in `bio.c` or
in `begin_op` sees to it that there are enough: `NBUF` is less than `NPROC`, and a process that
reads a file holds a buffer while it waits for the disk.

Main results:

* `no_panic_iff` — the panic comes when `NBUF` other blocks are in use;
* `readers_exhaust_cache` — so it does with that many readers.
-/

import CsklubOs.CacheCommit
import CsklubOs.Tally

set_option autoImplicit false

namespace CsklubOs

/-! ### The blocks in use -/

namespace Bcache

variable {dev b : ℕ} {pins : List ℕ} {R : Multiset Handle} {c : Bcache}

theorem bget_eq_none_iff (hmem : ∀ i, i ∈ c.lru) : c.bget dev b = none ↔
    (∀ i, ¬ ((c.buf i).dev = dev ∧ (c.buf i).blockno = b)) ∧ ∀ i, (c.buf i).refcnt ≠ 0 := by
  unfold bget
  split
  · rename_i i hfind
    refine iff_of_false (by simp) fun h => h.1 i ?_
    simpa using List.find?_some hfind
  · rename_i hmiss
    rw [List.find?_eq_none] at hmiss
    have hmiss : ∀ i, ¬ ((c.buf i).dev = dev ∧ (c.buf i).blockno = b) := by
      intro i
      simpa using hmiss i (hmem i)
    split
    · rename_i i hfind
      refine iff_of_false (by simp) fun h => h.2 i ?_
      simpa using List.find?_some hfind
    · rename_i hbusy
      rw [List.find?_eq_none] at hbusy
      refine iff_of_true rfl ⟨hmiss, fun i => ?_⟩
      simpa using hbusy i (List.mem_reverse.2 (hmem i))

/-- The blocks that a handle refers to or the log has pinned. -/
def blocksInUse (pins : List ℕ) (R : Multiset Handle) : Finset ℕ :=
  (R.map Handle.blockno).toFinset ∪ pins.toFinset

theorem mem_blocksInUse : b ∈ blocksInUse pins R ↔ (∃ x ∈ R, x.blockno = b) ∨ b ∈ pins := by
  simp [blocksInUse]

theorem Refs.cached_of_mem (h : Refs dev c pins R) (hb : b ∈ blocksInUse pins R) :
    ∃ i, (c.buf i).dev = dev ∧ (c.buf i).blockno = b := by
  rcases mem_blocksInUse.1 hb with ⟨x, hx, rfl⟩ | hpin
  · exact ⟨x.buf, h.key x hx⟩
  · obtain ⟨i, hdev, hblock, -⟩ := h.pinned b hpin
    exact ⟨i, hdev, hblock⟩

/-- **The buffers that are referred to** are those of the blocks in use. -/
theorem Refs.refcnt_ne_zero_iff (h : Refs dev c pins R) (i : Fin nBuf) :
    (c.buf i).refcnt ≠ 0 ↔ (c.buf i).dev = dev ∧ (c.buf i).blockno ∈ blocksInUse pins R := by
  constructor
  · intro hne
    rw [h.refcnt] at hne
    by_cases hpin : (c.buf i).dev = dev ∧ (c.buf i).blockno ∈ pins
    · exact ⟨hpin.1, mem_blocksInUse.2 (.inr hpin.2)⟩
    · rw [if_neg hpin] at hne
      obtain ⟨x, hx, rfl⟩ := Multiset.countP_pos.1 (Nat.pos_of_ne_zero hne)
      exact ⟨(h.key x hx).1, mem_blocksInUse.2 (.inl ⟨x, hx, (h.key x hx).2.symm⟩)⟩
  · rintro ⟨hdev, huse⟩
    rcases mem_blocksInUse.1 huse with ⟨x, hx, hblock⟩ | hpin
    · obtain ⟨hxdev, hxblock⟩ := h.key x hx
      rw [h.unique i x.buf hdev hxdev (hblock.symm.trans hxblock.symm)]
      exact (h.refcnt_pos hx).ne'
    · exact (h.refcnt_pos_of_pin hdev hpin).ne'

theorem Refs.exists_free_iff (h : Refs dev c pins R) :
    (∃ i, (c.buf i).refcnt = 0) ↔ (blocksInUse pins R).card < nBuf := by
  generalize hbusy : (Finset.univ.filter fun i => (c.buf i).refcnt ≠ 0) = busy
  have hmem : ∀ i, i ∈ busy ↔ (c.buf i).dev = dev ∧ (c.buf i).blockno ∈ blocksInUse pins R := by
    intro i
    rw [← hbusy, Finset.mem_filter, h.refcnt_ne_zero_iff]
    exact and_iff_right (Finset.mem_univ i)
  have himage : busy.image (fun i => (c.buf i).blockno) = blocksInUse pins R := by
    ext b
    rw [Finset.mem_image]
    constructor
    · rintro ⟨i, hi, rfl⟩
      exact ((hmem i).1 hi).2
    · intro hb
      obtain ⟨i, hdev, rfl⟩ := h.cached_of_mem hb
      exact ⟨i, (hmem i).2 ⟨hdev, hb⟩, rfl⟩
  have hinj : Set.InjOn (fun i => (c.buf i).blockno) busy := fun i hi j hj hij =>
    h.unique i j ((hmem i).1 hi).1 ((hmem j).1 hj).1 hij
  have hfree := Tally.exists_notMem_iff hinj
  rw [himage, Fintype.card_fin] at hfree
  rw [← hfree, ← hbusy]
  simp

/-- **When `bget` panics**: the block is not in use, and as many blocks as there are buffers are. -/
theorem Refs.bget_eq_none_iff (h : Refs dev c pins R) :
    c.bget dev b = none ↔ ¬ (b ∈ blocksInUse pins R ∨ (blocksInUse pins R).card < nBuf) := by
  rw [Bcache.bget_eq_none_iff h.mem, ← h.exists_free_iff]
  constructor
  · rintro ⟨hmiss, hbusy⟩ (huse | ⟨i, hi⟩)
    · obtain ⟨i, hi⟩ := h.cached_of_mem huse
      exact hmiss i hi
    · exact hbusy i hi
  · intro hno
    have hbusy : ∀ i, (c.buf i).refcnt ≠ 0 := fun i hi => hno (.inr ⟨i, hi⟩)
    refine ⟨?_, hbusy⟩
    -- a cached block would be in use, as all buffers are
    rintro i ⟨-, rfl⟩
    exact hno (.inl ((h.refcnt_ne_zero_iff i).1 (hbusy i)).2)

end Bcache

/-! ### The steps that call `bget` -/

namespace CacheSys

variable {T : Type} [DecidableEq T]

/-- The block of the `bget` that `commit` is at. -/
def commitWants (s : CacheSys T) : Option ℕ :=
  match s.pc with
  | .copy _ tail .get1 => some (s.group.log.start + tail + 1)
  | .copy _ tail (.get2 _) => some (s.group.log.lh.getD tail 0)
  | .head _ .get => some s.group.log.start
  | _ => none

/-- The block of the `bget` that a step calls, if it calls it. -/
def wanted (s : CacheSys T) : CacheAct T → Option ℕ
  | .bget _ _ blockno => some blockno
  | .commit t =>
    if s.group.phase t = .committing ∨ s.group.phase t = .cleared then s.commitWants else none
  | _ => none

/-- The blocks that a client or `commit` refers to, or that the log has pinned. -/
def blocksInUse (s : CacheSys T) : Finset ℕ :=
  Bcache.blocksInUse (s.pc.pins s.group.log.lh) s.handles

omit [DecidableEq T] in
theorem lift_ne_noBuffers {o : Option (Except LogPanic (GroupLog T))}
    {f : GroupLog T → CacheSys T} : lift o f ≠ some (.error .noBuffers) := by
  rcases o with _ | _ | _ <;> simp [lift]

variable {s : CacheSys T}

section

omit [DecidableEq T]

theorem commitBget_noBuffers_iff {b : ℕ} {pc : Fin nBuf → CommitPc} :
    s.commitBget b pc = some (.error .noBuffers) ↔ s.cache.bget s.group.log.dev b = none := by
  unfold commitBget
  split <;> simp_all

theorem commitLock_ne_noBuffers {i : Fin nBuf} {pc : CommitPc} :
    s.commitLock i pc ≠ some (.error .noBuffers) := by
  unfold commitLock
  cases s.cache.acquiresleep i <;> simp

theorem copyStep_noBuffers_iff {installing : Bool} {tail : ℕ} {p : CopyPc}
    (hpc : s.pc = .copy installing tail p) :
    s.copyStep installing tail p = some (.error .noBuffers) ↔
      ∃ b, s.commitWants = some b ∧ s.cache.bget s.group.log.dev b = none := by
  unfold commitWants
  rw [hpc]
  cases p with
  | get1 | get2 i => simp [copyStep, commitBget_noBuffers_iff]
  | lock1 i | lock2 i j => simp [copyStep, commitLock_ne_noBuffers]
  | write i j => cases installing <;> simp [copyStep, commitWrite]
  | _ => simp [copyStep]

theorem headStep_noBuffers_iff {erasing : Bool} {p : HeadPc} (hpc : s.pc = .head erasing p) :
    s.headStep erasing p = some (.error .noBuffers) ↔
      ∃ b, s.commitWants = some b ∧ s.cache.bget s.group.log.dev b = none := by
  unfold commitWants
  rw [hpc]
  cases p with
  | get => simp [headStep, commitBget_noBuffers_iff]
  | lock i => simp [headStep, commitLock_ne_noBuffers]
  | _ => simp [headStep, commitWrite]

end

theorem commit_noBuffers_iff {t : T} :
    s.step (.commit t) = some (.error .noBuffers) ↔
      ∃ b, s.wanted (.commit t) = some b ∧ s.cache.bget s.group.log.dev b = none := by
  simp only [step, wanted]
  split
  · split
    · exact copyStep_noBuffers_iff ‹_›
    · exact headStep_noBuffers_iff ‹_›
    · rename_i hcopy hhead
      have hnone : s.commitWants = none := by
        unfold commitWants
        split
        · exact absurd ‹_› (hcopy _ _ _)
        · exact absurd ‹_› (hcopy _ _ _)
        · exact absurd ‹_› (hhead _ _)
        · rfl
      simp [hnone]
  · simp

theorem step_noBuffers_iff {start size dev : ℕ} {a : CacheAct T} (hlog : s.group.log.dev = dev)
    (hplain : Plain start size dev s a) :
    s.step a = some (.error .noBuffers) ↔
      ∃ b, s.wanted a = some b ∧ s.cache.bget dev b = none := by
  subst hlog
  cases a with
  | bget t dev' b =>
    obtain rfl : dev' = s.group.log.dev := hplain
    simp only [step, wanted]
    split <;> simp_all
  | acquiresleep r =>
    simp only [step, wanted]
    split
    · cases s.cache.acquiresleep r.handle.buf <;> simp
    · simp
  | fill r | store r v | releasesleep r | brelse r =>
    simp only [step, wanted]
    split <;> simp
  | logWrite r | endCommit t =>
    simp only [step, wanted]
    split <;> simp [lift_ne_noBuffers]
  | beginOp t | wake t | endOp t | startCommit t => simp [step, wanted, lift_ne_noBuffers]
  | clearHead t =>
    simp only [step, wanted]
    split <;> simp [lift_ne_noBuffers]
  | commit t => exact commit_noBuffers_iff

/-! ### Every run -/

variable [Fintype T] {start size dev : ℕ} {d : ℕ → Block} {s : CacheSys T}

/-- **When `bget` finds a buffer.**  In every run and for every step, of a client or of `commit`,
that calls `bget`: the call does not panic if and only if its block is in use, or fewer than `NBUF`
blocks are. -/
theorem no_panic_iff {c : Bcache} (hc : c.Fresh dev d)
    (h : Runs.Reach step (Plain start size dev) (init start size dev c d) s) {a : CacheAct T}
    (ha : Plain start size dev s a) :
    s.step a ≠ some (.error .noBuffers) ↔
      ∀ b, s.wanted a = some b → b ∈ s.blocksInUse ∨ s.blocksInUse.card < nBuf := by
  have hinv : Inv start size dev d s :=
    h.invariant (inv_init hc) fun s a s' hi ha hs => hi.step ha hs
  obtain ⟨mid, -, hcache⟩ := hinv.cache
  rw [Ne, step_noBuffers_iff hinv.logDev ha]
  constructor
  · intro hno b hb
    by_contra huse
    exact hno ⟨b, hb, hcache.refs.bget_eq_none_iff.2 huse⟩
  · rintro hroom ⟨b, hb, hnone⟩
    exact hcache.refs.bget_eq_none_iff.1 hnone (hroom b hb)

/-- The first `n` processes each begin to read a block. -/
def readers (n : ℕ) : List (CacheAct (Fin nProc)) :=
  (List.range n).map fun i => .bget (Fin.ofNat nProc i) 1 (46 + i)

/-- After 29 processes have each begun to read a block, there is a buffer for another. -/
theorem no_panic_thirty : ∃ s : CacheSys (Fin nProc),
    Runs.Reach step (Plain 2 logSize 1) (init 2 logSize 1 Bcache.binit fun _ => Block.zero) s ∧
      s.refs.length = 29 ∧ s.step (.bget (29 : Fin 64) 1 75) ≠ some (.error .noBuffers) := by
  have hrun : ∃ s : CacheSys (Fin nProc),
      Runs.Reach step (Plain 2 logSize 1) (init 2 logSize 1 Bcache.binit fun _ => Block.zero) s ∧
        s.refs.length = 29 ∧ s.blocksInUse.card < nBuf :=
    Runs.exists_reach_of_exec (readers 29) (by decide +kernel)
  obtain ⟨s, hs, hlen, huse⟩ := hrun
  have hplain : Plain 2 logSize 1 s (.bget (29 : Fin 64) 1 75) := rfl
  exact ⟨s, hs, hlen, (no_panic_iff (Bcache.binit_fresh (by decide) _) hs hplain).2
    fun b _ => .inr huse⟩

/-- Thirty-one processes each read a block, and the last one panics: no operation has begun, and
each of the others has one reference. -/
theorem readers_exhaust_cache : ∃ s : CacheSys (Fin nProc),
    Runs.Reach step (Plain 2 logSize 1) (init 2 logSize 1 Bcache.binit fun _ => Block.zero) s ∧
      (∀ t, s.group.phase t = .idle) ∧ (s.refs.map Ref.who).Nodup ∧
      s.step (.bget (30 : Fin 64) 1 76) = some (.error .noBuffers) := by
  have hrun : ∃ s : CacheSys (Fin nProc),
      Runs.Reach step (Plain 2 logSize 1) (init 2 logSize 1 Bcache.binit fun _ => Block.zero) s ∧
        (∀ t, s.group.phase t = .idle) ∧ (s.refs.map Ref.who).Nodup ∧ (s.cache.bget 1 76).isNone :=
    Runs.exists_reach_of_exec (readers 30) (by decide +kernel)
  obtain ⟨s, hs, hidle, hnodup, hnone⟩ := hrun
  refine ⟨s, hs, hidle, hnodup, ?_⟩
  simp only [step, Option.isNone_iff_eq_none.1 hnone]

end CacheSys

end CsklubOs

