/-
**The block cache of `kernel/bio.c`.**

`bget` looks a block up in the list of buffers and, if it is not there, recycles the least recently
used buffer that nobody refers to.  A call that may sleep is cut where it sleeps: `bget` ends before
`acquiresleep`, and `brelse` after `releasesleep`.

Main definitions:

* `Bcache` with `bget`, `fill`, `brelse`, `bpin` and `bunpin` — the code;
* `Handle` — a `bget` that has not been undone by a `brelse`, with how far it has come;
* `Refs` — the counts are those of the handles and the pins.

Main results:

* `Refs.bget`, `Refs.brelse` — the functions keep the counts.
-/

import CsklubOs.Block

set_option autoImplicit false

namespace CsklubOs

open Multiset (countP_cons countP_cons_of_neg countP_cons_of_pos mem_cons mem_cons_of_mem
  mem_cons_self)

/-- `struct buf`.  The list links are in `Bcache.lru`; `refcnt` is not bounded, since every process
holds a few references at most. -/
structure Buf where
  dev : ℕ
  blockno : ℕ
  /-- The data has been read from the disk. -/
  valid : Bool
  refcnt : ℕ
  /-- The sleep-lock is held. -/
  locked : Bool
  data : Block

structure Bcache where
  buf : Fin nBuf → Buf
  /-- The buffers from `head.next`, the most recently used, to `head.prev`. -/
  lru : List (Fin nBuf)

namespace Bcache

section

variable (c : Bcache)

/-- The cache with another buffer at index `i`. -/
def set (i : Fin nBuf) (b : Buf) : Bcache :=
  { c with buf := Function.update c.buf i b }

@[simp] theorem lru_set (i : Fin nBuf) (b : Buf) : (c.set i b).lru = c.lru := rfl

theorem buf_set (i j : Fin nBuf) (b : Buf) : (c.set i b).buf j = if j = i then b else c.buf j := by
  simp [set, Function.update_apply]

@[simp] theorem buf_set_self (i : Fin nBuf) (b : Buf) : (c.set i b).buf i = b := by
  simp [buf_set]

theorem buf_set_of_ne {i j : Fin nBuf} (b : Buf) (h : j ≠ i) : (c.set i b).buf j = c.buf j := by
  simp [buf_set, h]

/-- `binit`: each buffer is put in front of the ones before it. -/
def binit : Bcache where
  buf := fun _ => { dev := 0, blockno := 0, valid := false, refcnt := 0, locked := false,
                    data := Block.zero }
  lru := (List.finRange nBuf).reverse

/-- `bget` up to its `acquiresleep`; `none` is `panic("bget: no buffers")`. -/
def bget (dev blockno : ℕ) : Option (Bcache × Fin nBuf) :=
  match c.lru.find? fun i => (c.buf i).dev = dev ∧ (c.buf i).blockno = blockno with
  | some i => some (c.set i { c.buf i with refcnt := (c.buf i).refcnt + 1 }, i)
  | none =>
    -- not cached: recycle, from the least recently used end
    match c.lru.reverse.find? fun i => (c.buf i).refcnt = 0 with
    | some i => some (c.set i { c.buf i with dev, blockno, valid := false, refcnt := 1 }, i)
    | none => none

/-- `acquiresleep(&b->lock)`; `none` is a caller that waits. -/
def acquiresleep (i : Fin nBuf) : Option Bcache :=
  if (c.buf i).locked then none else some (c.set i { c.buf i with locked := true })

/-- The part of `bread` after `bget`. -/
def fill (disk : ℕ → Block) (i : Fin nBuf) : Bcache :=
  if (c.buf i).valid then c
  else c.set i { c.buf i with data := disk (c.buf i).blockno, valid := true }

/-- `releasesleep(&b->lock)` in `brelse`. -/
def releasesleep (i : Fin nBuf) : Bcache :=
  c.set i { c.buf i with locked := false }

/-- The part of `brelse` that holds `bcache.lock`. -/
def brelse (i : Fin nBuf) : Bcache :=
  let c := c.set i { c.buf i with refcnt := (c.buf i).refcnt - 1 }
  if (c.buf i).refcnt = 0 then { c with lru := i :: c.lru.erase i } else c

def bpin (i : Fin nBuf) : Bcache :=
  c.set i { c.buf i with refcnt := (c.buf i).refcnt + 1 }

def bunpin (i : Fin nBuf) : Bcache :=
  c.set i { c.buf i with refcnt := (c.buf i).refcnt - 1 }

/-- A store of all of `b->data`. -/
def memmove (i : Fin nBuf) (data : Block) : Bcache :=
  c.set i { c.buf i with data }

end

/-! ### What the functions do to a buffer -/

@[simp] theorem buf_brelse (c : Bcache) (i : Fin nBuf) : (c.brelse i).buf =
    (c.set i { c.buf i with refcnt := (c.buf i).refcnt - 1 }).buf := by
  simp only [brelse]
  split <;> rfl

theorem mem_lru_brelse {c : Bcache} (h : ∀ j, j ∈ c.lru) (i j : Fin nBuf) :
    j ∈ (c.brelse i).lru := by
  simp only [brelse]
  split
  · by_cases hj : j = i
    · simp [hj]
    · exact List.mem_cons_of_mem _ ((List.mem_erase_of_ne hj).2 (h j))
  · exact h j

/-- What a `bget` that returns has found: the block, or a buffer that nobody refers to. -/
theorem bget_eq_some {c c' : Bcache} {dev blockno : ℕ} {i : Fin nBuf} (hmem : ∀ j, j ∈ c.lru)
    (h : c.bget dev blockno = some (c', i)) :
    ((c.buf i).dev = dev ∧ (c.buf i).blockno = blockno ∧
        c' = c.set i { c.buf i with refcnt := (c.buf i).refcnt + 1 }) ∨
      ((∀ j, (c.buf j).dev = dev → (c.buf j).blockno ≠ blockno) ∧ (c.buf i).refcnt = 0 ∧
        c' = c.set i { c.buf i with dev, blockno, valid := false, refcnt := 1 }) := by
  unfold bget at h
  split at h
  · rename_i j hj
    obtain ⟨rfl, rfl⟩ := Prod.mk.inj (Option.some.inj h)
    have hkey := List.find?_some hj
    simp only [decide_eq_true_eq] at hkey
    exact .inl ⟨hkey.1, hkey.2, rfl⟩
  · rename_i hnone
    split at h
    · rename_i j hj
      obtain ⟨rfl, rfl⟩ := Prod.mk.inj (Option.some.inj h)
      refine .inr ⟨fun k hdev hblock => ?_, by simpa using List.find?_some hj, rfl⟩
      have := List.find?_eq_none.1 hnone k (hmem k)
      simp [hdev, hblock] at this
    · cases h

end Bcache

/-! ### References -/

/-- How far a reference has come. -/
inductive Stage
  /-- In `bget`, waiting for the sleep-lock. -/
  | waiting
  /-- In `bread`, with the sleep-lock, before the test of `valid`. -/
  | locked
  /-- `bread` has returned. -/
  | held
  /-- In `brelse`, with the sleep-lock released. -/
  | releasing
  deriving DecidableEq, Repr

/-- The sleep-lock is held in these stages. -/
def Stage.Owns : Stage → Bool
  | .locked => true
  | .held => true
  | _ => false

/-- A reference that a `bget` for block `blockno` of the log's device has returned. -/
structure Handle where
  buf : Fin nBuf
  blockno : ℕ
  stage : Stage
  deriving DecidableEq

namespace Bcache

variable {dev : ℕ} {pins : List ℕ} {R : Multiset Handle} {c c' : Bcache} {i : Fin nBuf} {b : ℕ}

/-- **How the cache accounts for references.**  `R` are the handles that are out, `pins` the blocks
of device `dev` that the log has pinned. -/
structure Refs (dev : ℕ) (c : Bcache) (pins : List ℕ) (R : Multiset Handle) : Prop where
  mem : ∀ i, i ∈ c.lru
  refcnt : ∀ i, (c.buf i).refcnt = R.countP (fun h => h.buf = i) +
    if (c.buf i).dev = dev ∧ (c.buf i).blockno ∈ pins then 1 else 0
  lock : ∀ i, R.countP (fun h => h.buf = i ∧ h.stage.Owns) = if (c.buf i).locked then 1 else 0
  /-- A block of the device is in one buffer at most. -/
  unique : ∀ i j, (c.buf i).dev = dev → (c.buf j).dev = dev →
    (c.buf i).blockno = (c.buf j).blockno → i = j
  key : ∀ h ∈ R, (c.buf h.buf).dev = dev ∧ (c.buf h.buf).blockno = h.blockno
  valid : ∀ h ∈ R, h.stage = .held → (c.buf h.buf).valid
  /-- A pinned block is in the cache, with its data. -/
  pinned : ∀ b ∈ pins, ∃ i, (c.buf i).dev = dev ∧ (c.buf i).blockno = b ∧ (c.buf i).valid

variable {x : Handle}

theorem Refs.refcnt_pos (h : Refs dev c pins R) (hx : x ∈ R) : 0 < (c.buf x.buf).refcnt := by
  have hpos : 0 < R.countP fun y => y.buf = x.buf := Multiset.countP_pos.2 ⟨x, hx, rfl⟩
  rw [h.refcnt]
  omega

theorem Refs.refcnt_pos_of_pin (h : Refs dev c pins R) (hdev : (c.buf i).dev = dev)
    (hpin : (c.buf i).blockno ∈ pins) : 0 < (c.buf i).refcnt := by
  rw [h.refcnt, if_pos ⟨hdev, hpin⟩]
  omega

theorem Refs.buf_ne {y : Handle} (h : Refs dev c pins (x ::ₘ y ::ₘ R)) (hx : x.stage.Owns)
    (hy : y.stage.Owns) : x.buf ≠ y.buf := by
  intro hxy
  have hlock := h.lock y.buf
  rw [countP_cons_of_pos _ ⟨hxy, hx⟩, countP_cons_of_pos _ ⟨rfl, hy⟩] at hlock
  split at hlock <;> omega

theorem Refs.blockno_ne {y : Handle} (h : Refs dev c pins (x ::ₘ y ::ₘ R)) (hx : x.stage.Owns)
    (hy : y.stage.Owns) : x.blockno ≠ y.blockno := by
  intro hxy
  obtain ⟨hxdev, hxb⟩ := h.key x (mem_cons_self ..)
  obtain ⟨hydev, hyb⟩ := h.key y (mem_cons_of_mem (mem_cons_self ..))
  exact h.buf_ne hx hy (h.unique _ _ hxdev hydev (by rw [hxb, hyb, hxy]))

/-- A change of one buffer and of the stage of one handle of it, with the block, the reference
count and the lock accounted for. -/
theorem Refs.move {st st' : Stage} {u : Buf} (h : Refs dev c pins (⟨i, b, st⟩ ::ₘ R))
    (hdev : u.dev = (c.buf i).dev) (hblock : u.blockno = (c.buf i).blockno)
    (href : u.refcnt = (c.buf i).refcnt) (hvalid : (c.buf i).valid → u.valid)
    (hheld : st' = .held → u.valid)
    (hlock : (if u.locked then 1 else 0) + (if st.Owns then 1 else 0) =
      (if (c.buf i).locked then 1 else 0) + if st'.Owns then 1 else 0) :
    Refs dev (c.set i u) pins (⟨i, b, st'⟩ ::ₘ R) := by
  have hkey : ∀ j, ((c.set i u).buf j).dev = (c.buf j).dev ∧
      ((c.set i u).buf j).blockno = (c.buf j).blockno ∧
      ((c.set i u).buf j).refcnt = (c.buf j).refcnt ∧
      ((c.buf j).valid → ((c.set i u).buf j).valid) := by
    intro j
    by_cases hj : j = i
    · subst hj; simpa [hdev, hblock, href] using hvalid
    · simp [buf_set_of_ne _ _ hj]
  constructor
  · exact h.mem
  · intro j
    have := h.refcnt j
    rw [countP_cons] at this ⊢
    rw [(hkey j).1, (hkey j).2.1, (hkey j).2.2.1, this]
  · intro j
    have := h.lock j
    rw [countP_cons] at this ⊢
    by_cases hj : j = i
    · subst hj
      simp only [true_and, buf_set_self] at this ⊢
      omega
    · rw [buf_set_of_ne _ _ hj, ← this]
      simp [Ne.symm hj]
  · intro j k hj hk hjk
    rw [(hkey j).1] at hj
    rw [(hkey k).1] at hk
    rw [(hkey j).2.1, (hkey k).2.1] at hjk
    exact h.unique j k hj hk hjk
  · intro x hx
    rw [(hkey _).1, (hkey _).2.1]
    rcases mem_cons.1 hx with rfl | hx
    · exact h.key ⟨i, b, st⟩ (mem_cons_self ..)
    · exact h.key x (mem_cons_of_mem hx)
  · intro x hx hst
    rcases mem_cons.1 hx with rfl | hx
    · simpa using hheld hst
    · exact (hkey _).2.2.2 (h.valid x (mem_cons_of_mem hx) hst)
  · intro p hp
    obtain ⟨j, hj, hp, hv⟩ := h.pinned p hp
    exact ⟨j, (hkey j).1.trans hj, (hkey j).2.1.trans hp, (hkey j).2.2.2 hv⟩

theorem Refs.acquiresleep (h : Refs dev c pins (⟨i, b, .waiting⟩ ::ₘ R))
    (hc : c.acquiresleep i = some c') : Refs dev c' pins (⟨i, b, .locked⟩ ::ₘ R) := by
  unfold Bcache.acquiresleep at hc
  split at hc
  · cases hc
  · rename_i hfree
    obtain rfl := Option.some.inj hc
    exact h.move rfl rfl rfl id (by simp) (by simp [hfree, Stage.Owns])

theorem Refs.fill (h : Refs dev c pins (⟨i, b, .locked⟩ ::ₘ R)) (disk : ℕ → Block) :
    Refs dev (c.fill disk i) pins (⟨i, b, .held⟩ ::ₘ R) := by
  unfold Bcache.fill
  split
  · rename_i hvalid
    have hset : Refs dev (c.set i (c.buf i)) pins (⟨i, b, .held⟩ ::ₘ R) :=
      h.move rfl rfl rfl id (fun _ => hvalid) (by simp [Stage.Owns])
    rwa [show c.set i (c.buf i) = c by simp [set]] at hset
  · exact h.move rfl rfl rfl (fun _ => rfl) (fun _ => rfl) (by simp [Stage.Owns])

theorem Refs.releasesleep (h : Refs dev c pins (⟨i, b, .held⟩ ::ₘ R)) :
    Refs dev (c.releasesleep i) pins (⟨i, b, .releasing⟩ ::ₘ R) := by
  have hlock : (c.buf i).locked := by
    have hlock := h.lock i
    rw [countP_cons_of_pos _ ⟨rfl, rfl⟩] at hlock
    by_contra hfree
    simp [hfree] at hlock
  exact h.move rfl rfl rfl id (by simp) (by simp [hlock, Stage.Owns])

theorem Refs.count {R' : Multiset Handle} {pins' : List ℕ} {n : ℕ} (h : Refs dev c pins R)
    (hlru : ∀ j, j ∈ c'.lru) (hc : c'.buf = (c.set i { c.buf i with refcnt := n }).buf)
    (hself : n = R'.countP (fun x => x.buf = i) +
      if (c.buf i).dev = dev ∧ (c.buf i).blockno ∈ pins' then 1 else 0)
    (hother : ∀ j ≠ i, R'.countP (fun x => x.buf = j) = R.countP fun x => x.buf = j)
    (hpins : ∀ j ≠ i, (c.buf j).dev = dev →
      ((c.buf j).blockno ∈ pins' ↔ (c.buf j).blockno ∈ pins))
    (hlock : ∀ j, R'.countP (fun x => x.buf = j ∧ x.stage.Owns) =
      R.countP fun x => x.buf = j ∧ x.stage.Owns)
    (hnew : ∀ x ∈ R', x ∈ R ∨ x.stage ≠ .held ∧ x.buf = i ∧
      (c.buf i).dev = dev ∧ (c.buf i).blockno = x.blockno) (hpinned : ∀ b ∈ pins', b ∈ pins ∨
      (c.buf i).dev = dev ∧ (c.buf i).blockno = b ∧ (c.buf i).valid) : Refs dev c' pins' R' := by
  have hsame : ∀ j, (c'.buf j).dev = (c.buf j).dev ∧ (c'.buf j).blockno = (c.buf j).blockno ∧
      (c'.buf j).locked = (c.buf j).locked ∧ (c'.buf j).valid = (c.buf j).valid := by
    intro j
    rw [hc]
    by_cases hj : j = i
    · subst hj; simp
    · simp [buf_set_of_ne _ _ hj]
  constructor
  · exact hlru
  · intro j
    by_cases hj : j = i
    · subst hj; simpa [hc] using hself
    · rw [hc, buf_set_of_ne _ _ hj, h.refcnt j, hother j hj]
      by_cases hdev : (c.buf j).dev = dev
      · simp only [hdev, hpins j hj hdev]
      · simp only [hdev, false_and]
  · intro j
    rw [hlock, h.lock, (hsame j).2.2.1]
  · intro j k hj hk hjk
    rw [(hsame j).1] at hj
    rw [(hsame k).1] at hk
    rw [(hsame j).2.1, (hsame k).2.1] at hjk
    exact h.unique j k hj hk hjk
  · intro x hx
    rw [(hsame _).1, (hsame _).2.1]
    rcases hnew x hx with hx | ⟨-, rfl, hkey⟩
    · exact h.key x hx
    · exact hkey
  · intro x hx hst
    rw [(hsame _).2.2.2]
    rcases hnew x hx with hx | ⟨hne, -⟩
    · exact h.valid x hx hst
    · exact absurd hst hne
  · intro p hp
    have hcached : ∃ j, (c.buf j).dev = dev ∧ (c.buf j).blockno = p ∧ (c.buf j).valid := by
      rcases hpinned p hp with hp | hp
      · exact h.pinned p hp
      · exact ⟨i, hp⟩
    obtain ⟨j, hj, hp, hv⟩ := hcached
    exact ⟨j, (hsame j).1.trans hj, (hsame j).2.1.trans hp, (hsame j).2.2.2.trans hv⟩

theorem Refs.brelse (h : Refs dev c pins (⟨i, b, .releasing⟩ ::ₘ R)) :
    Refs dev (c.brelse i) pins R := by
  refine h.count (mem_lru_brelse h.mem i) (buf_brelse c i) ?_ ?_ (fun _ _ _ => Iff.rfl) ?_ ?_
    fun _ => .inl
  · have := h.refcnt i
    simp only [countP_cons, if_true] at this
    omega
  · intro j hj
    simp [Ne.symm hj]
  · intro j
    rw [countP_cons_of_neg _ (by simp [Stage.Owns])]
  · intro x hx
    exact .inl (mem_cons_of_mem hx)

theorem Refs.bpin (h : Refs dev c pins R) (hx : x ∈ R) (hheld : x.stage = .held)
    (hpin : x.blockno ∉ pins) : Refs dev (c.bpin x.buf) (pins ++ [x.blockno]) R := by
  obtain ⟨hdev, hblock⟩ := h.key x hx
  refine h.count h.mem rfl ?_ (fun _ _ => rfl) ?_ (fun _ => rfl) (fun y hy => .inl hy) ?_
  · rw [h.refcnt, if_neg (by simp [hblock, hpin]), if_pos (by simp [hdev, hblock])]
  · intro j hj hjdev
    have hne : (c.buf j).blockno ≠ x.blockno := fun heq =>
      hj (h.unique j x.buf hjdev hdev (heq.trans hblock.symm))
    simp [hne]
  · intro p hp
    rcases List.mem_append.1 hp with hp | hp
    · exact .inl hp
    · exact .inr ⟨hdev, hblock.trans (List.mem_singleton.1 hp).symm, h.valid x hx hheld⟩

theorem Refs.bunpin (h : Refs dev c (b :: pins) R) (hx : x ∈ R) (hb : x.blockno = b)
    (hpin : b ∉ pins) : Refs dev (c.bunpin x.buf) pins R := by
  obtain ⟨hdev, hblock⟩ := h.key x hx
  refine h.count h.mem rfl ?_ (fun _ _ => rfl) ?_ (fun _ => rfl) (fun y hy => .inl hy)
    fun p hp => .inl (List.mem_cons_of_mem _ hp)
  · rw [h.refcnt, if_pos (by simp [hdev, hblock, hb]), if_neg (by simp [hblock, hb, hpin])]
    omega
  · intro j hj hjdev
    have hne : (c.buf j).blockno ≠ b := fun heq =>
      hj (h.unique j x.buf hjdev hdev (heq.trans (hb ▸ hblock.symm)))
    simp [hne]

theorem Refs.memmove (h : Refs dev c pins R) (i : Fin nBuf) (data : Block) :
    Refs dev (c.memmove i data) pins R := by
  have hsame : ∀ j, ((c.memmove i data).buf j).dev = (c.buf j).dev ∧
      ((c.memmove i data).buf j).blockno = (c.buf j).blockno ∧
      ((c.memmove i data).buf j).refcnt = (c.buf j).refcnt ∧
      ((c.memmove i data).buf j).locked = (c.buf j).locked ∧
      ((c.memmove i data).buf j).valid = (c.buf j).valid := by
    intro j
    rw [Bcache.memmove, buf_set]
    split <;> simp_all
  constructor
  · exact h.mem
  · intro j; rw [(hsame j).1, (hsame j).2.1, (hsame j).2.2.1]; exact h.refcnt j
  · intro j; rw [(hsame j).2.2.2.1]; exact h.lock j
  · intro j k
    rw [(hsame j).1, (hsame k).1, (hsame j).2.1, (hsame k).2.1]
    exact h.unique j k
  · intro x hx; rw [(hsame _).1, (hsame _).2.1]; exact h.key x hx
  · intro x hx; rw [(hsame _).2.2.2.2]; exact h.valid x hx
  · intro p hp
    obtain ⟨j, hj, hp, hv⟩ := h.pinned p hp
    exact ⟨j, (hsame j).1.trans hj, (hsame j).2.1.trans hp, (hsame j).2.2.2.2.trans hv⟩

theorem Refs.bget (h : Refs dev c pins R) (hc : c.bget dev b = some (c', i)) :
    Refs dev c' pins (⟨i, b, .waiting⟩ ::ₘ R) := by
  rcases bget_eq_some h.mem hc with ⟨hdev, hblock, rfl⟩ | ⟨hnone, href, rfl⟩
  · refine h.count h.mem rfl ?_ ?_ (fun _ _ _ => Iff.rfl) ?_ ?_ fun _ => .inl
    · simp only [h.refcnt i, countP_cons, if_true]
      omega
    · intro j hj
      simp [Ne.symm hj]
    · intro j
      rw [countP_cons_of_neg _ (by simp [Stage.Owns])]
    · intro x hx
      rcases mem_cons.1 hx with rfl | hx
      · exact .inr ⟨by simp, rfl, hdev, hblock⟩
      · exact .inl hx
  · -- the recycled buffer has no handle and is not pinned, and the new block is nowhere else
    have hfree : ∀ x ∈ R, x.buf ≠ i := fun x hx heq => by
      have := h.refcnt_pos hx
      rw [heq, href] at this
      exact lt_irrefl _ this
    have hzero : R.countP (fun x => x.buf = i) = 0 := Multiset.countP_eq_zero.2 hfree
    have hpin : b ∉ pins := fun hb => by
      obtain ⟨j, hj, hjb, -⟩ := h.pinned b hb
      exact hnone j hj hjb
    have hother : ∀ x ∈ R, (c.set i { c.buf i with
        dev := dev, blockno := b, valid := false, refcnt := 1 }).buf x.buf = c.buf x.buf :=
      fun x hx => buf_set_of_ne _ _ (hfree x hx)
    constructor
    · exact h.mem
    · intro j
      by_cases hj : j = i
      · subst hj
        simp [hzero, hpin]
      · rw [buf_set_of_ne _ _ hj, h.refcnt]
        simp [Ne.symm hj]
    · intro j
      rw [countP_cons_of_neg _ (by simp [Stage.Owns]), h.lock]
      by_cases hj : j = i
      · subst hj; simp
      · rw [buf_set_of_ne _ _ hj]
    · intro j k hj hk hjk
      by_cases hji : j = i <;> by_cases hki : k = i
      · rw [hji, hki]
      · subst hji
        rw [buf_set_of_ne _ _ hki] at hk hjk
        exact absurd (by simpa using hjk.symm) (hnone k hk)
      · subst hki
        rw [buf_set_of_ne _ _ hji] at hj hjk
        exact absurd (by simpa using hjk) (hnone j hj)
      · rw [buf_set_of_ne _ _ hji] at hj hjk
        rw [buf_set_of_ne _ _ hki] at hk hjk
        exact h.unique j k hj hk hjk
    · intro x hx
      rcases mem_cons.1 hx with rfl | hx
      · simp
      · rw [hother x hx]
        exact h.key x hx
    · intro x hx hst
      rcases mem_cons.1 hx with rfl | hx
      · cases hst
      · rw [hother x hx]
        exact h.valid x hx hst
    · intro p hp
      obtain ⟨j, hj, hjp, hv⟩ := h.pinned p hp
      have hji : j ≠ i := fun heq => by
        have := h.refcnt_pos_of_pin (i := j) hj (hjp ▸ hp)
        rw [heq, href] at this
        exact lt_irrefl _ this
      exact ⟨j, by simpa only [buf_set_of_ne _ _ hji] using ⟨hj, hjp, hv⟩⟩

end Bcache

end CsklubOs
