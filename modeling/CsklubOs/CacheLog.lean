/-
**The block cache, the log and the disk.**

The processes of `CsklubOs/GroupCommit.lean` read and store blocks through the cache while one of
them may run `commit`.  A client stores to a buffer only while it holds it and is in an operation,
and calls `log_write` before `brelse` if it has stored.  Everything that takes a lock or waits for
the disk is a step of its own.  The state keeps the stores of the clients, at which no step looks.

Main definitions:

* `CacheSys`, `CacheSys.step` — the system; `CommitPc` — where `commit` is;
* `CacheSys.Inv` — the invariant.

Main results:

* `CacheSys.Inv.ofGroup`, `CacheSys.Inv.moveRef` — steps of the log and of the clients keep it.
-/

import CsklubOs.BioData
import CsklubOs.GroupCommit
import CsklubOs.RedoLog

set_option autoImplicit false

namespace CsklubOs

open Multiset (add_cons cons_coe mem_coe)

open WriteSeq List

/-! ### The program counter of `commit` -/

/-- Where a pass of the loop of `write_log` or `install_trans` is.  Both read the log block into a
buffer `i` and then the home block into a buffer `j`; they release them in opposite orders. -/
inductive CopyPc
  | get1
  | lock1 (i : Fin nBuf)
  | read1 (i : Fin nBuf)
  | get2 (i : Fin nBuf)
  | lock2 (i j : Fin nBuf)
  | read2 (i j : Fin nBuf)
  | move (i j : Fin nBuf)
  | write (i j : Fin nBuf)
  | unpin (i j : Fin nBuf)
  | rel1 (x y : Fin nBuf)
  | unref1 (x y : Fin nBuf)
  | rel2 (y : Fin nBuf)
  | unref2 (y : Fin nBuf)
  deriving DecidableEq

/-- Where `write_head` is. -/
inductive HeadPc
  | get
  | lock (i : Fin nBuf)
  | read (i : Fin nBuf)
  | put (i : Fin nBuf)
  | write (i : Fin nBuf)
  | rel (i : Fin nBuf)
  | unref (i : Fin nBuf)
  deriving DecidableEq

/-- Where `commit` is. -/
inductive CommitPc
  /-- Not begun, or finished. -/
  | out
  /-- There is nothing to commit. -/
  | skip
  /-- In `write_log`, or in `install_trans` if `installing`. -/
  | copy (installing : Bool) (tail : ℕ) (p : CopyPc)
  /-- In the first `write_head`, or in the second if `erasing`. -/
  | head (erasing : Bool) (p : HeadPc)
  /-- At `log.lh.n = 0`. -/
  | clear
  deriving DecidableEq

/-- The test of the loops of `write_log` and `install_trans`. -/
def CommitPc.loop (lh : List ℕ) (installing : Bool) (tail : ℕ) : CommitPc :=
  if tail < lh.length then .copy installing tail .get1
  else if installing then .clear else .head false .get

/-- The pass has reached its two `brelse`. -/
def CopyPc.releasing : CopyPc → Bool
  | .rel1 _ _ | .unref1 _ _ | .rel2 _ | .unref2 _ => true
  | _ => false

/-- The handles that a pass has, for the log block `l` and the home block `b`. -/
def CopyPc.handles (installing : Bool) (l b : ℕ) : CopyPc → List Handle
  | .get1 => []
  | .lock1 i => [⟨i, l, .waiting⟩]
  | .read1 i => [⟨i, l, .locked⟩]
  | .get2 i => [⟨i, l, .held⟩]
  | .lock2 i j => [⟨j, b, .waiting⟩, ⟨i, l, .held⟩]
  | .read2 i j => [⟨j, b, .locked⟩, ⟨i, l, .held⟩]
  | .move i j | .write i j | .unpin i j => [⟨j, b, .held⟩, ⟨i, l, .held⟩]
  | .rel1 x y => [⟨x, if installing then l else b, .held⟩, ⟨y, if installing then b else l, .held⟩]
  | .unref1 x y =>
    [⟨x, if installing then l else b, .releasing⟩, ⟨y, if installing then b else l, .held⟩]
  | .rel2 y => [⟨y, if installing then b else l, .held⟩]
  | .unref2 y => [⟨y, if installing then b else l, .releasing⟩]

/-- The handles that `write_head` has. -/
def HeadPc.handles (start : ℕ) : HeadPc → List Handle
  | .get => []
  | .lock i => [⟨i, start, .waiting⟩]
  | .read i => [⟨i, start, .locked⟩]
  | .put i | .write i | .rel i => [⟨i, start, .held⟩]
  | .unref i => [⟨i, start, .releasing⟩]

/-- The handles that `commit` has. -/
def CommitPc.handles (start : ℕ) (lh : List ℕ) : CommitPc → List Handle
  | .copy installing tail p => p.handles installing (start + tail + 1) (lh.getD tail 0)
  | .head _ p => p.handles start
  | _ => []

/-- The blocks that are pinned: those of the header, until `install_trans` unpins them. -/
def CommitPc.pins (lh : List ℕ) : CommitPc → List ℕ
  | .copy true tail p => lh.drop (if p.releasing then tail + 1 else tail)
  | .skip | .clear => []
  | _ => lh

/-! ### The system -/

/-- A reference of a client, from its `bget` to the end of its `brelse`. -/
structure Ref (T : Type) where
  who : T
  handle : Handle
  /-- The client has stored to the buffer since its last `log_write`. -/
  dirty : Bool
  deriving DecidableEq

/-- The reference at another stage. -/
def Ref.at {T : Type} (r : Ref T) (st : Stage) : Ref T :=
  { r with handle := { r.handle with stage := st } }

structure CacheSys (T : Type) where
  group : GroupLog T
  cache : Bcache
  disk : ℕ → Block
  refs : List (Ref T)
  pc : CommitPc
  /-- History: the stores of the clients. -/
  stores : List (ℕ × Block)

inductive CacheAct (T : Type)
  | bget (t : T) (dev blockno : ℕ)
  | acquiresleep (r : Ref T)
  | fill (r : Ref T)
  | store (r : Ref T) (v : Block)
  | logWrite (r : Ref T)
  | releasesleep (r : Ref T)
  | brelse (r : Ref T)
  | beginOp (t : T)
  | wake (t : T)
  | endOp (t : T)
  | startCommit (t : T)
  | commit (t : T)
  | clearHead (t : T)
  | endCommit (t : T)

/-- The panics. -/
inductive CacheStop
  | noBuffers
  | log (p : LogPanic)
  deriving DecidableEq

/-- A cache with no references in which the valid buffers of the device are as on its disk `d`, such
as `binit` makes it and as a recovery leaves it. -/
structure Bcache.Fresh (c : Bcache) (dev : ℕ) (d : ℕ → Block) : Prop where
  mem : ∀ i, i ∈ c.lru
  refcnt : ∀ i, (c.buf i).refcnt = 0
  locked : ∀ i, (c.buf i).locked = false
  unique : ∀ i j, (c.buf i).dev = dev → (c.buf j).dev = dev →
    (c.buf i).blockno = (c.buf j).blockno → i = j
  data : ∀ i, (c.buf i).dev = dev → (c.buf i).valid → (c.buf i).data = d (c.buf i).blockno

theorem Bcache.binit_fresh {dev : ℕ} (hdev : dev ≠ 0) (d : ℕ → Block) :
    Bcache.binit.Fresh dev d := by
  constructor
  · intro i; simp [Bcache.binit]
  · intro i; rfl
  · intro i; rfl
  · intro i j hi; exact absurd hi.symm hdev
  · intro i hi; exact absurd hi.symm hdev

namespace CacheSys

variable {T : Type} [DecidableEq T]

/-- The log and its processes as `initlog` leaves them, with a cache and a disk. -/
def init (start size dev : ℕ) (c : Bcache) (d : ℕ → Block) : CacheSys T where
  group := GroupLog.init start size dev
  cache := c
  disk := d
  refs := []
  pc := .out
  stores := []

/-- A step of the log, with what it does to the rest of the system. -/
def lift (s : Option (Except LogPanic (GroupLog T))) (f : GroupLog T → CacheSys T) :
    Option (Except CacheStop (CacheSys T)) :=
  s.map fun
    | .ok g => .ok (f g)
    | .error e => .error (.log e)

/-- `bget` in `commit`. -/
def commitBget (s : CacheSys T) (blockno : ℕ) (pc : Fin nBuf → CommitPc) :
    Option (Except CacheStop (CacheSys T)) :=
  match s.cache.bget s.group.log.dev blockno with
  | none => some (.error .noBuffers)
  | some (c, i) => some (.ok { s with cache := c, pc := pc i })

/-- `acquiresleep` in `commit`. -/
def commitLock (s : CacheSys T) (i : Fin nBuf) (pc : CommitPc) :
    Option (Except CacheStop (CacheSys T)) :=
  (s.cache.acquiresleep i).map fun c => .ok { s with cache := c, pc }

/-- `bwrite` in `commit`. -/
def commitWrite (s : CacheSys T) (i : Fin nBuf) (pc : CommitPc) :
    Option (Except CacheStop (CacheSys T)) :=
  some (.ok { s with
    disk := Function.update s.disk (s.cache.buf i).blockno (s.cache.buf i).data
    pc })

/-- The next step of a pass of `write_log` or `install_trans`. -/
def copyStep (s : CacheSys T) (installing : Bool) (tail : ℕ) (p : CopyPc) :
    Option (Except CacheStop (CacheSys T)) :=
  let pc := CommitPc.copy installing tail
  match p with
  | .get1 => s.commitBget (s.group.log.start + tail + 1) fun i => pc (.lock1 i)
  | .lock1 i => s.commitLock i (pc (.read1 i))
  | .read1 i => some (.ok { s with cache := s.cache.fill s.disk i, pc := pc (.get2 i) })
  | .get2 i => s.commitBget (s.group.log.lh.getD tail 0) fun j => pc (.lock2 i j)
  | .lock2 i j => s.commitLock j (pc (.read2 i j))
  | .read2 i j => some (.ok { s with cache := s.cache.fill s.disk j, pc := pc (.move i j) })
  | .move i j =>
    -- `write_log` copies to the log block, `install_trans` from it
    some (.ok { s with
      cache := if installing then s.cache.memmove j (s.cache.buf i).data
        else s.cache.memmove i (s.cache.buf j).data
      pc := pc (.write i j) })
  | .write i j =>
    if installing then s.commitWrite j (pc (.unpin i j)) else s.commitWrite i (pc (.rel1 j i))
  | .unpin i j => some (.ok { s with cache := s.cache.bunpin j, pc := pc (.rel1 i j) })
  | .rel1 x y => some (.ok { s with cache := s.cache.releasesleep x, pc := pc (.unref1 x y) })
  | .unref1 x y => some (.ok { s with cache := s.cache.brelse x, pc := pc (.rel2 y) })
  | .rel2 y => some (.ok { s with cache := s.cache.releasesleep y, pc := pc (.unref2 y) })
  | .unref2 y => some (.ok { s with
      cache := s.cache.brelse y
      pc := .loop s.group.log.lh installing (tail + 1) })

/-- The next step of `write_head`. -/
def headStep (s : CacheSys T) (erasing : Bool) (p : HeadPc) :
    Option (Except CacheStop (CacheSys T)) :=
  let pc := CommitPc.head erasing
  match p with
  | .get => s.commitBget s.group.log.start fun i => pc (.lock i)
  | .lock i => s.commitLock i (pc (.read i))
  | .read i => some (.ok { s with cache := s.cache.fill s.disk i, pc := pc (.put i) })
  | .put i => some (.ok { s with
      cache := s.cache.memmove i (putHeader (s.cache.buf i).data s.group.log.lh)
      pc := pc (.write i) })
  | .write i => s.commitWrite i (pc (.rel i))
  | .rel i => some (.ok { s with cache := s.cache.releasesleep i, pc := pc (.unref i) })
  | .unref i => some (.ok { s with
      cache := s.cache.brelse i
      pc := if erasing then .out else .loop s.group.log.lh true 0 })

/-- One step of the system. -/
def step (s : CacheSys T) : CacheAct T → Option (Except CacheStop (CacheSys T))
  | .bget t dev blockno =>
    match s.cache.bget dev blockno with
    | none => some (.error .noBuffers)
    | some (c, i) => some (.ok { s with
        cache := c
        refs := ⟨t, ⟨i, blockno, .waiting⟩, false⟩ :: s.refs })
  | .acquiresleep r =>
    if r ∈ s.refs ∧ r.handle.stage = .waiting then
      (s.cache.acquiresleep r.handle.buf).map fun c => .ok { s with
        cache := c
        refs := r.at .locked :: s.refs.erase r }
    else none
  | .fill r =>
    if r ∈ s.refs ∧ r.handle.stage = .locked then
      some (.ok { s with
        cache := s.cache.fill s.disk r.handle.buf
        refs := r.at .held :: s.refs.erase r })
    else none
  | .store r v =>
    if r ∈ s.refs ∧ r.handle.stage = .held ∧ s.group.phase r.who = .inOp then
      some (.ok { s with
        cache := s.cache.memmove r.handle.buf v
        refs := { r with dirty := true } :: s.refs.erase r
        stores := s.stores ++ [(r.handle.blockno, v)] })
    else none
  | .logWrite r =>
    if r ∈ s.refs ∧ r.handle.stage = .held then
      let blockno := (s.cache.buf r.handle.buf).blockno
      lift (s.group.step (.logWrite r.who blockno)) fun g => { s with
        group := g
        cache := match s.group.log.logWrite blockno with
          | .ok (_, true) => s.cache.bpin r.handle.buf
          | _ => s.cache
        refs := { r with dirty := false } :: s.refs.erase r }
    else none
  | .releasesleep r =>
    if r ∈ s.refs ∧ r.handle.stage = .held ∧ r.dirty = false then
      some (.ok { s with
        cache := s.cache.releasesleep r.handle.buf
        refs := r.at .releasing :: s.refs.erase r })
    else none
  | .brelse r =>
    if r ∈ s.refs ∧ r.handle.stage = .releasing then
      some (.ok { s with cache := s.cache.brelse r.handle.buf, refs := s.refs.erase r })
    else none
  | .beginOp t => lift (s.group.step (.beginOp t)) fun g => { s with group := g }
  | .wake t => lift (s.group.step (.wake t)) fun g => { s with group := g }
  | .endOp t => lift (s.group.step (.endOp t)) fun g => { s with group := g }
  | .startCommit t =>
    lift (s.group.step (.startCommit t)) fun g => { s with
      group := g
      pc := if s.group.log.lh.length > 0 then .loop s.group.log.lh false 0 else .skip }
  | .commit t =>
    if s.group.phase t = .committing ∨ s.group.phase t = .cleared then
      match s.pc with
      | .copy installing tail p => s.copyStep installing tail p
      | .head erasing p => s.headStep erasing p
      | _ => none
    else none
  | .clearHead t =>
    match s.pc with
    | .clear => lift (s.group.step (.clearHead t)) fun g => { s with
        group := g
        pc := .head true .get }
    | .skip => lift (s.group.step (.clearHead t)) fun g => { s with group := g, pc := .out }
    | _ => none
  | .endCommit t =>
    if s.pc = .out then lift (s.group.step (.endCommit t)) fun g => { s with group := g }
    else none

/-- What the clients are asked for: they use the log's device, and they store and log only blocks
outside the log region. -/
def Plain (start size dev : ℕ) : CacheSys T → CacheAct T → Prop
  | _, .bget _ dev' _ => dev' = dev
  | _, .store r _ | _, .logWrite r => LogMachine.Home start size r.handle.blockno
  | _, _ => True

instance (start size dev : ℕ) (s : CacheSys T) (a : CacheAct T) :
    Decidable (Plain start size dev s a) := by
  cases a <;> unfold Plain <;> infer_instance

/-! ### The invariant -/

/-- Every handle that is out. -/
def handles (s : CacheSys T) : Multiset Handle :=
  (s.pc.handles s.group.log.start s.group.log.lh : Multiset Handle) +
    (s.refs.map Ref.handle : Multiset Handle)

/-- A client has stored to the block and not yet called `log_write`. -/
def Dirty (s : CacheSys T) (b : ℕ) : Prop := ∃ r ∈ s.refs, r.dirty = true ∧ r.handle.blockno = b

/-- The first `n` blocks of the header have been copied to the log. -/
def Copied (start : ℕ) (lh : List ℕ) (disk arr : ℕ → Block) (n : ℕ) : Prop :=
  ∀ k < n, disk (start + k + 1) = arr (lh.getD k 0)

/-- What is known where `commit` is. -/
def PcOk (start : ℕ) (lh : List ℕ) (disk arr : ℕ → Block) : CommitPc → Prop
  | .copy false tail p => tail < lh.length ∧ (∀ i j, p ≠ .unpin i j) ∧
      Copied start lh disk arr (if p.releasing then tail + 1 else tail)
  | .copy true tail p => tail < lh.length ∧ Copied start lh disk arr lh.length ∧
      ∀ i j, p = .unpin i j → disk (lh.getD tail 0) = arr (lh.getD tail 0)
  | .head false _ => Copied start lh disk arr lh.length
  | _ => True

/-- The buffer of the log region that `commit` has filled and not yet written. -/
def MidOk (lh : List ℕ) (arr : ℕ → Block) : CommitPc → Option (Fin nBuf × Block) → Prop
  | .copy false tail (.write i _), mid => mid = some (i, arr (lh.getD tail 0))
  | .head _ (.write i), mid => ∃ v, mid = some (i, v)
  | _, mid => mid = none

variable [Fintype T]

/-- **The invariant**, for a log of `size` blocks at `start` of device `dev`, and a disk that held
`d` in the beginning. -/
structure Inv (start size dev : ℕ) (d : ℕ → Block) (s : CacheSys T) : Prop where
  group : s.group.Inv
  logStart : s.group.log.start = start
  logSize : s.group.log.size = size
  logDev : s.group.log.dev = dev
  homes : ∀ b ∈ s.group.log.lh, LogMachine.Home start size b
  fits : s.group.log.lh.length = 0 ∨ s.group.log.lh.length < size
  idle : (∀ t, ¬ s.group.InCommit t) → s.pc = .out
  room : s.pc = .out ∨ s.pc = .skip ∨ 0 < size
  dirty : ∀ r ∈ s.refs, r.dirty = true → r.handle.stage = .held
  pc : PcOk start s.group.log.lh s.disk (applyAll d s.stores) s.pc
  cache : ∃ mid, MidOk s.group.log.lh (applyAll d s.stores) s.pc mid ∧
    s.cache.Inv dev (LogMachine.Home start size) s.disk (applyAll d s.stores)
      (s.pc.pins s.group.log.lh) s.Dirty mid s.handles

/-! ### The clients -/

section Clients

variable {start size dev : ℕ} {d : ℕ → Block} {s : CacheSys T} {r : Ref T} {c : Bcache}

section

omit [Fintype T]

theorem handles_eq_cons (hr : r ∈ s.refs) : s.handles = r.handle ::ₘ
    ((s.pc.handles s.group.log.start s.group.log.lh : Multiset Handle) +
      ((s.refs.erase r).map Ref.handle : Multiset Handle)) := by
  have hperm : ((s.refs.map Ref.handle : List Handle) : Multiset Handle) =
      ((r :: s.refs.erase r).map Ref.handle : List Handle) :=
    Multiset.coe_eq_coe.2 ((perm_cons_erase hr).map _)
  rw [handles, hperm, map_cons, ← cons_coe, add_cons]

theorem dirty_erase (hr : r.dirty = false) {refs : List (Ref T)}
    (hrefs : ∀ x ∈ refs, x.dirty = true → x ∈ s.refs.erase r)
    (hsub : ∀ x ∈ s.refs.erase r, x ∈ refs) :
    Dirty { s with cache := c, refs := refs } = s.Dirty := by
  funext b
  refine propext ⟨?_, ?_⟩
  · rintro ⟨x, hx, hd, hb⟩
    exact ⟨x, mem_of_mem_erase (hrefs x hx hd), hd, hb⟩
  · rintro ⟨x, hx, hd, hb⟩
    have hne : x ≠ r := fun heq => by simp [heq, hr] at hd
    exact ⟨x, hsub x ((mem_erase_of_ne hne).2 hx), hd, hb⟩

omit [DecidableEq T]

theorem handles_cons (r : Ref T) (refs : List (Ref T)) (c : Bcache) :
    handles { s with cache := c, refs := r :: refs } = r.handle ::ₘ
      ((s.pc.handles s.group.log.start s.group.log.lh : Multiset Handle) +
        (refs.map Ref.handle : Multiset Handle)) := by
  rw [handles, map_cons, ← cons_coe, add_cons]

theorem MidOk.mem_handles {start : ℕ} {lh : List ℕ} {arr : ℕ → Block} {pc : CommitPc}
    {mid : Option (Fin nBuf × Block)} (h : MidOk lh arr pc mid) {i : Fin nBuf} {v : Block}
    (hmid : mid = some (i, v)) : ∃ x ∈ pc.handles start lh, x.buf = i ∧ x.stage = .held := by
  unfold MidOk at h
  split at h
  · obtain ⟨rfl, -⟩ := Prod.mk.inj (Option.some.inj (hmid.symm.trans h))
    exact ⟨_, mem_cons_of_mem _ mem_cons_self, rfl, rfl⟩
  · obtain ⟨w, hw⟩ := h
    obtain ⟨rfl, -⟩ := Prod.mk.inj (Option.some.inj (hmid.symm.trans hw))
    exact ⟨_, mem_cons_self, rfl, rfl⟩
  · rw [h] at hmid
    cases hmid

end

variable (h : Inv start size dev d s)

include h

section

omit [DecidableEq T]

theorem Inv.client {refs : List (Ref T)}
    (hheld : ∀ r ∈ refs, r.dirty = true → r.handle.stage = .held)
    (hdirty : Dirty { s with cache := c, refs := refs } = s.Dirty)
    (hc : ∀ mid, s.cache.Inv dev (LogMachine.Home start size) s.disk (applyAll d s.stores)
      (s.pc.pins s.group.log.lh) s.Dirty mid s.handles →
      c.Inv dev (LogMachine.Home start size) s.disk (applyAll d s.stores)
        (s.pc.pins s.group.log.lh) s.Dirty mid (handles { s with cache := c, refs := refs })) :
    Inv start size dev d { s with cache := c, refs := refs } := by
  obtain ⟨mid, hmid, hcache⟩ := h.cache
  exact ⟨h.group, h.logStart, h.logSize, h.logDev, h.homes, h.fits, h.idle, h.room, hheld, h.pc,
    mid, hmid, by rw [hdirty]; exact hc mid hcache⟩

theorem Inv.clientBget {t : T} {b : ℕ} {i : Fin nBuf} (hc : s.cache.bget dev b = some (c, i)) :
    Inv start size dev d { s with
      cache := c
      refs := ⟨t, ⟨i, b, .waiting⟩, false⟩ :: s.refs } := by
  refine h.client ?_ ?_ ?_
  · intro x hx hd
    rcases mem_cons.1 hx with rfl | hx
    · cases hd
    · exact h.dirty x hx hd
  · funext p
    simp [Dirty]
  · intro mid hinv
    rw [handles_cons]
    exact hinv.bget hc

theorem Inv.not_dirty_of_stage (hr : r ∈ s.refs) (hst : r.handle.stage ≠ .held) :
    r.dirty = false := by
  by_contra hd
  exact hst (h.dirty r hr (by simpa using hd))

theorem Inv.pc_eq_out {t : T} (ht : s.group.phase t = .inOp) : s.pc = .out :=
  h.idle fun q hq => h.group.alone q t (GroupLog.Commits.of_inCommit hq) ht

end

variable (hr : r ∈ s.refs)

include hr

theorem Inv.moveRef (hclean : r.dirty = false) {st : Stage}
    (hc : ∀ mid R, s.cache.Inv dev (LogMachine.Home start size) s.disk (applyAll d s.stores)
      (s.pc.pins s.group.log.lh) s.Dirty mid (r.handle ::ₘ R) →
      c.Inv dev (LogMachine.Home start size) s.disk (applyAll d s.stores)
        (s.pc.pins s.group.log.lh) s.Dirty mid ((r.at st).handle ::ₘ R)) :
    Inv start size dev d { s with cache := c, refs := r.at st :: s.refs.erase r } := by
  refine h.client ?_ ?_ ?_
  · intro x hx hd
    rcases mem_cons.1 hx with rfl | hx
    · simp [Ref.at, hclean] at hd
    · exact h.dirty x (mem_of_mem_erase hx) hd
  · refine dirty_erase hclean ?_ fun x hx => mem_cons_of_mem _ hx
    intro x hx hd
    rcases mem_cons.1 hx with rfl | hx
    · simp [Ref.at, hclean] at hd
    · exact hx
  · intro mid hinv
    rw [handles_eq_cons hr] at hinv
    rw [handles_cons]
    exact hc mid _ hinv

theorem Inv.clientAcquire (hst : r.handle.stage = .waiting)
    (hc : s.cache.acquiresleep r.handle.buf = some c) :
    Inv start size dev d { s with cache := c, refs := r.at .locked :: s.refs.erase r } := by
  refine h.moveRef hr (h.not_dirty_of_stage hr (by simp [hst])) fun mid R hinv => ?_
  have hrh : r.handle = ⟨r.handle.buf, r.handle.blockno, .waiting⟩ := by rw [← hst]
  rw [hrh] at hinv
  exact hinv.acquiresleep hc

theorem Inv.clientFill (hst : r.handle.stage = .locked) :
    Inv start size dev d { s with
      cache := s.cache.fill s.disk r.handle.buf
      refs := r.at .held :: s.refs.erase r } := by
  refine h.moveRef hr (h.not_dirty_of_stage hr (by simp [hst])) fun mid R hinv => ?_
  have hrh : r.handle = ⟨r.handle.buf, r.handle.blockno, .locked⟩ := by rw [← hst]
  rw [hrh] at hinv
  exact hinv.fill

theorem Inv.blockno_ne {x : Ref T} (hx : x ∈ s.refs.erase r) (hro : r.handle.stage.Owns)
    (hxo : x.handle.stage.Owns) : r.handle.blockno ≠ x.handle.blockno := by
  obtain ⟨mid, -, hinv⟩ := h.cache
  have hrefs := hinv.refs
  rw [handles_eq_cons hr] at hrefs
  have hmem : x.handle ∈ ((s.refs.erase r).map Ref.handle : Multiset Handle) :=
    mem_coe.2 (mem_map_of_mem hx)
  obtain ⟨S, hS⟩ := Multiset.exists_cons_of_mem hmem
  rw [hS, add_cons] at hrefs
  exact hrefs.blockno_ne hro hxo

/-- A reference of a client and a handle of `commit` that own sleep-locks are of different
buffers and of different blocks. -/
theorem Inv.ne_commit {x : Handle} (hx : x ∈ s.pc.handles s.group.log.start s.group.log.lh)
    (hro : r.handle.stage.Owns) (hxo : x.stage.Owns) :
    r.handle.buf ≠ x.buf ∧ r.handle.blockno ≠ x.blockno := by
  obtain ⟨mid, -, hinv⟩ := h.cache
  have hrefs := hinv.refs
  rw [handles_eq_cons hr] at hrefs
  obtain ⟨S, hS⟩ := Multiset.exists_cons_of_mem (mem_coe.2 hx)
  rw [hS, Multiset.cons_add] at hrefs
  exact ⟨hrefs.buf_ne hro hxo, hrefs.blockno_ne hro hxo⟩

theorem Inv.clientRelease (hst : r.handle.stage = .held) (hclean : r.dirty = false) :
    Inv start size dev d { s with
      cache := s.cache.releasesleep r.handle.buf
      refs := r.at .releasing :: s.refs.erase r } := by
  have hro : r.handle.stage.Owns := by rw [hst]; rfl
  have hrh : r.handle = ⟨r.handle.buf, r.handle.blockno, .held⟩ := by rw [← hst]
  -- a dirty reference to the same block would own the same sleep-lock
  have hnd : ¬ s.Dirty r.handle.blockno := by
    rintro ⟨x, hx, hd, hb⟩
    have hne : x ≠ r := fun heq => by simp [heq, hclean] at hd
    exact h.blockno_ne hr ((mem_erase_of_ne hne).2 hx) hro (by rw [h.dirty x hx hd]; rfl)
      hb.symm
  obtain ⟨mid, hmid, hcache⟩ := h.cache
  have hnm : ∀ v, mid ≠ some (r.handle.buf, v) := fun v hv => by
    obtain ⟨x, hx, hbuf, hxst⟩ := hmid.mem_handles hv
    exact (h.ne_commit hr hx hro (by rw [hxst]; rfl)).1 hbuf.symm
  rw [handles_eq_cons hr, hrh] at hcache
  refine ⟨h.group, h.logStart, h.logSize, h.logDev, h.homes, h.fits, h.idle, h.room, ?_, h.pc,
    mid, hmid, ?_⟩
  · intro x hx hd
    rcases mem_cons.1 hx with rfl | hx
    · simp [Ref.at, hclean] at hd
    · exact h.dirty x (mem_of_mem_erase hx) hd
  · rw [dirty_erase hclean (fun x hx hd => ?_) fun x hx => mem_cons_of_mem _ hx, handles_cons]
    · exact hcache.releasesleep hnd hnm
    · rcases mem_cons.1 hx with rfl | hx
      · simp [Ref.at, hclean] at hd
      · exact hx

theorem Inv.clientBrelse (hst : r.handle.stage = .releasing) :
    Inv start size dev d { s with
      cache := s.cache.brelse r.handle.buf
      refs := s.refs.erase r } := by
  have hclean := h.not_dirty_of_stage hr (by simp [hst])
  have hrh : r.handle = ⟨r.handle.buf, r.handle.blockno, .releasing⟩ := by rw [← hst]
  refine h.client ?_ (dirty_erase hclean (fun x hx _ => hx) fun x hx => hx) ?_
  · intro x hx hd
    exact h.dirty x (mem_of_mem_erase hx) hd
  · intro mid hinv
    rw [handles_eq_cons hr, hrh] at hinv
    exact hinv.brelse

section

variable (hst : r.handle.stage = .held) (hop : s.group.phase r.who = .inOp)
  (hhome : LogMachine.Home start size r.handle.blockno)

include hst hop hhome

theorem Inv.clientStore (v : Block) :
    Inv start size dev d { s with
      cache := s.cache.memmove r.handle.buf v
      refs := { r with dirty := true } :: s.refs.erase r
      stores := s.stores ++ [(r.handle.blockno, v)] } := by
  have hpc := h.pc_eq_out hop
  obtain ⟨mid, hmid, hcache⟩ := h.cache
  have harr : applyAll d (s.stores ++ [(r.handle.blockno, v)]) =
      Function.update (applyAll d s.stores) r.handle.blockno v := by
    rw [applyAll_append, applyAll_cons, applyAll_nil]
  refine ⟨h.group, h.logStart, h.logSize, h.logDev, h.homes, h.fits, h.idle, h.room, ?_, ?_,
    none, ?_, ?_⟩
  · intro x hx hd
    rcases mem_cons.1 hx with rfl | hx
    · exact hst
    · exact h.dirty x (mem_of_mem_erase hx) hd
  · simp only [hpc, PcOk]
  · simp only [hpc, MidOk]
  · rw [hpc] at hmid
    obtain rfl : mid = none := hmid
    rw [harr]
    have hmem : r.handle ∈ s.handles := by
      rw [handles_eq_cons hr]; exact Multiset.mem_cons_self ..
    have hhandles : handles { s with
        cache := s.cache.memmove r.handle.buf v
        refs := { r with dirty := true } :: s.refs.erase r
        stores := s.stores ++ [(r.handle.blockno, v)] } = s.handles := by
      rw [handles_eq_cons hr, handles, map_cons, ← cons_coe, add_cons]
    rw [hhandles]
    refine hcache.store hmem hst hhome v fun b => ⟨?_, ?_⟩
    · rintro ⟨x, hx, hd, hb⟩
      rcases mem_cons.1 hx with rfl | hx
      · exact .inr hb.symm
      · exact .inl ⟨x, mem_of_mem_erase hx, hd, hb⟩
    · rintro (⟨x, hx, hd, hb⟩ | rfl)
      · by_cases hxr : x = r
        · exact ⟨{ r with dirty := true }, mem_cons_self, rfl, hxr ▸ hb⟩
        · exact ⟨x, mem_cons_of_mem _ ((mem_erase_of_ne hxr).2 hx), hd, hb⟩
      · exact ⟨{ r with dirty := true }, mem_cons_self, rfl, rfl⟩

theorem Inv.clientLogWrite {s' : CacheSys T} (hg : s'.group.Inv)
    (hroom : s.group.log.lh.length + 1 < size) (hlog : s'.group.log = { s.group.log with
      lh := if r.handle.blockno ∈ s.group.log.lh then s.group.log.lh
        else s.group.log.lh ++ [r.handle.blockno] })
    (hcache : s'.cache = if r.handle.blockno ∈ s.group.log.lh then s.cache
      else s.cache.bpin r.handle.buf)
    (hrefs : s'.refs = { r with dirty := false } :: s.refs.erase r) (hpc' : s'.pc = s.pc)
    (hdisk : s'.disk = s.disk) (hstores : s'.stores = s.stores) : Inv start size dev d s' := by
  have hpc := h.pc_eq_out hop
  obtain ⟨mid, hmid, hinv⟩ := h.cache
  have hmem : r.handle ∈ s.handles := by
    rw [handles_eq_cons hr]; exact Multiset.mem_cons_self ..
  rw [hpc] at hmid hpc'
  obtain rfl : mid = none := hmid
  have hdirty : ∀ p, s'.Dirty p → s.Dirty p := by
    rintro p ⟨x, hx, hd, hb⟩
    rw [hrefs] at hx
    rcases mem_cons.1 hx with rfl | hx
    · cases hd
    · exact ⟨x, mem_of_mem_erase hx, hd, hb⟩
  have hdirty' : ∀ p, s.Dirty p → p ≠ r.handle.blockno → s'.Dirty p := by
    rintro p ⟨x, hx, hd, hb⟩ hp
    have hxr : x ≠ r := fun heq => hp (by rw [← hb, heq])
    exact ⟨x, by rw [hrefs]; exact mem_cons_of_mem _ ((mem_erase_of_ne hxr).2 hx), hd, hb⟩
  have hhandles : s'.handles = s.handles := by
    rw [handles_eq_cons hr, handles, hrefs, hpc', hpc, map_cons, ← cons_coe]
    rfl
  have hlh : s'.group.log.lh = if r.handle.blockno ∈ s.group.log.lh then s.group.log.lh
      else s.group.log.lh ++ [r.handle.blockno] := by rw [hlog]
  refine ⟨hg, by rw [hlog]; exact h.logStart, by rw [hlog]; exact h.logSize,
    by rw [hlog]; exact h.logDev, ?_, ?_, fun _ => hpc', .inl hpc', ?_, ?_, none, ?_, ?_⟩
  · intro b hb
    rw [hlh] at hb
    split at hb
    · exact h.homes b hb
    · rcases mem_append.1 hb with hb | hb
      · exact h.homes b hb
      · rw [mem_singleton.1 hb]; exact hhome
  · rw [hlh]
    split
    · exact h.fits
    · rw [length_append]
      exact .inr hroom
  · intro x hx hd
    rw [hrefs] at hx
    rcases mem_cons.1 hx with rfl | hx
    · cases hd
    · exact h.dirty x (mem_of_mem_erase hx) hd
  · simp only [hpc', PcOk]
  · simp only [hpc', MidOk]
  · rw [hhandles, hdisk, hstores, hpc', hlh, hcache]
    simp only [hpc, CommitPc.pins] at hinv ⊢
    by_cases hb : r.handle.blockno ∈ s.group.log.lh
    · simp only [if_pos hb]
      exact hinv.logged hb hdirty hdirty'
    · simp only [if_neg hb]
      exact (hinv.bpin hmem hst hb).logged (by simp) hdirty hdirty'

end

end Clients

/-! ### Beginning and ending an operation -/

section Group

variable {start size dev : ℕ} {d : ℕ → Block} {s : CacheSys T}

omit [DecidableEq T] in
theorem Inv.ofGroup (h : Inv start size dev d s) {g : GroupLog T} (hg : g.Inv)
    (hstart : g.log.start = s.group.log.start) (hsize : g.log.size = s.group.log.size)
    (hdev : g.log.dev = s.group.log.dev) (hlh : g.log.lh = s.group.log.lh)
    (hidle : (∀ t, ¬ g.InCommit t) → s.pc = .out) : Inv start size dev d { s with group := g } := by
  obtain ⟨mid, hmid, hcache⟩ := h.cache
  have hhandles : handles { s with group := g } = s.handles := by
    simp only [handles, hstart, hlh]
  refine ⟨hg, hstart.trans h.logStart, hsize.trans h.logSize, hdev.trans h.logDev, ?_, ?_, hidle,
    h.room, h.dirty, ?_, mid, ?_, ?_⟩
  · simpa only [hlh] using h.homes
  · simpa only [hlh] using h.fits
  · simpa only [hlh] using h.pc
  · simpa only [hlh] using hmid
  · rw [hhandles]
    simp only [hlh]
    exact hcache

theorem Inv.opStep (h : Inv start size dev d s) {a : LogAct T} {g : GroupLog T}
    (hg : s.group.step a = some (.ok g))
    (ha : (∃ t, a = .beginOp t) ∨ (∃ t, a = .wake t) ∨ ∃ t, a = .endOp t) :
    Inv start size dev d { s with group := g } := by
  have hgi := h.group.step hg
  -- none of these moves a process into or out of the commit
  have hupdate : ∀ {t : T} {ph : LogPhase}, ¬ s.group.InCommit t → ∀ {f : T → LogPhase},
      (∀ q, GroupLog.core (f q) = GroupLog.core (Function.update s.group.phase t ph q)) →
      (∀ q, ¬ (f q = .committing ∨ f q = .cleared)) → s.pc = .out := by
    intro t ph ht f hf hno
    refine h.idle fun q hq => hno q ?_
    have hqt : q ≠ t := fun heq => ht (heq ▸ hq)
    have hfq := hf q
    rw [Function.update_of_ne hqt] at hfq
    obtain ⟨-, -, h1, h2⟩ := GroupLog.core_eq_iff hfq
    exact hq.imp h1.2 h2.2
  cases GroupLog.move_of_step hg with
  | sleep t ht _ =>
    exact h.ofGroup hgi rfl rfl rfl rfl (hupdate (t := t)
      (by rcases ht with ht | ht <;> simp [GroupLog.InCommit, ht])
      fun _ => rfl)
  | begin t l ht hl =>
    obtain ⟨-, -, rfl⟩ := Log.beginOp_eq_some hl
    exact h.ofGroup hgi rfl rfl rfl rfl (hupdate (t := t)
      (by rcases ht with ht | ht <;> simp [GroupLog.InCommit, ht])
      fun _ => rfl)
  | wake t ht =>
    exact h.ofGroup hgi rfl rfl rfl rfl (hupdate (t := t)
      (by simp [GroupLog.InCommit, ht]) fun _ => rfl)
  | endLast t l ht hl =>
    obtain ⟨-, -, rfl⟩ := Log.endOp_ok hl
    exact h.ofGroup hgi rfl rfl rfl rfl (hupdate (t := t)
      (by simp [GroupLog.InCommit, ht]) fun _ => rfl)
  | endOther t l ht hl =>
    obtain ⟨-, -, rfl⟩ := Log.endOp_ok hl
    exact h.ofGroup hgi rfl rfl rfl rfl (hupdate (t := t)
      (by simp [GroupLog.InCommit, ht]) fun _ => GroupLog.core_wakePhase _)
  | _ => simp at ha

end Group

end CacheSys

end CsklubOs
