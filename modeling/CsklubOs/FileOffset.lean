/-
**Processes that share a file offset.**

`fileread` and `filewrite` of `kernel/file.c` for a file on disk: any number of processes read and
write through one `struct file`, whose offset is read and advanced under the lock of the inode.
`filewrite` splits a write into chunks, and between two of them other processes may read, write or
truncate.  What the rest of the system does to the file system in between is any change that keeps
the invariant of the inode layer.

Main definitions:

* `OffsetSys`, `step` — `ilock`, `readi` or `writei`, the addition to `f->off`, and `iunlock`;
* `Consecutive` — parts of the file of which each begins where the one before ends.

Main results:

* `shared_offset` — the parts that the calls have read and written are like that.
-/

import CsklubOs.FileBytes
import CsklubOs.Runs

set_option autoImplicit false

namespace CsklubOs

open Function List
open ByteSeq

/-! ### The code -/

/-- The fields of a `struct file` of type `FD_INODE` that do not change. -/
structure SharedFile where
  ip : IPtr
  readable : Bool
  writable : Bool

/-- The most that `filewrite` writes in one transaction. -/
def maxWrite : ℕ := (maxOpBlocks - 1 - 1 - 2) / 2 * bSize

/-- `n1`, the size of the chunk of `filewrite` from `i` on. -/
def chunk (n : ℤ) (i : ℕ) : ℕ := min (n - i).toNat maxWrite

namespace OffsetSys

/-- A section under the lock of the inode: that of `fileread`, with the destination that can be
written, or one of `filewrite`, with the bytes of the buffer that can be read. -/
inductive Job
  | read (n room : ℕ)
  | write (buf : List UInt8) (n : ℤ) (i : ℕ)
  deriving DecidableEq

/-- Where a process is in such a section: before `ilock`, before the call, before the addition to
`f->off`, before `iunlock`. -/
inductive Stage
  | want
  | locked
  | back (r : ℤ)
  | leave (r : ℤ)
  deriving DecidableEq

/-- Where a process is. -/
inductive Pc
  | idle
  | head (buf : List UInt8) (n : ℤ) (i : ℕ)
  | sec (c : Job) (st : Stage)
  | readDone (ret : ℤ)
  | writeDone (buf : List UInt8) (n ret : ℤ)
  deriving DecidableEq

/-- The process is not in a call. -/
def Pc.outside : Pc → Bool
  | .idle | .readDone _ | .writeDone _ _ _ => true
  | .head _ _ _ | .sec _ _ => false

/-- A call of `readi` or `writei` that returned `len > 0`, made by call number `call` of process
`who`. -/
structure Entry where
  who : ℕ
  call : ℕ
  job : Job
  start : ℕ
  len : ℕ
  bytes : List UInt8
  before : Fs
  after : Fs

end OffsetSys

/-- The file system, the holder of the inode's lock among the processes that share the file,
`f->off`, where the processes are and how many calls they have made, and the calls that moved bytes,
in order. -/
structure OffsetSys where
  fs : Fs
  holder : Option ℕ
  off : ℕ
  procs : ℕ → OffsetSys.Pc
  calls : ℕ → ℕ
  log : List OffsetSys.Entry

namespace OffsetSys

open Wp Fs

variable [Superblock]

/-- The call of `readi` or `writei` in a section: what it returns, and the bytes that were moved. -/
def Job.run (p : IPtr) (off : ℕ) : Job → FsM (ℤ × List UInt8)
  | .read n room => do
    match ← readi p off n room with
    | some bs => pure (bs.length, bs)
    | none => pure (-1, [])
  | .write buf n i => do
    match ← writei p (buf.drop i) off (chunk n i) with
    | some r => pure (r, (buf.drop i).take r)
    | none => pure (-1, [])

/-- What a process does next that leaves a section with `r`. -/
def Job.next (r : ℤ) : Job → Pc
  | .read _ _ => .readDone r
  | .write buf n i =>
    if r = chunk n i then .head buf n (i + r.toNat)
    else .writeDone buf n (if (i : ℤ) = n then n else -1)

/-- The actions of the system. -/
inductive Act
  /-- `fileread` is called; `n` is converted to `uint` for `readi` -/
  | fileread (who : ℕ) (n : ℤ) (room : ℕ)
  /-- `filewrite` is called with a buffer of which `buf` can be read -/
  | filewrite (who : ℕ) (buf : List UInt8) (n : ℤ)
  /-- `while(i < n)` -/
  | loop (who : ℕ)
  /-- `ilock(f->ip)` -/
  | ilock (who : ℕ)
  /-- `r = readi(.., f->off, ..)` or `r = writei(.., f->off, ..)` -/
  | io (who : ℕ)
  /-- `f->off += r` if `r > 0` -/
  | advance (who : ℕ)
  /-- `iunlock(f->ip)` -/
  | iunlock (who : ℕ)
  /-- the rest of the system -/
  | env (fs : Fs)

/-- The state after a process has gone on to `pc`. -/
def goto (s : OffsetSys) (who : ℕ) (pc : Pc) : OffsetSys :=
  { s with procs := update s.procs who pc }

/-- The state after a process has made a call that begins at `pc`. -/
def enter (s : OffsetSys) (who : ℕ) (pc : Pc) : OffsetSys :=
  { s.goto who pc with calls := update s.calls who (s.calls who + 1) }

/-- The calls that moved bytes after one more that returned `r`. -/
def record (s : OffsetSys) (who : ℕ) (c : Job) (r : ℤ × List UInt8) (fs : Fs) : List Entry :=
  if 0 < r.1 then s.log ++ [⟨who, s.calls who, c, s.off, r.1.toNat, r.2, s.fs, fs⟩] else s.log

/-- One step of the system. -/
def step (f : SharedFile) (s : OffsetSys) : Act → Option (Except FsPanic OffsetSys)
  | .fileread who n room =>
    if (s.procs who).outside then
      if f.readable then some (.ok (s.enter who (.sec (.read (n % 2 ^ 32).toNat room) .want)))
      else some (.ok (s.enter who (.readDone (-1))))
    else none
  | .filewrite who buf n =>
    if (s.procs who).outside then
      if f.writable then some (.ok (s.enter who (.head buf n 0)))
      else some (.ok (s.enter who (.writeDone buf n (-1))))
    else none
  | .loop who =>
    match s.procs who with
    | .head buf n i =>
      if (i : ℤ) < n then some (.ok (s.goto who (.sec (.write buf n i) .want)))
      else some (.ok (s.goto who (.writeDone buf n (if (i : ℤ) = n then n else -1))))
    | _ => none
  | .ilock who =>
    match s.procs who with
    | .sec c .want =>
      if s.holder = none then
        match Fs.ilock f.ip s.fs with
        | .ok (_, fs) =>
          some (.ok { s.goto who (.sec c .locked) with fs := fs, holder := some who })
        | .error e => some (.error e)
      else none
    | _ => none
  | .io who =>
    match s.procs who with
    | .sec c .locked =>
      match c.run f.ip s.off s.fs with
      | .ok (r, fs) =>
        some (.ok { s.goto who (.sec c (.back r.1)) with fs := fs, log := s.record who c r fs })
      | .error e => some (.error e)
    | _ => none
  | .advance who =>
    match s.procs who with
    | .sec c (.back r) =>
      some (.ok { s.goto who (.sec c (.leave r)) with
        off := if 0 < r then (s.off + r.toNat) % 2 ^ 32 else s.off })
    | _ => none
  | .iunlock who =>
    match s.procs who with
    | .sec c (.leave r) => some (.ok { s.goto who (c.next r) with holder := none })
    | _ => none
  | .env fs => some (.ok { s with fs := fs })

/-! ### One call of `readi` or `writei` -/

/-- What a call does to the bytes of inode `i` that moves `len` bytes from `start` on: a read
delivers them, and a chunk that is written as a whole replaces them. -/
def Effect (i start len : ℕ) (bytes : List UInt8) (before after : Fs) : Job → Prop
  | .read _ _ => bytes = ((contents before i).drop start).take len ∧ after = before
  | .write buf n k => bytes = (buf.drop k).take len ∧
      (len = chunk n k → contents after i = splice (contents before i) start bytes)

/-- What holds of a call that returned `r`. -/
structure Moved (i off : ℕ) (c : Job) (s : Fs) (r : ℤ × List UInt8) (s' : Fs) : Prop where
  length : r.2.length = r.1.toNat
  fits : off + r.1.toNat < 2 ^ 32
  effect : Effect i off r.1.toNat r.2 s s' c

variable {fs : Fs} {p : IPtr} {E : FsPanic → Prop} {R : Multiset IPtr}

variable {off w : ℕ} {buf : List UInt8} {n : ℤ} {c : Job} {t : OffsetSys} {fs : Fs}

section

variable (h : FsOk fs R) (hp : p ∈ R) (hv : (fs.itable p).valid = true)

include h hp hv

theorem wp_read {n room : ℕ} :
    wp ((Job.read n room).run p off) (fun r fs' => FsOk fs' R ∧ Kept R fs fs' ∧
      (0 < r.1 → Moved (fs.itable p).inum off (.read n room) fs r fs')) E fs := by
  rw [Job.run, wp_bind]
  refine wp_readi h hp hv ?_
  rw [readResult]
  by_cases hout : (fs.dinode (fs.itable p).inum).size < off ∨ 2 ^ 32 ≤ off + n
  · rw [if_pos hout]
    exact wp_pure.2 ⟨h, Kept.refl R fs, fun hpos => absurd hpos (by decide)⟩
  · rw [if_neg hout]
    by_cases hroom : room < min n ((fs.dinode (fs.itable p).inum).size - off)
    · rw [if_pos hroom]
      exact wp_pure.2 ⟨h, Kept.refl R fs, fun hpos => absurd hpos (by decide)⟩
    · rw [if_neg hroom, ← take_drop_contents]
      refine wp_pure.2 ⟨h, Kept.refl R fs, fun _ => ⟨rfl, ?_, ?_, rfl⟩⟩
      · rw [length_take, length_drop]
        omega
      · rw [Int.toNat_natCast, length_take, take_eq_take_iff, Nat.min_assoc, Nat.min_self]

theorem wp_write {i : ℕ} :
    wp ((Job.write buf n i).run p off) (fun r fs' => FsOk fs' R ∧ Kept R fs fs' ∧
      (0 < r.1 → Moved (fs.itable p).inum off (.write buf n i) fs r fs')) E fs := by
  have hd := (h.sync p hp hv).1
  rw [Job.run, wp_bind]
  by_cases hin : off ≤ (fs.itable p).d.size ∧ off + chunk n i < 2 ^ 32 ∧
      off + chunk n i ≤ maxFile * bSize
  · have hdone : wp (writei p (buf.drop i) off (chunk n i)) (fun r fs' => ∃ tot, r = some tot ∧
        FsOk fs' R ∧ Kept R fs fs' ∧ WriteDone p (buf.drop i) off (chunk n i) tot fs fs') E fs :=
      wp_writei h hp hv (fun hout => by rw [← hd] at hout; omega)
        fun tot s' h' hk hw => ⟨tot, rfl, h', hk, hw⟩
    have hend := wp_writei_end (E := E) (h.effOk hp hv) (buf.drop i) hin.1 hin.2.2
    refine (hdone.and hend).mono ?_
    rintro _ fs' ⟨⟨tot, rfl, h', hk, hw⟩, tot', s2, htot, hfin⟩
    obtain rfl := Option.some.inj htot
    have hle := hw.le
    refine wp_pure.2 ⟨h', hk, fun _ => ⟨?_, ?_, ?_⟩⟩
    · rw [Int.toNat_natCast, length_take, Nat.min_eq_left hfin.loop.le_src]
    · omega
    · refine ⟨rfl, fun hall => ?_⟩
      obtain ⟨a, ha⟩ := hw.dinode
      have hsize : (fs'.dinode (fs.itable p).inum).size =
          max (fs.dinode (fs.itable p).inum).size (off + tot) := by
        rw [ha, update_self]
      rw [hd] at hin
      exact (fbytes_eq_splice_iff hin.1 hfin.loop.le_src hsize).2
        (hw.bytes (hall ▸ hfin.loop.le_src))
  · refine (wp_of_ok (writei_refused hin)).2 (wp_pure.2 ⟨h, Kept.refl R fs, fun hpos => ?_⟩)
    exact absurd hpos (by decide)

/-- **A call of `readi` or `writei`** that returns a positive number moves that many bytes, at
offsets that do not wrap. -/
theorem wp_run :
    wp (c.run p off) (fun r fs' => FsOk fs' R ∧ Kept R fs fs' ∧
      (0 < r.1 → Moved (fs.itable p).inum off c fs r fs')) E fs := by
  cases c with
  | read n room => exact wp_read h hp hv
  | write buf n i => exact wp_write h hp hv

end

/-! ### Ranges that follow each other -/

section

omit [Superblock]

/-- How many bytes some calls moved. -/
def total (es : List Entry) : ℕ := (es.map Entry.len).sum

/-- The ranges of the calls follow each other, the first from `off` on. -/
def Consecutive (off : ℕ) : List Entry → Prop
  | [] => True
  | e :: es => e.start = off ∧ Consecutive (off + e.len) es

theorem total_append (es : List Entry) (e : Entry) : total (es ++ [e]) = total es + e.len := by
  simp [total]

theorem consecutive_append {es : List Entry} {e : Entry} (h : Consecutive off es)
    (he : e.start = off + total es) : Consecutive off (es ++ [e]) := by
  induction es generalizing off with
  | nil => exact ⟨he, trivial⟩
  | cons x es ih =>
    refine ⟨h.1, ih h.2 ?_⟩
    rw [he, total, map_cons, sum_cons, ← total, Nat.add_assoc]

/-- **Ranges that follow each other are disjoint.** -/
theorem Consecutive.pairwise {es : List Entry} (h : Consecutive off es) :
    (∀ e ∈ es, off ≤ e.start) ∧ es.Pairwise fun a b => a.start + a.len ≤ b.start := by
  induction es generalizing off with
  | nil => exact ⟨nofun, .nil⟩
  | cons x es ih =>
    obtain ⟨hx, hrest⟩ := h
    obtain ⟨hle, hpair⟩ := ih hrest
    refine ⟨fun e he => ?_, .cons (fun e he => ?_) hpair⟩
    · rcases mem_cons.1 he with rfl | he
      · exact hx.ge
      · exact le_trans (Nat.le_add_right _ _) (hle e he)
    · rw [hx]
      exact hle e he

/-! ### The invariant -/

/-- What the process at `pc` is about to add to the offset. -/
def Pc.owed : Pc → ℕ
  | .sec _ (.back r) => r.toNat
  | _ => 0

/-- What the holder of the lock is about to add to the offset. -/
def pending (s : OffsetSys) : ℕ := s.holder.elim 0 fun who => (s.procs who).owed

/-- The calls that moved bytes in the latest call of a process. -/
def mine (s : OffsetSys) (who : ℕ) : List Entry :=
  s.log.filter fun e => e.who = who ∧ e.call = s.calls who

/-- The latest call of a process has written the first `k` bytes of its buffer, in order and in
whole chunks. -/
structure Wrote (s : OffsetSys) (who : ℕ) (buf : List UInt8) (n : ℤ) (k : ℕ) : Prop where
  chunks : ∀ e ∈ s.mine who, ∃ i, e.job = .write buf n i ∧ e.len = chunk n i
  bytes : ((s.mine who).map Entry.bytes).flatten = buf.take k
  le : k ≤ buf.length

/-- What a process in `filewrite` has written so far. -/
def Progress (s : OffsetSys) (who : ℕ) : Pc → Prop
  | .head buf n i => i ≤ n.toNat ∧ s.Wrote who buf n i
  | .sec (.write buf n i) .want | .sec (.write buf n i) .locked => (i : ℤ) < n ∧ s.Wrote who buf n i
  | .sec (.write buf n i) (.back r) | .sec (.write buf n i) (.leave r) =>
    (i : ℤ) < n ∧ (r = chunk n i → s.Wrote who buf n (i + chunk n i))
  | .writeDone buf n ret => ret = n → s.Wrote who buf n n.toNat
  | .idle | .readDone _ | .sec (.read _ _) _ => True

end

/-- The inode of the file is `i`, and it is held. -/
def Held (f : SharedFile) (i : ℕ) (fs : Fs) : Prop :=
  ∃ R, FsOk fs R ∧ f.ip ∈ R ∧ (fs.itable f.ip).inum = i

/-- The state is in order, `off0` being the offset at the start. -/
structure Inv (f : SharedFile) (i off0 : ℕ) (s : OffsetSys) : Prop where
  held : Held f i s.fs
  valid : s.holder ≠ none → (s.fs.itable f.ip).valid = true
  excl : ∀ who c st, s.procs who = .sec c st → st ≠ .want → s.holder = some who
  chain : Consecutive off0 s.log
  off : s.off + s.pending = off0 + total s.log
  fits : s.off + s.pending < 2 ^ 32
  entries : ∀ e ∈ s.log, e.bytes.length = e.len ∧ Effect i e.start e.len e.bytes e.before e.after
    e.job
  old : ∀ e ∈ s.log, e.call ≤ s.calls e.who
  progress : ∀ who, s.Progress who (s.procs who)

/-- What the rest of the system may do: the inode stays held, and valid once it is. -/
def ok (f : SharedFile) (s : OffsetSys) : Act → Prop
  | .env fs => (∃ R, FsOk fs R ∧ f.ip ∈ R) ∧ (fs.itable f.ip).inum = (s.fs.itable f.ip).inum ∧
      ((s.fs.itable f.ip).valid = true → (fs.itable f.ip).valid = true)
  | _ => True

variable {f : SharedFile} {i off0 who : ℕ} {s s' : OffsetSys} {pc : Pc}

section

omit [Superblock]

theorem mine_congr {s : OffsetSys} (hlog : t.log = s.log) (hcalls : t.calls who = s.calls who) :
    t.mine who = s.mine who := by
  rw [mine, mine, hlog, hcalls]

theorem Wrote.congr {k : ℕ} (h : s.Wrote who buf n k) (hm : t.mine who = s.mine who) :
    t.Wrote who buf n k :=
  ⟨hm ▸ h.chunks, hm ▸ h.bytes, h.le⟩

theorem Progress.congr (h : s.Progress who pc) (hm : t.mine who = s.mine who) :
    t.Progress who pc := by
  cases pc with
  | idle => trivial
  | readDone => trivial
  | head buf n i => exact ⟨h.1, h.2.congr hm⟩
  | writeDone buf n ret => exact fun hret => (h hret).congr hm
  | sec c st =>
    cases c with
    | read => trivial
    | write buf n i =>
      cases st with
      | want => exact ⟨h.1, h.2.congr hm⟩
      | locked => exact ⟨h.1, h.2.congr hm⟩
      | back r => exact ⟨h.1, fun hr => (h.2 hr).congr hm⟩
      | leave r => exact ⟨h.1, fun hr => (h.2 hr).congr hm⟩

theorem mine_enter (hold : ∀ e ∈ s.log, e.call ≤ s.calls e.who) :
    (s.enter who pc).mine who = [] := by
  refine filter_eq_nil_iff.2 fun e he hx => ?_
  obtain ⟨rfl, hcall⟩ := of_decide_eq_true hx
  have hle := hold e he
  have hnew : e.call = s.calls e.who + 1 := hcall.trans (update_self ..)
  omega

theorem Wrote.none (h : s.mine who = []) : s.Wrote who buf n 0 := by
  refine ⟨fun e he => ?_, ?_, Nat.zero_le _⟩
  · rw [h] at he
    cases he
  · rw [h]
    rfl

theorem pending_goto (h : (s.procs who).owed = pc.owed) : (s.goto who pc).pending = s.pending := by
  rw [pending, pending, goto]
  cases s.holder with
  | none => rfl
  | some w =>
    show (update s.procs who pc w).owed = (s.procs w).owed
    by_cases hw : w = who
    · rw [hw, update_self, h]
    · rw [update_of_ne hw]

theorem goto_procs (s : OffsetSys) (who : ℕ) (pc : Pc) (w : ℕ) :
    (s.goto who pc).procs w = if w = who then pc else s.procs w := by
  exact update_apply ..

end

theorem Inv.excl_goto {st : Stage} (h : Inv f i off0 s) (hholder : s.holder = some who)
    (hw : (s.goto who pc).procs w = .sec c st) (hst : st ≠ .want) : s.holder = some w := by
  rw [goto_procs] at hw
  split at hw
  · rename_i heq
    rw [heq]
    exact hholder
  · exact h.excl w c st hw hst

theorem Inv.goto (h : Inv f i off0 s) (howed : (s.procs who).owed = pc.owed)
    (hwant : ∀ c st, pc = .sec c st → st = .want) (hprog : s.Progress who pc) :
    Inv f i off0 (s.goto who pc) := by
  refine ⟨h.held, h.valid, fun w c st hw hst => ?_, h.chain, ?_, ?_, h.entries, h.old, fun w => ?_⟩
  · rw [goto_procs] at hw
    split at hw
    · exact absurd (hwant c st hw) hst
    · exact h.excl w c st hw hst
  · rw [pending_goto howed]
    exact h.off
  · rw [pending_goto howed]
    exact h.fits
  · rw [goto_procs]
    split
    · rename_i hw
      rw [hw]
      exact hprog.congr rfl
    · exact (h.progress w).congr rfl

theorem Inv.enter (h : Inv f i off0 s) (hout : (s.procs who).outside = true)
    (hwant : ∀ c st, pc = .sec c st → st = .want) (howed : pc.owed = 0)
    (hprog : ∀ t : OffsetSys, t.mine who = [] → t.Progress who pc) :
    Inv f i off0 (s.enter who pc) := by
  have howed0 : (s.procs who).owed = pc.owed := by
    rw [howed]
    cases hpc : s.procs who with
    | sec c st =>
      rw [hpc] at hout
      cases hout
    | _ => rfl
  have hpending : (s.enter who pc).pending = s.pending := pending_goto howed0
  refine ⟨h.held, h.valid, fun w c st hw hst => ?_, h.chain, by rw [hpending]; exact h.off,
    by rw [hpending]; exact h.fits, h.entries, fun e he => ?_, fun w => ?_⟩
  · have hw' : (s.goto who pc).procs w = .sec c st := hw
    rw [goto_procs] at hw'
    split at hw'
    · exact absurd (hwant c st hw') hst
    · exact h.excl w c st hw' hst
  · have hle := h.old e he
    show e.call ≤ update s.calls who (s.calls who + 1) e.who
    by_cases hw : e.who = who
    · rw [hw] at hle ⊢
      rw [update_self]
      omega
    · rwa [update_of_ne hw]
  · show (s.enter who pc).Progress w ((s.goto who pc).procs w)
    rw [goto_procs]
    split
    · rename_i hw
      rw [hw]
      exact hprog _ (mine_enter h.old)
    · rename_i hw
      exact (h.progress w).congr (mine_congr rfl (update_of_ne hw _ _))

omit [Superblock] in
theorem pending_of_holder (h : s.holder = some w) : s.pending = (s.procs w).owed := by
  rw [pending, h]
  rfl

theorem Inv.ilock (h : Inv f i off0 s) (hpc : s.procs who = .sec c .want) (hfree : s.holder = none)
    (hlock : Fs.ilock f.ip s.fs = .ok ((), fs)) :
    Inv f i off0 { s.goto who (.sec c .locked) with fs := fs, holder := some who } := by
  obtain ⟨R, hok, hip, hinum⟩ := h.held
  have hspec : wp (Fs.ilock f.ip) (fun _ fs' => FsOk fs' R ∧ (fs'.itable f.ip).valid = true ∧
      (fs'.itable f.ip).inum = (s.fs.itable f.ip).inum) (fun _ => True) s.fs :=
    wp_ilock hok hip (fun _ _ => trivial) fun fs' h' _ _ hv hi => ⟨h', hv, hi⟩
  obtain ⟨hok', hv, hi⟩ := hspec.of_ok hlock
  have hnone : s.pending = 0 := by rw [pending, hfree]; rfl
  have hself : (s.goto who (.sec c .locked)).procs who = .sec c .locked := update_self ..
  have hpending : ({ s.goto who (.sec c .locked) with fs := fs, holder := some who } :
      OffsetSys).pending = 0 := by
    exact congrArg Pc.owed hself
  refine ⟨⟨R, hok', hip, hi.trans hinum⟩, fun _ => hv, fun w c' st hw hst => ?_, h.chain, ?_, ?_,
    h.entries, h.old, fun w => ?_⟩
  · have hw' : (s.goto who (.sec c .locked)).procs w = .sec c' st := hw
    rw [goto_procs] at hw'
    split at hw'
    · rename_i heq
      exact congrArg some heq.symm
    · have hheld := h.excl w c' st hw' hst
      rw [hfree] at hheld
      cases hheld
  · rw [hpending, ← hnone]
    exact h.off
  · rw [hpending, ← hnone]
    exact h.fits
  · show Progress _ w ((s.goto who (.sec c .locked)).procs w)
    have hprog := h.progress w
    rw [goto_procs]
    split
    · rename_i heq
      rw [heq, hpc] at hprog
      rw [heq]
      cases c with
      | read => trivial
      | write => exact hprog.congr rfl
    · exact hprog.congr rfl

omit [Superblock] in
theorem mine_record_other {r : ℤ × List UInt8} (hw : w ≠ who) (hlog : t.log = s.record who c r fs)
    (hcalls : t.calls = s.calls) : t.mine w = s.mine w := by
  rw [mine, mine, hlog, hcalls, record]
  split
  · simp [Ne.symm hw]
  · rfl

omit [Superblock] in
theorem mine_record_self {r : ℤ × List UInt8} (hr : 0 < r.1) (hlog : t.log = s.record who c r fs)
    (hcalls : t.calls = s.calls) :
    t.mine who = s.mine who ++ [⟨who, s.calls who, c, s.off, r.1.toNat, r.2, s.fs, fs⟩] := by
  rw [mine, mine, hlog, hcalls, record, if_pos hr, filter_append]
  simp

variable {c : Job}

/-- **The call of `readi` or `writei`**: its range begins at the offset, where the ranges so far
end. -/
theorem Inv.io {r : ℤ × List UInt8} {fs : Fs} (h : Inv f i off0 s)
    (hpc : s.procs who = .sec c .locked) (hrun : c.run f.ip s.off s.fs = .ok (r, fs)) :
    Inv f i off0 { s.goto who (.sec c (.back r.1)) with fs := fs, log := s.record who c r fs } := by
  obtain ⟨R, hok, hip, hinum⟩ := h.held
  have hholder := h.excl who c .locked hpc (by decide)
  have hv := h.valid (by rw [hholder]; exact Option.some_ne_none who)
  obtain ⟨hok', hkept, hmoved⟩ := (wp_run (E := fun _ => True) hok hip hv).of_ok hrun
  rw [hinum] at hmoved
  have hnone : s.pending = 0 := by rw [pending_of_holder hholder, hpc]; rfl
  have hoff := h.off
  have hfits := h.fits
  rw [hnone, Nat.add_zero] at hoff hfits
  have hself : (s.goto who (.sec c (.back r.1))).procs who = .sec c (.back r.1) :=
    update_self ..
  have hpending : ({ s.goto who (.sec c (.back r.1)) with fs := fs, log := s.record who c r fs } :
      OffsetSys).pending = r.1.toNat := by
    show (s.holder.elim 0 fun w => ((s.goto who (.sec c (.back r.1))).procs w).owed) = _
    rw [hholder]
    exact congrArg Pc.owed hself
  refine ⟨⟨R, hok', hip, (hkept _ hip).1.trans hinum⟩, fun _ => (hkept _ hip).2 hv,
    fun w c' st hw hst => ?_, ?_, ?_, ?_, fun e he => ?_, fun e he => ?_, fun w => ?_⟩
  · exact h.excl_goto hholder hw hst
  · show Consecutive off0 (s.record who c r fs)
    rw [record]
    split
    · exact consecutive_append h.chain hoff
    · exact h.chain
  · rw [hpending]
    show s.off + r.1.toNat = off0 + total (s.record who c r fs)
    rw [record]
    split
    · rw [total_append, hoff, Nat.add_assoc]
    · rw [Int.toNat_of_nonpos (by omega), Nat.add_zero, hoff]
  · rw [hpending]
    show s.off + r.1.toNat < 2 ^ 32
    by_cases hr : 0 < r.1
    · exact (hmoved hr).fits
    · rw [Int.toNat_of_nonpos (by omega)]
      exact hfits
  · have he' : e ∈ s.record who c r fs := he
    rw [record] at he'
    split at he'
    · rename_i hr
      rcases mem_append.1 he' with hmem | hmem
      · exact h.entries e hmem
      · obtain rfl := mem_singleton.1 hmem
        exact ⟨(hmoved hr).length, (hmoved hr).effect⟩
    · exact h.entries e he'
  · have he' : e ∈ s.record who c r fs := he
    rw [record] at he'
    split at he'
    · rcases mem_append.1 he' with hmem | hmem
      · exact h.old e hmem
      · obtain rfl := mem_singleton.1 hmem
        exact le_refl _
    · exact h.old e he'
  · show Progress _ w ((s.goto who (.sec c (.back r.1))).procs w)
    have hprog := h.progress w
    rw [goto_procs]
    split
    · rename_i heq
      rw [heq, hpc] at hprog
      rw [heq]
      cases c with
      | read => trivial
      | write buf n k =>
        -- the chunk goes behind those that were written before
        refine ⟨hprog.1, fun hall => ?_⟩
        have hwrote := hprog.2
        have hchunk : 0 < chunk n k := by
          have hlt := hprog.1
          have hmax : 0 < maxWrite := by decide
          rw [chunk]
          omega
        have hr : 0 < r.1 := by omega
        have hlen : r.1.toNat = chunk n k := by omega
        obtain ⟨hb, -⟩ := (hmoved hr).effect
        have hlength := (hmoved hr).length
        rw [hlen] at hb hlength
        rw [hb, length_take, length_drop] at hlength
        have hmine : ({ s.goto who (.sec (.write buf n k) (.back r.1)) with
            fs := fs, log := s.record who (.write buf n k) r fs } : OffsetSys).mine who =
            s.mine who ++ [⟨who, s.calls who, .write buf n k, s.off, r.1.toNat, r.2, s.fs, fs⟩] :=
          mine_record_self hr rfl rfl
        refine ⟨fun e he => ?_, ?_, ?_⟩
        · rw [hmine] at he
          rcases mem_append.1 he with hmem | hmem
          · exact hwrote.chunks e hmem
          · obtain rfl := mem_singleton.1 hmem
            exact ⟨k, rfl, hlen⟩
        · rw [hmine, map_append, flatten_append, hwrote.bytes, map_singleton,
            flatten_singleton, hb, take_add]
        · omega
    · rename_i hw
      exact hprog.congr (mine_record_other hw rfl rfl)

theorem Inv.advance {r : ℤ} (h : Inv f i off0 s) (hpc : s.procs who = .sec c (.back r)) :
    Inv f i off0 { s.goto who (.sec c (.leave r)) with
      off := if 0 < r then (s.off + r.toNat) % 2 ^ 32 else s.off } := by
  have hholder := h.excl who c (.back r) hpc (nofun)
  have hpend : s.pending = r.toNat := by rw [pending_of_holder hholder, hpc]; rfl
  have hoff := h.off
  have hfits := h.fits
  rw [hpend] at hoff hfits
  have hnew : (if 0 < r then (s.off + r.toNat) % 2 ^ 32 else s.off) = s.off + r.toNat := by
    split
    · exact Nat.mod_eq_of_lt hfits
    · rw [Int.toNat_of_nonpos (by omega), Nat.add_zero]
  have hself : (s.goto who (.sec c (.leave r))).procs who = .sec c (.leave r) :=
    update_self ..
  rw [hnew]
  have hpending : ({ s.goto who (.sec c (.leave r)) with off := s.off + r.toNat } :
      OffsetSys).pending = 0 := by
    show (s.holder.elim 0 fun w => ((s.goto who (.sec c (.leave r))).procs w).owed) = _
    rw [hholder]
    exact congrArg Pc.owed hself
  refine ⟨h.held, h.valid, fun w c' st hw hst => ?_, h.chain, ?_, ?_, h.entries, h.old, fun w => ?_⟩
  · exact h.excl_goto hholder hw hst
  · rw [hpending]
    exact hoff
  · rw [hpending]
    exact hfits
  · show Progress _ w ((s.goto who (.sec c (.leave r))).procs w)
    have hprog := h.progress w
    rw [goto_procs]
    split
    · rename_i heq
      rw [heq, hpc] at hprog
      rw [heq]
      cases c with
      | read => trivial
      | write => exact hprog.congr rfl
    · exact hprog.congr rfl

theorem Inv.iunlock {r : ℤ} (h : Inv f i off0 s) (hpc : s.procs who = .sec c (.leave r)) :
    Inv f i off0 { s.goto who (c.next r) with holder := none } := by
  have hholder := h.excl who c (.leave r) hpc (nofun)
  have hpend : s.pending = 0 := by rw [pending_of_holder hholder, hpc]; rfl
  refine ⟨h.held, fun hx => absurd rfl hx, fun w c' st hw hst => ?_, h.chain, ?_, ?_, h.entries,
    h.old, fun w => ?_⟩
  · have hw' : (s.goto who (c.next r)).procs w = .sec c' st := hw
    rw [goto_procs] at hw'
    split at hw'
    · cases c with
      | read => cases hw'
      | write buf n k =>
        rw [Job.next] at hw'
        split at hw'
        · cases hw'
        · cases hw'
    · rename_i hne
      have hheld := h.excl w c' st hw' hst
      rw [hholder, Option.some_inj] at hheld
      exact absurd hheld.symm hne
  · have hoff := h.off
    rw [hpend] at hoff
    exact hoff
  · have hfits := h.fits
    rw [hpend] at hfits
    exact hfits
  · show Progress _ w ((s.goto who (c.next r)).procs w)
    have hprog := h.progress w
    rw [goto_procs]
    split
    · rename_i heq
      rw [heq, hpc] at hprog
      rw [heq]
      cases c with
      | read => trivial
      | write buf n k =>
        obtain ⟨hlt, hall⟩ := hprog
        rw [Job.next]
        split
        · rename_i hr
          have hle : k + chunk n k ≤ n.toNat := by
            have hmin := Nat.min_le_left (n - k).toNat maxWrite
            rw [← chunk] at hmin
            omega
          rw [hr]
          exact ⟨hle, (hall hr).congr rfl⟩
        · intro hret
          omega
    · exact hprog.congr rfl

theorem Inv.step {a : Act} (h : Inv f i off0 s) (ha : ok f s a)
    (hstep : OffsetSys.step f s a = some (.ok s')) : Inv f i off0 s' := by
  cases a with
  | fileread who n room =>
    rw [OffsetSys.step] at hstep
    split at hstep
    · rename_i hout
      split at hstep
      · cases hstep
        exact h.enter hout (fun c st hx => by cases hx; rfl) rfl fun t _ => trivial
      · cases hstep
        exact h.enter hout (nofun) rfl fun t _ => trivial
    · cases hstep
  | filewrite who buf n =>
    rw [OffsetSys.step] at hstep
    split at hstep
    · rename_i hout
      split at hstep
      · cases hstep
        exact h.enter hout (nofun) rfl fun t ht => ⟨Nat.zero_le _, .none ht⟩
      · cases hstep
        refine h.enter hout (nofun) rfl fun t ht hret => ?_
        rw [← hret]
        exact .none ht
    · cases hstep
  | loop who =>
    rw [OffsetSys.step] at hstep
    split at hstep
    · rename_i buf n k hpc
      have hprog := h.progress who
      rw [hpc] at hprog
      split at hstep
      · rename_i hlt
        cases hstep
        exact h.goto (by rw [hpc]; rfl) (fun c st hx => by cases hx; rfl) ⟨hlt, hprog.2⟩
      · rename_i hge
        cases hstep
        refine h.goto (by rw [hpc]; rfl) (nofun) fun _ => ?_
        have hk : k = n.toNat := by
          have hle := hprog.1
          omega
        exact hk ▸ hprog.2
    · cases hstep
  | ilock who =>
    rw [OffsetSys.step] at hstep
    split at hstep
    · rename_i c hpc
      split at hstep
      · rename_i hfree
        split at hstep
        · rename_i fs hlock
          cases hstep
          exact h.ilock hpc hfree hlock
        · cases hstep
      · cases hstep
    · cases hstep
  | io who =>
    rw [OffsetSys.step] at hstep
    split at hstep
    · rename_i c hpc
      split at hstep
      · rename_i r fs hrun
        cases hstep
        exact h.io hpc hrun
      · cases hstep
    · cases hstep
  | advance who =>
    rw [OffsetSys.step] at hstep
    split at hstep
    · rename_i c r hpc
      cases hstep
      exact h.advance hpc
    · cases hstep
  | iunlock who =>
    rw [OffsetSys.step] at hstep
    split at hstep
    · rename_i c r hpc
      cases hstep
      exact h.iunlock hpc
    · cases hstep
  | env fs =>
    obtain ⟨⟨R, hok, hip⟩, hinum, hvalid⟩ := ha
    obtain ⟨-, -, -, hi⟩ := h.held
    cases hstep
    exact ⟨⟨R, hok, hip, hinum.trans hi⟩, fun hx => hvalid (h.valid hx), h.excl, h.chain, h.off,
      h.fits, h.entries, h.old, fun who => (h.progress who).congr rfl⟩

/-! ### Shared offsets -/

/-- Nobody is in a call, and nothing was read or written. -/
structure Start (f : SharedFile) (s : OffsetSys) : Prop where
  held : ∃ R, FsOk s.fs R ∧ f.ip ∈ R
  holder : s.holder = none
  idle : ∀ who, s.procs who = .idle
  log : s.log = []
  fits : s.off < 2 ^ 32

theorem Start.inv (h : Start f s) : Inv f (s.fs.itable f.ip).inum s.off s := by
  obtain ⟨R, hok, hip⟩ := h.held
  have hpending : s.pending = 0 := by rw [pending, h.holder]; rfl
  refine ⟨⟨R, hok, hip, rfl⟩, fun hx => absurd h.holder hx, fun who c st hpc => ?_, ?_, ?_, ?_,
    fun e he => ?_, fun e he => ?_, fun who => ?_⟩
  · rw [h.idle] at hpc
    cases hpc
  · rw [h.log]
    trivial
  · rw [hpending, h.log]
    rfl
  · rw [hpending]
    exact h.fits
  · rw [h.log] at he
    cases he
  · rw [h.log] at he
    cases he
  · rw [h.idle]
    trivial

/-- **No update of a shared offset is lost**: in every run, the ranges of the calls of `readi` and
`writei` that moved bytes follow each other in the order of their sections and are disjoint;
`f->off` is the offset at the start and all that was moved, except for what a process is about to
add that holds the lock; and a `filewrite` that returned `n` has written its `n` bytes, chunk by
chunk in their order, at offsets that it was given. -/
theorem shared_offset {s0 : OffsetSys} (h0 : Start f s0)
    (hrun : Runs.Reach (OffsetSys.step f) (ok f) s0 s) :
    Consecutive s0.off s.log ∧ (s.log.Pairwise fun a b => a.start + a.len ≤ b.start) ∧
    ((∀ who c r, s.procs who ≠ .sec c (.back r)) → s.off = s0.off + total s.log) ∧
    (∀ who c r, s.procs who = .sec c (.back r) →
      s.holder = some who ∧ s.off + r.toNat = s0.off + total s.log) ∧
    (∀ e ∈ s.log, e.bytes.length = e.len ∧
      Effect (s0.fs.itable f.ip).inum e.start e.len e.bytes e.before e.after e.job) ∧
    ∀ who buf n, s.procs who = .writeDone buf n n → s.Wrote who buf n n.toNat ∧
      ∀ e ∈ s.mine who, contents e.after (s0.fs.itable f.ip).inum =
        splice (contents e.before (s0.fs.itable f.ip).inum) e.start e.bytes := by
  have h : Inv f (s0.fs.itable f.ip).inum s0.off s :=
    hrun.invariant (I := Inv f (s0.fs.itable f.ip).inum s0.off) h0.inv
      fun _ _ _ hinv ha hstep => hinv.step ha hstep
  have hoff := h.off
  refine ⟨h.chain, h.chain.pairwise.2, fun hback => ?_, fun who c r hpc => ?_, h.entries,
    fun who buf n hpc => ?_⟩
  · have hnone : s.pending = 0 := by
      rw [pending]
      cases s.holder with
      | none => rfl
      | some w =>
        show (s.procs w).owed = 0
        cases hpc : s.procs w with
        | sec c st =>
          cases st with
          | back r => exact absurd hpc (hback w c r)
          | _ => rfl
        | _ => rfl
    rwa [hnone] at hoff
  · have hholder := h.excl who c (.back r) hpc (nofun)
    rw [pending_of_holder hholder, hpc] at hoff
    exact ⟨hholder, hoff⟩
  · have hprog := h.progress who
    rw [hpc] at hprog
    have hwrote := hprog rfl
    refine ⟨hwrote, fun e he => ?_⟩
    obtain ⟨k, hjob, hlen⟩ := hwrote.chunks e he
    have heff := (h.entries e (mem_of_mem_filter he)).2
    rw [hjob] at heff
    exact heff.2 hlen

/-- Steps of the processes alone. -/
def Act.own : Act → Bool
  | .env _ => false
  | _ => true

omit [Superblock] in
/-- Two processes write to an empty file, one of them between the calls of the other. -/
theorem shared_offset_two : ∃ (_ : Superblock) (s0 s : OffsetSys),
    Runs.Reach (OffsetSys.step ⟨⟨0, by decide⟩, true, true⟩) (ok ⟨⟨0, by decide⟩, true, true⟩) s0
    s ∧ s.off = 3 ∧ s.procs 0 = .writeDone [65, 66] 2 2 ∧ s.Wrote 0 [65, 66] 2 2 := by
  let S : Superblock := InodeSys.smallDisk
  let acts : List Act := [.filewrite 0 [65, 66] 2, .filewrite 1 [67] 1, .loop 0, .loop 1, .ilock 1,
    .io 1, .advance 1, .iunlock 1, .ilock 0, .io 0, .advance 0, .iunlock 0, .loop 0]
  have hrun : ∃ t : InodeSys, FsOk t.fs (t.held : Multiset IPtr) ∧
      (⟨0, by decide⟩ : IPtr) ∈ t.held ∧
      (Runs.exec (OffsetSys.step ⟨⟨0, by decide⟩, true, true⟩) (fun _ a => a.own = true)
        ⟨t.fs, none, 0, fun _ => .idle, fun _ => 0, []⟩ acts).any (fun s => decide (s.off = 3 ∧
          s.procs 0 = .writeDone [65, 66] 2 2)) = true :=
    InodeSys.exists_fsOk [.create .file 0 0] (by decide +kernel)
  obtain ⟨t, hok, hheld, hexec⟩ := hrun
  obtain ⟨s, hown, hoff, hdone⟩ := Runs.exists_reach_of_exec acts hexec
  have hreach' : Runs.Reach (OffsetSys.step ⟨⟨0, by decide⟩, true, true⟩)
      (ok ⟨⟨0, by decide⟩, true, true⟩) _ s := hown.mono fun s a ha => by
    cases a with
    | env fs => cases ha
    | _ => trivial
  have hstart : Start ⟨⟨0, by decide⟩, true, true⟩ ⟨t.fs, none, 0, fun _ => .idle, fun _ => 0,
    []⟩ :=
    ⟨⟨t.held, hok, hheld⟩, rfl, fun _ => rfl, rfl, Nat.two_pow_pos 32⟩
  exact ⟨S, _, s, hreach', hoff, hdone,
    ((shared_offset hstart hreach').2.2.2.2.2 0 [65, 66] 2 hdone).1⟩

end OffsetSys

end CsklubOs
