/-
**Pipes.**

`pipewrite`, `piperead` and `pipeclose` of `kernel/pipe.c`, by any number of processes on one pipe.
The bodies of their loops run under `pi->lock`; `sleep`, `wakeup`, `kill` and the scheduler are
those of `CsklubOs/SleepWakeup.lean`.  What `copyin` and `copyout` do for the byte at `addr + i` is
given by the caller.

Main definitions:

* `PipeSys`, `PipeSys.step` — the pipe and its processes; `PipePc` says where one continues when the
  function of `proc.c` that it is in has returned;
* `Queue` — the buffer holds what was written and not read;
* `Announces` — no writer returns -1 after a store without `wakeup`.

Main results:

* `fifo` — bytes come out in the order they went in, none lost and none twice;
* `sleepers_have_reason` — then who sleeps finds the pipe empty, or full, and its other end open;
* `reader_left_asleep` — a writer that was killed leaves a reader asleep.
-/

import CsklubOs.RingBuffer
import CsklubOs.SleepWakeup

set_option autoImplicit false

namespace CsklubOs

open Function
open Except (ok)
open Option (map_eq_some_iff some_inj)

/-! ### The pipe -/

def pipeSize : ℕ := 512

instance : NeZero pipeSize := ⟨by decide⟩

theorem pipeSize_dvd : pipeSize ∣ 2 ^ 32 := ⟨8388608, by decide⟩

theorem pipeSize_lt : pipeSize < 2 ^ 32 := by decide

/-- `struct pipe`, and what went through it. -/
structure PipeData where
  buf : RingBuf 32 pipeSize UInt8
  readopen : Bool
  writeopen : Bool
  /-- History: the bytes that writers have stored. -/
  stored : List UInt8
  /-- History: the bytes that readers have removed. -/
  removed : List UInt8

/-- The addresses that processes sleep on, `&pi->nread` and `&pi->nwrite`. -/
inductive PipeChan
  | nread
  | nwrite
  deriving DecidableEq

namespace PipeData

/-- `pi->nread == pi->nwrite` -/
def empty (d : PipeData) : Bool := decide (d.buf.nread = d.buf.nwrite)

/-- `pi->nwrite == pi->nread + PIPESIZE` -/
def full (d : PipeData) : Bool := decide (d.buf.nwrite = d.buf.nread + BitVec.ofNat 32 pipeSize)

/-- `pi->data[pi->nwrite++ % PIPESIZE] = ch` -/
def put (d : PipeData) (ch : UInt8) : PipeData :=
  { d with
    buf := d.buf.put ch
    stored := d.stored ++ [ch] }

/-- `ch = pi->data[pi->nread++ % PIPESIZE]` -/
def take (d : PipeData) : PipeData :=
  { d with
    buf := d.buf.take
    removed := d.removed ++ [d.buf.head] }

/-- The assignment of `pipeclose`. -/
def close (d : PipeData) (writable : Bool) : PipeData :=
  if writable then { d with writeopen := false } else { d with readopen := false }

/-- **A queue of bounded length**: what was stored is what was removed and what is in `data`. -/
structure Queue (d : PipeData) : Prop where
  count_le : d.buf.count ≤ pipeSize
  stored : d.stored = d.removed ++ d.buf.contents

variable {d : PipeData}

theorem Queue.put (h : d.Queue) (hfull : d.full = false) (ch : UInt8) : (d.put ch).Queue := by
  have hlt : d.buf.count < pipeSize := by
    refine lt_of_le_of_ne h.count_le fun heq => ?_
    rw [full, decide_eq_false_iff_not, RingBuf.full_iff pipeSize_lt] at hfull
    exact hfull heq
  constructor
  · show (d.buf.put ch).count ≤ pipeSize
    rw [RingBuf.count_put pipeSize_lt _ _ hlt]
    exact hlt
  · show d.stored ++ [ch] = d.removed ++ (d.buf.put ch).contents
    rw [RingBuf.contents_put pipeSize_dvd pipeSize_lt _ _ hlt, h.stored, List.append_assoc]

theorem Queue.take (h : d.Queue) (hempty : d.empty = false) : d.take.Queue := by
  have hne : d.buf.count ≠ 0 := by
    rwa [empty, decide_eq_false_iff_not, RingBuf.nread_eq_iff] at hempty
  have hcount := d.buf.count_take hne
  constructor
  · show d.buf.take.count ≤ pipeSize
    have := h.count_le
    omega
  · show d.stored = d.removed ++ [d.buf.head] ++ d.buf.take.contents
    rw [h.stored, d.buf.contents_take hne, List.append_assoc]
    rfl

theorem Queue.close (h : d.Queue) (writable : Bool) : (d.close writable).Queue := by
  cases writable
  · exact ⟨h.count_le, h.stored⟩
  · exact ⟨h.count_le, h.stored⟩

end PipeData

/-- What the processes on a channel wait for: readers for bytes or the end of the writers, writers
for room or the end of the readers. -/
def pipeCond : PipeChan → PipeData → Bool
  | .nread, d => !d.empty || !d.writeopen
  | .nwrite, d => !d.full || !d.readopen

/-! ### The system -/

/-- Where a process goes on. -/
inductive PipePc
  /-- It is in no call on the pipe. -/
  | idle
  /-- `pipewrite`: the test of the loop.  `src i` is what `copyin` finds at `addr + i`, and `wrote`
  tells whether a byte was stored since `pi->lock` was acquired. -/
  | write (src : ℕ → Option UInt8) (n : ℤ) (i : ℕ) (wrote : Bool)
  /-- `pipewrite`: `sleep(&pi->nwrite, &pi->lock)`. -/
  | writeFull (src : ℕ → Option UInt8) (n : ℤ) (i : ℕ)
  /-- `piperead`: the test of the first loop.  `dst i` tells whether `copyout` can store at
  `addr + i`. -/
  | read (dst : ℕ → Bool) (n : ℤ)
  /-- `piperead`: the test of the second loop. -/
  | readCopy (dst : ℕ → Bool) (n : ℤ) (i : ℕ)
  /-- `pipeclose`: the assignment. -/
  | close (writable : Bool)
  /-- The last `wakeup` of a call; the result. -/
  | wake (c : PipeChan) (r : ℤ)
  /-- The last `release(&pi->lock)` of a call; the result. -/
  | leave (r : ℤ)

structure PipeSys where
  sys : SleepSys PipeData PipeChan
  pc : Fin nProc → PipePc
  /-- The result of the last call of a process. -/
  ret : Fin nProc → ℤ

/-- What can happen: a process calls one of the functions, or goes on in it; anything that
`CsklubOs/SleepWakeup.lean` has inside `sleep`, `wakeup`, `kill`, `yield` and the scheduler. -/
inductive PipeAct
  | pipewrite (t : Fin nProc) (src : ℕ → Option UInt8) (n : ℤ)
  | piperead (t : Fin nProc) (dst : ℕ → Bool) (n : ℤ)
  | pipeclose (t : Fin nProc) (writable : Bool)
  | next (t : Fin nProc)
  | kill (t : Fin nProc) (pid : ℤ)
  | yield (t : Fin nProc)
  | run (t : Fin nProc)
  | schedAcquire (p : Fin nProc)
  | schedRun (p : Fin nProc)
  | schedRelease (p : Fin nProc)

namespace PipeSys

section

variable (s : PipeSys)

/-- The pipe. -/
def pipe : PipeData := s.sys.shared

/-- A step that `CsklubOs/SleepWakeup.lean` has, after which `t` goes on at `k`. -/
def act (a : SleepAct PipeData PipeChan) (t : Fin nProc) (k : PipePc) : Option PipeSys :=
  match s.sys.step pipeCond a with
  | some (.ok sys) => some { s with sys := sys, pc := update s.pc t k }
  | _ => none

/-- `release(&pi->lock); return r` -/
def return' (t : Fin nProc) (r : ℤ) : Option PipeSys :=
  { s with ret := update s.ret t r }.act (.release t) t .idle

/-- The body of the loop of `pipewrite`. -/
def writeBody (t : Fin nProc) (src : ℕ → Option UInt8) (n : ℤ) (i : ℕ) : Option PipeSys :=
  if s.pipe.full then s.act (.wakeup t .nread) t (.writeFull src n i)
  else
    match src i with
    | none => s.act (.wakeup t .nread) t (.leave i)
    | some ch => s.act (.access t (s.pipe.put ch)) t (.write src n (i + 1) true)

/-- The next statements of `t` in a section under `pi->lock`.  `killed(pr)` needs `pr->lock`. -/
def next (t : Fin nProc) : Option PipeSys :=
  match s.pc t with
  | .idle => none
  | .write src n i _ =>
    if i < n then
      if s.pipe.readopen = false then s.return' t (-1)
      else if s.sys.plock t ≠ none then none
      else if s.sys.killed t then s.return' t (-1)
      else s.writeBody t src n i
    else s.act (.wakeup t .nread) t (.leave i)
  | .writeFull src n i => s.act (.sleep t .nwrite) t (.write src n i false)
  | .read dst n =>
    if s.pipe.empty && s.pipe.writeopen then
      if s.sys.plock t ≠ none then none
      else if s.sys.killed t then s.return' t (-1)
      else s.act (.sleep t .nread) t (.read dst n)
    else some { s with pc := update s.pc t (.readCopy dst n 0) }
  | .readCopy dst n i =>
    if i < n then
      if s.pipe.empty then s.act (.wakeup t .nwrite) t (.leave i)
      else if dst i then s.act (.access t s.pipe.take) t (.readCopy dst n (i + 1))
      else s.act (.access t s.pipe.take) t (.wake .nwrite i)
    else s.act (.wakeup t .nwrite) t (.leave i)
  | .close writable =>
    s.act (.access t (s.pipe.close writable)) t (.wake (if writable then .nread else .nwrite) 0)
  | .wake c r => s.act (.wakeup t c) t (.leave r)
  | .leave r => s.return' t r

/-- One step. -/
def step (a : PipeAct) : Option (Except Empty PipeSys) :=
  Option.map .ok <|
    match a with
    | .pipewrite t src n => s.act (.acquire t) t (.write src n 0 false)
    | .piperead t dst n => s.act (.acquire t) t (.read dst n)
    | .pipeclose t writable => s.act (.acquire t) t (.close writable)
    | .next t => if s.sys.pc t = .inside then s.next t else none
    | .kill t pid => s.act (.kill t pid) t (s.pc t)
    | .yield t => s.act (.yield t) t (s.pc t)
    | .run t => s.act (.run t) t (s.pc t)
    | .schedAcquire p => s.act (.schedAcquire p) p (s.pc p)
    | .schedRun p => s.act (.schedRun p) p (s.pc p)
    | .schedRelease p => s.act (.schedRelease p) p (s.pc p)

/-- `pipewrite` is about to `return -1`, and has stored a byte since it acquired `pi->lock`. -/
def leavesBytes (t : Fin nProc) : Bool :=
  match s.pc t with
  | .write _ n i true => decide (i < n) && (!s.pipe.readopen || s.sys.killed t)
  | _ => false

/-- **No writer leaves bytes behind** that it has not announced: no step takes the exit `return -1`
of `pipewrite` after a byte was stored in the same section under `pi->lock`. -/
def Announces : PipeAct → Prop
  | .next t => s.leavesBytes t = false
  | _ => True

end

instance (s : PipeSys) (a : PipeAct) : Decidable (s.Announces a) :=
  match a with
  | .next t => inferInstanceAs (Decidable (s.leavesBytes t = false))
  | .pipewrite _ _ _ | .piperead _ _ _ | .pipeclose _ _ | .kill _ _ | .yield _ | .run _
  | .schedAcquire _ | .schedRun _ | .schedRelease _ => .isTrue trivial

/-! ### A pipe is a queue -/

variable {s s' : PipeSys} {t : Fin nProc}

variable {a : SleepAct PipeData PipeChan} {k : PipePc} {d : PipeData} {c : PipeChan}

theorem act_eq_some (h : s.act a t k = some s') :
    ∃ sys, SleepSys.step pipeCond s.sys a = some (.ok sys) ∧
      s' = { s with sys := sys, pc := update s.pc t k } := by
  unfold act at h
  split at h
  · rename_i sys hsys
    cases h
    exact ⟨sys, hsys, rfl⟩
  · cases h

theorem shared_of_step {sys sys' : SleepSys PipeData PipeChan}
    (h : SleepSys.step pipeCond sys a = some (.ok sys')) (ha : ∀ t v, a ≠ .access t v) :
    sys'.shared = sys.shared := by
  cases a with
  | access t v => exact absurd rfl (ha t v)
  | run t =>
    simp only [SleepSys.step, map_eq_some_iff] at h
    obtain ⟨s1, hrun, hs1⟩ := h
    cases hs1
    exact (SleepSys.run_frame hrun).1
  | acquire _ | release _ | sleep _ _ | wakeup _ _ | kill _ _ | yield _ | schedAcquire _
  | schedRun _ | schedRelease _ =>
    simp only [SleepSys.step] at h
    repeat' split at h
    all_goals cases h
    all_goals rfl

theorem act_queue (h : s.pipe.Queue) (hact : s.act a t k = some s') (ha : ∀ t v, a ≠ .access t v) :
    s'.pipe.Queue := by
  obtain ⟨sys, hsys, rfl⟩ := act_eq_some hact
  show PipeData.Queue sys.shared
  rw [shared_of_step hsys ha]
  exact h

theorem access_queue (h : d.Queue) (hact : s.act (.access t d) t k = some s') : s'.pipe.Queue := by
  obtain ⟨sys, hsys, rfl⟩ := act_eq_some hact
  obtain ⟨-, rfl⟩ := Runs.taken_ok hsys
  exact h

theorem return_queue {r : ℤ} (h : s.pipe.Queue) (hret : s.return' t r = some s') : s'.pipe.Queue :=
  act_queue (s := { s with ret := update s.ret t r }) h hret nofun

/-- A step under `pi->lock` stores into a pipe that is not full, or removes from one that is not
empty. -/
theorem next_queue (h : s.pipe.Queue) (hnext : s.next t = some s') : s'.pipe.Queue := by
  unfold next at hnext
  split at hnext
  · cases hnext
  · rename_i src n i _ _
    split at hnext
    · split at hnext
      · exact return_queue h hnext
      · split at hnext
        · cases hnext
        · split at hnext
          · exact return_queue h hnext
          · unfold writeBody at hnext
            split at hnext
            · exact act_queue h hnext nofun
            · rename_i hfull
              split at hnext
              · exact act_queue h hnext nofun
              · exact access_queue (h.put (by simpa using hfull) _) hnext
    · exact act_queue h hnext nofun
  · exact act_queue h hnext nofun
  · split at hnext
    · split at hnext
      · cases hnext
      · split at hnext
        · exact return_queue h hnext
        · exact act_queue h hnext nofun
    · cases hnext
      exact h
  · split at hnext
    · split at hnext
      · exact act_queue h hnext nofun
      · rename_i hempty
        split at hnext
        · exact access_queue (h.take (by simpa using hempty)) hnext
        · exact access_queue (h.take (by simpa using hempty)) hnext
    · exact act_queue h hnext nofun
  · exact access_queue (h.close _) hnext
  · exact act_queue h hnext nofun
  · exact return_queue h hnext

theorem step_queue {a : PipeAct} (h : s.pipe.Queue) (hstep : s.step a = some (.ok s')) :
    s'.pipe.Queue := by
  simp only [step, map_eq_some_iff, ok.injEq, exists_eq_right] at hstep
  split at hstep
  case h_4 => exact next_queue h (Option.ite_none_right_eq_some.1 hstep).2
  all_goals exact act_queue h hstep nofun

/-- A state from which runs start: the pipe is as `pipealloc` leaves it, and nobody uses it. -/
structure Start (s : PipeSys) : Prop where
  sys : s.sys.Start
  pc : ∀ t, s.pc t = .idle
  nread : s.pipe.buf.nread = 0
  nwrite : s.pipe.buf.nwrite = 0
  readopen : s.pipe.readopen = true
  writeopen : s.pipe.writeopen = true
  stored : s.pipe.stored = []
  removed : s.pipe.removed = []

theorem Start.queue (h : s.Start) : s.pipe.Queue := by
  have hcount : s.pipe.buf.count = 0 := (RingBuf.nread_eq_iff _).1 (h.nread.trans h.nwrite.symm)
  refine ⟨by omega, ?_⟩
  rw [h.stored, h.removed, RingBuf.contents, hcount]
  rfl

/-- A new pipe and three processes. -/
def threeProcs : PipeSys where
  sys :=
    { shared :=
        { buf := { data := fun _ => 0, nread := 0, nwrite := 0 }
          readopen := true
          writeopen := true
          stored := []
          removed := [] }
      lk := none
      plock := fun _ => none
      state := fun p => if p.val < 3 then .running else .unused
      chan := fun _ => none
      killed := fun _ => false
      pid := fun p => p.val + 1
      pc := fun _ => .outside
      dirty := fun _ => false
      woke := fun _ => false }
  pc _ := .idle
  ret _ := 0

theorem threeProcs_start : threeProcs.Start where
  sys :=
    { lk := rfl
      plock := fun _ => rfl
      pc := fun p => .inl ⟨rfl, by simp only [threeProcs]; split <;> simp⟩
      state := fun p => by simp only [threeProcs]; split <;> simp
      section_empty := fun _ => ⟨rfl, rfl⟩ }
  pc _ := rfl
  nread := rfl
  nwrite := rfl
  readopen := rfl
  writeopen := rfl
  stored := rfl
  removed := rfl

/-- A reader that finds the pipe empty and goes to sleep. -/
def readerSleeps : List PipeAct :=
  [.piperead 0 (fun _ => true) 1, .next 0] ++ List.replicate 5 (.run 0) ++ [.schedRelease 0]

/-- A writer of `n` bytes, from the call to the return. -/
def writerDone (n : ℕ) : List PipeAct :=
  [.pipewrite 1 (fun i => some (65 + i.toUInt8)) n] ++ List.replicate (n + 1) (.next 1) ++
    List.replicate 191 (.run 1) ++ [.next 1]

/-- **A pipe is a first-in first-out queue.**  After any interleaving of `pipewrite`, `piperead` and
`pipeclose` the buffer holds at most `PIPESIZE` bytes, and the bytes that were stored are those that
were removed followed by those in the buffer, in this order; the counters may wrap. -/
theorem fifo {s0 : PipeSys} (h0 : s0.Start) (hr : Runs.Reach step (fun _ _ => True) s0 s) :
    (s.pipe.buf.nwrite - s.pipe.buf.nread).toNat ≤ pipeSize ∧
      s.pipe.stored = s.pipe.removed ++ s.pipe.buf.contents := by
  have h : s.pipe.Queue :=
    hr.invariant (I := fun s => s.pipe.Queue) h0.queue fun _ _ _ hq _ hs => step_queue hq hs
  exact ⟨h.count_le, h.stored⟩

theorem fifo_two_bytes : ∃ s, (Runs.Reach step (fun _ _ => True) threeProcs s ∧
    s.pipe.stored = [65, 66] ∧ s.pipe.removed = [65]) ∧
    s.pipe.stored = s.pipe.removed ++ s.pipe.buf.contents := by
  have hrun : ∃ s, Runs.Reach step (fun _ _ => True) threeProcs s ∧
      s.pipe.stored = [65, 66] ∧ s.pipe.removed = [65] := Runs.exists_reach_of_exec
    (writerDone 2 ++ [.piperead 0 (fun _ => true) 1, .next 0, .next 0]) (by decide +kernel)
  obtain ⟨s, hr, hstored, hremoved⟩ := hrun
  exact ⟨s, ⟨hr, hstored, hremoved⟩, (fifo threeProcs_start hr).2⟩

/-! ### What a process owes the sleepers -/

/-- The channel that a process has yet to wake up before it gives up `pi->lock`. -/
def owes : PipePc → PipeChan → Bool
  | .write _ _ _ wrote, c => wrote && decide (c = .nread)
  | .readCopy _ _ _, c => decide (c = .nwrite)
  | .wake c' _, c => decide (c = c')
  | _, _ => false

/-- What a process has done in its section under `pi->lock`: whatever has become true is announced
or will be, and if it is about to sleep for room there is none. -/
structure Owed (s : PipeSys) (t : Fin nProc) : Prop where
  inside : s.sys.pc t = .inside → ∀ c, s.sys.dirty c = true →
    s.sys.woke c = true ∨ owes (s.pc t) c = true
  waking : ∀ c', SleepSys.waking (s.sys.pc t) = some c' → ∀ c, s.sys.dirty c = true →
    s.sys.woke c = true ∨ c = c'
  full : ∀ src n i, s.pc t = .writeFull src n i →
    (s.sys.pc t = .inside ∨ SleepSys.waking (s.sys.pc t) ≠ none) ∧ s.pipe.full = true ∧
      s.pipe.readopen = true

/-- The invariant of sleeping and waking up, and what each process owes. -/
structure Inv (s : PipeSys) : Prop where
  sys : s.sys.Inv pipeCond
  owed : ∀ t, s.Owed t

theorem holdsLk_of_waking {k : SleepPc PipeChan} (h : SleepSys.waking k ≠ none) :
    SleepSys.holdsLk k = true := by
  cases k with
  | wakeAcquire c n held | wakeTest c n held | wakeRelease c n held =>
    cases held with
    | false => exact absurd rfl h
    | true => rfl
  | _ => exact absurd rfl h

theorem Owed.away (hin : s.sys.pc t ≠ .inside) (hwake : SleepSys.waking (s.sys.pc t) = none)
    (hpc : ∀ src n i, s.pc t ≠ .writeFull src n i) : s.Owed t := by
  refine ⟨fun h => absurd h hin, fun c' h => ?_, fun src n i h => absurd h (hpc src n i)⟩
  rw [hwake] at h
  cases h

theorem Owed.frame {sys' : SleepSys PipeData PipeChan} (h : s.Owed t) (hi : s.sys.Inv pipeCond)
    (hstep : SleepSys.step pipeCond s.sys a = some (.ok sys')) (hne : t ≠ a.actor)
    (hsys : s'.sys = sys') (hpc : s'.pc t = s.pc t) : s'.Owed t := by
  subst hsys
  obtain ⟨hpc', hsec⟩ := hi.step_frame hstep hne
  have hlk : s.sys.pc t = .inside ∨ SleepSys.waking (s.sys.pc t) ≠ none → s.sys.lk = some t := by
    rintro (h' | h')
    · exact hi.locks.lk t (by rw [h']; rfl)
    · exact hi.locks.lk t (holdsLk_of_waking h')
  refine ⟨fun h' => ?_, fun c' h' => ?_, fun src n i h' => ?_⟩
  · rw [hpc'] at h'
    obtain ⟨-, hd, hw⟩ := hsec (hlk (.inl h'))
    rw [hd, hw, hpc]
    exact h.inside h'
  · rw [hpc'] at h'
    obtain ⟨-, hd, hw⟩ := hsec (hlk (.inr (by simp [h'])))
    rw [hd, hw]
    exact h.waking c' h'
  · rw [hpc] at h'
    obtain ⟨hin, hfull⟩ := h.full src n i h'
    obtain ⟨hshared, -, -⟩ := hsec (hlk hin)
    rw [hpc', pipe, hshared]
    exact ⟨hin, hfull⟩

section

variable (h : s.Inv)

include h

theorem Inv.act (hact : s.act a t k = some s') (hactor : a.actor = t)
    (hcareful : SleepSys.Careful pipeCond s.sys a)
    (howed : ∀ sys, SleepSys.step pipeCond s.sys a = some (.ok sys) →
      Owed { s with sys := sys, pc := update s.pc t k } t) : s'.Inv := by
  obtain ⟨sys, hsys, rfl⟩ := act_eq_some hact
  refine ⟨h.sys.step hcareful hsys, fun t' => ?_⟩
  by_cases hne : t' = t
  · rw [hne]
    exact howed sys hsys
  · exact (h.owed t').frame h.sys hsys (hactor ▸ hne) rfl (update_of_ne hne _ _)

theorem Inv.acquire (hact : s.act (.acquire t) t k = some s')
    (hk : ∀ src n i, k ≠ .writeFull src n i) : s'.Inv := by
  refine h.act hact rfl trivial fun sys hsys => ?_
  obtain ⟨hfree, rfl⟩ := Runs.taken_ok hsys
  refine ⟨fun _ c hc => ?_, fun c' hc' => ?_, fun src n i h' => ?_⟩
  · have hc : s.sys.dirty c = true := hc
    rw [(h.sys.waits.fresh hfree.2 c).1] at hc
    cases hc
  · simp [SleepSys.goto, SleepSys.waking] at hc'
  · simp [hk] at h'

theorem Inv.wakeup (hpc : s.sys.pc t = .inside) (hact : s.act (.wakeup t c) t k = some s')
    (howes : ∀ c', owes (s.pc t) c' = true → c' = c)
    (hk : ∀ src n i, k = .writeFull src n i → s.pipe.full = true ∧ s.pipe.readopen = true) :
    s'.Inv := by
  refine h.act hact rfl trivial fun sys hsys => ?_
  simp only [SleepSys.step, if_pos hpc, some_inj, ok.injEq] at hsys
  subst hsys
  refine ⟨fun h' => ?_, fun c' hc' c1 hd => ?_, fun src n i h' => ⟨.inr ?_, hk src n i ?_⟩⟩
  · simp [SleepSys.goto] at h'
  · obtain rfl : c = c' := by simpa [SleepSys.goto, SleepSys.waking] using hc'
    exact ((h.owed t).inside hpc c1 hd).imp_right (howes c1)
  · simp [SleepSys.goto, SleepSys.waking]
  · simpa using h'

theorem Inv.access (hpc : s.sys.pc t = .inside) (hact : s.act (.access t d) t k = some s')
    (howes : ∀ c, owes (s.pc t) c = true → owes k c = true)
    (hnew : ∀ c, pipeCond c s.pipe = false → pipeCond c d = true → owes k c = true)
    (hk : ∀ src n i, k ≠ .writeFull src n i) : s'.Inv := by
  refine h.act hact rfl trivial fun sys hsys => ?_
  simp only [SleepSys.step, if_pos hpc, some_inj, ok.injEq] at hsys
  subst hsys
  refine ⟨fun _ c hd => ?_, fun c' hc' => ?_, fun src n i h' => ?_⟩
  · show _ ∨ owes (update s.pc t k t) c = true
    rw [update_self]
    simp only [Bool.or_eq_true, Bool.and_eq_true, Bool.not_eq_true'] at hd
    rcases hd with hd | ⟨hold, hnow⟩
    · exact ((h.owed t).inside hpc c hd).imp_right (howes c)
    · exact .inr (hnew c hold hnow)
  · rw [hpc] at hc'
    cases hc'
  · simp [hk] at h'

theorem Inv.sleep (hpc : s.sys.pc t = .inside) (hact : s.act (.sleep t c) t k = some s')
    (hcond : pipeCond c s.pipe = false) (howes : ∀ c', owes (s.pc t) c' = false)
    (hk : ∀ src n i, k ≠ .writeFull src n i) : s'.Inv := by
  refine h.act hact rfl ⟨hcond, fun c' hd => ?_⟩ fun sys hsys => ?_
  · exact ((h.owed t).inside hpc c' hd).resolve_right (by simp [howes])
  · simp only [SleepSys.step, if_pos hpc, some_inj, ok.injEq] at hsys
    subst hsys
    exact .away (by simp [SleepSys.goto]) (by simp [SleepSys.goto, SleepSys.waking]) (by simp [hk])

theorem Inv.return' {r : ℤ} (hpc : s.sys.pc t = .inside) (hret : s.return' t r = some s')
    (howes : ∀ c, owes (s.pc t) c = false) : s'.Inv := by
  have h' : Inv { s with ret := update s.ret t r } :=
    ⟨h.sys, fun t' => ⟨(h.owed t').inside, (h.owed t').waking, (h.owed t').full⟩⟩
  refine h'.act hret rfl (fun c hd => ?_) fun sys hsys => ?_
  · exact ((h.owed t).inside hpc c hd).resolve_right (by simp [howes])
  · simp only [SleepSys.step, hpc, if_true, some_inj, ok.injEq] at hsys
    subst hsys
    exact .away (by simp [SleepSys.goto]) (by simp [SleepSys.goto, SleepSys.waking]) (by simp)

theorem Inv.run (hact : s.act (.run t) t (s.pc t) = some s') : s'.Inv := by
  refine h.act hact rfl trivial fun sys hsys => ?_
  simp only [SleepSys.step, map_eq_some_iff] at hsys
  obtain ⟨sys1, hrun, hs1⟩ := hsys
  cases hs1
  have hshared := (SleepSys.run_frame hrun).1
  have hself : ({ s with sys := sys, pc := update s.pc t (s.pc t) } : PipeSys).pc t = s.pc t :=
    update_self _ _ _
  cases hwake : SleepSys.waking (s.sys.pc t) with
  | some c =>
    have hpaid := (h.owed t).waking c hwake
    obtain ⟨hd, ⟨hw', hwoke⟩ | ⟨hin, hwoke⟩⟩ := SleepSys.run_waking hrun hwake
    · refine ⟨fun h' => ?_, fun c' hc' => ?_, fun src n i h' => ?_⟩
      · rw [show sys.pc t = .inside from h'] at hw'
        cases hw'
      · obtain rfl : c = c' := Option.some.inj (hw'.symm.trans hc')
        show ∀ c1, sys.dirty c1 = true → sys.woke c1 = true ∨ c1 = c
        rw [hd, hwoke]
        exact hpaid
      · rw [hself] at h'
        refine ⟨.inr (by simp [hw']), ?_⟩
        rw [pipe, hshared]
        exact ((h.owed t).full src n i h').2
    · refine ⟨fun _ c1 hd1 => .inl ?_, fun c' hc' => ?_, fun src n i h' => ?_⟩
      · show sys.woke c1 = true
        rw [hwoke]
        by_cases hc : c1 = c
        · rw [hc, update_self]
        · rw [update_of_ne hc]
          exact (hpaid c1 (by rw [← hd]; exact hd1)).resolve_right hc
      · rw [hin] at hc'
        cases hc'
      · rw [hself] at h'
        refine ⟨.inl hin, ?_⟩
        rw [pipe, hshared]
        exact ((h.owed t).full src n i h').2
  | none =>
    obtain ⟨hw', hin⟩ := SleepSys.run_enter hrun hwake
    refine ⟨fun h' c hd => ?_, fun c' hc' => ?_, fun src n i h' => ?_⟩
    · obtain ⟨hfree, hdirty⟩ := hin h'
      rw [hdirty, (h.sys.waits.fresh hfree c).1] at hd
      cases hd
    · rw [hw'] at hc'
      cases hc'
    · -- a thread in its own code has no step inside a function
      rw [hself] at h'
      rcases ((h.owed t).full src n i h').1 with hpc | hpc
      · simp [SleepSys.run, hpc] at hrun
      · exact absurd hwake hpc

theorem Inv.other
    (ha : (∃ pid, a = .kill t pid) ∨ a = .yield t ∨ a = .schedAcquire t ∨ a = .schedRun t ∨
      a = .schedRelease t) (hact : s.act a t (s.pc t) = some s') : s'.Inv := by
  have hfull : s.sys.pc t ≠ .inside → SleepSys.waking (s.sys.pc t) = none →
      ∀ src n i, update s.pc t (s.pc t) t ≠ .writeFull src n i := by
    intro hin hwake src n i h'
    rw [update_self] at h'
    exact ((h.owed t).full src n i h').1.elim hin (absurd hwake)
  have hsame : ∀ {p v}, Owed { s with
      sys := s.sys.setLock p v
      pc := update s.pc t (s.pc t) } t := by
    intro p v
    rw [update_eq_self]
    exact ⟨(h.owed t).inside, (h.owed t).waking, (h.owed t).full⟩
  have haway : ∀ {sys : SleepSys PipeData PipeChan}, s.sys.pc t ≠ .inside →
      SleepSys.waking (s.sys.pc t) = none → sys.pc t ≠ .inside → SleepSys.waking (sys.pc t) = none →
      Owed { s with sys := sys, pc := update s.pc t (s.pc t) } t :=
    fun hin hwake hin' hwake' => .away hin' hwake' (hfull hin hwake)
  rcases ha with ⟨pid, rfl⟩ | rfl | rfl | rfl | rfl
  all_goals refine h.act hact rfl trivial fun sys hsys => ?_
  · obtain ⟨hpc, rfl⟩ := Runs.taken_ok hsys
    exact haway (by simp [hpc]) (by rw [hpc]; rfl) (by simp [SleepSys.goto])
      (by simp [SleepSys.goto, SleepSys.waking])
  · obtain ⟨hpc, rfl⟩ := Runs.taken_ok hsys
    exact haway (by simp [hpc]) (by rw [hpc]; rfl) (by simp [SleepSys.goto])
      (by simp [SleepSys.goto, SleepSys.waking])
  · obtain ⟨-, rfl⟩ := Runs.taken_ok hsys
    exact hsame
  · obtain ⟨-, hsys⟩ := Option.ite_none_right_eq_some.1 hsys
    split at hsys
    · rename_i hpc
      cases hsys
      exact haway (by simp [hpc]) (by rw [hpc]; rfl) (by simp [SleepSys.goto])
        (by simp [SleepSys.goto, SleepSys.waking])
    · cases hsys
  · obtain ⟨-, rfl⟩ := Runs.taken_ok hsys
    exact hsame

end

theorem pipeCond_put (hfull : d.full = false) (hold : pipeCond c d = false) : c = .nread := by
  cases c with
  | nread => rfl
  | nwrite => simp [pipeCond, hfull] at hold

theorem pipeCond_take (hempty : d.empty = false) (hold : pipeCond c d = false) : c = .nwrite := by
  cases c with
  | nread => simp [pipeCond, hempty] at hold
  | nwrite => rfl

theorem pipeCond_close {writable : Bool} (hold : pipeCond c d = false)
    (hnow : pipeCond c (d.close writable) = true) : c = if writable then .nread else .nwrite := by
  cases c <;> cases writable <;> first | rfl | exact absurd (hold.symm.trans hnow) (by simp)

/-- **A step under `pi->lock`.**  Only the exit of `pipewrite` after a byte was stored would be a
problem. -/
theorem Inv.next (h : s.Inv) (hpc : s.sys.pc t = .inside) (hok : s.leavesBytes t = false)
    (hnext : s.next t = some s') : s'.Inv := by
  unfold PipeSys.next at hnext
  cases hk : s.pc t with
  | idle => simp [hk] at hnext
  | write src n i wrote =>
    simp only [hk] at hnext
    have howes : ∀ c, owes (s.pc t) c = true → c = .nread := by
      intro c hc
      rw [hk] at hc
      simp only [owes, Bool.and_eq_true, decide_eq_true_eq] at hc
      exact hc.2
    split at hnext
    · rename_i hlt
      -- the exits of the loop body
      have hnone : s.pipe.readopen = false ∨ s.sys.killed t = true →
          ∀ c, owes (s.pc t) c = false := by
        intro hexit c
        cases wrote with
        | false => simp [hk, owes]
        | true => rcases hexit with hexit | hexit <;> simp [leavesBytes, hk, hlt, hexit] at hok
      split at hnext
      · rename_i hopen
        exact h.return' hpc hnext (hnone (.inl hopen))
      · rename_i hopen
        split at hnext
        · cases hnext
        · split at hnext
          · rename_i hkilled
            exact h.return' hpc hnext (hnone (.inr hkilled))
          · unfold writeBody at hnext
            split at hnext
            · rename_i hfull
              exact h.wakeup hpc hnext howes fun _ _ _ _ => ⟨hfull, by simpa using hopen⟩
            · rename_i hfull
              split at hnext
              · exact h.wakeup hpc hnext howes nofun
              · refine h.access hpc hnext (fun c hc => ?_) (fun c hold _ => ?_)
                  nofun
                · simp [owes, howes c hc]
                · have hc := pipeCond_put (by simpa using hfull) hold
                  simp [owes, hc]
    · exact h.wakeup hpc hnext howes nofun
  | writeFull src n i =>
    simp only [hk] at hnext
    obtain ⟨-, hfull, hopen⟩ := (h.owed t).full src n i hk
    exact h.sleep hpc hnext (by simp [pipeCond, hfull, hopen]) (fun c => by simp [hk, owes])
      nofun
  | read dst n =>
    simp only [hk] at hnext
    split at hnext
    · rename_i hwait
      split at hnext
      · cases hnext
      · split at hnext
        · exact h.return' hpc hnext fun c => by simp [hk, owes]
        · refine h.sleep hpc hnext ?_ (fun c => by simp [hk, owes]) nofun
          simpa [pipeCond] using hwait
    · cases hnext
      refine ⟨h.sys, fun t' => ?_⟩
      by_cases hne : t' = t
      · rw [hne]
        refine ⟨fun _ c hd => ?_, (h.owed t).waking, fun _ _ _ h' => by simp at h'⟩
        have := (h.owed t).inside hpc c hd
        simpa [hk, owes] using .inl (this.resolve_right (by simp [hk, owes]))
      · have hpc' : update s.pc t (.readCopy dst n 0) t' = s.pc t' :=
          update_of_ne hne _ _
        refine ⟨fun h' c hd => ?_, (h.owed t').waking,
          fun src n i h' => (h.owed t').full src n i (hpc'.symm.trans h')⟩
        show _ ∨ owes (update s.pc t (.readCopy dst n 0) t') c = true
        rw [hpc']
        exact (h.owed t').inside h' c hd
  | readCopy dst n i =>
    simp only [hk] at hnext
    have howes : ∀ c, owes (s.pc t) c = true → c = .nwrite := by
      intro c hc
      rw [hk] at hc
      simpa [owes] using hc
    split at hnext
    · split at hnext
      · exact h.wakeup hpc hnext howes nofun
      · rename_i hempty
        split at hnext
        · refine h.access hpc hnext (fun c hc => by simp [owes, howes c hc])
            (fun c hold _ => ?_) nofun
          simp [owes, pipeCond_take (by simpa using hempty) hold]
        · refine h.access hpc hnext (fun c hc => by simp [owes, howes c hc])
            (fun c hold _ => ?_) nofun
          simp [owes, pipeCond_take (by simpa using hempty) hold]
    · exact h.wakeup hpc hnext howes nofun
  | close writable =>
    simp only [hk] at hnext
    refine h.access hpc hnext (fun c hc => by simp [hk, owes] at hc) (fun c hold hnow => ?_)
      nofun
    simp [owes, pipeCond_close hold hnow]
  | wake c r =>
    simp only [hk] at hnext
    refine h.wakeup hpc hnext (fun c' hc' => ?_) nofun
    simpa [hk, owes] using hc'
  | leave r =>
    simp only [hk] at hnext
    exact h.return' hpc hnext fun c => by simp [hk, owes]

/-- **Every step keeps the invariant**, unless a writer leaves bytes behind. -/
theorem Inv.step {a : PipeAct} (h : s.Inv) (hok : s.Announces a)
    (hstep : s.step a = some (.ok s')) : s'.Inv := by
  simp only [PipeSys.step, map_eq_some_iff, ok.injEq, exists_eq_right] at hstep
  cases a with
  | pipewrite t src n => exact h.acquire hstep nofun
  | piperead t dst n => exact h.acquire hstep nofun
  | pipeclose t writable => exact h.acquire hstep nofun
  | next t =>
    obtain ⟨hpc, hnext⟩ := Option.ite_none_right_eq_some.1 hstep
    exact h.next hpc hok hnext
  | kill t pid => exact h.other (.inl ⟨pid, rfl⟩) hstep
  | yield t => exact h.other (.inr (.inl rfl)) hstep
  | run t => exact h.run hstep
  | schedAcquire p => exact h.other (.inr (.inr (.inl rfl))) hstep
  | schedRun p => exact h.other (.inr (.inr (.inr (.inl rfl)))) hstep
  | schedRelease p => exact h.other (.inr (.inr (.inr (.inr rfl)))) hstep

theorem Start.inv (h : s.Start) : s.Inv := by
  refine ⟨h.sys.inv, fun t => .away (h.sys.pc_ne (by simp) (by simp) t) ?_ fun _ _ _ =>
    by simp [h.pc]⟩
  rcases h.sys.pc t with ⟨hp, -⟩ | hp <;> rw [hp] <;> rfl

/-- **Pipe sleepers have a reason.**  If no writer leaves `pipewrite` by `return -1` after it has
stored a byte in the same section, then whenever `pi->lock` is free, who is asleep on `&pi->nread`
finds the pipe empty and its write end open, and who is asleep on `&pi->nwrite` finds it full and
its read end open. -/
theorem sleepers_have_reason {s0 : PipeSys} (h0 : s0.Start) (hr : Runs.Reach step Announces s0 s)
    (hlk : s.sys.lk = none) (p : Fin nProc) (hp : s.sys.state p = .sleeping) :
    (s.sys.chan p = some .nread → s.pipe.buf.count = 0 ∧ s.pipe.writeopen = true) ∧
      (s.sys.chan p = some .nwrite → s.pipe.buf.count = pipeSize ∧ s.pipe.readopen = true) := by
  have h : s.Inv := hr.invariant h0.inv fun _ _ _ hi hok hs => hi.step hok hs
  have hcond : ∀ c, s.sys.chan p = some c → pipeCond c s.pipe = false := by
    intro c hc
    rw [← Bool.not_eq_true]
    exact fun htrue => h.sys.awake hlk htrue p ⟨hp, hc⟩
  constructor
  · intro hc
    have := hcond _ hc
    simp only [pipeCond, Bool.or_eq_false_iff, Bool.not_eq_false', PipeData.empty,
      decide_eq_true_eq, RingBuf.nread_eq_iff] at this
    exact this
  · intro hc
    have := hcond _ hc
    simp only [pipeCond, Bool.or_eq_false_iff, Bool.not_eq_false', PipeData.full,
      decide_eq_true_eq, RingBuf.full_iff pipeSize_lt] at this
    exact this

theorem sleepers_have_reason_reader : ∃ s, (Runs.Reach step Announces threeProcs s ∧
    s.sys.lk = none ∧ s.sys.state 0 = .sleeping ∧ s.sys.chan 0 = some .nread) ∧
    s.pipe.buf.count = 0 ∧ s.pipe.writeopen = true := by
  have hrun : ∃ s, Runs.Reach step Announces threeProcs s ∧
      s.sys.lk = none ∧ s.sys.state 0 = .sleeping ∧ s.sys.chan 0 = some .nread :=
    Runs.exists_reach_of_exec
    (writerDone 1 ++ [.piperead 2 (fun _ => true) 1, .next 2, .next 2, .next 2] ++
      List.replicate 191 (.run 2) ++ [.next 2] ++ readerSleeps) (by decide +kernel)
  obtain ⟨s, hr, hlk, hstate, hchan⟩ := hrun
  exact ⟨s, ⟨hr, hlk, hstate, hchan⟩,
    (sleepers_have_reason threeProcs_start hr hlk 0 hstate).1 hchan⟩

/-- **A reader left asleep.**  The writer stores a byte for the reader that sleeps, is killed before
the next turn of its loop, and returns without `wakeup`: the reader sleeps on, and the pipe has a
byte. -/
theorem reader_left_asleep : ∃ s, Runs.Reach step (fun _ _ => True) threeProcs s ∧
    s.sys.lk = none ∧ s.sys.state 0 = .sleeping ∧ s.sys.chan 0 = some .nread ∧
    s.pipe.buf.count = 1 ∧ s.ret 1 = -1 :=
  Runs.exists_reach_of_exec
    (readerSleeps ++ [.pipewrite 1 (fun _ => some 65) 2, .next 1, .kill 2 2] ++
      List.replicate 6 (.run 2) ++ [.next 1]) (by decide +kernel)

end PipeSys

end CsklubOs
