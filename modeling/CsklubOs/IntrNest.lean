/-
**Interrupts and spin-locks across context switches.**

`push_off`, `pop_off`, `acquire` and `release` from `kernel/spinlock.c`, and the two sides of
`swtch` in `sched` and `scheduler` from `kernel/proc.c`, by any number of CPUs, process threads and
locks.  `noff` and `intena` belong to a CPU, while the nesting belongs to the thread that runs
there; `sched` keeps `intena` in a local variable, and `p->lock` is acquired by one thread and
released by another.

`sleep`, `yield` and `exit` are sequences of the actions below.  A thread may perform them in any
order, as long as it calls `pop_off` only to undo a `push_off`.  An interrupt that arrives in
`push_off` before interrupts are off comes before it.

Main definitions:

* `NestSys` — each thread carries the number of its `push_off`s that are not undone, and the state
  of the interrupts before the one that raised `noff` from `0`;
* `NestOp`, `NestSys.step` — `acquire` up to its loop, a successful turn of the loop, `release`,
  `push_off`, `pop_off`, turning interrupts on or off outside of all of these (as traps do), `sched`
  up to `swtch`, the statement after `swtch`, and `swtch` in the scheduler.

Main results:

* `interrupt_nesting` — interrupts are off while `noff` is positive, and restored when it is `0`
  again.
-/

import CsklubOs.Runs

set_option autoImplicit false

namespace CsklubOs

open Function List

/-! ### CPUs and threads -/

/-- The spin-locks: `p->lock` of each process, and others. -/
inductive SpinId (T K : Type)
  | proc (t : T)
  | other (k : K)
  deriving DecidableEq

/-- The kernel threads: one for each process, and the scheduler of each CPU. -/
inductive Tid (C T : Type)
  | proc (t : T)
  | scheduler (c : C)
  deriving DecidableEq

/-- `struct spinlock`. -/
structure SpinLock (C : Type) where
  locked : Bool
  cpu : Option C

/-- `struct cpu`, with the bit of `sstatus` that enables interrupts. -/
structure CpuRec (T : Type) where
  proc : Option T
  noff : ℕ
  intena : Bool
  intr : Bool

/-- Where a thread is: anywhere, in the loop of `acquire`, or in `sched` after `swtch`. -/
inductive ThreadAt (T K : Type)
  | free
  | spin (lk : SpinId T K)
  | resumed
  deriving DecidableEq

/-- A kernel thread: where it is, the local variable `intena` of `sched`, and the calls of
`push_off` that it still has to match.  The other fields are not in the code: the locks that it has
acquired, the number of `push_off`s that are not undone, and the interrupts before the first of
these; a thread that starts in `forkret` has to undo the `push_off` of the scheduler. -/
structure KThread (T K : Type) where
  pc : ThreadAt T K
  intena : Bool
  pushes : ℕ
  held : List (SpinId T K)
  depth : ℕ
  entry : Option Bool

inductive NestPanic
  | popOffInterruptible
  | popOff
  | acquire
  | release
  | schedLock
  | schedLocks
  | schedInterruptible
  deriving DecidableEq

namespace IntrNest

variable {T K : Type}

def pushOff (cp : CpuRec T) (th : KThread T K) : CpuRec T × KThread T K :=
  ({ cp with intr := false
             intena := if cp.noff = 0 then cp.intr else cp.intena
             noff := cp.noff + 1 },
   { th with depth := th.depth + 1
             entry := if cp.noff = 0 then some cp.intr else th.entry })

def popOff (cp : CpuRec T) (th : KThread T K) : Except NestPanic (CpuRec T × KThread T K) :=
  if cp.intr = true then .error .popOffInterruptible
  else if cp.noff < 1 then .error .popOff
  else .ok ({ cp with noff := cp.noff - 1
                      intr := if cp.noff - 1 = 0 ∧ cp.intena = true then true else cp.intr },
            { th with depth := th.depth - 1 })

/-- The thread of a new process, in `forkret`. -/
def fresh (t : T) : KThread T K := ⟨.free, false, 0, [.proc t], 1, none⟩

end IntrNest

open IntrNest

/-- The CPUs, the locks, the threads, and the processes whose state is `RUNNING`. -/
structure NestSys (C T K : Type) where
  cpu : C → CpuRec T
  lock : SpinId T K → SpinLock C
  thread : Tid C T → KThread T K
  running : T → Bool

/-- What the thread on a CPU does. -/
inductive NestOp (T K : Type)
  | acquire (lk : SpinId T K)
  | swap
  | release (lk : SpinId T K)
  | pushOff
  | popOff
  | intrOn
  | intrOff
  | sched
  | restore
  | swtch (t : T)
  | spawn (t : T)

namespace NestSys

variable {C T K : Type} [DecidableEq C] [DecidableEq T] [DecidableEq K]

section

omit [DecidableEq C] [DecidableEq T] [DecidableEq K]

/-- The thread that a CPU executes. -/
def cur (s : NestSys C T K) (c : C) : Tid C T :=
  match (s.cpu c).proc with
  | some t => .proc t
  | none => .scheduler c

def holding (s : NestSys C T K) (c : C) (lk : SpinId T K) : Prop :=
  (s.lock lk).locked = true ∧ (s.lock lk).cpu = some c

end

instance (s : NestSys C T K) (c : C) (lk : SpinId T K) : Decidable (holding s c lk) :=
  inferInstanceAs (Decidable (_ ∧ _))

/-- A CPU and the thread that it executes are changed. -/
def put (s : NestSys C T K) (c : C) (x : CpuRec T × KThread T K) : NestSys C T K :=
  { s with cpu := update s.cpu c x.1, thread := update s.thread (cur s c) x.2 }

def setLock (s : NestSys C T K) (lk : SpinId T K) (l : SpinLock C) : NestSys C T K :=
  { s with lock := update s.lock lk l }

/-- When an action can be taken.  The scheduler calls `swtch` with the lock of a process that is not
running and no other; `allocproc` makes the thread of a process under the lock of the process. -/
def possible (s : NestSys C T K) (c : C) : NestOp T K → Prop
  | .acquire _ | .release _ | .pushOff => (s.thread (cur s c)).pc = .free
  | .swap => ∃ lk ∈ (match (s.thread (cur s c)).pc with | .spin lk => some lk | _ => none),
      (s.lock lk).locked = false
  | .popOff => (s.thread (cur s c)).pc = .free ∧ 0 < (s.thread (cur s c)).pushes
  | .intrOn | .intrOff => (s.thread (cur s c)).pc = .free ∧ (s.cpu c).noff = 0
  | .sched => (s.thread (cur s c)).pc = .free ∧ (s.cpu c).proc ≠ none
  | .restore => (s.thread (cur s c)).pc = .resumed
  | .swtch t => (s.thread (cur s c)).pc = .free ∧ (s.cpu c).proc = none ∧ (s.cpu c).noff = 1 ∧
      holding s c (.proc t) ∧ s.running t = false
  | .spawn t => (s.thread (cur s c)).pc = .free ∧ holding s c (.proc t) ∧ s.running t = false

instance (s : NestSys C T K) (c : C) (op : NestOp T K) : Decidable (possible s c op) := by
  cases op <;> unfold possible <;> infer_instance

/-- `sched` of process `t`, up to `swtch`. -/
def schedOut (s : NestSys C T K) (c : C) (t : T) : Except NestPanic (NestSys C T K) :=
  let cp := s.cpu c
  let th := s.thread (.proc t)
  if ¬ holding s c (.proc t) then .error .schedLock
  else if cp.noff ≠ 1 then .error .schedLocks
  else if cp.intr = true then .error .schedInterruptible
  else .ok { s with cpu := update s.cpu c { cp with proc := none }
                    thread := update s.thread (.proc t)
                      { th with pc := .resumed, intena := cp.intena }
                    running := update s.running t false }

/-- One action. -/
def act (s : NestSys C T K) (c : C) (op : NestOp T K) : Except NestPanic (NestSys C T K) :=
  let cp := s.cpu c
  let th := s.thread (cur s c)
  match op with
  | .acquire lk =>
    if holding s c lk then .error .acquire
    else .ok (put s c ((pushOff cp th).1, { (pushOff cp th).2 with pc := .spin lk }))
  | .swap =>
    match th.pc with
    | .spin lk => .ok ((put s c (cp, { th with pc := .free, held := lk :: th.held })).setLock lk
        ⟨true, some c⟩)
    | _ => .ok s
  | .release lk =>
    if ¬ holding s c lk then .error .release
    else do
      let x ← popOff cp th
      pure ((put s c (x.1, { x.2 with held := x.2.held.erase lk })).setLock lk ⟨false, none⟩)
  | .pushOff => .ok (put s c ((pushOff cp th).1,
    { (pushOff cp th).2 with pushes := th.pushes + 1 }))
  | .popOff => do
    let x ← popOff cp th
    pure (put s c (x.1, { x.2 with pushes := x.2.pushes - 1 }))
  | .intrOn => .ok (put s c ({ cp with intr := true }, th))
  | .intrOff => .ok (put s c ({ cp with intr := false }, th))
  | .sched =>
    match cp.proc with
    | some t => schedOut s c t
    | none => .ok s
  | .restore => .ok (put s c ({ cp with intena := th.intena }, { th with pc := .free }))
  | .swtch t => .ok { s with cpu := update s.cpu c { cp with proc := some t }
                             running := update s.running t true }
  | .spawn t => .ok { s with thread := update s.thread (.proc t) (fresh t) }

/-- One action of one CPU. -/
def step (s : NestSys C T K) (a : C × NestOp T K) : Option (Except NestPanic (NestSys C T K)) :=
  if possible s a.1 a.2 then some (act s a.1 a.2) else none

section

omit [DecidableEq C] [DecidableEq T] [DecidableEq K]

/-- The CPUs when they enter their schedulers, with interrupts on or off. -/
def boot (intr : C → Bool) : NestSys C T K :=
  { cpu := fun c => ⟨none, 0, false, intr c⟩
    lock := fun _ => ⟨false, none⟩
    thread := fun
      | .proc t => fresh t
      | .scheduler _ => ⟨.free, false, 0, [], 0, none⟩
    running := fun _ => false }

/-! ### The invariant -/

/-- The `push_off` of an `acquire` that has not got its lock yet. -/
def spinning : ThreadAt T K → ℕ
  | .spin _ => 1
  | _ => 0

/-- `intena` as it is going to be when the thread leaves `sched`. -/
def intenaOf (cp : CpuRec T) (th : KThread T K) : Bool :=
  if th.pc matches .resumed then th.intena else cp.intena

end

/-- A CPU and the thread that it executes; the CPU holds the locks `H`. -/
structure CpuOk (cp : CpuRec T) (th : KThread T K) (H : SpinId T K → Prop) : Prop where
  depth : cp.noff = th.depth
  count : th.depth = th.pushes + th.held.length + spinning th.pc
  off : 0 < cp.noff → cp.intr = false
  held : ∀ lk, H lk ↔ lk ∈ th.held
  nodup : th.held.Nodup
  restored : cp.proc ≠ none → 0 < cp.noff → ∀ b, th.entry = some b → intenaOf cp th = b

/-- A thread that waits for the scheduler to switch to it, in `sched` or before `forkret`. -/
structure ParkedOk (t : T) (th : KThread T K) : Prop where
  pc : th.pc = .resumed ∨ th.pc = .free ∧ th.entry = none
  pushes : th.pushes = 0
  held : th.held = [.proc t]
  depth : th.depth = 1
  restored : ∀ b, th.entry = some b → th.intena = b

/-- The scheduler while a process runs on its CPU. -/
structure SwitchedOk (t : T) (th : KThread T K) : Prop where
  pc : th.pc = .free
  pushes : th.pushes = 0
  held : th.held = [.proc t]
  depth : th.depth = 1

/-- **The invariant.** -/
structure Ok (s : NestSys C T K) : Prop where
  cpu : ∀ c, CpuOk (s.cpu c) (s.thread (cur s c)) (holding s c)
  parked : ∀ t, s.running t = false → ParkedOk t (s.thread (.proc t))
  switched : ∀ c t, (s.cpu c).proc = some t → SwitchedOk t (s.thread (.scheduler c))
  running : ∀ c t, (s.cpu c).proc = some t → s.running t = true
  uniq : ∀ c c' t, (s.cpu c).proc = some t → (s.cpu c').proc = some t → c = c'

variable {s : NestSys C T K} {c : C} {cp : CpuRec T} {th : KThread T K} {H : SpinId T K → Prop}

variable {t : T} {c' : C} {s' : NestSys C T K}

section

omit [DecidableEq C] [DecidableEq T] [DecidableEq K]

theorem cur_of_some (h : (s.cpu c).proc = some t) : cur s c = .proc t := by
  rw [cur, h]

theorem cur_of_none (h : (s.cpu c).proc = none) : cur s c = .scheduler c := by
  rw [cur, h]

theorem cur_eq_proc (h : cur s c = .proc t) : (s.cpu c).proc = some t := by
  rw [cur] at h
  split at h
  · rename_i t' ht
    cases h
    exact ht
  · cases h

theorem cur_eq_scheduler (h : cur s c = .scheduler c') : c = c' := by
  rw [cur] at h
  split at h
  · cases h
  · cases h
    rfl

theorem Ok.cur_inj (h : Ok s) (heq : cur s c' = cur s c) : c' = c := by
  cases hc : cur s c with
  | proc t =>
    rw [hc] at heq
    exact h.uniq c' c t (cur_eq_proc heq) (cur_eq_proc hc)
  | scheduler d =>
    rw [hc] at heq
    exact (cur_eq_scheduler heq).trans (cur_eq_scheduler hc).symm

end

omit [DecidableEq K] in
/-- The frame of an action that stays on its CPU: only the CPU and its thread have to be
looked at. -/
theorem Ok.local (h : Ok s) {x : CpuRec T × KThread T K} (hcpu : s'.cpu = update s.cpu c x.1)
    (hthread : s'.thread = update s.thread (cur s c) x.2) (hrun : s'.running = s.running)
    (hproc : x.1.proc = (s.cpu c).proc) (hlock : ∀ c' ≠ c, ∀ lk, holding s' c' lk ↔ holding s c' lk)
    (hok : CpuOk x.1 x.2 (holding s' c)) : Ok s' := by
  have hproc' : ∀ c', (s'.cpu c').proc = (s.cpu c').proc := by
    intro c'
    rw [hcpu, update_apply]
    split_ifs with heq
    · rw [hproc, heq]
    · rfl
  have hcur : ∀ c', cur s' c' = cur s c' := fun c' => by rw [cur, cur, hproc']
  have hother : ∀ θ, θ ≠ cur s c → s'.thread θ = s.thread θ := fun θ hθ => by
    rw [hthread, update_of_ne hθ]
  refine ⟨fun c' => ?_, fun t ht => ?_, fun c' t ht => ?_, fun c' t ht => ?_,
    fun c1 c2 t h1 h2 => ?_⟩
  · rcases eq_or_ne c' c with rfl | hne
    · rw [hcur, hcpu, hthread, update_self, update_self]
      exact hok
    · have hold := h.cpu c'
      rw [hcur, hcpu, update_of_ne hne, hother _ fun heq => hne (h.cur_inj heq)]
      exact ⟨hold.depth, hold.count, hold.off, fun lk => (hlock c' hne lk).trans (hold.held lk),
        hold.nodup, hold.restored⟩
  · rw [hrun] at ht
    rw [hother]
    · exact h.parked t ht
    · intro heq
      rw [h.running c t (cur_eq_proc heq.symm)] at ht
      cases ht
  · rw [hproc'] at ht
    rw [hother]
    · exact h.switched c' t ht
    · intro heq
      have hc := cur_eq_scheduler heq.symm
      rw [hc, cur_of_some ht] at heq
      cases heq
  · rw [hproc'] at ht
    rw [hrun]
    exact h.running c' t ht
  · rw [hproc'] at h1 h2
    exact h.uniq c1 c2 t h1 h2

/-! ### `push_off` and `pop_off` -/

section

omit [DecidableEq C] [DecidableEq T] [DecidableEq K]

section

variable (h : CpuOk cp th H) (hfree : th.pc = .free)

include h hfree

theorem CpuOk.pushOff (pc : ThreadAt T K) (n : ℕ) (hpc : pc ≠ .resumed)
    (hcount : n + spinning pc = th.pushes + 1) :
    CpuOk (IntrNest.pushOff cp th).1 { (IntrNest.pushOff cp th).2 with pc := pc, pushes := n }
    H := by
  refine ⟨?_, ?_, fun _ => rfl, h.held, h.nodup, fun hproc _ b hb => ?_⟩
  · show cp.noff + 1 = th.depth + 1
    rw [h.depth]
  · show th.depth + 1 = n + th.held.length + spinning pc
    have := h.count
    rw [hfree] at this
    simp only [spinning] at this
    omega
  · have hint : intenaOf (IntrNest.pushOff cp th).1
      { (IntrNest.pushOff cp th).2 with pc := pc, pushes := n } =
        if cp.noff = 0 then cp.intr else cp.intena := by
      cases pc <;> first | rfl | exact absurd rfl hpc
    rw [hint]
    have hentry : (if cp.noff = 0 then some cp.intr else th.entry) = some b := hb
    split_ifs at hentry ⊢ with h0
    · exact Option.some.inj hentry
    · have hrest := h.restored hproc (Nat.pos_of_ne_zero h0) b hentry
      rwa [intenaOf, hfree] at hrest

/-- `pop_off` does not panic while there is something to undo, and gives back the interrupts. -/
theorem CpuOk.popOff (hpos : 0 < th.depth) :
    ∃ x, IntrNest.popOff cp th = .ok x ∧ x.1.proc = cp.proc ∧ x.1.noff = cp.noff - 1 ∧
      x.1.intena = cp.intena ∧ x.2 = { th with depth := th.depth - 1 } ∧
      (0 < x.1.noff → x.1.intr = false) ∧ (x.1.noff = 0 → cp.proc ≠ none → ∀ b, th.entry = some b →
      x.1.intr = b) := by
  have hnoff : 0 < cp.noff := h.depth ▸ hpos
  have hintr := h.off hnoff
  refine ⟨_, by rw [IntrNest.popOff, if_neg (by rw [hintr]; exact Bool.false_ne_true),
    if_neg (by omega)],
    rfl, rfl, rfl, rfl, fun hlt => ?_, fun h0 hproc b hb => ?_⟩
  · show (if cp.noff - 1 = 0 ∧ cp.intena = true then true else cp.intr) = false
    rw [if_neg fun h' => absurd h'.1 (Nat.pos_iff_ne_zero.1 hlt)]
    exact hintr
  · have hrest := h.restored hproc hnoff b hb
    rw [intenaOf, hfree] at hrest
    show (if cp.noff - 1 = 0 ∧ cp.intena = true then true else cp.intr) = b
    have hrest' : cp.intena = b := hrest
    have h0' : cp.noff - 1 = 0 := h0
    cases b with
    | true => rw [if_pos ⟨h0', hrest'⟩]
    | false =>
      rw [if_neg fun h' => by rw [hrest'] at h'; exact absurd h'.2 Bool.false_ne_true]
      exact hintr

/-- The CPU after a `pop_off`, with the lock that was released or the `push_off` that was undone
taken off. -/
theorem CpuOk.popped {x : CpuRec T × KThread T K} (hproc : x.1.proc = cp.proc)
    (hnoff : x.1.noff = cp.noff - 1) (hintena : x.1.intena = cp.intena)
    (hth : x.2 = { th with depth := th.depth - 1 }) (hoff : 0 < x.1.noff → x.1.intr = false) (n : ℕ)
    (held : List (SpinId T K)) (H' : SpinId T K → Prop)
    (hcount : n + held.length + 1 = th.pushes + th.held.length) (hheld : ∀ lk, H' lk ↔ lk ∈ held)
    (hnodup : held.Nodup) : CpuOk x.1 { x.2 with pushes := n, held := held } H' := by
  have hc := h.count
  rw [hfree] at hc
  simp only [spinning] at hc
  refine ⟨?_, ?_, hoff, hheld, hnodup, fun hp hpos b hb => ?_⟩
  · rw [hnoff, hth, h.depth]
  · rw [hth]
    show th.depth - 1 = n + held.length + spinning th.pc
    rw [hfree]
    simp only [spinning]
    omega
  · rw [hth] at hb ⊢
    rw [hproc] at hp
    have hrest := h.restored hp (by omega) b hb
    rw [intenaOf, hfree] at hrest ⊢
    rw [← hrest]
    exact hintena

end

end

/-! ### The actions -/

/-- When the thread of a process brings `noff` back to `0`, interrupts are as they were before its
`push_off` from `0`. -/
def Restores (s s' : NestSys C T K) (c : C) : Prop :=
  ∀ t b, (s.cpu c).proc = some t → 0 < (s.cpu c).noff → (s'.cpu c).noff = 0 →
    (s.thread (.proc t)).entry = some b → (s'.cpu c).intr = b

/-- What an action may lead to. -/
def Outcome (s : NestSys C T K) (c : C) : Except NestPanic (NestSys C T K) → Prop
  | .ok s' => Ok s' ∧ Restores s s' c
  | .error e => e ≠ .popOff ∧ e ≠ .popOffInterruptible

omit [DecidableEq T] [DecidableEq K] in
omit [DecidableEq C] in
theorem restores_of_pos (h : 0 < (s.cpu c).noff → (s'.cpu c).noff ≠ 0) :
    Restores s s' c := fun _ _ _ hpos h0 _ => absurd h0 (h hpos)

omit [DecidableEq K] in
theorem noff_put (s : NestSys C T K) (c : C) (x : CpuRec T × KThread T K) :
    (put s c x).cpu c = x.1 :=
  update_self ..

theorem Ok.acquire (h : Ok s) (hfree : (s.thread (cur s c)).pc = .free) (lk : SpinId T K) :
    Outcome s c (act s c (.acquire lk)) := by
  rw [act]
  split_ifs with hhold
  · exact ⟨by decide, by decide⟩
  · refine ⟨h.local rfl rfl rfl rfl (fun _ _ _ => Iff.rfl) ?_, restores_of_pos fun _ => ?_⟩
    · exact (h.cpu c).pushOff hfree _ _ (fun h' => by cases h') rfl
    · rw [noff_put]
      exact Nat.succ_ne_zero _

theorem Ok.pushOff (h : Ok s) (hfree : (s.thread (cur s c)).pc = .free) :
    Outcome s c (act s c .pushOff) := by
  refine ⟨h.local rfl rfl rfl rfl (fun _ _ _ => Iff.rfl) ?_, restores_of_pos fun _ => ?_⟩
  · have hok := (h.cpu c).pushOff hfree .free ((s.thread (cur s c)).pushes + 1)
      (fun h' => by cases h') rfl
    rw [← hfree] at hok
    exact hok
  · rw [noff_put]
    exact Nat.succ_ne_zero _

theorem Ok.swap (h : Ok s) {lk : SpinId T K} (hspin : (s.thread (cur s c)).pc = .spin lk)
    (hfree : (s.lock lk).locked = false) : Outcome s c (act s c .swap) := by
  have hc := h.cpu c
  have hout : ∀ c', ¬ holding s c' lk := by
    rintro c' ⟨hl, -⟩
    rw [hfree] at hl
    cases hl
  have hhold : ∀ c' lk', holding ((put s c (s.cpu c, { s.thread (cur s c) with
      pc := .free, held := lk :: (s.thread (cur s c)).held })).setLock lk ⟨true, some c⟩) c' lk' ↔
      (lk' = lk ∧ c' = c) ∨ holding s c' lk' := by
    intro c' lk'
    rcases eq_or_ne lk' lk with rfl | hne
    · have hnot := hout c'
      simp only [holding, setLock, update_self, Option.some_inj, true_and] at hnot ⊢
      simp only [hnot, or_false]
      exact eq_comm
    · simp only [holding, setLock, update_of_ne hne, hne, false_and, false_or]
      exact Iff.rfl
  simp only [act, hspin]
  refine ⟨h.local rfl rfl rfl rfl (fun c' hne lk' => ?_) ?_, ?_⟩
  · rw [hhold]
    exact or_iff_right fun h' => hne h'.2
  · refine ⟨hc.depth, ?_, hc.off, fun lk' => ?_, ?_, fun hproc hpos b hb => ?_⟩
    · have := hc.count
      rw [hspin] at this
      simp only [spinning, length_cons] at this ⊢
      omega
    · rw [hhold, mem_cons, hc.held]
      exact or_congr (and_iff_left rfl) Iff.rfl
    · exact nodup_cons.2 ⟨fun hmem => hout c ((hc.held lk).2 hmem), hc.nodup⟩
    · have hrest := hc.restored hproc hpos b hb
      rw [intenaOf, hspin] at hrest
      exact hrest
  · refine restores_of_pos fun hpos => ?_
    show ((put s c _).cpu c).noff ≠ 0
    rw [noff_put]
    exact Nat.pos_iff_ne_zero.1 hpos

theorem Ok.release (h : Ok s) (hfree : (s.thread (cur s c)).pc = .free) (lk : SpinId T K) :
    Outcome s c (act s c (.release lk)) := by
  rw [act]
  split_ifs with hheld
  swap
  · exact ⟨by decide, by decide⟩
  · have hc := h.cpu c
    have hmem := (hc.held lk).1 hheld
    have hlen := length_pos_of_mem hmem
    have hcount := hc.count
    obtain ⟨x, hx, hproc, hnoff, hintena, hth, hoff, hrest⟩ := hc.popOff hfree (by omega)
    rw [hx]
    have hhold' : ∀ c' lk', holding ((put s c (x.1, { x.2 with held := x.2.held.erase lk })).setLock
        lk ⟨false, none⟩) c' lk' ↔ lk' ≠ lk ∧ holding s c' lk' := by
      intro c' lk'
      rcases eq_or_ne lk' lk with rfl | hne
      · simp only [holding, setLock, update_self, ne_eq, not_true, false_and, Bool.false_eq_true]
      · simp only [holding, setLock, update_of_ne hne, ne_eq, hne, not_false_iff, true_and]
        exact Iff.rfl
    refine ⟨h.local rfl rfl rfl hproc (fun c' hne lk' => ?_) ?_, fun t b ht hpos h0 hb => ?_⟩
    · rw [hhold']
      refine and_iff_right_of_imp fun h' heq => hne ?_
      rw [heq] at h'
      exact (Option.some.inj (hheld.2.symm.trans h'.2)).symm
    · have hlen' : (x.2.held.erase lk).length = (s.thread (cur s c)).held.length - 1 := by
        rw [hth]
        exact length_erase_of_mem hmem
      have hok := hc.popped hfree hproc hnoff hintena hth hoff (s.thread (cur s c)).pushes
        (x.2.held.erase lk)
        (holding ((put s c (x.1, { x.2 with held := x.2.held.erase lk })).setLock lk ⟨false, none⟩)
        c) (by omega) (fun lk' => ?_) ?_
      · rw [hth] at hok ⊢
        exact hok
      · rw [hhold', hc.held, hth]
        exact hc.nodup.mem_erase_iff.symm
      · rw [hth]
        exact hc.nodup.erase lk
    · have hcpu : ((put s c (x.1, { x.2 with held := x.2.held.erase lk })).setLock lk
          ⟨false, none⟩).cpu c = x.1 := noff_put s c _
      have h0' : x.1.noff = 0 := hcpu ▸ h0
      rw [hcpu]
      rw [← cur_of_some ht] at hb
      exact hrest h0' (fun hn => by rw [ht] at hn; cases hn) b hb

theorem Ok.popOff (h : Ok s) (hfree : (s.thread (cur s c)).pc = .free)
    (hpushes : 0 < (s.thread (cur s c)).pushes) : Outcome s c (act s c .popOff) := by
  have hc := h.cpu c
  have hcount := hc.count
  obtain ⟨x, hx, hproc, hnoff, hintena, hth, hoff, hrest⟩ := hc.popOff hfree (by omega)
  simp only [act, hx]
  refine ⟨h.local rfl rfl rfl hproc (fun _ _ _ => Iff.rfl) ?_, fun t b ht hpos h0 hb => ?_⟩
  · exact hc.popped hfree hproc hnoff hintena hth hoff (x.2.pushes - 1) x.2.held (holding s c)
      (by rw [hth]; dsimp only; omega) (fun lk => by rw [hc.held, hth])
      (by rw [hth]; exact hc.nodup)
  · have hcpu : (put s c (x.1, { x.2 with pushes := x.2.pushes - 1 })).cpu c = x.1 := noff_put s c _
    have h0' : x.1.noff = 0 := hcpu ▸ h0
    show ((put s c _).cpu c).intr = b
    rw [hcpu]
    rw [← cur_of_some ht] at hb
    exact hrest h0' (fun hn => by rw [ht] at hn; cases hn) b hb

omit [DecidableEq K] in
theorem Ok.setIntr (h : Ok s) (h0 : (s.cpu c).noff = 0) (b : Bool) :
    Outcome s c (.ok (put s c ({ s.cpu c with intr := b }, s.thread (cur s c)))) := by
  have hc := h.cpu c
  refine ⟨h.local rfl rfl rfl rfl (fun _ _ _ => Iff.rfl) ⟨hc.depth, hc.count, ?_, hc.held, hc.nodup,
    ?_⟩, fun _ _ _ hpos => absurd h0 (Nat.pos_iff_ne_zero.1 hpos)⟩
  · exact fun hpos => absurd h0 (Nat.pos_iff_ne_zero.1 hpos)
  · exact fun _ hpos => absurd h0 (Nat.pos_iff_ne_zero.1 hpos)

theorem Ok.restore (h : Ok s) (hpc : (s.thread (cur s c)).pc = .resumed) :
    Outcome s c (act s c .restore) := by
  have hc := h.cpu c
  refine ⟨h.local rfl rfl rfl rfl (fun _ _ _ => Iff.rfl) ⟨hc.depth, ?_, hc.off, hc.held, hc.nodup,
    ?_⟩, restores_of_pos fun hpos => ?_⟩
  · have := hc.count
    rw [hpc] at this
    exact this
  · intro hproc hpos b hb
    have hrest := hc.restored hproc hpos b hb
    rw [intenaOf, hpc] at hrest
    exact hrest
  · rw [noff_put]
    exact Nat.pos_iff_ne_zero.1 hpos

omit [DecidableEq C] [DecidableEq T] [DecidableEq K] in
theorem CpuOk.only_lock (h : CpuOk cp th H) (hnoff : cp.noff = 1) (hhold : H (.proc t)) :
    th.pushes = 0 ∧ th.held = [.proc t] ∧ th.depth = 1 := by
  have hmem := (h.held _).1 hhold
  have hlen := length_pos_of_mem hmem
  have hcount := h.count
  have hdepth := h.depth
  obtain ⟨lk, hlk⟩ := length_eq_one_iff.1 (by omega : th.held.length = 1)
  rw [hlk, mem_singleton] at hmem
  exact ⟨by omega, by rw [hlk, hmem], by omega⟩

omit [DecidableEq T] [DecidableEq K] in
theorem cur_update {cp : CpuRec T} (hcpu : s'.cpu = update s.cpu c cp) (hne : c' ≠ c) :
    s'.cpu c' = s.cpu c' ∧ cur s' c' = cur s c' := by
  have hsame : s'.cpu c' = s.cpu c' := by rw [hcpu, update_of_ne hne]
  exact ⟨hsame, by rw [cur, cur, hsame]⟩

omit [DecidableEq K] in
theorem Ok.leave (h : Ok s) (ht : (s.cpu c).proc = some t) (hfree : (s.thread (cur s c)).pc = .free)
    (hhold : holding s c (.proc t)) (hnoff : (s.cpu c).noff = 1)
    (hcpu : s'.cpu = update s.cpu c { s.cpu c with proc := none })
    (hthread : s'.thread = update s.thread (.proc t)
      { s.thread (.proc t) with pc := .resumed, intena := (s.cpu c).intena })
    (hrun : s'.running = update s.running t false) (hlock : s'.lock = s.lock) : Ok s' := by
  have hc := h.cpu c
  have hcur := cur_of_some ht
  obtain ⟨hpushes, hheld, hdepth⟩ := hc.only_lock hnoff hhold
  rw [hcur] at hc hpushes hheld hdepth hfree
  have hsw := h.switched c t ht
  have hholding : ∀ c' lk, holding s' c' lk ↔ holding s c' lk :=
    fun c' lk => by rw [holding, holding, hlock]
  have hself : s'.cpu c = { s.cpu c with proc := none } := by rw [hcpu, update_self]
  have hother : ∀ θ, θ ≠ .proc t → s'.thread θ = s.thread θ := fun θ hθ => by
    rw [hthread, update_of_ne hθ]
  have hscheduler : ∀ c', s'.thread (.scheduler c') = s.thread (.scheduler c') := fun c' =>
    hother _ fun heq => by cases heq
  -- the other CPUs run other processes
  have hproc : ∀ c' t', (s'.cpu c').proc = some t' → c' ≠ c ∧ (s.cpu c').proc = some t' ∧
      t' ≠ t := by
    intro c' t' ht'
    have hne : c' ≠ c := by
      rintro rfl
      rw [hself] at ht'
      cases ht'
    rw [(cur_update hcpu hne).1] at ht'
    exact ⟨hne, ht', fun heq => hne (h.uniq c' c t (heq ▸ ht') ht)⟩
  refine ⟨fun c' => ?_, fun t' ht' => ?_, fun c' t' ht' => ?_, fun c' t' ht' => ?_,
    fun c1 c2 t' h1 h2 => ?_⟩
  · rcases eq_or_ne c' c with rfl | hne
    · rw [cur_of_none (by rw [hself]), hscheduler, hself]
      refine ⟨by rw [hsw.depth, ← hnoff], ?_, hc.off, fun lk => ?_, ?_, fun hn => absurd rfl hn⟩
      · rw [hsw.depth, hsw.pushes, hsw.held, hsw.pc]
        rfl
      · rw [hholding, hc.held, hheld, hsw.held]
      · rw [hsw.held]
        exact nodup_singleton _
    · obtain ⟨hcpu', hcur'⟩ := cur_update hcpu hne
      have hold := h.cpu c'
      rw [hcpu', hcur', hother _ fun heq => hne (h.cur_inj (heq.trans hcur.symm))]
      exact ⟨hold.depth, hold.count, hold.off, fun lk => (hholding c' lk).trans (hold.held lk),
        hold.nodup, hold.restored⟩
  · rcases eq_or_ne t' t with rfl | hne
    · rw [hthread, update_self]
      refine ⟨.inl rfl, hpushes, hheld, hdepth, fun b hb => ?_⟩
      have hrest := hc.restored (fun hn => by rw [ht] at hn; cases hn) (by omega) b hb
      rw [intenaOf, hfree] at hrest
      exact hrest
    · rw [hrun, update_of_ne hne] at ht'
      rw [hother _ fun heq => hne (Tid.proc.inj heq)]
      exact h.parked t' ht'
  · rw [hscheduler]
    exact h.switched c' t' (hproc c' t' ht').2.1
  · obtain ⟨-, ht', hne⟩ := hproc c' t' ht'
    rw [hrun, update_of_ne hne]
    exact h.running c' t' ht'
  · exact h.uniq c1 c2 t' (hproc c1 t' h1).2.1 (hproc c2 t' h2).2.1

omit [DecidableEq K] in
theorem Ok.schedOut (h : Ok s) (ht : (s.cpu c).proc = some t)
    (hfree : (s.thread (cur s c)).pc = .free) : Outcome s c (schedOut s c t) := by
  rw [NestSys.schedOut]
  split_ifs with h1 h2 h3
  · exact ⟨by decide, by decide⟩
  · exact ⟨by decide, by decide⟩
  · refine ⟨h.leave ht hfree h1 (not_not.1 h2) rfl rfl rfl rfl, restores_of_pos fun hpos => ?_⟩
    show (update s.cpu c _ c).noff ≠ 0
    rw [update_self]
    exact Nat.pos_iff_ne_zero.1 hpos
  · exact ⟨by decide, by decide⟩

theorem Ok.swtch (h : Ok s) (hp : possible s c (.swtch t)) : Outcome s c (act s c (.swtch t)) := by
  obtain ⟨hfree, hnone, hnoff, hhold, hrun⟩ := hp
  have hc := h.cpu c
  have hcur := cur_of_none hnone
  obtain ⟨hpushes, hheld, hdepth⟩ := hc.only_lock hnoff hhold
  rw [hcur] at hc hpushes hheld hdepth hfree
  have hpark := h.parked t hrun
  rw [act]
  generalize hs' : ({ s with cpu := update s.cpu c { s.cpu c with proc := some t }
                             running := update s.running t true } : NestSys C T K) = s'
  have hcpu : s'.cpu = update s.cpu c { s.cpu c with proc := some t } := by rw [← hs']
  have hself : s'.cpu c = { s.cpu c with proc := some t } := by rw [hcpu, update_self]
  have hthread : s'.thread = s.thread := by rw [← hs']
  have hrun' : s'.running = update s.running t true := by rw [← hs']
  have hholding : ∀ c' lk, holding s' c' lk ↔ holding s c' lk := fun c' lk => by
    rw [holding, holding, ← hs']
  -- the process was not running anywhere else
  have hproc : ∀ c' t', (s'.cpu c').proc = some t' →
      (c' = c ∧ t' = t) ∨ (c' ≠ c ∧ (s.cpu c').proc = some t' ∧ t' ≠ t) := by
    intro c' t' ht'
    rcases eq_or_ne c' c with rfl | hne
    · rw [hself] at ht'
      exact .inl ⟨rfl, (Option.some.inj ht').symm⟩
    · rw [(cur_update hcpu hne).1] at ht'
      refine .inr ⟨hne, ht', fun heq => ?_⟩
      rw [h.running c' t (heq ▸ ht')] at hrun
      cases hrun
  refine ⟨⟨fun c' => ?_, fun t' ht' => ?_, fun c' t' ht' => ?_, fun c' t' ht' => ?_,
    fun c1 c2 t' h1 h2 => ?_⟩, ?_⟩
  · rcases eq_or_ne c' c with rfl | hne
    · rw [cur_of_some (by rw [hself] : (s'.cpu c').proc = some t), hthread, hself]
      refine ⟨by rw [hpark.depth, ← hnoff], ?_, hc.off, fun lk => ?_, ?_, fun _ _ b hb => ?_⟩
      · rw [hpark.depth, hpark.pushes, hpark.held]
        rcases hpark.pc with hpc | ⟨hpc, -⟩ <;> rw [hpc] <;> rfl
      · rw [hholding, hc.held, hheld, hpark.held]
      · rw [hpark.held]
        exact nodup_singleton _
      · rcases hpark.pc with hpc | ⟨-, hentry⟩
        · rw [intenaOf, hpc]
          exact hpark.restored b hb
        · rw [hentry] at hb
          cases hb
    · obtain ⟨hcpu', hcur'⟩ := cur_update hcpu hne
      have hold := h.cpu c'
      rw [hcpu', hcur', hthread]
      exact ⟨hold.depth, hold.count, hold.off, fun lk => (hholding c' lk).trans (hold.held lk),
        hold.nodup, hold.restored⟩
  · rw [hrun', update_apply] at ht'
    split_ifs at ht'
    rw [hthread]
    exact h.parked t' ht'
  · rw [hthread]
    rcases hproc c' t' ht' with ⟨rfl, rfl⟩ | ⟨-, ht', -⟩
    · exact ⟨hfree, hpushes, hheld, hdepth⟩
    · exact h.switched c' t' ht'
  · rw [hrun', update_apply]
    split_ifs with heq
    · rfl
    · rcases hproc c' t' ht' with ⟨-, rfl⟩ | ⟨-, ht', -⟩
      · exact absurd rfl heq
      · exact h.running c' t' ht'
  · rcases hproc c1 t' h1 with ⟨rfl, rfl⟩ | ⟨-, h1, hne1⟩
    · rcases hproc c2 t' h2 with ⟨rfl, -⟩ | ⟨-, -, hne2⟩
      · rfl
      · exact absurd rfl hne2
    · rcases hproc c2 t' h2 with ⟨-, rfl⟩ | ⟨-, h2, -⟩
      · exact absurd rfl hne1
      · exact h.uniq c1 c2 t' h1 h2
  · refine restores_of_pos fun hpos => ?_
    rw [hself]
    exact Nat.pos_iff_ne_zero.1 hpos

theorem Ok.spawn (h : Ok s) (hrun : s.running t = false) : Outcome s c (act s c (.spawn t)) := by
  have hother : ∀ θ : Tid C T, θ ≠ .proc t → update s.thread (.proc t) (fresh t) θ = s.thread θ :=
    fun θ hθ => update_of_ne hθ _ _
  refine ⟨⟨fun c' => ?_, fun t' ht' => ?_, fun c' t' ht' => ?_, h.running, h.uniq⟩,
    restores_of_pos ?_⟩
  · have hne : cur s c' ≠ .proc t := fun heq => by
      rw [h.running c' t (cur_eq_proc heq)] at hrun
      cases hrun
    show CpuOk (s.cpu c') (update s.thread (.proc t) (fresh t) (cur s c')) (holding s c')
    rw [hother _ hne]
    exact h.cpu c'
  · show ParkedOk t' (update s.thread (.proc t) (fresh t) (.proc t'))
    rcases eq_or_ne t' t with rfl | hne
    · rw [update_self]
      exact ⟨.inr ⟨rfl, rfl⟩, rfl, rfl, rfl, fun b hb => by cases hb⟩
    · rw [hother _ fun heq => hne (Tid.proc.inj heq)]
      exact h.parked t' ht'
  · show SwitchedOk t' (update s.thread (.proc t) (fresh t) (.scheduler c'))
    exact h.switched c' t' ht'
  · exact fun hpos => Nat.pos_iff_ne_zero.1 hpos

/-- **Every action** keeps the invariant or stops in another place than `pop_off`. -/
theorem Ok.act (h : Ok s) {op : NestOp T K} (hp : possible s c op) : Outcome s c (act s c op) := by
  cases op with
  | acquire lk => exact h.acquire hp lk
  | swap =>
    obtain ⟨lk, hlk, hfree⟩ := hp
    refine h.swap ?_ hfree
    cases hpc : (s.thread (cur s c)).pc with
    | spin lk' =>
      rw [hpc] at hlk
      rw [Option.some.inj hlk]
    | free =>
      rw [hpc] at hlk
      cases hlk
    | resumed =>
      rw [hpc] at hlk
      cases hlk
  | release lk => exact h.release hp lk
  | pushOff => exact h.pushOff hp
  | popOff => exact h.popOff hp.1 hp.2
  | intrOn => exact h.setIntr hp.2 true
  | intrOff => exact h.setIntr hp.2 false
  | sched =>
    obtain ⟨t, ht⟩ := Option.ne_none_iff_exists'.1 hp.2
    simp only [NestSys.act, ht]
    exact h.schedOut ht hp.1
  | restore => exact h.restore hp
  | swtch t => exact h.swtch hp
  | spawn t => exact h.spawn hp.2.2

omit [DecidableEq C] [DecidableEq T] [DecidableEq K] in
theorem Ok.boot (intr : C → Bool) : Ok (boot intr : NestSys C T K) := by
  refine ⟨fun c => ⟨rfl, rfl, fun h => absurd h (lt_irrefl 0), fun lk => ?_, nodup_nil,
    fun h => absurd rfl h⟩, fun t _ => ⟨.inr ⟨rfl, rfl⟩, rfl, rfl, rfl, fun b hb => by cases hb⟩,
    fun c t h => (by cases h), fun c t h => (by cases h), fun c c' t h => (by cases h)⟩
  exact iff_of_false (fun h => by cases h.1) not_mem_nil

/-- **Interrupt nesting**: in every state that CPUs reach, interrupts are off on a CPU whose `noff`
is positive, `noff` is the number of `push_off`s of its thread that are not undone, no action panics
in `pop_off`, and a process that brings `noff` back to `0` has the interrupts that it had before the
`push_off` that raised `noff` from `0`, on whichever CPU that was. -/
theorem interrupt_nesting {intr : C → Bool} {s : NestSys C T K}
    (h : Runs.Reach step (fun _ _ => True) (boot intr) s) :
    (∀ c, 0 < (s.cpu c).noff → (s.cpu c).intr = false) ∧
    (∀ c, (s.cpu c).noff = (s.thread (cur s c)).depth) ∧
    (∀ a e, step s a = some (.error e) → e ≠ .popOff ∧ e ≠ .popOffInterruptible) ∧
    ∀ c op s' t b, step s (c, op) = some (.ok s') → (s.cpu c).proc = some t → 0 < (s.cpu c).noff →
      (s'.cpu c).noff = 0 → (s.thread (.proc t)).entry = some b → (s'.cpu c).intr = b := by
  have hstep : ∀ {s : NestSys C T K} {a r}, Ok s → step s a = some r → Outcome s a.1 r := by
    intro s a r hok hr
    rw [step] at hr
    split_ifs at hr with hp
    rw [← Option.some.inj hr]
    exact hok.act hp
  have hok : Ok s := h.invariant (I := Ok) (Ok.boot intr) fun _ _ _ hok _ hs => (hstep hok hs).1
  refine ⟨fun c => (hok.cpu c).off, fun c => (hok.cpu c).depth, fun a e he => hstep hok he, ?_⟩
  intro c op s' t b hs ht hpos h0 hb
  exact (hstep hok hs).2 t b ht hpos h0 hb

/-- A process that goes to sleep under a lock on CPU 0, with interrupts on before, and is resumed on
CPU 1, whose scheduler has them off. -/
theorem interrupt_nesting_migrated : ∃ s : NestSys (Fin 2) (Fin 1) (Fin 1),
    Runs.Reach step (fun _ _ => True) (boot (· = 0)) s ∧ (s.cpu 1).proc = some 0 ∧
    (s.cpu 1).noff = 1 ∧ ∀ s', step s (1, .release (.proc 0)) = some (.ok s') →
      (s'.cpu 1).noff = 0 → (s'.cpu 1).intr = true := by
  have hrun : ∃ s : NestSys (Fin 2) (Fin 1) (Fin 1),
      Runs.Reach step (fun _ _ => True) (boot (· = 0)) s ∧ (s.cpu 1).proc = some 0 ∧
      (s.cpu 1).noff = 1 ∧ (s.thread (.proc 0)).entry = some true := Runs.exists_reach_of_exec
    [(0, .acquire (.proc 0)), (0, .swap), (0, .swtch 0), (0, .release (.proc 0)),
     (0, .acquire (.other 0)), (0, .swap), (0, .acquire (.proc 0)), (0, .swap),
     (0, .release (.other 0)), (0, .sched), (0, .release (.proc 0)),
     (1, .acquire (.proc 0)), (1, .swap), (1, .swtch 0), (1, .restore)] (by decide +kernel)
  obtain ⟨s, hreach, hproc, hnoff, hentry⟩ := hrun
  refine ⟨s, hreach, hproc, hnoff, fun s' hs h0 => ?_⟩
  exact (interrupt_nesting hreach).2.2.2 1 _ s' 0 true hs hproc (by rw [hnoff]; decide) h0 hentry

end NestSys

end CsklubOs
