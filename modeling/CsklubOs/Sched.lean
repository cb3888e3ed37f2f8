/-
**Processes on several CPUs.**

The functions of `kernel/proc.c` that make, run, stop and remove processes, one lock operation at a
time.  A CPU executes its scheduler or the kernel thread of a process; spin-locks are held by CPUs,
so that `p->lock`, which a thread acquires before it calls `swtch` and the scheduler releases
afterwards, does not change its holder there.

The threads may be stopped by the clock wherever they hold no lock.  What processes do in other
parts of the kernel and in user space is `Loc.user`; there they may sleep under other locks, and
call `wakeup` for other channels.  A `wakeup` from an interrupt that finds no process on its CPU is
not modelled.

Main definitions:

* `CpuSys`, `CpuAct`, `CpuSys.step` — CPUs that run the scheduler, `yield`, `sleep`, `wakeup`,
  `kill`, `fork`, `exit` with `reparent`, and `wait`;
* `Inv`, `Statement` — the invariant, and what a statement of a thread may do to it.

Main results:

* `Inv.step` — every step keeps the invariant;
* `one_cpu` — a process runs on one CPU at a time.
-/

import CsklubOs.Params
import CsklubOs.Runs

set_option autoImplicit false

namespace CsklubOs

open Function
open Option (map_eq_some_iff some_inj)

/-! ### Processes -/

/-- `enum procstate`. -/
inductive ProcState
  | unused
  | used
  | sleeping
  | runnable
  | running
  | zombie
  deriving DecidableEq, Repr

/-- What a process sleeps on: a process, in `wait`, or something else. -/
inductive Chan
  | proc (i : Fin nProc)
  | other (n : ℕ)
  deriving DecidableEq

/-- The part of `struct proc` that `p->lock` and `wait_lock` protect. -/
structure Proc where
  state : ProcState
  chan : Option Chan
  killed : Bool
  xstate : ℤ
  pid : ℤ
  parent : Option (Fin nProc)
  deriving DecidableEq

/-- What `freeproc` leaves of a slot; also what the table holds at boot. -/
def Proc.free : Proc where
  state := .unused
  chan := none
  killed := false
  xstate := 0
  pid := 0
  parent := none

/-! ### Places -/

/-- What a call of `wakeup` returns to: a caller elsewhere, the loop of `reparent` or the end of
`exit`. -/
inductive WakeRet
  | user
  | reparent (n : ℕ) (status : ℤ)
  | exit (status : ℤ)
  deriving DecidableEq

/-- What is done with a slot under its lock. -/
inductive SlotOp
  /-- The body of the loop of `wakeup(chan)`; the channel may be a null pointer. -/
  | wake (c : Option Chan) (r : WakeRet)
  /-- The body of the loop of `kill`. -/
  | kill (pid : ℤ)
  /-- The body of the loop of `allocproc`, and `fork` up to `release(&np->lock)`. -/
  | alloc
  /-- `np->state = RUNNABLE` in `fork`. -/
  | ready (pid : ℤ)
  /-- The test of a child in `wait`. -/
  | reap
  deriving DecidableEq

/-- What a thread does under the lock of its own process. -/
inductive OwnOp
  /-- `killed(p)` in `wait`. -/
  | killed
  /-- `sleep`: the release of `wait_lock` or of another lock. -/
  | sleep (c : Chan) (wait : Bool)
  /-- `exit`: `p->xstate = status; p->state = ZOMBIE`. -/
  | exit (status : ℤ)
  /-- `setkilled(p)` in `usertrap`. -/
  | setkilled
  deriving DecidableEq

/-- Where a thread without a `p->lock` is. -/
inductive Loc
  | user
  /-- A call is over and returns `v`. -/
  | ret (v : ℤ)
  /-- `acquire(&p->lock)` for slot `k`. -/
  | visit (k : Fin nProc) (op : SlotOp)
  /-- `acquire(&p->lock)` for the process itself. -/
  | own (op : OwnOp)
  | wakeLoop (c : Option Chan) (n : ℕ) (r : WakeRet)
  | killLoop (pid : ℤ) (n : ℕ)
  | allocLoop (n : ℕ)
  /-- `fork`: `acquire(&wait_lock)`. -/
  | forkParent (np : Fin nProc) (pid : ℤ)
  /-- `fork`: `np->parent = p`. -/
  | forkSet (np : Fin nProc) (pid : ℤ)
  /-- `fork`: `release(&wait_lock)`. -/
  | forkRelease (np : Fin nProc) (pid : ℤ)
  /-- `exit`: `acquire(&wait_lock)`. -/
  | exitAcquire (status : ℤ)
  /-- The loop of `reparent`. -/
  | reparent (n : ℕ) (status : ℤ)
  /-- `exit`: `wakeup(p->parent)`. -/
  | exitWake (status : ℤ)
  /-- `sleep`: `acquire(lk)`; the flag says that `lk` is `wait_lock`. -/
  | sleepAcquire (wait : Bool)
  /-- `wait`: `acquire(&wait_lock)`. -/
  | waitAcquire
  /-- The loop of `wait`. -/
  | waitScan (n : ℕ) (havekids : Bool)
  /-- `wait`: `release(&wait_lock)`, and the value to return. -/
  | waitRet (v : ℤ)
  deriving DecidableEq

/-- What `sched` returns to. -/
inductive SchedRet
  | yield (l : Loc)
  | sleep (c : Chan) (wait : Bool)
  | forkret
  | exit (status : ℤ)
  deriving DecidableEq

/-- Where the thread of a process is. -/
inductive ThreadPc
  | at (l : Loc)
  /-- The lock of slot `k` is held. -/
  | inspect (k : Fin nProc) (op : SlotOp)
  /-- The lock of the process itself is held. -/
  | inspectOwn (op : OwnOp)
  /-- `release(&p->lock)` for slot `k`, and on to `l`. -/
  | leave (k : Fin nProc) (l : Loc)
  /-- `yield`: `acquire(&p->lock)`. -/
  | yieldAcquire (l : Loc)
  /-- `yield`: `p->state = RUNNABLE`. -/
  | yieldSet (l : Loc)
  /-- `sleep`: `p->chan = chan; p->state = SLEEPING`. -/
  | sleepSet (c : Chan) (wait : Bool)
  /-- `exit`: `release(&wait_lock)` by the zombie. -/
  | exitRelease (status : ℤ)
  /-- `swtch` to the scheduler. -/
  | sched (r : SchedRet)
  /-- The context is saved. -/
  | switched (r : SchedRet)
  /-- Back from `swtch`, with `p->lock`. -/
  | resumed (r : SchedRet)
  deriving DecidableEq

/-- What a CPU executes: a statement of its scheduler, or the thread of a process. -/
inductive CpuPc
  /-- `acquire(&p->lock)` in the loop of `scheduler`. -/
  | scan (n : ℕ)
  /-- `if(p->state == RUNNABLE)` -/
  | test (k : Fin nProc)
  /-- `swtch` to the process, which is marked as running. -/
  | dispatch (k : Fin nProc)
  | run (k : Fin nProc)
  /-- Back from `swtch`: `c->proc = 0`. -/
  | back (k : Fin nProc)
  /-- `release(&p->lock)` -/
  | release (k : Fin nProc)
  deriving DecidableEq

/-- The process table, the locks, and what threads and CPUs do. -/
structure CpuSys (C : Type) where
  proc : Fin nProc → Proc
  plock : Fin nProc → Option C
  waitLock : Option C
  pc : Fin nProc → ThreadPc
  cpu : C → CpuPc
  /-- `c->proc` -/
  cproc : C → Option (Fin nProc)
  nextpid : ℤ
  initproc : Fin nProc
  /-- The value that the last call of a process has returned. -/
  ret : Fin nProc → ℤ
  /-- The last call of `wait` was given an address. -/
  waitAddr : Fin nProc → Bool
  /-- What the last `wait` of a process stored at its address. -/
  status : Fin nProc → Option ℤ

/-- The calls of a process. -/
inductive ProcCall
  | fork
  | exit (status : ℤ)
  | wait (addr : Bool)
  | kill (pid : ℤ)
  | sleep (n : ℕ)
  | wakeup (n : ℕ)
  /-- An unexpected trap. -/
  | trap
  deriving DecidableEq

/-- A step of the scheduler of a CPU, a call by the process that it executes, the next statement of
that process, or an interrupt of the clock.  The flag says that there is memory, and that `copyout`
succeeds. -/
inductive CpuAct (C : Type)
  | sched (c : C)
  | call (c : C) (f : ProcCall)
  | thread (c : C) (flag : Bool)
  | preempt (c : C)

/-- The panics of these functions. -/
inductive CpuPanic
  | initExiting
  | zombieExit
  | schedLock
  | schedRunning
  deriving DecidableEq

/-! ### Locks of a thread -/

/-- The operations that are done under `wait_lock`. -/
def SlotOp.wait : SlotOp → Bool
  | .wake _ r => decide (r ≠ .user)
  | .reap => true
  | .kill _ | .alloc | .ready _ => false

@[inherit_doc SlotOp.wait]
def OwnOp.wait : OwnOp → Bool
  | .sleep _ w => w
  | .killed | .exit _ => true
  | .setkilled => false

/-- The places where `wait_lock` is held. -/
def Loc.wait : Loc → Bool
  | .visit _ op => op.wait
  | .own op => op.wait
  | .wakeLoop _ _ r => decide (r ≠ .user)
  | .forkSet _ _ | .forkRelease _ _ | .reparent _ _ | .exitWake _ | .waitScan _ _ | .waitRet _ =>
    true
  | .user | .ret _ | .killLoop _ _ | .allocLoop _ | .forkParent _ _ | .exitAcquire _
  | .sleepAcquire _ | .waitAcquire => false

namespace CpuSys

variable {C : Type} [DecidableEq C]

/-! ### The steps of the scheduler -/

/-- Thread `t` goes on at another place. -/
def goto (s : CpuSys C) (t : Fin nProc) (k : ThreadPc) : CpuSys C :=
  { s with pc := update s.pc t k }

def setCpu (s : CpuSys C) (c : C) (k : CpuPc) : CpuSys C :=
  { s with cpu := update s.cpu c k }

def setProc (s : CpuSys C) (k : Fin nProc) (p : Proc) : CpuSys C :=
  { s with proc := update s.proc k p }

def setLock (s : CpuSys C) (k : Fin nProc) (h : Option C) : CpuSys C :=
  { s with plock := update s.plock k h }

/-- The state of a process. -/
def state (s : CpuSys C) (p : Fin nProc) : ProcState := (s.proc p).state

/-- The next statement of `scheduler` on CPU `c`. -/
def schedStep (s : CpuSys C) (c : C) : Option (CpuSys C) :=
  match s.cpu c with
  | .scan n =>
    if h : n < nProc then
      if s.plock ⟨n, h⟩ = none then some ((s.setLock ⟨n, h⟩ (some c)).setCpu c (.test ⟨n, h⟩))
      else none
    else some (s.setCpu c (.scan 0))
  | .test k =>
    if s.state k = .runnable then
      some ({ s.setProc k { s.proc k with state := .running } with
        cproc := update s.cproc c (some k) }.setCpu c (.dispatch k))
    else some (s.setCpu c (.release k))
  | .dispatch k =>
    match s.pc k with
    | .switched r => some ((s.goto k (.resumed r)).setCpu c (.run k))
    | _ => none
  | .run _ => none
  | .back k =>
    some ({ s with cproc := update s.cproc c none }.setCpu c (.release k))
  | .release k => some ((s.setLock k none).setCpu c (.scan (k + 1)))

/-! ### The steps of a thread -/

section

variable (s : CpuSys C)

/-- The body of a section under the lock of slot `k`. -/
def slotStep (t k : Fin nProc) (flag : Bool) : SlotOp → CpuSys C
  | .wake ch r =>
    let s := if s.state k = .sleeping ∧ (s.proc k).chan = ch
      then s.setProc k { s.proc k with state := .runnable } else s
    s.goto t (.leave k (.wakeLoop ch (k + 1) r))
  | .kill pid =>
    if (s.proc k).pid = pid then
      let state := if s.state k = .sleeping then .runnable else s.state k
      (s.setProc k { s.proc k with killed := true, state }).goto t (.leave k (.ret 0))
    else s.goto t (.leave k (.killLoop pid (k + 1)))
  | .alloc =>
    if s.state k = .unused then
      let pid := s.nextpid
      let s := { s with nextpid := (s.nextpid + 1).bmod (2 ^ 32) }
      if flag then
        ((s.setProc k { s.proc k with pid, state := .used }).goto k (.switched .forkret)).goto t
          (.leave k (.forkParent k pid))
      else (s.setProc k Proc.free).goto t (.leave k (.ret (-1)))
    else s.goto t (.leave k (.allocLoop (k + 1)))
  | .ready pid =>
    (s.setProc k { s.proc k with state := .runnable }).goto t (.leave k (.ret pid))
  | .reap =>
    if s.state k = .zombie then
      if s.waitAddr t = true ∧ flag = false then s.goto t (.leave k (.waitRet (-1)))
      else
        let out := if s.waitAddr t then some (s.proc k).xstate else none
        ({ s with status := update s.status t out }.setProc k Proc.free).goto t
          (.leave k (.waitRet (s.proc k).pid))
    else s.goto t (.leave k (.waitScan (k + 1) true))

/-- The body of a section of thread `t` under its own lock. -/
def ownStep (t : Fin nProc) : OwnOp → CpuSys C
  | .killed =>
    if (s.proc t).killed then s.goto t (.leave t (.waitRet (-1)))
    else s.goto t (.leave t (.own (.sleep (.proc t) true)))
  | .sleep ch w =>
    let s := if w then { s with waitLock := none } else s
    s.goto t (.sleepSet ch w)
  | .exit status =>
    (s.setProc t { s.proc t with xstate := status, state := .zombie }).goto t (.exitRelease status)
  | .setkilled => (s.setProc t { s.proc t with killed := true }).goto t (.leave t .user)

/-- The next statement of thread `t`, on CPU `c`, where it holds no `p->lock`. -/
def locStep (c : C) (t : Fin nProc) : Loc → Option (CpuSys C)
  | .user => none
  | .ret v => some ({ s with ret := update s.ret t v }.goto t (.at .user))
  | .visit k op =>
    if s.plock k = none then some ((s.setLock k (some c)).goto t (.inspect k op)) else none
  | .own op =>
    if s.plock t = none then some ((s.setLock t (some c)).goto t (.inspectOwn op)) else none
  | .wakeLoop ch n r =>
    if h : n < nProc then
      if n = t then some (s.goto t (.at (.wakeLoop ch (n + 1) r)))
      else some (s.goto t (.at (.visit ⟨n, h⟩ (.wake ch r))))
    else
      match r with
      | .user => some (s.goto t (.at .user))
      | .reparent m status => some (s.goto t (.at (.reparent m status)))
      | .exit status => some (s.goto t (.at (.own (.exit status))))
  | .killLoop pid n =>
    if h : n < nProc then some (s.goto t (.at (.visit ⟨n, h⟩ (.kill pid))))
    else some (s.goto t (.at (.ret (-1))))
  | .allocLoop n =>
    if h : n < nProc then some (s.goto t (.at (.visit ⟨n, h⟩ .alloc)))
    else some (s.goto t (.at (.ret (-1))))
  | .forkParent np pid =>
    if s.waitLock = none then some ({ s with waitLock := some c }.goto t (.at (.forkSet np pid)))
    else none
  | .forkSet np pid =>
    some ((s.setProc np { s.proc np with parent := some t }).goto t (.at (.forkRelease np pid)))
  | .forkRelease np pid =>
    some ({ s with waitLock := none }.goto t (.at (.visit np (.ready pid))))
  | .exitAcquire status =>
    if s.waitLock = none then some ({ s with waitLock := some c }.goto t (.at (.reparent 0 status)))
    else none
  | .reparent n status =>
    if h : n < nProc then
      if (s.proc ⟨n, h⟩).parent = some t then
        some ((s.setProc ⟨n, h⟩ { s.proc ⟨n, h⟩ with parent := some s.initproc }).goto t
          (.at (.wakeLoop (some (.proc s.initproc)) 0 (.reparent (n + 1) status))))
      else some (s.goto t (.at (.reparent (n + 1) status)))
    else some (s.goto t (.at (.exitWake status)))
  | .exitWake status =>
    some (s.goto t (.at (.wakeLoop ((s.proc t).parent.map .proc) 0 (.exit status))))
  | .sleepAcquire wait =>
    if wait then
      if s.waitLock = none then
        some ({ s with waitLock := some c }.goto t (.at (.waitScan 0 false)))
      else none
    else some (s.goto t (.at .user))
  | .waitAcquire =>
    if s.waitLock = none then some ({ s with waitLock := some c }.goto t (.at (.waitScan 0 false)))
    else none
  | .waitScan n havekids =>
    if h : n < nProc then
      if (s.proc ⟨n, h⟩).parent = some t then some (s.goto t (.at (.visit ⟨n, h⟩ .reap)))
      else some (s.goto t (.at (.waitScan (n + 1) havekids)))
    else if havekids = false then some (s.goto t (.at (.waitRet (-1))))
    else some (s.goto t (.at (.own .killed)))
  | .waitRet v => some ({ s with waitLock := none }.goto t (.at (.ret v)))

/-- `sched` by thread `t` on CPU `c`. -/
def swtchOut (c : C) (t : Fin nProc) (r : SchedRet) : Except CpuPanic (CpuSys C) :=
  if s.plock t ≠ some c then .error .schedLock
  else if s.state t = .running then .error .schedRunning
  else .ok ((s.goto t (.switched r)).setCpu c (.back t))

/-- The next statement of thread `t` on CPU `c`. -/
def threadStep (c : C) (t : Fin nProc) (flag : Bool) : Option (Except CpuPanic (CpuSys C)) :=
  match s.pc t with
  | .at l => (s.locStep c t l).map .ok
  | .inspect k op => some (.ok (s.slotStep t k flag op))
  | .inspectOwn op => some (.ok (s.ownStep t op))
  | .leave k l => some (.ok ((s.setLock k none).goto t (.at l)))
  | .yieldAcquire l =>
    if s.plock t = none then some (.ok ((s.setLock t (some c)).goto t (.yieldSet l))) else none
  | .yieldSet l =>
    some (.ok ((s.setProc t { s.proc t with state := .runnable }).goto t (.sched (.yield l))))
  | .sleepSet ch w =>
    some (.ok ((s.setProc t { s.proc t with chan := some ch, state := .sleeping }).goto t
      (.sched (.sleep ch w))))
  | .exitRelease status => some (.ok ({ s with waitLock := none }.goto t (.sched (.exit status))))
  | .sched r => some (s.swtchOut c t r)
  | .switched _ => none
  | .resumed (.yield l) => some (.ok (s.goto t (.leave t l)))
  | .resumed (.sleep _ w) =>
    some (.ok ((s.setProc t { s.proc t with chan := none }).goto t (.leave t (.sleepAcquire w))))
  | .resumed .forkret => some (.ok (s.goto t (.leave t .user)))
  | .resumed (.exit _) => some (.error .zombieExit)

/-- A call by process `t`. -/
def callStep (t : Fin nProc) : ProcCall → Except CpuPanic (CpuSys C)
  | .fork => .ok (s.goto t (.at (.allocLoop 0)))
  | .exit status =>
    if t = s.initproc then .error .initExiting else .ok (s.goto t (.at (.exitAcquire status)))
  | .wait addr =>
    .ok ({ s with
      waitAddr := update s.waitAddr t addr
      status := update s.status t none }.goto t (.at .waitAcquire))
  | .kill pid => .ok (s.goto t (.at (.killLoop pid 0)))
  | .sleep n => .ok (s.goto t (.at (.own (.sleep (.other n) false))))
  | .wakeup n => .ok (s.goto t (.at (.wakeLoop (some (.other n)) 0 .user)))
  | .trap => .ok (s.goto t (.at (.own .setkilled)))

/-- One step. -/
def step : CpuAct C → Option (Except CpuPanic (CpuSys C))
  | .sched c => (s.schedStep c).map .ok
  | .call c f =>
    match s.cpu c with
    | .run t => if s.pc t = .at .user then some (s.callStep t f) else none
    | _ => none
  | .thread c flag =>
    match s.cpu c with
    | .run t => s.threadStep c t flag
    | _ => none
  | .preempt c =>
    match s.cpu c with
    | .run t =>
      match s.pc t with
      | .at l => if l.wait = false then some (.ok (s.goto t (.yieldAcquire l))) else none
      | _ => none
    | _ => none

end

/-! ### The invariant -/

end CpuSys

/-- The slot whose lock the thread of `t` holds. -/
def ThreadPc.held (t : Fin nProc) : ThreadPc → Option (Fin nProc)
  | .at _ | .yieldAcquire _ | .switched _ => none
  | .inspect k _ | .leave k _ => some k
  | .inspectOwn _ | .yieldSet _ | .sleepSet _ _ | .exitRelease _ | .sched _ | .resumed _ => some t

/-- The places where the process is no longer marked as running. -/
def ThreadPc.stopping : ThreadPc → Bool
  | .exitRelease _ | .sched _ => true
  | _ => false

def ThreadPc.isSwitched : ThreadPc → Bool
  | .switched _ => true
  | _ => false

/-- The process has called `exit` and marked itself as a zombie. -/
def ThreadPc.exiting : ThreadPc → Bool
  | .exitRelease _ | .sched (.exit _) | .switched (.exit _) | .resumed (.exit _) => true
  | _ => false

/-- The process that a call of `fork` has allocated and not yet made runnable. -/
def Loc.forking : Loc → Option (Fin nProc)
  | .forkParent np _ | .forkSet np _ | .forkRelease np _ | .visit np (.ready _) => some np
  | _ => none

@[inherit_doc Loc.forking]
def ThreadPc.forking : ThreadPc → Option (Fin nProc)
  | .at l | .leave _ l | .yieldAcquire l | .yieldSet l | .sched (.yield l) | .switched (.yield l)
  | .resumed (.yield l) => l.forking
  | .inspect np (.ready _) => some np
  | _ => none

namespace CpuSys

variable {C : Type}

/-- What a CPU holds at a place of its scheduler. -/
def CpuOk (s : CpuSys C) (c : C) : CpuPc → Prop
  | .scan _ => s.cproc c = none
  | .test k | .release k => s.cproc c = none ∧ s.plock k = some c
  | .dispatch k => s.cproc c = some k ∧ s.plock k = some c ∧ s.state k = .running
  | .run k => s.cproc c = some k ∧ (s.pc k).isSwitched = false
  | .back k => s.cproc c = some k ∧ s.plock k = some c

/-- **The invariant of the scheduler.** -/
structure Inv (s : CpuSys C) : Prop where
  cpu : ∀ c, s.CpuOk c (s.cpu c)
  /-- The process of a CPU is running, or the CPU holds its lock. -/
  onCpu : ∀ c p, s.cproc c = some p → s.state p = .running ∨ s.plock p = some c
  one : ∀ c c' p, s.cproc c = some p → s.cproc c' = some p → c = c'
  held : ∀ c t k, s.cpu c = .run t → (s.pc t).held t = some k → s.plock k = some c
  /-- A thread that has not saved its context is executed. -/
  active : ∀ p, (s.pc p).isSwitched = false → ∃ c, s.cpu c = .run p
  running : ∀ c t, s.cpu c = .run t → (s.pc t).stopping = false → s.state t = .running
  stopped : ∀ c t, s.cpu c = .run t → (s.pc t).stopping = true → s.state t ≠ .running
  /-- A slot without a process, or whose process is not complete, has no thread. -/
  idle : ∀ p, s.state p = .unused ∨ s.state p = .used → (s.pc p).isSwitched = true
  forking : ∀ t np, (s.pc t).forking = some np → s.state np = .used
  forkOne : ∀ t t' np, (s.pc t).forking = some np → (s.pc t').forking = some np → t = t'
  zombie : ∀ p, s.state p = .zombie → (s.pc p).exiting = true
  exited : ∀ p, (s.pc p).exiting = true → s.state p = .zombie ∨ s.state p = .unused

variable {s s' : CpuSys C} {c c' : C} {t p q : Fin nProc} {k : ThreadPc}

theorem Inv.cproc_run (h : s.Inv) (hrun : s.cpu c = .run t) : s.cproc c = some t := by
  have hc := h.cpu c
  rw [hrun] at hc
  exact hc.1

/-- A CPU that holds the lock of a process which is not running is the only one that can have it. -/
theorem Inv.cproc_ne (h : s.Inv) (hlock : s.plock p = some c) (hp : s.state p ≠ .running)
    (hc : s.cproc c ≠ some p) (c' : C) : s.cproc c' ≠ some p := by
  intro hc'
  rcases h.onCpu c' p hc' with hs | hl
  · exact hp hs
  · rw [hlock, some_inj] at hl
    exact hc (hl ▸ hc')

theorem Inv.off_cpu (h : s.Inv) (hrun : s.cpu c = .run t) (hpt : p ≠ t) (hlock : s.plock p = some c)
    (hp : s.state p ≠ .running) : (∀ c', s.cproc c' ≠ some p) ∧ (s.pc p).isSwitched = true := by
  have hc : s.cproc c ≠ some p := by
    rw [h.cproc_run hrun, Ne, some_inj]
    exact hpt.symm
  have hne := h.cproc_ne hlock hp hc
  refine ⟨hne, ?_⟩
  cases hsw : (s.pc p).isSwitched with
  | true => rfl
  | false =>
    obtain ⟨c', hc'⟩ := h.active p hsw
    exact absurd (h.cproc_run hc') (hne c')

/-- `swtch` to a process that is marked as running: nobody else executes it, and its context is
saved. -/
theorem Inv.saved (h : s.Inv) (hc : s.cpu c = .dispatch q) :
    (s.pc q).isSwitched = true ∧ ∀ c', s.cproc c' = some q → c' = c := by
  have hok := h.cpu c
  rw [hc] at hok
  refine ⟨?_, fun c' hc' => h.one c' c q hc' hok.1⟩
  cases hsw : (s.pc q).isSwitched with
  | true => rfl
  | false =>
    obtain ⟨c', hc'⟩ := h.active q hsw
    obtain rfl := h.one c' c q (h.cproc_run hc') hok.1
    rw [hc] at hc'
    cases hc'

theorem Inv.alive (h : s.Inv) (hrun : s.cpu c = .run t) :
    s.state t ≠ .unused ∧ s.state t ≠ .used := by
  have hc := h.cpu c
  rw [hrun] at hc
  exact ⟨fun hs => absurd (h.idle t (.inl hs)) (by simp [hc.2]),
    fun hs => absurd (h.idle t (.inr hs)) (by simp [hc.2])⟩

theorem Inv.not_exiting (h : s.Inv) (hz : s.state p ≠ .zombie) (hu : s.state p ≠ .unused) :
    (s.pc p).exiting ≠ true :=
  fun hp => (h.exited p hp).elim hz hu

/-- What holds of one process. -/
structure ProcOk (s : CpuSys C) (p : Fin nProc) : Prop where
  active : (s.pc p).isSwitched = false → ∃ c, s.cpu c = .run p
  idle : s.state p = .unused ∨ s.state p = .used → (s.pc p).isSwitched = true
  zombie : s.state p = .zombie → (s.pc p).exiting = true
  exited : (s.pc p).exiting = true → s.state p = .zombie ∨ s.state p = .unused

/-- What holds of the thread that a CPU executes. -/
structure RunOk (s : CpuSys C) (c : C) (t : Fin nProc) : Prop where
  held : ∀ k, (s.pc t).held t = some k → s.plock k = some c
  running : (s.pc t).stopping = false → s.state t = .running
  stopped : (s.pc t).stopping = true → s.state t ≠ .running

/-- **A step of CPU `c`**: the other CPUs keep their locks, and their processes are as they were. -/
structure Moves (s s' : CpuSys C) (c : C) : Prop where
  cpu : ∀ c' ≠ c, s'.cpu c' = s.cpu c'
  cproc : ∀ c' ≠ c, s'.cproc c' = s.cproc c'
  lock : ∀ q, ∀ c' ≠ c, s.plock q = some c' → s'.plock q = some c'
  ok : s'.CpuOk c (s'.cpu c)
  mine : ∀ p, s'.cproc c = some p → (s'.state p = .running ∨ s'.plock p = some c) ∧
    ∀ c' ≠ c, s.cproc c' ≠ some p
  run : ∀ t, s'.cpu c = .run t → s'.RunOk c t
  proc : ∀ p, s'.pc p = s.pc p ∧ s'.state p = s.state p ∧ (s.cpu c = .run p → s'.cpu c = .run p) ∨
    s'.ProcOk p ∧ ∀ c' ≠ c, s.cproc c' ≠ some p
  fork : ∀ t np, (s'.pc t).forking = some np → s'.state np = .used ∧
    ∀ t', (s'.pc t').forking = some np → t' = t

theorem Inv.moves (h : s.Inv) (hm : s.Moves s' c) : s'.Inv := by
  have hsame : ∀ c' ≠ c, ∀ p, s.cproc c' = some p → s'.pc p = s.pc p ∧ s'.state p = s.state p := by
    intro c' hc' p hp
    obtain ⟨h1, h2, -⟩ | ⟨-, hno⟩ := hm.proc p
    · exact ⟨h1, h2⟩
    · exact absurd hp (hno c' hc')
  have hrun : ∀ c1 t, s'.cpu c1 = .run t → s'.RunOk c1 t := by
    intro c1 t ht
    by_cases hc : c1 = c
    · rw [hc] at ht ⊢
      exact hm.run t ht
    · rw [hm.cpu c1 hc] at ht
      obtain ⟨h1, h2⟩ := hsame c1 hc t (h.cproc_run ht)
      refine ⟨?_, ?_, ?_⟩ <;> rw [h1]
      · exact fun k hk => hm.lock k c1 hc (h.held c1 t k ht hk)
      · exact fun hs => h2.trans (h.running c1 t ht hs)
      · exact fun hs => h2 ▸ h.stopped c1 t ht hs
  have hproc : ∀ p, s'.ProcOk p := by
    intro p
    obtain ⟨h1, h2, h3⟩ | ⟨hp, -⟩ := hm.proc p
    · refine ⟨fun hs => ?_, ?_, ?_, ?_⟩
      · obtain ⟨c1, hc1⟩ := h.active p (h1 ▸ hs)
        by_cases hc : c1 = c
        · exact ⟨c, h3 (hc ▸ hc1)⟩
        · exact ⟨c1, (hm.cpu c1 hc).trans hc1⟩
      all_goals rw [h1, h2]
      · exact h.idle p
      · exact h.zombie p
      · exact h.exited p
    · exact hp
  refine ⟨fun c1 => ?_, fun c1 p hp => ?_, fun c1 c2 p h1 h2 => ?_,
    fun c1 t k ht => (hrun c1 t ht).held k, fun p => (hproc p).active,
    fun c1 t ht => (hrun c1 t ht).running, fun c1 t ht => (hrun c1 t ht).stopped,
    fun p => (hproc p).idle, fun t np hnp => (hm.fork t np hnp).1,
    fun t t' np h1 h2 => (hm.fork t' np h2).2 t h1, fun p => (hproc p).zombie,
    fun p => (hproc p).exited⟩
  · by_cases hc : c1 = c
    · rw [hc]
      exact hm.ok
    · have hok := h.cpu c1
      have hcp := hm.cproc c1 hc
      rw [hm.cpu c1 hc]
      cases hk : s.cpu c1 <;> rw [hk] at hok
      case scan => exact hcp.trans hok
      case dispatch q =>
        exact ⟨hcp.trans hok.1, hm.lock q c1 hc hok.2.1, (hsame c1 hc q hok.1).2.trans hok.2.2⟩
      case run q => exact ⟨hcp.trans hok.1, (hsame c1 hc q hok.1).1 ▸ hok.2⟩
      all_goals exact ⟨hcp.trans hok.1, hm.lock _ c1 hc hok.2⟩
  · by_cases hc : c1 = c
    · rw [hc] at hp ⊢
      exact (hm.mine p hp).1
    · rw [hm.cproc c1 hc] at hp
      exact (h.onCpu c1 p hp).imp (hsame c1 hc p hp).2.trans (hm.lock p c1 hc)
  · by_cases hc1 : c1 = c <;> by_cases hc2 : c2 = c
    · rw [hc1, hc2]
    · rw [hm.cproc c2 hc2] at h2
      exact absurd h2 ((hm.mine p (hc1 ▸ h1)).2 c2 hc2)
    · rw [hm.cproc c1 hc1] at h1
      exact absurd h1 ((hm.mine p (hc2 ▸ h2)).2 c1 hc1)
    · rw [hm.cproc c1 hc1] at h1
      rw [hm.cproc c2 hc2] at h2
      exact h.one c1 c2 p h1 h2

theorem Inv.forks (h : s.Inv)
    (hpc : ∀ t np, (s'.pc t).forking = some np → (s.pc t).forking = some np)
    (hst : ∀ t np, (s'.pc t).forking = some np → s.state np = .used → s'.state np = .used)
    (t np : Fin nProc) (hnp : (s'.pc t).forking = some np) :
    s'.state np = .used ∧ ∀ t', (s'.pc t').forking = some np → t' = t :=
  ⟨hst t np hnp (h.forking t np (hpc t np hnp)),
    fun t' hnp' => h.forkOne t' t np (hpc t' np hnp') (hpc t np hnp)⟩

theorem forking_update (hk : ∀ np, k.forking = some np → (s.pc t).forking = some np) :
    ∀ t1 np, (update s.pc t k t1).forking = some np → (s.pc t1).forking = some np :=
  (forall_update_iff s.pc fun t1 v => ∀ np, v.forking = some np → (s.pc t1).forking = some np).2
    ⟨hk, fun _ _ _ hnp => hnp⟩

/-- **A step of a thread.**  It takes no lock away from another CPU, and another process it changes
only under its lock, when it is not running. -/
structure Works (s s' : CpuSys C) (c : C) (t : Fin nProc) (k : ThreadPc) : Prop where
  pc : s'.pc t = k
  cpu : s'.cpu = s.cpu
  cproc : s'.cproc = s.cproc
  lock : ∀ q, ∀ c' ≠ c, s.plock q = some c' → s'.plock q = some c'
  sw : k.isSwitched = false
  held : ∀ q, k.held t = some q → s'.plock q = some c
  self : k.stopping = false ∧ k.exiting = false ∧ s'.state t = .running ∨
    k.stopping = true ∧ s'.plock t = some c ∧ s'.state t ≠ .running ∧ s'.state t ≠ .unused ∧
      s'.state t ≠ .used ∧ (k.exiting = true ↔ s'.state t = .zombie)
  other : ∀ p ≠ t, s'.pc p = s.pc p ∧ s'.state p = s.state p ∨
    s.plock p = some c ∧ s.state p ≠ .running ∧ (s'.pc p).isSwitched = true ∧ s'.state p ≠ .zombie ∧
      ((s'.pc p).exiting = true → s'.state p = .unused)
  fork : ∀ t1 np, (s'.pc t1).forking = some np → s'.state np = .used ∧
    ∀ t2, (s'.pc t2).forking = some np → t2 = t1

theorem Inv.works (h : s.Inv) (hrun : s.cpu c = .run t) (hw : s.Works s' c t k) : s'.Inv := by
  have hcp := h.cproc_run hrun
  have halone : ∀ c' ≠ c, s.cproc c' ≠ some t := fun c' hc' hp => hc' (h.one c' c t hp hcp)
  refine h.moves ⟨fun _ _ => by rw [hw.cpu], fun _ _ => by rw [hw.cproc], hw.lock, ?_,
    fun p hp => ?_, fun t1 ht => ?_, fun p => ?_, hw.fork⟩
  · rw [hw.cpu, hrun]
    exact ⟨hw.cproc ▸ hcp, by rw [hw.pc, hw.sw]⟩
  · rw [hw.cproc, hcp] at hp
    cases hp
    exact ⟨hw.self.imp (fun hs => hs.2.2) fun hs => hs.2.1, halone⟩
  · rw [hw.cpu, hrun] at ht
    cases ht
    obtain ⟨hst, -, hs⟩ | ⟨hst, -, hs, -⟩ := hw.self <;> refine ⟨?_, ?_, ?_⟩ <;> rw [hw.pc]
    all_goals first
      | exact hw.held
      | simp [hst, hs]
  · by_cases hp : p = t
    · rw [hp]
      refine .inr ⟨⟨fun _ => ⟨c, by rw [hw.cpu, hrun]⟩, ?_, ?_, ?_⟩, halone⟩ <;>
        obtain ⟨-, he, hs⟩ | ⟨-, -, -, hu, hu', he⟩ := hw.self <;> rw [hw.pc]
      all_goals simp_all
    · obtain ⟨hpc, hst⟩ | ⟨hl, hr, hsw, hz, hu⟩ := hw.other p hp
      · exact .inl ⟨hpc, hst, fun hp => by rwa [hw.cpu]⟩
      · exact .inr ⟨⟨fun hs => by simp [hsw] at hs, fun _ => hsw, fun h => absurd h hz,
          fun he => .inr (hu he)⟩, fun c' _ => (h.off_cpu hrun hp hl hr).1 c'⟩

/-- A step of a thread from `k0` to `k` that changes no state. -/
structure Quiet (s s' : CpuSys C) (c : C) (t : Fin nProc) (k0 k : ThreadPc) : Prop where
  pc : s'.pc = update s.pc t k := by rfl
  cpu : s'.cpu = s.cpu := by rfl
  cproc : s'.cproc = s.cproc := by rfl
  state : s'.state = s.state := by rfl
  lock : ∀ q, ∀ c' ≠ c, s.plock q = some c' → s'.plock q = some c' := by exact fun _ _ _ hq => hq
  held : ∀ q, k.held t = some q → s'.plock q = some c := by nofun
  stop : k0.stopping = false := by rfl
  going : k.isSwitched = false ∧ k.stopping = false ∧ k.exiting = false := by exact ⟨rfl, rfl, rfl⟩
  fork : ∀ np, k.forking = some np → k0.forking = some np := by nofun

theorem Inv.quiet {k0 : ThreadPc} (h : s.Inv) (hrun : s.cpu c = .run t) (hpc : s.pc t = k0)
    (hq : s.Quiet s' c t k0 k) : s'.Inv := by
  subst hpc
  have hself : s'.state t = .running := (congrFun hq.state t).trans (h.running c t hrun hq.stop)
  have hother : ∀ p ≠ t, s'.pc p = s.pc p := fun p hp => by rw [hq.pc, update_of_ne hp]
  exact h.works hrun ⟨by rw [hq.pc, update_self], hq.cpu, hq.cproc, hq.lock, hq.going.1, hq.held,
    .inl ⟨hq.going.2.1, hq.going.2.2, hself⟩, fun p hp => .inl ⟨hother p hp, congrFun hq.state p⟩,
    h.forks (hq.pc ▸ forking_update hq.fork) fun _ np _ hnp => (congrFun hq.state np).trans hnp⟩

theorem lock_update {v : Option C} (hq : s.plock q = none ∨ s.plock q = some c) (q' : Fin nProc)
    (c' : C) (hne : c' ≠ c) (hq' : s.plock q' = some c') : update s.plock q v q' = some c' := by
  rw [update_of_ne, hq']
  rintro rfl
  rcases hq with hq | hq <;> rw [hq] at hq' <;> cases hq'
  exact hne rfl

variable {P : Proc} {l : Loc} {op : SlotOp} {flag : Bool} {a : CpuAct C}

theorem state_setProc (hP : P.state = (s.proc q).state) : (s.setProc q P).state = s.state := by
  funext p
  by_cases hp : p = q
  · subst hp
    simpa [CpuSys.state, setProc] using hP
  · simp [CpuSys.state, setProc, update_of_ne hp]

theorem Inv.locStep (h : s.Inv) (hrun : s.cpu c = .run t) (hl : s.pc t = .at l)
    (hstep : s.locStep c t l = some s') : s'.Inv := by
  cases l with
  | user => cases hstep
  | visit q op =>
    obtain ⟨hfree, rfl⟩ := Runs.taken hstep
    refine h.quiet hrun hl
      { lock := lock_update (.inl hfree), held := ?_, fork := fun np hnp => ?_ }
    · rintro _ ⟨⟩
      exact update_self _ _ _
    · cases op <;> exact hnp
  | own op =>
    obtain ⟨hfree, rfl⟩ := Runs.taken hstep
    refine h.quiet hrun hl { lock := lock_update (.inl hfree), held := ?_ }
    rintro _ ⟨⟩
    exact update_self _ _ _
  | forkParent np pid =>
    obtain ⟨-, rfl⟩ := Runs.taken hstep
    exact h.quiet hrun hl { pc := rfl, fork := fun _ hnp => hnp }
  | forkSet np pid =>
    cases hstep
    exact h.quiet hrun hl { pc := rfl, state := state_setProc (by rfl), fork := fun _ hnp => hnp }
  | forkRelease np pid =>
    cases hstep
    exact h.quiet hrun hl { pc := rfl, fork := fun _ hnp => hnp }
  | reparent n status =>
    simp only [CpuSys.locStep] at hstep
    split_ifs at hstep <;> cases hstep
    · exact h.quiet hrun hl { state := state_setProc (by rfl) }
    all_goals exact h.quiet hrun hl {}
  | wakeLoop ch n r =>
    cases r <;> simp only [CpuSys.locStep] at hstep <;> split_ifs at hstep <;> cases hstep <;>
      exact h.quiet hrun hl {}
  | ret _ | exitWake _ | waitRet _ =>
    cases hstep
    exact h.quiet hrun hl {}
  | _ =>
    simp only [CpuSys.locStep] at hstep
    split_ifs at hstep <;> cases hstep <;> exact h.quiet hrun hl {}

/-- A step that changes slot `q`, whose lock the thread holds, when its process does not run. -/
structure Sets (s s' : CpuSys C) (t q : Fin nProc) (op : SlotOp) (P : Proc) (l : Loc) : Prop where
  pc : s'.pc = update s.pc t (.leave q l) := by rfl
  cpu : s'.cpu = s.cpu := by rfl
  cproc : s'.cproc = s.cproc := by rfl
  plock : s'.plock = s.plock := by rfl
  proc : s'.proc = update s.proc q P := by rfl
  old : s.state q ≠ .running ∧ (s.state q = .used → (ThreadPc.inspect q op).forking = some q)
  new : P.state ≠ .zombie := by nofun
  exit : (s.pc q).exiting = true → P.state = .unused := by exact fun _ => rfl
  fork : l.forking = none := by rfl

theorem Inv.sets (h : s.Inv) (hrun : s.cpu c = .run t) (hpc : s.pc t = .inspect q op)
    (hs : s.Sets s' t q op P l) : s'.Inv := by
  have hlock := h.held c t q hrun (by rw [hpc]; rfl)
  have hself := h.running c t hrun (by rw [hpc]; rfl)
  have hqt : q ≠ t := by
    rintro rfl
    exact hs.old.1 hself
  have hstate : ∀ p ≠ q, s'.state p = s.state p := fun p hp => by
    rw [CpuSys.state, hs.proc, update_of_ne hp]
    rfl
  have hstq : s'.state q = P.state := by rw [CpuSys.state, hs.proc, update_self]
  have hpcOf : ∀ p ≠ t, s'.pc p = s.pc p := fun p hp => by rw [hs.pc, update_of_ne hp]
  have hpct : s'.pc t = .leave q l := by rw [hs.pc, update_self]
  have hmono := forking_update (s := s) (t := t) (k := .leave q l) fun np hnp => by
    cases hs.fork.symm.trans hnp
  rw [← hs.pc] at hmono
  refine h.works hrun ⟨hpct, hs.cpu, hs.cproc, fun _ _ _ hq' => hs.plock ▸ hq', rfl, ?_,
    .inl ⟨rfl, rfl, (hstate t hqt.symm).trans hself⟩, fun p hp => ?_,
    h.forks hmono fun t1 np hnp hu => ?_⟩
  · rintro _ ⟨⟩
    rw [hs.plock, hlock]
  · by_cases hpq : p = q
    · rw [hpq, hpcOf q hqt, hstq]
      exact .inr ⟨hlock, hs.old.1, (h.off_cpu hrun hqt hlock hs.old.1).2, hs.new, hs.exit⟩
    · exact .inl ⟨hpcOf p hp, hstate p hpq⟩
  · -- a process that is not complete belongs to the thread, which forks nothing afterwards
    rw [hstate, hu]
    rintro rfl
    have hmine : (s.pc t).forking = some np := hpc ▸ hs.old.2 hu
    rw [h.forkOne t1 t np (hmono t1 np hnp) hmine, hpct] at hnp
    cases hs.fork.symm.trans hnp

theorem Inv.allocated {pid : ℤ} (h : s.Inv) (hrun : s.cpu c = .run t)
    (hpc : s.pc t = .inspect q .alloc) (hunused : s.state q = .unused) (hP : P.state = .used)
    (hpc' : s'.pc = update (update s.pc q (.switched .forkret)) t (.leave q (.forkParent q pid)))
    (hproc : s'.proc = update s.proc q P) (hcpu : s'.cpu = s.cpu) (hcproc : s'.cproc = s.cproc)
    (hplock : s'.plock = s.plock) : s'.Inv := by
  have hlock := h.held c t q hrun (by rw [hpc]; rfl)
  have hqt : q ≠ t := by
    rintro rfl
    exact (h.alive hrun).1 hunused
  have hpcq : s'.pc q = .switched .forkret := by rw [hpc', update_of_ne hqt, update_self]
  have hpct : s'.pc t = .leave q (.forkParent q pid) := by rw [hpc', update_self]
  have hstate : ∀ p ≠ q, s'.state p = s.state p := fun p hp => by
    rw [CpuSys.state, hproc, update_of_ne hp]
    rfl
  have hstq : s'.state q = .used := by rw [CpuSys.state, hproc, update_self, hP]
  have hother : ∀ p ≠ t, p ≠ q → s'.pc p = s.pc p := fun p hp hq => by
    rw [hpc', update_of_ne hp, update_of_ne hq]
  -- nobody else forks the slot, which was free
  have hfork : ∀ t1 np, (s'.pc t1).forking = some np → t1 = t ∧ np = q ∨
      np ≠ q ∧ t1 ≠ t ∧ (s.pc t1).forking = some np := by
    intro t1 np hnp
    by_cases ht : t1 = t
    · rw [ht, hpct] at hnp
      cases hnp
      exact .inl ⟨ht, rfl⟩
    · by_cases hq : t1 = q
      · rw [hq, hpcq] at hnp
        cases hnp
      · rw [hother t1 ht hq] at hnp
        refine .inr ⟨?_, ht, hnp⟩
        rintro rfl
        cases hunused.symm.trans (h.forking t1 np hnp)
  refine h.works hrun ⟨hpct, hcpu, hcproc, fun _ _ _ hq' => hplock ▸ hq', rfl, ?_,
    .inl ⟨rfl, rfl, (hstate t hqt.symm).trans (h.running c t hrun (by rw [hpc]; rfl))⟩,
    fun p hp => ?_, fun t1 np hnp => ?_⟩
  · rintro _ ⟨⟩
    rw [hplock, hlock]
  · by_cases hpq : p = q
    · rw [hpq, hpcq, hstq]
      exact .inr ⟨hlock, by simp [hunused], rfl, by simp, nofun⟩
    · exact .inl ⟨hother p hp hpq, hstate p hpq⟩
  · obtain ⟨rfl, rfl⟩ | ⟨hq, ht, hnp'⟩ := hfork t1 np hnp
    · refine ⟨hstq, fun t2 hnp2 => ?_⟩
      obtain ⟨ht, -⟩ | ⟨hq, -⟩ := hfork t2 np hnp2
      · exact ht
      · exact absurd rfl hq
    · refine ⟨(hstate np hq).trans (h.forking t1 np hnp'), fun t2 hnp2 => ?_⟩
      obtain ⟨-, rfl⟩ | ⟨-, -, hnp2⟩ := hfork t2 np hnp2
      · exact absurd rfl hq
      · exact h.forkOne t2 t1 np hnp2 hnp'

theorem Inv.slotStep (h : s.Inv) (hrun : s.cpu c = .run t) (hpc : s.pc t = .inspect q op) :
    (s.slotStep t q flag op).Inv := by
  have hlock := h.held c t q hrun (by rw [hpc]; rfl)
  have hheld : ∀ q', some q = some q' → s.plock q' = some c :=
    fun q' hq' => Option.some.inj hq' ▸ hlock
  cases op with
  | wake ch r =>
    simp only [CpuSys.slotStep]
    split
    · rename_i hs
      refine h.sets hrun hpc { old := by simp [hs.1], exit := fun he => absurd he ?_ }
      exact h.not_exiting (by simp [hs.1]) (by simp [hs.1])
    · exact h.quiet hrun hpc { pc := rfl, held := hheld }
  | kill pid =>
    simp only [CpuSys.slotStep]
    split
    · by_cases hs : s.state q = .sleeping
      · refine h.sets hrun hpc
          { old := by simp [hs], new := by simp [hs], exit := fun he => absurd he ?_ }
        exact h.not_exiting (by simp [hs]) (by simp [hs])
      · exact h.quiet hrun hpc { pc := rfl, state := state_setProc (if_neg hs), held := hheld }
    · exact h.quiet hrun hpc { pc := rfl, held := hheld }
  | alloc =>
    simp only [CpuSys.slotStep]
    split
    · rename_i hunused
      split
      · exact h.allocated hrun hpc hunused rfl rfl rfl rfl rfl rfl
      · exact h.sets hrun hpc { old := by simp [hunused] }
    · exact h.quiet hrun hpc { pc := rfl, held := hheld }
  | ready pid =>
    have hused := h.forking t q (by rw [hpc]; rfl)
    refine h.sets hrun hpc
      { old := ⟨by simp [hused], fun _ => rfl⟩, exit := fun he => absurd he ?_ }
    exact h.not_exiting (by simp [hused]) (by simp [hused])
  | reap =>
    simp only [CpuSys.slotStep]
    split
    · rename_i hz
      split
      · exact h.quiet hrun hpc { pc := rfl, held := hheld }
      · exact h.sets hrun hpc { old := by simp [hz] }
    · exact h.quiet hrun hpc { pc := rfl, held := hheld }

/-- A thread changes the state of its own process and is about to call `sched`. -/
structure Stops (s s' : CpuSys C) (t : Fin nProc) (k0 k : ThreadPc) (P : Proc) : Prop where
  pc : s'.pc = update s.pc t k := by rfl
  cpu : s'.cpu = s.cpu := by rfl
  cproc : s'.cproc = s.cproc := by rfl
  plock : s'.plock = s.plock := by rfl
  proc : s'.proc = update s.proc t P := by rfl
  held : k0.held t = some t ∧ k.held t = some t := by exact ⟨rfl, rfl⟩
  going : k.isSwitched = false ∧ k.stopping = true := by exact ⟨rfl, rfl⟩
  state : P.state ≠ .running ∧ P.state ≠ .unused ∧ P.state ≠ .used := by exact ⟨nofun, nofun, nofun⟩
  exit : k.exiting = true ↔ P.state = .zombie := by simp [ThreadPc.exiting]
  fork : ∀ np, k.forking = some np → k0.forking = some np := by nofun

theorem Inv.stops {k0 : ThreadPc} (h : s.Inv) (hrun : s.cpu c = .run t) (hpc : s.pc t = k0)
    (hs : s.Stops s' t k0 k P) : s'.Inv := by
  subst hpc
  have hlock := h.held c t t hrun hs.held.1
  have hstate : ∀ p ≠ t, s'.state p = s.state p := fun p hp => by
    rw [CpuSys.state, hs.proc, update_of_ne hp]
    rfl
  have hstt : s'.state t = P.state := by rw [CpuSys.state, hs.proc, update_self]
  have hmono := forking_update hs.fork
  rw [← hs.pc] at hmono
  refine h.works hrun ⟨by rw [hs.pc, update_self], hs.cpu, hs.cproc,
    fun _ _ _ hq' => hs.plock ▸ hq', hs.going.1, fun q hq => ?_,
      .inr ⟨hs.going.2, hs.plock ▸ hlock, by rw [hstt]; exact ⟨hs.state.1, hs.state.2.1,
      hs.state.2.2, hs.exit⟩⟩, fun p hp => .inl ⟨by rw [hs.pc, update_of_ne hp], hstate p hp⟩,
    h.forks hmono fun t1 np hnp hu => (hstate np ?_).trans hu⟩
  · rw [hs.held.2, some_inj] at hq
    rwa [hs.plock, ← hq]
  · rintro rfl
    exact (h.alive hrun).2 hu

theorem Inv.ownStep {op : OwnOp} (h : s.Inv) (hrun : s.cpu c = .run t)
    (hpc : s.pc t = .inspectOwn op) : (s.ownStep t op).Inv := by
  have hlock := h.held c t t hrun (by rw [hpc]; rfl)
  have hheld : ∀ q, some t = some q → s.plock q = some c := fun q hq => Option.some.inj hq ▸ hlock
  cases op with
  | killed =>
    simp only [CpuSys.ownStep]
    split <;> exact h.quiet hrun hpc { pc := rfl, held := hheld }
  | sleep ch w => cases w <;> exact h.quiet hrun hpc { pc := rfl, held := hheld }
  | exit status => exact h.stops hrun hpc {}
  | setkilled =>
    exact h.quiet hrun hpc { pc := rfl, state := state_setProc (by rfl), held := hheld }

variable [DecidableEq C]

theorem Inv.swtchOut {r : SchedRet} (h : s.Inv) (hrun : s.cpu c = .run t)
    (hpc : s.pc t = .sched r) :
    s.swtchOut c t r = .ok ((s.goto t (.switched r)).setCpu c (.back t)) ∧
      ((s.goto t (.switched r)).setCpu c (.back t)).Inv := by
  have hlock := h.held c t t hrun (by rw [hpc]; rfl)
  have hns := h.stopped c t hrun (by rw [hpc]; rfl)
  have hcp := h.cproc_run hrun
  have halone : ∀ c' ≠ c, s.cproc c' ≠ some t := fun c' hc' hp => hc' (h.one c' c t hp hcp)
  have hexit : (ThreadPc.switched r).exiting = (s.pc t).exiting := by rw [hpc]; cases r <;> rfl
  refine ⟨by simp [CpuSys.swtchOut, hlock, hns], h.moves ⟨fun c' hc' => update_of_ne hc' _ _,
    fun _ _ => rfl, fun _ _ _ hq => hq, ?_, fun p hp => ?_, fun t1 ht => ?_, fun p => ?_,
    h.forks (forking_update fun np hnp => ?_) fun _ _ _ hu => hu⟩⟩
  · show CpuOk _ c (update s.cpu c (.back t) c)
    rw [update_self]
    exact ⟨hcp, hlock⟩
  · cases hcp.symm.trans hp
    exact ⟨.inr hlock, halone⟩
  · replace ht : update s.cpu c (.back t) c = .run t1 := ht
    rw [update_self] at ht
    cases ht
  · by_cases hp : p = t
    · have hpct : ((s.goto t (.switched r)).setCpu c (.back t)).pc p = .switched r :=
        hp ▸ update_self _ _ _
      refine .inr ⟨?_, hp ▸ halone⟩
      refine ⟨fun hs => ?_, fun _ => by rw [hpct]; rfl, ?_, ?_⟩
      · rw [hpct] at hs
        cases hs
      all_goals rw [hpct, hexit, hp]
      · exact h.zombie t
      · exact h.exited t
    · exact .inl ⟨update_of_ne hp _ _, rfl, fun hp' =>
        absurd (CpuPc.run.inj (hp'.symm.trans hrun)) hp⟩
  · rw [hpc]
    cases r <;> exact hnp

/-- **The statements of thread `t` on CPU `c`**, with the states that they lead to. -/
inductive Statement (s : CpuSys C) (c : C) (t : Fin nProc) (flag : Bool) : CpuSys C → Prop
  | «at» {l : Loc} {s' : CpuSys C} : s.pc t = .at l → s.locStep c t l = some s' →
      Statement s c t flag s'
  | inspect {q : Fin nProc} {op : SlotOp} : s.pc t = .inspect q op →
      Statement s c t flag (s.slotStep t q flag op)
  | inspectOwn {op : OwnOp} : s.pc t = .inspectOwn op → Statement s c t flag (s.ownStep t op)
  | leave {q : Fin nProc} {l : Loc} : s.pc t = .leave q l →
      Statement s c t flag ((s.setLock q none).goto t (.at l))
  | yieldAcquire {l : Loc} : s.pc t = .yieldAcquire l → s.plock t = none →
      Statement s c t flag ((s.setLock t (some c)).goto t (.yieldSet l))
  | yieldSet {l : Loc} : s.pc t = .yieldSet l → Statement s c t flag
      ((s.setProc t { s.proc t with state := .runnable }).goto t (.sched (.yield l)))
  | sleepSet {ch : Chan} {w : Bool} : s.pc t = .sleepSet ch w → Statement s c t flag
      ((s.setProc t { s.proc t with chan := some ch, state := .sleeping }).goto t
        (.sched (.sleep ch w)))
  | exitRelease {status : ℤ} : s.pc t = .exitRelease status →
      Statement s c t flag ({ s with waitLock := none }.goto t (.sched (.exit status)))
  | sched {r : SchedRet} : s.pc t = .sched r →
      Statement s c t flag ((s.goto t (.switched r)).setCpu c (.back t))
  | yielded {l : Loc} : s.pc t = .resumed (.yield l) → Statement s c t flag (s.goto t (.leave t l))
  | slept {ch : Chan} {w : Bool} : s.pc t = .resumed (.sleep ch w) → Statement s c t flag
      ((s.setProc t { s.proc t with chan := none }).goto t (.leave t (.sleepAcquire w)))
  | forkret : s.pc t = .resumed .forkret → Statement s c t flag (s.goto t (.leave t .user))

/-- A thread does not panic. -/
theorem Inv.statement {r : Except CpuPanic (CpuSys C)} (h : s.Inv) (hrun : s.cpu c = .run t)
    (hstep : s.threadStep c t flag = some r) : ∃ s', r = .ok s' ∧ s.Statement c t flag s' := by
  simp only [CpuSys.threadStep] at hstep
  cases hpc : s.pc t <;> rw [hpc] at hstep
  case «at» l =>
    obtain ⟨s', hs', rfl⟩ := map_eq_some_iff.mp hstep
    exact ⟨s', rfl, .at hpc hs'⟩
  case yieldAcquire l =>
    obtain ⟨hfree, rfl⟩ := Runs.taken hstep
    exact ⟨_, rfl, .yieldAcquire hpc hfree⟩
  case sched r =>
    cases hstep.symm.trans (congrArg some (h.swtchOut hrun hpc).1)
    exact ⟨_, rfl, .sched hpc⟩
  case resumed r =>
    cases r with
    | yield l =>
      cases hstep
      exact ⟨_, rfl, .yielded hpc⟩
    | sleep ch w =>
      cases hstep
      exact ⟨_, rfl, .slept hpc⟩
    | forkret =>
      cases hstep
      exact ⟨_, rfl, .forkret hpc⟩
    | exit status =>
      -- the thread of a zombie is not resumed
      have hr := h.running c t hrun (by rw [hpc]; rfl)
      rcases h.exited t (by rw [hpc]; rfl) with hz | hu
      · cases hr.symm.trans hz
      · cases hr.symm.trans hu
  all_goals cases hstep
  case inspect q op => exact ⟨_, rfl, .inspect hpc⟩
  case inspectOwn op => exact ⟨_, rfl, .inspectOwn hpc⟩
  case leave q l => exact ⟨_, rfl, .leave hpc⟩
  case yieldSet l => exact ⟨_, rfl, .yieldSet hpc⟩
  case sleepSet ch w => exact ⟨_, rfl, .sleepSet hpc⟩
  case exitRelease status => exact ⟨_, rfl, .exitRelease hpc⟩

theorem Inv.of_statement (h : s.Inv) (hrun : s.cpu c = .run t) (hs : s.Statement c t flag s') :
    s'.Inv := by
  have hheld : ∀ {k}, s.pc t = k → k.held t = some t → ∀ q, some t = some q →
      s.plock q = some c := by
    intro k hpc hk q hq
    cases hq
    exact h.held c t t hrun (hpc ▸ hk)
  cases hs with
  | «at» hpc hl => exact h.locStep hrun hpc hl
  | inspect hpc => exact h.slotStep hrun hpc
  | inspectOwn hpc => exact h.ownStep hrun hpc
  | leave hpc =>
    have hlock := h.held c t _ hrun (by rw [hpc]; rfl)
    exact h.quiet hrun hpc
      { pc := rfl, lock := lock_update (.inr hlock), fork := fun _ hnp => hnp }
  | yieldAcquire hpc hfree =>
    refine h.quiet hrun hpc
      { pc := rfl, lock := lock_update (.inl hfree), held := ?_, fork := fun _ hnp => hnp }
    rintro _ ⟨⟩
    exact update_self _ _ _
  | yieldSet hpc => exact h.stops hrun hpc { pc := rfl, fork := fun _ hnp => hnp }
  | sleepSet hpc => exact h.stops hrun hpc {}
  | exitRelease hpc =>
    have hz : (s.proc t).state = .zombie :=
      (h.exited t (by rw [hpc]; rfl)).resolve_right (h.alive hrun).1
    exact h.stops hrun hpc
      { pc := rfl, proc := (update_eq_self t s.proc).symm, state := by simp [hz],
        exit := iff_of_true rfl hz }
  | sched hpc => exact (h.swtchOut hrun hpc).2
  | yielded hpc =>
    exact h.quiet hrun hpc { pc := rfl, held := hheld hpc rfl, fork := fun _ hnp => hnp }
  | slept hpc =>
    exact h.quiet hrun hpc
      { pc := rfl, state := state_setProc (by rfl), held := hheld hpc rfl }
  | forkret hpc => exact h.quiet hrun hpc { pc := rfl, held := hheld hpc rfl }

/-- A step of the scheduler of CPU `c`, from `k0` to `k`, which does not switch to a thread. -/
structure Scans (s s' : CpuSys C) (c : C) (k0 k : CpuPc) : Prop where
  cpu : s'.cpu = update s.cpu c k := by rfl
  pc : s'.pc = s.pc := by rfl
  cproc : ∀ c' ≠ c, s'.cproc c' = s.cproc c' := by exact fun _ _ => rfl
  lock : ∀ q, ∀ c' ≠ c, s.plock q = some c' → s'.plock q = some c' := by exact fun _ _ _ hq => hq
  old : ∀ t, k0 ≠ .run t := by nofun
  new : ∀ t, k ≠ .run t := by nofun
  ok : s'.CpuOk c k
  mine : ∀ p, s'.cproc c = some p → (s'.state p = .running ∨ s'.plock p = some c) ∧
    ∀ c' ≠ c, s.cproc c' ≠ some p
  state : ∀ p, s'.state p = s.state p ∨ s.state p = .runnable ∧ s'.state p = .running ∧
    ∀ c', s.cproc c' ≠ some p := by exact fun _ => .inl rfl

theorem Inv.scans {k0 k : CpuPc} (h : s.Inv) (hc : s.cpu c = k0) (hs : s.Scans s' c k0 k) :
    s'.Inv := by
  refine h.moves ⟨fun c' hc' => by rw [hs.cpu, update_of_ne hc'], hs.cproc, hs.lock, ?_, hs.mine,
    fun t ht => ?_, fun p => ?_, h.forks (fun _ _ hnp => by rwa [hs.pc] at hnp) fun _ np _ hu => ?_⟩
  · rw [hs.cpu, update_self]
    exact hs.ok
  · rw [hs.cpu, update_self] at ht
    exact absurd ht (hs.new t)
  · obtain hsame | ⟨hr, hr', hno⟩ := hs.state p
    · exact .inl ⟨congrFun hs.pc p, hsame, fun hp => absurd (hc.symm.trans hp) (hs.old p)⟩
    · refine .inr ⟨?_, fun c' _ => hno c'⟩
      refine ⟨fun hsw => ?_, fun hu => ?_, fun hz => ?_, fun he => ?_⟩
      · obtain ⟨c1, hc1⟩ := h.active p (hs.pc ▸ hsw)
        exact absurd (h.cproc_run hc1) (hno c1)
      · rcases hu with hu | hu <;> cases hr'.symm.trans hu
      · cases hr'.symm.trans hz
      · rcases h.exited p (hs.pc ▸ he) with hz | hu
        · cases hr.symm.trans hz
        · cases hr.symm.trans hu
  · obtain hsame | ⟨hr, -⟩ := hs.state np
    · exact hsame.trans hu
    · cases hr.symm.trans hu

theorem Inv.switchTo {r : SchedRet} (h : s.Inv) (hc : s.cpu c = .dispatch q)
    (hq : s.pc q = .switched r) : ((s.goto q (.resumed r)).setCpu c (.run q)).Inv := by
  have hok := h.cpu c
  rw [hc] at hok
  obtain ⟨hcp, hlock, hrunning⟩ := hok
  have halone : ∀ c' ≠ c, s.cproc c' ≠ some q := fun c' hc' hp => hc' (h.one c' c q hp hcp)
  have hexit : (ThreadPc.resumed r).exiting = (s.pc q).exiting := by rw [hq]; cases r <;> rfl
  have hpcq : ((s.goto q (.resumed r)).setCpu c (.run q)).pc q = .resumed r := update_self _ _ _
  have hcpu : ((s.goto q (.resumed r)).setCpu c (.run q)).cpu c = .run q := update_self _ _ _
  refine h.moves ⟨fun c' hc' => update_of_ne hc' _ _, fun _ _ => rfl, fun _ _ _ hq => hq, ?_,
    fun p hp => ?_, fun t1 ht => ?_, fun p => ?_, h.forks (forking_update fun np hnp => ?_)
    fun _ _ _ hu => hu⟩
  · rw [hcpu]
    exact ⟨hcp, by rw [hpcq]; rfl⟩
  · cases hcp.symm.trans hp
    exact ⟨.inl hrunning, halone⟩
  · cases hcpu.symm.trans ht
    refine ⟨fun k hk => ?_, fun _ => hrunning, fun hs => ?_⟩
    · rw [hpcq] at hk
      cases hk
      exact hlock
    · rw [hpcq] at hs
      cases hs
  · by_cases hp : p = q
    · rw [hp]
      refine .inr ⟨⟨fun _ => ⟨c, hcpu⟩, fun hu => ?_, fun hz => ?_, fun he => ?_⟩, halone⟩
      · rcases hu with hu | hu <;> cases hrunning.symm.trans hu
      · cases hrunning.symm.trans hz
      · rw [hpcq, hexit] at he
        exact h.exited q he
    · exact .inl ⟨update_of_ne hp _ _, rfl, fun hp' => by cases hc.symm.trans hp'⟩
  · rw [hq]
    cases r <;> exact hnp

theorem Inv.schedStep (h : s.Inv) (hstep : s.schedStep c = some s') : s'.Inv := by
  have hok := h.cpu c
  simp only [CpuSys.schedStep] at hstep
  cases hc : s.cpu c with
  | scan n =>
    rw [hc] at hstep hok
    have hnone : s.cproc c = none := hok
    simp only at hstep
    split at hstep
    · obtain ⟨hfree, rfl⟩ := Runs.taken hstep
      exact h.scans hc
        { cpu := rfl, lock := lock_update (.inl hfree), ok := ⟨hok, update_self _ _ _⟩,
          mine := by simp [setCpu, setLock, hnone] }
    · cases hstep
      exact h.scans hc { cpu := rfl, ok := hok, mine := by simp [setCpu, hnone] }
  | test q =>
    rw [hc] at hstep hok
    simp only at hstep
    split at hstep
    · rename_i hr
      cases hstep
      have hfree := h.cproc_ne hok.2 (by simp [hr]) (by simp [hok.1])
      have hself : (update s.proc q { s.proc q with state := .running } q).state = .running := by
        rw [update_self]
      refine h.scans hc
        { cpu := rfl, cproc := fun c' hc' => update_of_ne hc' _ _,
          ok := ⟨update_self _ _ _, hok.2, hself⟩, mine := fun p hp => ?_, state := fun p => ?_ }
      · replace hp : update s.cproc c (some q) c = some p := hp
        rw [update_self] at hp
        cases hp
        exact ⟨.inr hok.2, fun c' _ => hfree c'⟩
      · by_cases hp : p = q
        · rw [hp]
          exact .inr ⟨hr, hself, hfree⟩
        · exact .inl (congrArg Proc.state (update_of_ne hp _ _))
    · cases hstep
      exact h.scans hc { cpu := rfl, ok := hok, mine := fun p hp => by cases hok.1.symm.trans hp }
  | dispatch q =>
    rw [hc] at hstep
    simp only at hstep
    split at hstep <;> cases hstep
    rename_i r hq
    exact h.switchTo hc hq
  | run q =>
    rw [hc] at hstep
    cases hstep
  | back q =>
    rw [hc] at hstep hok
    cases hstep
    refine h.scans hc
      { cpu := rfl, cproc := fun c' hc' => update_of_ne hc' _ _, ok := ⟨update_self _ _ _, hok.2⟩,
        mine := fun p hp => ?_ }
    replace hp : update s.cproc c none c = some p := hp
    rw [update_self] at hp
    cases hp
  | release q =>
    rw [hc] at hstep hok
    cases hstep
    exact h.scans hc
      { cpu := rfl, lock := lock_update (.inr hok.2), ok := hok.1,
        mine := fun p hp => by cases hok.1.symm.trans hp }

/-- **Every step keeps the invariant, and the only panic is the exit of `init`.** -/
theorem Inv.step {r : Except CpuPanic (CpuSys C)} (h : s.Inv) (hstep : s.step a = some r) :
    r = .error .initExiting ∨ ∃ s', r = .ok s' ∧ s'.Inv := by
  cases a with
  | sched c =>
    obtain ⟨s', hs', rfl⟩ := map_eq_some_iff.mp hstep
    exact .inr ⟨s', rfl, h.schedStep hs'⟩
  | call c f =>
    simp only [CpuSys.step] at hstep
    split at hstep
    · rename_i t hrun
      obtain ⟨huser, rfl⟩ := Runs.taken hstep
      cases f with
      | exit status =>
        simp only [CpuSys.callStep]
        split
        · exact .inl rfl
        · exact .inr ⟨_, rfl, h.quiet hrun huser {}⟩
      | _ => exact .inr ⟨_, rfl, h.quiet hrun huser {}⟩
    · cases hstep
  | thread c flag =>
    simp only [CpuSys.step] at hstep
    split at hstep
    · rename_i t hrun
      obtain ⟨s', rfl, hs⟩ := h.statement hrun hstep
      exact .inr ⟨s', rfl, h.of_statement hrun hs⟩
    · cases hstep
  | preempt c =>
    simp only [CpuSys.step] at hstep
    repeat' split at hstep
    all_goals cases hstep
    rename_i t hrun _ l hl _
    exact .inr ⟨_, rfl, h.quiet hrun hl { pc := rfl, fork := fun _ hnp => hnp }⟩

/-! ### What a step changes -/

/-- Process `p` is as before, but for its parent. -/
def Same (s s' : CpuSys C) (p : Fin nProc) : Prop := ∃ q, s'.proc p = { s.proc p with parent := q }

section

omit [DecidableEq C]

theorem Same.of_eq (h : s'.proc p = s.proc p) : s.Same s' p := ⟨(s.proc p).parent, h⟩

theorem Same.state (h : s.Same s' p) : s'.state p = s.state p := by
  obtain ⟨q, hq⟩ := h
  rw [CpuSys.state, hq]
  rfl

theorem proc_setProc_ne (hp : p ≠ q) : (s.setProc q P).proc p = s.proc p :=
  update_of_ne hp _ _

theorem same_setProc {q' : Option (Fin nProc)} (p : Fin nProc) :
    s.Same (s.setProc q { s.proc q with parent := q' }) p := by
  by_cases hp : p = q
  · subst hp
    exact ⟨q', update_self _ _ _⟩
  · exact .of_eq (proc_setProc_ne hp)

/-- Without a `p->lock` a thread changes nothing of a process but its parent, and only its own
place. -/
theorem locStep_frame (hstep : s.locStep c t l = some s') :
    (∀ p, s.Same s' p) ∧ ∃ k, s'.pc = update s.pc t k := by
  cases l <;> simp only [CpuSys.locStep] at hstep
  all_goals repeat' split at hstep
  all_goals cases hstep
  all_goals first
    | exact ⟨fun _ => .of_eq rfl, _, rfl⟩
    | exact ⟨same_setProc, _, rfl⟩

/-- Under the lock of a slot a thread changes the state of this slot, and that of a zombie only to
free it. -/
theorem Inv.slotStep_state (h : s.Inv) (hpc : s.pc t = .inspect q op) :
    (∀ p ≠ q, (s.slotStep t q flag op).proc p = s.proc p) ∧
      (s.state q = .running → (s.slotStep t q flag op).state q = .running) ∧
      (s.state q = .zombie → (s.slotStep t q flag op).state q ≠ .zombie → op = .reap) := by
  have hsame : ∀ {s1 : CpuSys C}, s1.proc = s.proc → (∀ p ≠ q, s1.proc p = s.proc p) ∧
      (s.state q = .running → s1.state q = .running) ∧
      (s.state q = .zombie → s1.state q ≠ .zombie → op = .reap) := by
    intro s1 hs
    rw [CpuSys.state, CpuSys.state, hs]
    exact ⟨fun _ _ => rfl, fun hr => hr, fun hz hz' => absurd hz hz'⟩
  have hset : ∀ {s1 : CpuSys C} {P : Proc}, s1.proc = s.proc → s.state q ≠ .running →
      (s.state q = .zombie → op = .reap) →
      (∀ p ≠ q, (s1.setProc q P).proc p = s.proc p) ∧
      (s.state q = .running → (s1.setProc q P).state q = .running) ∧
      (s.state q = .zombie → (s1.setProc q P).state q ≠ .zombie → op = .reap) := by
    intro s1 P hs hr hz
    refine ⟨fun p hp => ?_, fun hr' => absurd hr' hr, fun hz' _ => hz hz'⟩
    rw [proc_setProc_ne hp, hs]
  cases op with
  | wake ch r =>
    simp only [CpuSys.slotStep]
    split
    · rename_i hs
      exact hset rfl (by simp [hs.1]) (by simp [hs.1])
    · exact hsame rfl
  | kill pid =>
    simp only [CpuSys.slotStep]
    split
    · by_cases hs : s.state q = .sleeping
      · exact hset rfl (by simp [hs]) (by simp [hs])
      · refine ⟨fun p hp => proc_setProc_ne hp, fun hr => ?_, fun hz hz' => absurd ?_ hz'⟩
        · exact (congrFun (state_setProc (if_neg hs)) q).trans hr
        · exact (congrFun (state_setProc (if_neg hs)) q).trans hz
    · exact hsame rfl
  | alloc =>
    simp only [CpuSys.slotStep]
    split
    · rename_i hs
      split
      · exact hset rfl (by simp [hs]) (by simp [hs])
      · exact hset rfl (by simp [hs]) (by simp [hs])
    · exact hsame rfl
  | ready pid =>
    have hused := h.forking t q (by rw [hpc]; rfl)
    exact hset rfl (by simp [hused]) (by simp [hused])
  | reap =>
    rw [CpuSys.slotStep]
    split
    · rename_i hs
      split
      · exact hsame rfl
      · exact hset rfl (by simp [hs]) fun _ => rfl
    · exact hsame rfl

theorem callStep_frame {f : ProcCall} (hcall : s.callStep t f = .ok s') :
    s'.proc = s.proc ∧ ∃ k, s'.pc = update s.pc t k := by
  cases f <;> simp only [CpuSys.callStep] at hcall
  case exit status =>
    split at hcall
    · cases hcall
    · cases hcall
      exact ⟨rfl, _, rfl⟩
  all_goals
    cases hcall
    exact ⟨rfl, _, rfl⟩

theorem ownStep_frame {op : OwnOp} : (∀ p ≠ t, (s.ownStep t op).proc p = s.proc p) ∧
    ∃ k, (s.ownStep t op).pc = update s.pc t k := by
  cases op with
  | killed =>
    simp only [CpuSys.ownStep]
    split <;> exact ⟨fun _ _ => rfl, _, rfl⟩
  | sleep ch w =>
    cases w <;> exact ⟨fun _ _ => rfl, _, rfl⟩
  | exit _ | setkilled => exact ⟨fun p hp => proc_setProc_ne hp, _, rfl⟩

end

/-- A statement of a thread other than one under the lock of a slot changes nothing of other
processes but the parent, and only its own place. -/
theorem Statement.frame (hs : s.Statement c t flag s') :
    ((∀ p ≠ t, s.Same s' p) ∧ ∃ k, s'.pc = update s.pc t k) ∨
      ∃ q op, s.pc t = .inspect q op ∧ s' = s.slotStep t q flag op := by
  cases hs with
  | «at» hpc hl =>
    obtain ⟨hsame, k, hk⟩ := locStep_frame hl
    exact .inl ⟨fun p _ => hsame p, k, hk⟩
  | inspect hpc => exact .inr ⟨_, _, hpc, rfl⟩
  | inspectOwn hpc => exact .inl ⟨fun p hp => .of_eq (ownStep_frame.1 p hp), ownStep_frame.2⟩
  | yieldSet | sleepSet | slept => exact .inl ⟨fun p hp => .of_eq (proc_setProc_ne hp), _, rfl⟩
  | _ => exact .inl ⟨fun _ _ => .of_eq rfl, _, rfl⟩

/-- What a step does with process `p`: a scheduler marks it as running, the process
changes it, or another process does so which holds the lock of the slot. -/
theorem Inv.step_state (h : s.Inv) (hstep : s.step a = some (.ok s')) (p : Fin nProc) :
    s.Same s' p ∨ s.state p = .runnable ∧ s'.proc p = { s.proc p with state := .running } ∨
      (∃ c flag, a = .thread c flag ∧ s.cpu c = .run p ∧ s.Statement c p flag s') ∨
        ∃ c flag t op, a = .thread c flag ∧ s.cpu c = .run t ∧ s.pc t = .inspect p op ∧
        s' = s.slotStep t p flag op := by
  cases a with
  | sched c =>
    obtain ⟨s1, hs1, hs'⟩ := map_eq_some_iff.mp hstep
    cases hs'
    simp only [CpuSys.schedStep] at hs1
    repeat' split at hs1
    all_goals cases hs1
    all_goals try exact .inl (.of_eq rfl)
    rename_i q _ hr
    by_cases hp : p = q
    · subst hp
      exact .inr (.inl ⟨hr, update_self _ _ _⟩)
    · exact .inl (.of_eq (proc_setProc_ne hp))
  | call c f =>
    simp only [CpuSys.step] at hstep
    split at hstep
    · split at hstep
      · exact .inl (.of_eq (congrFun (callStep_frame (some_inj.mp hstep)).1 p))
      · cases hstep
    · cases hstep
  | preempt c =>
    simp only [CpuSys.step] at hstep
    repeat' split at hstep
    all_goals cases hstep
    exact .inl (.of_eq rfl)
  | thread c flag =>
    simp only [CpuSys.step] at hstep
    split at hstep
    · rename_i t hrun
      obtain ⟨s1, heq, hs⟩ := h.statement hrun hstep
      cases heq
      by_cases hpt : p = t
      · subst hpt
        exact .inr (.inr (.inl ⟨c, flag, rfl, hrun, hs⟩))
      rcases hs.frame with ⟨hst, -⟩ | ⟨q, op, hq, rfl⟩
      · exact .inl (hst p hpt)
      · by_cases hpq : p = q
        · subst hpq
          exact .inr (.inr (.inr ⟨c, flag, t, op, rfl, hrun, hq, rfl⟩))
        · exact .inl (.of_eq ((h.slotStep_state hq).1 p hpq))
    · cases hstep

theorem Inv.step_of_zombie (h : s.Inv) (hstep : s.step a = some (.ok s'))
    (hz : s.state p = .zombie) :
    s.Same s' p ∨ ∃ c flag t op, a = .thread c flag ∧ s.cpu c = .run t ∧
      s.pc t = .inspect p op ∧ s' = s.slotStep t p flag op := by
  rcases h.step_state hstep p with hs | hs | ⟨c, flag, rfl, hrun, hs⟩ | hs
  · exact .inl hs
  · cases hz.symm.trans hs.1
  · -- the zombie itself only releases `wait_lock` and calls `sched`
    have hstop : (s.pc p).stopping = true := by
      by_contra hno
      cases hz.symm.trans (h.running c p hrun (by simpa using hno))
    cases hs with
    | exitRelease => exact .inl (.of_eq rfl)
    | sched => exact .inl (.of_eq rfl)
    | _ hpc =>
      rw [hpc] at hstop
      cases hstop
  · exact .inr hs

omit [DecidableEq C] in
/-- Under the lock of a slot a thread changes its own place; `allocproc` makes a new context. -/
theorem slotStep_pc (hp : p ≠ t) :
    (s.slotStep t q flag op).pc p = s.pc p ∨
      s.state p = .unused ∧ (s.slotStep t q flag op).pc p = .switched .forkret := by
  have hgoto : ∀ {s1 : CpuSys C} {k : ThreadPc}, (s1.goto t k).pc p = s1.pc p :=
    update_of_ne hp _ _
  cases op with
  | alloc =>
    simp only [CpuSys.slotStep]
    repeat' split
    · rename_i hs _
      by_cases hpq : p = q
      · refine .inr ⟨hpq ▸ hs, hgoto.trans ?_⟩
        rw [hpq]
        exact update_self _ _ _
      · exact .inl (hgoto.trans (update_of_ne hpq _ _))
    · exact .inl hgoto
    · exact .inl hgoto
  | _ =>
    simp only [CpuSys.slotStep]
    repeat' split
    all_goals exact .inl hgoto

/-- What a step does to the place of thread `u`. -/
inductive Turn (s : CpuSys C) (a : CpuAct C) (s' : CpuSys C) (u : Fin nProc) : Prop
  | stays : s'.pc u = s.pc u → Turn s a s' u
  /-- Its slot is allocated anew. -/
  | born : s.state u = .unused → s'.pc u = .switched .forkret → Turn s a s' u
  /-- A CPU switches to it. -/
  | resumes (c : C) (r : SchedRet) : s.cpu c = .dispatch u → s.pc u = .switched r →
      s'.pc u = .resumed r → Turn s a s' u
  | calls (c : C) (f : ProcCall) : a = .call c f → s.cpu c = .run u → s.pc u = .at .user →
      s.callStep u f = .ok s' → Turn s a s' u
  | yields (l : Loc) : s.pc u = .at l → s'.pc u = .yieldAcquire l → Turn s a s' u
  | runs (c : C) (flag : Bool) : a = .thread c flag → s.cpu c = .run u →
      s.Statement c u flag s' → Turn s a s' u

theorem Inv.turn (h : s.Inv) (hstep : s.step a = some (.ok s')) (u : Fin nProc) :
    Turn s a s' u := by
  have hmoved : ∀ {t k}, u ≠ t → s'.pc = update s.pc t k → Turn s a s' u := by
    intro t k hut hpc
    exact .stays (by rw [hpc, update_of_ne hut])
  cases a with
  | sched c =>
    obtain ⟨s1, hs1, hs'⟩ := map_eq_some_iff.mp hstep
    cases hs'
    simp only [CpuSys.schedStep] at hs1
    repeat' split at hs1
    all_goals cases hs1
    all_goals try exact .stays rfl
    rename_i q hq _ r hr
    by_cases huq : u = q
    · subst huq
      exact .resumes c r hq hr (update_self _ _ _)
    · exact hmoved huq rfl
  | call c f =>
    simp only [CpuSys.step] at hstep
    split at hstep
    · rename_i t hrun
      obtain ⟨huser, hcall⟩ := Runs.taken hstep
      by_cases hut : u = t
      · subst hut
        exact .calls c f rfl hrun huser hcall
      · obtain ⟨-, k, hk⟩ := callStep_frame hcall
        exact hmoved hut hk
    · cases hstep
  | preempt c =>
    simp only [CpuSys.step] at hstep
    repeat' split at hstep
    all_goals cases hstep
    rename_i t hrun _ l hl _
    by_cases hut : u = t
    · subst hut
      exact .yields l hl (update_self _ _ _)
    · exact hmoved hut rfl
  | thread c flag =>
    simp only [CpuSys.step] at hstep
    split at hstep
    · rename_i t hrun
      obtain ⟨s1, heq, hs⟩ := h.statement hrun hstep
      cases heq
      by_cases hut : u = t
      · subst hut
        exact .runs c flag rfl hrun hs
      · rcases hs.frame with ⟨-, k, hk⟩ | ⟨q, op, hq, rfl⟩
        · exact hmoved hut hk
        · rcases slotStep_pc hut with hpc | ⟨hu, hpc⟩
          · exact .stays hpc
          · exact .born hu hpc
    · cases hstep

/-- The place of a thread that is not executed and not switched to changes only when its slot is
allocated anew. -/
theorem Inv.step_pc (h : s.Inv) (hstep : s.step a = some (.ok s')) (hp : (s.pc p).isSwitched = true)
    (hdisp : ∀ c, s.cpu c ≠ .dispatch p) :
    s'.pc p = s.pc p ∨ s.state p = .unused ∧ s'.pc p = .switched .forkret := by
  cases h.turn hstep p with
  | stays hpc => exact .inl hpc
  | born hu hpc => exact .inr ⟨hu, hpc⟩
  | resumes c r hc => exact absurd hc (hdisp c)
  | calls c f _ _ huser =>
    rw [huser] at hp
    cases hp
  | yields l hl =>
    rw [hl] at hp
    cases hp
  | runs c flag _ hrun =>
    have hc := h.cpu c
    rw [hrun] at hc
    cases hp.symm.trans hc.2

/-! ### One CPU for a process -/

/-- What the scheduler promises about a state. -/
structure OneCpu (s : CpuSys C) : Prop where
  /-- A thread is executed by a CPU whose `c->proc` it is, -/
  executes : ∀ c p, s.cpu c = .run p → s.cproc c = some p
  /-- and it is that of at most one CPU. -/
  unique : ∀ c c' p, s.cproc c = some p → s.cproc c' = some p → c = c'
  /-- A process is switched to under its lock and when its context is saved. -/
  saved : ∀ c p, s.cpu c = .dispatch p → s.plock p = some c ∧ (s.pc p).isSwitched = true ∧
    ∀ c', s.cpu c' ≠ .run p
  /-- Only the process itself changes the state of a running process. -/
  own : ∀ a s' p, s.step a = some (.ok s') → s.state p = .running → s'.state p ≠ .running →
    ∃ c flag, a = .thread c flag ∧ s.cpu c = .run p
  /-- `wait` frees a process which has called `sched` from `exit` and which no CPU has, -/
  freed : ∀ a s' p, s.step a = some (.ok s') → s.state p = .zombie → s'.state p ≠ .zombie →
    (∃ status, s.pc p = .switched (.exit status)) ∧ (∀ c, s.cproc c ≠ some p) ∧
      ∃ c flag t, a = .thread c flag ∧ s.cpu c = .run t ∧ s.pc t = .inspect p .reap
  /-- and whose thread goes on never: a new process in the slot begins in `forkret`. -/
  gone : ∀ a s' p status, s.step a = some (.ok s') → s.pc p = .switched (.exit status) →
    s'.pc p = .switched (.exit status) ∨ s.state p = .unused ∧ s'.pc p = .switched .forkret
  /-- The checks of `sched` do not fail, and `sched` does not return to `exit`. -/
  checks : ∀ a e, s.step a = some (.error e) → e = .initExiting

omit [DecidableEq C] in
theorem Inv.zombie_off_cpu (h : s.Inv) (hrun : s.cpu c = .run t) (hpc : s.pc t = .inspect p .reap)
    (hz : s.state p = .zombie) :
    (∃ status, s.pc p = .switched (.exit status)) ∧ ∀ c, s.cproc c ≠ some p := by
  have hpt : p ≠ t := by
    rintro rfl
    have hr := h.running c p hrun (by rw [hpc]; rfl)
    cases hr.symm.trans hz
  obtain ⟨hoff, hsw⟩ := h.off_cpu hrun hpt (h.held c t p hrun (by rw [hpc]; rfl)) (by simp [hz])
  have hexit := h.zombie p hz
  refine ⟨?_, hoff⟩
  cases hk : s.pc p with
  | switched r =>
    rw [hk] at hexit
    cases r with
    | exit status => exact ⟨status, rfl⟩
    | _ => cases hexit
  | _ =>
    rw [hk] at hsw
    cases hsw

theorem Inv.oneCpu (h : s.Inv) : s.OneCpu := by
  refine ⟨fun c p hrun => h.cproc_run hrun, h.one, fun c p hc => ?_, fun a s' p hstep hr hr' => ?_,
    fun a s' p hstep hz hz' => ?_, fun a s' p status hstep hp => ?_, fun a e hstep => ?_⟩
  · have hok := h.cpu c
    rw [hc] at hok
    obtain ⟨hsw, -⟩ := h.saved hc
    refine ⟨hok.2.1, hsw, fun c' hc' => ?_⟩
    have hok' := h.cpu c'
    rw [hc'] at hok'
    cases hsw.symm.trans hok'.2
  · rcases h.step_state hstep p with hs | hs | hs | ⟨c, flag, t, op, rfl, hrun, hpc, rfl⟩
    · exact absurd (hs.state.trans hr) hr'
    · cases hr.symm.trans hs.1
    · obtain ⟨c, flag, ha, hrun, -⟩ := hs
      exact ⟨c, flag, ha, hrun⟩
    · exact absurd ((h.slotStep_state hpc).2.1 hr) hr'
  · rcases h.step_of_zombie hstep hz with hs | ⟨c, flag, t, op, rfl, hrun, hpc, rfl⟩
    · exact absurd (hs.state.trans hz) hz'
    · obtain rfl := (h.slotStep_state hpc).2.2 hz hz'
      obtain ⟨hexit, hoff⟩ := h.zombie_off_cpu hrun hpc hz
      exact ⟨hexit, hoff, c, flag, t, rfl, hrun, hpc⟩
  · have hdisp : ∀ c, s.cpu c ≠ .dispatch p := by
      intro c hc
      have hok := h.cpu c
      rw [hc] at hok
      rcases h.exited p (by rw [hp]; rfl) with hz | hu
      · cases hok.2.2.symm.trans hz
      · cases hok.2.2.symm.trans hu
    rw [← hp]
    exact h.step_pc hstep (by rw [hp]; rfl) hdisp
  · rcases h.step hstep with he | ⟨s', hs', -⟩
    · exact Except.error.inj he
    · cases hs'

/-- The state after `userinit`, when the CPUs begin to run `scheduler`. -/
def boot (C : Type) : CpuSys C where
  proc := update (fun _ => Proc.free) ⟨0, nProc_pos⟩
    { Proc.free with state := .runnable, pid := 1 }
  plock _ := none
  waitLock := none
  pc _ := .switched .forkret
  cpu _ := .scan 0
  cproc _ := none
  nextpid := 2
  initproc := ⟨0, nProc_pos⟩
  ret _ := 0
  waitAddr _ := false
  status _ := none

omit [DecidableEq C] in
theorem boot_inv : (boot C).Inv where
  cpu _ := rfl
  onCpu _ _ hp := by cases hp
  one _ _ _ hp := by cases hp
  held _ _ _ hrun := by cases hrun
  active _ hp := by cases hp
  running _ _ hrun := by cases hrun
  stopped _ _ hrun := by cases hrun
  idle _ _ := rfl
  forking _ _ hnp := by cases hnp
  forkOne _ _ _ hnp := by cases hnp
  zombie p hp := by
    by_cases hp0 : p = 0
    · simp [boot, CpuSys.state, hp0] at hp
    · simp [boot, CpuSys.state, update_of_ne hp0, Proc.free] at hp
  exited _ hp := by cases hp

/-- **A process runs on one CPU at a time.**  In every state that any number of CPUs reach, in any
interleaving, the promises of `OneCpu` are kept. -/
theorem one_cpu (h : Runs.Reach step (fun _ _ => True) (boot C) s) : s.OneCpu := by
  refine (h.invariant (I := Inv) boot_inv fun _ _ _ hi _ hs => ?_).oneCpu
  rcases hi.step hs with he | ⟨s', hs', h'⟩
  · cases he
  · cases hs'
    exact h'

/-- The first process forks a second one, which another CPU executes. -/
theorem one_cpu_fork : ∃ s, (Runs.Reach step (fun _ _ => True) (boot Bool) s ∧
    s.cpu false = .run (0 : Fin 64) ∧ s.cpu true = .run (1 : Fin 64)) ∧ s.OneCpu := by
  have hrun : ∃ s, Runs.Reach step (fun _ _ => True) (boot Bool) s ∧
      (s.cpu false = .run (0 : Fin 64) ∧ s.cpu true = .run (1 : Fin 64)) :=
    Runs.exists_reach_of_exec
      ([.sched false, .sched false, .sched false, .thread false true, .thread false true,
        .call false .fork] ++ List.replicate 15 (.thread false true) ++
        List.replicate 6 (.sched true))
      (by decide +kernel)
  obtain ⟨s, hs, hcpu⟩ := hrun
  exact ⟨s, ⟨hs, hcpu⟩, one_cpu hs⟩

end CpuSys

end CsklubOs
