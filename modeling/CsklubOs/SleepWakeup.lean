/-
**Sleeping and waking up.**

`sleep(chan, lk)`, `wakeup(chan)`, `kill` and `yield` of `kernel/proc.c` with the scheduler, one
lock operation or assignment at a time.  Processes share data that a spin-lock `lk` protects; what
they do with it while they hold `lk` is left open.  A channel has a condition that processes wait
for.  A `wakeup` by an interrupt handler on a CPU without a process is not modelled.

Main definitions:

* `SleepSys`, `SleepSys.step` — threads at the statement that `SleepPc` names; `p->lock` is held by
  a thread or by a scheduler, and `swtch` hands it from one to the other.  The state also remembers,
  for the current section under `lk`, which conditions have become true and for which channels
  `wakeup` has come to its end; no step looks at that;
* `Careful` — a process sleeps only while its condition is false, and who makes a condition true
  calls `wakeup` before it gives up `lk`.

Main results:

* `no_lost_wakeup` — nobody sleeps on a condition that is true while `lk` is free.
-/

import CsklubOs.Sched

set_option autoImplicit false

namespace CsklubOs

open Function
open Runs (taken taken_ok)

/-! ### The state -/

/-- The statement that a thread will execute next. -/
inductive SleepPc (χ : Type)
  /-- In its own code, without `lk`. -/
  | outside
  /-- In its own code, with `lk`. -/
  | inside
  /-- `sleep`: `acquire(&p->lock)`. -/
  | sleepAcquire (c : χ)
  /-- `sleep`: `release(lk)`. -/
  | sleepRelease (c : χ)
  /-- `sleep`: `p->chan = chan`. -/
  | sleepChan (c : χ)
  /-- `sleep`: `p->state = SLEEPING`. -/
  | sleepState (c : χ)
  /-- `sched`: `swtch` to the scheduler; the channel if `sched` was called by `sleep`. -/
  | sched (r : Option χ)
  /-- The thread is not running; the scheduler may `swtch` back to it. -/
  | switched (r : Option χ)
  /-- Back from `sched`: `p->chan = 0` in `sleep`, `release(&p->lock)` in `yield`. -/
  | resumed (r : Option χ)
  /-- `sleep`: `release(&p->lock)`. -/
  | sleepDone
  /-- `sleep`: `acquire(lk)`. -/
  | reacquire
  /-- `yield`: `acquire(&p->lock)`. -/
  | yieldAcquire
  /-- `yield`: `p->state = RUNNABLE`. -/
  | yieldState
  /-- `wakeup`: the test of the loop and `acquire(&p->lock)`; the flag says whether the caller has
  `lk`. -/
  | wakeAcquire (c : χ) (k : ℕ) (held : Bool)
  /-- `wakeup`: the body of the loop, with the lock of slot `k`. -/
  | wakeTest (c : χ) (k : Fin nProc) (held : Bool)
  /-- `wakeup`: `release(&p->lock)`. -/
  | wakeRelease (c : χ) (k : Fin nProc) (held : Bool)
  /-- `kill`: the test of the loop and `acquire(&p->lock)`. -/
  | killAcquire (pid : ℤ) (k : ℕ)
  /-- `kill`: the body of the loop. -/
  | killTest (pid : ℤ) (k : Fin nProc)
  /-- `kill`: `release(&p->lock)`, and `return` if the process was found. -/
  | killRelease (pid : ℤ) (k : Fin nProc) (found : Bool)
  deriving DecidableEq

namespace SleepPc

variable {χ : Type}

/-- The channel that a thread has given up `lk` to sleep on. -/
def going : SleepPc χ → Option χ
  | .sleepChan c | .sleepState c => some c
  | _ => none

/-- The channel that a thread is about to give up `lk` for. -/
def leaves : SleepPc χ → Option χ
  | .sleepAcquire c | .sleepRelease c => some c
  | _ => none

def inSched : SleepPc χ → Bool
  | .sched _ | .switched _ => true
  | _ => false

end SleepPc

/-- Who holds a `p->lock`: the thread of a process, a scheduler that looks at the process, or the
scheduler that the process has switched to. -/
inductive Holder
  | thread (t : Fin nProc)
  | scanning
  | returned
  deriving DecidableEq

/-- The data that `lk` protects, the locks, the processes, and what happened in the current section
under `lk`. -/
structure SleepSys (σ χ : Type) where
  shared : σ
  lk : Option (Fin nProc)
  plock : Fin nProc → Option Holder
  state : Fin nProc → ProcState
  chan : Fin nProc → Option χ
  killed : Fin nProc → Bool
  pid : Fin nProc → ℤ
  pc : Fin nProc → SleepPc χ
  /-- History: the conditions that became true in this section. -/
  dirty : χ → Bool
  /-- History: the channels that were woken up in this section. -/
  woke : χ → Bool

/-- What can happen: a process enters or leaves a section, changes the data, calls one of the
functions, or makes the next step in one; a scheduler makes a step. -/
inductive SleepAct (σ χ : Type)
  | acquire (t : Fin nProc)
  | access (t : Fin nProc) (v : σ)
  | release (t : Fin nProc)
  | sleep (t : Fin nProc) (c : χ)
  | wakeup (t : Fin nProc) (c : χ)
  | kill (t : Fin nProc) (pid : ℤ)
  | yield (t : Fin nProc)
  | run (t : Fin nProc)
  | schedAcquire (p : Fin nProc)
  | schedRun (p : Fin nProc)
  | schedRelease (p : Fin nProc)

/-- The process that a step is about. -/
def SleepAct.actor {σ χ : Type} : SleepAct σ χ → Fin nProc
  | .acquire t | .access t _ | .release t | .sleep t _ | .wakeup t _ | .kill t _ | .yield t | .run t
  | .schedAcquire t | .schedRun t | .schedRelease t => t

namespace SleepSys

variable {σ χ : Type} [DecidableEq χ]

/-! ### The steps -/

section

variable (s : SleepSys σ χ)

/-- Thread `t` goes on at another statement. -/
def goto (t : Fin nProc) (k : SleepPc χ) : SleepSys σ χ :=
  { s with pc := update s.pc t k }

/-- Somebody acquires or releases `p->lock`. -/
def setLock (p : Fin nProc) (h : Option Holder) : SleepSys σ χ :=
  { s with plock := update s.plock p h }

def setState (p : Fin nProc) (v : ProcState) : SleepSys σ χ :=
  { s with state := update s.state p v }

/-- The end of a section under `lk`. -/
def unlock : SleepSys σ χ :=
  { s with lk := none, dirty := fun _ => false, woke := fun _ => false }

/-- The next statement of thread `t` in one of the functions. -/
def run (t : Fin nProc) : Option (SleepSys σ χ) :=
  match s.pc t with
  | .outside | .inside | .switched _ => none
  | .sleepAcquire c =>
    if s.plock t = none then some ((s.setLock t (some (.thread t))).goto t (.sleepRelease c))
    else none
  | .sleepRelease c => some (s.unlock.goto t (.sleepChan c))
  | .sleepChan c => some ({ s with chan := update s.chan t (some c) }.goto t (.sleepState c))
  | .sleepState c => some ((s.setState t .sleeping).goto t (.sched (some c)))
  | .sched r => some ((s.setLock t (some .returned)).goto t (.switched r))
  | .resumed (some _) => some ({ s with chan := update s.chan t none }.goto t .sleepDone)
  | .resumed none => some ((s.setLock t none).goto t .outside)
  | .sleepDone => some ((s.setLock t none).goto t .reacquire)
  | .reacquire => if s.lk = none then some ({ s with lk := some t }.goto t .inside) else none
  | .yieldAcquire =>
    if s.plock t = none then some ((s.setLock t (some (.thread t))).goto t .yieldState) else none
  | .yieldState => some ((s.setState t .runnable).goto t (.sched none))
  | .wakeAcquire c k held =>
    if h : k < nProc then
      if k = t then some (s.goto t (.wakeAcquire c (k + 1) held))
      else if s.plock ⟨k, h⟩ = none then
        some ((s.setLock ⟨k, h⟩ (some (.thread t))).goto t (.wakeTest c ⟨k, h⟩ held))
      else none
    else if held then some ({ s with woke := update s.woke c true }.goto t .inside)
    else some (s.goto t .outside)
  | .wakeTest c k held =>
    if s.state k = .sleeping ∧ s.chan k = some c then
      some ((s.setState k .runnable).goto t (.wakeRelease c k held))
    else some (s.goto t (.wakeRelease c k held))
  | .wakeRelease c k held => some ((s.setLock k none).goto t (.wakeAcquire c (k + 1) held))
  | .killAcquire pid k =>
    if h : k < nProc then
      if s.plock ⟨k, h⟩ = none then
        some ((s.setLock ⟨k, h⟩ (some (.thread t))).goto t (.killTest pid ⟨k, h⟩))
      else none
    else some (s.goto t .outside)
  | .killTest pid k =>
    if s.pid k = pid then
      let s := { s with killed := update s.killed k true }
      if s.state k = .sleeping then
        some ((s.setState k .runnable).goto t (.killRelease pid k true))
      else some (s.goto t (.killRelease pid k true))
    else some (s.goto t (.killRelease pid k false))
  | .killRelease pid k found =>
    some ((s.setLock k none).goto t (if found then .outside else .killAcquire pid (k + 1)))

end

variable (cond : χ → σ → Bool)

/-- One step.  `cond` only tells which conditions become true. -/
def step (s : SleepSys σ χ) : SleepAct σ χ → Option (Except Empty (SleepSys σ χ))
  | .acquire t =>
    if s.pc t = .outside ∧ s.lk = none then some (.ok ({ s with lk := some t }.goto t .inside))
    else none
  | .access t v =>
    if s.pc t = .inside then
      some (.ok { s with
        shared := v
        dirty := fun c => s.dirty c || (!cond c s.shared && cond c v) })
    else none
  | .release t => if s.pc t = .inside then some (.ok (s.unlock.goto t .outside)) else none
  | .sleep t c => if s.pc t = .inside then some (.ok (s.goto t (.sleepAcquire c))) else none
  | .wakeup t c =>
    if s.pc t = .inside then some (.ok (s.goto t (.wakeAcquire c 0 true)))
    else if s.pc t = .outside then some (.ok (s.goto t (.wakeAcquire c 0 false)))
    else none
  | .kill t pid => if s.pc t = .outside then some (.ok (s.goto t (.killAcquire pid 0))) else none
  | .yield t => if s.pc t = .outside then some (.ok (s.goto t .yieldAcquire)) else none
  | .run t => (s.run t).map .ok
  | .schedAcquire p =>
    if s.plock p = none then some (.ok (s.setLock p (some .scanning))) else none
  | .schedRun p =>
    if s.plock p = some .scanning ∧ s.state p = .runnable then
      match s.pc p with
      | .switched r => some (.ok (((s.setState p .running).setLock p (some (.thread p))).goto p
          (.resumed r)))
      | _ => none
    else none
  | .schedRelease p =>
    if s.plock p = some .returned ∨ s.plock p = some .scanning ∧ s.state p ≠ .runnable then
      some (.ok (s.setLock p none))
    else none

/-- **The discipline of the processes**: a process calls `sleep` only while its condition is false,
and when it gives up `lk`, by `release` or by `sleep`, it has called `wakeup` for every condition
that it has made true. -/
def Careful (s : SleepSys σ χ) : SleepAct σ χ → Prop
  | .release _ => ∀ c, s.dirty c = true → s.woke c = true
  | .sleep _ c => cond c s.shared = false ∧ ∀ c', s.dirty c' = true → s.woke c' = true
  | _ => True

instance [Fintype χ] (s : SleepSys σ χ) (a : SleepAct σ χ) : Decidable (Careful cond s a) :=
  match a with
  | .release _ => inferInstanceAs (Decidable (∀ c, s.dirty c = true → s.woke c = true))
  | .sleep _ c => inferInstanceAs
      (Decidable (cond c s.shared = false ∧ ∀ c', s.dirty c' = true → s.woke c' = true))
  | .acquire _ | .access _ _ | .wakeup _ _ | .kill _ _ | .yield _ | .run _ | .schedAcquire _
  | .schedRun _ | .schedRelease _ => .isTrue trivial

/-! ### The invariant -/

section

omit [DecidableEq χ]

/-- The threads that hold `lk`. -/
def holdsLk : SleepPc χ → Bool
  | .inside | .sleepAcquire _ | .sleepRelease _ => true
  | .wakeAcquire _ _ held | .wakeTest _ _ held | .wakeRelease _ _ held => held
  | _ => false

/-- The threads that hold the lock of their own process. -/
def holdsOwn : SleepPc χ → Bool
  | .sleepRelease _ | .sleepChan _ | .sleepState _ | .sched _ | .resumed _ | .sleepDone
  | .yieldState => true
  | _ => false

/-- The slot whose lock a thread holds in the loop of `wakeup` or `kill`. -/
def visits : SleepPc χ → Option (Fin nProc)
  | .wakeTest _ k _ | .wakeRelease _ k _ | .killTest _ k | .killRelease _ k _ => some k
  | _ => none

end

/-- How far a call of `wakeup` under `lk` has come. -/
def scanned (c : χ) : SleepPc χ → ℕ
  | .wakeAcquire c' k true => if c' = c then k else 0
  | .wakeTest c' k true => if c' = c then k else 0
  | .wakeRelease c' k true => if c' = c then k + 1 else 0
  | _ => 0

omit [DecidableEq χ] in
/-- The channel of a call of `wakeup` under `lk`. -/
def waking : SleepPc χ → Option χ
  | .wakeAcquire c _ held | .wakeTest c _ held | .wakeRelease c _ held =>
    if held then some c else none
  | _ => none

/-- A process that sleeps on `c`, or has given up `lk` in order to. -/
def Dozes (s : SleepSys σ χ) (p : Fin nProc) (c : χ) : Prop :=
  s.pc p = .sleepChan c ∨ s.pc p = .sleepState c ∨ s.state p = .sleeping ∧ s.chan p = some c

/-- The locks are held by the threads that are at the statements between `acquire` and `release`. -/
structure Locks (s : SleepSys σ χ) : Prop where
  lk : ∀ t, holdsLk (s.pc t) = true → s.lk = some t
  own : ∀ t, holdsOwn (s.pc t) = true → s.plock t = some (.thread t)
  visit : ∀ t k, visits (s.pc t) = some k → s.plock k = some (.thread t)

/-- Processes that sleep or wait for a scheduler are in `sched`. -/
structure States (s : SleepSys σ χ) : Prop where
  chan : ∀ t c, s.pc t = .sleepState c → s.chan t = some c
  asleep : ∀ t, s.state t = .sleeping →
    ∃ c, s.chan t = some c ∧ (s.pc t = .sched (some c) ∨ s.pc t = .switched (some c))
  ready : ∀ t, s.state t = .runnable → ∃ r, s.pc t = .sched r ∨ s.pc t = .switched r

/-- Why processes sleep: a condition is false or has become true in this section, and those that a
call of `wakeup` has passed in this section do not sleep. -/
structure Waits (s : SleepSys σ χ) : Prop where
  fresh : s.lk = none → ∀ c, s.dirty c = false ∧ s.woke c = false
  leaving : ∀ t c, s.pc t = .sleepAcquire c ∨ s.pc t = .sleepRelease c →
    cond c s.shared = false ∧ ∀ c', s.dirty c' = true → s.woke c' = true
  reason : ∀ p c, s.Dozes p c → cond c s.shared = false ∨ s.dirty c = true
  done : ∀ t p c, s.lk = some t → s.woke c = true ∨ p.val < scanned c (s.pc t) → ¬ s.Dozes p c

/-- **The invariant.** -/
structure Inv (s : SleepSys σ χ) : Prop where
  locks : s.Locks
  states : s.States
  waits : s.Waits cond

variable {cond} {s s' : SleepSys σ χ} {t : Fin nProc} {k : SleepPc χ}

variable {c : χ} {p q : Fin nProc}

omit [DecidableEq χ] in
theorem dozes_iff :
    s.Dozes p c ↔ (s.pc p).going = some c ∨ s.state p = .sleeping ∧ s.chan p = some c := by
  unfold Dozes
  cases s.pc p <;> simp [SleepPc.going]

omit [DecidableEq χ] in
theorem leaves_iff : k = .sleepAcquire c ∨ k = .sleepRelease c ↔ k.leaves = some c := by
  cases k <;> simp [SleepPc.leaves]

/-- **A step of `t` to statement `k`**: it takes no lock away from the other threads, and of the
other processes it changes nothing, except that it may wake them up. -/
structure Goes (s s' : SleepSys σ χ) (t : Fin nProc) (k : SleepPc χ) : Prop where
  pc : s'.pc = update s.pc t k := by rfl
  keepLk : ∀ t' ≠ t, s.lk = some t' → s'.lk = some t' := by exact fun _ _ hlk => hlk
  plock : ∀ q, ∀ t' ≠ t, s.plock q = some (.thread t') → s'.plock q = some (.thread t') := by
    exact fun _ _ _ hq => hq
  others : ∀ p ≠ t, s'.chan p = s.chan p ∧
      (s'.state p = s.state p ∨ s.state p = .sleeping ∧ s'.state p = .runnable) := by
    exact fun _ _ => ⟨rfl, .inl rfl⟩
  lk : holdsLk k = true → s'.lk = some t := by nofun
  own : holdsOwn k = true → s'.plock t = some (.thread t) := by nofun
  visit : ∀ q, visits k = some q → s'.plock q = some (.thread t) := by nofun
  chan : ∀ c, k = .sleepState c → s'.chan t = some c := by nofun
  /-- Afterwards `t` is awake, or it is in `sched`. -/
  state : s'.state t ≠ .sleeping ∧ s'.state t ≠ .runnable ∨
    ∃ r, (k = .sched r ∨ k = .switched r) ∧
      (s'.state t = .sleeping → ∃ c, r = some c ∧ s'.chan t = some c ∧ s.Dozes t c)

section

omit [DecidableEq χ]

theorem Goes.locks (hg : s.Goes s' t k) (h : s.Locks) : s'.Locks := by
  refine ⟨?_, ?_, ?_⟩ <;> rw [hg.pc]
  · exact (forall_update_iff s.pc fun t' k => holdsLk k = true → s'.lk = some t').2
      ⟨hg.lk, fun t' hne ht' => hg.keepLk t' hne (h.lk t' ht')⟩
  · exact (forall_update_iff s.pc fun t' k => holdsOwn k = true → s'.plock t' = some (.thread t')).2
      ⟨hg.own, fun t' hne ht' => hg.plock t' t' hne (h.own t' ht')⟩
  · exact (forall_update_iff s.pc fun t' k => ∀ q, visits k = some q →
      s'.plock q = some (.thread t')).2 ⟨hg.visit, fun t' hne q ht' =>
      hg.plock q t' hne (h.visit t' q ht')⟩

theorem Goes.states (hg : s.Goes s' t k) (h : s.States) : s'.States := by
  refine ⟨?_, ?_, ?_⟩ <;> rw [hg.pc]
  · exact (forall_update_iff s.pc fun t' k => ∀ c, k = .sleepState c → s'.chan t' = some c).2
      ⟨hg.chan, fun t' hne c hc => (hg.others t' hne).1.trans (h.chan t' c hc)⟩
  · refine (forall_update_iff s.pc fun t' k => s'.state t' = .sleeping →
      ∃ c, s'.chan t' = some c ∧ (k = .sched (some c) ∨ k = .switched (some c))).2
      ⟨fun hs => ?_, fun t' hne hs => ?_⟩
    · obtain ⟨hno, -⟩ | ⟨r, hk, hr⟩ := hg.state
      · exact absurd hs hno
      · obtain ⟨c, rfl, hc, -⟩ := hr hs
        exact ⟨c, hc, hk⟩
    · obtain ⟨hchan, hsame | ⟨-, hnew⟩⟩ := hg.others t' hne
      · rw [hchan]
        exact h.asleep t' (hsame.symm.trans hs)
      · cases hnew.symm.trans hs
  · refine (forall_update_iff s.pc fun t' k => s'.state t' = .runnable →
      ∃ r, k = .sched r ∨ k = .switched r).2 ⟨fun hs => ?_, fun t' hne hs => ?_⟩
    · obtain ⟨-, hno⟩ | ⟨r, hk, -⟩ := hg.state
      · exact absurd hs hno
      · exact ⟨r, hk⟩
    · obtain ⟨-, hsame | ⟨hold, -⟩⟩ := hg.others t' hne
      · exact h.ready t' (hsame.symm.trans hs)
      · obtain ⟨c, -, hc⟩ := h.asleep t' hold
        exact ⟨some c, hc⟩

theorem Goes.dozes (hg : s.Goes s' t k) (hp : s'.Dozes p c) :
    p = t ∧ k.going = some c ∨ s.Dozes p c := by
  rw [dozes_iff, hg.pc] at hp
  by_cases hne : p = t
  · subst hne
    rw [update_self] at hp
    rcases hp with hp | ⟨hs, hc⟩
    · exact .inl ⟨rfl, hp⟩
    · obtain ⟨hno, -⟩ | ⟨r, -, hr⟩ := hg.state
      · exact absurd hs hno
      · obtain ⟨c', -, hc', hd⟩ := hr hs
        rw [hc', Option.some_inj] at hc
        exact .inr (hc ▸ hd)
  · obtain ⟨hchan, hstate⟩ := hg.others p hne
    rw [update_of_ne hne, hchan] at hp
    refine .inr (dozes_iff.2 (hp.imp_right fun hp => ⟨?_, hp.2⟩))
    rcases hstate with hs | ⟨hs, -⟩
    · exact hs.symm.trans hp.1
    · exact hs

end

/-- **A step that leaves the section under `lk` alone**, and after which nobody sleeps who did not
before. -/
structure Stays (cond : χ → σ → Bool) (s s' : SleepSys σ χ) (t : Fin nProc) (k : SleepPc χ) : Prop
    extends s.Goes s' t k where
  same : s'.lk = s.lk ∧ s'.shared = s.shared ∧ s'.dirty = s.dirty ∧ s'.woke = s.woke := by
    exact ⟨rfl, rfl, rfl, rfl⟩
  going : ∀ c, k.going = some c → s.Dozes t c := by nofun
  leave : ∀ c, k.leaves = some c →
    cond c s.shared = false ∧ ∀ c', s.dirty c' = true → s.woke c' = true := by nofun
  scan : s.lk = some t → ∀ p c, p.val < scanned c k →
      p.val < scanned c (s.pc t) ∨ ¬ s'.Dozes p c := by
    exact fun _ _ _ hp => absurd hp (Nat.not_lt_zero _)

theorem Inv.stays (h : s.Inv cond) (hg : Stays cond s s' t k) : s'.Inv cond := by
  obtain ⟨hlk, hshared, hdirty, hwoke⟩ := hg.same
  have hdoze : ∀ p c, s'.Dozes p c → s.Dozes p c := by
    intro p c hp
    rcases hg.dozes hp with ⟨rfl, hk⟩ | hp
    · exact hg.going c hk
    · exact hp
  refine ⟨hg.locks h.locks, hg.states h.states, ?_, ?_, fun p c hp => ?_,
    fun t' p c ht' hor hp => ?_⟩
  · rw [hlk, hdirty, hwoke]
    exact h.waits.fresh
  · rw [hg.pc, hshared, hdirty, hwoke]
    exact (forall_update_iff s.pc fun _ k => ∀ c, k = .sleepAcquire c ∨ k = .sleepRelease c →
      cond c s.shared = false ∧ ∀ c', s.dirty c' = true → s.woke c' = true).2
      ⟨fun c hc => hg.leave c (leaves_iff.1 hc), fun t' _ => h.waits.leaving t'⟩
  · rw [hshared, hdirty]
    exact h.waits.reason p c (hdoze p c hp)
  · rw [hlk] at ht'
    rw [hwoke, hg.pc] at hor
    refine h.waits.done t' p c ht' (hor.imp_right fun hlt => ?_) (hdoze p c hp)
    by_cases hne : t' = t
    · subst hne
      rw [update_self] at hlt
      exact (hg.scan ht' p c hlt).resolve_right fun hn => hn hp
    · rwa [update_of_ne hne] at hlt

omit [DecidableEq χ] in
theorem plock_frame {v : Option Holder} (hq : ∀ t' ≠ t, s.plock q ≠ some (.thread t')) :
    ∀ q', ∀ t' ≠ t, s.plock q' = some (.thread t') →
      update s.plock q v q' = some (.thread t') := by
  intro q' t' hne hq'
  rw [update_of_ne]
  · exact hq'
  · rintro rfl
    exact hq t' hne hq'

omit [DecidableEq χ] in
theorem States.awake (h : s.States) (hpc : (s.pc t).inSched = false) :
    s.state t ≠ .sleeping ∧ s.state t ≠ .runnable := by
  have hno : ∀ r, ¬ (s.pc t = .sched r ∨ s.pc t = .switched r) := by
    rintro r (hr | hr) <;> rw [hr] at hpc <;> cases hpc
  refine ⟨fun hs => ?_, fun hs => ?_⟩
  · obtain ⟨c, -, hc⟩ := h.asleep t hs
    exact hno _ hc
  · obtain ⟨r, hr⟩ := h.ready t hs
    exact hno r hr

/-! ### Entering and leaving a section -/

/-- **Giving up `lk`**, on the way to sleep or not: whoever had to be woken was. -/
theorem Inv.unlock (h : s.Inv cond) (hawake : (s.pc t).inSched = false) (hlk : s.lk = some t)
    (hwoke : ∀ c, s.dirty c = true → s.woke c = true) (hk : holdsLk k = false)
    (hown : holdsOwn k = true → s.plock t = some (.thread t)) (hvisit : visits k = none)
    (hstate : ∀ c, k ≠ .sleepState c) (hcond : ∀ c, k.going = some c → cond c s.shared = false) :
    (s.unlock.goto t k).Inv cond := by
  have hg : s.Goes (s.unlock.goto t k) t k :=
    { keepLk := fun t' hne ht' => absurd (Option.some.inj (hlk.symm.trans ht')) (Ne.symm hne)
      lk := fun h' => by cases hk.symm.trans h'
      own := hown
      visit := fun q hq => by cases hvisit.symm.trans hq
      chan := fun c hc => absurd hc (hstate c)
      state := .inl (h.states.awake hawake) }
  refine ⟨hg.locks h.locks, hg.states h.states, fun _ _ => ⟨rfl, rfl⟩, ?_, fun p c hp => .inl ?_,
    nofun⟩
  · refine (forall_update_iff s.pc fun _ k => ∀ c, k = .sleepAcquire c ∨ k = .sleepRelease c →
      cond c s.shared = false ∧ ∀ _ : χ, false = true → false = true).2 ⟨?_, fun t' _ c ht' => ?_⟩
    · rintro c (rfl | rfl) <;> cases hk
    · exact ⟨(h.waits.leaving t' c ht').1, nofun⟩
  · rcases hg.dozes hp with ⟨-, hc⟩ | hp
    · exact hcond c hc
    · -- a condition that became true was announced, and nobody was left asleep
      refine (h.waits.reason p c hp).resolve_right fun hd => ?_
      exact h.waits.done t p c hlk (.inl (hwoke c hd)) hp

theorem Inv.inside (h : s.Inv cond) (hg : s.Goes s' t .inside) (hlk : s'.lk = some t)
    (hshared : s'.shared = s.shared) (hdirty : s'.dirty = s.dirty)
    (honly : ∀ t' ≠ t, (s.pc t').leaves = none ∨ s'.woke = s.woke)
    (hdone : ∀ p c, s'.woke c = true → ¬ s.Dozes p c) : s'.Inv cond := by
  have hdoze : ∀ p c, s'.Dozes p c → s.Dozes p c := fun p c hp =>
    (hg.dozes hp).resolve_left fun hk => by cases hk.2
  refine ⟨hg.locks h.locks, hg.states h.states, fun h' => ?_, ?_, fun p c hp => ?_,
    fun t' p c ht' hor hp => ?_⟩
  · cases hlk.symm.trans h'
  · rw [hg.pc, hshared, hdirty]
    refine (forall_update_iff s.pc fun _ k => ∀ c, k = .sleepAcquire c ∨ k = .sleepRelease c →
      cond c s.shared = false ∧ ∀ c', s.dirty c' = true → s'.woke c' = true).2
      ⟨fun c hc => by simp at hc, fun t' hne c hc => ?_⟩
    rcases honly t' hne with hno | hsame
    · cases hno.symm.trans (leaves_iff.1 hc)
    · rw [hsame]
      exact h.waits.leaving t' c hc
  · rw [hshared, hdirty]
    exact h.waits.reason p c (hdoze p c hp)
  · obtain rfl : t = t' := Option.some.inj (hlk.symm.trans ht')
    rw [hg.pc, update_self] at hor
    exact hdone p c (hor.resolve_right (Nat.not_lt_zero _)) (hdoze p c hp)

theorem Inv.acquireLk (h : s.Inv cond) (hawake : (s.pc t).inSched = false) (hfree : s.lk = none) :
    (SleepSys.goto { s with lk := some t } t .inside).Inv cond := by
  refine h.inside
    { keepLk := fun t' _ ht' => ?_, lk := fun _ => rfl, state := .inl (h.states.awake hawake) }
    rfl rfl rfl (fun _ _ => .inr rfl) fun p c hw => ?_
  · cases hfree.symm.trans ht'
  · cases (h.waits.fresh hfree c).2.symm.trans hw

theorem Inv.wakeEnd {n : ℕ} (h : s.Inv cond) (hpc : s.pc t = .wakeAcquire c n true)
    (hn : nProc ≤ n) :
    (SleepSys.goto { s with woke := update s.woke c true } t .inside).Inv cond := by
  have hlk := h.locks.lk t (by rw [hpc]; rfl)
  refine h.inside { lk := fun _ => hlk, state := .inl (h.states.awake (by rw [hpc]; rfl)) } hlk rfl
    rfl (fun t' hne => .inl ?_) fun p c' hw => ?_
  · -- only `t` holds `lk`
    cases hl : (s.pc t').leaves with
    | none => rfl
    | some c' =>
      have hlk' := h.locks.lk t' (by rcases leaves_iff.2 hl with ht | ht <;> rw [ht] <;> rfl)
      exact absurd (Option.some.inj (hlk.symm.trans hlk')) (Ne.symm hne)
  · refine h.waits.done t p c' hlk ?_
    by_cases hc : c' = c
    · refine .inr ?_
      rw [hpc, hc]
      simp only [scanned, if_true]
      omega
    · exact .inl ((update_of_ne hc _ _).symm.trans hw)

/-! ### The bodies of the loops of `wakeup` and `kill` -/

omit [DecidableEq χ] in
theorem Locks.not_going (h : s.Locks) (hheld : visits (s.pc t) = some q) (c : χ) :
    (s.pc q).going ≠ some c := by
  intro hc
  have hown : holdsOwn (s.pc q) = true ∧ visits (s.pc q) = none := by
    cases hq : s.pc q <;> rw [hq] at hc <;> first | exact ⟨rfl, rfl⟩ | cases hc
  have hq := h.own q hown.1
  rw [h.visit t q hheld] at hq
  cases hq
  cases hown.2.symm.trans hheld

omit [DecidableEq χ] in
theorem wakeSlot_others (hsleep : s.state q = .sleeping) (p : Fin nProc) :
    (s.setState q .runnable).state p = s.state p ∨
      s.state p = .sleeping ∧ (s.setState q .runnable).state p = .runnable := by
  by_cases hp : p = q
  · rw [hp]
    exact .inr ⟨hsleep, update_self _ _ _⟩
  · exact .inl (update_of_ne hp _ _)

/-- **The body of the loop of `wakeup`**: afterwards the process does not sleep on the channel. -/
theorem Inv.wakeTest {held : Bool} (h : s.Inv cond) (hpc : s.pc t = .wakeTest c q held)
    (hrun : (if s.state q = .sleeping ∧ s.chan q = some c then
      some ((s.setState q .runnable).goto t (.wakeRelease c q held))
      else some (s.goto t (.wakeRelease c q held))) = some s') : s'.Inv cond := by
  have hawake := h.states.awake (t := t) (by rw [hpc]; rfl)
  have hheld : visits (s.pc t) = some q := by rw [hpc]; rfl
  have hlk : holdsLk (.wakeRelease c q held) = true → s.lk = some t := fun h' =>
    h.locks.lk t (by rw [hpc]; exact h')
  have hvisit : ∀ q', visits (.wakeRelease c q held : SleepPc χ) = some q' →
      s.plock q' = some (.thread t) := fun q' hq' => Option.some.inj hq' ▸ h.locks.visit t q hheld
  have hgoing : (update s.pc t (.wakeRelease c q held) q).going ≠ some c := by
    by_cases hqt : q = t
    · rw [hqt, update_self]
      nofun
    · rw [update_of_ne hqt]
      exact h.locks.not_going hheld c
  -- the slot that is passed now
  have hscan : ¬ s'.Dozes q c → ∀ p c', p.val < scanned c' (.wakeRelease c q held) →
      p.val < scanned c' (s.pc t) ∨ ¬ s'.Dozes p c' := by
    intro hno p c' hp
    rw [hpc]
    cases held with
    | false => exact .inl hp
    | true =>
      by_cases hc : c = c'
      · subst hc
        simp only [scanned, if_true] at hp ⊢
        rcases Nat.lt_succ_iff_lt_or_eq.1 hp with hp | hp
        · exact .inl hp
        · rw [Fin.ext hp]
          exact .inr hno
      · simp [scanned, hc] at hp
  split at hrun
  · rename_i hsleep
    cases hrun
    have hself : (s.setState q .runnable).state t = s.state t := update_of_ne (by
      rintro rfl
      exact hawake.1 hsleep.1) _ _
    refine h.stays
      { others := fun p _ => ⟨rfl, wakeSlot_others hsleep.1 p⟩, lk := hlk, visit := hvisit,
        state := .inl (hself ▸ hawake), scan := fun _ => hscan fun hd => ?_ }
    rcases dozes_iff.1 hd with hd | ⟨hd, -⟩
    · exact hgoing hd
    · simp [SleepSys.goto, setState] at hd
  · rename_i hsleep
    cases hrun
    exact h.stays
      { lk := hlk, visit := hvisit, state := .inl hawake, scan := fun _ => hscan fun hd =>
        (dozes_iff.1 hd).elim hgoing hsleep }

theorem Inv.killTest {pid : ℤ} {found : Bool} (h : s.Inv cond) (hpc : s.pc t = .killTest pid q) :
    (s.goto t (.killRelease pid q found)).Inv cond ∧
      (s.state q = .sleeping → ((s.setState q .runnable).goto t (.killRelease pid q found)).Inv
      cond) := by
  have hawake := h.states.awake (t := t) (by rw [hpc]; rfl)
  have hvisit : ∀ q', visits (.killRelease pid q found : SleepPc χ) = some q' →
      s.plock q' = some (.thread t) := fun q' hq' =>
    Option.some.inj hq' ▸ h.locks.visit t q (by rw [hpc]; rfl)
  refine ⟨h.stays { visit := hvisit, state := .inl hawake }, fun hsleep => ?_⟩
  have hself : (s.setState q .runnable).state t = s.state t := update_of_ne (by
    rintro rfl
    exact hawake.1 hsleep) _ _
  exact h.stays
    { others := fun p _ => ⟨rfl, wakeSlot_others hsleep p⟩, visit := hvisit,
      state := .inl (hself ▸ hawake) }

/-! ### The steps -/

/-- **A step inside one of the functions keeps the invariant.** -/
theorem Inv.run (h : s.Inv cond) (hrun : s.run t = some s') : s'.Inv cond := by
  -- a thread that is not in `sched` is awake; it holds its own lock, or that of the slot it visits
  have hawake : (s.pc t).inSched = false → s.state t ≠ .sleeping ∧ s.state t ≠ .runnable :=
    h.states.awake
  have hlk := h.locks.lk t
  have hown := h.locks.own t
  have hmine : ∀ {q v}, s.plock q = some (.thread t) → ∀ q', ∀ t' ≠ t,
      s.plock q' = some (.thread t') → update s.plock q v q' = some (.thread t') := fun hq =>
    plock_frame fun t' hne => by simp [hq, hne.symm]
  have hnobody : ∀ {q v}, s.plock q = none → ∀ q', ∀ t' ≠ t,
      s.plock q' = some (.thread t') → update s.plock q v q' = some (.thread t') := fun hq =>
    plock_frame fun t' _ => by simp [hq]
  have hvisit := h.locks.visit t
  have hleaving := h.waits.leaving t
  rw [SleepSys.run] at hrun
  cases hpc : s.pc t with
  | outside | inside | switched r => simp [hpc] at hrun
  | sleepAcquire c =>
    rw [hpc] at hrun hlk hawake
    obtain ⟨hfree, rfl⟩ := taken hrun
    refine h.stays
      { plock := hnobody hfree, lk := fun _ => hlk rfl, own := fun _ => update_self _ _ _,
        state := .inl (hawake rfl), leave := fun c' hc' => ?_ }
    exact hleaving c' (.inl (Option.some.inj hc' ▸ hpc))
  | sleepRelease c =>
    rw [hpc] at hrun hlk hown
    cases hrun
    obtain ⟨hcond, hwoke⟩ := hleaving c (.inr hpc)
    refine h.unlock (by rw [hpc]; rfl) (hlk rfl) hwoke rfl (fun _ => hown rfl) rfl nofun
      fun c' hc' => ?_
    exact Option.some.inj hc' ▸ hcond
  | sleepChan c =>
    rw [hpc] at hrun hown hawake
    cases hrun
    exact h.stays
      { others := fun p hne => ⟨update_of_ne hne _ _, .inl rfl⟩, own := fun _ => hown rfl,
        chan := fun c' hc' => by cases hc'; exact update_self _ _ _,
        state := .inl (hawake rfl), going := fun c' hc' => by cases hc'; exact .inl hpc }
  | sleepState c =>
    rw [hpc] at hrun hown
    cases hrun
    exact h.stays
      { others := fun p hne => ⟨rfl, .inl (update_of_ne hne _ _)⟩, own := fun _ => hown rfl,
        state := .inr ⟨some c, .inl rfl, fun _ => ⟨c, rfl, h.states.chan t c hpc, .inr (.inl hpc)⟩⟩
        }
  | sched r =>
    rw [hpc] at hrun hown
    cases hrun
    refine h.stays { plock := hmine (hown rfl), state := .inr ⟨r, .inr rfl, fun hs => ?_⟩ }
    obtain ⟨c, hc, hor⟩ := h.states.asleep t hs
    rw [hpc] at hor
    exact ⟨c, by simpa using hor, hc, .inr (.inr ⟨hs, hc⟩)⟩
  | resumed r =>
    rw [hpc] at hrun hown hawake
    cases r with
    | none =>
      cases hrun
      exact h.stays { plock := hmine (hown rfl), state := .inl (hawake rfl) }
    | some c =>
      cases hrun
      exact h.stays
        { others := fun p hne => ⟨update_of_ne hne _ _, .inl rfl⟩, own := fun _ => hown rfl,
          state := .inl (hawake rfl) }
  | sleepDone =>
    rw [hpc] at hrun hown hawake
    cases hrun
    exact h.stays { plock := hmine (hown rfl), state := .inl (hawake rfl) }
  | reacquire =>
    rw [hpc] at hrun
    obtain ⟨hfree, rfl⟩ := taken hrun
    exact h.acquireLk (by rw [hpc]; rfl) hfree
  | yieldAcquire =>
    rw [hpc] at hrun hawake
    obtain ⟨hfree, rfl⟩ := taken hrun
    exact h.stays
      { plock := hnobody hfree, own := fun _ => update_self _ _ _,
        state := .inl (hawake rfl) }
  | yieldState =>
    rw [hpc] at hrun hown
    cases hrun
    refine h.stays
      { others := fun p hne => ⟨rfl, .inl (update_of_ne hne _ _)⟩, own := fun _ => hown rfl,
        state := .inr ⟨none, .inl rfl, fun hs => ?_⟩ }
    simp [SleepSys.goto, setState] at hs
  | wakeAcquire c n held =>
    rw [hpc] at hrun hlk hawake
    dsimp only at hrun
    split at hrun
    · split at hrun
      · rename_i hself
        cases hrun
        refine h.stays
          { pc := rfl, lk := hlk, state := .inl (hawake rfl), scan := fun _ p c' hp => ?_ }
        -- the caller itself is passed over, and does not sleep
        by_cases hpt : p = t
        · refine .inr fun hd => ?_
          simp only [hpt, dozes_iff, SleepSys.goto, update_self] at hd
          exact hd.elim nofun fun hd => (hawake rfl).1 hd.1
        · rw [hpc]
          cases held with
          | false => exact .inl hp
          | true =>
            simp only [scanned] at hp ⊢
            split at hp
            · rename_i hcc
              rw [if_pos hcc]
              omega
            · omega
      · obtain ⟨hfree, rfl⟩ := taken hrun
        refine h.stays
          { pc := rfl, plock := hnobody hfree, lk := hlk, state := .inl (hawake rfl),
            visit := fun q hq => by cases hq; exact update_self _ _ _,
            scan := fun _ p c' hp => .inl ?_ }
        rw [hpc]
        cases held <;> exact hp
    · rename_i hn
      split at hrun
      · rename_i hheld
        cases hrun
        subst hheld
        exact h.wakeEnd hpc (by omega)
      · cases hrun
        exact h.stays { state := .inl (hawake rfl) }
  | wakeTest c q held =>
    rw [hpc] at hrun
    exact h.wakeTest hpc hrun
  | wakeRelease c q held =>
    rw [hpc] at hrun hlk hawake hvisit
    cases hrun
    refine h.stays
      { pc := rfl, plock := hmine (hvisit q rfl), lk := hlk, state := .inl (hawake rfl),
        scan := fun _ p c' hp => .inl ?_ }
    rw [hpc]
    cases held <;> exact hp
  | killAcquire pid n =>
    rw [hpc] at hrun hawake
    dsimp only at hrun
    split at hrun
    · obtain ⟨hfree, rfl⟩ := taken hrun
      exact h.stays
        { plock := hnobody hfree, state := .inl (hawake rfl),
          visit := fun q hq => by cases hq; exact update_self _ _ _ }
    · cases hrun
      exact h.stays { state := .inl (hawake rfl) }
  | killTest pid q =>
    rw [hpc] at hrun
    -- `p->killed` is not looked at here
    have hkilled : ({ s with killed := update s.killed q true } : SleepSys σ χ).Inv cond :=
      ⟨⟨h.locks.lk, h.locks.own, h.locks.visit⟩, ⟨h.states.chan, h.states.asleep, h.states.ready⟩,
        ⟨h.waits.fresh, h.waits.leaving, h.waits.reason, h.waits.done⟩⟩
    dsimp only at hrun
    split at hrun
    · split at hrun
      · cases hrun
        exact (hkilled.killTest hpc).2 ‹_›
      · cases hrun
        exact (hkilled.killTest hpc).1
    · cases hrun
      exact (h.killTest hpc).1
  | killRelease pid q found =>
    rw [hpc] at hrun hawake hvisit
    cases hrun
    cases found with
    | true => exact h.stays { plock := hmine (hvisit q rfl), state := .inl (hawake rfl) }
    | false => exact h.stays { plock := hmine (hvisit q rfl), state := .inl (hawake rfl) }

theorem Inv.access (h : s.Inv cond) (hpc : s.pc t = .inside) (v : σ) :
    ({ s with
        shared := v
        dirty := fun c => s.dirty c || (!cond c s.shared && cond c v) } : SleepSys σ χ).Inv
          cond := by
  have hlk := h.locks.lk t (by rw [hpc]; rfl)
  refine ⟨⟨h.locks.lk, h.locks.own, h.locks.visit⟩,
    ⟨h.states.chan, h.states.asleep, h.states.ready⟩,
    ⟨fun h' => ?_, fun t' c ht' => ?_, fun p c hp => ?_, h.waits.done⟩⟩
  · cases hlk.symm.trans h'
  · -- only `t` holds `lk`
    have hlk' := h.locks.lk t' (by rcases ht' with ht' | ht' <;> rw [ht'] <;> rfl)
    rw [hlk] at hlk'
    cases hlk'
    simp [hpc] at ht'
  · rcases h.waits.reason p c hp with hc | hd
    · cases hv : cond c v with
      | false => exact .inl rfl
      | true => exact .inr (by simp [hc, hv])
    · exact .inr (by simp [hd])

theorem Inv.sched {v : Option Holder} (h : s.Inv cond) (hp : ∀ t, s.plock p ≠ some (.thread t)) :
    (s.setLock p v).Inv cond := by
  have hne : ∀ q t, s.plock q = some (.thread t) → (s.setLock p v).plock q = some (.thread t) := by
    intro q t hq
    refine (update_of_ne ?_ _ _).trans hq
    rintro rfl
    exact hp t hq
  exact ⟨⟨h.locks.lk, fun t ht => hne t t (h.locks.own t ht),
    fun t q ht => hne q t (h.locks.visit t q ht)⟩, ⟨h.states.chan, h.states.asleep, h.states.ready⟩,
    ⟨h.waits.fresh, h.waits.leaving, h.waits.reason, h.waits.done⟩⟩

theorem Inv.step {a : SleepAct σ χ} (h : s.Inv cond) (hcareful : Careful cond s a)
    (hstep : step cond s a = some (.ok s')) : s'.Inv cond := by
  have hawake : ∀ {t k}, s.pc t = k → k.inSched = false →
      s.state t ≠ .sleeping ∧ s.state t ≠ .runnable := fun hpc hk => h.states.awake (hpc ▸ hk)
  have hlk : ∀ {t}, s.pc t = .inside → s.lk = some t := fun hpc => h.locks.lk _ (by rw [hpc]; rfl)
  cases a with
  | acquire t =>
    obtain ⟨hpc, rfl⟩ := taken_ok hstep
    exact h.acquireLk (by rw [hpc.1]; rfl) hpc.2
  | access t v =>
    obtain ⟨hpc, rfl⟩ := taken_ok hstep
    exact h.access hpc v
  | release t =>
    obtain ⟨hpc, rfl⟩ := taken_ok hstep
    exact h.unlock (by rw [hpc]; rfl) (hlk hpc) hcareful rfl nofun rfl nofun nofun
  | sleep t c =>
    obtain ⟨hpc, rfl⟩ := taken_ok hstep
    exact h.stays
      { pc := rfl, lk := fun _ => hlk hpc, state := .inl (hawake hpc rfl), leave := fun c' hc' =>
        Option.some.inj hc' ▸ hcareful }
  | wakeup t c =>
    have hzero : ∀ (p : Fin nProc) (c' : χ) (held : Bool),
        ¬ p.val < scanned c' (.wakeAcquire c 0 held) := by
      intro p c' held
      cases held <;> simp [scanned]
    simp only [SleepSys.step] at hstep
    split at hstep
    · rename_i hpc
      cases hstep
      exact h.stays
        { lk := fun _ => hlk hpc, state := .inl (hawake hpc rfl), scan := fun _ p c' hp =>
          absurd hp (hzero p c' _) }
    · obtain ⟨hpc, rfl⟩ := taken_ok hstep
      exact h.stays { state := .inl (hawake hpc rfl) }
  | kill t pid =>
    obtain ⟨hpc, rfl⟩ := taken_ok hstep
    exact h.stays { state := .inl (hawake hpc rfl) }
  | yield t =>
    obtain ⟨hpc, rfl⟩ := taken_ok hstep
    exact h.stays { state := .inl (hawake hpc rfl) }
  | run t =>
    obtain ⟨s1, hrun, hs1⟩ := Option.map_eq_some_iff.1 hstep
    cases hs1
    exact h.run hrun
  | schedAcquire p =>
    obtain ⟨hp, rfl⟩ := taken_ok hstep
    exact h.sched fun t => by simp [hp]
  | schedRun p =>
    obtain ⟨hp, hstep⟩ := Option.ite_none_right_eq_some.1 hstep
    split at hstep
    · cases hstep
      -- the process now holds its own lock
      refine h.stays
        { plock := plock_frame fun t' _ => by simp [hp.1], own := fun _ => update_self _ _ _,
          others := fun q hne => ⟨rfl, .inl (update_of_ne hne _ _)⟩, state := .inl ?_ }
      simp [SleepSys.goto, setState, setLock]
    · cases hstep
  | schedRelease p =>
    obtain ⟨hp, rfl⟩ := taken_ok hstep
    exact h.sched fun t ht => by rcases hp with hp | ⟨hp, -⟩ <;> simp [hp] at ht

/-! ### What a step leaves alone -/

/-- A step inside one of the functions leaves the data and the other threads alone, and if the
thread is not in the section, it leaves the section of another thread alone. -/
theorem run_frame (hrun : s.run t = some s') : s'.shared = s.shared ∧
    (∀ t' ≠ t, s'.pc t' = s.pc t') ∧ (holdsLk (s.pc t) = false → s.lk ≠ none →
      s'.lk = s.lk ∧ s'.dirty = s.dirty ∧ s'.woke = s.woke) := by
  have hgoto : ∀ {s1 : SleepSys σ χ} {k : SleepPc χ}, s1.shared = s.shared → s1.pc = s.pc →
      (holdsLk (s.pc t) = false → s.lk ≠ none →
        s1.lk = s.lk ∧ s1.dirty = s.dirty ∧ s1.woke = s.woke) →
      (s1.goto t k).shared = s.shared ∧ (∀ t' ≠ t, (s1.goto t k).pc t' = s.pc t') ∧
        (holdsLk (s.pc t) = false → s.lk ≠ none → (s1.goto t k).lk = s.lk ∧
          (s1.goto t k).dirty = s.dirty ∧ (s1.goto t k).woke = s.woke) :=
    fun h1 h2 h3 => ⟨h1, fun t' hne => by simp [SleepSys.goto, h2, update_of_ne hne], h3⟩
  simp only [SleepSys.run] at hrun
  split at hrun
  all_goals (repeat' split at hrun)
  all_goals cases hrun
  all_goals refine hgoto rfl rfl fun hno hlk => ?_
  all_goals first | exact ⟨rfl, rfl, rfl⟩ | simp_all [holdsLk]

theorem run_waking (hrun : s.run t = some s') (hc : waking (s.pc t) = some c) :
    s'.dirty = s.dirty ∧ (waking (s'.pc t) = some c ∧ s'.woke = s.woke ∨
      s'.pc t = .inside ∧ s'.woke = update s.woke c true) := by
  simp only [SleepSys.run] at hrun
  split at hrun
  all_goals rename_i hpc
  all_goals rw [hpc] at hc
  all_goals (repeat' split at hrun)
  all_goals cases hrun
  all_goals simp_all [waking, SleepSys.goto, setLock, setState]

theorem run_enter (hrun : s.run t = some s') (hc : waking (s.pc t) = none) :
    waking (s'.pc t) = none ∧ (s'.pc t = .inside → s.lk = none ∧ s'.dirty = s.dirty) := by
  simp only [SleepSys.run] at hrun
  split at hrun
  all_goals rename_i hpc
  all_goals rw [hpc] at hc
  all_goals (repeat' split at hrun)
  all_goals cases hrun
  all_goals simp_all [waking, SleepSys.goto, setLock, setState]
/-- A step leaves the other threads alone, and if one of them holds `lk`, the data and the history
of its section. -/
theorem Inv.step_frame {a : SleepAct σ χ} {t' : Fin nProc} (h : s.Inv cond)
    (hstep : SleepSys.step cond s a = some (.ok s')) (hne : t' ≠ a.actor) :
    s'.pc t' = s.pc t' ∧
      (s.lk = some t' → s'.shared = s.shared ∧ s'.dirty = s.dirty ∧ s'.woke = s.woke) := by
  have hin : ∀ {t}, t' ≠ t → holdsLk (s.pc t) = true → s.lk ≠ some t' := by
    intro t hne ht hlk
    rw [h.locks.lk t ht, Option.some_inj] at hlk
    exact hne hlk.symm
  cases a with
  | run t =>
    simp only [SleepSys.step, Option.map_eq_some_iff] at hstep
    obtain ⟨s1, hrun, hs1⟩ := hstep
    cases hs1
    obtain ⟨hshared, hpc, hsec⟩ := run_frame hrun
    refine ⟨hpc t' hne, fun hlk => ⟨hshared, ?_⟩⟩
    cases ht : holdsLk (s.pc t) with
    | true => exact absurd hlk (hin hne ht)
    | false => exact (hsec ht (by simp [hlk])).2
  | access t v =>
    obtain ⟨hpc, rfl⟩ := taken_ok hstep
    exact ⟨rfl, fun hlk => absurd hlk (hin (t := t) hne (by rw [hpc]; rfl))⟩
  | release t =>
    obtain ⟨hpc, rfl⟩ := taken_ok hstep
    exact ⟨update_of_ne hne _ _, fun hlk => absurd hlk (hin (t := t) hne (by rw [hpc]; rfl))⟩
  | acquire t =>
    obtain ⟨-, rfl⟩ := taken_ok hstep
    exact ⟨update_of_ne hne _ _, fun _ => ⟨rfl, rfl, rfl⟩⟩
  | sleep t c =>
    obtain ⟨-, rfl⟩ := taken_ok hstep
    exact ⟨update_of_ne hne _ _, fun _ => ⟨rfl, rfl, rfl⟩⟩
  | wakeup t c =>
    simp only [SleepSys.step] at hstep
    split at hstep
    · cases hstep
      exact ⟨update_of_ne hne _ _, fun _ => ⟨rfl, rfl, rfl⟩⟩
    · split at hstep
      · cases hstep
        exact ⟨update_of_ne hne _ _, fun _ => ⟨rfl, rfl, rfl⟩⟩
      · cases hstep
  | kill t pid =>
    obtain ⟨-, rfl⟩ := taken_ok hstep
    exact ⟨update_of_ne hne _ _, fun _ => ⟨rfl, rfl, rfl⟩⟩
  | yield t =>
    obtain ⟨-, rfl⟩ := taken_ok hstep
    exact ⟨update_of_ne hne _ _, fun _ => ⟨rfl, rfl, rfl⟩⟩
  | schedAcquire p =>
    obtain ⟨-, rfl⟩ := taken_ok hstep
    exact ⟨rfl, fun _ => ⟨rfl, rfl, rfl⟩⟩
  | schedRun p =>
    obtain ⟨-, hstep⟩ := Option.ite_none_right_eq_some.1 hstep
    split at hstep
    · cases hstep
      exact ⟨update_of_ne hne _ _, fun _ => ⟨rfl, rfl, rfl⟩⟩
    · cases hstep
  | schedRelease p =>
    obtain ⟨-, rfl⟩ := taken_ok hstep
    exact ⟨rfl, fun _ => ⟨rfl, rfl, rfl⟩⟩

/-! ### Runs -/

/-- A state from which runs start: the locks are free, and the processes run in their own code or
are in `yield` and wait for a scheduler. -/
structure Start (s : SleepSys σ χ) : Prop where
  lk : s.lk = none
  plock : ∀ p, s.plock p = none
  pc : ∀ p, s.pc p = .outside ∧ s.state p ≠ .runnable ∨ s.pc p = .switched none
  state : ∀ p, s.state p ≠ .sleeping
  section_empty : ∀ c, s.dirty c = false ∧ s.woke c = false

omit [DecidableEq χ] in
theorem Start.pc_ne (h : s.Start) {k : SleepPc χ} (hk : k ≠ .outside) (hk' : k ≠ .switched none)
    (p : Fin nProc) : s.pc p ≠ k := by
  rintro rfl
  exact (h.pc p).elim (fun hp => hk hp.1) hk'

theorem Start.inv (h : s.Start) : s.Inv cond := by
  have hpc : ∀ p, s.pc p = .outside ∨ s.pc p = .switched none := fun p =>
    (h.pc p).imp_left And.left
  have hdoze : ∀ p c, ¬ s.Dozes p c := by
    rintro p c (hp | hp | ⟨hp, -⟩)
    · exact h.pc_ne (by simp) (by simp) p hp
    · exact h.pc_ne (by simp) (by simp) p hp
    · exact h.state p hp
  refine ⟨⟨fun t ht => ?_, fun t ht => ?_, fun t q ht => ?_⟩,
    ⟨fun t c ht => absurd ht (h.pc_ne (by simp) (by simp) t), fun t ht => absurd ht (h.state t),
      fun t ht => ⟨none, .inr ((h.pc t).resolve_left fun hp => hp.2 ht)⟩⟩,
    ⟨fun _ => h.section_empty, fun t c ht => ?_, fun p c hp => absurd hp (hdoze p c),
      fun t p c _ _ => hdoze p c⟩⟩
  · rcases hpc t with hp | hp <;> rw [hp] at ht <;> cases ht
  · rcases hpc t with hp | hp <;> rw [hp] at ht <;> cases ht
  · rcases hpc t with hp | hp <;> rw [hp] at ht <;> cases ht
  · rcases ht with ht | ht
    · exact absurd ht (h.pc_ne (by simp) (by simp) t)
    · exact absurd ht (h.pc_ne (by simp) (by simp) t)

theorem Inv.awake (h : s.Inv cond) (hlk : s.lk = none) (hc : cond c s.shared = true)
    (p : Fin nProc) : ¬ (s.state p = .sleeping ∧ s.chan p = some c) := by
  intro hp
  rcases h.waits.reason p c (.inr (.inr hp)) with hf | hd
  · rw [hc] at hf
    cases hf
  · rw [(h.waits.fresh hlk c).1] at hd
    cases hd

/-- **No lost wakeups.**  Take any number of processes that test conditions under `lk`, sleep on the
channel of a condition only while it is false, and wake up the channel of every condition that they
have made true before they give up `lk`.  In every state that is reached, if `lk` is free and the
condition of `c` is true, no process is asleep on `c`. -/
theorem no_lost_wakeup {s0 : SleepSys σ χ} (h0 : s0.Start)
    (hr : Runs.Reach (step cond) (Careful cond) s0 s) (hlk : s.lk = none) (c : χ)
    (hc : cond c s.shared = true) (p : Fin nProc) : ¬ (s.state p = .sleeping ∧ s.chan p = some c) :=
  (hr.invariant (I := Inv cond) h0.inv fun _ _ _ hi hok hs => hi.step hok hs).awake hlk hc p

/-- Two processes and one flag, which is not set. -/
def flagSys : SleepSys Bool Unit where
  shared := false
  lk := none
  plock _ := none
  state p := if p.val < 2 then .running else .unused
  chan _ := none
  killed _ := false
  pid p := p.val + 1
  pc _ := .outside
  dirty _ := false
  woke _ := false

theorem flagSys_start : flagSys.Start where
  lk := rfl
  plock _ := rfl
  pc p := .inl ⟨rfl, by simp only [flagSys]; split <;> simp⟩
  state p := by simp only [flagSys]; split <;> simp
  section_empty _ := ⟨rfl, rfl⟩

/-- The first process waits for the flag and the second one sets it. -/
theorem no_lost_wakeup_flag :
    ∃ s, (Runs.Reach (step fun _ b => b) (Careful fun _ b => b) flagSys s ∧
    s.lk = none ∧ s.shared = true ∧ s.state 0 = .runnable) ∧
    ∀ p, ¬ (s.state p = .sleeping ∧ s.chan p = some ()) := by
  have hrun : ∃ s, Runs.Reach (step fun _ b => b) (Careful fun _ b => b) flagSys s ∧
      s.lk = none ∧ s.shared = true ∧ s.state 0 = .runnable := Runs.exists_reach_of_exec
    ([.acquire 0, .sleep 0 ()] ++ List.replicate 5 (.run 0) ++
      [.schedRelease 0, .acquire 1, .access 1 true, .wakeup 1 ()] ++ List.replicate 191 (.run 1) ++
      [.release 1]) (by decide +kernel)
  obtain ⟨s, hr, hlk, hshared, hstate⟩ := hrun
  exact ⟨s, ⟨hr, hlk, hshared, hstate⟩, no_lost_wakeup flagSys_start hr hlk () hshared⟩

end SleepSys

end CsklubOs
