/-
**The agreement of `exit` and `wait`.**

`exit` gives the children of a process to `init`, wakes up the parent and leaves a zombie; `wait`
looks for a zombie among the children and sleeps if there is none.  Both do this under `wait_lock`,
with sections under `p->lock` in between.

The parent is woken up before the child is a zombie, and may be given a child that is one already.
Between these events `wait_lock` is held, so that a parent which was found awake cannot go to sleep.
Only processes call `wakeup` here, as in `CsklubOs/Sched.lean`.

Main definitions:

* `CallStage`, `StageOk` — what a thread has established so far, which depends on its place: how
  many slots `reparent` and `wait` have passed, whether the parent has been woken;
* `Family` — the invariant;
* `Agreement` — what holds of zombies, their parents and those that wait.

Main results:

* `exit_wait` — it holds in every run.
-/

import CsklubOs.Sched

set_option autoImplicit false

namespace CsklubOs

open Function
open Option (map_eq_some_iff some_inj)

/-! ### Stages -/

/-- What a thread has established about parents and children. -/
inductive CallStage
  | idle
  /-- `fork` has set the parent of `np`. -/
  | forked (np : Fin nProc)
  /-- `exit` has not yet acquired `wait_lock`. -/
  | exits
  /-- `reparent` has passed the slots below `n`. -/
  | reparent (n : ℕ)
  /-- `reparent` has given away a child, and `wakeup` has passed the slots below `i`. -/
  | wakeInit (ch : Option Chan) (i n : ℕ)
  /-- `wakeup(p->parent)` has passed the slots below `i`. -/
  | wakeParent (ch : Option Chan) (i : ℕ)
  /-- The parent has been woken up. -/
  | woken
  | zombie (status : ℤ)
  /-- The loop of `wait` has passed the slots below `n`. -/
  | scan (n : ℕ) (havekids : Bool)
  /-- `wait` looks at a child. -/
  | reap (k : Fin nProc)
  /-- No child is a zombie, -/
  | checked
  /-- and `wait` calls `sleep`, -/
  | sleeps (ch : Chan)
  /-- which has released `wait_lock`. -/
  | dozes (ch : Chan)

/-- The stages under `wait_lock`. -/
def CallStage.locked : CallStage → Bool
  | .idle | .forked _ | .exits | .zombie _ | .dozes _ => false
  | .reparent _ | .wakeInit _ _ _ | .wakeParent _ _ | .woken | .scan _ _ | .reap _ | .checked
  | .sleeps _ => true

/-- `reparent` has given a child to `init`, and has not yet looked whether `init` sleeps. -/
def CallStage.owesInit (init : Fin nProc) : CallStage → Bool
  | .wakeInit _ i _ => decide (i ≤ init.val)
  | _ => false

def WakeRet.stage (ch : Option Chan) (i : ℕ) : WakeRet → CallStage
  | .user => .idle
  | .reparent n _ => .wakeInit ch i n
  | .exit _ => .wakeParent ch i

def SlotOp.stage (k : Fin nProc) : SlotOp → CallStage
  | .wake ch r => r.stage ch k
  | .ready _ => .forked k
  | .reap => .reap k
  | .kill _ | .alloc => .idle

def OwnOp.stage : OwnOp → CallStage
  | .killed => .checked
  | .sleep ch w => if w then .sleeps ch else .idle
  | .exit _ => .woken
  | .setkilled => .idle

def Loc.stage : Loc → CallStage
  | .visit k op => op.stage k
  | .own op => op.stage
  | .wakeLoop ch n r => r.stage ch n
  | .forkRelease np _ => .forked np
  | .exitAcquire _ => .exits
  | .reparent n _ => .reparent n
  | .exitWake _ => .reparent nProc
  | .waitScan n havekids => .scan n havekids
  | .user | .ret _ | .killLoop _ _ | .allocLoop _ | .forkParent _ _ | .forkSet _ _
  | .sleepAcquire _ | .waitAcquire | .waitRet _ => .idle

def SchedRet.stage : SchedRet → CallStage
  | .yield l => l.stage
  | .sleep ch w => if w then .dozes ch else .idle
  | .forkret => .idle
  | .exit status => .zombie status

def ThreadPc.stage : ThreadPc → CallStage
  | .at l | .leave _ l | .yieldAcquire l | .yieldSet l => l.stage
  | .inspect k op => op.stage k
  | .inspectOwn op => op.stage
  | .sleepSet ch w => if w then .dozes ch else .idle
  | .exitRelease status => .zombie status
  | .sched r | .switched r | .resumed r => r.stage

/-- The thread holds `wait_lock`. -/
def ThreadPc.wait : ThreadPc → Bool
  | .at l | .leave _ l => l.wait
  | .inspect _ op => op.wait
  | .inspectOwn op => op.wait
  | .exitRelease _ => true
  | .yieldAcquire _ | .yieldSet _ | .sleepSet _ _ | .sched _ | .switched _ | .resumed _ => false

/-- The place that `yield` returns to. -/
def ThreadPc.yielding : ThreadPc → Option Loc
  | .yieldAcquire l | .yieldSet l | .sched (.yield l) | .switched (.yield l) | .resumed
    (.yield l) =>
    some l
  | _ => none

theorem CallStage.locked_of_owes {i : Fin nProc} {σ : CallStage} (h : σ.owesInit i = true) :
    σ.locked = true := by
  cases σ <;> first | rfl | cases h

theorem SlotOp.stage_ne_dozes {k : Fin nProc} {op : SlotOp} (ch : Chan) :
    op.stage k ≠ .dozes ch := by
  cases op with
  | wake c r => cases r <;> rintro ⟨⟩
  | _ => rintro ⟨⟩

theorem OwnOp.stage_ne_dozes {op : OwnOp} (ch : Chan) : op.stage ≠ .dozes ch := by
  cases op with
  | sleep c w => cases w <;> rintro ⟨⟩
  | _ => rintro ⟨⟩

variable {l : Loc}

theorem Loc.stage_ne_dozes (ch : Chan) : l.stage ≠ .dozes ch := by
  cases l with
  | visit k op => exact SlotOp.stage_ne_dozes ch
  | own op => exact OwnOp.stage_ne_dozes ch
  | wakeLoop c n r => cases r <;> rintro ⟨⟩
  | _ => rintro ⟨⟩

theorem Loc.forking_of_forked {np : Fin nProc} (h : l.stage = .forked np) :
    l.forking = some np := by
  cases l with
  | visit k op =>
    cases op with
    | wake ch r => cases r <;> cases h
    | ready pid =>
      cases h
      rfl
    | _ => cases h
  | own op =>
    cases op with
    | sleep ch w => cases w <;> cases h
    | _ => cases h
  | wakeLoop ch n r => cases r <;> cases h
  | forkRelease np' pid =>
    cases h
    rfl
  | _ => cases h

theorem ThreadPc.forking_of_forked {k : ThreadPc} {np : Fin nProc} (h : k.stage = .forked np) :
    k.forking = some np := by
  cases k with
  | «at» l | leave q l | yieldAcquire l | yieldSet l => exact Loc.forking_of_forked h
  | inspect k op =>
    cases op with
    | wake ch r => cases r <;> cases h
    | ready pid =>
      cases h
      rfl
    | _ => cases h
  | inspectOwn op =>
    cases op with
    | sleep ch w => cases w <;> cases h
    | _ => cases h
  | sleepSet ch w => cases w <;> cases h
  | exitRelease status => cases h
  | sched r | switched r | resumed r =>
    cases r with
    | yield l => exact Loc.forking_of_forked h
    | sleep ch w => cases w <;> cases h
    | _ => cases h

theorem SlotOp.wait_of_locked {k : Fin nProc} {op : SlotOp} (h : (op.stage k).locked = true) :
    op.wait = true := by
  cases op with
  | wake ch r => cases r <;> first | rfl | cases h
  | reap => rfl
  | _ => cases h

theorem OwnOp.wait_of_locked {op : OwnOp} (h : op.stage.locked = true) : op.wait = true := by
  cases op with
  | sleep ch w => cases w <;> first | rfl | cases h
  | _ => first | rfl | cases h

theorem Loc.wait_of_locked (h : l.stage.locked = true) : l.wait = true := by
  cases l with
  | visit k op => exact SlotOp.wait_of_locked h
  | own op => exact OwnOp.wait_of_locked h
  | wakeLoop ch n r => cases r <;> first | rfl | cases h
  | _ => first | rfl | cases h

/-- A stage under `wait_lock` is at a place under `wait_lock`, since nobody yields there. -/
theorem ThreadPc.wait_of_locked {k : ThreadPc} (hy : ∀ l, k.yielding = some l → l.wait = false)
    (h : k.stage.locked = true) : k.wait = true := by
  have hyield : ∀ {l : Loc}, k.yielding = some l → l.stage.locked = true → k.wait = true := by
    intro l hl hlocked
    have hw := Loc.wait_of_locked hlocked
    rw [hy l hl] at hw
    cases hw
  cases k with
  | «at» l => exact Loc.wait_of_locked h
  | leave k l => exact Loc.wait_of_locked h
  | inspect k op => exact SlotOp.wait_of_locked h
  | inspectOwn op => exact OwnOp.wait_of_locked h
  | yieldAcquire l => exact hyield rfl h
  | yieldSet l => exact hyield rfl h
  | sleepSet ch w => cases w <;> cases h
  | exitRelease status => rfl
  | sched r | switched r | resumed r =>
    cases r with
    | yield l => exact hyield rfl h
    | sleep ch w => cases w <;> cases h
    | _ => cases h

namespace CpuSys

variable {C : Type} {s s' : CpuSys C} {c : C} {t p q j : Fin nProc} {k : ThreadPc} {σ : CallStage}

/-! ### The invariant -/

/-- The parent of a process. -/
def parent (s : CpuSys C) (p : Fin nProc) : Option (Fin nProc) := (s.proc p).parent

/-- A process that has been forked completely and has not exited. -/
def Alive (s : CpuSys C) (p : Fin nProc) : Prop :=
  s.state p ≠ .unused ∧ s.state p ≠ .used ∧ s.state p ≠ .zombie

/-- A process that sleeps in `wait`, or has released `wait_lock` to do so. -/
def Dozes (s : CpuSys C) (p : Fin nProc) : Prop :=
  (∃ ch, s.pc p = .sleepSet ch true) ∨ s.state p = .sleeping ∧ ∃ ch, (s.pc p).stage = .dozes ch

/-- What thread `t` has established at a stage. -/
def StageOk (s : CpuSys C) (t : Fin nProc) : CallStage → Prop
  | .idle => True
  | .forked np => s.parent np = some t
  | .exits => t ≠ s.initproc
  | .reparent n => t ≠ s.initproc ∧ ∀ j, j.val < n → s.parent j ≠ some t
  | .wakeInit ch _ n =>
    t ≠ s.initproc ∧ (∀ j, j.val < n → s.parent j ≠ some t) ∧ ch = some (.proc s.initproc)
  | .wakeParent ch i =>
    t ≠ s.initproc ∧ (∀ j, s.parent j ≠ some t) ∧ ch = (s.parent t).map .proc ∧
      ∀ q, s.parent t = some q → q.val < i → ¬ s.Dozes q
  | .woken =>
    t ≠ s.initproc ∧ (∀ j, s.parent j ≠ some t) ∧ ∀ q, s.parent t = some q → ¬ s.Dozes q
  | .zombie status =>
    t ≠ s.initproc ∧ (∀ j, s.parent j ≠ some t) ∧
      (s.state t = .zombie → (s.proc t).xstate = status)
  | .scan n havekids =>
    (∀ j, j.val < n → s.parent j = some t → s.state j ≠ .zombie) ∧
      (havekids = false → ∀ j, j.val < n → s.parent j ≠ some t)
  | .reap k => s.parent k = some t ∧ ∀ j, j.val < k.val → s.parent j = some t → s.state j ≠ .zombie
  | .checked => ∀ j, s.parent j = some t → s.state j ≠ .zombie
  | .sleeps ch => ch = .proc t ∧ ∀ j, s.parent j = some t → s.state j ≠ .zombie
  | .dozes ch => ch = .proc t ∧ (s.state t = .sleeping → (s.proc t).chan = some (.proc t))

/-- **The invariant of parents and children.** -/
structure Family (s : CpuSys C) : Prop where
  inv : s.Inv
  lock : ∀ t, (s.pc t).wait = true → ∃ c, s.cpu c = .run t ∧ s.waitLock = some c
  yields : ∀ t l, (s.pc t).yielding = some l → l.wait = false
  stage : ∀ t, s.StageOk t (s.pc t).stage
  alive : ∀ j q, s.parent j = some q → s.Alive q
  init : s.Alive s.initproc
  child : ∀ j, j ≠ s.initproc → s.Alive j ∨ s.state j = .zombie → s.parent j ≠ none
  free : ∀ j, s.state j = .unused → s.parent j = none
  /-- Nobody sleeps in `wait` with a zombie child, except `init` when it has just been given one. -/
  doze : ∀ j q, s.parent j = some q → s.state j = .zombie → s.Dozes q →
    q = s.initproc ∧ ∃ u, (s.pc u).stage.owesInit s.initproc = true

theorem Family.lock_unique (h : s.Family) (ht : (s.pc t).wait = true) (hp : (s.pc p).wait = true) :
    p = t := by
  obtain ⟨c1, hrun1, hc1⟩ := h.lock t ht
  obtain ⟨c2, hrun2, hc2⟩ := h.lock p hp
  rw [hc1, some_inj] at hc2
  rw [hc2, hrun2] at hrun1
  exact CpuPc.run.inj hrun1

theorem Family.lock_of_run (h : s.Family) (hrun : s.cpu c = .run t) (ht : (s.pc t).wait = true) :
    s.waitLock = some c := by
  obtain ⟨c', hrun', hc'⟩ := h.lock t ht
  rw [h.inv.one c c' t (h.inv.cproc_run hrun) (h.inv.cproc_run hrun')]
  exact hc'

theorem Family.unlocked (h : s.Family) (ht : (s.pc t).wait = true) (hp : p ≠ t) :
    (s.pc p).stage.locked = false := by
  cases hl : (s.pc p).stage.locked with
  | false => rfl
  | true => exact absurd (h.lock_unique ht (ThreadPc.wait_of_locked (h.yields p) hl)) hp

theorem Inv.ne_sleepSet (h : s.Inv) (hrun : s.cpu c = .run t) (hlock : s.plock p = some c)
    (hp : p ≠ t) (ch : Chan) (w : Bool) : s.pc p ≠ .sleepSet ch w := by
  intro hpc
  obtain ⟨c', hrun'⟩ := h.active p (by rw [hpc]; rfl)
  have hlock' := h.held c' p p hrun' (by rw [hpc]; rfl)
  rw [hlock, some_inj] at hlock'
  rw [← hlock', hrun] at hrun'
  exact hp (CpuPc.run.inj hrun').symm

theorem Family.asleep (h : s.Family) (hrun : s.cpu c = .run t) (hlock : s.plock p = some c)
    (hp : p ≠ t) (hd : s.Dozes p) : s.state p = .sleeping ∧ (s.proc p).chan = some (.proc p) := by
  rcases hd with ⟨ch, hpc⟩ | ⟨hs, ch, hst⟩
  · exact absurd hpc (h.inv.ne_sleepSet hrun hlock hp ch true)
  · have hok := h.stage p
    rw [hst] at hok
    exact ⟨hs, hok.2 hs⟩

/-! ### Steps that keep the parents -/

/-- What a thread has established stays true as long as no parent changes, no zombie appears and
nobody goes to sleep in `wait`. -/
theorem StageOk.frame (h : s.StageOk t σ) (hinit : s'.initproc = s.initproc)
    (hparent : ∀ j, s'.parent j = s.parent j)
    (hzombie : ∀ j, s'.state j = .zombie → s.state j = .zombie ∧
    (s'.proc j).xstate = (s.proc j).xstate) (hsleep : s'.state t = .sleeping →
    s.state t = .sleeping ∧ (s'.proc t).chan = (s.proc t).chan) (hdoze : ∀ q, s'.Dozes q →
    s.Dozes q) : s'.StageOk t σ := by
  have hnz : ∀ {j}, s.state j ≠ .zombie → s'.state j ≠ .zombie := fun hj hj' => hj (hzombie _ hj').1
  cases σ <;> simp only [StageOk, hinit, hparent] at h ⊢
  case wakeParent => exact ⟨h.1, h.2.1, h.2.2.1, fun q hq hi hd => h.2.2.2 q hq hi (hdoze q hd)⟩
  case woken => exact ⟨h.1, h.2.1, fun q hq hd => h.2.2 q hq (hdoze q hd)⟩
  case zombie => exact ⟨h.1, h.2.1, fun hz => (hzombie t hz).2.trans (h.2.2 (hzombie t hz).1)⟩
  case scan => exact ⟨fun j hj hp => hnz (h.1 j hj hp), h.2⟩
  case reap => exact ⟨h.1, fun j hj hp => hnz (h.2 j hj hp)⟩
  case checked => exact fun j hp => hnz (h j hp)
  case sleeps => exact ⟨h.1, fun j hp => hnz (h.2 j hp)⟩
  case dozes => exact ⟨h.1, fun hs => (hsleep hs).2.trans (h.2 (hsleep hs).1)⟩
  all_goals exact h

/-- What happens to a slot in a step that makes no zombie and removes none: a process that is alive
stays so, and one that comes to life has a parent. -/
def Mild (s s' : CpuSys C) (j : Fin nProc) : Prop :=
  s'.state j = s.state j ∨ s.state j ≠ .zombie ∧ s'.state j ≠ .zombie ∧ (s.Alive j → s'.Alive j) ∧
    (s'.Alive j → s.Alive j ∨ s.parent j ≠ none) ∧ (s'.state j = .unused → s.parent j = none)

theorem Mild.zombie (h : s.Mild s' j) (hz : s'.state j = .zombie) : s.state j = .zombie := by
  rcases h with hs | ⟨-, hnz, -⟩
  · rwa [← hs]
  · exact absurd hz hnz

theorem Mild.alive (h : s.Mild s' j) (ha : s.Alive j) : s'.Alive j := by
  rcases h with hs | ⟨-, -, hal, -⟩
  · rwa [Alive, hs]
  · exact hal ha

/-- **A step that changes no parent**, makes no zombie and sends nobody to sleep in `wait`. -/
theorem Family.calm (h : s.Family) (h' : s'.Inv) (hinit : s'.initproc = s.initproc)
    (hlock : ∀ p, (s'.pc p).wait = true → ∃ c, s'.cpu c = .run p ∧ s'.waitLock = some c)
    (hyield : ∀ p l, (s'.pc p).yielding = some l → l.wait = false)
    (hparent : ∀ j, s'.parent j = s.parent j) (hmild : ∀ j, s.Mild s' j)
    (hxstate : ∀ j, s'.state j = .zombie → (s'.proc j).xstate = (s.proc j).xstate)
    (hdoze : ∀ q, s'.Dozes q → s.Dozes q)
    (hstage : ∀ p, s.StageOk p (s'.pc p).stage ∧ (s'.state p = .sleeping →
      s.state p = .sleeping ∧ (s'.proc p).chan = (s.proc p).chan) ∨ s'.StageOk p (s'.pc p).stage)
    (howes : ∀ u, (s.pc u).stage.owesInit s.initproc = true →
      (s'.pc u).stage.owesInit s.initproc = true ∨ ¬ s'.Dozes s.initproc) : s'.Family := by
  refine ⟨h', hlock, hyield, fun p => ?_, fun j q hj => ?_, ?_, fun j hj hlive => ?_,
    fun j hj => ?_, fun j q hj hz hd => ?_⟩
  · obtain ⟨hok, hsleep⟩ | hok := hstage p
    · exact hok.frame hinit hparent (fun j hz => ⟨(hmild j).zombie hz, hxstate j hz⟩) hsleep hdoze
    · exact hok
  · rw [hparent j] at hj
    exact (hmild q).alive (h.alive j q hj)
  · rw [hinit]
    exact (hmild _).alive h.init
  · rw [hparent j]
    rw [hinit] at hj
    rcases hmild j with hs | ⟨-, hnz, -, hal, -⟩
    · rw [Alive, hs] at hlive
      exact h.child j hj hlive
    · exact (hal (hlive.resolve_right hnz)).elim (fun ha => h.child j hj (.inl ha)) id
  · rw [hparent j]
    rcases hmild j with hs | ⟨-, -, -, -, hu⟩
    · exact h.free j (hs.symm.trans hj)
    · exact hu hj
  · rw [hparent j] at hj
    obtain ⟨hq, u, hu⟩ := h.doze j q hj ((hmild j).zombie hz) (hdoze q hd)
    rw [hinit]
    exact ⟨hq, u, (howes u hu).resolve_right fun hnd => hnd (hq ▸ hd)⟩

/-- The threads other than `t` stay where they are, and a free slot may get a new context. -/
def Others (s s' : CpuSys C) (t : Fin nProc) : Prop :=
  ∀ p ≠ t, s'.pc p = s.pc p ∨ s.state p = .unused ∧ s'.pc p = .switched .forkret

theorem Family.locks (h : s.Family) (hrun : s.cpu c = .run t) (hcpu : s'.cpu = s.cpu)
    (hpc : s'.pc t = k) (hother : s.Others s' t)
    (hlock : s'.waitLock = s.waitLock ∨ (s.pc t).wait = true ∨ s.waitLock = none)
    (hwait : k.wait = true → s'.waitLock = some c)
    (hyield : ∀ l, k.yielding = some l → l.wait = false) :
    (∀ p, (s'.pc p).wait = true → ∃ c, s'.cpu c = .run p ∧ s'.waitLock = some c) ∧
      ∀ p l, (s'.pc p).yielding = some l → l.wait = false := by
  refine ⟨fun p hp => ?_, fun p l hl => ?_⟩ <;> by_cases hpt : p = t
  · rw [hpt, hpc] at hp
    exact ⟨c, by rw [hcpu, hpt, hrun], hwait hp⟩
  · obtain hsame | ⟨-, hnew⟩ := hother p hpt
    · rw [hsame] at hp
      obtain ⟨c', hrun', hc'⟩ := h.lock p hp
      refine ⟨c', by rw [hcpu, hrun'], ?_⟩
      rcases hlock with hl | hl | hl
      · exact hl.trans hc'
      · exact absurd (h.lock_unique hl hp) hpt
      · cases hl.symm.trans hc'
    · rw [hnew] at hp
      cases hp
  · rw [hpt, hpc] at hl
    exact hyield l hl
  · obtain hsame | ⟨-, hnew⟩ := hother p hpt
    · rw [hsame] at hl
      exact h.yields p l hl
    · rw [hnew] at hl
      cases hl

/-- A step of thread `t` from `k0` to `k` that changes slot `j` and leaves its parent as it is. -/
structure Touches (s s' : CpuSys C) (c : C) (t : Fin nProc) (k0 k : ThreadPc) (j : Fin nProc)
    (P : Proc) : Prop where
  init : s'.initproc = s.initproc := by rfl
  cpu : s'.cpu = s.cpu := by rfl
  pc : s'.pc t = k := by exact update_self _ _ _
  other : s.Others s' t := by exact fun _ hp => .inl (update_of_ne hp _ _)
  proc : s'.proc = update s.proc j P := by rfl
  lock : s'.waitLock = s.waitLock ∨ k0.wait = true ∨ s.waitLock = none := by exact .inl rfl
  wait : k.wait = true → s'.waitLock = some c := by rintro ⟨⟩
  yield : ∀ l, k.yielding = some l → l.wait = false := by rintro _ ⟨⟩
  parent : P.parent = s.parent j := by rfl
  new : P.state = s.state j ∨
    s.Alive j ∧ (P.state = .runnable ∨ P.state = .sleeping ∨ P.state = .running) ∨
    s.state j = .used ∧ P.state = .runnable ∧ s.parent j ≠ none ∨ s.state j = .unused ∧
    P.state = .used
  xstate : P.state = .zombie → P.xstate = (s.proc j).xstate := by exact fun _ => rfl
  sleep : (P.state = .sleeping → s.state j = .sleeping ∧ P.chan = (s.proc j).chan) ∨ j = t
  awake : (∀ ch, k.stage ≠ .dozes ch) ∨ s.Dozes t := by exact .inl (by rintro _ ⟨⟩)
  stage : s.StageOk t k.stage ∧ (P.state = .sleeping → s.state j = .sleeping ∧
    P.chan = (s.proc j).chan) ∨ ((∀ p, s'.parent p = s.parent p) → (∀ p, s'.Dozes p → s.Dozes p) →
    s'.StageOk t k.stage)
  owes : k0.stage.owesInit s.initproc = true → k.stage.owesInit s.initproc = true ∨
    ¬ s'.Dozes s.initproc

variable {k0 : ThreadPc} {flag : Bool}

theorem Family.touches {P : Proc} (h : s.Family) (h' : s'.Inv) (hrun : s.cpu c = .run t)
    (hat : s.pc t = k0) (ht : s.Touches s' c t k0 k j P) : s'.Family := by
  subst hat
  have hself : s'.proc j = P := by rw [ht.proc, update_self]
  have hsame : ∀ p ≠ j, s'.proc p = s.proc p := fun p hp => by rw [ht.proc, update_of_ne hp]
  have hstj : s'.state j = P.state := congrArg Proc.state hself
  have hstate : ∀ p ≠ j, s'.state p = s.state p := fun p hp => congrArg Proc.state (hsame p hp)
  have hparent : ∀ p, s'.parent p = s.parent p := by
    intro p
    by_cases hp : p = j
    · rw [hp]
      exact (congrArg Proc.parent hself).trans ht.parent
    · exact congrArg Proc.parent (hsame p hp)
  have hmild : ∀ p, s.Mild s' p := by
    intro p
    by_cases hp : p = j
    · subst hp
      rcases ht.new with hs | ⟨hal, hs | hs | hs⟩ | ⟨hs, hr, hpar⟩ | ⟨hs, hu⟩
      · exact .inl (hstj.trans hs)
      iterate 3 exact .inr ⟨hal.2.2, by simp [hstj, hs], fun _ => by simp [Alive, hstj, hs],
        fun _ => .inl hal, by simp [hstj, hs]⟩
      · exact .inr (by simp [Alive, hstj, hs, hr, hpar])
      · exact .inr (by simp [Alive, hstj, hs, hu])
    · exact .inl (hstate p hp)
  have hchan : (P.state = .sleeping → s.state j = .sleeping ∧ P.chan = (s.proc j).chan) →
      ∀ p, s'.state p = .sleeping → s.state p = .sleeping ∧ (s'.proc p).chan = (s.proc p).chan := by
    intro hP p hs
    by_cases hp : p = j
    · rw [hp, hself]
      exact hP (hstj.symm.trans (hp ▸ hs))
    · rw [hsame p hp]
      exact ⟨(hstate p hp).symm.trans hs, rfl⟩
  have hsleep : ∀ p ≠ t, s'.state p = .sleeping →
      s.state p = .sleeping ∧ (s'.proc p).chan = (s.proc p).chan := by
    intro p hpt hs
    rcases ht.sleep with hP | rfl
    · exact hchan hP p hs
    · rw [hsame p hpt]
      exact ⟨(hstate p hpt).symm.trans hs, rfl⟩
  have hdoze : ∀ p, s'.Dozes p → s.Dozes p := by
    intro p hd
    by_cases hp : p = t
    · rw [hp] at hd ⊢
      refine ht.awake.resolve_left fun hk => ?_
      rw [Dozes, ht.pc] at hd
      rcases hd with ⟨ch, rfl⟩ | ⟨-, ch, hch⟩
      · exact hk ch rfl
      · exact hk ch hch
    · obtain hpc | ⟨-, hpc⟩ := ht.other p hp <;> rw [Dozes, hpc] at hd
      · exact hd.imp_right fun ⟨hs, hch⟩ => ⟨(hsleep p hp hs).1, hch⟩
      · rcases hd with ⟨ch, hch⟩ | ⟨-, ch, hch⟩ <;> cases hch
  obtain ⟨hlock, hyield⟩ := h.locks hrun ht.cpu ht.pc ht.other ht.lock ht.wait ht.yield
  refine h.calm h' ht.init hlock hyield hparent hmild (fun p hz => ?_) hdoze (fun p => ?_)
    fun u hu => ?_
  · by_cases hp : p = j
    · rw [hp, hself]
      exact ht.xstate (hstj.symm.trans (hp ▸ hz))
    · rw [hsame p hp]
  · by_cases hp : p = t
    · rw [hp, ht.pc]
      exact ht.stage.imp (fun hs => ⟨hs.1, hchan hs.2 t⟩) fun hs => hs hparent hdoze
    · obtain hpc | ⟨-, hpc⟩ := ht.other p hp <;> rw [hpc]
      · exact .inl ⟨h.stage p, hsleep p hp⟩
      · exact .inr trivial
  · by_cases hut : u = t
    · rw [hut, ht.pc]
      exact ht.owes (hut ▸ hu)
    · obtain hpc | ⟨hunused, -⟩ := ht.other u hut
      · exact .inl (hpc ▸ hu)
      · -- a thread that owes `init` a wakeup is executed
        obtain ⟨c', hrun', -⟩ := h.lock u (ThreadPc.wait_of_locked (h.yields u)
          (CallStage.locked_of_owes hu))
        exact absurd hunused (h.inv.alive hrun').1

/-- A step of thread `t` that changes no process. -/
structure Walks (s s' : CpuSys C) (c : C) (t : Fin nProc) (k0 k : ThreadPc) : Prop where
  init : s'.initproc = s.initproc := by rfl
  cpu : s'.cpu = s.cpu := by rfl
  pc : s'.pc = update s.pc t k := by rfl
  proc : s'.proc = s.proc := by rfl
  lock : s'.waitLock = s.waitLock ∨ k0.wait = true ∨ s.waitLock = none := by exact .inl rfl
  wait : k.wait = true → s'.waitLock = some c := by rintro ⟨⟩
  yield : ∀ l, k.yielding = some l → l.wait = false := by rintro _ ⟨⟩
  awake : ∀ ch, k.stage ≠ .dozes ch := by rintro _ ⟨⟩
  stage : s.StageOk t k.stage := by exact trivial
  owes : k0.stage.owesInit s.initproc = true → k.stage.owesInit s.initproc = true := by rintro ⟨⟩

theorem Family.walks (h : s.Family) (h' : s'.Inv) (hrun : s.cpu c = .run t) (hat : s.pc t = k0)
    (hw : s.Walks s' c t k0 k) : s'.Family :=
  h.touches h' hrun hat
    { init := hw.init, cpu := hw.cpu, pc := by rw [hw.pc, update_self],
      other := fun p hp => .inl (by rw [hw.pc, update_of_ne hp]),
      proc := hw.proc.trans (update_eq_self t s.proc).symm, lock := hw.lock, wait := hw.wait,
      yield := hw.yield, new := .inl rfl, sleep := .inr rfl, awake := .inl hw.awake,
      stage := .inl ⟨hw.stage, fun hs => ⟨hs, rfl⟩⟩, owes := fun hu => .inl (hw.owes hu) }

theorem Family.still (h : s.Family) (h' : s'.Inv) (hinit : s'.initproc = s.initproc)
    (hlock : s'.waitLock = s.waitLock)
    (hpc : ∀ p, (s'.pc p).stage = (s.pc p).stage ∧ (s'.pc p).yielding = (s.pc p).yielding)
    (hset : ∀ p ch, s'.pc p = .sleepSet ch true → s.pc p = .sleepSet ch true)
    (hwait : ∀ p, (s'.pc p).wait = true → (s.pc p).wait = true ∧
      ∀ c, s.cpu c = .run p → s'.cpu c = .run p) (hproc : ∀ j, s'.proc j = s.proc j ∨
      s.state j = .runnable ∧ s'.proc j = { s.proc j with state := .running }) : s'.Family := by
  have hback : ∀ {j} {τ : ProcState}, τ ≠ .running → s'.state j = τ → s'.proc j = s.proc j := by
    intro j τ hτ hj
    rcases hproc j with hp | ⟨-, hp⟩
    · exact hp
    · exact absurd (hj.symm.trans (congrArg Proc.state hp)) hτ
  have hsleep : ∀ p, s'.state p = .sleeping → s.state p = .sleeping ∧
      (s'.proc p).chan = (s.proc p).chan := by
    intro p hs
    have hp := hback (by simp) hs
    exact ⟨(congrArg Proc.state hp).symm.trans hs, congrArg Proc.chan hp⟩
  refine h.calm h' hinit (fun p hp => ?_) (fun p l hl => h.yields p l ((hpc p).2.symm.trans hl))
    (fun j => ?_) (fun j => ?_) (fun j hz => congrArg Proc.xstate (hback (by simp) hz))
    (fun q hd => ?_) (fun p => .inl ⟨(hpc p).1 ▸ h.stage p, hsleep p⟩) fun u hu =>
    .inl ((hpc u).1 ▸ hu)
  · obtain ⟨hw, hcpu⟩ := hwait p hp
    obtain ⟨c, hrun, hc⟩ := h.lock p hw
    exact ⟨c, hcpu c hrun, hlock.trans hc⟩
  · rcases hproc j with hj | ⟨-, hj⟩ <;> rw [parent, hj] <;> rfl
  · rcases hproc j with hj | ⟨hr, hj⟩
    · exact .inl (congrArg Proc.state hj)
    · have hr' : s'.state j = .running := congrArg Proc.state hj
      exact .inr (by simp [Alive, hr, hr'])
  · rcases hd with ⟨ch, hch⟩ | ⟨hs, ch, hch⟩
    · exact .inl ⟨ch, hset q ch hch⟩
    · exact .inr ⟨(hsleep q hs).1, ch, (hpc q).1.symm.trans hch⟩

/-! ### Steps under `wait_lock` that change parents, zombies and sleepers -/

/-- A thread that holds `wait_lock` and owes `init` nothing finds nobody asleep with a zombie
child. -/
theorem Family.settled (h : s.Family) (ht : (s.pc t).wait = true)
    (hno : (s.pc t).stage.owesInit s.initproc = false) (hj : s.parent j = some q)
    (hz : s.state j = .zombie) : ¬ s.Dozes q := by
  intro hd
  obtain ⟨-, u, hu⟩ := h.doze j q hj hz hd
  by_cases hut : u = t
  · rw [hut, hno] at hu
    cases hu
  · have hl := h.unlocked ht hut
    rw [CallStage.locked_of_owes hu] at hl
    cases hl

theorem StageOk.frame_unlocked (h : s.StageOk p σ) (hσ : σ.locked = false)
    (hinit : s'.initproc = s.initproc) (hforked : ∀ np, σ = .forked np → s'.parent np = s.parent np)
    (hparent : ∀ status, σ = .zombie status → ∀ j, s'.parent j = some p → s.parent j = some p)
    (hzombie : s'.state p = .zombie → s.state p = .zombie ∧ (s'.proc p).xstate = (s.proc p).xstate)
    (hsleep : s'.state p = .sleeping → s.state p = .sleeping ∧ (s'.proc p).chan = (s.proc p).chan) :
    s'.StageOk p σ := by
  cases σ with
  | idle => trivial
  | forked np => exact (hforked np rfl).trans h
  | exits => exact fun hp => h (hp.trans hinit)
  | zombie status =>
    exact ⟨fun hp => h.1 (hp.trans hinit), fun j hj => h.2.1 j (hparent status rfl j hj),
      fun hz => (hzombie hz).2.trans (h.2.2 (hzombie hz).1)⟩
  | dozes ch => exact ⟨h.1, fun hs => (hsleep hs).2.trans (h.2 (hsleep hs).1)⟩
  | _ => cases hσ

/-- A step of a thread that holds `wait_lock` and owes `init` nothing, which changes slot `j`. -/
structure Settles (s s' : CpuSys C) (c : C) (t : Fin nProc) (k0 k : ThreadPc) (j : Fin nProc)
    (P : Proc) : Prop where
  init : s'.initproc = s.initproc := by rfl
  cpu : s'.cpu = s.cpu := by rfl
  pc : s'.pc = update s.pc t k := by rfl
  proc : s'.proc = update s.proc j P := by rfl
  locked : k0.wait = true ∧ k0.stage.owesInit s.initproc = false := by exact ⟨rfl, rfl⟩
  wait : k.wait = true → s'.waitLock = some c := by rintro ⟨⟩
  yield : ∀ l, k.yielding = some l → l.wait = false := by rintro _ ⟨⟩
  stage : s'.StageOk t k.stage
  alive : P.state = s.state j ∨ s.state j = .zombie ∨
    j ≠ s.initproc ∧ P.parent = s.parent j ∧ ∀ x, s.parent x ≠ some j
  heir : ∀ q, P.parent = some q → s.parent j = some q ∨ s.Alive q ∧ (q = t ∨ q = s.initproc) := by
    exact fun _ hq => .inl hq
  forked : P.parent = s.parent j ∨ ∀ p ≠ t, (s.pc p).stage ≠ .forked j := by exact .inl rfl
  child : P.parent ≠ none ∨ P.state = .unused ∨ j = s.initproc
  free : P.state = .unused → P.parent = none
  state : j = t ∨ P.state = .unused ∨
    P.state = s.state j ∧ P.xstate = (s.proc j).xstate ∧ P.chan = (s.proc j).chan
  doze : ∀ q, P.parent = some q → P.state = .zombie →
    ¬ s.Dozes q ∨ q = t ∨ q = s.initproc ∧ k.stage.owesInit s.initproc = true
  awake : (∀ ch, k.stage ≠ .dozes ch) ∨ ∀ x, s'.parent x = some t → s'.state x ≠ .zombie := by
    exact .inl (by rintro _ ⟨⟩)

theorem Family.settles {P : Proc} (h : s.Family) (h' : s'.Inv) (hrun : s.cpu c = .run t)
    (hat : s.pc t = k0) (hs : s.Settles s' c t k0 k j P) : s'.Family := by
  subst hat
  have hpcOf : ∀ p ≠ t, s'.pc p = s.pc p := fun p hne => by rw [hs.pc, update_of_ne hne]
  have hpct : s'.pc t = k := by rw [hs.pc, update_self]
  have hsame : ∀ p ≠ j, s'.proc p = s.proc p := fun p hp => by rw [hs.proc, update_of_ne hp]
  have hself : s'.proc j = P := by rw [hs.proc, update_self]
  have hparj : s'.parent j = P.parent := congrArg Proc.parent hself
  have hstj : s'.state j = P.state := congrArg Proc.state hself
  have hparent : ∀ x ≠ j, s'.parent x = s.parent x := fun x hx => congrArg Proc.parent (hsame x hx)
  have hstate : ∀ x ≠ j, s'.state x = s.state x := fun x hx => congrArg Proc.state (hsame x hx)
  -- the processes of the other threads
  have hothers : ∀ p ≠ t, s'.state p ≠ .unused → s'.state p = s.state p ∧
      (s'.proc p).xstate = (s.proc p).xstate ∧ (s'.proc p).chan = (s.proc p).chan := by
    intro p hpt hu
    by_cases hpj : p = j
    · rw [hpj, hstj] at hu
      rw [hpj, hstj, hself]
      exact (hs.state.resolve_left (hpj ▸ hpt)).resolve_left hu
    · rw [hstate p hpj, hsame p hpj]
      exact ⟨rfl, rfl, rfl⟩
  have hal : ∀ {y}, s.Alive y → (y = j → P.state = s.state j) → s'.Alive y := by
    intro y hy hj
    by_cases hyj : y = j
    · rwa [hyj, Alive, hstj, hj hyj, ← hyj]
    · rwa [Alive, hstate y hyj]
  obtain ⟨hlocks, hyields⟩ := h.locks hrun hs.cpu hpct (fun p hp => .inl (hpcOf p hp))
    (.inr (.inl hs.locked.1)) hs.wait hs.yield
  refine ⟨h', hlocks, hyields, fun p => ?_, fun x y hx => ?_, ?_, fun x hx hlive => ?_,
    fun x hx => ?_, fun x y hx hz hd => ?_⟩
  · by_cases hpt : p = t
    · rw [hpt, hpct]
      exact hs.stage
    · rw [hpcOf p hpt]
      refine (h.stage p).frame_unlocked (h.unlocked hs.locked.1 hpt) hs.init (fun np hnp => ?_)
        (fun status hst x hx => ?_) (fun hz => ?_) fun hsl => ?_
      · by_cases hj : np = j
        · rw [hj, hparj]
          exact hs.forked.resolve_right fun hf => hf p hpt (hj ▸ hnp)
        · exact hparent np hj
      · by_cases hxj : x = j
        · -- neither the thread nor `init` is a zombie
          have hok := h.stage p
          rw [hst] at hok
          rw [hxj, hparj] at hx
          exact hxj ▸ (hs.heir p hx).resolve_right fun hq => hq.2.elim hpt hok.1
        · rwa [hparent x hxj] at hx
      · obtain ⟨h1, h2, -⟩ := hothers p hpt (by simp [hz])
        exact ⟨h1.symm.trans hz, h2⟩
      · obtain ⟨h1, -, h2⟩ := hothers p hpt (by simp [hsl])
        exact ⟨h1.symm.trans hsl, h2⟩
  · have hy : s.parent x = some y ∨ x = j ∧ s.Alive y ∧ P.parent = some y := by
      by_cases hxj : x = j
      · rw [hxj, hparj] at hx
        rw [hxj]
        exact (hs.heir y hx).imp_right fun hq => ⟨rfl, hq.1, hx⟩
      · exact .inl ((hparent x hxj).symm.trans hx)
    have hlive : s.Alive y := hy.elim (h.alive x y) fun hq => hq.2.1
    refine hal hlive fun hyj => ?_
    subst hyj
    rcases hs.alive with hst | hz | ⟨-, hpar, hno⟩
    · exact hst
    · exact absurd hz hlive.2.2
    · rcases hy with hy | ⟨-, -, hy⟩
      · exact absurd hy (hno x)
      · exact absurd (hpar.symm.trans hy) (hno y)
  · rw [hs.init]
    refine hal h.init fun hij => ?_
    rcases hs.alive with hst | hz | ⟨hne, -⟩
    · exact hst
    · exact absurd hz (hij ▸ h.init.2.2)
    · exact absurd hij.symm hne
  · rw [hs.init] at hx
    by_cases hxj : x = j
    · rw [hxj, hparj]
      rw [hxj, Alive, hstj] at hlive
      rcases hs.child with hp | hu | hi
      · exact hp
      · simp [hu] at hlive
      · exact absurd (hxj.trans hi) hx
    · rw [hparent x hxj]
      rw [Alive, hstate x hxj] at hlive
      exact h.child x hx hlive
  · by_cases hxj : x = j
    · rw [hxj, hparj]
      exact hs.free (hstj.symm.trans (hxj ▸ hx))
    · rw [hparent x hxj]
      exact h.free x ((hstate x hxj).symm.trans hx)
  · have hyt : y ≠ t := by
      rintro rfl
      rcases hs.awake with hk | hk
      · rw [Dozes, hpct] at hd
        rcases hd with ⟨ch, rfl⟩ | ⟨-, ch, hch⟩
        · exact hk ch rfl
        · exact hk ch hch
      · exact hk x hx hz
    have hdy : s.Dozes y := by
      rw [Dozes, hpcOf y hyt] at hd
      exact hd.imp_right fun ⟨hsl, hch⟩ => ⟨(hothers y hyt (by simp [hsl])).1.symm.trans hsl, hch⟩
    by_cases hxj : x = j
    · rw [hxj, hparj] at hx
      rw [hs.init]
      rcases hs.doze y hx (hstj.symm.trans (hxj ▸ hz)) with hno | hyt' | ⟨hi, howes⟩
      · exact absurd hdy hno
      · exact absurd hyt' hyt
      · exact ⟨hi, t, hpct ▸ howes⟩
    · rw [hparent x hxj] at hx
      rw [hstate x hxj] at hz
      exact absurd hdy (h.settled hs.locked.1 hs.locked.2 hx hz)

/-! ### The statements of a thread -/

theorem Family.locStep {l : Loc} (h : s.Family) (h' : s'.Inv) (hrun : s.cpu c = .run t)
    (hl : s.pc t = .at l) (hstep : s.locStep c t l = some s') : s'.Family := by
  have hok := h.stage t
  rw [hl] at hok
  have hheld : l.wait = true → s.waitLock = some c := by
    intro hw
    exact h.lock_of_run hrun (by rw [hl]; exact hw)
  have walk : ∀ {k}, s.Walks s' c t (.at l) k → s'.Family := h.walks h' hrun hl
  have hzero : ∀ {P : Fin nProc → Prop} (j : Fin nProc), j.val < 0 → P j := fun j hj => by omega
  cases l with
  | user => cases hstep
  | ret v =>
    cases hstep
    exact walk {}
  | visit q op =>
    obtain ⟨-, rfl⟩ := Runs.taken hstep
    exact walk
      { pc := rfl, wait := hheld, awake := fun ch => SlotOp.stage_ne_dozes ch, stage := hok,
        owes := id }
  | own op =>
    obtain ⟨-, rfl⟩ := Runs.taken hstep
    exact walk
      { pc := rfl, wait := hheld, awake := fun ch => OwnOp.stage_ne_dozes ch, stage := hok,
        owes := id }
  | wakeLoop ch n r =>
    have hawake : ∀ {m} ch', (r.stage ch m) ≠ .dozes ch' := fun ch' => by cases r <;> rintro ⟨⟩
    simp only [CpuSys.locStep] at hstep
    split_ifs at hstep with hn hnt
    · -- `wakeup` skips the thread itself, which is neither `init` nor its own parent
      cases hstep
      refine walk { pc := rfl, wait := hheld, awake := hawake, stage := ?_, owes := fun hu => ?_ }
      · cases r with
        | user => trivial
        | reparent m status => exact hok
        | exit status =>
          obtain ⟨hti, hno, hch, hq⟩ := hok
          refine ⟨hti, hno, hch, fun q hpq hqn => hq q hpq ?_⟩
          have hqt : q.val ≠ t.val := by
            intro heq
            rw [Fin.ext heq] at hpq
            exact hno t hpq
          omega
      · cases r with
        | reparent m status =>
          have hne : s.initproc.val ≠ t.val := fun heq => hok.1 (Fin.ext heq).symm
          have hle : n ≤ s.initproc.val := of_decide_eq_true hu
          exact decide_eq_true (show n + 1 ≤ s.initproc.val by omega)
        | _ => cases hu
    · cases hstep
      exact walk { pc := rfl, wait := hheld, awake := hawake, stage := hok, owes := id }
    · cases r with
      | user =>
        cases hstep
        exact walk {}
      | reparent m status =>
        cases hstep
        refine walk { pc := rfl, wait := hheld, stage := ⟨hok.1, hok.2.1⟩, owes := fun hu => ?_ }
        have hle : n ≤ s.initproc.val := of_decide_eq_true hu
        exact absurd (lt_of_le_of_lt hle s.initproc.isLt) hn
      | exit status =>
        cases hstep
        obtain ⟨hti, hno, -, hq⟩ := hok
        exact walk
          { pc := rfl, wait := fun _ => hheld rfl, stage := ⟨hti, hno,
            fun q hpq => hq q hpq (by omega)⟩ }
  | killLoop _ _ | allocLoop _ =>
    simp only [CpuSys.locStep] at hstep
    split_ifs at hstep <;> cases hstep <;> exact walk {}
  | forkParent np pid =>
    obtain ⟨hfree, rfl⟩ := Runs.taken hstep
    exact walk { pc := rfl, lock := .inr (.inr hfree), wait := fun _ => rfl }
  | forkSet np pid =>
    cases hstep
    have hused := h.inv.forking t np (by rw [hl]; rfl)
    have hlive : s.Alive t := by simp [Alive, h.inv.running c t hrun (by rw [hl]; rfl)]
    exact h.settles h' hrun hl
      { pc := rfl, proc := rfl, wait := fun _ => hheld rfl, alive := .inl rfl,
        stage := by simp [ThreadPc.stage, Loc.stage, StageOk, parent, CpuSys.goto, setProc],
        heir := fun q hq => .inr (Option.some.inj hq ▸ ⟨hlive, .inl rfl⟩),
        forked := .inr fun p hpt hp => hpt (h.inv.forkOne p t np (ThreadPc.forking_of_forked hp)
          (by rw [hl]; rfl)),
        child := .inl (by rintro ⟨⟩), free := fun hu => (by cases hused.symm.trans hu),
        state := .inr (.inr ⟨rfl, rfl, rfl⟩), doze := fun q hq _ =>
          .inr (.inl (Option.some.inj hq).symm) }
  | forkRelease np pid =>
    cases hstep
    exact walk { pc := rfl, lock := .inr (.inl rfl), stage := hok }
  | exitAcquire status =>
    obtain ⟨hfree, rfl⟩ := Runs.taken hstep
    exact walk
      { pc := rfl, lock := .inr (.inr hfree), wait := fun _ => rfl, stage := ⟨hok, hzero⟩ }
  | reparent n status =>
    obtain ⟨hti, hpassed⟩ := hok
    simp only [CpuSys.locStep] at hstep
    split_ifs at hstep with hn hchild
    · cases hstep
      refine h.settles h' hrun hl
        { pc := rfl, proc := rfl, wait := fun _ => hheld rfl, alive := .inl rfl,
          stage := ⟨hti, fun j hj hpj => ?_, rfl⟩, heir := fun q hq =>
          .inr (Option.some.inj hq ▸ ⟨h.init, .inr rfl⟩),
          forked := .inr fun p hpt hp => ?_, child := .inl (by rintro ⟨⟩),
          free := fun hu => (by cases (h.free _ hu).symm.trans hchild),
          state := .inr (.inr ⟨rfl, rfl, rfl⟩), doze := fun q hq _ =>
            .inr (.inr ⟨(Option.some.inj hq).symm,
            decide_eq_true (Nat.zero_le s.initproc.val)⟩) }
      · by_cases hjn : j = ⟨n, hn⟩
        · rw [hjn] at hpj
          simp only [parent, CpuSys.goto, setProc, update_self, some_inj] at hpj
          exact hti hpj.symm
        · have hjn' : j.val ≠ n := fun heq => hjn (Fin.ext heq)
          simp only [parent, CpuSys.goto, setProc, update_of_ne hjn] at hpj
          exact hpassed j (by omega) hpj
      · have hp' := h.stage p
        rw [hp] at hp'
        have heq : some p = some t := hp'.symm.trans hchild
        exact hpt (Option.some.inj heq)
    · cases hstep
      refine walk { pc := rfl, wait := hheld, stage := ⟨hti, fun j hj => ?_⟩ }
      by_cases hjn : j.val = n
      · obtain rfl : j = ⟨n, hn⟩ := Fin.ext hjn
        exact hchild
      · exact hpassed j (by omega)
    · cases hstep
      exact walk { pc := rfl, wait := hheld, stage := ⟨hti, fun j _ => hpassed j (by omega)⟩ }
  | exitWake status =>
    cases hstep
    exact walk
      { pc := rfl, wait := fun _ => hheld rfl,
        stage := ⟨hok.1, fun j => hok.2 j j.isLt, rfl,
        fun q _ hq => absurd hq (Nat.not_lt_zero _)⟩ }
  | sleepAcquire w =>
    simp only [CpuSys.locStep] at hstep
    split_ifs at hstep with hw hfree <;> cases hstep
    · exact walk
        { pc := rfl, lock := .inr (.inr hfree), wait := fun _ => rfl,
          stage := ⟨hzero, fun _ => hzero⟩ }
    · exact walk {}
  | waitAcquire =>
    obtain ⟨hfree, rfl⟩ := Runs.taken hstep
    exact walk
      { pc := rfl, lock := .inr (.inr hfree), wait := fun _ => rfl,
        stage := ⟨hzero, fun _ => hzero⟩ }
  | waitScan n havekids =>
    obtain ⟨hnone, hkids⟩ := hok
    simp only [CpuSys.locStep] at hstep
    split_ifs at hstep with hn hchild hk <;> cases hstep
    · exact walk { pc := rfl, wait := hheld, stage := ⟨hchild, hnone⟩ }
    · have hlast : ∀ {j : Fin nProc}, j.val < n + 1 → s.parent j = some t → j.val < n := by
        intro j hj hpj
        by_contra hjn
        obtain rfl : j = ⟨n, hn⟩ := Fin.ext (show j.val = n by omega)
        exact hchild hpj
      exact walk
        { pc := rfl, wait := hheld,
          stage := ⟨fun j hj hpj => hnone j (hlast hj hpj) hpj,
          fun hk j hj hpj => hkids hk j (hlast hj hpj) hpj⟩ }
    · exact walk { pc := rfl, wait := fun _ => hheld rfl }
    · exact walk
        { pc := rfl, wait := fun _ => hheld rfl, stage := fun j hpj => hnone j (by omega) hpj }
  | waitRet v =>
    cases hstep
    exact walk { pc := rfl, lock := .inr (.inl rfl) }

/-- The body of the loop of `wakeup`: afterwards the process in slot `q` does not sleep on the
channel. -/
theorem Family.wakeSlot {ch : Option Chan} {r : WakeRet} (h : s.Family)
    (h' : (s.slotStep t q flag (.wake ch r)).Inv) (hrun : s.cpu c = .run t)
    (hat : s.pc t = .inspect q (.wake ch r)) : (s.slotStep t q flag (.wake ch r)).Family := by
  have hplock := h.inv.held c t q hrun (by rw [hat]; rfl)
  have hok := h.stage t
  rw [hat] at hok
  obtain ⟨P, hP, hs'⟩ : ∃ P, (P = s.proc q ∧ ¬ (s.state q = .sleeping ∧ (s.proc q).chan = ch) ∨
      s.state q = .sleeping ∧ P = { s.proc q with state := .runnable }) ∧
      s.slotStep t q flag (.wake ch r) =
        (s.setProc q P).goto t (.leave q (.wakeLoop ch (q + 1) r)) := by
    simp only [CpuSys.slotStep]
    split
    · rename_i hs
      exact ⟨_, .inr ⟨hs.1, rfl⟩, rfl⟩
    · rename_i hs
      refine ⟨_, .inl ⟨rfl, hs⟩, ?_⟩
      rw [setProc, update_eq_self]
  rw [hs'] at h' ⊢
  have hsleep : P.state = .sleeping → s.state q = .sleeping ∧ P.chan = (s.proc q).chan := by
    rcases hP with ⟨rfl, -⟩ | ⟨-, rfl⟩
    · exact fun hs => ⟨hs, rfl⟩
    · rintro ⟨⟩
  -- a process that sleeps in `wait` on this channel has been woken up
  have hwoken : q ≠ t → ch = some (.proc q) →
      ¬ ((s.setProc q P).goto t (.leave q (.wakeLoop ch (q + 1) r))).Dozes q := by
    intro hqt hch hd
    have hpcq : ((s.setProc q P).goto t (.leave q (.wakeLoop ch (q + 1) r))).pc q = s.pc q :=
      update_of_ne hqt _ _
    have hstq : ((s.setProc q P).goto t (.leave q (.wakeLoop ch (q + 1) r))).state q = P.state := by
      simp [CpuSys.state, CpuSys.goto, setProc]
    rw [Dozes, hpcq, hstq] at hd
    rcases hP with ⟨rfl, hnot⟩ | ⟨-, rfl⟩
    · obtain ⟨hsl, hchan⟩ := h.asleep hrun hplock hqt hd
      exact hnot ⟨hsl, hchan.trans hch.symm⟩
    · rcases hd with ⟨c', hc'⟩ | ⟨hsl, -⟩
      · exact h.inv.ne_sleepSet hrun hplock hqt c' true hc'
      · cases hsl
  refine h.touches h' hrun hat
    { pc := update_self _ _ _, proc := rfl, wait := fun hw =>
      h.lock_of_run hrun (by rw [hat]; exact hw), parent := ?_, new := ?_, xstate := ?_,
        sleep := .inl hsleep,
      awake := .inl fun ch => Loc.stage_ne_dozes (l := .wakeLoop _ _ r) ch, stage := ?_,
        owes := fun hu => ?_ }
  · rcases hP with ⟨rfl, -⟩ | ⟨-, rfl⟩ <;> rfl
  · rcases hP with ⟨rfl, -⟩ | ⟨hs, rfl⟩
    · exact .inl rfl
    · exact .inr (.inl ⟨by simp [Alive, hs], .inl rfl⟩)
  · rcases hP with ⟨rfl, -⟩ | ⟨-, rfl⟩ <;> exact fun _ => rfl
  · cases r with
    | user => exact .inl ⟨trivial, hsleep⟩
    | reparent n status => exact .inl ⟨hok, hsleep⟩
    | exit status =>
      obtain ⟨hti, hno, hch, hq⟩ := hok
      refine .inr fun hpar hdoze => ⟨hti, fun j => by rw [hpar]; exact hno j,
        by rw [hpar]; exact hch, fun q' hpq hqi hd => ?_⟩
      rw [hpar] at hpq
      by_cases hqq : q' = q
      · subst hqq
        refine hwoken (fun hqt => ?_) (by rw [hch, hpq]; rfl) hd
        exact hno t (hqt ▸ hpq)
      · exact hq q' hpq (by omega) (hdoze q' hd)
  · cases r with
    | reparent n status =>
      obtain ⟨hti, -, hch⟩ := hok
      have hle : q.val ≤ s.initproc.val := of_decide_eq_true hu
      by_cases hqi : q = s.initproc
      · subst hqi
        exact .inr (hwoken (Ne.symm hti) hch)
      · exact .inl (decide_eq_true (show q.val + 1 ≤ s.initproc.val by omega))
    | _ => cases hu

theorem Family.slotStep {op : SlotOp} (h : s.Family) (h' : (s.slotStep t q flag op).Inv)
    (hrun : s.cpu c = .run t) (hat : s.pc t = .inspect q op) : (s.slotStep t q flag op).Family := by
  have hok := h.stage t
  rw [hat] at hok
  cases op with
  | wake ch r => exact h.wakeSlot h' hrun hat
  | kill pid =>
    simp only [CpuSys.slotStep] at h' ⊢
    split_ifs at h' ⊢ with hpid hs
    · exact h.touches h' hrun hat
        { pc := update_self _ _ _, proc := rfl, new := .inr (.inl ⟨by simp [Alive, hs], .inl rfl⟩),
          sleep := .inl (by rintro ⟨⟩), stage := .inr fun _ _ => trivial, owes := by rintro ⟨⟩ }
    · exact h.touches h' hrun hat
        { pc := update_self _ _ _, proc := rfl, new := .inl rfl,
          sleep := .inl fun hsl => absurd hsl hs, stage := .inr fun _ _ => trivial,
          owes := by rintro ⟨⟩ }
    · exact h.walks h' hrun hat {}
  | alloc =>
    simp only [CpuSys.slotStep] at h' ⊢
    split_ifs at h' ⊢ with hunused hflag
    · refine h.touches h' hrun hat
        { pc := update_self _ _ _, proc := rfl, other := fun p hp => ?_,
          new := .inr (.inr (.inr ⟨hunused, rfl⟩)), sleep := .inl (by rintro ⟨⟩),
          stage := .inr fun _ _ => trivial, owes := by rintro ⟨⟩ }
      by_cases hpq : p = q
      · subst hpq
        exact .inr ⟨hunused, (update_of_ne hp _ _).trans (update_self _ _ _)⟩
      · exact .inl ((update_of_ne hp _ _).trans (update_of_ne hpq _ _))
    · exact h.touches h' hrun hat
        { pc := update_self _ _ _, proc := rfl, parent := (h.free q hunused).symm,
          new := .inl hunused.symm, xstate := by rintro ⟨⟩, sleep := .inl (by rintro ⟨⟩),
          stage := .inr fun _ _ => trivial, owes := by rintro ⟨⟩ }
    · exact h.walks h' hrun hat {}
  | ready pid =>
    have hused := h.inv.forking t q (by rw [hat]; rfl)
    refine h.touches h' hrun hat
      { pc := update_self _ _ _, proc := rfl, new := .inr (.inr (.inl ⟨hused, rfl, fun hn => ?_⟩)),
        sleep := .inl (by rintro ⟨⟩), stage := .inr fun _ _ => trivial, owes := by rintro ⟨⟩ }
    cases hn.symm.trans hok
  | reap =>
    have hheld := h.lock_of_run hrun (by rw [hat]; rfl)
    simp only [CpuSys.slotStep] at h' ⊢
    by_cases hz : s.state q = .zombie
    · rw [if_pos hz] at h' ⊢
      by_cases hcopy : s.waitAddr t = true ∧ flag = false
      · rw [if_pos hcopy] at h' ⊢
        exact h.walks h' hrun hat { pc := rfl, wait := fun _ => hheld }
      · rw [if_neg hcopy] at h' ⊢
        refine h.settles h' hrun hat
          { pc := rfl, proc := rfl, wait := fun _ => hheld, stage := trivial,
            alive := .inr (.inl hz), heir := by rintro _ ⟨⟩,
            forked := .inr fun p hpt hp => ?_, child := .inr (.inl rfl), free := fun _ => rfl,
            state := .inr (.inl rfl), doze := by rintro _ ⟨⟩ }
        have hp' := h.stage p
        rw [hp] at hp'
        have heq : some t = some p := hok.1.symm.trans hp'
        exact hpt (Option.some.inj heq).symm
    · rw [if_neg hz] at h' ⊢
      refine h.walks h' hrun hat
        { pc := rfl, wait := fun _ => hheld, stage := ⟨fun j hj hpj => ?_, by rintro ⟨⟩⟩ }
      by_cases hjq : j = q
      · exact hjq ▸ hz
      · exact hok.2 j (by omega) hpj

theorem Family.ownStep {op : OwnOp} (h : s.Family) (h' : (s.ownStep t op).Inv)
    (hrun : s.cpu c = .run t) (hat : s.pc t = .inspectOwn op) : (s.ownStep t op).Family := by
  have hok := h.stage t
  rw [hat] at hok
  have hrunning := h.inv.running c t hrun (by rw [hat]; rfl)
  cases op with
  | killed =>
    have hheld := h.lock_of_run hrun (by rw [hat]; rfl)
    simp only [CpuSys.ownStep] at h' ⊢
    split_ifs at h' ⊢
    · exact h.walks h' hrun hat { pc := rfl, wait := fun _ => hheld }
    · exact h.walks h' hrun hat { pc := rfl, wait := fun _ => hheld, stage := ⟨rfl, hok⟩ }
  | sleep ch w =>
    cases w with
    | false => exact h.walks h' hrun hat {}
    | true =>
      -- `wait_lock` is released, and no child is a zombie
      obtain ⟨hch, hnone⟩ := hok
      have hzomb : ¬ (s.proc t).state = .zombie := fun hz => by cases hrunning.symm.trans hz
      refine h.settles h' hrun hat
        { pc := rfl, proc := (update_eq_self t s.proc).symm,
          stage := ⟨hch, fun hs => by cases hrunning.symm.trans hs⟩,
          alive := .inl rfl, child := ?_, free := fun hu => h.free t hu, state := .inl rfl,
          doze := fun _ _ hz => absurd hz hzomb, awake := .inr hnone }
      by_cases hti : t = s.initproc
      · exact .inr (.inr hti)
      · exact .inl (h.child t hti (.inl (by simp [Alive, hrunning])))
  | exit status =>
    obtain ⟨hti, hno, hawake⟩ := hok
    have hpar : ∀ p, (s.ownStep t (.exit status)).parent p = s.parent p := by
      intro p
      by_cases hp : p = t
      · rw [hp]
        simp [parent, CpuSys.ownStep, CpuSys.goto, setProc]
      · simp [parent, CpuSys.ownStep, CpuSys.goto, setProc, update_of_ne hp]
    exact h.settles h' hrun hat
      { pc := rfl, proc := rfl, wait := fun _ => h.lock_of_run hrun (by rw [hat]; rfl),
        stage := ⟨hti, fun j => by rw [hpar]; exact hno j,
          fun _ => by simp [CpuSys.ownStep, CpuSys.goto, setProc]⟩,
        alive := .inr (.inr ⟨hti, rfl, hno⟩),
        child := .inl (h.child t hti (.inl (by simp [Alive, hrunning]))),
        free := by rintro ⟨⟩, state := .inl rfl, doze := fun q hq _ => .inl (hawake q hq) }
  | setkilled =>
    exact h.touches h' hrun hat
      { pc := update_self _ _ _, proc := rfl, new := .inl rfl, sleep := .inr rfl,
        stage := .inr fun _ _ => trivial, owes := by rintro ⟨⟩ }

theorem Inv.alive_of_running (h : s.Inv) (hrun : s.cpu c = .run t)
    (ht : (s.pc t).stopping = false) : s.Alive t := by
  simp [Alive, h.running c t hrun ht]

variable [DecidableEq C]

theorem Family.switch {k : ThreadPc} {kc : CpuPc} (h : s.Family)
    (h' : ((s.goto t k).setCpu c kc).Inv) (hat : s.pc t = k0)
    (hk : k.stage = k0.stage ∧ k.yielding = k0.yielding ∧ k.wait = false)
    (hset : ∀ ch, k ≠ .sleepSet ch true) (hc : ∀ p ≠ t, s.cpu c ≠ .run p) :
    ((s.goto t k).setCpu c kc).Family := by
  have hpcOf : ∀ p ≠ t, ((s.goto t k).setCpu c kc).pc p = s.pc p := fun p hp => update_of_ne hp _ _
  have hpct : ((s.goto t k).setCpu c kc).pc t = k := update_self _ _ _
  refine h.still h' rfl rfl (fun p => ?_) (fun p ch hp => ?_) (fun p hp => ?_) fun j => .inl rfl <;>
    by_cases hpt : p = t
  · rw [hpt, hpct, hat]
    exact ⟨hk.1, hk.2.1⟩
  · rw [hpcOf p hpt]
    exact ⟨rfl, rfl⟩
  · rw [hpt, hpct] at hp
    exact absurd hp (hset ch)
  · rwa [hpcOf p hpt] at hp
  · rw [hpt, hpct, hk.2.2] at hp
    cases hp
  · rw [hpcOf p hpt] at hp
    refine ⟨hp, fun c' hc' => (update_of_ne ?_ _ _).trans hc'⟩
    rintro rfl
    exact hc p hpt hc'

theorem Family.statement (h : s.Family) (h' : s'.Inv) (hrun : s.cpu c = .run t)
    (hs : s.Statement c t flag s') : s'.Family := by
  have hok := h.stage t
  have hyield := h.yields t
  cases hs with
  | «at» hpc hl => exact h.locStep h' hrun hpc hl
  | inspect hpc => exact h.slotStep h' hrun hpc
  | inspectOwn hpc => exact h.ownStep h' hrun hpc
  | leave hpc =>
    rw [hpc] at hok
    exact h.walks h' hrun hpc
      { pc := rfl, wait := fun hw => h.lock_of_run hrun (by rw [hpc]; exact hw),
        awake := fun ch => Loc.stage_ne_dozes ch, stage := hok, owes := id }
  | yieldAcquire hpc =>
    rw [hpc] at hok hyield
    exact h.walks h' hrun hpc
      { pc := rfl, yield := hyield, awake := fun ch => Loc.stage_ne_dozes ch, stage := hok,
        owes := id }
  | yieldSet hpc =>
    rw [hpc] at hok hyield
    exact h.touches h' hrun hpc
      { pc := update_self _ _ _, proc := rfl, yield := hyield, sleep := .inr rfl,
        awake := .inl fun ch => Loc.stage_ne_dozes ch,
        new := .inr (.inl ⟨h.inv.alive_of_running hrun (by rw [hpc]; rfl), .inl rfl⟩),
        stage := .inl ⟨hok, by rintro ⟨⟩⟩, owes := .inl }
  | @sleepSet ch w hpc =>
    rw [hpc] at hok
    refine h.touches h' hrun hpc
      { pc := update_self _ _ _, proc := rfl, sleep := .inr rfl, awake := ?_,
        stage := .inr fun _ _ => ?_,
        new := .inr (.inl ⟨h.inv.alive_of_running hrun (by rw [hpc]; rfl), .inr (.inl rfl)⟩),
        owes := fun hu => by cases w <;> cases hu }
    · cases w with
      | true => exact .inr (.inl ⟨ch, hpc⟩)
      | false => exact .inl (by rintro _ ⟨⟩)
    · cases w with
      | true =>
        obtain ⟨rfl, -⟩ := hok
        exact ⟨rfl, fun _ => by simp [CpuSys.goto, setProc]⟩
      | false => trivial
  | exitRelease hpc =>
    rw [hpc] at hok
    exact h.walks h' hrun hpc { pc := rfl, lock := .inr (.inl rfl), stage := hok }
  | @sched r hpc =>
    refine h.switch h' hpc ⟨rfl, by cases r <;> rfl, rfl⟩ (by rintro _ ⟨⟩) fun p hp hc => ?_
    exact hp (CpuPc.run.inj (hc.symm.trans hrun))
  | @yielded l hpc =>
    rw [hpc] at hok hyield
    exact h.walks h' hrun hpc
      { pc := rfl, wait := fun hw => (by cases (hyield l rfl).symm.trans hw),
        awake := fun ch => Loc.stage_ne_dozes ch, stage := hok, owes := id }
  | @slept ch w hpc =>
    exact h.touches h' hrun hpc
      { pc := update_self _ _ _, proc := rfl, new := .inl rfl, sleep := .inr rfl,
        stage := .inr fun _ _ => trivial, owes := fun hu => by cases w <;> cases hu }
  | forkret hpc => exact h.walks h' hrun hpc {}

theorem Family.schedStep (h : s.Family) (h' : s'.Inv) (hstep : s.schedStep c = some s') :
    s'.Family := by
  simp only [CpuSys.schedStep] at hstep
  -- a step of the scheduler on its own CPU
  have hstill : ∀ {k : CpuPc}, (∀ p, s.cpu c ≠ .run p) → s'.cpu = update s.cpu c k →
      s'.pc = s.pc → s'.initproc = s.initproc → s'.waitLock = s.waitLock →
      (∀ j, s'.proc j = s.proc j ∨
        s.state j = .runnable ∧ s'.proc j = { s.proc j with state := .running }) → s'.Family := by
    intro k hnot hcpu hpc hinit hlock hproc
    refine h.still h' hinit hlock (fun p => by rw [hpc]; exact ⟨rfl, rfl⟩)
      (fun p ch hp => by rwa [hpc] at hp) (fun p hp => ⟨by rwa [hpc] at hp, fun c' hc' => ?_⟩) hproc
    rw [hcpu, update_of_ne, hc']
    rintro rfl
    exact hnot p hc'
  cases hc : s.cpu c <;> rw [hc] at hstep
  case dispatch q =>
    simp only at hstep
    split at hstep <;> cases hstep
    rename_i r hq
    exact h.switch h' hq ⟨rfl, by cases r <;> rfl, rfl⟩ (by rintro _ ⟨⟩) fun p _ hc' =>
      by cases hc.symm.trans hc'
  case test q =>
    simp only at hstep
    split_ifs at hstep with hr <;> cases hstep
    · refine hstill (by simp [hc]) rfl rfl rfl rfl fun j => ?_
      by_cases hj : j = q
      · rw [hj]
        exact .inr ⟨hr, update_self _ _ _⟩
      · exact .inl (update_of_ne hj _ _)
    · exact hstill (by simp [hc]) rfl rfl rfl rfl fun j => .inl rfl
  all_goals
    simp only at hstep
    try split_ifs at hstep
    all_goals
      cases hstep
      try exact hstill (by simp [hc]) rfl rfl rfl rfl fun j => .inl rfl

theorem Family.step {a : CpuAct C} (h : s.Family) (hstep : s.step a = some (.ok s')) :
    s'.Family := by
  have h' : s'.Inv := by
    rcases h.inv.step hstep with he | ⟨s1, hs1, hinv⟩
    · cases he
    · cases hs1
      exact hinv
  cases a with
  | sched c =>
    obtain ⟨s1, hs1, heq⟩ := map_eq_some_iff.mp hstep
    cases heq
    exact h.schedStep h' hs1
  | call c f =>
    simp only [CpuSys.step] at hstep
    split at hstep
    · rename_i t hrun
      obtain ⟨huser, hcall⟩ := Runs.taken hstep
      cases f with
      | exit status =>
        simp only [CpuSys.callStep] at hcall
        split at hcall
        · cases hcall
        · rename_i hti
          cases hcall
          exact h.walks h' hrun huser { pc := rfl, stage := hti }
      | _ =>
        cases hcall
        exact h.walks h' hrun huser {}
    · cases hstep
  | thread c flag =>
    simp only [CpuSys.step] at hstep
    split at hstep
    · rename_i t hrun
      obtain ⟨s1, heq, hs⟩ := h.inv.statement hrun hstep
      cases heq
      exact h.statement h' hrun hs
    · cases hstep
  | preempt c =>
    simp only [CpuSys.step] at hstep
    repeat' split at hstep
    all_goals cases hstep
    rename_i t hrun _ l hl hw
    have hok := h.stage t
    rw [hl] at hok
    exact h.walks h' hrun hl
      { pc := rfl, yield := fun l' hl' => Option.some.inj hl' ▸ hw,
        awake := fun ch => Loc.stage_ne_dozes ch, stage := hok, owes := id }

/-! ### What is agreed -/

end CpuSys

/-- The value that a call is about to return. -/
def Loc.returning : Loc → Option ℤ
  | .ret v | .waitRet v => some v
  | _ => none

@[inherit_doc Loc.returning]
def ThreadPc.returning : ThreadPc → Option ℤ
  | .at l | .leave _ l | .yieldAcquire l | .yieldSet l | .sched (.yield l) | .switched (.yield l)
  | .resumed (.yield l) => l.returning
  | _ => none

/-- The value that `wait` has come to. -/
def ThreadPc.waited : ThreadPc → Option ℤ
  | .at (.waitRet v) | .leave _ (.waitRet v) => some v
  | _ => none

namespace CpuSys

variable {C : Type} {s s' : CpuSys C} {c : C} {t p q j : Fin nProc}

/-- `wait` by `t` frees its child `j`, is about to return its pid and has stored what it has given
to `exit`. -/
def Reaps (s s' : CpuSys C) (t j : Fin nProc) : Prop :=
  ∃ status, (s.proc j).parent = some t ∧ s.pc j = .switched (.exit status) ∧ s'.proc j = Proc.free ∧
    s'.pc t = .leave j (.waitRet (s.proc j).pid) ∧ s'.status t =
    if s.waitAddr t then some status else none

theorem Family.reaps {flag : Bool} (h : s.Family) (hrun : s.cpu c = .run t)
    (hpc : s.pc t = .inspect j .reap) (hz : s.state j = .zombie)
    (hflag : ¬ (s.waitAddr t = true ∧ flag = false)) : s.Reaps (s.slotStep t j flag .reap) t j := by
  obtain ⟨⟨status, hj⟩, -⟩ := h.inv.zombie_off_cpu hrun hpc hz
  have hparent := h.stage t
  rw [hpc] at hparent
  have hx := h.stage j
  rw [hj] at hx
  simp only [CpuSys.slotStep]
  rw [if_pos hz, if_neg hflag]
  refine ⟨status, hparent.1, hj, update_self _ _ _, update_self _ _ _, (update_self _ _ _).trans ?_⟩
  rw [hx.2.2 hz]

theorem goto_pc {k : ThreadPc} : (s.goto t k).pc t = k := update_self _ _ _

theorem Family.waited_slot {flag : Bool} {op : SlotOp} {v : ℤ} (h : s.Family)
    (hrun : s.cpu c = .run t) (hpc : s.pc t = .inspect q op)
    (hv : ((s.slotStep t q flag op).pc t).waited = some v) :
    s.state q = .zombie ∧ s.Reaps (s.slotStep t q flag op) t q ∧ v = (s.proc q).pid ∨
      v = -1 ∧ op = .reap ∧ s.state q = .zombie ∧ s.waitAddr t = true ∧ flag = false := by
  cases op with
  | reap =>
    by_cases hz : s.state q = .zombie
    · by_cases hflag : s.waitAddr t = true ∧ flag = false
      · simp only [CpuSys.slotStep] at hv
        rw [if_pos hz, if_pos hflag, goto_pc] at hv
        exact .inr ⟨(Option.some.inj hv).symm, rfl, hz, hflag⟩
      · have hr := h.reaps hrun hpc hz hflag
        obtain ⟨status, -, -, -, hret, -⟩ := id hr
        rw [hret] at hv
        exact .inl ⟨hz, hr, (Option.some.inj hv).symm⟩
    · simp only [CpuSys.slotStep] at hv
      rw [if_neg hz, goto_pc] at hv
      cases hv
  | _ =>
    simp only [CpuSys.slotStep] at hv
    repeat' split at hv
    all_goals
      rw [goto_pc] at hv
      cases hv

theorem boot_family : (boot C).Family := by
  have hstate : ∀ j, j ≠ (boot C).initproc → (boot C).proc j = Proc.free := by
    intro j hj
    simp only [boot] at hj ⊢
    exact update_of_ne hj _ _
  have hinit : (boot C).proc (boot C).initproc = { Proc.free with state := .runnable, pid := 1 }
      := by
    simp only [boot]
    exact update_self _ _ _
  have hparent : ∀ j, (boot C).parent j = none := by
    intro j
    by_cases hj : j = (boot C).initproc
    · rw [hj, parent]
      rfl
    · rw [parent, hstate j hj]
      rfl
  refine ⟨boot_inv, by rintro _ ⟨⟩, by rintro _ _ ⟨⟩, fun _ => trivial, fun j q hj => ?_, ?_,
    fun j hj hlive => ?_, fun j _ => hparent j, fun j q hj => ?_⟩
  · cases (hparent j).symm.trans hj
  · rw [Alive, CpuSys.state, hinit]
    simp
  · rw [Alive, CpuSys.state, hstate j hj] at hlive
    simp [Proc.free] at hlive
  · cases (hparent j).symm.trans hj

variable [DecidableEq C]

/-- What callers of `exit` and `wait` rely on. -/
structure Agreement (s : CpuSys C) : Prop where
  /-- A parent is neither a free slot nor a zombie; -/
  parent : ∀ j q, (s.proc j).parent = some q → s.state q ≠ .unused ∧ s.state q ≠ .zombie
  /-- once a process has been forked completely its parent is set. -/
  parentSet : ∀ j, j ≠ s.initproc → s.state j ≠ .unused → s.state j ≠ .used →
    (s.proc j).parent ≠ none
  /-- A zombie remains until a `wait` by the process that is its parent then reaps it. -/
  reaped : ∀ a s' j, s.step a = some (.ok s') → s.state j = .zombie →
    (s'.state j = .zombie ∧ (s'.proc j).pid = (s.proc j).pid ∧
      (s'.proc j).xstate = (s.proc j).xstate) ∨
    ∃ c flag t, a = .thread c flag ∧ s.cpu c = .run t ∧ s.pc t = .inspect j .reap ∧ s.Reaps s' t j
  /-- A `wait` that looks at a zombie reaps it, unless `copyout` fails. -/
  reaps : ∀ c flag t j, s.cpu c = .run t → s.pc t = .inspect j .reap → s.state j = .zombie →
    (s.waitAddr t = true → flag = true) → ∃ s', s.step (.thread c flag) = some (.ok s') ∧
    s.Reaps s' t j
  /-- If `copyout` fails `wait` returns -1, and no process changes. -/
  copyFails : ∀ c t j s', s.cpu c = .run t → s.pc t = .inspect j .reap → s.state j = .zombie →
    s.waitAddr t = true → s.step (.thread c false) = some (.ok s') →
    s'.proc = s.proc ∧ s'.pc t = .leave j (.waitRet (-1))
  /-- `wait` comes to a value only when it reaps a child, and to -1 only when `copyout` fails, when
  there is no child, or when the caller has been killed. -/
  causes : ∀ c flag t s' v, s.cpu c = .run t → s.step (.thread c flag) = some (.ok s') →
    (s.pc t).waited = none → (s'.pc t).waited = some v →
    (∃ j, s.state j = .zombie ∧ s.Reaps s' t j ∧ v = (s.proc j).pid) ∨
    v = -1 ∧ ((∃ j, s.pc t = .inspect j .reap ∧ s.state j = .zombie ∧ s.waitAddr t = true ∧
      flag = false) ∨ (∀ j, (s.proc j).parent ≠ some t) ∨ (s.proc t).killed = true)
  /-- What a call is about to return it returns. -/
  returns : ∀ a s' t v, s.step a = some (.ok s') → s.state t ≠ .unused →
    (s.pc t).returning = some v →
    (s'.pc t).returning = some v ∨ s'.pc t = .at .user ∧ s'.ret t = v
  /-- `wait` that has found no child gives up when there is none. -/
  childless : ∀ t n, s.pc t = .at (.waitScan n false) → nProc ≤ n → ∀ j, (s.proc j).parent ≠ some t
  /-- Nobody is asleep in `wait` with a zombie child when `wait_lock` is free. -/
  awake : s.waitLock = none → ∀ q ch, s.state q = .sleeping →
    s.pc q = .sched (.sleep ch true) ∨ s.pc q = .switched (.sleep ch true) →
    ∀ j, (s.proc j).parent = some q → s.state j ≠ .zombie

theorem Family.reaped {a : CpuAct C} (h : s.Family) (hstep : s.step a = some (.ok s'))
    (hz : s.state j = .zombie) :
    (s'.state j = .zombie ∧ (s'.proc j).pid = (s.proc j).pid ∧
      (s'.proc j).xstate = (s.proc j).xstate) ∨
    ∃ c flag t, a = .thread c flag ∧ s.cpu c = .run t ∧ s.pc t = .inspect j .reap ∧
      s.Reaps s' t j := by
  rcases h.inv.step_of_zombie hstep hz with hs | ⟨c, flag, t, op, rfl, hrun, hpc, rfl⟩
  · refine .inl ⟨hs.state.trans hz, ?_⟩
    obtain ⟨q, hq⟩ := hs
    rw [hq]
    exact ⟨rfl, rfl⟩
  · cases op with
    | wake ch r =>
      simp only [CpuSys.slotStep]
      rw [if_neg (by simp [hz])]
      exact .inl ⟨hz, rfl, rfl⟩
    | kill pid =>
      simp only [CpuSys.slotStep]
      split
      · refine .inl ⟨(congrFun (state_setProc (if_neg (by simp [hz]))) j).trans hz, ?_⟩
        simp [CpuSys.goto, setProc]
      · exact .inl ⟨hz, rfl, rfl⟩
    | alloc =>
      simp only [CpuSys.slotStep]
      rw [if_neg (by simp [hz])]
      exact .inl ⟨hz, rfl, rfl⟩
    | ready pid =>
      have hused := h.inv.forking t j (by rw [hpc]; rfl)
      cases hused.symm.trans hz
    | reap =>
      by_cases hflag : s.waitAddr t = true ∧ flag = false
      · simp only [CpuSys.slotStep]
        rw [if_pos hz, if_pos hflag]
        exact .inl ⟨hz, rfl, rfl⟩
      · exact .inr ⟨c, flag, t, rfl, hrun, hpc, h.reaps hrun hpc hz hflag⟩

theorem Family.waited {flag : Bool} {v : ℤ} (h : s.Family) (hrun : s.cpu c = .run t)
    (hs : s.Statement c t flag s') (hnone : (s.pc t).waited = none)
    (hv : (s'.pc t).waited = some v) :
    (∃ j, s.state j = .zombie ∧ s.Reaps s' t j ∧ v = (s.proc j).pid) ∨
    v = -1 ∧ ((∃ j, s.pc t = .inspect j .reap ∧ s.state j = .zombie ∧ s.waitAddr t = true ∧
      flag = false) ∨ (∀ j, (s.proc j).parent ≠ some t) ∨ (s.proc t).killed = true) := by
  cases hs with
  | @«at» l _ hpc hl =>
    cases l with
    | waitScan n havekids =>
      have hok := h.stage t
      rw [hpc] at hok
      simp only [CpuSys.locStep] at hl
      split_ifs at hl with hn hchild hkids <;> cases hl <;> rw [goto_pc] at hv
      · cases hv
      · cases hv
      · exact .inr ⟨(Option.some.inj hv).symm, .inr (.inl fun j => hok.2 hkids j (by omega))⟩
      · cases hv
    | waitRet v' =>
      rw [hpc] at hnone
      cases hnone
    | _ =>
      simp only [CpuSys.locStep] at hl
      repeat' split at hl
      all_goals cases hl
      all_goals
        rw [goto_pc] at hv
        cases hv
  | @inspect q _ hpc =>
    rcases h.waited_slot hrun hpc hv with hr | ⟨rfl, rfl, hz⟩
    · exact .inl ⟨q, hr⟩
    · exact .inr ⟨rfl, .inl ⟨q, hpc, hz⟩⟩
  | @inspectOwn op hpc =>
    cases op with
    | killed =>
      simp only [CpuSys.ownStep] at hv
      split_ifs at hv with hk <;> rw [goto_pc] at hv
      · exact .inr ⟨(Option.some.inj hv).symm, .inr (.inr hk)⟩
      · cases hv
    | _ =>
      rw [CpuSys.ownStep, goto_pc] at hv
      cases hv
  | @leave q l hpc =>
    rw [hpc] at hnone
    rw [goto_pc] at hv
    cases l with
    | waitRet v' => cases hnone
    | _ => cases hv
  | @sched r hpc =>
    have hswitched : ((s.goto t (.switched r)).setCpu c (.back t)).pc t = .switched r := goto_pc
    rw [hswitched] at hv
    cases hv
  | @yielded l hpc =>
    rw [goto_pc] at hv
    -- nobody yields on the way out of `wait`
    have hw := h.yields t l (by rw [hpc]; rfl)
    cases l with
    | waitRet v' => cases hw
    | _ => cases hv
  | _ =>
    rw [goto_pc] at hv
    cases hv

theorem Statement.returns {flag : Bool} {v : ℤ} (hs : s.Statement c t flag s')
    (hv : (s.pc t).returning = some v) :
    (s'.pc t).returning = some v ∨ s'.pc t = .at .user ∧ s'.ret t = v := by
  cases hs with
  | @«at» l _ hpc hl =>
    rw [hpc] at hv
    cases l with
    | ret v' =>
      cases hl
      cases hv
      exact .inr ⟨goto_pc, update_self _ _ _⟩
    | waitRet v' =>
      cases hl
      rw [goto_pc]
      exact .inl hv
    | _ => cases hv
  | leave hpc | yieldAcquire hpc | yieldSet hpc | yielded hpc =>
    rw [hpc] at hv
    rw [goto_pc]
    exact .inl hv
  | @sched r hpc =>
    have hswitched : ((s.goto t (.switched r)).setCpu c (.back t)).pc t = .switched r := goto_pc
    rw [hpc] at hv
    rw [hswitched]
    cases r <;> exact .inl hv
  | _ hpc =>
    rw [hpc] at hv
    cases hv

theorem Inv.returns {a : CpuAct C} {v : ℤ} (h : s.Inv) (hstep : s.step a = some (.ok s'))
    (ht : s.state t ≠ .unused) (hv : (s.pc t).returning = some v) :
    (s'.pc t).returning = some v ∨ s'.pc t = .at .user ∧ s'.ret t = v := by
  cases h.turn hstep t with
  | stays hpc =>
    rw [hpc]
    exact .inl hv
  | born hu _ => exact absurd hu ht
  | resumes c r _ hr hpc =>
    rw [hr] at hv
    rw [hpc]
    cases r <;> exact .inl hv
  | calls c f _ _ huser =>
    rw [huser] at hv
    cases hv
  | yields l hl hpc =>
    rw [hl] at hv
    rw [hpc]
    exact .inl hv
  | runs c flag _ _ hs => exact hs.returns hv

theorem Family.agreement (h : s.Family) : s.Agreement := by
  refine ⟨fun j q hj => ?_, fun j hji hu hu' => ?_, fun a s' j hstep hz => h.reaped hstep hz,
    fun c flag t j hrun hpc hz hflag => ?_, fun c t j s' hrun hpc hz haddr hstep => ?_,
    fun c flag t s' v hrun hstep hnone hv => ?_, fun a s' t v hstep ht hv =>
    h.inv.returns hstep ht hv, fun t n hpc hn j => ?_, fun hfree q ch hs hpc j hj hz => ?_⟩
  · obtain ⟨hu, -, hz⟩ := h.alive j q hj
    exact ⟨hu, hz⟩
  · refine h.child j hji ?_
    by_cases hz : s.state j = .zombie
    · exact .inr hz
    · exact .inl ⟨hu, hu', hz⟩
  · refine ⟨s.slotStep t j flag .reap, ?_, h.reaps hrun hpc hz ?_⟩
    · simp only [CpuSys.step, hrun, CpuSys.threadStep, hpc]
    · rintro ⟨haddr, hfalse⟩
      cases (hflag haddr).symm.trans hfalse
  · simp only [CpuSys.step, hrun, CpuSys.threadStep, hpc, CpuSys.slotStep, hz, haddr, if_true,
      and_self, some_inj, Except.ok.injEq] at hstep
    subst hstep
    exact ⟨rfl, goto_pc⟩
  · simp only [CpuSys.step, hrun] at hstep
    obtain ⟨s1, heq, hs⟩ := h.inv.statement hrun hstep
    cases heq
    exact h.waited hrun hs hnone hv
  · have hok := h.stage t
    rw [hpc] at hok
    exact hok.2 rfl j (by omega)
  · have hd : s.Dozes q := by
      refine .inr ⟨hs, ch, ?_⟩
      rcases hpc with hpc | hpc <;> rw [hpc] <;> rfl
    -- whoever owes `init` a wakeup holds the lock
    obtain ⟨-, u, hu⟩ := h.doze j q hj hz hd
    obtain ⟨c, -, hc⟩ := h.lock u (ThreadPc.wait_of_locked (h.yields u)
      (CallStage.locked_of_owes hu))
    rw [hfree] at hc
    cases hc

/-- **The agreement of `exit` and `wait`.**  For any number of CPUs and any interleaving of the lock
operations of `fork`, `exit`, `wait`, `kill` and the scheduler, the promises of `Agreement` are kept
in every state that is reached. -/
theorem exit_wait (h : Runs.Reach step (fun _ _ => True) (boot C) s) : s.Agreement :=
  (h.invariant (I := Family) boot_family fun _ _ _ hi _ hs => hi.step hs).agreement

/-- The first process forks and waits, and sleeps; its child exits with 5 and wakes it up.  `wait`
then finds the zombie, and returns the pid of the child and its status. -/
theorem exit_wait_child : ∃ s s', Runs.Reach step (fun _ _ => True) (boot Unit) s ∧
    s.state (1 : Fin 64) = .zombie ∧ s.step (.thread () true) = some (.ok s') ∧
    s'.proc (1 : Fin 64) = Proc.free ∧ s'.pc (0 : Fin 64) = .leave (1 : Fin 64) (.waitRet 2) ∧
    s'.status (0 : Fin 64) = some 5 := by
  have hrun : ∃ s, Runs.Reach step (fun _ _ => True) (boot Unit) s ∧
      (s.cpu () = .run (0 : Fin 64) ∧ s.pc (0 : Fin 64) = .inspect (1 : Fin 64) .reap ∧
        s.state (1 : Fin 64) = .zombie ∧ s.pc (1 : Fin 64) = .switched (.exit 5) ∧
        (s.proc (1 : Fin 64)).pid = 2 ∧ s.waitAddr (0 : Fin 64) = true) :=
    Runs.exists_reach_of_exec
      ([.sched (), .sched (), .sched (), .thread () true, .thread () true, .call () .fork] ++
        List.replicate 15 (.thread () true) ++ [.call () (.wait true)] ++
        List.replicate 76 (.thread () true) ++ List.replicate 5 (.sched ()) ++
        List.replicate 2 (.thread () true) ++ [.call () (.exit 5)] ++
        List.replicate 325 (.thread () true) ++ List.replicate 192 (.sched ()) ++
        List.replicate 6 (.thread () true)) (by decide +kernel)
  obtain ⟨s, hs, hcpu, hpc, hz, hexit, hpid, haddr⟩ := hrun
  obtain ⟨s', hstep, status, -, hst, hfree, hret, hout⟩ :=
    (exit_wait hs).reaps () true (0 : Fin 64) (1 : Fin 64) hcpu hpc hz fun _ => rfl
  cases hexit.symm.trans hst
  rw [hpid] at hret
  rw [haddr] at hout
  exact ⟨s, s', hs, hz, hstep, hfree, hret, hout⟩

end CpuSys

end CsklubOs
