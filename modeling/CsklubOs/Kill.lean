/-
**`kill` and its victims.**

`kill` goes through the table slot by slot, under `p->lock` of one slot at a time, and marks the
first process that has the pid; an unexpected trap marks the process that took it.  It compares the
pids of all slots, the `UNUSED` ones too, and these have pid 0.  A `kill(0)` therefore marks the
first `UNUSED` slot and returns 0, and the next process that gets the slot is born killed, since
`allocproc` does not clear the mark.

The processes are those of `CsklubOs/Sched.lean`.  Beside them stands, for each slot, a history that
no step looks at: the calls that were marking when the slot was allocated, and all that began later.

Main definitions:

* `KillSys` — the processes with their history;
* `KillSys.SparesUnused` — no `kill(0)` comes to an `UNUSED` slot.

Main results:

* `CpuSys.Inv.effect` — what a step can do to a slot;
* `KillSys.only_victim_killed` — a process is marked only by a `kill` of its own pid or by its trap;
* `KillSys.child_born_killed` — the child that a `kill(0)` before the `fork` has marked.
-/

import CsklubOs.ExitWait

set_option autoImplicit false

namespace CsklubOs

open Function
open List (finRange)
open Option (map_eq_some_iff)

/-! ### Calls that mark -/

/-- The `kill` or the trap that a thread is in the midst of. -/
def Loc.marking : Loc → Option ProcCall
  | .visit _ (.kill pid) | .killLoop pid _ => some (.kill pid)
  | .own .setkilled => some .trap
  | _ => none

@[inherit_doc Loc.marking]
def ThreadPc.marking : ThreadPc → Option ProcCall
  | .at l | .leave _ l | .yieldAcquire l | .yieldSet l | .sched (.yield l) | .switched (.yield l)
  | .resumed (.yield l) => l.marking
  | .inspect _ (.kill pid) => some (.kill pid)
  | .inspectOwn .setkilled => some .trap
  | _ => none

namespace CpuSys

variable {C : Type} {s s' : CpuSys C} {c : C} {t q i : Fin nProc} {flag : Bool} {op : SlotOp}

/-- The calls that are marking, with the processes that make them. -/
def marking (s : CpuSys C) : List (Fin nProc × ProcCall) :=
  (finRange nProc).filterMap fun t => (s.pc t).marking.map (t, ·)

/-- The call that a step makes. -/
def made (s : CpuSys C) : CpuAct C → List (Fin nProc × ProcCall)
  | .call c f =>
    match s.cpu c with
    | .run t => [(t, f)]
    | _ => []
  | _ => []

theorem mem_marking {f : ProcCall} (h : (s.pc t).marking = some f) : (t, f) ∈ s.marking :=
  List.mem_filterMap.2 ⟨t, List.mem_finRange t, by rw [h]; rfl⟩

/-! ### What a step does to a slot -/

/-- The pid and the mark are as before, and the slot is not freed. -/
def Kept (P P' : Proc) : Prop :=
  P'.pid = P.pid ∧ P'.killed = P.killed ∧ (P'.state = .unused → P.state = .unused)

theorem Kept.refl (P : Proc) : Kept P P := ⟨rfl, rfl, id⟩

/-- What a step can do to slot `i`, as far as `kill` is concerned. -/
inductive Effect (s : CpuSys C) (a : CpuAct C) (s' : CpuSys C) (i : Fin nProc) : Prop
  | keep : Kept (s.proc i) (s'.proc i) → Effect s a s' i
  | alloc : s.state i = .unused → s'.state i ≠ .unused → (s'.proc i).killed = (s.proc i).killed →
      Effect s a s' i
  | free : s'.proc i = Proc.free → Effect s a s' i
  | kill (c : C) (flag : Bool) (t : Fin nProc) : a = .thread c flag → s.cpu c = .run t →
      s.pc t = .inspect i (.kill (s.proc i).pid) → (s'.proc i).pid = (s.proc i).pid →
      (s'.state i = .unused ↔ s.state i = .unused) → Effect s a s' i
  | trap : s.pc i = .inspectOwn .setkilled → s.state i ≠ .unused → s'.state i ≠ .unused →
      (s'.proc i).pid = (s.proc i).pid → Effect s a s' i

variable {a : CpuAct C}

theorem Effect.of_eq (h : s'.proc i = s.proc i) : Effect s a s' i := by
  refine .keep ?_
  rw [h]
  exact .refl _

theorem Effect.of_same (h : s.Same s' i) : Effect s a s' i := by
  obtain ⟨q, hq⟩ := h
  refine .keep ?_
  rw [hq]
  exact ⟨rfl, rfl, id⟩

theorem effect_setProc {P : Proc} (hproc : s'.proc i = P) (hst : P.state ≠ .unused)
    (hpid : P.pid = (s.proc i).pid := by rfl) (hkilled : P.killed = (s.proc i).killed := by rfl) :
    Effect s a s' i := by
  refine .keep ?_
  rw [hproc]
  exact ⟨hpid, hkilled, fun hu => absurd hu hst⟩

theorem effect_slotStep (hrun : s.cpu c = .run t) (hpc : s.pc t = .inspect q op) :
    Effect s (.thread c flag) (s.slotStep t q flag op) q := by
  cases op with
  | wake ch r =>
    simp only [CpuSys.slotStep]
    split
    · exact effect_setProc (update_self _ _ _) (by simp)
    · exact .of_eq rfl
  | kill pid =>
    simp only [CpuSys.slotStep]
    split
    · rename_i hpid
      subst hpid
      refine .kill c flag t rfl hrun hpc ?_ ?_
      · simp [CpuSys.goto, setProc]
      · by_cases hs : (s.proc q).state = .sleeping <;>
          simp [CpuSys.state, CpuSys.goto, setProc, hs]
    · exact .of_eq rfl
  | alloc =>
    simp only [CpuSys.slotStep]
    split
    · rename_i hunused
      split
      · refine .alloc hunused ?_ ?_ <;> simp [CpuSys.state, CpuSys.goto, setProc]
      · exact .free (update_self _ _ _)
    · exact .of_eq rfl
  | ready pid => exact effect_setProc (update_self _ _ _) (by simp)
  | reap =>
    simp only [CpuSys.slotStep]
    split
    · split
      · exact .of_eq rfl
      · exact .free (update_self _ _ _)
    · exact .of_eq rfl

variable [DecidableEq C]

theorem Inv.effect_own (h : s.Inv) (hrun : s.cpu c = .run t) (hs : s.Statement c t flag s') :
    Effect s (.thread c flag) s' t := by
  have hu := (h.alive hrun).1
  cases hs with
  | «at» hpc hl => exact .of_same ((locStep_frame hl).1 t)
  | @inspect q _ hpc =>
    by_cases hq : t = q
    · subst hq
      exact effect_slotStep hrun hpc
    · exact .of_eq ((h.slotStep_state hpc).1 t hq)
  | @inspectOwn op hpc =>
    cases op with
    | killed =>
      simp only [CpuSys.ownStep]
      split <;> exact .of_eq rfl
    | sleep ch w => cases w <;> exact .of_eq rfl
    | exit status => exact effect_setProc (update_self _ _ _) (by simp)
    | setkilled =>
      refine .trap hpc hu ?_ ?_
      · exact fun hn => hu ((congrFun (state_setProc (by rfl)) t).symm.trans hn)
      · simp [CpuSys.ownStep, CpuSys.goto, setProc]
  | yieldSet | sleepSet => exact effect_setProc (update_self _ _ _) (by simp)
  | slept => exact effect_setProc (update_self _ _ _) hu
  | _ => exact .of_eq rfl

/-- **What a step can do to a slot.** -/
theorem Inv.effect (h : s.Inv) (hstep : s.step a = some (.ok s')) (i : Fin nProc) :
    Effect s a s' i := by
  rcases h.step_state hstep i with hs | ⟨-, hs⟩ | ⟨c, flag, rfl, hrun, hs⟩ |
    ⟨c, flag, t, op, rfl, hrun, hpc, rfl⟩
  · exact .of_same hs
  · exact effect_setProc hs (by simp)
  · exact h.effect_own hrun hs
  · exact effect_slotStep hrun hpc

/-! ### What a step does to a call -/

end CpuSys

theorem Loc.returning_of_marking {l : Loc} {f : ProcCall} (h : l.marking = some f) :
    l.returning = none := by
  cases l <;> first | rfl | cases h

theorem ThreadPc.returning_of_marking {k : ThreadPc} {f : ProcCall} (h : k.marking = some f) :
    k.returning = none := by
  cases k with
  | «at» l | leave q l | yieldAcquire l | yieldSet l => exact Loc.returning_of_marking h
  | sched r | switched r | resumed r =>
    cases r with
    | yield l => exact Loc.returning_of_marking h
    | _ => rfl
  | _ => rfl

namespace CpuSys

variable {C : Type} {s s' : CpuSys C} {c : C} {t u : Fin nProc} {a : CpuAct C}

/-- **What a step does to the calls that mark**: thread `u` is in one only if it was or has just
made it, and its `kill` comes to 0 only at a slot with that pid. -/
structure Goes (s : CpuSys C) (a : CpuAct C) (s' : CpuSys C) (u : Fin nProc) : Prop where
  calls : ∀ f, (s'.pc u).marking = some f → (s.pc u).marking = some f ∨ (u, f) ∈ s.made a
  found : ∀ pid, (s.pc u).marking = some (.kill pid) → (s'.pc u).returning = some 0 →
    ∃ c flag i, a = .thread c flag ∧ s.cpu c = .run u ∧ s.pc u = .inspect i (.kill pid) ∧
      (s.proc i).pid = pid

theorem Goes.of_place (hm : (s'.pc u).marking = (s.pc u).marking)
    (hr : (s'.pc u).returning = (s.pc u).returning) : Goes s a s' u := by
  refine ⟨fun f hf => .inl (hm ▸ hf), fun pid hp h0 => ?_⟩
  rw [hr, ThreadPc.returning_of_marking hp] at h0
  cases h0

theorem Goes.of_none (hm : (s'.pc u).marking = none)
    (hr : (s.pc u).marking = none ∨ (s'.pc u).returning ≠ some 0) : Goes s a s' u := by
  refine ⟨fun f hf => ?_, fun pid hp h0 => ?_⟩
  · cases hm.symm.trans hf
  · rcases hr with hr | hr
    · cases hr.symm.trans hp
    · exact absurd h0 hr

theorem goes_slotStep {q : Fin nProc} {op : SlotOp} {flag : Bool} (hrun : s.cpu c = .run t)
    (hpc : s.pc t = .inspect q op) : Goes s (.thread c flag) (s.slotStep t q flag op) t := by
  cases op with
  | kill pid =>
    simp only [CpuSys.slotStep]
    split
    · rename_i hpid
      refine ⟨fun f hf => ?_, fun pid' hp _ => ?_⟩
      · rw [goto_pc] at hf
        cases hf
      · rw [hpc] at hp
        cases hp
        exact ⟨c, flag, q, rfl, hrun, hpc, hpid⟩
    · refine .of_place ?_ ?_ <;> rw [goto_pc, hpc] <;> rfl
  | _ =>
    simp only [CpuSys.slotStep]
    repeat' split
    all_goals exact .of_none (by rw [goto_pc]; rfl) (.inl (by rw [hpc]; rfl))

theorem goes_locStep {l : Loc} (hl : s.pc t = .at l) (hstep : s.locStep c t l = some s') :
    Goes s a s' t := by
  cases l with
  | visit q op | own op =>
    obtain ⟨-, rfl⟩ := Runs.taken hstep
    refine .of_place ?_ ?_ <;> rw [goto_pc, hl] <;> cases op <;> rfl
  | killLoop pid n =>
    simp only [CpuSys.locStep] at hstep
    split_ifs at hstep <;> cases hstep
    · refine .of_place ?_ ?_ <;> rw [goto_pc, hl] <;> rfl
    · refine .of_none ?_ (.inr ?_) <;> rw [goto_pc]
      · rfl
      · decide
  | _ =>
    simp only [CpuSys.locStep] at hstep
    repeat' split at hstep
    all_goals cases hstep
    all_goals exact .of_none (by rw [goto_pc]; rfl) (.inl (by rw [hl]; rfl))

variable [DecidableEq C]

theorem goes_statement {flag : Bool} (hrun : s.cpu c = .run t) (hs : s.Statement c t flag s') :
    Goes s (.thread c flag) s' t := by
  cases hs with
  | «at» hpc hl => exact goes_locStep hpc hl
  | inspect hpc => exact goes_slotStep hrun hpc
  | @inspectOwn op hpc =>
    cases op with
    | setkilled =>
      refine .of_none ?_ (.inr ?_) <;> rw [CpuSys.ownStep, goto_pc]
      · rfl
      · rintro ⟨⟩
    | _ =>
      simp only [CpuSys.ownStep]
      repeat' split
      all_goals exact .of_none (by rw [goto_pc]; rfl) (.inl (by rw [hpc]; rfl))
  | @sched r hpc =>
    have hswitched : ((s.goto t (.switched r)).setCpu c (.back t)).pc t = .switched r := goto_pc
    refine .of_place ?_ ?_ <;> rw [hswitched, hpc] <;> cases r <;> rfl
  | _ hpc => refine .of_place ?_ ?_ <;> rw [goto_pc, hpc] <;> rfl

theorem Inv.goes (h : s.Inv) (hstep : s.step a = some (.ok s')) (u : Fin nProc) :
    Goes s a s' u := by
  cases h.turn hstep u with
  | stays hpc => refine .of_place ?_ ?_ <;> rw [hpc]
  | born _ hpc =>
    refine .of_none ?_ (.inr ?_) <;> rw [hpc]
    · rfl
    · decide
  | resumes c r _ hr hpc => refine .of_place ?_ ?_ <;> rw [hpc, hr] <;> cases r <;> rfl
  | calls c f ha hrun huser hcall =>
    refine ⟨fun f' hf' => .inr ?_, fun pid hp => ?_⟩
    · rw [ha, made, hrun, List.mem_singleton]
      cases f <;> simp only [CpuSys.callStep] at hcall
      case exit status =>
        split at hcall <;> cases hcall
        rw [goto_pc] at hf'
        cases hf'
      all_goals
        cases hcall
        rw [goto_pc] at hf'
        cases hf'
      all_goals rfl
    · rw [huser] at hp
      cases hp
  | yields l hl hpc => refine .of_place ?_ ?_ <;> rw [hpc, hl] <;> rfl
  | runs c flag ha hrun hs =>
    subst ha
    exact goes_statement hrun hs

end CpuSys

/-! ### Only the victim is killed -/

/-- The processes, and for each slot the calls that were marking when it was allocated and those
that were made later. -/
structure KillSys (C : Type) where
  sys : CpuSys C
  since : Fin nProc → List (Fin nProc × ProcCall)

namespace KillSys

variable {C : Type} {s s' : KillSys C} {a : CpuAct C} {i : Fin nProc}

/-- The history after a step. -/
def record (s : KillSys C) (a : CpuAct C) (sys : CpuSys C) : KillSys C where
  sys := sys
  since i := s.sys.made a ++
    if s.sys.state i = .unused ∧ sys.state i = .used then s.sys.marking else s.since i

def boot (C : Type) : KillSys C := ⟨CpuSys.boot C, fun _ => []⟩

/-- The place of the thread that a CPU executes. -/
def place (s : KillSys C) (c : C) : Option ThreadPc :=
  match s.sys.cpu c with
  | .run t => some (s.sys.pc t)
  | _ => none

/-- No `kill(0)` comes to an `UNUSED` slot. -/
def SparesUnused (s : KillSys C) : CpuAct C → Prop
  | .thread c _ => ∀ i, s.place c = some (.inspect i (.kill 0)) → s.sys.state i ≠ .unused
  | _ => True

instance (s : KillSys C) (a : CpuAct C) : Decidable (SparesUnused s a) := by
  cases a <;> unfold SparesUnused <;> infer_instance

/-- The invariant. -/
structure Inv (s : KillSys C) : Prop where
  sys : s.sys.Inv
  unused : ∀ i, s.sys.state i = .unused → (s.sys.proc i).pid = 0 ∧ (s.sys.proc i).killed = false
  victim : ∀ i, s.sys.state i ≠ .unused → (s.sys.proc i).killed = true →
    (∃ t, (t, .kill (s.sys.proc i).pid) ∈ s.since i) ∨ (i, .trap) ∈ s.since i
  marking : ∀ t f, (s.sys.pc t).marking = some f → ∀ i, (t, f) ∈ s.since i

theorem Inv.state_ne_unused (h : Inv s) (hok : SparesUnused s a) {c : C} {flag : Bool}
    {t : Fin nProc} (ha : a = .thread c flag) (hrun : s.sys.cpu c = .run t)
    (hpc : s.sys.pc t = .inspect i (.kill (s.sys.proc i).pid)) : s.sys.state i ≠ .unused := by
  intro hu
  rw [(h.unused i hu).1] at hpc
  subst ha
  refine hok i ?_ hu
  rw [place, hrun]
  exact congrArg some hpc

theorem boot_inv : Inv (boot C) := by
  have hfree : ∀ i ≠ (⟨0, nProc_pos⟩ : Fin nProc), (boot C).sys.proc i = Proc.free := by
    intro i hi
    exact update_of_ne hi _ fun _ => Proc.free
  refine ⟨CpuSys.boot_inv, fun i hi => ?_, fun i _ hk => ?_, fun t f hf => by cases hf⟩
  all_goals by_cases h0 : i = ⟨0, nProc_pos⟩
  · subst h0
    cases hi
  · rw [hfree i h0]
    exact ⟨rfl, rfl⟩
  · subst h0
    cases hk
  · rw [hfree i h0] at hk
    cases hk

variable [DecidableEq C]

def step (s : KillSys C) (a : CpuAct C) : Option (Except CpuPanic (KillSys C)) :=
  match s.sys.step a with
  | some (.ok sys) => some (.ok (s.record a sys))
  | some (.error e) => some (.error e)
  | none => none

theorem of_step (hstep : s.step a = some (.ok s')) :
    s.sys.step a = some (.ok s'.sys) ∧ ∀ i, s'.since i = s.sys.made a ++
      if s.sys.state i = .unused ∧ s'.sys.state i = .used then s.sys.marking else s.since i := by
  unfold KillSys.step at hstep
  split at hstep <;> cases hstep
  rename_i sys hsys
  exact ⟨hsys, fun _ => rfl⟩

/-- A slot that was in use is not allocated. -/
theorem since_subset (hstep : s.step a = some (.ok s')) (hi : s.sys.state i ≠ .unused) :
    s.since i ⊆ s'.since i := by
  rw [(of_step hstep).2, if_neg fun hnew => hi hnew.1]
  exact List.subset_append_right _ _

/-- **Every step keeps the invariant**, if no `kill(0)` comes to an `UNUSED` slot. -/
theorem Inv.step (h : Inv s) (hok : SparesUnused s a) (hstep : s.step a = some (.ok s')) :
    Inv s' := by
  obtain ⟨hsys, hsince⟩ := of_step hstep
  have hinv : s'.sys.Inv := by
    rcases h.sys.step hsys with he | ⟨s1, hs1, h1⟩
    · cases he
    · cases hs1
      exact h1
  refine ⟨hinv, fun i hi => ?_, fun i hi hk => ?_, fun t f hf i => ?_⟩
  · cases h.sys.effect hsys i with
    | keep hkept =>
      rw [hkept.1, hkept.2.1]
      exact h.unused i (hkept.2.2 hi)
    | alloc _ hne _ => exact absurd hi hne
    | free hfree =>
      rw [hfree]
      exact ⟨rfl, rfl⟩
    | kill c flag t ha hrun hpc _ hst =>
      exact absurd (hst.1 hi) (h.state_ne_unused hok ha hrun hpc)
    | trap _ _ hne _ => exact absurd hi hne
  · cases h.sys.effect hsys i with
    | keep hkept =>
      rw [hkept.2.1] at hk
      have hne : s.sys.state i ≠ .unused := fun hu => by
        rw [(h.unused i hu).2] at hk
        cases hk
      have hsub := since_subset hstep hne
      rw [hkept.1]
      rcases h.victim i hne hk with ⟨t, ht⟩ | ht
      · exact .inl ⟨t, hsub ht⟩
      · exact .inr (hsub ht)
    | alloc hu _ hkilled =>
      -- an unused slot is not marked
      rw [hkilled, (h.unused i hu).2] at hk
      cases hk
    | free hfree =>
      rw [hfree] at hk
      cases hk
    | kill c flag t ha hrun hpc hpid _ =>
      have hne := h.state_ne_unused hok ha hrun hpc
      have hmem := h.marking t (.kill (s.sys.proc i).pid) (by rw [hpc]; rfl) i
      rw [hpid]
      exact .inl ⟨t, since_subset hstep hne hmem⟩
    | trap hpc hne _ _ =>
      have hmem := h.marking i .trap (by rw [hpc]; rfl) i
      exact .inr (since_subset hstep hne hmem)
  · rw [hsince, List.mem_append]
    refine ((h.sys.goes hsys t).calls f hf).symm.imp_right fun hmark => ?_
    split
    · exact CpuSys.mem_marking hmark
    · exact h.marking t f hmark i

/-- What `kill` promises. -/
structure Victims (s : KillSys C) : Prop where
  /-- A process is marked only if a `kill` with its own pid was made since its slot was allocated,
  or if it took an unexpected trap. -/
  victim : ∀ i, s.sys.state i ≠ .unused → (s.sys.proc i).killed = true →
    (∃ t, (t, .kill (s.sys.proc i).pid) ∈ s.since i) ∨ (i, .trap) ∈ s.since i
  /-- A process that is allocated is not marked. -/
  newborn : ∀ a s' i, s.step a = some (.ok s') → s.sys.state i = .unused →
    s'.sys.state i ≠ .unused → (s'.sys.proc i).killed = false
  /-- A `kill` comes to 0 only if there is a process with that pid. -/
  found : ∀ a s' t pid, SparesUnused s a → s.step a = some (.ok s') →
    (s.sys.pc t).marking = some (.kill pid) → (s'.sys.pc t).returning = some 0 →
    ∃ i, s.sys.state i ≠ .unused ∧ (s.sys.proc i).pid = pid

theorem Inv.victims (h : Inv s) : s.Victims := by
  refine ⟨h.victim, fun a s' i hstep hu hne => ?_, fun a s' t pid hok hstep hmark hzero => ?_⟩
  · obtain ⟨hsys, -⟩ := of_step hstep
    cases h.sys.effect hsys i with
    | keep hkept => rw [hkept.2.1, (h.unused i hu).2]
    | alloc _ _ hkilled => rw [hkilled, (h.unused i hu).2]
    | free hfree => rw [hfree]; rfl
    | kill _ _ _ _ _ _ _ hst => exact absurd (hst.2 hu) hne
    | trap _ hu' _ _ => exact absurd hu hu'
  · obtain ⟨hsys, -⟩ := of_step hstep
    obtain ⟨c, flag, i, ha, hrun, hpc, rfl⟩ := (h.sys.goes hsys t).found pid hmark hzero
    exact ⟨i, h.state_ne_unused hok ha hrun hpc, rfl⟩

/-- **Only the victim is killed.**  In every run of any number of CPUs in which no `kill(0)` comes
to an `UNUSED` slot, the promises of `Victims` are kept. -/
theorem only_victim_killed (h : Runs.Reach step SparesUnused (boot C) s) : s.Victims :=
  (h.invariant (I := Inv) boot_inv fun _ _ _ hi hok hs => hi.step hok hs).victims

/-- The first process runs, in user space. -/
def starts : List (CpuAct Unit) :=
  [.sched (), .sched (), .sched (), .thread () true, .thread () true]

/-- The first process kills itself. -/
theorem only_victim_killed_init : ∃ s, Runs.Reach step SparesUnused (boot Unit) s ∧
    (s.sys.proc (0 : Fin 64)).killed = true ∧
      ((∃ t, (t, .kill (s.sys.proc (0 : Fin 64)).pid) ∈ s.since (0 : Fin 64)) ∨
        ((0 : Fin 64), .trap) ∈ s.since (0 : Fin 64)) := by
  have hrun : ∃ s, Runs.Reach step SparesUnused (boot Unit) s ∧
      s.sys.state (0 : Fin 64) ≠ .unused ∧ (s.sys.proc (0 : Fin 64)).killed = true :=
    Runs.exists_reach_of_exec
      (starts ++ [.call () (.kill 1)] ++ List.replicate 3 (.thread () true)) (by decide +kernel)
  obtain ⟨s, hs, hstate, hkilled⟩ := hrun
  exact ⟨s, hs, hkilled, (only_victim_killed hs).victim _ hstate hkilled⟩

/-- The first process calls `kill(0)`, which marks the unused slot 1 and returns 0, and then `fork`:
its child is marked, although it took no trap and no `kill` of its pid was made. -/
theorem child_born_killed : ∃ s, Runs.Reach step (fun _ _ => True) (boot Unit) s ∧
    s.sys.state (1 : Fin 64) = .runnable ∧ (s.sys.proc (1 : Fin 64)).pid = 2 ∧
      (s.sys.proc (1 : Fin 64)).killed = true ∧ s.since (1 : Fin 64) = [] :=
  Runs.exists_reach_of_exec
    (starts ++ [.call () (.kill 0)] ++ List.replicate 9 (.thread () true) ++ [.call () .fork] ++
      List.replicate 15 (.thread () true)) (by decide +kernel)

end KillSys

end CsklubOs
