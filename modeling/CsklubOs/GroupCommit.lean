/-
**Group commit: concurrent operations on one log.**

Processes call `begin_op`, `log_write` and `end_op`; the sections of `CsklubOs/Log.lean` are atomic,
and between them any process may run.  The `end_op` that finds no operation outstanding runs
`commit` without the lock; `log.committing` keeps the others out.  The state also keeps a history
that no step looks at: operations are numbered, and every `log_write` and every commit is recorded.

Main definitions:

* `GroupLog`, `GroupLog.step` — the log with its processes;
* `GroupLog.Commits`, `GroupLog.InCommit` — which commit an operation belongs to;
* `GroupLog.Inv` — the invariant.

Main results:

* `GroupLog.group_commit` — an operation is committed as a whole, and commits do not overlap.
-/

import CsklubOs.Log
import CsklubOs.Runs

set_option autoImplicit false

namespace CsklubOs

open Function Finset

/-- Where a process is with respect to the log. -/
inductive LogPhase
  /-- Outside any operation. -/
  | idle
  /-- Asleep in `begin_op`. -/
  | asleep
  /-- In `begin_op`, about to test again. -/
  | woken
  /-- Between its `begin_op` and its `end_op`. -/
  | inOp
  /-- In `end_op`, with `do_commit` set, before `commit()`. -/
  | mustCommit
  /-- In `commit()`, with the header still listing the transaction. -/
  | committing
  /-- In `commit()`, after `log.lh.n = 0`, up to the reset of `log.committing`. -/
  | cleared
  deriving DecidableEq, Repr

/-- A recorded `log_write`: the operation, the block, and the number of commits begun before. -/
structure Logged where
  op : ℕ
  block : ℕ
  commit : ℕ
  deriving DecidableEq

/-- The processes that use one log. -/
structure GroupLog (P : Type) where
  log : Log
  phase : P → LogPhase
  /-- History: the number of the next operation. -/
  nextOp : ℕ
  /-- History: the number of a process's latest operation. -/
  op : P → ℕ
  /-- History: the `log_write` calls that returned. -/
  hist : List Logged
  /-- History: the blocks of each commit that was begun. -/
  commits : List (List ℕ)

/-- What a process does under `log.lock`, or with `log.committing` set. -/
inductive LogAct (P : Type)
  | beginOp (p : P)
  | wake (p : P)
  | logWrite (p : P) (b : ℕ)
  | endOp (p : P)
  | startCommit (p : P)
  | clearHead (p : P)
  | endCommit (p : P)

namespace GroupLog

variable {P : Type} [DecidableEq P]

/-- The log after `initlog` on a disk that needs no recovery, and no process in an operation. -/
def init (start size dev : ℕ) : GroupLog P where
  log := { start, size, dev, outstanding := 0, committing := false, lh := [] }
  phase := fun _ => .idle
  nextOp := 0
  op := fun _ => 0
  hist := []
  commits := []

/-- The effect of `wakeup(&log)` on a process. -/
def wakePhase : LogPhase → LogPhase
  | .asleep => .woken
  | ph => ph

/-- `wakeup(&log)`, after process `p` has moved to phase `ph`. -/
def wakeup (s : GroupLog P) (p : P) (ph : LogPhase) : P → LogPhase :=
  fun q => wakePhase (update s.phase p ph q)

/-- One step of the system. -/
def step (s : GroupLog P) : LogAct P → Option (Except LogPanic (GroupLog P))
  | .beginOp p =>
    if s.phase p = .idle ∨ s.phase p = .woken then
      match s.log.beginOp with
      | none => some (.ok { s with phase := update s.phase p .asleep })
      | some l => some (.ok { s with
          log := l
          phase := update s.phase p .inOp
          op := update s.op p s.nextOp
          nextOp := s.nextOp + 1 })
    else none
  | .wake p =>
    -- a `kill` makes a sleeping process runnable
    if s.phase p = .asleep then
      some (.ok { s with phase := update s.phase p .woken })
    else none
  | .logWrite p b =>
    if s.phase p = .inOp then
      match s.log.logWrite b with
      | .error e => some (.error e)
      | .ok (l, _) => some (.ok { s with
          log := l
          hist := s.hist ++ [⟨s.op p, b, s.commits.length⟩] })
    else none
  | .endOp p =>
    if s.phase p = .inOp then
      match s.log.endOp with
      | .error e => some (.error e)
      | .ok (l, true) => some (.ok { s with
          log := l
          phase := update s.phase p .mustCommit })
      | .ok (l, false) => some (.ok { s with
          log := l
          phase := s.wakeup p .idle })
    else none
  | .startCommit p =>
    if s.phase p = .mustCommit then
      some (.ok { s with
        phase := update s.phase p .committing
        commits := s.commits ++ [s.log.lh] })
    else none
  | .clearHead p =>
    if s.phase p = .committing then
      some (.ok { s with
        log := s.log.clear
        phase := update s.phase p .cleared })
    else none
  | .endCommit p =>
    if s.phase p = .cleared then
      some (.ok { s with
        log := s.log.endCommit
        phase := s.wakeup p .idle })
    else none

/-- Process `p` runs `commit()`, or is about to, or has not yet reset `log.committing`. -/
def Commits (s : GroupLog P) (p : P) : Prop :=
  s.phase p = .mustCommit ∨ s.phase p = .committing ∨ s.phase p = .cleared

/-- Process `p` is between the start of `commit()` and the reset of `log.committing`. -/
def InCommit (s : GroupLog P) (p : P) : Prop :=
  s.phase p = .committing ∨ s.phase p = .cleared

/-- The processes in an operation. -/
def running [Fintype P] (s : GroupLog P) : Finset P :=
  Finset.univ.filter fun p => s.phase p = .inOp

/-! ### What a step does -/

/-- The steps that do not panic, one constructor for each thing that can happen. -/
inductive Move (s : GroupLog P) : LogAct P → GroupLog P → Prop
  | sleep (p : P) : s.phase p = .idle ∨ s.phase p = .woken → s.log.beginOp = none →
      Move s (.beginOp p) { s with phase := update s.phase p .asleep }
  | begin (p : P) (l : Log) : s.phase p = .idle ∨ s.phase p = .woken → s.log.beginOp = some l →
      Move s (.beginOp p) { s with
        log := l
        phase := update s.phase p .inOp
        op := update s.op p s.nextOp
        nextOp := s.nextOp + 1 }
  | wake (p : P) : s.phase p = .asleep →
      Move s (.wake p) { s with phase := update s.phase p .woken }
  | logWrite (p : P) (b : ℕ) (l : Log) (new : Bool) : s.phase p = .inOp →
      s.log.logWrite b = .ok (l, new) →
      Move s (.logWrite p b) { s with
        log := l
        hist := s.hist ++ [⟨s.op p, b, s.commits.length⟩] }
  | endLast (p : P) (l : Log) : s.phase p = .inOp → s.log.endOp = .ok (l, true) →
      Move s (.endOp p) { s with log := l, phase := update s.phase p .mustCommit }
  | endOther (p : P) (l : Log) : s.phase p = .inOp → s.log.endOp = .ok (l, false) →
      Move s (.endOp p) { s with log := l, phase := s.wakeup p .idle }
  | startCommit (p : P) : s.phase p = .mustCommit →
      Move s (.startCommit p) { s with
        phase := update s.phase p .committing
        commits := s.commits ++ [s.log.lh] }
  | clearHead (p : P) : s.phase p = .committing →
      Move s (.clearHead p) { s with
        log := s.log.clear
        phase := update s.phase p .cleared }
  | endCommit (p : P) : s.phase p = .cleared →
      Move s (.endCommit p) { s with log := s.log.endCommit, phase := s.wakeup p .idle }

variable {s s' : GroupLog P}

theorem move_of_step {a : LogAct P} (h : s.step a = some (.ok s')) : Move s a s' := by
  cases a with
  | beginOp p =>
    obtain ⟨hp, h⟩ := Option.ite_none_right_eq_some.1 h
    split at h <;> rename_i hb <;> cases h
    · exact .sleep p hp hb
    · exact .begin p _ hp hb
  | wake p =>
    obtain ⟨hp, rfl⟩ := Runs.taken_ok h
    exact .wake p hp
  | logWrite p b =>
    obtain ⟨hp, h⟩ := Option.ite_none_right_eq_some.1 h
    split at h <;> rename_i hb <;> cases h
    exact .logWrite p b _ _ hp hb
  | endOp p =>
    obtain ⟨hp, h⟩ := Option.ite_none_right_eq_some.1 h
    split at h <;> rename_i hb <;> cases h
    · exact .endLast p _ hp hb
    · exact .endOther p _ hp hb
  | startCommit p =>
    obtain ⟨hp, rfl⟩ := Runs.taken_ok h
    exact .startCommit p hp
  | clearHead p =>
    obtain ⟨hp, rfl⟩ := Runs.taken_ok h
    exact .clearHead p hp
  | endCommit p =>
    obtain ⟨hp, rfl⟩ := Runs.taken_ok h
    exact .endCommit p hp

/-! ### The invariant -/

/-- The phases as far as the log is concerned: a process in `begin_op` is outside any operation. -/
def core : LogPhase → LogPhase
  | .asleep => .idle
  | .woken => .idle
  | ph => ph

theorem core_wakePhase (ph : LogPhase) : core (wakePhase ph) = core ph := by cases ph <;> rfl

theorem core_eq_iff {ph q : LogPhase} (h : core ph = core q) :
    (ph = .inOp ↔ q = .inOp) ∧ (ph = .mustCommit ↔ q = .mustCommit) ∧
      (ph = .committing ↔ q = .committing) ∧ (ph = .cleared ↔ q = .cleared) := by
  cases ph <;> cases q <;> simp_all [core]

variable [Fintype P]

/-- **The invariant** of the processes that use one log. -/
structure Inv (s : GroupLog P) : Prop where
  /-- `log.outstanding` counts the operations in progress. -/
  outstanding : s.log.outstanding = (s.running.card : ℤ)
  committing : s.log.committing = true ↔ ∃ p, s.Commits p
  unique : ∀ p q, s.Commits p → s.Commits q → p = q
  alone : ∀ p q, s.Commits p → s.phase q ≠ .inOp
  nodup : s.log.lh.Nodup
  cleared : ∀ p, s.phase p = .cleared → s.log.lh = []
  /-- Between a commit and the next operation the header is empty. -/
  quiet : (∀ p, s.phase p ≠ .inOp) → (∀ p, ¬ s.Commits p) → s.log.lh = []
  opLt : ∀ p, s.phase p = .inOp → s.op p < s.nextOp
  opInj : ∀ p q, s.phase p = .inOp → s.phase q = .inOp → s.op p = s.op q → p = q
  histLt : ∀ e ∈ s.hist, e.op < s.nextOp
  histLe : ∀ e ∈ s.hist, e.commit ≤ s.commits.length
  /-- A commit that has begun has all blocks that were logged for it. -/
  begun : ∀ e ∈ s.hist, ∀ bs, s.commits[e.commit]? = some bs → e.block ∈ bs
  /-- The header lists what has been logged since the last commit began. -/
  pending : ∀ e ∈ s.hist, e.commit = s.commits.length → e.block ∈ s.log.lh
  listed : (∀ p, ¬ s.InCommit p) → ∀ b ∈ s.log.lh,
    ∃ e ∈ s.hist, e.commit = s.commits.length ∧ e.block = b
  covered : ∀ p, s.InCommit p → ∀ e ∈ s.hist, e.commit < s.commits.length
  /-- No commit has begun since an operation in progress began. -/
  current : ∀ p, s.phase p = .inOp → ∀ e ∈ s.hist, e.op = s.op p → e.commit = s.commits.length
  same : ∀ e ∈ s.hist, ∀ e' ∈ s.hist, e.op = e'.op → e.commit = e'.commit

omit [DecidableEq P] in
theorem inv_init (start size dev : ℕ) : Inv (init start size dev : GroupLog P) := by
  constructor <;> simp [init, running, Commits]

omit [DecidableEq P] in
theorem Inv.congr_core (h : Inv s) {f : P → LogPhase} (hf : ∀ p, core (f p) = core (s.phase p)) :
    Inv { s with phase := f } := by
  have hop : ∀ p, f p = .inOp ↔ s.phase p = .inOp := fun p => (core_eq_iff (hf p)).1
  have hcom : ∀ p, Commits { s with phase := f } p ↔ s.Commits p := fun p => by
    obtain ⟨-, h1, h2, h3⟩ := core_eq_iff (hf p)
    simp only [Commits, h1, h2, h3]
  have hin : ∀ p, InCommit { s with phase := f } p ↔ s.InCommit p := fun p => by
    obtain ⟨-, -, h2, h3⟩ := core_eq_iff (hf p)
    simp only [InCommit, h2, h3]
  have hrun : running { s with phase := f } = s.running := by
    simp only [running, hop]
  constructor
  · rw [hrun]; exact h.outstanding
  · simp only [hcom]; exact h.committing
  · simp only [hcom]; exact h.unique
  · intro p q hp hq
    exact h.alone p q ((hcom p).1 hp) ((hop q).1 hq)
  · exact h.nodup
  · intro p hp
    exact h.cleared p ((core_eq_iff (hf p)).2.2.2.1 hp)
  · intro h1 h2
    exact h.quiet (fun p hp => h1 p ((hop p).2 hp)) fun p hp => h2 p ((hcom p).2 hp)
  · intro p hp; exact h.opLt p ((hop p).1 hp)
  · intro p q hp hq; exact h.opInj p q ((hop p).1 hp) ((hop q).1 hq)
  · exact h.histLt
  · exact h.histLe
  · exact h.begun
  · exact h.pending
  · intro h1
    exact h.listed fun p hp => h1 p ((hin p).2 hp)
  · intro p hp; exact h.covered p ((hin p).1 hp)
  · intro p hp; exact h.current p ((hop p).1 hp)
  · exact h.same

/-! ### Every step keeps the invariant -/

theorem running_of_update (s : GroupLog P) (p : P) (ph : LogPhase)
    (h : s'.phase = update s.phase p ph) :
    s'.running = if ph = .inOp then insert p s.running else s.running.erase p := by
  ext q
  by_cases hq : q = p
  · subst hq; by_cases hph : ph = .inOp <;> simp [running, h, hph]
  · by_cases hph : ph = .inOp <;> simp [running, h, hph, hq]

section Steps

variable {s : GroupLog P} {p : P}

omit [DecidableEq P] in
theorem Inv.not_commits (h : Inv s) (hc : s.log.committing = false) (q : P) : ¬ s.Commits q :=
  fun hq => by
    have := h.committing.2 ⟨q, hq⟩
    rw [hc] at this
    cases this

omit [DecidableEq P] [Fintype P] in
theorem Commits.of_inCommit (h : s.InCommit p) : s.Commits p := Or.inr h

omit [DecidableEq P] in
theorem Inv.committing_eq_false (h : Inv s) (hp : s.phase p = .inOp) :
    s.log.committing = false := by
  by_contra hc
  obtain ⟨q, hq⟩ := h.committing.1 (by simpa using hc)
  exact h.alone q p hq hp

variable {l : Log}

theorem Inv.begin (h : Inv s) (hp : s.phase p = .idle ∨ s.phase p = .woken)
    (hl : s.log.beginOp = some l) :
    Inv { s with
      log := l
      phase := update s.phase p .inOp
      op := update s.op p s.nextOp
      nextOp := s.nextOp + 1 } := by
  obtain ⟨hc, -, rfl⟩ := Log.beginOp_eq_some hl
  have hnc := h.not_commits hc
  have hpo : s.phase p ≠ .inOp := by rcases hp with hp | hp <;> simp [hp]
  have hnc' : ∀ q, ¬ Commits { s with
      log := { s.log with outstanding := s.log.outstanding + 1 }
      phase := update s.phase p .inOp
      op := update s.op p s.nextOp
      nextOp := s.nextOp + 1 } q := by
    intro q hq
    by_cases hqp : q = p
    · subst hqp; simp [Commits] at hq
    · exact hnc q (by simpa [Commits, update_of_ne hqp] using hq)
  constructor
  · have hmem : p ∉ s.running := by simpa [running] using hpo
    rw [running_of_update s p .inOp (by rfl), if_pos rfl,
      card_insert_of_notMem hmem, h.outstanding]
    simp
  · simp only [hc, Bool.false_eq_true, false_iff, not_exists]
    exact hnc'
  · intro q _ hq; exact absurd hq (hnc' q)
  · intro q _ hq; exact absurd hq (hnc' q)
  · exact h.nodup
  · intro q hq; exact absurd (Or.inr (Or.inr hq)) (hnc' q)
  · intro hno _
    exact absurd (update_self p LogPhase.inOp s.phase) (hno p)
  · intro q hq
    by_cases hqp : q = p
    · subst hqp; simp
    · simp only [update_of_ne hqp] at hq ⊢
      exact lt_trans (h.opLt q hq) (Nat.lt_succ_self _)
  · intro q r hq hr hqr
    by_cases hqp : q = p <;> by_cases hrp : r = p
    · rw [hqp, hrp]
    · subst hqp
      simp only [update_of_ne hrp, update_self] at hr hqr
      have := h.opLt r hr
      omega
    · subst hrp
      simp only [update_of_ne hqp, update_self] at hq hqr
      have := h.opLt q hq
      omega
    · simp only [update_of_ne hqp, update_of_ne hrp] at hq hr hqr
      exact h.opInj q r hq hr hqr
  · intro e he; exact lt_trans (h.histLt e he) (Nat.lt_succ_self _)
  · exact h.histLe
  · exact h.begun
  · exact h.pending
  · intro _
    exact h.listed fun q hq => hnc q (Commits.of_inCommit hq)
  · intro q hq; exact absurd (Commits.of_inCommit hq) (hnc' q)
  · intro q hq e he heq
    by_cases hqp : q = p
    · subst hqp
      simp only [update_self] at heq
      have := h.histLt e he
      omega
    · simp only [update_of_ne hqp] at hq heq
      exact h.current q hq e he heq
  · exact h.same

omit [DecidableEq P] in
theorem Inv.logWrite (h : Inv s) (hp : s.phase p = .inOp) {b : ℕ} {new : Bool}
    (hl : s.log.logWrite b = .ok (l, new)) :
    Inv { s with log := l, hist := s.hist ++ [⟨s.op p, b, s.commits.length⟩] } := by
  obtain ⟨-, -, rfl⟩ := Log.logWrite_ok hl
  have hnc := h.not_commits (h.committing_eq_false hp)
  have hsub : ∀ c ∈ s.log.lh, c ∈ if b ∈ s.log.lh then s.log.lh else s.log.lh ++ [b] := by
    intro c hc
    split
    · exact hc
    · exact List.mem_append_left _ hc
  have hb : b ∈ if b ∈ s.log.lh then s.log.lh else s.log.lh ++ [b] := by
    split
    · assumption
    · simp
  have hmem : ∀ e, e ∈ s.hist ++ [⟨s.op p, b, s.commits.length⟩] →
      e ∈ s.hist ∨ e = ⟨s.op p, b, s.commits.length⟩ := fun e he => by
    simpa using he
  constructor
  · exact h.outstanding
  · exact h.committing
  · exact h.unique
  · exact h.alone
  · split
    · exact h.nodup
    · rename_i hnb
      exact List.nodup_append.2 ⟨h.nodup, by simp, by
        intro c hc d hd
        rw [List.mem_singleton] at hd
        rintro rfl
        exact hnb (hd ▸ hc)⟩
  · intro q hq; exact absurd (Or.inr (Or.inr hq)) (hnc q)
  · intro hno; exact absurd hp (hno p)
  · exact h.opLt
  · exact h.opInj
  · intro e he
    rcases hmem e he with he | rfl
    · exact h.histLt e he
    · exact h.opLt p hp
  · intro e he
    rcases hmem e he with he | rfl
    · exact h.histLe e he
    · exact le_rfl
  · intro e he bs hbs
    rcases hmem e he with he | rfl
    · exact h.begun e he bs hbs
    · simp at hbs
  · intro e he hce
    rcases hmem e he with he | rfl
    · exact hsub _ (h.pending e he hce)
    · exact hb
  · intro hno c hc
    have hc' : c ∈ s.log.lh ∨ c = b := by
      split at hc
      · exact Or.inl hc
      · simpa using hc
    rcases hc' with hc' | rfl
    · obtain ⟨e, he, h1, h2⟩ := h.listed hno c hc'
      exact ⟨e, List.mem_append_left _ he, h1, h2⟩
    · exact ⟨⟨s.op p, c, s.commits.length⟩, by simp, rfl, rfl⟩
  · intro q hq; exact absurd (Commits.of_inCommit hq) (hnc q)
  · intro q hq e he heq
    rcases hmem e he with he | rfl
    · exact h.current q hq e he heq
    · rfl
  · intro e he e' he' hee
    rcases hmem e he with he | rfl <;> rcases hmem e' he' with he' | rfl
    · exact h.same e he e' he' hee
    · exact h.current p hp e he hee
    · exact (h.current p hp e' he' hee.symm).symm
    · rfl

/-- A step of process `p` after which no process is in an operation, and no other one commits. -/
structure Settles (s s' : GroupLog P) (p : P) (ph : LogPhase) : Prop where
  phase : s'.phase = update s.phase p ph := by rfl
  hist : s'.hist = s.hist := by rfl
  nextOp : s'.nextOp = s.nextOp := by rfl
  idle : ph ≠ .inOp := by nofun
  alone : ∀ q ≠ p, s.phase q ≠ .inOp ∧ ¬ s.Commits q
  outstanding : s'.log.outstanding = 0
  committing : s'.log.committing = true ↔ ph = .mustCommit ∨ ph = .committing ∨ ph = .cleared
  nodup : s'.log.lh.Nodup
  empty : ph = .mustCommit ∨ ph = .committing ∨ s'.log.lh = []
  histLe : ∀ e ∈ s.hist, e.commit ≤ s'.commits.length
  begun : ∀ e ∈ s.hist, ∀ bs, s'.commits[e.commit]? = some bs → e.block ∈ bs
  pending : ∀ e ∈ s.hist, e.commit = s'.commits.length → e.block ∈ s'.log.lh
  listed : ph = .committing ∨ ∀ b ∈ s'.log.lh, ∃ e ∈ s.hist, e.commit = s'.commits.length ∧
    e.block = b
  covered : (ph = .mustCommit ∨ ph = .idle) ∨ ∀ e ∈ s.hist, e.commit < s'.commits.length

theorem Inv.settles {ph : LogPhase} (h : Inv s) (hs : s.Settles s' p ph) : Inv s' := by
  have hpc : s'.phase p = ph := by rw [hs.phase, update_self]
  have hother : ∀ q ≠ p, s'.phase q = s.phase q := fun q hq => by rw [hs.phase, update_of_ne hq]
  have hno : ∀ q, s'.phase q ≠ .inOp := by
    intro q
    by_cases hq : q = p
    · rw [hq, hpc]
      exact hs.idle
    · rw [hother q hq]
      exact (hs.alone q hq).1
  have hcom : ∀ q, s'.Commits q → q = p := by
    intro q hq
    by_contra hqp
    rw [Commits, hother q hqp] at hq
    exact (hs.alone q hqp).2 hq
  refine ⟨?_, ⟨fun hc => ?_, fun ⟨q, hq⟩ => ?_⟩, fun q r hq hr => by rw [hcom q hq, hcom r hr],
    fun _ q _ => hno q, hs.nodup, fun q hq => ?_, fun _ hn => ?_, fun q hq => absurd hq (hno q),
    fun q r hq => absurd hq (hno q), ?_, ?_, ?_, ?_, fun hn => ?_, fun q hq => ?_,
    fun q hq => absurd hq (hno q), ?_⟩
  · have hrun : s'.running = ∅ := filter_eq_empty_iff.2 fun q _ => hno q
    rw [hs.outstanding, hrun, card_empty, Nat.cast_zero]
  · exact ⟨p, by rw [Commits, hpc]; exact hs.committing.1 hc⟩
  · obtain rfl := hcom q hq
    rw [Commits, hpc] at hq
    exact hs.committing.2 hq
  · obtain rfl := hcom q (.inr (.inr hq))
    rw [hpc] at hq
    simpa [hq] using hs.empty
  · have hp := hn p
    rw [Commits, hpc] at hp
    exact (hs.empty.resolve_left fun he => hp (.inl he)).resolve_left fun he => hp (.inr (.inl he))
  · rw [hs.hist, hs.nextOp]
    exact h.histLt
  · rw [hs.hist]
    exact hs.histLe
  · rw [hs.hist]
    exact hs.begun
  · rw [hs.hist]
    exact hs.pending
  · rw [hs.hist]
    exact hs.listed.resolve_left fun he => hn p (.inl (hpc.trans he))
  · obtain rfl := hcom q (.inr hq)
    rw [InCommit, hpc] at hq
    rw [hs.hist]
    refine hs.covered.resolve_left ?_
    rcases hq with rfl | rfl <;> simp
  · rw [hs.hist]
    exact h.same

theorem Inv.endLast (h : Inv s) (hp : s.phase p = .inOp) (hl : s.log.endOp = .ok (l, true)) :
    Inv { s with log := l, phase := update s.phase p .mustCommit } := by
  obtain ⟨hc, hone, rfl⟩ := Log.endOp_ok hl
  have hnc := h.not_commits hc
  have hmem : p ∈ s.running := by simpa [running] using hp
  have hout : s.log.outstanding = 1 := of_decide_eq_true hone.symm
  -- `p` is the only process in an operation
  have hrun : ∀ q, s.phase q = .inOp → q = p := by
    have hcard : s.running.card ≤ 1 := by
      have := h.outstanding
      omega
    exact fun q hq => card_le_one.1 hcard q (by simpa [running] using hq) p hmem
  exact h.settles
    { alone := fun q hq => ⟨fun hin => hq (hrun q hin), hnc q⟩, outstanding := by simp [hout],
      committing := by simp, nodup := h.nodup, empty := .inl rfl, histLe := h.histLe,
      begun := h.begun, pending := h.pending,
      listed := .inr (h.listed fun q hq => hnc q (.of_inCommit hq)), covered := .inl (.inl rfl) }

theorem Inv.endOther (h : Inv s) (hp : s.phase p = .inOp) (hl : s.log.endOp = .ok (l, false)) :
    Inv { s with log := l, phase := s.wakeup p .idle } := by
  obtain ⟨hc, hone, rfl⟩ := Log.endOp_ok hl
  have hnc := h.not_commits hc
  have hmem : p ∈ s.running := by simpa [running] using hp
  have hop : ∀ q, update s.phase p .idle q = .inOp → s.phase q = .inOp := by
    intro q hq
    by_cases hqp : q = p
    · subst hqp; simp at hq
    · rwa [update_of_ne hqp] at hq
  -- another operation is still in progress
  obtain ⟨r, hr, hrp⟩ : ∃ r, s.phase r = .inOp ∧ r ≠ p := by
    have hcard : 1 < s.running.card := by
      have h1 := of_decide_eq_false hone.symm
      have h2 := h.outstanding
      have h3 := card_pos.2 ⟨p, hmem⟩
      omega
    obtain ⟨r, hr, hrp⟩ := exists_mem_ne hcard p
    exact ⟨r, by simpa [running] using hr, hrp⟩
  have hnc' : ∀ q, ¬ Commits { s with
      log := { s.log with outstanding := s.log.outstanding - 1, committing := false }
      phase := update s.phase p .idle } q := by
    intro q hq
    by_cases hqp : q = p
    · subst hqp; simp [Commits] at hq
    · exact hnc q (by simpa [Commits, update_of_ne hqp] using hq)
  have hplain : Inv { s with
      log := { s.log with outstanding := s.log.outstanding - 1, committing := false }
      phase := update s.phase p .idle } := by
    constructor
    · have hpos := card_pos.2 ⟨p, hmem⟩
      rw [running_of_update s p .idle (by rfl), if_neg (by simp),
        card_erase_of_mem hmem]
      have hout := h.outstanding
      dsimp only
      omega
    · simp only [Bool.false_eq_true, false_iff, not_exists]
      exact hnc'
    · intro q _ hq; exact absurd hq (hnc' q)
    · intro q _ hq; exact absurd hq (hnc' q)
    · exact h.nodup
    · intro q hq; exact absurd (Or.inr (Or.inr hq)) (hnc' q)
    · intro hno
      exact absurd (by simpa [update_of_ne hrp] using hr) (hno r)
    · intro q hq; exact h.opLt q (hop q hq)
    · intro q t hq ht; exact h.opInj q t (hop q hq) (hop t ht)
    · exact h.histLt
    · exact h.histLe
    · exact h.begun
    · exact h.pending
    · intro _
      exact h.listed fun q hq => hnc q (Commits.of_inCommit hq)
    · intro q hq; exact absurd (Commits.of_inCommit hq) (hnc' q)
    · intro q hq; exact h.current q (hop q hq)
    · exact h.same
  exact hplain.congr_core fun q => core_wakePhase _

omit [DecidableEq P] in
theorem Inv.alone_of_commits (h : Inv s) (hp : s.Commits p) :
    s.log.outstanding = 0 ∧ ∀ q ≠ p, s.phase q ≠ .inOp ∧ ¬ s.Commits q := by
  refine ⟨?_, fun q hq => ⟨h.alone p q hp, fun hc => hq (h.unique q p hc hp)⟩⟩
  have hrun : s.running = ∅ := filter_eq_empty_iff.2 fun q _ => h.alone p q hp
  rw [h.outstanding, hrun, card_empty, Nat.cast_zero]

theorem Inv.startCommit (h : Inv s) (hp : s.phase p = .mustCommit) : Inv { s with
      phase := update s.phase p .committing
      commits := s.commits ++ [s.log.lh] } := by
  obtain ⟨hout, halone⟩ := h.alone_of_commits (.inl hp)
  have hlt : ∀ e ∈ s.hist, e.commit < (s.commits ++ [s.log.lh]).length := by
    intro e he
    rw [List.length_append]
    exact Nat.lt_succ_of_le (h.histLe e he)
  refine h.settles
    { alone := halone, outstanding := hout, committing := by simp [h.committing.2 ⟨p, .inl hp⟩],
      nodup := h.nodup, empty := .inr (.inl rfl), histLe := fun e he => (hlt e he).le,
      begun := fun e he bs hbs => ?_, pending := fun e he hce => absurd hce (hlt e he).ne,
      listed := .inl rfl, covered := .inr hlt }
  rcases Nat.lt_or_eq_of_le (h.histLe e he) with hlt | heq
  · rw [List.getElem?_append_left hlt] at hbs
    exact h.begun e he bs hbs
  · -- the blocks logged since the last commit are those of the header
    rw [heq, List.getElem?_concat_length, Option.some_inj] at hbs
    exact hbs ▸ h.pending e he heq

theorem Inv.clearHead (h : Inv s) (hp : s.phase p = .committing) :
    Inv { s with log := s.log.clear, phase := update s.phase p .cleared } := by
  obtain ⟨hout, halone⟩ := h.alone_of_commits (.inr (.inl hp))
  have hlt := h.covered p (.inl hp)
  exact h.settles
    { alone := halone, outstanding := hout, committing := by simp [Log.clear,
      h.committing.2 ⟨p, .inr (.inl hp)⟩], nodup := List.nodup_nil, empty := .inr (.inr rfl),
      histLe := h.histLe, begun := h.begun, pending := fun e he hce => absurd hce (hlt e he).ne,
      listed := .inr nofun, covered := .inr hlt }

theorem Inv.endCommit (h : Inv s) (hp : s.phase p = .cleared) :
    Inv { s with log := s.log.endCommit, phase := s.wakeup p .idle } := by
  obtain ⟨hout, halone⟩ := h.alone_of_commits (.inr (.inr hp))
  have hlh := h.cleared p hp
  have hplain : Inv { s with log := s.log.endCommit, phase := update s.phase p .idle } := h.settles
    { alone := halone, outstanding := hout, committing := by simp [Log.endCommit], nodup := h.nodup,
      empty := .inr (.inr hlh), histLe := h.histLe, begun := h.begun, pending := h.pending,
      listed := .inr fun b hb => absurd (hlh ▸ hb) List.not_mem_nil, covered := .inl (.inr rfl) }
  exact hplain.congr_core fun q => core_wakePhase _

end Steps

theorem Inv.step {a : LogAct P} (h : Inv s) (hs : s.step a = some (.ok s')) : Inv s' := by
  cases move_of_step hs with
  | sleep p hp _ =>
    refine h.congr_core fun q => ?_
    by_cases hqp : q = p
    · subst hqp; rcases hp with hp | hp <;> simp [hp, core]
    · simp [update_of_ne hqp]
  | begin p l hp hl => exact h.begin hp hl
  | wake p hp =>
    refine h.congr_core fun q => ?_
    by_cases hqp : q = p
    · subst hqp; simp [hp, core]
    · simp [update_of_ne hqp]
  | logWrite p b l new hp hl => exact h.logWrite hp hl
  | endLast p l hp hl => exact h.endLast hp hl
  | endOther p l hp hl => exact h.endOther hp hl
  | startCommit p hp => exact h.startCommit hp
  | clearHead p hp => exact h.clearHead hp
  | endCommit p hp => exact h.endCommit hp

theorem inv_of_reach {start size dev : ℕ} {ok : GroupLog P → LogAct P → Prop}
    (h : Runs.Reach step ok (init start size dev) s) : Inv s :=
  h.invariant (inv_init start size dev) fun _ _ _ hi _ hs => hi.step hs

/-! ### Group commit -/

section Panics

omit [Fintype P]

variable {s : GroupLog P}

theorem panic_of_step {a : LogAct P} {e : LogPanic} (h : s.step a = some (.error e)) :
    (∃ p b, s.phase p = .inOp ∧ s.log.logWrite b = .error e) ∨
      ∃ p, s.phase p = .inOp ∧ s.log.endOp = .error e := by
  cases a with
  | logWrite p b =>
    simp only [step] at h
    split at h
    · rename_i hp
      split at h <;> rename_i hb <;> cases h
      exact .inl ⟨p, b, hp, hb⟩
    · cases h
  | endOp p =>
    simp only [step] at h
    split at h
    · rename_i hp
      split at h <;> rename_i hb <;> cases h
      exact .inr ⟨p, hp, hb⟩
    · cases h
  | beginOp p =>
    simp only [step] at h
    split at h
    · split at h <;> cases h
    · cases h
  | wake p => simp only [step] at h; split at h <;> cases h
  | startCommit p => simp only [step] at h; split at h <;> cases h
  | clearHead p => simp only [step] at h; split at h <;> cases h
  | endCommit p => simp only [step] at h; split at h <;> cases h

variable [Fintype P]

variable {p : P}

omit [DecidableEq P] in
theorem Inv.endOp_ne_error (h : Inv s) (hp : s.phase p = .inOp) (e : LogPanic) :
    s.log.endOp ≠ .error e := by
  intro he
  have hc := Log.endOp_error he
  rw [h.committing_eq_false hp] at hc
  cases hc

omit [DecidableEq P] in
theorem Inv.one_le_outstanding (h : Inv s) (hp : s.phase p = .inOp) : 1 ≤ s.log.outstanding := by
  have hpos := card_pos.2 ⟨p, show p ∈ s.running by simpa [running] using hp⟩
  have hout := h.outstanding
  omega

theorem Inv.eq_tooBig (h : Inv s) {a : LogAct P} {e : LogPanic} (he : s.step a = some (.error e)) :
    e = .tooBigATransaction := by
  rcases panic_of_step he with ⟨p, b, hp, hb⟩ | ⟨p, hp, hb⟩
  · cases e with
    | tooBigATransaction => rfl
    | logWriteOutsideOfTrans =>
      have h1 := Log.outstanding_lt_of_logWrite_outside hb
      have h2 := h.one_le_outstanding hp
      omega
    | logCommitting => exact absurd hb (Log.logWrite_ne_committing _ _)
  · exact absurd hb (h.endOp_ne_error hp e)

theorem Inv.sleeps (h : Inv s) {q : P} (hp : s.InCommit p) {s' : GroupLog P}
    (hs : s.step (.beginOp q) = some (.ok s')) : s'.phase q = .asleep := by
  have hc := h.committing.2 ⟨p, Commits.of_inCommit hp⟩
  cases move_of_step hs with
  | sleep _ _ _ => exact update_self ..
  | begin _ l _ hl =>
    rw [(Log.beginOp_eq_some hl).1] at hc
    cases hc

end Panics

/-- **A commit never splits an operation.**  In every run, `commit` is run with no operation
outstanding and `log.committing` set; while it runs, `begin_op` only goes to sleep and no process
can be in a `log_write`; the two panics about the use of the log cannot happen; the header lists no
block twice; and for every operation that has logged something there is exactly one commit that its
blocks belong to, which has them all (or, if it has not begun, will find them all in the header). -/
theorem group_commit {start size dev : ℕ} {s : GroupLog P}
    (h : Runs.Reach step (fun _ _ => True) (init start size dev) s) :
    (∀ p, s.InCommit p → s.log.outstanding = 0 ∧ s.log.committing = true) ∧
    (∀ p q, s.InCommit p →
      (∀ s', s.step (.beginOp q) = some (.ok s') → s'.phase q = .asleep) ∧
        ∀ b, s.step (.logWrite q b) = none) ∧
    (∀ a, s.step a ≠ some (.error .logCommitting) ∧
      s.step a ≠ some (.error .logWriteOutsideOfTrans)) ∧
    s.log.lh.Nodup ∧
    ∀ o, (∃ e ∈ s.hist, e.op = o) → ∃! c, ∀ e ∈ s.hist, e.op = o →
      e.commit = c ∧ ((∃ bs, s.commits[c]? = some bs ∧ e.block ∈ bs) ∨
        c = s.commits.length ∧ e.block ∈ s.log.lh) := by
  have hi := inv_of_reach h
  refine ⟨?_, ?_, fun a => ⟨fun he => ?_, fun he => ?_⟩, hi.nodup, ?_⟩
  · intro p hp
    have hcp := Commits.of_inCommit hp
    have hempty : s.running = ∅ := by
      ext q
      simpa [running] using hi.alone p q hcp
    exact ⟨by simp [hi.outstanding, hempty], hi.committing.2 ⟨p, hcp⟩⟩
  · intro p q hp
    refine ⟨fun s' hs => hi.sleeps hp hs, fun b => ?_⟩
    exact if_neg (hi.alone p q (Commits.of_inCommit hp))
  · cases hi.eq_tooBig he
  · cases hi.eq_tooBig he
  · rintro _ ⟨e0, he0, rfl⟩
    refine ⟨e0.commit, fun e he heq => ?_, fun c hc => ((hc e0 he0 rfl).1).symm⟩
    have hcommit := hi.same e he e0 he0 heq
    refine ⟨hcommit, ?_⟩
    rw [← hcommit]
    rcases Nat.lt_or_eq_of_le (hi.histLe e he) with hlt | hle
    · have hget := List.getElem?_eq_getElem hlt
      exact .inl ⟨_, hget, hi.begun e he _ hget⟩
    · exact .inr ⟨hle, hi.pending e he hle⟩

/-- Two operations that overlap are committed together by the later `end_op`. -/
theorem group_commit_two : ∃ s : GroupLog (Fin 2),
    Runs.Reach step (fun _ _ => True) (init 2 logSize 1) s ∧ s.InCommit 1 ∧
      s.log.outstanding = 0 ∧ s.log.committing = true := by
  have hrun : ∃ s : GroupLog (Fin 2), Runs.Reach step (fun _ _ => True) (init 2 logSize 1) s ∧
      s.phase 1 = .committing :=
    Runs.exists_reach_of_exec [.beginOp 0, .beginOp 1, .logWrite 0 46, .logWrite 1 47, .endOp 0,
      .logWrite 1 46, .endOp 1, .startCommit 1] (by decide)
  obtain ⟨s, hs, hp⟩ := hrun
  exact ⟨s, hs, .inl hp, (group_commit hs).1 1 (.inl hp)⟩

end GroupLog

end CsklubOs
