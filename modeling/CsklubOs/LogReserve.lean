/-
**The reservation that `begin_op` makes.**

`begin_op` lets an operation start when `log.lh.n` and `MAXOPBLOCKS` blocks for each operation in
progress, the new one included, fit in `LOGSIZE`.  The first of the `LOGSIZE` blocks that `mkfs`
lays out is the header, so that `log_write` panics at `LOGSIZE - 1`: three operations of
`MAXOPBLOCKS` blocks are admitted at a time, and the last block of the third one does not fit.

Main definitions:

* `GroupLog.opBlocks`, `GroupLog.transBlocks` — what was logged, counted from the calls of
  `log_write`.

Main results:

* `GroupLog.tooBig_iff` — when the panic is reached;
* `GroupLog.tooBig_three` — a run that reaches it.
-/

import CsklubOs.GroupCommit

set_option autoImplicit false

namespace CsklubOs.GroupLog

open Function List Finset

variable {P : Type} [DecidableEq P]

/-- The distinct blocks that the latest operation of `p` has logged. -/
def opBlocks (s : GroupLog P) (p : P) : Finset ℕ :=
  ((s.hist.filter fun e => e.op = s.op p).map Logged.block).toFinset

/-- The distinct blocks that have been logged since the last commit began. -/
def transBlocks (s : GroupLog P) : Finset ℕ :=
  ((s.hist.filter fun e => e.commit = s.commits.length).map Logged.block).toFinset

/-- No operation logs more than `n` distinct blocks. -/
def Bounded (n : ℕ) (s : GroupLog P) : LogAct P → Prop
  | .logWrite p b => (insert b (s.opBlocks p)).card ≤ n
  | _ => True

instance (n : ℕ) (s : GroupLog P) (a : LogAct P) : Decidable (Bounded n s a) := by
  cases a <;> unfold Bounded <;> infer_instance

variable {b : ℕ} {p : P} {s s' : GroupLog P}

section

omit [DecidableEq P]

theorem mem_opBlocks : b ∈ s.opBlocks p ↔ ∃ e ∈ s.hist, e.op = s.op p ∧ e.block = b := by
  simp [opBlocks, and_assoc]

theorem mem_transBlocks :
    b ∈ s.transBlocks ↔ ∃ e ∈ s.hist, e.commit = s.commits.length ∧ e.block = b := by
  simp [transBlocks, and_assoc]

theorem opBlocks_of_append {e : Logged} (hop : s'.op = s.op) (hhist : s'.hist = s.hist ++ [e])
    (p : P) :
    s'.opBlocks p = if e.op = s.op p then insert e.block (s.opBlocks p) else s.opBlocks p := by
  unfold opBlocks
  split
  · rename_i he
    simp [hop, hhist, he, filter_append, union_comm]
  · rename_i he
    simp [hop, hhist, he, filter_append]

end

variable [Fintype P] {s : GroupLog P}

omit [DecidableEq P] in
theorem Inv.length_lh (h : Inv s) (hp : s.phase p = .inOp) :
    s.log.lh.length = s.transBlocks.card := by
  have hnc := h.not_commits (h.committing_eq_false hp)
  have hset : s.transBlocks = s.log.lh.toFinset := by
    ext b
    rw [mem_transBlocks, mem_toFinset]
    constructor
    · rintro ⟨e, he, hc, rfl⟩
      exact h.pending e he hc
    · exact h.listed (fun q hq => hnc q (Commits.of_inCommit hq)) b
  rw [hset, toFinset_card_of_nodup h.nodup]

omit [DecidableEq P] in
theorem Inv.opBlocks_subset (h : Inv s) (hp : s.phase p = .inOp) :
    s.opBlocks p ⊆ s.log.lh.toFinset := by
  intro b hb
  obtain ⟨e, he, hop, rfl⟩ := mem_opBlocks.1 hb
  exact mem_toFinset.2 (h.pending e he (h.current p hp e he hop))

/-! ### One block less for each operation -/

/-- How many more distinct blocks an operation may log if it is to log fewer than `MAXOPBLOCKS`. -/
def room (s : GroupLog P) (p : P) : ℕ := maxOpBlocks - 1 - (s.opBlocks p).card

/-- The header has room for what the operations in progress may still log, with a block to spare. -/
def Reserved (s : GroupLog P) : Prop :=
  s.log.lh.length + ∑ p ∈ s.running, s.room p ≤ logSize - 2

omit [DecidableEq P] in
theorem reserved_init (start size dev : ℕ) : Reserved (init start size dev : GroupLog P) := by
  simp [Reserved, running, init]

omit [DecidableEq P] in
theorem Reserved.of_subset (h : Reserved s) (hlh : s'.log.lh.length ≤ s.log.lh.length)
    (hrun : s'.running ⊆ s.running) (hhist : s'.hist = s.hist) (hop : s'.op = s.op) :
    Reserved s' := by
  have hroom : s'.room = s.room := by
    funext p
    simp only [room, opBlocks, hhist, hop]
  have hsum : ∑ p ∈ s'.running, s.room p ≤ ∑ p ∈ s.running, s.room p :=
    sum_le_sum_of_subset hrun
  unfold Reserved at *
  rw [hroom]
  omega

theorem Reserved.begin (hi : Inv s) {l : Log} (hp : s.phase p = .idle ∨ s.phase p = .woken)
    (hl : s.log.beginOp = some l) :
    Reserved { s with
      log := l
      phase := update s.phase p .inOp
      op := update s.op p s.nextOp
      nextOp := s.nextOp + 1 } := by
  obtain ⟨hc, hfits, rfl⟩ := Log.beginOp_eq_some hl
  have hmem : p ∉ s.running := by rcases hp with hp | hp <;> simp [running, hp]
  have hsum := sum_le_card_nsmul (insert p s.running) (room { s with
    log := { s.log with outstanding := s.log.outstanding + 1 }
    phase := update s.phase p .inOp
    op := update s.op p s.nextOp
    nextOp := s.nextOp + 1 }) (maxOpBlocks - 1) fun q _ => Nat.sub_le _ _
  rw [card_insert_of_notMem hmem, smul_eq_mul] at hsum
  rw [hi.outstanding] at hfits
  -- with no other operation in progress the header is empty
  have hquiet : s.running.card = 0 → s.log.lh.length = 0 := by
    intro h0
    rw [card_eq_zero] at h0
    rw [hi.quiet (fun q hq => ?_) (hi.not_commits hc), length_nil]
    have : q ∈ s.running := by simpa [running] using hq
    simp [h0] at this
  unfold Reserved
  rw [running_of_update s p .inOp (by rfl), if_pos rfl]
  simp only [maxOpBlocks, logSize] at *
  omega

omit [DecidableEq P] in
theorem Reserved.logWrite (h : Reserved s) (hi : Inv s) (hp : s.phase p = .inOp)
    (hb : Bounded (maxOpBlocks - 1) s (.logWrite p b)) (hphase : s'.phase = s.phase)
    (hop : s'.op = s.op) (hhist : s'.hist = s.hist ++ [⟨s.op p, b, s.commits.length⟩])
    (hlh : s'.log.lh = if b ∈ s.log.lh then s.log.lh else s.log.lh ++ [b]) : Reserved s' := by
  classical
  have hmem : p ∈ s.running := by simpa [running] using hp
  have hrun : s'.running = s.running := by simp only [running, hphase]
  have hself : s'.room p = maxOpBlocks - 1 - (insert b (s.opBlocks p)).card := by
    rw [room, opBlocks_of_append hop hhist, if_pos rfl]
  have hother : ∀ q ∈ s.running.erase p, s'.room q = s.room q := by
    intro q hq
    obtain ⟨hqp, hq⟩ := mem_erase.1 hq
    have hne : s.op p ≠ s.op q := fun heq =>
      hqp (hi.opInj p q hp (by simpa [running] using hq) heq).symm
    rw [room, room, opBlocks_of_append hop hhist, if_neg hne]
  have hsum : ∑ q ∈ s.running.erase p, s'.room q = ∑ q ∈ s.running.erase p, s.room q :=
    sum_congr rfl hother
  have hroom : s.room p = maxOpBlocks - 1 - (s.opBlocks p).card := rfl
  unfold Reserved at *
  rw [← add_sum_erase _ _ hmem] at h
  rw [hrun, ← add_sum_erase _ _ hmem, hself, hlh]
  simp only [Bounded] at hb
  by_cases hnew : b ∈ s.log.lh
  · have hle := card_le_card (subset_insert b (s.opBlocks p))
    rw [if_pos hnew]
    omega
  · -- a block that is new to the header is new to the operation
    have hnew' : b ∉ s.opBlocks p := fun hmem' =>
      hnew (mem_toFinset.1 (hi.opBlocks_subset hp hmem'))
    rw [card_insert_of_notMem hnew'] at hb ⊢
    rw [if_neg hnew, length_append, length_singleton]
    omega

/-- **One block less for each operation suffices.** -/
theorem reserved_of_reach {start size dev : ℕ}
    (h : Runs.Reach step (Bounded (maxOpBlocks - 1)) (init start size dev) s) : Reserved s := by
  have hboth : Inv s ∧ Reserved s := by
    refine h.invariant (I := fun s => Inv s ∧ Reserved s)
      ⟨inv_init start size dev, reserved_init start size dev⟩ ?_
    rintro s a s' ⟨hi, hr⟩ hb hs
    refine ⟨hi.step hs, ?_⟩
    have hphase : ∀ {p : P} {ph : LogPhase} {s' : GroupLog P},
        s'.phase = update s.phase p ph → ph ≠ .inOp → s'.running ⊆ s.running := by
      intro p ph s' hs' hph
      rw [running_of_update s p ph hs', if_neg hph]
      exact Finset.erase_subset _ _
    have hwake : ∀ {p : P} {s' : GroupLog P},
        s'.phase = s.wakeup p .idle → s'.running ⊆ s.running := by
      intro p s' hs' q hq
      simp only [running, hs', wakeup, Finset.mem_filter, Finset.mem_univ, true_and] at hq ⊢
      by_cases hqp : q = p
      · subst hqp; simp [wakePhase] at hq
      · rw [update_of_ne hqp] at hq
        exact ((core_eq_iff (core_wakePhase (s.phase q))).1).1 hq
    cases move_of_step hs with
    | sleep p _ _ => exact hr.of_subset le_rfl (hphase rfl (by simp)) rfl rfl
    | begin p l hp hl => exact Reserved.begin hi hp hl
    | wake p _ => exact hr.of_subset le_rfl (hphase rfl (by simp)) rfl rfl
    | logWrite p b l new hp hl =>
      obtain ⟨-, -, rfl⟩ := Log.logWrite_ok hl
      exact hr.logWrite hi hp hb rfl rfl rfl rfl
    | endLast p l _ hl =>
      obtain ⟨-, -, rfl⟩ := Log.endOp_ok hl
      exact hr.of_subset le_rfl (hphase rfl (by simp)) rfl rfl
    | endOther p l _ hl =>
      obtain ⟨-, -, rfl⟩ := Log.endOp_ok hl
      exact hr.of_subset le_rfl (hwake rfl) rfl rfl
    | startCommit p _ => exact hr.of_subset le_rfl (hphase rfl (by simp)) rfl rfl
    | clearHead p _ => exact hr.of_subset (Nat.zero_le _) (hphase rfl (by simp)) rfl rfl
    | endCommit p _ => exact hr.of_subset le_rfl (hwake rfl) rfl rfl
  exact hboth.2

/-! ### When the transaction is too big -/

omit [DecidableEq P] [Fintype P] in
theorem step_logWrite_tooBig_iff [DecidableEq P] (hsize : s.log.size = logSize) :
    s.step (.logWrite p b) = some (.error .tooBigATransaction) ↔
      s.phase p = .inOp ∧ logSize - 1 ≤ s.log.lh.length := by
  have hlog := Log.logWrite_tooBig_iff s.log b
  simp only [step]
  split
  · rename_i hp
    split
    · rename_i e he
      rw [he] at hlog
      simp only [Except.error.injEq] at hlog
      simp only [Option.some.injEq, Except.error.injEq, hlog, hp, true_and]
      omega
    · rename_i he
      rw [he] at hlog
      simp only [reduceCtorEq, false_iff] at hlog
      simp only [Option.some.injEq, reduceCtorEq, hp, true_and, false_iff]
      omega
  · rename_i hp
    simp [hp]

omit [Fintype P] in
theorem size_of_reach {start size dev : ℕ} {ok : GroupLog P → LogAct P → Prop}
    (h : Runs.Reach step ok (init start size dev) s) : s.log.size = size := by
  refine h.invariant (I := fun s => s.log.size = size) rfl ?_
  intro s a s' hsize _ hs
  cases move_of_step hs with
  | begin p l hp hl => obtain ⟨-, -, rfl⟩ := Log.beginOp_eq_some hl; exact hsize
  | logWrite p b l new hp hl => obtain ⟨-, -, rfl⟩ := Log.logWrite_ok hl; exact hsize
  | endLast p l _ hl => obtain ⟨-, -, rfl⟩ := Log.endOp_ok hl; exact hsize
  | endOther p l _ hl => obtain ⟨-, -, rfl⟩ := Log.endOp_ok hl; exact hsize
  | _ => exact hsize

/-- **When `log_write` panics because the transaction is too big.**  On a log of `LOGSIZE` blocks,
in every run in which no operation logs more than `MAXOPBLOCKS` distinct blocks, a `log_write`
panics exactly if the operations since the last commit have already logged `LOGSIZE - 1` distinct
blocks.  If no operation logs more than `MAXOPBLOCKS - 1` distinct blocks, that never happens. -/
theorem tooBig_iff (start dev : ℕ) :
    (∀ s : GroupLog P, Runs.Reach step (Bounded maxOpBlocks) (init start logSize dev) s →
      ∀ p b, s.phase p = .inOp →
        (s.step (.logWrite p b) = some (.error .tooBigATransaction) ↔
          logSize - 1 ≤ s.transBlocks.card)) ∧
    ∀ s : GroupLog P, Runs.Reach step (Bounded (maxOpBlocks - 1)) (init start logSize dev) s →
      ∀ p b, s.step (.logWrite p b) ≠ some (.error .tooBigATransaction) := by
  constructor
  · intro s h p b hp
    rw [step_logWrite_tooBig_iff (size_of_reach h), (inv_of_reach h).length_lh hp]
    simp [hp]
  · intro s h p b hpanic
    obtain ⟨-, hlen⟩ := (step_logWrite_tooBig_iff (size_of_reach h)).1 hpanic
    have hres := reserved_of_reach h
    simp only [Reserved, logSize, maxOpBlocks] at *
    omega

/-- Three operations that log `MAXOPBLOCKS` distinct blocks each are admitted together, and the
`log_write` of the thirtieth block panics. -/
theorem tooBig_three : ∃ s : GroupLog (Fin 3),
    Runs.Reach step (Bounded maxOpBlocks) (init 2 logSize 1) s ∧
      Bounded maxOpBlocks s (.logWrite 2 75) ∧
      s.step (.logWrite 2 75) = some (.error .tooBigATransaction) := by
  have hrun : ∃ s : GroupLog (Fin 3),
      Runs.Reach step (Bounded maxOpBlocks) (init 2 logSize 1) s ∧
        Bounded maxOpBlocks s (.logWrite 2 75) ∧ s.phase 2 = .inOp ∧ 29 ≤ s.log.lh.length :=
    Runs.exists_reach_of_exec
      ([.beginOp 0, .beginOp 1, .beginOp 2] ++ (List.range 10).map
        (fun i => .logWrite 0 (46 + i)) ++ (List.range 10).map (fun i => .logWrite 1 (56 + i)) ++
        (List.range 9).map fun i => .logWrite 2 (66 + i)) (by decide +kernel)
  obtain ⟨s, hs, hb, hp, hlen⟩ := hrun
  exact ⟨s, hs, hb, (step_logWrite_tooBig_iff (size_of_reach hs)).2 ⟨hp, hlen⟩⟩

end CsklubOs.GroupLog

