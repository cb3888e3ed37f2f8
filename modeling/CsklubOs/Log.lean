/-
**The in-memory log of `kernel/log.c`.**

`struct log` counts the file-system calls that are in progress, says whether a commit is running and
lists, in `log.lh`, the home block numbers of the current transaction.  The code never reads an
entry of `log.lh` at or above `log.lh.n`, which is the length of the list here.

Main definitions:

* `Log.beginOp`, `Log.logWrite`, `Log.endOp` — the sections of the functions that run under
  `log.lock`;
* `putHeader`, `getHeader` — the header block that `write_head` and `read_head` exchange with the
  disk.

Main results:

* `getHeader_putHeader` — a header is read back as it was written.
-/

import CsklubOs.Block

set_option autoImplicit false

namespace CsklubOs

open List

/-- The panics of `log.c`. -/
inductive LogPanic
  | tooBigATransaction
  | logWriteOutsideOfTrans
  | logCommitting
  deriving DecidableEq, Repr

/-- `struct log`, without its spin-lock. -/
structure Log where
  /-- The block number of the on-disk header. -/
  start : ℕ
  /-- The number of blocks of the on-disk log, header included. -/
  size : ℕ
  dev : ℕ
  /-- How many file-system calls are executing. -/
  outstanding : ℤ
  /-- A commit is running. -/
  committing : Bool
  /-- `lh.block[0..lh.n)`: the home block numbers of the current transaction. -/
  lh : List ℕ
  deriving DecidableEq

namespace Log

/-- One pass of the loop of `begin_op`; `none` is a caller that goes to sleep. -/
def beginOp (l : Log) : Option Log :=
  if l.committing then none
  else if (l.lh.length : ℤ) + (l.outstanding + 1) * maxOpBlocks > logSize then none
  else some { l with outstanding := l.outstanding + 1 }

/-- `log_write(b)` for a buffer of block `blockno`; the flag says that the buffer has to be
pinned. -/
def logWrite (l : Log) (blockno : ℕ) : Except LogPanic (Log × Bool) :=
  if l.lh.length ≥ logSize ∨ (l.lh.length : ℤ) ≥ (l.size : ℤ) - 1 then
    .error .tooBigATransaction
  else if l.outstanding < 1 then
    .error .logWriteOutsideOfTrans
  else
    let i := l.lh.idxOf blockno
    if i = l.lh.length then
      .ok ({ l with lh := l.lh ++ [blockno] }, true)
    else
      -- log absorption: the entry is overwritten with the number it already holds
      .ok ({ l with lh := l.lh.set i blockno }, false)

/-- The first locked section of `end_op`; the flag is `do_commit`. -/
def endOp (l : Log) : Except LogPanic (Log × Bool) :=
  let l := { l with outstanding := l.outstanding - 1 }
  if l.committing then .error .logCommitting
  else if l.outstanding = 0 then .ok ({ l with committing := true }, true)
  else .ok (l, false)

/-- The second locked section of `end_op`, after `commit` has returned. -/
def endCommit (l : Log) : Log := { l with committing := false }

/-- `log.lh.n = 0`. -/
def clear (l : Log) : Log := { l with lh := [] }

/-! ### What the sections do -/

/-- The tests that `log_write` makes before it touches the header. -/
def Admits (l : Log) : Prop :=
  l.lh.length < logSize ∧ (l.lh.length : ℤ) < (l.size : ℤ) - 1 ∧ 1 ≤ l.outstanding

instance (l : Log) : Decidable l.Admits := inferInstanceAs (Decidable (_ ∧ _ ∧ _))

variable {b : ℕ} {l l' : Log}

theorem set_idxOf_eq_self {bs : List ℕ} : bs.set (bs.idxOf b) b = bs := by
  induction bs with
  | nil => rfl
  | cons c bs ih =>
    by_cases h : c = b
    · subst h; simp
    · rw [idxOf_cons_ne _ h, set_cons_succ, ih]

theorem logWrite_eq_of_admits (h : l.Admits) (b : ℕ) :
    l.logWrite b =
      .ok (if b ∈ l.lh then (l, false) else ({ l with lh := l.lh ++ [b] }, true)) := by
  obtain ⟨h1, h2, h3⟩ := h
  have hne : ¬ (l.lh.length ≥ logSize ∨ (l.lh.length : ℤ) ≥ (l.size : ℤ) - 1) := by omega
  simp only [logWrite, if_neg hne, if_neg (not_lt.2 h3)]
  by_cases hb : b ∈ l.lh
  · have hi : l.lh.idxOf b ≠ l.lh.length := ne_of_lt (idxOf_lt_length_of_mem hb)
    rw [if_neg hi, if_pos hb, set_idxOf_eq_self]
  · rw [if_pos (idxOf_eq_length hb), if_neg hb]

/-- **A `log_write` that returns** has passed its tests, and has added the block number to the
header if it was not there. -/
theorem logWrite_ok {new : Bool} (h : l.logWrite b = .ok (l', new)) :
    l.Admits ∧ new = decide (b ∉ l.lh) ∧
      l' = { l with lh := if b ∈ l.lh then l.lh else l.lh ++ [b] } := by
  by_cases ha : l.Admits
  · refine ⟨ha, ?_⟩
    rw [logWrite_eq_of_admits ha] at h
    by_cases hb : b ∈ l.lh
    · simp only [if_pos hb, Except.ok.injEq, Prod.mk.injEq] at h
      simp [hb, ← h.1, ← h.2]
    · simp only [if_neg hb, Except.ok.injEq, Prod.mk.injEq] at h
      simp [hb, ← h.1, ← h.2]
  · exfalso
    unfold logWrite at h
    split at h
    · cases h
    · rename_i h1
      split at h
      · cases h
      · rename_i h2
        exact ha ⟨by omega, by omega, by omega⟩

theorem logWrite_tooBig_iff (l : Log) (b : ℕ) :
    l.logWrite b = .error .tooBigATransaction ↔
      l.lh.length ≥ logSize ∨ (l.lh.length : ℤ) ≥ (l.size : ℤ) - 1 := by
  constructor
  · intro h
    unfold logWrite at h
    split at h
    · assumption
    · split at h
      · cases h
      · simp only at h
        split at h <;> cases h
  · intro h
    rw [logWrite, if_pos h]

theorem outstanding_lt_of_logWrite_outside (h : l.logWrite b = .error .logWriteOutsideOfTrans) :
    l.outstanding < 1 := by
  unfold logWrite at h
  split at h
  · cases h
  · split at h
    · assumption
    · simp only at h
      split at h <;> cases h

theorem logWrite_ne_committing (l : Log) (b : ℕ) : l.logWrite b ≠ .error .logCommitting := by
  unfold logWrite
  split
  · simp
  · split
    · simp
    · simp only
      split <;> simp

theorem beginOp_eq_some (h : l.beginOp = some l') :
    l.committing = false ∧
      (l.lh.length : ℤ) + (l.outstanding + 1) * maxOpBlocks ≤ logSize ∧
      l' = { l with outstanding := l.outstanding + 1 } := by
  unfold beginOp at h
  split at h
  · cases h
  · rename_i hc
    split at h
    · cases h
    · rename_i hs
      exact ⟨by simpa using hc, by omega, (Option.some.inj h).symm⟩

theorem endOp_ok {c : Bool} (h : l.endOp = .ok (l', c)) :
    l.committing = false ∧ c = decide (l.outstanding = 1) ∧
      l' = { l with outstanding := l.outstanding - 1, committing := c } := by
  simp only [endOp] at h
  split at h
  · cases h
  · rename_i hc
    have hc' : l.committing = false := by simpa using hc
    split at h
    · rename_i ho
      obtain ⟨h1, h2⟩ := Prod.mk.inj (Except.ok.inj h)
      exact ⟨hc', by rw [← h2, eq_comm, decide_eq_true_eq]; omega, by rw [← h1, ← h2]⟩
    · rename_i ho
      obtain ⟨h1, h2⟩ := Prod.mk.inj (Except.ok.inj h)
      refine ⟨hc', by rw [← h2, eq_comm, decide_eq_false_iff_not]; omega, ?_⟩
      rw [← h1, ← h2, hc']

theorem endOp_error {e : LogPanic} (h : l.endOp = .error e) : l.committing = true := by
  simp only [endOp] at h
  split at h
  · assumption
  · split at h <;> cases h

end Log

/-! ### The header block -/

/-- The loop of `write_head` over `block[i]`, from entry `i` on. -/
def putBlocks (hb : Block) (i : ℕ) : List ℕ → Block
  | [] => hb
  | b :: bs => putBlocks (hb.setWord (4 + 4 * i) b) (i + 1) bs

/-- What `write_head` stores in the header block: `n` and the first `n` entries.  The rest of the
block keeps what it held. -/
def putHeader (hb : Block) (lh : List ℕ) : Block :=
  putBlocks (hb.setWord 0 lh.length) 0 lh

/-- What `read_head` takes from the header block.  `n` is a signed `int`, and the loop does nothing
if it is negative. -/
def getHeader (hb : Block) : List ℕ :=
  (List.range (Int.bmod (hb.word 0) (2 ^ 32)).toNat).map fun i => hb.word (4 + 4 * i)

theorem word_putBlocks_of_lt (hb : Block) (i : ℕ) (bs : List ℕ) {o : ℕ} (ho : o + 4 ≤ 4 + 4 * i) :
    (putBlocks hb i bs).word o = hb.word o := by
  induction bs generalizing hb i with
  | nil => rfl
  | cons b bs ih =>
    rw [putBlocks, ih _ _ (by omega), Block.word_setWord_of_disjoint _ _ (by omega)]

theorem word_putBlocks (hb : Block) (i : ℕ) (bs : List ℕ) (hlen : i + bs.length ≤ 255) {j : ℕ}
    (hj : j < bs.length) : (putBlocks hb i bs).word (4 + 4 * (i + j)) = bs.getD j 0 % 2 ^ 32 := by
  induction bs generalizing hb i j with
  | nil => simp at hj
  | cons b bs ih =>
    rw [length_cons] at hlen hj
    rw [putBlocks]
    cases j with
    | zero =>
      have ho : 4 + 4 * i + 4 ≤ bSize := by simp only [bSize]; omega
      rw [Nat.add_zero i, word_putBlocks_of_lt _ _ _ (by omega), Block.word_setWord _ _ ho,
        getD_cons_zero]
    | succ j =>
      have h := ih (hb.setWord (4 + 4 * i) b) (i + 1) (by omega) (j := j) (by omega)
      rw [getD_cons_succ, ← h]
      congr 1
      omega

theorem word_putHeader_zero (hb : Block) {lh : List ℕ} (hlen : lh.length ≤ 255) :
    (putHeader hb lh).word 0 = lh.length := by
  rw [putHeader, word_putBlocks_of_lt _ _ _ (by omega), Block.word_setWord _ _ (by decide)]
  exact Nat.mod_eq_of_lt (by omega)

/-- **The header block is read back as it was written**, for the block numbers of a `uint` and at
most as many of them as the block has room for. -/
theorem getHeader_putHeader (hb : Block) {lh : List ℕ} (hlen : lh.length ≤ 255)
    (hlt : ∀ b ∈ lh, b < 2 ^ 32) : getHeader (putHeader hb lh) = lh := by
  have hn : (Int.bmod ((putHeader hb lh).word 0) (2 ^ 32)).toNat = lh.length := by
    rw [word_putHeader_zero _ hlen, Int.bmod_eq_of_le (by omega) (by omega)]
    simp
  rw [getHeader, hn]
  refine ext_getElem (by simp) ?_
  intro j h1 h2
  have h := word_putBlocks (hb.setWord 0 lh.length) 0 lh (by omega) h2
  rw [getD_eq_getElem _ _ h2, Nat.mod_eq_of_lt (hlt _ (getElem_mem h2))] at h
  simpa [putHeader] using h

theorem getHeader_eq_nil_iff (hb : Block) :
    getHeader hb = [] ↔ Int.bmod (hb.word 0) (2 ^ 32) ≤ 0 := by
  simp [getHeader]

end CsklubOs
