/-
**The write-ahead log on the disk.**

`commit` in `kernel/log.c` copies the blocks of a transaction to the on-disk log, writes the header
that lists them, copies them to their home blocks and clears the header; `recover_from_log` repeats
the second half for whatever header it finds.  The block cache enters only as the map from block
numbers to buffered contents; that recycling is invisible is the subject of the modules on `bio.c`.

Main definitions:

* `LogMachine` — a disk, buffers and a log, with a record of the single-block writes that are
  issued;
* `LogMachine.commit`, `LogMachine.recoverFromLog` — the code;
* `LogMachine.runTrans` — a transaction.

Main results:

* `LogMachine.commit_spec`, `LogMachine.recoverFromLog_spec` — the writes that the code issues;
* `LogMachine.runTrans_spec` — those of a transaction, and what it leaves.
-/

import CsklubOs.Log
import CsklubOs.WriteSeq

set_option autoImplicit false

namespace CsklubOs

open Function List
open Prod (fst)
open WriteSeq

/-- The machine that `log.c` runs on, seen from the log. -/
structure LogMachine where
  /-- What is on the device. -/
  disk : ℕ → Block
  /-- The contents of the buffered blocks. -/
  buf : ℕ → Option Block
  log : Log
  /-- The single-block writes issued since power-on, oldest first. -/
  issued : List (ℕ × Block)

/-- Why a run of transactions stops before its end. -/
inductive LogStop
  | panic (p : LogPanic)
  | asleep
  deriving DecidableEq

namespace LogMachine

/-! ### Buffers -/

variable (m : LogMachine) (b : ℕ)

/-- The machine with another in-memory log. -/
def setLog (l : Log) : LogMachine := { m with log := l }

/-- What `bread` finds in block `b`: the buffer, or the disk if there is none. -/
def view : Block := (m.buf b).getD (m.disk b)

/-- `bread(log.dev, b)`: the contents, and the machine with the block buffered. -/
def bread : Block × LogMachine :=
  match m.buf b with
  | some d => (d, m)
  | none => (m.disk b, { m with buf := update m.buf b (some (m.disk b)) })

/-- `memmove(buf->data, d, BSIZE)` on the buffer of block `b`. -/
def memmove (d : Block) : LogMachine :=
  { m with buf := update m.buf b (some d) }

/-- `bwrite`: the contents of the buffer go to the disk. -/
def bwrite : LogMachine :=
  { m with
    disk := update m.disk b (m.view b)
    issued := m.issued ++ [(b, m.view b)] }

@[simp] theorem bread_fst : (m.bread b).1 = m.view b := by
  unfold bread view
  split <;> rename_i h <;> simp [h]

@[simp] theorem bread_disk : (m.bread b).2.disk = m.disk := by
  unfold bread; split <;> rfl

@[simp] theorem bread_log : (m.bread b).2.log = m.log := by
  unfold bread; split <;> rfl

@[simp] theorem bread_issued : (m.bread b).2.issued = m.issued := by
  unfold bread; split <;> rfl

@[simp] theorem bread_view : (m.bread b).2.view = m.view := by
  funext c
  unfold bread
  split
  · rfl
  · rename_i h
    by_cases hc : c = b
    · subst hc; simp [view, h]
    · simp [view, update_of_ne hc]

@[simp] theorem memmove_view (d : Block) :
    (m.memmove b d).view = update m.view b d := by
  funext c
  by_cases hc : c = b
  · subst hc; simp [view, memmove]
  · simp [view, memmove, update_of_ne hc]

@[simp] theorem memmove_disk (d : Block) :
    (m.memmove b d).disk = m.disk := rfl

@[simp] theorem memmove_log (d : Block) :
    (m.memmove b d).log = m.log := rfl

@[simp] theorem memmove_issued (d : Block) :
    (m.memmove b d).issued = m.issued := rfl

@[simp] theorem bwrite_disk :
    (m.bwrite b).disk = update m.disk b (m.view b) := rfl

@[simp] theorem bwrite_log : (m.bwrite b).log = m.log := rfl

@[simp] theorem bwrite_issued :
    (m.bwrite b).issued = m.issued ++ [(b, m.view b)] := rfl

@[simp] theorem setLog_view (l : Log) : (m.setLog l).view = m.view := by
  funext b; simp only [view, setLog]

@[simp] theorem setLog_disk (l : Log) : (m.setLog l).disk = m.disk := by
  simp only [setLog]

@[simp] theorem setLog_issued (l : Log) : (m.setLog l).issued = m.issued := by
  simp only [setLog]

@[simp] theorem setLog_log (l : Log) : (m.setLog l).log = l := by
  simp only [setLog]

@[simp] theorem bwrite_view : (m.bwrite b).view = m.view := by
  funext c
  by_cases hc : c = b
  · subst hc
    cases h : m.buf c <;> simp [view, bwrite, h]
  · simp [view, bwrite, update_of_ne hc]

/-! ### `log.c` -/

/-- The body of the loop of `write_log`. -/
def writeLogBody (tail : ℕ) : LogMachine :=
  let dst := m.log.start + tail + 1
  let (_, m) := m.bread dst
  let (data, m) := m.bread (m.log.lh.getD tail 0)
  (m.memmove dst data).bwrite dst

/-- Copy modified blocks from cache to log. -/
def writeLog : LogMachine :=
  (range m.log.lh.length).foldl writeLogBody m

/-- The body of the loop of `install_trans`. -/
def installTransBody (tail : ℕ) : LogMachine :=
  let (data, m) := m.bread (m.log.start + tail + 1)
  let dst := m.log.lh.getD tail 0
  let (_, m) := m.bread dst
  (m.memmove dst data).bwrite dst

/-- Copy committed blocks from log to their home location.  The argument of `install_trans` only
decides whether the buffers are unpinned, which this machine does not keep. -/
def installTrans : LogMachine :=
  (range m.log.lh.length).foldl installTransBody m

/-- Read the log header from disk into the in-memory log header. -/
def readHead : LogMachine :=
  let (hb, m) := m.bread m.log.start
  m.setLog { m.log with lh := getHeader hb }

/-- Write the in-memory log header to disk. -/
def writeHead : LogMachine :=
  let (hb, m) := m.bread m.log.start
  (m.memmove m.log.start (putHeader hb m.log.lh)).bwrite m.log.start

/-- `log.lh.n = 0`. -/
def clearHead : LogMachine := m.setLog m.log.clear

def recoverFromLog : LogMachine :=
  m.readHead.installTrans.clearHead.writeHead

def commit : LogMachine :=
  if 0 < m.log.lh.length then m.writeLog.writeHead.installTrans.clearHead.writeHead else m

/-! ### Copying loops

Both `write_log` and `install_trans` copy one block to another for each entry of the header; only
the direction differs.  The facts below are about any such loop whose sources and destinations are
apart. -/

/-- What copying the blocks `src p` to the blocks `dst p`, for `p` in a list, writes. -/
def copies {π : Type} (v : ℕ → Block) (src dst : π → ℕ) (ps : List π) : List (ℕ × Block) :=
  ps.map fun p => (dst p, v (src p))

theorem foldl_copy {π : Type} (body : LogMachine → π → LogMachine) (src dst : π → ℕ) (l : Log)
    (hview : ∀ m p, m.log = l →
      (body m p).view = update m.view (dst p) (m.view (src p))) (hdisk : ∀ m p, m.log = l →
      (body m p).disk = update m.disk (dst p) (m.view (src p)))
    (hissued : ∀ m p, m.log = l → (body m p).issued = m.issued ++ [(dst p, m.view (src p))])
    (hlog : ∀ m p, m.log = l → (body m p).log = l) (ps : List π)
    (hapart : ∀ p ∈ ps, ∀ q ∈ ps, src p ≠ dst q) (m : LogMachine) (hm : m.log = l) :
    (ps.foldl body m).view = applyAll m.view (copies m.view src dst ps) ∧
    (ps.foldl body m).disk = applyAll m.disk (copies m.view src dst ps) ∧
    (ps.foldl body m).issued = m.issued ++ copies m.view src dst ps ∧
    (ps.foldl body m).log = l := by
  induction ps generalizing m with
  | nil => exact ⟨rfl, rfl, (append_nil _).symm, hm⟩
  | cons p ps ih =>
    have hrest : ∀ q ∈ ps, ∀ r ∈ ps, src q ≠ dst r := fun q hq r hr =>
      hapart q (mem_cons_of_mem _ hq) r (mem_cons_of_mem _ hr)
    -- the first copy does not change a later source
    have hsrc : copies (body m p).view src dst ps = copies m.view src dst ps := by
      refine map_congr_left fun q hq => ?_
      have hne : src q ≠ dst p :=
        hapart q (mem_cons_of_mem _ hq) p mem_cons_self
      rw [hview m p hm, update_of_ne hne]
    obtain ⟨h1, h2, h3, h4⟩ := ih hrest (body m p) (hlog m p hm)
    rw [hsrc, hview m p hm] at h1
    rw [hsrc, hdisk m p hm] at h2
    rw [hsrc, hissued m p hm] at h3
    refine ⟨h1, h2, ?_, h4⟩
    rw [foldl_cons, h3, append_assoc]
    rfl

section

variable (hhome : ∀ b ∈ m.log.lh, b < m.log.start ∨ m.log.start + m.log.lh.length < b)

include hhome

theorem writeLog_spec :
    let ws := copies m.view (fun i => m.log.lh.getD i 0) (fun i => m.log.start + i + 1)
      (range m.log.lh.length)
    m.writeLog.view = applyAll m.view ws ∧ m.writeLog.disk = applyAll m.disk ws ∧
      m.writeLog.issued = m.issued ++ ws ∧ m.writeLog.log = m.log := by
  refine foldl_copy writeLogBody _ _ m.log ?_ ?_ ?_ ?_ _ ?_ m rfl
  · intro n p hn; simp [writeLogBody, hn]
  · intro n p hn; simp [writeLogBody, hn]
  · intro n p hn; simp [writeLogBody, hn]
  · intro n p hn; simp [writeLogBody, hn]
  · intro p hp q hq
    rw [mem_range] at hp hq
    have h := hhome _ (getElem_mem hp)
    rw [getD_eq_getElem _ _ hp]
    omega

theorem installTrans_spec :
    let ws := copies m.view (fun i => m.log.start + i + 1) (fun i => m.log.lh.getD i 0)
      (range m.log.lh.length)
    m.installTrans.view = applyAll m.view ws ∧ m.installTrans.disk = applyAll m.disk ws ∧
      m.installTrans.issued = m.issued ++ ws ∧ m.installTrans.log = m.log := by
  refine foldl_copy installTransBody _ _ m.log ?_ ?_ ?_ ?_ _ ?_ m rfl
  · intro n p hn; simp [installTransBody, hn]
  · intro n p hn; simp [installTransBody, hn]
  · intro n p hn; simp [installTransBody, hn]
  · intro n p hn; simp [installTransBody, hn]
  · intro p hp q hq
    rw [mem_range] at hp hq
    have h := hhome _ (getElem_mem hq)
    rw [getD_eq_getElem _ _ hq]
    omega

end

@[simp] theorem writeHead_view : m.writeHead.view =
    update m.view m.log.start (putHeader (m.view m.log.start) m.log.lh) := by
  simp [writeHead]

@[simp] theorem writeHead_disk : m.writeHead.disk =
    update m.disk m.log.start (putHeader (m.view m.log.start) m.log.lh) := by
  simp [writeHead]

@[simp] theorem writeHead_issued : m.writeHead.issued =
    m.issued ++ [(m.log.start, putHeader (m.view m.log.start) m.log.lh)] := by
  simp [writeHead]

@[simp] theorem writeHead_log : m.writeHead.log = m.log := by
  simp [writeHead]

@[simp] theorem clearHead_view : m.clearHead.view = m.view := by
  rw [clearHead, setLog_view]

@[simp] theorem clearHead_disk : m.clearHead.disk = m.disk := by
  rw [clearHead, setLog_disk]

@[simp] theorem clearHead_issued : m.clearHead.issued = m.issued := by
  rw [clearHead, setLog_issued]

@[simp] theorem clearHead_log : m.clearHead.log = m.log.clear := by
  rw [clearHead, setLog_log]

@[simp] theorem readHead_view : m.readHead.view = m.view := by
  simp [readHead]

@[simp] theorem readHead_disk : m.readHead.disk = m.disk := by
  simp [readHead]

@[simp] theorem readHead_issued : m.readHead.issued = m.issued := by
  simp [readHead]

@[simp] theorem readHead_log :
    m.readHead.log = { m.log with lh := getHeader (m.view m.log.start) } := by
  simp [readHead]

/-! ### Recovery -/

/-- The copies a recovery makes for the header it finds in `v`. -/
def redo (start : ℕ) (v : ℕ → Block) : List (ℕ × Block) :=
  copies v (fun i => start + i + 1) (fun i => (getHeader (v start)).getD i 0)
    (range (getHeader (v start)).length)

/-- Block `b` is outside the log region `[start, start + size)`. -/
def Home (start size b : ℕ) : Prop := b < start ∨ start + size ≤ b

instance (start size b : ℕ) : Decidable (Home start size b) :=
  inferInstanceAs (Decidable (_ ∨ _))

/-- The header found in `v` lists home blocks only, and no more than the log has room for. -/
def HeaderOk (start size : ℕ) (v : ℕ → Block) : Prop :=
  (getHeader (v start)).length < size ∧ ∀ b ∈ getHeader (v start), Home start size b

variable {size start : ℕ} {v : ℕ → Block}

theorem HeaderOk.apart (h : HeaderOk start size v) :
    ∀ b ∈ getHeader (v start), b < start ∨ start + (getHeader (v start)).length < b := by
  intro b hb
  have h1 := h.1
  have h2 := h.2 b hb
  unfold Home at h2
  omega

theorem home_of_mem_redo (h : HeaderOk start size v) {w : ℕ × Block} (hw : w ∈ redo start v) :
    Home start size w.1 := by
  obtain ⟨i, hi, rfl⟩ := mem_map.1 hw
  have hi' : i < (getHeader (v start)).length := mem_range.1 hi
  simp only [getD_eq_getElem _ _ hi']
  exact h.2 _ (getElem_mem hi')

/-- The single-block writes of a recovery: the logged blocks, and then the empty header. -/
def recoverWrites (start : ℕ) (v : ℕ → Block) : List (ℕ × Block) :=
  redo start v ++ [(start, putHeader (v start) [])]

theorem recoverFromLog_spec {m : LogMachine} (hms : m.log.start = start) (hmv : m.view = v)
    (h : HeaderOk start size v) :
    m.recoverFromLog.disk = applyAll m.disk (recoverWrites start v) ∧
      m.recoverFromLog.issued = m.issued ++ recoverWrites start v := by
  subst hms hmv
  have hinst := installTrans_spec m.readHead (by simpa using h.apart)
  simp only [readHead_view, readHead_disk, readHead_issued, readHead_log] at hinst
  obtain ⟨hv, hd, hi, hl⟩ := hinst
  -- the copies do not touch the header block
  have hstart : applyAll m.view (redo m.log.start m.view) m.log.start = m.view m.log.start := by
    refine applyAll_of_not_mem _ _ _ fun w hw hws => ?_
    have hsize := h.1
    have hhome := home_of_mem_redo h hw
    unfold Home at hhome
    omega
  have hsl : m.readHead.installTrans.log.start = m.log.start := by rw [hl]
  simp only [recoverFromLog, writeHead_disk, writeHead_issued, clearHead_disk,
    clearHead_issued, clearHead_view, clearHead_log, Log.clear, hsl, hv, hd, hi]
  simp only [redo, recoverWrites] at hstart ⊢
  rw [hstart, applyAll_append]
  simp only [applyAll_cons, applyAll_nil, append_assoc, and_self]

/-! ### Commit -/

/-- The copies `write_log` makes of the blocks `bs`. -/
def logCopies (start : ℕ) (v : ℕ → Block) (bs : List ℕ) : List (ℕ × Block) :=
  copies v (fun i => bs.getD i 0) (fun i => start + i + 1) (range bs.length)

/-- The single-block writes of a commit of the blocks `bs`: the log blocks, the header that lists
them, the home blocks, and the empty header. -/
def commitWrites (start : ℕ) (v : ℕ → Block) (bs : List ℕ) : List (ℕ × Block) :=
  logCopies start v bs ++ (start, putHeader (v start) bs) ::
    (bs.map fun b => (b, v b)) ++ [(start, putHeader (putHeader (v start) bs) [])]

theorem mem_logCopies_fst {bs : List ℕ} {w : ℕ × Block} (hw : w ∈ logCopies start v bs) :
    start < w.1 ∧ w.1 ≤ start + bs.length := by
  obtain ⟨i, hi, rfl⟩ := mem_map.1 hw
  have hi' : i < bs.length := mem_range.1 hi
  simp only
  omega

theorem nodup_logCopies_fst (start : ℕ) (v : ℕ → Block) (bs : List ℕ) :
    ((logCopies start v bs).map fst).Nodup := by
  have h : (logCopies start v bs).map fst =
      (range bs.length).map fun i => start + i + 1 := by
    simp [logCopies, copies]
  rw [h]
  refine List.Nodup.map (fun i j hij => ?_) nodup_range
  omega

theorem applyAll_logCopies {bs : List ℕ} {i : ℕ} (hi : i < bs.length) (d v : ℕ → Block) :
    applyAll d (logCopies start v bs) (start + i + 1) = v bs[i] := by
  have hw : (start + i + 1, v bs[i]) ∈ logCopies start v bs := by
    refine mem_map.2 ⟨i, mem_range.2 hi, ?_⟩
    simp only [getD_eq_getElem _ _ hi]
  exact applyAll_of_mem d _ (nodup_logCopies_fst start v bs) hw

theorem map_getElem_range (bs : List ℕ) (v : ℕ → Block) :
    (range bs.length).map (fun i => (bs.getD i 0, v (bs.getD i 0))) =
      bs.map fun b => (b, v b) := by
  refine ext_getElem (by simp) ?_
  intro i h1 h2
  have hi : i < bs.length := by simpa using h2
  simp [hi]

theorem commit_spec (hne : m.log.lh ≠ [])
    (hhome : ∀ b ∈ m.log.lh, b < m.log.start ∨ m.log.start + m.log.lh.length < b) :
    let ws := commitWrites m.log.start m.view m.log.lh
    m.commit.view = applyAll m.view ws ∧ m.commit.disk = applyAll m.disk ws ∧
      m.commit.issued = m.issued ++ ws ∧ m.commit.log = m.log.clear := by
  intro ws
  obtain ⟨hv1, hd1, hi1, hl1⟩ := writeLog_spec m hhome
  have hlog : m.writeLog.writeHead.log = m.log := by rw [writeHead_log, hl1]
  -- the log copies leave the header block alone
  have hstart : m.writeLog.view m.log.start = m.view m.log.start := by
    rw [hv1]
    refine applyAll_of_not_mem _ _ _ fun w hw hws => ?_
    have h := mem_logCopies_fst hw
    omega
  have hhead : m.writeLog.writeHead.view m.log.start = putHeader (m.view m.log.start) m.log.lh := by
    rw [writeHead_view, hl1, hstart, update_self]
  obtain ⟨hv2, hd2, hi2, hl2⟩ := installTrans_spec m.writeLog.writeHead (by rwa [hlog])
  rw [hlog] at hv2 hd2 hi2 hl2
  -- what `install_trans` reads from the log is what `write_log` put there
  have hcopies : copies m.writeLog.writeHead.view (fun i => m.log.start + i + 1)
      (fun i => m.log.lh.getD i 0) (range m.log.lh.length) =
      m.log.lh.map fun b => (b, m.view b) := by
    rw [← map_getElem_range]
    refine map_congr_left fun i hi => ?_
    have hi' : i < m.log.lh.length := mem_range.1 hi
    have hne' : m.log.start + i + 1 ≠ m.log.start := by omega
    rw [writeHead_view, hl1, update_of_ne hne', hv1]
    exact congrArg _ ((applyAll_logCopies hi' _ _).trans
      (congrArg m.view (getD_eq_getElem _ 0 hi').symm))
  rw [hcopies] at hv2 hd2 hi2
  have hhead2 : m.writeLog.writeHead.installTrans.view m.log.start =
      putHeader (m.view m.log.start) m.log.lh := by
    rw [hv2, applyAll_of_not_mem, hhead]
    intro w hw hws
    obtain ⟨b, hb, rfl⟩ := mem_map.1 hw
    have h := hhome b hb
    omega
  have hcommit : m.commit = m.writeLog.writeHead.installTrans.clearHead.writeHead :=
    if_pos (length_pos_iff.2 hne)
  have hls : m.writeLog.writeHead.installTrans.clearHead.log = m.log.clear := by
    rw [clearHead_log, hl2]
  have hst : m.log.clear.start = m.log.start := rfl
  have hlh : m.log.clear.lh = [] := rfl
  rw [hcommit]
  simp only [writeHead_view, writeHead_disk, writeHead_issued, writeHead_log, clearHead_view,
    clearHead_disk, clearHead_issued, hls, hst, hlh, hhead2, hv2, hd2, hi2, hl1, hstart, hv1, hd1,
    hi1]
  simp only [ws, commitWrites, applyAll_append, applyAll_cons, applyAll_nil, logCopies,
    append_assoc, cons_append, nil_append, and_self]

/-! ### Transactions -/

/-- `bread`, overwrite the data, `log_write`: how an operation changes a block. -/
def store (w : ℕ × Block) : Except LogStop LogMachine :=
  let (_, m) := m.bread w.1
  let m := m.memmove w.1 w.2
  match m.log.logWrite w.1 with
  | .error p => .error (.panic p)
  | .ok (l, _) => .ok (m.setLog l)

/-- One transaction: `begin_op`, the changes, and the `end_op` that commits. -/
def runTrans (ws : List (ℕ × Block)) : Except LogStop LogMachine :=
  match m.log.beginOp with
  | none => .error .asleep
  | some l =>
    match ws.foldlM store (m.setLog l) with
    | .error e => .error e
    | .ok m =>
      match m.log.endOp with
      | .error p => .error (.panic p)
      | .ok (l, doCommit) =>
        let m := m.setLog l
        if doCommit then
          let m := m.commit
          .ok (m.setLog m.log.endCommit)
        else .ok m

end LogMachine

/-- What one transaction logs: contents for distinct home blocks, no more of them than fit. -/
structure Trans (start size : ℕ) where
  writes : List (ℕ × Block)
  nodup : (writes.map fst).Nodup
  home : ∀ w ∈ writes, LogMachine.Home start size w.1
  uint : ∀ w ∈ writes, w.1 < 2 ^ 32
  fits : writes.length ≤ logSize ∧ writes.length < size

namespace LogMachine

/-- A sequence of transactions. -/
def run {start size : ℕ} (m : LogMachine) (ts : List (Trans start size)) :
    Except LogStop LogMachine :=
  ts.foldlM (fun m t => m.runTrans t.writes) m

/-- The machine between two transactions: nothing in progress, and every buffer as on the disk. -/
structure Idle (start size : ℕ) (m : LogMachine) : Prop where
  hstart : m.log.start = start
  hsize : m.log.size = size
  outstanding : m.log.outstanding = 0
  committing : m.log.committing = false
  lh : m.log.lh = []
  coherent : m.view = m.disk

theorem store_spec (m : LogMachine) (w : ℕ × Block) (ha : m.log.Admits) (hw : w.1 ∉ m.log.lh) :
    ∃ m', m.store w = .ok m' ∧ m'.view = update m.view w.1 w.2 ∧ m'.disk = m.disk ∧
      m'.issued = m.issued ∧ m'.log = { m.log with lh := m.log.lh ++ [w.1] } := by
  have hlog : ((m.bread w.1).2.memmove w.1 w.2).log = m.log := by simp
  refine ⟨((m.bread w.1).2.memmove w.1 w.2).setLog { m.log with lh := m.log.lh ++ [w.1] },
    ?_, ?_, ?_, ?_, by simp⟩
  · simp only [store, hlog, Log.logWrite_eq_of_admits ha, if_neg hw]
  · rw [setLog_view, memmove_view, bread_view]
  · simp
  · simp

/-- The changes of a transaction collect their block numbers in the header and their contents in
the buffers; the disk is not written. -/
theorem foldlM_store (m : LogMachine) (ws : List (ℕ × Block)) (hout : m.log.outstanding = 1)
    (hnd : (m.log.lh ++ ws.map fst).Nodup) (hfits : m.log.lh.length + ws.length ≤ logSize)
    (hsize : m.log.lh.length + ws.length < m.log.size) :
    ∃ m', ws.foldlM store m = .ok m' ∧ m'.view = applyAll m.view ws ∧ m'.disk = m.disk ∧
      m'.issued = m.issued ∧ m'.log = { m.log with lh := m.log.lh ++ ws.map fst } := by
  induction ws generalizing m with
  | nil =>
    refine ⟨m, rfl, rfl, rfl, rfl, ?_⟩
    simp
  | cons w ws ih =>
    have hw : w.1 ∉ m.log.lh := by
      intro hmem
      rw [nodup_append] at hnd
      exact hnd.2.2 _ hmem _ (by simp) rfl
    rw [length_cons] at hfits hsize
    have ha : m.log.Admits := ⟨by omega, by omega, by omega⟩
    obtain ⟨m1, h1, hv1, hd1, hi1, hl1⟩ := store_spec m w ha hw
    obtain ⟨m2, h2, hv2, hd2, hi2, hl2⟩ := ih m1 (by rw [hl1]; exact hout)
      (by rw [hl1]; simpa using hnd) (by rw [hl1]; simp; omega) (by rw [hl1]; simp; omega)
    refine ⟨m2, ?_, ?_, by rw [hd2, hd1], by rw [hi2, hi1], ?_⟩
    · rw [foldlM_cons, h1]
      exact h2
    · rw [hv2, hv1, applyAll_cons]
    · rw [hl2, hl1]
      simp

/-- The single-block writes of a transaction; one that logs nothing writes nothing. -/
def transWrites (start : ℕ) (d : ℕ → Block) (ws : List (ℕ × Block)) : List (ℕ × Block) :=
  if ws = [] then []
  else commitWrites start (applyAll d ws) (ws.map fst)

/-- The part of a transaction before its commit: the header lists the blocks, the buffers hold
their contents, and nothing has been written. -/
theorem runTrans_eq {start size : ℕ} {m : LogMachine} (hm : m.Idle start size)
    (t : Trans start size) :
    ∃ m2 : LogMachine,
      m.runTrans t.writes = .ok (m2.commit.setLog m2.commit.log.endCommit) ∧
      m2.view = applyAll m.disk t.writes ∧ m2.disk = m.disk ∧ m2.issued = m.issued ∧
      m2.log = { m.log with committing := true, lh := t.writes.map fst } := by
  have hbegin : m.log.beginOp = some { m.log with outstanding := 1 } := by
    simp [Log.beginOp, hm.committing, hm.outstanding, hm.lh, maxOpBlocks, logSize]
  have hfits := t.fits
  obtain ⟨m1, h1, hv1, hd1, hi1, hl1⟩ :=
    foldlM_store (m.setLog { m.log with outstanding := 1 }) t.writes (by simp)
      (by simpa [hm.lh] using t.nodup) (by simp [hm.lh, hfits.1])
      (by simp [hm.lh, hm.hsize, hfits.2])
  rw [setLog_view, hm.coherent] at hv1
  rw [setLog_disk] at hd1
  rw [setLog_issued] at hi1
  simp only [setLog_log, hm.lh, nil_append] at hl1
  have hend : m1.log.endOp =
      .ok ({ m1.log with outstanding := 0, committing := true }, true) := by
    simp [Log.endOp, hl1, hm.committing]
  refine ⟨m1.setLog { m1.log with outstanding := 0, committing := true }, ?_, ?_, ?_, ?_, ?_⟩
  · simp only [runTrans, hbegin, h1, hend, if_true]
  · rw [setLog_view, hv1]
  · rw [setLog_disk, hd1]
  · rw [setLog_issued, hi1]
  · simp [hl1, hm.outstanding]

/-- **What a transaction issues**, and that it leaves the machine idle. -/
theorem runTrans_spec {start size : ℕ} {m : LogMachine} (hm : m.Idle start size)
    (t : Trans start size) :
    ∃ m', m.runTrans t.writes = .ok m' ∧ m'.Idle start size ∧
      m'.issued = m.issued ++ transWrites start m.disk t.writes ∧
      m'.disk = applyAll m.disk (transWrites start m.disk t.writes) := by
  obtain ⟨m2, hrun, hv, hd, hi, hl⟩ := runTrans_eq hm t
  have hlh : m2.log.lh = t.writes.map fst := by rw [hl]
  have hst : m2.log.start = start := by rw [hl]; exact hm.hstart
  by_cases hempty : t.writes = []
  · have hcommit : m2.commit = m2 := if_neg (by simp [hlh, hempty])
    rw [hcommit] at hrun
    refine ⟨_, hrun, ⟨?_, ?_, ?_, ?_, ?_, ?_⟩, ?_, ?_⟩
    · simp [Log.endCommit, hst]
    · simp [Log.endCommit, hl, hm.hsize]
    · simp [Log.endCommit, hl, hm.outstanding]
    · simp [Log.endCommit]
    · simp [Log.endCommit, hlh, hempty]
    · rw [setLog_view, hv, hempty, applyAll_nil, setLog_disk, hd]
    · simp [transWrites, hempty, hi]
    · simp [transWrites, hempty, hd]
  · have hapart : ∀ b ∈ m2.log.lh, b < m2.log.start ∨ m2.log.start + m2.log.lh.length < b := by
      intro b hb
      rw [hlh] at hb
      obtain ⟨w, hw, rfl⟩ := mem_map.1 hb
      have h := t.home w hw
      have hfits := t.fits
      rw [hlh, length_map]
      unfold Home at h
      omega
    obtain ⟨hcv, hcd, hci, hcl⟩ := commit_spec m2 (by simp [hlh, hempty]) hapart
    have htw : transWrites start m.disk t.writes =
        commitWrites start (applyAll m.disk t.writes) (t.writes.map fst) := if_neg hempty
    rw [hst, hlh, hv, ← htw] at hcv hcd hci
    refine ⟨_, hrun, ⟨?_, ?_, ?_, ?_, ?_, ?_⟩, ?_, ?_⟩
    · simp [hcl, Log.endCommit, Log.clear, hst]
    · simp [hcl, Log.endCommit, Log.clear, hl, hm.hsize]
    · simp [hcl, Log.endCommit, Log.clear, hl, hm.outstanding]
    · simp [Log.endCommit]
    · simp [hcl, Log.endCommit, Log.clear]
    · -- every block whose buffer differs from the disk is written by the commit
      rw [setLog_view, setLog_disk, hcv, hcd, hd]
      funext x
      refine applyAll_congr fun hx => ?_
      refine applyAll_of_not_mem _ _ _ fun w hw hwx => ?_
      refine hx (w.1, applyAll m.disk t.writes w.1) ?_ hwx
      rw [htw]
      simp only [commitWrites, mem_append, mem_cons, mem_map]
      exact Or.inl (Or.inr (Or.inr ⟨w.1, ⟨w, hw, rfl⟩, rfl⟩))
    · simp [hci, hi]
    · simp [hcd, hd]

end LogMachine

end CsklubOs
