/-
**Crashes: the redo log makes transactions atomic.**

A crash loses the buffers and the in-memory log and keeps the disk, which holds the effect of the
writes that were issued before it.  After a crash the kernel runs `recover_from_log`, which can
crash in turn, any number of times.

Main definitions:

* `LogMachine.Recovers` — completing a recovery from a disk would leave the contents `h`;
* `LogMachine.crash`, `LogMachine.crashedRecoveries` — crashes, also of recoveries.

Main results:

* `LogMachine.recovers_crash_commit` — which contents a crashed commit leaves;
* `LogMachine.crash_atomic` — a transaction is there as a whole or not at all.
-/

import CsklubOs.RedoLog

set_option autoImplicit false

namespace CsklubOs

open Function List
open Prod (fst)
open WriteSeq

namespace LogMachine

/-- The machine after power-on, before anything has been read. -/
def boot (start size dev : ℕ) (d : ℕ → Block) : LogMachine where
  disk := d
  buf := fun _ => none
  log := { start, size, dev, outstanding := 0, committing := false, lh := [] }
  issued := []

section Boot

variable (start size dev : ℕ) (d : ℕ → Block)

@[simp] theorem boot_view : (boot start size dev d).view = d := by
  funext b; simp [view, boot]

@[simp] theorem boot_disk : (boot start size dev d).disk = d := by simp only [boot]

@[simp] theorem boot_issued : (boot start size dev d).issued = [] := by simp only [boot]

@[simp] theorem boot_start : (boot start size dev d).log.start = start := by simp only [boot]

@[simp] theorem boot_size : (boot start size dev d).log.size = size := by simp only [boot]

theorem boot_idle : (boot start size dev d).Idle start size :=
  ⟨boot_start .., boot_size .., rfl, rfl, rfl, by rw [boot_view, boot_disk]⟩

end Boot

/-- What a crash after `k` of the writes `ws` leaves on the disk. -/
def crash (d : ℕ → Block) (ws : List (ℕ × Block)) (k : ℕ) : ℕ → Block := applyAll d (ws.take k)

/-- The disk after recoveries that crash after `k` writes, for each `k` of `ks` in turn. -/
def crashedRecoveries (start size dev : ℕ) (d : ℕ → Block) (ks : List ℕ) : ℕ → Block :=
  ks.foldl (fun d k => crash d (boot start size dev d).recoverFromLog.issued k) d

/-- **The crash invariant**: redoing what the header of `d` lists gives the contents `h` outside
the log region. -/
structure Recovers (start size : ℕ) (d h : ℕ → Block) : Prop where
  header : HeaderOk start size d
  redone : ∀ b, Home start size b → applyAll d (redo start d) b = h b

variable {start size : ℕ} {d h : ℕ → Block}

/-! ### Recovery -/

theorem issued_recovery (dev : ℕ) (hok : HeaderOk start size d) :
    (boot start size dev d).recoverFromLog.issued = recoverWrites start d := by
  rw [(recoverFromLog_spec (boot_start start size dev d) (boot_view start size dev d) hok).2,
    boot_issued, nil_append]

theorem disk_recovery (dev : ℕ) (hok : HeaderOk start size d) :
    (boot start size dev d).recoverFromLog.disk = applyAll d (recoverWrites start d) := by
  rw [(recoverFromLog_spec (boot_start start size dev d) (boot_view start size dev d) hok).1,
    boot_disk]

theorem redo_eq_nil (hn : getHeader (d start) = []) : redo start d = [] := by
  simp [redo, hn, copies]

theorem redo_congr {e : ℕ → Block} (hstart : e start = d start)
    (hlog : ∀ i < (getHeader (d start)).length, e (start + i + 1) = d (start + i + 1)) :
    redo start e = redo start d := by
  rw [redo, redo, hstart]
  refine map_congr_left fun i hi => ?_
  rw [hlog i (mem_range.1 hi)]

theorem getHeader_clear (hb : Block) : getHeader (putHeader hb []) = [] :=
  getHeader_putHeader hb (by decide) (by simp)

theorem Recovers.of_clean (hsize : 0 < size) (hn : getHeader (d start) = [])
    (hd : ∀ b, Home start size b → d b = h b) : Recovers start size d h := by
  refine ⟨⟨by rw [hn]; exact hsize, by simp [hn]⟩, fun b hb => ?_⟩
  rw [redo_eq_nil hn, applyAll_nil, hd b hb]

theorem start_not_home (hsize : 0 < size) : ¬ Home start size start := by
  unfold Home; omega

theorem applyAll_home_of_log (ws : List (ℕ × Block)) (hws : ∀ w ∈ ws, Home start size w.1) {b : ℕ}
    (hb : ¬ Home start size b) : applyAll d ws b = d b :=
  applyAll_of_not_mem _ _ _ fun w hw hwb => hb (hwb ▸ hws w hw)

theorem clean_of_redone (hsize : 0 < size) (hr : Recovers start size d h) :
    let e := applyAll d (recoverWrites start d)
    getHeader (e start) = [] ∧ ∀ b, Home start size b → e b = h b := by
  intro e
  have he : e = update (applyAll d (redo start d)) start (putHeader (d start) []) := by
    simp only [e, recoverWrites, applyAll_append, applyAll_cons, applyAll_nil]
  constructor
  · rw [he, update_self, getHeader_clear]
  · intro b hb
    have hne : b ≠ start := fun hbs => start_not_home hsize (hbs ▸ hb)
    rw [he, update_of_ne hne, hr.redone b hb]

theorem Recovers.take_recoverWrites (hr : Recovers start size d h) (k : ℕ) :
    Recovers start size (applyAll d ((recoverWrites start d).take k)) h := by
  have hsize : 0 < size := lt_of_le_of_lt (Nat.zero_le _) hr.header.1
  by_cases hk : k ≤ (redo start d).length
  · -- only home blocks have been written: the same redo list is performed again
    rw [recoverWrites, take_append_of_le_length hk]
    have hws : ∀ w ∈ (redo start d).take k, Home start size w.1 := fun w hw =>
      home_of_mem_redo hr.header (mem_of_mem_take hw)
    have hstart := applyAll_home_of_log (d := d) _ hws (start_not_home hsize)
    have hredo : redo start (applyAll d ((redo start d).take k)) = redo start d := by
      refine redo_congr hstart fun i hi => applyAll_home_of_log _ hws ?_
      have h1 := hr.header.1
      unfold Home
      omega
    refine ⟨?_, fun b hb => ?_⟩
    · unfold HeaderOk
      rw [hstart]
      exact hr.header
    · rw [hredo, applyAll_replay, hr.redone b hb]
  · -- the header has been cleared
    have htake : (recoverWrites start d).take k = recoverWrites start d := by
      refine take_of_length_le ?_
      simp [recoverWrites]
      omega
    rw [htake]
    obtain ⟨h1, h2⟩ := clean_of_redone hsize hr
    exact Recovers.of_clean hsize h1 h2

/-- **An interrupted recovery keeps the invariant.** -/
theorem Recovers.crash_recovery (dev : ℕ) (hr : Recovers start size d h) (k : ℕ) :
    Recovers start size (crash d (boot start size dev d).recoverFromLog.issued k) h := by
  rw [issued_recovery dev hr.header]
  exact hr.take_recoverWrites k

theorem Recovers.crashedRecoveries (dev : ℕ) (hr : Recovers start size d h) (ks : List ℕ) :
    Recovers start size (crashedRecoveries start size dev d ks) h := by
  induction ks generalizing d with
  | nil => exact hr
  | cons k ks ih => exact ih (hr.crash_recovery dev k)

theorem Recovers.recovery (dev : ℕ) (hr : Recovers start size d h) :
    ((boot start size dev d).recoverFromLog.disk start).word 0 = 0 ∧
      ∀ b, Home start size b → (boot start size dev d).recoverFromLog.disk b = h b := by
  have hsize : 0 < size := lt_of_le_of_lt (Nat.zero_le _) hr.header.1
  obtain ⟨-, h2⟩ := clean_of_redone hsize hr
  rw [disk_recovery dev hr.header]
  refine ⟨?_, h2⟩
  rw [recoverWrites, applyAll_append, applyAll_cons, applyAll_nil, update_self]
  exact word_putHeader_zero _ (by decide)

/-! ### Commit -/

/-- A write that is the first `write_head` of a commit. -/
def isCommitHeader (start : ℕ) (w : ℕ × Block) : Bool := decide (w.1 = start ∧ w.2.word 0 ≠ 0)

end LogMachine

namespace Trans

open LogMachine

variable {start size : ℕ} {d : ℕ → Block} (t : Trans start size)

theorem home_fst {b : ℕ} (hb : b ∈ t.writes.map fst) : Home start size b := by
  obtain ⟨w, hw, rfl⟩ := mem_map.1 hb
  exact t.home w hw

theorem getHeader_head (hb : Block) :
    getHeader (putHeader hb (t.writes.map fst)) = t.writes.map fst := by
  have hfits := t.fits.1
  refine getHeader_putHeader hb ?_ ?_
  · rw [length_map]
    exact le_trans hfits (by decide)
  · intro b hb
    obtain ⟨w, hw, rfl⟩ := mem_map.1 hb
    exact t.uint w hw

theorem map_contents : ((t.writes.map fst).map fun b => (b, applyAll d t.writes b)) = t.writes := by
  rw [map_map]
  conv_rhs => rw [← map_id t.writes]
  refine map_congr_left fun w hw => ?_
  exact Prod.ext rfl (applyAll_of_mem d t.writes t.nodup hw)

theorem logCopies_not_home {w : ℕ × Block} {v : ℕ → Block}
    (hw : w ∈ logCopies start v (t.writes.map fst)) : ¬ Home start size w.1 := by
  have h1 := mem_logCopies_fst hw
  have h2 := t.fits.2
  rw [length_map] at h1
  unfold Home
  omega

end Trans

namespace LogMachine

section Commit

variable {start size : ℕ} {d : ℕ → Block} (t : Trans start size)

/-- The disk right after the first `write_head` of a commit. -/
def committedDisk (d : ℕ → Block) : ℕ → Block :=
  update (applyAll d (logCopies start (applyAll d t.writes) (t.writes.map fst)))
    start (putHeader (d start) (t.writes.map fst))

theorem committedDisk_start : committedDisk t d start =
    putHeader (d start) (t.writes.map fst) := update_self ..

theorem committedDisk_of_home (hsize : 0 < size) {b : ℕ} (hb : Home start size b) :
    committedDisk t d b = d b := by
  have hne : b ≠ start := fun hbs => start_not_home hsize (hbs ▸ hb)
  rw [committedDisk, update_of_ne hne]
  exact applyAll_of_not_mem _ _ _ fun w hw hwb => t.logCopies_not_home hw (hwb ▸ hb)

theorem redo_committedDisk : redo start (committedDisk t d) = t.writes := by
  rw [redo, committedDisk_start, t.getHeader_head]
  conv_rhs => rw [← t.map_contents (d := d), ← map_getElem_range]
  refine map_congr_left fun i hi => ?_
  have hi' : i < (t.writes.map fst).length := mem_range.1 hi
  have hne : start + i + 1 ≠ start := by omega
  rw [committedDisk, update_of_ne hne, applyAll_logCopies hi']
  simp only [getD_eq_getElem _ _ hi']

/-- **The first `write_head` is the commit point.** -/
theorem recovers_committedDisk : Recovers start size (committedDisk t d) (applyAll d t.writes) := by
  have hsize : 0 < size := lt_of_le_of_lt (Nat.zero_le _) t.fits.2
  refine ⟨⟨?_, ?_⟩, fun b hb => ?_⟩
  · rw [committedDisk_start, t.getHeader_head, length_map]
    exact t.fits.2
  · rw [committedDisk_start, t.getHeader_head]
    exact fun b hb => t.home_fst hb
  · rw [redo_committedDisk]
    exact applyAll_congr fun _ => committedDisk_of_home t hsize hb

theorem transWrites_eq (hne : t.writes ≠ []) : transWrites start d t.writes =
    logCopies start (applyAll d t.writes) (t.writes.map fst) ++
      (start, putHeader (d start) (t.writes.map fst)) ::
        recoverWrites start (committedDisk t d) := by
  have hsize : 0 < size := lt_of_le_of_lt (Nat.zero_le _) t.fits.2
  have hstart : applyAll d t.writes start = d start :=
    applyAll_home_of_log t.writes t.home (start_not_home hsize)
  rw [transWrites, if_neg hne, commitWrites, t.map_contents, hstart, recoverWrites,
    redo_committedDisk, committedDisk_start]
  simp only [append_assoc, cons_append]

theorem length_logCopies (start : ℕ) (v : ℕ → Block) (bs : List ℕ) :
    (logCopies start v bs).length = bs.length := by simp [logCopies, copies]

theorem countP_logCopies (k : ℕ) (v : ℕ → Block) :
    ((logCopies start v (t.writes.map fst)).take k).countP (isCommitHeader start) = 0 := by
  refine countP_eq_zero.2 fun w hw => ?_
  have h := mem_logCopies_fst (mem_of_mem_take hw)
  have hne : w.1 ≠ start := by omega
  simp [isCommitHeader, hne]

theorem countP_recoverWrites (k : ℕ) :
    ((recoverWrites start (committedDisk t d)).take k).countP (isCommitHeader start) = 0 := by
  have hsize : 0 < size := lt_of_le_of_lt (Nat.zero_le _) t.fits.2
  refine countP_eq_zero.2 fun w hw => ?_
  have hw' := mem_of_mem_take hw
  rw [recoverWrites, redo_committedDisk, mem_append, mem_singleton] at hw'
  rcases hw' with hw' | rfl
  · have hne : w.1 ≠ start := fun hws => start_not_home hsize (hws ▸ t.home w hw')
    simp [isCommitHeader, hne]
  · simp [isCommitHeader, word_putHeader_zero]

/-- **An interrupted commit** of a transaction that logs something, on a clean disk: before the
commit point the disk recovers to the old contents, and from then on to the new ones. -/
theorem recovers_crash_commit (hne : t.writes ≠ []) (hclean : getHeader (d start) = []) (k : ℕ) :
    let ws := (transWrites start d t.writes).take k
    (k ≤ t.writes.length ∧ ws.countP (isCommitHeader start) = 0 ∧
        Recovers start size (applyAll d ws) d) ∨
      (t.writes.length < k ∧ ws.countP (isCommitHeader start) = 1 ∧
        Recovers start size (applyAll d ws) (applyAll d t.writes)) := by
  intro ws
  have hlen : (logCopies start (applyAll d t.writes) (t.writes.map fst)).length =
      t.writes.length := by rw [length_logCopies, length_map]
  have hsize : 0 < size := lt_of_le_of_lt (Nat.zero_le _) t.fits.2
  have hws : ws = ((logCopies start (applyAll d t.writes) (t.writes.map fst)) ++
      (start, putHeader (d start) (t.writes.map fst)) ::
        recoverWrites start (committedDisk t d)).take k := by
    rw [← transWrites_eq t hne]
  by_cases hk : k ≤ (logCopies start (applyAll d t.writes) (t.writes.map fst)).length
  · -- the header is still the clean one
    left
    rw [take_append_of_le_length hk] at hws
    rw [hws]
    refine ⟨by omega, countP_logCopies t k _, Recovers.of_clean hsize ?_ ?_⟩
    · rw [applyAll_of_not_mem, hclean]
      intro w hw
      have h := mem_logCopies_fst (mem_of_mem_take hw)
      omega
    · intro b hb
      refine applyAll_of_not_mem _ _ _ fun w hw hwb => ?_
      exact t.logCopies_not_home (mem_of_mem_take hw) (hwb ▸ hb)
  · right
    obtain ⟨j, rfl⟩ : ∃ j,
        k = (logCopies start (applyAll d t.writes) (t.writes.map fst)).length + (j + 1) :=
      ⟨k - (logCopies start (applyAll d t.writes) (t.writes.map fst)).length - 1, by omega⟩
    rw [take_length_add_append, take_succ_cons] at hws
    rw [hws]
    refine ⟨by omega, ?_, ?_⟩
    · have h₀ := countP_logCopies t
        (logCopies start (applyAll d t.writes) (t.writes.map fst)).length (applyAll d t.writes)
      rw [take_length] at h₀
      have hpos : 0 < t.writes.length := length_pos_iff.2 hne
      have hle : (t.writes.map fst).length ≤ 255 := by
        rw [length_map]
        exact le_trans t.fits.1 (by decide)
      have hhead : isCommitHeader start (start, putHeader (d start) (t.writes.map fst)) :=
        decide_eq_true ⟨rfl, by rw [word_putHeader_zero _ hle, length_map]; omega⟩
      rw [countP_append, countP_cons, h₀, countP_recoverWrites, if_pos hhead]
    · have h := (recovers_committedDisk t (d := d)).take_recoverWrites j
      rw [applyAll_append]
      exact h

theorem clean_transWrites (hne : t.writes ≠ []) :
    getHeader (applyAll d (transWrites start d t.writes) start) = [] ∧
      ∀ b, Home start size b →
        applyAll d (transWrites start d t.writes) b = applyAll d t.writes b := by
  have hsize : 0 < size := lt_of_le_of_lt (Nat.zero_le _) t.fits.2
  have h := clean_of_redone hsize (recovers_committedDisk t (d := d))
  rw [transWrites_eq t hne, applyAll_append, applyAll_cons]
  exact h

theorem lt_length_transWrites (hne : t.writes ≠ []) :
    t.writes.length < (transWrites start d t.writes).length := by
  rw [transWrites_eq t hne, length_append, length_logCopies, length_map, length_cons]
  omega

end Commit

/-! ### Runs -/

variable {start size : ℕ} {d h : ℕ → Block}

theorem Recovers.congr_home {h' : ℕ → Block} (hr : Recovers start size d h)
    (hh : ∀ b, Home start size b → h b = h' b) : Recovers start size d h' :=
  ⟨hr.header, fun b hb => (hr.redone b hb).trans (hh b hb)⟩

/-- The transactions of a sequence that log something. -/
def nonempty (ts : List (Trans start size)) : List (Trans start size) :=
  ts.filter fun t => t.writes ≠ []

/-- **A run of transactions, interrupted anywhere**: the disk recovers to the contents after those
transactions whose first `write_head` it has seen. -/
theorem run_spec (hsize : 0 < size) (ts : List (Trans start size)) {m : LogMachine}
    (hm : m.Idle start size) (hclean : getHeader (m.disk start) = []) :
    ∃ m' ws, m.run ts = .ok m' ∧ m'.issued = m.issued ++ ws ∧
      ∀ k, ∃ c ≤ ts.length,
        (ws.take k).countP (isCommitHeader start) = (nonempty (ts.take c)).length ∧
        Recovers start size (applyAll m.disk (ws.take k))
          (applyAll m.disk ((ts.take c).flatMap Trans.writes)) := by
  induction ts generalizing m with
  | nil =>
    refine ⟨m, [], rfl, by simp, fun k => ⟨0, le_rfl, by simp [nonempty], ?_⟩⟩
    simpa using Recovers.of_clean hsize hclean fun _ _ => rfl
  | cons t ts ih =>
    obtain ⟨m1, h1, hm1, hi1, hd1⟩ := runTrans_spec hm t
    by_cases hne : t.writes = []
    · -- nothing is written for a transaction that logs nothing
      have hw : transWrites start m.disk t.writes = [] := if_pos hne
      rw [hw] at hd1
      rw [hw, append_nil] at hi1
      obtain ⟨m2, ws, h2, hi2, hk⟩ := ih hm1 (by rw [hd1]; exact hclean)
      refine ⟨m2, ws, ?_, by rw [hi2, hi1], fun k => ?_⟩
      · rw [run, foldlM_cons, h1]
        exact h2
      · obtain ⟨c, hc, hcount, hrec⟩ := hk k
        refine ⟨c + 1, by simpa using hc, ?_, ?_⟩
        · simpa [nonempty, hne] using hcount
        · rw [hd1] at hrec
          simpa [hne] using hrec
    · obtain ⟨hclean1, hhome1⟩ := clean_transWrites t hne (d := m.disk)
      rw [← hd1] at hclean1 hhome1
      obtain ⟨m2, ws, h2, hi2, hk⟩ := ih hm1 hclean1
      refine ⟨m2, transWrites start m.disk t.writes ++ ws, ?_, ?_, fun k => ?_⟩
      · rw [run, foldlM_cons, h1]
        exact h2
      · rw [hi2, hi1, append_assoc]
      · by_cases hle : k ≤ (transWrites start m.disk t.writes).length
        · -- the crash hits this transaction
          rw [take_append_of_le_length hle]
          rcases recovers_crash_commit t hne hclean k with ⟨-, hcount, hrec⟩ | ⟨-, hcount, hrec⟩
          · exact ⟨0, by simp, by simpa [nonempty] using hcount, by simpa using hrec⟩
          · exact ⟨1, by simp, by simpa [nonempty, hne] using hcount, by simpa using hrec⟩
        · -- the crash hits a later one
          obtain ⟨j, rfl⟩ : ∃ j, k = (transWrites start m.disk t.writes).length + j :=
            ⟨k - (transWrites start m.disk t.writes).length, by omega⟩
          obtain ⟨c, hc, hcount, hrec⟩ := hk j
          have hone : (transWrites start m.disk t.writes).countP (isCommitHeader start) = 1 := by
            rcases recovers_crash_commit t hne hclean
              (transWrites start m.disk t.writes).length with ⟨hlt, -⟩ | ⟨-, h, -⟩
            · have := lt_length_transWrites t hne (d := m.disk)
              omega
            · rwa [take_length] at h
          refine ⟨c + 1, by simpa using hc, ?_, ?_⟩
          · rw [take_length_add_append, countP_append, hone, hcount]
            simp [nonempty, hne, Nat.add_comm]
          · rw [take_length_add_append, applyAll_append, ← hd1]
            refine hrec.congr_home fun b hb => ?_
            rw [take_succ_cons, flatMap_cons, applyAll_append]
            exact applyAll_congr fun _ => hhome1 b hb

/-- **Crash atomicity of the redo log.**  Take a disk whose log header has `n = 0`, run any
transactions on it, crash after any number `k` of the single-block writes they issue, let
recoveries crash after the numbers of writes `ks`, and let one complete.  The header then has
`n = 0`, and every block outside the log region holds what it holds after the first `c`
transactions, which are exactly those whose first `write_head` is among the `k` writes. -/
theorem crash_atomic (hsize : 0 < size) (dev : ℕ) (d : ℕ → Block) (h0 : (d start).word 0 = 0)
    (ts : List (Trans start size)) :
    ∃ m, (boot start size dev d).run ts = .ok m ∧
      ∀ (k : ℕ) (ks : List ℕ) (e : ℕ → Block),
        e = crashedRecoveries start size dev (crash d m.issued k) ks → ∃ c ≤ ts.length,
          (nonempty (ts.take c)).length = (m.issued.take k).countP (isCommitHeader start) ∧
          ((boot start size dev e).recoverFromLog.disk start).word 0 = 0 ∧
          ∀ b, Home start size b → (boot start size dev e).recoverFromLog.disk b =
            applyAll d ((ts.take c).flatMap Trans.writes) b := by
  have hclean : getHeader (d start) = [] := by
    rw [getHeader_eq_nil_iff, h0]
    simp
  obtain ⟨m, ws, hrun, hi, hk⟩ := run_spec hsize ts (boot_idle start size dev d)
    (by exact hclean)
  rw [boot_issued, nil_append] at hi
  rw [boot_disk] at hk
  refine ⟨m, hrun, fun k ks e he => ?_⟩
  obtain ⟨c, hc, hcount, hrec⟩ := hk k
  rw [← hi] at hcount hrec
  have hrec' := Recovers.crashedRecoveries dev hrec ks
  rw [← crash, ← he] at hrec'
  obtain ⟨hn, hhome⟩ := hrec'.recovery dev
  exact ⟨c, hc, hcount.symm, hn, hhome⟩

/-- A transaction that writes one block of the log's disk in `fs.img`. -/
def oneBlock : Trans 2 logSize where
  writes := [(46, fun _ => 1)]
  nodup := by simp
  home := by simp [Home, logSize, maxOpBlocks]
  uint := by simp
  fits := by simp [logSize, maxOpBlocks]

/-- Two transactions that write the same block of an empty disk. -/
theorem crash_atomic_oneBlock :
    ((fun _ => Block.zero : ℕ → Block) 2).word 0 = 0 ∧
    ∃ m, (boot 2 logSize 1 fun _ => Block.zero).run [oneBlock, oneBlock] = .ok m ∧
      ∀ (k : ℕ) (ks : List ℕ) (e : ℕ → Block),
        e = crashedRecoveries 2 logSize 1 (crash (fun _ => Block.zero) m.issued k) ks →
          ((boot 2 logSize 1 e).recoverFromLog.disk 2).word 0 = 0 := by
  have h0 : ((fun _ => Block.zero : ℕ → Block) 2).word 0 = 0 := by decide
  obtain ⟨m, hm, hk⟩ := crash_atomic (by decide) 1 (fun _ => Block.zero) h0 [oneBlock, oneBlock]
  refine ⟨h0, m, hm, fun k ks e he => ?_⟩
  obtain ⟨_, _, _, hn, _⟩ := hk k ks e he
  exact hn

end LogMachine

end CsklubOs
