/-
**Reads that end in a fault.**

`piperead` and `consoleread` advance their index before they try to store the byte in user memory,
which may be unmapped anywhere.

Main definitions:

* `Keeps` — what a read removed from the buffer is what it stored.

Main results:

* `exists_copyLoop` — the loop of `piperead` as steps of `CsklubOs/Pipe.lean`;
* `reads_keep_bytes_iff` — which reads are like that;
* `reads_swallow_byte` — one that is not.
-/

import CsklubOs.Console
import CsklubOs.Pipe

set_option autoImplicit false

namespace CsklubOs

open List

/-! ### Pipes -/

/-- What a `piperead` leaves behind: the pipe, the bytes stored in user memory, and the result. -/
structure PipeRead where
  pipe : PipeData
  got : List UInt8
  ret : ℕ

/-- The second loop of `piperead` with `k` turns to go; `dst i` tells whether `copyout` can store at
`addr + i`. -/
def PipeData.copyLoop (dst : ℕ → Bool) : ℕ → ℕ → PipeData → List UInt8 → PipeRead
  | 0, i, d, got => ⟨d, got, i⟩
  | k + 1, i, d, got =>
    if d.empty then ⟨d, got, i⟩
    else if dst i then copyLoop dst k (i + 1) d.take (got ++ [d.buf.head])
    else ⟨d.take, got, i⟩

/-- The read of a pipe that has bytes or no writer. -/
def PipeData.read (d : PipeData) (dst : ℕ → Bool) (n : ℤ) : PipeRead :=
  PipeData.copyLoop dst n.toNat 0 d []

/-- The read removed from `d` what it stored, and returned how much that is. -/
def PipeRead.Keeps (r : PipeRead) (d : PipeData) : Prop :=
  d.buf.contents = r.got ++ r.pipe.buf.contents ∧ r.ret = r.got.length

/-- **What the loop does**: it stores `out`, and removes one byte more if it cannot store it. -/
theorem PipeData.copyLoop_spec (dst : ℕ → Bool) (k i : ℕ) (d : PipeData) (got : List UInt8) :
    ∃ out extra,
      (copyLoop dst k i d got).got = got ++ out ∧
      (copyLoop dst k i d got).ret = i + out.length ∧
      d.buf.contents = out ++ extra ++ (copyLoop dst k i d got).pipe.buf.contents ∧
      (extra = [] ∧ (∀ j < min k d.buf.count, dst (i + j) = true) ∨
        extra.length = 1 ∧ ∃ j < min k d.buf.count, dst (i + j) = false) := by
  induction k generalizing i d got with
  | zero =>
    refine ⟨[], [], (append_nil got).symm, rfl, rfl, .inl ⟨rfl, fun j hj => ?_⟩⟩
    exact absurd hj (Nat.not_lt_zero j)
  | succ k ih =>
    rw [copyLoop]
    split
    · rename_i hempty
      have hcount : d.buf.count = 0 := by
        rwa [empty, decide_eq_true_eq, RingBuf.nread_eq_iff] at hempty
      refine ⟨[], [], (append_nil got).symm, rfl, rfl, .inl ⟨rfl, fun j hj => ?_⟩⟩
      rw [hcount] at hj
      exact absurd hj (Nat.not_lt_zero j)
    · rename_i hempty
      have hne : d.buf.count ≠ 0 := by
        rwa [empty, decide_eq_true_eq, RingBuf.nread_eq_iff] at hempty
      have htake := d.buf.contents_take hne
      have hcount : d.take.buf.count + 1 = d.buf.count := d.buf.count_take hne
      split
      · rename_i hdst
        obtain ⟨out, extra, hgot, hret, hcontents, hend⟩ :=
          ih (i + 1) d.take (got ++ [d.buf.head])
        refine ⟨d.buf.head :: out, extra, ?_, ?_, ?_, ?_⟩
        · rw [hgot, append_assoc, singleton_append]
        · rw [length_cons]
          omega
        · rw [htake, cons_append]
          exact congrArg _ hcontents
        · rcases hend with ⟨hx, hall⟩ | ⟨hx, j, hj, hfault⟩
          · refine .inl ⟨hx, fun j hj => ?_⟩
            cases j with
            | zero => exact hdst
            | succ j =>
              have := hall j (by omega)
              rwa [Nat.add_assoc, Nat.add_comm 1] at this
          · refine .inr ⟨hx, j + 1, by omega, ?_⟩
            rwa [Nat.add_assoc, Nat.add_comm 1] at hfault
      · rename_i hdst
        refine ⟨[], [d.buf.head], (append_nil got).symm, rfl, htake, .inr ⟨rfl, 0, ?_, ?_⟩⟩
        · omega
        · simpa using hdst

/-- **A read of a pipe keeps to what it stored** exactly when each byte that is there and asked for
can be stored. -/
theorem PipeData.read_keeps_iff (d : PipeData) (dst : ℕ → Bool) (n : ℤ) :
    (d.read dst n).Keeps d ↔ ∀ i < min n.toNat d.buf.count, dst i = true := by
  obtain ⟨out, extra, hgot, hret, hcontents, hend⟩ := copyLoop_spec dst n.toNat 0 d []
  have hgot' : (d.read dst n).got = out := hgot
  have hret' : (d.read dst n).ret = out.length := hret.trans (Nat.zero_add _)
  have hcontents' : d.buf.contents = out ++ extra ++ (d.read dst n).pipe.buf.contents := hcontents
  simp only [Nat.zero_add] at hend
  rw [PipeRead.Keeps, hgot', hret', hcontents']
  rcases hend with ⟨rfl, hall⟩ | ⟨hlen, i, hi, hfault⟩
  · exact ⟨fun _ => hall, fun _ => ⟨by rw [append_nil], rfl⟩⟩
  · constructor
    · rintro ⟨heq, -⟩
      have := congrArg List.length heq
      rw [length_append, length_append, length_append] at this
      omega
    · intro hall
      rw [hall i hi] at hfault
      cases hfault

namespace PipeSys

variable {s : PipeSys} {t : Fin nProc}

theorem exists_access (hin : s.sys.pc t = .inside) (d : PipeData) (k : PipePc) :
    ∃ s', s.act (.access t d) t k = some s' ∧ s'.pipe = d ∧ s'.sys.pc t = .inside ∧
    s'.pc t = k := by
  simp only [act, SleepSys.step, hin, if_true]
  exact ⟨_, rfl, rfl, hin, Function.update_self _ _ _⟩

theorem exists_wakeup (hin : s.sys.pc t = .inside) (c : PipeChan) (k : PipePc) :
    ∃ s', s.act (.wakeup t c) t k = some s' ∧ s'.pipe = s.pipe ∧ s'.pc t = k := by
  simp only [act, SleepSys.step, hin, if_true]
  exact ⟨_, rfl, rfl, Function.update_self _ _ _⟩

theorem reach_next {s' : PipeSys} (hin : s.sys.pc t = .inside) (hnext : s.next t = some s') :
    Runs.Reach step (fun _ a => a = .next t) s s' := by
  refine .step (a := .next t) .init rfl ?_
  rw [step, if_pos hin, hnext]
  rfl

/-- **The loop is what the reader does**: from the first turn of the second loop, its steps lead to
the last `wakeup` with the pipe and the result of the loop. -/
theorem exists_copyLoop {dst : ℕ → Bool} {n : ℤ} {i k : ℕ} (hk : k = (n - i).toNat)
    (hin : s.sys.pc t = .inside) (hpc : s.pc t = .readCopy dst n i) (got : List UInt8) :
    ∃ s', Runs.Reach step (fun _ a => a = .next t) s s' ∧
      s'.pipe = (PipeData.copyLoop dst k i s.pipe got).pipe ∧
      s'.pc t = .leave (PipeData.copyLoop dst k i s.pipe got).ret := by
  induction k generalizing s i got with
  | zero =>
    have hlast : ¬ (i : ℤ) < n := by omega
    obtain ⟨s', hact, hpipe, hleave⟩ := exists_wakeup hin .nwrite (.leave i)
    refine ⟨s', reach_next hin ?_, hpipe, hleave⟩
    rw [next, hpc]
    simp only [hlast, if_false]
    exact hact
  | succ k ih =>
    have hlt : (i : ℤ) < n := by omega
    rw [PipeData.copyLoop]
    cases hempty : s.pipe.empty with
    | true =>
      obtain ⟨s', hact, hpipe, hleave⟩ := exists_wakeup hin .nwrite (.leave i)
      refine ⟨s', reach_next hin ?_, hpipe, hleave⟩
      rw [next, hpc]
      simp only [hlt, if_true, hempty]
      exact hact
    | false =>
      cases hdst : dst i with
      | true =>
        obtain ⟨s1, hact, hpipe, hin1, hpc1⟩ :=
          exists_access hin s.pipe.take (.readCopy dst n (i + 1))
        obtain ⟨s', hreach, hpipe', hleave⟩ :=
          ih (i := i + 1) (by omega) hin1 hpc1 (got ++ [s.pipe.buf.head])
        rw [hpipe] at hpipe' hleave
        refine ⟨s', (reach_next hin ?_).trans hreach, hpipe', hleave⟩
        rw [next, hpc]
        simp only [hlt, if_true, hempty, hdst, Bool.false_eq_true, if_false]
        exact hact
      | false =>
        obtain ⟨s1, hact, hpipe, hin1, hpc1⟩ :=
          exists_access hin s.pipe.take (.wake .nwrite i)
        obtain ⟨s', hact', hpipe', hleave⟩ := exists_wakeup hin1 .nwrite (.leave i)
        refine ⟨s', (reach_next hin ?_).trans (reach_next hin1 ?_), hpipe'.trans hpipe, hleave⟩
        · rw [next, hpc]
          simp only [hlt, if_true, hempty, hdst, Bool.false_eq_true, if_false]
          exact hact
        · rw [next, hpc1]
          exact hact'

end PipeSys

/-! ### The console -/

namespace ConsoleSys

variable {ι : Type}

/-- A call that returned `r` removed what it stored, or, with `r = 0`, one control-D; `r` is how
much it stored, and what is left to read follows what its last section removed. -/
def Keeps (s : ConsoleSys ι) (k : ReadCall) (sec : Section) (r : ℤ) : Prop :=
  (sec.gone = sec.got ∨ r = 0 ∧ sec.gone = sec.got ++ [ctrl 'D']) ∧ r = sec.got.length ∧
    s.cons.unread = sec.gone.drop k.gone.length ++ sec.cons.unread

variable [DecidableEq ι] {s : ConsoleSys ι}

/-- **A read of the console keeps to what it stored** exactly when its last section can store each
byte within its reach. -/
theorem Inv.keeps_iff (h : s.Inv) {p : ι} {k : ReadCall} (hk : s.call p = some k) {killed : Bool}
    {r : ℤ} (hret : (s.sectionOf k killed).stop = .ret r) (hr : 0 ≤ r) :
    s.Keeps k (s.sectionOf k killed) r ↔ Cons.Storable k.dst k.target k.n s.cons.unread := by
  obtain ⟨out, extra, hsec⟩ := h.section hk killed
  have hcall := h.calls p k hk
  have hcount := hcall.count
  have hdrop : (s.sectionOf k killed).gone.drop k.gone.length = out ++ extra := by
    rw [hsec.gone, drop_left]
  have hend := hsec.ending
  rw [Keeps, hdrop, hsec.got, hsec.gone, hcall.same]
  rw [hret] at hend
  cases hend with
  | killed _ _ _ _ => exact absurd hr (by decide)
  | returned _ hst hout =>
    refine iff_of_true ⟨.inl (by rw [append_nil]), ?_, hsec.unread⟩ hst
    rw [length_append]
    push_cast
    omega
  | eof hn hreach =>
    have hnil : k.got = [] := length_eq_zero_iff.1 (by omega)
    refine iff_of_true ⟨.inr ⟨rfl, by simp⟩, by simp [hnil], hsec.unread⟩ fun i hi => ?_
    rw [hreach] at hi
    exact absurd hi (Nat.not_lt_zero i)
  | fault _ b hb hlt hdst =>
    refine iff_of_false ?_ fun hst => ?_
    · rintro ⟨hsame | ⟨-, heof⟩, -⟩
      · have := congrArg List.length hsame
        simp at this
      · rw [← append_assoc] at heof
        exact hb (by simpa using append_cancel_left heof)
    · rw [hst _ hlt] at hdst
      cases hdst

end ConsoleSys

/-- **Which reads keep to what they stored.**  A `piperead` in any state of the pipe does exactly
when each byte that is there and asked for can be stored.  A `consoleread` does, in any state that
typing and reading reach, exactly when its last section can store each byte up to the end of the
line or the file that is there and asked for. -/
theorem reads_keep_bytes_iff {ι : Type} [DecidableEq ι] :
    (∀ (d : PipeData) (dst : ℕ → Bool) (n : ℤ),
      (d.read dst n).Keeps d ↔ ∀ i < min n.toNat d.buf.count, dst i = true) ∧
    ∀ s : ConsoleSys ι, Runs.Reach ConsoleSys.step (fun _ _ => True) ConsoleSys.start s →
      ∀ p k killed r, s.call p = some k → (s.sectionOf k killed).stop = .ret r → 0 ≤ r →
        (s.Keeps k (s.sectionOf k killed) r ↔
          Cons.Storable k.dst k.target k.n s.cons.unread) := by
  refine ⟨PipeData.read_keeps_iff, fun s hs p k killed r hk hret hr => ?_⟩
  have hinv : s.Inv := hs.invariant ConsoleSys.inv_start fun _ _ _ hi _ hst => hi.step hst
  exact hinv.keeps_iff hk hret hr

/-- A line that is read into a buffer with room for it. -/
theorem reads_keep_bytes_line : ∃ (s : ConsoleSys (Fin 2)) (k : ReadCall),
    Runs.Reach ConsoleSys.step (fun _ _ => True) ConsoleSys.start s ∧ s.call 0 = some k ∧
    (s.sectionOf k false).stop = .ret 2 ∧
    (s.Keeps k (s.sectionOf k false) 2 ↔ Cons.Storable k.dst k.target k.n s.cons.unread) := by
  have hrun : ∃ s : ConsoleSys (Fin 2),
      Runs.Reach ConsoleSys.step (fun _ _ => True) ConsoleSys.start s ∧
      (s.call 0).any (fun k => decide ((s.sectionOf k false).stop = .ret 2)) = true :=
    Runs.exists_reach_of_exec [.intr 97, .intr 13, .read 0 5 (fun _ => true)] (by decide +kernel)
  obtain ⟨s, hreach, hany⟩ := hrun
  obtain ⟨k, hk, hstop⟩ := (Option.any_eq_true _ _).1 hany
  have hstop' := of_decide_eq_true hstop
  exact ⟨s, k, hreach, hk, hstop',
    reads_keep_bytes_iff.2 s hreach 0 k false 2 hk hstop' (by decide)⟩

/-- **Bytes are swallowed.**  The pipe and the console both have two bytes, and the destination has
room for one: each read stores and returns 1 and removes both. -/
theorem reads_swallow_byte :
    (∃ s, Runs.Reach PipeSys.step (fun _ _ => True) PipeSys.threeProcs s ∧
      s.pipe.stored = [65, 66] ∧ s.pipe.removed = [65, 66] ∧ s.ret 0 = 1) ∧
    ∃ s : ConsoleSys (Fin 2),
      Runs.Reach ConsoleSys.step (fun _ _ => True) ConsoleSys.start s ∧
      s.finished.map (fun f => (f.got, f.gone, f.ret)) = [([97], [97, 98], 1)] ∧
      s.cons.unread = [10] := by
  constructor
  · exact Runs.exists_reach_of_exec
      (PipeSys.writerDone 2 ++ [.piperead 0 (fun i => decide (i < 1)) 2, .next 0, .next 0, .next 0,
        .next 0] ++ List.replicate 191 (.run 0) ++ [.next 0]) (by decide +kernel)
  · exact Runs.exists_reach_of_exec
      [.intr 97, .intr 98, .intr 10, .read 0 5 (fun i => decide (i < 1)), .run 0 false]
      (by decide +kernel)

end CsklubOs
