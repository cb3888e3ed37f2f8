/-
**The contents of a file as a row of bytes.**

What `readi` and `writei` are for, said without blocks.

Main definitions:

* `contents` — the bytes of a file;
* `ArrayStep` — reading takes a part of them and writing overwrites a part, as far as the disk has
  room and the source can be read.

Main results:

* `runOps_array` — any sequence of calls is such steps.
-/

import CsklubOs.ByteSeq
import CsklubOs.InodeOps

set_option autoImplicit false

namespace CsklubOs

open Function List

namespace Fs

open Wp ByteSeq

variable [Superblock] {s0 s : Fs} {p : IPtr} {E : FsPanic → Prop} {src : List UInt8} {off0 n : ℕ}

/-! ### Blocks that are passed to the log -/

/-- No block is free. -/
def Full (s : Fs) : Prop := ∀ b < Superblock.size, s.used b = true

/-- Every block that differs from `s0` was passed to `log_write`. -/
structure Clean (s0 s : Fs) : Prop where
  boot : s.used 0 = true
  logged : ∀ b, s.data b = s0.data b ∨ b ∈ s.logged

omit [Superblock] in
theorem Clean.write {s' : Fs} (h : Clean s0 s) {b : ℕ} {blk : Block} (hused : s'.used 0 = true)
    (hdata : s'.data = update s.data b blk) (hlog : b ∈ s'.logged)
    (hmono : ∀ c ∈ s.logged, c ∈ s'.logged) : Clean s0 s' := by
  refine ⟨hused, fun c => ?_⟩
  by_cases hc : c = b
  · rw [hc]
    exact .inr hlog
  · rw [hdata, update_of_ne hc]
    exact (h.logged c).imp id (hmono c)

theorem wp_balloc_clean (h : Clean s0 s) :
    wp balloc (fun b s' => Clean s0 s' ∧ (b = 0 → Full s')) E s := by
  rw [balloc, wp_bind, wp_get]
  split
  · rename_i hnone
    refine wp_pure.2 ⟨h, fun _ b hb => ?_⟩
    exact firstFree_eq_none hnone (Nat.zero_le b) (by omega)
  · rename_i b hsome
    have hb : b ≠ 0 := by
      rintro rfl
      have hboot := h.boot
      rw [(firstFree_eq_some hsome).2.2] at hboot
      cases hboot
    rw [wp_bind, wp_set, logWrite, wp_bind, wp_modify, bzero, logWrite, modifyBlock, wp_bind,
      wp_bind, wp_modify, wp_modify, wp_pure]
    refine ⟨h.write (b := b) ?_ rfl mem_cons_self fun c hc => ?_, fun h0 => absurd h0 hb⟩
    · simp only [update_of_ne hb.symm]
      exact h.boot
    · exact mem_cons_of_mem _ (mem_cons_of_mem _ hc)

theorem wp_mapAddr_clean (h : Clean s0 s) (k : Fin (nDirect + 1)) :
    wp (mapAddr p k) (fun addr s' => Clean s0 s' ∧ (addr = 0 → Full s')) E s := by
  rw [mapAddr, wp_bind, wp_get]
  refine wp_ite (fun _ => ?_) fun hk => wp_pure.2 ⟨h, fun h0 => absurd h0 hk⟩
  rw [wp_bind]
  refine (wp_balloc_clean h).mono ?_
  rintro addr s1 ⟨hc, hfull⟩
  refine wp_ite (fun h0 => ?_) fun h0 => ?_
  · exact wp_pure.2 ⟨hc, fun _ => hfull h0⟩
  · rw [wp_bind, setAddr, modifyD, modifyInode, wp_modify]
    exact wp_pure.2 ⟨⟨hc.boot, hc.logged⟩, fun h0' => absurd h0' h0⟩

theorem wp_mapEntry_clean (h : Clean s0 s) (a j : ℕ) :
    wp (mapEntry a j) (fun addr s' => Clean s0 s' ∧ (addr = 0 → Full s')) E s := by
  rw [mapEntry, wp_bind, wp_get]
  refine wp_ite (fun _ => ?_) fun hk => wp_pure.2 ⟨h, fun h0 => absurd h0 hk⟩
  rw [wp_bind]
  refine (wp_balloc_clean h).mono ?_
  rintro addr s1 ⟨hc, hfull⟩
  refine wp_ite (fun h0 => ?_) fun h0 => ?_
  · exact wp_pure.2 ⟨hc, fun _ => hfull h0⟩
  · rw [wp_bind, modifyBlock, wp_modify, wp_bind, logWrite, wp_modify]
    refine wp_pure.2 ⟨hc.write (b := a) hc.boot rfl mem_cons_self fun c hc' => ?_,
      fun h0' => absurd h0' h0⟩
    exact mem_cons_of_mem _ hc'

/-- **`bmap`** passes what it changes to the log, and finds no block only if there is none. -/
theorem wp_bmap_clean (h : Clean s0 s) {bn : ℕ} (hbn : bn < maxFile) :
    wp (bmap p bn) (fun addr s' => Clean s0 s' ∧ (addr = 0 → Full s')) E s := by
  unfold bmap
  split
  · exact wp_mapAddr_clean h _
  · obtain ⟨hlt, -⟩ := slotOfBlock_entry hbn ‹_›
    rw [if_pos hlt, wp_bind]
    refine (wp_mapAddr_clean h indirect).mono fun addr s1 ⟨hc, hfull⟩ =>
      wp_ite (fun h0 => ?_) fun h0 => ?_
    · exact wp_pure.2 ⟨hc, fun _ => hfull h0⟩
    · exact wp_mapEntry_clean hc addr (bn - nDirect)

/-! ### How the loop of `writei` ends -/

/-- The state with `bs` stored in a block of the file that `p` refers to, where byte `off` is. -/
def storePart (s : Fs) (p : IPtr) (off : ℕ) (bs : List UInt8) : Fs :=
  let b := blockNo s.data (s.itable p).d (off / bSize)
  { s with data := update s.data b ((s.data b).write (off % bSize) bs) }

/-- How the loop of `writei` ends that has written `tot` bytes and came to `s1`: with all of them,
with a full disk, or with a source that cannot be read. -/
inductive LoopEnd (p : IPtr) (src : List UInt8) (off0 n tot : ℕ) (s1 : Fs) : Fs → Prop
  | all : tot = n → LoopEnd p src off0 n tot s1 s1
  | full : Full s1 → blockNo s1.data (s1.itable p).d ((off0 + tot) / bSize) = 0 →
      LoopEnd p src off0 n tot s1 s1
  | fault : tot < n → src.length < tot + min (n - tot) (bSize - (off0 + tot) % bSize) →
      blockNo s1.data (s1.itable p).d ((off0 + tot) / bSize) ≠ 0 →
      LoopEnd p src off0 n tot s1 (s1.storePart p (off0 + tot) (src.drop tot))

/-- What the loop of `writei` has done when it ends. -/
structure LoopDone (p : IPtr) (src : List UInt8) (off0 n : ℕ) (s0 : Fs) (tot : ℕ) (s' : Fs) : Prop
    where
  le : tot ≤ n
  le_src : tot ≤ src.length
  cut : tot = 0 ∨ tot = n ∨ (off0 + tot) % bSize = 0
  run : ∃ s1, Written p src off0 0 s0 tot s1 ∧ Clean s0 s1 ∧ LoopEnd p src off0 n tot s1 s'

/-- **The loop of `writei`**, up to the byte that it stops at. -/
theorem wp_writeLoop_end {fuel tot : ℕ} (h : Written p src off0 0 s0 tot s) (hclean : Clean s0 s)
    (hfuel : n ≤ tot + fuel) (htot : tot ≤ n) (hsrc : tot ≤ src.length)
    (hmax : off0 + n ≤ maxFile * bSize) (hcut : tot = 0 ∨ tot = n ∨ (off0 + tot) % bSize = 0) :
    wp (writeLoop p src n fuel tot (off0 + tot)) (fun r s' => r.2 = off0 + r.1 ∧
      LoopDone p src off0 n s0 r.1 s') E s := by
  induction fuel generalizing tot s with
  | zero =>
    exact wp_pure.2 ⟨rfl, htot, hsrc, hcut, s, h, hclean, .all (by omega)⟩
  | succ fuel ih =>
    refine wp_ite (fun hlt => ?_) fun _ =>
      wp_pure.2 ⟨rfl, htot, hsrc, hcut, s, h, hclean, .all (by omega)⟩
    have hpos : 0 < bSize := by decide
    have hbn : (off0 + tot) / bSize < maxFile := (Nat.div_lt_iff_lt_mul hpos).2 (by omega)
    rw [wp_bind]
    refine ((wp_bmap h.ok hbn).and (wp_bmap_clean hclean hbn)).mono ?_
    rintro addr s1 ⟨⟨hok, hg, haddr⟩, hclean1, hfull⟩
    have h1 := h.grown hg hok
    refine wp_ite (fun h0 => ?_) fun h0 => ?_
    · exact wp_pure.2 ⟨rfl, htot, hsrc, hcut, s1, h1, hclean1,
        .full (hfull h0) (haddr.trans h0)⟩
    rw [← haddr] at h0 ⊢
    have hm := Nat.mod_lt (off0 + tot) hpos
    rw [wp_bind, modifyBlock, wp_modify]
    refine wp_ite (fun hfault => ?_) fun hfault => ?_
    · -- all that is left of the source was stored
      have htake : (src.drop tot).take (min (n - tot) (bSize - (off0 + tot) % bSize)) =
          src.drop tot := by
        rw [take_of_length_le]
        rw [length_drop]
        omega
      rw [htake]
      exact wp_pure.2 ⟨rfl, htot, hsrc, hcut, s1, h1, hclean1, .fault hlt hfault h0⟩
    · generalize hmdef : min (n - tot) (bSize - (off0 + tot) % bSize) = m at hfault ⊢
      have hbs : ((src.drop tot).take m).length = m ∧
          ∀ k < m, ((src.drop tot).take m).getD k 0 = src.getD (tot + k) 0 := by
        refine ⟨by rw [length_take, length_drop]; omega, fun k hk => ?_⟩
        rw [getD_eq_getElem?_getD, List.getElem?_take_of_lt hk, List.getElem?_drop,
          getD_eq_getElem?_getD]
      rw [wp_bind, logWrite, wp_modify]
      have h2 : Written p src off0 0 s0 (tot + m) { s1 with
          data := update s1.data _ ((s1.data _).write ((off0 + tot) % bSize) _)
          logged := blockNo s1.data (s1.itable p).d ((off0 + tot) / bSize) :: s1.logged } :=
        h1.write h0 ((src.drop tot).take m) rfl rfl rfl rfl (by omega) fun _ => hbs
      rw [Nat.add_assoc]
      refine ih h2 (hclean1.write hclean1.boot rfl mem_cons_self fun c hc =>
        mem_cons_of_mem _ hc) (by omega) (by omega) (by omega) ?_
      by_cases hend : m = n - tot
      · exact .inr (.inl (by omega))
      · refine .inr (.inr ?_)
        have hdm := Nat.div_add_mod (off0 + tot) bSize
        have hsum : off0 + (tot + m) = bSize * ((off0 + tot) / bSize + 1) := by
          rw [Nat.mul_add]
          omega
        rw [hsum]
        exact Nat.mul_mod_right _ _

/-- What `writei` has done when it returns `tot`: the loop ended in `s2`, and the size was set. -/
structure Ended (p : IPtr) (src : List UInt8) (off n : ℕ) (s : Fs) (tot : ℕ) (s2 s' : Fs) : Prop
    where
  loop : LoopDone p src off n s tot s2
  used : s'.used = s2.used
  data : s'.data = s2.data
  logged : ∃ b, s'.logged = b :: s2.logged
  d : (s'.itable p).d = { (s2.itable p).d with size := max (s2.itable p).d.size (off + tot) }

variable {off : ℕ}

theorem wp_writei_end (h : EffOk p s) (src : List UInt8) (hoff : off ≤ (s.itable p).d.size)
    (hmax : off + n ≤ maxFile * bSize) :
    wp (writei p src off n) (fun r s' => ∃ tot s2, r = some tot ∧ Ended p src off n s tot s2 s') E
      s := by
  have hbig : maxFile * bSize < 2 ^ 32 := by decide
  have hboot : s.used 0 = true := h.disk.reserved 0 (by have := Superblock.nblocks_lt; omega)
  have hstart : Written p src off 0 s 0 s := Written.start h hoff
  rw [writei, wp_bind, wp_get, if_neg (by omega), if_neg (by omega), wp_bind]
  refine (wp_writeLoop_end hstart ⟨hboot, fun _ => .inl rfl⟩ (by omega) (by omega) (by omega) hmax
    (.inl rfl)).mono ?_
  rintro r s2 ⟨hr, hdone⟩
  rw [wp_bind, modifyD, modifyInode, wp_modify, wp_bind, iupdate, wp_bind, wp_get, wp_bind, wp_set,
    logWrite, wp_modify, wp_pure]
  refine ⟨r.1, s2, rfl, hdone, rfl, rfl, ⟨_, rfl⟩, ?_⟩
  simp only [update_self, hr]

/-! ### Files as rows of bytes -/

/-- The bytes of a file. -/
def contents (s : Fs) (i : ℕ) : List UInt8 := fbytes s.data (s.dinode i) 0 (s.dinode i).size

/-- A call of `writei` or `readi` on an inode that is held. -/
inductive FileOp
  | write (p : IPtr) (src : List UInt8) (off n : ℕ)
  | read (p : IPtr) (off n : ℕ)

/-- What such a call returns. -/
inductive FileRes
  | wrote (r : Option ℕ)
  | delivered (bytes : Option (List UInt8))

/-- The call; the destination of a read can be written. -/
def runOp : FileOp → FsM FileRes
  | .write p src off n => do
    let r ← writei p src off n
    pure (.wrote r)
  | .read p off n => do
    let r ← readi p off n n
    pure (.delivered r)

def FileOp.ptr : FileOp → IPtr
  | .write p _ _ _ => p
  | .read p _ _ => p

/-- The inode is held and valid, and the source of a write can be read. -/
def FileOp.Possible (s : Fs) (R : Multiset IPtr) (op : FileOp) : Prop :=
  (op.ptr ∈ R ∧ (s.itable op.ptr).valid = true) ∧
    match op with
    | .write _ src _ n => n ≤ src.length
    | .read _ _ _ => True

/-- **What a call does to rows of bytes.**  A write within the bounds replaces bytes from `off` on,
all of them unless no block is left; a write outside of them is refused.  A read delivers what there
is. -/
inductive ArrayStep (s s' : Fs) : FileOp → FileRes → Prop
  | write {p : IPtr} {src : List UInt8} {off n r : ℕ} : off ≤
      (contents s (s.itable p).inum).length → off + n < 2 ^ 32 → off + n ≤ maxFile * bSize → r ≤ n →
      (r = n ∨ Full s') → contents s' (s.itable p).inum =
      splice (contents s (s.itable p).inum) off (src.take r) →
      (s'.dinode (s.itable p).inum).size = max (s.dinode (s.itable p).inum).size (off + r) →
      (∀ j ≠ (s.itable p).inum, Allocated s.dinode j → contents s' j = contents s j) →
      ArrayStep s s' (.write p src off n) (.wrote (some r))
  | refused {p : IPtr} {src : List UInt8} {off n : ℕ} :
      ¬ (off ≤ (contents s (s.itable p).inum).length ∧ off + n < 2 ^ 32 ∧
        off + n ≤ maxFile * bSize) →
      s' = s → ArrayStep s s' (.write p src off n) (.wrote none)
  | read {p : IPtr} {off n : ℕ} :
      off ≤ (contents s (s.itable p).inum).length → off + n < 2 ^ 32 → s' = s →
      ArrayStep s s' (.read p off n)
        (.delivered (some (((contents s (s.itable p).inum).drop off).take n)))
  | nothing {p : IPtr} {off n : ℕ} :
      ¬ (off ≤ (contents s (s.itable p).inum).length ∧ off + n < 2 ^ 32) → s' = s →
      ArrayStep s s' (.read p off n) (.delivered (some []))

/-- A sequence of calls, each of which returns and does to the rows of bytes what it should. -/
inductive ArrayRun : Fs → List FileOp → List FileRes → Fs → Prop
  | nil {s : Fs} : ArrayRun s [] [] s
  | cons {s s1 s' : Fs} {op : FileOp} {ops : List FileOp} {r : FileRes} {rs : List FileRes} :
      runOp op s = .ok (r, s1) → ArrayStep s s1 op r → ArrayRun s1 ops rs s' →
      ArrayRun s (op :: ops) (r :: rs) s'

variable {R : Multiset IPtr}

section

omit [Superblock]

@[simp] theorem length_contents (s : Fs) (i : ℕ) : (contents s i).length = (s.dinode i).size :=
  length_fbytes _ _ _ _

theorem take_drop_contents (s : Fs) (i off n : ℕ) :
    ((contents s i).drop off).take n =
      fbytes s.data (s.dinode i) off (min n ((s.dinode i).size - off)) := by
  refine ext_getElem (by simp) fun k h1 h2 => ?_
  simp [contents, fbytes]

theorem fbytes_eq_splice_iff {data data' : ℕ → Block} {d d' : Dinode} {r m : ℕ}
    (hoff : off ≤ d.size) (hr : r ≤ src.length) (hm : m = max d.size (off + r)) :
    fbytes data' d' 0 m = splice (fbytes data d 0 d.size) off (src.take r) ↔
      ∀ x < m, fbyte data' d' x =
        if off ≤ x ∧ x < off + r then src.getD (x - off) 0 else fbyte data d x := by
  have hlen : (src.take r).length = r := by
    rw [length_take]
    omega
  simp only [fbytes, Nat.zero_add]
  rw [map_range_eq_splice_iff hoff (by rw [hlen]; exact hm)]
  refine forall_congr' fun x => forall_congr' fun _ => ?_
  rw [hlen]
  by_cases hx : off ≤ x ∧ x < off + r
  · rw [if_pos hx, if_pos hx, List.getElem?_take_of_lt (by omega),
      List.getElem?_eq_getElem (by omega), getD_eq_getElem _ _ (by omega), Option.some_inj]
  · rw [if_neg hx, if_neg hx, Option.some_inj]

end

theorem contents_of_keeps {s' : Fs} {i j : ℕ} (h : DiskOk s.used s.data s.dinode)
    (hk : Keeps (fun j _ => j ≠ i) s.data s.dinode s'.data s'.dinode)
    (hd : s'.dinode j = s.dinode j) (hj : Allocated s.dinode j) (hji : j ≠ i) :
    contents s' j = contents s j := by
  rw [contents, hd]
  refine map_congr_left fun x hx => ?_
  rw [mem_range] at hx
  have hle : (0 + x) / bSize * bSize ≤ 0 + x := Nat.div_mul_le_self _ _
  have hb := hk.fbyte hj (x := 0 + x) hji (h.mapped j hj _ (by omega))
  rwa [hd] at hb

theorem writei_refused
    (h : ¬ (off ≤ (s.itable p).d.size ∧ off + n < 2 ^ 32 ∧ off + n ≤ maxFile * bSize)) :
    writei p src off n s = .ok (none, s) := by
  refine eq_ok_of_wp ?_
  rw [writei, wp_bind, wp_get]
  refine wp_ite (fun _ => wp_pure.2 ⟨rfl, rfl⟩) fun h1 => wp_ite (fun _ => wp_pure.2 ⟨rfl, rfl⟩)
    fun h2 => absurd ⟨?_, ?_, ?_⟩ h
  all_goals omega

/-- **A call does what it should**, and the invariant holds again. -/
theorem wp_runOp {op : FileOp} (h : FsOk s R) (hop : op.Possible s R) :
    wp (runOp op) (fun r s' => FsOk s' R ∧ Kept R s s' ∧ ArrayStep s s' op r) E s := by
  cases op with
  | write p src off n =>
    obtain ⟨⟨hp, hv⟩, hsrc⟩ := hop
    have hd := (h.sync p hp hv).1
    have hlen := length_contents s (s.itable p).inum
    rw [runOp, wp_bind]
    by_cases hin : off ≤ (s.itable p).d.size ∧ off + n < 2 ^ 32 ∧ off + n ≤ maxFile * bSize
    · have hdone : wp (writei p src off n) (fun r s' => ∃ tot, r = some tot ∧ FsOk s' R ∧
          Kept R s s' ∧ WriteDone p src off n tot s s') E s :=
        wp_writei h hp hv (fun hout => by rw [← hd] at hout; omega)
          fun tot s' h' hk hw => ⟨tot, rfl, h', hk, hw⟩
      have hend := wp_writei_end (E := E) (h.effOk hp hv) src hin.1 hin.2.2
      refine (hdone.and hend).mono ?_
      rintro _ s' ⟨⟨tot, rfl, h', hk, hw⟩, tot', s2, htot, hfin⟩
      obtain rfl := Option.some.inj htot
      obtain ⟨a, ha⟩ := hw.dinode
      have hsize : (s'.dinode (s.itable p).inum).size =
          max (s.dinode (s.itable p).inum).size (off + tot) := by
        rw [ha, update_self]
      rw [hd] at hin
      refine wp_pure.2 ⟨h', hk, .write (by rw [hlen]; exact hin.1) hin.2.1 hin.2.2 hw.le ?_ ?_ hsize
        fun j hji hj => ?_⟩
      · obtain ⟨s1, -, -, hend⟩ := hfin.loop.run
        cases hend with
        | all heq => exact .inl heq
        | full hfull _ => exact .inr fun b hb => by rw [hfin.used]; exact hfull b hb
        | fault hlt hfault _ =>
          omega
      · exact (fbytes_eq_splice_iff hin.1 (hw.le.trans hsrc) hsize).2 (hw.bytes hsrc)
      · exact contents_of_keeps h.disk hw.others (by rw [ha, update_of_ne hji]) hj hji
    · refine (wp_of_ok (writei_refused hin)).2 (wp_pure.2 ⟨h, Kept.refl R s, .refused ?_ rfl⟩)
      rwa [hlen, ← hd]
  | read p off n =>
    obtain ⟨⟨hp, hv⟩, -⟩ := hop
    have hlen := length_contents s (s.itable p).inum
    rw [runOp, wp_bind]
    refine wp_readi h hp hv (wp_pure.2 ⟨h, Kept.refl R s, ?_⟩)
    rw [readResult]
    split
    · rename_i hout
      exact .nothing (by omega) rfl
    · rename_i hin
      rw [if_neg (by omega), ← take_drop_contents]
      exact .read (by omega) (by omega) rfl

/-- **Files are rows of bytes**: any sequence of calls on inodes that are held, with sources and
destinations that are accessible, returns, and each call does to the bytes of the files what it
should. -/
theorem runOps_array {ops : List FileOp} (h : FsOk s R) (hops : ∀ op ∈ ops, op.Possible s R) :
    ∃ rs s', ArrayRun s ops rs s' ∧ FsOk s' R := by
  induction ops generalizing s with
  | nil => exact ⟨[], s, .nil, h⟩
  | cons op ops ih =>
    obtain ⟨r, s1, hrun, h1, hkept, hstep⟩ :=
      (wp_runOp h (hops op mem_cons_self)).exists_ok
    have hops1 : ∀ op' ∈ ops, op'.Possible s1 R := by
      intro op' hop'
      obtain ⟨⟨hp, hv⟩, hacc⟩ := hops op' (mem_cons_of_mem op hop')
      exact ⟨⟨hp, (hkept _ hp).2 hv⟩, hacc⟩
    obtain ⟨rs, s', hruns, h'⟩ := ih h1 hops1
    exact ⟨r :: rs, s', .cons hrun hstep hruns, h'⟩

omit [Superblock] in
/-- Appending to a file of one byte, and reading all of it. -/
theorem runOps_array_append : ∃ (_ : Superblock) (s : Fs) (R : Multiset IPtr), FsOk s R ∧
    (s.dinode 1).size = 1 ∧ ∃ rs s', ArrayRun s
      [.write ⟨0, by decide⟩ [66, 67] 1 2, .read ⟨0, by decide⟩ 0 3] rs s' ∧ FsOk s' R := by
  let S : Superblock := InodeSys.smallDisk
  have hrun : ∃ s : InodeSys, FsOk s.fs (s.held : Multiset IPtr) ∧
      (⟨0, by decide⟩ : IPtr) ∈ s.held ∧ (s.fs.itable ⟨0, by decide⟩).valid = true ∧
      (s.fs.dinode 1).size = 1 :=
    InodeSys.exists_fsOk [.create .file 0 0, .writei (0 : Fin 50) [65] 0 1] (by decide +kernel)
  obtain ⟨s, hok, hheld, hvalid, hsize⟩ := hrun
  refine ⟨S, s.fs, s.held, hok, hsize, runOps_array hok fun op hop => ?_⟩
  rcases mem_pair.1 hop with rfl | rfl
  · exact ⟨⟨hheld, hvalid⟩, le_refl 2⟩
  · exact ⟨⟨hheld, hvalid⟩, trivial⟩

end Fs

end CsklubOs

