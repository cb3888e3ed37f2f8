/-
**The protocol between the disk driver and its device.**

The descriptors in use are those of the requests in flight, and the heads in the avail ring, in the
device and in the used ring are those of the requests whose buffer still belongs to the disk.

Main definitions:

* `Inv` — these accounts balance;
* `Protocol` — nothing is shared between requests, no entry of a ring is overwritten before it is
  consumed, and a completion clears `b->disk` of its own request.

Main results:

* `disk_protocol` — so it is in every run, and no panic is reached.
-/

import CsklubOs.Runs
import CsklubOs.Tally
import CsklubOs.Virtio

set_option autoImplicit false

namespace CsklubOs

open Function
open Multiset hiding range
open Finset (mem_univ range sum_congr univ)

namespace Virtio

open Wp

variable {β : Type} {s s' : Virtio β} {t t' : Fin nProc} {b : Fin nBuf} {i i0 i1 i2 : ℕ}

/-! ### The accounts -/

/-- The descriptors of a process that waits for its request. -/
def descs : DiskPc → Multiset ℕ
  | .wait _ i0 i1 i2 => {i0, i1, i2}
  | _ => 0

/-- The head of its chain, while the buffer belongs to the disk. -/
def pending (disk : Fin nBuf → Bool) : DiskPc → Multiset ℕ
  | .wait b i0 _ _ => if disk b then {i0} else 0
  | _ => 0

/-- The buffer that a process has given to `virtio_disk_rw`. -/
def bufOf : DiskPc → Option (Fin nBuf)
  | .outside => none
  | .alloc b _ => some b
  | .wait b _ _ _ => some b

/-- The descriptors that are in use. -/
def busy (s : Virtio β) : Multiset ℕ := (Multiset.range num).filter fun i => s.free i = false

/-- A request as `virtio_disk_rw` has formatted it. -/
structure Request (desc : ℕ → Desc) (info : ℕ → ReqInfo) (b : Fin nBuf) (i0 i1 i2 : ℕ) : Prop where
  first : desc i0 = ⟨.ops i0, 16, descNext, i1⟩
  second : (desc i1).flags &&& descNext ≠ 0 ∧ (desc i1).next = i2
  third : desc i2 = ⟨.status i0, 1, descWrite, 0⟩
  info : (info i0).b = some b

/-- **The accounts.** -/
structure Inv (s : Virtio β) : Prop where
  descs : ∑ t, descs (s.pc t) = s.busy
  waits : ∀ t b i0 i1 i2, s.pc t = .wait b i0 i1 i2 → Request s.desc s.info b i0 i1 i2 ∧
    (s.disk b = false ∨ i0 ∈ s.used.contents → s.served t = true)
  owner : ∀ t b, bufOf (s.pc t) = some b → s.owner b = some t
  heads : (s.avail.contents : Multiset ℕ) + s.taken + s.used.contents = ∑ t, pending s.disk (s.pc t)
  status : ∀ h ∈ s.used.contents, (s.info h).status = 0
  issued : s.issued = s.accepted ++ s.avail.contents
  completed : s.completed = s.processed ++ s.used.contents

/-! ### What follows from the accounts -/

theorem mem_busy : i ∈ s.busy ↔ i < num ∧ s.free i = false := by
  simp [busy]

theorem nodup_busy : s.busy.Nodup := (nodup_range num).filter _

theorem pending_le (disk : Fin nBuf → Bool) (k : DiskPc) : pending disk k ≤ descs k := by
  cases k with
  | wait b i0 i1 i2 =>
    simp only [pending, descs]
    split
    · simp
    · exact zero_le _
  | _ => exact le_rfl

section

variable (h : s.Inv)

include h

theorem Inv.descs_le (t : Fin nProc) : Virtio.descs (s.pc t) ≤ s.busy := by
  rw [← h.descs]
  exact Finset.single_le_sum (f := fun t => Virtio.descs (s.pc t)) (fun _ _ => zero_le _)
    (mem_univ t)

theorem Inv.disjoint (hne : t ≠ t') :
    Disjoint (Virtio.descs (s.pc t)) (Virtio.descs (s.pc t')) := by
  have hle : ∑ x ∈ {t, t'}, Virtio.descs (s.pc x) ≤ s.busy := by
    rw [← h.descs]
    exact Finset.sum_le_sum_of_subset (Finset.subset_univ _)
  rw [Finset.sum_pair hne] at hle
  exact (nodup_add.1 (nodup_of_le hle nodup_busy)).2.2

theorem Inv.pending_le_busy : ∑ t, pending s.disk (s.pc t) ≤ s.busy := by
  rw [← h.descs]
  exact Finset.sum_le_sum fun t _ => pending_le s.disk (s.pc t)

theorem Inv.heads_le : (s.avail.contents : Multiset ℕ) + s.taken + s.used.contents ≤ s.busy := by
  rw [h.heads]
  exact h.pending_le_busy

theorem Inv.count_le : s.avail.count + s.taken.length + s.used.count ≤ num := by
  have hle := card_le_card (h.heads_le.trans (filter_le _ _))
  simpa [Nat.add_assoc] using hle

theorem Inv.of_mem (hi : i ∈ (s.avail.contents : Multiset ℕ) + s.taken + s.used.contents) :
    ∃ t b i1 i2, s.pc t = .wait b i i1 i2 ∧ s.disk b = true := by
  rw [h.heads, mem_sum] at hi
  obtain ⟨t, -, ht⟩ := hi
  cases hpc : s.pc t with
  | wait b i0 i1 i2 =>
    rw [hpc] at ht
    simp only [pending] at ht
    split at ht
    · rename_i hb
      obtain rfl := mem_singleton.1 ht
      exact ⟨t, b, i1, i2, hpc, hb⟩
    · simp at ht
  | _ => simp [hpc, pending] at ht

theorem Inv.head_unique {b' : Fin nBuf} {i1' i2' : ℕ} (ht : s.pc t = .wait b i0 i1 i2)
    (ht' : s.pc t' = .wait b' i0 i1' i2') : t = t' := by
  by_contra hne
  have hd := h.disjoint hne
  rw [ht, ht', disjoint_left] at hd
  exact hd (a := i0) (by simp [Virtio.descs]) (by simp [Virtio.descs])

theorem Inv.chained (hpc : s.pc t = .wait b i0 i1 i2) : s.Chained i0 i1 i2 := by
  have hle := h.descs_le t
  rw [hpc] at hle
  have hr := (h.waits t b i0 i1 i2 hpc).1
  refine ⟨fun i hi => mem_busy.1 (mem_of_le hle ?_), ?_, ?_, hr.second, ?_⟩
  · simpa [Virtio.descs] using hi
  · have hn := nodup_of_le hle nodup_busy
    simpa [Virtio.descs] using hn
  · rw [hr.first]
    exact ⟨show descNext &&& descNext ≠ 0 by decide, rfl⟩
  · rw [hr.third]
    exact show descWrite &&& descNext = 0 by decide

end

/-! ### The sections of the driver -/

variable {k : DiskPc} {E : DiskPanic → Prop} {Q : Unit → Virtio β → Prop}

theorem descs_eq_zero (h : Virtio.descs k = 0) (b : Fin nBuf) (i0 i1 i2 : ℕ) :
    k ≠ .wait b i0 i1 i2 := by
  rintro rfl
  simp [Virtio.descs] at h

theorem pending_eq_zero (h : Virtio.descs k = 0) (disk : Fin nBuf → Bool) : pending disk k = 0 :=
  le_zero.1 (h ▸ pending_le disk k)

theorem Inv.goto (h : s.Inv) (c : Fin nProc → Option DiskChan) (h₀ : Virtio.descs (s.pc t) = 0)
    (hk : Virtio.descs k = 0) (howner : ∀ b, bufOf k = some b → s.owner b = some t) :
    Inv { s with chan := c, pc := update s.pc t k } := by
  have hwait : ∀ t' b i0 i1 i2, update s.pc t k t' = .wait b i0 i1 i2 →
      s.pc t' = .wait b i0 i1 i2 := by
    intro t' b i0 i1 i2 ht'
    by_cases hne : t' = t
    · rw [hne, update_self] at ht'
      exact absurd ht' (descs_eq_zero hk b i0 i1 i2)
    · rwa [update_of_ne hne] at ht'
  refine ⟨?_, fun t' b i0 i1 i2 ht' => h.waits t' b i0 i1 i2 (hwait t' b i0 i1 i2 ht'),
    fun t' b ht' => ?_, ?_, h.status, h.issued, h.completed⟩
  · have hsum := Tally.sum_update (mem_univ t) Virtio.descs s.pc k
    rw [h₀, hk, add_zero, add_zero] at hsum
    exact hsum.trans h.descs
  · by_cases hne : t' = t
    · subst hne
      exact howner b (by simpa using ht')
    · exact h.owner t' b (by simpa [update_of_ne hne] using ht')
  · have hsum := Tally.sum_update (mem_univ t) (pending s.disk) s.pc k
    rw [pending_eq_zero h₀, pending_eq_zero hk, add_zero, add_zero] at hsum
    exact h.heads.trans hsum.symm

theorem Inv.frame (h : s.Inv) (c : Fin nProc → Option DiskChan) (intr : Bool) :
    Inv { s with chan := c, intr := intr } :=
  ⟨h.descs, h.waits, h.owner, h.heads, h.status, h.issued, h.completed⟩

theorem Inv.setOwner (h : s.Inv) (hb : ∀ t, bufOf (s.pc t) ≠ some b) (o : Option (Fin nProc))
    (n : Fin nBuf → ℕ) : Inv { s with owner := update s.owner b o, blockno := n } := by
  refine ⟨h.descs, h.waits, fun t' b' ht' => ?_, h.heads, h.status, h.issued, h.completed⟩
  refine (update_of_ne ?_ _ _).trans (h.owner t' b' ht')
  rintro rfl
  exact hb t' ht'

theorem Inv.freed_nil (h : s.Inv) (hf : Freed s s' []) : s'.Inv := by
  have hfree : s'.free = s.free := funext fun i => by simp [hf.free]
  have hbusy : s'.busy = s.busy := by rw [busy, hfree, busy]
  have hpc : s'.pc = s.pc := by rw [hf.rest]
  have hinfo : s'.info = s.info := by rw [hf.rest]
  have hused : s'.used = s.used := by rw [hf.rest]
  have havail : s'.avail = s.avail := by rw [hf.rest]
  have htaken : s'.taken = s.taken := by rw [hf.rest]
  have hdisk : s'.disk = s.disk := by rw [hf.rest]
  refine ⟨by rw [hpc, hbusy, h.descs], fun t b i0 i1 i2 ht => ?_, fun t b ht => ?_,
    by rw [havail, htaken, hused, hdisk, hpc, h.heads], by rw [hused, hinfo]; exact h.status, ?_,
    ?_⟩
  · rw [hpc] at ht
    obtain ⟨hr, hserved⟩ := h.waits t b i0 i1 i2 ht
    have hu := (h.chained ht).used
    have hd : ∀ i ∈ [i0, i1, i2], s'.desc i = s.desc i := fun i hi =>
      hf.desc i (hu i hi).2 (List.not_mem_nil)
    refine ⟨⟨?_, ?_, ?_, by rw [hinfo]; exact hr.info⟩, ?_⟩
    · rw [hd i0 (by simp)]
      exact hr.first
    · rw [hd i1 (by simp)]
      exact hr.second
    · rw [hd i2 (by simp)]
      exact hr.third
    · rw [hf.rest]
      exact hserved
  · rw [hpc] at ht
    rw [hf.rest]
    exact h.owner t b ht
  · rw [hf.rest]
    exact h.issued
  · rw [hf.rest]
    exact h.completed

theorem Inv.submit {c : Fin nProc → Option DiskChan} (h : s.Inv) (write : Bool)
    (h₀ : Virtio.descs (s.pc t) = 0) (howner : s.owner b = some t)
    (hidx : ∀ i ∈ [i0, i1, i2], i < num ∧ s.free i = true) (hnodup : [i0, i1, i2].Nodup)
    (hs' : s' = { submit b write i0 i1 i2
        { s with free := fun i => s.free i && decide (i ∉ [i0, i1, i2]) } with
      served := update s.served t false
      chan := c
      pc := update s.pc t (.wait b i0 i1 i2) }) : s'.Inv := by
  -- the buffer and the descriptors are new
  have hbuf : ∀ t' b' j0 j1 j2, s.pc t' = .wait b' j0 j1 j2 → b' ≠ b := by
    rintro t' b' j0 j1 j2 ht' rfl
    have := h.owner t' b' (by rw [ht']; rfl)
    rw [howner, Option.some_inj] at this
    rw [← this] at ht'
    exact descs_eq_zero h₀ _ _ _ _ ht'
  have hnew : ∀ i ∈ [i0, i1, i2], i ∉ s.busy := fun i hi hb => by
    simp [(hidx i hi).2, mem_busy] at hb
  have hbusy : s'.busy = s.busy + {i0, i1, i2} := by
    refine (Multiset.Nodup.ext nodup_busy (nodup_add.2 ⟨nodup_busy, ?_, ?_⟩)).2 fun i => ?_
    · simpa using hnodup
    · exact disjoint_right.2 fun hi => hnew _ (by simpa using hi)
    · rw [mem_busy, mem_add, mem_busy, hs']
      simp only [Virtio.submit, insert_eq_cons, mem_cons, mem_singleton]
      grind
  have hhead : ∀ t' b' j0 j1 j2, s.pc t' = .wait b' j0 j1 j2 → ∀ j ∈ [j0, j1, j2],
      ∀ i ∈ [i0, i1, i2], j ≠ i := by
    rintro t' b' j0 j1 j2 ht' j hj i hi rfl
    exact hnew j hi (mem_busy.2 ((h.chained ht').used j hj))
  have hring : ∀ {i}, i ∈ (s.avail.contents : Multiset ℕ) + s.taken + s.used.contents → i ≠ i0 := by
    rintro i hi rfl
    exact hnew i (by simp) (mem_of_le h.heads_le hi)
  -- there is room in the avail ring
  have hroom : s.avail.count < num := by
    have hle : (s.avail.contents : Multiset ℕ) + s.taken + s.used.contents + {i0} ≤ s'.busy := by
      rw [hbusy]
      exact add_le_add h.heads_le (by simp)
    have hcard := card_le_card (hle.trans (filter_le _ _))
    simp only [card_add, coe_card, RingBuf.length_contents, card_singleton, card_range] at hcard
    omega
  have hcontents : (s.avail.put i0).contents = s.avail.contents ++ [i0] :=
    RingBuf.contents_put num_dvd num_lt _ _ hroom
  have hdisk : ∀ t', pending (update s.disk b true) (s.pc t') = pending s.disk (s.pc t') := by
    intro t'
    cases hpc : s.pc t' with
    | wait b' j0 j1 j2 =>
      simp only [pending, update_of_ne (hbuf t' b' j0 j1 j2 hpc)]
    | _ => rfl
  obtain ⟨⟨h01, h02⟩, h12⟩ : (i0 ≠ i1 ∧ i0 ≠ i2) ∧ i1 ≠ i2 := by simpa using hnodup
  subst hs'
  refine ⟨?_, fun t' b' j0 j1 j2 ht' => ?_, fun t' b' ht' => ?_, ?_, fun j hj => ?_, ?_,
    h.completed⟩
  · have hsum := Tally.sum_update (mem_univ t) Virtio.descs s.pc (.wait b i0 i1 i2)
    rw [h₀, add_zero, h.descs] at hsum
    rw [hbusy]
    exact hsum
  · by_cases hne : t' = t
    · obtain ⟨rfl, rfl, rfl, rfl⟩ : b = b' ∧ i0 = j0 ∧ i1 = j1 ∧ i2 = j2 := by
        simpa [hne] using ht'
      refine ⟨⟨?_, ?_, ?_, ?_⟩, fun hor => ?_⟩
      · simp [Virtio.submit, update_of_ne h01, update_of_ne h02]
      · simp only [Virtio.submit, update_of_ne h12, update_self]
        cases write
        · exact ⟨by decide, trivial⟩
        · exact ⟨by decide, trivial⟩
      · simp [Virtio.submit]
      · simp [Virtio.submit]
      · rcases hor with hor | hor
        · simp [Virtio.submit] at hor
        · exact absurd rfl (hring (mem_add.2 (.inr hor)))
    · have ht : s.pc t' = .wait b' j0 j1 j2 := by simpa [update_of_ne hne] using ht'
      obtain ⟨hr, hserved⟩ := h.waits t' b' j0 j1 j2 ht
      have hd : ∀ j ∈ [j0, j1, j2], update (update (update s.desc
          i0 ⟨.ops i0, 16, descNext, i1⟩)
          i1 ⟨.data b, bSize, (if write then 0 else descWrite) ||| descNext, i2⟩)
          i2 ⟨.status i0, 1, descWrite, 0⟩ j = s.desc j := by
        intro j hj
        have hj' := hhead t' b' j0 j1 j2 ht j hj
        rw [update_of_ne (hj' i2 (by simp)), update_of_ne (hj' i1 (by simp)),
          update_of_ne (hj' i0 (by simp))]
      refine ⟨⟨(hd j0 (by simp)).trans hr.first, ?_, (hd j2 (by simp)).trans hr.third, ?_⟩,
        fun hor => ?_⟩
      · simp only [Virtio.submit]
        rw [hd j1 (by simp)]
        exact hr.second
      · show (update s.info i0 _ j0).b = some b'
        rw [update_of_ne (hhead t' b' j0 j1 j2 ht j0 (by simp) i0 (by simp))]
        exact hr.info
      · show update s.served t false t' = true
        rw [update_of_ne hne]
        refine hserved (hor.imp_left fun hb => ?_)
        simpa [Virtio.submit, update_of_ne (hbuf t' b' j0 j1 j2 ht)] using hb
  · by_cases hne : t' = t
    · obtain rfl : b = b' := by simpa [hne, bufOf] using ht'
      exact hne ▸ howner
    · exact h.owner t' b' (by simpa [update_of_ne hne] using ht')
  · have hsum := Tally.sum_update (mem_univ t) (pending (update s.disk b true)) s.pc
      (.wait b i0 i1 i2)
    rw [pending_eq_zero h₀, add_zero, sum_congr rfl fun t' _ => hdisk t', ← h.heads] at hsum
    show ((s.avail.put i0).contents : Multiset ℕ) + s.taken + s.used.contents =
      ∑ t', pending (update s.disk b true) (update s.pc t (.wait b i0 i1 i2) t')
    rw [hsum, hcontents, ← coe_add]
    simp only [pending, update_self, if_true, coe_singleton]
    abel
  · have hj0 : j ≠ i0 := hring (mem_add.2 (.inr hj))
    show (update s.info i0 _ j).status = 0
    rw [update_of_ne hj0]
    exact h.status j hj
  · show s.issued ++ [i0] = s.accepted ++ (s.avail.put i0).contents
    rw [hcontents, h.issued, List.append_assoc]

theorem Inv.finish (h : s.Inv) (hpc : s.pc t = .wait b i0 i1 i2) (hdisk : s.disk b = false)
    (hf : Freed { s with info := update s.info i0 { s.info i0 with b := none } } s'
      [i0, i1, i2]) : Inv { s' with pc := update s'.pc t .outside } := by
  have hch := h.chained hpc
  have hother : ∀ t' ≠ t, ∀ b' j0 j1 j2, s.pc t' = .wait b' j0 j1 j2 → ∀ j ∈ [j0, j1, j2],
      j ∉ [i0, i1, i2] := by
    intro t' hne b' j0 j1 j2 ht' j hj hji
    have hd := h.disjoint hne
    rw [hpc, ht', disjoint_left] at hd
    exact hd (a := j) (by simpa [Virtio.descs] using hj) (by simpa [Virtio.descs] using hji)
  have hring : ∀ j ∈ s.used.contents, j ≠ i0 := by
    rintro j hj rfl
    obtain ⟨t', b', j1, j2, ht', hb'⟩ := h.of_mem (i := j) (mem_add.2 (.inr hj))
    have htt := h.head_unique hpc ht'
    rw [← htt, hpc] at ht'
    cases ht'
    rw [hdisk] at hb'
    cases hb'
  have hspc : s'.pc = s.pc := by rw [hf.rest]
  have hinfo : s'.info = update s.info i0 { s.info i0 with b := none } := by rw [hf.rest]
  have hused : s'.used = s.used := by rw [hf.rest]
  have hd : s'.disk = s.disk := by rw [hf.rest]
  have hwait : ∀ t' b' j0 j1 j2, update s'.pc t .outside t' = .wait b' j0 j1 j2 →
      t' ≠ t ∧ s.pc t' = .wait b' j0 j1 j2 := by
    intro t' b' j0 j1 j2 ht'
    by_cases hne : t' = t
    · simp [hne] at ht'
    · rw [update_of_ne hne, hspc] at ht'
      exact ⟨hne, ht'⟩
  refine ⟨?_, fun t' b' j0 j1 j2 ht' => ?_, fun t' b' ht' => ?_, ?_, fun j hj => ?_, ?_, ?_⟩
  · have hbusy : s.busy = Virtio.busy { s' with pc := update s'.pc t .outside } +
        {i0, i1, i2} := by
      refine (Multiset.Nodup.ext nodup_busy (nodup_add.2 ⟨nodup_busy, ?_, ?_⟩)).2 fun i => ?_
      · simpa using hch.nodup
      · refine disjoint_right.2 fun {i} hi hb => ?_
        have := (mem_busy.1 hb).2
        rw [hf.free] at this
        simp only [Bool.or_eq_false_iff, decide_eq_false_iff_not] at this
        exact this.2 (by simpa using hi)
      · rw [mem_busy, mem_add, mem_busy]
        have hu := hch.used i
        have := hf.free i
        simp only [insert_eq_cons, mem_cons, mem_singleton, this]
        grind
    have hsum := Tally.sum_update (mem_univ t) Virtio.descs s'.pc .outside
    rw [hspc, hpc, h.descs, ← hspc, hbusy] at hsum
    exact add_right_cancel (hsum.trans (add_zero _))
  · obtain ⟨hne, ht⟩ := hwait t' b' j0 j1 j2 ht'
    obtain ⟨hr, hserved⟩ := h.waits t' b' j0 j1 j2 ht
    have hdesc : ∀ j ∈ [j0, j1, j2], s'.desc j = s.desc j := fun j hj =>
      hf.desc j ((h.chained ht).used j hj).2 (hother t' hne b' j0 j1 j2 ht j hj)
    refine ⟨⟨(hdesc j0 (by simp)).trans hr.first, ?_, (hdesc j2 (by simp)).trans hr.third, ?_⟩,
      fun hor => ?_⟩
    · show (s'.desc j1).flags &&& descNext ≠ 0 ∧ (s'.desc j1).next = j2
      rw [hdesc j1 (by simp)]
      exact hr.second
    · have hj0 : j0 ≠ i0 := fun heq =>
        hother t' hne b' j0 j1 j2 ht j0 (by simp) (by simp [heq])
      show (s'.info j0).b = some b'
      rw [hinfo, update_of_ne hj0]
      exact hr.info
    · have hor : s.disk b' = false ∨ j0 ∈ s.used.contents := by
        rw [← hd, ← hused]
        exact hor
      show s'.served t' = true
      rw [hf.rest]
      exact hserved hor
  · have hne : t' ≠ t := by
      rintro rfl
      simp [bufOf] at ht'
    show s'.owner b' = some t'
    rw [hf.rest]
    exact h.owner t' b' (by simpa [update_of_ne hne, hspc] using ht')
  · have hsum := Tally.sum_update (mem_univ t) (pending s.disk) s.pc .outside
    have hzero : pending s.disk (s.pc t) = 0 := by simp [hpc, pending, hdisk]
    rw [hzero, show pending s.disk .outside = 0 from rfl, add_zero, add_zero] at hsum
    show (s'.avail.contents : Multiset ℕ) + s'.taken + s'.used.contents =
      ∑ t', pending s'.disk (update s'.pc t .outside t')
    rw [hd, hspc, hsum, ← h.heads, hf.rest]
  · have hj : j ∈ s.used.contents := hused ▸ hj
    show (s'.info j).status = 0
    rw [hinfo, update_of_ne (hring j hj)]
    exact h.status j hj
  · show s'.issued = s'.accepted ++ s'.avail.contents
    rw [hf.rest]
    exact h.issued
  · show s'.completed = s'.processed ++ s'.used.contents
    rw [hf.rest]
    exact h.completed

/-- **A completion is processed**: the buffer of the request is given back. -/
theorem Inv.processed {c : Fin nProc → Option DiskChan} (h : s.Inv) (hne : s.used.count ≠ 0)
    (hpc : s.pc t = .wait b s.used.head i1 i2) (hdisk : s.disk b = true) :
    Inv { s with
      disk := update s.disk b false
      chan := c
      used := s.used.take
      processed := s.processed ++ [s.used.head] } := by
  have hcontents := s.used.contents_take hne
  have hbuf : ∀ t' b' j0 j1 j2, s.pc t' = .wait b' j0 j1 j2 → b' = b → t' = t := by
    rintro t' b' j0 j1 j2 ht' rfl
    have h1 := h.owner t' b' (by rw [ht']; rfl)
    rw [h.owner t b' (by rw [hpc]; rfl)] at h1
    exact (Option.some.inj h1).symm
  refine ⟨h.descs, fun t' b' j0 j1 j2 ht' => ⟨(h.waits t' b' j0 j1 j2 ht').1, fun hor => ?_⟩,
    h.owner, ?_, fun j hj => h.status j ?_, h.issued, ?_⟩
  · have hserved := (h.waits t' b' j0 j1 j2 ht').2
    by_cases hb : b' = b
    · obtain rfl := hbuf t' b' j0 j1 j2 ht' hb
      refine hserved (.inr ?_)
      rw [hpc] at ht'
      cases ht'
      rw [hcontents]
      exact List.mem_cons_self
    · refine hserved (hor.imp (fun h' => ?_) fun h' => ?_)
      · exact (update_of_ne hb _ _).symm.trans h'
      · rw [hcontents]
        exact List.mem_cons_of_mem _ h'
  · have hsum : ∑ t', pending (update s.disk b false) (s.pc t') + {s.used.head} =
        ∑ t', pending s.disk (s.pc t') := by
      rw [← Finset.add_sum_erase _ _ (mem_univ t),
        ← Finset.add_sum_erase _ (fun t' => pending s.disk (s.pc t')) (mem_univ t)]
      have hrest : ∑ t' ∈ univ.erase t, pending (update s.disk b false) (s.pc t') =
          ∑ t' ∈ univ.erase t, pending s.disk (s.pc t') := by
        refine sum_congr rfl fun t' ht' => ?_
        cases hpc' : s.pc t' with
        | wait b' j0 j1 j2 =>
          have hb : b' ≠ b := fun hb => (Finset.mem_erase.1 ht').1 (hbuf t' b' j0 j1 j2 hpc' hb)
          simp only [pending, update_of_ne hb]
        | _ => rfl
      rw [hrest, hpc]
      simp only [pending, update_self, hdisk, Bool.false_eq_true, if_false, if_true]
      abel
    show (s.avail.contents : Multiset ℕ) + s.taken + s.used.take.contents =
      ∑ t', pending (update s.disk b false) (s.pc t')
    refine add_right_cancel (b := {s.used.head}) ?_
    rw [hsum, ← h.heads, hcontents, ← cons_coe, ← singleton_add]
    abel
  · rw [hcontents]
    exact List.mem_cons_of_mem _ hj
  · show s.completed = s.processed ++ [s.used.head] ++ s.used.take.contents
    rw [h.completed, hcontents, List.append_assoc]
    rfl

/-! ### The steps of the device -/

theorem Inv.deviceTake (h : s.Inv) (hne : s.avail.count ≠ 0) : s.deviceTake.Inv := by
  have hcontents := s.avail.contents_take hne
  refine ⟨h.descs, h.waits, h.owner, ?_, h.status, ?_, h.completed⟩
  · show (s.avail.take.contents : Multiset ℕ) + (s.avail.head :: s.taken : List ℕ) +
      s.used.contents = ∑ t', pending s.disk (s.pc t')
    rw [← h.heads, hcontents, ← cons_coe, ← cons_coe, ← singleton_add, ← singleton_add]
    abel
  · show s.issued = s.accepted ++ [s.avail.head] ++ s.avail.take.contents
    rw [h.issued, hcontents, List.append_assoc]
    rfl

theorem transfer_eq (s : Virtio β) (req buf : DescAddr) :
    ∃ m d, s.transfer req buf = { s with medium := m, data := d } := by
  unfold transfer
  split
  · split
    · exact ⟨_, _, rfl⟩
    · exact ⟨_, _, rfl⟩
  · exact ⟨_, _, rfl⟩

theorem Request.deviceComplete (h : Request s.desc s.info b i0 i1 i2) :
    ∃ m d, s.deviceComplete i0 = { s with
    medium := m
    data := d
    info := update s.info i0 { s.info i0 with status := 0 }
    used := s.used.put i0
    taken := s.taken.erase i0
    completed := s.completed ++ [i0]
    served := fun t => s.served t || waitsFor i0 (s.pc t) } := by
  obtain ⟨m, d, htr⟩ := s.transfer_eq (.ops i0) (s.desc i1).addr
  refine ⟨m, d, ?_⟩
  simp only [Virtio.deviceComplete, h.first, h.second.2, h.third, htr, writeStatus]

theorem Inv.deviceComplete (h : s.Inv) (hi : i ∈ s.taken) : (s.deviceComplete i).Inv := by
  obtain ⟨t, b, i1, i2, hpc, -⟩ := h.of_mem (i := i)
    (mem_add.2 (.inl (mem_add.2 (.inr hi))))
  obtain ⟨m, d, hs'⟩ := (h.waits t b i i1 i2 hpc).1.deviceComplete
  have herase : (s.taken : Multiset ℕ) = {i} + (s.taken.erase i : List ℕ) := by
    rw [← coe_erase, singleton_add, cons_erase hi]
  have hroom : s.used.count < num := by
    have hcount := h.count_le
    have hpos := List.length_pos_of_mem hi
    omega
  have hcontents : (s.used.put i).contents = s.used.contents ++ [i] :=
    RingBuf.contents_put num_dvd num_lt _ _ hroom
  rw [hs']
  refine ⟨h.descs, fun t' b' j0 j1 j2 ht' => ?_, h.owner, ?_, fun j hj => ?_, h.issued, ?_⟩
  · obtain ⟨hr, hserved⟩ := h.waits t' b' j0 j1 j2 ht'
    refine ⟨⟨hr.first, hr.second, hr.third, ?_⟩, fun hor => ?_⟩
    · show (update s.info i _ j0).b = some b'
      by_cases hj : j0 = i
      · rw [hj, update_self]
        exact hj ▸ hr.info
      · rw [update_of_ne hj]
        exact hr.info
    · show (s.served t' || waitsFor i (s.pc t')) = true
      rw [ht', Bool.or_eq_true]
      rw [hcontents, List.mem_append, List.mem_singleton, ← or_assoc] at hor
      exact hor.imp hserved fun hor => by simp [waitsFor, hor]
  · show (s.avail.contents : Multiset ℕ) + (s.taken.erase i : List ℕ) + (s.used.put i).contents =
      ∑ t', pending s.disk (s.pc t')
    rw [← h.heads, hcontents, herase, ← coe_add]
    abel
  · show (update s.info i _ j).status = 0
    by_cases hji : j = i
    · rw [hji, update_self]
    · rw [update_of_ne hji]
      refine h.status j ?_
      rw [hcontents, List.mem_append] at hj
      exact hj.resolve_right (by simpa using hji)
  · show s.completed ++ [i] = s.processed ++ (s.used.put i).contents
    rw [hcontents, h.completed, List.append_assoc]

/-! ### The functions of the driver -/

theorem wp_virtioDiskRw {write : Bool} (h : s.Inv) (h₀ : Virtio.descs (s.pc t) = 0)
    (howner : s.owner b = some t) (hQ : ∀ s', s'.Inv → s'.pc t ≠ .outside → Q () s') :
    wp (virtioDiskRw t b write) Q E s := by
  unfold virtioDiskRw
  rw [wp_bind]
  refine wp_alloc3Desc (fun s' hf => ?_) fun i0 i1 i2 hidx hnodup => ?_
  · simp only [sleep]
    rw [wp_modify]
    have hpc : s'.pc = s.pc := by rw [hf.rest]
    refine hQ _ ((h.freed_nil hf).goto _ (by rw [hpc, h₀]) rfl fun b' hb' => ?_) (by simp)
    obtain rfl : b = b' := by simpa [bufOf] using hb'
    rw [hf.rest]
    exact howner
  · rw [wp_bind, wp_modify, wp_bind, wp_modify, waitDone, wp_bind, wp_get]
    rw [if_pos (by simp [Virtio.submit]), sleep, wp_modify]
    exact hQ _ (h.submit write h₀ howner hidx hnodup rfl) (by simp)

theorem wp_waitDone (h : s.Inv) (hpc : s.pc t = .wait b i0 i1 i2)
    (hQ : ∀ s', s'.Inv → (s'.pc t = .outside → s.disk b = false) → Q () s') :
    wp (waitDone t b i0 i1 i2) Q E s := by
  unfold waitDone
  rw [wp_bind, wp_get]
  refine wp_ite (fun hdisk => ?_) fun hdisk => ?_
  · rw [sleep, wp_modify]
    have hself : update s.pc t (.wait b i0 i1 i2) = s.pc := by
      rw [← hpc, update_eq_self]
    rw [hself]
    refine hQ _ (h.frame _ _) fun h' => ?_
    rw [hpc] at h'
    cases h'
  · rw [Bool.not_eq_true] at hdisk
    have hch := h.chained hpc
    rw [wp_bind, wp_modify, wp_bind]
    refine wp_freeChain ⟨hch.used, hch.nodup, hch.first, hch.second, hch.third⟩ fun s' hf => ?_
    rw [wp_modify]
    exact hQ _ (h.finish hpc hdisk hf) fun _ => hdisk

/-- **One turn of `virtio_disk_intr`**: the buffer that it gives back is the one of the request. -/
theorem wp_intrTurn (h : s.Inv) (hend : s.used.count = 0 → Q () { s with intr := false })
    (hQ : ∀ t b i1 i2 c, s.used.count ≠ 0 → s.pc t = .wait b s.used.head i1 i2 → s.disk b = true →
      Q () { s with
        disk := update s.disk b false
        chan := c
        used := s.used.take
        processed := s.processed ++ [s.used.head] }) : wp intrTurn Q E s := by
  unfold intrTurn
  rw [wp_bind, wp_get]
  refine wp_ite (fun hne => ?_) fun hne => ?_
  · have hcount : s.used.count ≠ 0 := fun h' => hne (s.used.nread_eq_iff.2 h')
    have hmem : s.used.head ∈ s.used.contents := by
      rw [s.used.contents_take hcount]
      exact List.mem_cons_self
    obtain ⟨t, b, i1, i2, hpc, hdisk⟩ := h.of_mem (i := s.used.head) (mem_add.2 (.inr hmem))
    have hinfo := (h.waits t b _ i1 i2 hpc).1.info
    rw [if_neg (by simp [h.status _ hmem])]
    split
    · rename_i hnone
      rw [hinfo] at hnone
      cases hnone
    · rename_i b' hb'
      obtain rfl : b = b' := Option.some.inj (hinfo.symm.trans hb')
      rw [wp_bind, wp_modify, wp_bind, wakeup, wp_modify, wp_modify]
      exact hQ t b i1 i2 _ hcount hpc hdisk
  · rw [wp_modify]
    exact hend (s.used.nread_eq_iff.1 (not_not.1 hne))

/-! ### Every run -/

theorem runSection_ok {m : DiskM β Unit} {Q : Virtio β → Prop}
    (h : wp m (fun _ s' => Q s') (fun _ => False) s) : ∃ s', s.runSection m = .ok s' ∧ Q s' := by
  obtain ⟨u, s', hm, hQ⟩ := h.exists_ok
  exact ⟨s', by simp [runSection, hm, Except.map], hQ⟩

/-- **Every step keeps the accounts, and none panics.** -/
theorem Inv.step {a : DiskAct} {r : Except DiskPanic (Virtio β)} (h : s.Inv)
    (hstep : s.step a = some r) : ∃ s', r = .ok s' ∧ s'.Inv := by
  cases a with
  | lock t b n =>
    obtain ⟨hfree, rfl⟩ := Runs.taken hstep
    refine ⟨_, rfl, h.setOwner (fun t' ht' => ?_) _ _⟩
    cases hfree.2.symm.trans (h.owner t' b ht')
  | unlock t b =>
    obtain ⟨hheld, rfl⟩ := Runs.taken hstep
    refine ⟨_, rfl, h.setOwner (fun t' ht' => ?_) _ _⟩
    -- the process that unlocks the buffer has not given it to the driver
    obtain rfl : t = t' := Option.some.inj (hheld.2.symm.trans (h.owner t' b ht'))
    rw [hheld.1] at ht'
    cases ht'
  | rw t b write =>
    obtain ⟨hpre, rfl⟩ := Runs.taken hstep
    exact runSection_ok (wp_virtioDiskRw h (by rw [hpre.1]; rfl) hpre.2.1 fun s' h' _ => h')
  | resume t =>
    simp only [Virtio.step] at hstep
    split at hstep
    · split at hstep
      · cases hstep
      · rename_i b write hpc
        cases hstep
        exact runSection_ok (wp_virtioDiskRw h (by rw [hpc]; rfl)
          (h.owner t b (by rw [hpc]; rfl)) fun s' h' _ => h')
      · rename_i b i0 i1 i2 hpc
        cases hstep
        exact runSection_ok (wp_waitDone h hpc fun s' h' _ => h')
    · cases hstep
  | kill t =>
    cases hstep
    exact ⟨_, rfl, h.frame _ _⟩
  | interrupt =>
    obtain ⟨-, rfl⟩ := Runs.taken hstep
    exact ⟨_, rfl, h.frame _ _⟩
  | intrNext =>
    obtain ⟨-, rfl⟩ := Runs.taken hstep
    exact runSection_ok (wp_intrTurn h (fun _ => h.frame _ _)
      fun t b i1 i2 c hne hpc hdisk => h.processed hne hpc hdisk)
  | take =>
    obtain ⟨hne, rfl⟩ := Runs.taken hstep
    exact ⟨_, rfl, h.deviceTake fun h' => hne (s.avail.nread_eq_iff.2 h')⟩
  | complete i =>
    obtain ⟨hi, rfl⟩ := Runs.taken hstep
    exact ⟨_, rfl, h.deviceComplete hi⟩

/-- A process that waits for a request. -/
def inFlight : DiskPc → Bool
  | .wait _ _ _ _ => true
  | _ => false

/-- **What the driver and the device promise.** -/
structure Protocol (s : Virtio β) : Prop where
  /-- A request in flight has three distinct descriptors that are not free. -/
  three : ∀ t b i0 i1 i2, s.pc t = .wait b i0 i1 i2 →
    [i0, i1, i2].Nodup ∧ ∀ i ∈ [i0, i1, i2], i < num ∧ s.free i = false
  /-- Different requests have different descriptors. -/
  disjoint : ∀ t t', t ≠ t' → Disjoint (descs (s.pc t)) (descs (s.pc t'))
  /-- Every other descriptor is free. -/
  rest : ∀ i < num, s.free i = false → ∃ t, i ∈ descs (s.pc t)
  count : 3 * (univ.filter fun t => inFlight (s.pc t) = true).card +
    ((range num).filter fun i => s.free i = true).card = num
  /-- Entries of the rings are consumed in the order in which they were stored, and none is
  overwritten before. -/
  avail : s.avail.count ≤ num ∧ s.issued = s.accepted ++ s.avail.contents
  used : s.used.count ≤ num ∧ s.completed = s.processed ++ s.used.contents
  /-- A turn of `virtio_disk_intr` consumes one completion.  It is that of a request in flight which
  the device has completed; the turn clears `b->disk` of its buffer and of no other, and the request
  is then in no ring. -/
  intr : s.intr = true → s.used.nread ≠ s.used.nwrite → ∃ t b i1 i2 s',
    s.pc t = .wait b s.used.head i1 i2 ∧ s.served t = true ∧ s.disk b = true ∧
    s.step .intrNext = some (.ok s') ∧ s'.disk = update s.disk b false ∧
    s'.processed = s.processed ++ [s.used.head] ∧
    s.used.head ∉ s'.avail.contents ++ s'.taken ++ s'.used.contents
  /-- `virtio_disk_rw` returns only when its own request is completed and was processed. -/
  returns : ∀ t a s', a = .resume t ∨ (∃ b write, a = .rw t b write) → s.step a = some (.ok s') →
    s'.pc t = .outside → ∃ b i0 i1 i2, s.pc t = .wait b i0 i1 i2 ∧ s.served t = true ∧
      s.disk b = false
  /-- No panic is reached. -/
  noPanic : ∀ a e, s.step a ≠ some (.error e)

theorem card_descs (k : DiskPc) : card (descs k) = if inFlight k = true then 3 else 0 := by
  cases k <;> rfl

theorem Inv.count (h : s.Inv) :
    3 * (univ.filter fun t => inFlight (s.pc t) = true).card +
      ((range num).filter fun i => s.free i = true).card = num := by
  have hcard := congrArg card h.descs
  rw [card_sum, sum_congr rfl fun t _ => card_descs (s.pc t), ← Finset.sum_filter,
    Finset.sum_const_nat fun _ _ => rfl] at hcard
  have hbusy : card s.busy = ((range num).filter fun i => ¬ s.free i = true).card := by
    simp only [Bool.not_eq_true]
    rfl
  have hsplit := Finset.card_filter_add_card_filter_not (s := range num)
    (fun i => s.free i = true)
  rw [Finset.card_range] at hsplit
  omega

theorem Inv.intr_turn (h : s.Inv) (hintr : s.intr = true) (hne : s.used.nread ≠ s.used.nwrite) :
    ∃ t b i1 i2 s', s.pc t = .wait b s.used.head i1 i2 ∧ s.served t = true ∧ s.disk b = true ∧
      s.step .intrNext = some (.ok s') ∧ s'.disk = update s.disk b false ∧
      s'.processed = s.processed ++ [s.used.head] ∧
      s.used.head ∉ s'.avail.contents ++ s'.taken ++ s'.used.contents := by
  have hcount : s.used.count ≠ 0 := fun h' => hne (s.used.nread_eq_iff.2 h')
  obtain ⟨s', hs', t, b, i1, i2, c, hpc, hdisk, hnew⟩ := runSection_ok (s := s) (m := intrTurn)
    (Q := fun s' => ∃ t b i1 i2 c, s.pc t = .wait b s.used.head i1 i2 ∧ s.disk b = true ∧
      s' = { s with
        disk := update s.disk b false
        chan := c
        used := s.used.take
        processed := s.processed ++ [s.used.head] })
    (wp_intrTurn h (fun h' => absurd h' hcount) fun t b i1 i2 c _ hpc hdisk =>
      ⟨t, b, i1, i2, c, hpc, hdisk, rfl⟩)
  have hcontents := s.used.contents_take hcount
  refine ⟨t, b, i1, i2, s', hpc, ?_, hdisk, ?_, by rw [hnew], by rw [hnew], ?_⟩
  · refine (h.waits t b _ i1 i2 hpc).2 (.inr ?_)
    rw [hcontents]
    exact List.mem_cons_self
  · simp only [Virtio.step, hintr, if_true, hs']
  · -- the heads are different, so this one was there once
    rw [hnew]
    have hn := nodup_of_le h.heads_le nodup_busy
    rw [hcontents] at hn
    intro hmem
    have hn' : (s.used.head ::ₘ ((s.avail.contents : Multiset ℕ) + s.taken +
        s.used.take.contents)).Nodup := by
      convert hn using 1
      rw [← cons_coe, ← singleton_add, ← singleton_add]
      abel
    exact (nodup_cons.1 hn').1 (by simpa [or_assoc] using hmem)

theorem Inv.not_returned {write : Bool} (h : s.Inv) (h₀ : Virtio.descs (s.pc t) = 0)
    (howner : s.owner b = some t) (hs' : s.runSection (virtioDiskRw t b write) = .ok s') :
    s'.pc t ≠ .outside := by
  have hwp : wp (virtioDiskRw t b write) (fun _ s1 => s1.pc t ≠ .outside) (fun _ => False) s :=
    wp_virtioDiskRw h h₀ howner fun s' _ h' => h'
  obtain ⟨s1, hs1, hne⟩ := runSection_ok hwp
  cases hs'.symm.trans hs1
  exact hne

theorem Inv.returns (h : s.Inv) {a : DiskAct} (ha : a = .resume t ∨ ∃ b write, a = .rw t b write)
    (hstep : s.step a = some (.ok s')) (hout : s'.pc t = .outside) :
    ∃ b i0 i1 i2, s.pc t = .wait b i0 i1 i2 ∧ s.served t = true ∧ s.disk b = false := by
  rcases ha with rfl | ⟨b, write, rfl⟩
  · simp only [Virtio.step] at hstep
    split at hstep
    · split at hstep
      · cases hstep
      · rename_i b write hpc
        exact absurd hout (h.not_returned (by rw [hpc]; rfl) (h.owner t b (by rw [hpc]; rfl))
          (Option.some.inj hstep))
      · rename_i b i0 i1 i2 hpc
        obtain ⟨s1, hs1, hdone⟩ := runSection_ok
          (Q := fun s1 => s1.pc t = .outside → s.disk b = false)
          (wp_waitDone h hpc fun s' _ h' => h')
        cases (Option.some.inj hstep).symm.trans hs1
        exact ⟨b, i0, i1, i2, hpc, (h.waits t b i0 i1 i2 hpc).2 (.inl (hdone hout)), hdone hout⟩
    · cases hstep
  · obtain ⟨hpre, hs'⟩ := Runs.taken hstep
    exact absurd hout (h.not_returned (by rw [hpre.1]; rfl) hpre.2.1 hs')

theorem Inv.protocol (h : s.Inv) : s.Protocol where
  three t b i0 i1 i2 ht := ⟨(h.chained ht).nodup, (h.chained ht).used⟩
  disjoint t t' hne := h.disjoint hne
  rest i hi hfree := by
    have hmem : i ∈ ∑ t, Virtio.descs (s.pc t) := by
      rw [h.descs]
      exact mem_busy.2 ⟨hi, hfree⟩
    obtain ⟨t, -, ht⟩ := mem_sum.1 hmem
    exact ⟨t, ht⟩
  count := h.count
  avail := ⟨by have := h.count_le; omega, h.issued⟩
  used := ⟨by have := h.count_le; omega, h.completed⟩
  intr := h.intr_turn
  returns t a s' := h.returns
  noPanic a e hstep := by
    obtain ⟨s', hs', -⟩ := h.step hstep
    cases hs'

/-- A state from which runs start, as `virtio_disk_init` leaves the driver: all descriptors are
free, the rings are empty, and nobody is in a call. -/
structure Start (s : Virtio β) : Prop where
  free : ∀ i, s.free i = true
  avail : s.avail.nread = 0 ∧ s.avail.nwrite = 0
  used : s.used.nread = 0 ∧ s.used.nwrite = 0
  taken : s.taken = []
  pc : ∀ t, s.pc t = .outside
  history : s.issued = [] ∧ s.accepted = [] ∧ s.completed = [] ∧ s.processed = []

theorem Start.inv (h : s.Start) : s.Inv := by
  have havail : s.avail.contents = [] := by
    rw [← List.length_eq_zero_iff, RingBuf.length_contents, ← RingBuf.nread_eq_iff, h.avail.1,
      h.avail.2]
  have hused : s.used.contents = [] := by
    rw [← List.length_eq_zero_iff, RingBuf.length_contents, ← RingBuf.nread_eq_iff, h.used.1,
      h.used.2]
  refine ⟨?_, fun t b i0 i1 i2 ht => ?_, fun t b ht => ?_, ?_, fun j hj => ?_, ?_, ?_⟩
  · have hbusy : s.busy = 0 := eq_zero_of_forall_notMem fun i hi => by
      simp [mem_busy, h.free] at hi
    rw [hbusy]
    exact Finset.sum_eq_zero fun t _ => by rw [h.pc]; rfl
  · simp [h.pc] at ht
  · simp [h.pc, bufOf] at ht
  · rw [havail, hused, h.taken]
    exact (Finset.sum_eq_zero fun t _ => by rw [h.pc]; rfl).symm
  · simp [hused] at hj
  · simp [h.history, havail]
  · simp [h.history, hused]

/-- **The protocol of the disk driver.**  For any number of processes that call `virtio_disk_rw`,
and any interleaving of their sections, the turns of `virtio_disk_intr` and the steps of the device,
the promises of `Protocol` are kept in every state that is reached. -/
theorem disk_protocol {s0 : Virtio β} (h0 : s0.Start)
    (hr : Runs.Reach step (fun _ _ => True) s0 s) : s.Protocol := by
  refine (hr.invariant (I := Inv) h0.inv fun _ _ _ hi _ hs => ?_).protocol
  obtain ⟨s', hs', h'⟩ := hi.step hs
  cases hs'
  exact h'

/-- A driver that has just been initialised. -/
def fresh : Virtio Unit where
  desc _ := ⟨.null, 0, 0, 0⟩
  free _ := true
  avail := ⟨fun _ => 0, 0, 0⟩
  used := ⟨fun _ => 0, 0, 0⟩
  info _ := ⟨none, 0⟩
  ops _ := ⟨0, 0, 0⟩
  taken := []
  medium _ := ()
  data _ := ()
  blockno _ := 0
  disk _ := false
  owner _ := none
  pc _ := .outside
  chan _ := none
  intr := false
  issued := []
  accepted := []
  completed := []
  processed := []
  served _ := false

theorem fresh_start : fresh.Start :=
  ⟨fun _ => rfl, ⟨rfl, rfl⟩, ⟨rfl, rfl⟩, rfl, fun _ => rfl, ⟨rfl, rfl, rfl, rfl⟩⟩

/-- Two requests, of which the later one is completed first and returns first. -/
theorem disk_protocol_two : ∃ s, (Runs.Reach step (fun _ _ => True) fresh s ∧
    s.pc (0 : Fin 64) = .wait (0 : Fin 30) 0 1 2 ∧ s.pc (1 : Fin 64) = .outside ∧
    s.processed = [3]) ∧ s.Protocol := by
  have hrun : ∃ s, Runs.Reach step (fun _ _ => True) fresh s ∧
      s.pc (0 : Fin 64) = .wait (0 : Fin 30) 0 1 2 ∧ s.pc (1 : Fin 64) = .outside ∧
      s.processed = [3] := Runs.exists_reach_of_exec
    [.lock (0 : Fin 64) (0 : Fin 30) 46, .rw (0 : Fin 64) (0 : Fin 30) false,
      .lock (1 : Fin 64) (1 : Fin 30) 47, .rw (1 : Fin 64) (1 : Fin 30) true, .take, .take,
      .complete 3, .interrupt, .intrNext, .intrNext, .resume (1 : Fin 64)] (by decide +kernel)
  obtain ⟨s, hr, hs⟩ := hrun
  exact ⟨s, ⟨hr, hs⟩, disk_protocol fresh_start hr⟩

end Virtio

end CsklubOs
