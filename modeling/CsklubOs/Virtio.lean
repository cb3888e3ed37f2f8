/-
**The disk driver.**

`virtio_disk_rw` and `virtio_disk_intr` of `kernel/virtio_disk.c`, with their descriptors and rings,
and the device.  `vdisk_lock` makes the sections of the driver atomic; a section of `virtio_disk_rw`
ends where it sleeps.  The loop of `virtio_disk_intr` takes one step for each turn, since the
device, which knows no lock, can append to the used ring between two turns.  A buffer is handed to
`virtio_disk_rw` by the process that holds its sleep-lock, as `bread` and `bwrite` do.

Main definitions:

* `Virtio` — the driver and the device; the avail ring and the used ring are those of
  `CsklubOs/RingBuffer.lean`, with counters of 16 bits;
* `virtioDiskRw`, `intrTurn` — the sections of the driver;
* `deviceTake`, `deviceComplete`, `Virtio.step` — the device, and a step of either.
-/

import CsklubOs.Params
import CsklubOs.RingBuffer
import CsklubOs.Wp

set_option autoImplicit false

namespace CsklubOs

open Function List

/-! ### The state -/

/-- `NUM`: the number of descriptors. -/
def num : ℕ := 8

instance : NeZero num := ⟨by decide⟩

theorem num_dvd : num ∣ 2 ^ 16 := ⟨8192, by decide⟩

theorem num_lt : num < 2 ^ 16 := by decide

/-- What a descriptor points to. -/
inductive DescAddr
  | null
  | ops (i : ℕ)
  | data (b : Fin nBuf)
  | status (i : ℕ)

/-- `struct virtq_desc`. -/
structure Desc where
  addr : DescAddr
  len : ℕ
  flags : BitVec 16
  next : ℕ

/-- `VRING_DESC_F_NEXT` -/
def descNext : BitVec 16 := 1

/-- `VRING_DESC_F_WRITE` -/
def descWrite : BitVec 16 := 2

/-- `struct virtio_blk_req`. -/
structure BlkReq where
  type : ℕ
  reserved : ℕ
  sector : ℕ

/-- `VIRTIO_BLK_T_IN` and `VIRTIO_BLK_T_OUT`. -/
def blkIn : ℕ := 0

@[inherit_doc blkIn]
def blkOut : ℕ := 1

/-- An entry of `disk.info`. -/
structure ReqInfo where
  b : Option (Fin nBuf)
  status : UInt8

/-- The channels `&disk.free[0]` and `b`. -/
inductive DiskChan
  | free
  | buf (b : Fin nBuf)
  deriving DecidableEq

/-- Where a process is: outside, in the loop that allocates descriptors, or in the loop that waits
for `b->disk`, with the descriptors that it has allocated. -/
inductive DiskPc
  | outside
  | alloc (b : Fin nBuf) (write : Bool)
  | wait (b : Fin nBuf) (i0 i1 i2 : ℕ)
  deriving DecidableEq

/-- The driver, the device and the processes. -/
structure Virtio (β : Type) where
  desc : ℕ → Desc
  free : ℕ → Bool
  /-- The avail ring; `nread` is how far the device has come. -/
  avail : RingBuf 16 num ℕ
  /-- The used ring; `nread` is `disk.used_idx`. -/
  used : RingBuf 16 num ℕ
  info : ℕ → ReqInfo
  ops : ℕ → BlkReq
  /-- The chains that the device has taken and not completed. -/
  taken : List ℕ
  /-- What is on the disk, by the first sector of a block. -/
  medium : ℕ → β
  data : Fin nBuf → β
  blockno : Fin nBuf → ℕ
  /-- `b->disk` -/
  disk : Fin nBuf → Bool
  /-- The process that holds the sleep-lock of a buffer. -/
  owner : Fin nBuf → Option (Fin nProc)
  pc : Fin nProc → DiskPc
  /-- The channel that a process sleeps on. -/
  chan : Fin nProc → Option DiskChan
  /-- `virtio_disk_intr` is in its loop, with `vdisk_lock`. -/
  intr : Bool
  /-- History: what was stored in the avail ring, and what the device took from it. -/
  issued : List ℕ
  accepted : List ℕ
  /-- History: what the device stored in the used ring, and what `virtio_disk_intr` took from it. -/
  completed : List ℕ
  processed : List ℕ
  /-- History: the device has completed the request that a process waits for. -/
  served : Fin nProc → Bool

/-- The panics of the driver, and a null pointer in `virtio_disk_intr`. -/
inductive DiskPanic
  | freeDesc1
  | freeDesc2
  | intrStatus
  | intrNull
  deriving DecidableEq

abbrev DiskM (β : Type) := StateT (Virtio β) (Except DiskPanic)

namespace Virtio

variable {β : Type}

/-! ### The functions of `virtio_disk.c` -/

/-- `wakeup(chan)` under `vdisk_lock`. -/
def wakeup (c : DiskChan) : DiskM β Unit :=
  modify fun s => { s with chan := fun t => if s.chan t = some c then none else s.chan t }

/-- `sleep(chan, &disk.vdisk_lock)`, after which the process goes on at `k`. -/
def sleep (t : Fin nProc) (c : DiskChan) (k : DiskPc) : DiskM β Unit :=
  modify fun s => { s with
    chan := update s.chan t (some c)
    pc := update s.pc t k }

def allocDesc : DiskM β (Option ℕ) := do
  match (List.range num).find? (← get).free with
  | none => pure none
  | some i => do
    modify fun s => { s with free := update s.free i false }
    pure (some i)

def freeDesc (i : ℕ) : DiskM β Unit := do
  if num ≤ i then throw .freeDesc1
  else if (← get).free i then throw .freeDesc2
  else do
    modify fun s => { s with
      desc := update s.desc i ⟨.null, 0, 0, 0⟩
      free := update s.free i true }
    wakeup .free

/-- `free_chain`.  After `NUM` turns all descriptors are free and `free_desc` panics, so that the
loop makes at most `NUM + 1` turns. -/
def freeChain : ℕ → ℕ → DiskM β Unit
  | 0, _ => throw .freeDesc2
  | fuel + 1, i => do
    let d := (← get).desc i
    freeDesc i
    if d.flags &&& descNext ≠ 0 then freeChain fuel d.next else pure ()

/-- `alloc3_desc`: on failure the descriptors that were allocated are freed again. -/
def alloc3Desc : DiskM β (Option (ℕ × ℕ × ℕ)) := do
  match ← allocDesc with
  | none => pure none
  | some i0 => do
    match ← allocDesc with
    | none => do
      freeDesc i0
      pure none
    | some i1 => do
      match ← allocDesc with
      | none => do
        freeDesc i0
        freeDesc i1
        pure none
      | some i2 => pure (some (i0, i1, i2))

/-- `uint64 sector = b->blockno * (BSIZE / 512)`, in 32 bits. -/
def sector (blockno : ℕ) : ℕ := blockno * 2 % 2 ^ 32

/-- The part of `virtio_disk_rw` that formats the descriptors, records the buffer and tells the
device. -/
def submit (b : Fin nBuf) (write : Bool) (i0 i1 i2 : ℕ) (s : Virtio β) : Virtio β :=
  { s with
    ops := update s.ops i0 ⟨if write then blkOut else blkIn, 0, sector (s.blockno b)⟩
    desc := update (update (update s.desc
      i0 ⟨.ops i0, 16, descNext, i1⟩)
      i1 ⟨.data b, bSize, (if write then 0 else descWrite) ||| descNext, i2⟩)
      i2 ⟨.status i0, 1, descWrite, 0⟩
    info := update s.info i0 ⟨some b, 0xff⟩
    disk := update s.disk b true
    avail := s.avail.put i0
    issued := s.issued ++ [i0] }

/-- The end of `virtio_disk_rw`: the loop that waits for `b->disk`, and the release of the chain. -/
def waitDone (t : Fin nProc) (b : Fin nBuf) (i0 i1 i2 : ℕ) : DiskM β Unit := do
  if (← get).disk b then sleep t (.buf b) (.wait b i0 i1 i2)
  else do
    modify fun s => { s with info := update s.info i0 { s.info i0 with b := none } }
    freeChain (num + 1) i0
    modify fun s => { s with pc := update s.pc t .outside }

/-- `virtio_disk_rw` from the loop that allocates descriptors. -/
def virtioDiskRw (t : Fin nProc) (b : Fin nBuf) (write : Bool) : DiskM β Unit := do
  match ← alloc3Desc with
  | none => sleep t .free (.alloc b write)
  | some (i0, i1, i2) => do
    modify (submit b write i0 i1 i2)
    modify fun s => { s with served := update s.served t false }
    waitDone t b i0 i1 i2

/-- One turn of the loop of `virtio_disk_intr`, or the end of the function. -/
def intrTurn : DiskM β Unit := do
  let s ← get
  if s.used.nread ≠ s.used.nwrite then
    let id := s.used.head
    if (s.info id).status ≠ 0 then throw .intrStatus
    else
      match (s.info id).b with
      | none => throw .intrNull
      | some b => do
        modify fun s => { s with disk := update s.disk b false }
        wakeup (.buf b)
        modify fun s => { s with
          used := s.used.take
          processed := s.processed ++ [id] }
  else modify fun s => { s with intr := false }

/-! ### The device -/

/-- The device takes the next entry of the avail ring. -/
def deviceTake (s : Virtio β) : Virtio β :=
  { s with
    avail := s.avail.take
    taken := s.avail.head :: s.taken
    accepted := s.accepted ++ [s.avail.head] }

/-- The transfer that a request asks for. -/
def transfer (s : Virtio β) (req buf : DescAddr) : Virtio β :=
  match req, buf with
  | .ops i, .data b =>
    if (s.ops i).type = blkIn then
      { s with data := update s.data b (s.medium (s.ops i).sector) }
    else { s with medium := update s.medium (s.ops i).sector (s.data b) }
  | _, _ => s

/-- Writing `0` where the third descriptor points to. -/
def writeStatus (s : Virtio β) : DescAddr → Virtio β
  | .status i => { s with info := update s.info i { s.info i with status := 0 } }
  | _ => s

/-- The process that waits for the chain `h`. -/
def waitsFor (h : ℕ) : DiskPc → Bool
  | .wait _ i0 _ _ => decide (i0 = h)
  | _ => false

/-- The device completes the chain `h`: it follows the descriptors, makes the transfer, sets the
status and appends `h` to the used ring. -/
def deviceComplete (s : Virtio β) (h : ℕ) : Virtio β :=
  let d0 := s.desc h
  let d1 := s.desc d0.next
  let d2 := s.desc d1.next
  let s := (s.transfer d0.addr d1.addr).writeStatus d2.addr
  { s with
    used := s.used.put h
    taken := s.taken.erase h
    completed := s.completed ++ [h]
    served := fun t => s.served t || waitsFor h (s.pc t) }

/-! ### The system -/

end Virtio

/-- What can happen: a process locks or unlocks a buffer, calls `virtio_disk_rw` or goes on in it
after `sleep`; a sleeper is roused by `kill`; an interrupt comes and is handled turn by turn; the
device takes a request or completes one. -/
inductive DiskAct
  | lock (t : Fin nProc) (b : Fin nBuf) (blockno : ℕ)
  | unlock (t : Fin nProc) (b : Fin nBuf)
  | rw (t : Fin nProc) (b : Fin nBuf) (write : Bool)
  | resume (t : Fin nProc)
  | kill (t : Fin nProc)
  | interrupt
  | intrNext
  | take
  | complete (h : ℕ)

namespace Virtio

variable {β : Type}

/-- The outcome of a section of the driver. -/
def runSection (s : Virtio β) (m : DiskM β Unit) : Except DiskPanic (Virtio β) :=
  (m s).map Prod.snd

/-- One step. -/
def step (s : Virtio β) : DiskAct → Option (Except DiskPanic (Virtio β))
  | .lock t b n =>
    if s.pc t = .outside ∧ s.owner b = none then
      some (.ok { s with
        owner := update s.owner b (some t)
        blockno := update s.blockno b n })
    else none
  | .unlock t b =>
    if s.pc t = .outside ∧ s.owner b = some t then
      some (.ok { s with owner := update s.owner b none })
    else none
  | .rw t b write =>
    if s.pc t = .outside ∧ s.owner b = some t ∧ s.intr = false then
      some (s.runSection (virtioDiskRw t b write))
    else none
  | .resume t =>
    if s.chan t = none ∧ s.intr = false then
      match s.pc t with
      | .outside => none
      | .alloc b write => some (s.runSection (virtioDiskRw t b write))
      | .wait b i0 i1 i2 => some (s.runSection (waitDone t b i0 i1 i2))
    else none
  | .kill t => some (.ok { s with chan := update s.chan t none })
  | .interrupt => if s.intr = false then some (.ok { s with intr := true }) else none
  | .intrNext => if s.intr = true then some (s.runSection intrTurn) else none
  | .take => if s.avail.nread ≠ s.avail.nwrite then some (.ok s.deviceTake) else none
  | .complete h => if h ∈ s.taken then some (.ok (s.deviceComplete h)) else none

/-! ### What the functions do -/

open Wp

variable {s s' s1 s2 : Virtio β} {E : DiskPanic → Prop} {i i0 i1 i2 : ℕ} {l l1 l2 : List ℕ}

/-- The descriptors in `l` have been freed.  The others that are in use are as before, and processes
may have been woken up. -/
structure Freed (s s' : Virtio β) (l : List ℕ) : Prop where
  rest : s' = { s with desc := s'.desc, free := s'.free, chan := s'.chan }
  free : ∀ i, s'.free i = (s.free i || decide (i ∈ l))
  desc : ∀ i, s.free i = false → i ∉ l → s'.desc i = s.desc i

theorem Freed.refl (s : Virtio β) : Freed s s [] := ⟨rfl, fun i => by simp, fun _ _ _ => rfl⟩

theorem Freed.trans (h₁ : Freed s s1 l1) (h₂ : Freed s1 s2 l2) : Freed s s2 (l1 ++ l2) := by
  refine ⟨?_, fun i => ?_, fun i hi hl => ?_⟩
  · rw [h₂.rest, h₁.rest]
  · rw [h₂.free, h₁.free]
    simp [Bool.or_assoc]
  · rw [mem_append, not_or] at hl
    rw [h₂.desc i _ hl.2, h₁.desc i hi hl.1]
    rw [h₁.free, hi]
    simp [hl.1]

theorem wp_allocDesc {Q : Option ℕ → Virtio β → Prop} (hnone : Q none s)
    (hsome : ∀ i < num, s.free i = true →
      Q (some i) { s with free := update s.free i false }) : wp allocDesc Q E s := by
  unfold allocDesc
  rw [wp_bind, wp_get]
  split
  · exact wp_pure.2 hnone
  · rename_i i hi
    rw [wp_bind, wp_modify, wp_pure]
    exact hsome i (mem_range.1 (mem_of_find?_eq_some hi)) (List.find?_some hi)

theorem wp_freeDesc {Q : Unit → Virtio β → Prop} (hi : i < num) (hfree : s.free i = false)
    (hQ : ∀ s', Freed s s' [i] → Q () s') : wp (freeDesc i) Q E s := by
  unfold freeDesc
  rw [if_neg (by omega), wp_bind, wp_get, if_neg (by simp [hfree]), wp_bind, wp_modify, wakeup,
    wp_modify]
  refine hQ _ ⟨rfl, fun j => ?_, fun j _ hj => ?_⟩
  · by_cases hji : j = i
    · simp [hji]
    · simp [hji]
  · exact update_of_ne (by simpa using hj) _ _

theorem wp_alloc3Desc {Q : Option (ℕ × ℕ × ℕ) → Virtio β → Prop}
    (hnone : ∀ s', Freed s s' [] → Q none s')
    (hsome : ∀ i0 i1 i2, (∀ i ∈ [i0, i1, i2], i < num ∧ s.free i = true) → [i0, i1, i2].Nodup →
      Q (some (i0, i1, i2)) { s with free := fun i => s.free i && decide (i ∉ [i0, i1, i2]) }) :
    wp alloc3Desc Q E s := by
  -- taking descriptors and giving them back
  have hback : ∀ (l : List ℕ) (s1 s' : Virtio β), (∀ i ∈ l, s.free i = true) →
      s1 = { s with free := s1.free } → (∀ i, s1.free i = (s.free i && decide (i ∉ l))) →
      Freed s1 s' l → Freed s s' [] := by
    intro l s1 s' hl hs1 hfree h
    refine ⟨?_, fun i => ?_, fun i hi _ => ?_⟩
    · rw [h.rest, hs1]
    · rw [h.free, hfree]
      by_cases hil : i ∈ l
      · simp [hil, hl i hil]
      · simp [hil]
    · have hil : i ∉ l := fun hil => by simp [hl i hil] at hi
      rw [h.desc i (by simp [hfree, hi]) hil, hs1]
  unfold alloc3Desc
  rw [wp_bind]
  refine wp_allocDesc (wp_pure.2 (hnone s (.refl s))) fun i0 hi0 hf0 => ?_
  rw [wp_bind]
  refine wp_allocDesc ?_ fun i1 hi1 hf1 => ?_
  · rw [wp_bind]
    refine wp_freeDesc hi0 (update_self _ _ _) fun s' h => wp_pure.2 (hnone s' ?_)
    refine hback [i0] _ s' (by simpa using hf0) rfl (fun i => ?_) h
    by_cases h0 : i = i0 <;> simp [h0]
  · simp only at hf1 ⊢
    have h10 : i1 ≠ i0 := by
      rintro rfl
      simp at hf1
    rw [update_of_ne h10] at hf1
    rw [wp_bind]
    refine wp_allocDesc ?_ fun i2 hi2 hf2 => ?_
    · rw [wp_bind]
      refine wp_freeDesc hi0 (by simp [update_of_ne h10.symm]) fun s1 h₁ => ?_
      rw [wp_bind]
      refine wp_freeDesc hi1 (by simp [h₁.free, h10]) fun s2 h₂ => wp_pure.2 (hnone s2 ?_)
      refine hback [i0, i1] _ s2 (by simp [hf0, hf1]) rfl (fun i => ?_) (h₁.trans h₂)
      simp only [update_apply]
      by_cases h1 : i = i1 <;> by_cases h0 : i = i0 <;> simp [h0, h1]
    · simp only at hf2 ⊢
      have h21 : i2 ≠ i1 := by
        rintro rfl
        simp at hf2
      rw [update_of_ne h21] at hf2
      have h20 : i2 ≠ i0 := by
        rintro rfl
        simp at hf2
      rw [update_of_ne h20] at hf2
      rw [wp_pure]
      have hfun : update (update (update s.free i0 false) i1 false) i2
          false = fun i => s.free i && decide (i ∉ [i0, i1, i2]) := by
        funext i
        simp only [update_apply]
        by_cases h0 : i = i0 <;> by_cases h1 : i = i1 <;> by_cases h2 : i = i2 <;> simp [h0, h1, h2]
      rw [hfun]
      refine hsome i0 i1 i2 ?_ ?_
      · simp [hi0, hi1, hi2, hf0, hf1, hf2]
      · simp [h10.symm, h20.symm, h21.symm]

/-- Three descriptors that are linked to a chain and in use. -/
structure Chained (s : Virtio β) (i0 i1 i2 : ℕ) : Prop where
  used : ∀ i ∈ [i0, i1, i2], i < num ∧ s.free i = false
  nodup : [i0, i1, i2].Nodup
  first : (s.desc i0).flags &&& descNext ≠ 0 ∧ (s.desc i0).next = i1
  second : (s.desc i1).flags &&& descNext ≠ 0 ∧ (s.desc i1).next = i2
  third : (s.desc i2).flags &&& descNext = 0

theorem wp_freeChain {Q : Unit → Virtio β → Prop} (h : s.Chained i0 i1 i2)
    (hQ : ∀ s', Freed s s' [i0, i1, i2] → Q () s') : wp (freeChain (num + 1) i0) Q E s := by
  have hn := h.nodup
  simp only [nodup_cons, mem_cons, not_mem_nil, not_or, or_false, not_false_eq_true,
    nodup_nil, and_true] at hn
  obtain ⟨⟨h01, h02⟩, h12⟩ := hn
  have hu := h.used
  simp only [mem_cons, not_mem_nil, or_false, forall_eq_or_imp, forall_eq] at hu
  obtain ⟨⟨hl0, hf0⟩, ⟨hl1, hf1⟩, ⟨hl2, hf2⟩⟩ := hu
  rw [show num + 1 = (num - 2) + 1 + 1 + 1 from rfl]
  simp only [freeChain]
  rw [wp_bind, wp_get, wp_bind]
  refine wp_freeDesc hl0 hf0 fun s1 r1 => ?_
  rw [if_pos h.first.1, h.first.2, wp_bind, wp_get, wp_bind]
  have hd1 : s1.desc i1 = s.desc i1 := r1.desc i1 hf1 (by simpa using Ne.symm h01)
  have hd2 : s1.desc i2 = s.desc i2 := r1.desc i2 hf2 (by simpa using Ne.symm h02)
  refine wp_freeDesc hl1 (by simp [r1.free, hf1, Ne.symm h01]) fun s2 r2 => ?_
  rw [hd1, if_pos h.second.1, h.second.2, wp_bind, wp_get, wp_bind]
  have hd3 : s2.desc i2 = s.desc i2 :=
    (r2.desc i2 (by simp [r1.free, hf2, Ne.symm h02]) (by simpa using Ne.symm h12)).trans hd2
  refine wp_freeDesc hl2 (by simp [r2.free, r1.free, hf2, Ne.symm h02, Ne.symm h12])
    fun s3 r3 => ?_
  rw [hd3, if_neg (by simp [h.third]), wp_pure]
  exact hQ s3 ((r1.trans r2).trans r3)

end Virtio

end CsklubOs
