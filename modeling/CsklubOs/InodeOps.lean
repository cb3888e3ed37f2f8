/-
**Block ownership in every run of the inode layer.**

Calls are made one after the other in any order.  A caller works on inodes it has a reference to,
and on their contents after `ilock`.

Main definitions:

* `InodeSys`, `InodeAct`, `step` — making an inode, taking references, reading and writing at any
  offset and with any source, truncating, changing link counts, removing a directory entry, dropping
  references;
* `Idle` — a start: nobody holds a reference.

Main results:

* `block_ownership` — a used block is in one slot of one inode, in every run;
* `no_holes` — the blocks of a file below its size stay mapped;
* `shared_block_hole` — they do not on a disk that is not consistent.
-/

import CsklubOs.InodeTable
import CsklubOs.Runs

set_option autoImplicit false

namespace CsklubOs

namespace Fs

open Wp Multiset

variable [Superblock] {s : Fs} {p : IPtr} {E : FsPanic → Prop} {R : Multiset IPtr}

/-! ### Operations on inodes -/

/-- `ip->nlink++; iupdate(ip)`. -/
def addLink (p : IPtr) : FsM Unit := do
  modifyD p fun d => { d with nlink := short (d.nlink + 1) }
  iupdate p

/-- `ip->nlink--; iupdate(ip)`. -/
def dropLink (p : IPtr) : FsM Unit := do
  modifyD p fun d => { d with nlink := short (d.nlink - 1) }
  iupdate p

/-- The fields that `create` sets in a new inode. -/
def initInode (p : IPtr) (major minor : ℤ) : FsM Unit := do
  modifyD p fun d => { d with major := short major, minor := short minor, nlink := 1 }
  iupdate p

/-- The part of `create` that makes the inode. -/
def createInode (type : IType) (major minor : ℤ) : FsM (Option IPtr) := do
  match ← ialloc type with
  | none => pure none
  | some p => do
    ilock p
    initInode p major minor
    pure (some p)

/-- Writing zeros over the directory entry at `off`. -/
def clearEntry (dp : IPtr) (off : ℕ) : FsM Unit := do
  if (← writei dp (List.replicate 16 0) off 16) = some 16 then pure () else throw .unlinkWritei

/-- The links of the parent when a directory is removed from it. -/
def dropParentLink (dp ip : IPtr) : FsM Unit := do
  let s ← get
  if (s.itable ip).d.type = .dir then dropLink dp else pure ()

/-- The part of `sys_unlink` after the checks: `ip` was found at `off` in `dp`. -/
def unlinkInode (dp ip : IPtr) (off : ℕ) : FsM Unit := do
  clearEntry dp off
  dropParentLink dp ip
  iput dp
  dropLink ip
  iput ip

/-- `fileread` of a file on disk, with its `readable`: the result of `readi`, and the offset of the
file afterwards. -/
def fileread (readable : Bool) (p : IPtr) (off n room : ℕ) : FsM (Option (List UInt8) × ℕ) :=
  if readable = false then pure (none, off)
  else do
    ilock p
    let r ← readi p off n room
    pure (r, off + (r.elim 0 List.length))

/-! ### What they keep -/

theorem wp_dropLink {Q : Unit → Fs → Prop} (h : FsOk s R) (hp : p ∈ R)
    (hv : (s.itable p).valid = true)
    (hQ : ∀ s', FsOk s' R → Kept R s s' → s'.used = s.used → s'.data = s.data →
      s'.dinode = Function.update s.dinode (s.itable p).inum { s.dinode (s.itable p).inum with
        nlink := short ((s.dinode (s.itable p).inum).nlink - 1) } → Q () s') :
    wp (dropLink p) Q E s :=
  wp_modifyD_iupdate h hp hv (fun _ => ⟨rfl, rfl, rfl⟩) hQ

theorem wp_addLink {Q : Unit → Fs → Prop} (h : FsOk s R) (hp : p ∈ R)
    (hv : (s.itable p).valid = true)
    (hQ : ∀ s', FsOk s' R → Kept R s s' → s'.used = s.used → s'.data = s.data →
      s'.dinode = Function.update s.dinode (s.itable p).inum { s.dinode (s.itable p).inum with
        nlink := short ((s.dinode (s.itable p).inum).nlink + 1) } → Q () s') :
    wp (addLink p) Q E s :=
  wp_modifyD_iupdate h hp hv (fun _ => ⟨rfl, rfl, rfl⟩) hQ

/-- The inode as `create` sets it up. -/
def Dinode.init (type : IType) (major minor : ℤ) : Dinode :=
  { Dinode.fresh type with major := short major, minor := short minor, nlink := 1 }

theorem wp_createInode {Q : Option IPtr → Fs → Prop} {type : IType} {major minor : ℤ}
    (htype : type ≠ .free) (h : FsOk s R) (hE : E .igetNoInodes)
    (hnone : (∀ i, 0 < i → i < Superblock.ninodes → (s.dinode i).type ≠ .free) → Q none s)
    (hQ : ∀ p s', FsOk s' (p ::ₘ R) → Kept R s s' → s'.used = s.used → s'.data = s.data →
      0 < (s'.itable p).inum → (s.dinode (s'.itable p).inum).type = .free →
      s'.dinode = Function.update s.dinode (s'.itable p).inum (Dinode.init type major minor) →
      (s'.itable p).valid = true → Q (some p) s') : wp (createInode type major minor) Q E s := by
  rw [createInode, wp_bind]
  refine wp_ialloc h hE (fun hfull => wp_pure.2 (hnone hfull))
    fun p s1 h1 hk1 hu1 hd1 hpos hfree hn1 hv1 => ?_
  have hp : p ∈ p ::ₘ R := mem_cons_self p R
  have hself : s1.dinode (s1.itable p).inum = Dinode.fresh type := by
    rw [hn1, Function.update_self]
  show wp (do ilock p; initInode p major minor; pure (some p)) Q E s1
  rw [wp_bind]
  refine wp_ilock h1 hp (fun _ hf => ?_) fun s2 h2 hk2 hdisk2 hv2 hi2 => ?_
  · rw [hself] at hf
    exact absurd hf htype
  · rw [wp_bind]
    refine wp_modifyD_iupdate h2 hp hv2 (fun _ => ⟨rfl, rfl, rfl⟩) fun s' h' hk' hu' hd' hn' =>
      wp_pure.2 ?_
    have hi' : (s'.itable p).inum = (s1.itable p).inum := ((hk' p hp).1).trans hi2
    refine hQ p s' h' ((hk1.trans (hk2.mono fun q hq => mem_cons_of_mem hq)).trans
      (hk'.mono fun q hq => mem_cons_of_mem hq)) (hu'.trans (hdisk2.used.trans hu1))
      (hd'.trans (hdisk2.data.trans hd1)) (hi' ▸ hpos) (hi' ▸ hfree) ?_ ((hk' p hp).2 hv2)
    rw [hn', hi', hi2, hdisk2.dinode, hself, hn1, Function.update_idem]
    rfl

theorem wp_unlinkInode {dp ip : IPtr} {off : ℕ} (hE : E .unlinkWritei)
    (h : FsOk s (dp ::ₘ ip ::ₘ R)) (hdv : (s.itable dp).valid = true)
    (hiv : (s.itable ip).valid = true) :
    wp (unlinkInode dp ip off) (fun _ s' => FsOk s' R) E s := by
  have hdp : dp ∈ dp ::ₘ ip ::ₘ R := mem_cons_self _ _
  have hip : ip ∈ dp ::ₘ ip ::ₘ R := mem_cons_of_mem (mem_cons_self _ _)
  have hip' : ip ∈ ip ::ₘ R := mem_cons_self _ _
  rw [unlinkInode, wp_bind, clearEntry, wp_bind]
  refine wp_writei h hdp hdv (fun _ => wp_ite (nofun) fun _ => wp_throw.2 hE)
    fun tot s1 h1 hk1 _ => wp_ite (fun _ => wp_pure.2 ?_) fun _ => wp_throw.2 hE
  rw [wp_bind]
  -- the rest is the same whether the parent loses a link or not
  have hrest : ∀ s2, FsOk s2 (dp ::ₘ ip ::ₘ R) → Kept (dp ::ₘ ip ::ₘ R) s s2 →
      wp (do iput dp; dropLink ip; iput ip) (fun _ s' => FsOk s' R) E s2 := by
    intro s2 h2 hk2
    have hlast : ∀ s3, FsOk s3 (ip ::ₘ R) → Kept (ip ::ₘ R) s2 s3 →
        wp (do dropLink ip; iput ip) (fun _ s' => FsOk s' R) E s3 := by
      intro s3 h3 hk3
      rw [wp_bind]
      refine wp_dropLink h3 hip' ((hk3 ip hip').2 ((hk2 ip hip).2 hiv)) fun s4 h4 _ _ _ _ => ?_
      exact wp_iput h4 (fun _ s' hok _ _ => hok) fun _ s' hok _ _ _ => hok
    rw [wp_bind]
    exact wp_iput h2 (fun _ s3 h3 hk3 _ => hlast s3 h3 hk3) fun _ s3 h3 hk3 _ _ => hlast s3 h3 hk3
  rw [dropParentLink, wp_bind, wp_get]
  refine wp_ite (fun _ => ?_) fun _ => wp_pure.2 (hrest s1 h1 hk1)
  exact wp_dropLink h1 hdp ((hk1 dp hdp).2 hdv) fun s2 h2 hk2 _ _ _ => hrest s2 h2 (hk1.trans hk2)

end Fs

/-! ### The inode layer as a transition system -/

/-- The file system, and the references that callers hold. -/
structure InodeSys where
  fs : Fs
  held : List IPtr

/-- The operations of callers.  `unlink` is what `sys_unlink` does with the inode `ip` that it found
at offset `off` of the directory `dp`. -/
inductive InodeAct
  | create (type : IType) (major minor : ℤ)
  | iget (inum : ℕ)
  | idup (p : IPtr)
  | ilock (p : IPtr)
  | writei (p : IPtr) (src : List UInt8) (off n : ℕ)
  | readi (p : IPtr) (off n room : ℕ)
  | itrunc (p : IPtr)
  | addLink (p : IPtr)
  | unlink (dp ip : IPtr) (off : ℕ)
  | iput (p : IPtr)

namespace InodeSys

open Wp Fs

variable [Superblock]

/-- What callers do: they use references that they hold, and the contents of inodes that were
locked. -/
def possible (s : InodeSys) : InodeAct → Prop
  | .create type _ _ => type ≠ .free
  | .iget inum => inum < Superblock.ninodes
  | .idup p | .ilock p | .iput p => p ∈ s.held
  | .writei p _ _ _ | .readi p _ _ _ | .itrunc p | .addLink p =>
    p ∈ s.held ∧ (s.fs.itable p).valid = true
  | .unlink dp ip _ => (dp ∈ s.held ∧ (s.fs.itable dp).valid = true) ∧
      ip ∈ s.held.erase dp ∧ (s.fs.itable ip).valid = true

instance (s : InodeSys) (a : InodeAct) : Decidable (possible s a) := by
  cases a <;> unfold possible <;> infer_instance

/-- The code of an operation, with the references that are held afterwards. -/
def code (held : List IPtr) : InodeAct → FsM (List IPtr)
  | .create type major minor => do
    let p ← createInode type major minor
    pure (p.toList ++ held)
  | .iget inum => do
    let p ← Fs.iget inum
    pure (p :: held)
  | .idup p => do
    let p ← Fs.idup p
    pure (p :: held)
  | .ilock p => do
    Fs.ilock p
    pure held
  | .writei p src off n => do
    let _ ← Fs.writei p src off n
    pure held
  | .readi p off n room => do
    let _ ← Fs.readi p off n room
    pure held
  | .itrunc p => do
    Fs.itrunc p
    pure held
  | .addLink p => do
    Fs.addLink p
    pure held
  | .unlink dp ip off => do
    unlinkInode dp ip off
    pure ((held.erase dp).erase ip)
  | .iput p => do
    Fs.iput p
    pure (held.erase p)

/-- One operation. -/
def step (s : InodeSys) (a : InodeAct) : Option (Except FsPanic InodeSys) :=
  callStep (possible s a) (code s.held a) (fun held fs => ⟨fs, held⟩) s.fs

variable {a : InodeAct} {s : InodeSys}

section

variable (h : FsOk s.fs (s.held : Multiset IPtr))

include h

theorem wp_code (hp : possible s a) :
    wp (code s.held a) (fun held fs => FsOk fs (held : Multiset IPtr)) (· ≠ .freeingFreeBlock)
      s.fs := by
  have herase : ∀ {p : IPtr} {l : List IPtr}, p ∈ l →
      (l : Multiset IPtr) = p ::ₘ ((l.erase p : List IPtr) : Multiset IPtr) := by
    intro p l hp
    rw [← Multiset.coe_erase, Multiset.cons_erase (Multiset.mem_coe.2 hp)]
  cases a with
  | create type major minor =>
    rw [code, wp_bind]
    exact wp_createInode hp h (by decide) (fun _ => wp_pure.2 h) fun p s' h' _ _ _ _ _ _ _ =>
      wp_pure.2 h'
  | iget inum =>
    rw [code, wp_bind]
    exact wp_iget h hp (fun _ => by decide) fun p s' h' _ _ _ _ => wp_pure.2 h'
  | idup p =>
    rw [code, wp_bind]
    exact wp_idup h hp fun s' h' _ _ => wp_pure.2 h'
  | ilock p =>
    rw [code, wp_bind]
    exact wp_ilock h hp (fun _ _ => by decide) fun s' h' _ _ _ _ => wp_pure.2 h'
  | writei p src off n =>
    rw [code, wp_bind]
    exact wp_writei h hp.1 hp.2 (fun _ => wp_pure.2 h) fun _ s' h' _ _ => wp_pure.2 h'
  | readi p off n room =>
    rw [code, wp_bind]
    exact wp_readi h hp.1 hp.2 (wp_pure.2 h)
  | itrunc p =>
    rw [code, wp_bind]
    exact wp_trunc h hp.1 hp.2 fun s' h' _ _ _ => wp_pure.2 h'
  | addLink p =>
    rw [code, wp_bind]
    exact wp_addLink h hp.1 hp.2 fun s' h' _ _ _ _ => wp_pure.2 h'
  | unlink dp ip off =>
    obtain ⟨⟨hdp, hdv⟩, hip, hiv⟩ := hp
    rw [herase hdp, herase hip] at h
    rw [code, wp_bind]
    exact (wp_unlinkInode (by decide) h hdv hiv).mono fun _ s' h' => wp_pure.2 h'
  | iput p =>
    rw [herase hp] at h
    rw [code, wp_bind]
    exact wp_iput h (fun _ s' h' _ _ => wp_pure.2 h') fun _ s' h' _ _ _ => wp_pure.2 h'

theorem fsOk_step {s' : InodeSys} (hstep : step s a = some (.ok s')) :
    FsOk s'.fs (s'.held : Multiset IPtr) :=
  wp.callStep_ok (P := fun s => FsOk s.fs (s.held : Multiset IPtr)) (wp_code h) hstep

theorem panic_step {e : FsPanic} (hstep : step s a = some (.error e)) : e ≠ .freeingFreeBlock :=
  wp.callStep_error (E := (· ≠ .freeingFreeBlock)) (wp_code h) hstep

end

/-- A start: nobody holds a reference. -/
def Idle (s : InodeSys) : Prop := s.held = [] ∧ ∀ p, (s.fs.itable p).ref = 0

theorem Idle.fsOk (h : Idle s) (hd : DiskOk s.fs.used s.fs.data s.fs.dinode) :
    FsOk s.fs (s.held : Multiset IPtr) := by
  rw [h.1]
  have hnone : ∀ p : IPtr, p ∉ (([] : List IPtr) : Multiset IPtr) := nofun
  exact ⟨fun p => h.2 p, fun p hp => absurd hp (hnone p), fun p hp => absurd hp (hnone p),
    fun p hp => absurd hp (hnone p), hd⟩

theorem Idle.fsOk_reach {s0 : InodeSys} (h : Idle s0)
    (hd : DiskOk s0.fs.used s0.fs.data s0.fs.dinode) (hr : Runs.Reach step (fun _ _ => True) s0 s) :
    FsOk s.fs (s.held : Multiset IPtr) :=
  hr.invariant (I := fun s => FsOk s.fs (s.held : Multiset IPtr)) (h.fsOk hd)
    fun _ _ _ hok _ hstep => fsOk_step hok hstep

/-- **Block ownership**: from a consistent disk whose files have no unmapped block below their size,
and on which the blocks before the data area are marked as used, every state that is reached is
consistent, and no operation that is possible then frees a free block. -/
theorem block_ownership {s0 s : InodeSys} (hidle : Idle s0)
    (hcons : Consistent s0.fs.used s0.fs.data s0.fs.dinode)
    (hmapped : ∀ i, Allocated s0.fs.dinode i → ∀ bn, bn * bSize < (s0.fs.dinode i).size →
      blockNo s0.fs.data (s0.fs.dinode i) bn ≠ 0)
    (hreserved : ∀ b < Superblock.size - Superblock.nblocks, s0.fs.used b = true)
    (h : Runs.Reach step (fun _ _ => True) s0 s) :
    Consistent s.fs.used s.fs.data s.fs.dinode ∧
      ∀ a e, step s a = some (.error e) → e ≠ .freeingFreeBlock := by
  have hok := hidle.fsOk_reach ⟨hcons, hreserved, hmapped⟩ h
  exact ⟨hok.disk.owns, fun a e hstep => panic_step hok hstep⟩

omit [Superblock] in
/-- A disk of eight blocks, of which the last three are the data area, and two inodes. -/
@[reducible] def smallDisk : Superblock :=
  ⟨8, 3, 2, 2, 3, by decide, by decide, by decide, by decide⟩

omit [Superblock] in
/-- The empty disk with some bits of the free map set. -/
def emptyDisk (used : ℕ → Bool) : InodeSys :=
  { fs := { used := used, dinode := fun _ => Dinode.fresh .free, data := fun _ => Block.zero,
            itable := fun _ => ⟨0, 0, false, Dinode.fresh .free⟩, logged := [] }
    held := [] }

theorem consistent_emptyDisk {used : ℕ → Bool} (h : ∀ b ∈ (dataArea : Set ℕ), used b = false) :
    Consistent (emptyDisk used).fs.used (emptyDisk used).fs.data (emptyDisk used).fs.dinode := by
  have hslot : ∀ x, slotOf (emptyDisk used).fs.data (emptyDisk used).fs.dinode x = 0 := fun x =>
    if_neg fun hx => hx.2 rfl
  refine ⟨fun x hx => absurd (hslot x) hx, fun b hb hu => ?_⟩
  have hfree := h b hb
  simp only [emptyDisk] at hu
  rw [hfree] at hu
  cases hu

section

omit [Superblock]

theorem diskOk_smallDisk : @DiskOk smallDisk (emptyDisk (· < 5)).fs.used (emptyDisk (· < 5)).fs.data
    (emptyDisk (· < 5)).fs.dinode := by
  let S : Superblock := smallDisk
  refine ⟨consistent_emptyDisk ?_, fun b hb => decide_eq_true hb, fun i hi => absurd rfl hi.2⟩
  rintro b ⟨hb, -⟩
  have h5 : 5 ≤ b := hb
  exact decide_eq_false (by omega)

theorem exists_fsOk {Q : InodeSys → Prop} [DecidablePred Q] (as : List InodeAct)
    (h : (Runs.exec (@step smallDisk) (fun _ _ => True) (emptyDisk (· < 5)) as).any
      (fun s => decide (Q s)) = true) :
    ∃ s : InodeSys, @FsOk smallDisk s.fs (s.held : Multiset IPtr) ∧ Q s := by
  let S : Superblock := smallDisk
  obtain ⟨s, hreach, hQ⟩ := Runs.exists_reach_of_exec as h
  exact ⟨s, Idle.fsOk_reach ⟨rfl, fun _ => rfl⟩ diskOk_smallDisk hreach, hQ⟩

/-- A file with a block in use. -/
theorem block_ownership_write : ∃ (_ : Superblock) (s : InodeSys),
    Runs.Reach step (fun _ _ => True) (emptyDisk (· < 5)) s ∧ (s.fs.dinode 1).addrs 0 = 5 ∧
    Consistent s.fs.used s.fs.data s.fs.dinode := by
  let S : Superblock := smallDisk
  have hrun : ∃ s, Runs.Reach step (fun _ _ => True) (emptyDisk (· < 5)) s ∧
      (s.fs.dinode 1).addrs 0 = 5 := Runs.exists_reach_of_exec
    [.create .file 0 0, .writei (0 : Fin 50) [65] 0 1] (by decide +kernel)
  obtain ⟨s, hreach, haddr⟩ := hrun
  have hd := diskOk_smallDisk
  exact ⟨S, s, hreach, haddr,
    (block_ownership ⟨rfl, fun _ => rfl⟩ hd.owns hd.mapped hd.reserved hreach).1⟩

/-- When the bit of the super block is clear, a file gets the super block: the disk was consistent,
without files, and no longer is. -/
theorem superblock_allocated : ∃ (_ : Superblock) (s0 s : InodeSys), Idle s0 ∧
    Consistent s0.fs.used s0.fs.data s0.fs.dinode ∧
    (∀ i, ¬ Allocated s0.fs.dinode i) ∧
    Runs.Reach step (fun _ _ => True) s0 s ∧ ¬ Consistent s.fs.used s.fs.data s.fs.dinode := by
  let S : Superblock := smallDisk
  have hrun : ∃ s, Runs.Reach step (fun _ _ => True) (emptyDisk (· = 0)) s ∧
      (s.fs.dinode 1).addrs 0 = 1 ∧ (s.fs.dinode 1).type = .file := Runs.exists_reach_of_exec
    [.create .file 0 0, .writei (0 : Fin 50) [65] 0 1] (by decide +kernel)
  obtain ⟨s, hreach, haddr, htype⟩ := hrun
  refine ⟨S, emptyDisk (· = 0), s, ⟨rfl, fun _ => rfl⟩, consistent_emptyDisk ?_,
    fun i hi => hi.2 rfl, hreach, fun hc => ?_⟩
  · rintro b ⟨hb, -⟩
    have h5 : 5 ≤ b := hb
    exact decide_eq_false (by omega)
  · have hi : Allocated s.fs.dinode 1 := ⟨by decide, by rw [htype]; decide⟩
    have hval : slotOf s.fs.data s.fs.dinode (1, .addr 0) = 1 := by
      rw [slotOf_of_allocated hi]
      exact haddr
    have harea := (hc.held (1, .addr 0) (by rw [hval]; decide)).1
    rw [hval] at harea
    have h5 : 5 ≤ 1 := harea.1
    omega

/-! ### Reading -/

theorem wp_ilock_logged {fs : Fs} {p : IPtr} {Q : Unit → Fs → Prop} {E : FsPanic → Prop}
    (h : wp (Fs.ilock p) Q E fs) :
    wp (Fs.ilock p) (fun u fs' => Q u fs' ∧ fs'.logged = fs.logged) E fs := by
  rw [Fs.ilock, wp_bind, wp_get] at h ⊢
  split_ifs at h ⊢
  · exact wp_throw.2 (wp_throw.1 h)
  · exact wp_pure.2 ⟨wp_pure.1 h, rfl⟩
  · exact wp_throw.2 (wp_throw.1 h)
  · exact wp_modify.2 ⟨wp_modify.1 h, rfl⟩

end

/-- **No holes**: from a consistent disk whose files have no unmapped block below their size, and on
which the blocks before the data area are marked as used, no file gets an unmapped block below its
size.  So `fileread` allocates no block, passes none to `log_write`, and never stops at a block that
is missing. -/
theorem no_holes {s0 s : InodeSys} (hidle : Idle s0)
    (hcons : Consistent s0.fs.used s0.fs.data s0.fs.dinode)
    (hmapped : ∀ i, Allocated s0.fs.dinode i → ∀ bn, bn * bSize < (s0.fs.dinode i).size →
      blockNo s0.fs.data (s0.fs.dinode i) bn ≠ 0)
    (hreserved : ∀ b < Superblock.size - Superblock.nblocks, s0.fs.used b = true)
    (h : Runs.Reach step (fun _ _ => True) s0 s) :
    (∀ i, Allocated s.fs.dinode i → ∀ bn, bn * bSize < (s.fs.dinode i).size →
      blockNo s.fs.data (s.fs.dinode i) bn ≠ 0) ∧
    ∀ p ∈ s.held, ∀ (readable : Bool) (off n room : ℕ),
      wp (fileread readable p off n room)
        (fun r fs => (readable = true →
            r.1 = readResult s.fs.data (s.fs.dinode (s.fs.itable p).inum) off n room) ∧
          fs.logged = s.fs.logged ∧ SameDisk s.fs fs)
        (fun e => e = .ilockNoType ∧ (s.fs.itable p).valid = false ∧
          (s.fs.dinode (s.fs.itable p).inum).type = .free) s.fs := by
  have hok := hidle.fsOk_reach ⟨hcons, hreserved, hmapped⟩ h
  refine ⟨hok.disk.mapped, fun p hp readable off n room => ?_⟩
  refine wp_ite (fun hr => wp_pure.2 ⟨fun h' => ?_, rfl, .refl _⟩) fun _ => wp_bind.2 ?_
  · rw [hr] at h'
    cases h'
  have hlock : wp (Fs.ilock p) (fun _ fs => FsOk fs (s.held : Multiset IPtr) ∧ SameDisk s.fs fs ∧
      (fs.itable p).valid = true ∧ (fs.itable p).inum = (s.fs.itable p).inum)
      (fun e => e = .ilockNoType ∧ (s.fs.itable p).valid = false ∧
        (s.fs.dinode (s.fs.itable p).inum).type = .free) s.fs :=
    wp_ilock hok hp (fun hv ht => ⟨rfl, hv, ht⟩) fun fs h' _ hd hv hi => ⟨h', hd, hv, hi⟩
  refine (wp_ilock_logged hlock).mono ?_
  rintro _ fs ⟨⟨h', hd, hv, hi⟩, hlog⟩
  rw [wp_bind]
  refine wp_readi h' hp hv (wp_pure.2 ⟨fun _ => ?_, hlog, hd⟩)
  rw [hd.data, hd.dinode, hi]

section

omit [Superblock]

/-- Reading beyond the end of a short file. -/
theorem no_holes_write : ∃ (_ : Superblock) (s : InodeSys),
    Runs.Reach step (fun _ _ => True) (emptyDisk (· < 5)) s ∧ ⟨0, by decide⟩ ∈ s.held ∧
    (s.fs.dinode 1).size = 1 ∧
    wp (fileread true ⟨0, by decide⟩ 0 2000 2000) (fun r fs => r.1 = some [65] ∧
      fs.logged = s.fs.logged) (fun _ => False) s.fs := by
  let S : Superblock := smallDisk
  have hrun : ∃ s, Runs.Reach step (fun _ _ => True) (emptyDisk (· < 5)) s ∧
      ⟨0, by decide⟩ ∈ s.held ∧ (s.fs.dinode 1).size = 1 ∧
      (s.fs.itable ⟨0, by decide⟩).valid = true ∧ readResult s.fs.data
      (s.fs.dinode (s.fs.itable ⟨0, by decide⟩).inum) 0 2000 2000 = some [65] :=
    Runs.exists_reach_of_exec [.create .file 0 0, .writei (0 : Fin 50) [65] 0 1] (by decide +kernel)
  obtain ⟨s, hreach, hheld, hsize, hvalid, hbytes⟩ := hrun
  have hd := diskOk_smallDisk
  have hread := (@no_holes _ (emptyDisk (· < 5)) s ⟨rfl, fun _ => rfl⟩ hd.owns hd.mapped hd.reserved
    hreach).2 _ hheld true 0 2000 2000
  refine ⟨S, s, hreach, hheld, hsize, wp_mono hread (fun r fs h => ⟨(h.1 rfl).trans hbytes, h.2.1⟩)
    ?_⟩
  rintro e ⟨-, hv, -⟩
  exact Bool.noConfusion (hvalid.symm.trans hv)

/-- A disk on which a block is shared: it is the indirect block of inode 1, whose file has one block
more than `addrs` names, and the first block of inode 2. -/
def sharedDisk : InodeSys :=
  { fs := { used := (· < 22)
            dinode := fun i =>
              if i = 1 then { Dinode.fresh .file with nlink := 1, size := 12 * 1024 + 1,
                                                      addrs := fun k => 8 + k.val }
              else if i = 2 then { Dinode.fresh .file with nlink := 1, size := 4,
                                                           addrs := fun k => if k =
                                                           0 then 20 else 0 }
              else Dinode.fresh .free
            data := fun b => if b = 20 then Block.zero.setWord 0 21 else Block.zero
            itable := fun _ => ⟨0, 0, false, Dinode.fresh .free⟩
            logged := [] }
    held := [] }

/-- Every file of a disk with a shared block is mapped; after a write to one file the other has a
hole, and reading it allocates a block and calls `log_write`. -/
theorem shared_block_hole : ∃ (_ : Superblock) (s0 s : InodeSys), Idle s0 ∧
    (∀ i, Allocated s0.fs.dinode i → ∀ bn, bn * bSize < (s0.fs.dinode i).size →
      blockNo s0.fs.data (s0.fs.dinode i) bn ≠ 0) ∧
    (∀ b < Superblock.size - Superblock.nblocks, s0.fs.used b = true) ∧
    Runs.Reach step (fun _ _ => True) s0 s ∧
    blockNo s.fs.data (s.fs.dinode 1) 12 = 0 ∧ 12 * bSize < (s.fs.dinode 1).size ∧
    ∃ r fs, fileread true ⟨0, by decide⟩ (12 * bSize) 1 1 s.fs = .ok (r, fs) ∧
      fs.logged ≠ s.fs.logged := by
  let S : Superblock := ⟨24, 16, 3, 2, 3, by decide, by decide, by decide, by decide⟩
  have hrun : ∃ s, Runs.Reach step (fun _ _ => True) sharedDisk s ∧
      blockNo s.fs.data (s.fs.dinode 1) 12 = 0 ∧ 12 * bSize < (s.fs.dinode 1).size ∧
      (fileread true ⟨0, by decide⟩ (12 * bSize) 1 1 s.fs).toOption.any
        (fun r => r.2.logged ≠ s.fs.logged) = true := Runs.exists_reach_of_exec
    [.iget 1, .iget 2, .ilock ⟨1, by decide⟩, .writei ⟨1, by decide⟩ [0, 0, 0, 0] 0 4]
    (by decide +kernel)
  obtain ⟨s, hreach, hhole, hsize, hread⟩ := hrun
  refine ⟨S, sharedDisk, s, ⟨rfl, fun _ => rfl⟩, ?_, by decide, hreach, hhole, hsize, ?_⟩
  · have hall : ∀ i < 3, ∀ bn < 13, bn * bSize < (sharedDisk.fs.dinode i).size →
        blockNo sharedDisk.fs.data (sharedDisk.fs.dinode i) bn ≠ 0 := by decide +kernel
    have hsizes : ∀ i < 3, (sharedDisk.fs.dinode i).size ≤ 12 * bSize + 1 := by decide +kernel
    intro i hi bn hbn
    have hle := hsizes i hi.1
    refine hall i hi.1 bn ?_ hbn
    rw [show bSize = 1024 from rfl] at hle hbn
    omega
  · obtain ⟨⟨r, fs⟩, hok, hne⟩ := exists_ok_of_any hread
    exact ⟨r, fs, hok, of_decide_eq_true hne⟩

end

end InodeSys

end CsklubOs
