/-
**A failed `open`, and the file that it may leave behind.**

`sys_open` of `kernel/sysfile.c` looks up or creates the inode first, and asks for an entry of the
file table and for a descriptor afterwards.

Main definitions:

* `Refused`, `NoTrace`, `LeavesFile` — when there is none, and what stays.

Main results:

* `failed_open` — a file that `create` has made for the call stays, with its name; all other exits
  leave nothing;
* `open_leaves_file` — a call that does.
-/

import CsklubOs.DirMap
import CsklubOs.FailedCalls

set_option autoImplicit false

namespace CsklubOs

open Function Option
open Multiset (mem_cons_of_mem mem_cons_self)
open Wp

variable [Superblock]

namespace Fs

open NameTree

variable {s0 s s' : Fs} {p q dp cwd : IPtr} {E : FsPanic → Prop} {R : Multiset IPtr}
  {path name : List UInt8}

/-! ### When `create` makes a file -/

/-- The directory `d` takes no further entry: its slots are in use, and it cannot grow. -/
def DirFull (s : Fs) (d : ℕ) : Prop :=
  (∀ e ∈ (tree s d).slots, e.inum ≠ 0) ∧ CannotGrow s (s.dinode d)

/-- `create` can make a file `name` in the directory `d`. -/
structure CanMake (s : Fs) (d : ℕ) (name : List UInt8) : Prop where
  absent : (tree s d).find name = none
  inode : ∃ i, 0 < i ∧ i < Superblock.ninodes ∧ (s.dinode i).type = .free
  slot : ¬ DirFull s d

/-- `create` makes a file for the path. -/
def Creates (s : Fs) (cwd : IPtr) (path : List UInt8) : Prop :=
  ∃ d name, resolveParent (tree s) (startInum s cwd path) (elements path) = some (d, name) ∧
    CanMake s d name

theorem creates_iff {d : ℕ} (h : resolveParent (tree s) (startInum s cwd path) (elements path) =
    some (d, name)) : Creates s cwd path ↔ CanMake s d name := by
  refine ⟨fun ⟨d', name', h', hmake⟩ => ?_, fun hmake => ⟨d, name, h, hmake⟩⟩
  rw [h, some_inj, Prod.mk.injEq] at h'
  rw [h'.1, h'.2]
  exact hmake

theorem dirFull_iff (hu : s.used = s0.used) (hd : s.data = s0.data)
    (hself : (s.itable dp).d = s0.dinode (s.itable dp).inum)
    (hslots : slotsAt s dp = (tree s0 (s.itable dp).inum).slots) :
    ((∀ e ∈ slotsAt s dp, e.inum ≠ 0) ∧ CannotGrow s (s.itable dp).d) ↔
    DirFull s0 (s.itable dp).inum := by
  have hfree : ∀ b, FreeBlock s b ↔ FreeBlock s0 b := fun b => by rw [FreeBlock, hu, FreeBlock]
  rw [hslots, DirFull, CannotGrow, CannotGrow, Room, Room, hself, hd]
  simp only [hfree]

/-- A file that `create` has made since `s0`, with its first link. -/
structure Made (s0 s : Fs) (R : Multiset IPtr) (p : IPtr) : Prop where
  dir : DirOk s (p ::ₘ R)
  kept : Kept R s0 s
  valid : (s.itable p).valid = true
  node : tree s (s.itable p).inum = newNode .file 0 0
  fresh : ¬ Allocated s0.dinode (s.itable p).inum

theorem wp_createNew_file (hE : ∀ e, E e) (hs : Sound s0 R) (h : Locked s0 s R dp)
    (hdir : (tree s0 (s.itable dp).inum).type = .dir)
    (hfind : (tree s0 (s.itable dp).inum).find name = none) :
    wp (createNew dp name .file 0 0) (fun r s' =>
      (r = none → ¬ CanMake s0 (s.itable dp).inum name) ∧
      ∀ p, r = some p → CanMake s0 (s.itable dp).inum name ∧ Made s0 s' R p) E s := by
  have hdp : dp ∈ dp ::ₘ R := mem_cons_self dp R
  have hRdp : ∀ q ∈ R, q ∈ dp ::ₘ R := fun q hq => mem_cons_of_mem hq
  have ht := tree_congr h.disk
  have hrange := fun e he => (hs.steady.entries _ h.safe hdir e he).1
  rw [createNew, wp_bind]
  refine wp_createNode (by simp) h.dir (hE _) (fun hfull => ?_) ?_
  · refine wp_bind.2 ((wp_true _ hE s).mono fun _ _ _ => wp_pure.2 ⟨fun _ hmake => ?_, by simp⟩)
    obtain ⟨i, hpos, hlt, hfree⟩ := hmake.inode
    rw [h.disk.dinode] at hfull
    exact hfull i hpos hlt hfree
  intro p s1 h1 hk1 hpos hlt hfree ht1 hv1 _ hu1 hd1 hn1
  have hp : p ∈ p ::ₘ dp ::ₘ R := mem_cons_self p _
  have hdp1 : dp ∈ p ::ₘ dp ::ₘ R := mem_cons_of_mem hdp
  have hi1 : (s1.itable dp).inum = (s.itable dp).inum := (hk1 dp hdp).1
  have hdv1 := (hk1 dp hdp).2 h.valid
  have hne : (s.itable dp).inum ≠ (s1.itable p).inum := by
    intro heq
    rw [← heq, ht, hdir] at hfree
    cases hfree
  have hnode1 : tree s1 (s1.itable dp).inum = tree s0 (s.itable dp).inum := by
    rw [hi1, ht1, update_of_ne hne, ht]
  have hdir1 : (tree s1 (s1.itable dp).inum).type = .dir := by rw [hnode1, hdir]
  obtain ⟨hheld, hslots⟩ := h1.held hdp1 hdv1 hdir1
  rw [hnode1] at hslots
  -- the directory is as full as it was
  have hfull : ((∀ e ∈ slotsAt s1 dp, e.inum ≠ 0) ∧ CannotGrow s1 (s1.itable dp).d) ↔
      DirFull s0 (s.itable dp).inum := by
    rw [← hi1] at hslots ⊢
    refine dirFull_iff (hu1.trans h.disk.used) (hd1.trans h.disk.data) ?_ hslots
    rw [(h1.fs.sync dp hdp1 hdv1).1, hn1, hi1, update_of_ne hne, h.disk.dinode]
  have hinode : ∃ i, 0 < i ∧ i < Superblock.ninodes ∧ (s0.dinode i).type = .free := by
    refine ⟨_, hpos, hlt, ?_⟩
    by_contra hused
    rw [ht] at hfree
    exact allocated_iff.1 ⟨hlt, hused⟩ hfree
  have hle := Superblock.ninodes_le
  have hexact : wp (createEntries dp p name .file) (fun b _ => b = false ↔
      DirFull s0 (s.itable dp).inum) E s1 := by
    rw [createEntries, wp_bind, wp_get, wp_bind]
    refine wp_ite (by simp) fun _ => wp_pure.2 ?_
    refine (wp_dirlink_held hheld (h1.fs.ref_pos hdp1) name (by omega) fun _ _ _ => hE _).mono
      fun b s2 hlink => hlink.fails.trans (Iff.trans ?_ hfull)
    refine ⟨fun hor => hor.resolve_left fun hno => hno ?_, .inr⟩
    rw [hslots]
    exact hfind
  refine wp_bind.2 (((wp_createEntries (Q := fun b s2 => b = true → DirOk s2 (p ::ₘ dp ::ₘ R) ∧
    Kept (p ::ₘ dp ::ₘ R) s1 s2 ∧ (tree s2 (s.itable dp).inum).nlink =
      (tree s0 (s.itable dp).inum).nlink ∧ tree s2 (s1.itable p).inum = newNode .file 0 0)
    h1 hp hdp1 hv1 hdv1 hpos.ne' (hE _) ?_ hdir1 ?_ ?_ ?_ ?_ ?_).and hexact).mono ?_)
  · rw [ht1, update_self]
  · rw [hnode1]
    exact hrange
  · rw [hi1]
    exact hne
  · rw [hnode1, hfind]
  · intro l s2 _ _ _ _ hb
    cases hb
  · intro k s2 _ _ h2 hk2 ht2 _
    rw [hi1] at ht2
    refine ⟨h2, hk2, ?_, ?_⟩
    · rw [hi1] at hnode1
      rw [ht2, update_self, hnode1]
    · rw [ht2, update_of_ne hne.symm, update_self]
      rfl
  · rintro b s2 ⟨hdone, hiff⟩
    refine wp_ite (fun hb => ?_) fun hb => ?_
    · -- the file has its name
      obtain ⟨h2, hk2, hlink2, hnode2⟩ := hdone hb
      have hk20 : Kept R s0 s2 := h.kept.trans ((hk1.mono hRdp).trans
        (hk2.mono fun q hq => mem_cons_of_mem (hRdp q hq)))
      have hmake : CanMake s0 (s.itable dp).inum name :=
        ⟨hfind, hinode, fun hno => by rw [hiff.2 hno] at hb; cases hb⟩
      rw [Multiset.cons_swap] at h2
      refine wp_bind.2 (wp_ite (by simp) fun _ => wp_pure.2 (wp_bind.2 ?_))
      refine wp_iput_safe h2 ?_ fun s3 h3 hk3 hd3 => wp_pure.2 ⟨by simp, ?_⟩
      · rw [(hk2 dp hdp1).1, hi1]
        rcases h.safe with ⟨q, hq, hqi⟩ | hlink | hgone
        · exact .inl ⟨q, mem_cons_of_mem hq, (hk20 q hq).1.trans hqi⟩
        · exact .inr (.inl (hlink2 ▸ hlink))
        · rw [hdir] at hgone
          cases hgone
      · intro p' hp'
        obtain rfl : p = p' := some_inj.1 hp'
        have hp3 : p ∈ p ::ₘ R := mem_cons_self _ R
        have hi3 : (s3.itable p).inum = (s1.itable p).inum := (hk3 p hp3).1.trans (hk2 p hp).1
        refine ⟨hmake, h3, hk20.trans (hk3.mono fun q hq => mem_cons_of_mem hq),
          (hk3 p hp3).2 ((hk2 p hp).2 hv1), ?_, ?_⟩
        · rw [hi3, tree_congr hd3, hnode2]
        · rw [hi3, allocated_iff, ← ht]
          exact fun hused => hused hfree
    · have hno := hiff.1 (Bool.eq_false_iff.2 hb)
      refine wp_bind.2 ((wp_true _ hE s2).mono fun _ s3 _ => wp_bind.2 ?_)
      refine (wp_true _ hE s3).mono fun _ s4 _ => wp_bind.2 ((wp_true _ hE s4).mono fun _ _ _ => ?_)
      exact wp_pure.2 ⟨fun _ hmake => hmake.slot hno, by simp⟩

/-- **When `create` makes a file**: exactly if the name is not there, and there is an inode and a
slot for it.  Otherwise it finds a file or fails. -/
theorem wp_create_file (hE : ∀ e, E e) (hs : Sound s R) (hc : cwd ∈ R) :
    wp (create cwd path .file 0 0) (fun r s' => (r = none → ¬ Creates s cwd path) ∧
      ∀ p, r = some p → ¬ Creates s cwd path ∧ Locked s s' R p ∨ Creates s cwd path ∧ Made s s' R p)
      E s := by
  refine wp_lockParent hs hc hE (fun s1 _ hno => wp_pure.2 ⟨fun _ => ?_, nofun⟩) ?_
  · rintro ⟨d, name, hres, -⟩
    rw [hno] at hres
    cases hres
  intro dp name s1 hl1 hres
  have hdir := dir_of_resolveParent hres
  rw [creates_iff hres]
  refine wp_bind.2 (hl1.wp_dirlookup hs hE hdir (fun hfind => ?_) ?_)
  · exact (wp_createNew_file hE hs hl1 hdir hfind).mono fun r s' ⟨hnone, hsome⟩ =>
      ⟨hnone, fun p hp => .inr (hsome p hp)⟩
  · intro p off s2 hfound h2 hk2 hd2 hsafe2
    have hno : ¬ CanMake s (s1.itable dp).inum name := fun hmake => hfound hmake.absent
    refine hl1.wp_descend hE h2 hk2 hd2 hsafe2 fun s4 hl4 => wp_bind.2 (wp_get.2 ?_)
    refine wp_ite (fun _ => wp_pure.2 ⟨(nofun), fun p' hp' => ?_⟩) fun _ => wp_bind.2 ?_
    · cases hp'
      exact .inl ⟨hno, hl4⟩
    · exact hl4.wp_iput fun s5 _ => wp_pure.2 ⟨fun _ => hno, nofun⟩

theorem wp_nameiLock_locked (hE : ∀ e, E e) (hs : Sound s R) (hc : cwd ∈ R) :
    wp (nameiLock cwd path) (fun r s' => r.elim (Unchanged R s s') fun p => Locked s s' R p) E
    s := by
  rw [nameiLock, wp_bind, namei, wp_bind]
  refine wp_namex_standing hs.dir (hs.steady.walkable fun _ => hE _) hc
    ⟨.inl ⟨cwd, hc, rfl⟩, fun _ => hE _⟩ (fun _ => hE _) (fun s1 h1 hk1 hd1 _ => ?_) ?_
  · exact wp_pure.2 (wp_pure.2 (.of_disk h1 hk1 hd1))
  · intro p name s1 hwalk hstand _ _
    refine wp_pure.2 (wp_bind.2 (wp_lock hE hwalk.dir hwalk.kept hwalk.disk hstand.1 fun s2 hl2 _ =>
      ?_))
    exact wp_pure.2 hl2

end Fs

/-! ### `open` -/

namespace FileSys

open Fs NameTree Files

variable {s s' : FileSys} {p : Fin nProc} {ip : IPtr} {path : Arg} {omode : ℕ} {E : FsPanic → Prop}

omit [Superblock] in
/-- The file table is full. -/
def NoFile (s : FileSys) : Prop := ∀ f, (s.ftable f).ref ≠ 0

omit [Superblock] in
/-- The process has no free descriptor. -/
def NoDescriptor (s : FileSys) (p : Fin nProc) : Prop := ∀ fd, s.ofile p fd ≠ none

/-- The call of `open` makes a new file. -/
def MakesFile (s : FileSys) (p : Fin nProc) (path : Arg) (omode : ℕ) : Prop :=
  omode.testBit oCreate = true ∧ ∃ path' ∈ path, ∃ d name,
    parentOf s p path' = some (d, name) ∧ CanMake s.inodes d name

omit [Superblock] in
/-- An inode that is not opened: a directory for writing, or a device that there is not. -/
def Refused (type : IType) (major : ℤ) (omode : ℕ) : Prop :=
  (omode.testBit oCreate = false ∧ type = .dir ∧ omode ≠ 0) ∨
    (type = .device ∧ (major < 0 ∨ nDev ≤ major))

omit [Superblock] in
/-- The current directories and the counts of references to files. -/
structure SameTables (s s' : FileSys) : Prop where
  cwd : s'.cwd = s.cwd
  ftable : ∀ f, (s'.ftable f).ref = (s.ftable f).ref

theorem wp_fileclose_new {Q : Unit → FileSys → Prop} {f : Fin nFile} (href : (s.ftable f).ref = 1)
    (htype : (s.ftable f).type = .none) (hQ : Q () { s with
      ftable := update s.ftable f { s.ftable f with ref := 0, type := .none } }) :
    wp (Files.fileclose layer f) Q E s := by
  rw [Files.fileclose, wp_bind, wp_get, if_neg (by omega), if_neg (by omega), wp_bind,
    Files.setFile, wp_modify, htype]
  exact wp_pure.2 hQ

/-- **`open` of an inode that was found**, up to the truncation: it drops the inode if it is refused
or if there is no file or descriptor for it. -/
theorem wp_openInode_ends {P : Fs → Prop} {type : IType} {major : ℤ}
    (hidle : ∀ f, (s.ftable f).ref = 0 → (s.ftable f).type = .none)
    (hput : wp (iput ip) (fun _ i => P i) E s.inodes) :
    wp (openInode layer p ip type major omode) (fun r s' =>
      (r = none → P s'.inodes ∧ SameTables s s' ∧
        (Refused type major omode ∨ NoFile s ∨ NoDescriptor s p)) ∧
      (r ≠ none → ¬ (NoFile s ∨ NoDescriptor s p))) E s := by
  -- the inode is dropped
  have hdrop : ∀ {s1 : FileSys}, s1.inodes = s.inodes → SameTables s s1 →
      (Refused type major omode ∨ NoFile s ∨ NoDescriptor s p) →
      wp (do liftInodes (layer.iput ip); pure none) (fun (r : Option (Fin nOFile)) s' =>
        (r = none → P s'.inodes ∧ SameTables s s' ∧
          (Refused type major omode ∨ NoFile s ∨ NoDescriptor s p)) ∧
        (r ≠ none → ¬ (NoFile s ∨ NoDescriptor s p))) E s1 := by
    intro s1 hi1 hsame hwhy
    refine wp_bind.2 (wp_liftInodes.2 ?_)
    rw [hi1]
    refine hput.mono fun _ i hP => wp_pure.2 ⟨fun _ => ⟨hP, ⟨hsame.cwd, hsame.ftable⟩, hwhy⟩, ?_⟩
    exact fun hne => absurd rfl hne
  refine wp_ite (fun hbad => hdrop rfl ⟨rfl, fun _ => rfl⟩ (.inl (.inl hbad))) fun _ => ?_
  refine wp_ite (fun hbad => hdrop rfl ⟨rfl, fun _ => rfl⟩ (.inl (.inr hbad))) fun _ => ?_
  rw [wp_bind, Files.filealloc, wp_bind, wp_get]
  cases hfile : (List.finRange nFile).find? fun f => decide ((s.ftable f).ref = 0) with
  | none =>
    refine wp_pure.2 (hdrop rfl ⟨rfl, fun _ => rfl⟩ (.inr (.inl fun f => ?_)))
    exact of_decide_eq_false (Bool.eq_false_iff.2 (List.find?_eq_none.1 hfile f
      (List.mem_finRange f)))
  | some f =>
    have hf := List.find?_some hfile
    rw [decide_eq_true_eq] at hf
    refine wp_bind.2 (wp_modify.2 (wp_pure.2 (wp_bind.2 ?_)))
    rw [Files.fdalloc, wp_bind, wp_get]
    cases hfd : (List.finRange nOFile).find? fun fd => (s.ofile p fd).isNone with
    | none =>
      have hfull : NoDescriptor s p := fun fd hno => by
        have hsome := List.find?_eq_none.1 hfd fd (List.mem_finRange fd)
        rw [hno] at hsome
        exact hsome rfl
      refine wp_pure.2 (wp_bind.2 (wp_fileclose_new ?_ ?_ (hdrop rfl ⟨rfl, fun f' => ?_⟩
        (.inr (.inr hfull)))))
      · dsimp only
        rw [update_self]
      · dsimp only
        rw [update_self]
        exact hidle f hf
      · dsimp only
        rw [update_idem]
        by_cases hff : f' = f
        · rw [hff, update_self, hf]
        · rw [update_of_ne hff]
    | some fd =>
      have hfree := List.find?_some hfd
      refine wp_bind.2 (wp_modify.2 (wp_pure.2 (wp_bind.2 (wp_get.2 (wp_bind.2 (wp_modify.2
        (wp_pure.2 ⟨by simp, fun _ => ?_⟩)))))))
      rintro (hno | hno)
      · exact hno f hf
      · exact hno fd (isNone_iff_eq_none.1 hfree)

theorem wp_openFound_ends {P : Fs → Prop} (hE : ∀ e, E e)
    (hidle : ∀ f, (s.ftable f).ref = 0 → (s.ftable f).type = .none)
    (hput : wp (iput ip) (fun _ i => P i) E s.inodes) :
    wp (openFound p ip omode) (fun r s' =>
      (r = none → P s'.inodes ∧ SameTables s s' ∧
        (Refused (s.inodes.itable ip).d.type (s.inodes.itable ip).d.major omode ∨ NoFile s ∨
          NoDescriptor s p)) ∧
      (r ≠ none → ¬ (NoFile s ∨ NoDescriptor s p))) E s := by
  rw [openFound, wp_bind, wp_get, wp_bind]
  refine (wp_openInode_ends hidle hput).mono fun r s1 h => ?_
  cases r with
  | none => exact wp_pure.2 h
  | some fd =>
    refine wp_bind.2 ((wp_true _ hE s1).mono fun _ s2 _ => wp_pure.2 ⟨(nofun), ?_⟩)
    exact fun _ => h.2 (some_ne_none fd)

/-- **No trace of a call**: no path leads elsewhere, the same inodes are allocated, every file has
its bytes, and all counts of references are as they were. -/
structure NoTrace (s s' : FileSys) : Prop extends SameFs s s' where
  iref : ∀ q, (s'.inodes.itable q).ref = (s.inodes.itable q).ref
  fref : ∀ f, (s'.ftable f).ref = (s.ftable f).ref

theorem noTrace_of_unchanged (hs : Sound s.inodes s.held) (hu : Unchanged s.held s.inodes s'.inodes)
    (htab : SameTables s s') : NoTrace s s' where
  toSameFs := sameFs_of_unchanged hu htab.cwd
  iref q := by rw [hu.dir.fs.refs q, hs.dir.fs.refs q]
  fref := htab.ftable

/-- The call makes a file and finds no entry of the file table or no descriptor for it. -/
def LeavesFile (s : FileSys) (p : Fin nProc) (path : Arg) (omode : ℕ) : Prop :=
  MakesFile s p path omode ∧ (NoFile s ∨ NoDescriptor s p)

theorem makesFile_iff {cwd : IPtr} {name : List UInt8} (hcwd : s.cwd p = some cwd) :
    MakesFile s p (some name) omode ↔ omode.testBit oCreate = true ∧ Creates s.inodes cwd name := by
  have hparent : parentOf s p name =
      resolveParent (tree s.inodes) (startInum s.inodes cwd name) (elements name) := by
    rw [parentOf, hcwd]
    rfl
  refine and_congr_right fun _ => ⟨?_, fun ⟨d, nm, hres, hmake⟩ => ?_⟩
  · rintro ⟨name', hmem, d, nm, hres, hmake⟩
    obtain rfl : name = name' := some_inj.1 hmem
    exact ⟨d, nm, hparent ▸ hres, hmake⟩
  · exact ⟨name, rfl, d, nm, hparent.trans hres, hmake⟩

theorem wp_sysOpen_ends (hE : ∀ e, E e) (h : Files.Inv Sound s 0) (hp : s.state p = .live) :
    wp (sysOpen p path omode) (fun r s' => (LeavesFile s p path omode → r = none ∧ ¬ NoTrace s s') ∧
      (¬ LeavesFile s p path omode → r = none → NoTrace s s')) E s := by
  have hs : Sound s.inodes s.held := by
    have hsound := h.tab.inodes
    rwa [add_zero] at hsound
  cases path with
  | none =>
    refine wp_pure.2 ⟨fun hleave => ?_, fun _ _ => ⟨sameFs_refl s, fun _ => rfl, fun _ => rfl⟩⟩
    obtain ⟨⟨-, _, hmem, -⟩, -⟩ := hleave
    cases hmem
  | some name =>
    refine wp_bind.2 (wp_withCwd h hp fun cwd hcwd hc => ?_)
    -- calls that make no file
    have hnoFile : ∀ {m : FileSysM (Option (Fin nOFile))} {s1 : FileSys},
        ¬ MakesFile s p (some name) omode → wp m (fun r s' => r = none → NoTrace s s') E s1 →
        wp m (fun r s' => (LeavesFile s p (some name) omode → r = none ∧ ¬ NoTrace s s') ∧
          (¬ LeavesFile s p (some name) omode → r = none → NoTrace s s')) E s1 :=
      fun hno hm => hm.mono fun _ _ hr => ⟨fun hleave => absurd hleave.1 hno, fun _ => hr⟩
    have hfailed : ∀ i, Unchanged s.held s.inodes i →
        wp (pure none : FileSysM (Option (Fin nOFile))) (fun r s' => r = none → NoTrace s s') E
          { s with inodes := i } :=
      fun i hu => wp_pure.2 fun _ => noTrace_of_unchanged hs hu ⟨rfl, fun _ => rfl⟩
    have hlocked : ∀ i ip, Locked s.inodes i s.held ip →
        wp (openFound p ip omode) (fun r s' => r = none → NoTrace s s') E
        { s with inodes := i } := by
      intro i ip hl
      refine (wp_openFound_ends (s := { s with inodes := i }) (P := Unchanged s.held s.inodes) hE
        h.tab.idle (hl.wp_iput fun _ hu => hu)).mono fun r s' hr hnone => ?_
      obtain ⟨hu, htab, -⟩ := hr.1 hnone
      exact noTrace_of_unchanged hs hu ⟨htab.cwd, htab.ftable⟩
    refine wp_ite (fun hcreate => ?_) fun hplain => ?_
    · refine ((wp_create_fails (fun hf => by cases hf) hE hs hc).and (wp_create_file hE hs hc)).mono
        ?_
      rintro r i ⟨hfail, hnone, hsome⟩
      cases r with
      | none =>
        exact hnoFile (fun hmakes => hnone rfl ((makesFile_iff hcwd).1 hmakes).2)
          (hfailed i (hfail rfl))
      | some ip =>
        rcases hsome ip rfl with ⟨hno, hl⟩ | ⟨hcreates, hmade⟩
        · exact hnoFile (fun hmakes => hno ((makesFile_iff hcwd).1 hmakes).2) (hlocked i ip hl)
        · have hmem : ip ∈ ip ::ₘ s.held := mem_cons_self ip _
          have hmakes : MakesFile s p (some name) omode :=
            (makesFile_iff hcwd).2 ⟨hcreate, hcreates⟩
          have hput : wp (iput ip) (fun _ i' => Allocated i'.dinode (i.itable ip).inum) E i := by
            refine wp_iput_safe hmade.dir (.inr (.inl ?_)) fun i' _ _ hd' => ?_
            · rw [hmade.node]
              exact one_ne_zero
            · rw [hd'.dinode]
              exact hmade.dir.fs.allocated hmem hmade.valid
          refine (wp_openFound_ends (s := { s with inodes := i }) hE h.tab.idle hput).mono
            fun r s' hr => ⟨fun hleave => ?_, ?_⟩
          · have hnone : r = none := by
              by_contra hne
              exact hr.2 hne hleave.2
            refine ⟨hnone, fun htrace => hmade.fresh ?_⟩
            exact (htrace.allocated _).1 (hr.1 hnone).1
          · intro hno hnone
            rcases (hr.1 hnone).2.2 with hrefused | hfull
            · rcases hrefused with ⟨hbit, -⟩ | ⟨hdev, -⟩
              · rw [hcreate] at hbit
                cases hbit
              · have htype := hmade.dir.type_eq hmem hmade.valid
                rw [hmade.node] at htype
                cases hdev.symm.trans htype
            · exact absurd ⟨hmakes, hfull⟩ hno
    · refine (wp_nameiLock_locked hE hs hc).mono fun r i hr => ?_
      have hno : ¬ MakesFile s p (some name) omode := fun hmakes => hplain hmakes.1
      cases r with
      | none => exact hnoFile hno (hfailed i hr)
      | some ip => exact hnoFile hno (hlocked i ip hr)

/-- **A failed `open` leaves no trace** exactly if it did not make a file first. -/
theorem failed_open {r : Option (Fin nOFile)} (h : Files.Inv Sound s 0) (hp : s.state p = .live)
    (hrun : sysOpen p path omode s = .ok (r, s')) :
    (r = none → NoTrace s s') ↔ ¬ LeavesFile s p path omode := by
  obtain ⟨hleave, hno⟩ :=
    (wp_sysOpen_ends (fun _ => trivial) h hp : wp (sysOpen p path omode) _ (fun _ => True) s).of_ok
      hrun
  refine ⟨fun htrace hbad => ?_, hno⟩
  obtain ⟨hnone, hnot⟩ := hleave hbad
  exact hnot (htrace hnone)

section

omit [Superblock]

/-- There is an inode for a new file, but no block for its name. -/
theorem failed_open_full : ∃ (_ : Superblock) (s s' : FileSys), ¬ Allocated s.inodes.dinode 2 ∧
    sysOpen ⟨0, by decide⟩ (some [97]) (2 ^ oCreate) s = .ok (none, s') ∧ NoTrace s s' := by
  let S : Superblock := noBlocks
  have hrun : ∃ s, Runs.Reach InodeSys.step (fun _ _ => True) formatted s ∧ Tidy s ∧
      (s.fs.dinode 2).type = .free ∧ (sysOpen ⟨0, by decide⟩ (some [97]) (2 ^ oCreate)
        (boot ⟨0, by decide⟩ s.fs)).toOption.any (fun r => r.1.isNone) = true :=
    Runs.exists_reach_of_exec [.create .dir 0 0] (by decide +kernel)
  obtain ⟨s, hreach, htidy, hfree, hopen⟩ := hrun
  obtain ⟨⟨r, s'⟩, heq, hr⟩ := exists_ok_of_any hopen
  obtain rfl : r = none := isNone_iff_eq_none.1 hr
  refine ⟨S, boot ⟨0, by decide⟩ s.fs, s', fun ha => ha.2 hfree, heq, ?_⟩
  refine (failed_open (boot_inv (htidy.sound hreach)) rfl heq).2 ?_ rfl
  rintro ⟨-, hno | hno⟩
  · exact hno ⟨0, by decide⟩ rfl
  · exact hno ⟨0, by decide⟩ rfl

/-- A process that has opened the root directory sixteen times creates a file that it cannot open:
the call fails, and the file is there. -/
theorem open_leaves_file : ∃ (_ : Superblock) (i : Fs) (s s' : FileSys),
    Sound i {⟨0, by decide⟩} ∧ Runs.Reach step (fun _ _ => True) (boot ⟨0, by decide⟩ i) s ∧
    sysOpen ⟨0, by decide⟩ (some [97]) (2 ^ oCreate) s = .ok (none, s') ∧
    inodeOf s ⟨0, by decide⟩ [97] = none ∧ inodeOf s' ⟨0, by decide⟩ [97] = some 2 ∧
    ¬ NoTrace s s' := by
  let S : Superblock := threeInodes
  have hrun : ∃ s0, Runs.Reach InodeSys.step (fun _ _ => True) formatted s0 ∧ Tidy s0 ∧
      (Runs.exec step (fun _ _ => True) (boot ⟨0, by decide⟩ s0.fs)
        (List.replicate 16 (⟨0, by decide⟩, .sysOpen (some [47]) 0))).any (fun s => decide
        (inodeOf s ⟨0, by decide⟩ [97] = none ∧
          (sysOpen ⟨0, by decide⟩ (some [97]) (2 ^ oCreate) s).toOption.any
            (fun r => r.1.isNone && decide (inodeOf r.2 ⟨0, by decide⟩ [97] = some 2)) = true)) =
            true :=
    Runs.exists_reach_of_exec [.create .dir 0 0] (by decide +kernel)
  obtain ⟨s0, hreach, htidy, hexec⟩ := hrun
  obtain ⟨s, hs, hbefore, hopen⟩ := Runs.exists_reach_of_exec _ hexec
  obtain ⟨⟨r, s'⟩, heq, hr⟩ := exists_ok_of_any hopen
  rw [Bool.and_eq_true, decide_eq_true_eq] at hr
  obtain rfl : r = none := isNone_iff_eq_none.1 hr.1
  refine ⟨S, s0.fs, s, s', htidy.sound hreach, hs, heq, hbefore, hr.2, fun htrace => ?_⟩
  have hsame := htrace.paths ⟨0, by decide⟩ [97]
  rw [hbefore] at hsame
  cases hsame.symm.trans hr.2

end

end FileSys

end CsklubOs

