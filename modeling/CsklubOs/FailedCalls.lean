/-
**Calls that fail leave the names and the files alone.**

`create`, `sys_link` and `sys_unlink` of `kernel/sysfile.c` have made some of their changes before
they know whether they succeed: `sys_link` counts the link first, `create` takes an inode and fills
up to two slots of a new directory.  What is asked of the state before the call is only that an
inode to which a path leads is not one that `iput` would free, as it frees an inode without links
with the last reference.

Main definitions:

* `Unchanged` — every path leads where it led, the same inodes are in use with the same counts of
  links, and every file has its bytes.

Main results:

* `failed_calls` — so it is after every exit with an error.
-/

import CsklubOs.FileSys

set_option autoImplicit false

namespace CsklubOs

open Function
open Multiset (cons_swap mem_cons_of_mem mem_cons_self)
open Wp

variable [Superblock]

/-! ### States in which dropped references free nothing -/

namespace NameTree

open Fs

variable {t : NameTree} {u u' : ℕ → Prop} {x : ℕ}

/-- The inodes that paths lead to, when the inodes of `u` are in use, are not freed by dropping a
reference, and counts of links are numbers of 16 bits. -/
structure Steady (t : NameTree) (u : ℕ → Prop) : Prop where
  root : Safe t u rootIno
  entries : ∀ d, Safe t u d → (t d).type = .dir → ∀ e ∈ (t d).slots,
    e.inum < Superblock.ninodes ∧ (e.inum ≠ 0 → Safe t u e.inum)
  used : ∀ i, u i → (t i).type ≠ .free
  nlink : ∀ i, short (t i).nlink = (t i).nlink

/-- A path leads to an inode that is free. -/
def Dangling (t : NameTree) : Prop :=
  (t rootIno).type = .free ∨
    ∃ d, (t d).type = .dir ∧ ∃ e ∈ (t d).slots, e.inum ≠ 0 ∧ (t e.inum).type = .free

theorem Steady.walkable {E : FsPanic → Prop} (h : Steady t u) (hE : Dangling t → E .ilockNoType) :
    Walkable t u E where
  root := ⟨h.root, fun hfree => hE (.inl hfree)⟩
  entries d hd hdir e he :=
    ⟨(h.entries d hd.1 hdir e he).1, fun hne => ⟨(h.entries d hd.1 hdir e he).2 hne,
      fun hfree => hE (.inr ⟨d, hdir, e, he, hne, hfree⟩)⟩⟩

theorem Steady.use (h : Steady t u) (hx : Safe t u x) (hused : (t x).type ≠ .free)
    (hu : ∀ i, u' i ↔ u i ∨ i = x) : Steady t u' := by
  have hsafe : ∀ i, Safe t u' i ↔ Safe t u i := by
    intro i
    constructor
    · rintro (hi | hi)
      · rcases (hu i).1 hi with hi | rfl
        · exact .inl hi
        · exact hx
      · exact .inr hi
    · exact fun hi => hi.imp_left fun hi => (hu i).2 (.inl hi)
  refine ⟨(hsafe _).2 h.root, fun d hd hdir e he => ?_, fun i hi => ?_, h.nlink⟩
  · obtain ⟨hlt, hnext⟩ := h.entries d ((hsafe d).1 hd) hdir e he
    exact ⟨hlt, fun hne => (hsafe _).2 (hnext hne)⟩
  · rcases (hu i).1 hi with hi | rfl
    · exact h.used i hi
    · exact hused

theorem Steady.setNlink {y : ℤ} (h : Steady t u) (hx : u x) (hy : short y = y) :
    Steady (update t x { t x with nlink := y }) u := by
  have hsame := same_setNlink t x y
  have hsafe : ∀ i, Safe (update t x { t x with nlink := y }) u i ↔ Safe t u i := by
    intro i
    by_cases hi : i = x
    · subst hi
      exact iff_of_true (.inl hx) (.inl hx)
    · rw [Safe, update_of_ne hi]
      rfl
  refine ⟨(hsafe _).2 h.root, fun d hd hdir e he => ?_, fun i hi => ?_, fun i => ?_⟩
  · rw [(hsame d).1] at hdir
    rw [(hsame d).2] at he
    obtain ⟨hlt, hnext⟩ := h.entries d ((hsafe d).1 hd) hdir e he
    exact ⟨hlt, fun hne => (hsafe _).2 (hnext hne)⟩
  · rw [(hsame i).1]
    exact h.used i hi
  · by_cases hi : i = x
    · subst hi
      rw [update_self]
      exact hy
    · rw [update_of_ne hi]
      exact h.nlink i

end NameTree

namespace Fs

open NameTree

variable {s0 s s' : Fs} {p q dp cwd : IPtr} {E : FsPanic → Prop} {R R' : Multiset IPtr}
  {path name : List UInt8}

/-- The file system when the references `R` are held. -/
structure Sound (s : Fs) (R : Multiset IPtr) : Prop where
  dir : DirOk s R
  steady : Steady (tree s) (inUse s R)

/-- **What a failed call leaves**: the references, the names with the counts of links, and the
files. -/
structure Unchanged (R : Multiset IPtr) (s s' : Fs) : Prop where
  dir : DirOk s' R
  kept : Kept R s s'
  names : tree s' = tree s
  files : SameFiles (fun _ => True) s s'

theorem Unchanged.of_disk (h : DirOk s' R) (hk : Kept R s s') (hd : SameDisk s s') :
    Unchanged R s s' :=
  ⟨h, hk, tree_congr hd, hd.files⟩

/-! ### Inodes that a call holds -/

/-- An inode that a call has looked up since `s0`, and locked. -/
structure Locked (s0 s : Fs) (R : Multiset IPtr) (p : IPtr) : Prop where
  dir : DirOk s (p ::ₘ R)
  kept : Kept R s0 s
  disk : SameDisk s0 s
  valid : (s.itable p).valid = true
  safe : Safe (tree s0) (inUse s0 R) (s.itable p).inum

theorem wp_lock {Q : Unit → Fs → Prop} (hE : ∀ e, E e) (h : DirOk s (p ::ₘ R)) (hk : Kept R s0 s)
    (hd : SameDisk s0 s) (hsafe : Safe (tree s0) (inUse s0 R) (s.itable p).inum)
    (hQ : ∀ s', Locked s0 s' R p → (s'.itable p).inum = (s.itable p).inum → Q () s') :
    wp (ilock p) Q E s := by
  refine wp_ilock h.fs (mem_cons_self p R) (fun _ _ => hE _) fun s' h' hk' hd' hv' hi' => ?_
  exact hQ s' ⟨h.congr hd' h', hk.trans (hk'.mono fun q hq => mem_cons_of_mem hq),
    hd.trans hd', hv', hi' ▸ hsafe⟩ hi'

theorem Locked.wp_iput {Q : Unit → Fs → Prop} (h : Locked s0 s R p)
    (hQ : ∀ s', Unchanged R s0 s' → Q () s') : wp (iput p) Q E s :=
  wp_drop h.dir h.kept h.disk (fun _ hq => hq) h.safe fun s' h' hk' hd' =>
    hQ s' (.of_disk h' (h.kept.trans hk') hd')

theorem wp_lockParent {α : Type} {Q : α → Fs → Prop} {other : FsM α}
    {body : IPtr → List UInt8 → FsM α} (hs : Sound s R) (hc : cwd ∈ R) (hE : ∀ e, E e)
    (hnone : ∀ s', Unchanged R s s' →
      resolveParent (tree s) (startInum s cwd path) (elements path) = none → wp other Q E s')
    (hsome : ∀ dp name s', Locked s s' R dp →
      resolveParent (tree s) (startInum s cwd path) (elements path) =
      some ((s'.itable dp).inum, name) → wp (body dp name) Q E s') :
    wp (do
      match ← nameiparent cwd path with
      | none => other
      | some (dp, name) => do
        ilock dp
        body dp name) Q E s := by
  refine wp_bind.2 (wp_namex_standing hs.dir (hs.steady.walkable fun _ => hE _) hc
    ⟨.inl ⟨cwd, hc, rfl⟩, fun _ => hE _⟩ (fun _ => hE _) (fun s1 h1 hk1 hd1 hno => ?_) ?_)
  · exact hnone s1 (.of_disk h1 hk1 hd1) (hno.2 rfl)
  · intro dp name s1 hwalk hstand _ hpar
    refine wp_bind.2 (wp_lock hE hwalk.dir hwalk.kept hwalk.disk hstand.1 fun s2 hl2 hi2 => ?_)
    refine hsome dp name s2 hl2 ?_
    rw [hi2]
    exact (hpar rfl).2

theorem Locked.wp_dirlookup {Q : Option (IPtr × ℕ) → Fs → Prop} (h : Locked s0 s R dp)
    (hs : Sound s0 R) (hE : ∀ e, E e) (hdir : (tree s0 (s.itable dp).inum).type = .dir)
    (hnone : (tree s0 (s.itable dp).inum).find name = none → Q none s)
    (hsome : ∀ q off s', (tree s0 (s.itable dp).inum).find name ≠ none →
      DirOk s' (dp ::ₘ q ::ₘ R) → Kept (dp ::ₘ R) s s' → SameDisk s0 s' →
      Safe (tree s0) (inUse s0 R) (s'.itable q).inum → Q (some (q, off)) s') :
    wp (dirlookup dp name) Q E s := by
  have hentries := hs.steady.entries _ h.safe hdir
  rw [← tree_congr h.disk] at hdir hentries hnone hsome
  refine Fs.wp_dirlookup h.dir (mem_cons_self dp R) h.valid hdir
    (fun e he => (hentries e he).1) (fun _ => hE _) hnone ?_
  intro k e q s' hk hlive _ hfind h' hk' hd' hi' _
  rw [cons_swap] at h'
  refine hsome q _ s' (by rw [hfind]; exact Option.some_ne_none e) h' hk' (h.disk.trans hd') ?_
  rw [hi']
  exact (hentries e (List.mem_of_getElem? hk)).2 hlive

/-- From a directory to an inode that it names: the directory is dropped, and the inode is
locked. -/
theorem Locked.wp_descend {α : Type} {Q : α → Fs → Prop} {m : FsM α} (h : Locked s0 s R dp)
    (hE : ∀ e, E e) (hdir : DirOk s' (dp ::ₘ q ::ₘ R)) (hk : Kept (dp ::ₘ R) s s')
    (hd : SameDisk s0 s') (hsafe : Safe (tree s0) (inUse s0 R) (s'.itable q).inum)
    (hm : ∀ s1, Locked s0 s1 R q → wp m Q E s1) : wp (do iput dp; ilock q; m) Q E s' := by
  have hk0 : Kept R s0 s' := h.kept.trans (hk.mono fun r hr => mem_cons_of_mem hr)
  have hsafeDp : Safe (tree s0) (inUse s0 R) (s'.itable dp).inum := by
    rw [(hk dp (mem_cons_self dp R)).1]
    exact h.safe
  refine wp_bind.2 (wp_drop hdir hk0 hd (fun r hr => mem_cons_of_mem hr) hsafeDp
    fun s1 h1 hk1 hd1 => wp_bind.2 ?_)
  rw [← (hk1 q (mem_cons_self q R)).1] at hsafe
  exact wp_lock hE h1 (hk0.trans (hk1.mono fun r hr => mem_cons_of_mem hr)) hd1 hsafe
    fun s2 hl2 _ => hm s2 hl2

/-! ### `create` -/

variable {type : IType} {major minor : ℤ}

theorem wp_createNew_fails (htype : type ≠ .free) (hE : ∀ e, E e) (hs : Sound s0 R)
    (h : Locked s0 s R dp) (hdir : (tree s0 (s.itable dp).inum).type = .dir)
    (hfind : (tree s0 (s.itable dp).inum).find name = none) :
    wp (createNew dp name type major minor) (fun r s' => r = none → Unchanged R s0 s') E s := by
  have hRdp : ∀ q ∈ R, q ∈ dp ::ₘ R := fun q hq => mem_cons_of_mem hq
  have hdp : dp ∈ dp ::ₘ R := mem_cons_self dp R
  have ht := tree_congr h.disk
  -- the directory is dropped, and everything is as it was
  have hdrop : ∀ s1, Unchanged (dp ::ₘ R) s s1 →
      wp (do iput dp; pure none) (fun (r : Option IPtr) s' => r = none →
      Unchanged R s0 s') E s1 := by
    intro s1 hu
    have hk1 := h.kept.trans (hu.kept.mono hRdp)
    refine wp_bind.2 (wp_iput_safe hu.dir ?_ fun s2 h2 hk2 hd2 => wp_pure.2 fun _ => ?_)
    · rw [hu.names, ht, hk1.inUse, (hu.kept dp hdp).1]
      exact h.safe
    · exact ⟨h2, hk1.trans hk2, (tree_congr hd2).trans (hu.names.trans ht),
        h.disk.files.trans (hu.files.trans hd2.files)⟩
  rw [createNew, wp_bind]
  refine wp_createNode htype h.dir (hE _)
    (fun _ => hdrop s ⟨h.dir, .refl _ s, rfl, fun _ _ hi => ⟨hi, rfl⟩⟩) ?_
  intro p s1 h1 hk1 hpos hlt hfree ht1 hv1 hf1 _ _ _
  have hp : p ∈ p ::ₘ dp ::ₘ R := mem_cons_self p _
  have hdp1 : dp ∈ p ::ₘ dp ::ₘ R := mem_cons_of_mem hdp
  have hsub : ∀ q ∈ dp ::ₘ R, q ∈ p ::ₘ dp ::ₘ R := fun q hq => mem_cons_of_mem hq
  have hi1 : (s1.itable dp).inum = (s.itable dp).inum := (hk1 dp hdp).1
  rw [← ht] at hdir hfind
  have hne : (s.itable dp).inum ≠ (s1.itable p).inum := by
    intro heq
    rw [← heq, hdir] at hfree
    cases hfree
  have hnode1 : tree s1 (s.itable dp).inum = tree s (s.itable dp).inum := by
    rw [ht1, update_of_ne hne]
  refine wp_bind.2 (wp_createEntries h1 hp hdp1 hv1 ((hk1 dp hdp).2 h.valid) hpos.ne' (hE _)
    ?_ ?_ ?_ ?_ ?_ ?_ ?_)
  · rw [ht1, update_self]
  · rw [hi1, hnode1, hdir]
  · rw [hi1, hnode1, ht]
    exact fun e he => (hs.steady.entries _ h.safe (ht ▸ hdir) e he).1
  · rw [hi1]
    exact hne
  · rw [hi1, hnode1, hfind]
  · -- the inode is given back
    intro l s2 h2 hk2 ht2 hf2
    have hi2 := (hk2 p hp).1
    refine wp_bind.2 (wp_clearLinks h2 hp ((hk2 p hp).2 hv1) fun s3 h3 hk3 ht3 hf3 => ?_)
    have hk3' := hk2.trans hk3
    have hi3 := (hk3' p hp).1
    rw [hi2, ht2, update_self, ht1, update_idem, update_idem] at ht3
    refine wp_bind.2 (wp_iput_reap h3 (.inl ((hk3' p hp).2 hv1)) fun s4 h4 hk4 ht4 hf4 => ?_)
    have hk30 : Kept (dp ::ₘ R) s s3 := hk1.trans (hk3'.mono hsub)
    refine hdrop s4 ⟨h4, hk30.trans hk4, ?_, fun i _ hi => ?_⟩
    · have hunused : ¬ inUse s3 (dp ::ₘ R) (s1.itable p).inum := by
        rw [hk30.inUse, inUse_cons]
        rintro (hu | heq)
        · rw [h.kept.inUse] at hu
          exact hs.steady.used _ hu (ht ▸ hfree)
        · exact hne heq.symm
      have hgone : tree s (s1.itable p).inum = Node.free :=
        tree_of_not_allocated fun ha => allocated_iff.1 ha hfree
      rw [ht4, hi3, reap_pos (by rw [ht3, update_self]; exact htype)
        (by rw [ht3, update_self]) hunused, ht3, update_idem, ← hgone,
        update_eq_self]
    · have hij : i ≠ (s1.itable p).inum := fun hij => allocated_iff.1 hi (hij ▸ hfree)
      rw [hi3] at hf4
      exact ((hf1.mono fun _ _ => trivial).trans (hf2.trans
        ((hf3.mono fun _ _ => trivial).trans hf4))) i hij hi
  · -- the call succeeds
    intro k s2 _ _ _ _ _
    refine wp_bind.2 ((wp_true _ hE s2).mono fun _ s3 _ => wp_bind.2 ?_)
    exact (wp_true _ hE s3).mono fun _ _ _ => wp_pure.2 nofun

theorem wp_create_fails (htype : type ≠ .free) (hE : ∀ e, E e) (hs : Sound s R) (hc : cwd ∈ R) :
    wp (create cwd path type major minor) (fun r s' => r = none → Unchanged R s s') E s := by
  refine wp_lockParent hs hc hE (fun s1 hu _ => wp_pure.2 fun _ => hu) ?_
  intro dp name s1 hl1 hres
  have hdir := dir_of_resolveParent hres
  refine wp_bind.2 (hl1.wp_dirlookup hs hE hdir (fun hfind => ?_) ?_)
  · exact wp_createNew_fails htype hE hs hl1 hdir hfind
  · intro p off s2 _ h2 hk2 hd2 hsafe2
    refine hl1.wp_descend hE h2 hk2 hd2 hsafe2 fun s4 hl4 => wp_bind.2 (wp_get.2 ?_)
    refine wp_ite (fun _ => wp_pure.2 nofun) fun _ => wp_bind.2 ?_
    exact hl4.wp_iput fun s5 hu => wp_pure.2 fun _ => hu

/-! ### `link` -/

omit [Superblock] in
theorem short_succ_pred (x : ℤ) : short (short (x + 1) - 1) = short x := by
  simp only [short, Int.bmod]
  omega

omit [Superblock] in
theorem short_short (x : ℤ) : short (short x) = short x := by
  simp only [short, Int.bmod]
  omega

/-- The inode that `link` has counted a link for, and nothing else has changed. -/
structure Counted (s0 s : Fs) (R : Multiset IPtr) (p : IPtr) : Prop where
  dir : DirOk s (p ::ₘ R)
  kept : Kept R s0 s
  valid : (s.itable p).valid = true
  safe : Safe (tree s0) (inUse s0 R) (s.itable p).inum
  names : tree s = update (tree s0) (s.itable p).inum
    { tree s0 (s.itable p).inum with nlink := short ((tree s0 (s.itable p).inum).nlink + 1) }
  files : SameFiles (fun _ => True) s0 s

theorem Counted.trans (h : Counted s0 s R p) (hu : Unchanged (p ::ₘ R) s s') :
    Counted s0 s' R p := by
  have hp : p ∈ p ::ₘ R := mem_cons_self p R
  refine ⟨hu.dir, h.kept.trans (hu.kept.mono fun q hq => mem_cons_of_mem hq),
    (hu.kept p hp).2 h.valid, ?_, ?_, h.files.trans hu.files⟩
  · rw [(hu.kept p hp).1]
    exact h.safe
  · rw [hu.names, (hu.kept p hp).1]
    exact h.names

section

variable (h : Counted s0 s R p) (hs : Sound s0 R)

include h hs

theorem Counted.sound : Sound s (p ::ₘ R) := by
  refine ⟨h.dir, ?_⟩
  have hp : p ∈ p ::ₘ R := mem_cons_self p R
  have hused := allocated_iff.1 (h.dir.fs.allocated hp h.valid)
  rw [h.names] at hused ⊢
  rw [(same_setNlink _ _ _ _).1] at hused
  refine (hs.steady.use h.safe hused fun i => ?_).setNlink ⟨p, hp, rfl⟩ (short_short _)
  rw [inUse_cons, h.kept.inUse]

theorem Counted.wp_linkBad : wp (linkBad p) (fun r s' => r = false → Unchanged R s0 s') E s := by
  have hp : p ∈ p ::ₘ R := mem_cons_self p R
  have hRp : ∀ q ∈ R, q ∈ p ::ₘ R := fun q hq => mem_cons_of_mem hq
  rw [linkBad, wp_bind]
  refine wp_ilock h.dir.fs hp (fun hno => by rw [h.valid] at hno; cases hno)
    fun s1 h1 hk1 hd1 hv1 hi1 => ?_
  refine wp_bind.2 (wp_dropLinkNames (h.dir.congr hd1 h1) hp hv1 fun s2 h2 hk2 ht2 hf2 =>
    wp_bind.2 ?_)
  have hk20 : Kept R s0 s2 := h.kept.trans ((hk1.mono hRp).trans (hk2.mono hRp))
  have hback : tree s2 = tree s0 := by
    rw [ht2, hi1, tree_congr hd1, h.names, update_self, update_idem]
    rw [short_succ_pred, hs.steady.nlink, update_eq_self]
  refine wp_iput_safe h2 ?_ fun s3 h3 hk3 hd3 => wp_pure.2 fun _ => ?_
  · rw [hback, hk20.inUse, (hk2 p hp).1, hi1]
    exact h.safe
  · exact ⟨h3, hk20.trans hk3, (tree_congr hd3).trans hback,
      h.files.trans (hd1.files.trans (hf2.trans hd3.files))⟩

theorem Counted.wp_linkEntry {new : List UInt8} (hE : ∀ e, E e) (hc : cwd ∈ R) :
    wp (linkEntry cwd p new) (fun r s' => r = false → Unchanged R s0 s') E s := by
  have hs1 := h.sound hs
  refine wp_lockParent hs1 (mem_cons_of_mem hc) hE (fun s1 hu _ => (h.trans hu).wp_linkBad hs) ?_
  intro dp name s1 hl1 hres
  have hdp : dp ∈ dp ::ₘ p ::ₘ R := mem_cons_self dp _
  have hsub : ∀ q ∈ p ::ₘ R, q ∈ dp ::ₘ p ::ₘ R := fun q hq => mem_cons_of_mem hq
  have ht1 := tree_congr hl1.disk
  have hentries := hs1.steady.entries _ hl1.safe (dir_of_resolveParent hres)
  have hdir := dir_of_resolveParent hres
  rw [← ht1] at hentries hdir
  have hlt := hl1.dir.fs.range p (hsub p (mem_cons_self p R))
  have hle := Superblock.ninodes_le
  refine wp_bind.2 (wp_get.2 (wp_bind.2 (wp_dirlink hl1.dir hdp hl1.valid hdir
    (fun e he => (hentries e he).1) (by omega) (hE _) (fun e hfind => ?_) ?_ ?_)))
  · -- the entry with the name keeps its inode
    have hlive := List.find?_some hfind
    rw [decide_eq_true_eq] at hlive
    refine ((hentries e (List.mem_of_find?_eq_some hfind)).2 hlive.1).imp_left ?_
    rintro ⟨q, hq, hqi⟩
    exact ⟨q, hsub q hq, (hl1.kept q hq).1.trans hqi⟩
  · intro s2 h2 hk2 ht2 hf2
    have hk20 : Kept (p ::ₘ R) s s2 := hl1.kept.trans (hk2.mono hsub)
    refine wp_bind.2 (wp_iput_safe h2 ?_ fun s3 h3 hk3 hd3 => ?_)
    · rw [ht2, ht1, hk20.inUse, (hk2 dp hdp).1]
      exact hl1.safe
    · refine (h.trans ⟨h3, hk20.trans hk3, (tree_congr hd3).trans (ht2.trans ht1), ?_⟩).wp_linkBad
        hs
      exact hl1.disk.files.trans (hf2.trans hd3.files)
  · intro k s2 _ _ _ _ _ _ _
    refine wp_bind.2 ((wp_true _ hE s2).mono fun _ s3 _ => wp_bind.2 ?_)
    exact (wp_true _ hE s3).mono fun _ _ _ => wp_pure.2 nofun

end

theorem wp_sysLink_fails {old new : List UInt8} (hE : ∀ e, E e) (hs : Sound s R) (hc : cwd ∈ R) :
    wp (sysLink cwd old new) (fun r s' => r = false → Unchanged R s s') E s := by
  rw [sysLink, wp_bind, namei, wp_bind]
  refine wp_namex_standing hs.dir (hs.steady.walkable fun _ => hE _) hc
    ⟨.inl ⟨cwd, hc, rfl⟩, fun _ => hE _⟩ (fun _ => hE _) (fun s1 h1 hk1 hd1 _ => ?_) ?_
  · exact wp_pure.2 (wp_pure.2 fun _ => .of_disk h1 hk1 hd1)
  intro p name s1 hwalk hstand _ _
  refine wp_pure.2 (wp_bind.2 (wp_lock hE hwalk.dir hwalk.kept hwalk.disk hstand.1 fun s2 hl2 _ =>
    ?_))
  refine wp_bind.2 (wp_get.2 (wp_ite (fun _ => wp_bind.2 ?_) fun _ => wp_bind.2 ?_))
  · exact hl2.wp_iput fun s3 hu => wp_pure.2 fun _ => hu
  · have hp : p ∈ p ::ₘ R := mem_cons_self p R
    refine wp_addLinkNames hl2.dir hp hl2.valid fun s3 h3 hk3 ht3 hf3 => ?_
    have hi3 := (hk3 p hp).1
    rw [tree_congr hl2.disk, ← hi3] at ht3
    refine Counted.wp_linkEntry ⟨h3, hl2.kept.trans (hk3.mono fun q hq => mem_cons_of_mem hq),
      (hk3 p hp).2 hl2.valid, ?_, ht3, hl2.disk.files.trans hf3⟩ hs hE hc
    rw [hi3]
    exact hl2.safe

/-! ### `unlink` -/

theorem wp_sysUnlink_fails (hE : ∀ e, E e) (hs : Sound s R) (hc : cwd ∈ R) :
    wp (sysUnlink cwd path) (fun r s' => r = false → Unchanged R s s') E s := by
  refine wp_lockParent hs hc hE (fun s1 hu _ => wp_pure.2 fun _ => hu) ?_
  intro dp name s1 hl1 hres
  have hbad : wp (unlinkBad dp) (fun r s' => r = false → Unchanged R s s') E s1 :=
    wp_bind.2 (hl1.wp_iput fun s2 hu => wp_pure.2 fun _ => hu)
  refine wp_ite (fun _ => hbad) fun _ => wp_bind.2 ?_
  refine hl1.wp_dirlookup hs hE (dir_of_resolveParent hres) (fun _ => hbad) ?_
  intro p off s2 _ h2 hk2 hd2 hsafe2
  have hdp : dp ∈ dp ::ₘ p ::ₘ R := mem_cons_self dp _
  have hp : p ∈ dp ::ₘ p ::ₘ R := mem_cons_of_mem (mem_cons_self p R)
  have hsub : ∀ q ∈ R, q ∈ dp ::ₘ p ::ₘ R := fun q hq =>
    mem_cons_of_mem (mem_cons_of_mem hq)
  refine wp_bind.2 ?_
  refine wp_ilock h2.fs hp (fun _ _ => hE _) fun s3 h3 hk3 hd3 hv3 hi3 => ?_
  have hk30 : Kept R s s3 := (hl1.kept.trans (hk2.mono fun q hq => mem_cons_of_mem hq)).trans
    (hk3.mono hsub)
  have hok3 := h2.congr hd3 h3
  have hd30 := hd2.trans hd3
  -- the entry goes, or the two inodes are dropped
  have hend : ∀ empty : Bool, wp (if empty then do unlinkInode dp p off; pure true
      else do iput p; unlinkBad dp) (fun r s' => r = false → Unchanged R s s') E s3 := by
    intro empty
    refine wp_ite (fun _ => wp_bind.2 ?_) fun _ => wp_bind.2 ?_
    · exact (wp_true _ hE s3).mono fun _ _ _ => wp_pure.2 nofun
    · rw [cons_swap] at hok3
      refine wp_drop hok3 hk30 hd30 (fun q hq => mem_cons_of_mem hq) (hi3 ▸ hsafe2)
        fun s4 h4 hk4 hd4 => ?_
      have hk40 : Kept R s s4 := hk30.trans (hk4.mono fun q hq => mem_cons_of_mem hq)
      have hi4 : (s4.itable dp).inum = (s1.itable dp).inum :=
        (hk4 dp (mem_cons_self dp R)).1.trans ((hk3 dp hdp).1.trans
          (hk2 dp (mem_cons_self dp R)).1)
      refine wp_bind.2 (wp_drop h4 hk40 hd4 (fun _ hq => hq) (hi4 ▸ hl1.safe)
        fun s5 h5 hk5 hd5 => wp_pure.2 fun _ => ?_)
      exact .of_disk h5 (hk40.trans hk5) hd5
  refine wp_bind.2 (wp_get.2 (wp_ite (fun _ => wp_throw.2 (hE _)) fun _ => wp_bind.2 ?_))
  refine wp_ite (fun hdir => ?_) fun _ => wp_pure.2 (hend true)
  rw [hok3.type_eq hp hv3] at hdir
  exact wp_isdirempty hok3 hp hv3 hdir (fun _ => hend true) (hend false)

theorem wp_makeNode_fails (htype : type ≠ .free) (hE : ∀ e, E e) (hs : Sound s R) (hc : cwd ∈ R) :
    wp (makeNode cwd path type major minor) (fun r s' => r = false → Unchanged R s s') E s := by
  rw [makeNode, wp_bind]
  refine (wp_create_fails htype hE hs hc).mono fun r s1 hfail => ?_
  cases r with
  | none => exact wp_pure.2 fun _ => hfail rfl
  | some p => exact wp_bind.2 ((wp_true _ hE s1).mono fun _ _ _ => wp_pure.2 nofun)

end Fs

/-! ### The calls -/

/-- The calls that add and remove names, and `create` by itself. -/
inductive NameCall
  | create (path : List UInt8) (type : IType) (major minor : ℤ)
  | mkdir (path : FileSys.Arg)
  | mknod (path : FileSys.Arg) (major minor : ℤ)
  | link (old new : FileSys.Arg)
  | unlink (path : FileSys.Arg)

/-- The call by process `p`, and whether it succeeds. -/
def NameCall.run (p : Fin nProc) : NameCall → FileSysM Bool
  | .create path type major minor => do
    let r ← FileSys.withCwd p fun cwd => Fs.create cwd path type major minor
    pure r.isSome
  | .mkdir path => FileSys.sysMkdir p path
  | .mknod path major minor => FileSys.sysMknod p path major minor
  | .link old new => FileSys.sysLink p old new
  | .unlink path => FileSys.sysUnlink p path

/-- `create` makes an inode of some type. -/
def NameCall.Typed : NameCall → Prop
  | .create _ type _ _ => type ≠ .free
  | _ => True

namespace FileSys

open Fs NameTree

variable {s s' : FileSys} {p : Fin nProc} {c : NameCall} {E : FsPanic → Prop}

/-- Every path leads every process where it led, the same inodes are allocated, with the same counts
of links, and every file has the bytes that it had. -/
structure SameFs (s s' : FileSys) : Prop where
  paths : ∀ q path, inodeOf s' q path = inodeOf s q path
  allocated : ∀ i, Allocated s'.inodes.dinode i ↔ Allocated s.inodes.dinode i
  nlink : ∀ i, Allocated s.inodes.dinode i → (s'.inodes.dinode i).nlink = (s.inodes.dinode i).nlink
  contents : ∀ i, Allocated s.inodes.dinode i → contents s'.inodes i = contents s.inodes i

theorem sameFs_refl (s : FileSys) : SameFs s s :=
  ⟨fun _ _ => rfl, fun _ => .rfl, fun _ _ => rfl, fun _ _ => rfl⟩

theorem sameFs_of_unchanged (hinodes : Unchanged s.held s.inodes s'.inodes)
    (hcwd : s'.cwd = s.cwd) : SameFs s s' where
  paths q path := by
    rw [inodeOf, inodeOf, hcwd, names, names, hinodes.names]
    cases hq : s.cwd q with
    | none => rfl
    | some cwd =>
      have hkept := (hinodes.kept cwd (Files.mem_held_of_cwd hq)).1
      rw [Option.bind_some, Option.bind_some, startInum_congr hkept]
  allocated i := by rw [allocated_iff, allocated_iff, hinodes.names]
  nlink i hi := by
    have hi' := (hinodes.files i trivial hi).1
    have hnode : (tree s'.inodes i).nlink = (tree s.inodes i).nlink := by rw [hinodes.names]
    rwa [tree_of_allocated hi, tree_of_allocated hi'] at hnode
  contents i hi := (hinodes.files i trivial hi).2

theorem wp_failing {m : IPtr → FsM Bool} (h : Files.Inv Sound s 0) (hp : s.state p = .live)
    (hm : ∀ cwd, cwd ∈ s.held →
      wp (m cwd) (fun r i => r = false → Unchanged s.held s.inodes i) E s.inodes) :
    wp (withCwd p m) (fun r s' => r = false → SameFs s s') E s :=
  wp_withCwd h hp fun cwd _ hc => (hm cwd hc).mono fun _ _ hfail hr =>
    sameFs_of_unchanged (hfail hr) rfl

theorem wp_run_fails (hE : ∀ e, E e) (h : Files.Inv Sound s 0) (hp : s.state p = .live)
    (hc : c.Typed) : wp (c.run p) (fun r s' => r = false → SameFs s s') E s := by
  have hs : Sound s.inodes s.held := by
    have hsound := h.tab.inodes
    rwa [add_zero] at hsound
  have hbad : wp (pure false : FileSysM Bool) (fun r s' => r = false → SameFs s s') E s :=
    wp_pure.2 fun _ => sameFs_refl s
  cases c with
  | create path type major minor =>
    refine wp_bind.2 (wp_withCwd h hp fun cwd _ hmem => ?_)
    refine (wp_create_fails hc hE hs hmem).mono fun r i hfail => wp_pure.2 fun hr => ?_
    exact sameFs_of_unchanged (hfail (Option.isNone_iff_eq_none.1
      (Option.isSome_eq_false_iff.1 hr))) rfl
  | mkdir path =>
    cases path with
    | none => exact hbad
    | some path =>
      exact wp_failing h hp fun cwd hmem => wp_makeNode_fails (nofun) hE hs hmem
  | mknod path major minor =>
    cases path with
    | none => exact hbad
    | some path =>
      exact wp_failing h hp fun cwd hmem => wp_makeNode_fails (nofun) hE hs hmem
  | link old new =>
    match old, new with
    | none, _ => exact hbad
    | some _, none => exact hbad
    | some old, some new => exact wp_failing h hp fun cwd hmem => wp_sysLink_fails hE hs hmem
  | unlink path =>
    cases path with
    | none => exact hbad
    | some path => exact wp_failing h hp fun cwd hmem => wp_sysUnlink_fails hE hs hmem

/-- **A call that fails changes nothing**, at whatever step it fails. -/
theorem failed_calls (h : Files.Inv Sound s 0) (hp : s.state p = .live) (hc : c.Typed)
    (hrun : c.run p s = .ok (false, s')) : SameFs s s' :=
  (wp_run_fails (fun _ => trivial) h hp hc : wp (c.run p) _ (fun _ => True) s).of_ok hrun rfl

omit [Superblock] in
/-- The first process, in the directory `root`. -/
def boot (root : IPtr) (i : Fs) : FileSys := Files.start root i

omit [Superblock] in
theorem boot_inv {H : Fs → Multiset IPtr → Prop} {root : IPtr} {i : Fs} (h : H i {root}) :
    Files.Inv H (boot root i) 0 :=
  Files.start_ok h

/-- Somebody refers to the root directory and to no other inode, and what a directory names has a
link or is the root. -/
def Tidy (s : InodeSys) : Prop :=
  s.held = [⟨0, nInode_pos⟩] ∧ (s.fs.itable ⟨0, nInode_pos⟩).inum = rootIno ∧
    (s.fs.dinode rootIno).type = .dir ∧ ∀ j < Superblock.ninodes,
      ((s.fs.dinode j).type = .dir → direntSize ∣ (s.fs.dinode j).size) ∧
      short (s.fs.dinode j).nlink = (s.fs.dinode j).nlink ∧
      ∀ e ∈ (tree s.fs j).slots, e.inum < Superblock.ninodes ∧
        (e.inum ≠ 0 → e.inum = rootIno ∨ (tree s.fs e.inum).nlink ≠ 0)

instance (s : InodeSys) : Decidable (Tidy s) := inferInstanceAs (Decidable (_ ∧ _))

/-- The empty disk. -/
def formatted : InodeSys := InodeSys.emptyDisk fun b => b < Superblock.size - Superblock.nblocks

theorem Tidy.entries {s : InodeSys} (h : Tidy s) {d : ℕ} {e : Dirent}
    (he : e ∈ (tree s.fs d).slots) :
    e.inum < Superblock.ninodes ∧ (e.inum ≠ 0 → e.inum = rootIno ∨
    (tree s.fs e.inum).nlink ≠ 0) := by
  by_cases hd : d < Superblock.ninodes
  · exact (h.2.2.2 d hd).2.2 e he
  · rw [tree_of_not_allocated fun ha => hd ha.1] at he
    cases he

theorem Tidy.root_type {s : InodeSys} (h : Tidy s) : (tree s.fs rootIno).type = .dir := by
  have hdir := h.2.2.1
  rw [tree_of_allocated ⟨Superblock.root_lt, by rw [hdir]; decide⟩]
  exact hdir

theorem Tidy.not_dangling {s : InodeSys} (h : Tidy s) : ¬ Dangling (tree s.fs) := by
  have hroot : (tree s.fs rootIno).type ≠ .free := by
    rw [h.root_type]
    decide
  rintro (hfree | ⟨d, -, e, he, hne, hfree⟩)
  · exact hroot hfree
  · rcases (h.entries he).2 hne with heq | hlink
    · exact hroot (heq ▸ hfree)
    · by_cases ha : Allocated s.fs.dinode e.inum
      · rw [tree_of_allocated ha] at hfree
        exact ha.2 hfree
      · rw [tree_of_not_allocated ha] at hlink
        exact hlink rfl

theorem Tidy.sound {s : InodeSys} (h : Tidy s)
    (hreach : Runs.Reach InodeSys.step (fun _ _ => True) formatted s) :
    Sound s.fs {⟨0, by decide⟩} := by
  obtain ⟨hheld, hroot, -, hall⟩ := id h
  have hdisk : DiskOk formatted.fs.used formatted.fs.data formatted.fs.dinode := by
    refine ⟨InodeSys.consistent_emptyDisk ?_, fun b hb => decide_eq_true hb,
      fun i hi => absurd rfl hi.2⟩
    rintro b ⟨hb, -⟩
    exact decide_eq_false (not_lt.2 hb)
  have hfs := InodeSys.Idle.fsOk_reach ⟨rfl, fun _ => rfl⟩ hdisk hreach
  rw [hheld] at hfs
  have hsafe : Safe (tree s.fs) (inUse s.fs {⟨0, by decide⟩}) rootIno :=
    .inl ⟨_, Multiset.mem_singleton_self _, hroot⟩
  refine ⟨⟨hfs, fun j hj => (hall j hj.1).1⟩, ⟨hsafe, fun d _ _ e he => ?_, ?_, fun j => ?_⟩⟩
  · refine ⟨(h.entries he).1, fun hne => ?_⟩
    rcases (h.entries he).2 hne with heq | hlink
    · exact heq ▸ hsafe
    · exact .inr (.inl hlink)
  · rintro j ⟨q, hq, hqi⟩
    rw [Multiset.mem_singleton.1 hq, hroot] at hqi
    rw [← hqi, h.root_type]
    decide
  · rw [tree]
    split
    · rename_i hj
      exact (hall j hj.1).2.1
    · rfl

omit [Superblock] in
/-- A disk of three inodes without a block for files. -/
@[reducible] def noBlocks : Superblock :=
  ⟨8, 0, 3, 2, 3, InodeSys.smallDisk.size_lt, by decide, by decide, by decide⟩

omit [Superblock] in
/-- A disk of three inodes and three blocks for files. -/
@[reducible] def threeInodes : Superblock :=
  ⟨8, 3, 3, 2, 3, noBlocks.size_lt, InodeSys.smallDisk.nblocks_lt, noBlocks.root_lt,
    noBlocks.ninodes_le⟩

omit [Superblock] in
/-- There is an inode for a new directory, but no block for its entry `.`. -/
theorem failed_calls_mkdir : ∃ (_ : Superblock) (s s' : FileSys), ¬ Allocated s.inodes.dinode 2 ∧
    (NameCall.mkdir (some [97])).run ⟨0, by decide⟩ s = .ok (false, s') ∧ SameFs s s' := by
  let S : Superblock := noBlocks
  have hrun : ∃ s, Runs.Reach InodeSys.step (fun _ _ => True) formatted s ∧ Tidy s ∧
      (s.fs.dinode 2).type = .free ∧ ((NameCall.mkdir (some [97])).run ⟨0,
        by decide⟩ (boot ⟨0, by decide⟩ s.fs)).toOption.any (fun r => !r.1) = true :=
    Runs.exists_reach_of_exec [.create .dir 0 0] (by decide +kernel)
  obtain ⟨s, hreach, htidy, hfree, hmkdir⟩ := hrun
  obtain ⟨⟨b, s'⟩, heq, hb⟩ := exists_ok_of_any hmkdir
  obtain rfl : b = false := by simpa using hb
  refine ⟨S, boot ⟨0, by decide⟩ s.fs, s', fun ha => ha.2 hfree, heq, ?_⟩
  exact failed_calls (c := .mkdir (some [97])) (boot_inv (htidy.sound hreach)) rfl trivial heq

end FileSys

end CsklubOs
