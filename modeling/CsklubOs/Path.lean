/-
**Path lookup.**

`namex` of `kernel/fs.c` walks a path element by element.  It holds one inode at a time and drops it
when it has found the next one, so that the question is whether the inodes it drops may be the last
use of something that has no links any more, and whether what an entry names is there.

Main results:

* `wp_namex_standing` — if they may not and it is, the lookup follows the names and changes nothing.
-/

import CsklubOs.Directory

set_option autoImplicit false

namespace CsklubOs

/-! ### What path lookup relies on -/

namespace NameTree

variable [Superblock]

omit [Superblock] in
theorem dir_of_resolveParent {t : NameTree} {j : ℕ} {name : List UInt8} :
    ∀ {es : List (List UInt8)} {i : ℕ}, resolveParent t i es = some (j, name) →
    (t j).type = .dir := by
  intro es
  induction es with
  | nil =>
    intro i h
    cases h
  | cons e es ih =>
    intro i h
    cases es with
    | nil =>
      rw [resolveParent] at h
      split at h
      · rename_i hdir
        cases h
        exact hdir
      · cases h
    | cons e' es =>
      rw [resolveParent] at h
      split at h
      · obtain ⟨x, -, hx⟩ := Option.bind_eq_some_iff.1 h
        exact ih hx
      · cases h

end NameTree

namespace Fs

open Wp NameTree Multiset

variable [Superblock]

/-! ### The code -/

/-- The end of `namex`. -/
def namexEnd (nameiparent : Bool) (ip : IPtr) (name : List UInt8) :
    FsM (Option (IPtr × List UInt8)) := do
  if nameiparent then do
    iput ip
    pure none
  else pure (some (ip, name))

/-- The loop of `namex`. -/
def namexLoop (nameiparent : Bool) : ℕ → IPtr → List UInt8 → List UInt8 →
    FsM (Option (IPtr × List UInt8))
  | 0, ip, _, name => namexEnd nameiparent ip name
  | fuel + 1, ip, path, name =>
    match skipelem path with
    | none => namexEnd nameiparent ip name
    | some (name, path) => do
      ilock ip
      let s ← get
      if (s.itable ip).d.type ≠ .dir then do
        iput ip
        pure none
      else if nameiparent = true ∧ path.headD 0 = 0 then pure (some (ip, name))
      else do
        match ← dirlookup ip name with
        | none => do
          iput ip
          pure none
        | some (next, _) => do
          iput ip
          namexLoop nameiparent fuel next path name

/-- `namex`, for a process whose current directory is `cwd`: the inode, and the last element. -/
def namex (nameiparent : Bool) (cwd : IPtr) (path : List UInt8) :
    FsM (Option (IPtr × List UInt8)) := do
  let ip ← (if path.headD 0 = slash then iget rootIno else idup cwd)
  namexLoop nameiparent path.length ip path []

def namei (cwd : IPtr) (path : List UInt8) : FsM (Option IPtr) := do
  let r ← namex false cwd path
  pure (r.map Prod.fst)

def nameiparent (cwd : IPtr) (path : List UInt8) : FsM (Option (IPtr × List UInt8)) :=
  namex true cwd path

/-- Where the walk along a path starts. -/
def startInum (s : Fs) (cwd : IPtr) (path : List UInt8) : ℕ :=
  if path.headD 0 = slash then rootIno else (s.itable cwd).inum

omit [Superblock] in
theorem startInum_congr {s s' : Fs} {cwd : IPtr} {path : List UInt8}
    (h : (s'.itable cwd).inum = (s.itable cwd).inum) :
    startInum s' cwd path = startInum s cwd path := by
  rw [startInum, h, startInum]

/-! ### Its specification -/

variable {s0 s s' : Fs} {p cwd : IPtr} {E : FsPanic → Prop} {R R' : Multiset IPtr}
  {i : ℕ}

/-- What holds of the inode that the walk is at. -/
def Standing (t : NameTree) (u : ℕ → Prop) (E : FsPanic → Prop) (i : ℕ) : Prop :=
  Safe t u i ∧ ((t i).type = .free → E .ilockNoType)

/-- Path lookup may stand at the root and go on to whatever the entries of a directory name. -/
structure Walkable (t : NameTree) (u : ℕ → Prop) (E : FsPanic → Prop) : Prop where
  root : Standing t u E rootIno
  entries : ∀ d, Standing t u E d → (t d).type = .dir → ∀ e ∈ (t d).slots,
    e.inum < Superblock.ninodes ∧ (e.inum ≠ 0 → Standing t u E e.inum)

/-- A path leads nowhere, as the flag of `namex` has it. -/
def Nowhere (t : NameTree) (par : Bool) (i : ℕ) (es : List (List UInt8)) : Prop :=
  (par = false → resolve t i es = none) ∧ (par = true → resolveParent t i es = none)

variable {par : Bool} {Q : Option (IPtr × List UInt8) → Fs → Prop}

omit [Superblock] in
theorem nowhere_of_not_dir {t : NameTree} {d : ℕ} {e : List UInt8} {es : List (List UInt8)}
    (h : (t d).type ≠ .dir) : Nowhere t par d (e :: es) := by
  refine ⟨fun _ => by rw [resolve, if_neg h], fun _ => ?_⟩
  cases es with
  | nil => rw [resolveParent, if_neg h]
  | cons e' es => rw [resolveParent, if_neg h]

omit [Superblock] in
theorem nowhere_cons {t : NameTree} {d : ℕ} {e : List UInt8} {es : List (List UInt8)}
    (hdir : (t d).type = .dir) (hgo : par = true → es ≠ [])
    (h : ∀ x, (t d).find e = some x → Nowhere t par x.inum es) : Nowhere t par d (e :: es) := by
  refine ⟨fun hpar => ?_, fun hpar => ?_⟩
  · rw [resolve, if_pos hdir]
    cases hfind : (t d).find e with
    | none => rfl
    | some x => exact (h x hfind).1 hpar
  · obtain ⟨e', es', rfl⟩ := List.exists_cons_of_ne_nil (hgo hpar)
    rw [resolveParent, if_pos hdir]
    cases hfind : (t d).find e with
    | none => rfl
    | some x => exact (h x hfind).2 hpar

/-- What a walk has kept since it started in `s0`. -/
structure Walked (s0 s : Fs) (R : Multiset IPtr) (p : IPtr) : Prop where
  dir : DirOk s (p ::ₘ R)
  kept : Kept R s0 s
  disk : SameDisk s0 s

theorem wp_drop {Q : Unit → Fs → Prop} (h : DirOk s (p ::ₘ R')) (hk : Kept R s0 s)
    (hd : SameDisk s0 s) (hsub : ∀ q ∈ R, q ∈ R')
    (hsafe : Safe (tree s0) (inUse s0 R) (s.itable p).inum)
    (hQ : ∀ s', DirOk s' R' → Kept R' s s' → SameDisk s0 s' → Q () s') : wp (iput p) Q E s := by
  refine wp_iput_safe h ?_ fun s' h' hk' hd' => hQ s' h' hk' (hd.trans hd')
  rw [tree_congr hd]
  rcases hsafe with ⟨q, hq, hqi⟩ | hsafe
  · exact .inl ⟨q, hsub q hq, (hk q hq).1.trans hqi⟩
  · exact .inr hsafe

theorem wp_namexEnd {name : List UInt8} (h : Walked s0 s R p)
    (hsafe : Safe (tree s0) (inUse s0 R) (s.itable p).inum)
    (hnone : ∀ s', DirOk s' R → Kept R s0 s' → SameDisk s0 s' → par = true → Q none s')
    (hsome : par = false → Q (some (p, name)) s) : wp (namexEnd par p name) Q E s := by
  refine wp_ite (fun hpar => wp_bind.2 (wp_iput_safe h.dir ?_ fun s' h' hk' hd' => wp_pure.2 ?_))
    fun hpar => ?_
  · rw [tree_congr h.disk, h.kept.inUse]
    exact hsafe
  · exact hnone s' h' (h.kept.trans hk') (h.disk.trans hd') hpar
  · exact wp_pure.2 (hsome (by simpa using hpar))

/-- All entries of the inode table but one, which a walk may take, are held. -/
def Crowded (R : Multiset IPtr) : Prop := ∃ p, ∀ q, q ∈ p ::ₘ R

theorem wp_namexLoop (hw : Walkable (tree s0) (inUse s0 R) E) (hE : Crowded R → E .igetNoInodes) :
    ∀ (fuel : ℕ) (path name : List UInt8) (p : IPtr) (s : Fs), path.length ≤ fuel →
      Walked s0 s R p → Standing (tree s0) (inUse s0 R) E (s.itable p).inum →
      (∀ s', DirOk s' R → Kept R s0 s' → SameDisk s0 s' →
        Nowhere (tree s0) par (s.itable p).inum (elements path) → Q none s') →
      (∀ q nm s', Walked s0 s' R q → Standing (tree s0) (inUse s0 R) E (s'.itable q).inum →
        (par = false → resolve (tree s0) (s.itable p).inum (elements path) =
          some (s'.itable q).inum) →
        (par = true → (s'.itable q).valid = true ∧
          resolveParent (tree s0) (s.itable p).inum (elements path) =
          some ((s'.itable q).inum, nm)) →
        Q (some (q, nm)) s') →
      wp (namexLoop par fuel p path name) Q E s := by
  -- no element is left
  have hend : ∀ name p s, Walked s0 s R p → Standing (tree s0) (inUse s0 R) E (s.itable p).inum →
      (∀ s', DirOk s' R → Kept R s0 s' → SameDisk s0 s' →
        Nowhere (tree s0) par (s.itable p).inum [] → Q none s') →
      (∀ q nm s', Walked s0 s' R q → Standing (tree s0) (inUse s0 R) E (s'.itable q).inum →
        (par = false → resolve (tree s0) (s.itable p).inum [] = some (s'.itable q).inum) →
        (par = true → (s'.itable q).valid = true ∧
          resolveParent (tree s0) (s.itable p).inum [] = some ((s'.itable q).inum, nm)) →
        Q (some (q, nm)) s') → wp (namexEnd par p name) Q E s := by
    intro name p s hwalk hstand hnone hsome
    refine wp_namexEnd hwalk hstand.1 (fun s' h' hk' hd' hpar => ?_) fun hpar => ?_
    · refine hnone s' h' hk' hd' ⟨fun hno => ?_, fun _ => rfl⟩
      rw [hpar] at hno
      cases hno
    · refine hsome p name s hwalk hstand (fun _ => rfl) fun hno => ?_
      rw [hpar] at hno
      cases hno
  intro fuel
  induction fuel with
  | zero =>
    intro path name p s hlen hwalk hstand hnone hsome
    have hes : elements path = [] := by
      rw [List.length_eq_zero_iff.1 (Nat.le_zero.1 hlen)]
      rfl
    rw [hes] at hnone hsome
    exact hend name p s hwalk hstand hnone hsome
  | succ fuel ih =>
    intro path name p s hlen hwalk hstand hnone hsome
    rw [namexLoop]
    cases hskip : skipelem path with
    | none =>
      have hes : elements path = [] := by rw [elements_eq, hskip]
      rw [hes] at hnone hsome
      exact hend name p s hwalk hstand hnone hsome
    | some r =>
      obtain ⟨e, rest⟩ := r
      have hes : elements path = e :: elements rest := by rw [elements_eq, hskip]
      have hlast : elements rest = [] ↔ rest.headD 0 = 0 := by
        rw [← skipelem_last hskip, elements_eq]
        cases skipelem rest with
        | none => exact iff_of_true rfl rfl
        | some r => exact iff_of_false (fun h => by cases h) fun h => by cases h
      have hshort := skipelem_length hskip
      have hp : p ∈ p ::ₘ R := mem_cons_self p R
      refine wp_bind.2 (wp_ilock hwalk.dir.fs hp (fun _ hfree => hstand.2 ?_) ?_)
      · rw [← tree_congr hwalk.disk, tree_of_not_allocated fun ha => ha.2 hfree]
        rfl
      intro s1 h1 hk1 hd1 hv1 hi1
      have hwalk1 : Walked s0 s1 R p := ⟨hwalk.dir.congr hd1 h1,
        hwalk.kept.trans (hk1.mono fun q hq => mem_cons_of_mem hq), hwalk.disk.trans hd1⟩
      have htype := hwalk1.dir.type_eq hp hv1
      rw [tree_congr hwalk1.disk, hi1] at htype
      -- the walk drops the inode it is at
      have hsafe : Safe (tree s0) (inUse s0 R) (s1.itable p).inum := by
        rw [hi1]
        exact hstand.1
      rw [hes] at hnone
      refine wp_bind.2 (wp_get.2 (wp_ite (fun hfile => ?_) fun hdir => ?_))
      · rw [htype] at hfile
        exact wp_bind.2 (wp_drop hwalk1.dir hwalk1.kept hwalk1.disk (fun _ hq => hq) hsafe
          fun s3 h3 hk3 hd3 =>
            wp_pure.2 (hnone s3 h3 (hwalk1.kept.trans hk3) hd3 (nowhere_of_not_dir hfile)))
      have hdir0 : (tree s0 (s.itable p).inum).type = .dir := htype ▸ not_not.1 hdir
      refine wp_ite (fun hstop => wp_pure.2 ?_) fun hgo => wp_bind.2 ?_
      · -- one level early
        refine hsome p e s1 hwalk1 (hi1 ▸ hstand) (fun hpar => ?_) fun _ => ⟨hv1, ?_⟩
        · rw [hstop.1] at hpar
          cases hpar
        · rw [hes, hlast.2 hstop.2, resolveParent, if_pos hdir0, hi1]
      have hdir1 : (tree s1 (s1.itable p).inum).type = .dir := by
        rw [tree_congr hwalk1.disk, hi1, hdir0]
      have hgo' : par = true → elements rest ≠ [] := fun hpar hnil => hgo ⟨hpar, hlast.1 hnil⟩
      refine wp_dirlookup hwalk1.dir hp hv1 hdir1 ?_ (fun hall => hE ⟨p, hall⟩) (fun hfind => ?_) ?_
      · rw [tree_congr hwalk1.disk, hi1]
        exact fun x hx => (hw.entries _ hstand hdir0 x hx).1
      · rw [tree_congr hwalk1.disk, hi1] at hfind
        refine wp_bind.2 (wp_drop hwalk1.dir hwalk1.kept hwalk1.disk (fun _ hq => hq) hsafe
          fun s3 h3 hk3 hd3 => wp_pure.2 (hnone s3 h3 (hwalk1.kept.trans hk3) hd3
            (nowhere_cons hdir0 hgo' fun x hx => ?_)))
        rw [hfind] at hx
        cases hx
      · intro k x q s2 hk hx _ hfind h2 hk2 hd2 hi2 _
        rw [tree_congr hwalk1.disk, hi1] at hk hfind
        have hnext := (hw.entries _ hstand hdir0 x (List.mem_of_getElem? hk)).2 hx
        have hkept2 : Kept R s0 s2 :=
          hwalk1.kept.trans (hk2.mono fun r hr => mem_cons_of_mem hr)
        rw [cons_swap] at h2
        rw [← (hk2 p hp).1] at hsafe
        refine wp_bind.2 (wp_drop h2 hkept2 (hwalk1.disk.trans hd2)
          (fun r hr => mem_cons_of_mem hr) hsafe fun s3 h3 hk3 hd3 => ?_)
        have hi3 : (s3.itable q).inum = x.inum := (hk3 q (mem_cons_self q R)).1.trans hi2
        have hkept3 := hkept2.trans (hk3.mono fun r hr => mem_cons_of_mem hr)
        refine ih rest e q s3 (by omega) ⟨h3, hkept3, hd3⟩ (hi3 ▸ hnext)
          (fun s' h' hk' hd' hno => hnone s' h' hk' hd' (nowhere_cons hdir0 hgo' fun y hy => ?_)) ?_
        · rw [hfind, Option.some_inj] at hy
          rw [← hy, ← hi3]
          exact hno
        intro q' nm s' hwalk' hstand' hres hpar
        refine hsome q' nm s' hwalk' hstand' (fun hp' => ?_) fun hp' => ⟨(hpar hp').1, ?_⟩
        · rw [hes, resolve, if_pos hdir0, hfind, Option.bind_some, ← hi3]
          exact hres hp'
        · obtain ⟨e', es, heq⟩ := List.exists_cons_of_ne_nil (hgo' hp')
          have hpar' := (hpar hp').2
          rw [heq, hi3] at hpar'
          rw [hes, heq, resolveParent, if_pos hdir0, hfind]
          exact hpar'

/-- **Path lookup follows the names.**  It changes nothing on disk. -/
theorem wp_namex_standing {path : List UInt8} (h : DirOk s R) (hw : Walkable (tree s) (inUse s R) E)
    (hc : cwd ∈ R) (hused : Standing (tree s) (inUse s R) E (s.itable cwd).inum)
    (hE : Crowded R → E .igetNoInodes) (hnone : ∀ s', DirOk s' R → Kept R s s' → SameDisk s s' →
      Nowhere (tree s) par (startInum s cwd path) (elements path) → Q none s')
    (hsome : ∀ q nm s', Walked s s' R q → Standing (tree s) (inUse s R) E (s'.itable q).inum →
      (par = false → resolve (tree s) (startInum s cwd path) (elements path) =
        some (s'.itable q).inum) →
      (par = true → (s'.itable q).valid = true ∧
        resolveParent (tree s) (startInum s cwd path) (elements path) =
          some ((s'.itable q).inum, nm)) →
      Q (some (q, nm)) s') : wp (namex par cwd path) Q E s := by
  rw [namex, wp_bind]
  refine wp_ite (fun hroot => ?_) fun hrel => ?_
  · refine wp_iget h.fs Superblock.root_lt
      (fun hall => hE ⟨cwd, fun q => mem_cons_of_mem (hall q)⟩) fun p s1 h1 hk1 hd1 hi1 _ => ?_
    have hstart : startInum s cwd path = (s1.itable p).inum := by rw [startInum, if_pos hroot, hi1]
    rw [hstart] at hnone hsome
    refine wp_namexLoop hw hE _ path [] p s1 (le_refl _) ⟨h.congr hd1 h1, hk1, hd1⟩ ?_ hnone hsome
    rw [hi1]
    exact hw.root
  · refine wp_idup h.fs hc fun s1 h1 hk1 hd1 => ?_
    have hi1 := (hk1 cwd hc).1
    have hstart : startInum s cwd path = (s1.itable cwd).inum := by rw [startInum, if_neg hrel, hi1]
    rw [hstart] at hnone hsome
    refine wp_namexLoop hw hE _ path [] cwd s1 (le_refl _) ⟨h.congr hd1 h1, hk1, hd1⟩ ?_ hnone hsome
    rw [hi1]
    exact hused

end Fs

end CsklubOs
