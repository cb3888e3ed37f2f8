/-
**Creating, linking and unlinking names.**

`create`, `sys_link` and `sys_unlink` of `kernel/sysfile.c`, for a process with a given current
directory.  `CsklubOs/FailedCalls.lean` and `CsklubOs/FailedOpen.lean` put their parts together.

Main definitions:

* `create`, `sysLink`, `sysUnlink` — the functions.

Main results:

* `wp_iput_reap` — dropping an inode reaps it in the tree of names, if it has no links.
-/

import CsklubOs.Path

set_option autoImplicit false

namespace CsklubOs

open Function Multiset

namespace Fs

open Wp NameTree

variable [Superblock]

/-! ### The code -/

/-- The entries `.` and `..` of a new directory. -/
def createDots (dp ip : IPtr) : FsM Bool := do
  let s ← get
  if ← dirlink ip dotName (s.itable ip).inum then dirlink ip dotdotName (s.itable dp).inum
  else pure false

/-- The entries that `create` makes for a new inode. -/
def createEntries (dp ip : IPtr) (name : List UInt8) (type : IType) : FsM Bool := do
  let s ← get
  let dots ← (if type = .dir then createDots dp ip else pure true)
  if dots then dirlink dp name (s.itable ip).inum else pure false

/-- `ip->nlink = 0; iupdate(ip)`. -/
def clearLinks (p : IPtr) : FsM Unit := do
  modifyD p fun d => { d with nlink := 0 }
  iupdate p

/-- `create`, from where the name was not found in `dp`. -/
def createNew (dp : IPtr) (name : List UInt8) (type : IType) (major minor : ℤ) :
    FsM (Option IPtr) := do
  match ← createInode type major minor with
  | none => do
    iput dp
    pure none
  | some ip => do
    if ← createEntries dp ip name type then do
      (if type = .dir then addLink dp else pure ())
      iput dp
      pure (some ip)
    else do
      clearLinks ip
      iput ip
      iput dp
      pure none

def create (cwd : IPtr) (path : List UInt8) (type : IType) (major minor : ℤ) :
    FsM (Option IPtr) := do
  match ← nameiparent cwd path with
  | none => pure none
  | some (dp, name) => do
    ilock dp
    match ← dirlookup dp name with
    | some (ip, _) => do
      iput dp
      ilock ip
      let s ← get
      if type = .file ∧ ((s.itable ip).d.type = .file ∨ (s.itable ip).d.type = .device) then
        pure (some ip)
      else do
        iput ip
        pure none
    | none => createNew dp name type major minor

/-- The error exit of `sys_link`. -/
def linkBad (ip : IPtr) : FsM Bool := do
  ilock ip
  dropLink ip
  iput ip
  pure false

/-- `sys_link`, from where `ip` has its new link. -/
def linkEntry (cwd ip : IPtr) (new : List UInt8) : FsM Bool := do
  match ← nameiparent cwd new with
  | none => linkBad ip
  | some (dp, name) => do
    ilock dp
    let s ← get
    if ← dirlink dp name (s.itable ip).inum then do
      iput dp
      iput ip
      pure true
    else do
      iput dp
      linkBad ip

def sysLink (cwd : IPtr) (old new : List UInt8) : FsM Bool := do
  match ← namei cwd old with
  | none => pure false
  | some ip => do
    ilock ip
    let s ← get
    if (s.itable ip).d.type = .dir then do
      iput ip
      pure false
    else do
      addLink ip
      linkEntry cwd ip new

/-- The error exit of `sys_unlink`. -/
def unlinkBad (dp : IPtr) : FsM Bool := do
  iput dp
  pure false

/-- `sys_unlink`, from where `ip` was found at `off` in `dp`. -/
def unlinkFound (dp ip : IPtr) (off : ℕ) : FsM Bool := do
  ilock ip
  let s ← get
  if (s.itable ip).d.nlink < 1 then throw .unlinkNlink
  else do
    let empty ← (if (s.itable ip).d.type = .dir then isdirempty ip else pure true)
    if empty then do
      unlinkInode dp ip off
      pure true
    else do
      iput ip
      unlinkBad dp

def sysUnlink (cwd : IPtr) (path : List UInt8) : FsM Bool := do
  match ← nameiparent cwd path with
  | none => pure false
  | some (dp, name) => do
    ilock dp
    if namecmp name dotName = 0 ∨ namecmp name dotdotName = 0 then unlinkBad dp
    else do
      match ← dirlookup dp name with
      | none => unlinkBad dp
      | some (ip, off) => unlinkFound dp ip off

/-! ### Changes of one inode -/

variable {s s' s0 : Fs} {p q dp cwd : IPtr} {E : FsPanic → Prop} {R : Multiset IPtr} {i j k : ℕ}

theorem tree_update {d : Dinode} (hdata : s'.data = s.data) (hn : s'.dinode = update s.dinode i d) :
    tree s' = update (tree s) i
      (if i < Superblock.ninodes ∧ d.type ≠ .free then nodeOf s.data d else Node.free) := by
  funext x
  by_cases hx : x = i
  · rw [hx, update_self, tree, hn, update_self, hdata]
  · rw [update_of_ne hx, tree, hn, update_of_ne hx, hdata, tree]

theorem DirOk.setLinks {x : ℤ} (h : DirOk s R) (h' : FsOk s' R) (halloc : Allocated s.dinode i)
    (hdata : s'.data = s.data) (hn : s'.dinode = update s.dinode i { s.dinode i with nlink := x }) :
    DirOk s' R ∧ tree s' = update (tree s) i { tree s i with nlink := x } := by
  refine ⟨⟨h', fun y hy hdir => ?_⟩, ?_⟩
  · rw [hn] at hy hdir ⊢
    by_cases hyi : y = i
    · rw [hyi, update_self] at hdir ⊢
      exact h.sizes i halloc hdir
    · rw [Allocated, update_of_ne hyi] at hy
      rw [update_of_ne hyi] at hdir ⊢
      exact h.sizes y hy hdir
  · rw [tree_update hdata hn, tree_of_allocated halloc]
    exact congrArg _ (if_pos halloc)

variable {Q : Unit → Fs → Prop}

section

variable (h : DirOk s R) (hp : p ∈ R) (hv : (s.itable p).valid = true)

include h hp hv

theorem wp_dropLinkNames
    (hQ : ∀ s', DirOk s' R → Kept R s s' → tree s' = update (tree s) (s.itable p).inum
      { tree s (s.itable p).inum with
        nlink := short ((tree s (s.itable p).inum).nlink - 1) } →
      SameFiles (fun _ => True) s s' → Q () s') : wp (dropLink p) Q E s := by
  refine wp_dropLink h.fs hp hv fun s' h' hk' _ hd' hn' => ?_
  obtain ⟨hok, htree⟩ := h.setLinks h' (h.fs.allocated hp hv) hd' hn'
  rw [show (s.dinode (s.itable p).inum).nlink = (tree s (s.itable p).inum).nlink by
    rw [h.node hp hv]; rfl] at htree
  exact hQ s' hok hk' htree (sameFiles_setLinks hd' hn')

theorem wp_addLinkNames
    (hQ : ∀ s', DirOk s' R → Kept R s s' → tree s' = update (tree s) (s.itable p).inum
      { tree s (s.itable p).inum with
        nlink := short ((tree s (s.itable p).inum).nlink + 1) } →
      SameFiles (fun _ => True) s s' → Q () s') : wp (addLink p) Q E s := by
  refine wp_addLink h.fs hp hv fun s' h' hk' _ hd' hn' => ?_
  obtain ⟨hok, htree⟩ := h.setLinks h' (h.fs.allocated hp hv) hd' hn'
  rw [show (s.dinode (s.itable p).inum).nlink = (tree s (s.itable p).inum).nlink by
    rw [h.node hp hv]; rfl] at htree
  exact hQ s' hok hk' htree (sameFiles_setLinks hd' hn')

theorem wp_clearLinks
    (hQ : ∀ s', DirOk s' R → Kept R s s' → tree s' = update (tree s) (s.itable p).inum
      { tree s (s.itable p).inum with nlink := 0 } → SameFiles (fun _ => True) s s' → Q () s') :
    wp (clearLinks p) Q E s := by
  refine wp_modifyD_iupdate h.fs hp hv (fun _ => ⟨rfl, rfl, rfl⟩) fun s' h' hk' _ hd' hn' => ?_
  obtain ⟨hok, htree⟩ := h.setLinks h' (h.fs.allocated hp hv) hd' hn'
  exact hQ s' hok hk' htree (sameFiles_setLinks hd' hn')

end

theorem wp_createNode {Q : Option IPtr → Fs → Prop} {type : IType} {major minor : ℤ}
    (htype : type ≠ .free) (h : DirOk s R) (hE : E .igetNoInodes)
    (hnone : (∀ i, 0 < i → i < Superblock.ninodes → (s.dinode i).type ≠ .free) → Q none s)
    (hQ : ∀ p s', DirOk s' (p ::ₘ R) → Kept R s s' → 0 < (s'.itable p).inum →
      (s'.itable p).inum < Superblock.ninodes → (tree s (s'.itable p).inum).type = .free →
      tree s' = update (tree s) (s'.itable p).inum ⟨type, 1, []⟩ →
      (s'.itable p).valid = true → SameFiles (fun _ => True) s s' → s'.used = s.used →
      s'.data = s.data →
      s'.dinode = update s.dinode (s'.itable p).inum (Dinode.init type major minor) →
      Q (some p) s') : wp (createInode type major minor) Q E s := by
  refine wp_createInode htype h.fs hE hnone fun p s' h' hk' hu' hd' hpos hfree hn' hv' => ?_
  have hlt := h'.range p (mem_cons_self p R)
  have hfree' : (tree s (s'.itable p).inum).type = .free := by
    rw [tree_of_not_allocated fun ha => ha.2 hfree]
    rfl
  refine hQ p s' ⟨h', fun y hy hdir => ?_⟩ hk' hpos hlt hfree' ?_ hv' (fun y _ hy => ?_) hu' hd' hn'
  · rw [hn'] at hy hdir ⊢
    by_cases hyi : y = (s'.itable p).inum
    · rw [hyi, update_self]
      exact Nat.dvd_zero _
    · rw [Allocated, update_of_ne hyi] at hy
      rw [update_of_ne hyi] at hdir ⊢
      exact h.sizes y hy hdir
  · rw [tree_update hd' hn', if_pos ⟨hlt, htype⟩]
    refine congrArg _ (congrArg (Node.mk type 1) ?_)
    have hnone : dirents s.data (Dinode.init type major minor) = [] := by
      rw [dirents, show (Dinode.init type major minor).size / direntSize = 0 from Nat.zero_div _]
      rfl
    rw [hnone, ite_self]
  · exact sameFiles_update hd' hn' y (fun hyi => hy.2 (hyi ▸ hfree)) hy

/-- **The end of a use**: an inode without links and other uses is freed. -/
theorem wp_iput_reap (h : DirOk s (p ::ₘ R))
    (hv : (s.itable p).valid = true ∨ Safe (tree s) (inUse s R) (s.itable p).inum)
    (hQ : ∀ s', DirOk s' R → Kept R s s' →
      tree s' = reap (tree s) (inUse s R) (s.itable p).inum →
      SameFiles (fun j => j ≠ (s.itable p).inum) s s' → Q () s') : wp (iput p) Q E s := by
  have hp : p ∈ p ::ₘ R := mem_cons_self p R
  refine wp_iput h.fs (fun hkeep s' h' hk' hd' => ?_) fun hlast s' h' hk' hd' hn' => ?_
  · refine hQ s' (h.congr hd' h') hk' ?_ hd'.files
    rw [tree_congr hd', reap_neg]
    intro htype hlink
    rcases hv with hv | hsafe | hne | hfree
    · by_contra hno
      refine hkeep ⟨fun hpR => hno ⟨p, hpR, rfl⟩, hv, ?_⟩
      rw [h.node hp hv] at hlink
      exact hlink
    · exact hsafe
    · exact absurd hlink hne
    · exact absurd hfree htype
  · obtain ⟨hpR, hv, hlink⟩ := hlast
    have halloc := h.fs.allocated hp hv
    refine hQ s' ⟨h', fun y hy hdir => ?_⟩ hk' ?_ (sameFiles_update hd' hn')
    · rw [hn'] at hy hdir ⊢
      by_cases hyi : y = (s.itable p).inum
      · rw [hyi, update_self] at hdir
        cases hdir
      · rw [Allocated, update_of_ne hyi] at hy
        rw [update_of_ne hyi] at hdir ⊢
        exact h.sizes y hy hdir
    · rw [tree_update hd' hn', if_neg fun hx => hx.2 rfl, reap_pos]
      · exact allocated_iff.1 halloc
      · rw [h.node hp hv]
        exact hlink
      · rintro ⟨q, hq, hqi⟩
        exact hpR (h.fs.uniq q (mem_cons_of_mem hq) p hp hqi ▸ hq)

omit [Superblock] in
theorem inUse_cons {x : ℕ} : inUse s (p ::ₘ R) x ↔ inUse s R x ∨ x = (s.itable p).inum := by
  refine ⟨?_, ?_⟩
  · rintro ⟨q, hq, hx⟩
    rcases mem_cons.1 hq with rfl | hq
    · exact .inr hx.symm
    · exact .inl ⟨q, hq, hx⟩
  · rintro (⟨q, hq, hx⟩ | rfl)
    · exact ⟨q, mem_cons_of_mem hq, hx⟩
    · exact ⟨p, mem_cons_self p R, rfl⟩

/-! ### `create` -/

omit [Superblock] in
/-- The inode that `create` makes in the directory `d`. -/
def newNode (type : IType) (j d : ℕ) : Node :=
  ⟨type, 1, if type = .dir then [⟨j, dotName⟩, ⟨d, dotdotName⟩] else []⟩

theorem wp_createDots {Q : Bool → Fs → Prop} (h : DirOk s R) (hp : p ∈ R) (hdp : dp ∈ R)
    (hv : (s.itable p).valid = true) (hj : (s.itable p).inum ≠ 0) (hE : E .igetNoInodes)
    (hnode : tree s (s.itable p).inum = ⟨.dir, 1, []⟩) (hfail : ∀ l s', DirOk s' R → Kept R s s' →
      tree s' = update (tree s) (s.itable p).inum ⟨.dir, 1, l⟩ →
      SameFiles (fun x => x ≠ (s.itable p).inum) s s' → Q false s')
    (hdone : ∀ s', DirOk s' R → Kept R s s' → tree s' = update (tree s) (s.itable p).inum
      (newNode .dir (s.itable p).inum (s.itable dp).inum) →
      SameFiles (fun x => x ≠ (s.itable p).inum) s s' → Q true s') :
    wp (createDots dp p) Q E s := by
  have hjlt := h.fs.range p hp
  have hdlt := h.fs.range dp hdp
  have hle := Superblock.ninodes_le
  have hdir : (tree s (s.itable p).inum).type = .dir := by rw [hnode]
  have hsame : tree s = update (tree s) (s.itable p).inum ⟨.dir, 1, []⟩ := by
    rw [← hnode, update_eq_self]
  rw [createDots, wp_bind, wp_get, wp_bind]
  refine wp_dirlink h hp hv hdir ?_ (by omega) hE ?_ (fun s1 h1 hk₁ ht1 hf1 => ?_) ?_
  · rw [hnode]
    exact fun e he => by cases he
  · rw [hnode]
    exact fun e he => by cases he
  · exact wp_pure.2 (hfail [] s1 h1 hk₁ (ht1.trans hsame) (hf1.mono fun _ _ => trivial))
  · intro k s1 hk _ _ h1 hk₁ ht1 hf1
    have hi1 := (hk₁ p hp).1
    have hnode1 : tree s1 (s.itable p).inum =
        ⟨.dir, 1, [⟨(s.itable p).inum, dotName⟩]⟩ := by
      rw [ht1, update_self, hnode]
      rfl
    rw [hnode] at ht1
    have hdir1 : (tree s1 (s1.itable p).inum).type = .dir := by rw [hi1, hnode1]
    refine wp_dirlink h1 hp ((hk₁ p hp).2 hv) hdir1 ?_ (by omega) hE ?_
      (fun s2 h2 hk2 ht2 hf2 => ?_) ?_
    · rw [hi1, hnode1]
      intro e he
      rw [List.mem_singleton.1 he]
      exact hjlt
    · rw [hi1, hnode1]
      have hother : Node.find ⟨.dir, 1, [⟨(s.itable p).inum, dotName⟩]⟩ dotdotName = none := by
        refine List.find?_eq_none.2 fun x hx hname => ?_
        rw [List.mem_singleton.1 hx] at hname
        exact absurd (of_decide_eq_true hname).2 (by decide : dotName ≠ cname dotdotName)
      rw [hother]
      exact fun e he => by cases he
    · exact hfail _ s2 h2 (hk₁.trans hk2) (ht2.trans ht1) (hf1.trans (hf2.mono fun _ _ => trivial))
    · intro k2 s2 hk2le hempty _ h2 hk2 ht2 hf2
      rw [hi1, hnode1] at hk2le hempty
      rw [hi1] at hf2
      -- the first slot is taken by the entry `.`
      have hk1 : k2 = 1 := by
        have hle2 : k2 ≤ 1 := hk2le
        rcases Nat.le_one_iff_eq_zero_or_eq_one.1 hle2 with rfl | rfl
        · exact absurd (hempty _ rfl) hj
        · rfl
      refine hdone s2 h2 (hk₁.trans hk2) ?_ (hf1.trans hf2)
      rw [ht2, hi1, hnode1, hk1, ht1, update_idem]
      rfl

theorem wp_createEntries {Q : Bool → Fs → Prop} {type : IType} {name : List UInt8} (h : DirOk s R)
    (hp : p ∈ R) (hdp : dp ∈ R) (hv : (s.itable p).valid = true) (hdv : (s.itable dp).valid = true)
    (hj : (s.itable p).inum ≠ 0) (hE : E .igetNoInodes)
    (hnode : tree s (s.itable p).inum = ⟨type, 1, []⟩)
    (hdir : (tree s (s.itable dp).inum).type = .dir)
    (hrange : ∀ e ∈ (tree s (s.itable dp).inum).slots, e.inum < Superblock.ninodes)
    (hne : (s.itable dp).inum ≠ (s.itable p).inum)
    (hfind : (tree s (s.itable dp).inum).find name = none)
    (hfail : ∀ l s', DirOk s' R → Kept R s s' →
      tree s' = update (tree s) (s.itable p).inum ⟨type, 1, l⟩ →
      SameFiles (fun x => x ≠ (s.itable p).inum) s s' → Q false s')
    (hdone : ∀ k s', k ≤ (tree s (s.itable dp).inum).slots.length →
      (∀ e, (tree s (s.itable dp).inum).slots[k]? = some e → e.inum = 0) → DirOk s' R →
      Kept R s s' → tree s' = update (update (tree s) (s.itable p).inum
        (newNode type (s.itable p).inum (s.itable dp).inum)) (s.itable dp).inum
        { tree s (s.itable dp).inum with
          slots := placeAt (tree s (s.itable dp).inum).slots k ⟨(s.itable p).inum, cname name⟩ } →
      Q true s') : wp (createEntries dp p name type) Q E s := by
  have hlt := h.fs.range p hp
  have hle := Superblock.ninodes_le
  -- the entry in the parent, once the inode is as it should be
  have hlast : ∀ s1, DirOk s1 R → Kept R s s1 → tree s1 = update (tree s) (s.itable p).inum
      (newNode type (s.itable p).inum (s.itable dp).inum) →
      SameFiles (fun x => x ≠ (s.itable p).inum) s s1 →
      wp (dirlink dp name (s.itable p).inum) Q E s1 := by
    intro s1 h1 hk₁ ht1 hf1
    have hi1 := (hk₁ dp hdp).1
    have hnode1 : tree s1 (s.itable dp).inum = tree s (s.itable dp).inum := by
      rw [ht1, update_of_ne hne]
    refine wp_dirlink h1 hdp ((hk₁ dp hdp).2 hdv) ?_ ?_ (by omega) hE ?_ ?_ ?_
    · rw [hi1, hnode1, hdir]
    · rw [hi1, hnode1]
      exact hrange
    · rw [hi1, hnode1, hfind]
      exact fun e he => by cases he
    · intro s2 h2 hk2 ht2 hf2
      exact hfail _ s2 h2 (hk₁.trans hk2) (ht2.trans ht1) (hf1.trans (hf2.mono fun _ _ => trivial))
    · intro k s2 hk hempty _ h2 hk2 ht2 _
      rw [hi1, hnode1] at hk hempty ht2
      refine hdone k s2 hk hempty h2 (hk₁.trans hk2) ?_
      rw [ht2, ht1]
  rw [createEntries, wp_bind, wp_get, wp_bind]
  refine wp_ite (fun htype => ?_) fun htype => ?_
  · subst htype
    refine wp_createDots h hp hdp hv hj hE hnode (fun l s1 h1 hk₁ ht1 hf1 => ?_)
      fun s1 h1 hk₁ ht1 hf1 => ?_
    · exact wp_pure.2 (hfail l s1 h1 hk₁ ht1 hf1)
    · exact hlast s1 h1 hk₁ ht1 hf1
  · refine wp_pure.2 (hlast s h (.refl R s) ?_ fun _ _ hx => ⟨hx, rfl⟩)
    rw [newNode, if_neg htype, ← hnode, update_eq_self]

end Fs

end CsklubOs
