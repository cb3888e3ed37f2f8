/-
**Directories.**

The directories of `kernel/fs.c` and `isdirempty` of `kernel/sysfile.c`: files that consist of
entries of sixteen bytes.  Since a block holds a whole number of entries, `writei` writes an entry
as a whole or not at all.

Main definitions:

* `dirlookup`, `dirlink`, `isdirempty` — the functions;
* `tree` — a disk as a file system of names.

Main results:

* `wp_dirlookup`, `wp_writeEntry` — what they do there.
-/

import CsklubOs.FileBytes
import CsklubOs.NameTree

set_option autoImplicit false

namespace CsklubOs

open Function List Option Nat

namespace Fs

open Wp

variable [Superblock]

/-! ### The code -/

/-- Reading the entry at `off`; anything but sixteen bytes is the panic `e`. -/
def readDirent (dp : IPtr) (off : ℕ) (e : FsPanic) : FsM Dirent := do
  match ← readi dp off direntSize direntSize with
  | some bs => if bs.length = direntSize then pure (Dirent.decode bs) else throw e
  | none => throw e

/-- The loop of `dirlookup`. -/
def lookupLoop (dp : IPtr) (name : List UInt8) : ℕ → ℕ → FsM (Option (IPtr × ℕ))
  | 0, _ => pure none
  | fuel + 1, off => do
    let s ← get
    if off < (s.itable dp).d.size then do
      let de ← readDirent dp off .dirlookupRead
      if de.inum = 0 then lookupLoop dp name fuel (off + direntSize)
      else if namecmp name de.name = 0 then do
        let ip ← iget de.inum
        pure (some (ip, off))
      else lookupLoop dp name fuel (off + direntSize)
    else pure none

/-- `dirlookup`: the inode and the offset of the entry. -/
def dirlookup (dp : IPtr) (name : List UInt8) : FsM (Option (IPtr × ℕ)) := do
  let s ← get
  if (s.itable dp).d.type ≠ .dir then throw .dirlookupNotDir
  else lookupLoop dp name (s.itable dp).d.size 0

/-- The loop of `dirlink`, which looks for an empty entry. -/
def emptyLoop (dp : IPtr) : ℕ → ℕ → FsM ℕ
  | 0, off => pure off
  | fuel + 1, off => do
    let s ← get
    if off < (s.itable dp).d.size then do
      let de ← readDirent dp off .dirlinkRead
      if de.inum = 0 then pure off else emptyLoop dp fuel (off + direntSize)
    else pure off

def dirlink (dp : IPtr) (name : List UInt8) (inum : ℕ) : FsM Bool := do
  match ← dirlookup dp name with
  | some (ip, _) => do
    iput ip
    pure false
  | none => do
    let s ← get
    let off ← emptyLoop dp (s.itable dp).d.size 0
    let n ← writei dp (Dirent.bytes inum name) off direntSize
    pure (decide (n = some direntSize))

/-- The loop of `isdirempty`. -/
def isdiremptyLoop (dp : IPtr) : ℕ → ℕ → FsM Bool
  | 0, _ => pure true
  | fuel + 1, off => do
    let s ← get
    if off < (s.itable dp).d.size then do
      let de ← readDirent dp off .isdirempty
      if de.inum ≠ 0 then pure false else isdiremptyLoop dp fuel (off + direntSize)
    else pure true

def isdirempty (dp : IPtr) : FsM Bool := do
  let s ← get
  isdiremptyLoop dp (s.itable dp).d.size (2 * direntSize)

/-! ### The names on a disk -/

section

omit [Superblock]

/-- Entry `k` of a directory. -/
def direntAt (data : ℕ → Block) (d : Dinode) (k : ℕ) : Dirent :=
  Dirent.decode (fbytes data d (direntSize * k) direntSize)

/-- The entries of a directory. -/
def dirents (data : ℕ → Block) (d : Dinode) : List Dirent :=
  (List.range (d.size / direntSize)).map (direntAt data d)

/-- An inode that is in use, as the names see it. -/
def nodeOf (data : ℕ → Block) (d : Dinode) : Node :=
  ⟨d.type, d.nlink, if d.type = .dir then dirents data d else []⟩

end

/-- **The names on a disk.** -/
def tree (s : Fs) : NameTree := fun i =>
  if i < Superblock.ninodes ∧ (s.dinode i).type ≠ .free then nodeOf s.data (s.dinode i) else
    Node.free

variable {s s' : Fs} {p dp : IPtr} {E : FsPanic → Prop} {R : Multiset IPtr} {i j k : ℕ}
  {name : List UInt8}

theorem tree_of_allocated (h : Allocated s.dinode i) : tree s i = nodeOf s.data (s.dinode i) :=
  if_pos h

theorem tree_of_not_allocated (h : ¬ Allocated s.dinode i) : tree s i = Node.free :=
  if_neg h

theorem tree_congr (h : SameDisk s s') : tree s' = tree s := by
  unfold tree
  rw [h.data, h.dinode]

theorem allocated_of_tree (h : (tree s i).type ≠ .free) : Allocated s.dinode i := by
  by_contra hno
  rw [tree_of_not_allocated hno] at h
  exact h rfl

theorem allocated_iff : Allocated s.dinode i ↔ (tree s i).type ≠ .free := by
  refine ⟨fun h => ?_, allocated_of_tree⟩
  rw [tree_of_allocated h]
  exact h.2

/-- The invariant of the inode layer, with directories of whole entries. -/
structure DirOk (s : Fs) (R : Multiset IPtr) : Prop where
  fs : FsOk s R
  sizes : ∀ i, Allocated s.dinode i → (s.dinode i).type = .dir → direntSize ∣ (s.dinode i).size

theorem DirOk.congr {R' : Multiset IPtr} (h : DirOk s R) (hs : SameDisk s s') (h' : FsOk s' R') :
    DirOk s' R' := by
  refine ⟨h', fun i => ?_⟩
  rw [hs.dinode]
  exact h.sizes i

/-- The inodes that the references `R` are to. -/
def inUse (s : Fs) (R : Multiset IPtr) (i : ℕ) : Prop := ∃ p ∈ R, (s.itable p).inum = i

omit [Superblock] in
theorem Kept.inUse (h : Kept R s s') : inUse s' R = inUse s R := by
  funext i
  refine propext ⟨?_, ?_⟩
  · rintro ⟨p, hp, hi⟩
    exact ⟨p, hp, (h p hp).1.symm.trans hi⟩
  · rintro ⟨p, hp, hi⟩
    exact ⟨p, hp, (h p hp).1.trans hi⟩

theorem DirOk.node (h : DirOk s R) (hp : p ∈ R) (hv : (s.itable p).valid = true) :
    tree s (s.itable p).inum = nodeOf s.data (s.dinode (s.itable p).inum) :=
  tree_of_allocated (h.fs.allocated hp hv)

theorem DirOk.type_eq (h : DirOk s R) (hp : p ∈ R) (hv : (s.itable p).valid = true) :
    (s.itable p).d.type = (tree s (s.itable p).inum).type := by
  rw [h.node hp hv, (h.fs.sync p hp hv).1]
  rfl

omit [Superblock] in
@[simp] theorem length_dirents (data : ℕ → Block) (d : Dinode) :
    (dirents data d).length = d.size / direntSize := by
  rw [dirents, length_map, length_range]

variable {d : Dinode} {e : FsPanic} {Q : Option (IPtr × ℕ) → Fs → Prop} {tot : ℕ} {src : List UInt8}
  {A : ℕ → Prop}

omit [Superblock] in
theorem getElem?_dirents {data : ℕ → Block} (hk : k < d.size / direntSize) :
    (dirents data d)[k]? = some (direntAt data d k) := by
  rw [dirents, List.getElem?_map, List.getElem?_range hk]
  rfl

section

variable (h : DirOk s R) (hp : p ∈ R) (hv : (s.itable p).valid = true)
  (hdir : (tree s (s.itable p).inum).type = .dir)

include h hp hv hdir

theorem DirOk.slots :
    (tree s (s.itable p).inum).slots = dirents s.data (s.dinode (s.itable p).inum) := by
  rw [h.node hp hv] at hdir ⊢
  exact if_pos hdir

theorem DirOk.length_slots :
    direntSize * (tree s (s.itable p).inum).slots.length = (s.itable p).d.size := by
  have hd := (h.fs.sync p hp hv).1
  rw [h.slots hp hv hdir, length_dirents, hd]
  refine Nat.mul_div_cancel' (h.sizes _ (h.fs.allocated hp hv) ?_)
  rw [← hd, h.type_eq hp hv, hdir]

end

/-! ### Directories that are held -/

omit [Superblock] in
/-- The entries of the directory that `p` refers to. -/
def slotsAt (s : Fs) (p : IPtr) : List Dirent := dirents s.data (s.itable p).d

/-- The directory that `p` refers to can be read and written, whatever the rest of the table. -/
structure DirHeld (p : IPtr) (s : Fs) : Prop where
  ok : EffOk p s
  dir : (s.itable p).d.type = .dir
  whole : direntSize ∣ (s.itable p).d.size

theorem DirHeld.length_slots (h : DirHeld p s) :
    direntSize * (slotsAt s p).length = (s.itable p).d.size := by
  rw [slotsAt, length_dirents, Nat.mul_div_cancel' h.whole]

theorem DirHeld.mapped (h : DirHeld p s) {bn : ℕ} (hbn : bn * bSize < (s.itable p).d.size) :
    blockNo s.data (s.itable p).d bn ≠ 0 := by
  have hm := h.ok.disk.mapped _ h.ok.alloc bn
  rw [eff_self] at hm
  exact hm hbn

theorem DirHeld.size_le (h : DirHeld p s) : (s.itable p).d.size ≤ maxFile * bSize := by
  by_contra hlt
  refine h.mapped (not_le.1 hlt) ?_
  rfl

omit [Superblock] in
theorem DirHeld.cname_slots {e : Dirent} (h : (slotsAt s p)[k]? = some e) :
    cname e.name = e.name := by
  obtain ⟨hlt, -⟩ := List.getElem?_eq_some_iff.1 h
  rw [slotsAt, length_dirents] at hlt
  rw [slotsAt, getElem?_dirents hlt, some_inj] at h
  rw [← h]
  exact Dirent.cname_decode _

theorem DirOk.held (h : DirOk s R) (hp : p ∈ R) (hv : (s.itable p).valid = true)
    (hdir : (tree s (s.itable p).inum).type = .dir) :
    DirHeld p s ∧ slotsAt s p = (tree s (s.itable p).inum).slots := by
  have hd := (h.fs.sync p hp hv).1
  refine ⟨⟨h.fs.effOk hp hv, by rw [h.type_eq hp hv, hdir], ?_⟩, ?_⟩
  · rw [← h.length_slots hp hv hdir]
    exact dvd_mul_right _ _
  · rw [h.slots hp hv hdir, slotsAt, hd]

/-! ### Reading entries -/

theorem wp_readDirent_mapped {Q : Dirent → Fs → Prop}
    (hsize : direntSize * (k + 1) ≤ (s.itable p).d.size) (hfit : direntSize * (k + 1) < 2 ^ 32)
    (hmapped : ∀ bn, bn * bSize < direntSize * (k + 1) → blockNo s.data (s.itable p).d bn ≠ 0)
    (hQ : Q (direntAt s.data (s.itable p).d k) s) : wp (readDirent p (direntSize * k) e) Q E s := by
  rw [mul_succ] at hsize hfit hmapped
  rw [readDirent, wp_bind]
  refine wp_readi_mapped (fun bn hbn => hmapped bn (by omega)) ?_
  have hmin : min direntSize ((s.itable p).d.size - direntSize * k) = direntSize :=
    min_eq_left (by omega)
  rw [readResult, if_neg (by omega), hmin]
  exact wp_ite (fun _ => wp_pure.2 hQ) fun hne => absurd (length_fbytes ..) hne

theorem wp_readDirent {Q : Dirent → Fs → Prop} {de : Dirent} (h : DirHeld p s)
    (hk : (slotsAt s p)[k]? = some de) (hQ : Q de s) :
    wp (readDirent p (direntSize * k) e) Q E s := by
  obtain ⟨hlt, -⟩ := List.getElem?_eq_some_iff.1 hk
  have hmax : maxFile * bSize < 2 ^ 32 := by decide
  have hsize := h.size_le
  have hfit : direntSize * (k + 1) ≤ (s.itable p).d.size := by
    rw [← h.length_slots]
    exact mul_le_mul_left _ hlt
  refine wp_readDirent_mapped hfit (by omega) (fun bn hbn => h.mapped (by omega)) ?_
  rw [slotsAt, length_dirents] at hlt
  rw [slotsAt, getElem?_dirents hlt, some_inj] at hk
  rwa [hk]

theorem wp_eachDirent {α : Type} {Q : α → Fs → Prop} {body : Dirent → FsM α} {out : FsM α}
    (h : DirHeld p s) (hout : (slotsAt s p).length ≤ k → wp out Q E s)
    (hbody : ∀ de, (slotsAt s p)[k]? = some de → wp (body de) Q E s) :
    wp (do
      let s ← get
      if direntSize * k < (s.itable p).d.size then do
        let de ← readDirent p (direntSize * k) e
        body de
      else out) Q E s := by
  have hlen := h.length_slots
  rw [wp_bind, wp_get]
  refine wp_ite (fun hlt => ?_) fun hge => hout ?_
  · rw [← hlen] at hlt
    have hget := List.getElem?_eq_getElem (Nat.lt_of_mul_lt_mul_left hlt)
    exact wp_bind.2 (wp_readDirent h hget (hbody _ hget))
  · rw [← hlen] at hge
    exact le_of_mul_le_mul_left (not_lt.1 hge) (by decide)

theorem wp_lookupLoop (h : DirHeld p s)
    (hnone : (∀ e ∈ slotsAt s p, ¬ (e.inum ≠ 0 ∧ e.name = cname name)) → Q none s)
    (hsome : ∀ k e, (slotsAt s p)[k]? = some e → (e.inum ≠ 0 ∧ e.name = cname name) →
      (∀ m x, m < k → (slotsAt s p)[m]? = some x → ¬ (x.inum ≠ 0 ∧ x.name = cname name)) →
      wp (iget e.inum) (fun q s' => Q (some (q, direntSize * k)) s') E s) :
    ∀ fuel k, (slotsAt s p).length ≤ fuel + k →
      (∀ m x, m < k → (slotsAt s p)[m]? = some x → ¬ (x.inum ≠ 0 ∧ x.name = cname name)) →
      wp (lookupLoop p name fuel (direntSize * k)) Q E s := by
  have hdone : ∀ k, (slotsAt s p).length ≤ k → (∀ m x, m < k → (slotsAt s p)[m]? = some x →
      ¬ (x.inum ≠ 0 ∧ x.name = cname name)) → Q none s := by
    intro k hk hno
    refine hnone fun e he => ?_
    obtain ⟨m, hm⟩ := mem_iff_getElem?.1 he
    exact hno m e (lt_of_lt_of_le (List.getElem?_eq_some_iff.1 hm).1 hk) hm
  intro fuel
  induction fuel with
  | zero =>
    intro k hk hno
    exact wp_pure.2 (hdone k (by omega) hno)
  | succ fuel ih =>
    intro k hk hno
    refine wp_eachDirent h (fun hge => wp_pure.2 (hdone k hge hno)) fun de hde => ?_
    -- the entry does not match, and the loop goes on
    have hnext : ¬ (de.inum ≠ 0 ∧ de.name = cname name) →
        wp (lookupLoop p name fuel (direntSize * k + direntSize)) Q E s := by
      intro hmiss
      refine ih (k + 1) (by omega) fun m x hm hx => ?_
      rcases Nat.lt_succ_iff_lt_or_eq.1 hm with hm | rfl
      · exact hno m x hm hx
      · rw [hde, some_inj] at hx
        exact hx ▸ hmiss
    have hname : namecmp name de.name = 0 ↔ de.name = cname name := by
      rw [namecmp_eq_zero, DirHeld.cname_slots hde]
      exact eq_comm
    refine wp_ite (fun hzero => hnext fun hx => hx.1 hzero) fun hlive => ?_
    refine wp_ite (fun hcmp => ?_) fun hcmp => hnext fun hx => hcmp (hname.2 hx.2)
    exact wp_bind.2 ((hsome k de hde ⟨hlive, hname.1 hcmp⟩ hno).mono fun q s' hq => wp_pure.2 hq)

/-- **`dirlookup`** finds the first entry with the name, and calls `iget` for its inode. -/
theorem wp_dirlookup_held (h : DirHeld p s)
    (hnone : (slotsAt s p).find? (fun e => e.inum ≠ 0 ∧ e.name = cname name) = none → Q none s)
    (hsome : ∀ k e, (slotsAt s p)[k]? = some e → e.inum ≠ 0 → e.name = cname name →
      (slotsAt s p).find? (fun e => e.inum ≠ 0 ∧ e.name = cname name) = some e →
      wp (iget e.inum) (fun q s' => Q (some (q, direntSize * k)) s') E s) :
    wp (dirlookup p name) Q E s := by
  rw [dirlookup, wp_bind, wp_get, if_neg (by rw [h.dir]; exact fun hne => hne rfl)]
  refine wp_lookupLoop h (fun hno => hnone ?_) (fun k e hk he hno => ?_) _ 0 ?_ ?_
  · exact List.find?_eq_none.2 fun e he hx => hno e he (of_decide_eq_true hx)
  · refine hsome k e hk he.1 he.2 ?_
    obtain ⟨hlt, hget⟩ := List.getElem?_eq_some_iff.1 hk
    refine List.find?_eq_some_iff_getElem.2 ⟨decide_eq_true he, k, hlt, hget, fun m hm => ?_⟩
    rw [Bool.not_eq_true', decide_eq_false_iff_not]
    exact hno m _ hm (List.getElem?_eq_getElem _)
  · rw [← h.length_slots]
    exact Nat.le_mul_of_pos_left _ (by decide)
  · exact fun m x hm => absurd hm (not_lt_zero m)

/-- **`dirlookup`** finds the first entry with the name, and takes a reference to its inode. -/
theorem wp_dirlookup (h : DirOk s R) (hp : p ∈ R) (hv : (s.itable p).valid = true)
    (hdir : (tree s (s.itable p).inum).type = .dir)
    (hrange : ∀ e ∈ (tree s (s.itable p).inum).slots, e.inum < Superblock.ninodes)
    (hE : (∀ q, q ∈ R) → E .igetNoInodes)
    (hnone : (tree s (s.itable p).inum).find name = none → Q none s)
    (hsome : ∀ k e q s', (tree s (s.itable p).inum).slots[k]? = some e → e.inum ≠ 0 →
      e.name = cname name → (tree s (s.itable p).inum).find name = some e →
      DirOk s' (q ::ₘ R) → Kept R s s' → SameDisk s s' → (s'.itable q).inum = e.inum →
      ((s'.itable q).valid = true → q ∈ R ∧ (s.itable q).valid = true) →
      Q (some (q, direntSize * k)) s') : wp (dirlookup p name) Q E s := by
  obtain ⟨hheld, hslots⟩ := h.held hp hv hdir
  rw [← hslots] at hrange hsome
  rw [Node.find, ← hslots] at hnone hsome
  refine wp_dirlookup_held hheld hnone fun k e hk hlive hname hfind => ?_
  refine wp_iget h.fs (hrange e (mem_of_getElem? hk)) hE fun q s' h' hk' hd' hi' hnew => ?_
  exact hsome k e q s' hk hlive hname hfind (h.congr hd' h') hk' hd' hi' hnew

/-! ### Writing entries -/

omit [Superblock] in
theorem write_whole (hle : tot ≤ direntSize)
    (hcut : tot = 0 ∨ tot = direntSize ∨ (direntSize * k + tot) % bSize = 0) :
    tot = 0 ∨ tot = direntSize := by
  have hmul : direntSize * k = 16 * k := rfl
  have h16 : direntSize = 16 := rfl
  have hb : bSize = 1024 := rfl
  rw [hb] at hcut
  omega

omit [Superblock] in
theorem map_getD_range (l : List UInt8) : (List.range l.length).map (fun b => l.getD b 0) = l := by
  refine ext_getElem (by simp) fun b h1 h₂ => ?_
  rw [getElem_map, getElem_range, getD_eq_getElem _ _ h₂]

theorem nodeOf_others (h : DirOk s R) {P : ℕ → ℕ → Prop} (hi : Allocated s.dinode i)
    (hd : s'.dinode i = s.dinode i) (hP : ∀ bn, P i bn)
    (hkeep : Keeps P s.data s.dinode s'.data s'.dinode) :
    nodeOf s'.data (s'.dinode i) = nodeOf s.data (s.dinode i) := by
  rw [nodeOf, nodeOf, hd]
  split
  · refine congrArg (Node.mk _ _) (map_congr_left fun m hm => congrArg Dirent.decode ?_)
    have hm' : m < (s.dinode i).size / direntSize := mem_range.1 hm
    refine map_congr_left fun b hb => ?_
    have hb' : b < direntSize := mem_range.1 hb
    -- the byte is in a block below the size, which is mapped
    have hx : direntSize * m + b < (s.dinode i).size := by
      have := div_mul_le_self (s.dinode i).size direntSize
      have hmul := mul_le_mul_left direntSize hm'
      rw [mul_succ] at hmul
      rw [mul_comm] at this
      omega
    have hbyte := hkeep.fbyte hi (hP ((direntSize * m + b) / bSize)) (h.fs.disk.mapped i hi _
      (lt_of_le_of_lt (div_mul_le_self _ _) hx))
    rwa [hd] at hbyte
  · rfl

omit [Superblock] in
theorem dirents_written {data data' : ℕ → Block} {d' : Dinode} (hsrc : src.length = direntSize)
    (hsize : direntSize ∣ d.size) (hk : k ≤ (dirents data d).length)
    (htot : tot = 0 ∨ tot = direntSize) (hd' : d'.size = max d.size (direntSize * k + tot))
    (hbytes : ∀ x, x < d'.size → fbyte data' d' x =
      if direntSize * k ≤ x ∧ x < direntSize * k + tot then src.getD (x - direntSize * k) 0
      else fbyte data d x) :
    dirents data' d' = if tot = direntSize then placeAt (dirents data d) k (Dirent.decode src)
      else dirents data d := by
  have h16 : direntSize = 16 := rfl
  have hmul : ∀ x, direntSize * x = 16 * x := fun _ => rfl
  rw [length_dirents] at hk
  obtain ⟨n, hn⟩ := hsize
  rw [hn, Nat.mul_div_cancel_left _ (by decide)] at hk
  -- an entry that is not the one that was written
  have hother : ∀ m, direntSize * m + direntSize ≤ d'.size → m ≠ k ∨ tot = 0 →
      direntAt data' d' m = direntAt data d m := by
    intro m hm hne
    refine congrArg Dirent.decode (map_congr_left fun b hb => ?_)
    have hb' : b < direntSize := mem_range.1 hb
    rw [hbytes _ (by omega), if_neg]
    rw [hmul, hmul]
    rcases htot with htot | htot <;> rcases hne with hne | hne <;> omega
  refine ext_getElem? fun m => ?_
  rcases htot with rfl | rfl
  · have hlen : d'.size = direntSize * n := by
      rw [hd', hn, hmul, hmul]
      omega
    rw [if_neg (by decide), dirents, dirents, hlen, hn, Nat.mul_div_cancel_left _ (by decide),
      List.getElem?_map, List.getElem?_map]
    by_cases hm : m < n
    · rw [List.getElem?_range hm]
      refine congrArg some (hother m ?_ (.inr rfl))
      rw [hlen, hmul, hmul]
      omega
    · rw [List.getElem?_eq_none (by simpa using hm)]
      rfl
  · have hlen : d'.size = direntSize * max n (k + 1) := by
      rw [hd', hn, hmul, hmul, hmul]
      omega
    have hcount : d'.size / direntSize = max n (k + 1) := by
      rw [hlen, Nat.mul_div_cancel_left _ (by decide)]
    have hcount0 : d.size / direntSize = n := by
      rw [hn, Nat.mul_div_cancel_left _ (by decide)]
    have hself : direntAt data' d' k = Dirent.decode src := by
      refine congrArg Dirent.decode ?_
      rw [← map_getD_range src, hsrc]
      refine map_congr_left fun b hb => ?_
      have hb' : b < direntSize := mem_range.1 hb
      rw [hbytes _ (by omega), if_pos ⟨le_add_right _ _, by omega⟩,
        Nat.add_sub_cancel_left]
    rw [if_pos rfl, getElem?_placeAt (by rw [length_dirents, hcount0]; exact hk)]
    by_cases hmk : m = k
    · rw [if_pos hmk, hmk, getElem?_dirents (by omega), hself]
    · rw [if_neg hmk]
      by_cases hm : m < n
      · rw [getElem?_dirents (by omega), getElem?_dirents (by rw [hcount0]; exact hm)]
        refine congrArg some (hother m ?_ (.inl hmk))
        rw [hlen, hmul, hmul]
        omega
      · have hnew : (dirents data' d')[m]? = none :=
          List.getElem?_eq_none (by rw [length_dirents]; omega)
        have hold : (dirents data d)[m]? = none :=
          List.getElem?_eq_none (by rw [length_dirents]; omega)
        rw [hnew, hold]

/-- **What `writei` of an entry does to the names.** -/
theorem WriteDone.names (hw : WriteDone p src (direntSize * k) direntSize tot s s') (h : DirOk s R)
    (hp : p ∈ R) (hv : (s.itable p).valid = true) (hdir : (tree s (s.itable p).inum).type = .dir)
    (hsrc : src.length = direntSize) (hk : k ≤ (tree s (s.itable p).inum).slots.length)
    (h' : FsOk s' R) :
    DirOk s' R ∧ tree s' = if tot = direntSize then
      update (tree s) (s.itable p).inum { tree s (s.itable p).inum with
        slots := placeAt (tree s (s.itable p).inum).slots k (Dirent.decode src) } else tree s := by
  have htot := write_whole hw.le hw.cut
  have halloc := h.fs.allocated hp hv
  have hslots := h.slots hp hv hdir
  have hdisk : (s.dinode (s.itable p).inum).type = .dir := by
    rw [← (h.fs.sync p hp hv).1, h.type_eq hp hv, hdir]
  have hwhole := h.sizes _ halloc hdisk
  obtain ⟨a, hn⟩ := hw.dinode
  have hother : ∀ j, j ≠ (s.itable p).inum → s'.dinode j = s.dinode j := by
    intro j hj
    rw [hn, update_of_ne hj]
  have hself : s'.dinode (s.itable p).inum = { s.dinode (s.itable p).inum with
      size := max (s.dinode (s.itable p).inum).size (direntSize * k + tot), addrs := a } := by
    rw [hn, update_self]
  have hallocs : ∀ j, Allocated s'.dinode j ↔ Allocated s.dinode j := by
    intro j
    by_cases hj : j = (s.itable p).inum
    · rw [Allocated, Allocated, hj, hself]
    · rw [Allocated, Allocated, hother j hj]
  have hbytes := hw.bytes (by rw [hsrc])
  rw [hslots] at hk
  have hdirents : dirents s'.data (s'.dinode (s.itable p).inum) = _ :=
    dirents_written hsrc hwhole hk htot (by rw [hself]) hbytes
  refine ⟨⟨h', fun j hj hjdir => ?_⟩, ?_⟩
  · rw [hallocs] at hj
    by_cases hjp : j = (s.itable p).inum
    · have hoff : direntSize ∣ direntSize * k + tot := by
        rcases htot with rfl | rfl
        · exact dvd_mul_right _ _
        · exact (Nat.dvd_add_right (Nat.dvd_mul_right _ _)).2 dvd_rfl
      rw [hjp, hself]
      rcases max_choice (s.dinode (s.itable p).inum).size (direntSize * k + tot) with hmax | hmax
      · rwa [hmax]
      · rwa [hmax]
    · rw [hother j hjp] at hjdir ⊢
      exact h.sizes j hj hjdir
  · -- the directory has the new entries, the other inodes are as before
    have hnode : tree s' (s.itable p).inum = if tot = direntSize then
        { tree s (s.itable p).inum with
          slots := placeAt (tree s (s.itable p).inum).slots k (Dirent.decode src) }
        else tree s (s.itable p).inum := by
      rw [tree_of_allocated ((hallocs _).2 halloc), h.node hp hv, nodeOf, hdirents, nodeOf, hself]
      rw [hdisk, if_pos rfl]
      split <;> rfl
    have hrest : ∀ j, j ≠ (s.itable p).inum → tree s' j = tree s j := by
      intro j hj
      by_cases hja : Allocated s.dinode j
      · rw [tree_of_allocated ((hallocs j).2 hja), tree_of_allocated hja]
        exact nodeOf_others h hja (hother j hj) (fun _ => hj) hw.others
      · rw [tree_of_not_allocated hja, tree_of_not_allocated fun hj' => hja ((hallocs j).1 hj')]
    funext j
    by_cases hj : j = (s.itable p).inum
    · rw [hj, hnode]
      split
      · rw [update_self]
      · rfl
    · rw [hrest j hj]
      split
      · rw [update_of_ne hj]
      · rfl

/-! ### Files that are left alone -/

/-- The files of which `A` holds are there still, with the bytes they had. -/
def SameFiles (A : ℕ → Prop) (s s' : Fs) : Prop :=
  ∀ i, A i → Allocated s.dinode i → Allocated s'.dinode i ∧ contents s' i = contents s i

theorem SameFiles.trans {s1 : Fs} (h : SameFiles A s s1) (h' : SameFiles A s1 s') :
    SameFiles A s s' := by
  intro i hA hi
  obtain ⟨hi1, hc1⟩ := h i hA hi
  obtain ⟨hi', hc'⟩ := h' i hA hi1
  exact ⟨hi', hc'.trans hc1⟩

theorem SameFiles.mono {B : ℕ → Prop} (h : SameFiles A s s') (hAB : ∀ i, B i → A i) :
    SameFiles B s s' := fun i hB => h i (hAB i hB)

theorem SameDisk.files (h : SameDisk s s') : SameFiles A s s' := by
  intro i _ hi
  rw [contents, h.data, h.dinode]
  exact ⟨hi, rfl⟩

theorem sameFiles_update (hdata : s'.data = s.data) (hn : s'.dinode = update s.dinode i d) :
    SameFiles (fun j => j ≠ i) s s' := by
  intro j hj hja
  have hsame : s'.dinode j = s.dinode j := by rw [hn, update_of_ne hj]
  rw [Allocated, contents, hdata, hsame]
  exact ⟨hja, rfl⟩

theorem sameFiles_setLinks {x : ℤ} (hdata : s'.data = s.data)
    (hn : s'.dinode = update s.dinode i { s.dinode i with nlink := x }) : SameFiles A s s' := by
  intro j _ hja
  by_cases hj : j = i
  · subst hj
    have hself : s'.dinode j = { s.dinode j with nlink := x } := by rw [hn, update_self]
    rw [Allocated, contents, hdata, hself]
    refine ⟨hja, map_congr_left fun y _ => ?_⟩
    have haddrs : ({ s.dinode j with nlink := x } : Dinode).addrs = (s.dinode j).addrs := rfl
    rw [fbyte, blockNo_congr haddrs, fbyte]
  · exact sameFiles_update hdata hn j hj hja

theorem WriteDone.files {off n : ℕ} (hw : WriteDone p src off n tot s s') (h : FsOk s R) :
    SameFiles (fun j => j ≠ (s.itable p).inum) s s' := by
  obtain ⟨a, hn⟩ := hw.dinode
  intro j hj hja
  have hsame : s'.dinode j = s.dinode j := by rw [hn, update_of_ne hj]
  refine ⟨?_, contents_of_keeps h.disk hw.others hsame hja hj⟩
  rw [Allocated, hsame]
  exact hja

theorem WriteDone.files_of_zero {off n : ℕ} (hw : WriteDone p src off n 0 s s') (h : FsOk s R)
    (hsrc : n ≤ src.length) (hoff : off ≤ (s.dinode (s.itable p).inum).size) :
    SameFiles (fun _ => True) s s' := by
  intro j _ hja
  by_cases hj : j = (s.itable p).inum
  · obtain ⟨a, hn⟩ := hw.dinode
    subst hj
    have hself : s'.dinode (s.itable p).inum = { s.dinode (s.itable p).inum with addrs := a } := by
      rw [hn, update_self, add_zero, max_eq_left hoff]
    refine ⟨by rw [Allocated, hself]; exact hja, ?_⟩
    have hsize : (s'.dinode (s.itable p).inum).size =
      (s.dinode (s.itable p).inum).size := by rw [hself]
    rw [contents, hsize]
    refine map_congr_left fun x hx => ?_
    have hlt : 0 + x < (s'.dinode (s.itable p).inum).size := by
      rw [zero_add, hsize]
      exact mem_range.1 hx
    rw [hw.bytes hsrc _ hlt, if_neg (by omega)]
  · exact hw.files h j hj hja

/-- **Writing an entry**: it is written as a whole, or the names and all bytes are as before. -/
theorem wp_writeEntry {Q : Option ℕ → Fs → Prop} (h : DirOk s R) (hp : p ∈ R)
    (hv : (s.itable p).valid = true) (hdir : (tree s (s.itable p).inum).type = .dir)
    (hsrc : src.length = direntSize) (hk : k ≤ (tree s (s.itable p).inum).slots.length)
    (hfail : ∀ n s', n ≠ some direntSize → DirOk s' R → Kept R s s' → tree s' = tree s →
      SameFiles (fun _ => True) s s' → Q n s')
    (hdone : ∀ s', DirOk s' R → Kept R s s' → tree s' = update (tree s) (s.itable p).inum
      { tree s (s.itable p).inum with
        slots := placeAt (tree s (s.itable p).inum).slots k (Dirent.decode src) } →
      SameFiles (fun j => j ≠ (s.itable p).inum) s s' → Q (some direntSize) s') :
    wp (writei p src (direntSize * k) direntSize) Q E s := by
  refine wp_writei h.fs hp hv (fun _ => ?_) fun tot s' h' hkept hw => ?_
  · exact hfail none s (nofun) h (.refl R s) rfl fun _ _ hi => ⟨hi, rfl⟩
  · obtain ⟨hok, htree⟩ := hw.names h hp hv hdir hsrc hk h'
    by_cases htot : tot = direntSize
    · rw [if_pos htot] at htree
      have hfiles := hw.files h.fs
      rw [htot]
      exact hdone s' hok hkept htree hfiles
    · rw [if_neg htot] at htree
      refine hfail (some tot) s' (fun hn => htot (some_inj.1 hn)) hok hkept htree ?_
      have hzero := (write_whole hw.le hw.cut).resolve_right htot
      subst hzero
      refine hw.files_of_zero h.fs hsrc.ge ?_
      rw [h.slots hp hv hdir] at hk
      rw [length_dirents] at hk
      exact le_trans (mul_le_mul_left _ hk) (mul_div_le _ _)

/-! ### Dropping references without freeing -/

omit [Superblock] in
/-- Dropping a reference to inode `i`, when the inodes of `u` are otherwise in use, does not free
it. -/
def Safe (t : NameTree) (u : ℕ → Prop) (i : ℕ) : Prop :=
  u i ∨ (t i).nlink ≠ 0 ∨ (t i).type = .free

theorem not_lastRef (h : FsOk s (p ::ₘ R)) (hsafe : Safe (tree s) (inUse s R) (s.itable p).inum) :
    ¬ LastRef s R p := by
  rintro ⟨hpR, hv, hlink⟩
  have hp : p ∈ p ::ₘ R := Multiset.mem_cons_self p R
  have halloc := h.allocated hp hv
  rcases hsafe with ⟨q, hq, hqi⟩ | hne | hfree
  · exact hpR (h.uniq q (Multiset.mem_cons_of_mem hq) p hp hqi ▸ hq)
  · rw [tree_of_allocated halloc] at hne
    exact hne hlink
  · exact allocated_iff.1 halloc hfree

theorem wp_iput_safe {Q : Unit → Fs → Prop} (h : DirOk s (p ::ₘ R))
    (hsafe : Safe (tree s) (inUse s R) (s.itable p).inum)
    (hQ : ∀ s', DirOk s' R → Kept R s s' → SameDisk s s' → Q () s') : wp (iput p) Q E s := by
  refine wp_iput h.fs (fun _ s' h' hk' hd' => hQ s' (h.congr hd' h') hk' hd') fun hlast => ?_
  exact absurd hlast (not_lastRef h.fs hsafe)

/-! ### Adding an entry -/

theorem wp_emptyLoop {Q : ℕ → Fs → Prop} (h : DirHeld p s)
    (hQ : ∀ k, k ≤ (slotsAt s p).length → (∀ e, (slotsAt s p)[k]? = some e → e.inum = 0) →
      (∀ m e, m < k → (slotsAt s p)[m]? = some e → e.inum ≠ 0) → Q (direntSize * k) s) :
    ∀ fuel k, (slotsAt s p).length ≤ fuel + k → k ≤ (slotsAt s p).length →
      (∀ m e, m < k → (slotsAt s p)[m]? = some e → e.inum ≠ 0) →
      wp (emptyLoop p fuel (direntSize * k)) Q E s := by
  have hend : ∀ k, k = (slotsAt s p).length →
      (∀ m e, m < k → (slotsAt s p)[m]? = some e → e.inum ≠ 0) → Q (direntSize * k) s := by
    intro k hk hlive
    refine hQ k hk.le (fun e he => ?_) hlive
    rw [List.getElem?_eq_none hk.ge] at he
    cases he
  intro fuel
  induction fuel with
  | zero =>
    intro k hk hle hlive
    exact wp_pure.2 (hend k (by omega) hlive)
  | succ fuel ih =>
    intro k hk hle hlive
    refine wp_eachDirent h (fun hge => wp_pure.2 (hend k (by omega) hlive)) fun de hde => ?_
    refine wp_ite (fun hzero => wp_pure.2 (hQ k hle (fun e he => ?_) hlive)) fun hne => ?_
    · rw [hde, some_inj] at he
      rw [← he, hzero]
    · refine ih (k + 1) (by omega) (List.getElem?_eq_some_iff.1 hde).1 fun m e hm he => ?_
      rcases Nat.lt_succ_iff_lt_or_eq.1 hm with hm | rfl
      · exact hlive m e hm he
      · rw [hde, some_inj] at he
        rwa [← he]

theorem wp_dirlink {Q : Bool → Fs → Prop} {inum : ℕ} (h : DirOk s R) (hp : p ∈ R)
    (hv : (s.itable p).valid = true) (hdir : (tree s (s.itable p).inum).type = .dir)
    (hrange : ∀ e ∈ (tree s (s.itable p).inum).slots, e.inum < Superblock.ninodes)
    (hinum : inum < 2 ^ 16) (hE : E .igetNoInodes)
    (hsafe : ∀ e, (tree s (s.itable p).inum).find name = some e → Safe (tree s) (inUse s R) e.inum)
    (hfail : ∀ s', DirOk s' R → Kept R s s' → tree s' = tree s → SameFiles (fun _ => True) s s' →
      Q false s') (hdone : ∀ k s', k ≤ (tree s (s.itable p).inum).slots.length →
      (∀ e, (tree s (s.itable p).inum).slots[k]? = some e → e.inum = 0) →
      (tree s (s.itable p).inum).find name = none → DirOk s' R → Kept R s s' →
      tree s' = update (tree s) (s.itable p).inum { tree s (s.itable p).inum with
        slots := placeAt (tree s (s.itable p).inum).slots k ⟨inum, cname name⟩ } →
      SameFiles (fun j => j ≠ (s.itable p).inum) s s' → Q true s') :
    wp (dirlink p name inum) Q E s := by
  obtain ⟨hheld, hslots⟩ := h.held hp hv hdir
  rw [dirlink, wp_bind]
  refine wp_dirlookup h hp hv hdir hrange (fun _ => hE) (fun hfind => ?_) ?_
  · refine wp_bind.2 (wp_get.2 (wp_bind.2 ?_))
    refine wp_emptyLoop hheld (fun k hk hempty _ => wp_bind.2 ?_) _ 0 ?_ (zero_le _)
      fun m e hm => absurd hm (not_lt_zero m)
    · rw [hslots] at hk hempty
      refine wp_writeEntry h hp hv hdir (Dirent.length_bytes inum name) hk ?_ ?_
      · intro n s' hn h' hk' ht' hf'
        refine wp_pure.2 ?_
        rw [decide_eq_false hn]
        exact hfail s' h' hk' ht' hf'
      · intro s' h' hk' ht' hf'
        rw [Dirent.decode_bytes hinum] at ht'
        exact wp_pure.2 (hdone k s' hk hempty hfind h' hk' ht' hf')
    · rw [← hheld.length_slots]
      exact Nat.le_mul_of_pos_left _ (by decide)
  · intro k e q s1 _ _ _ hfind h1 hk1 hd1 hi1 _
    refine wp_bind.2 (wp_iput_safe h1 ?_ fun s2 h₂ hk2 hd2 => wp_pure.2 ?_)
    · rw [tree_congr hd1, hk1.inUse, hi1]
      exact hsafe e hfind
    · exact hfail s2 h₂ (hk1.trans hk2) (tree_congr (hd1.trans hd2)) (hd1.trans hd2).files

/-! ### Empty directories -/

theorem wp_isdirempty {Q : Bool → Fs → Prop} (h : DirOk s R) (hp : p ∈ R)
    (hv : (s.itable p).valid = true) (hdir : (tree s (s.itable p).inum).type = .dir)
    (hempty : (∀ e ∈ (tree s (s.itable p).inum).slots.drop 2, e.inum = 0) → Q true s)
    (hnot : Q false s) : wp (isdirempty p) Q E s := by
  obtain ⟨hheld, hslots⟩ := h.held hp hv hdir
  rw [← hslots] at hempty
  have hloop : ∀ fuel k, (slotsAt s p).length ≤ fuel + k →
      (∀ m e, 2 ≤ m → m < k → (slotsAt s p)[m]? = some e → e.inum = 0) →
      wp (isdiremptyLoop p fuel (direntSize * k)) Q E s := by
    have hend : ∀ k, (slotsAt s p).length ≤ k →
        (∀ m e, 2 ≤ m → m < k → (slotsAt s p)[m]? = some e → e.inum = 0) → Q true s := by
      intro k hk hdead
      refine hempty fun e he => ?_
      obtain ⟨m, hm⟩ := mem_iff_getElem?.1 he
      rw [List.getElem?_drop] at hm
      have hlt := (List.getElem?_eq_some_iff.1 hm).1
      exact hdead (2 + m) e (by omega) (by omega) hm
    intro fuel
    induction fuel with
    | zero =>
      intro k hk hdead
      exact wp_pure.2 (hend k (by omega) hdead)
    | succ fuel ih =>
      intro k hk hdead
      refine wp_eachDirent hheld (fun hge => wp_pure.2 (hend k hge hdead)) fun de hde => ?_
      refine wp_ite (fun _ => wp_pure.2 hnot) fun hzero => ?_
      refine ih (k + 1) (by omega) fun m e h2 hm he => ?_
      rcases Nat.lt_succ_iff_lt_or_eq.1 hm with hm | rfl
      · exact hdead m e h2 hm he
      · rw [hde, some_inj] at he
        rw [← he]
        exact not_not.1 hzero
  rw [isdirempty, wp_bind, wp_get]
  refine hloop _ 2 ?_ fun m e h2 hm => absurd hm (by omega)
  rw [← hheld.length_slots]
  exact le_trans (Nat.le_mul_of_pos_left _ (by decide)) (Nat.le_add_right _ _)

end Fs

end CsklubOs
