/-
**The image that `mkfs` leaves.**

The run of `mkfs` on a list of input files.  Two things can go wrong without the program noticing.
`ialloc` does not check the number of inodes, so more than 198 files get numbers that the kernel
does not accept.  And the size of the root directory is rounded up to the next block even when it is
a multiple of the block size, so with 62, 126 or 190 files the last block below its size is not
there.

Main definitions:

* `Accepted` — input on which `mkfs` comes to its end;
* `WellFormed` — an image that the kernel finds in order.

Main results:

* `main_wellFormed_iff` — when the image of a run is.
-/

import CsklubOs.MkfsFiles

set_option autoImplicit false

namespace CsklubOs.Mkfs

open Function List Nat
open Wp Fs

local instance instSuperblockMain : Superblock := superblock

/-! ### What the inodes hold -/

/-- The bytes of an input file, up to the first `read` that returns nothing. -/
def Input.bytes (f : Input) : List UInt8 :=
  ((f.reads.getD []).takeWhile fun buf => 0 < buf.length).flatten

/-- The entries for files that have the numbers from `k` on. -/
def entries : ℕ → List Input → List UInt8
  | _, [] => []
  | k, f :: files => Dirent.bytes (xshort k) f.name ++ entries (k + 1) files

/-- The root directory. -/
def rootBytes (files : List Input) : List UInt8 :=
  Dirent.bytes (xshort rootIno) dotName ++ Dirent.bytes (xshort rootIno) dotdotName ++
    entries 2 files

/-- What the inodes hold. -/
def contents (files : List Input) : ℕ → List UInt8
  | 0 => []
  | 1 => rootBytes files
  | k + 2 => (files[k]?).elim [] Input.bytes

variable {files : List Input} {s s' : Image} {E : Stop → Prop} {i k : ℕ} {f : Input}

theorem entries_append (files : List Input) (f : Input) : ∀ k,
    entries k (files ++ [f]) = entries k files ++ Dirent.bytes (xshort (k + files.length))
    f.name := by
  induction files with
  | nil =>
    intro k
    rw [nil_append, entries, entries, entries, append_nil, nil_append, length_nil, add_zero]
  | cons g files ih =>
    intro k
    rw [cons_append, entries, ih, entries, append_assoc, length_cons, add_right_comm, add_assoc k]

theorem length_entries (files : List Input) : ∀ k,
    (entries k files).length = files.length * direntSize := by
  induction files with
  | nil =>
    intro k
    rw [entries, length_nil, length_nil, zero_mul]
  | cons g files ih =>
    intro k
    rw [entries, length_append, Dirent.length_bytes, ih, length_cons, succ_mul, add_comm]

theorem length_rootBytes (files : List Input) :
    (rootBytes files).length = (files.length + 2) * direntSize := by
  rw [rootBytes, length_append, length_append, Dirent.length_bytes, Dirent.length_bytes,
    length_entries, add_mul]
  omega

theorem contents_nil : contents [] = update (fun _ => []) rootIno (rootBytes []) := by
  funext i
  match i with
  | 0 => rfl
  | 1 => rfl
  | k + 2 => rfl

theorem contents_append (files : List Input) (f : Input) :
    contents (files ++ [f]) = update (update (contents files) rootIno
      (rootBytes files ++ Dirent.bytes (xshort (files.length + 2)) f.name)) (files.length + 2)
      f.bytes := by
  funext i
  match i with
  | 0 => rfl
  | 1 =>
    have hne : (1 : ℕ) ≠ files.length + 2 := by omega
    rw [update_of_ne hne]
    show rootBytes (files ++ [f]) = update (contents files) rootIno _ rootIno
    rw [update_self, rootBytes, entries_append, ← append_assoc, add_comm 2, rootBytes]
  | k + 2 =>
    by_cases hk : k = files.length
    · rw [hk, update_self, contents, List.getElem?_concat_length]
      rfl
    · have hroot : k + 2 ≠ rootIno := by
        rw [rootIno]
        omega
      rw [update_of_ne (by omega), update_of_ne hroot, contents, contents,
        List.getElem?_append]
      split
      · rfl
      · rw [List.getElem?_eq_none (by rw [length_singleton]; omega),
          List.getElem?_eq_none (by omega)]

theorem length_contents_le (files rest : List Input) (i : ℕ) :
    (contents files i).length ≤ (contents (files ++ rest) i).length := by
  match i with
  | 0 => exact le_refl _
  | 1 =>
    rw [contents, contents, length_rootBytes, length_rootBytes, length_append]
    exact mul_le_mul_right _ (by omega)
  | k + 2 =>
    rw [contents, contents, List.getElem?_append]
    split
    · exact le_refl _
    · rw [List.getElem?_eq_none (by omega)]
      exact zero_le _

/-- A file that the program takes. -/
structure Input.Good (f : Input) : Prop where
  noSlash : slash ∉ shortname f.path
  opened : f.reads ≠ none
  short : f.name.length ≤ dirSiz
  fits : f.bytes.length ≤ maxFile * bSize

/-- **The files on which the program gets to its end.** -/
structure Accepted (files : List Input) : Prop where
  good : ∀ f ∈ files, f.Good
  fit : total (contents files) ≤ fsSize

/-! ### The run -/

/-- The image after some of the files. -/
structure Added (files : List Input) (s : Image) : Prop extends Ok (contents files) s where
  freeinode : s.freeinode = files.length + 2
  root : types s rootIno = .dir

variable {Q : Unit → Image → Prop}

theorem wp_copyLoop (reads : List (List UInt8)) :
    ∀ {content : ℕ → List UInt8} {s : Image} {new : List UInt8}, Ok content s →
      Allocated (inodes s) i → (reads.takeWhile fun buf => 0 < buf.length).flatten = new →
      (maxFile * bSize < (content i ++ new).length → E .assertion) →
      (fsSize < total (update content i (content i ++ new)) → E .read) →
      (∀ s', Ok (update content i (content i ++ new)) s' → s'.freeinode = s.freeinode →
        types s' = types s → Q () s') →
      wp (copyLoop i reads) Q E s := by
  induction reads with
  | nil =>
    intro content s new h hi hnew hassert hread hQ
    have hnil : new = [] := hnew.symm
    rw [hnil, append_nil, update_eq_self] at hQ
    exact wp_pure.2 (hQ s h rfl rfl)
  | cons buf reads ih =>
    intro content s new h hi hnew hassert hread hQ
    rw [copyLoop]
    by_cases hpos : 0 < buf.length
    · rw [takeWhile_cons, if_pos (decide_eq_true hpos), flatten_cons] at hnew
      generalize hrest : (reads.takeWhile fun buf => 0 < buf.length).flatten = rest at hnew
      rw [if_pos hpos, wp_bind]
      have hlen : (content i ++ buf).length ≤ (content i ++ new).length := by
        rw [← hnew, length_append, length_append, length_append]
        omega
      refine wp_iappend h hi (fun hlt => hassert (by omega)) (fun hlt => hread ?_)
        fun s' hs' hfi htypes => ?_
      · refine lt_of_lt_of_le hlt (total_mono fun j => ?_)
        by_cases hj : j = i
        · rw [hj, update_self, update_self]
          exact hlen
        · rw [update_of_ne hj, update_of_ne hj]
      · have hi' : Allocated (inodes s') i := by
          rw [hs'.alloc, hfi]
          exact (h.alloc i).1 hi
        have hfinal : update (update content i (content i ++ buf)) i
            (update content i (content i ++ buf) i ++ rest) =
            update content i (content i ++ new) := by
          rw [update_idem, update_self, append_assoc, hnew]
        refine ih hs' hi' hrest ?_ ?_ fun s'' hs'' hfi' htypes' => ?_
        · rw [update_self, append_assoc, hnew]
          exact hassert
        · rw [hfinal]
          exact hread
        · rw [hfinal] at hs''
          exact hQ s'' hs'' (hfi'.trans hfi) (htypes'.trans htypes)
    · rw [takeWhile_cons, if_neg fun h => hpos (of_decide_eq_true h)] at hnew
      have hnil : new = [] := hnew.symm
      rw [hnil, append_nil, update_eq_self] at hQ
      rw [if_neg hpos]
      exact wp_pure.2 (hQ s h rfl rfl)

theorem wp_addFile (h : Added files s) (hroom : files.length + 2 < nInodes)
    (hE : ¬ f.Good ∨ fsSize < total (contents (files ++ [f])) → ∀ e, E e)
    (hQ : ∀ s', Added (files ++ [f]) s' → Q () s') : wp (addFile f) Q E s := by
  refine wp_ite (fun hslash => wp_throw.2 (hE (.inl fun hg => hg.noSlash hslash) _)) fun hslash =>
    ?_
  cases hreads : f.reads with
  | none => exact wp_throw.2 (hE (.inl fun hg => hg.opened hreads) _)
  | some reads =>
    refine wp_ite (fun hshort => ?_) fun hlong => wp_throw.2 (hE (.inl fun hg => hlong hg.short) _)
    have hfi := h.freeinode
    have hin := nInodes_eq
    have hdir : direntSize = 16 := rfl
    have hone : rootIno = 1 := rfl
    have hroot : files.length + 2 ≠ rootIno := by
      omega
    refine wp_bind.2 (wp_ialloc (by decide) h.toOk (hfi ▸ hroom) fun s1 h1 hfi1 htypes1 => ?_)
    rw [hfi] at hfi1 htypes1 ⊢
    have hroot1 : Allocated (inodes s1) rootIno := (h1.alloc _).2 ⟨le_refl _, by omega⟩
    have hnone : contents files (files.length + 2) = [] := by
      rw [contents, List.getElem?_eq_none (le_refl _)]
      rfl
    have hle : ∀ j, (update (contents files) rootIno (rootBytes files ++
        Dirent.bytes (xshort (files.length + 2)) f.name) j).length ≤
        (contents (files ++ [f]) j).length := by
      intro j
      rw [contents_append]
      by_cases hj : j = files.length + 2
      · rw [hj, update_of_ne hroot, hnone]
        exact zero_le _
      · rw [update_of_ne hj]
    refine wp_bind.2 (wp_iappend h1 hroot1 (fun hlt => ?_) (fun hlt => hE (.inr ?_) _)
      fun s2 h2 hfi2 htypes2 => ?_)
    · -- the root directory is never that long
      have hmax : maxFile * bSize = 274432 := by decide
      change _ < (rootBytes files ++ _).length at hlt
      rw [length_append, length_rootBytes, Dirent.length_bytes, hdir] at hlt
      omega
    · exact lt_of_lt_of_le hlt (total_mono hle)
    · change Ok (update (contents files) rootIno (rootBytes files ++ _)) s2 at h2
      have hnew : (reads.takeWhile fun buf => 0 < buf.length).flatten = f.bytes := by
        rw [Input.bytes, hreads]
        rfl
      have hcontent : update (contents files) rootIno (rootBytes files ++
          Dirent.bytes (xshort (files.length + 2)) f.name) (files.length + 2) ++ f.bytes =
          f.bytes := by
        rw [update_of_ne hroot, hnone, nil_append]
      have hfile : Allocated (inodes s2) (files.length + 2) := (h2.alloc _).2 (by omega)
      refine wp_copyLoop reads h2 hfile hnew ?_ ?_ fun s' h' hfi' htypes' => hQ s' ⟨?_, ?_, ?_⟩
      · rw [hcontent]
        exact fun hlt => hE (.inl fun hg => absurd hg.fits (not_le.2 hlt)) _
      · rw [hcontent, ← contents_append]
        exact fun hlt => hE (.inr hlt) _
      · rwa [hcontent, ← contents_append] at h'
      · rw [length_append, length_singleton]
        omega
      · rw [htypes', htypes2, htypes1]
        exact h.root

theorem wp_makeRoot (h : Ok (fun _ => []) s) (hfi : s.freeinode = 1)
    (hQ : ∀ s', Added [] s' → Q () s') : wp makeRoot Q E s := by
  have hin := nInodes_eq
  have hfits : ∀ p : List UInt8, p.length ≤ 2 * direntSize →
      p.length ≤ maxFile * bSize ∧ total (update (fun _ => []) rootIno p) ≤ fsSize := by
    intro p hp
    have hcost : cost (2 * direntSize) = 1 := by decide
    have hmono := cost_mono hp
    have htotal := total_update (fun _ => []) (i := rootIno) (by decide) p
    have hmeta := nmeta_eq
    have hfs := fsSize_eq
    have hmax : 2 * direntSize ≤ maxFile * bSize := by decide
    rw [total_empty] at htotal
    exact ⟨by omega, by omega⟩
  refine wp_bind.2 (wp_ialloc (by decide) h (by omega) fun s1 h1 hfi1 htypes1 => ?_)
  rw [hfi] at hfi1 htypes1 ⊢
  have hroot1 : Allocated (inodes s1) 1 := (h1.alloc _).2 (by omega)
  obtain ⟨hlen1, htot1⟩ := hfits ([] ++ Dirent.bytes (xshort 1) dotName) (by
    decide)
  refine wp_bind.2 (wp_iappend h1 hroot1 (fun hlt => ?_) (fun hlt => ?_) fun s2 h2 hfi2 htypes2 =>
    ?_)
  · exact absurd hlen1 (not_le.2 hlt)
  · exact absurd htot1 (not_le.2 hlt)
  · have hroot2 : Allocated (inodes s2) 1 := (h2.alloc _).2 (by omega)
    obtain ⟨hlen2, htot2⟩ := hfits (rootBytes []) (by decide)
    refine wp_iappend h2 hroot2 ?_ ?_ fun s' h' hfi' htypes' => hQ s' ⟨?_, ?_, ?_⟩
    · exact fun hlt => absurd hlen2 (not_le.2 hlt)
    · rw [update_idem]
      exact fun hlt => absurd htot2 (not_le.2 hlt)
    · rw [update_idem] at h'
      rwa [contents_nil]
    · rw [hfi', hfi2, hfi1, length_nil]
    · rw [htypes', htypes2, htypes1]
      exact update_self _ _ _

theorem wp_addFiles (h : Added [] s) (hroom : files.length + 2 ≤ nInodes)
    (hE : ¬ Accepted files → ∀ e, E e) (hQ : ∀ s', Added files s' → Q () s') :
    wp (files.forM addFile) Q E s := by
  refine wp_forM (I := fun (rest : List Input) (s : Image) => ∃ done, done ++ rest = files ∧
    Added done s) ⟨[], rfl, h⟩ ?_ ?_
  · rintro f rest s ⟨done, hdone, hadded⟩
    have hlen := congrArg List.length hdone
    rw [length_append, length_cons] at hlen
    refine wp_addFile hadded (by omega) (fun hbad => hE fun hacc => ?_) fun s' h' =>
      ⟨done ++ [f], by rw [← hdone, append_assoc, singleton_append], h'⟩
    rcases hbad with hbad | hbad
    · exact hbad (hacc.good f (by rw [← hdone]; simp))
    · have hmono := total_mono (length_contents_le (done ++ [f]) rest)
      rw [append_assoc, singleton_append, hdone] at hmono
      have hfit := hacc.fit
      omega
  · rintro s ⟨done, hdone, hadded⟩
    rw [append_nil] at hdone
    exact hQ s (hdone ▸ hadded)

/-- **The image at the end.** -/
structure Built (files : List Input) (s : Image) : Prop extends
    Layout (contents files) (inodes s) s where
  freeinode : s.freeinode = files.length + 2
  root : (inodes s rootIno).type = .dir
  rootSize : (inodes s rootIno).size = ((rootBytes files).length / bSize + 1) * bSize
  size : ∀ i, i ≠ rootIno → Allocated (inodes s) i → (inodes s i).size = (contents files i).length
  bits : s.disk sb.bmapstart = mark s.freeblock

theorem wp_finish (h : Added files s) (hroom : files.length + 2 ≤ nInodes)
    (hQ : ∀ s', Built files s' → Q () s') :
    wp (do fixRoot; let s ← get; balloc s.freeblock) Q E s := by
  have hlt : rootIno < nInodes := by decide
  have hfi := h.freeinode
  have hin := nInodes_eq
  have hroot : Allocated (inodes s) rootIno := (h.alloc _).2 ⟨le_refl _, by rw [rootIno]; omega⟩
  have hlen := length_rootBytes files
  have hdir : direntSize = 16 := rfl
  rw [hdir] at hlen
  have hsize : xint (inodes s rootIno).size = (rootBytes files).length := by
    rw [h.size _ hroot]
    exact xint_eq (show (rootBytes files).length < _ by omega)
  have hround : xint (((rootBytes files).length / bSize + 1) * bSize) =
      ((rootBytes files).length / bSize + 1) * bSize := xint_eq (by simp only [bSize]; omega)
  have hfits : (inodes s rootIno).Fits := by
    exact Dinode.fits_decode _ _
  refine wp_bind.2 (wp_bind.2 (wp_rinode h.len hlt ?_))
  rw [hsize, hround]
  refine wp_winode h.len hlt (hfits.withSize ?_) fun s1 hlen1 hfi1 hfb1 hinodes1 hdisk1 => ?_
  · simp only [bSize]
    omega
  · obtain ⟨blk, hdisk1⟩ := hdisk1
    have hself : ∀ j, (inodes s1 j).addrs = (inodes s j).addrs ∧
        (inodes s1 j).type = (inodes s j).type := by
      intro j
      rw [hinodes1]
      by_cases hj : j = rootIno
      · rw [hj]
        exact ⟨rfl, rfl⟩
      · rw [update_of_ne hj]
        exact ⟨rfl, rfl⟩
    have h1 : Layout (contents files) (inodes s1) s1 :=
      h.toLayout.update_meta (iBlock_lt hlt).2 (iBlock_ne_one hlt) hdisk1 hlen1 hfi1 hfb1
        (fun j => (hself j).1) fun j => (hself j).2
    have hhi := h1.hi
    have hfs := fsSize_eq
    have hbpb : bpb = 8192 := rfl
    have hmap : sb.bmapstart = 45 := by decide
    have hmeta := nmeta_eq
    have hlen := h1.len
    rw [wp_bind, wp_get, balloc, if_pos (by omega)]
    refine wp_modify.2 (hQ _ ?_)
    have hmax : max s1.len (sb.bmapstart + 1) = s1.len := by omega
    rw [hmax]
    generalize hs' : ({ s1 with
      disk := update s1.disk sb.bmapstart (mark s1.freeblock) } : Image) = s'
    have hdisk : s'.disk = update s1.disk sb.bmapstart (mark s1.freeblock) :=
      hs' ▸ rfl
    have hfb : s'.freeblock = s1.freeblock := hs' ▸ rfl
    have hfi' : s'.freeinode = s1.freeinode := hs' ▸ rfl
    have hinodes : inodes s' = inodes s1 := inodes_congr fun j hj => by
      rw [hdisk, update_of_ne (iBlock_ne_bmap hj)]
    have hlayout : Layout (contents files) (inodes s') s' :=
      h1.update_meta (by omega) (by omega) hdisk (hs' ▸ rfl) hfi' hfb (fun j => by rw [hinodes])
        fun j => by rw [hinodes]
    refine ⟨hlayout, by omega, ?_, ?_, fun i hne hi => ?_, ?_⟩
    · rw [hinodes, (hself rootIno).2]
      exact h.root
    · rw [hinodes, hinodes1, update_self]
    · rw [hinodes] at hi ⊢
      rw [hinodes1] at hi ⊢
      rw [Allocated, update_of_ne hne] at hi
      rw [update_of_ne hne]
      exact h.size i hi
    · rw [hdisk, hfb, update_self]

theorem wp_main (hroom : files.length + 2 ≤ nInodes) (hE : ¬ Accepted files → ∀ e, E e)
    (hQ : ∀ s, Built files s → Q () s) : wp (main files) Q E start := by
  refine wp_bind.2 (wp_format fun s1 h1 hfi1 => ?_)
  refine wp_bind.2 (wp_makeRoot h1 hfi1 fun s2 h2 => ?_)
  exact wp_bind.2 (wp_addFiles h2 hroom hE fun s3 h3 => wp_finish h3 hroom hQ)

theorem exists_main (hroom : files.length + 2 ≤ nInodes) (hacc : Accepted files) :
    ∃ s, main files start = .ok ((), s) ∧ Built files s := by
  have hm : wp (main files) (fun _ s => Built files s) (fun _ => False) start :=
    wp_main hroom (fun hnot => absurd hacc hnot) fun _ hs => hs
  obtain ⟨_, s, hrun, hs⟩ := hm.exists_ok
  exact ⟨s, hrun, hs⟩

/-! ### The number of inodes -/

/-- A piece of the program takes `n` inode numbers, if it does not stop. -/
def Takes {α : Type} (n : ℕ) (m : MkfsM α) : Prop :=
  ∀ s, wp m (fun _ s' => s'.freeinode = s.freeinode + n) (fun _ => True) s

section Takes

variable {α β : Type} {m n : ℕ} {x : MkfsM α} {g : α → MkfsM β}

theorem takes_pure (a : α) : Takes 0 (pure a : MkfsM α) := fun _ => wp_pure.2 rfl

theorem takes_throw (e : Stop) : Takes n (throw e : MkfsM α) := fun _ => wp_throw.2 trivial

theorem takes_modify {upd : Image → Image} (h : ∀ s, (upd s).freeinode = s.freeinode + n) :
    Takes n (modify upd : MkfsM PUnit) := fun s => wp_modify.2 (h s)

theorem Takes.bind (hx : Takes m x) (hg : ∀ a, Takes n (g a)) : Takes (m + n) (x >>= g) := by
  intro s
  refine wp_bind.2 ((hx s).mono fun a s1 h1 => (hg a s1).mono fun b s2 h2 => ?_)
  omega

theorem Takes.ite {c : Prop} [Decidable c] {y : MkfsM α} (hx : Takes n x) (hy : Takes n y) :
    Takes n (if c then x else y) := fun s => wp_ite (fun _ => hx s) fun _ => hy s

theorem takes_wsect (sec : ℕ) (buf : Block) : Takes 0 (wsect sec buf) := takes_modify fun _ => rfl

theorem takes_rsect (sec : ℕ) : Takes 0 (rsect sec) := by
  intro s
  rw [rsect, wp_bind, wp_get]
  exact wp_ite (fun _ => wp_pure.2 rfl) fun _ => wp_throw.2 trivial

theorem takes_winode (inum : ℕ) (din : Dinode) : Takes 0 (winode inum din) :=
  (takes_rsect _).bind fun _ => takes_wsect _ _

theorem takes_rinode (inum : ℕ) :
    Takes 0 (rinode inum) := (takes_rsect _).bind fun _ => takes_pure _

theorem takes_takeBlock : Takes 0 takeBlock := fun _ =>
  wp_bind.2 (wp_get.2 (wp_bind.2 (wp_set.2 (wp_pure.2 rfl))))

theorem takes_mapAddr (din : Dinode) (k : Fin (nDirect + 1)) : Takes 0 (mapAddr din k) :=
  (takes_takeBlock.bind fun _ => takes_pure _).ite (takes_pure _)

theorem takes_mapEntry (din : Dinode) (e : ℕ) : Takes 0 (mapEntry din e) :=
  (takes_rsect _).bind fun _ => (takes_takeBlock.bind fun _ => (takes_wsect _ _).bind fun _ =>
    takes_pure _).ite (takes_pure _)

theorem takes_mapBlock (din : Dinode) (fbn : ℕ) : Takes 0 (mapBlock din fbn) := by
  rw [mapBlock]
  split
  · exact (takes_mapAddr _ _).bind fun _ => takes_pure _
  · exact (takes_mapAddr _ _).bind fun _ => (takes_mapEntry _ _).bind fun _ => takes_pure _

theorem takes_appendLoop (fuel : ℕ) : ∀ (din : Dinode) (p : List UInt8) (off : ℕ),
    Takes 0 (appendLoop fuel din p off) := by
  induction fuel with
  | zero => exact fun _ _ _ => takes_pure _
  | succ fuel ih =>
    intro din p off
    refine Takes.ite (Takes.ite ?_ (takes_throw _)) (takes_pure _)
    exact (takes_mapBlock _ _).bind fun _ => (takes_rsect _).bind fun _ =>
      (takes_wsect _ _).bind fun _ => ih _ _ _

theorem takes_iappend (inum : ℕ) (p : List UInt8) : Takes 0 (iappend inum p) :=
  (takes_rinode _).bind fun _ => (takes_appendLoop _ _ _ _).bind fun _ => takes_winode _ _

theorem takes_ialloc (type : IType) : Takes 1 (ialloc type) := fun _ =>
  wp_bind.2 (wp_get.2 (wp_bind.2 (wp_set.2 (wp_bind.2
    ((takes_winode _ _ _).mono fun _ _ h => wp_pure.2 h)))))

theorem takes_copyLoop (inum : ℕ) (reads : List (List UInt8)) : Takes 0 (copyLoop inum reads) := by
  induction reads with
  | nil => exact takes_pure _
  | cons buf reads ih => exact ((takes_iappend _ _).bind fun _ => ih).ite (takes_pure _)

theorem takes_addFile (f : Input) : Takes 1 (addFile f) := by
  refine (takes_throw _).ite ?_
  cases f.reads with
  | none => exact takes_throw _
  | some reads =>
    refine Takes.ite ?_ (takes_throw _)
    exact (takes_ialloc _).bind fun _ => (takes_iappend _ _).bind fun _ => takes_copyLoop _ _

theorem takes_forM {γ : Type} {step : γ → MkfsM PUnit} (h : ∀ c, Takes n (step c)) (l : List γ) :
    Takes (n * l.length) (l.forM step) := by
  induction l with
  | nil => exact takes_pure _
  | cons c l ih =>
    rw [length_cons, mul_succ, add_comm]
    exact (h c).bind fun _ => ih

theorem takes_format : Takes 0 format :=
  (takes_modify fun _ => rfl).bind fun _ =>
    (Nat.zero_mul _ ▸ takes_forM (fun _ => takes_wsect _ _) _ : Takes 0 _).bind fun _ =>
      takes_wsect _ _

theorem takes_makeRoot : Takes 1 makeRoot :=
  (takes_ialloc _).bind fun _ => ((takes_iappend _ _).bind fun _ => takes_iappend _ _).ite
    (takes_throw _)

theorem takes_fixRoot : Takes 0 fixRoot := (takes_rinode _).bind fun _ => takes_winode _ _

theorem takes_balloc (used : ℕ) : Takes 0 (balloc used) := (takes_wsect _ _).ite (takes_throw _)

theorem takes_finish : Takes 0 (do fixRoot; let s ← get; balloc s.freeblock) :=
  takes_fixRoot.bind fun _ s => wp_bind.2 (wp_get.2 (takes_balloc _ s))

/-- **The number of inodes**, in every run that gets to its end. -/
theorem main_freeinode (h : main files start = .ok ((), s)) : s.freeinode = files.length + 2 := by
  have hm : Takes (0 + (1 + (1 * files.length + 0))) (main files) :=
    takes_format.bind fun _ => takes_makeRoot.bind fun _ =>
      (takes_forM takes_addFile files).bind fun _ => takes_finish
  have hs := (hm start).of_ok h
  rw [hs]
  show 1 + _ = _
  omega

end Takes

/-! ### The free map -/

theorem testBit_or_shift (x : UInt8) {k j : ℕ} (hk : k < 8) :
    (x ||| 1 <<< UInt8.ofNat k).toNat.testBit j = (x.toNat.testBit j || decide (k = j)) := by
  have hpow : ∀ k < 8, ((1 : UInt8) <<< UInt8.ofNat k).toNat = 2 ^ k := by decide
  rw [UInt8.toNat_or, testBit_or, hpow k hk, testBit_two_pow]

/-- **The free map** has the bits of the blocks below `n`. -/
theorem mark_bit (n : ℕ) : ∀ {b : ℕ}, b < bpb → (mark n).bit b = decide (b < n) := by
  induction n with
  | zero =>
    intro b _
    simp [mark, Block.bit]
  | succ n ih =>
    intro b hb
    have hlt : b / 8 < bSize := by
      simp only [bpb, bSize] at hb ⊢
      omega
    have hold := ih hb
    rw [Block.bit] at hold ⊢
    rw [mark, Block.byte_write _ _ _ hlt, length_singleton]
    split
    · have hdiv : b / 8 = n / 8 := by omega
      rw [hdiv, Nat.sub_self, getD_cons_zero, testBit_or_shift _ (Nat.mod_lt _ (by decide)),
        ← hdiv, hold, ← Bool.decide_or]
      exact decide_eq_decide.2 (by omega)
    · rw [hold]
      exact decide_eq_decide.2 (by omega)

/-! ### What the kernel relies on -/

/-- **A well-formed image**: the super block is the one that was meant, the inodes that were handed
out have numbers that the kernel accepts and are in the inode blocks, and the disk is as the inode
layer needs it. -/
structure WellFormed (s : Image) : Prop where
  sbBlock : Sb.decode (s.disk 1) = sb
  inum : ∀ i, 1 ≤ i → i < s.freeinode →
    i < sb.ninodes ∧ sb.inodestart ≤ iBlock i ∧ iBlock i < sb.bmapstart
  disk : DiskOk (mount s.disk).used (mount s.disk).data (mount s.disk).dinode

theorem sb_decode_write : Sb.decode (Block.zero.write 0 sb.bytes) = sb := by
  decide +kernel

theorem mount_used (h : s.disk sb.bmapstart = mark s.freeblock) {b : ℕ} (hb : b < bpb) :
    (mount s.disk).used b = below s.freeblock b := by
  have hblock : bBlock b = sb.bmapstart := by
    rw [bBlock, div_eq_of_lt hb]
    rfl
  show (s.disk (bBlock b)).bit (b % bpb) = _
  rw [hblock, h, mod_eq_of_lt hb, mark_bit _ hb, below]

theorem mount_dinode (hi : i < nInodes) : (mount s.disk).dinode i = inodes s i :=
  (inodes_of_lt hi).symm

theorem allocated_mount : Allocated (mount s.disk).dinode i ↔ Allocated (inodes s) i := by
  refine and_congr_right fun hi => ?_
  rw [mount_dinode (ninodes_eq ▸ hi)]

theorem slotOf_mount (data : ℕ → Block) :
    slotOf data (mount s.disk).dinode = slotOf data (inodes s) := by
  funext ⟨j, sl⟩
  by_cases hj : Allocated (inodes s) j
  · rw [slotOf_of_allocated hj, slotOf_of_allocated (allocated_mount.2 hj),
      mount_dinode (ninodes_eq ▸ hj.1)]
  · rw [slotOf_of_not_allocated hj, slotOf_of_not_allocated fun h => hj (allocated_mount.1 h)]

theorem Built.wellFormed_iff (h : Built files s) :
    WellFormed s ↔ ¬ bSize ∣ (rootBytes files).length := by
  have hfi := h.freeinode
  have hfs := fsSize_eq
  have hmeta := nmeta_eq
  have hbpb : bpb = 8192 := rfl
  have hroot : Allocated (inodes s) rootIno :=
    (h.alloc _).2 ⟨le_refl _, by rw [rootIno]; omega⟩
  constructor
  · intro hw hdvd
    -- the block after the last entry is below the size, and not mapped
    have hmapped := hw.disk.mapped rootIno (allocated_mount.2 hroot)
      ((rootBytes files).length / bSize)
    rw [mount_dinode (ninodes_eq ▸ hroot.1), h.rootSize] at hmapped
    have hlt := (h.mapped hroot).1 (hmapped (mul_lt_mul_of_pos_right (lt_succ_self _) (by decide)))
    rw [Nat.div_mul_cancel hdvd] at hlt
    exact absurd hlt (lt_irrefl _)
  · intro hdvd
    refine ⟨by rw [h.sbBlock, sb_decode_write], fun i hlo hhi => ?_,
      ⟨?_, fun b hb => ?_, fun i hi bn hbn => ?_⟩⟩
    · have hlt : i < nInodes := lt_of_lt_of_le hhi h.inodeHi
      have hnin : sb.ninodes = 200 := by decide
      have hin := nInodes_eq
      have hmap : sb.bmapstart = 45 := by decide
      have hle := (iBlock_lt hlt).2
      have hne := iBlock_ne_bmap hlt
      exact ⟨by omega, le_add_left _ _, by omega⟩
    · rw [Consistent, slotOf_mount]
      refine h.owns.congr_used fun b hb => mount_used h.bits ?_
      have hlt := (mem_dataArea.1 hb).2
      omega
    · have hres : (Superblock.size : ℕ) - Superblock.nblocks = nmeta := by decide
      have hlo := h.lo
      rw [mount_used h.bits (by omega)]
      exact decide_eq_true (by omega)
    · rw [allocated_mount] at hi
      rw [mount_dinode (ninodes_eq ▸ hi.1)] at hbn ⊢
      refine (h.mapped hi).2 ?_
      by_cases hne : i = rootIno
      · rw [hne, h.rootSize] at hbn
        rw [hne]
        have hle : bn ≤ (rootBytes files).length / bSize :=
          Nat.lt_succ_iff.1 (Nat.lt_of_mul_lt_mul_right hbn)
        refine lt_of_le_of_lt (mul_le_mul_right bSize hle) ?_
        exact lt_of_le_of_ne (div_mul_le_self _ _) fun heq => hdvd ⟨_,
          (heq.symm.trans (mul_comm _ _))⟩
      · rwa [h.size i hne hi] at hbn

/-- Files of one block at most fit on the disk. -/
theorem accepted_of_small (hgood : ∀ f ∈ files, f.Good)
    (hsmall : ∀ f ∈ files, f.bytes.length ≤ bSize) (hroom : files.length + 2 ≤ nInodes) :
    Accepted files := by
  refine ⟨hgood, ?_⟩
  have hroot : cost ((files.length + 2) * direntSize) ≤ cost (nInodes * direntSize) :=
    cost_mono (mul_le_mul_right _ hroom)
  have hmax : cost (nInodes * direntSize) = 4 := by decide
  have hone : cost bSize = 1 := by decide
  have hle : ∀ i, cost (contents files i).length ≤ 4 := by
    rintro (_ | _ | k)
    · exact (by decide : cost 0 ≤ 4)
    · show cost (rootBytes files).length ≤ 4
      rwa [length_rootBytes, ← hmax]
    · rw [contents]
      cases hf : files[k]? with
      | none => decide
      | some f =>
        have hblock := cost_mono (hsmall f (mem_of_getElem? hf))
        rw [Option.elim]
        omega
  have hsum := Finset.sum_le_card_nsmul (Finset.range nInodes) _ 4 fun i _ => hle i
  rw [Finset.card_range] at hsum
  have hfits : nmeta + nInodes * 4 ≤ fsSize := by decide
  exact (Nat.add_le_add_left hsum nmeta).trans hfits

/-- The empty file `a`. -/
def emptyFile : Input := ⟨[97], some [], by decide⟩

theorem accepted_replicate {n : ℕ} (hn : n + 2 ≤ nInodes) :
    Accepted (List.replicate n emptyFile) := by
  refine accepted_of_small (fun f hf => ?_) (fun f hf => ?_) (by rwa [length_replicate])
  · rw [eq_of_mem_replicate hf]
    exact ⟨by decide, by decide, by decide, by decide⟩
  · rw [eq_of_mem_replicate hf]
    decide

/-- **When the image is well-formed.** -/
theorem main_wellFormed_iff (files : List Input) (s : Image) (h : main files start = .ok ((), s)) :
    WellFormed s ↔ files.length + 2 ≤ nInodes ∧ ¬ bSize ∣ (files.length + 2) * direntSize := by
  have hfi := main_freeinode h
  have hnin : sb.ninodes = nInodes := by decide
  by_cases hroom : files.length + 2 ≤ nInodes
  · have hm : wp (main files) (fun _ s => Built files s) (fun _ => True) start :=
      wp_main hroom (fun _ _ => trivial) fun _ hs => hs
    rw [(hm.of_ok h).wellFormed_iff, length_rootBytes]
    exact (and_iff_right hroom).symm
  · refine iff_of_false (fun hw => ?_) fun hc => hroom hc.1
    -- the last inode that was handed out
    have hlast := (hw.inum (files.length + 1) (by omega) (by omega)).1
    omega

/-- The files `a`, of three bytes in two pieces, and `b`, of one byte. -/
def twoFiles : List Input := [⟨[97], some [[1, 2], [3]], by decide⟩, ⟨[98], some [[4]], by decide⟩]

theorem main_wellFormed_two_files : ∃ s, main twoFiles start = .ok ((), s) ∧ WellFormed s := by
  have hgood : ∀ f ∈ twoFiles, f.Good := by
    simp only [twoFiles, forall_mem_cons, not_mem_nil, false_implies, implies_true, and_true]
    exact ⟨⟨by decide, by decide, by decide, by decide⟩, by decide, by decide, by decide, by decide⟩
  obtain ⟨s, hrun, -⟩ := exists_main (by decide) (accepted_of_small hgood (by decide) (by decide))
  exact ⟨s, hrun, (main_wellFormed_iff twoFiles s hrun).2 (by decide)⟩

/-- With 62 empty files the root directory has a block below its size that is not mapped. -/
theorem main_sixty_two_files :
    ∃ s, main (List.replicate 62 emptyFile) start = .ok ((), s) ∧ ¬ WellFormed s := by
  obtain ⟨s, hrun, hs⟩ := exists_main (by decide) (accepted_replicate (n := 62) (by decide))
  refine ⟨s, hrun, fun hw => hs.wellFormed_iff.1 hw ?_⟩
  rw [length_rootBytes]
  decide

end CsklubOs.Mkfs
