/-
**The kernel reads what `mkfs` wrote.**

`iappend` of `mkfs/mkfs.c` and `bmap` and `readi` of `kernel/fs.c` are two programs for one format.

Main results:

* `kernel_reads_image` — whatever is appended to the inodes of an image, in any order and in pieces
  of any length, the kernel that mounts the image reads back; and it finds the input files in the
  root directory under their names, as long as no file is called `.` or `..`;
* `main_dot_file` — those names are taken, and `dirlookup` returns the first entry.
-/

import CsklubOs.Directory
import CsklubOs.MkfsMain

set_option autoImplicit false

namespace CsklubOs.Mkfs

open Function List Nat
open Wp Fs

local instance instSuperblockRead : Superblock := superblock

/-! ### Sequences of calls -/

/-- A call that `mkfs` makes. -/
inductive Op
  | ialloc (type : IType)
  | iappend (inum : ℕ) (chunk : List UInt8)

/-- The call. -/
def Op.run : Op → MkfsM Unit
  | .ialloc type => do
    let _ ← Mkfs.ialloc type
    pure ()
  | .iappend inum chunk => Mkfs.iappend inum chunk

/-- The calls, on an image without files. -/
def build (ops : List Op) : MkfsM Unit := do
  format
  ops.forM Op.run

/-- What was appended to an inode. -/
def chunks (i : ℕ) : List Op → List UInt8
  | [] => []
  | .ialloc _ :: ops => chunks i ops
  | .iappend j chunk :: ops => if j = i then chunk ++ chunks i ops else chunks i ops

/-- The inodes are there, and there are less than `NINODES` of them; `k` is the next. -/
def Legal : ℕ → List Op → Prop
  | _, [] => True
  | k, .ialloc type :: ops => type ≠ .free ∧ k < nInodes ∧ Legal (k + 1) ops
  | k, .iappend i _ :: ops => (1 ≤ i ∧ i < k) ∧ Legal k ops

instance instDecidableLegal : (k : ℕ) → (ops : List Op) → Decidable (Legal k ops)
  | _, [] => isTrue trivial
  | k, .ialloc type :: ops =>
    have := instDecidableLegal (k + 1) ops
    inferInstanceAs (Decidable (type ≠ .free ∧ k < nInodes ∧ Legal (k + 1) ops))
  | k, .iappend i _ :: ops =>
    have := instDecidableLegal k ops
    inferInstanceAs (Decidable ((1 ≤ i ∧ i < k) ∧ Legal k ops))

variable {s : Image} {E : Stop → Prop} {i : ℕ} {content : ℕ → List UInt8}

theorem wp_ops {Q : Unit → Image → Prop} (ops : List Op) : ∀ {content : ℕ → List UInt8} {s : Image},
    Ok content s → Legal s.freeinode ops →
    ((∃ i, maxFile * bSize < (content i ++ chunks i ops).length) → E .assertion) →
    (fsSize < total (fun i => content i ++ chunks i ops) → E .read) →
    (∀ s', Ok (fun i => content i ++ chunks i ops) s' → Q () s') →
    wp (ops.forM Op.run) Q E s := by
  induction ops with
  | nil =>
    intro content s h _ _ _ hQ
    simp only [chunks, append_nil] at hQ
    exact wp_pure.2 (hQ s h)
  | cons op ops ih =>
    intro content s h hlegal hassert hread hQ
    show wp (op.run >>= fun _ => ops.forM Op.run) Q E s
    rw [wp_bind]
    cases op with
    | ialloc type =>
      obtain ⟨htype, hroom, hrest⟩ := hlegal
      show wp (Mkfs.ialloc type >>= fun _ => pure ()) _ E s
      refine wp_bind.2 (wp_ialloc htype h hroom fun s' h' hfi _ => wp_pure.2 ?_)
      exact ih h' (hfi ▸ hrest) hassert hread hQ
    | iappend i chunk =>
      obtain ⟨hi, hrest⟩ := hlegal
      have hnext : (fun j => update content i (content i ++ chunk) j ++ chunks j ops) =
          fun j => content j ++ chunks j (.iappend i chunk :: ops) := by
        funext j
        rw [chunks]
        by_cases hj : i = j
        · rw [if_pos hj, ← hj, update_self, append_assoc]
        · rw [if_neg hj, update_of_ne (Ne.symm hj)]
      have hle : ∀ j, (update content i (content i ++ chunk) j).length ≤
          (content j ++ chunks j (.iappend i chunk :: ops)).length := by
        intro j
        rw [← congrFun hnext j, length_append]
        exact le_add_right _ _
      show wp (Mkfs.iappend i chunk) _ E s
      refine wp_iappend h ((h.alloc i).2 hi) (fun hlt => hassert ⟨i, ?_⟩)
        (fun hlt => hread (lt_of_lt_of_le hlt (total_mono hle))) fun s' h' hfi _ => ?_
      · have hself := hle i
        rw [update_self] at hself
        omega
      · refine ih h' (hfi ▸ hrest) ?_ ?_ ?_
        · rintro ⟨j, hj⟩
          exact hassert ⟨j, by rwa [← congrFun hnext j]⟩
        · rw [hnext]
          exact hread
        · rw [hnext]
          exact hQ

theorem wp_build {Q : Unit → Image → Prop} {ops : List Op} (hlegal : Legal 1 ops)
    (hassert : (∃ i, maxFile * bSize < (chunks i ops).length) → E .assertion)
    (hread : fsSize < total (fun i => chunks i ops) → E .read)
    (hQ : ∀ s, Ok (fun i => chunks i ops) s → Q () s) : wp (build ops) Q E start := by
  exact wp_bind.2 (wp_format fun s h hfi => wp_ops ops h (hfi.symm ▸ hlegal) hassert hread hQ)

/-! ### The kernel mounts the image -/

/-- `iget`, `ilock` and `readi`. -/
def readFile (i off n : ℕ) : FsM (Option (List UInt8)) := do
  let ip ← iget i
  ilock ip
  readi ip off n n

/-- `iget`, `ilock` and `dirlookup`, for the root directory. -/
def lookupRoot (name : List UInt8) : FsM (Option (IPtr × ℕ)) := do
  let dp ← iget rootIno
  ilock dp
  dirlookup dp name

section Kernel

variable {t : Fs} {p : IPtr} {F : FsPanic → Prop} {dn : ℕ → Dinode}

theorem wp_iget_ilock {α : Type} {Q : α → Fs → Prop} {disk : ℕ → Block} {m : IPtr → FsM α}
    (htype : ((mount disk).dinode i).type ≠ .free)
    (hm : ∀ p t, t.data = disk → t.itable p = ⟨i, 1, true, (mount disk).dinode i⟩ →
      (∀ q, q ≠ p → (t.itable q).ref = 0) → wp (m p) Q F t) :
    wp (do let ip ← iget i; ilock ip; m ip) Q F (mount disk) := by
  have hfree : ∀ q, ((mount disk).itable q).ref = 0 := fun _ => rfl
  rw [wp_bind, iget, wp_bind, wp_get]
  split
  · rename_i p hfind
    have hp := List.find?_some hfind
    rw [decide_eq_true_eq] at hp
    exact absurd hp.1 (lt_irrefl _)
  · split
    · rename_i hfind
      exact absurd (decide_eq_true (hfree (0 : Fin 50)))
        (List.find?_eq_none.1 hfind (0 : Fin 50) (mem_finRange _))
    · rename_i p hfind
      refine wp_bind.2 (wp_modifyInode fun t1 _ hdata hdinode htable => wp_pure.2 ?_)
      have hself : t1.itable p = ⟨i, 1, false, ((mount disk).itable p).d⟩ := by
        rw [htable, update_self]
      rw [wp_bind, ilock, wp_bind, wp_get, if_neg (by rw [hself]; exact lt_irrefl 1),
        if_neg (by rw [hself]; exact Bool.false_ne_true),
          if_neg (by rw [hself, hdinode]; exact htype)]
      refine wp_modifyInode fun t2 _ hdata2 hdinode2 htable2 => hm p t2 (hdata2.trans hdata) ?_
        fun q hq => ?_
      · rw [htable2, update_self, hself, hdinode]
      · rw [htable2, update_of_ne hq, htable, update_of_ne hq, hfree]

theorem fbytes_eq {data : ℕ → Block} {d : Dinode} {bs : List UInt8} {off n : ℕ}
    (hbytes : ∀ x < bs.length, fbyte data d x = bs.getD x 0) (hn : off + n ≤ bs.length) :
    fbytes data d off n = (bs.drop off).take n := by
  refine ext_getElem (by rw [length_fbytes, length_take, length_drop]; omega)
    fun k hk hk' => ?_
  rw [length_fbytes] at hk
  simp only [fbytes, getElem_map, getElem_range, getElem_take, getElem_drop]
  rw [hbytes _ (by omega), getD_eq_getElem _ _ (by omega)]

theorem Layout.readFile (h : Layout content (inodes s) s) (hi : Allocated (inodes s) i)
    (hsize : (inodes s i).size = (content i).length) (off n : ℕ) :
    ∃ t, readFile i off n (mount s.disk) =
      .ok (some (if off + n < 2 ^ 32 then ((content i).drop off).take n else []), t) := by
  have hlt : i < nInodes := ninodes_eq ▸ hi.1
  have hres : readResult s.disk (inodes s i) off n n =
      some (if off + n < 2 ^ 32 then ((content i).drop off).take n else []) := by
    rw [readResult, hsize]
    split
    · rename_i hout
      split
      · rw [drop_eq_nil_of_le (by omega), take_nil]
      · rfl
    · rename_i hin
      rw [if_neg (by omega), if_pos (by omega), fbytes_eq (h.bytes i hi) (by omega)]
      congr 1
      rcases le_total n ((content i).length - off) with hle | hle
      · rw [min_eq_left hle]
      · rw [min_eq_right hle, take_of_length_le (by rw [length_drop]),
          take_of_length_le (by rwa [length_drop])]
  have hm : wp (Mkfs.readFile i off n) (fun r _ => r = some (if off + n < 2 ^ 32 then
      ((content i).drop off).take n else [])) (fun _ => False) (mount s.disk) := by
    refine wp_iget_ilock (by rw [mount_dinode hlt]; exact hi.2) fun p t hdata hp _ => ?_
    have hd : (t.itable p).d = inodes s i := by rw [hp, mount_dinode hlt]
    refine wp_readi_mapped (fun bn hbn => ?_) ?_
    · rw [hd, hdata]
      rw [hd] at hbn
      exact (h.mapped hi).2 (by omega)
    · rw [hd, hdata, hres]
  obtain ⟨r, t, hrun, rfl⟩ := hm.exists_ok
  exact ⟨t, hrun⟩

/-! ### Names -/

/-- **The loop of `dirlookup`** finds the first entry with the name, whatever comes after it. -/
theorem wp_lookupLoop_first {Q : Option (IPtr × ℕ) → Fs → Prop} {name : List UInt8} {k : ℕ}
    (hsize : direntSize * (k + 1) ≤ (t.itable p).d.size) (hfit : direntSize * (k + 1) < 2 ^ 32)
    (hmapped : ∀ bn, bn * bSize < direntSize * (k + 1) → blockNo t.data (t.itable p).d bn ≠ 0)
    (hmiss : ∀ m < k, (direntAt t.data (t.itable p).d m).name ≠ cname name)
    (hlive : (direntAt t.data (t.itable p).d k).inum ≠ 0)
    (hhit : (direntAt t.data (t.itable p).d k).name = cname name)
    (hQ : wp (iget (direntAt t.data (t.itable p).d k).inum)
      (fun q t' => Q (some (q, direntSize * k)) t') F t) :
    ∀ fuel m, m ≤ k → k < fuel + m → wp (lookupLoop p name fuel (direntSize * m)) Q F t := by
  have hcmp : ∀ m, namecmp name (direntAt t.data (t.itable p).d m).name = 0 ↔
      (direntAt t.data (t.itable p).d m).name = cname name := by
    intro m
    rw [namecmp_eq_zero, show cname (direntAt t.data (t.itable p).d m).name =
      _ from Dirent.cname_decode _]
    exact eq_comm
  intro fuel
  induction fuel with
  | zero =>
    intro m hm hlt
    omega
  | succ fuel ih =>
    intro m hm hlt
    have hle : direntSize * (m + 1) ≤ direntSize * (k + 1) := mul_le_mul_left _ (by omega)
    have hpos : direntSize = 16 := rfl
    rw [lookupLoop, wp_bind, wp_get, if_pos (by rw [mul_succ] at hle; omega)]
    refine wp_bind.2 (wp_readDirent_mapped (by omega) (by omega)
      (fun bn hbn => hmapped bn (by omega)) ?_)
    rcases lt_or_eq_of_le hm with hmk | rfl
    · have hnext := ih (m + 1) hmk (by omega)
      exact wp_ite (fun _ => hnext) fun _ => wp_ite (fun h => absurd ((hcmp m).1 h) (hmiss m hmk))
        fun _ => hnext
    · rw [if_neg hlive, if_pos ((hcmp m).2 hhit)]
      exact wp_bind.2 (hQ.mono fun q t' h => wp_pure.2 h)

theorem wp_iget_inum {j : ℕ} {q0 : IPtr} (hfree : (t.itable q0).ref = 0) :
    wp (iget j) (fun q t' => (t'.itable q).inum = j) F t := by
  refine wp_iget_cases (fun hno => absurd hfree (hno q0).1) (fun q t' _ hq _ ht => ?_)
    fun _ q t' _ _ ht => ?_
  · rw [ht, update_self]
    exact hq
  · rw [ht, update_self]

end Kernel

/-- The names in the root directory, with their inodes. -/
def rootEntries (files : List Input) : List (List UInt8 × ℕ) :=
  (dotName, rootIno) :: (dotdotName, rootIno) :: (files.zipIdx 2).map fun x => (x.1.name, x.2)

variable {files : List Input} {name : List UInt8} {j k m : ℕ}

theorem rootBytes_eq (files : List Input) :
    rootBytes files = (rootEntries files).flatMap fun x => Dirent.bytes (xshort x.2) x.1 := by
  have hentries : ∀ k, entries k files =
      ((files.zipIdx k).map fun x => (x.1.name, x.2)).flatMap fun x =>
      Dirent.bytes (xshort x.2) x.1 := by
    induction files with
    | nil => exact fun _ => rfl
    | cons f files ih =>
      intro k
      rw [entries, ih, zipIdx_cons, map_cons, flatMap_cons]
  rw [rootBytes, hentries, rootEntries, flatMap_cons, flatMap_cons, append_assoc]

theorem getElem?_rootEntries (files : List Input) (k : ℕ) :
    (rootEntries files)[k + 2]? = files[k]?.map fun f => (f.name, k + 2) := by
  show ((files.zipIdx 2).map fun x => (x.1.name, x.2))[k]? = _
  rw [List.getElem?_map, List.getElem?_zipIdx, Option.map_map, add_comm k 2]
  rfl

theorem rootEntries_inum (hm : (rootEntries files)[m]? = some (name, j)) :
    1 ≤ j ∧ j < files.length + 2 := by
  match m with
  | 0 =>
    obtain ⟨-, rfl⟩ := Prod.mk.inj (Option.some.inj hm)
    exact ⟨le_refl _, by rw [rootIno]; omega⟩
  | 1 =>
    obtain ⟨-, rfl⟩ := Prod.mk.inj (Option.some.inj hm)
    exact ⟨le_refl _, by rw [rootIno]; omega⟩
  | k + 2 =>
    rw [getElem?_rootEntries] at hm
    obtain ⟨f, hf, heq⟩ := Option.map_eq_some_iff.1 hm
    obtain ⟨-, rfl⟩ := Prod.mk.inj heq
    have hlt := (List.getElem?_eq_some_iff.1 hf).1
    omega

theorem Built.direntAt_root (h : Built files s) (hroot : Allocated (inodes s) rootIno)
    (hm : (rootEntries files)[m]? = some (name, j)) :
    direntAt s.disk (inodes s rootIno) m = ⟨j, cname name⟩ ∧
      direntSize * (m + 1) ≤ (rootBytes files).length := by
  have hhi := h.inodeHi
  have hin := nInodes_eq
  have hfi := h.freeinode
  have hj := rootEntries_inum hm
  obtain ⟨hlt, hget⟩ := List.getElem?_eq_some_iff.1 hm
  have hsize : ∀ x : List UInt8 × ℕ, (Dirent.bytes (xshort x.2) x.1).length = direntSize :=
    fun x => Dirent.length_bytes _ _
  have hlen : (rootBytes files).length = direntSize * (rootEntries files).length := by
    rw [rootBytes_eq]
    exact ByteSeq.length_flatMap_of_length hsize _
  have hle : direntSize * (m + 1) ≤ (rootBytes files).length := by
    rw [hlen]
    exact mul_le_mul_left _ hlt
  refine ⟨?_, hle⟩
  have hpiece := ByteSeq.take_drop_flatMap hsize (rootEntries files) m hlt
  rw [hget, ← rootBytes_eq] at hpiece
  have hbytes : fbytes s.disk (inodes s rootIno) (direntSize * m) direntSize =
      Dirent.bytes (xshort j) name := by
    rw [← hpiece]
    exact fbytes_eq (h.bytes rootIno hroot) hle
  rw [direntAt, hbytes, xshort_eq (by omega), Dirent.decode_bytes (by omega)]

/-- **`dirlookup` on the image** finds the first entry with the name. -/
theorem Built.lookupRoot (h : Built files s) (hm : (rootEntries files)[m]? = some (name, j))
    (hfirst : ∀ l < m, ∀ x, (rootEntries files)[l]? = some x → cname x.1 ≠ cname name) :
    ∃ t q, lookupRoot name (mount s.disk) = .ok (some (q, direntSize * m), t) ∧
      (t.itable q).inum = j := by
  have hhi := h.inodeHi
  have hin := nInodes_eq
  have hfi := h.freeinode
  have hlt : rootIno < nInodes := by decide
  have hroot : Allocated (inodes s) rootIno := (h.alloc _).2 ⟨le_refl _, by rw [rootIno]; omega⟩
  obtain ⟨hentry, hle⟩ := h.direntAt_root hroot hm
  have hj := rootEntries_inum hm
  have hlen := length_rootBytes files
  have hdir : direntSize = 16 := rfl
  have hsize : (rootBytes files).length ≤ (inodes s rootIno).size := by
    rw [h.rootSize, succ_mul]
    have hdm := div_add_mod (rootBytes files).length bSize
    have hmod : (rootBytes files).length % bSize < bSize := mod_lt _ (by decide)
    rw [mul_comm] at hdm
    omega
  have hfit : direntSize * (m + 1) < 2 ^ 32 ∧ m < (inodes s rootIno).size := by
    rw [hdir] at hlen hle ⊢
    omega
  have hm' : wp (Mkfs.lookupRoot name) (fun r t => ∃ q, r = some (q, direntSize * m) ∧
      (t.itable q).inum = j) (fun _ => False) (mount s.disk) := by
    refine wp_iget_ilock (by exact hroot.2) fun p t hdata hp hfree => ?_
    have hd : (t.itable p).d = inodes s rootIno := by rw [hp, mount_dinode hlt]
    -- some other entry of the table is free
    obtain ⟨q0, hq0⟩ : ∃ q0 : IPtr, q0 ≠ p := exists_ne (α := Fin 50) p
    rw [dirlookup, wp_bind, wp_get, if_neg (by rw [hd, h.root]; exact fun hne => hne rfl)]
    refine wp_lookupLoop_first (k := m) ?_ hfit.1 (fun bn hbn => ?_) (fun l hl => ?_) ?_ ?_ ?_
      (t.itable p).d.size 0 (zero_le _) ?_
    · rw [hd]
      omega
    · rw [hd, hdata]
      exact (h.mapped hroot).2 (lt_of_lt_of_le hbn hle)
    · have hin : l < (rootEntries files).length := lt_trans hl (List.getElem?_eq_some_iff.1 hm).1
      have hget := List.getElem?_eq_getElem hin
      rw [hd, hdata, (h.direntAt_root hroot hget).1]
      exact hfirst l hl _ hget
    · rw [hd, hdata, hentry]
      exact ne_of_gt hj.1
    · rw [hd, hdata, hentry]
    · rw [hd, hdata, hentry]
      exact (wp_iget_inum (hfree q0 hq0)).mono fun q t' hq => ⟨q, rfl, hq⟩
    · rw [hd]
      exact hfit.2
  obtain ⟨r, t, hrun, q, rfl, hq⟩ := hm'.exists_ok
  exact ⟨t, q, hrun, hq⟩

theorem cname_of_noZero (hzero : 0 ∉ name) (hlen : name.length ≤ dirSiz) : cname name = name := by
  rw [cname, charField, take_of_length_le hlen, takeWhile_eq_self_iff]
  exact fun c hc => decide_eq_true fun heq => hzero (heq ▸ hc)

theorem Input.noZero_name (f : Input) : 0 ∉ f.name := by
  intro hmem
  refine f.noZero ?_
  have hshort : 0 ∈ shortname f.path := by
    rw [Input.name, skipUnderscore] at hmem
    split at hmem
    · exact mem_of_mem_drop hmem
    · exact hmem
  rw [shortname] at hshort
  split at hshort
  · exact mem_of_mem_drop hshort
  · exact hshort

theorem rootEntries_first {f : Input} (hnodup : (files.map Input.name).Nodup)
    (hnames : ∀ f ∈ files, f.name.length ≤ dirSiz ∧ f.name ≠ dotName ∧ f.name ≠ dotdotName)
    (hf : files[k]? = some f) :
    ∀ l < k + 2, ∀ x, (rootEntries files)[l]? = some x → cname x.1 ≠ cname f.name := by
  intro l hl x hx
  obtain ⟨hlen, hdot, hdotdot⟩ := hnames f (mem_of_getElem? hf)
  rw [cname_of_noZero f.noZero_name hlen]
  match l with
  | 0 =>
    obtain rfl := Option.some.inj hx
    exact fun heq => hdot heq.symm
  | 1 =>
    obtain rfl := Option.some.inj hx
    exact fun heq => hdotdot heq.symm
  | l + 2 =>
    rw [getElem?_rootEntries] at hx
    obtain ⟨g, hg, rfl⟩ := Option.map_eq_some_iff.1 hx
    rw [cname_of_noZero g.noZero_name (hnames g (mem_of_getElem? hg)).1]
    intro heq
    have hlt : k < (files.map Input.name).length := by
      rw [length_map]
      exact (List.getElem?_eq_some_iff.1 hf).1
    refine nodup_iff_getElem?_ne_getElem?.1 hnodup l k (by omega) hlt ?_
    rw [List.getElem?_map, List.getElem?_map, hf, hg]
    exact congrArg some heq

/-- **The kernel reads what `mkfs` wrote**: the bytes that were appended to an inode, and, under
their names, the inodes of the input files. -/
theorem kernel_reads_image :
    (∀ (ops : List Op) (s : Image), Legal 1 ops → build ops start = .ok ((), s) →
      ∀ i, 1 ≤ i → i < s.freeinode → ∀ off n, ∃ t, readFile i off n (mount s.disk) =
        .ok (some (if off + n < 2 ^ 32 then ((chunks i ops).drop off).take n else []), t)) ∧
    ∀ (files : List Input) (s : Image), files.length + 2 ≤ nInodes →
      main files start = .ok ((), s) → (files.map Input.name).Nodup →
      (∀ f ∈ files, f.name.length ≤ dirSiz ∧ f.name ≠ dotName ∧ f.name ≠ dotdotName) →
      ∀ k f, files[k]? = some f → ∃ t q off,
        lookupRoot f.name (mount s.disk) = .ok (some (q, off), t) ∧ (t.itable q).inum = k + 2 := by
  constructor
  · intro ops s hlegal hrun i hlo hhi off n
    have hm : wp (build ops) (fun _ s => Ok (fun i => chunks i ops) s) (fun _ => True) start :=
      wp_build hlegal (fun _ => trivial) (fun _ => trivial) fun _ hs => hs
    have hs := hm.of_ok hrun
    have hi : Allocated (inodes s) i := (hs.alloc i).2 ⟨hlo, hhi⟩
    exact hs.toLayout.readFile hi (hs.size i hi) off n
  · intro files s hroom hrun hnodup hnames k f hf
    have hm : wp (main files) (fun _ s => Built files s) (fun _ => True) start :=
      wp_main hroom (fun _ _ => trivial) fun _ hs => hs
    have hentry : (rootEntries files)[k + 2]? = some (f.name, k + 2) := by
      rw [getElem?_rootEntries, hf]
      rfl
    obtain ⟨t, q, hlookup, hq⟩ := (hm.of_ok hrun).lookupRoot hentry
      (rootEntries_first hnodup hnames hf)
    exact ⟨t, q, _, hlookup, hq⟩

theorem exists_build_one : ∃ s, build [.ialloc .file, .iappend 1 [7]] start = .ok ((), s) ∧
    Ok (fun i => chunks i [.ialloc .file, .iappend 1 [7]]) s := by
  have hchunks : (fun i => chunks i [.ialloc .file, .iappend 1 [7]]) =
      update (fun _ => []) 1 [7] := by
    funext i
    by_cases hi : i = 1
    · rw [hi]
      rfl
    · rw [update_of_ne hi]
      exact if_neg (Ne.symm hi)
  have hm : wp (build [.ialloc .file, .iappend 1 [7]])
      (fun _ s => Ok (fun i => chunks i [.ialloc .file, .iappend 1 [7]]) s) (fun _ => False)
      start := by
    refine wp_build (by decide) ?_ ?_ fun _ hs => hs
    · rintro ⟨i, hi⟩
      have hmax : maxFile * bSize = 274432 := by decide
      rw [congrFun hchunks i, update_apply] at hi
      split at hi
      · rw [length_singleton] at hi
        omega
      · rw [length_nil] at hi
        omega
    · intro hlt
      have htotal := total_update (fun _ => []) (i := 1) (by decide) [7]
      have hcost : cost ([7] : List UInt8).length = 1 := by decide
      have hmeta := nmeta_eq
      have hfs := fsSize_eq
      rw [total_empty, ← hchunks] at htotal
      omega
  obtain ⟨_, s, hrun, hs⟩ := hm.exists_ok
  exact ⟨s, hrun, hs⟩

theorem kernel_reads_one_file :
    (∃ s t, build [.ialloc .file, .iappend 1 [7]] start = .ok ((), s) ∧
      readFile 1 0 5 (mount s.disk) = .ok (some [7], t)) ∧
    ∃ s t q off, main [emptyFile] start = .ok ((), s) ∧
      lookupRoot emptyFile.name (mount s.disk) = .ok (some (q, off), t) ∧
      (t.itable q).inum = 2 := by
  constructor
  · obtain ⟨s, hrun, hs⟩ := exists_build_one
    have hi : Allocated (inodes s) 1 := by
      by_contra hno
      exact absurd (hs.empty 1 hno) (by decide)
    obtain ⟨hlo, hhi⟩ := (hs.alloc 1).1 hi
    obtain ⟨t, hread⟩ := kernel_reads_image.1 [.ialloc .file,
      .iappend 1 [7]] s (by decide) hrun 1 hlo hhi 0 5
    exact ⟨s, t, hrun, hread⟩
  · obtain ⟨s, hrun, -⟩ := exists_main (by decide) (accepted_replicate (n := 1) (by decide))
    obtain ⟨t, q, off, hlookup, hq⟩ := kernel_reads_image.2 [emptyFile] s (by decide) hrun
      (by decide) (by decide) 0 emptyFile rfl
    exact ⟨s, t, q, off, hrun, hlookup, hq⟩

/-- The file `.` is entered in the root directory, and not found there. -/
theorem main_dot_file : ∃ s t q off, main [⟨dotName, some [], by decide⟩] start = .ok ((), s) ∧
    lookupRoot dotName (mount s.disk) = .ok (some (q, off), t) ∧ (t.itable q).inum = rootIno := by
  have hacc : Accepted [⟨dotName, some [], by decide⟩] := by
    refine accepted_of_small (fun f hf => ?_) (by decide) (by decide)
    rw [mem_singleton.1 hf]
    exact ⟨by decide, by decide, by decide, by decide⟩
  obtain ⟨s, hrun, hs⟩ := exists_main (by decide) hacc
  obtain ⟨t, q, hlookup, hq⟩ := hs.lookupRoot (m := 0) rfl fun l hl => absurd hl (not_lt_zero l)
  exact ⟨s, t, q, _, hrun, hlookup, hq⟩

end CsklubOs.Mkfs
