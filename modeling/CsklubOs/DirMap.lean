/-
**A directory is a finite map.**

What `dirlookup`, `dirlink` and the zeroing of an entry in `sys_unlink` are for.  The only thing
that is asked of the rest of the file system is that the blocks of the directory are its own and
that somebody holds it; the numbers in the entries need not be those of inodes.

Main definitions:

* `nameTable` — the entries in use, as a map from names to inode numbers;
* `DirRun` — any sequence of such calls, with slots that are used again.

Main results:

* `directory_is_map` — the calls are lookup, insertion and removal in that map.
-/

import CsklubOs.Directory
import CsklubOs.FileBytes
import CsklubOs.SlotMap

set_option autoImplicit false

namespace CsklubOs

open Function Option Nat

/-- The name and the number in an entry that is in use. -/
def Dirent.slot (e : Dirent) : Option (List UInt8 × ℕ) :=
  if e.inum = 0 then none else some (e.name, e.inum)

namespace Fs

open Wp

variable [Superblock] {s s' : Fs} {p : IPtr} {E : FsPanic → Prop} {k : ℕ} {name : List UInt8}

/-! ### When a file can grow -/

/-- A block that `balloc` may take. -/
def FreeBlock (s : Fs) (b : ℕ) : Prop := b < Superblock.size ∧ s.used b = false

/-- There are blocks enough for block `bn` of a file: none if it is mapped, two if the indirect
block is missing as well. -/
def Room (s : Fs) (d : Dinode) (bn : ℕ) : Prop :=
  blockNo s.data d bn ≠ 0 ∨
    if nDirect ≤ bn ∧ d.addrs indirect = 0 then ∃ b c, b ≠ c ∧ FreeBlock s b ∧ FreeBlock s c
    else ∃ b, FreeBlock s b

theorem wp_balloc_free {Q : ℕ → Fs → Prop} (hboot : s.used 0 = true)
    (hnone : (∀ b, ¬ FreeBlock s b) → Q 0 s)
    (hsome : ∀ b s', b ≠ 0 → FreeBlock s b → s'.used = update s.used b true →
      s'.data = update s.data b Block.zero → s'.itable = s.itable → Q b s') : wp balloc Q E s := by
  rw [balloc, wp_bind, wp_get]
  split
  · rename_i hnone'
    refine wp_pure.2 (hnone ?_)
    rintro b ⟨hlt, hfree⟩
    rw [firstFree_eq_none hnone' (zero_le b) (by omega)] at hfree
    cases hfree
  · rename_i b hsome'
    obtain ⟨-, hlt, hfree⟩ := firstFree_eq_some hsome'
    have hb : b ≠ 0 := by
      rintro rfl
      rw [hfree] at hboot
      cases hboot
    rw [wp_bind, wp_set, logWrite, wp_bind, wp_modify, bzero, logWrite, modifyBlock, wp_bind,
      wp_bind, wp_modify, wp_modify, wp_pure]
    exact hsome b _ hb ⟨by omega, hfree⟩ rfl rfl rfl

theorem wp_mapEntry_free (hboot : s.used 0 = true) (a j : ℕ) :
    wp (mapEntry a j) (fun addr _ => addr ≠ 0 ↔ (s.data a).word (4 * j) ≠ 0 ∨ ∃ b, FreeBlock s b)
      E s := by
  rw [mapEntry, wp_bind, wp_get]
  refine wp_ite (fun h0 => ?_) fun h0 => wp_pure.2 (iff_of_true h0 (.inl h0))
  rw [wp_bind]
  refine wp_balloc_free hboot (fun hno => ?_) fun b s1 hb hfree _ _ _ => ?_
  · exact wp_pure.2 (iff_of_false (fun h => h rfl) fun h => h.elim (fun h => h h0) fun h =>
      h.elim hno)
  · rw [if_neg hb, wp_bind, modifyBlock, wp_modify, wp_bind, logWrite, wp_modify]
    exact wp_pure.2 (iff_of_true hb (.inr ⟨b, hfree⟩))

theorem wp_bmap_room (hboot : s.used 0 = true) {bn : ℕ} (hbn : bn < maxFile) :
    wp (bmap p bn) (fun addr _ => addr ≠ 0 ↔ Room s (s.itable p).d bn) E s := by
  unfold bmap
  split
  · rename_i hd
    rw [Room, blockNo_of_slot (dif_pos hd), if_neg fun h => absurd h.1 (not_le.2 hd), mapAddr,
      wp_bind, wp_get]
    refine wp_ite (fun h0 => ?_) fun h0 => wp_pure.2 (iff_of_true h0 (.inl h0))
    rw [wp_bind]
    refine wp_balloc_free hboot (fun hno => ?_) fun b s1 hb hfree _ _ _ => ?_
    · exact wp_pure.2 (iff_of_false (fun h => h rfl) fun h =>
        h.elim (fun h => h h0) fun h => h.elim hno)
    · rw [if_neg hb, wp_bind, setAddr, modifyD, modifyInode, wp_modify]
      exact wp_pure.2 (iff_of_true hb (.inr ⟨b, hfree⟩))
  · rename_i hd
    obtain ⟨hlt, hslot⟩ := slotOfBlock_entry hbn hd
    rw [if_pos hlt, wp_bind, mapAddr, wp_bind, wp_get, Room, blockNo_of_slot hslot, slotVal]
    refine wp_ite (fun h0 => ?_) fun h0 => ?_
    · -- the indirect block is missing: two blocks are needed
      rw [if_pos h0, if_pos ⟨not_lt.1 hd, h0⟩, wp_bind]
      refine wp_balloc_free hboot (fun hno => ?_) fun b s1 hb hfree hused hdata _ => ?_
      · rw [if_pos rfl, wp_pure]
        exact wp_pure.2 (iff_of_false (fun h => h rfl) fun h =>
          h.elim (fun h => h rfl) fun h => h.elim fun b h => h.elim fun _ h => hno b h.2.1)
      · rw [if_neg hb, wp_bind]
        refine wp_modifyD fun s2 hu2 hd2 _ _ => ?_
        rw [wp_pure, if_neg hb]
        have hboot2 : s2.used 0 = true := by rw [hu2, hused, update_of_ne hb.symm, hboot]
        refine (wp_mapEntry_free hboot2 b (bn - nDirect)).mono fun addr _ haddr => haddr.trans ?_
        rw [hd2, hdata, update_self, Block.word_zero]
        have hleft : ∀ c, FreeBlock s2 c ↔ c ≠ b ∧ FreeBlock s c := by
          intro c
          rw [FreeBlock, hu2, hused]
          by_cases hc : c = b
          · rw [hc, update_self]
            exact iff_of_false (fun h => by cases h.2) fun h => h.1 rfl
          · rw [update_of_ne hc]
            exact ⟨fun h => ⟨hc, h⟩, fun h => h.2⟩
        refine or_congr_right ⟨?_, ?_⟩
        · rintro ⟨c, hc⟩
          have hc' := (hleft c).1 hc
          exact ⟨c, b, hc'.1, hc'.2, hfree⟩
        · rintro ⟨c, d, hcd, hc, hd'⟩
          by_cases hcb : c = b
          · exact ⟨d, (hleft d).2 ⟨fun hdb => hcd (hcb.trans hdb.symm), hd'⟩⟩
          · exact ⟨c, (hleft c).2 ⟨hcb, hc⟩⟩
    · rw [wp_pure, if_neg h0, if_neg h0, if_neg fun h => h0 h.2]
      exact wp_mapEntry_free hboot _ _

/-! ### Writing an entry -/

/-- There is no place behind the entries of the directory. -/
def CannotGrow (s : Fs) (d : Dinode) : Prop :=
  maxFile * bSize ≤ d.size ∨ ¬ Room s d (d.size / bSize)

theorem wp_writei_room (hboot : s.used 0 = true) {src : List UInt8} (hsrc : src.length = direntSize)
    (hoff : direntSize * k ≤ (s.itable p).d.size) (hmax : (s.itable p).d.size ≤ maxFile * bSize) :
    wp (writei p src (direntSize * k) direntSize) (fun r _ => r = some direntSize ↔
      direntSize * k < maxFile * bSize ∧ Room s (s.itable p).d (direntSize * k / bSize)) E s := by
  have h16 : direntSize * k = 16 * k := rfl
  have hsize : direntSize = 16 := rfl
  have hb : bSize = 1024 := rfl
  have hm : maxFile * bSize = 16 * 17152 := rfl
  rw [writei, wp_bind, wp_get, if_neg (by omega)]
  refine wp_ite (fun hbig => ?_) fun hbig => ?_
  · exact wp_pure.2 (iff_of_false (by simp) fun h => by omega)
  · have hbn : direntSize * k / bSize < maxFile :=
      (div_lt_iff_lt_mul (by decide)).2 (by omega)
    have hfit : min (direntSize - 0) (bSize - direntSize * k % bSize) = direntSize := by
      rw [hb]
      omega
    rw [wp_bind, show writeLoop p src direntSize direntSize 0 (direntSize * k) =
      writeLoop p src direntSize (15 + 1) 0 (direntSize * k) from rfl, writeLoop,
      if_pos (by decide), wp_bind]
    refine (wp_bmap_room hboot hbn).mono fun addr s1 haddr => wp_ite (fun h0 => ?_) fun h0 => ?_
    · rw [wp_pure, wp_bind, modifyD, modifyInode, wp_modify, wp_bind, iupdate, wp_bind, wp_get,
        wp_bind, wp_set, logWrite, wp_modify]
      refine wp_pure.2 (iff_of_false (fun h => ?_) fun h => haddr.2 h.2 h0)
      cases h
    · rw [wp_bind, modifyBlock, wp_modify, hfit, if_neg (by omega), wp_bind, logWrite, wp_modify,
        writeLoop, if_neg (by decide), wp_pure, wp_bind, modifyD, modifyInode, wp_modify, wp_bind,
        iupdate, wp_bind, wp_get, wp_bind, wp_set, logWrite, wp_modify]
      exact wp_pure.2 (iff_of_true rfl ⟨by omega, haddr.1 h0⟩)

theorem DirHeld.written {src : List UInt8} {tot : ℕ} (h : DirHeld p s)
    (hw : HeldWrite p src (direntSize * k) direntSize tot s s') (hsrc : src.length = direntSize)
    (hk : k ≤ (slotsAt s p).length) :
    DirHeld p s' ∧ slotsAt s' p = if tot = direntSize then placeAt (slotsAt s p) k
    (Dirent.decode src)
      else slotsAt s p := by
  have htot := write_whole hw.le hw.cut
  obtain ⟨a, ha⟩ := hw.itable
  obtain ⟨a', hself⟩ := hw.d_eq
  have hinum : (s'.itable p).inum = (s.itable p).inum := by
    rw [ha, update_self]
    rfl
  have heff : s'.eff p = s'.dinode := by
    rw [eff, hinum, hw.dinode, update_idem]
  refine ⟨⟨⟨?_, ?_⟩, ?_, ?_⟩, ?_⟩
  · rw [heff]
    exact hw.disk
  · have hi := h.ok.alloc
    rw [Allocated, eff_self] at hi
    rw [Allocated, eff_self, hinum, hself]
    exact hi
  · rw [hself]
    exact h.dir
  · have hoff : direntSize ∣ direntSize * k + tot := by
      rcases htot with rfl | rfl
      · exact dvd_mul_right _ _
      · exact (Nat.dvd_add_right (Nat.dvd_mul_right _ _)).2 dvd_rfl
    rw [hself]
    rcases max_choice (s.itable p).d.size (direntSize * k + tot) with hmax | hmax
    · rw [hmax]
      exact h.whole
    · rwa [hmax]
  · exact dirents_written hsrc h.whole hk htot (by rw [hself]) (hw.bytes (by rw [hsrc]))

/-- **Writing an entry** into a slot, or behind the last. -/
theorem wp_writeEntry_held (h : DirHeld p s) (src : List UInt8) (hsrc : src.length = direntSize)
    (hk : k ≤ (slotsAt s p).length) :
    wp (writei p src (direntSize * k) direntSize) (fun r s' => DirHeld p s' ∧
      (∀ q, (s'.itable q).ref = (s.itable q).ref) ∧
      (r = some direntSize ↔ k < (slotsAt s p).length ∨ ¬ CannotGrow s (s.itable p).d) ∧
      slotsAt s' p = if r = some direntSize then placeAt (slotsAt s p) k (Dirent.decode src)
        else slotsAt s p) E s := by
  have hlen := h.length_slots
  have hmax := h.size_le
  have hpos : 0 < direntSize := by decide
  have hoff : direntSize * k ≤ (s.itable p).d.size := by
    rw [← hlen]
    exact mul_le_mul_left _ hk
  have hboot : s.used 0 = true :=
    h.ok.disk.reserved 0 (by have := Superblock.nblocks_lt; omega)
  -- the condition for success, in terms of the slots
  have hroom : (direntSize * k < maxFile * bSize ∧ Room s (s.itable p).d (direntSize * k / bSize)) ↔
      k < (slotsAt s p).length ∨ ¬ CannotGrow s (s.itable p).d := by
    rw [CannotGrow, not_or, not_le, not_not]
    rcases lt_or_eq_of_le hk with hlt | rfl
    · have hin : direntSize * k < (s.itable p).d.size := by
        rw [← hlen]
        exact mul_lt_mul_of_pos_left hlt hpos
      refine iff_of_true ⟨by omega, .inl (h.mapped ?_)⟩ (.inl hlt)
      exact lt_of_le_of_lt (div_mul_le_self _ _) hin
    · rw [hlen]
      exact ⟨.inr, fun hor => hor.resolve_left (lt_irrefl _)⟩
  refine ((wp_writei_held (Q := fun r s' => DirHeld p s' ∧
    (∀ q, (s'.itable q).ref = (s.itable q).ref) ∧
    slotsAt s' p = if r = some direntSize then placeAt (slotsAt s p) k (Dirent.decode src)
      else slotsAt s p) h.ok (fun _ => ?_) fun tot s' hw => ?_).and
    (wp_writei_room hboot hsrc hoff hmax)).mono fun r s' ⟨⟨h', href, hslots⟩, hr⟩ =>
      ⟨h', href, hr.trans hroom, hslots⟩
  · exact ⟨h, fun _ => rfl, (if_neg nofun).symm⟩
  · obtain ⟨h', hslots⟩ := h.written hw hsrc hk
    obtain ⟨a, ha⟩ := hw.itable
    refine ⟨h', fun q => ?_, ?_⟩
    · rw [ha]
      by_cases hq : q = p
      · rw [hq, update_self]
        rfl
      · rw [update_of_ne hq]
    · rw [hslots]
      simp only [some_inj]

/-! ### Looking up names -/

omit [Superblock] in
/-- The slots of the directory that `p` refers to. -/
def nameTable (s : Fs) (p : IPtr) : List (Option (List UInt8 × ℕ)) := (slotsAt s p).map Dirent.slot

/-- The first entry in use with a name. -/
def findName (l : List Dirent) (key : List UInt8) : Option Dirent :=
  l.find? fun e => e.inum ≠ 0 ∧ e.name = key

section

omit [Superblock]

theorem lookup_slots (l : List Dirent) (key : List UInt8) :
    SlotMap.lookup (l.map Dirent.slot) key = (findName l key).map Dirent.inum := by
  induction l with
  | nil => rfl
  | cons e l ih =>
    rw [SlotMap.lookup, findName] at ih ⊢
    rw [List.map_cons, List.findSome?_cons, ih]
    by_cases hlive : e.inum = 0
    · simp [Dirent.slot, SlotMap.slotValue, hlive]
    · by_cases hname : e.name = key
      · simp [Dirent.slot, SlotMap.slotValue, hlive, hname]
      · simp [Dirent.slot, SlotMap.slotValue, hlive, hname]

theorem lookup_nameTable (s : Fs) (p : IPtr) (key : List UInt8) :
    SlotMap.lookup (nameTable s p) key = (findName (slotsAt s p) key).map Dirent.inum :=
  lookup_slots _ _

theorem getElem?_nameTable (s : Fs) (p : IPtr) (k : ℕ) :
    (nameTable s p)[k]? = (slotsAt s p)[k]?.map Dirent.slot :=
  List.getElem?_map ..

end

theorem DirHeld.congr (h : DirHeld p s) (hdisk : SameDisk s s')
    (hinum : (s'.itable p).inum = (s.itable p).inum) (hd : (s'.itable p).d = (s.itable p).d) :
    DirHeld p s' ∧ slotsAt s' p = slotsAt s p := by
  have heff : s'.eff p = s.eff p := by rw [eff, eff, hdisk.dinode, hinum, hd]
  refine ⟨⟨⟨?_, ?_⟩, by rw [hd, h.dir], by rw [hd]; exact h.whole⟩,
    by rw [slotsAt, slotsAt, hd, hdisk.data]⟩
  · rw [heff, hdisk.used, hdisk.data]
    exact h.ok.disk
  · rw [heff, hinum]
    exact h.ok.alloc

/-- What `dirlookup` returns for an entry that it finds, and the state it leaves. -/
structure Found (p : IPtr) (name : List UInt8) (s : Fs) (q : IPtr) (off : ℕ) (s' : Fs) : Prop where
  entry : ∃ k e, off = direntSize * k ∧ (slotsAt s p)[k]? = some e ∧ e.inum ≠ 0 ∧
    e.name = cname name ∧ findName (slotsAt s p) (cname name) = some e ∧ (s'.itable q).inum = e.inum
  disk : SameDisk s s'
  held : DirHeld p s'
  ref : 0 < (s'.itable p).ref
  slots : slotsAt s' p = slotsAt s p

theorem wp_dirlookup_found (h : DirHeld p s) (href : 0 < (s.itable p).ref)
    (hE : ∀ e, findName (slotsAt s p) (cname name) = some e → NoEntry s e.inum → E .igetNoInodes) :
    wp (dirlookup p name) (fun r s' =>
      (r = none ∧ s' = s ∧ findName (slotsAt s p) (cname name) = none) ∨
        ∃ q off, r = some (q, off) ∧ Found p name s q off s') E s := by
  refine wp_dirlookup_held h (fun hnone => .inl ⟨rfl, rfl, hnone⟩) fun k e hk hlive hname hfind =>
    ?_
  -- the entry of the directory itself keeps its inode, whichever entry `iget` takes
  refine wp_iget_cases (hE e hfind) (fun q s' _ hinum hdisk ht => ?_) fun _ q s' hfree hdisk ht =>
    ?_
  · have hp : (s'.itable p).inum = (s.itable p).inum ∧ (s'.itable p).d = (s.itable p).d ∧
        0 < (s'.itable p).ref := by
      rw [ht]
      by_cases hpq : p = q
      · rw [hpq, update_self]
        exact ⟨rfl, rfl, succ_pos _⟩
      · rw [update_of_ne hpq]
        exact ⟨rfl, rfl, href⟩
    obtain ⟨h', hslots⟩ := h.congr hdisk hp.1 hp.2.1
    refine .inr ⟨q, _, rfl, ⟨k, e, rfl, hk, hlive, hname, hfind, ?_⟩, hdisk, h', hp.2.2, hslots⟩
    rw [ht, update_self]
    exact hinum
  · have hpq : p ≠ q := by
      rintro rfl
      omega
    have hp : s'.itable p = s.itable p := by rw [ht, update_of_ne hpq]
    obtain ⟨h', hslots⟩ := h.congr hdisk (by rw [hp]) (by rw [hp])
    refine .inr ⟨q, _, rfl, ⟨k, e, rfl, hk, hlive, hname, hfind, ?_⟩, hdisk, h', by rwa [hp],
      hslots⟩
    rw [ht, update_self]

/-- `dirlookup` finds what the map has under a name, and `iget` may find no entry for it. -/
def Finds (p : IPtr) (s : Fs) (name : List UInt8) : Option ℕ → Prop
  | none => dirlookup p name s = .ok (none, s)
  | some inum =>
    (∃ q k s', dirlookup p name s = .ok (some (q, direntSize * k), s') ∧ (s'.itable q).inum = inum ∧
      (slotsAt s p)[k]? = some ⟨inum, cname name⟩ ∧ SameDisk s s') ∨
    (NoEntry s inum ∧ dirlookup p name s = .error .igetNoInodes)

theorem finds_nameTable (h : DirHeld p s) (href : 0 < (s.itable p).ref) (name : List UInt8) :
    Finds p s name (SlotMap.lookup (nameTable s p) (cname name)) := by
  rw [lookup_nameTable]
  cases hfind : findName (slotsAt s p) (cname name) with
  | none =>
    obtain ⟨r, s', hrun, hr⟩ := (wp_dirlookup_found (E := fun _ => False) h href
      fun e he => by rw [hfind] at he; cases he).exists_ok
    rcases hr with ⟨rfl, rfl, -⟩ | ⟨q, off, -, hf⟩
    · exact hrun
    · obtain ⟨k, e, -, -, -, -, he, -⟩ := hf.entry
      rw [hfind] at he
      cases he
  | some e =>
    by_cases hno : NoEntry s e.inum
    · refine .inr ⟨hno, eq_error_of_wp (wp_dirlookup_held h (fun hnone => ?_)
        fun k e' _ _ _ he' => ?_)⟩
      · rw [show (slotsAt s p).find? _ = findName (slotsAt s p) (cname name) from rfl,
          hfind] at hnone
        cases hnone
      · obtain rfl : e = e' := some_inj.1 (hfind.symm.trans he')
        exact wp_iget_cases (fun _ => rfl) (fun q _ _ hq => absurd hq (hno q).2)
          fun _ q _ hq => absurd hq (hno q).1
    · obtain ⟨r, s', hrun, hr⟩ := (wp_dirlookup_found (E := fun _ => False) h href fun e' he' => by
        rw [hfind, some_inj] at he'
        rwa [← he']).exists_ok
      rcases hr with ⟨-, -, hnone⟩ | ⟨q, off, rfl, hf⟩
      · rw [hfind] at hnone
        cases hnone
      · obtain ⟨k, e', rfl, hk, -, hname, he', hinum⟩ := hf.entry
        obtain rfl : e = e' := some_inj.1 (hfind.symm.trans he')
        refine .inl ⟨q, k, s', hrun, hinum, ?_, hf.disk⟩
        rw [hk, ← hname]

/-! ### Adding and removing names -/

omit [Superblock] in
/-- Slot `k` is the first that is free, or the place behind the last if none is. -/
structure FirstFree (l : List Dirent) (k : ℕ) : Prop where
  le : k ≤ l.length
  free : ∀ e, l[k]? = some e → e.inum = 0
  first : ∀ m e, m < k → l[m]? = some e → e.inum ≠ 0

omit [Superblock] in
theorem FirstFree.lt_iff {l : List Dirent} (h : FirstFree l k) :
    k < l.length ↔ ¬ ∀ e ∈ l, e.inum ≠ 0 := by
  constructor
  · intro hlt hlive
    have hget := List.getElem?_eq_getElem hlt
    exact hlive _ (List.mem_of_getElem? hget) (h.free _ hget)
  · intro hno
    by_contra hge
    refine hno fun e he => ?_
    obtain ⟨m, hm⟩ := List.mem_iff_getElem?.1 he
    have hlt := (List.getElem?_eq_some_iff.1 hm).1
    exact h.first m e (by omega) hm

theorem wp_iput_kept {Q : Unit → Fs → Prop} {q : IPtr}
    (hno : ¬ ((s.itable q).ref = 1 ∧ (s.itable q).valid = true ∧ (s.itable q).d.nlink = 0))
    (hQ : ∀ s', SameDisk s s' →
      s'.itable = update s.itable q { s.itable q with ref := (s.itable q).ref - 1 } →
      Q () s') : wp (iput q) Q E s := by
  rw [iput, wp_bind, freeUnlinked, wp_bind, wp_get, if_neg hno, wp_pure]
  exact wp_modifyInode fun s' hu hd hn ht => hQ s' ⟨hu, hd, hn⟩ ht

/-- **A reference that is taken and dropped** frees no inode: it is not the only one, or the entry
is not valid. -/
theorem wp_iget_iput {Q : Unit → Fs → Prop} {i : ℕ} (hE : NoEntry s i → E .igetNoInodes)
    (hQ : ∀ s', SameDisk s s' → (∀ q, (s'.itable q).ref = (s.itable q).ref) →
      (∀ q, 0 < (s.itable q).ref → s'.itable q = s.itable q) → Q () s') :
    wp (iget i) (fun q s' => wp (iput q) Q E s') E s := by
  refine wp_iget_cases hE (fun q s1 href _ hdisk ht => ?_) fun _ q s1 href hdisk ht => ?_
  · refine wp_iput_kept (fun h => ?_) fun s' hdisk' ht' => ?_
    · rw [ht, update_self] at h
      have h1 : (s.itable q).ref + 1 = 1 := h.1
      omega
    · have hsame : s'.itable = s.itable := by
        rw [ht', ht, update_self, update_idem]
        exact update_eq_self q s.itable
      exact hQ s' (hdisk.trans hdisk') (fun _ => by rw [hsame]) fun _ _ => by rw [hsame]
  · refine wp_iput_kept (fun h => ?_) fun s' hdisk' ht' => ?_
    · rw [ht, update_self] at h
      cases h.2.1
    · rw [ht, update_self, update_idem] at ht'
      refine hQ s' (hdisk.trans hdisk') (fun x => ?_) fun x hx => ?_
      · by_cases hxq : x = q
        · rw [hxq, ht', update_self]
          exact href.symm
        · rw [ht', update_of_ne hxq]
      · rw [ht', update_of_ne]
        rintro rfl
        omega

/-- What `dirlink` returns, and the state it leaves. -/
structure LinkDone (p : IPtr) (name : List UInt8) (inum : ℕ) (s : Fs) (b : Bool) (s' : Fs) : Prop
    where
  held : DirHeld p s'
  ref : ∀ q, (s'.itable q).ref = (s.itable q).ref
  fails : b = false ↔ findName (slotsAt s p) (cname name) ≠ none ∨
    (∀ e ∈ slotsAt s p, e.inum ≠ 0) ∧ CannotGrow s (s.itable p).d
  same : b = false → slotsAt s' p = slotsAt s p
  added : b = true → ∃ k, FirstFree (slotsAt s p) k ∧
    slotsAt s' p = placeAt (slotsAt s p) k ⟨inum, cname name⟩

variable {inum : ℕ}

theorem wp_dirlink_held (h : DirHeld p s) (href : 0 < (s.itable p).ref) (name : List UInt8)
    (hinum : inum < 2 ^ 16)
    (hE : ∀ e, findName (slotsAt s p) (cname name) = some e → NoEntry s e.inum → E .igetNoInodes) :
    wp (dirlink p name inum) (fun b s' => LinkDone p name inum s b s') E s := by
  rw [dirlink, wp_bind]
  refine wp_dirlookup_held h (fun hfind => ?_) fun k e _ _ _ hfind => ?_
  · rw [wp_bind, wp_get, wp_bind]
    refine wp_emptyLoop h (fun k hk hfree hfirst => ?_) _ 0 ?_ (zero_le _)
      fun m e hm => absurd hm (not_lt_zero m)
    · have hff : FirstFree (slotsAt s p) k := ⟨hk, hfree, hfirst⟩
      rw [wp_bind]
      refine (wp_writeEntry_held h _ (Dirent.length_bytes inum name) hk).mono ?_
      rintro r s' ⟨h', href', hr, hslots⟩
      refine wp_pure.2 ⟨h', href', ?_, fun hb => ?_, fun hb => ?_⟩
      · rw [decide_eq_false_iff_not, hr, hff.lt_iff, not_or, not_not, not_not]
        exact ⟨.inr, fun hor => hor.resolve_left fun hne => hne hfind⟩
      · rw [hslots, if_neg (of_decide_eq_false hb)]
      · refine ⟨k, hff, ?_⟩
        rw [hslots, if_pos (of_decide_eq_true hb), Dirent.decode_bytes hinum]
    · rw [← h.length_slots]
      exact Nat.le_mul_of_pos_left _ (by decide)
  · refine (wp_iget_iput (hE e hfind) fun s' hdisk hrefs hkeep => ?_).mono fun q s1 hq =>
      wp_bind.2 hq
    obtain ⟨h', hslots⟩ := h.congr hdisk (by rw [hkeep p href]) (by rw [hkeep p href])
    refine wp_pure.2 ⟨h', hrefs, iff_of_true rfl (.inl ?_), fun _ => hslots, by simp⟩
    rw [show findName (slotsAt s p) (cname name) = some e from hfind]
    exact some_ne_none e

theorem wp_clearEntry_held (h : DirHeld p s) (hk : k < (slotsAt s p).length) :
    wp (clearEntry p (direntSize * k)) (fun _ s' => DirHeld p s' ∧
      (∀ q, (s'.itable q).ref = (s.itable q).ref) ∧
      slotsAt s' p = (slotsAt s p).set k Dirent.dead) E s := by
  rw [clearEntry, wp_bind]
  refine (wp_writeEntry_held h (List.replicate 16 0) rfl hk.le).mono ?_
  rintro r s' ⟨h', href, hr, hslots⟩
  have hdone : r = some direntSize := hr.2 (.inl hk)
  refine wp_ite (fun _ => wp_pure.2 ⟨h', href, ?_⟩) fun hne => absurd hdone hne
  rw [hslots, if_pos hdone, placeAt, if_pos hk]
  exact congrArg _ Dirent.decode_zeros

/-! ### Any sequence of changes -/

/-- Other calls leave a directory alone, which may be held through another entry afterwards. -/
structure Elsewhere (p : IPtr) (s : Fs) (p' : IPtr) (s' : Fs) : Prop where
  held : DirHeld p' s'
  ref : 0 < (s'.itable p').ref
  slots : slotsAt s' p' = slotsAt s p

/-- **A run of changes of a directory**, with the names that were added and removed.  `sys_unlink`
looks a name up and, after other things, zeroes the entry that it found. -/
inductive DirRun (p0 : IPtr) (s0 : Fs) : List (SlotMap.Event (List UInt8) ℕ) → IPtr → Fs → Prop
  | start : DirRun p0 s0 [] p0 s0
  | linked {es : List (SlotMap.Event (List UInt8) ℕ)} {p : IPtr} {s s' : Fs} {name : List UInt8}
      {inum : ℕ} : DirRun p0 s0 es p s → 0 < inum → inum < 2 ^ 16 →
      dirlink p name inum s = .ok (true, s') →
      DirRun p0 s0 (es ++ [.put (cname name) inum]) p s'
  | refused {es : List (SlotMap.Event (List UInt8) ℕ)} {p : IPtr} {s s' : Fs} {name : List UInt8}
      {inum : ℕ} : DirRun p0 s0 es p s → 0 < inum → inum < 2 ^ 16 →
      dirlink p name inum s = .ok (false, s') → DirRun p0 s0 es p s'
  | unlinked {es : List (SlotMap.Event (List UInt8) ℕ)} {p q : IPtr} {s s1 s2 s' : Fs}
      {name : List UInt8} {off : ℕ} : DirRun p0 s0 es p s →
      dirlookup p name s = .ok (some (q, off), s1) → Elsewhere p s1 p s2 →
      clearEntry p off s2 = .ok ((), s') → DirRun p0 s0 (es ++ [.del (cname name)]) p s'
  | other {es : List (SlotMap.Event (List UInt8) ℕ)} {p p' : IPtr} {s s' : Fs} :
      DirRun p0 s0 es p s → Elsewhere p s p' s' → DirRun p0 s0 es p' s'

/-- A directory that is the map `m`. -/
structure IsMap (p : IPtr) (s : Fs) (m : List UInt8 → Option ℕ) : Prop where
  held : DirHeld p s
  ref : 0 < (s.itable p).ref
  unique : SlotMap.Unique (nameTable s p)
  lookup : SlotMap.lookup (nameTable s p) = m

variable {m : List UInt8 → Option ℕ}

theorem IsMap.elsewhere {p' : IPtr} (h : IsMap p s m) (he : Elsewhere p s p' s') :
    IsMap p' s' m := by
  have htable : nameTable s' p' = nameTable s p := congrArg (List.map Dirent.slot) he.slots
  exact ⟨he.held, he.ref, htable ▸ h.unique, htable ▸ h.lookup⟩

theorem IsMap.link (h : IsMap p s m) (hpos : 0 < inum) (hdone : LinkDone p name inum s true s') :
    IsMap p s' (update m (cname name) (some inum)) := by
  obtain ⟨k, hff, hslots⟩ := hdone.added rfl
  have hnew : SlotMap.lookup (nameTable s p) (cname name) = none := by
    by_contra hne
    rw [lookup_nameTable] at hne
    exact absurd (hdone.fails.2 (.inl fun hnone => hne (by rw [hnone]; rfl))) (by simp)
  have htable : ∀ m, (nameTable s' p)[m]? =
      if m = k then some (some (cname name, inum)) else (nameTable s p)[m]? := by
    intro m
    rw [getElem?_nameTable, getElem?_nameTable, hslots, getElem?_placeAt hff.le]
    split
    · rw [map_some, Dirent.slot, if_neg (ne_of_gt hpos)]
    · rfl
  have hempty : ∀ x, (nameTable s p)[k]? ≠ some (some x) := by
    intro x hx
    rw [getElem?_nameTable] at hx
    obtain ⟨e, he, hslot⟩ := map_eq_some_iff.1 hx
    rw [Dirent.slot, if_pos (hff.free e he)] at hslot
    cases hslot
  obtain ⟨huniq, hlookup⟩ := h.unique.fill htable hempty hnew
  exact ⟨hdone.held, by rw [hdone.ref]; exact h.ref, huniq, by rw [hlookup, h.lookup]⟩

theorem IsMap.refuse (h : IsMap p s m) (hdone : LinkDone p name inum s false s') : IsMap p s' m :=
  h.elsewhere ⟨hdone.held, by rw [hdone.ref]; exact h.ref, hdone.same rfl⟩

theorem IsMap.unlink {e : Dirent} (h : IsMap p s m) (hk : (slotsAt s p)[k]? = some e)
    (hlive : e.inum ≠ 0) (h' : DirHeld p s') (href : ∀ q, (s'.itable q).ref = (s.itable q).ref)
    (hslots : slotsAt s' p = (slotsAt s p).set k Dirent.dead) :
    IsMap p s' (update m e.name none) := by
  have hlt := (List.getElem?_eq_some_iff.1 hk).1
  have htable : ∀ m, (nameTable s' p)[m]? = if m = k then some none else (nameTable s p)[m]? := by
    intro m
    rw [getElem?_nameTable, getElem?_nameTable, hslots, List.getElem?_set]
    by_cases hm : m = k
    · rw [if_pos hm.symm, if_pos hlt, if_pos hm]
      rfl
    · rw [if_neg (Ne.symm hm), if_neg hm]
  have hself : (nameTable s p)[k]? = some (some (e.name, e.inum)) := by
    rw [getElem?_nameTable, hk, map_some, Dirent.slot, if_neg hlive]
  obtain ⟨huniq, hlookup⟩ := h.unique.clear htable hself
  exact ⟨h', by rw [href]; exact h.ref, huniq, by rw [hlookup, h.lookup]⟩

/-- **Along a run** a directory is the map that the names added and removed make. -/
theorem DirRun.isMap {p0 : IPtr} {s0 : Fs} {es : List (SlotMap.Event (List UInt8) ℕ)}
    (h : IsMap p0 s0 m) (hrun : DirRun p0 s0 es p s) : IsMap p s (SlotMap.replay m es) := by
  induction hrun with
  | start => exact h
  | linked _ hpos hlt hok ih =>
    rw [SlotMap.replay_append]
    exact ih.link hpos ((wp_dirlink_held (E := fun _ => True) ih.held ih.ref _ hlt fun _ _ _ =>
      trivial).of_ok hok)
  | refused _ hpos hlt hok ih =>
    exact ih.refuse ((wp_dirlink_held (E := fun _ => True) ih.held ih.ref _ hlt fun _ _ _ =>
      trivial).of_ok hok)
  | unlinked _ hlook helse hok ih =>
    rw [SlotMap.replay_append]
    have hr := (wp_dirlookup_found (E := fun _ => True) ih.held ih.ref fun _ _ _ => trivial).of_ok
      hlook
    rcases hr with ⟨hnone, -⟩ | ⟨q, off, heq, hf⟩
    · cases hnone
    · cases heq
      obtain ⟨k, e, rfl, hk, hlive, hname, -⟩ := hf.entry
      have hmap := (ih.elsewhere ⟨hf.held, hf.ref, hf.slots⟩).elsewhere helse
      rw [← hf.slots, ← helse.slots] at hk
      obtain ⟨h', href, hslots⟩ := (wp_clearEntry_held (E := fun _ => True) helse.held
        (List.getElem?_eq_some_iff.1 hk).1).of_ok hok
      rw [← hname]
      exact hmap.unlink hk hlive h' href hslots
  | other _ helse ih => exact ih.elsewhere helse

/-- What `dirlink` does to a directory that is the map `m`. -/
def Links (p : IPtr) (s : Fs) (name : List UInt8) (inum : ℕ) (m : List UInt8 → Option ℕ) : Prop :=
  (∃ b s', dirlink p name inum s = .ok (b, s') ∧
    (b = false ↔ m (cname name) ≠ none ∨ (∀ e ∈ slotsAt s p, e.inum ≠ 0) ∧
    CannotGrow s (s.itable p).d) ∧ (b = true → ∃ k, FirstFree (slotsAt s p) k ∧
      slotsAt s' p = placeAt (slotsAt s p) k ⟨inum, cname name⟩) ∧
    (b = false → slotsAt s' p = slotsAt s p) ∧
    SlotMap.lookup (nameTable s' p) = if b then update m (cname name) (some inum) else m) ∨
  ∃ i, m (cname name) = some i ∧ NoEntry s i ∧ dirlink p name inum s = .error .igetNoInodes

theorem IsMap.links (h : IsMap p s m) (hpos : 0 < inum) (hlt : inum < 2 ^ 16) (name : List UInt8) :
    Links p s name inum m := by
  have hm : m (cname name) = (findName (slotsAt s p) (cname name)).map Dirent.inum := by
    rw [← h.lookup, lookup_nameTable]
  by_cases hno : ∃ e, findName (slotsAt s p) (cname name) = some e ∧ NoEntry s e.inum
  · obtain ⟨e, hfind, hfull⟩ := hno
    refine .inr ⟨e.inum, by rw [hm, hfind]; rfl, hfull, eq_error_of_wp ?_⟩
    rw [dirlink, wp_bind]
    refine wp_dirlookup_held h.held (fun hnone => ?_) fun k e' _ _ _ he' => ?_
    · cases hfind.symm.trans hnone
    · obtain rfl : e = e' := some_inj.1 (hfind.symm.trans he')
      exact wp_iget_cases (fun _ => rfl) (fun q _ _ hq => absurd hq (hfull q).2)
        fun _ q _ hq => absurd hq (hfull q).1
  · obtain ⟨b, s', hrun, hdone⟩ := (wp_dirlink_held (E := fun _ => False) h.held h.ref name hlt
      fun e he hfull => hno ⟨e, he, hfull⟩).exists_ok
    refine .inl ⟨b, s', hrun, ?_, hdone.added, hdone.same, ?_⟩
    · rw [hdone.fails, hm, ne_eq, ne_eq, map_eq_none_iff]
    · cases b with
      | true => exact (h.link hpos hdone).lookup
      | false => exact (h.refuse hdone).lookup

omit [Superblock] in
theorem cname_eq_take {x : List UInt8} (h : 0 ∉ x) : cname x = x.take dirSiz := by
  rw [cname, charField, List.takeWhile_eq_self_iff]
  exact fun c hc => decide_eq_true fun heq => h (heq ▸ List.mem_of_mem_take hc)

/-- **A directory is a finite map**: after any sequence of names added and removed, no name is there
twice, `dirlookup` finds what was last added under a name and not removed, and `dirlink` fails only
for a name that is there or for lack of space, takes the first free slot, and leaves the other names
alone. -/
theorem directory_is_map {p0 : IPtr} {s0 : Fs} {es : List (SlotMap.Event (List UInt8) ℕ)}
    (h : DirHeld p0 s0) (href : 0 < (s0.itable p0).ref) (huniq : SlotMap.Unique (nameTable s0 p0))
    (hrun : DirRun p0 s0 es p s) :
    SlotMap.Unique (nameTable s p) ∧
    (∀ name, Finds p s name (SlotMap.replay (SlotMap.lookup (nameTable s0 p0)) es (cname name))) ∧
    (∀ name inum, 0 < inum → inum < 2 ^ 16 →
      Links p s name inum (SlotMap.replay (SlotMap.lookup (nameTable s0 p0)) es)) ∧
    ∀ x y : List UInt8, 0 ∉ x → 0 ∉ y → (cname x = cname y ↔ x.take dirSiz = y.take dirSiz) := by
  have hmap := DirRun.isMap ⟨h, href, huniq, rfl⟩ hrun
  refine ⟨hmap.unique, fun name => ?_, fun name inum hpos hlt => hmap.links hpos hlt name,
    fun x y hx hy => by rw [cname_eq_take hx, cname_eq_take hy]⟩
  rw [← hmap.lookup]
  exact finds_nameTable hmap.held hmap.ref name

omit [Superblock] in
/-- An empty directory to which a name was added. -/
theorem directory_is_map_one : ∃ (_ : Superblock) (p : IPtr) (s0 s : Fs), slotsAt s0 p = [] ∧
    DirRun p s0 [.put (cname [97]) 7] p s ∧ Finds p s [97] (some 7) := by
  let S : Superblock := InodeSys.smallDisk
  have hrun : ∃ s : InodeSys, FsOk s.fs (s.held : Multiset IPtr) ∧
      (⟨0, by decide⟩ : IPtr) ∈ s.held ∧ (s.fs.itable ⟨0, by decide⟩).valid = true ∧
      (s.fs.itable ⟨0, by decide⟩).d.type = .dir ∧ (s.fs.itable ⟨0, by decide⟩).d.size = 0 ∧
      (dirlink ⟨0, by decide⟩ [97] 7 s.fs).toOption.any (fun r => r.1) = true :=
    InodeSys.exists_fsOk [.create .dir 0 0] (by decide +kernel)
  obtain ⟨s, hok, hheld, hvalid, hdir, hsize, hlink⟩ := hrun
  obtain ⟨⟨b, s'⟩, heq, hb⟩ := exists_ok_of_any hlink
  obtain rfl : b = true := hb
  have hslots : slotsAt s.fs ⟨0, by decide⟩ = [] := by
    rw [slotsAt, dirents, hsize]
    rfl
  have hd : DirHeld ⟨0, by decide⟩ s.fs := ⟨hok.effOk hheld hvalid, hdir,
    by rw [hsize]; exact dvd_zero _⟩
  have hone : DirRun ⟨0, by decide⟩ s.fs [.put (cname [97]) 7] ⟨0, by decide⟩ s' :=
    DirRun.start.linked (by decide) (by decide) heq
  have huniq : SlotMap.Unique (nameTable s.fs ⟨0, by decide⟩) := by
    rw [nameTable, hslots]
    intro i j k v w hi
    cases hi
  refine ⟨S, ⟨0, by decide⟩, s.fs, s', hslots, hone, ?_⟩
  have hfinds := (directory_is_map hd (hok.ref_pos hheld) huniq hone).2.1 [97]
  rwa [SlotMap.replay, List.foldl_cons, SlotMap.Event.apply] at hfinds

end Fs

end CsklubOs

