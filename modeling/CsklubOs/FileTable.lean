/-
**Open files and pipes.**

The file table of `kernel/file.c`, the pipes of `kernel/pipe.c` and the descriptors of the
processes.  A pipe lives in a page that `pipealloc` takes and `pipeclose` gives back when both ends
are closed; an end is closed when the last reference to its file is dropped.

Main definitions:

* `OpenFile`, `Pipe` — an entry of the file table, and a pipe;
* `fdRefs` — the references that descriptors hold;
* `FileOk` — the counts are exact, and the open ends of the pipes are files, one for each.

Main results:

* `FileOk.setFile`, `FileOk.closeEnd`, `FileOk.closeBoth`, `FileOk.newPipe` — what can be done to a
  table that is in order.
-/

import CsklubOs.Params
import CsklubOs.Tally

set_option autoImplicit false

namespace CsklubOs

open Function List
open Multiset (singleton_add)

/-- The types of open files. -/
inductive FdType
  | none
  | pipe
  | inode
  | device
  deriving DecidableEq

/-- `struct file`, without the offset; the pipe is named by its page, and `ι` are the pointers to
inodes. -/
structure OpenFile (ι : Type) where
  ref : ℕ
  type : FdType
  readable : Bool
  writable : Bool
  pipe : ℕ
  ip : Option ι
  major : ℤ
  deriving DecidableEq

/-- `struct pipe` in its page, without the data that passes through. -/
structure Pipe where
  page : ℕ
  readopen : Bool
  writeopen : Bool
  deriving DecidableEq

/-- Whether the end for writing or the end for reading is open. -/
def Pipe.isOpen (q : Pipe) (writable : Bool) : Bool := if writable then q.writeopen else q.readopen

/-- The pipe with one end closed. -/
def Pipe.close (q : Pipe) (writable : Bool) : Pipe :=
  if writable then { q with writeopen := false } else { q with readopen := false }

/-! ### The invariant -/

/-- The references that descriptors hold. -/
@[irreducible]
def fdRefs (ofile : Fin nProc → Fin nOFile → Option (Fin nFile)) : Multiset (Fin nFile) :=
  ∑ p, ∑ fd, (ofile p fd).elim 0 fun f => {f}

/-- The pages of the pipes. -/
def pipePages (pipes : List Pipe) : Multiset ℕ := (pipes.map Pipe.page : List ℕ)

variable {ι : Type}

/-- **The invariant of files and pipes**, when the references `R` are held: the counts are exact,
and the open ends of the pipes are the files of type `FD_PIPE`, one for each. -/
structure FileOk (ft : Fin nFile → OpenFile ι) (pipes : List Pipe) (R : Multiset (Fin nFile)) : Prop
    where
  refs : ∀ f, (ft f).ref = R.count f
  idle : ∀ f, (ft f).ref = 0 → (ft f).type ≠ .pipe
  ends : ∀ f, (ft f).type = .pipe →
    ∃ q ∈ pipes, q.page = (ft f).pipe ∧ q.isOpen (ft f).writable = true
  uniq : ∀ f f', (ft f).type = .pipe → (ft f').type = .pipe → (ft f).pipe = (ft f').pipe →
    (ft f).writable = (ft f').writable → f = f'
  held : ∀ q ∈ pipes, ∀ w, q.isOpen w = true →
    ∃ f, (ft f).type = .pipe ∧ (ft f).pipe = q.page ∧ (ft f).writable = w
  live : ∀ q ∈ pipes, ∃ w, q.isOpen w = true
  nodup : (pipes.map Pipe.page).Nodup

theorem Pipe.isOpen_close (q : Pipe) (w w' : Bool) :
    (q.close w).isOpen w' = true ↔ q.isOpen w' = true ∧ w' ≠ w := by
  cases w <;> cases w' <;> simp [Pipe.close, Pipe.isOpen]

theorem Pipe.page_close (q : Pipe) (w : Bool) : (q.close w).page = q.page := by
  cases w <;> rfl

variable {R : Multiset (Fin nFile)} {ft : Fin nFile → OpenFile ι} {pipes : List Pipe} {q : Pipe}
  {f : Fin nFile} {v : OpenFile ι}

theorem FileOk.eq_of_page (h : FileOk ft pipes R) {q' : Pipe} (hq : q ∈ pipes) (hq' : q' ∈ pipes)
    (hpage : q.page = q'.page) : q = q' :=
  inj_on_of_nodup_map h.nodup hq hq' hpage

theorem FileOk.setFile {R' : Multiset (Fin nFile)} (h : FileOk ft pipes R)
    (htype : v.type = .pipe ↔ (ft f).type = .pipe)
    (hend : v.type = .pipe → v.pipe = (ft f).pipe ∧ v.writable = (ft f).writable)
    (hrefs : ∀ f', (update ft f v f').ref = R'.count f') (hidle : v.ref = 0 → v.type ≠ .pipe) :
    FileOk (update ft f v) pipes R' := by
  have hty : ∀ f', (update ft f v f').type = .pipe ↔ (ft f').type = .pipe := by
    intro f'
    by_cases hf : f' = f
    · rw [hf, update_self, htype]
    · rw [update_of_ne hf]
  have hen : ∀ f', (ft f').type = .pipe → (update ft f v f').pipe = (ft f').pipe ∧
      (update ft f v f').writable = (ft f').writable := by
    intro f' hf'
    by_cases hf : f' = f
    · rw [hf] at hf' ⊢
      rw [update_self]
      exact hend (htype.2 hf')
    · rw [update_of_ne hf]
      exact ⟨rfl, rfl⟩
  refine ⟨hrefs, fun f' hr => ?_, fun f' hf' => ?_, fun f₁ f2 h₁ h2 hp hw => ?_,
    fun q hq w ho => ?_, h.live, h.nodup⟩
  · by_cases hf : f' = f
    · rw [hf, update_self] at hr ⊢
      exact hidle hr
    · rw [update_of_ne hf] at hr ⊢
      exact h.idle f' hr
  · rw [(hen f' ((hty f').1 hf')).1, (hen f' ((hty f').1 hf')).2]
    exact h.ends f' ((hty f').1 hf')
  · rw [hty] at h₁ h2
    rw [(hen f₁ h₁).1, (hen f2 h2).1] at hp
    rw [(hen f₁ h₁).2, (hen f2 h2).2] at hw
    exact h.uniq f₁ f2 h₁ h2 hp hw
  · obtain ⟨f', h₁, h2, h3⟩ := h.held q hq w ho
    exact ⟨f', (hty f').2 h₁, (hen f' h₁).1.trans h2, (hen f' h₁).2.trans h3⟩

theorem map_page_close {pi : ℕ} {w : Bool} (hpage : q.page = pi) :
    (pipes.map fun q' => if q'.page = pi then q.close w else q').map Pipe.page =
      pipes.map Pipe.page := by
  rw [map_map]
  refine map_congr_left fun q' _ => ?_
  show (if q'.page = pi then q.close w else q').page = q'.page
  split
  · rename_i hp
    rw [Pipe.page_close, hpage, hp]
  · rfl

theorem pipePages_close {pi : ℕ} {w : Bool} (hpage : q.page = pi) :
    pipePages (pipes.map fun q' => if q'.page = pi then q.close w else q') = pipePages pipes := by
  rw [pipePages, map_page_close hpage, pipePages]

theorem pipePages_split (hnodup : (pipes.map Pipe.page).Nodup) (hq : q ∈ pipes) :
    pipePages pipes = q.page ::ₘ pipePages (pipes.filter fun q' => q'.page ≠ q.page) := by
  have hfilter : (pipes.filter fun q' => decide (q'.page ≠ q.page)).map Pipe.page =
      (pipes.map Pipe.page).erase q.page := by
    rw [hnodup.erase_eq_filter, filter_map]
    congr 1
    refine filter_congr fun q' _ => ?_
    rw [decide_not]
    rfl
  rw [pipePages, pipePages, hfilter]
  exact Multiset.coe_eq_coe.2 (perm_cons_erase (mem_map_of_mem hq))

theorem isOpen_other {w : Bool}
    (h : ¬ ((q.close w).readopen = false ∧ (q.close w).writeopen = false)) :
    (q.close w).isOpen (!w) = true := by
  cases w <;> simpa [Pipe.close, Pipe.isOpen] using h

theorem type_update_iff (hv : v.type ≠ .pipe) (f' : Fin nFile) :
    (update ft f v f').type = .pipe ↔ f' ≠ f ∧ (ft f').type = .pipe := by
  by_cases hf : f' = f
  · rw [hf, update_self]
    exact iff_of_false hv fun h => h.1 rfl
  · rw [update_of_ne hf]
    exact ⟨fun h => ⟨hf, h⟩, fun h => h.2⟩

theorem idle_update (h : FileOk ft pipes (f ::ₘ R)) (hv : v.type ≠ .pipe) (f' : Fin nFile)
    (hr : (update ft f v f').ref = 0) : (update ft f v f').type ≠ .pipe := by
  intro hty
  obtain ⟨hne, hty⟩ := (type_update_iff hv f').1 hty
  rw [update_of_ne hne] at hr
  exact h.idle f' hr hty

theorem uniq_update (h : FileOk ft pipes (f ::ₘ R)) (hv : v.type ≠ .pipe) (f₁ f2 : Fin nFile)
    (h₁ : (update ft f v f₁).type = .pipe) (h2 : (update ft f v f2).type = .pipe)
    (hp : (update ft f v f₁).pipe = (update ft f v f2).pipe)
    (hw : (update ft f v f₁).writable = (update ft f v f2).writable) : f₁ = f2 := by
  obtain ⟨hne1, h₁⟩ := (type_update_iff hv f₁).1 h₁
  obtain ⟨hne2, h2⟩ := (type_update_iff hv f2).1 h2
  rw [update_of_ne hne1, update_of_ne hne2] at hp hw
  exact h.uniq f₁ f2 h₁ h2 hp hw

theorem writable_ne (h : FileOk ft pipes R) (hf : (ft f).type = .pipe) {f' : Fin nFile}
    (hne : f' ≠ f) (hf' : (ft f').type = .pipe) (hp : (ft f').pipe = (ft f).pipe) :
    (ft f').writable ≠ (ft f).writable :=
  fun hw => hne (h.uniq f' f hf' hf hp hw)

/-- **Closing the first end**: the pipe stays, with that end closed. -/
theorem FileOk.closeEnd (h : FileOk ft pipes (f ::ₘ R)) {q : Pipe} (hq : q ∈ pipes)
    (hf : (ft f).type = .pipe) (hpage : q.page = (ft f).pipe) (hv : v.type ≠ .pipe)
    (hrefs : ∀ f', (update ft f v f').ref = R.count f')
    (hother : (q.close (ft f).writable).isOpen (!(ft f).writable) = true) :
    FileOk (update ft f v)
      (pipes.map fun q' => if q'.page = (ft f).pipe then q.close (ft f).writable else q') R := by
  have hmem : ∀ q' ∈ pipes, q'.page = (ft f).pipe → q' = q := fun q' hq' hp =>
    h.eq_of_page hq' hq (hp.trans hpage.symm)
  refine ⟨hrefs, idle_update h hv, fun f' hf' => ?_, uniq_update h hv, fun q1 hq1 w ho => ?_,
    fun q1 hq1 => ?_, ?_⟩
  · obtain ⟨hne, hty⟩ := (type_update_iff hv f').1 hf'
    rw [update_of_ne hne]
    obtain ⟨q', hq', hp', ho'⟩ := h.ends f' hty
    refine ⟨_, mem_map_of_mem hq', ?_⟩
    split
    · rename_i hp
      rw [hmem q' hq' hp] at ho'
      refine ⟨(q.page_close _).trans (hpage.trans (hp.symm.trans hp')), ?_⟩
      exact (q.isOpen_close _ _).2 ⟨ho', writable_ne h hf hne hty (hp'.symm.trans hp)⟩
    · exact ⟨hp', ho'⟩
  · obtain ⟨q', hq', rfl⟩ := mem_map.1 hq1
    -- an end that is still open is not the one of `f`
    have hfile : ∃ f', f' ≠ f ∧ (ft f').type = .pipe ∧ (ft f').pipe = q'.page ∧
        (ft f').writable = w := by
      split at ho
      · rename_i hp
        obtain ⟨ho, hw⟩ := (q.isOpen_close _ _).1 ho
        rw [hmem q' hq' hp]
        obtain ⟨f', h₁, h2, h3⟩ := h.held q hq w ho
        exact ⟨f', fun hff => hw (by rw [← h3, hff]), h₁, h2, h3⟩
      · rename_i hp
        obtain ⟨f', h₁, h2, h3⟩ := h.held q' hq' w ho
        exact ⟨f', fun hff => hp (by rw [← h2, hff]), h₁, h2, h3⟩
    obtain ⟨f', hne, h₁, h2, h3⟩ := hfile
    refine ⟨f', (type_update_iff hv f').2 ⟨hne, h₁⟩, ?_, ?_⟩
    · rw [update_of_ne hne, h2]
      split
      · rename_i hp
        rw [Pipe.page_close, hpage, hp]
      · rfl
    · rw [update_of_ne hne, h3]
  · obtain ⟨q', hq', rfl⟩ := mem_map.1 hq1
    split
    · exact ⟨_, hother⟩
    · exact h.live q' hq'
  · rw [map_page_close hpage]
    exact h.nodup

theorem FileOk.closeBoth (h : FileOk ft pipes (f ::ₘ R)) {q : Pipe} (hq : q ∈ pipes)
    (hf : (ft f).type = .pipe) (hpage : q.page = (ft f).pipe) (hv : v.type ≠ .pipe)
    (hrefs : ∀ f', (update ft f v f').ref = R.count f')
    (hother : ∀ w, (q.close (ft f).writable).isOpen w ≠ true) :
    FileOk (update ft f v) (pipes.filter fun q' => q'.page ≠ (ft f).pipe) R := by
  have hmem : ∀ q', q' ∈ pipes.filter (fun q' => q'.page ≠ (ft f).pipe) ↔
      q' ∈ pipes ∧ q'.page ≠ (ft f).pipe := fun q' => by rw [mem_filter, decide_eq_true_eq]
  -- the other ends belong to other pipes
  have hpipe : ∀ f', f' ≠ f → (ft f').type = .pipe → (ft f').pipe ≠ (ft f).pipe := by
    intro f' hne hty hp
    obtain ⟨q', hq', hp', ho'⟩ := h.ends f' hty
    rw [h.eq_of_page hq' hq (hp'.trans (hp.trans hpage.symm))] at ho'
    exact hother _ ((q.isOpen_close _ _).2 ⟨ho', writable_ne h hf hne hty hp⟩)
  refine ⟨hrefs, idle_update h hv, fun f' hf' => ?_, uniq_update h hv, fun q' hq' w ho => ?_,
    fun q' hq' => h.live q' ((hmem q').1 hq').1, h.nodup.sublist (filter_sublist.map _)⟩
  · obtain ⟨hne, hty⟩ := (type_update_iff hv f').1 hf'
    rw [update_of_ne hne]
    obtain ⟨q', hq', hp', ho'⟩ := h.ends f' hty
    exact ⟨q', (hmem q').2 ⟨hq', hp' ▸ hpipe f' hne hty⟩, hp', ho'⟩
  · obtain ⟨hq', hp'⟩ := (hmem q').1 hq'
    obtain ⟨f', h₁, h2, h3⟩ := h.held q' hq' w ho
    have hne : f' ≠ f := fun hff => hp' (by rw [← h2, hff])
    refine ⟨f', (type_update_iff hv f').2 ⟨hne, h₁⟩, ?_, ?_⟩
    · rw [update_of_ne hne, h2]
    · rw [update_of_ne hne, h3]

theorem FileOk.newPipe (h : FileOk ft pipes R) {f0 f1 : Fin nFile} {pi : ℕ} (hne : f0 ≠ f1)
    (h0 : (ft f0).type ≠ .pipe) (h1 : (ft f1).type ≠ .pipe) (hr0 : (ft f0).ref ≠ 0)
    (hr1 : (ft f1).ref ≠ 0) (hpi : pi ∉ pipes.map Pipe.page) :
    FileOk (update (update ft f0
      { ft f0 with type := .pipe, readable := true, writable := false, pipe := pi }) f1
      { ft f1 with type := .pipe, readable := false, writable := true, pipe := pi })
        (⟨pi, true, true⟩ :: pipes) R := by
  generalize hft : update (update ft f0
      { ft f0 with type := .pipe, readable := true, writable := false, pipe := pi }) f1
      { ft f1 with type := .pipe, readable := false, writable := true, pipe := pi } = ft'
  have e0 : ft' f0 = { ft f0 with type := .pipe, readable := true, writable := false, pipe := pi }
      := by
    rw [← hft, update_of_ne hne, update_self]
  have e1 : ft' f1 = { ft f1 with type := .pipe, readable := false, writable := true, pipe := pi }
      := by
    rw [← hft, update_self]
  have e : ∀ f, f ≠ f0 → f ≠ f1 → ft' f = ft f := by
    intro f hf0 hf1
    rw [← hft, update_of_ne hf1, update_of_ne hf0]
  -- a file of pipe type is one of the two new ends, or an old end of an old pipe
  have hcase : ∀ f, (ft' f).type = .pipe → f = f0 ∨ f = f1 ∨
      ft' f = ft f ∧ (ft f).type = .pipe ∧ (ft f).pipe ≠ pi := by
    intro f hf
    by_cases hf0 : f = f0
    · exact .inl hf0
    · by_cases hf1 : f = f1
      · exact .inr (.inl hf1)
      · rw [e f hf0 hf1] at hf ⊢
        refine .inr (.inr ⟨rfl, hf, fun hp => hpi ?_⟩)
        obtain ⟨q, hq, hpage, -⟩ := h.ends f hf
        exact mem_map.2 ⟨q, hq, hpage.trans hp⟩
  refine ⟨fun f => ?_, fun f hr => ?_, fun f hf => ?_, fun f f' hf hf' hp hw => ?_,
    fun q hq w ho => ?_, fun q hq => ?_, ?_⟩
  · rw [← h.refs f]
    by_cases hf0 : f = f0
    · rw [hf0, e0]
    · by_cases hf1 : f = f1
      · rw [hf1, e1]
      · rw [e f hf0 hf1]
  · by_cases hf0 : f = f0
    · rw [hf0, e0] at hr
      exact absurd hr hr0
    · by_cases hf1 : f = f1
      · rw [hf1, e1] at hr
        exact absurd hr hr1
      · rw [e f hf0 hf1] at hr ⊢
        exact h.idle f hr
  · rcases hcase f hf with rfl | rfl | ⟨hfe, hty, -⟩
    · exact ⟨_, mem_cons_self .., by rw [e0], by rw [e0]; rfl⟩
    · exact ⟨_, mem_cons_self .., by rw [e1], by rw [e1]; rfl⟩
    · rw [hfe]
      obtain ⟨q, hq, hrest⟩ := h.ends f hty
      exact ⟨q, mem_cons_of_mem _ hq, hrest⟩
  · rcases hcase f hf with rfl | rfl | ⟨hfe, hty, hne1⟩ <;>
      rcases hcase f' hf' with rfl | rfl | ⟨hfe', hty', hne2⟩
    · rfl
    · rw [e0, e1] at hw
      cases hw
    · rw [e0, hfe'] at hp
      exact absurd hp.symm hne2
    · rw [e0, e1] at hw
      cases hw
    · rfl
    · rw [e1, hfe'] at hp
      exact absurd hp.symm hne2
    · rw [e0, hfe] at hp
      exact absurd hp hne1
    · rw [e1, hfe] at hp
      exact absurd hp hne1
    · rw [hfe, hfe'] at hp hw
      exact h.uniq f f' hty hty' hp hw
  · rcases mem_cons.1 hq with rfl | hq
    · cases w with
      | false => exact ⟨f0, by rw [e0], by rw [e0], by rw [e0]⟩
      | true => exact ⟨f1, by rw [e1], by rw [e1], by rw [e1]⟩
    · obtain ⟨f, hty, hp, hw⟩ := h.held q hq w ho
      have hfe : ft' f = ft f := e f (fun hf => h0 (hf ▸ hty)) fun hf => h1 (hf ▸ hty)
      exact ⟨f, by rw [hfe, hty], by rw [hfe, hp], by rw [hfe, hw]⟩
  · rcases mem_cons.1 hq with rfl | hq
    · exact ⟨true, rfl⟩
    · exact h.live q hq
  · exact nodup_cons.2 ⟨hpi, h.nodup⟩

/-! ### Descriptors -/

theorem fdRefs_set (o : Fin nProc → Fin nOFile → Option (Fin nFile)) (p : Fin nProc)
    (fd : Fin nOFile) (v : Option (Fin nFile)) :
    fdRefs (update o p (update (o p) fd v)) + (o p fd).elim 0 (fun f => {f}) =
      fdRefs o + v.elim 0 fun f => {f} := by
  have hout := Tally.sum_update (Finset.mem_univ p)
    (fun g : Fin nOFile → Option (Fin nFile) =>
      ∑ fd, (g fd).elim 0 fun f => ({f} : Multiset (Fin nFile))) o (update (o p) fd v)
  have hin := Tally.sum_update (Finset.mem_univ fd)
    (fun e : Option (Fin nFile) => e.elim 0 fun f => ({f} : Multiset (Fin nFile))) (o p) v
  unfold fdRefs
  refine add_right_cancel (b := ∑ fd, (o p fd).elim 0 fun f => ({f} : Multiset (Fin nFile))) ?_
  rw [add_right_comm, hout, add_assoc, hin]
  abel

section

variable {o : Fin nProc → Fin nOFile → Option (Fin nFile)} {p : Fin nProc} {fd : Fin nOFile}

theorem fdRefs_take {f : Fin nFile} (hf : o p fd = some f) :
    fdRefs o = f ::ₘ fdRefs (update o p (update (o p) fd none)) := by
  have hset := fdRefs_set o p fd none
  rw [hf, Option.elim_none, add_zero, add_comm] at hset
  exact hset.symm

theorem mem_fdRefs (hf : o p fd = some f) : f ∈ fdRefs o := by
  rw [fdRefs_take hf]
  exact Multiset.mem_cons_self ..

theorem update_clear {v : Option (Fin nFile)} (hnone : o p fd = none) :
    update (update o p (update (o p) fd v)) p
      (update (update o p (update (o p) fd v) p) fd none) = o := by
  rw [update_self, update_idem, update_idem, ← hnone, update_eq_self, update_eq_self]

theorem exists_of_mem_fdRefs {f : Fin nFile} (h : f ∈ fdRefs o) : ∃ p fd, o p fd = some f := by
  unfold fdRefs at h
  rw [Multiset.mem_sum] at h
  obtain ⟨p, -, hp⟩ := h
  rw [Multiset.mem_sum] at hp
  obtain ⟨fd, -, hfd⟩ := hp
  cases ho : o p fd with
  | none =>
    rw [ho] at hfd
    exact absurd hfd (Multiset.notMem_zero f)
  | some f' =>
    rw [ho, Option.elim_some, Multiset.mem_singleton] at hfd
    exact ⟨p, fd, by rw [ho, hfd]⟩

end

theorem fileOk_init : FileOk (fun _ => (⟨0, .none, false, false, 0, none, 0⟩ : OpenFile ι)) []
    (fdRefs fun _ _ => none) := by
  have hrefs : fdRefs (fun _ _ => none) = 0 := by
    unfold fdRefs
    exact Finset.sum_eq_zero fun _ _ => Finset.sum_eq_zero fun _ _ => rfl
  rw [hrefs]
  exact ⟨fun f => (Multiset.count_zero f).symm, fun f _ h => (by cases h), fun f h => (by cases h),
    fun f _ h => (by cases h), fun q hq => absurd hq not_mem_nil,
    fun q hq => absurd hq not_mem_nil, nodup_nil⟩

end CsklubOs
