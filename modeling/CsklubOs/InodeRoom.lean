/-
**Whether the inode table has a free entry.**

`iget` panics if the inode is not in the table and every entry has references.  The references are
those of open files, of current directories, and of the calls that are on their way along a path.
Here every `iget`, `idup` and `iput` of such a call is a step of its own, so that the calls of
several processes are interleaved; what a directory entry or `ialloc` leads to is an input of the
step.

Main definitions:

* `Itable` — the fields of the inode table that `iget` looks at; the functions on them are those of
  `CsklubOs/Inode.lean`;
* `TableSys`, `TableSys.step` — the table with its processes.

Main results:

* `iget_no_panic_iff` — the panic comes when `NINODE` other inodes are in use;
* `opens_exhaust_table` — the file table has room for more open files than that.
-/

import CsklubOs.OpenFile

set_option autoImplicit false

namespace CsklubOs

open Function Multiset
open List (finRange)
open Wp

/-! ### The table -/

/-- What `iget` looks at in an entry of the table. -/
structure IEntry where
  inum : ℕ
  ref : ℕ
  deriving DecidableEq

abbrev Itable := IPtr → IEntry

namespace Itable

def iget (inum : ℕ) : StateT Itable (Except FsPanic) IPtr := do
  let t ← get
  match (finRange nInode).find? fun p => 0 < (t p).ref ∧ (t p).inum = inum with
  | some p => do
    set (update t p { t p with ref := (t p).ref + 1 })
    pure p
  | none =>
    match (finRange nInode).find? fun p => (t p).ref = 0 with
    | none => throw .igetNoInodes
    | some p => do
      set (update t p ⟨inum, 1⟩)
      pure p

def idup (p : IPtr) : StateT Itable (Except FsPanic) Unit :=
  modify fun t => update t p { t p with ref := (t p).ref + 1 }

/-- `iput`, as far as it concerns the table. -/
def iput (p : IPtr) : StateT Itable (Except FsPanic) Unit :=
  modify fun t => update t p { t p with ref := (t p).ref - 1 }

/-- The table, as the file table sees it. -/
def layer : Lower IPtr Itable where
  iput := iput
  idup := idup

end Itable

/-! ### The table of the inode layer -/

namespace Fs

/-- What `iget` looks at in the inode table. -/
def entries (s : Fs) : Itable := fun p => ⟨(s.itable p).inum, (s.itable p).ref⟩

theorem entries_update (s : Fs) (p : IPtr) (v : Inode) :
    entries { s with itable := update s.itable p v } =
      update s.entries p ⟨v.inum, v.ref⟩ := by
  funext q
  show (⟨(update s.itable p v q).inum, (update s.itable p v q).ref⟩ : IEntry) = _
  by_cases hq : q = p
  · rw [hq, update_self, update_self]
  · rw [update_of_ne hq, update_of_ne hq]
    rfl

theorem wp_modifyInode_entries {s : Fs} {p : IPtr} {f : Inode → Inode} {Q : Unit → Fs → Prop}
    {E : FsPanic → Prop}
    (hQ : ∀ s', s'.entries = update s.entries p ⟨(f (s.itable p)).inum, (f (s.itable p)).ref⟩ →
      Q () s') : wp (modifyInode p f) Q E s :=
  wp_modify.2 (hQ _ (entries_update s p _))

theorem iget_entries (s : Fs) (i : ℕ) :
    wp (iget i) (fun p s' => Itable.iget i s.entries = .ok (p, s'.entries))
      (fun e => Itable.iget i s.entries = .error e) s := by
  rw [iget, wp_bind, wp_get]
  split
  · rename_i p hfind
    change ((finRange nInode).find? fun p =>
      0 < (s.entries p).ref ∧ (s.entries p).inum = i) = some p at hfind
    refine wp_bind.2 (wp_modifyInode_entries fun s' hs' => wp_pure.2 (eq_ok_of_wp ?_))
    rw [Itable.iget, wp_bind, wp_get]
    simp only [hfind]
    exact wp_bind.2 (wp_set.2 (wp_pure.2 ⟨rfl, hs'.symm⟩))
  · rename_i hmiss
    change ((finRange nInode).find? fun p =>
      0 < (s.entries p).ref ∧ (s.entries p).inum = i) = none at hmiss
    split
    · rename_i hbusy
      change ((finRange nInode).find? fun p => (s.entries p).ref = 0) = none at hbusy
      refine wp_throw.2 (eq_error_of_wp ?_)
      rw [Itable.iget, wp_bind, wp_get]
      simp only [hmiss, hbusy]
      exact wp_throw.2 rfl
    · rename_i p hfind
      change ((finRange nInode).find? fun p => (s.entries p).ref = 0) = some p at hfind
      refine wp_bind.2 (wp_modifyInode_entries fun s' hs' => wp_pure.2 (eq_ok_of_wp ?_))
      rw [Itable.iget, wp_bind, wp_get]
      simp only [hmiss, hfind]
      exact wp_bind.2 (wp_set.2 (wp_pure.2 ⟨rfl, hs'.symm⟩))

theorem idup_entries (s : Fs) (p : IPtr) (E : FsPanic → Prop) :
    wp (idup p) (fun _ s' => Itable.idup p s.entries = .ok ((), s'.entries)) E s := by
  refine wp_bind.2 (wp_modifyInode_entries fun s' hs' => wp_pure.2 (eq_ok_of_wp ?_))
  exact wp_modify.2 ⟨rfl, hs'.symm⟩

variable [Superblock]

/-- Code that leaves the numbers and counts of the entries alone. -/
def KeepsEntries (m : FsM Unit) : Prop :=
  ∀ s : Fs, wp m (fun _ s' => s'.entries = s.entries) (fun _ => True) s

section

omit [Superblock]

theorem KeepsEntries.bind {m n : FsM Unit} (hm : KeepsEntries m) (hn : KeepsEntries n) :
    KeepsEntries (do m; n) :=
  fun s => wp_bind.2 ((hm s).mono fun _ s1 h1 => (hn s1).mono fun _ _ h => h.trans h1)

theorem KeepsEntries.forM {α : Type} {f : α → FsM Unit} (h : ∀ a, KeepsEntries (f a)) (l : List α) :
    KeepsEntries (l.forM f) := by
  induction l with
  | nil => exact fun s => wp_pure.2 rfl
  | cons a l ih => exact (h a).bind ih

theorem keepsEntries_modifyInode (p : IPtr) {f : Inode → Inode}
    (hf : ∀ v, (f v).inum = v.inum ∧ (f v).ref = v.ref) : KeepsEntries (modifyInode p f) := by
  intro s
  refine wp_modifyInode_entries fun s' hs' => ?_
  rw [hs', (hf _).1, (hf _).2]
  exact update_eq_self _ _

theorem keepsEntries_modifyD (p : IPtr) (f : Dinode → Dinode) : KeepsEntries (modifyD p f) :=
  keepsEntries_modifyInode p fun _ => ⟨rfl, rfl⟩

end

theorem keepsEntries_iupdate (p : IPtr) : KeepsEntries (iupdate p) :=
  fun _ => wp_bind.2 (wp_get.2 (wp_bind.2 (wp_set.2 (wp_modify.2 rfl))))

theorem keepsEntries_bfree (b : ℕ) : KeepsEntries (bfree b) := by
  intro s
  rw [bfree, wp_bind, wp_get]
  refine wp_ite (fun _ => wp_throw.2 trivial) fun _ => ?_
  exact wp_bind.2 (wp_set.2 (wp_modify.2 rfl))

theorem keepsEntries_freeAddr (p : IPtr) (k : Fin (nDirect + 1)) : KeepsEntries (freeAddr p k) := by
  intro s
  rw [freeAddr, wp_bind, wp_get]
  refine wp_ite (fun _ => wp_pure.2 rfl) fun _ => ?_
  exact (keepsEntries_bfree _).bind (keepsEntries_modifyD p _) s

theorem keepsEntries_freeEntry (a : Block) (j : ℕ) : KeepsEntries (freeEntry a j) :=
  fun s => wp_ite (fun _ => wp_pure.2 rfl) fun _ => keepsEntries_bfree _ s

theorem keepsEntries_freeIndirect (p : IPtr) : KeepsEntries (freeIndirect p) := by
  intro s
  rw [freeIndirect, wp_bind, wp_get]
  refine wp_ite (fun _ => wp_pure.2 rfl) fun _ => ?_
  exact (KeepsEntries.forM (keepsEntries_freeEntry _) _).bind (keepsEntries_freeAddr p indirect) s

theorem keepsEntries_itrunc (p : IPtr) : KeepsEntries (itrunc p) :=
  (KeepsEntries.forM (keepsEntries_freeAddr p) _).bind <| (keepsEntries_freeIndirect p).bind <|
    (keepsEntries_modifyD p _).bind (keepsEntries_iupdate p)

theorem keepsEntries_freeUnlinked (p : IPtr) : KeepsEntries (freeUnlinked p) := by
  intro s
  rw [freeUnlinked, wp_bind, wp_get]
  refine wp_ite (fun _ => ?_) fun _ => wp_pure.2 rfl
  have hvalid : KeepsEntries (modifyInode p fun ip => { ip with valid := false }) :=
    keepsEntries_modifyInode p fun _ => ⟨rfl, rfl⟩
  exact ((keepsEntries_itrunc p).bind <| (keepsEntries_modifyD p _).bind <|
    (keepsEntries_iupdate p).bind hvalid) s

theorem iput_entries (s : Fs) (p : IPtr) :
    wp (iput p) (fun _ s' => Itable.iput p s.entries = .ok ((), s'.entries)) (fun _ => True) s := by
  refine wp_bind.2 ((keepsEntries_freeUnlinked p s).mono fun _ s1 h1 => ?_)
  refine wp_modifyInode_entries fun s' hs' => eq_ok_of_wp (wp_modify.2 ⟨rfl, ?_⟩)
  rw [hs', ← h1]
  rfl

end Fs

/-! ### References -/

namespace Itable

variable {t : Itable} {R : Multiset IPtr} {p : IPtr} {i : ℕ} {E : FsPanic → Prop}

/-- **The table when the references `R` are held**: it counts them, and an inode is in it once. -/
structure Holds (t : Itable) (R : Multiset IPtr) : Prop where
  refs : ∀ p, (t p).ref = R.count p
  uniq : ∀ p ∈ R, ∀ q ∈ R, (t p).inum = (t q).inum → p = q

/-- The inodes that the references `R` are to. -/
def inums (t : Itable) (R : Multiset IPtr) : Finset ℕ := R.toFinset.image fun p => (t p).inum

theorem mem_inums : i ∈ t.inums R ↔ ∃ p ∈ R, (t p).inum = i := by
  simp [inums]

theorem Holds.ref_ne_zero_iff (h : Holds t R) : (t p).ref ≠ 0 ↔ p ∈ R := by
  rw [h.refs, count_ne_zero]

theorem Holds.exists_free_iff (h : Holds t R) :
    (∃ p, (t p).ref = 0) ↔ (t.inums R).card < nInode := by
  have hinj : Set.InjOn (fun p => (t p).inum) R.toFinset := by
    intro p hp q hq heq
    exact h.uniq p (mem_toFinset.1 hp) q (mem_toFinset.1 hq) heq
  have hfree := Tally.exists_notMem_iff hinj
  rw [Fintype.card_fin] at hfree
  rw [inums, ← hfree]
  refine exists_congr fun p => ?_
  rw [mem_toFinset, ← h.ref_ne_zero_iff, not_not]

/-- Writing one entry: its count is right, and if it is in use, no other one has its inode. -/
theorem Holds.setEntry (h : Holds t R) {R' : Multiset IPtr} {v : IEntry} (href : v.ref = R'.count p)
    (hother : ∀ q, q ≠ p → R'.count q = R.count q)
    (hnew : p ∈ R' → ∀ q ∈ R, q ≠ p → (t q).inum ≠ v.inum) : Holds (update t p v) R' := by
  have hmem : ∀ q ∈ R', q ≠ p → q ∈ R := by
    intro q hq hqp
    rw [← count_ne_zero, ← hother q hqp]
    exact count_ne_zero.2 hq
  constructor
  · intro q
    by_cases hq : q = p
    · rw [hq, update_self, href]
    · rw [update_of_ne hq, h.refs, hother q hq]
  · intro q hq q' hq' heq
    by_cases hqp : q = p
    · by_cases hqp' : q' = p
      · exact hqp.trans hqp'.symm
      · rw [hqp, update_self, update_of_ne hqp'] at heq
        exact absurd heq.symm (hnew (hqp ▸ hq) q' (hmem q' hq' hqp') hqp')
    · by_cases hqp' : q' = p
      · rw [hqp', update_self, update_of_ne hqp] at heq
        exact absurd heq (hnew (hqp' ▸ hq') q (hmem q hq hqp) hqp)
      · rw [update_of_ne hqp, update_of_ne hqp'] at heq
        exact h.uniq q (hmem q hq hqp) q' (hmem q' hq' hqp') heq

theorem Holds.addRef (h : Holds t R) (hp : p ∈ R) :
    Holds (update t p { t p with ref := (t p).ref + 1 }) (p ::ₘ R) := by
  refine h.setEntry ?_ (fun q hq => count_cons_of_ne hq R) fun _ q hq hqp heq => ?_
  · rw [count_cons_self, ← h.refs p]
  · exact hqp (h.uniq q hq p hp heq)

theorem Holds.newEntry (h : Holds t R) (hp : (t p).ref = 0) (hi : i ∉ t.inums R) :
    Holds (update t p ⟨i, 1⟩) (p ::ₘ R) := by
  refine h.setEntry ?_ (fun q hq => count_cons_of_ne hq R) fun _ q hq _ heq => ?_
  · rw [count_cons_self, ← h.refs p, hp]
  · exact hi (mem_inums.2 ⟨q, hq, heq⟩)

theorem Holds.dropRef (h : Holds t (p ::ₘ R)) :
    Holds (update t p { t p with ref := (t p).ref - 1 }) R := by
  refine h.setEntry ?_ (fun q hq => (count_cons_of_ne hq R).symm) fun _ q hq hqp heq => ?_
  · rw [h.refs p, count_cons_self, Nat.add_sub_cancel]
  · exact hqp (h.uniq q hq p (mem_cons_self p R) heq)

theorem Holds.find_eq_none_iff (h : Holds t R) :
    ((finRange nInode).find? fun p => 0 < (t p).ref ∧ (t p).inum = i) = none ↔
      i ∉ t.inums R := by
  rw [List.find?_eq_none, mem_inums]
  constructor
  · rintro hno ⟨p, hp, hi⟩
    have hpos : 0 < (t p).ref := Nat.pos_of_ne_zero (h.ref_ne_zero_iff.2 hp)
    exact hno p (List.mem_finRange p) (decide_eq_true ⟨hpos, hi⟩)
  · intro hno p _ hp
    obtain ⟨hpos, hi⟩ := of_decide_eq_true hp
    exact hno ⟨p, h.ref_ne_zero_iff.1 hpos.ne', hi⟩

theorem wp_iget (h : Holds t R) :
    wp (iget i) (fun p t' => Holds t' (p ::ₘ R) ∧ (i ∈ t.inums R ∨ (t.inums R).card < nInode))
      (fun e => e = .igetNoInodes ∧ ¬ (i ∈ t.inums R ∨ (t.inums R).card < nInode)) t := by
  rw [iget, wp_bind, wp_get]
  split
  · rename_i p hfind
    have hp := List.find?_some hfind
    rw [decide_eq_true_eq] at hp
    obtain ⟨hpos, hi⟩ := hp
    have hp : p ∈ R := h.ref_ne_zero_iff.1 hpos.ne'
    exact wp_bind.2 (wp_set.2 (wp_pure.2 ⟨h.addRef hp, .inl (mem_inums.2 ⟨p, hp, hi⟩)⟩))
  · rename_i hmiss
    have hi := h.find_eq_none_iff.1 hmiss
    split
    · rename_i hbusy
      refine wp_throw.2 ⟨rfl, ?_⟩
      rw [← h.exists_free_iff]
      rintro (hin | ⟨p, hp⟩)
      · exact hi hin
      · exact List.find?_eq_none.1 hbusy p (List.mem_finRange p) (decide_eq_true hp)
    · rename_i p hfind
      have hp := List.find?_some hfind
      rw [decide_eq_true_eq] at hp
      exact wp_bind.2 (wp_set.2 (wp_pure.2 ⟨h.newEntry hp hi, .inr (h.exists_free_iff.1 ⟨p, hp⟩)⟩))

theorem layer_sound (E : FsPanic → Prop) (page : Option ℕ) (mem copied : Bool) :
    (layer.answers page mem copied).Sound (fun i R _ _ => Holds i R) E :=
  Lower.answers_sound (fun h => wp_modify.2 h.dropRef) (fun hip h => wp_modify.2 (h.addRef hip))
    page mem copied

end Itable

/-! ### The system -/

/-- The processes with their files and current directories, and the references that calls on their
way along a path hold. -/
structure TableSys where
  files : Files IPtr Itable
  walk : Fin nProc → List IPtr

/-- What a process does.  A call that takes a path is made of the first four and, at its end,
`sysOpen` or `chdir`. -/
inductive TableAct
  /-- `iget` in `namex` for the root, in `dirlookup` for the entry it finds, and in `ialloc`. -/
  | iget (inum : ℕ)
  /-- `idup` of the current directory in `namex`. -/
  | idup
  | iput (ip : IPtr)
  | sysOpen (ip : IPtr) (type : IType) (major : ℤ) (omode : ℕ)
  | chdir (ip : IPtr)
  | dup (fd : ℤ)
  | pipe (page : Option ℕ) (copied : Bool)
  | close (fd : ℤ)
  | fork (mem : Bool)
  | exit
  | wait (copied : Bool)
  deriving DecidableEq

namespace TableSys

/-- Running code of process `p`, which then holds the references `walk`. -/
def run {α : Type} (s : TableSys) (p : Fin nProc) (m : FilesM IPtr Itable α)
    (walk : α → List IPtr) : Except FsPanic TableSys :=
  match m s.files with
  | .ok (a, t) => .ok ⟨t, update s.walk p (walk a)⟩
  | .error e => .error e

/-- `idup(myproc()->cwd)`. -/
def idupCwd (p : Fin nProc) : FilesM IPtr Itable IPtr := do
  let t ← get
  match t.cwd p with
  | none => throw .badInode
  | some ip => do
    Files.liftInodes (Itable.idup ip)
    pure ip

/-- The end of `sys_chdir`. -/
def moveCwd (p : Fin nProc) (ip : IPtr) : FilesM IPtr Itable Unit := do
  let t ← get
  Files.iputPtr Itable.layer (t.cwd p)
  Files.setCwd p (some ip)

/-- A step of process `p`. -/
def act (s : TableSys) (p : Fin nProc) : TableAct → Except FsPanic TableSys
  | .iget inum => s.run p (Files.liftInodes (Itable.iget inum)) fun ip => ip :: s.walk p
  | .idup => s.run p (idupCwd p) fun ip => ip :: s.walk p
  | .iput ip => s.run p (Files.liftInodes (Itable.iput ip)) fun _ => (s.walk p).erase ip
  | .sysOpen ip type major omode =>
    s.run p (Files.openInode Itable.layer p ip type major omode) fun _ => (s.walk p).erase ip
  | .chdir ip => s.run p (moveCwd p ip) fun _ => (s.walk p).erase ip
  | .dup fd => s.run p (Files.sysDup p fd) fun _ => s.walk p
  | .pipe page copied => s.run p
    (Files.sysPipe (Itable.layer.answers page false copied) p Files.anyAddr) fun _ => s.walk p
  | .close fd => s.run p (Files.sysClose Itable.layer p fd) fun _ => s.walk p
  | .fork mem => s.run p (Files.fork (Itable.layer.answers none mem false) p) fun _ => s.walk p
  | .exit => s.run p (Files.exit Itable.layer p) fun _ => s.walk p
  | .wait copied => s.run p (Files.wait (Itable.layer.answers none false copied) p Files.anyAddr [])
    fun _ => s.walk p

/-- What a process can do: a call on its way holds the references that it drops or turns over, and
the other calls begin when none is on its way.  `wait` does not go to sleep, and `kalloc` finds no
page that a pipe lives in. -/
def Possible (s : TableSys) (p : Fin nProc) : TableAct → Prop
  | .iget _ | .idup => True
  | .iput ip => ip ∈ s.walk p
  | .sysOpen ip _ _ _ | .chdir ip => s.walk p = [ip]
  | .wait _ => s.walk p = [] ∧
      ((∀ q, s.files.parent q ≠ some p) ∨ ∃ q, s.files.parent q = some p ∧
      s.files.state q = .zombie)
  | .pipe page _ => s.walk p = [] ∧ ∀ pi ∈ page, pi ∉ s.files.pipes.map Pipe.page
  | .dup _ | .close _ | .fork _ | .exit => s.walk p = []

instance (s : TableSys) (p : Fin nProc) (a : TableAct) : Decidable (s.Possible p a) := by
  cases a <;> unfold Possible <;> infer_instance

def step (s : TableSys) (a : Fin nProc × TableAct) : Option (Except FsPanic TableSys) :=
  if s.files.state a.1 = .live ∧ s.Possible a.1 a.2 then some (s.act a.1 a.2) else none

/-- The state after `userinit`: `init` runs in the root directory, which is in the first entry. -/
def boot : TableSys where
  files := Files.start ⟨0, nInode_pos⟩ fun p => if p = ⟨0, nInode_pos⟩ then ⟨rootIno, 1⟩ else ⟨0, 0⟩
  walk _ := []

/-- The references that calls on their way hold. -/
def inFlight (walk : Fin nProc → List IPtr) : Multiset IPtr := ∑ p, (walk p : Multiset IPtr)

/-- The inodes that a file, a current directory or a call on its way refers to. -/
def inodesInUse (s : TableSys) : Finset ℕ :=
  s.files.inodes.inums (s.files.held + inFlight s.walk)

/-- The inode of the `iget` that a step calls, if it calls it. -/
def wanted (s : TableSys) : Fin nProc × TableAct → Option ℕ
  | (p, .iget inum) => if s.files.state p = .live then some inum else none
  | _ => none

/-- **The invariant**: every reference is accounted for. -/
def Inv (s : TableSys) : Prop := Files.Inv Itable.Holds s.files (inFlight s.walk)

theorem inFlight_update (walk : Fin nProc → List IPtr) (p : Fin nProc) (l : List IPtr) :
    inFlight (update walk p l) + (walk p : Multiset IPtr) =
      inFlight walk + (l : Multiset IPtr) := by
  exact Tally.sum_update (Finset.mem_univ p) (fun l : List IPtr => (l : Multiset IPtr)) walk l

theorem inFlight_cons (walk : Fin nProc → List IPtr) (p : Fin nProc) (ip : IPtr) :
    inFlight (update walk p (ip :: walk p)) = ip ::ₘ inFlight walk := by
  have hsum := inFlight_update walk p (ip :: walk p)
  rw [← cons_coe, add_cons, ← cons_add] at hsum
  exact add_right_cancel hsum

theorem inFlight_erase {walk : Fin nProc → List IPtr} {p : Fin nProc} {ip : IPtr}
    (hip : ip ∈ walk p) : inFlight walk = ip ::ₘ inFlight (update walk p ((walk p).erase ip)) := by
  have hsum := inFlight_update walk p ((walk p).erase ip)
  have hcons : (walk p : Multiset IPtr) = ip ::ₘ ((walk p).erase ip : List IPtr) := by
    exact coe_eq_coe.2 (List.perm_cons_erase hip)
  rw [hcons, add_cons, ← cons_add] at hsum
  exact (add_right_cancel hsum).symm

variable {s s' : TableSys} {p : Fin nProc} {a : TableAct}

/-- There is an entry for whatever the step calls `iget` for. -/
def Room (s : TableSys) (a : Fin nProc × TableAct) : Prop :=
  ∀ i, s.wanted a = some i → i ∈ s.inodesInUse ∨ s.inodesInUse.card < nInode

/-- What a step leads to: the invariant, and the panic exactly if there is no room. -/
structure Outcome (s : TableSys) (a : Fin nProc × TableAct) (r : Except FsPanic TableSys) : Prop
    where
  ok : ∀ s', r = .ok s' → Inv s'
  panic : r = .error .igetNoInodes ↔ ¬ s.Room a

theorem outcome_of_wp {α : Type} {m : FilesM IPtr Itable α} {walk : α → List IPtr}
    (hm : wp m (fun x t => Files.Inv Itable.Holds t (inFlight (update s.walk p (walk x))))
      (fun e => e ≠ .igetNoInodes) s.files) (hw : s.wanted (p, a) = none) :
    Outcome s (p, a) (s.run p m walk) := by
  have hroom : s.Room (p, a) := by
    intro i hi
    rw [hw] at hi
    cases hi
  unfold run
  cases hrun : m s.files with
  | ok r =>
    refine ⟨fun s' hs' => ?_, iff_of_false (nofun) fun h => h hroom⟩
    cases hs'
    exact hm.of_ok hrun
  | error e =>
    refine ⟨nofun, iff_of_false (fun h => ?_) fun h => h hroom⟩
    cases h
    exact hm.of_error hrun rfl

theorem Inv.iget (h : Inv s) (hp : s.files.state p = .live) (i : ℕ) :
    Outcome s (p, .iget i) (s.act p (.iget i)) := by
  have hroom : s.Room (p, .iget i) ↔ i ∈ s.inodesInUse ∨ s.inodesInUse.card < nInode := by
    rw [Room, wanted, if_pos hp]
    exact ⟨fun h => h i rfl, fun h j hj => Option.some_inj.1 hj ▸ h⟩
  have hm : wp (Files.liftInodes (Itable.iget i))
      (fun ip t => Files.Inv Itable.Holds t (ip ::ₘ inFlight s.walk) ∧ s.Room (p, .iget i))
      (fun e => e = .igetNoInodes ∧ ¬ s.Room (p, .iget i)) s.files := by
    rw [Files.wp_liftInodes, hroom]
    refine (Itable.wp_iget h.tab.inodes).mono fun ip t ht => ⟨h.setInodes ?_, ht.2⟩
    rw [add_cons]
    exact ht.1
  rw [TableSys.act, run]
  cases hrun : Files.liftInodes (Itable.iget i) s.files with
  | ok r =>
    obtain ⟨hinv, hr⟩ := hm.of_ok hrun
    refine ⟨fun s' hs' => ?_, iff_of_false (nofun) fun h => h hr⟩
    cases hs'
    rw [Inv, inFlight_cons]
    exact hinv
  | error e =>
    obtain ⟨rfl, hr⟩ := hm.of_error hrun
    exact ⟨nofun, iff_of_true rfl hr⟩

/-- **Every step keeps the invariant**, and panics for want of an entry exactly if there is no
room. -/
theorem Inv.act (h : Inv s) (hp : s.files.state p = .live) (ha : s.Possible p a) :
    Outcome s (p, a) (s.act p a) := by
  have hbelow := Itable.layer_sound fun e => e ≠ .igetNoInodes
  have hL := hbelow none false false
  -- the calls that begin when no other is on its way leave `walk` alone
  have hself : ∀ t, Files.Inv Itable.Holds t (inFlight s.walk) →
      Files.Inv Itable.Holds t (inFlight (update s.walk p (s.walk p))) := by
    intro t ht
    rwa [update_eq_self]
  cases a with
  | iget i => exact h.iget hp i
  | idup =>
    refine outcome_of_wp ?_ rfl
    obtain ⟨cwd, hcwd⟩ := Option.isSome_iff_exists.1 ((h.procs p).live hp)
    rw [idupCwd, wp_bind, wp_get]
    simp only [hcwd]
    rw [wp_bind, Files.wp_liftInodes]
    have hmem : cwd ∈ s.files.held + inFlight s.walk :=
      mem_add.2 (.inl (Files.mem_held_of_cwd hcwd))
    refine (hL.idup (P := 0) (U := s.files.inUse) hmem h.tab.inodes).mono fun _ t ht => wp_pure.2 ?_
    rw [inFlight_cons]
    refine h.setInodes ?_
    rwa [add_cons]
  | iput ip =>
    have h' : Files.Inv Itable.Holds s.files (inFlight s.walk) := h
    rw [inFlight_erase ha] at h'
    have hm : wp (Files.liftInodes (Itable.layer.iput ip)) (fun _ t => Files.Inv Itable.Holds t
        (inFlight (update s.walk p ((s.walk p).erase ip)))) (fun e => e ≠ .igetNoInodes)
        s.files := Files.wp_iputHeld hL h' fun _ _ ht => ht
    exact outcome_of_wp hm rfl
  | sysOpen ip type major omode =>
    refine outcome_of_wp ?_ rfl
    have h' : Files.Inv Itable.Holds s.files (inFlight s.walk) := h
    have hip : ip ∈ s.walk p := by rw [(ha : s.walk p = [ip])]; exact List.mem_singleton_self ip
    rw [inFlight_erase hip] at h'
    exact (Files.wp_openInode hL h' hp type major omode).mono fun _ _ ht => ht.1
  | chdir ip =>
    refine outcome_of_wp ?_ rfl
    have h' : Files.Inv Itable.Holds s.files (inFlight s.walk) := h
    have hip : ip ∈ s.walk p := by rw [(ha : s.walk p = [ip])]; exact List.mem_singleton_self ip
    rw [inFlight_erase hip] at h'
    exact wp_bind.2 (wp_get.2 (Files.wp_moveCwd hL h' hp fun _ ht => ht))
  | dup fd => exact outcome_of_wp ((Files.wp_sysDup h hp fd).mono fun _ t ht => hself t ht) rfl
  | pipe page copied =>
    exact outcome_of_wp ((Files.wp_sysPipe (hbelow page false copied) h hp (wp_pure.2 ha.2) _).mono
      fun _ t ht => hself t ht) rfl
  | close fd => exact outcome_of_wp ((Files.wp_sysClose hL h fd).mono fun _ t ht => hself t ht) rfl
  | fork mem =>
    exact outcome_of_wp ((Files.wp_fork (hbelow none mem false) h hp).mono fun _ t ht => hself t ht)
      rfl
  | exit =>
    refine outcome_of_wp ((Files.wp_exit hL h hp fun _ => ?_).mono fun _ t ht => hself t ht) rfl
    exact nofun
  | wait copied =>
    exact outcome_of_wp ((Files.wp_wait (hbelow none false copied) h hp _ _).mono
      fun _ t ht => hself t ht) rfl

theorem boot_inv : Inv boot := by
  have hnone : inFlight boot.walk = 0 := by
    exact Finset.sum_eq_zero fun _ _ => rfl
  rw [Inv, hnone]
  refine Files.start_ok ⟨?_, ?_⟩
  · intro p
    show (if p = ⟨0, by decide⟩ then (⟨rootIno, 1⟩ : IEntry) else ⟨0, 0⟩).ref = _
    rw [count_singleton]
    split <;> rfl
  · intro p hp q hq _
    exact (mem_singleton.1 hp).trans (mem_singleton.1 hq).symm

/-- **When `iget` finds an entry.**  In every run and for every step of a process: it does not panic
for want of an entry if and only if the inode that it calls `iget` for is in use, or fewer than
`NINODE` inodes are. -/
theorem iget_no_panic_iff (h : Runs.Reach step (fun _ _ => True) boot s)
    (a : Fin nProc × TableAct) :
    s.step a ≠ some (.error .igetNoInodes) ↔
      ∀ i, s.wanted a = some i → i ∈ s.inodesInUse ∨ s.inodesInUse.card < nInode := by
  have hinv : Inv s := h.invariant boot_inv fun s a s' hs _ hstep => by
    unfold TableSys.step at hstep
    split at hstep
    · rename_i ha
      exact (hs.act ha.1 ha.2).ok s' (Option.some_inj.1 hstep)
    · cases hstep
  obtain ⟨p, a⟩ := a
  unfold TableSys.step
  split
  · rename_i ha
    rw [Ne, Option.some_inj, (hinv.act ha.1 ha.2).panic, not_not]
    rfl
  · rename_i ha
    refine iff_of_true (nofun) fun i hi => ?_
    -- only a process that runs, and every one of them, can call `iget`
    cases a with
    | iget j =>
      rw [wanted] at hi
      split at hi
      · rename_i hp
        exact absurd ⟨hp, trivial⟩ ha
      · cases hi
    | _ => cases hi

def proc (n : ℕ) : Fin nProc := Fin.ofNat nProc n

def entry (n : ℕ) : IPtr := Fin.ofNat 50 n

/-- Process `p` opens the file with inode `i` of the root directory, which gets the entry `ip`:
`namex` takes references to the root and to the file, and drops the first. -/
def openRoot (p : Fin nProc) (i : ℕ) (ip : IPtr) : List (Fin nProc × TableAct) :=
  [(p, .iget rootIno), (p, .iget i), (p, .iput (entry 0)), (p, .sysOpen ip .file 0 0)]

/-- `init` has three children, and the first `n` files of the root are open, 16 in each process. -/
def openFiles (n : ℕ) : List (Fin nProc × TableAct) :=
  List.replicate 3 (proc 0, .fork true) ++
    (List.range n).flatMap fun k => openRoot (proc (k / 16)) (k + 2) (entry (k + 1))

/-- With two files open, there is an entry for another. -/
theorem iget_no_panic_third : ∃ s : TableSys,
    Runs.Reach step (fun _ _ => True) boot s ∧
      (Finset.univ.filter fun f => (s.files.ftable f).ref ≠ 0).card = 2 ∧
      s.step (proc 3, .iget 51) ≠ some (.error .igetNoInodes) := by
  have hrun : ∃ s : TableSys, Runs.Reach step (fun _ _ => True) boot s ∧
      (Finset.univ.filter fun f => (s.files.ftable f).ref ≠ 0).card = 2 ∧
      s.inodesInUse.card < nInode :=
    Runs.exists_reach_of_exec (openFiles 2) (by decide +kernel)
  obtain ⟨s, hs, hopen, huse⟩ := hrun
  exact ⟨s, hs, hopen, (iget_no_panic_iff hs _).2 fun _ _ => .inr huse⟩

/-- The error that a step stops with. -/
def stops (s : TableSys) (a : Fin nProc × TableAct) (e : FsPanic) : Bool :=
  match s.step a with
  | some (.error e') => e' = e
  | _ => false

/-- Four processes have 49 files open, of the 100 that the file table holds and with at most 16
descriptors each.  One of them opens another file, and panics. -/
theorem opens_exhaust_table : ∃ s : TableSys,
    Runs.Reach step (fun _ _ => True) boot s ∧
      (Finset.univ.filter fun f => (s.files.ftable f).ref ≠ 0).card = 49 ∧
      s.step (proc 3, .iget 51) = some (.error .igetNoInodes) := by
  have hrun : ∃ s : TableSys, Runs.Reach step (fun _ _ => True) boot s ∧
      (Finset.univ.filter fun f => (s.files.ftable f).ref ≠ 0).card = 49 ∧
      s.stops (proc 3, .iget 51) .igetNoInodes = true :=
    Runs.exists_reach_of_exec (openFiles 49 ++ [(proc 3, .iget rootIno)]) (by decide +kernel)
  obtain ⟨s, hs, hopen, hstops⟩ := hrun
  refine ⟨s, hs, hopen, ?_⟩
  unfold stops at hstops
  split at hstops
  · rename_i hstep
    rw [hstep, of_decide_eq_true hstops]
  · cases hstops

end TableSys

end CsklubOs

