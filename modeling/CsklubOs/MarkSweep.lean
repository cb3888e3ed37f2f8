/-
**The mark-sweep collector.**

`mark_sweep.c` of the memory allocation practical.  Memory is a function from addresses to the
objects that are allocated; `calloc` may return any address that is free, also one that an object
had before it was freed, so an old reference can come to point to a new object.  Reading an object
that is not allocated stops the program.  The recursion of `mark` and the loops take fuel.

Main definitions:

* `Store`, `mark`, `sweep`, `collect` — objects with references, all on one list from which the
  collector takes those that the roots do not lead to;
* `Collected` — exactly the reachable ones are left.

Main results:

* `collect_exact` — so it is after every collection of every run.
-/

import CsklubOs.Marking
import CsklubOs.Runs
import CsklubOs.Wp

set_option autoImplicit false

namespace CsklubOs.MarkSweep

open Function List Option
open Wp Marking

/-! ### The code -/

def maxReferences : ℕ := 2

abbrev Addr := ℕ

/-- `Object *`, with `none` for `NULL`. -/
abbrev Ptr := Option Addr

/-- `struct Object`; `reference_count` is the number of references that are set. -/
structure Object where
  id : ℤ
  marked : Bool
  references : List Ptr
  room : references.length ≤ maxReferences
  next : Ptr

/-- The variable `heap` and the objects that are allocated. -/
structure Store where
  heap : Ptr
  mem : Addr → Option Object

/-- How the program stops: with `exit`, by an access to memory that is not allocated, or because a
loop takes more turns than there is fuel. -/
inductive Stop
  | exit
  | wild
  | fuel
  deriving DecidableEq

abbrev GcM := StateT Store (Except Stop)

def load (a : Addr) : GcM Object := do
  match (← get).mem a with
  | some o => pure o
  | none => throw .wild

def store (a : Addr) (o : Object) : GcM Unit :=
  modify fun s => { s with mem := update s.mem a (some o) }

def free (a : Addr) : GcM Unit :=
  modify fun s => { s with mem := update s.mem a none }

/-- `allocate_object`, with what `calloc` returned. -/
def allocateObject (id : ℤ) : Ptr → GcM Ptr
  | none => throw .exit
  | some a => do
    let s ← get
    store a { id := id, marked := false, references := [], room := Nat.zero_le _, next := s.heap }
    modify fun s => { s with heap := some a }
    pure (some a)

def addReference (src target : Ptr) : GcM Unit :=
  match src with
  | none => throw .wild
  | some a => do
    let o ← load a
    if h : o.references.length = maxReferences then throw .exit
    else
      store a { o with
        references := o.references ++ [target]
        room := by
          have := o.room
          simp only [length_append, length_singleton]
          omega }

/-- `is_heap_object`: the loop, from `object` on. -/
def isHeapObject (candidate : Ptr) : ℕ → Ptr → GcM Bool
  | 0, _ => throw .fuel
  | _ + 1, none => pure false
  | n + 1, some a =>
    if some a = candidate then pure true
    else do
      let o ← load a
      isHeapObject candidate n o.next

def mark : ℕ → Ptr → GcM Unit
  | 0, _ => throw .fuel
  | n + 1, candidate => do
    let s ← get
    if (← isHeapObject candidate n s.heap) then
      match candidate with
      | none => throw .wild
      | some a => do
        let o ← load a
        if o.marked then pure ()
        else do
          store a { o with marked := true }
          forM o.references (mark n)
    else pure ()

/-- An `Object **`: the variable `heap` or the field `next` of an object. -/
inductive Link
  | heap
  | nextOf (a : Addr)

/-- `*current`. -/
def readLink : Link → GcM Ptr
  | .heap => do pure (← get).heap
  | .nextOf a => do pure (← load a).next

/-- `*current = p`. -/
def writeLink (p : Ptr) : Link → GcM Unit
  | .heap => modify fun s => { s with heap := p }
  | .nextOf a => do
    let o ← load a
    store a { o with next := p }

/-- The sweep phase of `collect`. -/
def sweep : ℕ → Link → ℕ → GcM ℕ
  | 0, _, _ => throw .fuel
  | n + 1, current, reclaimed => do
    match (← readLink current) with
    | none => pure reclaimed
    | some a => do
      let o ← load a
      if o.marked then do
        store a { o with marked := false }
        sweep n (.nextOf a) reclaimed
      else do
        writeLink o.next current
        free a
        sweep n current (reclaimed + 1)

def collect (n : ℕ) (roots : List Ptr) : GcM ℕ := do
  forM roots (mark n)
  sweep n .heap 0

/-! ### The heap list -/

/-- What a link holds; `none` for the link of an object that is not allocated. -/
def Store.link (s : Store) : Link → Option Ptr
  | .heap => some s.heap
  | .nextOf a => (s.mem a).map Object.next

/-- What an object holds beside its link. -/
def Store.body (s : Store) (a : Addr) : Option (ℤ × Bool × List Ptr) :=
  (s.mem a).map fun o => (o.id, o.marked, o.references)

/-- Following `next` from `p` visits the objects `xs`. -/
def Chain (s : Store) : Ptr → List Addr → Prop
  | p, [] => p = none
  | p, a :: xs => p = some a ∧ ∃ q, s.link (.nextOf a) = some q ∧ Chain s q xs

/-- **The heap list holds the objects `xs`**: each allocated object once. -/
structure Heap (s : Store) (xs : List Addr) : Prop where
  chain : Chain s s.heap xs
  nodup : xs.Nodup
  alloc : ∀ a, (∃ o, s.mem a = some o) ↔ a ∈ xs

variable {p : Ptr} {s s' : Store} {xs ys : List Addr} {a : Addr} {f : Addr → Bool} {l : Link}
  {k : ℕ}

theorem Chain.congr (h : Chain s p xs)
    (hlink : ∀ a ∈ xs, s'.link (.nextOf a) = s.link (.nextOf a)) : Chain s' p xs := by
  induction xs generalizing p with
  | nil => exact h
  | cons a xs ih =>
    obtain ⟨hp, q, hq, hrest⟩ := h
    refine ⟨hp, q, (hlink a mem_cons_self).trans hq, ?_⟩
    exact ih hrest fun b hb => hlink b (mem_cons_of_mem a hb)

/-! ### Marking -/

/-- The store with the mark bits `f`. -/
def Store.setMarks (s : Store) (f : Addr → Bool) : Store :=
  { s with mem := fun a => (s.mem a).map fun o => { o with marked := f a } }

theorem setMarks_mem {o : Object} (h : s.mem a = some o) :
    (s.setMarks f).mem a = some { o with marked := f a } := by
  simp only [Store.setMarks, h, map_some]

theorem setMarks_link (s : Store) (f : Addr → Bool) (l : Link) :
    (s.setMarks f).link l = s.link l := by
  cases l with
  | heap => rfl
  | nextOf a =>
    rw [Store.link, Store.setMarks, Option.map_map]
    rfl

theorem setMarks_update (s : Store) (f : Addr → Bool) {o : Object} (h : s.mem a = some o) :
    { s.setMarks f with
      mem := update (s.setMarks f).mem a (some { o with marked := true }) } =
      s.setMarks (update f a true) := by
  simp only [Store.setMarks, Store.mk.injEq, true_and]
  funext b
  by_cases hb : b = a
  · subst hb
    rw [update_self, update_self, h, map_some]
  · rw [update_of_ne hb, update_of_ne hb]

/-- The marked objects of the heap. -/
def markedSet (xs : List Addr) (f : Addr → Bool) : Set Addr :=
  {a | a ∈ xs ∧ f a = true}

/-- The heap objects that pointers of `l` point to. -/
def targets (xs : List Addr) (l : List Ptr) : Set Addr :=
  {a | some a ∈ l ∧ a ∈ xs}

/-- `a` holds a reference to `b`. -/
def Refers (s : Store) (a b : Addr) : Prop :=
  ∃ o, s.mem a = some o ∧ some b ∈ o.references

/-- The heap objects that the roots lead to, through references to heap objects. -/
def reachable (s : Store) (xs : List Addr) (roots : List Ptr) : Set Addr :=
  reached (fun a b => Refers s a b ∧ b ∈ xs) (targets xs roots)

/-- How many objects are not marked: the bound on the depth of `mark`. -/
def unmarked (xs : List Addr) (f : Addr → Bool) : ℕ :=
  xs.countP fun a => !f a

theorem unmarked_anti {g : Addr → Bool} (h : markedSet xs f ⊆ markedSet xs g) :
    unmarked xs g ≤ unmarked xs f := by
  apply countP_mono_left
  intro a ha hg
  by_contra hf
  have hm := h ⟨ha, by simpa using hf⟩
  rw [hm.2] at hg
  cases hg

theorem unmarked_update (ha : a ∈ xs) (hf : f a = false) :
    unmarked xs (update f a true) < unmarked xs f := by
  obtain ⟨l, r, rfl⟩ := append_of_mem ha
  have hle : ∀ ys : List Addr,
      ys.countP (fun b => !update f a true b) ≤ ys.countP fun b => !f b := by
    intro ys
    refine unmarked_anti fun b hb => ⟨hb.1, ?_⟩
    by_cases hba : b = a
    · rw [hba, update_self]
    · rw [update_of_ne hba]
      exact hb.2
  have hl := hle l
  have hr := hle r
  simp only [unmarked, countP_append, countP_cons, update_self, hf]
  simp only [Bool.not_true, Bool.not_false, Bool.false_eq_true, if_false, if_true]
  omega

section Code

variable {E : Stop → Prop}

theorem wp_load {a : Addr} {o : Object} {Q : Object → Store → Prop} {s : Store}
    (h : s.mem a = some o) (hQ : Q o s) : wp (load a) Q E s := by
  rw [load, wp_bind, wp_get, h]
  exact wp_pure.2 hQ

variable {n : ℕ}

theorem wp_isHeapObject {candidate p : Ptr} {xs : List Addr} {s : Store} {Q : Bool → Store → Prop}
    (hchain : Chain s p xs) (hn : E .fuel ∨ xs.length < n)
    (hQ : ∀ r : Bool, (r = true ↔ ∃ a ∈ xs, candidate = some a) → Q r s) :
    wp (isHeapObject candidate n p) Q E s := by
  induction n generalizing xs p with
  | zero => exact wp_throw.2 (hn.resolve_right (Nat.not_lt_zero _))
  | succ n ih =>
    cases xs with
    | nil =>
      subst hchain
      exact wp_pure.2 (hQ false (by simp))
    | cons a xs =>
      obtain ⟨hp, q, hq, hrest⟩ := hchain
      obtain ⟨o, ho, rfl⟩ := map_eq_some_iff.1 hq
      subst hp
      refine wp_ite (fun heq => ?_) fun hne => ?_
      · exact wp_pure.2 (hQ true (by simp [← heq]))
      · rw [wp_bind]
        refine wp_load ho (ih hrest ?_ ?_)
        · exact hn.imp id fun h => by simpa using h
        · intro r hr
          refine hQ r (hr.trans ?_)
          have hca : candidate ≠ some a := fun h => hne h.symm
          simp [hca]

variable {s : Store} {xs : List Addr}

/-- What a search from the pointers `l` does to the mark bits. -/
def Marks (s : Store) (xs : List Addr) (l : List Ptr) (f : Addr → Bool) (t : Store) : Prop :=
  ∃ g, t = s.setMarks g ∧
    Visited (fun a b => Refers s a b ∧ b ∈ xs) (targets xs l) (markedSet xs f) (markedSet xs g)

theorem wp_markAll {k : ℕ} (hmark : ∀ c f, unmarked xs f ≤ k →
      wp (mark n c) (fun _ => Marks s xs [c] f) E (s.setMarks f)) (l : List Ptr) {f : Addr → Bool}
    (hf : unmarked xs f ≤ k) : wp (forM l (mark n)) (fun _ => Marks s xs l f) E (s.setMarks f) := by
  induction l generalizing f with
  | nil =>
    refine wp_pure.2 ⟨f, rfl, Visited.refl ?_⟩
    rintro a ⟨ha, -⟩
    cases ha
  | cons c l ih =>
    rw [forM_cons, wp_bind]
    refine (hmark c f hf).mono ?_
    rintro _ t ⟨g, rfl, hg⟩
    refine (ih ((unmarked_anti hg.sub).trans hf)).mono ?_
    rintro _ t ⟨g', rfl, hg'⟩
    have hsrc : targets xs (c :: l) = targets xs [c] ∪ targets xs l := by
      ext a
      simp only [targets, Set.mem_union, Set.mem_ofPred_eq, mem_cons, not_mem_nil, or_false]
      tauto
    exact ⟨g', rfl, hsrc ▸ hg.seq hg'⟩

/-- **`mark` is a search from its argument**; it needs no more fuel than the length of the list and
the number of objects that are not marked yet. -/
theorem wp_mark (h : Heap s xs) {c : Ptr} {f : Addr → Bool}
    (hn : E .fuel ∨ xs.length + unmarked xs f + 1 < n) :
    wp (mark n c) (fun _ => Marks s xs [c] f) E (s.setMarks f) := by
  -- the depth is bounded by the unmarked objects: each level marks one
  induction n generalizing c f with
  | zero => exact wp_throw.2 (hn.resolve_right (Nat.not_lt_zero _))
  | succ n ih =>
    have hchain : Chain (s.setMarks f) s.heap xs := h.chain.congr fun a _ => setMarks_link s f _
    rw [mark.eq_def]
    simp only [wp_bind, wp_get]
    refine wp_isHeapObject hchain (hn.imp id fun hn => by omega) fun r hr => ?_
    refine wp_ite (fun hr' => ?_) fun hr' => ?_
    · obtain ⟨a, ha, rfl⟩ := hr.1 hr'
      obtain ⟨o, ho⟩ := (h.alloc a).2 ha
      have hsrc : targets xs [some a] = {a} := by
        ext b
        simp only [targets, mem_singleton, Option.some.injEq, Set.mem_ofPred_eq,
          Set.mem_singleton_iff]
        exact ⟨fun hb => hb.1, fun hb => ⟨hb, hb ▸ ha⟩⟩
      simp only [wp_bind]
      refine wp_load (setMarks_mem ho) (wp_ite (fun hmarked => ?_) fun hmarked => ?_)
      · refine wp_pure.2 ⟨f, rfl, Visited.refl ?_⟩
        rw [hsrc, Set.singleton_subset_iff]
        exact ⟨ha, hmarked⟩
      · have hfa : f a = false := by simpa using hmarked
        have hlt := unmarked_update ha hfa
        have hinsert : markedSet xs (update f a true) = insert a (markedSet xs f) := by
          ext b
          by_cases hb : b = a
          · subst hb
            simp [markedSet, ha]
          · simp [markedSet, hb]
        have hsucc : targets xs o.references = {b | Refers s a b ∧ b ∈ xs} := by
          ext b
          simp [targets, Refers, ho]
        rw [wp_bind, store, wp_modify]
        rw [setMarks_update s f ho]
        refine (wp_markAll (k := unmarked xs (update f a true))
          (fun c g hg => ih (hn.imp id fun hn => by omega)) o.references le_rfl).mono ?_
        rintro _ t ⟨g, rfl, hg⟩
        rw [hsucc, hinsert] at hg
        exact ⟨g, rfl, hsrc ▸ hg.node⟩
    · refine wp_pure.2 ⟨f, rfl, Visited.refl ?_⟩
      rintro a ⟨ha, hax⟩
      rw [mem_singleton] at ha
      exact absurd (hr.2 ⟨a, hax, ha.symm⟩) hr'

end Code

/-! ### Sweeping -/

/-- Writing a link. -/
def Store.setLink (s : Store) (p : Ptr) : Link → Store
  | .heap => { s with heap := p }
  | .nextOf a => { s with mem := update s.mem a ((s.mem a).map ({ · with next := p })) }

/-- Freeing an object. -/
def Store.drop (s : Store) (a : Addr) : Store :=
  { s with mem := update s.mem a none }

/-- Clearing the mark of an object. -/
def Store.unmark (s : Store) (a : Addr) : Store :=
  { s with mem := update s.mem a ((s.mem a).map ({ · with marked := false })) }

section Updates

variable (s : Store) (p : Ptr) (a : Addr) {b : Addr} {l l' : Link}

theorem link_setLink_self (h : s.link l ≠ none) : (s.setLink p l).link l = some p := by
  cases l with
  | heap => rfl
  | nextOf b =>
    obtain ⟨q, hq⟩ := ne_none_iff_exists'.1 h
    obtain ⟨o, ho, -⟩ := map_eq_some_iff.1 hq
    simp [Store.link, Store.setLink, ho]

theorem link_setLink_of_ne (h : l' ≠ l) : (s.setLink p l).link l' = s.link l' := by
  cases l with
  | heap => cases l' <;> first | exact absurd rfl h | rfl
  | nextOf b =>
    cases l' with
    | heap => rfl
    | nextOf c =>
      have hcb : c ≠ b := fun hc => h (congrArg _ hc)
      simp [Store.link, Store.setLink, hcb]

theorem body_setLink : (s.setLink p l).body = s.body := by
  funext c
  cases l with
  | heap => rfl
  | nextOf b =>
    by_cases hc : c = b
    · subst hc
      simp [Store.body, Store.setLink, comp_def]
    · simp [Store.body, Store.setLink, hc]

theorem link_drop_of_ne (h : l ≠ .nextOf a) : (s.drop a).link l = s.link l := by
  cases l with
  | heap => rfl
  | nextOf c =>
    have hca : c ≠ a := fun hc => h (congrArg _ hc)
    simp [Store.link, Store.drop, hca]

theorem body_drop_self : (s.drop a).body a = none := by
  simp [Store.body, Store.drop]

theorem body_drop_of_ne (h : b ≠ a) : (s.drop a).body b = s.body b := by
  simp [Store.body, Store.drop, h]

theorem link_unmark : (s.unmark a).link l = s.link l := by
  cases l with
  | heap => rfl
  | nextOf c =>
    by_cases hc : c = a
    · subst hc
      simp [Store.link, Store.unmark, comp_def]
    · simp [Store.link, Store.unmark, hc]

theorem body_unmark_self : (s.unmark a).body a = (s.body a).map fun b => (b.1, false, b.2.2) := by
  simp [Store.body, Store.unmark, comp_def]

theorem body_unmark_of_ne (h : b ≠ a) : (s.unmark a).body b = s.body b := by
  simp [Store.body, Store.unmark, h]

theorem body_unmark_of_notMem {ys : List Addr} {a : Addr} (h : a ∉ ys) :
    ∀ b ∈ ys, (s.unmark a).body b = s.body b :=
  fun _ hb => body_unmark_of_ne s a fun hba => h (hba ▸ hb)

theorem body_unlink_of_notMem (l : Link) {ys : List Addr} {a : Addr} (h : a ∉ ys) :
    ∀ b ∈ ys, ((s.setLink p l).drop a).body b = s.body b := by
  intro b hb
  rw [body_drop_of_ne _ a fun hba => h (hba ▸ hb), body_setLink]

end Updates

/-- Whether an object is there and marked. -/
def Store.isMarked (s : Store) (a : Addr) : Bool :=
  (s.body a).any fun b => b.2.1

theorem filter_isMarked_congr {t : Store} (h : ∀ a ∈ ys, t.body a = s.body a) :
    ys.filter t.isMarked = ys.filter s.isMarked := by
  refine filter_congr fun a ha => ?_
  rw [Store.isMarked, h a ha]
  rfl

/-- What the sweep makes of an object. -/
def sweptBody (b : Option (ℤ × Bool × List Ptr)) : Option (ℤ × Bool × List Ptr) :=
  (b.filter fun b => b.2.1).map fun b => (b.1, false, b.2.2)

/-- What the sweep from the link `l` on does, where the objects `ys` hang. -/
structure Swept (s s' : Store) (l : Link) (ys : List Addr) : Prop where
  chain : ∃ q, s'.link l = some q ∧ Chain s' q (ys.filter s.isMarked)
  inside : ∀ a ∈ ys, s'.body a = sweptBody (s.body a)
  outside : ∀ a ∉ ys, s'.body a = s.body a
  links : ∀ l', l' ≠ l → (∀ a ∈ ys, l' ≠ .nextOf a) → s'.link l' = s.link l'

variable {E : Stop → Prop}

theorem wp_readLink {Q : Ptr → Store → Prop} (h : s.link l = some p) (hQ : Q p s) :
    wp (readLink l) Q E s := by
  cases l with
  | heap =>
    rw [Store.link, some_inj] at h
    rw [readLink, wp_bind, wp_get, h]
    exact wp_pure.2 hQ
  | nextOf a =>
    obtain ⟨o, ho, rfl⟩ := map_eq_some_iff.1 h
    rw [readLink, wp_bind]
    exact wp_load ho (wp_pure.2 hQ)

theorem wp_writeLink {Q : Unit → Store → Prop} (h : s.link l ≠ none) (hQ : Q () (s.setLink p l)) :
    wp (writeLink p l) Q E s := by
  cases l with
  | heap => exact wp_modify.2 hQ
  | nextOf a =>
    obtain ⟨q, hq⟩ := ne_none_iff_exists'.1 h
    obtain ⟨o, ho, -⟩ := map_eq_some_iff.1 hq
    rw [writeLink, wp_bind]
    refine wp_load ho ?_
    rw [store, wp_modify]
    simpa only [Store.setLink, ho, map_some] using hQ

theorem Swept.keep (hl : s.link l = some (some a)) (hla : l ≠ .nextOf a)
    (hly : ∀ b ∈ ys, l ≠ .nextOf b) (hay : a ∉ ys) (hm : s.isMarked a = true)
    (h : Swept (s.unmark a) s' (.nextOf a) ys) : Swept s s' l (a :: ys) where
  chain := by
    obtain ⟨q, hq, hchain⟩ := h.chain
    have hsame := filter_isMarked_congr (body_unmark_of_notMem s hay)
    refine ⟨some a, ?_, ?_⟩
    · rw [h.links l hla hly, link_unmark, hl]
    · rw [filter_cons_of_pos hm, ← hsame]
      exact ⟨rfl, q, hq, hchain⟩
  inside := by
    intro b hb
    by_cases hba : b = a
    · subst hba
      rw [h.outside b hay, body_unmark_self]
      obtain ⟨v, hv, hmv⟩ := (any_eq_true _ _).1 hm
      rw [sweptBody, hv, filter_some, if_pos hmv]
    · have hby := (mem_cons.1 hb).resolve_left hba
      rw [h.inside b hby, body_unmark_of_ne s a hba]
  outside := by
    intro b hb
    rw [mem_cons, not_or] at hb
    rw [h.outside b hb.2, body_unmark_of_ne s a hb.1]
  links := by
    intro l' _ hl'
    rw [h.links l' (hl' a mem_cons_self) fun b hb => hl' b (mem_cons_of_mem a hb),
      link_unmark]

theorem Swept.free (hay : a ∉ ys) (hm : s.isMarked a = false)
    (h : Swept ((s.setLink p l).drop a) s' l ys) : Swept s s' l (a :: ys) where
  chain := by
    obtain ⟨q, hq, hchain⟩ := h.chain
    have hsame := filter_isMarked_congr (body_unlink_of_notMem s p l hay)
    refine ⟨q, hq, ?_⟩
    rw [filter_cons_of_neg (by rw [hm]; exact Bool.false_ne_true), ← hsame]
    exact hchain
  inside := by
    intro b hb
    by_cases hba : b = a
    · subst hba
      rw [h.outside b hay, body_drop_self]
      rw [sweptBody, eq_comm, map_eq_none_iff, filter_eq_none_iff]
      intro v hv hmv
      rw [Store.isMarked, hv] at hm
      exact Bool.false_ne_true (hm.symm.trans hmv)
    · have hby := (mem_cons.1 hb).resolve_left hba
      rw [h.inside b hby, body_drop_of_ne _ a hba, body_setLink]
  outside := by
    intro b hb
    rw [mem_cons, not_or] at hb
    rw [h.outside b hb.2, body_drop_of_ne _ a hb.1, body_setLink]
  links := by
    intro l' hne hl'
    rw [h.links l' hne fun b hb => hl' b (mem_cons_of_mem a hb),
      link_drop_of_ne _ a (hl' a mem_cons_self), link_setLink_of_ne _ p hne]

/-- **The sweep** takes the objects without a mark off the list, clears the other marks and counts
what it took. -/
theorem wp_sweep {n : ℕ} (hl : s.link l = some p) (hchain : Chain s p ys) (hnodup : ys.Nodup)
    (hly : ∀ a ∈ ys, l ≠ .nextOf a) (hn : E .fuel ∨ ys.length < n) :
    wp (sweep n l k) (fun r s' => Swept s s' l ys ∧
      r + (ys.filter s.isMarked).length = k + ys.length) E s := by
  induction n generalizing s l p ys k with
  | zero => exact wp_throw.2 (hn.resolve_right (Nat.not_lt_zero _))
  | succ n ih =>
    cases ys with
    | nil =>
      cases hchain
      rw [sweep, wp_bind]
      refine wp_readLink hl (wp_pure.2 ⟨?_, rfl⟩)
      exact ⟨⟨none, hl, rfl⟩, fun a ha => absurd ha not_mem_nil, fun _ _ => rfl,
        fun _ _ _ => rfl⟩
    | cons a ys =>
      obtain ⟨rfl, q, hq, hrest⟩ := hchain
      obtain ⟨o, ho, rfl⟩ := map_eq_some_iff.1 hq
      obtain ⟨hay, hnodup'⟩ := nodup_cons.1 hnodup
      have hla := hly a mem_cons_self
      have hly' : ∀ b ∈ ys, l ≠ .nextOf b := fun b hb => hly b (mem_cons_of_mem a hb)
      have hyn : E .fuel ∨ ys.length < n := hn.imp id fun h => by simpa using h
      have hmark : s.isMarked a = o.marked := by simp [Store.isMarked, Store.body, ho]
      rw [sweep, wp_bind]
      refine wp_readLink hl ?_
      simp only [wp_bind]
      refine wp_load ho (wp_ite (fun hm => ?_) fun hm => ?_)
      · have hstore : { s with mem := update s.mem a (some { o with marked := false }) } =
            s.unmark a := by simp [Store.unmark, ho]
        rw [wp_bind, store, wp_modify, hstore]
        have hrest' : Chain (s.unmark a) o.next ys := hrest.congr fun b _ => link_unmark s a
        have hnext : (s.unmark a).link (.nextOf a) = some o.next := by rw [link_unmark, hq]
        refine (ih hnext hrest' hnodup' (fun b hb hba => ?_) hyn).mono ?_
        · cases hba
          exact hay hb
        · rintro r s' ⟨hsw, hr⟩
          have hm' : s.isMarked a = true := hmark.trans hm
          rw [filter_isMarked_congr (body_unmark_of_notMem s hay)] at hr
          refine ⟨hsw.keep hl hla hly' hay hm', ?_⟩
          rw [filter_cons_of_pos hm', length_cons, length_cons]
          omega
      · have hl' : s.link l ≠ none := by
          rw [hl]
          exact some_ne_none _
        rw [wp_bind]
        refine wp_writeLink hl' ?_
        rw [wp_bind, free, wp_modify]
        have hrest' : Chain ((s.setLink o.next l).drop a) o.next ys := by
          refine hrest.congr fun b hb => ?_
          have hba : Link.nextOf b ≠ .nextOf a := fun h => hay (Link.nextOf.inj h ▸ hb)
          rw [link_drop_of_ne _ a hba, link_setLink_of_ne _ _ (hly' b hb).symm]
        have hlink : ((s.setLink o.next l).drop a).link l = some o.next := by
          rw [link_drop_of_ne _ a hla, link_setLink_self _ _ hl']
        refine (ih hlink hrest' hnodup' hly' hyn).mono ?_
        rintro r s' ⟨hsw, hr⟩
        have hm' : s.isMarked a = false := hmark.trans (by simpa using hm)
        rw [filter_isMarked_congr (body_unlink_of_notMem s o.next l hay)] at hr
        refine ⟨hsw.free hay hm', ?_⟩
        rw [filter_cons_of_neg (by rw [hm']; exact Bool.false_ne_true), length_cons]
        omega

/-! ### Collecting -/

/-- No mark is set. -/
def Unmarked (s : Store) : Prop :=
  ∀ a o, s.mem a = some o → o.marked = false

/-- **What one call of `collect` has to do**: from the list `xs` to the list `ys`. -/
structure Collected (s s' : Store) (roots : List Ptr) (xs ys : List Addr) (count : ℕ) : Prop where
  heap : Heap s' ys
  order : ys.Sublist xs
  exact : ∀ a, a ∈ ys ↔ a ∈ reachable s xs roots
  same : ∀ a ∈ ys, s'.body a = s.body a
  refs : ∀ a ∈ ys, ∀ b, Refers s' a b → b ∈ xs → b ∈ ys
  unmarked : Unmarked s'
  count : count + ys.length = xs.length

theorem refers_iff_body {b : Addr} : Refers s a b ↔ ∃ v, s.body a = some v ∧ some b ∈ v.2.2 := by
  simp [Refers, Store.body]

theorem exists_mem_iff_body : (∃ o, s.mem a = some o) ↔ s.body a ≠ none := by
  rw [← ne_none_iff_exists', Store.body, ne_eq, ne_eq, map_eq_none_iff]

theorem unmarked_iff_body : Unmarked s ↔ ∀ a v, s.body a = some v → v.2.1 = false := by
  constructor
  · intro h a v hv
    obtain ⟨o, ho, rfl⟩ := map_eq_some_iff.1 hv
    exact h a o ho
  · intro h a o ho
    exact h a (o.id, o.marked, o.references) (by rw [Store.body, ho, map_some])

theorem body_setMarks (s : Store) (f : Addr → Bool) (a : Addr) :
    (s.setMarks f).body a = (s.body a).map fun v => (v.1, f a, v.2.2) := by
  simp [Store.body, Store.setMarks, comp_def]

theorem setMarks_false (h : Unmarked s) : s.setMarks (fun _ => false) = s := by
  have hmem : (s.setMarks fun _ => false).mem = s.mem := by
    funext a
    cases ho : s.mem a with
    | none => simp only [Store.setMarks, ho, map_none]
    | some o => rw [setMarks_mem ho, ← h a o ho]
  cases s
  exact congrArg _ hmem

theorem body_of_swept {g : Addr → Bool} (h : Heap s xs) (hu : Unmarked s)
    (hsw : Swept (s.setMarks g) s' .heap xs) (a : Addr) :
    s'.body a = if a ∈ xs.filter g then s.body a else none := by
  by_cases ha : a ∈ xs
  · rw [hsw.inside a ha, body_setMarks]
    cases hv : s.body a with
    | none => simp [sweptBody]
    | some v =>
      have hvm := unmarked_iff_body.1 hu a v hv
      obtain ⟨i, m, rs⟩ := v
      cases hg : g a with
      | false => simp [sweptBody, ha, hg]
      | true =>
        cases hvm
        simp [sweptBody, ha, hg]
  · have hnone : s.body a = none := by
      by_contra hne
      exact ha ((h.alloc a).1 (exists_mem_iff_body.2 hne))
    rw [hsw.outside a ha, body_setMarks, hnone]
    simp

/-- **`collect` does it**, and needs no more fuel than twice the length of the list. -/
theorem wp_collect (h : Heap s xs) (hu : Unmarked s) {n : ℕ} (roots : List Ptr)
    (hn : E .fuel ∨ 2 * xs.length + 1 < n) :
    wp (collect n roots) (fun count s' => ∃ ys, Collected s s' roots xs ys count) E s := by
  have hempty : markedSet xs (fun _ => false) = ∅ := by
    ext a
    simp [markedSet]
  have hlen : ∀ f, unmarked xs f ≤ xs.length := fun f => countP_le_length
  have hmarks := wp_markAll (n := n) (k := xs.length)
    (fun c f hf => wp_mark (c := c) h (hn.imp id fun hn => by omega)) roots (hlen fun _ => false)
  rw [setMarks_false hu] at hmarks
  rw [collect, wp_bind]
  refine hmarks.mono ?_
  rintro _ t ⟨g, rfl, hg⟩
  rw [hempty] at hg
  have hreach : markedSet xs g = reachable s xs roots := hg.eq_reached
  have hchain : Chain (s.setMarks g) s.heap xs := h.chain.congr fun a _ => setMarks_link s g _
  refine (wp_sweep (setMarks_link s g .heap) hchain h.nodup (fun _ _ hne => by cases hne)
    (hn.imp id fun hn => by omega)).mono ?_
  rintro count s' ⟨hsw, hcount⟩
  have hfilter : xs.filter (s.setMarks g).isMarked = xs.filter g := by
    refine filter_congr fun a ha => ?_
    obtain ⟨o, ho⟩ := (h.alloc a).2 ha
    simp [Store.isMarked, Store.body, setMarks_mem ho]
  rw [hfilter] at hcount
  have hbody := body_of_swept h hu hsw
  have hexact : ∀ a, a ∈ xs.filter g ↔ a ∈ reachable s xs roots := by
    intro a
    rw [← hreach, mem_filter]
    rfl
  refine ⟨xs.filter g, ⟨?_, h.nodup.filter g, ?_⟩, filter_sublist, hexact, ?_, ?_, ?_, ?_⟩
  · obtain ⟨q, hq, hch⟩ := hsw.chain
    rw [Store.link, some_inj] at hq
    rw [hq, ← hfilter]
    exact hch
  · intro a
    rw [exists_mem_iff_body, hbody a]
    by_cases ha : a ∈ xs.filter g
    · rw [if_pos ha, ← exists_mem_iff_body, h.alloc a]
      exact ⟨fun _ => ha, fun ha => (mem_filter.1 ha).1⟩
    · rw [if_neg ha]
      exact ⟨fun hne => absurd rfl hne, fun hm => absurd hm ha⟩
  · intro a ha
    rw [hbody a, if_pos ha]
  · intro a ha b hab hb
    rw [refers_iff_body, hbody a, if_pos ha, ← refers_iff_body] at hab
    rw [hexact] at ha ⊢
    obtain ⟨r, hr, hra⟩ := ha
    exact ⟨r, hr, hra.tail ⟨hab, hb⟩⟩
  · refine unmarked_iff_body.2 fun a v hv => ?_
    rw [hbody a] at hv
    split at hv
    · exact unmarked_iff_body.1 hu a v hv
    · cases hv
  · omega

theorem Collected.reachable_after {roots : List Ptr} (h : Collected s s' roots xs ys k)
    (ha : a ∈ ys) : a ∈ reachable s' ys roots := by
  obtain ⟨r, hr, hra⟩ := (h.exact a).1 ha
  -- along the path, each node is reachable, so it is left and holds what it held
  have hmem : ∀ b, Relation.ReflTransGen (fun a b => Refers s a b ∧ b ∈ xs) r b → b ∈ ys :=
    fun b hb => (h.exact b).2 ⟨r, hr, hb⟩
  refine ⟨r, ⟨hr.1, hmem r .refl⟩, ?_⟩
  induction hra with
  | refl => exact .refl
  | tail hb hbc ih =>
    rename_i b c
    have hby := hmem b hb
    refine (ih hby).tail ⟨?_, hmem c (hb.tail hbc)⟩
    rw [refers_iff_body, h.same b hby, ← refers_iff_body]
    exact hbc.1

theorem Collected.again {s'' : Store} {roots : List Ptr} {zs : List Addr} {k' : ℕ}
    (h : Collected s s' roots xs ys k) (h' : Collected s' s'' roots ys zs k') : k' = 0 := by
  have hsub : ys ⊆ zs := fun a ha => (h'.exact a).2 (h.reachable_after ha)
  have hle := (h.heap.nodup.subperm hsub).length_le
  have := h'.count
  omega

/-! ### Programs -/

/-- What a program does with the heap: allocate an object, at the address that `calloc` returns,
store a reference, or collect. -/
inductive Action
  | allocate (id : ℤ) (got : Ptr)
  | addReference (src target : Ptr)
  | collect (n : ℕ) (roots : List Ptr)

/-- The state after code, or why it stopped. -/
def done {α : Type} : Except Stop (α × Store) → Except Stop Store
  | .ok r => .ok r.2
  | .error e => .error e

def step (s : Store) : Action → Option (Except Stop Store)
  | .allocate id got => some (done (allocateObject id got s))
  | .addReference src target => some (done (addReference src target s))
  | .collect n roots => some (done (collect n roots s))

/-- `calloc` returns memory that is not in use. -/
def Legal (s : Store) : Action → Prop
  | .allocate _ (some a) => s.mem a = none
  | _ => True

instance (s : Store) (a : Action) : Decidable (Legal s a) :=
  match a with
  | .allocate _ (some a) => decidable_of_iff ((s.mem a).isNone = true) isNone_iff_eq_none
  | .allocate _ none => .isTrue trivial
  | .addReference _ _ => .isTrue trivial
  | .collect _ _ => .isTrue trivial

/-- The heap of a program that starts. -/
def start : Store := { heap := none, mem := fun _ => none }

/-- The invariant between two calls. -/
def Inv (s : Store) : Prop :=
  ∃ xs, Heap s xs ∧ Unmarked s

theorem inv_start : Inv start := by
  refine ⟨[], ⟨rfl, nodup_nil, fun a => ⟨?_, fun ha => absurd ha not_mem_nil⟩⟩, ?_⟩
  · rintro ⟨o, ho⟩
    cases ho
  · intro a o ho
    cases ho

theorem wp_allocateObject (h : Inv s) (id : ℤ) (ha : s.mem a = none) :
    wp (allocateObject id (some a)) (fun _ s' => Inv s') (fun _ => True) s := by
  obtain ⟨xs, hheap, hu⟩ := h
  have hax : a ∉ xs := fun hx => by
    obtain ⟨o, ho⟩ := (hheap.alloc a).2 hx
    rw [ha] at ho
    cases ho
  have hne : ∀ b ∈ xs, b ≠ a := fun b hb hba => hax (hba ▸ hb)
  rw [allocateObject, wp_bind, wp_get, wp_bind, store, wp_modify, wp_bind, wp_modify, wp_pure]
  refine ⟨a :: xs, ⟨⟨rfl, s.heap, ?_, ?_⟩, nodup_cons.2 ⟨hax, hheap.nodup⟩, ?_⟩, ?_⟩
  · simp [Store.link]
  · refine hheap.chain.congr fun b hb => ?_
    simp [Store.link, hne b hb]
  · intro b
    rw [mem_cons, ← hheap.alloc b]
    by_cases hb : b = a
    · simp [hb]
    · simp [hb]
  · intro b o ho
    by_cases hb : b = a
    · subst hb
      simp only [update_self, Option.some.injEq] at ho
      rw [← ho]
    · simp only [update_of_ne hb] at ho
      exact hu b o ho

theorem wp_addReference (h : Inv s) (src target : Ptr) :
    wp (addReference src target) (fun _ s' => Inv s') (fun _ => True) s := by
  obtain ⟨xs, hheap, hu⟩ := h
  cases src with
  | none => exact wp_throw.2 trivial
  | some a =>
    rw [addReference, wp_bind]
    cases ho : s.mem a with
    | none =>
      rw [load, wp_bind, wp_get, ho]
      exact wp_throw.2 trivial
    | some o =>
      refine wp_load ho ?_
      split
      · exact wp_throw.2 trivial
      · rw [store, wp_modify]
        refine ⟨xs, ⟨hheap.chain.congr fun b _ => ?_, hheap.nodup, fun b => ?_⟩,
          fun b o' ho' => ?_⟩
        · by_cases hb : b = a
          · subst hb
            simp [Store.link, ho]
          · simp [Store.link, hb]
        · rw [← hheap.alloc b]
          by_cases hb : b = a
          · simp [hb, ho]
          · simp [hb]
        · by_cases hb : b = a
          · subst hb
            simp only [update_self, Option.some.injEq] at ho'
            rw [← ho']
            exact hu b o ho
          · simp only [update_of_ne hb] at ho'
            exact hu b o' ho'

theorem done_of_wp {α : Type} {m : GcM α} {P : Store → Prop}
    (h : wp m (fun _ t => P t) (fun _ => True) s) (hs : done (m s) = .ok s') : P s' := by
  cases hm : m s with
  | ok r =>
    rw [hm] at hs
    cases hs
    exact h.of_ok hm
  | error e =>
    rw [hm] at hs
    cases hs

theorem inv_step {a : Action} (h : Inv s) (hok : Legal s a) (hs : step s a = some (.ok s')) :
    Inv s' := by
  cases a with
  | allocate id got =>
    cases got with
    | none => cases hs
    | some a => exact done_of_wp (wp_allocateObject h id hok) (some_inj.1 hs)
  | addReference src target =>
    exact done_of_wp (wp_addReference h src target) (some_inj.1 hs)
  | collect n roots =>
    obtain ⟨xs, hheap, hu⟩ := h
    refine done_of_wp ((wp_collect hheap hu roots (.inl trivial)).mono ?_) (some_inj.1 hs)
    rintro _ t ⟨ys, hc⟩
    exact ⟨ys, hc.heap, hc.unmarked⟩

/-- **Collection is exact** in every state that a program reaches: with enough fuel `collect`
returns, what it leaves on the list is what the roots lead to, and collecting again with the same
roots removes nothing. -/
theorem collect_exact {s : Store} (h : Runs.Reach step Legal start s) (roots : List Ptr) :
    ∃ xs N, Heap s xs ∧ ∀ n ≥ N, ∃ count s' ys, collect n roots s = .ok (count, s') ∧
      Collected s s' roots xs ys count ∧ ∃ s'', collect n roots s' = .ok (0, s'') := by
  obtain ⟨xs, hheap, hu⟩ := h.invariant inv_start fun _ _ _ hi hok hs => inv_step hi hok hs
  refine ⟨xs, 2 * xs.length + 2, hheap, fun n hn => ?_⟩
  obtain ⟨count, s', hrun, ys, hc⟩ := (wp_collect hheap hu roots (.inr hn)).exists_ok
  have hlen := hc.order.length_le
  obtain ⟨k, s'', hrun', zs, hc'⟩ :=
    (wp_collect (n := n) hc.heap hc.unmarked roots (.inr (by omega))).exists_ok
  refine ⟨count, s', ys, hrun, hc, s'', ?_⟩
  rw [hrun', hc.again hc']

/-- The graph of `main`, before its first collection. -/
theorem collect_exact_main : ∃ s, Runs.Reach step Legal start s ∧ s.heap = some 5 ∧
    ∃ xs N, Heap s xs ∧ ∀ n ≥ N, ∃ count s' ys, collect n [some 1] s = .ok (count, s') ∧
      Collected s s' [some 1] xs ys count ∧ ∃ s'', collect n [some 1] s' = .ok (0, s'') := by
  have hrun : ∃ s, Runs.Reach step Legal start s ∧ s.heap = some 5 :=
    Runs.exists_reach_of_exec
      [.allocate 1 (some 1), .allocate 2 (some 2), .allocate 3 (some 3), .allocate 4 (some 4),
        .allocate 5 (some 5), .addReference (some 1) (some 2), .addReference (some 1) (some 3),
        .addReference (some 2) (some 1), .addReference (some 4) (some 5),
        .addReference (some 5) (some 4)] (by decide +kernel)
  obtain ⟨s, hreach, hheap⟩ := hrun
  exact ⟨s, hreach, hheap, collect_exact hreach [some 1]⟩

end CsklubOs.MarkSweep
