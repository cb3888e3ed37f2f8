/-
**Circular doubly linked lists.**

Nodes with a pointer to the next node and one to the previous node, in a ring through a head node.

Main definitions:

* `IsList` — the list of its other nodes that a ring stands for;
* `unlink`, `insertFront`, `search` — the pointer assignments that take a node out and put one in
  behind the head, and a loop that goes along the pointers.

Main results:

* `IsList.unlink`, `IsList.insertFront`, `IsList.search_next` — these are operations of lists.
-/

import Mathlib

set_option autoImplicit false

namespace LinkedRing

open Function List

/-- The two pointers of every node. -/
structure Links (α : Type) where
  next : α → α
  prev : α → α

variable {α : Type} {L M : Links α} {a b x head : α} {l : List α}

/-- From `a` the pointers lead through `l` to `b`, and back. -/
def Seg (L : Links α) : α → List α → α → Prop
  | a, [], b => L.next a = b ∧ L.prev b = a
  | a, x :: xs, b => (L.next a = x ∧ L.prev x = a) ∧ Seg L x xs b

/-- **The ring through `head` has the nodes of `l`**, each once. -/
structure IsList (L : Links α) (head : α) (l : List α) : Prop where
  nodup : (head :: l).Nodup
  seg : Seg L head l head

/-! ### Pieces of a ring -/

theorem Seg.append_iff {l1 l2 : List α} :
    Seg L a (l1 ++ x :: l2) b ↔ Seg L a l1 x ∧ Seg L x l2 b := by
  induction l1 generalizing a with
  | nil => exact Iff.rfl
  | cons y ys ih =>
    rw [cons_append, Seg, Seg, ih, and_assoc, and_assoc, and_assoc]

theorem Seg.congr (h : Seg L a l b) (hnext : ∀ y ∈ a :: l, M.next y = L.next y)
    (hprev : ∀ y ∈ l ++ [b], M.prev y = L.prev y) : Seg M a l b := by
  induction l generalizing a with
  | nil =>
    obtain ⟨h1, h2⟩ := h
    exact ⟨(hnext a mem_cons_self).trans h1, (hprev b mem_cons_self).trans h2⟩
  | cons y ys ih =>
    obtain ⟨⟨h1, h2⟩, hrest⟩ := h
    refine ⟨⟨(hnext a mem_cons_self).trans h1, (hprev y mem_cons_self).trans h2⟩, ?_⟩
    exact ih hrest (fun z hz => hnext z (mem_cons_of_mem a hz))
      fun z hz => hprev z (mem_cons_of_mem y hz)

theorem Seg.next_mem (h : Seg L a l b) : L.next a ∈ l ++ [b] := by
  cases l with
  | nil => exact mem_singleton.2 h.1
  | cons y ys =>
    rw [h.1.1]
    exact mem_cons_self

theorem Seg.prev_mem (h : Seg L a l b) : L.prev b ∈ a :: l := by
  induction l generalizing a with
  | nil => exact mem_singleton.2 h.2
  | cons y ys ih => exact mem_cons_of_mem a (ih h.2)

/-- Going along the other pointers. -/
def Links.swap (L : Links α) : Links α := ⟨L.prev, L.next⟩

theorem Seg.reverse (h : Seg L a l b) : Seg L.swap b l.reverse a := by
  induction l generalizing a with
  | nil => exact ⟨h.2, h.1⟩
  | cons y ys ih =>
    rw [reverse_cons, Seg.append_iff]
    exact ⟨ih h.2, h.1.2, h.1.1⟩

theorem Seg.prev_next (h : Seg L a l b) : ∀ y ∈ a :: l, L.prev (L.next y) = y := by
  induction l generalizing a with
  | nil =>
    intro y hy
    rw [mem_singleton.1 hy, h.1, h.2]
  | cons z zs ih =>
    intro y hy
    rcases mem_cons.1 hy with rfl | hy
    · rw [h.1.1, h.1.2]
    · exact ih h.2 y hy

theorem IsList.prev_next (h : IsList L head l) :
    ∀ y ∈ head :: l, L.prev (L.next y) = y := h.seg.prev_next

theorem IsList.swap (h : IsList L head l) : IsList L.swap head l.reverse := by
  refine ⟨?_, h.seg.reverse⟩
  have hnodup := nodup_cons.1 h.nodup
  exact nodup_cons.2 ⟨fun hmem => hnodup.1 (mem_reverse.1 hmem), nodup_reverse.2 hnodup.2⟩

theorem IsList.next_prev (h : IsList L head l) : ∀ y ∈ head :: l, L.next (L.prev y) = y := by
  intro y hy
  refine h.swap.prev_next y ?_
  rcases mem_cons.1 hy with rfl | hy
  · exact mem_cons_self
  · exact mem_cons_of_mem _ (mem_reverse.2 hy)

/-! ### Inserting and removing -/

section Update

variable [DecidableEq α]

section

variable (L : Links α)

/-- `x->next = head.next; x->prev = &head; head.next->prev = x; head.next = x`. -/
def insertFront (head x : α) : Links α :=
  { next := update (update L.next x (L.next head)) head x
    prev := update (update L.prev x head) (L.next head) x }

/-- `x->next->prev = x->prev; x->prev->next = x->next`. -/
def unlink (x : α) : Links α :=
  { next := update L.next (L.prev x) (L.next x)
    prev := update L.prev (L.next x) (L.prev x) }

theorem next_insertFront (head x : α) : (insertFront L head x).next =
    update (update L.next x (L.next head)) head x := rfl

theorem prev_insertFront (head x : α) : (insertFront L head x).prev =
    update (update L.prev x head) (L.next head) x := rfl

theorem next_unlink (x : α) :
    (unlink L x).next = update L.next (L.prev x) (L.next x) := rfl

theorem prev_unlink (x : α) :
    (unlink L x).prev = update L.prev (L.next x) (L.prev x) := rfl

end

theorem IsList.insertFront (h : IsList L head l) (hx : x ∉ head :: l) :
    IsList (insertFront L head x) head (x :: l) := by
  obtain ⟨hhead, hnodup⟩ := nodup_cons.1 h.nodup
  have hxh : x ≠ head := fun heq => hx (heq ▸ mem_cons_self)
  have hxl : x ∉ l := fun hmem => hx (mem_cons_of_mem _ hmem)
  refine ⟨?_, ?_⟩
  · refine nodup_cons.2 ⟨?_, nodup_cons.2 ⟨hxl, hnodup⟩⟩
    rw [mem_cons, not_or]
    exact ⟨Ne.symm hxh, hhead⟩
  · have hseg := h.seg
    have hnextx : (LinkedRing.insertFront L head x).next x = L.next head := by
      rw [next_insertFront, update_of_ne hxh, update_self]
    have hnexth : (LinkedRing.insertFront L head x).next head = x := by
      rw [next_insertFront, update_self]
    have hxn : x ≠ L.next head := by
      intro heq
      rcases mem_append.1 (heq ▸ hseg.next_mem) with hmem | hmem
      · exact hxl hmem
      · exact hxh (mem_singleton.1 hmem)
    have hprevx : (LinkedRing.insertFront L head x).prev x = head := by
      rw [prev_insertFront, update_of_ne hxn, update_self]
    have hprevn : (LinkedRing.insertFront L head x).prev (L.next head) = x := by
      rw [prev_insertFront, update_self]
    refine ⟨⟨hnexth, hprevx⟩, ?_⟩
    cases l with
    | nil =>
      rw [hseg.1] at hnextx hprevn
      exact ⟨hnextx, hprevn⟩
    | cons y ys =>
      have hy : L.next head = y := hseg.1.1
      rw [hy] at hnextx hprevn
      refine ⟨⟨hnextx, hprevn⟩, hseg.2.congr (fun z hz => ?_) fun z hz => ?_⟩
      · have hzh : z ≠ head := fun heq => hhead (heq ▸ hz)
        have hzx : z ≠ x := fun heq => hxl (heq ▸ hz)
        rw [next_insertFront, update_of_ne hzh, update_of_ne hzx]
      · have hzy : z ≠ y := by
          rintro rfl
          rcases mem_append.1 hz with hmem | hmem
          · exact (nodup_cons.1 hnodup).1 hmem
          · exact hhead (mem_singleton.1 hmem ▸ mem_cons_self)
        have hzx : z ≠ x := by
          rintro rfl
          rcases mem_append.1 hz with hmem | hmem
          · exact hxl (mem_cons_of_mem _ hmem)
          · exact hxh (mem_singleton.1 hmem)
        rw [prev_insertFront, hy, update_of_ne hzy, update_of_ne hzx]

theorem Seg.unlink {l1 l2 : List α} (h1 : Seg L a l1 x) (h2 : Seg L x l2 b)
    (hnext : ∀ z ∈ l2, z ∉ a :: l1) (hnodup : (a :: l1).Nodup) (hb : b ∉ l1)
    (hnodup2 : (l2 ++ [b]).Nodup) : Seg (LinkedRing.unlink L x) a (l1 ++ l2) b := by
  induction l1 generalizing a with
  | nil =>
    have hprev : L.prev x = a := h1.2
    have hself : (LinkedRing.unlink L x).next a = L.next x := by
      rw [next_unlink, hprev, update_self]
    have hself' : (LinkedRing.unlink L x).prev (L.next x) = a := by
      rw [prev_unlink, update_self, hprev]
    cases l2 with
    | nil =>
      rw [h2.1] at hself hself'
      exact ⟨hself, hself'⟩
    | cons z zs =>
      have hz : L.next x = z := h2.1.1
      rw [hz] at hself hself'
      refine ⟨⟨hself, hself'⟩, h2.2.congr (fun y hy => ?_) fun y hy => ?_⟩
      · have hya : y ≠ a := fun heq => hnext y hy (heq ▸ mem_cons_self)
        rw [next_unlink, hprev, update_of_ne hya]
      · have hyz : y ≠ z := fun heq => (nodup_cons.1 hnodup2).1 (heq ▸ hy)
        rw [prev_unlink, hz, update_of_ne hyz]
  | cons y ys ih =>
    obtain ⟨⟨hay, hya⟩, hrest⟩ := h1
    obtain ⟨haout, hnodup'⟩ := nodup_cons.1 hnodup
    refine ⟨⟨?_, ?_⟩, ih hrest (fun z hz hmem => hnext z hz (mem_cons_of_mem a hmem)) hnodup'
      fun hmem => hb (mem_cons_of_mem y hmem)⟩
    · have hne : a ≠ L.prev x := fun heq => haout (heq ▸ hrest.prev_mem)
      rw [next_unlink, update_of_ne hne, hay]
    · have hne : y ≠ L.next x := by
        intro heq
        rcases mem_append.1 (heq ▸ h2.next_mem) with hmem | hmem
        · exact hnext y hmem (mem_cons_of_mem a mem_cons_self)
        · exact hb (mem_singleton.1 hmem ▸ mem_cons_self)
      rw [prev_unlink, update_of_ne hne, hya]

theorem IsList.unlink {l1 l2 : List α} (h : IsList L head (l1 ++ x :: l2)) :
    IsList (unlink L x) head (l1 ++ l2) := by
  have hnodup := h.nodup
  refine ⟨hnodup.sublist (((sublist_cons_self x l2).append_left l1).cons_cons head), ?_⟩
  rw [← cons_append] at hnodup
  obtain ⟨hn1, hn2, hdisj⟩ := nodup_append.1 hnodup
  obtain ⟨hhead, -⟩ := nodup_cons.1 hn1
  obtain ⟨h1, h2⟩ := Seg.append_iff.1 h.seg
  refine h1.unlink h2 (fun z hz hmem => hdisj z hmem z (mem_cons_of_mem x hz) rfl) hn1 hhead ?_
  refine nodup_append.2 ⟨(nodup_cons.1 hn2).2, nodup_singleton _, fun z hz w hw => ?_⟩
  rw [mem_singleton.1 hw]
  exact fun heq => hdisj head mem_cons_self z (mem_cons_of_mem x hz) heq.symm

/-! ### Searching -/

/-- `for(b = ...; b != &head; b = step(b)) if(test(b)) ...`: the node that is found, or `none` when
the loop is back at the head; `none` for want of fuel. -/
def search (step : α → α) (head : α) (test : α → Bool) : ℕ → α → Option (Option α)
  | 0, _ => none
  | n + 1, b => if b = head then some none else if test b then some (some b) else search step head
    test n (step b)

theorem search_mono {step : α → α} {test : α → Bool} {r : Option α} : ∀ {n k : ℕ} {b : α}, n ≤ k →
    search step head test n b = some r → search step head test k b = some r := by
  intro n
  induction n with
  | zero =>
    intro k b _ h
    cases h
  | succ n ih =>
    intro k b hle h
    obtain ⟨k, rfl⟩ : ∃ j, k = j + 1 := ⟨k - 1, by omega⟩
    rw [search] at h ⊢
    split_ifs at h ⊢
    · exact h
    · exact h
    · exact ih (Nat.le_of_succ_le_succ hle) h

variable {n : ℕ}

theorem Seg.search (h : Seg L a l head) (hout : head ∉ l) {test : α → Bool} (hn : l.length < n) :
    search L.next head test n (L.next a) = some (l.find? test) := by
  induction l generalizing a n with
  | nil =>
    obtain ⟨n, rfl⟩ : ∃ m, n = m + 1 := ⟨n - 1, by omega⟩
    rw [h.1, LinkedRing.search, if_pos rfl]
    rfl
  | cons y ys ih =>
    obtain ⟨n, rfl⟩ : ∃ m, n = m + 1 := ⟨n - 1, by omega⟩
    have hy : y ≠ head := fun heq => hout (heq ▸ mem_cons_self)
    rw [h.1.1, LinkedRing.search, if_neg hy, List.find?_cons]
    cases htest : test y with
    | true => rfl
    | false =>
      exact ih h.2 (fun hmem => hout (mem_cons_of_mem _ hmem)) (Nat.lt_of_succ_lt_succ hn)

theorem IsList.search_next (h : IsList L head l) (test : α → Bool) (hn : l.length < n) :
    search L.next head test n (L.next head) = some (l.find? test) :=
  h.seg.search (nodup_cons.1 h.nodup).1 hn

theorem IsList.search_prev (h : IsList L head l) (test : α → Bool) (hn : l.length < n) :
    search L.prev head test n (L.prev head) = some (l.reverse.find? test) :=
  h.swap.search_next test (by rwa [length_reverse])

end Update

end LinkedRing
