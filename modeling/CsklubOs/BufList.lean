/-
**The list of the block cache.**

`kernel/bio.c` once more, now with the pointers `next` and `prev` of the buffers and of
`bcache.head`: `binit` and `brelse` relink them, and the loops of `bget` go along them, forwards to
find a block and backwards to find a buffer to recycle.

Main definitions:

* `BcacheMem`, `Represents` — the cache with pointers, and the cache of `CsklubOs/Bio.lean` that it
  stands for;
* `BufSys`, `BufSys.step` — the cache with its processes.  A reference is a process that waits for a
  buffer in `bget`, holds it, or has released its sleep-lock in `brelse`; each buffer has the time
  when `brelse` last brought its reference count to `0`.

Main results:

* `cache_structure` — the ring, the counts and the order by release, in every run.
-/

import CsklubOs.Bio
import CsklubOs.LinkedRing
import CsklubOs.Runs

set_option autoImplicit false

namespace CsklubOs

open Function List
open LinkedRing

/-! ### The cache with its pointers -/

/-- A `struct buf *` of the list, `none` for `&bcache.head`. -/
abbrev BPtr : Type := Option (Fin nBuf)

/-- `bcache`. -/
structure BcacheMem where
  buf : Fin nBuf → Buf
  links : Links BPtr

/-- Why `bget` does not return. -/
inductive BgetStop
  | fuel
  | noBuffers
  deriving DecidableEq

namespace BcacheMem

section

variable (m : BcacheMem)

def set (i : Fin nBuf) (b : Buf) : BcacheMem := { m with buf := update m.buf i b }

/-- `binit`, from any pointers. -/
def binit (L : Links BPtr) : BcacheMem :=
  { buf := Bcache.binit.buf
    links := (List.finRange nBuf).foldl (fun L i => insertFront L none (some i))
      ⟨update L.next none none, update L.prev none none⟩ }

/-- `bget` up to its `acquiresleep`; its loops have fuel `n`. -/
def bget (n dev blockno : ℕ) : Except BgetStop (BcacheMem × Fin nBuf) :=
  match search m.links.next none
      (fun b => b.any fun i => (m.buf i).dev = dev ∧ (m.buf i).blockno = blockno) n
      (m.links.next none) with
  | some (some (some i)) => .ok (m.set i { m.buf i with refcnt := (m.buf i).refcnt + 1 }, i)
  | some _ =>
    match search m.links.prev none (fun b => b.any fun i => (m.buf i).refcnt = 0) n
      (m.links.prev none) with
    | some (some (some i)) =>
      .ok (m.set i { m.buf i with dev := dev, blockno := blockno, valid := false, refcnt := 1 }, i)
    | some _ => .error .noBuffers
    | none => .error .fuel
  | none => .error .fuel

/-- The part of `brelse` that holds `bcache.lock`. -/
def brelse (i : Fin nBuf) : BcacheMem :=
  let m := m.set i { m.buf i with refcnt := (m.buf i).refcnt - 1 }
  if (m.buf i).refcnt = 0 then
    { m with links := insertFront (unlink m.links (some i)) none (some i) }
  else m

def bpin (i : Fin nBuf) : BcacheMem :=
  m.set i { m.buf i with refcnt := (m.buf i).refcnt + 1 }

def bunpin (i : Fin nBuf) : BcacheMem :=
  m.set i { m.buf i with refcnt := (m.buf i).refcnt - 1 }

/-- The change of a sleep-lock. -/
def setLocked (i : Fin nBuf) (l : Bool) : BcacheMem :=
  m.set i { m.buf i with locked := l }

end

/-! ### The list behind the pointers -/

/-- **The pointers make the list** of the cache `c`, which has every buffer. -/
structure Represents (m : BcacheMem) (c : Bcache) : Prop where
  buf : m.buf = c.buf
  list : IsList m.links none (c.lru.map some)
  mem : ∀ i, i ∈ c.lru

variable {m : BcacheMem} {c : Bcache} {i : Fin nBuf}

theorem Represents.nodup (h : Represents m c) : c.lru.Nodup :=
  (nodup_cons.1 h.list.nodup).2.of_map _

theorem Represents.length (h : Represents m c) : c.lru.length ≤ nBuf := by
  have := h.nodup.length_le_card
  rwa [Fintype.card_fin] at this

theorem Represents.set (h : Represents m c) (i : Fin nBuf) {b b' : Buf} (hb : b = b') :
    Represents (m.set i b) (c.set i b') :=
  ⟨by rw [BcacheMem.set, Bcache.set, h.buf, hb], h.list, h.mem⟩

theorem isList_foldl : ∀ (is : List (Fin nBuf)) {L : Links BPtr} {l : List (Fin nBuf)},
    IsList L none (l.map some) → (is ++ l).Nodup →
    IsList (is.foldl (fun L i => insertFront L none (some i)) L) none
    ((is.reverse ++ l).map some) := by
  intro is
  induction is with
  | nil =>
    intro L l h _
    exact h
  | cons i is ih =>
    intro L l h hnodup
    obtain ⟨hi, hnodup⟩ := nodup_cons.1 hnodup
    have hout : some i ∉ none :: l.map some := by
      rw [mem_cons, not_or, mem_map_of_injective (Option.some_injective _)]
      exact ⟨nofun, fun hmem => hi (mem_append_right is hmem)⟩
    rw [reverse_cons, append_assoc]
    refine ih (l := i :: l) (h.insertFront hout) ?_
    exact nodup_middle.2 (nodup_cons.2 ⟨hi, hnodup⟩)

theorem represents_binit (L : Links BPtr) : Represents (binit L) Bcache.binit := by
  refine ⟨rfl, ?_, fun i => mem_reverse.2 (mem_finRange i)⟩
  have hempty : IsList (⟨update L.next none none, update L.prev none none⟩ : Links BPtr) none
      (([] : List (Fin nBuf)).map some) :=
    ⟨nodup_singleton none, update_self none none L.next, update_self none none L.prev⟩
  have hlist := isList_foldl (List.finRange nBuf) hempty (by
    exact nodup_finRange nBuf)
  rwa [append_nil] at hlist

theorem find_map (l : List (Fin nBuf)) (test : Fin nBuf → Bool) :
    (l.map some).find? (fun b : BPtr => b.any test) = (l.find? test).map some := by
  rw [List.find?_map]
  rfl

theorem Represents.bget (h : Represents m c) {n : ℕ} (hn : nBuf < n) (dev blockno : ℕ) :
    match c.bget dev blockno with
    | some (c', i) => ∃ m', m.bget n dev blockno = .ok (m', i) ∧ Represents m' c'
    | none => m.bget n dev blockno = .error .noBuffers := by
  have hlen : (c.lru.map some).length < n := by
    rw [length_map]
    exact lt_of_le_of_lt h.length hn
  have hhit := h.list.search_next (fun b : BPtr => b.any fun i =>
    (m.buf i).dev = dev ∧ (m.buf i).blockno = blockno) hlen
  have hfree := h.list.search_prev (fun b : BPtr => b.any fun i => (m.buf i).refcnt = 0) hlen
  rw [find_map] at hhit
  rw [← map_reverse, find_map] at hfree
  rw [BcacheMem.bget, hhit, hfree, Bcache.bget, h.buf]
  cases hfind : c.lru.find? (fun i => decide ((c.buf i).dev = dev ∧ (c.buf i).blockno = blockno))
    with
  | some i => exact ⟨_, rfl, h.set i rfl⟩
  | none =>
    cases hfind' : c.lru.reverse.find? (fun i => decide ((c.buf i).refcnt = 0)) with
    | some i => exact ⟨_, rfl, h.set i rfl⟩
    | none => rfl

theorem bget_mono {n k dev blockno : ℕ} {x : BcacheMem × Fin nBuf} (hle : n ≤ k)
    (h : m.bget n dev blockno = .ok x) : m.bget k dev blockno = .ok x := by
  unfold BcacheMem.bget at h ⊢
  split at h
  · rename_i i hi
    rw [search_mono hle hi]
    exact h
  · rename_i r hr hi
    rw [search_mono hle hi]
    split at h
    · rename_i j hj
      rw [search_mono hle hj]
      cases r with
      | none => exact h
      | some b =>
        cases b with
        | none => exact h
        | some i => exact absurd rfl (hr i)
    · cases h
    · cases h
  · cases h

theorem Represents.brelse (h : Represents m c) (i : Fin nBuf) :
    Represents (m.brelse i) (c.brelse i) := by
  have hset : Represents (m.set i { m.buf i with refcnt := (m.buf i).refcnt - 1 })
      (c.set i { c.buf i with refcnt := (c.buf i).refcnt - 1 }) := h.set i (by rw [h.buf])
  obtain ⟨l1, l2, hl⟩ := append_of_mem (h.mem i)
  have hnodup := h.nodup
  rw [hl, nodup_middle] at hnodup
  obtain ⟨hout, -⟩ := nodup_cons.1 hnodup
  have herase : c.lru.erase i = l1 ++ l2 := by
    rw [hl, erase_append_right _ fun hmem => hout (mem_append_left l2 hmem), erase_cons_head]
  rw [BcacheMem.brelse, Bcache.brelse]
  rw [hset.buf]
  split_ifs
  · have hlist := hset.list
    rw [Bcache.lru_set, hl, map_append] at hlist
    have hunlink := hlist.unlink
    rw [← map_append, ← herase] at hunlink
    refine ⟨rfl, hunlink.insertFront ?_, fun j => ?_⟩
    · rw [mem_cons, not_or, mem_map_of_injective (Option.some_injective _), herase]
      exact ⟨by simp, hout⟩
    · rcases eq_or_ne j i with rfl | hne
      · exact mem_cons_self
      · exact mem_cons_of_mem _ ((mem_erase_of_ne hne).2 (h.mem j))
  · exact hset

end BcacheMem

/-! ### The cache and its users -/

/-- A reference of process `proc` to a buffer. -/
structure BufRef where
  proc : ℕ
  buf : Fin nBuf
  stage : Stage
  deriving DecidableEq

/-- The cache, the references and the pins; the time, and when each buffer was last released by its
last user, `⊥` if never. -/
structure BufSys where
  mem : BcacheMem
  refs : List BufRef
  pins : Fin nBuf → ℕ
  now : ℕ
  released : Fin nBuf → WithBot ℕ

/-- What processes do: `bget` up to `acquiresleep`, `acquiresleep`, `brelse` up to `releasesleep`,
the rest of `brelse`, `bpin` and `bunpin`. -/
inductive BufAct
  | bget (p dev blockno n : ℕ)
  | acquiresleep (r : BufRef)
  | releasesleep (r : BufRef)
  | brelse (r : BufRef)
  | bpin (i : Fin nBuf)
  | bunpin (r : BufRef)

namespace BufSys

open BcacheMem

/-- `bunpin` undoes a `bpin`, and is called by a process that holds the buffer. -/
def possible (s : BufSys) : BufAct → Prop
  | .bget _ _ _ _ | .bpin _ => True
  | .acquiresleep r => r ∈ s.refs ∧ r.stage = .waiting ∧ (s.mem.buf r.buf).locked = false
  | .releasesleep r => r ∈ s.refs ∧ r.stage = .held
  | .brelse r => r ∈ s.refs ∧ r.stage = .releasing
  | .bunpin r => r ∈ s.refs ∧ r.stage = .held ∧ 0 < s.pins r.buf

instance (s : BufSys) (a : BufAct) : Decidable (possible s a) := by
  cases a <;> unfold possible <;> infer_instance

/-- The rest of `brelse`, with the time when nobody uses the buffer any more. -/
def finish (s : BufSys) (r : BufRef) : BufSys :=
  let m := s.mem.brelse r.buf
  { s with mem := m
           refs := s.refs.erase r
           now := s.now + 1
           released := if (m.buf r.buf).refcnt = 0 then update s.released r.buf (s.now : WithBot ℕ)
             else s.released }

/-- One action. -/
def act (s : BufSys) : BufAct → Except BgetStop BufSys
  | .bget p dev blockno n => do
    let x ← s.mem.bget n dev blockno
    pure { s with mem := x.1, refs := ⟨p, x.2, .waiting⟩ :: s.refs }
  | .acquiresleep r => .ok { s with mem := s.mem.setLocked r.buf true
                                    refs := { r with stage := .held } :: s.refs.erase r }
  | .releasesleep r => .ok { s with mem := s.mem.setLocked r.buf false
                                    refs := { r with stage := .releasing } :: s.refs.erase r }
  | .brelse r => .ok (s.finish r)
  | .bpin i => .ok { s with mem := s.mem.bpin i, pins := update s.pins i (s.pins i + 1) }
  | .bunpin r => .ok { s with mem := s.mem.bunpin r.buf
                              pins := update s.pins r.buf (s.pins r.buf - 1) }

def step (s : BufSys) (a : BufAct) : Option (Except BgetStop BufSys) :=
  if possible s a then some (act s a) else none

/-- After `binit`. -/
def boot (L : LinkedRing.Links BPtr) : BufSys := ⟨binit L, [], fun _ => 0, 0, fun _ => ⊥⟩

/-- References to buffer `i`. -/
def users (s : BufSys) (i : Fin nBuf) : ℕ := s.refs.countP fun r => r.buf = i

/-! ### The invariant -/

/-- **The invariant**, for the list `c` behind the pointers. -/
structure Inv (s : BufSys) (c : Bcache) : Prop where
  list : Represents s.mem c
  unique : ∀ i j, 1 ≤ (c.buf i).dev → (c.buf i).dev = (c.buf j).dev →
    (c.buf i).blockno = (c.buf j).blockno → i = j
  refcnt : ∀ i, (c.buf i).refcnt = s.users i + s.pins i
  order : c.lru.Pairwise fun i j => s.released j ≤ s.released i
  past : ∀ i, s.released i < (s.now : WithBot ℕ)

variable {s : BufSys} {c : Bcache}

variable {i : Fin nBuf} {r : BufRef} {blockno dev : ℕ}

theorem order_front {l : List (Fin nBuf)} {f : Fin nBuf → WithBot ℕ} {t : WithBot ℕ}
    (h : l.Pairwise fun i j => f j ≤ f i) (hnodup : l.Nodup) (ht : ∀ j, f j < t) :
    (i :: l.erase i).Pairwise fun j k => update f i t k ≤ update f i t j := by
  have hother : ∀ j ∈ l.erase i, update f i t j = f j := fun j hj =>
    update_of_ne (fun heq => (hnodup.mem_erase_iff.1 hj).1 heq) _ _
  refine pairwise_cons.2 ⟨fun j hj => ?_, ?_⟩
  · rw [update_self, hother j hj]
    exact (ht j).le
  · refine ((h.sublist erase_sublist).imp_of_mem fun {j k} hj hk hle => ?_)
    rw [hother j hj, hother k hk]
    exact hle

theorem Inv.set (h : Inv s c) {b : Buf} (hdev : b.dev = (c.buf i).dev)
    (hblock : b.blockno = (c.buf i).blockno) (refs : List BufRef) (pins : Fin nBuf → ℕ)
    (hself : b.refcnt = (refs.countP fun r => r.buf = i) + pins i)
    (hother : ∀ j ≠ i, (refs.countP fun r => r.buf = j) + pins j = s.users j + s.pins j) :
    Inv ⟨s.mem.set i b, refs, pins, s.now, s.released⟩ (c.set i b) := by
  have hkey : ∀ j, ((c.set i b).buf j).dev = (c.buf j).dev ∧
      ((c.set i b).buf j).blockno = (c.buf j).blockno := by
    intro j
    rcases eq_or_ne j i with rfl | hne
    · rw [Bcache.buf_set_self]
      exact ⟨hdev, hblock⟩
    · rw [Bcache.buf_set_of_ne _ _ hne]
      exact ⟨rfl, rfl⟩
  refine ⟨h.list.set i rfl, fun j k hj hjk hb => ?_, fun j => ?_, h.order, h.past⟩
  · rw [(hkey j).1] at hj hjk
    rw [(hkey k).1] at hjk
    rw [(hkey j).2, (hkey k).2] at hb
    exact h.unique j k hj hjk hb
  · rcases eq_or_ne j i with rfl | hne
    · rw [Bcache.buf_set_self]
      exact hself
    · rw [Bcache.buf_set_of_ne _ _ hne, h.refcnt]
      exact (hother j hne).symm

theorem countP_stage (hr : r ∈ s.refs) (st : Stage) (i : Fin nBuf) :
    (({ r with stage := st } :: s.refs.erase r).countP fun r => r.buf = i) = s.users i := by
  rw [users, (perm_cons_erase hr).countP_eq, countP_cons, countP_cons]

theorem Inv.acquiresleep (h : Inv s c) (hr : r ∈ s.refs) (st : Stage) (l : Bool) :
    Inv { s with mem := s.mem.setLocked r.buf l, refs := { r with stage := st } :: s.refs.erase r }
      (c.set r.buf { s.mem.buf r.buf with locked := l }) := by
  have hcount := countP_stage hr st
  refine h.set (by rw [h.list.buf]) (by rw [h.list.buf]) _ _ ?_ fun j _ => by rw [hcount]
  rw [h.list.buf]
  show (c.buf r.buf).refcnt = _
  rw [hcount, h.refcnt]

theorem users_cons (r : BufRef) (refs : List BufRef) (i : Fin nBuf) :
    ((r :: refs).countP fun r => r.buf = i) = (refs.countP fun r => r.buf = i) + if r.buf =
    i then 1 else 0 := by
  rw [countP_cons]
  simp only [decide_eq_true_eq]

theorem Inv.bget (h : Inv s c) {p : ℕ} {c' : Bcache} {m' : BcacheMem}
    (hget : c.bget dev blockno = some (c', i)) (hm : Represents m' c') :
    Inv { s with mem := m', refs := ⟨p, i, .waiting⟩ :: s.refs } c' := by
  rcases Bcache.bget_eq_some h.list.mem hget with ⟨-, -, rfl⟩ | ⟨hnone, h0, rfl⟩
  · have hinv := h.set (i := i) (b := { c.buf i with refcnt := (c.buf i).refcnt + 1 })
      rfl rfl (⟨p, i, .waiting⟩ :: s.refs) s.pins ?_ fun j hne => ?_
    · exact ⟨hm, hinv.unique, hinv.refcnt, hinv.order, hinv.past⟩
    · rw [users_cons, if_pos rfl]
      show (c.buf i).refcnt + 1 = _
      rw [h.refcnt, users]
      omega
    · rw [users_cons, if_neg (Ne.symm hne), users, Nat.add_zero]
  · have hkey : ∀ j ≠ i, ((c.set i { c.buf i with dev, blockno, valid := false, refcnt := 1 }).buf
      j) = c.buf j :=
      fun j hne => Bcache.buf_set_of_ne _ _ hne
    refine ⟨hm, fun j k hj hjk hb => ?_, fun j => ?_, h.order, h.past⟩
    · -- the block was in no buffer before
      rcases eq_or_ne j i with rfl | hji
      · rcases eq_or_ne k j with rfl | hkj
        · rfl
        · rw [Bcache.buf_set_self, hkey k hkj] at hjk hb
          exact absurd hb.symm (hnone k hjk.symm)
      · rcases eq_or_ne k i with rfl | hki
        · rw [Bcache.buf_set_self, hkey j hji] at hjk hb
          exact absurd hb (hnone j hjk)
        · rw [hkey j hji] at hj hjk hb
          rw [hkey k hki] at hjk hb
          exact h.unique j k hj hjk hb
    · have hj := h.refcnt j
      rw [users] at hj
      rw [users, users_cons]
      rcases eq_or_ne j i with rfl | hji
      · rw [Bcache.buf_set_self, if_pos rfl]
        show 1 = (s.refs.countP fun r => r.buf = j) + 1 + s.pins j
        omega
      · rw [hkey j hji, if_neg (Ne.symm hji), hj, Nat.add_zero]

theorem Inv.finish (h : Inv s c) (hr : r ∈ s.refs) : Inv (s.finish r) (c.brelse r.buf) := by
  have hcount : ∀ i, s.users i = (s.refs.erase r).countP (fun r => r.buf = i) + if r.buf =
      i then 1 else 0 := by
    intro i
    rw [users, (perm_cons_erase hr).countP_eq, users_cons]
  have hset := h.set (i := r.buf) (b := { c.buf r.buf with refcnt := (c.buf r.buf).refcnt - 1 })
    rfl rfl (s.refs.erase r) s.pins ?_ fun j hne => ?_
  · have hrel := h.list.brelse r.buf
    have hbuf := Bcache.buf_brelse c r.buf
    refine ⟨hrel, fun i j => ?_, fun i => ?_, ?_, fun i => ?_⟩
    · rw [hbuf]
      exact hset.unique i j
    · rw [hbuf]
      exact hset.refcnt i
    · show (c.brelse r.buf).lru.Pairwise _
      rw [BufSys.finish]
      rw [hrel.buf, Bcache.brelse]
      split_ifs
      · exact order_front h.order h.list.nodup h.past
      · exact h.order
    · have hlt : (s.now : WithBot ℕ) < ((s.now + 1 : ℕ) : WithBot ℕ) :=
        WithBot.coe_lt_coe.2 (Nat.lt_succ_self _)
      rw [BufSys.finish]
      dsimp only
      split_ifs
      · rw [update_apply]
        split_ifs
        · exact hlt
        · exact (h.past i).trans hlt
      · exact (h.past i).trans hlt
  · show (c.buf r.buf).refcnt - 1 = _
    have := h.refcnt r.buf
    rw [hcount, if_pos rfl] at this
    omega
  · rw [hcount, if_neg (Ne.symm hne), Nat.add_zero]

theorem oldest_of_find {l : List (Fin nBuf)} {f : Fin nBuf → WithBot ℕ} {test : Fin nBuf → Bool}
    (h : l.Pairwise fun i j => f j ≤ f i) (hfind : l.reverse.find? test = some i) :
    ∀ j ∈ l, test j = true → f i ≤ f j := by
  intro j hj htest
  obtain ⟨-, as, bs, hl, hnone⟩ := List.find?_eq_some_iff_append.1 hfind
  have hrev := pairwise_reverse.2 h
  rw [hl] at hrev
  have hmem : j ∈ as ++ i :: bs := hl ▸ mem_reverse.2 hj
  rcases mem_append.1 hmem with has | hbs
  · have := hnone j has
    rw [htest] at this
    cases this
  · rcases mem_cons.1 hbs with rfl | hbs
    · exact le_rfl
    · exact (pairwise_cons.1 (pairwise_append.1 hrev).2.1).1 j hbs

theorem Inv.act_bget (h : Inv s c) {p n : ℕ} {s' : BufSys}
    (hact : act s (.bget p dev blockno n) = .ok s') :
    ∃ c' i, c.bget dev blockno = some (c', i) ∧ Inv s' c' ∧
    s'.refs = ⟨p, i, .waiting⟩ :: s.refs := by
  rw [act] at hact
  cases hget : s.mem.bget n dev blockno with
  | error e =>
    rw [hget] at hact
    cases hact
  | ok x =>
    rw [hget] at hact
    cases hact
    have hmore := bget_mono (le_max_left n (nBuf + 1)) hget
    have href := h.list.bget (lt_of_lt_of_le (Nat.lt_succ_self nBuf) (le_max_right n (nBuf + 1)))
      dev blockno
    split at href
    · rename_i c' i hc
      obtain ⟨m', hm', hrep⟩ := href
      rw [hmore] at hm'
      obtain rfl := Except.ok.inj hm'
      exact ⟨c', i, hc, h.bget hc hrep, rfl⟩
    · rw [hmore] at href
      cases href

theorem Inv.act (h : Inv s c) {a : BufAct} (hp : possible s a) {s' : BufSys}
    (hact : act s a = .ok s') : ∃ c', Inv s' c' := by
  cases a with
  | bget p dev blockno n =>
    obtain ⟨c', i, -, hinv, -⟩ := h.act_bget hact
    exact ⟨c', hinv⟩
  | acquiresleep r =>
    cases hact
    exact ⟨_, h.acquiresleep hp.1 .held true⟩
  | releasesleep r =>
    cases hact
    exact ⟨_, h.acquiresleep hp.1 .releasing false⟩
  | brelse r =>
    cases hact
    exact ⟨_, h.finish hp.1⟩
  | bpin i =>
    cases hact
    refine ⟨_, h.set (i := i) (b := { s.mem.buf i with refcnt := (s.mem.buf i).refcnt + 1 })
      (by rw [h.list.buf]) (by rw [h.list.buf]) _ _ ?_ fun j hne => ?_⟩
    · rw [h.list.buf, update_self]
      show (c.buf i).refcnt + 1 = _
      rw [h.refcnt, users]
      omega
    · rw [update_of_ne hne, users]
  | bunpin r =>
    cases hact
    obtain ⟨hr, -, hpin⟩ := hp
    refine ⟨_, h.set (i := r.buf) (b :=
      { s.mem.buf r.buf with refcnt := (s.mem.buf r.buf).refcnt - 1 }) (by rw [h.list.buf])
        (by rw [h.list.buf]) _ _ ?_ fun j hne => ?_⟩
    · rw [h.list.buf, update_self]
      show (c.buf r.buf).refcnt - 1 = _
      rw [h.refcnt, users]
      omega
    · rw [update_of_ne hne, users]

theorem inv_boot (L : LinkedRing.Links BPtr) : Inv (boot L) Bcache.binit := by
  refine ⟨represents_binit L, fun i j hi => ?_, fun i => rfl, ?_, fun i => WithBot.bot_lt_coe 0⟩
  · exact absurd hi (Nat.not_succ_le_zero 0)
  · exact pairwise_of_forall fun _ _ => le_rfl

theorem find_of_bget_miss {c' : Bcache}
    (hmiss : ∀ j, ¬ ((c.buf j).dev = dev ∧ (c.buf j).blockno = blockno))
    (hget : c.bget dev blockno = some (c', i)) :
    c.lru.reverse.find? (fun i => (c.buf i).refcnt = 0) = some i := by
  unfold Bcache.bget at hget
  split at hget
  · rename_i j hj
    have hkey := List.find?_some hj
    simp only [decide_eq_true_eq] at hkey
    exact absurd hkey (hmiss j)
  · split at hget
    · rename_i j hj
      obtain ⟨-, rfl⟩ := Prod.mk.inj (Option.some.inj hget)
      exact hj
    · cases hget

/-- **The structure of the cache in every run**: the pointers are inverse to each other and make a
list through the head with every buffer once; a block of a device other than `0` is in one buffer at
most; the reference count of a buffer is the number of its users and pins; and a `bget` that does
not find its block recycles, of the buffers that nobody uses, the one that was released first.  The
loops of `bget` end. -/
theorem cache_structure {L : LinkedRing.Links BPtr}
    (h : Runs.Reach step (fun _ _ => True) (boot L) s) :
    (∃ lru : List (Fin nBuf), LinkedRing.IsList s.mem.links none (lru.map some) ∧ lru.Nodup ∧
    ∀ i, i ∈ lru) ∧ (∀ b, s.mem.links.prev (s.mem.links.next b) = b ∧
    s.mem.links.next (s.mem.links.prev b) = b) ∧ (∀ i j, 1 ≤ (s.mem.buf i).dev →
      (s.mem.buf i).dev = (s.mem.buf j).dev → (s.mem.buf i).blockno = (s.mem.buf j).blockno →
      i = j) ∧
    (∀ i, (s.mem.buf i).refcnt = s.users i + s.pins i) ∧
    (∀ p dev blockno n s', step s (.bget p dev blockno n) = some (.ok s') →
      (∀ j, ¬ ((s.mem.buf j).dev = dev ∧ (s.mem.buf j).blockno = blockno)) →
      ∃ i, s'.refs = ⟨p, i, .waiting⟩ :: s.refs ∧ (s'.mem.buf i).dev = dev ∧
        (s'.mem.buf i).blockno = blockno ∧ (s.mem.buf i).refcnt = 0 ∧
        ∀ j, (s.mem.buf j).refcnt = 0 → s.released i ≤ s.released j) ∧
    ∀ p dev blockno n, nBuf < n → step s (.bget p dev blockno n) ≠ some (.error .fuel) := by
  have hinv : ∃ c, Inv s c := by
    refine h.invariant (I := fun s => ∃ c, Inv s c) ⟨_, inv_boot L⟩ ?_
    rintro s a s' ⟨c, hc⟩ - hstep
    rw [step] at hstep
    split_ifs at hstep with hp
    exact hc.act hp (Option.some.inj hstep)
  obtain ⟨c, hc⟩ := hinv
  have hmem : ∀ b : BPtr, b ∈ none :: c.lru.map some := by
    intro b
    cases b with
    | none => exact mem_cons_self
    | some i => exact mem_cons_of_mem _ (mem_map_of_mem (hc.list.mem i))
  rw [hc.list.buf]
  refine ⟨⟨c.lru, hc.list.list, hc.list.nodup, hc.list.mem⟩,
    fun b => ⟨hc.list.list.prev_next b (hmem b), hc.list.list.next_prev b (hmem b)⟩, hc.unique,
    hc.refcnt, ?_, ?_⟩
  · intro p dev blockno n s' hstep hmiss
    rw [step] at hstep
    split_ifs at hstep with hp
    obtain ⟨c', i, hget, hinv', hrefs⟩ := hc.act_bget (Option.some.inj hstep)
    refine ⟨i, hrefs, ?_⟩
    rcases Bcache.bget_eq_some hc.list.mem hget with ⟨hdev, hblock, -⟩ | ⟨-, h0, hc'⟩
    · exact absurd ⟨hdev, hblock⟩ (hmiss i)
    · rw [hinv'.list.buf, hc', Bcache.buf_set_self]
      refine ⟨rfl, rfl, h0, fun j hj => ?_⟩
      exact oldest_of_find hc.order (find_of_bget_miss hmiss hget) j (hc.list.mem j)
        (decide_eq_true hj)
  · intro p dev blockno n hn hstep
    rw [step, act] at hstep
    have href := hc.list.bget hn dev blockno
    split at href
    · obtain ⟨m', hm', -⟩ := href
      rw [hm'] at hstep
      cases hstep
    · rw [href] at hstep
      cases hstep

/-- A process that uses a block and releases it, before another one uses the next block. -/
theorem cache_structure_run : ∃ s : BufSys,
    Runs.Reach step (fun _ _ => True) (boot ⟨fun _ => none, fun _ => none⟩) s ∧
    s.released (0 : Fin 30) = (0 : ℕ) ∧ (∀ i, (s.mem.buf i).refcnt = s.users i + s.pins i) := by
  have hrun : ∃ s : BufSys,
      Runs.Reach step (fun _ _ => True) (boot ⟨fun _ => none, fun _ => none⟩) s ∧
      s.released (0 : Fin 30) = (0 : ℕ) :=
    Runs.exists_reach_of_exec
      [.bget 1 1 7 31, .acquiresleep ⟨1, (0 : Fin 30), .waiting⟩,
       .releasesleep ⟨1, (0 : Fin 30), .held⟩, .brelse ⟨1, (0 : Fin 30), .releasing⟩,
       .bget 2 1 8 31] (by decide +kernel)
  obtain ⟨s, hreach, hrel⟩ := hrun
  exact ⟨s, hreach, hrel, (cache_structure hreach).2.2.2.1⟩

end BufSys

end CsklubOs
