/-
**The heap of a user program.**

`malloc`, `free` and `morecore` from `user/umalloc.c`.  Addresses count bytes, and a header takes
`unit` of them.  The loops take fuel.

Main definitions:

* `Heap` — the headers in memory are a function of the address: a header is only read where it was
  last written as one, since blocks do not overlap;
* `HeapSys`, `HeapSys.step` — calls of `malloc` and `free`.  The answers of `sbrk` come with the
  call, and are regions apart from each other and from the data of the program;
* `FreeList` — the invariant.

Main results:

* `heap_invariants` — it holds when `sbrk` returns no region that ends at `base` and fewer than
  `2 ^ 32` units in all;
* `base_lost`, `units_lost` — it may not otherwise.
-/

import CsklubOs.OrderRing
import CsklubOs.Runs
import CsklubOs.Tiling
import CsklubOs.Wp

set_option autoImplicit false

namespace CsklubOs

open Function Finset Nat

/-! ### The code -/

/-- `union header`. -/
structure Header where
  ptr : ℕ
  size : ℕ
  deriving DecidableEq

/-- The address of the static variable `base`. -/
class BaseAddr where
  base : ℕ
  base_pos : 0 < base

/-- The headers in memory and `freep`; the answers that `sbrk` is going to give, the regions that it
has returned, as address and length, and how often it failed. -/
structure Heap where
  hdr : ℕ → Header
  freep : ℕ
  answers : List (Option ℕ)
  got : List (ℕ × ℕ)
  fails : ℕ

/-- Why a call does not end: a loop takes more turns than there is fuel, or `sbrk` cannot give the
answer that was supplied. -/
inductive HeapStop
  | fuel
  | answer
  deriving DecidableEq

/-- Code of the allocator. -/
abbrev HeapM := StateT Heap (Except HeapStop)

namespace UserHeap

open Wp OrderRing BaseAddr Tiling

/-- `sizeof(Header)`. -/
def unit : ℕ := 16

def setPtr (p q : ℕ) : HeapM Unit :=
  modify fun s => { s with hdr := update s.hdr p { s.hdr p with ptr := q } }

def setSize (p n : ℕ) : HeapM Unit :=
  modify fun s => { s with hdr := update s.hdr p { s.hdr p with size := n } }

/-- The loop of `free`. -/
def findPlace (bp : ℕ) : ℕ → ℕ → HeapM ℕ
  | 0, _ => throw .fuel
  | n + 1, p => do
    let s ← get
    let next := (s.hdr p).ptr
    if p < bp ∧ bp < next then pure p
    else if next ≤ p ∧ (p < bp ∨ bp < next) then pure p
    else findPlace bp n next

/-- The first `if` of `free`: the block after `bp`. -/
def joinNext (bp p : ℕ) : HeapM Unit := do
  let s ← get
  let next := (s.hdr p).ptr
  if bp + unit * (s.hdr bp).size = next then do
    setSize bp (((s.hdr bp).size + (s.hdr next).size) % 2 ^ 32)
    setPtr bp (s.hdr next).ptr
  else setPtr bp next

/-- The second `if` of `free`: the block before `bp`. -/
def joinPrev (bp p : ℕ) : HeapM Unit := do
  let s ← get
  if p + unit * (s.hdr p).size = bp then do
    setSize p (((s.hdr p).size + (s.hdr bp).size) % 2 ^ 32)
    setPtr p (s.hdr bp).ptr
  else setPtr p bp

def free (n ap : ℕ) : HeapM Unit := do
  let bp := ap - unit
  let s ← get
  let p ← findPlace bp n s.freep
  joinNext bp p
  joinPrev bp p
  modify fun s => { s with freep := p }

variable [BaseAddr]

/-- A region that `sbrk` can return: it is apart from the earlier ones and from `base`. -/
def Fresh (got : List (ℕ × ℕ)) (a n : ℕ) : Prop :=
  0 < a ∧ (∀ r ∈ got, a + n ≤ r.1 ∨ r.1 + r.2 ≤ a) ∧ (a + n ≤ base ∨ base + unit ≤ a)

instance (got : List (ℕ × ℕ)) (a n : ℕ) : Decidable (Fresh got a n) :=
  inferInstanceAs (Decidable (_ ∧ _ ∧ _))

/-- `sbrk`, with `none` for `-1`. -/
def sbrk (n : ℕ) : HeapM (Option ℕ) := do
  let s ← get
  match s.answers with
  | some a :: rest =>
    if Fresh s.got a n then do
      set { s with answers := rest, got := (a, n) :: s.got }
      pure (some a)
    else throw .answer
  | none :: rest => do
    set { s with answers := rest, fails := s.fails + 1 }
    pure none
  | [] => do
    set { s with fails := s.fails + 1 }
    pure none

/-- The units that `morecore` asks for. -/
def coreUnits (nu : ℕ) : ℕ := if nu < 4096 then 4096 else nu

/-- `morecore`; the loop of the call of `free` has fuel `n`. -/
def morecore (n nu : ℕ) : HeapM ℕ := do
  let nu := coreUnits nu
  match ← sbrk (nu * unit) with
  | none => pure 0
  | some hp => do
    setSize hp nu
    free n (hp + unit)
    let s ← get
    pure s.freep

omit [BaseAddr] in
/-- The block at `p`, or its tail, for the caller of `malloc`. -/
def take (nunits prevp p : ℕ) : HeapM ℕ := do
  let s ← get
  if (s.hdr p).size = nunits then do
    setPtr prevp (s.hdr p).ptr
    pure p
  else do
    setSize p ((s.hdr p).size - nunits)
    let p := p + unit * ((s.hdr p).size - nunits)
    setSize p nunits
    pure p

/-- The loop of `malloc`. -/
def scan (nunits : ℕ) : ℕ → ℕ → ℕ → HeapM ℕ
  | 0, _, _ => throw .fuel
  | n + 1, prevp, p => do
    let s ← get
    if nunits ≤ (s.hdr p).size then do
      let p ← take nunits prevp p
      modify fun s => { s with freep := prevp }
      pure (p + unit)
    else if p = s.freep then do
      let p ← morecore n nunits
      if p = 0 then pure 0
      else do
        let s ← get
        scan nunits n p (s.hdr p).ptr
    else scan nunits n p (s.hdr p).ptr

/-- Setting up `base` in the first call of `malloc`. -/
def initBase : HeapM Unit := do
  let s ← get
  if s.freep = 0 then
    set { s with hdr := update s.hdr base ⟨base, 0⟩, freep := base }
  else pure ()

omit [BaseAddr] in
/-- The units that `malloc` needs for `nbytes`, with the header. -/
def unitsOf (nbytes : ℕ) : ℕ := (nbytes + unit - 1) / unit + 1

def malloc (n nbytes : ℕ) : HeapM ℕ := do
  initBase
  let s ← get
  scan (unitsOf nbytes) n s.freep (s.hdr s.freep).ptr

/-! ### The invariant -/

omit [BaseAddr] in
/-- Byte `b` is part of block `x`. -/
def InBlock (s : Heap) (x b : ℕ) : Prop := x ≤ b ∧ b < x + unit * (s.hdr x).size

omit [BaseAddr] in
/-- Byte `b` was obtained from `sbrk`. -/
def Got (s : Heap) (b : ℕ) : Prop := ∃ r ∈ s.got, r.1 ≤ b ∧ b < r.1 + r.2

/-- The free blocks `F`, with `base`, and the live blocks `L`, except that two free blocks may be
adjacent. -/
structure Blocks (s : Heap) (F L : Finset ℕ) : Prop where
  base_mem : base ∈ F
  base_size : (s.hdr base).size = 0
  ring : IsRing F fun p => (s.hdr p).ptr
  pos : ∀ x ∈ F ∪ L, x ≠ base → 0 < (s.hdr x).size
  addr_pos : ∀ x ∈ F ∪ L, 0 < x
  disj : Disjoint F L
  apart : ∀ x ∈ F ∪ L, ∀ y ∈ F ∪ L, x < y → x + unit * (s.hdr x).size ≤ y
  cover : ∀ b, Got s b ↔ ∃ x ∈ F ∪ L, InBlock s x b
  base_out : ∀ b, base ≤ b → b < base + unit → ¬ Got s b

omit [BaseAddr] in
/-- Free block `y` starts where free block `x` ends. -/
def Adjacent (s : Heap) (F : Finset ℕ) (x y : ℕ) : Prop :=
  x ∈ F ∧ y ∈ F ∧ x ≠ y ∧ x + unit * (s.hdr x).size = y

/-- **The heap is in order.** -/
structure FreeList (s : Heap) (F L : Finset ℕ) : Prop extends Blocks s F L where
  freep_mem : s.freep ∈ F
  coalesced : ∀ x y, ¬ Adjacent s F x y

/-- What is required of the answers of `sbrk`: no region ends at `base`, and there are fewer than
`2 ^ 32` units in all. -/
def Fits (got : List (ℕ × ℕ)) : Prop :=
  (∀ r ∈ got, r.1 + r.2 ≠ base) ∧ (got.map Prod.snd).sum < 2 ^ 32 * unit

instance (got : List (ℕ × ℕ)) : Decidable (Fits got) := inferInstanceAs (Decidable (_ ∧ _))

variable {s : Heap} {F L : Finset ℕ} {p bp : ℕ} {E : HeapStop → Prop}

omit [BaseAddr] in
theorem length_le_of_got : ∀ (got : List (ℕ × ℕ)) {S : Finset ℕ},
    (∀ b ∈ S, ∃ r ∈ got, r.1 ≤ b ∧ b < r.1 + r.2) → S.card ≤ (got.map Prod.snd).sum := by
  intro got
  induction got with
  | nil =>
    intro S h
    have hnone : S = ∅ := eq_empty_of_forall_notMem fun b hb => by
      obtain ⟨r, hr, -⟩ := h b hb
      cases hr
    rw [hnone]
    exact zero_le _
  | cons r got ih =>
    intro S h
    have hsub : S ⊆ Finset.Ico r.1 (r.1 + r.2) ∪ (S \ Finset.Ico r.1 (r.1 + r.2)) := fun b hb => by
      by_cases hin : b ∈ Finset.Ico r.1 (r.1 + r.2)
      · exact mem_union_left _ hin
      · exact mem_union_right _ (mem_sdiff.2 ⟨hb, hin⟩)
    have hrest := @ih (S \ Finset.Ico r.1 (r.1 + r.2)) fun b hb => by
      obtain ⟨hbS, hout⟩ := mem_sdiff.1 hb
      obtain ⟨r', hr', hin⟩ := h b hbS
      rcases List.mem_cons.1 hr' with rfl | hr'
      · exact absurd (mem_Ico.2 hin) hout
      · exact ⟨r', hr', hin⟩
    calc S.card ≤ (Finset.Ico r.1 (r.1 + r.2) ∪ (S \ Finset.Ico r.1 (r.1 + r.2))).card :=
          card_le_card hsub
      _ ≤ (Finset.Ico r.1 (r.1 + r.2)).card + (S \ Finset.Ico r.1 (r.1 + r.2)).card :=
          card_union_le _ _
      _ ≤ ((r :: got).map Prod.snd).sum := by
          rw [card_Ico, List.map_cons, List.sum_cons]
          omega

variable {x n k nunits : ℕ} {t : Heap} {Q : ℕ → Heap → Prop}

section

variable (h : Blocks s F L)

include h

theorem Blocks.size_add_lt (hfit : Fits s.got) {y : ℕ} (hx : x ∈ F ∪ L) (hy : y ∈ F ∪ L)
    (hadj : x + unit * (s.hdr x).size = y) : (s.hdr x).size + (s.hdr y).size < 2 ^ 32 := by
  have hlen := @length_le_of_got s.got (Finset.Ico x (y + unit * (s.hdr y).size)) fun b hb => by
    obtain ⟨hb1, hb2⟩ := mem_Ico.1 hb
    rcases lt_or_ge b y with hlt | hge
    · exact (h.cover b).2 ⟨x, hx, hb1, by omega⟩
    · exact (h.cover b).2 ⟨y, hy, hge, hb2⟩
  have hsum := hfit.2
  rw [card_Ico] at hlen
  rw [unit] at hlen hadj hsum
  omega

theorem Blocks.got_start (hx : x ∈ F ∪ L) (hne : x ≠ base) : Got s x := by
  have hpos := h.pos x hx hne
  refine (h.cover x).2 ⟨x, hx, le_rfl, ?_⟩
  rw [unit]
  omega

theorem Blocks.end_ne_base (hfit : Fits s.got) (hx : x ∈ F ∪ L) (hne : x ≠ base) :
    x + unit * (s.hdr x).size ≠ base := by
  intro hend
  have hu : unit = 16 := rfl
  -- the last byte of the block is in a region, and the region does not go on
  obtain ⟨r, hr, hr1, hr2⟩ := (h.cover (base - 1)).2 ⟨x, hx, by omega, by omega⟩
  refine hfit.1 r hr (le_antisymm ?_ (by omega))
  refine not_lt.1 fun hlt => h.base_out base le_rfl (by omega) ⟨r, hr, by omega, hlt⟩

theorem Blocks.tiles :
    Tiles (F ∪ L) (fun x => unit * (s.hdr x).size) (Got s) := ⟨h.apart, h.cover⟩

theorem Blocks.relabel {F' L' : Finset ℕ} (hgot : t.got = s.got)
    (hsize : ∀ x ∈ F ∪ L, (t.hdr x).size = (s.hdr x).size) (hunion : F' ∪ L' = F ∪ L)
    (hbase : base ∈ F') (hdisj : Disjoint F' L') (hring : IsRing F' fun p => (t.hdr p).ptr) :
    Blocks t F' L' := by
  have hGot : ∀ b, Got t b ↔ Got s b := fun b => by rw [Got, Got, hgot]
  have ht : Tiles (F' ∪ L') (fun x => unit * (t.hdr x).size) (Got t) := by
    rw [hunion]
    exact h.tiles.congr (fun x hx => by rw [hsize x hx]) hGot
  refine ⟨hbase, ?_, hring, fun x hx hne => ?_, hunion ▸ h.addr_pos, hdisj, ht.apart, ht.cover,
    fun b h1 h2 hb => h.base_out b h1 h2 ((hGot b).1 hb)⟩
  · rw [hsize _ (mem_union_left L h.base_mem)]
    exact h.base_size
  · rw [hunion] at hx
    rw [hsize x hx]
    exact h.pos x hx hne

theorem Blocks.congr (hgot : t.got = s.got) (hhdr : ∀ x ∈ F ∪ L, t.hdr x = s.hdr x) :
    Blocks t F L := by
  refine h.relabel hgot (fun x hx => by rw [hhdr x hx]) rfl h.base_mem h.disj fun x hx => ?_
  show Follows F x (t.hdr x).ptr
  rw [hhdr x (mem_union_left L hx)]
  exact h.ring x hx

end

/-! ### Inserting and joining blocks -/

section

omit [BaseAddr]

/-- Block `bp` after `p`. -/
def linkAt (s : Heap) (p bp : ℕ) : Heap :=
  { s with hdr := update (update s.hdr bp ⟨(s.hdr p).ptr, (s.hdr bp).size⟩) p
            ⟨bp, (s.hdr p).size⟩ }

/-- Block `x` with the block that it points to. -/
def joinAt (s : Heap) (x : ℕ) : Heap :=
  { s with hdr := update s.hdr x
            ⟨(s.hdr (s.hdr x).ptr).ptr, ((s.hdr x).size + (s.hdr (s.hdr x).ptr).size) % 2 ^ 32⟩ }

theorem hdr_link (s : Heap) (p bp x : ℕ) : (linkAt s p bp).hdr x =
    if x = p then ⟨bp, (s.hdr p).size⟩
    else if x = bp then ⟨(s.hdr p).ptr, (s.hdr bp).size⟩ else s.hdr x := by
  simp only [linkAt, update_apply]

theorem size_link (s : Heap) (p bp x : ℕ) : ((linkAt s p bp).hdr x).size = (s.hdr x).size := by
  rw [hdr_link]
  split_ifs with hp hbp
  · rw [hp]
  · rw [hbp]
  · rfl

theorem ptr_link (s : Heap) (p bp : ℕ) : (fun x => ((linkAt s p bp).hdr x).ptr) =
    update (update (fun x => (s.hdr x).ptr) bp (s.hdr p).ptr) p bp := by
  funext x
  rw [hdr_link, update_apply, update_apply]
  split_ifs <;> rfl

end

theorem Blocks.link (h : Blocks s F L) (hbp : bp ∈ L) (hp : p ∈ F)
    (hplace : Between p bp (s.hdr p).ptr) : Blocks (linkAt s p bp) (insert bp F) (L.erase bp) := by
  have hout : bp ∉ F := fun hF => disjoint_left.1 h.disj hF hbp
  have hunion : insert bp F ∪ L.erase bp = F ∪ L := by
    rw [insert_union, ← union_insert, insert_erase hbp]
  refine h.relabel rfl (fun x _ => size_link s p bp x) hunion (mem_insert_of_mem h.base_mem) ?_ ?_
  · rw [disjoint_left]
    intro x hx hL
    obtain ⟨hne, hL⟩ := mem_erase.1 hL
    exact disjoint_left.1 h.disj ((mem_insert.1 hx).resolve_left hne) hL
  · rw [ptr_link]
    exact h.ring.insert hp hout hplace

theorem FreeList.adjacent_link (h : FreeList s F L) (hbp : bp ∈ L) (hp : p ∈ F)
    (hplace : Between p bp (s.hdr p).ptr) {y : ℕ}
    (hadj : Adjacent (linkAt s p bp) (insert bp F) x y) :
    (x = p ∧ y = bp) ∨ (x = bp ∧ y = (s.hdr p).ptr) := by
  have hL : bp ∈ F ∪ L := mem_union_right F hbp
  have hnext := h.ring.next_mem hp
  obtain ⟨hx, hy, hne, hend⟩ := hadj
  rw [size_link] at hend
  rcases mem_insert.1 hx with rfl | hxF
  · -- the next block in the order of addresses is the one that `p` pointed to
    have hyF := (mem_insert.1 hy).resolve_left (Ne.symm hne)
    have hle : (s.hdr p).ptr ≤ y := h.ring.between_right hp hplace hyF (by omega)
    refine .inr ⟨rfl, le_antisymm ?_ hle⟩
    rcases hplace with ⟨-, hlt⟩ | ⟨hend', hlt | hlt⟩
    · have := h.apart x hL _ (mem_union_left L hnext) hlt
      omega
    · have := (h.ring.between_end hp hend' hyF).2
      omega
    · have := h.apart x hL _ (mem_union_left L hnext) hlt
      omega
  · rcases mem_insert.1 hy with rfl | hyF
    · have hle : x ≤ p := h.ring.between_left hp hplace hxF (by omega)
      refine .inl ⟨le_antisymm hle (not_lt.1 fun hlt => ?_), rfl⟩
      have := h.apart x (mem_union_left L hxF) p (mem_union_left L hp) hlt
      rcases hplace with ⟨hlt', -⟩ | ⟨hend', hlt' | hlt'⟩
      · omega
      · omega
      · have := (h.ring.between_end hp hend' hxF).1
        omega
    · exact absurd ⟨hxF, hyF, hne, hend⟩ (h.coalesced x y)

omit [BaseAddr] in
theorem hdr_join (s : Heap) (x z : ℕ) : (joinAt s x).hdr z =
    if z = x then ⟨(s.hdr (s.hdr x).ptr).ptr, ((s.hdr x).size + (s.hdr (s.hdr x).ptr).size) % 2 ^
      32⟩
    else s.hdr z := by
  simp only [joinAt, update_apply]

omit [BaseAddr] in
theorem ptr_join (s : Heap) (x : ℕ) : (fun z => ((joinAt s x).hdr z).ptr) =
    update (fun z => (s.hdr z).ptr) x (s.hdr (s.hdr x).ptr).ptr := by
  funext z
  rw [hdr_join, update_apply]
  split_ifs <;> rfl

theorem Blocks.join (h : Blocks s F L) (hfit : Fits s.got) (hadj : Adjacent s F x (s.hdr x).ptr)
    (hbase : (s.hdr x).ptr ≠ base) : Blocks (joinAt s x) (F.erase (s.hdr x).ptr) L := by
  obtain ⟨hx, hy, hne, hend⟩ := hadj
  generalize hyd : (s.hdr x).ptr = y at hy hne hend hbase
  have hF : ∀ {z}, z ∈ F → z ∈ F ∪ L := fun hz => mem_union_left L hz
  have hlt := h.size_add_lt hfit (hF hx) (hF hy) hend
  have hxbase : x ≠ base := fun heq => by
    rw [heq, h.base_size, mul_zero] at hend
    exact hbase hend.symm
  have hself : (joinAt s x).hdr x = ⟨(s.hdr y).ptr, (s.hdr x).size + (s.hdr y).size⟩ := by
    rw [hdr_join, if_pos rfl, hyd, mod_eq_of_lt hlt]
  have hother : ∀ {z}, z ≠ x → (joinAt s x).hdr z = s.hdr z := fun hz => by rw [hdr_join, if_neg hz]
  have hyL : y ∉ L := disjoint_left.1 h.disj hy
  have hunion : insert y (F.erase y ∪ L) = F ∪ L := by
    rw [← insert_union, insert_erase hy]
  have hmem : ∀ {z}, z ∈ F.erase y ∪ L → z ∈ F ∪ L := fun hz => hunion ▸ mem_insert_of_mem hz
  have ht : Tiles (F.erase y ∪ L) (fun z => unit * ((joinAt s x).hdr z).size) (Got s) := by
    refine (Tiles.merge_iff (mem_union_left L (mem_erase.2 ⟨hne, hx⟩)) rfl hend (by omega) ?_
      rfl ?_ fun z _ hzx => ?_).1 (hunion ▸ h.tiles)
    · exact fun hy' => (mem_union.1 hy').elim (notMem_erase y F) hyL
    · rw [hself, mul_add]
    · rw [hother hzx]
  refine ⟨mem_erase.2 ⟨Ne.symm hbase, h.base_mem⟩, ?_, ?_, fun z hz hzb => ?_,
    fun z hz => h.addr_pos z (hmem hz), Disjoint.mono_left (erase_subset _ _) h.disj, ht.apart,
    ht.cover, h.base_out⟩
  · rw [hother (Ne.symm hxbase)]
    exact h.base_size
  · rw [ptr_join]
    have hring := h.ring.erase hx (by rw [hyd]; exact Ne.symm hne)
    simpa only [hyd] using hring
  · rcases eq_or_ne z x with rfl | hzx
    · rw [hself]
      exact Nat.add_pos_left (h.pos z (hF hx) hzb) _
    · rw [hother hzx]
      exact h.pos z (hmem hz) hzb

theorem Blocks.adjacent_join (h : Blocks s F L) (hfit : Fits s.got)
    (hadj : Adjacent s F x (s.hdr x).ptr) {u v : ℕ}
    (huv : Adjacent (joinAt s x) (F.erase (s.hdr x).ptr) u v) :
    (u ≠ x ∧ Adjacent s F u v) ∨ (u = x ∧ Adjacent s F (s.hdr x).ptr v) := by
  obtain ⟨hx, hy, hne, hend⟩ := hadj
  obtain ⟨hu, hv, hne', hend'⟩ := huv
  have hlt := h.size_add_lt hfit (mem_union_left L hx) (mem_union_left L hy) hend
  rcases eq_or_ne u x with rfl | hux
  · refine .inr ⟨rfl, hy, mem_of_mem_erase hv, Ne.symm (ne_of_mem_erase hv), ?_⟩
    rw [hdr_join, if_pos rfl] at hend'
    simp only [unit] at hend hend' ⊢
    omega
  · rw [hdr_join, if_neg hux] at hend'
    exact .inl ⟨hux, mem_of_mem_erase hu, mem_of_mem_erase hv, hne', hend'⟩

/-! ### Freeing a block -/

section

omit [BaseAddr]

theorem wp_findPlace (hring : IsRing F fun p => (s.hdr p).ptr)
    (hQ : ∀ r ∈ F, Between r bp (s.hdr r).ptr → Q r s) : ∀ (n k : ℕ) {p : ℕ}, p ∈ F →
    Between ((fun p => (s.hdr p).ptr)^[k] p) bp (s.hdr ((fun p => (s.hdr p).ptr)^[k] p)).ptr →
    (n ≤ k → E .fuel) → wp (findPlace bp n p) Q E s := by
  intro n
  induction n with
  | zero =>
    intro k p _ _ hfuel
    exact wp_throw.2 (hfuel (zero_le k))
  | succ n ih =>
    intro k p hp hk hfuel
    rw [findPlace, wp_bind, wp_get]
    refine wp_ite (fun hin => wp_pure.2 (hQ p hp (.inl hin))) fun hin => ?_
    refine wp_ite (fun hend => wp_pure.2 (hQ p hp (.inr hend))) fun hend => ?_
    cases k with
    | zero => exact absurd hk (not_or.2 ⟨hin, hend⟩)
    | succ k =>
      exact ih k (hring.next_mem hp) hk fun hle => hfuel (succ_le_succ hle)

/-- The heap after the pointers of `free` were set. -/
def freed (s : Heap) (p bp : ℕ) : Heap :=
  let t := if bp + unit * (s.hdr bp).size = (s.hdr p).ptr then joinAt (linkAt s p bp) bp
    else linkAt s p bp
  if p + unit * (s.hdr p).size = bp then joinAt t p else t

theorem Heap.ext_hdr (h : ∀ x, s.hdr x = t.hdr x) (hfreep : s.freep = t.freep)
    (hans : s.answers = t.answers) (hgot : s.got = t.got) (hfails : s.fails = t.fails) : s = t := by
  obtain ⟨hdr, freep, answers, got, fails⟩ := s
  obtain rfl : hdr = t.hdr := funext h
  obtain rfl : freep = t.freep := hfreep
  obtain rfl : answers = t.answers := hans
  obtain rfl : got = t.got := hgot
  obtain rfl : fails = t.fails := hfails
  rfl

theorem wp_joins {Q : Unit → Heap → Prop} (hne : p ≠ bp) (hnext : (s.hdr p).ptr ≠ bp)
    (hself : bp + unit * (s.hdr bp).size = (s.hdr p).ptr → (s.hdr p).ptr ≠ p)
    (hQ : Q () (freed s p bp)) : wp (do joinNext bp p; joinPrev bp p) Q E s := by
  have hbp : bp ≠ p := Ne.symm hne
  rw [wp_bind, joinNext, wp_bind, wp_get]
  rw [freed] at hQ
  refine wp_ite (fun hadj => wp_bind.2 (wp_modify.2 (wp_modify.2 ?_))) fun hadj => wp_modify.2 ?_
  all_goals
    rw [joinPrev, wp_bind, wp_get]
    simp only [update_of_ne hne]
    refine wp_ite (fun hprev => wp_bind.2 (wp_modify.2 (wp_modify.2 ?_))) fun hprev =>
      wp_modify.2 ?_
    all_goals
      -- the headers agree one by one
      simp only [hadj, hprev, if_true, if_false] at hQ
      convert hQ using 1
      refine Heap.ext_hdr (fun x => ?_) rfl rfl rfl rfl
      simp only [hdr_join, hdr_link, update_apply]
      split_ifs <;> simp_all

end

theorem Blocks.ptr_ne_self (h : Blocks s F L) (hp : p ∈ F) (hbase : (s.hdr p).ptr ≠ base) :
    (s.hdr p).ptr ≠ p := by
  intro heq
  have hall := h.ring.between_end hp heq.le h.base_mem
  rw [heq] at hall hbase
  exact hbase (le_antisymm hall.1 hall.2)

/-- The heap between the two tests of `free`, if the block had been linked in before. -/
structure HalfFreed (s : Heap) (p bp : ℕ) (t : Heap) (F L : Finset ℕ) : Prop extends Blocks t F L
    where
  p_mem : p ∈ F
  bp_mem : bp ∈ F
  ptr_p : (t.hdr p).ptr = bp
  size_p : (t.hdr p).size = (s.hdr p).size
  size_bp : (s.hdr bp).size ≤ (t.hdr bp).size
  adjacent : ∀ x y, Adjacent t F x y → x = p ∧ y = bp

section

variable (h : FreeList s F L) (hfit : Fits s.got) (hbp : bp ∈ L)

include h hfit hbp

theorem FreeList.halfFreed (hp : p ∈ F) (hplace : Between p bp (s.hdr p).ptr)
    (ht : t = if bp + unit * (s.hdr bp).size = (s.hdr p).ptr then joinAt (linkAt s p bp) bp
      else linkAt s p bp) : ∃ F', HalfFreed s p bp t F' (L.erase bp) ∧ F'.card ≤ F.card + 1 := by
  have hout : bp ∉ F := fun hF => disjoint_left.1 h.disj hF hbp
  have hne : bp ≠ p := fun heq => hout (heq ▸ hp)
  have hbpbase : bp ≠ base := fun heq => hout (heq ▸ h.base_mem)
  have hnext := h.ring.next_mem hp
  have hnbp : (s.hdr p).ptr ≠ bp := fun heq => hout (heq ▸ hnext)
  have hlink := h.toBlocks.link hbp hp hplace
  have hcard : (insert bp F).card = F.card + 1 := card_insert_of_notMem hout
  have hp1 : (linkAt s p bp).hdr p = ⟨bp, (s.hdr p).size⟩ := by rw [hdr_link, if_pos rfl]
  have hbp1 : (linkAt s p bp).hdr bp = ⟨(s.hdr p).ptr, (s.hdr bp).size⟩ := by
    rw [hdr_link, if_neg hne, if_pos rfl]
  by_cases hadj : bp + unit * (s.hdr bp).size = (s.hdr p).ptr
  · rw [if_pos hadj] at ht
    subst ht
    have hbase : (s.hdr p).ptr ≠ base := by
      rw [← hadj]
      exact h.end_ne_base hfit (mem_union_right F hbp) hbpbase
    have hnp := h.ptr_ne_self hp hbase
    have hptr : ((linkAt s p bp).hdr bp).ptr = (s.hdr p).ptr := by rw [hbp1]
    have hadj1 : Adjacent (linkAt s p bp) (insert bp F) bp ((linkAt s p bp).hdr bp).ptr := by
      rw [hptr]
      exact ⟨mem_insert_self bp F, mem_insert_of_mem hnext, Ne.symm hnbp,
        by rw [size_link, hadj]⟩
    have hjoin := hlink.join hfit hadj1 (by rw [hptr]; exact hbase)
    refine ⟨_, ⟨hjoin, ?_, ?_, ?_, ?_, ?_, ?_⟩, (card_erase_le).trans hcard.le⟩
    · rw [hptr]
      exact mem_erase.2 ⟨Ne.symm hnp, mem_insert_of_mem hp⟩
    · rw [hptr]
      exact mem_erase.2 ⟨Ne.symm hnbp, mem_insert_self bp F⟩
    · rw [hdr_join, if_neg (Ne.symm hne), hp1]
    · rw [hdr_join, if_neg (Ne.symm hne), hp1]
    · have hlt := hlink.size_add_lt hfit (mem_union_left _ hadj1.1)
        (mem_union_left _ hadj1.2.1) hadj1.2.2.2
      rw [hdr_join, if_pos rfl, mod_eq_of_lt hlt, size_link]
      exact le_add_right _ _
    · intro x y hxy
      rcases hlink.adjacent_join hfit hadj1 hxy with ⟨hx, hxy'⟩ | ⟨rfl, hxy'⟩
      · exact (h.adjacent_link hbp hp hplace hxy').resolve_right fun h' => hx h'.1
      · rw [hptr] at hxy'
        rcases h.adjacent_link hbp hp hplace hxy' with ⟨h', -⟩ | ⟨h', -⟩
        · exact absurd h' hnp
        · exact absurd h' hnbp
  · rw [if_neg hadj] at ht
    subst ht
    refine ⟨_, ⟨hlink, mem_insert_of_mem hp, mem_insert_self bp F, by rw [hp1], by rw [hp1],
      by rw [hbp1], fun x y hxy => ?_⟩, hcard.le⟩
    refine (h.adjacent_link hbp hp hplace hxy).resolve_right ?_
    rintro ⟨rfl, rfl⟩
    have hend := hxy.2.2.2
    rw [size_link] at hend
    exact hadj hend

theorem FreeList.freed (hp : p ∈ F) (hplace : Between p bp (s.hdr p).ptr) :
    ∃ F', FreeList { UserHeap.freed s p bp with freep := p } F' (L.erase bp) ∧
      F'.card ≤ F.card + 1 ∧ ∃ y ∈ F', (s.hdr bp).size ≤ ((UserHeap.freed s p bp).hdr y).size := by
  have hout : bp ∉ F := fun hF => disjoint_left.1 h.disj hF hbp
  have hne : p ≠ bp := fun heq => hout (heq ▸ hp)
  have hbpbase : bp ≠ base := fun heq => hout (heq ▸ h.base_mem)
  rw [UserHeap.freed]
  generalize ht : (if bp + unit * (s.hdr bp).size = (s.hdr p).ptr then joinAt (linkAt s p bp) bp
      else linkAt s p bp) = t
  obtain ⟨F', hhalf, hcard⟩ := h.halfFreed hfit hbp hp hplace ht.symm
  have hfit' : Fits t.got := by
    rw [← ht]
    split_ifs <;> exact hfit
  by_cases hprev : p + unit * (s.hdr p).size = bp
  · rw [if_pos hprev]
    have hadj : Adjacent t F' p (t.hdr p).ptr := by
      rw [hhalf.ptr_p]
      exact ⟨hhalf.p_mem, hhalf.bp_mem, hne, by rw [hhalf.size_p, hprev]⟩
    have hjoin := hhalf.toBlocks.join hfit' hadj (by rw [hhalf.ptr_p]; exact hbpbase)
    have hp' : p ∈ F'.erase (t.hdr p).ptr := by
      rw [hhalf.ptr_p]
      exact mem_erase.2 ⟨hne, hhalf.p_mem⟩
    refine ⟨_, ⟨hjoin.congr rfl fun _ _ => rfl, hp', fun x y hxy => ?_⟩,
      (card_erase_le).trans hcard, p, hp', ?_⟩
    · rcases hhalf.toBlocks.adjacent_join hfit' hadj hxy with ⟨hx, hxy'⟩ | ⟨-, hxy'⟩
      · exact hx (hhalf.adjacent x y hxy').1
      · rw [hhalf.ptr_p] at hxy'
        exact hne (hhalf.adjacent bp y hxy').1.symm
    · have hlt := hhalf.toBlocks.size_add_lt hfit' (mem_union_left _ hadj.1)
        (mem_union_left _ hadj.2.1) hadj.2.2.2
      rw [hdr_join, if_pos rfl, mod_eq_of_lt hlt, hhalf.ptr_p]
      exact hhalf.size_bp.trans (le_add_left _ _)
  · rw [if_neg hprev]
    refine ⟨F', ⟨hhalf.toBlocks.congr rfl fun _ _ => rfl, hhalf.p_mem, fun x y hxy => ?_⟩, hcard,
      bp, hhalf.bp_mem, hhalf.size_bp⟩
    obtain ⟨rfl, rfl⟩ := hhalf.adjacent x y hxy
    refine hprev ?_
    rw [← hhalf.size_p]
    exact hxy.2.2.2

theorem wp_free {Q : Unit → Heap → Prop} (hfuel : n ≤ F.card → E .fuel)
    (hQ : ∀ t F', FreeList t F' (L.erase bp) → F'.card ≤ F.card + 1 → t.got = s.got →
      t.answers = s.answers → t.fails = s.fails → (∃ y ∈ F', (s.hdr bp).size ≤ (t.hdr y).size) →
      Q () t) :
    wp (free n (bp + unit)) Q E s := by
  have hout : bp ∉ F := fun hF => disjoint_left.1 h.disj hF hbp
  obtain ⟨r, hr, hplace⟩ := h.ring.exists_between ⟨base, h.base_mem⟩ hout
  obtain ⟨k, hk, hkr, -⟩ := h.ring.exists_iterate h.freep_mem hr
  rw [free, wp_bind, wp_get, wp_bind]
  refine wp_findPlace h.ring (fun p hp hplace => ?_) n k h.freep_mem (by rw [hkr]; exact hplace)
    fun hle => hfuel (hle.trans hk.le)
  have hne : p ≠ bp := fun heq => hout (heq ▸ hp)
  have hnext := h.ring.next_mem hp
  have hself : bp + unit * (s.hdr bp).size = (s.hdr p).ptr → (s.hdr p).ptr ≠ p := by
    intro hadj
    refine h.ptr_ne_self hp ?_
    rw [← hadj]
    exact h.end_ne_base hfit (mem_union_right F hbp) fun h' => hout (h' ▸ h.base_mem)
  have hjoins : wp (do joinNext bp p; joinPrev bp p) (fun _ t => Q ()
      { t with freep := p }) E s := by
    refine wp_joins hne (fun heq => hout (heq ▸ hnext)) hself ?_
    obtain ⟨F', hF', hcard, hy⟩ := h.freed hfit hbp hp hplace
    have hsame : (UserHeap.freed s p bp).got = s.got ∧ (UserHeap.freed s p bp).answers = s.answers ∧
        (UserHeap.freed s p bp).fails = s.fails := by
      rw [UserHeap.freed]
      split_ifs <;> exact ⟨rfl, rfl, rfl⟩
    exact hQ _ F' hF' hcard hsame.1 hsame.2.1 hsame.2.2 hy
  rw [wp_bind] at hjoins ⊢
  exact hjoins.mono fun _ t ht => wp_bind.2 (ht.mono fun _ _ h => wp_modify.2 h)

end

/-! ### Getting memory -/

theorem FreeList.core (h : FreeList s F L) {a : ℕ} (hk : 0 < k) (hfresh : Fresh s.got a (k * unit))
    (hhdr : t.hdr = update s.hdr a ⟨(s.hdr a).ptr, k⟩) (hfreep : t.freep = s.freep)
    (hgot : t.got = (a, k * unit) :: s.got) : FreeList t F (insert a L) ∧ a ∉ F ∪ L := by
  obtain ⟨ha, hapart, hbase⟩ := hfresh
  have hu : 0 < unit := by decide
  have hkpos : 0 < k * unit := mul_pos hk hu
  have hgot_s : ∀ b, a ≤ b → b < a + k * unit → ¬ Got s b := by
    rintro b h1 h2 ⟨r, hr, hr1, hr2⟩
    have := hapart r hr
    omega
  have hnew : ∀ b, a ≤ b → b < a + k * unit → ¬ Got s b ∧ b ∉ F ∪ L := by
    refine fun b h1 h2 => ⟨hgot_s b h1 h2, fun hmem => ?_⟩
    rcases eq_or_ne b base with rfl | hb
    · omega
    · exact hgot_s b h1 h2 (h.got_start hmem hb)
  have hout := (hnew a le_rfl (by omega)).2
  have hself : t.hdr a = ⟨(s.hdr a).ptr, k⟩ := by rw [hhdr, update_self]
  have hother : ∀ {x}, x ∈ F ∪ L → t.hdr x = s.hdr x := by
    intro x hx
    have hxa : x ≠ a := fun heq => hout (heq ▸ hx)
    rw [hhdr, update_of_ne hxa]
  have hF : ∀ {x}, x ∈ F → x ∈ F ∪ L := fun hx => mem_union_left L hx
  have hGot : ∀ b, Got t b ↔ (a ≤ b ∧ b < a + k * unit) ∨ Got s b := by
    intro b
    simp only [Got, hgot, List.exists_mem_cons_iff]
  have ht : Tiles (F ∪ insert a L) (fun x => unit * (t.hdr x).size) (Got t) := by
    rw [union_insert, funext fun b => propext (hGot b)]
    refine h.tiles.insert hkpos hnew (fun x hx => by rw [hother hx]) ?_
    rw [hself, mul_comm]
  refine ⟨⟨⟨h.base_mem, ?_, fun x hx => ?_, fun x hx hne => ?_, fun x hx => ?_, ?_, ht.apart,
    ht.cover, fun b h1 h2 hb => ?_⟩, ?_, ?_⟩, hout⟩
  · rw [hother (hF h.base_mem)]
    exact h.base_size
  · show Follows F x (t.hdr x).ptr
    rw [hother (hF hx)]
    exact h.ring x hx
  · rw [union_insert] at hx
    rcases mem_insert.1 hx with rfl | hx
    · rw [hself]
      exact hk
    · rw [hother hx]
      exact h.pos x hx hne
  · rw [union_insert] at hx
    rcases mem_insert.1 hx with rfl | hx
    · exact ha
    · exact h.addr_pos x hx
  · exact disjoint_insert_right.2 ⟨fun hF' => hout (hF hF'), h.disj⟩
  · rcases (hGot b).1 hb with hb | hb
    · omega
    · exact h.base_out b h1 h2 hb
  · rw [hfreep]
    exact h.freep_mem
  · rintro x y ⟨hx, hy, hne, hend⟩
    rw [hother (hF hx)] at hend
    exact h.coalesced x y ⟨hx, hy, hne, hend⟩

theorem wp_sbrk {Q : Option ℕ → Heap → Prop} (hE : E .answer)
    (hnone : ∀ as, Q none { s with answers := as, fails := s.fails + 1 })
    (hsome : ∀ a as, some a ∈ s.answers → Fresh s.got a n →
      Q (some a) { s with answers := as, got := (a, n) :: s.got }) : wp (sbrk n) Q E s := by
  rw [sbrk, wp_bind, wp_get]
  split
  · rename_i a rest heq
    refine wp_ite (fun hfresh => ?_) fun _ => wp_throw.2 hE
    exact wp_bind.2 (wp_set.2 (wp_pure.2 (hsome a rest (by rw [heq]; exact List.mem_cons_self)
      hfresh)))
  · exact wp_bind.2 (wp_set.2 (wp_pure.2 (hnone _)))
  · exact wp_bind.2 (wp_set.2 (wp_pure.2 (hnone _)))

omit [BaseAddr] in
theorem coreUnits_le (nu : ℕ) : nu ≤ coreUnits nu ∧ 0 < coreUnits nu := by
  rw [coreUnits]
  split <;> omega

/-- The answers of `sbrk` to a call of `malloc` that needs `nu` units. -/
def Answers (s : Heap) (nu : ℕ) : Prop :=
  ∀ a, some a ∈ s.answers → Fits ((a, coreUnits nu * unit) :: s.got)

/-- **`morecore`**: there is a free block of the size that was asked for, or `sbrk` has failed. -/
theorem wp_morecore {nu : ℕ} (h : FreeList s F L) (hans : Answers s nu) (hE : E .answer)
    (hfuel : n ≤ F.card → E .fuel)
    (hnone : ∀ t, FreeList t F L → t.got = s.got → t.fails = s.fails + 1 → Q 0 t)
    (hsome : ∀ t F', FreeList t F' L → F'.card ≤ F.card + 1 → Fits t.got → t.fails = s.fails →
      (∃ y ∈ F', nu ≤ (t.hdr y).size) → Q t.freep t) : wp (morecore n nu) Q E s := by
  rw [morecore, wp_bind]
  refine wp_sbrk hE (fun as => wp_pure.2 (hnone _ ⟨h.toBlocks.congr rfl fun _ _ => rfl, h.freep_mem,
    h.coalesced⟩ rfl rfl)) fun a as ha hfresh => ?_
  refine wp_bind.2 (wp_modify.2 (wp_bind.2 ?_))
  obtain ⟨hle, hpos⟩ := coreUnits_le nu
  obtain ⟨hcore, hnew⟩ := h.core (t := ⟨update s.hdr a ⟨(s.hdr a).ptr, coreUnits nu⟩, s.freep, as,
    (a, coreUnits nu * unit) :: s.got, s.fails⟩) hpos hfresh rfl rfl rfl
  refine wp_free hcore (hans a ha) (mem_insert_self a L) hfuel
    fun t F' hF' hcard hgot hans' hfails hy =>
    wp_bind.2 (wp_get.2 (wp_pure.2 ?_))
  rw [erase_insert fun hL => hnew (mem_union_right F hL)] at hF'
  refine hsome t F' hF' hcard (hgot ▸ hans a ha) hfails ?_
  obtain ⟨y, hyF, hsize⟩ := hy
  simp only [update_self] at hsize
  exact ⟨y, hyF, hle.trans hsize⟩

/-! ### Taking a block -/

theorem FreeList.unlink (h : FreeList s F L) {prevp : ℕ} (hprev : prevp ∈ F)
    (hpos : 0 < (s.hdr (s.hdr prevp).ptr).size)
    (hhdr : t.hdr = update s.hdr prevp ⟨(s.hdr (s.hdr prevp).ptr).ptr, (s.hdr prevp).size⟩)
    (hgot : t.got = s.got) (hfreep : t.freep = prevp) :
    FreeList t (F.erase (s.hdr prevp).ptr) (insert (s.hdr prevp).ptr L) := by
  have hp := h.ring.next_mem hprev
  generalize hpd : (s.hdr prevp).ptr = p at hp hpos hhdr
  have hbase : p ≠ base := by
    rintro rfl
    rw [h.base_size] at hpos
    exact lt_irrefl 0 hpos
  have hne : p ≠ prevp := by
    have := h.ptr_ne_self hprev (by rw [hpd]; exact hbase)
    rwa [hpd] at this
  have hsize : ∀ x, (t.hdr x).size = (s.hdr x).size := by
    intro x
    rw [hhdr, update_apply]
    split_ifs with hx
    · rw [hx]
    · rfl
  have hunion : F.erase p ∪ insert p L = F ∪ L := by
    rw [union_insert, ← insert_union, insert_erase hp]
  have hprev' : prevp ∈ F.erase p := mem_erase.2 ⟨Ne.symm hne, hprev⟩
  refine ⟨h.relabel hgot (fun x _ => hsize x) hunion (mem_erase.2 ⟨Ne.symm hbase, h.base_mem⟩) ?_
    ?_, hfreep ▸ hprev', ?_⟩
  · rw [disjoint_insert_right]
    exact ⟨notMem_erase p F, Disjoint.mono_left (erase_subset p F) h.disj⟩
  · have hring := h.ring.erase hprev (by rw [hpd]; exact hne)
    have hptr : (fun x => (t.hdr x).ptr) =
        update (fun x => (s.hdr x).ptr) prevp (s.hdr p).ptr := by
      funext x
      rw [hhdr, update_apply, update_apply]
      split_ifs <;> rfl
    rw [hptr]
    simpa only [hpd] using hring
  · rintro x y ⟨hx, hy, hxy, hend⟩
    rw [hsize] at hend
    exact h.coalesced x y ⟨mem_of_mem_erase hx, mem_of_mem_erase hy, hxy, hend⟩

theorem FreeList.split (h : FreeList s F L) (hp : p ∈ F) (hk : 0 < k) (hlt : k < (s.hdr p).size)
    {q : ℕ} (hq : q = p + unit * ((s.hdr p).size - k))
    (hhdr : t.hdr = update (update s.hdr p ⟨(s.hdr p).ptr, (s.hdr p).size - k⟩) q
      ⟨(s.hdr q).ptr, k⟩) (hgot : t.got = s.got) (hfreep : t.freep ∈ F) :
    FreeList t F (insert q L) ∧ q ∉ F ∪ L := by
  have hu : unit = 16 := rfl
  have hF : ∀ {x}, x ∈ F → x ∈ F ∪ L := fun hx => mem_union_left L hx
  have hpbase : p ≠ base := by
    rintro rfl
    rw [h.base_size] at hlt
    exact not_lt_zero k hlt
  have hpq : p < q := by
    rw [hq, hu]
    omega
  have hend : q + unit * k = p + unit * (s.hdr p).size := by
    rw [hq, hu]
    omega
  have hnew : q ∉ F ∪ L := h.tiles.notMem (hF hp) hpq (by rw [← hend, hu]; omega)
  have hp' : t.hdr p = ⟨(s.hdr p).ptr, (s.hdr p).size - k⟩ := by
    rw [hhdr, update_of_ne hpq.ne, update_self]
  have hq' : t.hdr q = ⟨(s.hdr q).ptr, k⟩ := by rw [hhdr, update_self]
  have hother : ∀ {x}, x ∈ F ∪ L → x ≠ p → t.hdr x = s.hdr x := by
    intro x hx hxp
    have hxq : x ≠ q := fun heq => hnew (heq ▸ hx)
    rw [hhdr, update_of_ne hxq, update_of_ne hxp]
  have hptr : ∀ {x}, x ∈ F → (t.hdr x).ptr = (s.hdr x).ptr := by
    intro x hx
    rcases eq_or_ne x p with rfl | hxp
    · rw [hp']
    · rw [hother (hF hx) hxp]
  have ht : Tiles (F ∪ insert q L) (fun x => unit * (t.hdr x).size) (Got s) := by
    rw [union_insert]
    refine (Tiles.merge_iff (hF hp) rfl ?_ hpq hnew rfl ?_ fun x hx hxp => ?_).2 h.tiles
    · rw [hp', hq]
    · rw [hp', hq', ← Nat.mul_add, Nat.sub_add_cancel hlt.le]
    · rw [hother hx hxp]
  have hGot : ∀ b, Got t b ↔ Got s b := fun b => by rw [Got, Got, hgot]
  refine ⟨⟨⟨h.base_mem, ?_, fun x hx => ?_, fun x hx hxb => ?_, fun x hx => ?_, ?_, ht.apart,
    fun b => (hGot b).trans (ht.cover b), fun b h1 h2 hb => h.base_out b h1 h2 ((hGot b).1 hb)⟩,
    hfreep, ?_⟩, hnew⟩
  · rw [hother (hF h.base_mem) (Ne.symm hpbase)]
    exact h.base_size
  · show Follows F x (t.hdr x).ptr
    rw [hptr hx]
    exact h.ring x hx
  · rw [union_insert] at hx
    rcases mem_insert.1 hx with rfl | hx'
    · rw [hq']
      exact hk
    · rcases eq_or_ne x p with rfl | hxp
      · rw [hp']
        exact Nat.sub_pos_of_lt hlt
      · rw [hother hx' hxp]
        exact h.pos x hx' hxb
  · rw [union_insert] at hx
    rcases mem_insert.1 hx with rfl | hx'
    · exact zero_lt_of_lt hpq
    · exact h.addr_pos x hx'
  · exact disjoint_insert_right.2 ⟨fun hq'' => hnew (hF hq''), h.disj⟩
  · rintro x y ⟨hx, hy, hxy, hend'⟩
    rcases eq_or_ne x p with rfl | hxp
    · rw [hp'] at hend'
      exact hnew (hF (hq.trans hend' ▸ hy))
    · rw [hother (hF hx) hxp] at hend'
      exact h.coalesced x y ⟨hx, hy, hxy, hend'⟩

/-- What a call of `malloc` leaves: a new live block for `k` units, or the old ones after `sbrk` has
failed. -/
structure Served (s : Heap) (L : Finset ℕ) (k r : ℕ) (t : Heap) : Prop where
  fits : Fits t.got
  failed : r = 0 → s.fails < t.fails ∧ t.got = s.got ∧ ∃ F, FreeList t F L
  served : r ≠ 0 → ∃ x F, r = x + unit ∧ x ∉ L ∧ FreeList t F (insert x L) ∧ (t.hdr x).size = k

theorem wp_take {prevp : ℕ} (h : FreeList s F L) (hprev : prevp ∈ F) (hk : 0 < k)
    (hle : k ≤ (s.hdr (s.hdr prevp).ptr).size)
    (hQ : ∀ x t F', x ∉ L → FreeList t F' (insert x L) → t.got = s.got → (t.hdr x).size = k →
      Q (x + unit) t) :
    wp (do
      let p ← take k prevp (s.hdr prevp).ptr
      modify fun s => { s with freep := prevp }
      pure (p + unit)) Q E s := by
  have hp := h.ring.next_mem hprev
  rw [wp_bind, take, wp_bind, wp_get]
  refine wp_ite (fun heq => ?_) fun hne => ?_
  · refine wp_bind.2 (wp_modify.2 (wp_pure.2 (wp_bind.2 (wp_modify.2 (wp_pure.2 ?_)))))
    refine hQ _ _ _ (fun hL => disjoint_left.1 h.disj hp hL)
      (h.unlink hprev (by omega) rfl rfl rfl) rfl ?_
    simp only [update_apply]
    split_ifs with hself
    · rw [← hself]
      exact heq
    · exact heq
  · refine wp_bind.2 (wp_modify.2 (wp_bind.2 (wp_modify.2 (wp_pure.2 (wp_bind.2 (wp_modify.2
      (wp_pure.2 ?_)))))))
    obtain ⟨hsplit, hnew⟩ := h.split (t := ⟨update (update s.hdr (s.hdr prevp).ptr
      ⟨(s.hdr (s.hdr prevp).ptr).ptr, (s.hdr (s.hdr prevp).ptr).size - k⟩) _ ⟨_, k⟩, prevp,
      s.answers, s.got, s.fails⟩) hp hk (by omega) rfl rfl rfl hprev
    refine hQ _ _ F (fun hL => hnew (mem_union_right F hL)) ?_ rfl ?_
    · convert hsplit using 2
      funext x
      simp only [update_apply]
      split_ifs <;> simp_all
    · simp only [update_self]

/-! ### The search of `malloc` -/

/-- The search when there is a block that is large enough, `k` pointers ahead and not behind
`freep`. -/
theorem wp_scan_hit (h : FreeList s F L) (hpos : 0 < nunits)
    (hQ : ∀ x t F', x ∉ L → FreeList t F' (insert x L) → t.got = s.got → (t.hdr x).size = nunits →
      Q (x + unit) t) :
    ∀ (n k : ℕ) {prevp : ℕ}, prevp ∈ F →
    nunits ≤ (s.hdr ((fun p => (s.hdr p).ptr)^[k] (s.hdr prevp).ptr)).size →
    (∀ j < k, (fun p => (s.hdr p).ptr)^[j] (s.hdr prevp).ptr ≠ s.freep) →
    (n ≤ k → E .fuel) → wp (scan nunits n prevp (s.hdr prevp).ptr) Q E s := by
  intro n
  induction n with
  | zero =>
    intro k prevp _ _ _ hfuel
    exact wp_throw.2 (hfuel (zero_le k))
  | succ n ih =>
    intro k prevp hprev hsize hahead hfuel
    rw [scan, wp_bind, wp_get]
    refine wp_ite (fun hle => wp_take h hprev hpos hle hQ) fun hgt => ?_
    cases k with
    | zero => exact absurd hsize hgt
    | succ k =>
      refine wp_ite (fun heq => absurd heq (hahead 0 (succ_pos k))) fun _ => ?_
      refine ih k (h.ring.next_mem hprev) ?_ (fun j hj => ?_) fun hle => hfuel (succ_le_succ hle)
      · rwa [iterate_succ_apply] at hsize
      · have := hahead (j + 1) (succ_lt_succ hj)
        rwa [iterate_succ_apply] at this

theorem wp_scan_freep (h : FreeList s F L) (hpos : 0 < nunits)
    (hbig : ∃ y ∈ F, nunits ≤ (s.hdr y).size) (hfuel : n ≤ F.card → E .fuel)
    (hQ : ∀ x t F', x ∉ L → FreeList t F' (insert x L) → t.got = s.got → (t.hdr x).size = nunits →
      Q (x + unit) t) : wp (scan nunits n s.freep (s.hdr s.freep).ptr) Q E s := by
  obtain ⟨y, hy, hsize⟩ := hbig
  obtain ⟨k, hk, hky, hmin⟩ := h.ring.exists_iterate (h.ring.next_mem h.freep_mem) hy
  refine wp_scan_hit h hpos hQ n k h.freep_mem (by rw [hky]; exact hsize) (fun j hj heq => ?_)
    fun hle => hfuel (hle.trans hk.le)
  -- coming back to `freep` on the way would make the way shorter
  refine hmin (k - (j + 1)) (by omega) ?_
  have hback : (fun p => (s.hdr p).ptr)^[j + 1] (s.hdr s.freep).ptr = (s.hdr s.freep).ptr := by
    rw [iterate_succ_apply', heq]
  rw [← hky]
  conv_rhs => rw [← Nat.sub_add_cancel (Nat.succ_le_of_lt hj), iterate_add_apply]
  rw [hback]

/-- **The loop of `malloc`**, with `freep` at most `k` pointers ahead. -/
theorem wp_scan (h : FreeList s F L) (hpos : 0 < nunits) (hfit : Fits s.got)
    (hans : Answers s nunits) (hE : E .answer) (hQ : ∀ r t, Served s L nunits r t → Q r t) :
    ∀ (n k : ℕ) {prevp : ℕ}, prevp ∈ F →
    (fun p => (s.hdr p).ptr)^[k] (s.hdr prevp).ptr = s.freep → (n ≤ k + F.card + 2 → E .fuel) →
    wp (scan nunits n prevp (s.hdr prevp).ptr) Q E s := by
  have hserved : ∀ x t F', Fits t.got → x ∉ L → FreeList t F' (insert x L) →
      (t.hdr x).size = nunits → Served s L nunits (x + unit) t := by
    intro x t F' hfit' hx hF' hsize
    exact ⟨hfit', fun h0 => by rw [unit] at h0; omega, fun _ => ⟨x, F', rfl, hx, hF', hsize⟩⟩
  intro n
  induction n with
  | zero =>
    intro k prevp _ _ hfuel
    exact wp_throw.2 (hfuel (zero_le _))
  | succ n ih =>
    intro k prevp hprev hk hfuel
    rw [scan, wp_bind, wp_get]
    refine wp_ite (fun hle => wp_take h hprev hpos hle fun x t F' hx hF' hgot hsize =>
      hQ _ _ (hserved x t F' (hgot ▸ hfit) hx hF' hsize)) fun hgt =>
        wp_ite (fun heq => wp_bind.2 ?_) fun hne => ?_
    · refine wp_morecore h hans hE (fun hle => hfuel (by omega)) (fun t ht hgot hfails => ?_)
        fun t F' hF' hcard hfit' hfails hbig => ?_
      · refine wp_pure.2 (hQ 0 t ⟨hgot ▸ hfit, fun _ => ⟨?_, hgot, F, ht⟩, fun h0 => absurd rfl h0⟩)
        rw [hfails]
        exact lt_succ_self _
      · have hfreep : t.freep ≠ 0 :=
          (hF'.addr_pos _ (mem_union_left L hF'.freep_mem)).ne'
        rw [if_neg hfreep]
        refine wp_bind.2 (wp_get.2 ?_)
        exact wp_scan_freep hF' hpos hbig (fun hle => hfuel (by omega))
          fun x u F'' hx hF'' hgot hsize =>
          hQ _ _ (hserved x u F'' (hgot ▸ hfit') hx hF'' hsize)
    · cases k with
      | zero => exact absurd hk hne
      | succ k =>
        exact ih k (h.ring.next_mem hprev) hk fun hle => hfuel (by omega)

theorem freeList_base (hhdr : t.hdr base = ⟨base, 0⟩) (hfreep : t.freep = base)
    (hgot : t.got = []) : FreeList t {base} ∅ := by
  have hnone : ∀ b, ¬ Got t b := by
    rintro b ⟨r, hr, -⟩
    rw [hgot] at hr
    cases hr
  have hmem : ∀ {x}, x ∈ ({base} : Finset ℕ) ∪ ∅ → x = base := fun hx => by
    rwa [union_empty, mem_singleton] at hx
  refine ⟨⟨mem_singleton_self _, by rw [hhdr], fun x hx => ?_, fun x hx hne => absurd (hmem hx) hne,
    fun x hx => hmem hx ▸ base_pos, disjoint_empty_right _, fun x hx y hy hlt => ?_, fun b => ?_,
    fun b _ _ => hnone b⟩, by rw [hfreep]; exact mem_singleton_self _, ?_⟩
  · rw [mem_singleton.1 hx]
    show Follows {base} base (t.hdr base).ptr
    rw [hhdr]
    refine ⟨mem_singleton_self _, .inr ⟨le_rfl, fun y hy => ?_⟩⟩
    rw [mem_singleton.1 hy]
    exact ⟨le_rfl, le_rfl⟩
  · rw [hmem hx, hmem hy] at hlt
    exact absurd hlt (lt_irrefl _)
  · refine iff_of_false (hnone b) ?_
    rintro ⟨x, hx, hb⟩
    rw [hmem hx, InBlock, hhdr] at hb
    simp only at hb
    omega
  · rintro x y ⟨hx, hy, hne, -⟩
    exact hne ((mem_singleton.1 hx).trans (mem_singleton.1 hy).symm)

/-- The heap before the first call of `malloc`, or in order. -/
def Ready (s : Heap) (L : Finset ℕ) : Prop :=
  (s.freep = 0 ∧ s.got = [] ∧ L = ∅) ∨ ∃ F, FreeList s F L

theorem wp_malloc {nbytes : ℕ} (h : Ready s L) (hfit : Fits s.got)
    (hans : Answers s (unitsOf nbytes)) : ∃ N, ∀ (n : ℕ) (E : HeapStop → Prop), E .answer →
      (n < N → E .fuel) → wp (malloc n nbytes) (Served s L (unitsOf nbytes)) E s := by
  have hpos : 0 < unitsOf nbytes := succ_pos _
  -- the call after `base` was set up
  have hrun : ∀ (t : Heap) (F : Finset ℕ), FreeList t F L → t.answers = s.answers → t.got = s.got →
      t.fails = s.fails → ∃ N, ∀ (n : ℕ) (E : HeapStop → Prop), E .answer → (n < N → E .fuel) →
        wp (scan (unitsOf nbytes) n t.freep (t.hdr t.freep).ptr) (Served s L (unitsOf nbytes)) E
        t := by
    intro t F hF hans' hgot hfails
    obtain ⟨k, -, hk, -⟩ := hF.ring.exists_iterate (hF.ring.next_mem hF.freep_mem) hF.freep_mem
    refine ⟨k + F.card + 3, fun n E hE hfuel => ?_⟩
    refine wp_scan hF hpos (hgot ▸ hfit) (fun a ha => ?_) hE
      (fun r u hr => ⟨hr.fits, fun h0 => ?_, hr.served⟩) n k hF.freep_mem hk fun hle =>
      hfuel (by omega)
    · rw [hgot]
      exact hans a (hans' ▸ ha)
    · obtain ⟨hlt, hgot', hF'⟩ := hr.failed h0
      exact ⟨hfails ▸ hlt, hgot'.trans hgot, hF'⟩
  rcases h with ⟨h0, hgot, rfl⟩ | ⟨F, hF⟩
  · obtain ⟨N, hN⟩ := hrun { s with hdr := update s.hdr base ⟨base, 0⟩, freep := base } {base}
      (freeList_base (update_self ..) rfl hgot) rfl rfl rfl
    refine ⟨N, fun n E hE hfuel => ?_⟩
    rw [malloc, wp_bind, initBase, wp_bind, wp_get, if_pos h0, wp_set, wp_bind, wp_get]
    exact hN n E hE hfuel
  · obtain ⟨N, hN⟩ := hrun s F hF rfl rfl rfl
    refine ⟨N, fun n E hE hfuel => ?_⟩
    have hfreep : s.freep ≠ 0 := (hF.addr_pos _ (mem_union_left L hF.freep_mem)).ne'
    rw [malloc, wp_bind, initBase, wp_bind, wp_get, if_neg hfreep, wp_pure, wp_bind, wp_get]
    exact hN n E hE hfuel

end UserHeap

/-! ### The heap as a transition system -/

/-- The heap, and the live blocks of the program by the addresses of their headers. -/
structure HeapSys where
  heap : Heap
  live : Finset ℕ

/-- What a program does: `malloc`, with the answers of `sbrk` during the call, `free`, and storing
into its blocks, which overwrites what a header there would read as.  Calls have fuel `n`. -/
inductive HeapAct
  | malloc (nbytes : ℕ) (answers : List (Option ℕ)) (n : ℕ)
  | free (ap n : ℕ)
  | store (a : ℕ) (h : Header)

namespace HeapSys

open Wp UserHeap BaseAddr OrderRing

variable [BaseAddr]

omit [BaseAddr] in
/-- The sizes are such that the argument of `sbrk` is an `int`, and only live blocks are used. -/
def possible (s : HeapSys) : HeapAct → Prop
  | .malloc nbytes _ _ => unitsOf nbytes * unit < 2 ^ 31
  | .free ap _ => unit ≤ ap ∧ ap - unit ∈ s.live
  | .store a _ => ∃ x ∈ s.live, x < a ∧ a < x + unit * (s.heap.hdr x).size

omit [BaseAddr] in
instance (s : HeapSys) (a : HeapAct) : Decidable (possible s a) := by
  cases a <;> unfold possible <;> infer_instance

/-- The code of a call, with the blocks that are live afterwards. -/
def code (live : Finset ℕ) : HeapAct → HeapM (Finset ℕ)
  | .malloc nbytes answers n => do
    modify fun s => { s with answers := answers }
    let r ← malloc n nbytes
    pure (if r = 0 then live else insert (r - unit) live)
  | .free ap n => do
    UserHeap.free n ap
    pure (live.erase (ap - unit))
  | .store a h => do
    modify fun s => { s with hdr := update s.hdr a h }
    pure live

/-- One call; it is not possible with an answer that `sbrk` cannot give. -/
def step (s : HeapSys) (a : HeapAct) : Option (Except HeapStop HeapSys) :=
  if possible s a then
    match code s.live a s.heap with
    | .ok (live, heap) => some (.ok ⟨heap, live⟩)
    | .error .fuel => some (.error .fuel)
    | .error .answer => none
  else none

omit [BaseAddr] in
/-- A program that starts, with any contents of the memory. -/
def start (hdr : ℕ → Header) : HeapSys := ⟨⟨hdr, 0, [], [], 0⟩, ∅⟩

/-- The memory that `sbrk` returns stays away from `base` and has fewer than `2 ^ 32` units. -/
def Sane (s : HeapSys) : HeapAct → Prop
  | .malloc nbytes answers _ => ∀ o ∈ answers, ∀ a ∈ o,
      Fits ((a, coreUnits (unitsOf nbytes) * unit) :: s.heap.got)
  | _ => True

instance (s : HeapSys) (a : HeapAct) : Decidable (Sane s a) := by
  cases a <;> unfold Sane <;> infer_instance

variable {s : HeapSys}

/-- The invariant of runs. -/
def Ok (s : HeapSys) : Prop := Ready s.heap s.live ∧ Fits s.heap.got

theorem Ok.malloc {nbytes : ℕ} {answers : List (Option ℕ)} {n : ℕ} (h : Ok s)
    (hsane : Sane s (.malloc nbytes answers n)) :
    ∃ N, ∀ m, wp (UserHeap.malloc m nbytes) (Served s.heap s.live (unitsOf nbytes))
      (fun e => e = .fuel → m < N) { s.heap with answers := answers } := by
  have hready : Ready { s.heap with answers := answers } s.live := by
    refine h.1.imp (fun h' => h') ?_
    rintro ⟨F, hF⟩
    exact ⟨F, hF.toBlocks.congr rfl fun _ _ => rfl, hF.freep_mem, hF.coalesced⟩
  have hans : Answers { s.heap with answers := answers } (unitsOf nbytes) := fun a ha =>
    hsane (some a) ha a rfl
  obtain ⟨N, hN⟩ := wp_malloc hready h.2 hans
  refine ⟨N, fun m => (hN m _ (fun h' => by cases h') fun hlt _ => hlt).mono fun r t ht => ?_⟩
  exact ⟨ht.fits, ht.failed, ht.served⟩

theorem Ok.store {a : ℕ} {h : Header} (hok : Ok s) (hp : possible s (.store a h)) :
    Ready { s.heap with hdr := update s.heap.hdr a h } s.live := by
  obtain ⟨x, hx, hxa, hax⟩ := hp
  rcases hok.1 with ⟨-, -, hlive⟩ | ⟨F, hF⟩
  · rw [hlive] at hx
    cases hx
  · have hsame : ∀ y ∈ F ∪ s.live, update s.heap.hdr a h y = s.heap.hdr y := by
      intro y hy
      refine update_of_ne (fun heq => ?_) _ _
      have := hF.apart x (mem_union_right F hx) y hy (by omega)
      omega
    refine .inr ⟨F, hF.toBlocks.congr rfl hsame, hF.freep_mem, ?_⟩
    rintro u v ⟨hu, hv, hne, hend⟩
    simp only [hsame u (mem_union_left _ hu)] at hend
    exact hF.coalesced u v ⟨hu, hv, hne, hend⟩

theorem Ok.free {ap n : ℕ} (h : Ok s) (hp : possible s (.free ap n)) :
    ∃ N, ∀ m, wp (UserHeap.free m ap) (fun _ t => Ready t (s.live.erase (ap - unit)) ∧ Fits t.got)
      (fun e => e = .fuel → m < N) s.heap := by
  obtain ⟨hle, hmem⟩ := hp
  rcases h.1 with ⟨-, -, hlive⟩ | ⟨F, hF⟩
  · rw [hlive] at hmem
    cases hmem
  · refine ⟨F.card + 1, fun m => ?_⟩
    have hap : ap = ap - unit + unit := (Nat.sub_add_cancel hle).symm
    rw [hap, Nat.add_sub_cancel]
    exact wp_free hF h.2 hmem (fun hle _ => by omega) fun t F' hF' _ hgot _ _ _ =>
      ⟨.inr ⟨F', hF'⟩, hgot ▸ h.2⟩

variable {a : HeapAct}

theorem wp_code (h : Ok s) (hp : possible s a) (hsane : Sane s a) :
    wp (code s.live a) (fun live heap => Ok ⟨heap, live⟩) (fun _ => True) s.heap := by
  cases a with
  | malloc nbytes answers n =>
    obtain ⟨N, hN⟩ := h.malloc hsane
    rw [code, wp_bind, wp_modify, wp_bind]
    refine wp_mono (hN n) (fun r t ht => wp_pure.2 ⟨?_, ht.fits⟩) fun _ _ => trivial
    by_cases h0 : r = 0
    · rw [if_pos h0]
      exact .inr (ht.failed h0).2.2
    · obtain ⟨x, F, hr, -, hF, -⟩ := ht.served h0
      rw [hr]
      exact .inr ⟨F, hF⟩
  | free ap n =>
    obtain ⟨N, hN⟩ := h.free hp
    rw [code, wp_bind]
    exact wp_mono (hN n) (fun _ t ht => wp_pure.2 ht) fun _ _ => trivial
  | store a hd =>
    rw [code, wp_bind, wp_modify, wp_pure]
    exact ⟨h.store hp, h.2⟩

theorem ok_step {s' : HeapSys} (h : Ok s) (hsane : Sane s a) (hstep : step s a = some (.ok s')) :
    Ok s' := by
  rw [step] at hstep
  split at hstep
  · rename_i hp
    split at hstep
    · rename_i live heap hrun
      cases hstep
      exact (wp_code h hp hsane).of_ok hrun
    · cases hstep
    · cases hstep
  · cases hstep

theorem code_of_fuel (hstep : step s a = some (.error .fuel)) :
    possible s a ∧ code s.live a s.heap = .error .fuel := by
  rw [step] at hstep
  split at hstep
  · rename_i hp
    split at hstep
    · cases hstep
    · rename_i hrun
      exact ⟨hp, hrun⟩
    · cases hstep
  · cases hstep

theorem ok_reach {hdr : ℕ → Header} (h : Runs.Reach step Sane (start hdr) s) : Ok s := by
  have hsum : (([] : List (ℕ × ℕ)).map Prod.snd).sum < 2 ^ 32 * unit := by decide
  exact h.invariant (I := Ok) ⟨.inl ⟨rfl, rfl, rfl⟩, fun r hr => absurd hr List.not_mem_nil, hsum⟩
    fun _ _ _ hok hsane hstep => ok_step hok hsane hstep

/-- The free list as a reader of the memory finds it. -/
structure Shape (s : HeapSys) (F : Finset ℕ) : Prop extends FreeList s.heap F s.live where
  circular : ∀ x, x ∈ F ↔ ∃ k, (fun p => (s.heap.hdr p).ptr)^[k] base = x
  ascending : ∃! p, p ∈ F ∧ (s.heap.hdr p).ptr ≤ p
  accounted : ∀ b, Got s.heap b → ∃! x, x ∈ F ∪ s.live ∧ InBlock s.heap x b

theorem shape_of_freeList {F : Finset ℕ} (h : FreeList s.heap F s.live) : Shape s F := by
  refine ⟨h, fun x => ⟨fun hx => h.ring.reach h.base_mem hx, ?_⟩,
    h.ring.existsUnique_wrap ⟨base, h.base_mem⟩, fun b hb => ?_⟩
  · rintro ⟨k, rfl⟩
    exact h.ring.iterate_mem h.base_mem k
  · obtain ⟨x, hx, hxb⟩ := (h.cover b).1 hb
    refine ⟨x, ⟨hx, hxb⟩, ?_⟩
    rintro y ⟨hy, hyb⟩
    exact h.tiles.unique hx hy hxb hyb

/-- **The heap in every run** in which `sbrk` returns no region that ends at `base` and fewer than
`2 ^ 32` units in all: the free list is a ring of separate, fully joined blocks; every byte from
`sbrk` is in one block; `malloc` returns `0` only if `sbrk` failed, and otherwise a new live block
with room for `nbytes`; and the loops end. -/
theorem heap_invariants {hdr : ℕ → Header} (h : Runs.Reach step Sane (start hdr) s) :
    ((s.heap.freep = 0 ∧ s.heap.got = [] ∧ s.live = ∅) ∨ ∃ F, Shape s F) ∧
    (∀ nbytes answers n r t, Sane s (.malloc nbytes answers n) →
      malloc n nbytes { s.heap with answers := answers } = .ok (r, t) →
      (r = 0 → s.heap.fails < t.fails) ∧
      (r ≠ 0 → ∃ x, r = x + unit ∧ x ∉ s.live ∧ (∃ F, FreeList t F (insert x s.live)) ∧
        nbytes + unit ≤ unit * (t.hdr x).size)) ∧
    (∀ nbytes answers, Sane s (.malloc nbytes answers 0) →
      ∃ N, ∀ n ≥ N, step s (.malloc nbytes answers n) ≠ some (.error .fuel)) ∧
    (∀ ap, ∃ N, ∀ n ≥ N, step s (.free ap n) ≠ some (.error .fuel)) := by
  have hok := ok_reach h
  refine ⟨hok.1.imp (fun h' => h') fun ⟨F, hF⟩ => ⟨F, shape_of_freeList hF⟩, ?_, ?_, ?_⟩
  · intro nbytes answers n r t hsane hrun
    obtain ⟨N, hN⟩ := hok.malloc hsane
    have hserved := (hN n).of_ok hrun
    refine ⟨fun h0 => (hserved.failed h0).1, fun h0 => ?_⟩
    obtain ⟨x, F, hr, hx, hF, hsize⟩ := hserved.served h0
    refine ⟨x, hr, hx, ⟨F, hF⟩, ?_⟩
    rw [hsize, unitsOf, unit]
    omega
  · intro nbytes answers hsane
    obtain ⟨N, hN⟩ := hok.malloc hsane
    refine ⟨N, fun n hn hstep => ?_⟩
    obtain ⟨-, hrun⟩ := code_of_fuel hstep
    have hcode : wp (code s.live (.malloc nbytes answers n)) (fun _ _ => True)
        (fun e => e = .fuel → n < N) s.heap := by
      rw [code, wp_bind, wp_modify, wp_bind]
      exact (hN n).mono fun _ _ _ => wp_pure.2 trivial
    exact absurd (hcode.of_error hrun rfl) (not_lt.2 hn)
  · intro ap
    by_cases hp : possible s (.free ap 0)
    · obtain ⟨N, hN⟩ := hok.free hp
      refine ⟨N, fun n hn hstep => ?_⟩
      obtain ⟨-, hrun⟩ := code_of_fuel hstep
      have hcode : wp (code s.live (.free ap n)) (fun _ _ => True) (fun e => e = .fuel →
          n < N) s.heap := by
        rw [code, wp_bind]
        exact (hN n).mono fun _ _ _ => wp_pure.2 trivial
      exact absurd (hcode.of_error hrun rfl) (not_lt.2 hn)
    · exact ⟨0, fun n _ hstep => hp (code_of_fuel hstep).1⟩

omit [BaseAddr] in
/-- A block that is taken, freed and taken again. -/
theorem heap_invariants_run : ∃ (_ : BaseAddr) (s : HeapSys),
    Runs.Reach step Sane (start fun _ => ⟨0, 0⟩) s ∧ s.live = {69632 - 2 * unit} ∧
    ∃ F, Shape s F := by
  let B : BaseAddr := ⟨16, by decide⟩
  have hrun : ∃ s, Runs.Reach step Sane (start fun _ => ⟨0, 0⟩) s ∧
      s.live = {69632 - 2 * unit} ∧ s.heap.freep ≠ 0 := Runs.exists_reach_of_exec
    [.malloc 1 [some 4096] 9, .free (69632 - unit) 9, .malloc 10 [] 9] (by decide +kernel)
  obtain ⟨s, hreach, hlive, hfreep⟩ := hrun
  refine ⟨B, s, hreach, hlive, (heap_invariants hreach).1.resolve_left fun h => hfreep h.1⟩

omit [BaseAddr] in
/-- When a region of `sbrk` ends at `base`, the list loses `base`. -/
theorem base_lost : ∃ (_ : BaseAddr) (s : HeapSys),
    Runs.Reach step (fun _ _ => True) (start fun _ => ⟨0, 0⟩) s ∧ s.heap.freep ≠ 0 ∧
    ∀ k, (fun p => (s.heap.hdr p).ptr)^[k] s.heap.freep ≠ base := by
  let B : BaseAddr := ⟨1048576, by decide⟩
  have hrun : ∃ s, Runs.Reach step (fun _ _ => True) (start fun _ => ⟨0, 0⟩) s ∧
      s.heap.freep = 65536 ∧ (s.heap.hdr 65536).ptr = 65536 := Runs.exists_reach_of_exec
    [.malloc 1 [some 65536] 9, .malloc 65536 [some (1048576 - 4097 * unit)] 9] (by decide +kernel)
  obtain ⟨s, hreach, hfreep, hptr⟩ := hrun
  refine ⟨B, s, hreach, by rw [hfreep]; decide, fun k => ?_⟩
  have hfix : (fun p => (s.heap.hdr p).ptr)^[k] s.heap.freep = 65536 := by
    rw [hfreep]
    exact iterate_fixed hptr k
  rw [hfix]
  decide

omit [BaseAddr] in
/-- When `sbrk` returns more than `2 ^ 32` units, the size of a joined block wraps, and memory is
lost. -/
theorem units_lost : ∃ (_ : BaseAddr) (s : HeapSys) (b : ℕ),
    Runs.Reach step (fun _ _ => True) (start fun _ => ⟨0, 0⟩) s ∧ s.live = ∅ ∧ Got s.heap b ∧
    ∀ k, ¬ InBlock s.heap ((fun p => (s.heap.hdr p).ptr)^[k] base) b := by
  let B : BaseAddr := ⟨16, by decide⟩
  let len : ℕ := (2 ^ 27 - 1) * unit
  have hrun : ∃ s, Runs.Reach step (fun _ _ => True) (start fun _ => ⟨0, 0⟩) s ∧
      (s.live = ∅ ∧ (65536 + 32 * len, len) ∈ s.heap.got ∧ s.heap.hdr 16 = ⟨65536, 0⟩ ∧
        s.heap.hdr 65536 = ⟨16, 2 ^ 27 - 33⟩) := Runs.exists_reach_of_exec
    ((List.range 33).map (fun i => .malloc (len - unit) [some (65536 + i * len)] 9) ++
      (List.range 33).map fun i => .free (65536 + i * len + unit) 9) (by decide +kernel)
  obtain ⟨s, hreach, hlive, hgot, hbase, hblock⟩ := hrun
  refine ⟨B, s, 65536 + 32 * len, hreach, hlive, ⟨_, hgot, le_rfl, by decide⟩, fun k => ?_⟩
  have hring : (fun p => (s.heap.hdr p).ptr)^[k] base = 16 ∨
      (fun p => (s.heap.hdr p).ptr)^[k] base = 65536 := by
    induction k with
    | zero => exact .inl rfl
    | succ k ih =>
      rw [iterate_succ_apply']
      rcases ih with ih | ih <;> simp [ih, hbase, hblock]
  rcases hring with h | h <;> rw [h, InBlock] <;> simp only [hbase, hblock] <;> decide

end HeapSys

end CsklubOs
