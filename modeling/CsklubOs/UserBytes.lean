/-
**Bytes that cross the user boundary.**

`copyin`, `copyout` and `copyinstr` of `kernel/vm.c`, `fetchstr` and `argstr` of `kernel/syscall.c`.
The code goes from page to page, with arithmetic of 64 bits; what a user address stands for is said
byte by byte.

Main definitions:

* `copyin`, `copyout`, `copyinstr`, `fetchstr`, `argstr` — the code;
* `Accessible`, `userAddr` — the addresses that a process may use, and the bytes they stand for;
* `Extent` — how far a condition on addresses holds.

Main results:

* `copy_exact` — `copyin` and `copyout` move the bytes up to the first bad address, and no others;
* `copyinstr_exact` — `copyinstr` finds a string exactly if there is one.
-/

import CsklubOs.ByteSeq
import CsklubOs.UserMem

set_option autoImplicit false

namespace CsklubOs

open Function Nat
open List hiding get
open Wp

/-! ### The code -/

def pgRoundDown (a : ℕ) : ℕ := a / pgSize * pgSize

/-- `memmove` from a buffer of the kernel. -/
def poke : ℕ → List UInt8 → (ℕ → UInt8) → ℕ → UInt8
  | _, [], mem => mem
  | pa, b :: bs, mem => poke (pa + 1) bs (update mem pa b)

/-- `memmove` to a buffer of the kernel. -/
def peek (mem : ℕ → UInt8) (pa n : ℕ) : List UInt8 := (List.range n).map fun i => mem (pa + i)

/-- `va0 + PGSIZE`. -/
def nextPage (va : ℕ) : ℕ := (pgRoundDown va + pgSize) % 2 ^ 64

/-- `walkaddr`, as an address. -/
def walkPa (pt : PageTable) (va : ℕ) : VmM ℕ := do
  let pg ← walkaddr pt va
  pure (pg.elim 0 (· * pgSize))

/-- The loop of `copyin`, which takes at least one byte each time round: the bytes that have
arrived, and whether these are all. -/
def copyinLoop (pt : PageTable) : ℕ → ℕ → ℕ → VmM (List UInt8 × Bool)
  | 0, _, _ => pure ([], true)
  | fuel + 1, srcva, len =>
    if len = 0 then pure ([], true)
    else do
      let va0 := pgRoundDown srcva
      let pa0 ← walkPa pt va0
      if pa0 = 0 then pure ([], false)
      else do
        let n := min (pgSize - (srcva - va0)) len
        let km ← get
        let (bs, done) ← copyinLoop pt fuel (nextPage srcva) (len - n)
        pure (peek km.mem (pa0 + (srcva - va0)) n ++ bs, done)

def copyin (pt : PageTable) (srcva len : ℕ) : VmM (List UInt8 × Bool) := copyinLoop pt len srcva len

/-- The loop of `copyout`. -/
def copyoutLoop (pt : PageTable) : ℕ → ℕ → List UInt8 → VmM Bool
  | 0, _, _ => pure true
  | fuel + 1, dstva, src =>
    let va0 := pgRoundDown dstva
    if src.length = 0 then pure true
    else if maxVA ≤ va0 then pure false
    else do
      let (_, found) ← walk pt va0 false
      if found then
        match pteAt pt va0 with
        | none => pure false
        | some e =>
          if e.perm.u && e.perm.w then do
            let n := min (pgSize - (dstva - va0)) src.length
            modify fun km =>
              { km with mem := poke (e.ppn * pgSize + (dstva - va0)) (src.take n) km.mem }
            copyoutLoop pt fuel (nextPage dstva) (src.drop n)
          else pure false
      else pure false

/-- `copyout`. -/
def copyout (pt : PageTable) (dstva : ℕ) (src : List UInt8) : VmM Bool :=
  copyoutLoop pt src.length dstva src

/-- The inner loop of `copyinstr`: the bytes that it stores, and `got_null`. -/
def scanStr (mem : ℕ → UInt8) : ℕ → ℕ → List UInt8 × Bool
  | 0, _ => ([], false)
  | n + 1, p => if mem p = 0 then ([0], true) else ((scanStr mem n (p + 1)).map (mem p :: ·) id)

/-- The loop of `copyinstr`: the bytes that it stores, `got_null`, and the pages that it
looks up. -/
def copyinstrLoop (pt : PageTable) : ℕ → ℕ → ℕ → VmM (List UInt8 × Bool × List ℕ)
  | 0, _, _ => pure ([], false, [])
  | fuel + 1, srcva, max =>
    if max = 0 then pure ([], false, [])
    else do
      let va0 := pgRoundDown srcva
      let pa0 ← walkPa pt va0
      if pa0 = 0 then pure ([], false, [va0])
      else do
        let n := min (pgSize - (srcva - va0)) max
        let km ← get
        let (bs, gotNull) := scanStr km.mem n (pa0 + (srcva - va0))
        if gotNull then pure (bs, true, [va0])
        else do
          let (bs', gotNull, vas) ← copyinstrLoop pt fuel (nextPage srcva) (max - n)
          pure (bs ++ bs', gotNull, va0 :: vas)

def copyinstr (pt : PageTable) (srcva max : ℕ) : VmM (List UInt8 × Bool × List ℕ) :=
  copyinstrLoop pt max srcva max

def strlen (bs : List UInt8) : ℕ := (bs.takeWhile (· ≠ 0)).length

/-- `fetchstr`; `none` is -1. -/
def fetchstr (pt : PageTable) (addr : ℕ) (buf : List UInt8) (max : ℕ) : VmM (Option ℕ) := do
  let (bs, gotNull, _) ← copyinstr pt addr max
  pure (if gotNull then some (strlen (ByteSeq.splice buf 0 bs)) else none)

/-- `argstr`, for the argument registers of the trapframe. -/
def argstr (pt : PageTable) (args : Fin 6 → ℕ) (n : Fin 6) (buf : List UInt8) (max : ℕ) :
    VmM (Option ℕ) := fetchstr pt (args n) buf max

/-! ### User addresses -/

variable {pt : PageTable} {ok : Pte → Bool} {va len n m : ℕ} {km : Kmem} {mem : ℕ → UInt8}

/-- An address below `MAXVA` with a valid entry that passes a test. -/
def Accessible (pt : PageTable) (ok : Pte → Bool) (va : ℕ) : Prop :=
  va < maxVA ∧ (pteAt pt va).any ok = true

instance : Decidable (Accessible pt ok va) := by unfold Accessible; infer_instance

/-- What `walkaddr` asks for: `PTE_U`, and a page other than page 0. -/
def Pte.readable (e : Pte) : Bool := e.perm.u && e.ppn != 0

/-- What `copyout` asks for: `PTE_U` and `PTE_W`. -/
def Pte.writable (e : Pte) : Bool := e.perm.u && e.perm.w

/-- The physical address that a user address stands for. -/
def userAddr (pt : PageTable) (va : ℕ) : ℕ := (pteAt pt va).elim 0 Pte.ppn * pgSize + va % pgSize

theorem pteAt_congr {va' : ℕ} (h : va' / pgSize = va / pgSize) : pteAt pt va' = pteAt pt va := by
  have hpx : ∀ l, px l va' = px l va := by
    intro l
    have hdiv : ∀ a, a / 2 ^ (12 + 9 * l) = a / pgSize / 2 ^ (9 * l) := fun a => by
      rw [pow_add, Nat.div_div_eq_div_mul]
      rfl
    rw [px, px, Fin.mk.injEq, hdiv, hdiv, h]
  rw [pteAt, pteAt, hpx, hpx, hpx]

theorem pgRoundDown_div (va : ℕ) : pgRoundDown va / pgSize = va / pgSize :=
  Nat.mul_div_cancel _ (by decide)

theorem sub_pgRoundDown (va : ℕ) : va - pgRoundDown va = va % pgSize := by
  unfold pgRoundDown pgSize
  omega

theorem pgRoundDown_lt : pgRoundDown va < maxVA ↔ va < maxVA := by
  unfold pgRoundDown pgSize maxVA
  omega

variable {i : ℕ} {e : Pte} {P : ℕ → Prop}

theorem pteAt_add (hi : i < pgSize - va % pgSize) : pteAt pt (va + i) = pteAt pt va := by
  refine pteAt_congr ?_
  unfold pgSize at *
  omega

theorem Accessible.add (h : Accessible pt ok va) (hi : i < pgSize - va % pgSize) :
    Accessible pt ok (va + i) := by
  refine ⟨?_, (pteAt_add hi).symm ▸ h.2⟩
  have hlt := h.1
  unfold pgSize maxVA at *
  omega

theorem userAddr_add (he : pteAt pt va = some e) (hi : i < pgSize - va % pgSize) :
    userAddr pt (va + i) = e.ppn * pgSize + va % pgSize + i := by
  rw [userAddr, pteAt_add hi, he, Option.elim_some]
  unfold pgSize at *
  omega

theorem userAddr_of_leaf (hva : va / pgSize < 2 ^ 26) (he : leaf pt (va / pgSize) = some e) :
    userAddr pt va = e.ppn * pgSize + va % pgSize := by
  have hpte : pteAt pt va = some e := by
    rw [← he, ← pteAt_eq_leaf hva]
    exact pteAt_congr (Nat.mul_div_cancel _ (by decide)).symm
  rw [userAddr, hpte, Option.elim_some]

theorem Accessible.nextPage_eq (h : Accessible pt ok va) :
    nextPage va = va + (pgSize - va % pgSize) := by
  have hlt := h.1
  unfold nextPage pgRoundDown pgSize maxVA at *
  omega

theorem Accessible.exists_pte (h : Accessible pt ok va) : ∃ e, pteAt pt va = some e ∧ ok e = true :=
  (Option.any_eq_true_iff_get ..).1 h.2 |>.elim fun hs he => ⟨_, (Option.some_get hs).symm, he⟩

theorem found_of_pteAt (h : pteAt pt va = some e) :
    ((pt.pte (px 2 va)).any fun d1 => (d1.pte (px 1 va)).isSome) = true := by
  obtain ⟨d1, d0, h1, h0⟩ := hasPath_of_pteAt h
  rw [h1, Option.any_some, h0, Option.isSome_some]

theorem walkaddr_eq (pt : PageTable) (va : ℕ) : walkaddr pt va = (pure (if maxVA ≤ va then none
    else (pteAt pt va).bind fun e => if e.perm.u then some e.ppn else none) : VmM _) := by
  rw [walkaddr]
  split
  · rfl
  · rename_i hva
    rw [walk_false (not_le.1 hva)]
    cases hp : pteAt pt va with
    | none => simp
    | some e => cases hu : e.perm.u <;> simp [found_of_pteAt hp, hu]

theorem walkPa_accessible (km : Kmem) (h : Accessible pt Pte.readable va)
    (he : pteAt pt va = some e) :
    walkPa pt (pgRoundDown va) km = .ok (e.ppn * pgSize, km) ∧ e.ppn * pgSize ≠ 0 := by
  have hok := h.2
  rw [he, Option.any_some, Pte.readable, Bool.and_eq_true, bne_iff_ne] at hok
  refine ⟨?_, mul_ne_zero hok.2 (by decide)⟩
  rw [walkPa, walkaddr_eq, pteAt_congr (pgRoundDown_div va),
    if_neg (by rw [not_le, pgRoundDown_lt]; exact h.1), he]
  simp [hok.1]
  rfl

theorem walkPa_inaccessible (h : ¬ Accessible pt Pte.readable va) :
    walkPa pt (pgRoundDown va) km = .ok (0, km) := by
  rw [walkPa, walkaddr_eq, pteAt_congr (pgRoundDown_div va)]
  split
  · rfl
  · rename_i hva
    rw [not_le, pgRoundDown_lt] at hva
    cases he : pteAt pt va with
    | none => rfl
    | some e =>
      have hno : ¬ e.readable = true := fun hok => h ⟨hva, by rwa [he]⟩
      cases hu : e.perm.u with
      | false => simp [hu]; rfl
      | true =>
        have hz : e.ppn = 0 := by simpa [Pte.readable, hu] using hno
        simp [hu, hz]; rfl

/-- **How far a condition holds**: for the first `m` of `len` addresses, and not for the
next one. -/
structure Extent (P : ℕ → Prop) (va len m : ℕ) : Prop where
  le : m ≤ len
  good : ∀ i < m, P (va + i)
  bad : m < len → ¬ P (va + m)

theorem Extent.zero (h : 0 < len → ¬ P va) : Extent P va len 0 :=
  ⟨zero_le _, nofun, h⟩

theorem Extent.eq_iff (h : Extent P va len m) : m = len ↔ ∀ i < len, P (va + i) := by
  refine ⟨fun heq => heq ▸ h.good, fun hall => le_antisymm h.le ?_⟩
  by_contra hlt
  exact h.bad (by omega) (hall m (by omega))

theorem Extent.append (hn : n ≤ len) (hgood : ∀ i < n, P (va + i))
    (h : Extent P (va + n) (len - n) m) : Extent P va len (n + m) := by
  have hle := h.le
  refine ⟨by omega, fun i hi => ?_, fun hlt => ?_⟩
  · by_cases hin : i < n
    · exact hgood i hin
    · have := h.good (i - n) (by omega)
      rwa [Nat.add_assoc, Nat.add_sub_cancel' (by omega)] at this
  · rw [← add_assoc]
    exact h.bad (by omega)

/-- The bytes at user addresses. -/
def userBytes (pt : PageTable) (mem : ℕ → UInt8) (va n : ℕ) : List UInt8 :=
  (List.range n).map fun i => mem (userAddr pt (va + i))

theorem peek_eq (he : pteAt pt va = some e) (hn : n ≤ pgSize - va % pgSize) :
    peek mem (e.ppn * pgSize + va % pgSize) n = userBytes pt mem va n := by
  refine map_congr_left fun i hi => ?_
  rw [userAddr_add he ((mem_range.1 hi).trans_le hn)]

theorem userBytes_add (pt : PageTable) (mem : ℕ → UInt8) (va n m : ℕ) :
    userBytes pt mem va (n + m) = userBytes pt mem va n ++ userBytes pt mem (va + n) m := by
  rw [userBytes, range_add, map_append, map_map]
  simp only [userBytes, Function.comp_def, add_assoc]

/-- What is left on the page, or what is left to be copied if that is less, and the address after
it. -/
theorem Accessible.chunk (h : Accessible pt ok va) (hlen : len ≠ 0) :
    ∃ n, min (pgSize - va % pgSize) len = n ∧ 0 < n ∧ n ≤ len ∧ n ≤ pgSize - va % pgSize ∧
      (nextPage va = va + n ∨ len = n) := by
  have hpos : 0 < pgSize - va % pgSize := Nat.sub_pos_of_lt (Nat.mod_lt _ (by decide))
  have hnext := h.nextPage_eq
  exact ⟨_, rfl, by omega, min_le_right .., min_le_left .., by omega⟩

/-! ### `copyin` and `copyout` -/

theorem copyinLoop_eq (pt : PageTable) (km : Kmem) : ∀ fuel va len, len ≤ fuel →
    ∃ m, Extent (Accessible pt Pte.readable) va len m ∧
      copyinLoop pt fuel va len km = .ok ((userBytes pt km.mem va m, decide (m = len)), km) := by
  intro fuel
  induction fuel with
  | zero =>
    intro va len hlen
    obtain rfl := le_zero.1 hlen
    exact ⟨0, .zero nofun, rfl⟩
  | succ fuel ih =>
    intro va len hlen
    by_cases hzero : len = 0
    · subst hzero
      exact ⟨0, .zero nofun, rfl⟩
    by_cases hacc : Accessible pt Pte.readable va
    · obtain ⟨e, he, -⟩ := hacc.exists_pte
      obtain ⟨hwalk, hpa⟩ := walkPa_accessible km hacc he
      obtain ⟨n, hn, hpos, hle, hpage, hnext⟩ := hacc.chunk hzero
      have hrec : copyinLoop pt fuel (nextPage va) (len - n) =
          copyinLoop pt fuel (va + n) (len - n) := by
        rcases hnext with h | h
        · rw [h]
        · rw [h]
          cases fuel <;> simp [copyinLoop]
      obtain ⟨m, hext, hrun⟩ := ih (va + n) (len - n) (by omega)
      refine ⟨n + m, hext.append hle fun i hi => hacc.add (hi.trans_le hpage), ?_⟩
      have hdone : decide (m = len - n) = decide (n + m = len) := decide_eq_decide.2 (by omega)
      rw [hdone] at hrun
      simp only [copyinLoop, if_neg hzero, bind, StateT.bind, Except.bind, hwalk, if_neg hpa,
        sub_pgRoundDown, hn, hrec, get, getThe, MonadStateOf.get, StateT.get, pure, Except.pure,
        StateT.pure, hrun, peek_eq he hpage, userBytes_add]
    · refine ⟨0, .zero fun _ => hacc, ?_⟩
      simp only [copyinLoop, if_neg hzero, bind, StateT.bind, Except.bind, walkPa_inaccessible hacc,
        if_true, Ne.symm hzero, decide_false]
      rfl

/-- Storing bytes at user addresses, one after the other. -/
def userPoke (pt : PageTable) : ℕ → List UInt8 → (ℕ → UInt8) → ℕ → UInt8
  | _, [], mem => mem
  | va, b :: bs, mem => userPoke pt (va + 1) bs (update mem (userAddr pt va) b)

theorem userPoke_append (pt : PageTable) (va : ℕ) (bs bs' : List UInt8) (mem : ℕ → UInt8) :
    userPoke pt va (bs ++ bs') mem = userPoke pt (va + bs.length) bs' (userPoke pt va bs mem) := by
  induction bs generalizing va mem with
  | nil => rfl
  | cons b bs ih =>
    rw [cons_append, userPoke, ih, add_right_comm]
    rfl

theorem poke_eq (he : pteAt pt va = some e) (bs : List UInt8) :
    ∀ j mem, j + bs.length ≤ pgSize - va % pgSize →
      poke (e.ppn * pgSize + va % pgSize + j) bs mem = userPoke pt (va + j) bs mem := by
  induction bs with
  | nil => exact fun _ _ _ => rfl
  | cons b bs ih =>
    intro j mem hj
    rw [length_cons] at hj
    have hrest := ih (j + 1) (update mem (e.ppn * pgSize + va % pgSize + j) b) (by omega)
    rw [← add_assoc, ← add_assoc] at hrest
    rw [poke, userPoke, userAddr_add he (by omega), hrest]

theorem copyoutLoop_succ {fuel : ℕ} {src : List UInt8} (hsrc : src.length ≠ 0) :
    copyoutLoop pt (fuel + 1) va src km =
      if Accessible pt Pte.writable va then
        copyoutLoop pt fuel (nextPage va) (src.drop (min (pgSize - va % pgSize) src.length))
          { km with mem := userPoke pt va (src.take (min (pgSize - va % pgSize) src.length)) km.mem
            }
      else .ok (false, km) := by
  rw [copyoutLoop, if_neg hsrc]
  by_cases hva : maxVA ≤ pgRoundDown va
  · rw [if_pos hva, if_neg fun h => absurd (pgRoundDown_lt.2 h.1) (not_lt.2 hva)]
    rfl
  · rw [if_neg hva, walk_false (not_le.1 hva), pteAt_congr (pgRoundDown_div va), pure_bind]
    rw [not_le, pgRoundDown_lt] at hva
    cases hp : pteAt pt va with
    | none =>
      simp [Accessible, hp]
      rfl
    | some e =>
      have hacc : Accessible pt Pte.writable va ↔ (e.perm.u && e.perm.w) = true := by
        rw [Accessible, hp, Option.any_some]
        exact and_iff_right hva
      have hpoke := poke_eq hp (src.take (min (pgSize - va % pgSize) src.length)) 0 km.mem
        (by rw [length_take]; omega)
      rw [add_zero, add_zero] at hpoke
      rw [found_of_pteAt ((pteAt_congr (pgRoundDown_div va)).trans hp), ← hpoke, ← sub_pgRoundDown]
      by_cases hok : (e.perm.u && e.perm.w) = true
      · simp only [hacc, hok, ↓reduceIte]
        rfl
      · simp only [hacc, hok, ↓reduceIte]
        rfl

theorem copyoutLoop_eq (pt : PageTable) : ∀ fuel va src km, src.length ≤ fuel →
    ∃ m, Extent (Accessible pt Pte.writable) va src.length m ∧ copyoutLoop pt fuel va src km =
      .ok (decide (m = src.length), { km with mem := userPoke pt va (src.take m) km.mem }) := by
  intro fuel
  induction fuel with
  | zero =>
    intro va src km hlen
    obtain rfl := length_eq_zero_iff.1 (le_zero.1 hlen)
    exact ⟨0, .zero nofun, rfl⟩
  | succ fuel ih =>
    intro va src km hlen
    by_cases hzero : src.length = 0
    · obtain rfl := length_eq_zero_iff.1 hzero
      exact ⟨0, .zero nofun, rfl⟩
    rw [copyoutLoop_succ hzero]
    by_cases hacc : Accessible pt Pte.writable va
    · obtain ⟨n, hn, hpos, hle, hpage, hnext⟩ := hacc.chunk hzero
      rw [if_pos hacc, hn]
      have hrec : copyoutLoop pt fuel (nextPage va) (src.drop n) =
          copyoutLoop pt fuel (va + n) (src.drop n) := by
        rcases hnext with h | h
        · rw [h]
        · rw [drop_eq_nil_iff.2 h.le]
          cases fuel <;> simp [copyoutLoop]
      obtain ⟨m, hext, hrun⟩ := ih (va + n) (src.drop n)
        { km with mem := userPoke pt va (src.take n) km.mem } (by rw [length_drop]; omega)
      rw [length_drop] at hext hrun
      refine ⟨n + m, hext.append hle fun i hi => hacc.add (hi.trans_le hpage), ?_⟩
      rw [hrec, hrun, take_add, userPoke_append, length_take, min_eq_left hle]
      exact congrArg (fun b => Except.ok (b, _)) (decide_eq_decide.2 (by omega))
    · refine ⟨0, .zero fun _ => hacc, ?_⟩
      rw [if_neg hacc]
      simp only [Ne.symm hzero, decide_false]
      rfl

theorem userPoke_of_notMem {a : ℕ} {bs : List UInt8}
    (h : ∀ i < bs.length, a ≠ userAddr pt (va + i)) : userPoke pt va bs mem a = mem a := by
  induction bs generalizing va mem with
  | nil => rfl
  | cons b bs ih =>
    have hhead : a ≠ userAddr pt va := h 0 (succ_pos _)
    rw [userPoke, ih fun i hi => ?_, update_of_ne hhead]
    rw [add_assoc, add_comm 1]
    exact h (i + 1) (succ_lt_succ hi)

theorem wp_copyout {bs : List UInt8} {Q : Bool → Kmem → Prop} {E : VmPanic → Prop}
    (hok : Q true { km with mem := userPoke pt va bs km.mem })
    (hbad : ∀ mem, Q false { km with mem }) : wp (copyout pt va bs) Q E km := by
  obtain ⟨m, -, hrun⟩ := copyoutLoop_eq pt _ va bs km le_rfl
  refine (wp_of_ok hrun).2 ?_
  by_cases hm : m = bs.length
  · rw [decide_eq_true hm, hm, take_length]
    exact hok
  · rw [decide_eq_false hm]
    exact hbad _

/-- **`copyin` and `copyout` are exact and confined.** -/
theorem copy_exact (pt : PageTable) (h0 : ∀ va e, pteAt pt va = some e → e.ppn ≠ 0) (km : Kmem)
    (va : ℕ) :
    (∀ len, ∃ m, Extent (Accessible pt fun e => e.perm.u) va len m ∧
      copyin pt va len km = .ok ((userBytes pt km.mem va m, decide (m = len)), km) ∧
      (m = len ↔ ∀ i < len, Accessible pt (fun e => e.perm.u) (va + i))) ∧
    ∀ src : List UInt8, ∃ m mem', Extent (Accessible pt fun e => e.perm.u && e.perm.w) va src.length
      m ∧ copyout pt va src km = .ok (decide (m = src.length), { km with mem := mem' }) ∧
      (m = src.length ↔ ∀ i < src.length, Accessible pt (fun e => e.perm.u && e.perm.w) (va + i)) ∧
      mem' = userPoke pt va (src.take m) km.mem ∧
      ∀ a, (∀ i < m, a ≠ userAddr pt (va + i)) → mem' a = km.mem a := by
  have hread : Accessible pt Pte.readable = Accessible pt fun e => e.perm.u := by
    funext a
    cases hp : pteAt pt a with
    | none => simp [Accessible, hp]
    | some e => simp [Accessible, hp, Pte.readable, h0 a e hp]
  refine ⟨fun len => ?_, fun src => ?_⟩
  · obtain ⟨m, hext, hrun⟩ := copyinLoop_eq pt km len va len le_rfl
    rw [hread] at hext
    exact ⟨m, hext, hrun, hext.eq_iff⟩
  · obtain ⟨m, hext, hrun⟩ := copyoutLoop_eq pt _ va src km le_rfl
    refine ⟨m, _, hext, hrun, hext.eq_iff, rfl, fun a ha => userPoke_of_notMem ?_⟩
    rw [length_take, min_eq_left hext.le]
    exact ha

/-- A table that maps the first page, to page 4. -/
def onePage : PageTable :=
  (Dir.zero 1).set 0 (some ((Dir.zero 2).set 0 (some ((Dir.zero 3).set 0
    (some ⟨4, ⟨true, true, false, true⟩⟩)))))

theorem onePage_ppn (va : ℕ) (e : Pte) (h : pteAt onePage va = some e) : e.ppn ≠ 0 := by
  rintro hz
  have hall : ∀ i j k : Fin 512, (onePage.pte i).bind
    (fun d1 => (d1.pte j).bind fun d0 => d0.pte k) =
      if i = 0 ∧ j = 0 ∧ k = 0 then some ⟨4, ⟨true, true, false, true⟩⟩ else none := by
    intro i j k
    by_cases hi : i = 0 <;> by_cases hj : j = 0 <;> by_cases hk : k = 0 <;>
      simp [onePage, Dir.set, Dir.zero, hi, hj, hk]
  rw [pteAt, hall] at h
  split at h
  · cases h
    cases hz
  · cases h

theorem copy_exact_onePage : ∃ m mem',
    Extent (Accessible onePage fun e => e.perm.u && e.perm.w) 4094 3 m ∧
    copyout onePage 4094 [1, 2, 3] ⟨[], 0, fun _ => 0⟩ =
      .ok (decide (m = 3), ⟨[], 0, mem'⟩) := by
  obtain ⟨m, mem', hext, hrun, -⟩ :=
    (copy_exact onePage onePage_ppn ⟨[], 0, fun _ => 0⟩ 4094).2 [1, 2, 3]
  exact ⟨m, mem', hext, hrun⟩

/-! ### `copyinstr` -/

theorem scanStr_eq (mem : ℕ → UInt8) : ∀ n p, ∃ j, Extent (fun a => mem a ≠ 0) p n j ∧
    scanStr mem n p = (peek mem p j ++ (if j < n then [0] else []), decide (j < n)) := by
  intro n
  induction n with
  | zero => exact fun p => ⟨0, .zero nofun, rfl⟩
  | succ n ih =>
    intro p
    rw [scanStr]
    by_cases hz : mem p = 0
    · exact ⟨0, .zero fun _ h => h hz, by rw [if_pos hz]; rfl⟩
    · obtain ⟨j, hext, hscan⟩ := ih (p + 1)
      refine ⟨1 + j, hext.append (succ_pos n) fun i hi => ?_, ?_⟩
      · rwa [lt_one_iff.1 hi]
      · rw [if_neg hz, hscan]
        have hpeek : peek mem p (1 + j) = mem p :: peek mem (p + 1) j := by
          rw [peek, range_add, map_append, map_map]
          simp only [peek, Function.comp_def, add_assoc]
          rfl
        have hlt : 1 + j < n + 1 ↔ j < n := by omega
        simp only [Prod.map_apply, hpeek, hlt, cons_append, id]

/-- A readable byte of a string that goes on. -/
def InString (pt : PageTable) (mem : ℕ → UInt8) (a : ℕ) : Prop :=
  Accessible pt Pte.readable a ∧ mem (userAddr pt a) ≠ 0

/-- There is a string of length `k` at `va`, with its end within `max` bytes. -/
def IsString (pt : PageTable) (mem : ℕ → UInt8) (va max k : ℕ) : Prop :=
  k < max ∧ (∀ i ≤ k, Accessible pt Pte.readable (va + i)) ∧
    (∀ i < k, mem (userAddr pt (va + i)) ≠ 0) ∧ mem (userAddr pt (va + k)) = 0

/-- The byte after the first `m` is the end of the string. -/
def Ends (pt : PageTable) (va max m : ℕ) : Prop := m < max ∧ Accessible pt Pte.readable (va + m)

instance {max : ℕ} : Decidable (Ends pt va max m) := by unfold Ends; infer_instance

theorem copyinstrLoop_eq (pt : PageTable) (km : Kmem) : ∀ fuel va max, max ≤ fuel →
    ∃ m vas, Extent (InString pt km.mem) va max m ∧
      (∀ p ∈ vas, ∃ i ≤ m, i < max ∧ p = pgRoundDown (va + i)) ∧
      copyinstrLoop pt fuel va max km = .ok ((userBytes pt km.mem va m ++
        (if Ends pt va max m then [0] else []), decide (Ends pt va max m), vas), km) := by
  intro fuel
  induction fuel with
  | zero =>
    intro va max hmax
    obtain rfl := le_zero.1 hmax
    exact ⟨0, [], .zero nofun, nofun, by rfl⟩
  | succ fuel ih =>
    intro va max hmax
    by_cases hzero : max = 0
    · subst hzero
      exact ⟨0, [], .zero nofun, nofun, by rfl⟩
    have hfirst : ∀ m, ∃ i ≤ m, i < max ∧ pgRoundDown va = pgRoundDown (va + i) :=
      fun m => ⟨0, zero_le m, pos_of_ne_zero hzero, rfl⟩
    by_cases hacc : Accessible pt Pte.readable va
    · obtain ⟨e, he, -⟩ := hacc.exists_pte
      obtain ⟨hwalk, hpa⟩ := walkPa_accessible km hacc he
      obtain ⟨n, hn, hpos, hle, hpage, hnext⟩ := hacc.chunk hzero
      obtain ⟨j, hscan, hrun⟩ := scanStr_eq km.mem n (e.ppn * pgSize + va % pgSize)
      have hj := hscan.le
      have hin : ∀ i < j, InString pt km.mem (va + i) := fun i hi => by
        have hi' : i < pgSize - va % pgSize := by omega
        refine ⟨hacc.add hi', ?_⟩
        rw [userAddr_add he hi']
        exact hscan.good i hi
      rw [peek_eq he (hj.trans hpage)] at hrun
      by_cases hend : j < n
      · have hends : Ends pt va max j := ⟨by omega, hacc.add (by omega)⟩
        refine ⟨j, [pgRoundDown va], ⟨by omega, hin, fun _ h => ?_⟩, ?_, ?_⟩
        · rw [InString, userAddr_add he (by omega)] at h
          exact hscan.bad hend h.2
        · exact fun p hp => mem_singleton.1 hp ▸ hfirst j
        · simp only [copyinstrLoop, if_neg hzero, bind, StateT.bind, Except.bind, hwalk, if_neg hpa,
            sub_pgRoundDown, hn, get, getThe, MonadStateOf.get, StateT.get, pure, Except.pure,
            StateT.pure, hrun, hend, hends, decide_true, if_true]
      · obtain rfl : j = n := by omega
        have hrec : copyinstrLoop pt fuel (nextPage va) (max - j) =
            copyinstrLoop pt fuel (va + j) (max - j) := by
          rcases hnext with h | h
          · rw [h]
          · rw [h]
            cases fuel <;> simp [copyinstrLoop]
        obtain ⟨m, vas, hext, hvas, hloop⟩ := ih (va + j) (max - j) (by omega)
        have hends : Ends pt (va + j) (max - j) m ↔ Ends pt va max (j + m) := by
          rw [Ends, add_assoc]
          exact and_congr_left' (by omega)
        refine ⟨j + m, pgRoundDown va :: vas, hext.append hle hin, fun p hp => ?_, ?_⟩
        · rcases mem_cons.1 hp with rfl | hp
          · exact hfirst _
          · obtain ⟨i, him, hi, rfl⟩ := hvas p hp
            exact ⟨j + i, by omega, by omega, by rw [add_assoc]⟩
        · simp only [hends] at hloop
          simp only [copyinstrLoop, if_neg hzero, bind, StateT.bind, Except.bind, hwalk, if_neg hpa,
            sub_pgRoundDown, hn, get, getThe, MonadStateOf.get, StateT.get, pure, Except.pure,
            StateT.pure, hrun, hend, decide_false, Bool.false_eq_true, if_false, hrec, hloop,
            userBytes_add, append_assoc, nil_append]
    · refine ⟨0, [pgRoundDown va], .zero fun _ h => hacc h.1, ?_, ?_⟩
      · exact fun p hp => mem_singleton.1 hp ▸ hfirst 0
      · have hends : ¬ Ends pt va max 0 := fun h => hacc h.2
        simp only [copyinstrLoop, if_neg hzero, bind, StateT.bind, Except.bind,
          walkPa_inaccessible hacc,
          if_true, hends, decide_false, if_false]
        rfl

/-- The string at an address is the part up to the first byte that is not one of a string. -/
theorem isString_iff {max k : ℕ} (h : Extent (InString pt mem) va max m) :
    IsString pt mem va max k ↔ k = m ∧ Ends pt va max m := by
  constructor
  · rintro ⟨hk, hacc, hne, hz⟩
    obtain rfl : k = m := by
      rcases lt_trichotomy k m with hlt | heq | hlt
      · exact absurd hz (h.good k hlt).2
      · exact heq
      · exact absurd ⟨hacc m hlt.le, hne m hlt⟩ (h.bad (hlt.trans hk))
    exact ⟨rfl, hk, hacc k le_rfl⟩
  · rintro ⟨rfl, hk, hacc⟩
    refine ⟨hk, fun i hi => ?_, fun i hi => (h.good i hi).2, ?_⟩
    · rcases hi.lt_or_eq with hlt | rfl
      · exact (h.good i hlt).1
      · exact hacc
    · by_contra hne
      exact h.bad hk ⟨hacc, hne⟩

/-- **`copyinstr` is exact.** -/
theorem copyinstr_exact (pt : PageTable) (srcva max : ℕ) (km : Kmem) : ∃ bs gotNull vas,
    copyinstr pt srcva max km = .ok ((bs, gotNull, vas), km) ∧
    (gotNull = true ↔ ∃ k, IsString pt km.mem srcva max k) ∧
    (∀ k, IsString pt km.mem srcva max k → bs = userBytes pt km.mem srcva k ++ [0]) ∧
    bs.length ≤ max ∧
    (∀ p ∈ vas, p < srcva + max ∧ ∀ k, IsString pt km.mem srcva max k → p ≤ srcva + k) ∧
    ∀ (args : Fin 6 → ℕ) (n : Fin 6) (buf : List UInt8), args n = srcva → ∃ r,
      argstr pt args n buf max km = .ok (r, km) ∧ fetchstr pt srcva buf max km = .ok (r, km) ∧
      ∀ k, r = some k ↔ IsString pt km.mem srcva max k := by
  obtain ⟨m, vas, hext, hvas, hrun⟩ := copyinstrLoop_eq pt km max srcva max le_rfl
  refine ⟨_, _, vas, hrun, ?_, ?_, ?_, ?_, ?_⟩
  · simp only [isString_iff hext, decide_eq_true_eq, exists_eq_left]
  · rintro k hk
    obtain ⟨rfl, hends⟩ := (isString_iff hext).1 hk
    rw [if_pos hends]
  · have hle := hext.le
    by_cases hends : Ends pt srcva max m
    · have := hends.1
      simp [userBytes, hends]
      omega
    · simpa [userBytes, hends] using hle
  · intro p hp
    obtain ⟨i, him, hi, rfl⟩ := hvas p hp
    have hdown : pgRoundDown (srcva + i) ≤ srcva + i := div_mul_le_self ..
    refine ⟨by omega, fun k hk => ?_⟩
    obtain ⟨rfl, -⟩ := (isString_iff hext).1 hk
    omega
  · rintro args n buf rfl
    have hlen : ∀ rest, strlen (userBytes pt km.mem (args n) m ++ 0 :: rest) = m := by
      intro rest
      rw [strlen, takeWhile_append_of_pos]
      · simp [userBytes]
      · intro b hb
        obtain ⟨i, hi, rfl⟩ := mem_map.1 hb
        exact decide_eq_true (hext.good i (mem_range.1 hi)).2
    have hfetch : fetchstr pt (args n) buf max km =
        .ok (if Ends pt (args n) max m then some m else none, km) := by
      rw [fetchstr, copyinstr]
      simp only [bind, StateT.bind, Except.bind, hrun, decide_eq_true_eq]
      by_cases hends : Ends pt (args n) max m
      · simp [hends, ByteSeq.splice, hlen]
        rfl
      · simp [hends]
        rfl
    refine ⟨_, hfetch, hfetch, fun k => ?_⟩
    rw [isString_iff hext]
    by_cases hends : Ends pt (args n) max m
    · simp [hends, eq_comm]
    · simp [hends]

end CsklubOs
