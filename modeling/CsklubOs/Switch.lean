/-
**Context switches, and interrupts in the kernel.**

`swtch` of `kernel/swtch.S`, on harts that run kernel threads: the schedulers, and the processes in
the kernel.  A thread is known by its `struct context`.  In the abstract system each thread has
registers of its own; a switch only says which thread a hart runs.  `swtch` keeps those that the
calling convention preserves: those of a thread that no hart runs are in its context, and whichever
hart switches to it, it returns from its own call.

`kernelvec` of `kernel/kernelvec.S` saves the other registers on the stack of the thread that it
interrupts.

Main definitions:

* `Switch.swtch`, `Switch.kernelvecEnter`, `Switch.kernelvecLeave` — the code;
* `Switch.step` — the harts and their threads;
* `Switch.Virt.step` — the abstract system.

Main results:

* `Switch.Sim.step` — every step is one of the abstract system;
* `Switch.threads_preserved` — a thread finds its registers as it left them;
* `Switch.interrupt_transparent` — an interrupt is not seen by the code that it interrupts.
-/

import CsklubOs.Runs
import CsklubOs.Rv64

set_option autoImplicit false

open Function

namespace CsklubOs

open Rv64

namespace Switch

/-- `struct context`. -/
def context : List (Reg × ℕ) :=
  [(.ra, 0), (.sp, 8), (.s0, 16), (.s1, 24), (.s2, 32), (.s3, 40), (.s4, 48), (.s5, 56), (.s6, 64),
    (.s7, 72), (.s8, 80), (.s9, 88), (.s10, 96), (.s11, 104)]

def swtch : List Instr := saves context .a0 ++ (loads context .a1 ++ [.jr .ra])

/-- The kernel's page table does not change, and memory is by its addresses. -/
def kernelMap (_ va : Word) : Option Word := some va

variable {K C : Type}

/-- The contexts of the threads are at `ctx`. -/
structure Placed (ctx : K → Word) : Prop where
  aligned : ∀ k, (ctx k).toNat % 8 = 0
  room : ∀ k, (ctx k).toNat + 112 ≤ 2 ^ 64
  apart : ∀ j k, j ≠ k → (ctx j).toNat + 112 ≤ (ctx k).toNat ∨ (ctx k).toNat + 112 ≤ (ctx j).toNat

def slot (a : Word) (o : ℕ) : Word := a + BitVec.ofNat 64 o

variable {ctx : K → Word} {m : Machine Word} {j k : K}

theorem addr_slot {h : Hart} {base : Reg} {a : Word} {o : ℕ} (hbase : h.reg base = a)
    (ha : a.toNat % 8 = 0) (ho : o % 8 = 0) : h.addr kernelMap base o = some (slot a o) := by
  rw [Hart.addr, hbase, if_pos]
  · rfl
  · rw [BitVec.toNat_add, BitVec.toNat_ofNat]
    omega

theorem nodup_slots {tbl : List (Reg × ℕ)} (h : (tbl.map fun x => BitVec.ofNat 64 x.2).Nodup)
    (a : Word) : (tbl.map fun x => slot a x.2).Nodup := by
  have hmap := h.map (add_right_injective a)
  rwa [List.map_map] at hmap

theorem context_bounds : ∀ x ∈ context, x.2 < 112 ∧ x.2 % 8 = 0 := by
  decide

theorem Placed.toNat_slot (hp : Placed ctx) {o : ℕ} (ho : o < 112) :
    (slot (ctx k) o).toNat = (ctx k).toNat + o := by
  have hroom := hp.room k
  rw [slot, BitVec.toNat_add, BitVec.toNat_ofNat]
  omega

theorem Placed.slot_ne (hp : Placed ctx) {o o' : ℕ} (h : j ≠ k ∨ o ≠ o') (ho : o < 112)
    (ho' : o' < 112) : slot (ctx j) o ≠ slot (ctx k) o' := by
  intro heq
  have hnat := congrArg BitVec.toNat heq
  rw [hp.toNat_slot ho, hp.toNat_slot ho'] at hnat
  by_cases hjk : j = k
  · subst hjk
    simp at h
    omega
  · have := hp.apart j k hjk
    omega

/-- **`swtch`** saves into the one context, and loads from the other. -/
theorem run_swtch (hp : Placed ctx) (hjk : j ≠ k) (ha0 : m.hart.reg .a0 = ctx j)
    (ha1 : m.hart.reg .a1 = ctx k) :
    ∃ reg mem, run kernelMap swtch m = some ⟨{ m.hart with reg := reg, pc := reg .ra }, mem⟩ ∧
      (∀ x ∈ context, mem (slot (ctx j) x.2) = m.hart.reg x.1) ∧
      (∀ i, i ≠ j → ∀ x ∈ context, mem (slot (ctx i) x.2) = m.mem (slot (ctx i) x.2)) ∧
      ∀ x ∈ context, reg x.1 = m.mem (slot (ctx k) x.2) := by
  have haddr : ∀ {h : Hart} {base : Reg} {i : K}, h.reg base = ctx i → ∀ x ∈ context,
      h.addr kernelMap base x.2 = some (slot (ctx i) x.2) := fun hbase x hx =>
    addr_slot hbase (hp.aligned _) (context_bounds x hx).2
  obtain ⟨mem, hsave, hin, hout⟩ := run_saves (haddr ha0) (nodup_slots (by decide) _)
  have hother : ∀ i, i ≠ j → ∀ x ∈ context, mem (slot (ctx i) x.2) = m.mem (slot (ctx i) x.2) :=
    fun i hi x hx =>
    hout _ fun y hy => hp.slot_ne (.inl hi) (context_bounds x hx).1 (context_bounds y hy).1
  obtain ⟨reg, hload, hreg, -⟩ := run_loads (m := { m with mem := mem }) (haddr ha1) (by decide)
    fun x hx h => absurd (show .a1 ∈ context.map Prod.fst from h ▸ List.mem_map_of_mem hx)
    (by decide)
  refine ⟨reg, mem, ?_, hin, hother, fun x hx => (hreg x hx).trans (hother k hjk.symm x hx)⟩
  rw [swtch, run_append, hsave, Option.bind_some, run_append, hload]
  rfl

/-! ### Threads -/

/-- The memory, the harts, and the thread that each runs. -/
structure Sys (K C : Type) where
  mem : Word → Word
  hart : C → Hart
  cur : C → K

inductive Act (K C : Type)
  /-- What the thread on a hart does. -/
  | work (c : C) (h : Hart) (mem : Word → Word)
  /-- `swtch(&old, &new)`. -/
  | swtch (c : C) (new : K)

/-- The abstract system. -/
structure Virt (K C : Type) where
  reg : K → Reg → Word
  cur : C → K

variable [DecidableEq K] [DecidableEq C] [Fintype C]

def Virt.step (v : Virt K C) : Act K C → Option (Except Unit (Virt K C))
  | .work c h _ => some (.ok { v with reg := update v.reg (v.cur c) h.reg })
  | .swtch c new => some (.ok { v with cur := update v.cur c new })

section

variable (ctx : K → Word)

def step (s : Sys K C) : Act K C → Option (Except Unit (Sys K C))
  | .work c h mem => some (.ok { s with mem := mem, hart := update s.hart c h })
  | .swtch c new =>
    if ∀ c', s.cur c' ≠ new then
      match run kernelMap swtch ⟨{ s.hart c with
          reg := update (update (s.hart c).reg .a0 (ctx (s.cur c))) .a1 (ctx new) }, s.mem⟩ with
      | none => some (.error ())
      | some m => some (.ok ⟨m.mem, update s.hart c m.hart, update s.cur c new⟩)
    else none

/-- Only `swtch` writes to the contexts. -/
def Allowed (s : Sys K C) : Act K C → Prop
  | .work _ _ mem => ∀ k, ∀ x ∈ context, mem (slot (ctx k) x.2) = s.mem (slot (ctx k) x.2)
  | _ => True

/-- Where the registers of a thread are. -/
structure Sim (s : Sys K C) (v : Virt K C) : Prop where
  cur : v.cur = s.cur
  inj : s.cur.Injective
  running : ∀ c, ∀ x ∈ context, (s.hart c).reg x.1 = v.reg (s.cur c) x.1
  saved : ∀ k, (∀ c, s.cur c ≠ k) → ∀ x ∈ context, s.mem (slot (ctx k) x.2) = v.reg k x.1

end

variable {s : Sys K C} {v : Virt K C}

theorem step_swtch (hp : Placed ctx) {c : C} (new : K) (hfree : ∀ c', s.cur c' ≠ new) :
    ∃ reg mem, Switch.step ctx s (.swtch c new) =
        some (.ok ⟨mem, update s.hart c { s.hart c with reg := reg, pc := reg .ra },
        update s.cur c new⟩) ∧
      (∀ x ∈ context, mem (slot (ctx (s.cur c)) x.2) = (s.hart c).reg x.1) ∧
      (∀ k, k ≠ s.cur c → ∀ x ∈ context, mem (slot (ctx k) x.2) = s.mem (slot (ctx k) x.2)) ∧
      ∀ x ∈ context, reg x.1 = s.mem (slot (ctx new) x.2) := by
  obtain ⟨reg, mem, hrun, hold, hother, hnew⟩ := run_swtch (m := ⟨{ s.hart c with
    reg := update (update (s.hart c).reg .a0 (ctx (s.cur c))) .a1 (ctx new) }, s.mem⟩) hp (hfree c)
      rfl rfl
  refine ⟨reg, mem, ?_, fun x hx => (hold x hx).trans ?_, hother, hnew⟩
  · rw [Switch.step, if_pos hfree, hrun]
  · have hx' := (by decide : ∀ x ∈ context, x.1 ≠ .a0 ∧ x.1 ≠ .a1) x hx
    exact (update_of_ne hx'.2 ..).trans (update_of_ne hx'.1 ..)

/-- **Every step is one of the abstract system**, and none faults. -/
theorem Sim.step (hp : Placed ctx) (hsim : Sim ctx s v) {a : Act K C} {r : Except Unit (Sys K C)}
    (hok : Allowed ctx s a) (hs : Switch.step ctx s a = some r) :
    ∃ s' v', r = .ok s' ∧ v.step a = some (.ok v') ∧ Sim ctx s' v' := by
  cases a with
  | work c h mem =>
    cases hs
    refine ⟨_, _, rfl, rfl, hsim.cur, hsim.inj, fun c1 x hx => ?_, fun k hk x hx => ?_⟩
    · by_cases hc : c1 = c
      · simp [hc, hsim.cur]
      · simpa [hc, hsim.cur, hsim.inj.ne hc] using hsim.running c1 x hx
    · refine (hok k x hx).trans ((hsim.saved k hk x hx).trans ?_)
      simp [hsim.cur, (hk c).symm]
  | swtch c new =>
    have hfree := (Option.ite_none_right_eq_some.1 hs).1
    obtain ⟨reg, mem, heq, hold, hother, hnew⟩ := step_swtch (c := c) hp _ hfree
    cases heq.symm.trans hs
    refine ⟨_, _, rfl, rfl, congrArg (update · c new) hsim.cur, ?_, fun c1 x hx => ?_,
      fun k hk x hx => ?_⟩
    · intro c1 c2 heq
      by_cases h1 : c1 = c <;> by_cases h2 : c2 = c <;> simp_all [hsim.inj.eq_iff]
    · by_cases hc : c1 = c
      · simpa [hc] using (hnew x hx).trans (hsim.saved new hfree x hx)
      · simpa [hc] using hsim.running c1 x hx
    · have hkc : ∀ c', c' ≠ c → s.cur c' ≠ k := fun c' hc' => by simpa [hc'] using hk c'
      by_cases hkj : k = s.cur c
      · subst hkj
        exact (hold x hx).trans (hsim.running c x hx)
      · refine (hother k hkj x hx).trans (hsim.saved k (fun c' => ?_) x hx)
        by_cases hc' : c' = c
        · exact hc' ▸ Ne.symm hkj
        · exact hkc c' hc'

/-- **A kernel thread keeps its registers.**  Whichever threads run on which harts and in whichever
order they switch to each other: a thread that a hart runs has the `ra`, the `sp` and the
callee-saved registers that it had itself when it last ran, a switch to it returns to its `ra`, and
`swtch` never faults. -/
theorem threads_preserved {s0 : Sys K C} {v0 : Virt K C} {as : List (Act K C)} (hp : Placed ctx)
    (h0 : Sim ctx s0 v0) (hrun : Runs.Trace (Switch.step ctx) (Allowed ctx) s0 as s) :
    ∃ v, Runs.exec Virt.step (fun _ _ => True) v0 as = some v ∧ v.cur = s.cur ∧
      (∀ c, ∀ x ∈ context, (s.hart c).reg x.1 = v.reg (s.cur c) x.1) ∧
      (∀ c new s', Switch.step ctx s (.swtch c new) = some (.ok s') →
      (s'.hart c).pc = v.reg new .ra) ∧ ∀ a r, Allowed ctx s a → Switch.step ctx s a = some r →
      ∃ s', r = .ok s' := by
  obtain ⟨v, hv, hsim, hok⟩ := hrun.simulation h0 fun _ _ _ _ hsim => hsim.step hp
  refine ⟨v, hv, hsim.cur, hsim.running, fun c new s' hs => ?_, hok⟩
  have hfree := (Option.ite_none_right_eq_some.1 hs).1
  obtain ⟨reg, mem, heq, -, -, hnew⟩ := step_swtch (c := c) hp _ hfree
  cases heq.symm.trans hs
  have hra : (.ra, 0) ∈ context := by decide
  exact (congrArg Hart.pc (update_self ..)).trans ((hnew _ hra).trans (hsim.saved new hfree _ hra))

/-- A hart of the examples, where each register has its own value. -/
def hartFrom (n : ℕ) : Hart :=
  ⟨fun r => BitVec.ofNat 64 (n + 8 * r.ctorIdx), 0, 0, 0, 0, 0, 0, false, false, false, false⟩

/-- Two threads on one hart: the first one switches to the other one, which changes all registers
and switches back. -/
theorem threads_preserved_back : ∃ (ctx : Bool → Word) (s0 s : Sys Bool Unit) (mem : Word → Word),
    Runs.Trace (Switch.step ctx) (Allowed ctx) s0
      [.swtch () true, .work () (hartFrom 2000) mem, .swtch () false] s ∧
      s0.hart () = hartFrom 1000 ∧ ∀ x ∈ context, (s.hart ()).reg x.1 =
      (hartFrom 1000).reg x.1 := by
  let ctx : Bool → Word := fun k => if k then 0 else 112
  let s0 : Sys Bool Unit := ⟨fun _ => 0, fun _ => hartFrom 1000, fun _ => false⟩
  have hp : Placed ctx := ⟨by decide, by decide, by decide⟩
  have hsim : Sim ctx s0 ⟨fun k => if k then fun _ => 0 else (hartFrom 1000).reg,
      fun _ => false⟩ := by
    refine ⟨rfl, fun _ _ _ => rfl, fun _ _ _ => rfl, fun k hk _ _ => ?_⟩
    cases k
    · exact absurd rfl (hk ())
    · rfl
  obtain ⟨reg1, mem1, h1, -⟩ := step_swtch (s := s0) (c := ()) hp true (by decide)
  obtain ⟨reg2, mem2, h2, -⟩ := step_swtch (c := ()) hp false
    (s := ⟨mem1, update (update s0.hart () { s0.hart () with reg := reg1, pc := reg1 .ra }) ()
      (hartFrom 2000), update s0.cur () true⟩) (fun _ h => by cases h)
  have hrun : Runs.Trace (Switch.step ctx) (Allowed ctx) s0
      [.swtch () true, .work () (hartFrom 2000) mem1, .swtch () false] _ :=
    .cons trivial h1 (.cons (fun _ _ _ => rfl) rfl (.cons trivial h2 .nil))
  obtain ⟨v, hv, -, hreg, -⟩ := threads_preserved hp hsim hrun
  cases hv
  exact ⟨ctx, s0, _, mem1, hrun, rfl, fun x hx => hreg () x hx⟩

/-! ### Interrupts -/

/-- The registers that `kernelvec` saves on the stack, and where. -/
def onStack : List (Reg × ℕ) :=
  [(.ra, 0), (.sp, 8), (.gp, 16), (.tp, 24), (.t0, 32), (.t1, 40), (.t2, 48), (.a0, 72), (.a1, 80),
    (.a2, 88), (.a3, 96), (.a4, 104), (.a5, 112), (.a6, 120), (.a7, 128), (.t3, 216), (.t4, 224),
    (.t5, 232), (.t6, 240)]

/-- `kernelvec` up to its call of `kerneltrap`. -/
def kernelvecEnter : List Instr := .addi .sp .sp (-256) :: saves onStack .sp

/-- `kernelvec` after the call; `tp` is not restored. -/
def kernelvecLeave : List Instr :=
  loads (onStack.filter (·.1 ≠ .tp)) .sp ++ [.addi .sp .sp 256, .sret]

/-- **An interrupt is not seen by the kernel code that it interrupts**, also if `kerneltrap` gives
up the hart and goes on at another one: if it keeps the registers that the calling convention
preserves, and what is on the stack, then all registers come back but `tp`, which is that of the
hart. -/
theorem interrupt_transparent (halign : (m.hart.reg .sp).toNat % 8 = 0) :
    ∃ m1, run kernelMap kernelvecEnter m = some m1 ∧
      ∀ m2 : Machine Word, (∀ r, r = .sp ∨ r ∉ onStack.map Prod.fst →
        m2.hart.reg r = m1.hart.reg r) → (∀ x ∈ onStack, m2.mem (slot (m1.hart.reg .sp) x.2) =
        m1.mem (slot (m1.hart.reg .sp) x.2)) → ∃ m3, run kernelMap kernelvecLeave m2 = some m3 ∧
          m3.mem = m2.mem ∧ m3.hart.pc = m2.hart.sepc ∧ m3.hart.reg .tp = m2.hart.reg .tp ∧
          ∀ r, r ≠ .tp → m3.hart.reg r = m.hart.reg r := by
  obtain ⟨b, hb⟩ : ∃ b, b = m.hart.reg .sp + -256 := ⟨_, rfl⟩
  have hb8 : b.toNat % 8 = 0 := by
    rw [hb, BitVec.toNat_add, show (-256 : Word).toNat = 2 ^ 64 - 256 from rfl]
    omega
  have haddr : ∀ h : Hart, h.reg .sp = b → ∀ x ∈ onStack, h.addr kernelMap .sp x.2 =
    some (slot b x.2) :=
    fun h hsp x hx => addr_slot hsp hb8 ((by decide : ∀ x ∈ onStack, x.2 % 8 = 0) x hx)
  obtain ⟨mem, hsave, hin, -⟩ := run_saves (m := ⟨{ m.hart with reg := update m.hart.reg .sp b },
    m.mem⟩) (haddr _ rfl) (nodup_slots (by decide) b)
  rw [kernelvecEnter, run, exec, Option.bind_some, ← hb]
  refine ⟨_, hsave, fun m2 hkeep hstack => ?_⟩
  replace hstack : ∀ x ∈ onStack, m2.mem (slot b x.2) = mem (slot b x.2) := hstack
  have hsp : m2.hart.reg .sp = b := hkeep .sp (.inl rfl)
  obtain ⟨reg, hload, hreg, hother⟩ := run_loads
    (fun x (hx : x ∈ onStack.filter (·.1 ≠ .tp)) => haddr m2.hart hsp x (List.mem_of_mem_filter hx))
    (by decide) fun x hx h => by
      have hx' := List.mem_of_mem_filter hx
      rw [hstack x hx', hin x hx', hsp, h]
      rfl
  have hback : ∀ r, r ≠ .tp → reg r = update m.hart.reg .sp b r := by
    intro r hr
    by_cases hmem : r ∈ onStack.map Prod.fst
    · obtain ⟨x, hx, rfl⟩ := List.mem_map.1 hmem
      rw [hreg x (List.mem_filter.2 ⟨hx, decide_eq_true hr⟩), hstack x hx, hin x hx]
    · refine (hother r fun h => hmem ?_).trans (hkeep r (.inr hmem))
      exact List.map_subset _ (List.filter_subset_self _) h
  refine ⟨{ m2 with hart := { m2.hart with reg := update reg .sp (reg .sp + 256) }.sret }, ?_, rfl,
    rfl, hother .tp (by decide), fun r hr => ?_⟩
  · rw [kernelvecLeave, run_append, hload]
    rfl
  · show update reg .sp (reg .sp + 256) r = _
    by_cases hrsp : r = .sp
    · rw [hrsp, update_self, hback .sp (by decide), update_self, hb, neg_add_cancel_right]
    · rw [update_of_ne hrsp, hback r hr, update_of_ne hrsp]

/-- An interrupt whose handler changes a temporary register and returns to 4. -/
theorem interrupt_transparent_temp : ∃ m1 m3 : Machine Word,
    run kernelMap kernelvecEnter ⟨hartFrom 1000, fun _ => 0⟩ = some m1 ∧
      run kernelMap kernelvecLeave { m1 with hart.reg := update m1.hart.reg .t0 5, hart.sepc := 4 }
      = some m3 ∧ m3.hart.pc = 4 ∧ ∀ r, r ≠ .tp → m3.hart.reg r = (hartFrom 1000).reg r := by
  obtain ⟨m1, henter, hback⟩ := interrupt_transparent (m := ⟨hartFrom 1000, fun _ => 0⟩) (by decide)
  obtain ⟨m3, hleave, -, hpc, -, hreg⟩ := hback
    { m1 with hart.reg := update m1.hart.reg .t0 5, hart.sepc := 4 }
    (fun r hr => update_of_ne (by rintro rfl; revert hr; decide) ..) (fun _ _ => rfl)
  exact ⟨m1, m3, henter, hleave, hpc, hreg⟩

end Switch

end CsklubOs
