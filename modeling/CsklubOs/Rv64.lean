/-
**Straight-line code of a 64-bit RISC-V machine.**

The instructions that save, restore and exchange registers, on one hart and the memory that it
reaches through its page table.  Memory is a function of the place of a doubleword; an access that
is not aligned or not mapped faults, and the code that follows is not run.

Main definitions:

* `Machine`, `Instr`, `run` — the machine and its code;
* `saves`, `loads` — blocks that store registers at offsets from a base, or load them from there.

Main results:

* `run_saves`, `run_loads` — what they do, for all lists of registers; a load may also be into the
  base itself, if it finds the value that the base has.
-/

import Mathlib

set_option autoImplicit false

open Function List

namespace Rv64

/-- The registers without `zero`. -/
inductive Reg
  | ra | sp | gp | tp | t0 | t1 | t2 | s0 | s1 | a0 | a1 | a2 | a3 | a4 | a5 | a6 | a7
  | s2 | s3 | s4 | s5 | s6 | s7 | s8 | s9 | s10 | s11 | t3 | t4 | t5 | t6
  deriving DecidableEq

abbrev Word := BitVec 64

/-- A hart: its registers, and the control registers for traps.  `user` is the privilege; `spp`,
`spie` and `sie` are the bits of `sstatus`. -/
structure Hart where
  reg : Reg → Word
  pc : Word
  sscratch : Word
  satp : Word
  sepc : Word
  scause : Word
  stvec : Word
  user : Bool
  spp : Bool
  spie : Bool
  sie : Bool

/-- A hart and the physical memory, whose places are `A`. -/
structure Machine (A : Type) where
  hart : Hart
  mem : A → Word

inductive Instr
  | sd (rs : Reg) (off : ℕ) (base : Reg)
  | ld (rd : Reg) (off : ℕ) (base : Reg)
  | li (rd : Reg) (v : Word)
  | addi (rd rs : Reg) (v : Word)
  | csrwSscratch (rs : Reg)
  | csrrSscratch (rd : Reg)
  | csrwSatp (rs : Reg)
  | sfence
  | jr (rs : Reg)
  | sret

/-- What the hart does when a trap is taken to supervisor mode. -/
def Hart.trap (h : Hart) (cause : Word) : Hart :=
  { h with sepc := h.pc, scause := cause, spp := !h.user, spie := h.sie, sie := false,
           user := false, pc := h.stvec }

/-- `sret`. -/
def Hart.sret (h : Hart) : Hart :=
  { h with pc := h.sepc, user := !h.spp, sie := h.spie, spie := true, spp := false }

section

-- the place of a virtual address, for a value of `satp`
variable {A : Type} (mmu : Word → Word → Option A)

/-- The doubleword at an offset from a register. -/
def Hart.addr (h : Hart) (base : Reg) (off : ℕ) : Option A :=
  if (h.reg base + BitVec.ofNat 64 off).toNat % 8 =
    0 then mmu h.satp (h.reg base + BitVec.ofNat 64 off)
  else none

variable [DecidableEq A]

def exec (m : Machine A) : Instr → Option (Machine A)
  | .sd rs off base => (m.hart.addr mmu base off).map fun a =>
    { m with mem := update m.mem a (m.hart.reg rs) }
  | .ld rd off base =>
    (m.hart.addr mmu base off).map fun a => { m with hart.reg := update m.hart.reg rd (m.mem a) }
  | .li rd v => some { m with hart.reg := update m.hart.reg rd v }
  | .addi rd rs v => some { m with hart.reg := update m.hart.reg rd (m.hart.reg rs + v) }
  | .csrwSscratch rs => some { m with hart.sscratch := m.hart.reg rs }
  | .csrrSscratch rd => some { m with hart.reg := update m.hart.reg rd m.hart.sscratch }
  | .csrwSatp rs => some { m with hart.satp := m.hart.reg rs }
  | .sfence => some m
  | .jr rs => some { m with hart.pc := m.hart.reg rs }
  | .sret => some { m with hart := m.hart.sret }

/-- Running a list of instructions. -/
def run : List Instr → Machine A → Option (Machine A)
  | [], m => some m
  | i :: code, m => (exec mmu m i).bind (run code)

end

def saves (tbl : List (Reg × ℕ)) (base : Reg) : List Instr := tbl.map fun x => .sd x.1 x.2 base

def loads (tbl : List (Reg × ℕ)) (base : Reg) : List Instr := tbl.map fun x => .ld x.1 x.2 base

variable {A : Type} [DecidableEq A] {mmu : Word → Word →
  Option A} {tbl : List (Reg × ℕ)} {base : Reg} {pa : ℕ → A} {m : Machine A}

theorem run_append {c d : List Instr} : run mmu (c ++ d) m = (run mmu c m).bind (run mmu d) := by
  induction c generalizing m with
  | nil => rfl
  | cons i c ih =>
    rw [cons_append, run, run, Option.bind_assoc]
    exact congrArg _ (funext fun _ => ih)

theorem run_sd {rs : Reg} {off : ℕ} {a : A} {code : List Instr}
    (h : m.hart.addr mmu base off = some a) :
    run mmu (.sd rs off base :: code) m = run mmu code
    { m with mem := update m.mem a (m.hart.reg rs) } := by
  rw [run, exec, h, Option.map_some, Option.bind_some]

theorem run_ld {rd : Reg} {off : ℕ} {a : A} {code : List Instr}
    (h : m.hart.addr mmu base off = some a) :
    run mmu (.ld rd off base :: code) m =
      run mmu code { m with hart.reg := update m.hart.reg rd (m.mem a) } := by
  rw [run, exec, h, Option.map_some, Option.bind_some]

/-- **A block of stores** writes each register at its place, and nothing else. -/
theorem run_saves (hpa : ∀ x ∈ tbl, m.hart.addr mmu base x.2 = some (pa x.2))
    (hnd : (tbl.map fun x => pa x.2).Nodup) :
    ∃ mem, run mmu (saves tbl base) m = some { m with mem := mem } ∧
      (∀ x ∈ tbl, mem (pa x.2) = m.hart.reg x.1) ∧ ∀ a, (∀ x ∈ tbl, a ≠ pa x.2) →
      mem a = m.mem a := by
  induction tbl generalizing m with
  | nil => exact ⟨m.mem, rfl, by simp, fun _ _ => rfl⟩
  | cons x tbl ih =>
    rw [map_cons, nodup_cons] at hnd
    rw [forall_mem_cons] at hpa
    obtain ⟨mem, hrun, hin, hout⟩ :=
      ih (m := { m with mem := update m.mem (pa x.2) (m.hart.reg x.1) }) hpa.2 hnd.2
    have hx : ∀ y ∈ tbl, pa x.2 ≠ pa y.2 := fun y hy h => hnd.1 (mem_map.2 ⟨y, hy, h.symm⟩)
    refine ⟨mem, ?_, ?_, fun a ha => ?_⟩
    · rw [saves, map_cons, run_sd hpa.1]
      exact hrun
    · rw [forall_mem_cons]
      exact ⟨(hout _ hx).trans (update_self ..), hin⟩
    · rw [forall_mem_cons] at ha
      exact (hout a ha.2).trans (update_of_ne ha.1 ..)

/-- **A block of loads** fills each register from its place, and no other. -/
theorem run_loads (hpa : ∀ x ∈ tbl, m.hart.addr mmu base x.2 = some (pa x.2))
    (hnd : (tbl.map Prod.fst).Nodup)
    (hbase : ∀ x ∈ tbl, x.1 = base → m.mem (pa x.2) = m.hart.reg base) :
    ∃ reg, run mmu (loads tbl base) m = some { m with hart.reg := reg } ∧
      (∀ x ∈ tbl, reg x.1 = m.mem (pa x.2)) ∧ ∀ r ∉ tbl.map Prod.fst, reg r = m.hart.reg r := by
  induction tbl generalizing m with
  | nil => exact ⟨m.hart.reg, rfl, by simp, fun _ _ => rfl⟩
  | cons x tbl ih =>
    rw [map_cons, nodup_cons] at hnd
    rw [forall_mem_cons] at hpa hbase
    -- the base keeps its value, also if it is loaded
    have hkeep : update m.hart.reg x.1 (m.mem (pa x.2)) base = m.hart.reg base := by
      by_cases hx : x.1 = base
      · rw [hx, update_self, hbase.1 hx]
      · exact update_of_ne (Ne.symm hx) ..
    obtain ⟨reg, hrun, hin, hout⟩ :=
      ih (m := { m with hart.reg := update m.hart.reg x.1 (m.mem (pa x.2)) })
        (fun y hy => by simpa only [Hart.addr, hkeep] using hpa.2 y hy) hnd.2
        (fun y hy h => (hbase.2 y hy h).trans hkeep.symm)
    refine ⟨reg, ?_, ?_, fun r hr => ?_⟩
    · rw [loads, map_cons, run_ld hpa.1]
      exact hrun
    · rw [forall_mem_cons]
      exact ⟨(hout _ hnd.1).trans (update_self ..), hin⟩
    · rw [map_cons, mem_cons, not_or] at hr
      exact (hout r hr.2).trans (update_of_ne hr.1 ..)

end Rv64
