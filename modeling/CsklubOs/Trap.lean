/-
**Traps from user mode, and the registers of a process.**

`uservec` and `userret` of `kernel/trampoline.S`, instruction by instruction, with `usertrap` and
`usertrapret` of `kernel/trap.c` between them, and what `syscall`, `exec` and `fork` do to the
trapframe.  The system is one process among the others: in the kernel it may be taken off its hart
and go on at another one.  User code and the rest of the kernel are arbitrary, except that only the
code above writes to the trapframe, and that the kernel keeps `tp` and its page table.

The abstract process has no hart and no trapframe.  It has registers and a program counter of its
own; a trap changes neither, and a system call returns its value in `a0` behind the `ecall`.  The
kernel simulates it: in user mode the registers are those of the hart, and otherwise they are in the
trapframe, from where `userret` loads them.

Main definitions:

* `Trap.uservec`, `Trap.userret` — the trampoline;
* `Trap.Sys.step` — the process with its hart and its trapframe;
* `Trap.Virt.step` — the abstract one.

Main results:

* `Trap.Sim.step` — every step of the kernel is one of the abstract process;
* `Trap.registers_private` — the registers of a process are its own;
* `Trap.trap_entry` — what a trap enters the kernel with.
-/

import CsklubOs.Params
import CsklubOs.Runs
import CsklubOs.Rv64

set_option autoImplicit false

open Function List Option

namespace CsklubOs

open Rv64

namespace Trap

/-! ### The code -/

/-- The registers that `uservec` saves and `userret` restores, in this order, and where. -/
def userRegs : List (Reg × ℕ) :=
  [(.ra, 40), (.sp, 48), (.gp, 56), (.tp, 64), (.t0, 72), (.t1, 80), (.t2, 88), (.s0, 96),
    (.s1, 104), (.a1, 120), (.a2, 128), (.a3, 136), (.a4, 144), (.a5, 152), (.a6, 160), (.a7, 168),
    (.s2, 176), (.s3, 184), (.s4, 192), (.s5, 200), (.s6, 208), (.s7, 216), (.s8, 224), (.s9, 232),
    (.s10, 240), (.s11, 248), (.t3, 256), (.t4, 264), (.t5, 272), (.t6, 280)]

/-- `TRAPFRAME`. -/
@[irreducible] def frameVa : Word := BitVec.ofNat 64 trapframe

/-- The end of `uservec`. -/
def enter : List Instr :=
  [.ld .sp 8 .a0, .ld .tp 32 .a0, .ld .t0 16 .a0, .ld .t1 0 .a0, .sfence, .csrwSatp .t1, .sfence,
    .jr .t0]

def uservec : List Instr :=
  [.csrwSscratch .a0, .li .a0 frameVa] ++ (saves userRegs .a0 ++
    .csrrSscratch .t0 :: .sd .t0 112 .a0 :: enter)

def userret : List Instr :=
  [.sfence, .csrwSatp .a0, .sfence, .li .a0 frameVa] ++
    (loads userRegs .a0 ++ [.ld .a0 112 .a0, .sret])

/-- Where `struct trapframe` has a register; its fields are in the order of the numbers of the
registers. -/
def offset (r : Reg) : ℕ := 40 + 8 * r.ctorIdx

/-- What the kernel has set up for the process: the addresses of its code, `p->kstack`, and the page
tables that `proc_pagetable` makes for it, which all map its trapframe at `TRAPFRAME`. -/
class Setup where
  kernelSatp : Word
  uservecVa : Word
  usertrapVa : Word
  kernelvecVa : Word
  kstack : Word
  Table : Type
  /-- `MAKE_SATP(pagetable)`. -/
  satp : Table → Word
  mmu : Word → Word → Option ℕ
  mapped : ∀ t o, o < pgSize → mmu (satp t) (frameVa + BitVec.ofNat 64 o) = some o

open Setup

/-- The harts. -/
abbrev Cpu := Fin 8

/-- `r_tp()` on hart `c`. -/
def hartid (c : Cpu) : Word := BitVec.ofNat 64 c

/-- Where the process is: in user mode, in a system call, on its way to `usertrapret`, or to
`exit`. -/
inductive Phase
  | user | call | done | doomed
  deriving DecidableEq

/-- Where `usertrap` goes for a value of `scause`. -/
def dispatch (cause : Word) : Phase :=
  if cause = 8 then .call
  else if cause = 0x8000000000000009 ∨ cause = 0x8000000000000005 then .done else .doomed

inductive Stop
  | fault | panic

/-- The trapframe by offsets, `p->pagetable`, the hart that the process is on, and where it is. -/
structure Sys [Setup] where
  frame : ℕ → Word
  table : Table
  cpu : Option (Cpu × Hart)
  phase : Phase

inductive Act [Setup]
  /-- Instructions in user mode. -/
  | user (reg : Reg → Word) (pc : Word)
  /-- Other code of the kernel. -/
  | work (h : Hart)
  | swtchOut
  | swtchIn (c : Cpu) (h : Hart)
  | trap (cause : Word)
  | syscall (r : Word)
  | exec (table : Table) (entry sp argc : Word)
  | usertrapret

/-- Hart `c` while it is in the kernel. -/
structure InKernel [Setup] (c : Cpu) (h : Hart) : Prop where
  user : h.user = false
  satp : h.satp = kernelSatp
  tp : h.reg .tp = hartid c

namespace Sys

variable [Setup]

/-- A trap: `uservec`, and `usertrap` up to its dispatch. -/
def usertrap (s : Sys) (c : Cpu) (h : Hart) : Except Stop Sys :=
  if h.pc ≠ uservecVa then .error .fault
  else match run mmu uservec ⟨h, s.frame⟩ with
    | none => .error .fault
    | some ⟨h, frame⟩ =>
      if h.pc ≠ usertrapVa then .error .fault
      else if h.spp then .error .panic
      else .ok
        { s with
          frame := update frame 24 (if h.scause = 8 then h.sepc + 4 else h.sepc)
          cpu := some (c, { h with stvec := kernelvecVa, sie := decide (h.scause = 8) })
          phase := dispatch h.scause }

/-- The values that `usertrapret` sets up for the next trap. -/
def prepare (frame : ℕ → Word) (h : Hart) : ℕ → Word :=
  update (update (update (update frame 0 h.satp) 8 (kstack + BitVec.ofNat 64 pgSize)) 16 usertrapVa)
    32 (h.reg .tp)

/-- `usertrapret`, and `userret`. -/
def usertrapret (s : Sys) (c : Cpu) (h : Hart) : Except Stop Sys :=
  match run mmu userret ⟨{ h with
      sie := false, stvec := uservecVa, spp := false, spie := true, sepc := prepare s.frame h 24
      reg := update h.reg .a0 (satp s.table) }, prepare s.frame h⟩ with
  | none => .error .fault
  | some m => .ok ⟨m.mem, s.table, some (c, m.hart), .user⟩

def step (s : Sys) : Act → Option (Except Stop Sys)
  | .user reg pc =>
    if s.phase = .user then s.cpu.map fun x => .ok
      { s with cpu := some (x.1, { x.2 with reg := reg, pc := pc }) }
    else none
  | .work h => if s.phase ≠ .user then s.cpu.map fun x => .ok
    { s with cpu := some (x.1, h) } else none
  | .swtchOut => if s.phase ≠ .user then some (.ok { s with cpu := none }) else none
  | .swtchIn c h => if s.cpu = none then some (.ok { s with cpu := some (c, h) }) else none
  | .trap cause => if s.phase = .user then s.cpu.map fun x =>
    s.usertrap x.1 (x.2.trap cause) else none
  | .syscall r =>
    if s.phase = .call then some (.ok { s with frame := update s.frame 112 r, phase := .done }) else
      none
  | .exec table entry sp argc =>
    if s.phase = .call then
      some (.ok { s with
        frame := update (update (update (update s.frame 120 sp) 24 entry) 48 sp) 112 argc
        table := table, phase := .done })
    else none
  | .usertrapret => if s.phase = .done then s.cpu.map fun x => s.usertrapret x.1 x.2 else none

/-- What is assumed of the code that is not modelled. -/
def Allowed (s : Sys) : Act → Prop
  | .work h => ∀ x ∈ s.cpu, h.user = x.2.user ∧ h.satp = x.2.satp ∧ h.reg .tp = x.2.reg .tp
  | .swtchIn c h => InKernel c h
  | _ => True

/-- A process that has not run yet, with the trapframe that `userinit` or `fork` has made. -/
def start (frame : ℕ → Word) (table : Table) : Sys := ⟨frame, table, none, .done⟩

end Sys

/-- `*(np->trapframe) = *(p->trapframe)`, and `np->trapframe->a0 = 0`. -/
def forkFrame (frame : ℕ → Word) : ℕ → Word := update frame 112 0

/-- The abstract process. -/
structure Virt where
  reg : Reg → Word
  pc : Word
  phase : Phase

namespace Virt

def step [Setup] (v : Virt) : Act → Option (Except Stop Virt)
  | .user reg pc => if v.phase = .user then some (.ok ⟨reg, pc, .user⟩) else none
  | .trap cause => if v.phase = .user then some (.ok { v with phase := dispatch cause }) else none
  | .syscall r => if v.phase = .call then some (.ok ⟨update v.reg .a0 r, v.pc + 4, .done⟩) else none
  | .exec _ entry sp argc =>
    if v.phase = .call then
      some (.ok ⟨update (update (update v.reg .a1 sp) .sp sp) .a0 argc, entry, .done⟩)
    else none
  | .usertrapret => if v.phase = .done then some (.ok { v with phase := .user }) else none
  | _ => some (.ok v)

end Virt

/-! ### What the trampoline does -/

/-- The registers in a trapframe. -/
def frameReg (frame : ℕ → Word) (r : Reg) : Word := frame (offset r)

theorem offset_inj : offset.Injective := by
  intro r r' h
  have hidx : r.ctorIdx = r'.ctorIdx := by
    unfold offset at h
    omega
  rw [← Reg.ofNat_ctorIdx r, hidx, Reg.ofNat_ctorIdx]

theorem offset_bounds (r : Reg) : 40 ≤ offset r ∧ offset r < 288 ∧ offset r % 8 = 0 := by
  cases r <;> decide

/-- `trampoline.S` and `proc.h` agree on the places. -/
theorem userRegs_offset : ∀ x ∈ userRegs, x.2 = offset x.1 := by
  decide

theorem mem_userRegs {r : Reg} (h : r ≠ .a0) : (r, offset r) ∈ userRegs := by
  cases r <;> first | decide | exact absurd rfl h

theorem frameReg_update {frame : ℕ → Word} (r : Reg) (x : Word) :
    frameReg (update frame (offset r) x) = update (frameReg frame) r x := by
  funext r'
  by_cases hr : r' = r
  · rw [hr, update_self]
    exact update_self ..
  · rw [update_of_ne hr]
    exact update_of_ne (offset_inj.ne hr) ..

theorem frameReg_update_low {frame : ℕ → Word} {o : ℕ} (ho : o < 40) (x : Word) :
    frameReg (update frame o x) = frameReg frame := by
  funext r
  have hr := offset_bounds r
  exact update_of_ne (by omega) ..

section

variable [Setup] {m : Machine ℕ} {t : Table}

theorem addr_frame {h : Hart} {o : ℕ} (hsatp : h.satp = satp t) (ha0 : h.reg .a0 = frameVa)
    (ho : o < 288) (ho8 : o % 8 = 0) : h.addr mmu .a0 o = some o := by
  have halign : (frameVa + BitVec.ofNat 64 o).toNat % 8 = 0 := by
    have hva : frameVa.toNat % 8 = 0 := by
      unfold frameVa
      decide
    rw [BitVec.toNat_add, BitVec.toNat_ofNat]
    omega
  rw [Hart.addr, ha0, hsatp, if_pos halign, mapped t o (ho.trans (by decide))]

theorem addr_userRegs {h : Hart} (hsatp : h.satp = satp t) (ha0 : h.reg .a0 = frameVa) :
    ∀ x ∈ userRegs, h.addr mmu .a0 x.2 = some (id x.2) := by
  intro x hx
  have hb := offset_bounds x.1
  rw [← userRegs_offset x hx] at hb
  exact addr_frame hsatp ha0 hb.2.1 hb.2.2

theorem run_enter (hsatp : m.hart.satp = satp t) (ha0 : m.hart.reg .a0 = frameVa) : ∃ reg,
    run mmu enter m =
      some { m with hart := { m.hart with reg := reg, satp := m.mem 0, pc := m.mem 16 } } ∧
    reg .sp = m.mem 8 ∧ reg .tp = m.mem 32 := by
  refine ⟨?reg, ?run, ?_, ?_⟩
  case run =>
    rw [enter, run_ld (a := 8), run_ld (a := 32), run_ld (a := 16), run_ld (a := 0)]
    · rfl
    all_goals exact addr_frame hsatp ha0 (by decide) (by decide)
  · rfl
  · rfl

/-- **`uservec`** saves all registers, and enters the kernel with what the trapframe says. -/
theorem run_uservec (hsatp : m.hart.satp = satp t) : ∃ reg frame, run mmu uservec m =
      some ⟨{ m.hart with reg := reg, sscratch := m.hart.reg .a0, satp := m.mem 0, pc := m.mem 16 },
      frame⟩ ∧
    reg .sp = m.mem 8 ∧ reg .tp = m.mem 32 ∧ frameReg frame = m.hart.reg := by
  obtain ⟨frame, hrun, hin, hout⟩ := run_saves (m := ⟨{ m.hart with
      sscratch := m.hart.reg .a0, reg := update m.hart.reg .a0 frameVa }, m.mem⟩)
    (addr_userRegs hsatp rfl) (by decide)
  have hlow : ∀ o, o < 40 → update frame 112 (m.hart.reg .a0) o = m.mem o := by
    intro o ho
    refine (update_of_ne (by omega) ..).trans (hout o fun x hx => ?_)
    have hb := offset_bounds x.1
    rw [id, userRegs_offset x hx]
    omega
  -- `t0` has been saved, and takes the place of `a0`
  obtain ⟨reg, henter, hsp, htp⟩ := run_enter hsatp rfl
    (m := ⟨{ m.hart with
      sscratch := m.hart.reg .a0, reg := update (update m.hart.reg .a0 frameVa) .t0 (m.hart.reg .a0)
        },
      update frame 112 (m.hart.reg .a0)⟩)
  refine ⟨reg, update frame 112 (m.hart.reg .a0), ?_, hsp.trans (hlow 8 (by decide)),
    htp.trans (hlow 32 (by decide)), ?_⟩
  · rw [uservec, cons_append, cons_append, nil_append]
    iterate 2 rw [run, exec, bind_some]
    rw [run_append]
    refine (congrArg (Option.bind · (run mmu (.csrrSscratch .t0 :: .sd .t0 112 .a0 :: enter)))
      hrun).trans ?_
    rw [bind_some, run, exec, bind_some, run_sd (a := 112), ← hlow 0 (by decide),
      ← hlow 16 (by decide)]
    · exact henter
    · exact addr_frame hsatp rfl (by decide) (by decide)
  · refine (frameReg_update .a0 _).trans (funext fun r => ?_)
    by_cases hr : r = .a0
    · rw [hr, update_self]
    · exact (update_of_ne hr ..).trans ((hin _ (mem_userRegs hr)).trans (update_of_ne hr ..))

/-- **`userret`** loads all registers from the trapframe. -/
theorem run_userret (ha0 : m.hart.reg .a0 = satp t) : run mmu userret m =
    some { m with hart := { m.hart with reg := frameReg m.mem, satp := satp t }.sret } := by
  obtain ⟨reg, hrun, hin, hout⟩ := run_loads (m := ⟨{ m.hart with
      satp := m.hart.reg .a0, reg := update m.hart.reg .a0 frameVa }, m.mem⟩)
    (addr_userRegs ha0 rfl) (by decide)
    (fun x hx h => absurd (show .a0 ∈ userRegs.map Prod.fst from h ▸ mem_map_of_mem hx) (by decide))
  have hbase : reg .a0 = frameVa := hout .a0 (by decide)
  have hreg : update reg .a0 (m.mem 112) = frameReg m.mem := by
    funext r
    by_cases hr : r = .a0
    · rw [hr]
      rfl
    · exact (update_of_ne hr ..).trans (hin _ (mem_userRegs hr))
  rw [userret, cons_append, cons_append, cons_append, cons_append, nil_append]
  iterate 4 rw [run, exec, bind_some]
  rw [run_append]
  refine (congrArg (Option.bind · (run mmu [.ld .a0 112 .a0, .sret])) hrun).trans ?_
  rw [bind_some, run_ld (a := 112)]
  · rw [← hreg, ← ha0]
    rfl
  · exact addr_frame ha0 hbase (by decide) (by decide)

end

/-! ### The simulation -/

section

variable [Setup] {s : Sys} {v : Virt} {c : Cpu} {h : Hart}

/-- Hart `c` runs the process in user mode, and a trap will find what it needs. -/
structure InUser (frame : ℕ → Word) (t : Table) (c : Cpu) (h : Hart) : Prop where
  user : h.user = true
  satp : h.satp = satp t
  stvec : h.stvec = uservecVa
  kernelSatp : frame 0 = kernelSatp
  kernelSp : frame 8 = kstack + BitVec.ofNat 64 pgSize
  kernelTrap : frame 16 = usertrapVa
  kernelHartid : frame 32 = hartid c

/-- **A trap** enters the kernel on the stack of the process and with the number of its hart; the
registers are in the trapframe. -/
theorem usertrap_eq (hu : InUser s.frame s.table c h) (cause : Word) : ∃ h' frame,
    s.usertrap c (h.trap cause) =
      .ok ⟨update frame 24 (if cause = 8 then h.pc + 4 else h.pc), s.table, some (c, h'),
        dispatch cause⟩ ∧
    InKernel c h' ∧ h'.pc = usertrapVa ∧ h'.reg .sp = kstack + BitVec.ofNat 64 pgSize ∧
      frameReg frame = h.reg := by
  obtain ⟨reg, frame, hrun, hsp, htp, hframe⟩ := run_uservec (m := ⟨h.trap cause, s.frame⟩) hu.satp
  refine ⟨?h, frame, ?eq, ⟨?_, ?_, ?_⟩, ?_, ?_, hframe⟩
  case eq =>
    have hpc : (h.trap cause).pc = uservecVa := hu.stvec
    rw [Sys.usertrap, if_neg (not_not.2 hpc), hrun]
    refine (if_neg (not_not.2 hu.kernelTrap)).trans ((if_neg ?_).trans ?_)
    · simp [Hart.trap, hu.user]
    · rfl
  · rfl
  · exact hu.kernelSatp
  · exact htp.trans hu.kernelHartid
  · exact hu.kernelTrap
  · exact hsp.trans hu.kernelSp

/-- **The return to user mode** loads the registers that are in the trapframe. -/
theorem usertrapret_eq (hk : InKernel c h) : ∃ frame h',
    s.usertrapret c h = .ok ⟨frame, s.table, some (c, h'), .user⟩ ∧ InUser frame s.table c h' ∧
     h'.reg = frameReg s.frame ∧ h'.pc = s.frame 24 := by
  rw [Sys.usertrapret, run_userret rfl]
  refine ⟨_, _, rfl, ⟨rfl, rfl, rfl, hk.satp, rfl, rfl, hk.tp⟩, ?_, rfl⟩
  show frameReg (Sys.prepare s.frame h) = frameReg s.frame
  unfold Sys.prepare
  iterate 4 rw [frameReg_update_low (by decide)]

/-- **The simulation relation.** -/
structure Sim (s : Sys) (v : Virt) : Prop where
  phase : v.phase = s.phase
  user : s.phase = .user → ∃ c h, s.cpu = some (c, h) ∧ InUser s.frame s.table c h ∧ h.reg = v.reg ∧
    h.pc = v.pc
  kernel : s.phase ≠ .user → ∀ c h, s.cpu = some (c, h) → InKernel c h
  saved : s.phase = .call ∨ s.phase = .done →
    frameReg s.frame = v.reg ∧ s.frame 24 = v.pc + if s.phase = .call then 4 else 0

/-- **Every step is one of the abstract process**, and none faults. -/
theorem Sim.step (hsim : Sim s v) {a : Act} {r : Except Stop Sys} (hok : s.Allowed a)
    (hs : s.step a = some r) : ∃ s' v', r = .ok s' ∧ v.step a = some (.ok v') ∧ Sim s' v' := by
  cases a with
  | user reg pc =>
    obtain ⟨hp, hs⟩ := ite_none_right_eq_some.1 hs
    obtain ⟨c, h, hc, hu, -⟩ := hsim.user hp
    rw [hc] at hs
    cases hs
    refine ⟨_, ⟨reg, pc, .user⟩, rfl, if_pos (hsim.phase.trans hp), hp.symm,
      fun _ => ⟨c, _, rfl, ?_, rfl, rfl⟩, fun hn => absurd hp hn, fun hn => ?_⟩
    · exact ⟨hu.user, hu.satp, hu.stvec, hu.kernelSatp, hu.kernelSp, hu.kernelTrap, hu.kernelHartid⟩
    · simp [hp] at hn
  | work h' =>
    obtain ⟨hp, hs⟩ := ite_none_right_eq_some.1 hs
    obtain ⟨⟨c, h⟩, hc, rfl⟩ := map_eq_some_iff.1 hs
    have hk := hsim.kernel hp c h hc
    obtain ⟨huser, hsatp, htp⟩ := hok (c, h) hc
    refine ⟨_, v, rfl, rfl, hsim.phase, fun hn => absurd hn hp, fun _ c1 h1 heq => ?_, hsim.saved⟩
    cases heq
    exact ⟨huser.trans hk.user, hsatp.trans hk.satp, htp.trans hk.tp⟩
  | swtchOut =>
    obtain ⟨hp, rfl⟩ := Runs.taken hs
    exact ⟨_, v, rfl, rfl, hsim.phase, fun hn => absurd hn hp, fun _ _ _ heq => (by cases heq),
      hsim.saved⟩
  | swtchIn c h =>
    obtain ⟨hc, rfl⟩ := Runs.taken hs
    refine ⟨_, v, rfl, rfl, hsim.phase, fun hn => ?_, fun _ c1 h1 heq => ?_, hsim.saved⟩
    · obtain ⟨c1, h1, hc1, -⟩ := hsim.user hn
      cases hc.symm.trans hc1
    · cases heq
      exact hok
  | trap cause =>
    obtain ⟨hp, hs⟩ := ite_none_right_eq_some.1 hs
    obtain ⟨c, h, hc, hu, hreg, hpc⟩ := hsim.user hp
    rw [hc] at hs
    cases hs
    obtain ⟨h', frame, heq, hk, -, -, hframe⟩ := usertrap_eq hu cause
    refine ⟨_, _, heq, if_pos (hsim.phase.trans hp), rfl, fun hn => ?_, fun _ c1 h1 heq => ?_,
      fun hd => ?_⟩
    · unfold dispatch at hn
      split_ifs at hn
    · cases heq
      exact hk
    · refine ⟨(frameReg_update_low (by decide) _).trans (hframe.trans hreg), ?_⟩
      show update frame 24 _ 24 = v.pc + _
      unfold dispatch at hd ⊢
      split_ifs at hd ⊢ <;> simp_all
  | syscall x =>
    obtain ⟨hp, rfl⟩ := Runs.taken hs
    obtain ⟨hreg, hpc⟩ := hsim.saved (.inl hp)
    rw [if_pos hp] at hpc
    refine ⟨_, _, rfl, if_pos (hsim.phase.trans hp), rfl, by simp,
      fun _ => hsim.kernel (by simp [hp]), fun _ =>
      ⟨(frameReg_update .a0 x).trans (by rw [hreg]), ?_⟩⟩
    simpa using hpc
  | exec table entry sp argc =>
    obtain ⟨hp, rfl⟩ := Runs.taken hs
    obtain ⟨hreg, -⟩ := hsim.saved (.inl hp)
    refine ⟨_, _, rfl, if_pos (hsim.phase.trans hp), rfl, by simp,
      fun _ => hsim.kernel (by simp [hp]), fun _ =>
      ⟨?_, by simp⟩⟩
    rw [← hreg]
    refine (frameReg_update .a0 argc).trans (congrArg (update · _ _) ?_)
    refine (frameReg_update .sp sp).trans (congrArg (update · _ _) ?_)
    exact (frameReg_update_low (by decide) _).trans (frameReg_update .a1 sp)
  | usertrapret =>
    obtain ⟨hp, hs⟩ := ite_none_right_eq_some.1 hs
    obtain ⟨⟨c, h⟩, hc, rfl⟩ := map_eq_some_iff.1 hs
    obtain ⟨hreg, hpc⟩ := hsim.saved (.inr hp)
    obtain ⟨frame, h', heq, hu, hreg', hpc'⟩ := usertrapret_eq (s := s)
      (hsim.kernel (by simp [hp]) c h hc)
    refine ⟨_, _, heq, if_pos (hsim.phase.trans hp), rfl,
      fun _ => ⟨c, h', rfl, hu, hreg'.trans hreg, ?_⟩, by simp, by simp⟩
    simpa [hp] using hpc'.trans hpc

theorem exists_sim {frame : ℕ → Word} {t : Table} {as : List Act}
    (hrun : Runs.Trace Sys.step Sys.Allowed (.start frame t) as s) :
    ∃ v, Runs.exec Virt.step (fun _ _ => True) ⟨frameReg frame, frame 24, .done⟩ as = some v ∧
      Sim s v ∧ ∀ a r, s.Allowed a → s.step a = some r → ∃ s', r = .ok s' := by
  refine hrun.simulation ⟨rfl, fun hn => ?_, fun _ c h heq => ?_, fun _ => ⟨rfl, ?_⟩⟩
    fun _ _ _ _ hsim => hsim.step
  · cases hn
  · cases heq
  · simp [Sys.start]

/-- **The registers of a process are its own.**  Whatever it does in user mode, whatever traps it
takes, on whichever harts it goes on and whatever the rest of the kernel does: what is in the
registers when it is in user mode is what the abstract process has after the same actions, a child
starts with the registers of its parent and 0 in `a0`, and no trap faults or is taken for one from
the kernel. -/
theorem registers_private {frame : ℕ → Word} {t : Table} {as : List Act}
    (hrun : Runs.Trace Sys.step Sys.Allowed (.start frame t) as s) :
    ∃ v, Runs.exec Virt.step (fun _ _ => True) ⟨frameReg frame, frame 24, .done⟩ as = some v ∧
      v.phase = s.phase ∧
      (s.phase = .user → ∃ c h, s.cpu = some (c, h) ∧ h.user = true ∧ h.reg = v.reg ∧ h.pc = v.pc) ∧
      (s.phase = .call →
        frameReg (forkFrame s.frame) = update v.reg .a0 0 ∧ forkFrame s.frame 24 = v.pc + 4) ∧
      ∀ a r, s.Allowed a → s.step a = some r → ∃ s', r = .ok s' := by
  obtain ⟨v, hv, hsim, hok⟩ := exists_sim hrun
  refine ⟨v, hv, hsim.phase, fun hp => ?_, fun hp => ?_, hok⟩
  · obtain ⟨c, h, hc, hu, hreg⟩ := hsim.user hp
    exact ⟨c, h, hc, hu.user, hreg⟩
  · obtain ⟨hreg, hpc⟩ := hsim.saved (.inl hp)
    rw [if_pos hp] at hpc
    exact ⟨(frameReg_update .a0 0).trans (by rw [hreg]), hpc⟩

/-- Hart `c` in the kernel, with all its registers the same. -/
def kernelHart (c : Cpu) : Hart :=
  ⟨fun _ => hartid c, 0, 0, kernelSatp, 0, 0, 0, false, false, false, false⟩

/-- A process that comes to user mode on the first hart, does something there, makes a system call,
and returns from it on the second hart. -/
def callOn (reg : Reg → Word) (pc x : Word) : List Act :=
  [.swtchIn 0 (kernelHart 0), .usertrapret, .user reg pc, .trap 8, .swtchOut,
    .swtchIn 1 (kernelHart 1), .syscall x, .usertrapret]

theorem exists_callOn (frame : ℕ → Word) (t : Table) (reg : Reg → Word) (pc x : Word) :
    ∃ s, Runs.Trace Sys.step Sys.Allowed (.start frame t) (callOn reg pc x) s ∧
    s.phase = .user := by
  have hk : ∀ c, InKernel c (kernelHart c) := fun _ => ⟨rfl, rfl, rfl⟩
  obtain ⟨frame1, h1, hret, hu, -⟩ := usertrapret_eq
    (s := ⟨frame, t, some (0, kernelHart 0), .done⟩) (hk 0)
  obtain ⟨h2, frame2, htrap, -⟩ := usertrap_eq
    (s := ⟨frame1, t, some (0, { h1 with reg := reg, pc := pc }), .user⟩) (h :=
    { h1 with reg := reg, pc := pc }) ⟨hu.user, hu.satp, hu.stvec, hu.kernelSatp, hu.kernelSp,
      hu.kernelTrap, hu.kernelHartid⟩ 8
  obtain ⟨frame3, h3, hret', -⟩ := usertrapret_eq (s := ⟨update (update frame2 24 (pc + 4)) 112 x,
    t, some (1, kernelHart 1), .done⟩) (hk 1)
  refine ⟨_, .cons (hk 0) rfl (.cons trivial (congrArg some hret) (.cons trivial rfl (.cons trivial
    (congrArg some htrap) (.cons trivial rfl (.cons (hk 1) rfl (.cons trivial rfl (.cons trivial
    (congrArg some hret') .nil))))))), rfl⟩

end

/-- The page table of the examples, where only the trapframe is mapped. -/
theorem flat_mapped (o : ℕ) (ho : o < pgSize) :
    some (frameVa + BitVec.ofNat 64 o - frameVa).toNat = some o := by
  rw [add_sub_cancel_left, BitVec.toNat_ofNat, Nat.mod_eq_of_lt (ho.trans (by decide))]

@[reducible] def flat : Setup where
  kernelSatp := 1
  uservecVa := 2
  usertrapVa := 3
  kernelvecVa := 4
  kstack := 0x3fffffd000
  Table := Unit
  satp _ := 0
  mmu _ va := some (va - frameVa).toNat
  mapped _ := flat_mapped

/-- The registers of the examples: each has its own value. -/
def numbered (r : Reg) : Word := BitVec.ofNat 64 (1000 + r.ctorIdx)

/-- The registers are back after a system call that ended on another hart, with the result in
`a0`. -/
theorem registers_private_call : ∃ (_ : Setup) (t : Table) (s : Sys) (c : Cpu) (h : Hart),
    Runs.Trace Sys.step Sys.Allowed (.start (fun _ => 0) t) (callOn numbered 0x80 7) s ∧
      s.cpu = some (c, h) ∧ h.user = true ∧ h.reg = update numbered .a0 7 ∧ h.pc = 0x84 := by
  let S : Setup := flat
  obtain ⟨s, hrun, hp⟩ := exists_callOn (fun _ => 0) () numbered 0x80 7
  obtain ⟨v, hv, -, huser, -⟩ := registers_private hrun
  obtain ⟨c, h, hc, hu, hreg, hpc⟩ := huser hp
  cases hv
  exact ⟨S, (), s, c, h, hrun, hc, hu, hreg, hpc⟩

/-- **Every trap from user mode** enters `usertrap` on the kernel stack of the process, with the
number of the hart on which it is now, and with the page table of the kernel. -/
theorem trap_entry [Setup] {s : Sys} {frame : ℕ → Word} {t : Table}
    (hrun : Runs.Reach Sys.step Sys.Allowed (.start frame t) s) (hp : s.phase = .user)
    (cause : Word) :
    ∃ c h h' s', s.cpu = some (c, h) ∧ s.step (.trap cause) = some (.ok s') ∧
      s'.cpu = some (c, h') ∧ h'.pc = usertrapVa ∧ h'.satp = kernelSatp ∧ h'.reg .tp = hartid c ∧
      h'.reg .sp = kstack + BitVec.ofNat 64 pgSize ∧ frameReg s'.frame = h.reg := by
  obtain ⟨as, hrun⟩ := Runs.reach_iff.1 hrun
  obtain ⟨v, -, hsim, -⟩ := exists_sim hrun
  obtain ⟨c, h, hc, hu, -⟩ := hsim.user hp
  obtain ⟨h', frame', heq, hk, hpc, hsp, hframe⟩ := usertrap_eq hu cause
  refine ⟨c, h, h', ⟨update frame' 24 (if cause = 8 then h.pc + 4 else h.pc), s.table, _,
    dispatch cause⟩, hc, ?_,
    rfl, hpc, hk.satp, hk.tp, hsp, ?_⟩
  · rw [Sys.step, if_pos hp, hc, map_some, heq]
  · exact (frameReg_update_low (by decide) _).trans hframe

/-- A timer interrupt after that call, on the second hart. -/
theorem trap_entry_timer : ∃ (_ : Setup) (s s' : Sys) (c : Cpu) (h h' : Hart), s.cpu = some (c, h) ∧
    s.step (.trap 0x8000000000000005) = some (.ok s') ∧ s'.cpu = some (c, h') ∧ h'.pc = 3 ∧
      h'.reg .tp = hartid c ∧ h'.reg .sp = 0x3fffffe000 ∧
      frameReg s'.frame = update numbered .a0 7 := by
  let S : Setup := flat
  obtain ⟨s, hrun, hp⟩ := exists_callOn (fun _ => 0) () numbered 0x80 7
  obtain ⟨v, hv, hsim, -⟩ := exists_sim hrun
  obtain ⟨c, h, hc, -, hreg, -⟩ := hsim.user hp
  cases hv
  obtain ⟨c1, h1, h', s', hc1, hstep, hc', hpc, -, htp, hsp, hframe⟩ :=
    trap_entry (Runs.reach_iff.2 ⟨_, hrun⟩) hp 0x8000000000000005
  obtain ⟨rfl, rfl⟩ := Prod.mk.inj (Option.some.inj (hc.symm.trans hc1))
  exact ⟨S, s, s', c, h, h', hc, hstep, hc', hpc, htp, hsp, hframe.trans hreg⟩

end Trap

end CsklubOs
