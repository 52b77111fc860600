import Mathlib.Logic.Relation
import SysRv.TrapContext

/-!
# Traps and interrupts in `sstatus`

A trap keeps the interrupt enable `SIE` in `SPIE` and the mode it came from in `SPP`. The two
functions of `irq.c` write bit 0 of `sstatus`, which is not `SIE`.
-/

namespace SysRv.Trap

open Function Rv64 Cpu

def sstatusSie : Word := 1#64 <<< 1

def sstatusSpie : Word := 1#64 <<< 5

def csrrsi (c : Csr) (bits : BitVec 5) (m : Machine) : Machine :=
  { m with csrs := update m.csrs c (m.csrs c ||| bits.setWidth 64) }

def csrrci (c : Csr) (bits : BitVec 5) (m : Machine) : Machine :=
  { m with csrs := update m.csrs c (m.csrs c &&& ~~~ bits.setWidth 64) }

def srvHalEnableInterrupts : Machine → Machine := csrrsi .sstatus 1#5

def srvHalDisableInterrupts : Machine → Machine := csrrci .sstatus 1#5

def trapStatus (kernel : Bool) (s : Word) : Word :=
  (s &&& ~~~ (sstatusSie ||| sstatusSpie ||| rv64SstatusSppBit)) |||
    (if s.getLsbD 1 then sstatusSpie else 0#64) ||| (if kernel then rv64SstatusSppBit else 0#64)

/-- A trap to supervisor mode from there or from user mode, in front of the trap handler. -/
def takeTrap (kernel : Bool) (cause value pc : Word) (m : Machine) : Machine where
  regs := m.regs
  csrs
    | .sepc => pc
    | .scause => cause
    | .stval => value
    | .sstatus => trapStatus kernel (m.csrs .sstatus)
  mem := m.mem

def returnStatus (s : Word) : Word :=
  (s &&& ~~~ (sstatusSie ||| rv64SstatusSppBit)) |||
    (if s.getLsbD 5 then sstatusSie else 0#64) ||| sstatusSpie

def sret (m : Machine) : Machine :=
  { m with csrs := update m.csrs .sstatus (returnStatus (m.csrs .sstatus)) }

theorem trapStatus_spie (kernel : Bool) (s : Word) :
    (trapStatus kernel s).getLsbD 5 = s.getLsbD 1 := by
  rw [trapStatus]
  cases s.getLsbD 1 <;> cases kernel <;>
    simp [sstatusSie, sstatusSpie, rv64SstatusSppBit]

theorem returnStatus_sie (s : Word) : (returnStatus s).getLsbD 1 = s.getLsbD 5 := by
  rw [returnStatus]
  cases s.getLsbD 5 <;> simp [sstatusSie, sstatusSpie, rv64SstatusSppBit]

section Trapped

variable (kernel : Bool) (cause value pc : Word) (m : Machine)

@[simp] theorem takeTrap_reg (r : Reg) : (takeTrap kernel cause value pc m).reg r = m.reg r := rfl

@[simp] theorem takeTrap_scause : (takeTrap kernel cause value pc m).csrs .scause = cause := rfl

theorem takeTrap_spp :
    (takeTrap true cause value pc m).csrs .sstatus &&& rv64SstatusSppBit ≠ 0#64 := by
  intro hzero
  have hbit := congrArg (fun x : Word => x.getLsbD 8) hzero
  simp [takeTrap, trapStatus, rv64SstatusSppBit] at hbit

theorem takeTrap_clearRoom {k : Image} (h : ClearRoom k m) :
    ClearRoom k (takeTrap kernel cause value pc m) := ⟨h.room, h.cpu, h.blocks, h.apart⟩

end Trapped

/-- A call of `irq.c`, or a trap from user mode up to the `sret` of the trap handler. -/
inductive IrqStep (k : Image) : Machine → Machine → Prop where
  | enable (m : Machine) : IrqStep k m (srvHalEnableInterrupts m)
  | disable (m : Machine) : IrqStep k m (srvHalDisableInterrupts m)
  | userTrap {m m' : Machine} (cause value pc : Word)
      (h : trapHandler k (takeTrap false cause value pc m) m') : IrqStep k m (sret m')

section Runs

variable {k : Image} {m m' : Machine}

theorem irq_getLsbD (m : Machine) {j : ℕ} (hj : j ≠ 0) (hlt : j < 64) :
    ((srvHalEnableInterrupts m).csrs .sstatus).getLsbD j = (m.csrs .sstatus).getLsbD j ∧
      ((srvHalDisableInterrupts m).csrs .sstatus).getLsbD j = (m.csrs .sstatus).getLsbD j := by
  have hone : ((1#5).setWidth 64).getLsbD j = false := by
    rw [BitVec.getLsbD_setWidth, BitVec.getLsbD_one]
    simp [hj]
  simp only [srvHalEnableInterrupts, srvHalDisableInterrupts, csrrsi, csrrci, update_self,
    BitVec.getLsbD_or, BitVec.getLsbD_and, BitVec.getLsbD_not, hone, hlt, decide_true,
    Bool.not_false, Bool.and_true, Bool.or_false, and_self]

/-- The trap handler writes no trap register. -/
theorem trapHandler_csrs (h : trapHandler k m m') : m'.csrs = m.csrs := by
  obtain ⟨m₁, ⟨m₂, hcopy, rfl, -⟩, -, hhandler⟩ := h
  rw [hhandler.csrs, Machine.setReg_csrs, run_csrs, hcopy.csrs, Machine.setReg_csrs, run_csrs,
    Machine.setReg_csrs]

theorem irqStep_sie (h : IrqStep k m m') :
    (m'.csrs .sstatus).getLsbD 1 = (m.csrs .sstatus).getLsbD 1 := by
  cases h with
  | enable => exact (irq_getLsbD m (by decide) (by decide)).1
  | disable => exact (irq_getLsbD m (by decide) (by decide)).2
  | userTrap cause value pc h =>
    simp only [sret, update_self, returnStatus_sie, trapHandler_csrs h]
    exact trapStatus_spie false _

/-- No run enables interrupts, or disables them. -/
theorem irqRun_sie (h : Relation.ReflTransGen (IrqStep k) m m') :
    (m'.csrs .sstatus).getLsbD 1 = (m.csrs .sstatus).getLsbD 1 := by
  induction h with
  | refl => rfl
  | tail _ hstep ih => exact (irqStep_sie hstep).trans ih

end Runs

end SysRv.Trap
