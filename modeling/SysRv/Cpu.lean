import SysRv.KernelTypes
import SysRv.Rv64

/-!
# Processor control blocks and exceptions

`cpu.c`: the array of saved register contexts, indexed by the processor number in `tp`, and
the decoding of the saved `scause` and `sstatus`.
-/

namespace SysRv.Cpu

open Rv64

/-- A field of `srv_cpu_context_t`. -/
inductive ContextField where
  | reg (r : Reg)
  | csr (c : Csr)
  deriving DecidableEq, Repr

def srvCpuContext : List ContextField :=
  [.reg .zero, .reg .ra, .reg .sp, .reg .gp, .reg .tp, .reg .t0, .reg .t1, .reg .t2,
    .reg .s0, .reg .s1, .reg .a0, .reg .a1, .reg .a2, .reg .a3, .reg .a4, .reg .a5, .reg .a6,
    .reg .a7, .reg .s2, .reg .s3, .reg .s4, .reg .s5, .reg .s6, .reg .s7, .reg .s8, .reg .s9,
    .reg .s10, .reg .s11, .reg .t3, .reg .t4, .reg .t5, .reg .t6,
    .csr .sepc, .csr .scause, .csr .stval, .csr .sstatus]

def ContextField.offset (f : ContextField) : Word := BitVec.ofNat 64 (8 * srvCpuContext.idxOf f)

def ContextField.value (m : Machine) : ContextField → Word
  | .reg r => m.reg r
  | .csr c => m.csrs c

theorem mem_srvCpuContext (f : ContextField) : f ∈ srvCpuContext := by
  cases f with
  | reg r => cases r <;> decide
  | csr c => cases c <;> decide

theorem offset_toNat (f : ContextField) :
    f.offset.toNat = 8 * srvCpuContext.idxOf f ∧ f.offset.toNat < 288 := by
  have hlt : srvCpuContext.idxOf f < 36 := List.idxOf_lt_length_of_mem (mem_srvCpuContext f)
  rw [ContextField.offset, BitVec.toNat_ofNat]
  omega

theorem offset_inj {f g : ContextField} (h : f.offset = g.offset) : f = g := by
  have hf := offset_toNat f
  have hg := offset_toNat g
  rw [h] at hf
  exact (List.idxOf_inj (mem_srvCpuContext f)).mp (by omega)

/-- `sizeof(srv_cpu_t)`: the 36 fields of `registers`. -/
def srvCpuSize : Word := 288#64

def srvHalGetExecutingCPU (m : Machine) : BitVec 32 := (m.reg .tp).setWidth 32

def srvHalGetCurrentContextStruct (cpus : Addr) (m : Machine) : Addr :=
  cpus + (srvHalGetExecutingCPU m).setWidth 64 * srvCpuSize

/-- The memory after the field by field copy of `*context` into the control block of the
executing processor. -/
def halSaveContextToProcControlBlock (cpus : Addr) (m : Machine) (context : Addr) : Word → Word :=
  copyFields (srvHalGetCurrentContextStruct cpus m) context
    (srvCpuContext.map ContextField.offset) m.mem

inductive SrvHalExceptionCause where
  | unalignedInstruction
  | instructionAccessFault
  | illegalInstruction
  | breakpointReached
  | unalignedLoad
  | loadFault
  | pageFault
  | unknown
  deriving DecidableEq, Repr

def rv64ExceptionCodeMask : BitVec 64 := 0x7FFFFFFFFFFFFFFF#64

def rv64SstatusSppBit : BitVec 64 := 1#64 <<< 8

def contextField (mem : Word → Word) (context : Addr) (f : ContextField) : Word :=
  mem (context + f.offset)

/-- The cause, and whether the exception happened in supervisor mode. -/
def srvHalGetExceptionCause (mem : Word → Word) (context : Addr) : SrvHalExceptionCause × Bool :=
  let cause := contextField mem context (.csr .scause) &&& rv64ExceptionCodeMask
  let wasInKernelMode := contextField mem context (.csr .sstatus) &&& rv64SstatusSppBit ≠ 0#64
  let decoded : SrvHalExceptionCause :=
    match cause.toNat with
    | 0 => .unalignedInstruction
    | 2 => .illegalInstruction
    | 1 => .instructionAccessFault
    | 3 => .breakpointReached
    | 4 => .unalignedLoad
    | 5 => .loadFault
    | 6 => .unalignedLoad
    | 7 => .loadFault
    | 12 => .pageFault
    | 13 => .pageFault
    | 15 => .pageFault
    | _ => .unknown
  (decoded, wasInKernelMode)

def srvHalGetExceptionString : SrvHalExceptionCause → String
  | .unalignedInstruction => "Instruction address misaligned"
  | .instructionAccessFault => "Instruction access fault"
  | .illegalInstruction => "Illegal instruction"
  | .breakpointReached => "Breakpoint"
  | .unalignedLoad => "Load address misaligned"
  | .loadFault => "Load access fault"
  | .pageFault => "Page fault"
  | .unknown => "Unknown"

/-- The C handler panics on an exception in the kernel, and does nothing else so far. -/
def srvArchExceptionHandler (cpus : Addr) (m : Machine) : Except KernelPanic Unit :=
  let context := srvHalGetCurrentContextStruct cpus m
  let (exceptionCause, inKernelSpace) := srvHalGetExceptionCause m.mem context
  if inKernelSpace then .error (.exception (srvHalGetExceptionString exceptionCause))
  else .ok ()

/-- The handler returns exactly where the saved `sstatus` has a clear `SPP` bit. -/
theorem srvArchExceptionHandler_ok_iff (cpus : Addr) (m : Machine) :
    srvArchExceptionHandler cpus m = .ok () ↔
      contextField m.mem (srvHalGetCurrentContextStruct cpus m) (.csr .sstatus) &&&
        rv64SstatusSppBit = 0#64 := by
  by_cases h : contextField m.mem (srvHalGetCurrentContextStruct cpus m) (.csr .sstatus) &&&
      rv64SstatusSppBit = 0#64 <;> simp [srvArchExceptionHandler, srvHalGetExceptionCause, h]

end SysRv.Cpu
