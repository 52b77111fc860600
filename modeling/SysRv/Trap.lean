import SysRv.Cpu

/-!
# The trap handler

`trap_handler` saves the context through `srv_hal_SaveCPUContext`, calls the C exception
handler and returns with `sret`. The saved context is complete, but nothing is loaded back
from it: the interrupted code gets the registers that the called functions leave.
-/

namespace SysRv.Trap

open Function Rv64 Cpu

/-- The addresses the linker chooses, and a bound on the stack the compiled functions use. -/
structure Image where
  cpus : Addr
  afterSaveContext : Addr
  afterSaveToBlock : Addr
  afterExceptionHandler : Addr
  frame : ℕ

/-- `srv_hal_SaveCPUContext` up to its call. -/
def saveContext : List Instr :=
  [.addi .sp .sp (-288#12), .sd .zero 0#12 .sp, .sd .ra 8#12 .sp, .sd .t0 40#12 .sp,
    .addi .t0 .sp 288#12, .sd .t0 16#12 .sp, .sd .gp 24#12 .sp, .sd .tp 32#12 .sp,
    .sd .t1 48#12 .sp, .sd .t2 56#12 .sp, .sd .s0 64#12 .sp, .sd .s1 72#12 .sp,
    .sd .a0 80#12 .sp, .sd .a1 88#12 .sp, .sd .a2 96#12 .sp, .sd .a3 104#12 .sp,
    .sd .a4 112#12 .sp, .sd .a5 120#12 .sp, .sd .a6 128#12 .sp, .sd .a7 136#12 .sp,
    .sd .s2 144#12 .sp, .sd .s3 152#12 .sp, .sd .s4 160#12 .sp, .sd .s5 168#12 .sp,
    .sd .s6 176#12 .sp, .sd .s7 184#12 .sp, .sd .s8 192#12 .sp, .sd .s9 200#12 .sp,
    .sd .s10 208#12 .sp, .sd .s11 216#12 .sp, .sd .t3 224#12 .sp, .sd .t4 232#12 .sp,
    .sd .t5 240#12 .sp, .sd .t6 248#12 .sp,
    .csrr .t0 .sepc, .csrr .t1 .scause, .csrr .t2 .stval, .csrr .t3 .sstatus,
    .sd .t0 256#12 .sp, .sd .t1 264#12 .sp, .sd .t2 272#12 .sp, .sd .t3 280#12 .sp,
    .mv .a0 .sp]

/-- The rest of it, up to its `jr ra`. -/
def dropContext : List Instr := [.ld .ra 8#12 .sp, .addi .sp .sp 288#12]

/-- The compiled `hal_SaveContextToProcControlBlock`, with the context in `a0`. -/
def saveToBlock (k : Image) : Proc := fun m m' =>
  Conforms k.frame m m' (halSaveContextToProcControlBlock k.cpus m (m.reg .a0))

/-- The compiled `srv_arch_ExceptionHandler`, in the runs in which it does not panic. -/
def exceptionHandler (k : Image) : Proc := fun m m' =>
  srvArchExceptionHandler k.cpus m = .ok () ∧ Conforms k.frame m m' m.mem

/-- `srv_hal_SaveCPUContext`. Its `jr ra` returns to the caller where `ra` is what the
caller put there. -/
def srvHalSaveCPUContext (k : Image) : Proc := fun m m' =>
  ∃ m₁, call k.afterSaveToBlock (saveToBlock k) (m.run saveContext) m₁ ∧
    m' = m₁.run dropContext ∧ m'.reg .ra = m.reg .ra

def trapHandler (k : Image) : Proc := fun m m' =>
  ∃ m₁, call k.afterSaveContext (srvHalSaveCPUContext k) m m₁ ∧
    call k.afterExceptionHandler (exceptionHandler k) m₁ m'

/-- The 288 bytes of the context and the frames of the compiled functions fit below the
stack pointer, clear of the control block that `tp` selects. -/
structure UsableStack (k : Image) (m : Machine) : Prop where
  aligned : (m.reg .sp).toNat % 16 = 0
  room : 288 + k.frame ≤ (m.reg .sp).toNat
  block : (srvHalGetCurrentContextStruct k.cpus m).toNat + 288 ≤ 2 ^ 64
  apart : (srvHalGetCurrentContextStruct k.cpus m).toNat + 288 + 288 + k.frame ≤ (m.reg .sp).toNat ∨
    (m.reg .sp).toNat ≤ (srvHalGetCurrentContextStruct k.cpus m).toNat

/-- The same for a stack pointer that need not be aligned. -/
structure StackRoom (k : Image) (m : Machine) : Prop where
  room : 288 + k.frame ≤ (m.reg .sp).toNat
  block : (srvHalGetCurrentContextStruct k.cpus m).toNat + 288 ≤ 2 ^ 64
  apart : (srvHalGetCurrentContextStruct k.cpus m).toNat + 288 + 288 + k.frame ≤ (m.reg .sp).toNat ∨
    (m.reg .sp).toNat ≤ (srvHalGetCurrentContextStruct k.cpus m).toNat

theorem UsableStack.stackRoom {k : Image} {m : Machine} (h : UsableStack k m) : StackRoom k m :=
  ⟨h.room, h.block, h.apart⟩

def storeOrder : List ContextField :=
  [.reg .zero, .reg .ra, .reg .t0, .reg .sp, .reg .gp, .reg .tp, .reg .t1, .reg .t2,
    .reg .s0, .reg .s1, .reg .a0, .reg .a1, .reg .a2, .reg .a3, .reg .a4, .reg .a5, .reg .a6,
    .reg .a7, .reg .s2, .reg .s3, .reg .s4, .reg .s5, .reg .s6, .reg .s7, .reg .s8, .reg .s9,
    .reg .s10, .reg .s11, .reg .t3, .reg .t4, .reg .t5, .reg .t6,
    .csr .sepc, .csr .scause, .csr .stval, .csr .sstatus]

theorem mem_storeOrder (f : ContextField) : f ∈ storeOrder := by
  cases f with
  | reg r => cases r <;> decide
  | csr c => cases c <;> decide

def contextBase (m : Machine) : Word := m.reg .sp - 288#64

/-- The stores before, between and after the two blocks that change a temporary. -/
def firstSlots : List (Reg × BitVec 12) := [(.zero, 0#12), (.ra, 8#12), (.t0, 40#12)]

def secondSlots : List (Reg × BitVec 12) :=
  [(.t0, 16#12), (.gp, 24#12), (.tp, 32#12), (.t1, 48#12), (.t2, 56#12), (.s0, 64#12),
    (.s1, 72#12), (.a0, 80#12), (.a1, 88#12), (.a2, 96#12), (.a3, 104#12), (.a4, 112#12),
    (.a5, 120#12), (.a6, 128#12), (.a7, 136#12), (.s2, 144#12), (.s3, 152#12), (.s4, 160#12),
    (.s5, 168#12), (.s6, 176#12), (.s7, 184#12), (.s8, 192#12), (.s9, 200#12), (.s10, 208#12),
    (.s11, 216#12), (.t3, 224#12), (.t4, 232#12), (.t5, 240#12), (.t6, 248#12)]

def thirdSlots : List (Reg × BitVec 12) :=
  [(.t0, 256#12), (.t1, 264#12), (.t2, 272#12), (.t3, 280#12)]

theorem saveContext_eq : saveContext =
    [.addi .sp .sp (-288#12)] ++ spill .sp firstSlots ++ [.addi .t0 .sp 288#12] ++
      spill .sp secondSlots ++
      [.csrr .t0 .sepc, .csrr .t1 .scause, .csrr .t2 .stval, .csrr .t3 .sstatus] ++
      spill .sp thirdSlots ++ [.mv .a0 .sp] := rfl

theorem contextBase_eq (m : Machine) : m.reg .sp + (-288#12).signExtend 64 = contextBase m := by
  rw [contextBase, BitVec.sub_eq_add_neg]
  rfl

theorem contextBase_add (m : Machine) : contextBase m + (288#12).signExtend 64 = m.reg .sp :=
  BitVec.sub_add_cancel (m.reg .sp) 288#64

/-- The four `csrr` in front of the last group. -/
abbrev withTrapRegisters (m : Machine) (csrs : Csr → Word) : Machine :=
  (((m.setReg .t0 (csrs .sepc)).setReg .t1 (csrs .scause)).setReg .t2 (csrs .stval)).setReg .t3
    (csrs .sstatus)

/-- The fields that the three groups of stores write are those of the context. -/
theorem storeOrder_fields (m : Machine) : (storeOrder.map fun f => (f.offset, f.value m)) =
    slotFields m firstSlots ++ slotFields (m.setReg .t0 (m.reg .sp)) secondSlots ++
      slotFields (withTrapRegisters m m.csrs) thirdSlots := rfl

/-- The context in memory, with every field holding its register at the entry. -/
theorem saveContext_mem (m : Machine) : (m.run saveContext).mem =
    writeFields (contextBase m) (storeOrder.map fun f => (f.offset, f.value m)) m.mem := by
  rw [saveContext_eq, storeOrder_fields, writeFields_append, writeFields_append]
  have hfirst : slotFields (m.setReg .sp (contextBase m)) firstSlots = slotFields m firstSlots :=
    slotFields_congr (by simp [firstSlots])
  have hsecond : slotFields ((m.setReg .sp (contextBase m)).setReg .t0 (m.reg .sp)) secondSlots =
      slotFields (m.setReg .t0 (m.reg .sp)) secondSlots :=
    slotFields_congr (by simp [secondSlots])
  have hthird : slotFields (withTrapRegisters ((m.setReg .sp (contextBase m)).setReg .t0
      (m.reg .sp)) m.csrs) thirdSlots = slotFields (withTrapRegisters m m.csrs) thirdSlots :=
    slotFields_congr (by simp [thirdSlots])
  simp only [Machine.run_append, Machine.run_cons, Machine.run_nil, run_spill, Machine.exec,
    Machine.setReg_mem, Machine.setReg_csrs, Machine.setMem_mem, Machine.setMem_csrs,
    Machine.setMem_reg, Machine.setReg_setMem, Machine.setMem_setMem, slotFields_setMem,
    Machine.setReg_reg_self, Machine.setReg_reg_ne, ne_eq, reduceCtorEq, not_false_eq_true,
    contextBase_eq, contextBase_add, hfirst, hsecond, hthird]

theorem saveContext_field (m : Machine) (f : ContextField) :
    contextField (m.run saveContext).mem (contextBase m) f = f.value m := by
  have hnodup : ((storeOrder.map fun f => (f.offset, f.value m)).map Prod.fst).Nodup := by
    rw [List.map_map]
    exact List.Nodup.map (fun f g h => offset_inj h) (by decide)
  rw [contextField, saveContext_mem]
  exact writeFields_of_mem hnodup (f := (f.offset, f.value m))
    (List.mem_map.mpr ⟨f, mem_storeOrder f, rfl⟩)

theorem saveContext_sp (m : Machine) : (m.run saveContext).reg .sp = contextBase m := by
  have hhead : saveContext = .addi .sp .sp (-288#12) :: saveContext.tail := rfl
  rw [hhead, Machine.run_cons, run_reg _ (by decide), Machine.exec, contextBase_eq]
  exact Machine.setReg_reg_self _ _ (by decide)

theorem saveContext_a0 (m : Machine) : (m.run saveContext).reg .a0 = contextBase m := by
  have hlast : saveContext = saveContext.dropLast ++ [.mv .a0 .sp] := by decide
  have hsp := saveContext_sp m
  rw [hlast, Machine.run_append, Machine.run_cons, Machine.run_nil] at hsp ⊢
  rw [← hsp, Machine.exec]
  simp

/-- Saving keeps what the calling convention keeps, the stack pointer apart. -/
theorem saveContext_reg (m : Machine) {r : Reg} (hr : r.kept = true) (hsp : r ≠ .sp) :
    (m.run saveContext).reg r = m.reg r := by
  apply run_reg
  cases r <;> first | contradiction | decide

section Placement

variable {k : Image} {m : Machine}

theorem StackRoom.base_toNat (h : StackRoom k m) :
    (contextBase m).toNat = (m.reg .sp).toNat - 288 := by
  have hroom := h.room
  have hsp := (m.reg .sp).isLt
  rw [contextBase, BitVec.toNat_sub]
  simp only [BitVec.toNat_ofNat, Nat.reducePow, Nat.reduceMod] at *
  omega

theorem toNat_add_offset {base : Addr} (h : base.toNat + 288 ≤ 2 ^ 64) (f : ContextField) :
    (base + f.offset).toNat = base.toNat + f.offset.toNat := by
  have hlt := (offset_toNat f).2
  rw [BitVec.toNat_add, Nat.mod_eq_of_lt (by omega)]

theorem StackRoom.context_toNat (h : StackRoom k m) (f : ContextField) :
    (contextBase m + f.offset).toNat = (m.reg .sp).toNat - 288 + f.offset.toNat := by
  have hroom := h.room
  have hsp := (m.reg .sp).isLt
  have hbase := h.base_toNat
  rw [toNat_add_offset (by omega), hbase]

theorem StackRoom.context_ne_block (h : StackRoom k m) (f g : ContextField) :
    contextBase m + f.offset ≠ srvHalGetCurrentContextStruct k.cpus m + g.offset := by
  intro heq
  have hnat := congrArg BitVec.toNat heq
  have hroom := h.room
  have hf := (offset_toNat f).2
  have hg := (offset_toNat g).2
  rw [h.context_toNat, toNat_add_offset h.block] at hnat
  rcases h.apart with hbelow | habove <;> omega

theorem StackRoom.context_notInFrame (h : StackRoom k m) (f : ContextField) :
    ¬ InFrame (contextBase m) k.frame (contextBase m + f.offset) := by
  have hroom := h.room
  have hsp := (m.reg .sp).isLt
  have hlt := (offset_toNat f).2
  have hnat := h.context_toNat f
  have hbase := h.base_toNat
  rintro ⟨hpos, hle⟩
  rw [BitVec.toNat_sub] at hpos hle
  omega

theorem StackRoom.block_notInFrame (h : StackRoom k m) (f : ContextField) :
    ¬ InFrame (contextBase m) k.frame (srvHalGetCurrentContextStruct k.cpus m + f.offset) := by
  have hroom := h.room
  have hsp := (m.reg .sp).isLt
  have hlt := (offset_toNat f).2
  have hnat := toNat_add_offset h.block f
  have hbase := h.base_toNat
  have hblock := h.block
  rintro ⟨hpos, hle⟩
  rw [BitVec.toNat_sub] at hpos hle
  rcases h.apart with hbelow | habove <;> omega

end Placement

section Calls

variable {k : Image} {m m₁ m' : Machine}

/-- Where a call starts with the processor number of `m`, the control block is that of `m`. -/
theorem currentContextStruct_congr {m n : Machine} (cpus : Addr) (h : n.reg .tp = m.reg .tp) :
    srvHalGetCurrentContextStruct cpus n = srvHalGetCurrentContextStruct cpus m := by
  rw [srvHalGetCurrentContextStruct, srvHalGetCurrentContextStruct, srvHalGetExecutingCPU,
    srvHalGetExecutingCPU, h]

theorem saveToBlock_mem (hstack : StackRoom k m)
    (h : call k.afterSaveToBlock (saveToBlock k) (m.run saveContext) m₁) {a : Addr}
    (ha : ¬ InFrame (contextBase m) k.frame a) :
    m₁.mem a = writeFields (srvHalGetCurrentContextStruct k.cpus m)
      (srvCpuContext.map fun f => (f.offset, f.value m)) (m.run saveContext).mem a := by
  have htp : ((m.run saveContext).setReg .ra k.afterSaveToBlock).reg .tp = m.reg .tp := by
    rw [Machine.setReg_reg_ne _ _ (by decide), saveContext_reg m rfl (by decide)]
  have ha0 : ((m.run saveContext).setReg .ra k.afterSaveToBlock).reg .a0 = contextBase m := by
    rw [Machine.setReg_reg_ne _ _ (by decide), saveContext_a0]
  have hsp : ((m.run saveContext).setReg .ra k.afterSaveToBlock).reg .sp = contextBase m := by
    rw [Machine.setReg_reg_ne _ _ (by decide), saveContext_sp]
  rw [h.memory a (by rwa [hsp]), halSaveContextToProcControlBlock, ha0,
    currentContextStruct_congr k.cpus htp, copyFields_eq_writeFields]
  · simp only [List.map_map, Machine.setReg_mem]
    congr 2
    funext f
    exact congrArg (Prod.mk f.offset) (saveContext_field m f)
  · intro o ho o' ho'
    obtain ⟨f, -, rfl⟩ := List.mem_map.mp ho
    obtain ⟨g, -, rfl⟩ := List.mem_map.mp ho'
    exact hstack.context_ne_block f g

theorem saveToBlock_context (hstack : StackRoom k m)
    (h : call k.afterSaveToBlock (saveToBlock k) (m.run saveContext) m₁) (f : ContextField) :
    contextField m₁.mem (contextBase m) f = f.value m := by
  have hfield := saveContext_field m f
  rw [contextField] at hfield ⊢
  rw [saveToBlock_mem hstack h (hstack.context_notInFrame f), writeFields_of_notMem, hfield]
  intro p hp
  obtain ⟨g, -, rfl⟩ := List.mem_map.mp hp
  exact hstack.context_ne_block f g

theorem saveToBlock_block (hstack : StackRoom k m)
    (h : call k.afterSaveToBlock (saveToBlock k) (m.run saveContext) m₁) (f : ContextField) :
    contextField m₁.mem (srvHalGetCurrentContextStruct k.cpus m) f = f.value m := by
  have hnodup : ((srvCpuContext.map fun f => (f.offset, f.value m)).map Prod.fst).Nodup := by
    rw [List.map_map]
    exact List.Nodup.map (fun f g h => offset_inj h) (by decide)
  rw [contextField, saveToBlock_mem hstack h (hstack.block_notInFrame f)]
  exact writeFields_of_mem hnodup (f := (f.offset, f.value m))
    (List.mem_map.mpr ⟨f, mem_srvCpuContext f, rfl⟩)

/-- The epilogue finds `ra` where the prologue stored it and drops the context. -/
theorem dropContext_ra (hstack : StackRoom k m)
    (h : call k.afterSaveToBlock (saveToBlock k) (m.run saveContext) m₁) :
    (m₁.run dropContext).reg .ra = m.reg .ra ∧ (m₁.run dropContext).reg .sp = m.reg .sp := by
  have hsp : m₁.reg .sp = contextBase m := by
    rw [h.kept .sp rfl, Machine.setReg_reg_ne _ _ (by decide), saveContext_sp]
  have hra := saveToBlock_context hstack h (.reg .ra)
  have hoffset : (ContextField.reg .ra).offset = (8#12).signExtend 64 := by decide
  rw [contextField, hoffset] at hra
  constructor
  · simp only [dropContext, Machine.run_cons, Machine.run_nil, Machine.exec, Machine.address, hsp,
      hra]
    simp [ContextField.value]
  · simp only [dropContext, Machine.run_cons, Machine.run_nil, Machine.exec, Machine.address, hsp,
      Machine.setReg_reg_ne, Machine.setReg_reg_self, ne_eq, reduceCtorEq, not_false_eq_true,
      contextBase_add]

/-- What `srv_hal_SaveCPUContext` guarantees its caller: the kept registers, and in the
control block of the processor the registers it was called with. -/
structure Saved (k : Image) (m m' : Machine) : Prop where
  kept : ∀ r, r.kept = true → m'.reg r = m.reg r
  csrs : m'.csrs = m.csrs
  block : ∀ f, contextField m'.mem (srvHalGetCurrentContextStruct k.cpus m) f = f.value m

theorem srvHalSaveCPUContext_saved (hstack : StackRoom k m) (h : srvHalSaveCPUContext k m m') :
    Saved k m m' := by
  obtain ⟨m₁, hcall, rfl, -⟩ := h
  refine ⟨fun r hr => ?_, ?_, fun f => ?_⟩
  · by_cases hsp : r = .sp
    · exact hsp ▸ (dropContext_ra hstack hcall).2
    · have hne : r ≠ .ra := fun heq => by simp [heq, Reg.kept] at hr
      rw [run_reg _ (by simp [dropContext, Instr.target, hne.symm, Ne.symm hsp]), hcall.kept r hr,
        Machine.setReg_reg_ne _ _ hne, saveContext_reg m hr hsp]
  · rw [run_csrs, hcall.csrs, Machine.setReg_csrs, run_csrs]
  · rw [run_mem _ (by decide)]
    exact saveToBlock_block hstack hcall f

theorem StackRoom.exists_srvHalSaveCPUContext (hstack : StackRoom k m) :
    ∃ m', srvHalSaveCPUContext k m m' := by
  have hcall : call k.afterSaveToBlock (saveToBlock k) (m.run saveContext) _ :=
    conforms_of_mem k.frame ((m.run saveContext).setReg .ra k.afterSaveToBlock) _
  exact ⟨_, _, hcall, rfl, (dropContext_ra hstack hcall).1⟩

theorem exists_srvHalSaveCPUContext (hstack : UsableStack k m) :
    ∃ m', srvHalSaveCPUContext k m m' := hstack.stackRoom.exists_srvHalSaveCPUContext

end Calls

section Transparency

variable {k : Image} {m m' : Machine}

theorem UsableStack.setReg_ra (h : UsableStack k m) (site : Word) :
    UsableStack k (m.setReg .ra site) := by
  have hsp : (m.setReg .ra site).reg .sp = m.reg .sp := Machine.setReg_reg_ne _ _ (by decide)
  have hblock : srvHalGetCurrentContextStruct k.cpus (m.setReg .ra site) =
      srvHalGetCurrentContextStruct k.cpus m :=
    currentContextStruct_congr k.cpus (Machine.setReg_reg_ne _ _ (by decide))
  refine ⟨by rw [hsp]; exact h.aligned, by rw [hsp]; exact h.room, by rw [hblock]; exact h.block, ?_⟩
  rw [hsp, hblock]
  exact h.apart

/-- Every run to `sret` keeps the registers that the calling convention keeps. -/
theorem trapHandler_kept (hstack : UsableStack k m) (h : trapHandler k m m') {r : Reg}
    (hr : r.kept = true) : m'.reg r = m.reg r := by
  obtain ⟨m₁, hsave, -, hhandler⟩ := h
  have hne : r ≠ .ra := fun heq => by simp [heq, Reg.kept] at hr
  rw [hhandler.kept r hr, Machine.setReg_reg_ne _ _ hne,
    (srvHalSaveCPUContext_saved (hstack.setReg_ra _).stackRoom hsave).kept r hr,
    Machine.setReg_reg_ne _ _ hne]

/-- From a trap in user mode there is a run to `sret`, with anything in a register that is
not kept. -/
theorem exists_trapHandler (hstack : UsableStack k m)
    (huser : m.csrs .sstatus &&& rv64SstatusSppBit = 0#64) {r : Reg} (hr : r.kept = false)
    (v : Word) : ∃ m', trapHandler k m m' ∧ m'.reg r = v := by
  obtain ⟨m₁, hsave⟩ := exists_srvHalSaveCPUContext (hstack.setReg_ra k.afterSaveContext)
  have hsaved := srvHalSaveCPUContext_saved (hstack.setReg_ra _).stackRoom hsave
  have hne : r ≠ .zero := fun heq => by simp [heq, Reg.kept] at hr
  have htp : (m₁.setReg .ra k.afterExceptionHandler).reg .tp =
      (m.setReg .ra k.afterSaveContext).reg .tp := by
    rw [Machine.setReg_reg_ne _ _ (by decide), hsaved.kept .tp rfl]
  refine ⟨(m₁.setReg .ra k.afterExceptionHandler).setReg r v, ⟨m₁, hsave, ?_, ?_⟩,
    Machine.setReg_reg_self _ _ hne⟩
  · rw [srvArchExceptionHandler_ok_iff, currentContextStruct_congr k.cpus htp]
    have hfield := hsaved.block (.csr .sstatus)
    rw [Machine.setReg_mem, hfield]
    exact huser
  · exact (conforms_of_mem k.frame _ _).setReg hr v

/-- Every run to `sret` leaves every integer register as it was at the trap. -/
def Transparent (k : Image) (m : Machine) : Prop :=
  ∀ m', trapHandler k m m' → ∀ r, m'.reg r = m.reg r

/-- No trap in user mode is transparent: exactly the registers that the calling convention
keeps survive every run to `sret`. -/
theorem trap_not_transparent (k : Image) (m : Machine) (hstack : UsableStack k m)
    (huser : m.csrs .sstatus &&& rv64SstatusSppBit = 0#64) :
    ¬ Transparent k m ∧
      ∀ r, (∀ m', trapHandler k m m' → m'.reg r = m.reg r) ↔ r.kept = true := by
  have hlost : ∀ r : Reg, r.kept = false → ∃ m', trapHandler k m m' ∧ m'.reg r ≠ m.reg r := by
    intro r hr
    obtain ⟨m', hrun, hv⟩ := exists_trapHandler hstack huser hr (m.reg r + 1#64)
    refine ⟨m', hrun, fun heq => ?_⟩
    rw [hv] at heq
    simp at heq
  refine ⟨fun htransparent => ?_,
    fun r => ⟨fun hall => ?_, fun hr m' h => trapHandler_kept hstack h hr⟩⟩
  · obtain ⟨m', hrun, hne⟩ := hlost .t0 rfl
    exact hne (htransparent m' hrun .t0)
  · by_contra hr
    obtain ⟨m', hrun, hne⟩ := hlost r (by simpa using hr)
    exact hne (hall m' hrun)

end Transparency

/-- Control blocks, trap handler and stack where the kernel has them. -/
def kernelImage : Image :=
  ⟨0xFFFFFFFF80210000#64, 0xFFFFFFFF80200104#64, 0xFFFFFFFF80200200#64, 0xFFFFFFFF80200108#64, 256⟩

/-- A trap from user mode on processor 0, with all other registers zero. -/
def userTrap : Machine :=
  ⟨fun r => if r = .sp then 0xFFFFFFFF80300000#64 else 0#64, fun _ => 0#64, fun _ => 0#64⟩

theorem userTrap_usableStack : UsableStack kernelImage userTrap :=
  ⟨by decide, by decide, by decide, by decide⟩

theorem trap_not_transparent_user_trap : ¬ Transparent kernelImage userTrap :=
  (trap_not_transparent kernelImage userTrap userTrap_usableStack (by decide)).1

/-- The trapped code had 0 in `t0` and gets 1. -/
theorem user_trap_loses_t0 :
    userTrap.csrs .sstatus &&& rv64SstatusSppBit = 0#64 ∧ UsableStack kernelImage userTrap ∧
      userTrap.reg .t0 = 0#64 ∧
      (∃ m', trapHandler kernelImage userTrap m' ∧ m'.reg .t0 = 1#64) ∧
      ¬ Transparent kernelImage userTrap := by
  have hlost := exists_trapHandler userTrap_usableStack (by decide) (r := .t0) rfl 1#64
  refine ⟨by decide, userTrap_usableStack, by decide, hlost, fun htransparent => ?_⟩
  obtain ⟨m', hrun, hone⟩ := hlost
  have hzero : m'.reg .t0 = 0#64 := htransparent m' hrun .t0
  rw [hone] at hzero
  cases hzero

end SysRv.Trap
