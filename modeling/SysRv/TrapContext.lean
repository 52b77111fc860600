import SysRv.Trap

/-!
# What the trap handler saves

The control block of the executing processor when the C exception handler starts, field by
field, and the control blocks of all other processors. `srv_hal_SaveCPUContext` is reached
by a call, which has put its return address into `ra` before anything is saved.
-/

namespace SysRv.Trap

open Function Rv64 Cpu

def sysrvMaxCpus : ℕ := 8

def controlBlock (k : Image) (n : ℕ) : Addr := k.cpus + BitVec.ofNat 64 n * srvCpuSize

/-- The 288 bytes of the context and the frames of the compiled functions fit below the
stack pointer, clear of the array of control blocks, and `tp` holds the number of one. -/
structure ClearStack (k : Image) (m : Machine) : Prop where
  aligned : (m.reg .sp).toNat % 16 = 0
  room : 288 + k.frame ≤ (m.reg .sp).toNat
  cpu : (m.reg .tp).toNat < sysrvMaxCpus
  blocks : k.cpus.toNat + 288 * sysrvMaxCpus ≤ 2 ^ 64
  apart : k.cpus.toNat + 288 * sysrvMaxCpus + 288 + k.frame ≤ (m.reg .sp).toNat ∨
    (m.reg .sp).toNat ≤ k.cpus.toNat

/-- The same for a stack pointer that need not be aligned. -/
structure ClearRoom (k : Image) (m : Machine) : Prop where
  room : 288 + k.frame ≤ (m.reg .sp).toNat
  cpu : (m.reg .tp).toNat < sysrvMaxCpus
  blocks : k.cpus.toNat + 288 * sysrvMaxCpus ≤ 2 ^ 64
  apart : k.cpus.toNat + 288 * sysrvMaxCpus + 288 + k.frame ≤ (m.reg .sp).toNat ∨
    (m.reg .sp).toNat ≤ k.cpus.toNat

section Blocks

variable {k : Image} {m m' : Machine}

theorem ClearStack.clearRoom (h : ClearStack k m) : ClearRoom k m :=
  ⟨h.room, h.cpu, h.blocks, h.apart⟩

theorem controlBlock_toNat (hblocks : k.cpus.toNat + 288 * sysrvMaxCpus ≤ 2 ^ 64) {n : ℕ}
    (hn : n < sysrvMaxCpus) : (controlBlock k n).toNat = k.cpus.toNat + 288 * n := by
  simp only [sysrvMaxCpus] at hblocks hn
  simp only [controlBlock, srvCpuSize, BitVec.toNat_add, BitVec.toNat_mul, BitVec.toNat_ofNat]
  omega

theorem ClearRoom.currentContextStruct (h : ClearRoom k m) :
    srvHalGetCurrentContextStruct k.cpus m = controlBlock k (m.reg .tp).toNat := by
  have hcpu := h.cpu
  rw [sysrvMaxCpus] at hcpu
  rw [srvHalGetCurrentContextStruct, controlBlock, srvHalGetExecutingCPU]
  congr 2
  apply BitVec.eq_of_toNat_eq
  simp only [BitVec.toNat_setWidth, BitVec.toNat_ofNat]
  omega

theorem ClearRoom.stackRoom (h : ClearRoom k m) : StackRoom k m := by
  have hcpu := h.cpu
  have hblocks := h.blocks
  have hnat := controlBlock_toNat hblocks hcpu
  rw [← h.currentContextStruct] at hnat
  simp only [sysrvMaxCpus] at hcpu hblocks
  refine ⟨h.room, by omega, ?_⟩
  rcases h.apart with hbelow | habove
  · rw [sysrvMaxCpus] at hbelow
    exact .inl (by omega)
  · exact .inr (by omega)

theorem ClearStack.usableStack (h : ClearStack k m) : UsableStack k m :=
  have hroom := h.clearRoom.stackRoom
  ⟨h.aligned, hroom.room, hroom.block, hroom.apart⟩

theorem ClearRoom.block_ne (h : ClearRoom k m) {n : ℕ} (hn : n < sysrvMaxCpus)
    (hother : n ≠ (m.reg .tp).toNat) (f g : ContextField) :
    controlBlock k n + f.offset ≠ controlBlock k (m.reg .tp).toNat + g.offset := by
  intro heq
  have hblocks := h.blocks
  have hcpu := h.cpu
  have hf := (offset_toNat f).2
  have hg := (offset_toNat g).2
  have hnat := controlBlock_toNat hblocks hn
  have hnat' := controlBlock_toNat hblocks hcpu
  simp only [sysrvMaxCpus] at hblocks hn hcpu
  have hsum := congrArg BitVec.toNat heq
  rw [toNat_add_offset (by omega), toNat_add_offset (by omega)] at hsum
  omega

theorem ClearRoom.block_ne_context (h : ClearRoom k m) {n : ℕ} (hn : n < sysrvMaxCpus)
    (f g : ContextField) : controlBlock k n + f.offset ≠ contextBase m + g.offset := by
  intro heq
  have hblocks := h.blocks
  have hroom := h.room
  have hapart := h.apart
  have hf := (offset_toNat f).2
  have hg := (offset_toNat g).2
  have hnat := controlBlock_toNat hblocks hn
  simp only [sysrvMaxCpus] at hblocks hn hapart
  have hsum := congrArg BitVec.toNat heq
  rw [toNat_add_offset (by omega), h.stackRoom.context_toNat] at hsum
  omega

theorem ClearRoom.block_notInFrame (h : ClearRoom k m) {n : ℕ} (hn : n < sysrvMaxCpus)
    (f : ContextField) : ¬ InFrame (contextBase m) k.frame (controlBlock k n + f.offset) := by
  have hblocks := h.blocks
  have hroom := h.room
  have hapart := h.apart
  have hsp := (m.reg .sp).isLt
  have hf := (offset_toNat f).2
  have hnat := controlBlock_toNat hblocks hn
  have hbase := h.stackRoom.base_toNat
  simp only [sysrvMaxCpus] at hblocks hn hapart
  have hsum : (controlBlock k n + f.offset).toNat = _ := toNat_add_offset (by omega) f
  rintro ⟨hpos, hle⟩
  rw [BitVec.toNat_sub] at hpos hle
  rcases hapart with hbelow | habove <;> omega

theorem ClearRoom.setReg_ra (h : ClearRoom k m) (site : Word) : ClearRoom k (m.setReg .ra site) := by
  have hsp : (m.setReg .ra site).reg .sp = m.reg .sp := Machine.setReg_reg_ne _ _ (by decide)
  have htp : (m.setReg .ra site).reg .tp = m.reg .tp := Machine.setReg_reg_ne _ _ (by decide)
  exact ⟨hsp ▸ h.room, htp ▸ h.cpu, h.blocks, hsp ▸ h.apart⟩

theorem ClearStack.setReg_ra (h : ClearStack k m) (site : Word) : ClearStack k (m.setReg .ra site) := by
  have hsp : (m.setReg .ra site).reg .sp = m.reg .sp := Machine.setReg_reg_ne _ _ (by decide)
  have hroom := h.clearRoom.setReg_ra site
  exact ⟨hsp ▸ h.aligned, hroom.room, hroom.cpu, hroom.blocks, hroom.apart⟩

/-- Saving writes its own stack, and the control block of the executing processor. -/
theorem srvHalSaveCPUContext_untouched (hstack : StackRoom k m) (h : srvHalSaveCPUContext k m m')
    {a : Addr} (hframe : ¬ InFrame (contextBase m) k.frame a)
    (hcontext : ∀ f : ContextField, a ≠ contextBase m + f.offset)
    (hblock : ∀ f : ContextField, a ≠ srvHalGetCurrentContextStruct k.cpus m + f.offset) :
    m'.mem a = m.mem a := by
  obtain ⟨m₁, hcall, rfl, -⟩ := h
  rw [run_mem _ (by decide), saveToBlock_mem hstack hcall hframe, writeFields_of_notMem,
    saveContext_mem, writeFields_of_notMem]
  · intro p hp
    obtain ⟨f, -, rfl⟩ := List.mem_map.mp hp
    exact hcontext f
  · intro p hp
    obtain ⟨f, -, rfl⟩ := List.mem_map.mp hp
    exact hblock f

end Blocks

/-- From the trap to the first instruction of `srv_arch_ExceptionHandler`. -/
def exceptionHandlerStarts (k : Image) : Proc := fun m m' =>
  ∃ m₁, call k.afterSaveContext (srvHalSaveCPUContext k) m m₁ ∧
    m' = m₁.setReg .ra k.afterExceptionHandler

/-- Whenever the exception handler starts, the control block of the executing processor
holds the registers at the trap, and the control blocks of the others are as they were. -/
def ContextSaved (k : Image) (m : Machine) : Prop :=
  ∀ m', exceptionHandlerStarts k m m' →
    (∀ f, contextField m'.mem (controlBlock k (m.reg .tp).toNat) f = f.value m) ∧
      ∀ n < sysrvMaxCpus, n ≠ (m.reg .tp).toNat → ∀ f,
        contextField m'.mem (controlBlock k n) f = contextField m.mem (controlBlock k n) f

section Saved

variable {k : Image} {m m' : Machine}

theorem ClearRoom.exists_exceptionHandlerStarts (hstack : ClearRoom k m) :
    ∃ m', exceptionHandlerStarts k m m' := by
  obtain ⟨m₁, hsave⟩ :=
    (hstack.setReg_ra k.afterSaveContext).stackRoom.exists_srvHalSaveCPUContext
  exact ⟨_, m₁, hsave, rfl⟩

/-- What is saved are the registers with the return address of the call in `ra`. -/
theorem ClearRoom.exceptionHandlerStarts_block (hstack : ClearRoom k m)
    (h : exceptionHandlerStarts k m m') (f : ContextField) :
    contextField m'.mem (controlBlock k (m.reg .tp).toNat) f =
      f.value (m.setReg .ra k.afterSaveContext) := by
  obtain ⟨m₁, hsave, rfl⟩ := h
  have hstack' := hstack.setReg_ra k.afterSaveContext
  have hblock := (srvHalSaveCPUContext_saved hstack'.stackRoom hsave).block f
  rw [hstack'.currentContextStruct, Machine.setReg_reg_ne _ _ (by decide)] at hblock
  exact hblock

theorem exceptionHandlerStarts_block (hstack : ClearStack k m) (h : exceptionHandlerStarts k m m')
    (f : ContextField) : contextField m'.mem (controlBlock k (m.reg .tp).toNat) f =
      f.value (m.setReg .ra k.afterSaveContext) :=
  hstack.clearRoom.exceptionHandlerStarts_block h f

theorem exceptionHandlerStarts_others (hstack : ClearStack k m) (h : exceptionHandlerStarts k m m')
    {n : ℕ} (hn : n < sysrvMaxCpus) (hother : n ≠ (m.reg .tp).toNat) (f : ContextField) :
    contextField m'.mem (controlBlock k n) f = contextField m.mem (controlBlock k n) f := by
  obtain ⟨m₁, hsave, rfl⟩ := h
  have hstack' := hstack.clearRoom.setReg_ra k.afterSaveContext
  have htp : (m.setReg .ra k.afterSaveContext).reg .tp = m.reg .tp :=
    Machine.setReg_reg_ne _ _ (by decide)
  refine srvHalSaveCPUContext_untouched hstack'.stackRoom hsave (hstack'.block_notInFrame hn f)
    (hstack'.block_ne_context hn f) fun g => ?_
  rw [hstack'.currentContextStruct]
  exact hstack'.block_ne hn (by rwa [htp]) f g

theorem value_setReg_ra (m : Machine) (site : Word) {f : ContextField} (hf : f ≠ .reg .ra) :
    f.value (m.setReg .ra site) = f.value m := by
  cases f with
  | reg r => exact Machine.setReg_reg_ne _ _ fun hr => hf (congrArg _ hr)
  | csr c => rfl

end Saved

/-- The saved context is that of the trapped code if and only if `ra` held, at the trap, the
address that the call in the trap handler puts there. -/
theorem context_saved_iff (k : Image) (m : Machine) (hstack : ClearStack k m) :
    ContextSaved k m ↔ m.reg .ra = k.afterSaveContext := by
  have hra : ContextField.value (m.setReg .ra k.afterSaveContext) (.reg .ra) = k.afterSaveContext :=
    Machine.setReg_reg_self _ _ (by decide)
  constructor
  · intro hsaved
    obtain ⟨m₁, hsave⟩ :=
      exists_srvHalSaveCPUContext (hstack.setReg_ra k.afterSaveContext).usableStack
    have hstarts : exceptionHandlerStarts k m (m₁.setReg .ra k.afterExceptionHandler) :=
      ⟨m₁, hsave, rfl⟩
    have hfield := (hsaved _ hstarts).1 (.reg .ra)
    rw [exceptionHandlerStarts_block hstack hstarts, hra] at hfield
    exact hfield.symm
  · intro hsame m' hstarts
    refine ⟨fun f => ?_, fun n hn hother f => exceptionHandlerStarts_others hstack hstarts hn hother f⟩
    rw [exceptionHandlerStarts_block hstack hstarts]
    by_cases hf : f = .reg .ra
    · rw [hf, hra, ← hsame]
      rfl
    · exact value_setReg_ra m _ hf

/-- The trap of `userTrap`, with the return address that the handler's call will use. -/
def sameReturnTrap : Machine := userTrap.setReg .ra kernelImage.afterSaveContext

theorem context_saved_same_return : ContextSaved kernelImage sameReturnTrap :=
  (context_saved_iff kernelImage sameReturnTrap ⟨by decide, by decide, by decide, by decide,
    by decide⟩).mpr (by decide)

/-- The trapped code had 0 in `ra`, and the control block says otherwise. -/
theorem user_trap_saves_wrong_ra :
    ClearStack kernelImage userTrap ∧ userTrap.reg .ra = 0#64 ∧
      (∃ m', exceptionHandlerStarts kernelImage userTrap m' ∧
        contextField m'.mem (controlBlock kernelImage 0) (.reg .ra) = 0xFFFFFFFF80200104#64) ∧
      ¬ ContextSaved kernelImage userTrap := by
  have hstack : ClearStack kernelImage userTrap :=
    ⟨by decide, by decide, by decide, by decide, by decide⟩
  obtain ⟨m₁, hsave⟩ :=
    exists_srvHalSaveCPUContext (hstack.setReg_ra kernelImage.afterSaveContext).usableStack
  have hstarts : exceptionHandlerStarts kernelImage userTrap
      (m₁.setReg .ra kernelImage.afterExceptionHandler) := ⟨m₁, hsave, rfl⟩
  have hfield : contextField (m₁.setReg .ra kernelImage.afterExceptionHandler).mem
      (controlBlock kernelImage 0) (.reg .ra) = 0xFFFFFFFF80200104#64 :=
    exceptionHandlerStarts_block hstack hstarts (.reg .ra)
  refine ⟨hstack, rfl, ⟨_, hstarts, hfield⟩, fun hsaved => ?_⟩
  have hzero : contextField (m₁.setReg .ra kernelImage.afterExceptionHandler).mem
      (controlBlock kernelImage 0) (.reg .ra) = 0#64 := (hsaved _ hstarts).1 (.reg .ra)
  rw [hfield] at hzero
  cases hzero

end SysRv.Trap
