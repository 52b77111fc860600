import SysRv.BootPaging

/-!
# The run of the boot hart
-/

namespace SysRv.Boot
open Function Rv64 Sv39 BootMap ReservedMemory

section Bare

variable {y : BootSymbols} {P : Placement (start y)} {u : Bool} {h : Hart} {mem : Mem}

theorem start_length (y : BootSymbols) : (start y).length = 45 := rfl

theorem start_drop_bootMap (y : BootSymbols) : (start y).drop bootMapLabel =
    bootMapVirtToPhys.map Op.line ++ [.jr .ra, .j bootParkLabel] := rfl

theorem bootMap_mem (m : Machine) : (m.run bootMapVirtToPhys).mem =
    update m.mem (entryAddress (m.reg .a0) (rootIndex (m.reg .a2))) (gigapage (m.reg .a1)) := by
  rw [← entryAddress_shift]
  simp [bootMapVirtToPhys, Machine.exec, Machine.address, gigapage, rootIndex]

theorem bootMap_reg (m : Machine) {r : Reg} (h₀ : r ≠ .t0) (h₁ : r ≠ .t1) (h₂ : r ≠ .t2) :
    (m.run bootMapVirtToPhys).reg r = m.reg r :=
  run_reg _ (by simp [bootMapVirtToPhys, Instr.target, h₀.symm, h₁.symm, h₂.symm])

/-- `__boot_map_virt_to_phys` without translation, from its first instruction to its caller. -/
theorem bootMap_run (u : Bool) (mem : Mem) {label : ℕ} (hpc : h.pc = P.place bootMapLabel)
    (hmode : satpMode h.satp = 0) (hra : h.reg .ra = P.place label) (hlabel : label ≤ 45) :
    ∃ h', Steps P (mmu u) 10 h mem h'
        (update mem (entryAddress (h.reg .a0) (rootIndex (h.reg .a2))) (gigapage (h.reg .a1))) ∧
      h'.pc = P.place label ∧ h'.satp = h.satp ∧
      ∀ r, r ≠ .t0 → r ≠ .t1 → r ≠ .t2 → h'.reg r = h.reg r := by
  have hbare := mmu_bare u hmode
  have hline := steps_line_bare mem (start_drop_bootMap y) hpc hbare
  rw [bootMap_mem] at hline
  have hjr : (start y)[bootMapLabel + bootMapVirtToPhys.length]? = some (.jr .ra) := rfl
  have hreturn := hline.snoc (Hart.step_jalr (by rfl) (by rfl) (hbare _ _ _) hjr)
  refine ⟨_, hreturn, ?_, rfl, fun r h₀ h₁ h₂ => ?_⟩
  · have hkept := bootMap_reg (h.withMem mem) (r := .ra) (by decide) (by decide) (by decide)
    simp only [Hart.goto_pc, Hart.goto_reg, Hart.withRegs_reg, hkept, Hart.withMem_reg, hra]
    exact P.place_clear (start_length y ▸ hlabel)
  · simp only [Hart.goto_reg, Hart.setReg_zero_reg, Hart.withRegs_reg, bootMap_reg _ h₀ h₁ h₂,
      Hart.withMem_reg]

/-- A line without loads and stores, before the translation is turned on. -/
theorem bare_line_run (mem : Mem) (line : List Instr) {i : ℕ} {rest : List Op}
    (hcode : (start y).drop i = line.map Op.line ++ rest)
    (hline : ∀ instr ∈ line, instr.isAccess = false) (hpc : h.pc = P.place i)
    (hmode : satpMode h.satp = 0) :
    ∃ h', Steps P (mmu u) line.length h mem h' mem ∧ h'.pc = P.place (i + line.length) ∧
      h'.satp = h.satp ∧ ∀ r, h'.reg r = ((h.withMem mem).run line).reg r :=
  ⟨_, steps_line hcode hpc hline fun _ _ _ => mmu_bare u hmode _ _ _, rfl, rfl, fun _ => rfl⟩

/-- From `_start` to the first call of the mapper. -/
theorem entry_run (u : Bool) (mem : Mem) {fdt : Word} (hpc : h.pc = P.place 0)
    (hmode : satpMode h.satp = 0) (hid : h.reg .a0 = 0#64) (hfdt : h.reg .a1 = fdt) :
    ∃ h', Steps P (mmu u) 8 h mem h' mem ∧ h'.pc = P.place bootMapLabel ∧ h'.satp = h.satp ∧
      h'.reg .a0 = y.bootRootPageTable ∧ h'.reg .a1 = bootStart ∧ h'.reg .a2 = bootStart ∧
      h'.reg .ra = P.place 8 ∧ h'.reg .tp = 0#64 ∧ h'.reg .t6 = fdt := by
  obtain ⟨h₁, hsteps₁, hpc₁, hsatp₁, hreg₁⟩ := bare_line_run (u := u) (y := y) mem
    [.li .t0 0#64, .mv .tp .a0] rfl (by decide) hpc hmode
  have hmode₁ : satpMode h₁.satp = 0 := hsatp₁ ▸ hmode
  have hbne : h₁.step P (mmu u) mem = .runs (h₁.goto (P.place 3)) mem := by
    rw [Hart.step_bne hpc₁ rfl (mmu_bare u hmode₁ _ _ _) rfl, hreg₁ .a0, hreg₁ .t0]
    simp [Machine.exec, hid]
  obtain ⟨h₂, hsteps₂, hpc₂, hsatp₂, hreg₂⟩ := bare_line_run (u := u) (y := y)
    (h := h₁.goto (P.place 3)) mem
    [.mv .t6 .a1, .li .a0 y.bootRootPageTable, .li .a1 bootStart, .mv .a2 .a1] rfl
    (by simp [Instr.isAccess]) rfl hmode₁
  have hjal : h₂.step P (mmu u) mem = _ := Hart.step_jal hpc₂ hsatp₂ (mmu_bare u hmode₁ _ _ _) rfl
  refine ⟨_, ((hsteps₁.snoc hbne).trans hsteps₂).snoc hjal, rfl, ?_, ?_⟩
  · simp [hsatp₂, hsatp₁]
  · simp [hreg₂, hreg₁, Machine.exec, hid, hfdt]

theorem second_call_run (u : Bool) (mem : Mem) (hpc : h.pc = P.place 8) (hmode : satpMode h.satp = 0) :
    ∃ h', Steps P (mmu u) 5 h mem h' mem ∧ h'.pc = P.place bootMapLabel ∧ h'.satp = h.satp ∧
      h'.reg .a0 = y.bootRootPageTable ∧ h'.reg .a1 = bootStart ∧
      h'.reg .a2 = 0xFFFFFFFF00000000#64 + bootStart ∧ h'.reg .ra = P.place 13 ∧
      h'.reg .tp = h.reg .tp ∧ h'.reg .t6 = h.reg .t6 := by
  obtain ⟨h₁, hsteps₁, hpc₁, hsatp₁, hreg₁⟩ := bare_line_run (u := u) (y := y) mem
    [.li .a0 y.bootRootPageTable, .li .a1 bootStart, .li .a2 0xFFFFFFFF00000000#64,
      .add .a2 .a2 .a1] rfl (by simp [Instr.isAccess]) hpc hmode
  have hjal : h₁.step P (mmu u) mem = _ := Hart.step_jal hpc₁ hsatp₁ (mmu_bare u hmode _ _ _) rfl
  refine ⟨_, hsteps₁.snoc hjal, rfl, hsatp₁, ?_⟩
  simp [hreg₁, Machine.exec]

def bootSatp (root : Addr) : Word := (root >>> 12) ||| (8#64 <<< 60)

/-- From the return of the second call to the write of `satp`. -/
theorem satp_run (u : Bool) (mem : Mem) (hpc : h.pc = P.place 13) (hmode : satpMode h.satp = 0)
    (haccepts : (mmu u).accepts (bootSatp (h.reg .a0)) = true) :
    ∃ h', Steps P (mmu u) 5 h mem h' mem ∧ h'.pc = P.place 18 ∧ h'.satp = bootSatp (h.reg .a0) ∧
      h'.reg .tp = h.reg .tp ∧ h'.reg .t6 = h.reg .t6 := by
  obtain ⟨h₁, hsteps₁, hpc₁, hsatp₁, hreg₁⟩ := bare_line_run (u := u) (y := y) mem
    bootSatpLine rfl (by decide) hpc hmode
  have ha0 : h₁.reg .a0 = bootSatp (h.reg .a0) := by
    simp [hreg₁, bootSatpLine, Machine.exec, bootSatp]
  have hcsrw : h₁.step P (mmu u) mem = _ :=
    Hart.step_csrwSatp hpc₁ hsatp₁ (mmu_bare u hmode _ _ _) rfl
  refine ⟨_, hsteps₁.snoc hcsrw, rfl, ?_, ?_⟩
  · rw [Hart.goto_satp, ha0, Hart.setSatp, if_pos haccepts]
  · simp [hreg₁, bootSatpLine, Machine.exec]

end Bare

section Layout

variable (b : BootImage)

theorem kernelVaPaOffset_toNat : kernelVaPaOffset.toNat = 0xFFFFFFFF00000000 := by decide

theorem kernelPhysicalStart_toNat : kernelPhysicalStart.toNat = 0x80200000 := by decide

/-- What the linker script says of the boot section and of the end of the image. -/
theorem BootImage.bounds : b.bootInfo.toNat + 32 ≤ b.root.toNat ∧
    b.root.toNat + 4096 ≤ b.layout.bootEnd.toNat ∧
    b.layout.bootEnd.toNat + 0xFFFFFFFF00000000 ≤ b.layout.kernelStackBottom.toNat ∧
    b.layout.kernelStackBottom.toNat + 0x101000 ≤ 0xFFFFFFFFC0000000 := by
  have hstack := b.layout.stack_start
  have hend := b.layout.stack_end
  have hheap := b.layout.heap_end
  have himage := b.image_end
  rw [kernelVaPaOffset_toNat] at hstack
  exact ⟨b.info_end, b.layout.root_end, hstack, by omega⟩

theorem BootImage.place_bounds {k : ℕ} (hk : k ≤ 45) :
    0x80200000 ≤ (b.placement.place k).toNat ∧ (b.placement.place k).toNat ≤ b.bootInfo.toNat := by
  have hnat : (b.placement.place k).toNat = kernelPhysicalStart.toNat + b.placement.offset k :=
    b.placement.place_toNat (start_length b.symbols ▸ hk)
  have hle : b.placement.offset k ≤ ((List.range 45).map b.size).sum := b.placement.offset_le hk
  have hcode := b.code_end
  rw [kernelPhysicalStart_toNat] at hnat hcode
  omega

theorem BootImage.bootPhysical_boot {va : Addr} (hlow : 0x80200000 ≤ va.toNat)
    (hhigh : va.toNat < b.layout.bootEnd.toNat) : bootPhysical va = some va := by
  obtain ⟨-, -, hboot, hstack⟩ := b.bounds
  exact if_pos ⟨by omega, by omega⟩

theorem BootImage.bootPhysical_place {k : ℕ} (hk : k ≤ 45) :
    bootPhysical (b.placement.place k) = some (b.placement.place k) := by
  obtain ⟨hlow, hhigh⟩ := b.place_bounds hk
  obtain ⟨hinfo, hroot, -, -⟩ := b.bounds
  exact b.bootPhysical_boot hlow (by omega)

theorem BootImage.info_toNat {o : Word} (ho : o.toNat < 32) :
    (b.bootInfo + o).toNat = b.bootInfo.toNat + o.toNat := by
  obtain ⟨hinfo, hroot, hboot, hstack⟩ := b.bounds
  rw [BitVec.toNat_add]
  omega

theorem BootImage.bootPhysical_info {o : Word} (ho : o.toNat < 32) :
    bootPhysical (b.bootInfo + o) = some (b.bootInfo + o) := by
  obtain ⟨hlow, hhigh⟩ := b.place_bounds (k := 0) (by decide)
  obtain ⟨hinfo, hroot, hboot, hstack⟩ := b.bounds
  have hnat := b.info_toNat ho
  exact b.bootPhysical_boot (by omega) (by omega)

theorem BootImage.bootPhysical_kernel {va : Addr}
    (hlow : b.layout.kernelVirtualStart.toNat ≤ va.toNat)
    (hhigh : va.toNat < b.layout.kernelVirtualEnd.toNat) :
    bootPhysical va = some (va - kernelVaPaOffset) ∧
      (va - kernelVaPaOffset).toNat = va.toNat - 0xFFFFFFFF00000000 ∧
      b.layout.bootEnd.toNat ≤ (va - kernelVaPaOffset).toNat := by
  have hstart := b.layout.kernelVirtualStart_toNat
  have himage := b.image_end
  have hlt := va.isLt
  obtain ⟨hlow', hhigh'⟩ := b.place_bounds (k := 0) (by decide)
  obtain ⟨hinfo, hroot, hboot, hstack⟩ := b.bounds
  rw [kernelVaPaOffset_toNat] at hstart
  have hnat : (va - kernelVaPaOffset).toNat = va.toNat - 0xFFFFFFFF00000000 := by
    rw [BitVec.toNat_sub, kernelVaPaOffset_toNat]
    omega
  refine ⟨?_, hnat, by omega⟩
  rw [bootPhysical, if_neg (by omega), if_pos (by omega)]

def BootImage.stackWord : Addr := b.kernelStackTop - 8#64

theorem BootImage.stackWord_toNat :
    b.stackWord.toNat = b.layout.kernelStackBottom.toNat + 0xFF8 := by
  have hstack := b.bounds.2.2.2
  rw [BootImage.stackWord, BootImage.kernelStackTop, BitVec.toNat_sub, BitVec.toNat_add]
  simp only [BitVec.toNat_ofNat]
  omega

theorem BootImage.bootPhysical_stackWord :
    bootPhysical b.stackWord = some (b.stackWord - kernelVaPaOffset) ∧
      b.layout.bootEnd.toNat ≤ (b.stackWord - kernelVaPaOffset).toNat := by
  have hstart := b.layout.kernelVirtualStart_toNat
  have hbegin := b.layout.stack_start
  have hend := b.layout.stack_end
  have hheap := b.layout.heap_end
  have hword := b.stackWord_toNat
  have hlow : b.layout.kernelVirtualStart.toNat ≤ b.stackWord.toNat := by omega
  have hmapped := b.bootPhysical_kernel hlow (by omega)
  exact ⟨hmapped.1, hmapped.2.2⟩

theorem BootImage.entry_toNat {index : ℕ} (hindex : index < 512) :
    (pteAddress b.root index).toNat = b.root.toNat + 8 * index := by
  obtain ⟨hinfo, hroot, hboot, hstack⟩ := b.bounds
  rw [pteAddress, BitVec.toNat_add, BitVec.toNat_ofNat]
  omega

theorem BootImage.satp (u : Bool) : (mmu u).accepts (bootSatp b.root) = true ∧
    satpMode (bootSatp b.root) = 8 ∧ satpRoot (bootSatp b.root) = b.root := by
  obtain ⟨hinfo, hroot, hboot, hstack⟩ := b.bounds
  have haligned : b.root.toNat % 4096 = 0 := b.layout.root_aligned
  have hlt : b.root.toNat / 4096 < 2 ^ 63 := by omega
  have hnat : (bootSatp b.root).toNat = 2 ^ 63 + b.root.toNat / 4096 := by
    have hmode : (8#64 <<< 60).toNat = 2 ^ 63 * 1 := by decide
    have hor := Nat.two_pow_add_eq_or_of_lt hlt 1
    rw [bootSatp, BitVec.toNat_or, BitVec.toNat_ushiftRight, Nat.shiftRight_eq_div_pow, hmode,
      Nat.or_comm, ← hor, Nat.mul_one]
  have hmode : satpMode (bootSatp b.root) = 8 := by
    rw [satpMode, hnat]
    omega
  refine ⟨by simp [mmu, hmode], hmode, ?_⟩
  apply BitVec.eq_of_toNat_eq
  rw [satpRoot, hnat, BitVec.toNat_ofNat]
  omega

end Layout

structure RunsPaged (b : BootImage) (k : ℕ) (h : Hart) (mem : Mem) : Prop where
  pc : h.pc = b.placement.place k
  mode : satpMode h.satp = 8
  root : satpRoot h.satp = b.root
  table : BootTable b.root mem
  fetched : mem (pteAddress b.root 2) ||| marks .fetch = mem (pteAddress b.root 2)

def storeThrough (root : Addr) (mem : Mem) (va pa v : Addr) : Mem :=
  update (touch root .store mem va) pa v

section Paged

variable {b : BootImage} {h : Hart} {mem : Mem} {k : ℕ}

theorem vpnField_low {va : Addr} (h : 0x80200000 ≤ va.toNat) (h' : va.toNat < 0xC0000000) :
    vpnField va 2 = 2 := by
  rw [vpnField_two]
  omega

/-- An entry that has A set stays as it is when code is fetched through it. -/
theorem RunsPaged.fetch (hrun : RunsPaged b k h mem) {i : ℕ} (hi : i ≤ 45) :
    (mmu true).translate h.satp .fetch mem (b.placement.place i) =
      some (b.placement.place i, mem) := by
  obtain ⟨hlow, hhigh⟩ := b.place_bounds hi
  obtain ⟨hinfo, hroot, hboot, hstack⟩ := b.bounds
  have hsame : touch b.root .fetch mem (b.placement.place i) = mem := by
    rw [touch, vpnField_low hlow (by omega), hrun.fetched, update_eq_self]
  rw [hrun.table.translate hrun.mode hrun.root, b.bootPhysical_place hi, hsame]
  rfl

/-- A line without loads and stores, fetched through the identity map. -/
theorem RunsPaged.line (hrun : RunsPaged b k h mem) (k' : ℕ) (line : List Instr) {rest : List Op}
    (hcode : (start b.symbols).drop k = line.map Op.line ++ rest)
    (hline : ∀ instr ∈ line, instr.isAccess = false) (hnext : k + line.length = k') (hk : k' ≤ 45) :
    ∃ h', Steps b.placement (mmu true) line.length h mem h' mem ∧ RunsPaged b k' h' mem ∧
      h'.satp = h.satp ∧ ∀ r, h'.reg r = ((h.withMem mem).run line).reg r := by
  subst hnext
  exact ⟨_, steps_line hcode hrun.pc hline fun _ _ hlt => hrun.fetch (by omega),
    ⟨rfl, hrun.mode, hrun.root, hrun.table, hrun.fetched⟩, rfl, fun _ => rfl⟩

theorem RunsPaged.sd (hrun : RunsPaged b k h mem) (rs base : Reg) (offset : BitVec 12) {va pa : Addr}
    (hop : (start b.symbols)[k]? = some (.line (.sd rs offset base)))
    (haddress : h.reg base + offset.signExtend 64 = va) (hpa : bootPhysical va = some pa)
    (houtside : ∀ index < 512, pa ≠ pteAddress b.root index) (hk : k ≤ 45) :
    Steps b.placement (mmu true) 1 h mem (h.goto (b.placement.place (k + 1)))
        (storeThrough b.root mem va pa (h.reg rs)) ∧
      RunsPaged b (k + 1) (h.goto (b.placement.place (k + 1)))
        (storeThrough b.root mem va pa (h.reg rs)) := by
  have hsome : bootPhysical va ≠ none := by simp [hpa]
  have htable := hrun.table.touch .store hsome
  have hstore := hrun.table.translate hrun.mode hrun.root .store va
  rw [hpa] at hstore
  refine ⟨.cons (Hart.step_sd hrun.pc rfl (hrun.fetch hk) hop haddress hstore) ⟨rfl, rfl⟩,
    rfl, hrun.mode, hrun.root, htable.update houtside _, ?_⟩
  rw [storeThrough, update_of_ne (Ne.symm (houtside 2 (by decide))), touch_apply]
  split
  · rw [BitVec.or_assoc]
    rfl
  · exact hrun.fetched

theorem RunsPaged.ld (hrun : RunsPaged b k h mem) (rd base : Reg) (offset : BitVec 12) {va pa : Addr}
    (hop : (start b.symbols)[k]? = some (.line (.ld rd offset base)))
    (haddress : h.reg base + offset.signExtend 64 = va) (hpa : bootPhysical va = some pa)
    (houtside : ∀ index < 512, pa ≠ pteAddress b.root index) (hk : k ≤ 45) :
    Steps b.placement (mmu true) 1 h mem ((h.setReg rd (mem pa)).goto (b.placement.place (k + 1)))
        (touch b.root .load mem va) ∧
      RunsPaged b (k + 1) ((h.setReg rd (mem pa)).goto (b.placement.place (k + 1)))
        (touch b.root .load mem va) := by
  have hload := hrun.table.translate hrun.mode hrun.root .load va
  rw [hpa] at hload
  have hstep := Hart.step_ld hrun.pc rfl (hrun.fetch hk) hop haddress hload
  rw [touch_outside houtside] at hstep
  refine ⟨.cons hstep ⟨rfl, rfl⟩, rfl, hrun.mode, hrun.root,
    hrun.table.touch .load (by simp [hpa]), ?_⟩
  rw [touch_apply]
  split
  · rw [BitVec.or_assoc]
    rfl
  · exact hrun.fetched

theorem sfence_run (hpc : h.pc = b.placement.place 18) (hsatp : h.satp = bootSatp b.root)
    (htable : BootTable b.root mem) :
    Steps b.placement (mmu true) 1 h mem (h.goto (b.placement.place 19))
        (touch b.root .fetch mem (b.placement.place 18)) ∧
      RunsPaged b 19 (h.goto (b.placement.place 19))
        (touch b.root .fetch mem (b.placement.place 18)) := by
  obtain ⟨-, hmode, hroot⟩ := b.satp true
  have hplace := b.bootPhysical_place (k := 18) (by decide)
  have hfetch := htable.translate hmode hroot .fetch (b.placement.place 18)
  rw [hplace] at hfetch
  obtain ⟨hlow, hhigh⟩ := b.place_bounds (k := 18) (by decide)
  obtain ⟨hinfo, hrootend, hboot, hstack⟩ := b.bounds
  refine ⟨.cons (Hart.step_sfenceVma hpc hsatp hfetch rfl) ⟨rfl, rfl⟩,
    ⟨rfl, by rw [Hart.goto_satp, hsatp, hmode], by rw [Hart.goto_satp, hsatp, hroot],
      htable.touch .fetch (by simp [hplace]), ?_⟩⟩
  rw [touch_apply, if_pos (by rw [vpnField_low hlow (by omega)]), BitVec.or_assoc, BitVec.or_self]

theorem BootImage.info_ne_entry (b : BootImage) {o : Word} (ho : o.toNat < 32) {index : ℕ}
    (hindex : index < 512) : b.bootInfo + o ≠ pteAddress b.root index := by
  intro heq
  have hnat := congrArg BitVec.toNat heq
  rw [b.info_toNat ho, b.entry_toNat hindex] at hnat
  have hinfo := b.bounds.1
  omega

theorem RunsPaged.sd_info (hrun : RunsPaged b k h mem) (rs : Reg) (offset : BitVec 12)
    (hop : (start b.symbols)[k]? = some (.line (.sd rs offset .a0))) (hk : k ≤ 45)
    (ha0 : h.reg .a0 = b.bootInfo) (ho : (offset.signExtend 64).toNat < 32) :
    Steps b.placement (mmu true) 1 h mem (h.goto (b.placement.place (k + 1)))
        (storeThrough b.root mem (b.bootInfo + offset.signExtend 64)
          (b.bootInfo + offset.signExtend 64) (h.reg rs)) ∧
      RunsPaged b (k + 1) (h.goto (b.placement.place (k + 1)))
        (storeThrough b.root mem (b.bootInfo + offset.signExtend 64)
          (b.bootInfo + offset.signExtend 64) (h.reg rs)) :=
  hrun.sd rs .a0 offset hop (by rw [ha0]) (b.bootPhysical_info ho) (fun _ => b.info_ne_entry ho) hk

/-- The four words of `boot_info`, in the order of the stores. -/
def infoFields (fdt : Word) : List (Word × Word) :=
  [(0#64, kernelPhysicalStart), (8#64, physicalMemoryStart), (16#64, fdt),
    (24#64, physicalMemoryStart)]

def infoMem (b : BootImage) (fdt : Word) (mem : Mem) : Mem :=
  (infoFields fdt).foldl
    (fun mem f => storeThrough b.root mem (b.bootInfo + f.1) (b.bootInfo + f.1) f.2) mem

theorem info_run {fdt : Word} (hrun : RunsPaged b 19 h mem) (hfdt : h.reg .t6 = fdt) :
    ∃ h', Steps b.placement (mmu true) 7 h mem h' (infoMem b fdt mem) ∧
      RunsPaged b 26 h' (infoMem b fdt mem) ∧ h'.satp = h.satp ∧ h'.reg .a0 = b.bootInfo ∧
      h'.reg .tp = h.reg .tp := by
  obtain ⟨h₁, hsteps₁, hrun₁, hsatp₁, hreg₁⟩ := hrun.line 22 [.li .a0 b.bootInfo,
    .li .t0 kernelPhysicalStart, .li .t1 physicalMemoryStart] rfl (by simp [Instr.isAccess]) rfl
    (by decide)
  have ha0 : h₁.reg .a0 = b.bootInfo := by simp [hreg₁, Machine.exec]
  have ht0 : h₁.reg .t0 = kernelPhysicalStart := by simp [hreg₁, Machine.exec]
  have ht1 : h₁.reg .t1 = physicalMemoryStart := by simp [hreg₁, Machine.exec]
  have ht6 : h₁.reg .t6 = fdt := by simp [hreg₁, Machine.exec, hfdt]
  have htp : h₁.reg .tp = h.reg .tp := by simp [hreg₁, Machine.exec]
  obtain ⟨hsteps₂, hrun₂⟩ := hrun₁.sd_info .t0 0#12 rfl (by decide) ha0 (by decide)
  obtain ⟨hsteps₃, hrun₃⟩ := hrun₂.sd_info .t1 8#12 rfl (by decide) ha0 (by decide)
  obtain ⟨hsteps₄, hrun₄⟩ := hrun₃.sd_info .t6 16#12 rfl (by decide) ha0 (by decide)
  obtain ⟨hsteps₅, hrun₅⟩ := hrun₄.sd_info .t1 24#12 rfl (by decide) ha0 (by decide)
  have hsteps := (((hsteps₁.trans hsteps₂).trans hsteps₃).trans hsteps₄).trans hsteps₅
  simp only [Hart.goto_reg, ht0, ht1, ht6] at hsteps hrun₅
  exact ⟨_, hsteps, hrun₅, hsatp₁, ha0, htp⟩

/-- The stack pointer is set, `a0` goes over the stack, and `srv_arch_Init` is called. -/
theorem call_run (hrun : RunsPaged b 26 h mem) (ha0 : h.reg .a0 = b.bootInfo) :
    ∃ h' mem', Steps b.placement (mmu true) 7 h mem h' mem' ∧ h'.pc = b.srvArchInit ∧
      h'.satp = h.satp ∧ BootTable b.root mem' ∧ h'.reg .a0 = b.bootInfo ∧
      h'.reg .sp = b.stackWord ∧ h'.reg .ra = b.placement.place 33 ∧ h'.reg .tp = h.reg .tp ∧
      mem' (b.stackWord - kernelVaPaOffset) = b.bootInfo ∧
      ∀ a, (∀ index < 512, a ≠ pteAddress b.root index) → a ≠ b.stackWord - kernelVaPaOffset →
        mem' a = mem a := by
  obtain ⟨h₁, hsteps₁, hrun₁, hsatp₁, hreg₁⟩ := hrun.line 29 [
    .li .t0 b.kernelStackTop, .mv .sp .t0, .addi .sp .sp (-8#12)] rfl (by simp [Instr.isAccess])
    rfl (by decide)
  have hsp₁ : h₁.reg .sp = b.stackWord := by
    rw [hreg₁, BootImage.stackWord, BitVec.sub_eq_add_neg]
    simp [Machine.exec]
  have haddr : ∀ h' : Hart, h'.reg .sp = b.stackWord →
      h'.reg .sp + (0#12).signExtend 64 = b.stackWord := fun h' hsp => by simp [hsp]
  obtain ⟨hpa, hlow⟩ := b.bootPhysical_stackWord
  have houtside : ∀ index < 512, b.stackWord - kernelVaPaOffset ≠ pteAddress b.root index := by
    intro index hindex heq
    have hnat := congrArg BitVec.toNat heq
    have hroot := b.bounds.2.1
    rw [b.entry_toNat hindex] at hnat
    omega
  obtain ⟨hsteps₂, hrun₂⟩ := hrun₁.sd .a0 .sp 0#12 rfl
    (haddr h₁ hsp₁) hpa houtside (by decide)
  obtain ⟨hsteps₃, hrun₃⟩ := hrun₂.ld .a0 .sp 0#12 rfl
    (haddr _ hsp₁) hpa houtside (by decide)
  have hword : storeThrough b.root mem b.stackWord (b.stackWord - kernelVaPaOffset) (h₁.reg .a0)
      (b.stackWord - kernelVaPaOffset) = b.bootInfo := by
    rw [storeThrough, update_self, hreg₁]
    simp [Machine.exec, ha0]
  rw [hword] at hsteps₃ hrun₃
  obtain ⟨h₄, hsteps₄, hrun₄, hsatp₄, hreg₄⟩ := hrun₃.line 32
    [.li .t0 b.srvArchInit] rfl (by simp [Instr.isAccess]) rfl (by decide)
  have ht0 : h₄.reg .t0 = b.srvArchInit := by simp [hreg₄, Machine.exec]
  have hop : (start b.symbols)[32]? = some (.jalr .ra .t0) := rfl
  have hjalr := Hart.step_jalr hrun₄.pc rfl (hrun₄.fetch (by decide)) hop
  refine ⟨_, _, (((hsteps₁.trans hsteps₂).trans hsteps₃).trans hsteps₄).snoc hjalr, ?_, ?_,
    hrun₄.table, ?_, ?_, ?_, ?_, ?_, fun a houtside' hne => ?_⟩
  · rw [Hart.goto_pc, ht0, and_not_one_of_even b.init_even]
  · simp [hsatp₄, hsatp₁]
  · simp [hreg₄, Machine.exec]
  · simp [hreg₄, Machine.exec, hsp₁]
  · simp
  · simp [hreg₄, hreg₁, Machine.exec]
  · rw [touch_outside houtside, hword]
  · rw [touch_outside houtside', storeThrough, update_of_ne hne, touch_outside houtside']

end Paged

/-- The machine that `srv_arch_Init` is entered with: its argument points to `boot_info`, the
stack and the translation are set up, and besides the root table, `boot_info` and one word of
the stack the memory is the one that `_start` found. -/
structure Booted (b : BootImage) (fdt : Word) (mem₀ : Mem) (h : Hart) (mem : Mem) : Prop where
  pc : h.pc = b.srvArchInit
  a0 : h.reg .a0 = b.bootInfo
  sp : h.reg .sp = b.stackWord
  tp : h.reg .tp = 0#64
  ra : h.reg .ra = b.placement.place 33
  satp : h.satp = bootSatp b.root
  table : BootTable b.root mem
  info : ∀ f ∈ infoFields fdt, mem (b.bootInfo + f.1) = f.2
  pushed : mem (b.stackWord - kernelVaPaOffset) = b.bootInfo
  frame : ∀ a, (∀ index < 512, a ≠ pteAddress b.root index) →
    (∀ f ∈ infoFields fdt, a ≠ b.bootInfo + f.1) → a ≠ b.stackWord - kernelVaPaOffset →
    mem a = mem₀ a

section Whole

variable {b : BootImage} {mem : Mem}

theorem pteAddress_eq (root : Addr) (index : ℕ) :
    pteAddress root index = entryAddress root (BitVec.ofNat 64 index) := by
  rw [pteAddress, entryAddress, BitVec.ofNat_mul]

theorem infoFields_lt {fdt : Word} {f : Word × Word} (hf : f ∈ infoFields fdt) : f.1.toNat < 32 := by
  simp only [infoFields, List.mem_cons, List.not_mem_nil, or_false] at hf
  rcases hf with rfl | rfl | rfl | rfl <;> simp

theorem infoMem_outside (fdt : Word) {a : Word}
    (houtside : ∀ index < 512, a ≠ pteAddress b.root index) :
    infoMem b fdt mem a = writeFields b.bootInfo (infoFields fdt) mem a := by
  have hfold : ∀ (fields : List (Word × Word)) (now plain : Mem), now a = plain a →
      fields.foldl (fun mem f => storeThrough b.root mem (b.bootInfo + f.1) (b.bootInfo + f.1) f.2)
        now a = writeFields b.bootInfo fields plain a := by
    intro fields
    induction fields with
    | nil => exact fun now plain h => h
    | cons f fields ih =>
      intro now plain h
      refine ih _ _ ?_
      simp only [storeThrough, update_apply, touch_outside houtside, h]
  exact hfold _ mem mem rfl

theorem infoMem_field {fdt : Word} {f : Word × Word} (hf : f ∈ infoFields fdt) :
    infoMem b fdt mem (b.bootInfo + f.1) = f.2 := by
  rw [infoMem_outside fdt fun _ => b.info_ne_entry (infoFields_lt hf)]
  exact writeFields_of_mem (by simp [infoFields]) hf

def mappedMem (root : Addr) (mem : Mem) : Mem :=
  update (update mem (pteAddress root 2) (gigapage bootStart)) (pteAddress root 510)
    (gigapage bootStart)

theorem mappedMem_table (hzero : ∀ index < 512, mem (pteAddress b.root index) = 0#64) :
    BootTable b.root (mappedMem b.root mem) := by
  have hentry : IsBootEntry (gigapage bootStart) := ⟨0#64, by simp, (BitVec.or_zero).symm⟩
  have hne := fun {i j : ℕ} (hi : i < 512) (hj : j < 512) (h : i ≠ j) (heq : pteAddress b.root i =
    pteAddress b.root j) => h (pteAddress_inj hi hj heq)
  refine ⟨?_, ?_, fun index hindex h₂ h₅₁₀ => ?_⟩
  · rwa [mappedMem, update_of_ne (hne (by decide) (by decide) (by decide)), update_self]
  · rwa [mappedMem, update_self]
  · rw [mappedMem, update_of_ne (hne hindex (by decide) h₅₁₀),
      update_of_ne (hne hindex (by decide) h₂), hzero index hindex]

theorem BootImage.place_zero (b : BootImage) : b.placement.place 0 = bootStart := by
  rw [Placement.place]
  exact BitVec.add_zero _

/-- The run up to the write of `satp`, in which every access goes where it is addressed to. -/
theorem map_run (u : Bool) (mem : Mem) {h : Hart} {fdt : Word} (hpc : h.pc = bootStart)
    (hmode : satpMode h.satp = 0) (hid : h.reg .a0 = 0#64) (hfdt : h.reg .a1 = fdt) :
    ∃ h', Steps b.placement (mmu u) 38 h mem h' (mappedMem b.root mem) ∧
      h'.pc = b.placement.place 18 ∧ h'.satp = bootSatp b.root ∧ h'.reg .tp = 0#64 ∧
      h'.reg .t6 = fdt := by
  obtain ⟨h₁, hsteps₁, hpc₁, hsatp₁, ha0₁, ha1₁, ha2₁, hra₁, htp₁, ht6₁⟩ :=
    entry_run u mem (hpc.trans b.place_zero.symm) hmode hid hfdt
  have hmode₁ : satpMode h₁.satp = 0 := hsatp₁ ▸ hmode
  obtain ⟨h₂, hsteps₂, hpc₂, hsatp₂, hreg₂⟩ := bootMap_run u mem hpc₁ hmode₁ hra₁ (by decide)
  have hmode₂ : satpMode h₂.satp = 0 := hsatp₂ ▸ hmode₁
  obtain ⟨h₃, hsteps₃, hpc₃, hsatp₃, ha0₃, ha1₃, ha2₃, hra₃, htp₃, ht6₃⟩ :=
    second_call_run u _ hpc₂ hmode₂
  have hmode₃ : satpMode h₃.satp = 0 := hsatp₃ ▸ hmode₂
  obtain ⟨h₄, hsteps₄, hpc₄, hsatp₄, hreg₄⟩ := bootMap_run u _ hpc₃ hmode₃ hra₃ (by decide)
  have hmode₄ : satpMode h₄.satp = 0 := hsatp₄ ▸ hmode₃
  have ha0₄ : h₄.reg .a0 = b.root := by rw [hreg₄ .a0 (by decide) (by decide) (by decide), ha0₃]; rfl
  obtain ⟨h₅, hsteps₅, hpc₅, hsatp₅, htp₅, ht6₅⟩ :=
    satp_run u _ hpc₄ hmode₄ (by rw [ha0₄]; exact (b.satp u).1)
  have hsteps := (((hsteps₁.trans hsteps₂).trans hsteps₃).trans hsteps₄).trans hsteps₅
  refine ⟨h₅, ?_, hpc₅, by rw [hsatp₅, ha0₄], ?_, ?_⟩
  · rw [ha0₁, ha1₁, ha2₁, ha0₃, ha1₃, ha2₃] at hsteps
    rw [mappedMem, pteAddress_eq, pteAddress_eq]
    exact hsteps
  · rw [htp₅, hreg₄ .tp (by decide) (by decide) (by decide), htp₃,
      hreg₂ .tp (by decide) (by decide) (by decide), htp₁]
  · rw [ht6₅, hreg₄ .t6 (by decide) (by decide) (by decide), ht6₃,
      hreg₂ .t6 (by decide) (by decide) (by decide), ht6₁]

/-- The first fetch of `srv_arch_Init` leads out of the listing. -/
theorem leaves_of_booted {h : Hart} (hpc : h.pc = b.srvArchInit) (hsatp : h.satp = bootSatp b.root)
    (htable : BootTable b.root mem) : h.step b.placement (mmu true) mem = .leaves := by
  have hinit := b.init_end
  have hend := b.layout.stack_end
  have hheap := b.layout.heap_end
  obtain ⟨-, hmode, hroot⟩ := b.satp true
  obtain ⟨hpa, -, hlow⟩ := b.bootPhysical_kernel b.init_start (by omega)
  have hnone : b.placement.position? (b.srvArchInit - kernelVaPaOffset) = none := by
    rw [Placement.position?, List.find?_eq_none]
    intro k hk
    have hlt : k < 45 := List.mem_range.mp hk
    have hplace := (b.place_bounds (Nat.le_of_lt hlt)).2
    obtain ⟨hinfo, hrootend, -, -⟩ := b.bounds
    simp only [decide_eq_true_eq]
    intro heq
    rw [heq] at hplace
    omega
  simp only [Hart.step, hpc, hsatp, htable.translate hmode hroot, hpa, Option.map_some, hnone]

/-- On hart 0, entered as the SBI enters a kernel and with the root table of the image, the
code of `start.s` reaches `srv_arch_Init` without a fault. The 53 steps are lines of the listing,
`la` and `li` being one each. -/
theorem start_boots {h : Hart} {fdt : Word} (hpc : h.pc = bootStart) (hmode : satpMode h.satp = 0)
    (hid : h.reg .a0 = 0#64) (hfdt : h.reg .a1 = fdt)
    (hzero : ∀ index < 512, mem (pteAddress b.root index) = 0#64) :
    ∃ h' mem', Steps b.placement (mmu true) 53 h mem h' mem' ∧ Booted b fdt mem h' mem' ∧
      h'.step b.placement (mmu true) mem' = .leaves := by
  obtain ⟨h₁, hsteps₁, hpc₁, hsatp₁, htp₁, ht6₁⟩ := map_run true mem hpc hmode hid hfdt
  obtain ⟨hsteps₂, hrun₂⟩ := sfence_run hpc₁ hsatp₁ (mappedMem_table hzero)
  obtain ⟨h₃, hsteps₃, hrun₃, hsatp₃, ha0₃, htp₃⟩ := info_run hrun₂ ht6₁
  obtain ⟨h₄, mem₄, hsteps₄, hpc₄, hsatp₄, htable₄, ha0₄, hsp₄, hra₄, htp₄, hpushed₄, hframe₄⟩ :=
    call_run hrun₃ ha0₃
  have hsatp : h₄.satp = bootSatp b.root := by rw [hsatp₄, hsatp₃, Hart.goto_satp, hsatp₁]
  refine ⟨h₄, mem₄, ((hsteps₁.trans hsteps₂).trans hsteps₃).trans hsteps₄,
    ⟨hpc₄, ha0₄, hsp₄, ?_, hra₄, hsatp, htable₄, fun f hf => ?_, hpushed₄,
      fun a houtside hinfo hword => ?_⟩, leaves_of_booted hpc₄ hsatp htable₄⟩
  · rw [htp₄, htp₃, Hart.goto_reg, htp₁]
  · have hlow := (b.bootPhysical_stackWord).2
    have hlt := infoFields_lt hf
    rw [hframe₄ _ (fun _ => b.info_ne_entry hlt) fun heq => ?_, infoMem_field hf]
    have hnat := congrArg BitVec.toNat heq
    obtain ⟨hinfo, hroot, -, -⟩ := b.bounds
    rw [b.info_toNat hlt] at hnat
    omega
  · rw [hframe₄ a houtside hword, infoMem_outside fdt houtside, writeFields_of_notMem hinfo,
      touch_outside houtside, mappedMem, update_of_ne (houtside 510 (by decide)),
      update_of_ne (houtside 2 (by decide))]

/-- Where the platform leaves A and D to software, the fetch behind the write of `satp` faults. -/
theorem fetch_faults {h : Hart} (hzero : ∀ index < 512, mem (pteAddress b.root index) = 0#64)
    (hpc : h.pc = b.placement.place 18) (hsatp : h.satp = bootSatp b.root) :
    h.step b.placement (mmu false) (mappedMem b.root mem) =
      .faults .fetch (b.placement.place 18) := by
  obtain ⟨-, hmode, hroot⟩ := b.satp false
  obtain ⟨hlow, hhigh⟩ := b.place_bounds (k := 18) (by decide)
  obtain ⟨hinfo, hrootend, hboot, hstack⟩ := b.bounds
  have hpaged : ¬ satpMode (bootSatp b.root) = 0 := by rw [hmode]; decide
  have hnone : (mmu false).translate (bootSatp b.root) .fetch (mappedMem b.root mem)
      (b.placement.place 18) = none := by
    have hcan : Canonical (b.placement.place 18) := (canonical_iff _).mpr (.inl (by omega))
    obtain ⟨hvalid, hread, haligned, -⟩ := (mappedMem_table hzero).identity.leaf
    have hindex : pteAddress b.root 2 = pteAddress b.root (vpnField (b.placement.place 18) 2) := by
      rw [vpnField_low hlow (by omega)]
    have hleaf := leaf_root hcan hindex hvalid hread haligned
    have hentry : mappedMem b.root mem (pteAddress b.root 2) = gigapage bootStart := by
      rw [mappedMem, update_of_ne (fun heq => absurd (pteAddress_inj (by decide) (by decide) heq)
        (by decide)), update_self]
    have hclear : (gigapage bootStart &&& marks .fetch = marks .fetch) = False := by decide
    simp only [mmu, if_neg hpaged, hroot, hleaf, hentry, hclear]
    simp
  simp only [Hart.step, hpc, hsatp, hnone]

end Whole

def sampleHart (number : Word) : Hart where
  pc := bootStart
  regs r := if r = .a0 then number else if r = .a1 then 0x87E00000#64 else 0#64
  csrs _ := 0#64
  satp := 0#64

section Results

variable {b : BootImage} {mem : Mem} {h : Hart} {fdt : Word}

/-- The entries of `start.s` have A and D clear. On a platform that does not set these bits
itself, no run is longer than the 38 lines of the listing up to the write of `satp`: the next
fetch faults. -/
theorem start_stops_without_updates (hpc : h.pc = bootStart) (hmode : satpMode h.satp = 0)
    (hid : h.reg .a0 = 0#64) (hzero : ∀ index < 512, mem (pteAddress b.root index) = 0#64) :
    (∃ h' mem', Steps b.placement (mmu false) 38 h mem h' mem' ∧
      h'.step b.placement (mmu false) mem' = .faults .fetch (b.placement.place 18)) ∧
    ∀ n h' mem', Steps b.placement (mmu false) n h mem h' mem' → n ≤ 38 := by
  obtain ⟨h₁, hsteps, hpc₁, hsatp₁, -, -⟩ := map_run false mem hpc hmode hid rfl
  have hfault := fetch_faults hzero hpc₁ hsatp₁
  exact ⟨⟨h₁, _, hsteps, hfault⟩,
    fun n h' mem' hother => hsteps.le_of_stuck (by simp [hfault]) hother⟩

theorem start_stops_without_updates_sample :
    ∃ h' mem', Steps sampleImage.placement (mmu false) 38 (sampleHart 0#64) (fun _ => 0#64) h' mem' ∧
      h'.step sampleImage.placement (mmu false) mem' =
        .faults .fetch (sampleImage.placement.place 18) :=
  (start_stops_without_updates (b := sampleImage) (h := sampleHart 0#64) rfl
    (by decide : satpMode 0#64 = 0) rfl fun _ _ => rfl).1

/-- Behind `_start`, any sequence of fetches, loads and stores that keeps away from the root
table is served as on flat memory, up to the first address outside of the two gigapages, and
leaves the table a boot table. -/
theorem booted_serves_flat (mem₀ : Mem) (hbooted : Booted b fdt mem₀ h mem) (rs : List Reference)
    (hrs : ∀ r ∈ rs, AvoidsTable b.root r) :
    ((mmu true).refers h.satp mem rs).1 = (bootFlat.refers h.satp mem rs).1 ∧
      SameBesides b.root ((mmu true).refers h.satp mem rs).2 (bootFlat.refers h.satp mem rs).2 := by
  obtain ⟨-, hmode, hroot⟩ := b.satp true
  rw [← hbooted.satp] at hmode hroot
  exact SameBesides.refers ⟨hbooted.table, fun _ _ => rfl⟩ hmode hroot hrs

/-- A store to a kernel address, loads of its physical address and a load through `NULL`. -/
def sampleReferences : List Reference :=
  [⟨.store, 0xFFFFFFFF80300000#64, 7#64⟩, ⟨.load, 0x80300000#64, 0#64⟩, ⟨.load, 0#64, 0#64⟩,
    ⟨.load, 0x80300000#64, 0#64⟩]

theorem booted_serves_flat_sample :
    ∃ h mem, Booted sampleImage 0x87E00000#64 (fun _ => 0#64) h mem ∧
      ((mmu true).refers h.satp mem sampleReferences).1 = [7#64, 7#64] := by
  obtain ⟨h, mem, -, hbooted, -⟩ := @start_boots sampleImage (fun _ => 0#64) (sampleHart 0#64)
    0x87E00000#64 rfl (by decide) rfl rfl fun _ _ => rfl
  have hout : ∀ index < 512, 0x80300000#64 ≠ pteAddress sampleImage.root index := by
    intro index hindex heq
    have hnat := congrArg BitVec.toNat heq
    rw [sampleImage.entry_toNat hindex] at hnat
    simp only [BootImage.root, sampleImage, smallImage, BitVec.toNat_ofNat] at hnat
    omega
  have hpas : ∀ r ∈ sampleReferences,
      bootPhysical r.va = none ∨ bootPhysical r.va = some 0x80300000#64 := by decide
  have havoids : ∀ r ∈ sampleReferences, AvoidsTable sampleImage.root r := by
    intro r hr pa hpa
    rcases hpas r hr with hnone | hsome
    · rw [hnone] at hpa
      cases hpa
    · rw [hsome, Option.some.injEq] at hpa
      exact hpa ▸ hout
  refine ⟨h, mem, hbooted, ?_⟩
  have hkernel : bootPhysical 0xFFFFFFFF80300000#64 = some 0x80300000#64 := by decide
  have hidentity : bootPhysical 0x80300000#64 = some 0x80300000#64 := by decide
  have hnull : bootPhysical 0#64 = none := by decide
  rw [(booted_serves_flat _ hbooted _ havoids).1]
  simp only [sampleReferences, Mmu.refers, Mmu.refer, bootFlat, hkernel, hidentity, hnull,
    Option.map_some, Option.map_none, update_self]

end Results

end SysRv.Boot
