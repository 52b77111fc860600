import SysRv.ArchInit
import SysRv.Interrupts

/-!
# What a boot writes to the console

The load through the null pointer in `srv_arch_Init` is a page fault in the kernel. The trap
handler that has just been installed gets it, and the boot ends in a panic.
-/

namespace SysRv.ArchInit

open ByteMemory KString Kalloc ReservedMemory Fdt FdtTokens Rv64 Sv39 Boot Cpu Trap Panic

def loadPageFault : Word := 13#64

/-- The console at the end of a boot: the RAM, and a panic with the registers at the load but for
`ra`. -/
def bootConsole (k : Image) (m : Machine) (memorySize base : BitVec 64) : List Byte :=
  bootText memorySize base ++ panicText 0 (literal "Page fault")
    fun r => if r = .ra then k.afterSaveContext else m.reg r

section

variable {mem : Memory} {header : BlobHeader} {tokens : List Token} {t : MemoryTree}
  {heap : EternalHeap} {i : BootInput} {b : BootImage} {mem₀ memory : Mem} {h : Hart} {k : Kernel}
  {x : Machine} {cause : Addr}

/-- From the call by `_start` on, with a device tree that describes the RAM: every access to the
null pointer faults for as long as the root table is that of `_start`, and the registers `x` at
the load, with `tp` and some room on the stack, determine what is on the console in the end. -/
theorem boot_prints (hd : Describes mem header tokens t heap i)
    (hmapped : ∀ a, bootPhysical a = none → mem a = none) (y : InitStrings mem)
    (strings : PanicStrings mem) (hcause : IsString mem cause (literal "Page fault"))
    (trapHandler pc : Word) (image : Image) (hbooted : Boot.Booted b i.fdtPtr mem₀ h memory)
    (hlayout : b.layout = i.layout) (hfdt : k.fdt = .zeroed heap) (hroom : ClearRoom image x)
    (htp : x.reg .tp = h.reg .tp) :
    (∀ mem', BootTable b.root mem' → (mmu true).translate h.satp .load mem' NULL = none) ∧
    ∃ n k', srvArchInit y b.layout trapHandler (fun _ => 0#64) n (bootInfoAt memory (h.reg .a0)) k =
        .error (.fault (.unreadable NULL)) k' ∧ k'.stvec = trapHandler ∧
      (∃ x', exceptionHandlerStarts image (takeTrap true loadPageFault NULL pc x) x') ∧
      ∀ x', exceptionHandlerStarts image (takeTrap true loadPageFault NULL pc x) x' →
        srvArchExceptionHandler image.cpus x' = .error (.exception "Page fault") ∧
        ∃ out, srvKernelPanic strings image.cpus x' cause = .ok out ∧
          k'.console ++ out = k.console ++ bootConsole image x i.memorySize physicalMemoryStart := by
  have hnull : bootPhysical NULL = none := by decide
  obtain ⟨-, hmode, hroot⟩ := b.satp true
  refine ⟨fun mem' htable => ?_, ?_⟩
  · rw [hbooted.satp, htable.translate hmode hroot, hnull]
    rfl
  · obtain ⟨n, s, hinit⟩ := hd.flat.srvFdtInit_true hd.parsable hd.start hd.room.suffices
    obtain ⟨k', hstops, hup⟩ := hd.broughtUp y trapHandler (hmapped NULL hnull) hfdt hinit
    rw [bootInfoAt_of_booted hbooted, hlayout]
    have hclear := takeTrap_clearRoom true loadPageFault NULL pc x hroom
    refine ⟨n, k', hstops, hup.stvec, hclear.exists_exceptionHandlerStarts, fun x' hstarts => ?_⟩
    obtain ⟨hpanic, htext⟩ :=
      exceptionHandlerStarts_panics strings hclear (takeTrap_spp _ _ _ _) hcause hstarts
    refine ⟨hpanic, _, htext, ?_⟩
    have hcpu : (x.reg .tp).toNat = 0 := by
      rw [htp, hbooted.tp]
      rfl
    rw [hup.console, bootConsole, ← List.append_assoc, takeTrap_reg, hcpu]
    rfl

end

def initPanicStrings : PanicStrings initMemory where
  header := initString 5
  lines := (List.range 8).map fun i => initString (i + 6)
  header_text := initMemory_string rfl
  lines_text := by
    repeat' first | exact .nil | refine .cons (initMemory_string rfl) ?_

/-- The registers at the load, with 0x40 bytes of the stack in use. -/
def nullLoad : Machine where
  regs r := if r = .sp then sampleImage.stackWord - 0x40#64 else 0#64
  csrs _ := 0#64
  mem _ := 0#64

/-- The control blocks below the stack. -/
def initImage : Image :=
  ⟨0xFFFFFFFF80203400#64, 0xFFFFFFFF80203104#64, 0xFFFFFFFF80203200#64, 0xFFFFFFFF80203108#64, 256⟩

theorem boot_prints_128_mebibytes :
    ∃ bootInfo n k' x' out,
      srvArchInit initStrings smallImage 0xFFFFFFFF80203100#64 (fun _ => 0#64) n bootInfo initKernel =
        .error (.fault (.unreadable NULL)) k' ∧
      exceptionHandlerStarts initImage (takeTrap true loadPageFault NULL 0xFFFFFFFF80203080#64 nullLoad)
        x' ∧
      srvKernelPanic initPanicStrings initImage.cpus x' (initString 14) = .ok out ∧
      k'.console ++ out = bootConsole initImage nullLoad 0x8000000#64 0x80000000#64 := by
  obtain ⟨h, mem, -, hbooted, -⟩ := @start_boots sampleImage (fun _ => 0#64) (sampleHart 0#64)
    0x87E00000#64 rfl (by decide) rfl rfl fun _ _ => rfl
  have htp : nullLoad.reg .tp = h.reg .tp := by
    rw [hbooted.tp]
    decide
  have hcause : IsString initMemory (initString 14) (literal "Page fault") := initMemory_string rfl
  obtain ⟨-, n, k', hstops, -, ⟨x', hstarts⟩, hpanics⟩ :=
    boot_prints initInput_describes initMemory_mapped initStrings initPanicStrings hcause
      0xFFFFFFFF80203100#64 0xFFFFFFFF80203080#64 initImage (i := initInput) (k := initKernel)
      (x := nullLoad) hbooted rfl rfl ⟨by decide, by decide, by decide, by decide⟩ htp
  obtain ⟨-, out, hout, hconsole⟩ := hpanics x' hstarts
  exact ⟨_, n, k', x', out, hstops, hstarts, hout, hconsole⟩

end SysRv.ArchInit
