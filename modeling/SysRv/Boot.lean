import SysRv.BootMap
import SysRv.ReservedMemory
import SysRv.Sv39Access

/-!
# The entry point of the kernel

`_start` of `start.s` with `__boot_map_virt_to_phys` and `_boot_ParkHart`, placed where
`linker.ld` puts them. Hart 0 maps the first GiB of RAM twice, turns the translation on
under its own feet, fills `boot_info` in and calls `srv_arch_Init` on the kernel's stack.
-/

namespace SysRv.Boot
open Function Rv64 Sv39 BootMap ReservedMemory

/-- `__boot_start`, the location counter at `.boot`. -/
def bootStart : Addr := kernelPhysicalStart

structure BootSymbols where
  bootRootPageTable : Addr
  bootInfo : Addr
  kernelStackTop : Addr
  srvArchInit : Addr

def bootMapLabel : ℕ := 34

def bootParkLabel : ℕ := 44

/-- The listing of `start.s`, from `_start` to `_boot_ParkHart`. -/
def start (y : BootSymbols) : List Op :=
  ([.line (.li .t0 0#64), .line (.mv .tp .a0), .bne .a0 .t0 bootParkLabel, .line (.mv .t6 .a1),
    .line (.li .a0 y.bootRootPageTable), .line (.li .a1 bootStart), .line (.mv .a2 .a1),
    .jal .ra bootMapLabel,
    .line (.li .a0 y.bootRootPageTable), .line (.li .a1 bootStart),
    .line (.li .a2 0xFFFFFFFF00000000#64), .line (.add .a2 .a2 .a1), .jal .ra bootMapLabel] : List Op) ++
  bootSatpLine.map Op.line ++
  ([.csrwSatp .a0, .sfenceVma,
    .line (.li .a0 y.bootInfo), .line (.li .t0 kernelPhysicalStart),
    .line (.li .t1 physicalMemoryStart), .line (.sd .t0 0#12 .a0), .line (.sd .t1 8#12 .a0),
    .line (.sd .t6 16#12 .a0), .line (.sd .t1 24#12 .a0),
    .line (.li .t0 y.kernelStackTop), .line (.mv .sp .t0), .line (.addi .sp .sp (-8#12)),
    .line (.sd .a0 0#12 .sp), .line (.ld .a0 0#12 .sp),
    .line (.li .t0 y.srvArchInit), .jalr .ra .t0, .j 33] : List Op) ++
  bootMapVirtToPhys.map Op.line ++ [Op.jr .ra] ++
  [Op.j bootParkLabel]

/-- The image as it is linked: the layout of `linker.ld` with the code of `start.s` first,
`boot_info` and the root table behind it, and the whole image inside the one gigapage that
is mapped. -/
structure BootImage where
  layout : ImageLayout
  size : ℕ → ℕ
  bootInfo : Addr
  srvArchInit : Addr
  size_pos : ∀ i, 0 < size i
  size_even : ∀ i, size i % 2 = 0
  code_end : kernelPhysicalStart.toNat + ((List.range 45).map size).sum ≤ bootInfo.toNat
  info_aligned : bootInfo.toNat % 8 = 0
  info_end : bootInfo.toNat + 32 ≤ layout.bootRootPageTable.toNat
  stack_aligned : layout.kernelStackBottom.toNat % 16 = 0
  init_even : srvArchInit.toNat % 2 = 0
  init_start : layout.kernelVirtualStart.toNat ≤ srvArchInit.toNat
  init_end : srvArchInit.toNat < layout.kernelStackBottom.toNat
  image_end : layout.kernelVirtualEnd.toNat ≤ 0xFFFFFFFFC0000000

namespace BootImage

variable (b : BootImage)

def kernelStackTop : Addr := b.layout.kernelStackBottom + 0x1000#64

def root : Addr := b.layout.bootRootPageTable

def symbols : BootSymbols := ⟨b.root, b.bootInfo, b.kernelStackTop, b.srvArchInit⟩

def placement : Placement (start b.symbols) where
  base := kernelPhysicalStart
  size := b.size
  size_pos := b.size_pos
  size_even := b.size_even
  base_even := by decide
  fits := Nat.lt_of_le_of_lt b.code_end b.bootInfo.isLt

end BootImage

def sampleImage : BootImage where
  layout := smallImage
  size _ := 4
  bootInfo := 0x80201000#64
  srvArchInit := 0xFFFFFFFF80203000#64
  size_pos _ := by decide
  size_even _ := rfl
  code_end := by decide
  info_aligned := by decide
  info_end := by decide
  stack_aligned := by decide
  init_even := by decide
  init_start := by decide
  init_end := by decide
  image_end := by decide

end SysRv.Boot
