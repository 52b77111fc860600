import SysRv.BootContents
import SysRv.BootRun
import SysRv.FdtMemory
import SysRv.Panic

/-!
# Bringing the system up

`srv_arch_Init`, from the call by `_start` to its load through the null pointer in front of
`kmain`. A wrong magic number is the only way for it to return.
-/

namespace SysRv.ArchInit

open ByteMemory KString Printf Numerals Kalloc Kpalloc PageAllocator ReservedMemory Fdt FdtTokens Rv64
  Sv39 Boot BootContents Panic

structure SrvBootInfo where
  kernelPhysicalAddress : Addr
  kernelLoadOffset : BitVec 64
  fdtPtr : Addr
  physicalMemoryBase : Addr
  deriving DecidableEq, Repr

def bootInfoAt (mem : Mem) (p : Addr) : SrvBootInfo :=
  ⟨mem p, mem (p + 8#64), mem (p + 16#64), mem (p + 24#64)⟩

inductive SrvArchInitResult where
  | success
  | deviceTreeInvalid
  deriving DecidableEq, Repr

/-- Where the processor is when `srv_arch_Init` does not return: at an access that faults, in
`srv_KernelPanic`, or in the loop of `kmain`. -/
inductive Stop where
  | fault (fault : Fault)
  | kprintf (fault : PrintfFault)
  | kmain
  deriving DecidableEq, Repr

def broughtUpFormat : String := "The System is being brought up...\n"

def ramFormat : String := "%lx bytes of RAM detected @ 0x%lx\n"

def helloFormat : String := "Hello, World!\n"

/-- The string literals in memory. -/
structure InitStrings (mem : Memory) where
  broughtUp : Addr
  ram : Addr
  hello : Addr
  memoryNode : Addr
  reg : Addr
  broughtUp_text : IsString mem broughtUp (literal broughtUpFormat)
  ram_text : IsString mem ram (literal ramFormat)
  hello_text : IsString mem hello (literal helloFormat)
  memoryNode_text : IsString mem memoryNode memoryNodeText
  reg_text : IsString mem reg regText

/-- What `srv_arch_Init` works on: the text written so far, `stvec`, the driver of the device
tree with the eternal heap, and the page allocator. -/
structure Kernel where
  console : List Byte
  stvec : Addr
  fdt : FdtState
  pages : PageAllocator

/-- A call that stops where one of its accesses does. What it had changed by then is not kept. -/
abbrev Code := EStateM Stop Kernel

def print (mem : Memory) (format : Addr) (args : List (BitVec 64)) : Code Unit := fun k =>
  match kprintf mem format args with
  | .ok p => .ok () { k with console := k.console ++ p.text }
  | .error fault => .error (.kprintf fault) k

/-- A call that changes nothing. -/
def call {α : Type} (x : Except Fault α) : Code α := fun k =>
  match x with
  | .ok a => .ok a k
  | .error fault => .error (.fault fault) k

def srvHalInstallTrapHandler (handler : Addr) : Code Unit :=
  modify fun k => { k with stvec := handler }

/-- `srv_fdt_GetFDTSize`, with `totalsize` the second word of the header. -/
def srvFdtGetFDTSize (mem : Memory) (s : FdtState) : Except Fault (BitVec 64) := do
  let totalsize ← readWord mem (s.fdtInfoBlock + 4#64)
  return (bswap32 totalsize).setWidth 64

/-- `srv_kpalloc_InitPageAllocator`, with the words that the heap holds. -/
def initPageAllocator (words : Addr → BitVec 64) (baseAddress memorySize : BitVec 64) : Code Unit :=
  fun k =>
    match srvKpallocInitPageAllocator k.fdt.heap words baseAddress memorySize with
    | .ok (heap, pages) => .ok () { k with fdt := { k.fdt with heap := heap }, pages := pages }
    | .error e => .error (.fault (.panic e)) k

def kmain {mem : Memory} (y : InitStrings mem) : Code Unit := do
  print mem y.hello []
  throw .kmain

/-- `srv_arch_Init` behind the check of `fdt_init_ok`. -/
def srvArchInitMemory {mem : Memory} (y : InitStrings mem) (l : ImageLayout)
    (words : Addr → BitVec 64) (bootInfo : SrvBootInfo) : Code SrvArchInitResult := do
  let k ← get
  let memorySize ← call (srvFdtGetMemorySize mem y.memoryNode y.reg k.fdt)
  print mem y.ram [memorySize, bootInfo.physicalMemoryBase]
  initPageAllocator words bootInfo.physicalMemoryBase memorySize
  let fdtSize ← call (srvFdtGetFDTSize mem k.fdt)
  modify fun k => { k with pages := srvArchInitReserve l bootInfo.fdtPtr fdtSize k.pages }
  -- `*blah`
  let _test ← call (readWord mem NULL)
  kmain y
  return .success

def srvArchInit {mem : Memory} (y : InitStrings mem) (l : ImageLayout) (trapHandler : Addr)
    (words : Addr → BitVec 64) (n : ℕ) (bootInfo : SrvBootInfo) : Code SrvArchInitResult := do
  print mem y.broughtUp []
  srvHalInstallTrapHandler trapHandler
  let k ← get
  let (fdt, fdtInitOk) ← call (srvFdtInit mem n k.fdt bootInfo.fdtPtr)
  set { k with fdt := fdt }
  if fdtInitOk = false then return .deviceTreeInvalid
  srvArchInitMemory y l words bootInfo

def bootText (memorySize base : BitVec 64) : List Byte :=
  literal broughtUpFormat ++ (plainHex memorySize ++ (literal " bytes of RAM detected @ 0x" ++
    (plainHex base ++ [chr '\n'])))

def ramPieces : List Piece :=
  .conversion none .lx :: (literals (literal " bytes of RAM detected @ 0x") ++
    .conversion none .lx :: literals [chr '\n'])

theorem encode_ramPieces : encode ramPieces = literal ramFormat := by decide

section Texts

variable {mem : Memory} (y : InitStrings mem)

theorem kprintf_broughtUp :
    ∃ q, kprintf mem y.broughtUp [] = .ok q ∧ q.text = literal broughtUpFormat :=
  kprintf_plain y.broughtUp_text (by decide)

theorem kprintf_ram (memorySize base : BitVec 64) :
    ∃ q, kprintf mem y.ram [memorySize, base] = .ok q ∧
      q.text = plainHex memorySize ++ (literal " bytes of RAM detected @ 0x" ++
        (plainHex base ++ [chr '\n'])) := by
  have hmiddle : (literal " bytes of RAM detected @ 0x").all isPlain = true := by decide
  have hlast : [chr '\n'].all isPlain = true := by decide
  have hmatching : Matching mem ramPieces [memorySize, base] := by
    refine ⟨(nomatch ·), (matching_literals hmiddle).mpr ⟨(nomatch ·), rfl⟩⟩
  have htext := y.ram_text
  rw [← encode_ramPieces] at htext
  obtain ⟨q, hq, hwritten⟩ := kprintf_written htext hmatching (by decide)
  refine ⟨q, hq, ?_⟩
  obtain ⟨out₁, h₁, hout₁⟩ := written_plainHex hwritten
  obtain ⟨out₂, rfl, hout₂⟩ := (written_literals hmiddle).mp hout₁
  obtain ⟨out₃, rfl, hout₃⟩ := written_plainHex hout₂
  obtain ⟨out₄, rfl, rfl⟩ := hout₃
  exact h₁

end Texts

section Calls

variable {α β : Type} {x : Code α} {f : α → Code β} {k k' : Kernel}

theorem bind_of_ok {a : α} (h : x k = .ok a k') : (x >>= f) k = f a k' := by
  simp [bind, EStateM.bind, h]

theorem bind_of_error {stop : Stop} (h : x k = .error stop k') : (x >>= f) k = .error stop k' := by
  simp [bind, EStateM.bind, h]

end Calls

section Halting

variable {α β : Type} {mem : Memory} {x : Code α} {f : α → Code β} {k : Kernel}

/-- The code stops, and comes to `kmain` only where the null pointer can be read. -/
def Halts (mem : Memory) (x : Code α) (k : Kernel) : Prop :=
  ∃ stop k', x k = .error stop k' ∧ (stop = .kmain → ∃ w, readWord mem NULL = .ok w)

/-- The code goes on, or stops in front of `kmain`. -/
def Proceeds (x : Code α) : Prop :=
  ∀ k, (∃ a k', x k = .ok a k') ∨ ∃ stop k', x k = .error stop k' ∧ stop ≠ .kmain

theorem halts_bind (hx : Proceeds x) (hf : ∀ a k, Halts mem (f a) k) : Halts mem (x >>= f) k := by
  rcases hx k with ⟨a, k₁, hok⟩ | ⟨stop, k₁, herror, hstop⟩
  · obtain ⟨stop, k', hstops, hnull⟩ := hf a k₁
    exact ⟨stop, k', (bind_of_ok hok).trans hstops, hnull⟩
  · exact ⟨stop, k₁, bind_of_error herror, fun hkmain => absurd hkmain hstop⟩

theorem Halts.bind (hx : Halts mem x k) : Halts mem (x >>= f) k := by
  obtain ⟨stop, k', hstops, hnull⟩ := hx
  exact ⟨stop, k', bind_of_error hstops, hnull⟩

theorem proceeds_print (mem : Memory) (format : Addr) (args : List (BitVec 64)) :
    Proceeds (print mem format args) := by
  intro k
  cases h : kprintf mem format args with
  | ok q => exact .inl ⟨(), _, by rw [print, h]⟩
  | error fault => exact .inr ⟨.kprintf fault, k, by rw [print, h], by simp⟩

theorem proceeds_call (y : Except Fault α) : Proceeds (call y) := by
  intro k
  cases h : y with
  | ok a => exact .inl ⟨a, k, rfl⟩
  | error fault => exact .inr ⟨.fault fault, k, rfl, by simp⟩

theorem proceeds_get : Proceeds (get : Code Kernel) := fun k => .inl ⟨k, k, rfl⟩

theorem proceeds_modify (g : Kernel → Kernel) : Proceeds (modify g : Code PUnit) :=
  fun k => .inl ⟨⟨⟩, g k, rfl⟩

theorem proceeds_initPageAllocator (words : Addr → BitVec 64) (baseAddress memorySize : BitVec 64) :
    Proceeds (initPageAllocator words baseAddress memorySize) := by
  intro k
  cases h : srvKpallocInitPageAllocator k.fdt.heap words baseAddress memorySize with
  | ok r => exact .inl ⟨(), _, by rw [initPageAllocator, h]⟩
  | error e => exact .inr ⟨.fault (.panic e), k, by rw [initPageAllocator, h], by simp⟩

theorem kmain_halts (y : InitStrings mem) {w : BitVec 32} (hnull : readWord mem NULL = .ok w)
    (k : Kernel) : Halts mem (kmain y) k :=
  halts_bind (proceeds_print _ _ _) fun _ k => ⟨.kmain, k, rfl, fun _ => ⟨w, hnull⟩⟩

theorem srvArchInitMemory_halts (y : InitStrings mem) (l : ImageLayout)
    (words : Addr → BitVec 64) (bootInfo : SrvBootInfo) (k : Kernel) :
    Halts mem (srvArchInitMemory y l words bootInfo) k := by
  refine halts_bind proceeds_get fun k _ => ?_
  refine halts_bind (proceeds_call _) fun memorySize _ => ?_
  refine halts_bind (proceeds_print _ _ _) fun _ _ => ?_
  refine halts_bind (proceeds_initPageAllocator _ _ _) fun _ _ => ?_
  refine halts_bind (proceeds_call _) fun fdtSize _ => ?_
  refine halts_bind (proceeds_modify _) fun _ k' => ?_
  cases hnull : readWord mem NULL with
  | error fault => exact ⟨.fault fault, k', rfl, by simp⟩
  | ok w => exact (kmain_halts y hnull k').bind

end Halting

section Run

variable {mem : Memory} (y : InitStrings mem) (l : ImageLayout) (trapHandler : Addr)
  (words : Addr → BitVec 64) (n : ℕ) (bootInfo : SrvBootInfo) (k : Kernel)

def Kernel.started (trapHandler : Addr) (k : Kernel) : Kernel :=
  { k with console := k.console ++ literal broughtUpFormat, stvec := trapHandler }

theorem print_of_ok {format : Addr} {args : List (BitVec 64)} {q : Printed} {k : Kernel}
    (h : kprintf mem format args = .ok q) :
    print mem format args k = .ok () { k with console := k.console ++ q.text } := by
  rw [print, h]

theorem call_of_ok {α : Type} {x : Except Fault α} {a : α} {k : Kernel} (h : x = .ok a) :
    call x k = .ok a k := by
  subst h
  rfl

theorem call_of_error {α : Type} {x : Except Fault α} {fault : Fault} {k : Kernel}
    (h : x = .error fault) : call x k = .error (.fault fault) k := by
  subst h
  rfl

theorem srvArchInit_eq : srvArchInit y l trapHandler words n bootInfo k =
    match srvFdtInit mem n k.fdt bootInfo.fdtPtr with
    | .error fault => .error (.fault fault) (k.started trapHandler)
    | .ok (fdt, false) => .ok .deviceTreeInvalid { k.started trapHandler with fdt := fdt }
    | .ok (fdt, true) =>
      srvArchInitMemory y l words bootInfo { k.started trapHandler with fdt := fdt } := by
  obtain ⟨q, hq, htext⟩ := kprintf_broughtUp y
  have htrap : srvHalInstallTrapHandler trapHandler { k with console := k.console ++ q.text } =
      .ok () (k.started trapHandler) := by rw [htext]; rfl
  have hget : (get : Code Kernel) (k.started trapHandler) =
      .ok (k.started trapHandler) (k.started trapHandler) := rfl
  rw [srvArchInit, bind_of_ok (print_of_ok hq), bind_of_ok htrap, bind_of_ok hget]
  rcases hinit : srvFdtInit mem n (k.started trapHandler).fdt bootInfo.fdtPtr with fault | ⟨fdt, ok⟩
  · rw [show srvFdtInit mem n k.fdt bootInfo.fdtPtr = .error fault from hinit]
    exact bind_of_error (call_of_error rfl)
  · rw [show srvFdtInit mem n k.fdt bootInfo.fdtPtr = .ok (fdt, ok) from hinit,
      bind_of_ok (call_of_ok rfl)]
    cases ok <;> rfl

theorem srvFdtInit_false_iff {s fdt : FdtState} {fdtPtr : Addr} :
    srvFdtInit mem n s fdtPtr = .ok (fdt, false) ↔
      fdt = s ∧ ∃ magic, fdtRead32 mem fdtPtr = .ok magic ∧ magic ≠ fdtMagic := by
  constructor
  · intro h
    obtain ⟨magic, hmagic, h⟩ := bind_eq_ok.mp h
    by_cases hne : magic ≠ fdtMagic
    · rw [if_pos hne] at h
      cases h
      exact ⟨rfl, magic, hmagic, hne⟩
    · rw [if_neg hne] at h
      obtain ⟨t, -, h⟩ := bind_eq_ok.mp h
      cases h
  · rintro ⟨rfl, magic, hmagic, hne⟩
    exact bind_eq_ok.mpr ⟨magic, hmagic, if_pos hne⟩

/-- `srv_arch_Init` returns if and only if it can read a word other than the magic number, and
never with success. It comes to `kmain` only where the null pointer can be read. -/
theorem srvArchInit_returns_iff :
    (∀ r k', srvArchInit y l trapHandler words n bootInfo k = .ok r k' ↔
      r = .deviceTreeInvalid ∧ k' = k.started trapHandler ∧
        ∃ magic, fdtRead32 mem bootInfo.fdtPtr = .ok magic ∧ magic ≠ fdtMagic) ∧
    ∀ k', srvArchInit y l trapHandler words n bootInfo k = .error .kmain k' →
      ∃ w, readWord mem NULL = .ok w := by
  rw [srvArchInit_eq]
  rcases hinit : srvFdtInit mem n k.fdt bootInfo.fdtPtr with fault | ⟨fdt, ok⟩
  · refine ⟨fun r k' => ⟨(nomatch ·), ?_⟩, by simp⟩
    rintro ⟨-, -, hmagic⟩
    rw [(srvFdtInit_false_iff n).mpr ⟨rfl, hmagic⟩] at hinit
    cases hinit
  cases ok with
  | false =>
    obtain ⟨rfl, hmagic⟩ := (srvFdtInit_false_iff n).mp hinit
    refine ⟨fun r k' => ?_, by simp⟩
    rw [EStateM.Result.ok.injEq]
    exact ⟨fun h => ⟨h.1.symm, h.2.symm, hmagic⟩, fun h => ⟨h.1.symm, h.2.1.symm⟩⟩
  | true =>
    obtain ⟨stop, k₁, hhalts, hnull⟩ := srvArchInitMemory_halts y l words bootInfo
      { k.started trapHandler with fdt := fdt }
    refine ⟨fun r k' => ⟨fun h => (nomatch hhalts.symm.trans h), ?_⟩, fun k' h => ?_⟩
    · rintro ⟨-, -, hmagic⟩
      rw [(srvFdtInit_false_iff n).mpr ⟨rfl, hmagic⟩] at hinit
      cases hinit
    · exact hnull (EStateM.Result.error.inj (hhalts.symm.trans h)).1

theorem srvFdtGetFDTSize_of_holds {s : FdtState} {totalsize : BitVec 32}
    (h : Holds mem (s.fdtInfoBlock + 4#64) (be32 totalsize)) :
    srvFdtGetFDTSize mem s = .ok (totalsize.setWidth 64) := by
  have hload : readWord mem (s.fdtInfoBlock + 4#64) = .ok (bswap32 totalsize) := by
    rw [readWord, load32_of_holds_be32 h]
  rw [srvFdtGetFDTSize, hload]
  simp only [bind, Except.bind, bswap32_bswap32]
  rfl

/-- Up to the load through the null pointer, where the calls before return. -/
theorem srvArchInitMemory_run {k : Kernel} {memorySize fdtSize : BitVec 64} {heap : EternalHeap}
    {pages : PageAllocator} (hnull : mem NULL = none)
    (hsize : srvFdtGetMemorySize mem y.memoryNode y.reg k.fdt = .ok memorySize)
    (hpages : srvKpallocInitPageAllocator k.fdt.heap words bootInfo.physicalMemoryBase memorySize =
      .ok (heap, pages))
    (hfdt : srvFdtGetFDTSize mem k.fdt = .ok fdtSize) :
    ∃ k', srvArchInitMemory y l words bootInfo k = .error (.fault (.unreadable NULL)) k' ∧
      k'.console = k.console ++ (plainHex memorySize ++ (literal " bytes of RAM detected @ 0x" ++
        (plainHex bootInfo.physicalMemoryBase ++ [chr '\n']))) ∧ k'.stvec = k.stvec ∧
      k'.pages = srvArchInitReserve l bootInfo.fdtPtr fdtSize pages := by
  obtain ⟨q, hq, htext⟩ := kprintf_ram y memorySize bootInfo.physicalMemoryBase
  have hget : (get : Code Kernel) k = .ok k k := rfl
  have hinit : initPageAllocator words bootInfo.physicalMemoryBase memorySize
      { k with console := k.console ++ q.text } =
      .ok () ⟨k.console ++ q.text, k.stvec, { k.fdt with heap := heap }, pages⟩ := by
    rw [initPageAllocator, hpages]
  have hload : readWord mem NULL = .error (.unreadable NULL) := by simp [readWord, load32, hnull]
  rw [srvArchInitMemory, bind_of_ok hget, bind_of_ok (call_of_ok hsize),
    bind_of_ok (print_of_ok hq), bind_of_ok hinit, bind_of_ok (call_of_ok hfdt), hload]
  exact ⟨_, rfl, by rw [htext], rfl, rfl⟩

end Run

theorem bootInfoAt_of_booted {b : BootImage} {fdt : Word} {mem₀ mem : Mem} {h : Hart}
    (hbooted : Boot.Booted b fdt mem₀ h mem) : bootInfoAt mem (h.reg .a0) =
      ⟨kernelPhysicalStart, physicalMemoryStart, fdt, physicalMemoryStart⟩ := by
  have hinfo := hbooted.info
  simp only [infoFields, List.forall_mem_cons] at hinfo
  obtain ⟨h₀, h₁, h₂, h₃, -⟩ := hinfo
  rw [BitVec.add_zero] at h₀
  rw [bootInfoAt, hbooted.a0, h₀, h₁, h₂, h₃]

/-- What is left at the load through the null pointer. -/
structure BroughtUp (i : BootInput) (trapHandler : Addr) (k k' : Kernel) : Prop where
  console : k'.console = k.console ++ bootText i.memorySize physicalMemoryStart
  stvec : k'.stvec = trapHandler
  pages : ReservedMemory.Booted i k'.pages

/-- The device tree in memory describes the RAM, and the eternal heap has room for what is made
of it. -/
structure Describes (mem : Memory) (header : BlobHeader) (tokens : List Token) (m : MemoryTree)
    (heap : EternalHeap) (i : BootInput) : Prop where
  flat : FlatBlob mem i.fdtPtr header tokens m.tree
  parsable : Parsable m.tree
  reached : NamesReached header m.tree
  totalsize : Holds mem (i.fdtPtr + 4#64) (be32 i.fdtTotalsize)
  read : m.RegRead (bswap32 header.sizeDtStruct) tokens
  size : (m.size.setWidth 32).setWidth 64 = i.memorySize
  start : heap.currKallocEternalAddress ≠ NULL
  room : SufficesBeside (bitmapBytes i.memorySize) tokens heap

section Whole

variable {mem : Memory} {header : BlobHeader} {tokens : List Token} {m : MemoryTree}
  {heap : EternalHeap} {i : BootInput} {s : FdtState} {n : ℕ}

namespace Describes

theorem left_of_init (hd : Describes mem header tokens m heap i)
    (hinit : srvFdtInit mem n (.zeroed heap) i.fdtPtr = .ok (s, true)) :
    s.fdtInfoBlock = i.fdtPtr ∧ ∃ post, SufficesBeside (bitmapBytes i.memorySize) post s.heap := by
  obtain ⟨hframe, pre, post, -, hpost⟩ := left_of_done (hd.flat.blob.loaded hd.flat.small)
    (wellFormed_of_flat hd.parsable hd.flat.flat) (sufficesBeside_rule _)
    (stands_entered _ _ hd.start hd.room) (hd.flat.blob.parseLoop_of_init hd.flat.magic hinit).2
  exact ⟨hframe.infoBlock, post, hpost⟩

theorem init_cases (hd : Describes mem header tokens m heap i) (n : ℕ) :
    srvFdtInit mem n (.zeroed heap) i.fdtPtr = .error .endless ∨
      ∃ s, srvFdtInit mem n (.zeroed heap) i.fdtPtr = .ok (s, true) := by
  rcases hd.flat.blob.srvFdtInit_cases (fun _ => .zeroed) (fun _ => .zeroed) hd.flat.magic
      (wellFormed_of_flat hd.parsable hd.flat.flat) hd.flat.small suffices_rule hd.start
      hd.room.suffices n with ⟨s, -, hinit, -⟩ | hinit | ⟨-, _, _, _, hpost, hfull⟩
  · exact .inr ⟨s, hinit⟩
  · exact .inl hinit
  · exact absurd hfull hpost.not_full

theorem calls (hd : Describes mem header tokens m heap i) (y : InitStrings mem)
    (hinit : srvFdtInit mem n (.zeroed heap) i.fdtPtr = .ok (s, true)) :
    srvFdtGetMemorySize mem y.memoryNode y.reg s = .ok i.memorySize ∧
      (∃ heap' pages, srvKpallocInitPageAllocator s.heap (fun _ => 0#64) physicalMemoryStart
        i.memorySize = .ok (heap', pages)) ∧
      srvFdtGetFDTSize mem s = .ok (i.fdtTotalsize.setWidth 64) := by
  obtain ⟨hinfo, post, hroom⟩ := hd.left_of_init hinit
  obtain ⟨pre, st, hleft⟩ := hd.flat.leftOrdered hd.parsable hd.start hd.room.suffices hinit
  have hsize := MemoryTree.getMemorySize_of_regRead hd.flat hd.parsable hd.reached y.memoryNode_text
    y.reg_text hleft hd.read
  rw [hd.size] at hsize
  exact ⟨hsize, exists_initPageAllocator physicalMemoryStart (fun _ => 0#64) hroom,
    srvFdtGetFDTSize_of_holds (hinfo ▸ hd.totalsize)⟩

theorem broughtUp (hd : Describes mem header tokens m heap i) (y : InitStrings mem)
    (trapHandler : Addr) {k : Kernel} (hnull : mem NULL = none) (hfdt : k.fdt = .zeroed heap)
    (hinit : srvFdtInit mem n (.zeroed heap) i.fdtPtr = .ok (s, true)) :
    ∃ k', srvArchInit y i.layout trapHandler (fun _ => 0#64) n
        ⟨kernelPhysicalStart, physicalMemoryStart, i.fdtPtr, physicalMemoryStart⟩ k =
      .error (.fault (.unreadable NULL)) k' ∧ BroughtUp i trapHandler k k' := by
  obtain ⟨hsize, ⟨heap', pages, hpages⟩, hfdtSize⟩ := hd.calls y hinit
  obtain ⟨k', hstops, hconsole, hstvec, hmarked⟩ := srvArchInitMemory_run y i.layout (fun _ => 0#64)
    ⟨kernelPhysicalStart, physicalMemoryStart, i.fdtPtr, physicalMemoryStart⟩
    (k := { k.started trapHandler with fdt := s }) hnull hsize hpages hfdtSize
  refine ⟨k', ?_, ?_, hstvec, ?_⟩
  · rw [srvArchInit_eq, hfdt, hinit]
    exact hstops
  · rw [hconsole, bootText, Kernel.started, List.append_assoc]
  · rw [hmarked]
    exact booted_of_init hpages fun index _ => pageBitmap_of_init hpages index

end Describes

/-- In the state that `_start` leaves, with a device tree that describes the RAM: `srv_arch_Init`
names the RAM, sets the page allocator up with both regions marked, and gets as far as its load
through the null pointer, which nothing is mapped for. -/
theorem srvArchInit_stops_at_null {b : BootImage} {mem₀ memory : Mem} {h : Hart}
    (hd : Describes mem header tokens m heap i)
    (hmapped : ∀ a, bootPhysical a = none → mem a = none) (y : InitStrings mem)
    (trapHandler : Addr) {k : Kernel} (hbooted : Boot.Booted b i.fdtPtr mem₀ h memory)
    (hlayout : b.layout = i.layout) (hfdt : k.fdt = .zeroed heap) :
    (mmu true).translate h.satp .load memory NULL = none ∧
      (∃ n k', srvArchInit y b.layout trapHandler (fun _ => 0#64) n (bootInfoAt memory (h.reg .a0)) k =
        .error (.fault (.unreadable NULL)) k' ∧ BroughtUp i trapHandler k k') ∧
      ∀ n, ∃ stop k', srvArchInit y b.layout trapHandler (fun _ => 0#64) n
          (bootInfoAt memory (h.reg .a0)) k = .error stop k' ∧
        (stop = .fault .endless ∨
          stop = .fault (.unreadable NULL) ∧ BroughtUp i trapHandler k k') := by
  have hnull : bootPhysical NULL = none := by decide
  obtain ⟨-, hmode, hroot⟩ := b.satp true
  rw [bootInfoAt_of_booted hbooted, hlayout]
  refine ⟨?_, ?_, fun n => ?_⟩
  · rw [hbooted.satp, hbooted.table.translate hmode hroot, hnull]
    rfl
  · obtain ⟨n, s, hinit⟩ := hd.flat.srvFdtInit_true hd.parsable hd.start hd.room.suffices
    exact ⟨n, hd.broughtUp y trapHandler (hmapped NULL hnull) hfdt hinit⟩
  · rcases hd.init_cases n with hinit | ⟨s, hinit⟩
    · refine ⟨.fault .endless, k.started trapHandler, ?_, .inl rfl⟩
      rw [srvArchInit_eq, hfdt, hinit]
    · obtain ⟨k', hstops, hup⟩ := hd.broughtUp y trapHandler (hmapped NULL hnull) hfdt hinit
      exact ⟨_, k', hstops, .inr ⟨rfl, hup⟩⟩

end Whole

/-- The strings behind the structure block: the names in the tree, and the literals of the code with
those of a panic. -/
def initTexts : List (List Byte) :=
  [regText, memoryNodeText, literal broughtUpFormat, literal ramFormat, literal helloFormat] ++
    sampleTexts

def initBytes : List Byte := blobBytes (ramBody 0x8000000#64) (stringBlock initTexts)

theorem initTexts_length : (stringBlock initTexts).length = 561 := by decide +kernel

def initMemory : Memory := .ofBytes 0x87E00000#64 initBytes

def initString (i : ℕ) : Addr :=
  0x87E00000#64 + BitVec.ofNat 64 (124 + (stringBlock (initTexts.take i)).length)

/-- The tree in the last 2 MiB of RAM. -/
def initInput : BootInput :=
  { highTree with
    fdtTotalsize := BitVec.ofNat 32 (124 + (stringBlock initTexts).length)
    fdt_end := by
      rw [initTexts_length]
      decide }

theorem initBytes_length : initBytes.length = 685 := by
  rw [initBytes, blobBytes_length, ramBody_length, initTexts_length]

theorem initMemory_string {i : ℕ} {text : List Byte} (hi : initTexts[i]? = some text) :
    IsString initMemory (initString i) text := by
  have hnonzero : (initTexts.all fun text => text.all fun b => b.toNat != 0) = true := by
    decide +kernel
  have hlies : LiesAt initBytes (text ++ [0#8]) (56 +
      (FdtTokens.encode (ramBody 0x8000000#64 ++ [.fdtEnd])).length +
      (stringBlock (initTexts.take i)).length) := blobBytes_strings (stringBlock_split hi)
  rw [ramBody_length] at hlies
  refine ⟨hlies.holds (by rw [initBytes_length]; decide), fun b hb hzero => ?_⟩
  have htext := List.all_eq_true.mp hnonzero text (List.mem_of_getElem? hi)
  have hbyte := List.all_eq_true.mp htext b hb
  rw [hzero] at hbyte
  cases hbyte

def initStrings : InitStrings initMemory where
  broughtUp := initString 2
  ram := initString 3
  hello := initString 4
  memoryNode := initString 1
  reg := initString 0
  broughtUp_text := initMemory_string rfl
  ram_text := initMemory_string rfl
  hello_text := initMemory_string rfl
  memoryNode_text := initMemory_string rfl
  reg_text := initMemory_string rfl

theorem initBytes_small : initBytes.length < 2 ^ 32 := by
  rw [initBytes_length]
  decide

theorem initMemory_flatBlob : FlatBlob initMemory 0x87E00000#64 (blobHeader (ramBody 0x8000000#64))
    (ramBody 0x8000000#64) (ramTree 0x8000000#64).tree where
  magic := holds_at_base blobBytes_magic (Nat.le_of_lt (Nat.lt_trans initBytes_small (by decide)))
  blob := blob_blobBytes initBytes_small
  flat := (ramTree_flatBlob _).flat
  size := (ramTree_flatBlob _).size
  strings := by
    refine ramTree_properties _ ?_
    rw [blobHeader, ramBody_length]
    exact initMemory_string (i := 0) rfl

def initHeap : EternalHeap := .fresh smallImage.kallocEternalStart smallImage.kallocEternalEnd

theorem initInput_describes : Describes initMemory (blobHeader (ramBody 0x8000000#64))
    (ramBody 0x8000000#64) (ramTree 0x8000000#64) initHeap initInput where
  flat := initMemory_flatBlob
  parsable := ramTree_parsable _
  reached := ramTree_namesReached _
  totalsize := by
    have hword : (blobWords (ramBody 0x8000000#64) (stringBlock initTexts))[1]? =
        some (BitVec.ofNat 32 (124 + (stringBlock initTexts).length)) := by
      rw [blobWords, ramBody_length]
      simp
    have hfield : LiesAt initBytes (be32 initInput.fdtTotalsize) (4 * 1) := blobBytes_field hword
    exact hfield.holds (Nat.le_of_lt (Nat.lt_trans initBytes_small (by decide)))
  read := ramTree_regRead _
  size := by decide
  start := by decide
  room := by
    have hcost : ((ramBody 0x8000000#64).map tokenCost).sum = 568 := rfl
    rw [SufficesBeside, hcost]
    decide

/-- All of it lies in the first GiB of RAM. -/
theorem initMemory_mapped (a : Addr) (h : bootPhysical a = none) : initMemory a = none := by
  rw [initMemory, Memory.ofBytes, List.getElem?_eq_none_iff, initBytes_length]
  by_contra hlt
  rw [bootPhysical, if_pos] at h
  · cases h
  · rw [BitVec.toNat_sub, BitVec.toNat_ofNat] at hlt
    omega

def initKernel : Kernel := ⟨[], 0#64, .zeroed initHeap, emptyAllocator⟩

theorem srvArchInit_returns_iff_128_mebibytes :
    srvArchInit initStrings smallImage 0xFFFFFFFF80203100#64 (fun _ => 0#64) 0
        ⟨kernelPhysicalStart, physicalMemoryStart, initString 2, physicalMemoryStart⟩ initKernel =
      .ok .deviceTreeInvalid (initKernel.started 0xFFFFFFFF80203100#64) ∧
    ∀ k', srvArchInit initStrings smallImage 0xFFFFFFFF80203100#64 (fun _ => 0#64) 200
        ⟨kernelPhysicalStart, physicalMemoryStart, 0x87E00000#64, physicalMemoryStart⟩ initKernel ≠
      .error .kmain k' := by
  have hload : load32 initMemory NULL = none := by
    rw [load32, initMemory_mapped NULL (by decide)]
    rfl
  constructor
  · have htext := (holds_append.mp (initMemory_string (i := 2) rfl).bytes).1
    -- the first word of the text, as `srv_fdt_Init` reads it
    have hmagic : Holds initMemory (initString 2) (be32 0x54686520#32) :=
      (@holds_append _ _ (be32 0x54686520#32) _ |>.mp htext).1
    exact ((srvArchInit_returns_iff initStrings smallImage _ _ 0
      ⟨kernelPhysicalStart, physicalMemoryStart, initString 2, physicalMemoryStart⟩ initKernel).1 _
      _).mpr ⟨rfl, rfl, 0x54686520#32, fdtRead32_of_holds hmagic, by decide⟩
  · intro k' hkmain
    obtain ⟨w, hw⟩ := (srvArchInit_returns_iff initStrings smallImage _ _ 200
      ⟨kernelPhysicalStart, physicalMemoryStart, 0x87E00000#64, physicalMemoryStart⟩
      initKernel).2 k' hkmain
    rw [readWord, hload] at hw
    cases hw

theorem srvArchInit_stops_at_null_128_mebibytes :
    ∃ bootInfo n k', srvArchInit initStrings smallImage 0xFFFFFFFF80203100#64 (fun _ => 0#64) n
        bootInfo initKernel = .error (.fault (.unreadable NULL)) k' ∧
      BroughtUp initInput 0xFFFFFFFF80203100#64 initKernel k' := by
  obtain ⟨h, mem, -, hbooted, -⟩ := @start_boots sampleImage (fun _ => 0#64) (sampleHart 0#64)
    0x87E00000#64 rfl (by decide) rfl rfl fun _ _ => rfl
  exact ⟨_, (srvArchInit_stops_at_null initInput_describes initMemory_mapped initStrings
    0xFFFFFFFF80203100#64 (i := initInput) hbooted rfl rfl).2.1⟩

end SysRv.ArchInit
