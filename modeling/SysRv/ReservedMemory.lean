import SysRv.GuardedRuns
import SysRv.KpallocSpec

/-!
# Boot reservations

`srv_arch_Init` initialises the page allocator and marks two regions: the device tree and
the kernel image. `linker.ld` fixes where the image lies. The theorem at the end says for
which placements no later run of `AllocPage` and `FreePage` can obtain reserved memory. Both
regions are marked from the page of their first byte on and for a rounded number of pages,
and `.boot` lies before the second region, so reserved pages can stay unmarked; whether such
a page is ever returned depends on how far `AllocPage` gets, which never passes an entry
other than entry 0 that has no marked page.
-/

namespace SysRv.ReservedMemory
open Kalloc Kpalloc WordBitmaps GuardedRuns PageAllocator

/-- `__PHYSICAL_MEMORY_START`, stored in `boot_info` as the base of RAM. -/
def physicalMemoryStart : Addr := 0x80000000#64

def kernelPhysicalStart : Addr := 0x80200000#64

def kernelVaPaOffset : Addr := 0xFFFFFFFF80000000#64 - physicalMemoryStart

def srvPagingKernelRegionBase : Addr := 0xFFFFFFFF00000000#64

/-- The symbols of `linker.ld`, in the order of the script. The location counter does not
wrap, `.boot` holds the page-aligned boot root page table, and only the 16-byte alignment
of its end is forced. -/
structure ImageLayout where
  bootRootPageTable : Addr
  bootEnd : Addr
  kernelStackBottom : Addr
  kallocEternalStart : Addr
  kernelVirtualEnd : Addr
  root_aligned : bootRootPageTable.toNat % 4096 = 0
  root_start : kernelPhysicalStart.toNat ≤ bootRootPageTable.toNat
  root_end : bootRootPageTable.toNat + 4096 ≤ bootEnd.toNat
  bootEnd_aligned : bootEnd.toNat % 16 = 0
  bootEnd_low : bootEnd.toNat + kernelVaPaOffset.toNat < 2 ^ 64
  stack_start : bootEnd.toNat + kernelVaPaOffset.toNat ≤ kernelStackBottom.toNat
  stack_end : kernelStackBottom.toNat + 4096 ≤ kallocEternalStart.toNat
  heap_aligned : kallocEternalStart.toNat % 4096 = 0
  heap_end : kallocEternalStart.toNat + 0x100000 ≤ kernelVirtualEnd.toNat
  end_aligned : kernelVirtualEnd.toNat % 4096 = 0

namespace ImageLayout

variable (l : ImageLayout)

def kernelVirtualStart : Addr := l.bootEnd + kernelVaPaOffset

def kallocEternalEnd : Addr := l.kallocEternalStart + 0x100000#64

theorem kernelVirtualStart_toNat :
    l.kernelVirtualStart.toNat = l.bootEnd.toNat + kernelVaPaOffset.toNat := by
  rw [kernelVirtualStart, BitVec.toNat_add, Nat.mod_eq_of_lt l.bootEnd_low]

/-- The physical address of the first byte behind the image. -/
def kernelPhysicalEnd : ℕ := l.kernelVirtualEnd.toNat - kernelVaPaOffset.toNat

end ImageLayout

/-- What boot finds: the image, a device tree in RAM and a memory size that covers both. -/
structure BootInput where
  layout : ImageLayout
  fdtPtr : Addr
  fdtTotalsize : BitVec 32
  memorySize : BitVec 64
  fdt_aligned : fdtPtr.toNat % 8 = 0
  fdt_start : physicalMemoryStart.toNat ≤ fdtPtr.toNat
  fdt_end : fdtPtr.toNat + fdtTotalsize.toNat ≤ physicalMemoryStart.toNat + memorySize.toNat
  memory_whole : memorySize.toNat % 0x40000 = 0
  memory_fits : physicalMemoryStart.toNat + memorySize.toNat ≤ 2 ^ 64
  image_end : layout.kernelPhysicalEnd ≤ physicalMemoryStart.toNat + memorySize.toNat

/-- The two `MarkRegionUnusable` calls of `srv_arch_Init`, `fdtSize` being what
`srv_fdt_GetFDTSize` returns. -/
def srvArchInitReserve (l : ImageLayout) (fdtPtr : Addr) (fdtSize : BitVec 64) (s : PageAllocator) :
    PageAllocator :=
  let fdtRounded := ((fdtSize + srvPageSize - 1#64) / srvPageSize) * srvPageSize
  let s := srvKpallocMarkRegionUnusable s fdtPtr fdtRounded
  let kernelRegionLength := l.kernelVirtualEnd - l.kernelVirtualStart
  let kernelPhysStart := l.kernelVirtualStart - srvPagingKernelRegionBase
  srvKpallocMarkRegionUnusable s kernelPhysStart kernelRegionLength

namespace BootInput

variable (i : BootInput)

/-- The physical addresses that must not be handed out. -/
def reserved : Set ℕ :=
  Set.Ico i.fdtPtr.toNat (i.fdtPtr.toNat + i.fdtTotalsize.toNat) ∪
    Set.Ico kernelPhysicalStart.toNat i.layout.kernelPhysicalEnd ∪
    Set.Ico (i.layout.kallocEternalStart.toNat - kernelVaPaOffset.toNat)
      (i.layout.kallocEternalEnd.toNat - kernelVaPaOffset.toNat)

/-- Page `b` of RAM contains a reserved byte. -/
def Overlaps (b : ℕ) : Prop :=
  ∃ a ∈ i.reserved, physicalMemoryStart.toNat + 4096 * b ≤ a ∧
    a < physicalMemoryStart.toNat + 4096 * b + 4096

/-- Page `b` lies in one of the two marked ranges: as many pages as the size of the tree
rounds up to, from the page of its first byte on, and as many whole pages as there are
bytes between `__kernel_virtual_start` and `__kernel_virtual_end`, from the page of
`__boot_end` on. -/
def Marked (b : ℕ) : Prop :=
  ((i.fdtPtr.toNat - physicalMemoryStart.toNat) / 4096 ≤ b ∧
    b < (i.fdtPtr.toNat - physicalMemoryStart.toNat) / 4096 + (i.fdtTotalsize.toNat + 4095) / 4096) ∨
  ((i.layout.bootEnd.toNat - physicalMemoryStart.toNat) / 4096 ≤ b ∧
    b < (i.layout.bootEnd.toNat - physicalMemoryStart.toNat) / 4096 +
      (i.layout.kernelPhysicalEnd - i.layout.bootEnd.toNat) / 4096)

instance (b : ℕ) : Decidable (i.Marked b) := inferInstanceAs (Decidable (_ ∨ _))

/-- Entry `e` of the bitmap, other than entry 0, holds no marked page. -/
def UnmarkedEntry (e : ℕ) : Prop := 0 < e ∧ ∀ b, 64 * e ≤ b → b < 64 * e + 64 → ¬ i.Marked b

/-- Page `b` lies behind the first page of such an entry. -/
def Shadowed (b : ℕ) : Prop := ∃ e, i.UnmarkedEntry e ∧ 64 * e < b

end BootInput

/-- The allocator and every page that `AllocPage` has returned. -/
structure PageUser where
  pages : PageAllocator
  obtained : Finset Addr

def PageUser.start (s : PageAllocator) : PageUser := ⟨s, ∅⟩

inductive UserCall where
  | allocPage
  | freePage (page : Addr)
  deriving DecidableEq, Repr

/-- Calls after boot: any `AllocPage`, and `FreePage` of a page that was obtained. -/
def userCalls : System PageUser UserCall where
  guard u
    | .allocPage => True
    | .freePage page => page ∈ u.obtained
  next u
    | .allocPage =>
      let (page, s) := srvKpallocAllocPage u.pages
      ⟨s, if page = NULL then u.obtained else insert page u.obtained⟩
    | .freePage page =>
      match srvKpallocFreePage u.pages page with
      | .ok s => { u with pages := s }
      | .error _ => u

/-- The page that `AllocPage` returns in this state holds no reserved byte. -/
def ReturnsUnreserved (i : BootInput) (u : PageUser) : Prop :=
  (srvKpallocAllocPage u.pages).1 ≠ NULL → ∀ a ∈ i.reserved,
    ¬ ((srvKpallocAllocPage u.pages).1.toNat ≤ a ∧ a < (srvKpallocAllocPage u.pages).1.toNat + 4096)

/-- The allocator after the two reservations, from a zero bitmap. -/
structure Booted (i : BootInput) (s : PageAllocator) : Prop where
  base : s.physBaseAddress = physicalMemoryStart
  tracked : s.tracked = i.memorySize.toNat / 4096
  fits : s.Fits
  used : ∀ b < s.tracked, (s.used b = true ↔ i.Marked b)

theorem pageIndex_physical {s : PageAllocator} (hbase : s.physBaseAddress = physicalMemoryStart)
    {a : Addr} (ha : physicalMemoryStart.toNat ≤ a.toNat) :
    s.pageIndex a = (a.toNat - physicalMemoryStart.toNat) / 4096 := by
  rw [pageIndex_eq, hbase, BitVec.toNat_sub_of_le (BitVec.le_def.mpr ha)]

/-- The rounded size of the device tree is a whole number of pages. -/
theorem fdtRounded_pages (size : BitVec 32) :
    (((size.setWidth 64 + srvPageSize - 1#64) / srvPageSize) * srvPageSize).toNat / 4096 =
      (size.toNat + 4095) / 4096 := by
  have hsize := size.isLt
  have hsum : (size.setWidth 64 + srvPageSize - 1#64).toNat = size.toNat + 4095 := by
    simp only [srvPageSize, BitVec.toNat_sub, BitVec.toNat_add, BitVec.toNat_setWidth,
      BitVec.toNat_ofNat]
    omega
  simp only [BitVec.toNat_mul, BitVec.toNat_udiv, hsum]
  simp only [srvPageSize, BitVec.toNat_ofNat, Nat.reducePow, Nat.reduceMod]
  omega

theorem kernelRegion_length (l : ImageLayout) :
    (l.kernelVirtualEnd - l.kernelVirtualStart).toNat = l.kernelPhysicalEnd - l.bootEnd.toNat := by
  have hstart := l.kernelVirtualStart_toNat
  have h₁ := l.stack_start
  have h₂ := l.stack_end
  have h₃ := l.heap_end
  rw [BitVec.toNat_sub_of_le (BitVec.le_def.mpr (by omega)), ImageLayout.kernelPhysicalEnd]
  omega

theorem kernelPhysStart_eq (l : ImageLayout) :
    l.kernelVirtualStart - srvPagingKernelRegionBase = l.bootEnd := by
  rw [ImageLayout.kernelVirtualStart]
  exact BitVec.add_sub_cancel l.bootEnd kernelVaPaOffset

theorem booted_of_init {i : BootInput} {heap heap' : EternalHeap} {words : Addr → BitVec 64}
    {s : PageAllocator}
    (hinit : srvKpallocInitPageAllocator heap words physicalMemoryStart i.memorySize = .ok (heap', s))
    (hzero : ∀ n < s.bitmapEntryCount.toNat, s.pageBitmap n = 0#64) :
    Booted i (srvArchInitReserve i.layout i.fdtPtr (i.fdtTotalsize.setWidth 64) s) := by
  obtain ⟨hbase, -, hcount, hfits⟩ := srvKpallocInitPageAllocator_ok hinit
  have hboot : physicalMemoryStart.toNat ≤ i.layout.bootEnd.toNat := by
    have h₁ := i.layout.root_start
    have h₂ := i.layout.root_end
    have h₃ : physicalMemoryStart.toNat ≤ kernelPhysicalStart.toNat := by decide
    omega
  have hwhole := i.memory_whole
  have htracked : (srvArchInitReserve i.layout i.fdtPtr (i.fdtTotalsize.setWidth 64) s).tracked =
      s.tracked := by
    simp only [srvArchInitReserve, mark_tracked]
  refine ⟨?_, ?_, ?_, fun b hb => ?_⟩
  · simp only [srvArchInitReserve, mark_physBaseAddress, hbase]
  · rw [htracked, PageAllocator.tracked, hcount]
    omega
  · rw [Fits, htracked]
    exact hfits
  · have hfree : s.used b = false := by
      rw [htracked, PageAllocator.tracked] at hb
      simp [PageAllocator.used, bit, hzero (b / 64) (by omega)]
    simp only [srvArchInitReserve, used_mark_iff, fdtRounded_pages, kernelRegion_length,
      kernelPhysStart_eq, hfree, Bool.false_eq_true, or_false, BootInput.Marked]
    rw [pageIndex_physical hbase i.fdt_start, pageIndex_physical (by simp [hbase]) hboot]
    exact or_comm

/-- What holds while the user runs: marked pages stay in use, and behind the first page of
an entry without marked pages nothing else is ever marked. -/
structure UserInv (i : BootInput) (u : PageUser) : Prop where
  base : u.pages.physBaseAddress = physicalMemoryStart
  tracked : u.pages.tracked = i.memorySize.toNat / 4096
  fits : u.pages.Fits
  keeps : ∀ b < u.pages.tracked, i.Marked b → u.pages.used b = true
  shadow : ∀ e, i.UnmarkedEntry e → ∀ b < u.pages.tracked, 64 * e ≤ b →
    u.pages.used b = true → i.Marked b
  obtained : ∀ page ∈ u.obtained, ∃ b < u.pages.tracked, page = u.pages.pageAddress b ∧ ¬ i.Marked b

theorem userInv_start {i : BootInput} {s : PageAllocator} (h : Booted i s) :
    UserInv i (.start s) where
  base := h.base
  tracked := h.tracked
  fits := h.fits
  keeps b hb := (h.used b hb).mpr
  shadow _ _ b hb _ := (h.used b hb).mp
  obtained := by simp [PageUser.start]

/-- The least unused page is not marked and not behind the first page of an entry without
marked pages. -/
theorem UserInv.leastFree {i : BootInput} {u : PageUser} (h : UserInv i u) {b : ℕ}
    (hb : u.pages.LeastFree b) :
    ¬ i.Marked b ∧ ∀ e, i.UnmarkedEntry e → b ≤ 64 * e := by
  have hlt := hb.lt
  refine ⟨fun hm => ?_, fun e he => ?_⟩
  · have := h.keeps b hb.lt hm
    simp [hb.free] at this
  · by_contra hgt
    have hfirst := hb.below (64 * e) (by omega)
    exact he.2 (64 * e) le_rfl (by omega)
      (h.shadow e he (64 * e) (by omega) le_rfl hfirst)

theorem pageAddress_toNat {i : BootInput} {u : PageUser} (h : UserInv i u) {b : ℕ}
    (hb : b < u.pages.tracked) :
    (u.pages.pageAddress b).toNat = physicalMemoryStart.toNat + 4096 * b := by
  have hfit := i.memory_fits
  have htracked := h.tracked
  simp only [pageAddress, kpallocBitmapBitIndexToPageAddress, h.base, srvPageSize,
    BitVec.toNat_add, BitVec.toNat_mul, BitVec.toNat_ofNat]
  omega

theorem UserInv.returnsUnreserved {i : BootInput} {u : PageUser} (h : UserInv i u)
    (hsafe : ∀ b < i.memorySize.toNat / 4096, i.Overlaps b → i.Marked b ∨ i.Shadowed b) :
    ReturnsUnreserved i u := by
  intro hne a ha hin
  rcases srvKpallocAllocPage_cases h.fits with ⟨-, halloc⟩ | ⟨b, hb, halloc⟩
  · simp [halloc] at hne
  · rw [halloc, pageAddress_toNat h hb.lt] at hin
    obtain ⟨hunmarked, hnotpast⟩ := h.leastFree hb
    rcases hsafe b (h.tracked ▸ hb.lt) ⟨a, ha, hin⟩ with hm | ⟨e, he, hlt⟩
    · exact hunmarked hm
    · have := hnotpast e he
      omega

/-- `AllocPage` does not mark the first page of an entry without marked pages. -/
theorem UserInv.misses_first {i : BootInput} {u : PageUser} (h : UserInv i u) {e : ℕ}
    (he : i.UnmarkedEntry e) (hlt : 64 * e < u.pages.tracked) : u.pages.Misses (64 * e) := by
  have hdiv : 64 * e / 64 = e := by omega
  have htracked : u.pages.tracked = 64 * u.pages.bitmapEntryCount.toNat := rfl
  have hpos := he.1
  refine ⟨by omega, (word_eq_zero_iff _ _).mpr fun k hk => ?_⟩
  rw [hdiv]
  apply Bool.eq_false_iff.mpr
  intro hset
  exact he.2 _ (by omega) (by omega) (h.shadow e he (64 * e + k) (by omega) (by omega) hset)

theorem userInv_allocPage {i : BootInput} {u : PageUser} (h : UserInv i u) :
    UserInv i (userCalls.next u .allocPage) := by
  rcases srvKpallocAllocPage_cases h.fits with ⟨-, halloc⟩ | ⟨b, hb, halloc⟩
  · simpa [userCalls, halloc] using h
  · obtain ⟨hunmarked, hnotpast⟩ := h.leastFree hb
    have hnext : userCalls.next u .allocPage = ⟨u.pages.take b,
        if u.pages.pageAddress b = NULL then u.obtained
        else insert (u.pages.pageAddress b) u.obtained⟩ := by
      simp [userCalls, halloc]
    rw [hnext]
    refine ⟨h.base, h.tracked, h.fits, fun d hd hm => used_take_of_used b (h.keeps d hd hm),
      fun e he d hd hge hused => ?_, fun page hpage => ?_⟩
    · -- the new bit, if there is one, lies before the entry
      by_cases hmiss : u.pages.Misses b
      · rw [used_take_of_misses hb hmiss] at hused
        exact h.shadow e he d hd hge hused
      · have hle := hnotpast e he
        have hlt : b ≠ 64 * e := by
          rintro rfl
          exact hmiss (h.misses_first he hb.lt)
        rw [used_take, markedFor_of_not_misses hmiss] at hused
        have hne : d ≠ b := by omega
        simp only [hne, decide_false, Bool.false_or] at hused
        exact h.shadow e he d hd hge hused
    · have hcase : page = u.pages.pageAddress b ∨ page ∈ u.obtained := by
        split at hpage
        · exact Or.inr hpage
        · exact Finset.mem_insert.mp hpage
      rcases hcase with rfl | hpage
      · exact ⟨b, hb.lt, rfl, hunmarked⟩
      · exact h.obtained page hpage

theorem userInv_freePage {i : BootInput} {u : PageUser} (h : UserInv i u) {page : Addr}
    (hpage : page ∈ u.obtained) : UserInv i (userCalls.next u (.freePage page)) := by
  have hfits : u.pages.tracked < 2 ^ 52 := h.fits
  obtain ⟨b, hb, rfl, hunmarked⟩ := h.obtained page hpage
  have haligned : u.pages.physBaseAddress % srvPageSize = 0#64 := by
    rw [h.base]
    decide
  have hnext : userCalls.next u (.freePage (u.pages.pageAddress b)) =
      { u with pages := { u.pages with
          pageBitmap := unsetBit u.pages.pageBitmap b
          freePages := u.pages.freePages + 1#64 } } := by
    simp [userCalls, srvKpallocFreePage_pageAddress haligned (by omega : b < 2 ^ 52)]
  rw [hnext]
  refine ⟨h.base, h.tracked, h.fits, fun d hd hm => ?_, fun e he d hd hge hused => ?_, h.obtained⟩
  · have hne : d ≠ b := fun hdb => hunmarked (hdb ▸ hm)
    have hold : bit u.pages.pageBitmap d = true := h.keeps d hd hm
    simp [PageAllocator.used, bit_unsetBit, hne, hold]
  · apply h.shadow e he d hd hge
    simp only [PageAllocator.used, bit_unsetBit, Bool.and_eq_true] at hused
    exact hused.2

theorem userInv_step {i : BootInput} {u : PageUser} {a : UserCall} (h : UserInv i u)
    (hguard : userCalls.guard u a) : UserInv i (userCalls.next u a) := by
  cases a with
  | allocPage => exact userInv_allocPage h
  | freePage page => exact userInv_freePage h hguard

/-- `AllocPage` alone works its way up to any unused page, as long as every entry on the way
other than entry 0 has a page in use. The induction is on the unused pages below. -/
theorem allocPage_reaches {i : BootInput} (n : ℕ) {u : PageUser} (h : UserInv i u) {b : ℕ}
    (hb : b < u.pages.tracked) (hfree : u.pages.used b = false)
    (hentries : ∀ e, 0 < e → 64 * e < b → ∃ d, d / 64 = e ∧ u.pages.used d = true)
    (hn : clearCount u.pages.pageBitmap b ≤ n) :
    ∃ k, (srvKpallocAllocPage (userCalls.after u (List.replicate k .allocPage)).pages).1 =
      u.pages.pageAddress b := by
  induction n generalizing u with
  | zero =>
    have hbelow : ∀ c < b, u.pages.used c = true := by
      intro c hc
      by_contra hclear
      have hpos := (clearCount_pos_iff u.pages.pageBitmap b).mpr
        ⟨c, hc, Bool.eq_false_iff.mpr hclear⟩
      omega
    exact ⟨0, by rw [List.replicate_zero, System.after_nil,
      srvKpallocAllocPage_of_leastFree h.fits ⟨hb, hfree, hbelow⟩]⟩
  | succ n ih =>
    rcases srvKpallocAllocPage_cases h.fits with ⟨hfull, -⟩ | ⟨d, hd, halloc⟩
    · have := hfull b hb
      simp [hfree] at this
    · rcases Nat.lt_or_eq_of_le (hd.le_of_free hfree) with hlt | rfl
      · have hhit : ¬ u.pages.Misses d :=
          hd.not_misses fun hpos => hentries (d / 64) hpos (by omega)
        have hnext : (userCalls.next u .allocPage).pages = u.pages.take d := by
          simp [userCalls, halloc]
        have hmark := markedFor_of_not_misses hhit
        have hfree' : (u.pages.take d).used b = false := by
          rw [used_take, hmark, hfree, decide_eq_false (Nat.ne_of_gt hlt)]
          rfl
        have hentries' : ∀ e, 0 < e → 64 * e < b →
            ∃ c, c / 64 = e ∧ (u.pages.take d).used c = true := by
          intro e he hlt'
          obtain ⟨c, hc, hused⟩ := hentries e he hlt'
          exact ⟨c, hc, used_take_of_used d hused⟩
        have hn' : clearCount (u.pages.take d).pageBitmap b ≤ n := by
          have hcount := clearCount_setBit (f := u.pages.pageBitmap) hlt hd.free
          rw [take, hmark]
          simp only
          omega
        rw [← hnext] at hfree' hentries' hn'
        obtain ⟨k, hk⟩ := ih (userInv_allocPage h) (by rw [hnext]; exact hb) hfree' hentries' hn'
        refine ⟨k + 1, ?_⟩
        rw [List.replicate_succ, System.after_cons, hk, hnext]
        rfl
      · exact ⟨0, by rw [List.replicate_zero, System.after_nil, halloc]⟩

theorem legal_replicate_allocPage (u : PageUser) (k : ℕ) :
    userCalls.Legal u (List.replicate k .allocPage) := by
  induction k generalizing u with
  | zero => trivial
  | succ k ih => exact ⟨trivial, ih _⟩

/-- An overlapping page that is neither marked nor shadowed is handed out by some run. -/
theorem exists_run_returning_reserved {i : BootInput} {s : PageAllocator} (h : Booted i s) {b : ℕ}
    (hb : b < s.tracked) (hover : i.Overlaps b) (hunmarked : ¬ i.Marked b)
    (hreached : ¬ i.Shadowed b) :
    ∃ k, ¬ ReturnsUnreserved i (userCalls.after (.start s) (List.replicate k .allocPage)) := by
  have h₀ := userInv_start h
  have hwhole : s.tracked = 64 * s.bitmapEntryCount.toNat := rfl
  have hentries : ∀ e, 0 < e → 64 * e < b → ∃ d, d / 64 = e ∧ s.used d = true := by
    intro e he hlt
    have hnot : ¬ i.UnmarkedEntry e := fun hu => hreached ⟨e, hu, hlt⟩
    simp only [BootInput.UnmarkedEntry, he, true_and, not_forall, not_not] at hnot
    obtain ⟨d, hlo, hhi, hd⟩ := hnot
    exact ⟨d, by omega, (h.used d (by omega)).mpr hd⟩
  have hfree : s.used b = false := Bool.eq_false_iff.mpr fun hused =>
    hunmarked ((h.used b hb).mp hused)
  obtain ⟨k, hk⟩ := allocPage_reaches _ h₀ hb hfree hentries le_rfl
  obtain ⟨a, ha, hin⟩ := hover
  have haddr : (s.pageAddress b).toNat = physicalMemoryStart.toNat + 4096 * b :=
    pageAddress_toNat h₀ hb
  have hram : physicalMemoryStart.toNat = 0x80000000 := by decide
  have hne : s.pageAddress b ≠ NULL := by
    intro hnull
    rw [hnull, hram] at haddr
    have hzero : NULL.toNat = 0 := rfl
    omega
  refine ⟨k, fun hsafe => hsafe ?_ a ha ?_⟩
  · rw [hk]
    exact hne
  · rw [hk]
    rw [show (PageUser.start s).pages.pageAddress b = s.pageAddress b from rfl, haddr]
    exact hin

/-- After boot, no run of `AllocPage` and `FreePage` obtains a page with a reserved byte
exactly when every such page is in a marked range or lies behind the first page of a bitmap
entry, other than entry 0, that no marked page falls into. -/
theorem reserved_memory_never_returned {i : BootInput} {heap heap' : EternalHeap}
    {words : Addr → BitVec 64} {s : PageAllocator}
    (hinit : srvKpallocInitPageAllocator heap words physicalMemoryStart i.memorySize = .ok (heap', s))
    (hzero : ∀ n < s.bitmapEntryCount.toNat, s.pageBitmap n = 0#64) :
    (∀ calls, userCalls.Legal
        (.start (srvArchInitReserve i.layout i.fdtPtr (i.fdtTotalsize.setWidth 64) s)) calls →
      userCalls.Along (ReturnsUnreserved i)
        (.start (srvArchInitReserve i.layout i.fdtPtr (i.fdtTotalsize.setWidth 64) s)) calls) ↔
      ∀ b < i.memorySize.toNat / 4096, i.Overlaps b → i.Marked b ∨ i.Shadowed b := by
  have hbooted := booted_of_init hinit hzero
  constructor
  · intro hall b hb hover
    by_contra hneither
    obtain ⟨hunmarked, hreached⟩ := not_or.mp hneither
    obtain ⟨k, hk⟩ := exists_run_returning_reserved hbooted (hbooted.tracked ▸ hb) hover hunmarked
      hreached
    exact hk (hall _ (legal_replicate_allocPage _ k)).last
  · intro hsafe calls hlegal
    exact (System.along_of_step (userInv_start hbooted)
      (fun u a hu hg => userInv_step hu hg) hlegal).mono fun u hu => hu.returnsUnreserved hsafe

/-- An image with 12 KiB of `.boot` and a heap that ends 0x310000 bytes into RAM. -/
def smallImage : ImageLayout where
  bootRootPageTable := 0x80202000#64
  bootEnd := 0x80203000#64
  kernelStackBottom := 0xFFFFFFFF8020F000#64
  kallocEternalStart := 0xFFFFFFFF80210000#64
  kernelVirtualEnd := 0xFFFFFFFF80310000#64
  root_aligned := by decide
  root_start := by decide
  root_end := by decide
  bootEnd_aligned := by decide
  bootEnd_low := by decide
  stack_start := by decide
  stack_end := by decide
  heap_aligned := by decide
  heap_end := by decide
  end_aligned := by decide

/-- The device tree in the last 2 MiB of RAM. -/
def highTree : BootInput where
  layout := smallImage
  fdtPtr := 0x87E00000#64
  fdtTotalsize := 0x1A00#32
  memorySize := 0x8000000#64
  fdt_aligned := by decide
  fdt_start := by decide
  fdt_end := by decide
  memory_whole := by decide
  memory_fits := by decide
  image_end := by decide

/-- The device tree across the end of the first page of RAM. -/
def lowTree : BootInput where
  layout := smallImage
  fdtPtr := 0x80000FF8#64
  fdtTotalsize := 0x100#32
  memorySize := 0x8000000#64
  fdt_aligned := by decide
  fdt_start := by decide
  fdt_end := by decide
  memory_whole := by decide
  memory_fits := by decide
  image_end := by decide

/-- The allocator of 128 MiB before the reservations. -/
def emptyAllocator : PageAllocator := ⟨fun _ => 0#64, 0x8000#64, 0x80000000#64, 512#64⟩

theorem emptyAllocator_init :
    ∃ heap', srvKpallocInitPageAllocator (.fresh 0xFFFFFFFF80210000#64 0xFFFFFFFF80310000#64)
      (fun _ => 0#64) physicalMemoryStart 0x8000000#64 = .ok (heap', emptyAllocator) := ⟨_, rfl⟩

/-- With the tree far up, entry 1 has no marked page and everything reserved lies behind it. -/
theorem reserved_memory_never_returned_high_tree :
    userCalls.Along (ReturnsUnreserved highTree)
      (.start (srvArchInitReserve smallImage 0x87E00000#64 0x1A00#64 emptyAllocator))
      [.allocPage, .allocPage] := by
  obtain ⟨heap', hinit⟩ := emptyAllocator_init
  refine (reserved_memory_never_returned (i := highTree) hinit fun _ _ => rfl).mpr
    (fun b hb hover => Or.inr ?_) _ (legal_replicate_allocPage _ 2)
  obtain ⟨a, ha, -, hhi⟩ := hover
  have hlow : 0x80200000 ≤ a := by
    rcases ha with (⟨h, -⟩ | ⟨h, -⟩) | ⟨h, -⟩
    · exact le_trans (by decide) h
    · exact h
    · exact le_trans (by decide) h
  have hram : physicalMemoryStart.toNat = 0x80000000 := by decide
  refine ⟨1, ⟨Nat.one_pos, fun c hlo hhi' hm => ?_⟩, by omega⟩
  have hranges : (0x7E00 ≤ c ∧ c < 0x7E02) ∨ (0x203 ≤ c ∧ c < 0x310) := hm
  omega

/-- With the tree across a page boundary, only its first page is marked, and `AllocPage`
returns the second. -/
theorem low_tree_second_page_returned :
    (∃ heap', srvKpallocInitPageAllocator (.fresh 0xFFFFFFFF80210000#64 0xFFFFFFFF80310000#64)
        (fun _ => 0#64) physicalMemoryStart lowTree.memorySize = .ok (heap', emptyAllocator)) ∧
      ¬ ∀ calls, userCalls.Legal (.start (srvArchInitReserve lowTree.layout lowTree.fdtPtr
          (lowTree.fdtTotalsize.setWidth 64) emptyAllocator)) calls →
        userCalls.Along (ReturnsUnreserved lowTree) (.start (srvArchInitReserve lowTree.layout
          lowTree.fdtPtr (lowTree.fdtTotalsize.setWidth 64) emptyAllocator)) calls := by
  have hinit : srvKpallocInitPageAllocator (.fresh 0xFFFFFFFF80210000#64 0xFFFFFFFF80310000#64)
      (fun _ => 0#64) physicalMemoryStart lowTree.memorySize = .ok
        (⟨0xFFFFFFFF80210000#64, 0xFFFFFFFF80310000#64, 0xFFFFFFFF80211000#64⟩, emptyAllocator) := rfl
  have hbooted := booted_of_init hinit (fun _ _ => rfl)
  have hmarked (b : ℕ) : lowTree.Marked b ↔ (0 ≤ b ∧ b < 1) ∨ (0x203 ≤ b ∧ b < 0x310) := Iff.rfl
  have htracked := hbooted.tracked
  have hsize : lowTree.memorySize.toNat / 4096 = 0x8000 := by decide
  obtain ⟨k, hk⟩ := exists_run_returning_reserved hbooted (b := 1) (by omega)
    ⟨0x80001000, Or.inl (Or.inl ⟨by decide, by decide⟩), by decide, by decide⟩
    (by rw [hmarked]; omega) (by rintro ⟨e, he, hlt⟩; have := he.1; omega)
  exact ⟨⟨_, hinit⟩, fun hall => hk (hall _ (legal_replicate_allocPage _ k)).last⟩

end SysRv.ReservedMemory
