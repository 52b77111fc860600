import SysRv.FdtObjects

/-!
# Pages and the eternal heap

The eternal heap lies in the image, and boot marks the pages of the image, so that `AllocPage` does
not hand out the memory that the driver's nodes and the bitmap itself are in. The marked range ends
a page early when `__boot_end` is not at a page boundary: the last page of the image is then free,
and what keeps the objects out of it is that the heap has not been used up to there.
-/

namespace SysRv.HeapPages

open ByteMemory KString Kalloc Kpalloc PageAllocator BumpAllocation GuardedRuns ReservedMemory
open Boot Fdt ArchInit

/-- The boot table maps every byte of the objects in the heap to one that no page handed out
contains. -/
def SparesHeap (s : FdtState) (a : PageAllocator) (u : PageUser) : Prop :=
  ∀ page ∈ u.obtained, ∀ o : HeapObject, o.Live s → ∀ va : Addr, va.toNat ∈ (o.block s a).bytes →
    ∃ pa, bootPhysical va = some pa ∧ ¬ (page.toNat ≤ pa.toNat ∧ pa.toNat < page.toNat + 4096)

/-- The marked range covers the image up to `top`. -/
def ClearOfLastPage (l : ImageLayout) (top : ℕ) : Prop :=
  l.bootEnd.toNat % 4096 = 0 ∨ top + 4096 ≤ l.kernelVirtualEnd.toNat

instance (l : ImageLayout) (top : ℕ) : Decidable (ClearOfLastPage l top) :=
  inferInstanceAs (Decidable (_ ∨ _))

variable {i : BootInput} {u : PageUser} {s : FdtState} {a : PageAllocator} {bs : List Block}
  {va : Addr} {top : ℕ}

theorem heap_start (l : ImageLayout) : 0x80200000 ≤ l.bootEnd.toNat ∧
    l.bootEnd.toNat + kernelVaPaOffset.toNat + 4096 ≤ l.kallocEternalStart.toNat := by
  have hroot := l.root_start
  have hend := l.root_end
  have hstack := l.stack_start
  have hheap := l.stack_end
  have hphysical := kernelPhysicalStart_toNat
  omega

theorem bootPhysical_heap {l : ImageLayout} (hlow : l.kallocEternalStart.toNat ≤ va.toNat)
    (hhigh : va.toNat < 0xFFFFFFFFC0000000) :
    ∃ pa, bootPhysical va = some pa ∧ pa.toNat + kernelVaPaOffset.toNat = va.toNat := by
  obtain ⟨hboot, hstart⟩ := heap_start l
  have hoffset := kernelVaPaOffset_toNat
  refine ⟨va - kernelVaPaOffset, ?_, ?_⟩
  · rw [bootPhysical, if_neg (by omega), if_pos (by omega)]
  · rw [BitVec.toNat_sub_of_le (BitVec.le_def.mpr (by omega))]
    omega

theorem marked_of_heap (htop : top ≤ i.layout.kernelVirtualEnd.toNat)
    (hclear : ClearOfLastPage i.layout top) {x b : ℕ}
    (hlow : i.layout.kallocEternalStart.toNat ≤ x + kernelVaPaOffset.toNat)
    (hhigh : x + kernelVaPaOffset.toNat < top) (hb : physicalMemoryStart.toNat + 4096 * b ≤ x)
    (hb' : x < physicalMemoryStart.toNat + 4096 * b + 4096) : i.Marked b := by
  obtain ⟨hboot, hstart⟩ := heap_start i.layout
  have haligned := i.layout.end_aligned
  have hoffset := kernelVaPaOffset_toNat
  have hbase : physicalMemoryStart.toNat = 0x80000000 := by decide
  right
  rw [ImageLayout.kernelPhysicalEnd]
  rcases hclear with hpage | hlast <;> constructor <;> omega

theorem sparesHeap_of_userInv (h : UserInv i u)
    (hcarved : Carved i.layout.kallocEternalStart.toNat top bs)
    (hobjects : ∀ o : HeapObject, o.Live s → o.block s a ∈ bs)
    (htop : top ≤ i.layout.kernelVirtualEnd.toNat)
    (hmapped : i.layout.kernelVirtualEnd.toNat ≤ 0xFFFFFFFFC0000000)
    (hclear : ClearOfLastPage i.layout top) : SparesHeap s a u := by
  rintro page hpage o ho va ⟨hfrom, hto⟩
  obtain ⟨hlow, hhigh⟩ := hcarved.within _ (hobjects o ho)
  obtain ⟨pa, hpa, hsum⟩ := bootPhysical_heap (hlow.trans hfrom) (by omega)
  refine ⟨pa, hpa, fun ⟨hin, hin'⟩ => ?_⟩
  obtain ⟨b, hb, rfl, hunmarked⟩ := h.obtained page hpage
  rw [pageAddress_toNat h hb] at hin hin'
  exact hunmarked (marked_of_heap htop hclear (by omega) (by omega) hin hin')

/-- After a boot on any blob, no run of `AllocPage` and `FreePage` is handed a page with a byte of
one of the driver's nodes or properties or of the bitmap, when `__boot_end` is at a page boundary
or the heap has not come within a page of the end of the image. -/
theorem heap_objects_never_handed_out {b : BootImage} {mem : Memory} {n : ℕ} {parsed : Bool}
    {memoryNodeName regName : Addr} {words : Addr → BitVec 64} {heap' : EternalHeap}
    {calls : List UserCall} (hlayout : b.layout = i.layout)
    (hinit : srvFdtInit mem n (.zeroed (.fresh i.layout.kallocEternalStart
      i.layout.kallocEternalEnd)) i.fdtPtr = .ok (s, parsed))
    (hsize : srvFdtGetMemorySize mem memoryNodeName regName s = .ok i.memorySize)
    (hpages : srvKpallocInitPageAllocator s.heap words physicalMemoryStart i.memorySize =
      .ok (heap', a))
    (hzero : ∀ index < a.bitmapEntryCount.toNat, a.pageBitmap index = 0#64)
    (hclear : ClearOfLastPage i.layout heap'.currKallocEternalAddress.toNat)
    (hlegal : userCalls.Legal (.start
      (srvArchInitReserve i.layout i.fdtPtr (i.fdtTotalsize.setWidth 64) a)) calls) :
    userCalls.Along (SparesHeap s a)
      (.start (srvArchInitReserve i.layout i.fdtPtr (i.fdtTotalsize.setWidth 64) a)) calls := by
  have hmapped := b.image_end
  have hheapEnd := i.layout.heap_end
  rw [hlayout] at hmapped
  have hend : i.layout.kallocEternalEnd.toNat = i.layout.kallocEternalStart.toNat + 0x100000 := by
    rw [ImageLayout.kallocEternalEnd, BitVec.toNat_add, BitVec.toNat_ofNat]
    omega
  have hbitmap : i.layout.kallocEternalEnd.toNat + 2 ^ 17 ≤ 2 ^ 64 := by omega
  obtain ⟨bs, hobjects⟩ : ∃ bs, Objects i.layout.kallocEternalStart.toNat i.layout.kallocEternalEnd
      s bs := by
    refine objects_of_init ?_ ?_ hinit
    · exact BitVec.le_def.mpr
        (show i.layout.kallocEternalStart.toNat ≤ i.layout.kallocEternalEnd.toNat by omega)
    · exact show i.layout.kallocEternalEnd.toNat + 272 < 2 ^ 64 by omega
  obtain ⟨hcarved, hinside⟩ := hobjects.bitmap hbitmap (srvFdtGetMemorySize_lt hsize) hpages
  have htop : heap'.currKallocEternalAddress.toNat ≤ i.layout.kernelVirtualEnd.toNat :=
    Nat.le_trans hinside (hend.trans_le hheapEnd)
  have hinv := userInv_start (booted_of_init hpages hzero)
  have hrun := System.along_of_step hinv (fun u c hu hc => userInv_step hu hc) hlegal
  exact hrun.mono fun u hu => sparesHeap_of_userInv hu hcarved (fun o ho => hobjects.block_mem ho)
    htop hmapped hclear

/-- Two calls, with the tree in the last 2 MiB of the RAM. -/
theorem heap_objects_never_handed_out_128_mebibytes :
    ∃ n s heap' a, srvFdtInit initMemory n (.zeroed initHeap) initInput.fdtPtr = .ok (s, true) ∧
      srvKpallocInitPageAllocator s.heap (fun _ => 0#64) physicalMemoryStart initInput.memorySize =
        .ok (heap', a) ∧
      userCalls.Along (SparesHeap s a) (.start (srvArchInitReserve smallImage initInput.fdtPtr
        (initInput.fdtTotalsize.setWidth 64) a)) [.allocPage, .allocPage] := by
  have hd := initInput_describes
  obtain ⟨n, s, hinit⟩ := hd.flat.srvFdtInit_true hd.parsable hd.start hd.room.suffices
  obtain ⟨hsize, ⟨heap', a, hpages⟩, -⟩ := hd.calls initStrings hinit
  refine ⟨n, s, heap', a, hinit, hpages, ?_⟩
  exact heap_objects_never_handed_out (b := sampleImage) (i := initInput) rfl hinit hsize hpages
    (fun index _ => pageBitmap_of_init hpages index) (.inl (by decide)) ⟨trivial, trivial, trivial⟩

end SysRv.HeapPages
