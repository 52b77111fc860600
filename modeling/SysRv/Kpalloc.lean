import SysRv.Kalloc
import SysRv.WordBitmaps

/-!
# The physical page allocator

`mm/phys/kpalloc.c`: a bitmap of 64-bit words, one bit a page, that lies in the eternal
heap. `pageBitmap` is the memory from the address `srv_kalloc_EternalAlloc` returned on, so
that indices past `bitmapEntryCount` are the heap memory behind the bitmap.
-/

namespace SysRv.Kpalloc
open Kalloc WordBitmaps

def srvPageSize : BitVec 64 := 4096#64

/-- `PHYSALLOC_BITS_PER_ENTRY`, also `PHYSALLOC_PAGES_PER_ENTRY`. -/
def physallocBitsPerEntry : BitVec 64 := 64#64

def physallocNoFreePages : BitVec 64 := BitVec.allOnes 64

structure PageAllocator where
  pageBitmap : Bitmap 64
  freePages : BitVec 64
  physBaseAddress : Addr
  bitmapEntryCount : BitVec 64

variable (s : PageAllocator)

def kpallocBitmapAddressToBitIndex (address : Addr) : BitVec 64 :=
  (address - s.physBaseAddress) / srvPageSize

def kpallocBitmapBitIndexToPageAddress (bitIndex : BitVec 64) : Addr :=
  s.physBaseAddress + bitIndex * srvPageSize

def kpallocBitmapSetBit (b : BitVec 64) : PageAllocator :=
  let entry := (b / physallocBitsPerEntry).toNat
  let mask := 1#64 <<< (b % physallocBitsPerEntry)
  { s with pageBitmap := Function.update s.pageBitmap entry (s.pageBitmap entry ||| mask) }

def kpallocBitmapUnsetBit (b : BitVec 64) : PageAllocator :=
  let entry := (b / physallocBitsPerEntry).toNat
  let mask := 1#64 <<< (b % physallocBitsPerEntry)
  { s with pageBitmap := Function.update s.pageBitmap entry (s.pageBitmap entry &&& ~~~mask) }

def kpallocBitmapIsBitSet (b : BitVec 64) : Bool :=
  let mask := 1#64 <<< (b % physallocBitsPerEntry)
  let entry := s.pageBitmap (b / physallocBitsPerEntry).toNat
  mask &&& entry ≠ 0#64

/-- `srv_kpalloc_InitPageAllocator`. The bitmap has whatever the heap memory `words` (the
word at each address) holds behind the pointer that is returned. -/
def srvKpallocInitPageAllocator (heap : EternalHeap) (words : Addr → BitVec 64)
    (baseAddress memorySize : BitVec 64) : Except KernelPanic (EternalHeap × PageAllocator) :=
  let freePages := memorySize / srvPageSize
  let entryCount := freePages / physallocBitsPerEntry
  match srvKallocEternalAlloc heap (entryCount * 8#64) with
  | .error e => .error e
  | .ok (bitmap, heap) => .ok (heap, {
      pageBitmap := fun i => words (bitmap + 8#64 * BitVec.ofNat 64 i)
      freePages := freePages
      physBaseAddress := baseAddress
      bitmapEntryCount := entryCount })

/-- The loop of `srv_kpalloc_AllocPage`: the number of entries left, the entry looked at and
the running `bit_index`. -/
def allocPageLoop : ℕ → ℕ → BitVec 64 → Addr × PageAllocator
  | 0, _, _ => (NULL, s)
  | left + 1, bitmapIndex, bitIndex =>
    let bitmapEntry := s.pageBitmap bitmapIndex
    if bitmapEntry = physallocNoFreePages then
      allocPageLoop left (bitmapIndex + 1) (bitIndex + physallocBitsPerEntry)
    else if bitmapEntry = 0#64 then
      let t := kpallocBitmapSetBit s 0#64
      (kpallocBitmapBitIndexToPageAddress t bitIndex, { t with freePages := t.freePages - 1#64 })
    else
      -- `__builtin_ctzl(~bitmap_entry)`: the first free bit of the entry
      let pageBitIndex := bitIndex + (~~~bitmapEntry).ctz
      let t := kpallocBitmapSetBit s pageBitIndex
      (kpallocBitmapBitIndexToPageAddress t pageBitIndex, { t with freePages := t.freePages - 1#64 })

def srvKpallocAllocPage : Addr × PageAllocator :=
  allocPageLoop s s.bitmapEntryCount.toNat 0 0#64

def srvKpallocFreePage (pagePtr : Addr) : Except KernelPanic PageAllocator :=
  if pagePtr &&& (srvPageSize - 1#64) ≠ 0#64 then .error .pageMisaligned
  else
    let t := kpallocBitmapUnsetBit s (kpallocBitmapAddressToBitIndex s pagePtr)
    .ok { t with freePages := t.freePages + 1#64 }

/-- The loop of `srv_kpalloc_MarkRegionUnusable`: pages left and `curr_bit_index`. -/
def markRegionLoop : ℕ → BitVec 64 → PageAllocator → PageAllocator
  | 0, _, s => s
  | pages + 1, currBitIndex, s =>
    markRegionLoop pages (currBitIndex + 1#64) (kpallocBitmapSetBit s currBitIndex)

def srvKpallocMarkRegionUnusable (baseAddress : Addr) (length : BitVec 64) : PageAllocator :=
  markRegionLoop (length / srvPageSize).toNat (kpallocBitmapAddressToBitIndex s baseAddress) s

namespace PageAllocator

def tracked : ℕ := 64 * s.bitmapEntryCount.toNat

def pageAddress (b : ℕ) : Addr := kpallocBitmapBitIndexToPageAddress s (BitVec.ofNat 64 b)

def pageIndex (a : Addr) : ℕ := (kpallocBitmapAddressToBitIndex s a).toNat

def used (b : ℕ) : Bool := bit s.pageBitmap b

def clearPages : ℕ := clearCount s.pageBitmap s.tracked

/-- The page numbers of the bitmap fit into the address space. -/
def Fits : Prop := s.tracked < 2 ^ 52

variable {s}

theorem pageIndex_eq (a : Addr) : s.pageIndex a = (a - s.physBaseAddress).toNat / 4096 := by
  rw [pageIndex, kpallocBitmapAddressToBitIndex, srvPageSize, BitVec.toNat_udiv]
  rfl

/-- The page that lies `n` bytes behind an address, where the sum may wrap. -/
theorem pageIndex_add (a : Addr) (n : ℕ) : s.pageIndex (a + BitVec.ofNat 64 n) =
    ((a - s.physBaseAddress).toNat + n) % 2 ^ 64 / 4096 := by
  have hsub : a + BitVec.ofNat 64 n - s.physBaseAddress =
      a - s.physBaseAddress + BitVec.ofNat 64 n := by
    rw [BitVec.sub_eq_add_neg, BitVec.sub_eq_add_neg, BitVec.add_assoc, BitVec.add_assoc,
      BitVec.add_comm (BitVec.ofNat 64 n)]
  rw [pageIndex_eq, hsub, BitVec.toNat_add, BitVec.toNat_ofNat, Nat.add_mod_mod]

theorem pageIndex_lt (a : Addr) : s.pageIndex a < 2 ^ 52 := by
  have ha := (a - s.physBaseAddress).isLt
  rw [pageIndex_eq]
  omega

theorem pageIndex_pageAddress {b : ℕ} (hb : b < 2 ^ 52) : s.pageIndex (s.pageAddress b) = b := by
  have hmul : (BitVec.ofNat 64 b * 4096#64).toNat = b * 4096 := by
    rw [BitVec.toNat_mul, BitVec.toNat_ofNat, BitVec.toNat_ofNat]
    omega
  have hsub : s.pageAddress b - s.physBaseAddress = BitVec.ofNat 64 b * 4096#64 := by
    simp only [pageAddress, kpallocBitmapBitIndexToPageAddress, srvPageSize]
    rw [BitVec.add_comm, BitVec.add_sub_cancel]
  rw [pageIndex_eq, hsub, hmul]
  exact Nat.mul_div_cancel b (by decide)

theorem pageAddress_pageIndex (hbase : s.physBaseAddress % srvPageSize = 0#64) {a : Addr}
    (ha : a % srvPageSize = 0#64) : s.pageAddress (s.pageIndex a) = a := by
  have hb := congrArg BitVec.toNat hbase
  have ha' := congrArg BitVec.toNat ha
  apply BitVec.eq_of_toNat_eq
  rw [pageIndex_eq]
  simp only [srvPageSize, BitVec.toNat_umod, BitVec.toNat_ofNat, Nat.reducePow, Nat.reduceMod,
    pageAddress, kpallocBitmapBitIndexToPageAddress, BitVec.toNat_add, BitVec.toNat_mul,
    BitVec.toNat_sub] at hb ha' ⊢
  omega

theorem pageAddress_aligned (hbase : s.physBaseAddress % srvPageSize = 0#64) (b : ℕ) :
    s.pageAddress b &&& (srvPageSize - 1#64) = 0#64 := by
  have hmask : ∀ x : BitVec 64, x &&& (srvPageSize - 1#64) = x % srvPageSize := by
    intro x
    apply BitVec.eq_of_toNat_eq
    rw [BitVec.toNat_and, BitVec.toNat_umod]
    exact Nat.and_two_pow_sub_one_eq_mod x.toNat 12
  have hb := congrArg BitVec.toNat hbase
  rw [hmask]
  apply BitVec.eq_of_toNat_eq
  simp only [srvPageSize, BitVec.toNat_umod, BitVec.toNat_ofNat, Nat.reducePow, Nat.reduceMod,
    pageAddress, kpallocBitmapBitIndexToPageAddress, BitVec.toNat_add, BitVec.toNat_mul] at hb ⊢
  omega

end PageAllocator

theorem kpallocBitmapSetBit_eq (b : BitVec 64) :
    kpallocBitmapSetBit s b = { s with pageBitmap := setBit s.pageBitmap b.toNat } := by
  simp only [kpallocBitmapSetBit, setBit, physallocBitsPerEntry, BitVec.toNat_udiv,
    BitVec.toNat_ofNat, BitVec.shiftLeft_eq', BitVec.toNat_umod]

theorem kpallocBitmapUnsetBit_eq (b : BitVec 64) :
    kpallocBitmapUnsetBit s b = { s with pageBitmap := unsetBit s.pageBitmap b.toNat } := by
  simp only [kpallocBitmapUnsetBit, unsetBit, physallocBitsPerEntry, BitVec.toNat_udiv,
    BitVec.toNat_ofNat, BitVec.shiftLeft_eq', BitVec.toNat_umod]

theorem kpallocBitmapIsBitSet_iff (b : BitVec 64) :
    kpallocBitmapIsBitSet s b = true ↔ s.used b.toNat = true := by
  rw [PageAllocator.used, ← mask_and_ne_zero_iff s.pageBitmap b.toNat]
  simp only [kpallocBitmapIsBitSet, physallocBitsPerEntry, BitVec.toNat_udiv, BitVec.toNat_ofNat,
    BitVec.shiftLeft_eq', BitVec.toNat_umod, ne_eq, decide_eq_true_eq]

theorem kpallocBitmapIsBitSet_setBit (b c : BitVec 64) :
    kpallocBitmapIsBitSet (kpallocBitmapSetBit s b) c = true ↔
      c = b ∨ kpallocBitmapIsBitSet s c = true := by
  rw [kpallocBitmapIsBitSet_iff, kpallocBitmapIsBitSet_iff, kpallocBitmapSetBit_eq]
  simp [PageAllocator.used, bit_setBit, BitVec.toNat_inj]

theorem kpallocBitmapIsBitSet_unsetBit (b c : BitVec 64) :
    kpallocBitmapIsBitSet (kpallocBitmapUnsetBit s b) c = true ↔
      c ≠ b ∧ kpallocBitmapIsBitSet s c = true := by
  rw [kpallocBitmapIsBitSet_iff, kpallocBitmapIsBitSet_iff, kpallocBitmapUnsetBit_eq]
  simp [PageAllocator.used, bit_unsetBit, BitVec.toNat_inj]

/-- An address in the page of index `b` leads back to `b`, also for a base that is not aligned. -/
theorem kpallocBitmapAddressToBitIndex_of_mem {b : BitVec 64} {address : Addr}
    (hwrap : s.physBaseAddress.toNat + 4096 * b.toNat < 2 ^ 64)
    (hfrom : (kpallocBitmapBitIndexToPageAddress s b).toNat ≤ address.toNat)
    (hto : address.toNat < (kpallocBitmapBitIndexToPageAddress s b).toNat + 4096) :
    kpallocBitmapAddressToBitIndex s address = b := by
  have hpage : (kpallocBitmapBitIndexToPageAddress s b).toNat =
      s.physBaseAddress.toNat + 4096 * b.toNat := by
    rw [kpallocBitmapBitIndexToPageAddress, srvPageSize, BitVec.toNat_add, BitVec.toNat_mul,
      BitVec.toNat_ofNat]
    omega
  have hsub : (address - s.physBaseAddress).toNat = address.toNat - s.physBaseAddress.toNat := by
    have haddress := address.isLt
    rw [BitVec.toNat_sub]
    omega
  apply BitVec.eq_of_toNat_eq
  rw [← PageAllocator.pageIndex, PageAllocator.pageIndex_eq, hsub]
  omega

/-- The bitmap is a set of page indices, with one index for all the addresses of a page. -/
theorem kpallocBitmap_set_of_pages :
    (∀ b c, kpallocBitmapIsBitSet (kpallocBitmapSetBit s b) c = true ↔
      c = b ∨ kpallocBitmapIsBitSet s c = true) ∧
    (∀ b c, kpallocBitmapIsBitSet (kpallocBitmapUnsetBit s b) c = true ↔
      c ≠ b ∧ kpallocBitmapIsBitSet s c = true) ∧
    (∀ b address, s.physBaseAddress.toNat + 4096 * b.toNat < 2 ^ 64 →
      (kpallocBitmapBitIndexToPageAddress s b).toNat ≤ address.toNat →
      address.toNat < (kpallocBitmapBitIndexToPageAddress s b).toNat + 4096 →
      kpallocBitmapAddressToBitIndex s address = b) :=
  ⟨kpallocBitmapIsBitSet_setBit s, kpallocBitmapIsBitSet_unsetBit s,
    fun _ _ => kpallocBitmapAddressToBitIndex_of_mem s⟩

def twoWordAllocator : PageAllocator := ⟨fun _ => 0#64, 128#64, 0x80000000#64, 2#64⟩

/-- Page 70 is the page of bit 6 in the second word. -/
theorem kpallocBitmap_set_of_pages_second_word :
    kpallocBitmapIsBitSet (kpallocBitmapSetBit twoWordAllocator 70#64) 70#64 = true ∧
      kpallocBitmapAddressToBitIndex twoWordAllocator 0x80046FFF#64 = 70#64 :=
  have h := kpallocBitmap_set_of_pages twoWordAllocator
  ⟨(h.1 70#64 70#64).mpr (.inl rfl), h.2.2 70#64 0x80046FFF#64 (by decide) (by decide) (by decide)⟩

end SysRv.Kpalloc
