import SysRv.KpallocFirstFit

/-!
# Freeing what was just allocated

`FreePage` clears the bit of the page it is given, `AllocPage` may have set the bit of
another one. The two still cancel: a page of an entry without used pages is only returned
when it is page 0 itself or when page 0 is in use already, so that nothing was set.
-/

namespace SysRv.Kpalloc
open Kalloc WordBitmaps PageAllocator

variable {s : PageAllocator}

theorem fits_of_no_wrap (hbase : s.physBaseAddress % srvPageSize = 0#64)
    (hne : s.physBaseAddress ≠ 0#64)
    (hend : s.physBaseAddress.toNat + 4096 * s.tracked ≤ 2 ^ 64) : s.Fits := by
  have hmod := congrArg BitVec.toNat hbase
  have hpos : s.physBaseAddress.toNat ≠ 0 := fun hz => hne (BitVec.eq_of_toNat_eq hz)
  simp only [srvPageSize, BitVec.toNat_umod, BitVec.toNat_ofNat, Nat.reducePow,
    Nat.reduceMod] at hmod
  rw [Fits]
  omega

/-- Clearing the bit of the returned page restores every word of the bitmap. -/
theorem unsetBit_take_pageBitmap {b : ℕ} (hb : s.LeastFree b) :
    unsetBit (s.take b).pageBitmap b = s.pageBitmap := by
  have hfree : bit s.pageBitmap b = false := hb.free
  by_cases hmiss : s.Misses b
  · -- page 0 is marked, which is in use already
    have hmark : s.markedFor b = 0 := by
      rw [markedFor, if_pos hmiss.2]
    have hzero : bit s.pageBitmap 0 = true := hb.below 0 hmiss.1
    simp only [take, hmark]
    rw [setBit_of_bit hzero, unsetBit_of_not_bit hfree]
  · simp only [take, markedFor_of_not_misses hmiss]
    exact unsetBit_setBit hfree

/-- `FreePage` takes back the page of a state that `AllocPage` left. -/
theorem srvKpallocFreePage_take (hbase : s.physBaseAddress % srvPageSize = 0#64) (hfits : s.Fits)
    {b : ℕ} (hb : s.LeastFree b) :
    srvKpallocFreePage (s.take b) (s.pageAddress b) = .ok s := by
  have hlt := hb.lt
  have hbits : b < 2 ^ 52 := by
    have hbound : s.tracked < 2 ^ 52 := hfits
    omega
  have hfree := srvKpallocFreePage_pageAddress (s := s.take b) hbase hbits
  rw [take_pageAddress, unsetBit_take_pageBitmap hb] at hfree
  rw [hfree]
  simp only [take, BitVec.sub_add_cancel]

/-- Free undoes alloc: the page that `AllocPage` returns is accepted, and every word of the
bitmap and the count of free pages are as before. -/
theorem freePage_allocPage (s : PageAllocator) (hbase : s.physBaseAddress % srvPageSize = 0#64)
    (hne : s.physBaseAddress ≠ 0#64)
    (hend : s.physBaseAddress.toNat + 4096 * s.tracked ≤ 2 ^ 64)
    (hpage : (srvKpallocAllocPage s).1 ≠ NULL) :
    srvKpallocFreePage (srvKpallocAllocPage s).2 (srvKpallocAllocPage s).1 = .ok s := by
  have hfits := fits_of_no_wrap hbase hne hend
  rcases srvKpallocAllocPage_cases hfits with ⟨-, halloc⟩ | ⟨b, hb, halloc⟩
  · rw [halloc] at hpage
    exact absurd rfl hpage
  · rw [halloc]
    exact srvKpallocFreePage_take hbase hfits hb

/-- 512 KiB of RAM with all pages of the first entry in use: page 64 is the one returned. -/
def firstEntryUsed : PageAllocator :=
  ⟨fun i => if i = 0 then BitVec.allOnes 64 else 0#64, 64#64, 0x80000000#64, 2#64⟩

theorem freePage_allocPage_first_entry_used :
    srvKpallocFreePage (srvKpallocAllocPage firstEntryUsed).2
      (srvKpallocAllocPage firstEntryUsed).1 = .ok firstEntryUsed :=
  freePage_allocPage firstEntryUsed (by decide) (by decide) (by decide) (by decide)

end SysRv.Kpalloc
