import SysRv.KpallocSpec

/-!
# First fit

`AllocPage` as a search: whatever the bitmap holds, the page it returns is the one with the
least number among the unused ones, and NULL means that there is none.
-/

namespace SysRv.Kpalloc
open Kalloc WordBitmaps PageAllocator

/-- The allocator tracks the RAM that `InitPageAllocator` was called with; its bitmap may
hold anything. -/
structure TracksRam (s : PageAllocator) (base memorySize : BitVec 64) : Prop where
  base_eq : s.physBaseAddress = base
  entries : s.bitmapEntryCount.toNat = memorySize.toNat / 4096 / 64

theorem tracksRam_of_init {heap heap' : EternalHeap} {words : Addr → BitVec 64}
    {base memorySize : BitVec 64} {s : PageAllocator}
    (h : srvKpallocInitPageAllocator heap words base memorySize = .ok (heap', s)) :
    TracksRam s base memorySize := by
  obtain ⟨hbase, -, hcount, -⟩ := srvKpallocInitPageAllocator_ok h
  exact ⟨hbase, hcount⟩

section Tracking

variable {s : PageAllocator} {base memorySize : BitVec 64}

theorem TracksRam.tracked_eq (h : TracksRam s base memorySize) :
    s.tracked = 64 * (memorySize.toNat / 4096 / 64) := by
  rw [tracked, h.entries]

theorem TracksRam.tracked_le (h : TracksRam s base memorySize) :
    4096 * s.tracked ≤ memorySize.toNat := by
  rw [h.tracked_eq]
  omega

theorem TracksRam.fits (h : TracksRam s base memorySize) : s.Fits := by
  have hle := h.tracked_le
  have hsize := memorySize.isLt
  rw [Fits]
  omega

theorem TracksRam.pageAddress_toNat (h : TracksRam s base memorySize)
    (hend : base.toNat + memorySize.toNat ≤ 2 ^ 64) {b : ℕ} (hb : b < s.tracked) :
    (s.pageAddress b).toNat = base.toNat + 4096 * b := by
  have hle := h.tracked_le
  simp only [pageAddress, kpallocBitmapBitIndexToPageAddress, h.base_eq, srvPageSize,
    BitVec.toNat_add, BitVec.toNat_mul, BitVec.toNat_ofNat]
  omega

theorem TracksRam.pageAddress_ne_null (h : TracksRam s base memorySize) (hne : base ≠ 0#64)
    (hend : base.toNat + memorySize.toNat ≤ 2 ^ 64) {b : ℕ} (hb : b < s.tracked) :
    s.pageAddress b ≠ NULL := by
  intro hnull
  have hnat := h.pageAddress_toNat hend hb
  have hzero : NULL.toNat = 0 := rfl
  have hpos : base.toNat ≠ 0 := fun hz => hne (BitVec.eq_of_toNat_eq hz)
  rw [hnull, hzero] at hnat
  omega

end Tracking

/-- A page that is aligned, accepted by `FreePage`, and wholly inside the RAM. -/
structure UsablePage (s : PageAllocator) (base memorySize page : BitVec 64) : Prop where
  aligned : page % srvPageSize = 0#64
  freed : ∃ t, srvKpallocFreePage s page = .ok t
  lower : base.toNat ≤ page.toNat
  upper : page.toNat + 4096 ≤ base.toNat + memorySize.toNat

/-- What `AllocPage` returns: NULL exactly when every tracked bit is set, and otherwise the
page of the lowest clear bit. -/
theorem allocPage_first_fit {s : PageAllocator} {base memorySize : BitVec 64}
    (hbase : base % srvPageSize = 0#64) (hne : base ≠ 0#64)
    (hend : base.toNat + memorySize.toNat ≤ 2 ^ 64) (h : TracksRam s base memorySize) :
    ((srvKpallocAllocPage s).1 = NULL ↔ ∀ b < s.tracked, s.used b = true) ∧
      ((∃ b < s.tracked, s.used b = false) → ∃ b, s.LeastFree b ∧
        (srvKpallocAllocPage s).1.toNat = base.toNat + 4096 * b ∧
        UsablePage (srvKpallocAllocPage s).2 base memorySize (srvKpallocAllocPage s).1) := by
  rcases srvKpallocAllocPage_cases h.fits with ⟨hfull, halloc⟩ | ⟨b, hb, halloc⟩
  · refine ⟨by simpa [halloc] using hfull, ?_⟩
    rintro ⟨b, hb, hfree⟩
    rw [hfull b hb] at hfree
    cases hfree
  · have hnat := h.pageAddress_toNat hend hb.lt
    have hle := h.tracked_le
    have hlt := hb.lt
    have hphys : s.physBaseAddress % srvPageSize = 0#64 := h.base_eq ▸ hbase
    constructor
    · rw [halloc]
      refine ⟨fun hnull => absurd hnull (h.pageAddress_ne_null hne hend hb.lt), fun hfull => ?_⟩
      have := hfull b hb.lt
      simp [hb.free] at this
    · refine fun _ => ⟨b, hb, by rw [halloc, hnat], ?_⟩
      rw [halloc]
      refine ⟨?_, ?_, by rw [hnat]; omega, by rw [hnat]; omega⟩
      · apply BitVec.eq_of_toNat_eq
        have hmod := congrArg BitVec.toNat hbase
        simp only [srvPageSize, BitVec.toNat_umod, BitVec.toNat_ofNat, Nat.reducePow,
          Nat.reduceMod] at hmod ⊢
        omega
      · have hbits : b < 2 ^ 52 := by
          have hfits : s.tracked < 2 ^ 52 := h.fits
          omega
        exact ⟨_, srvKpallocFreePage_pageAddress (s := s.take b) hphys hbits⟩

/-- 512 KiB of RAM with the first five pages in use. -/
def fiveUsed : PageAllocator :=
  ⟨fun i => if i = 0 then 0x1F#64 else 0#64, 123#64, 0x80000000#64, 2#64⟩

theorem allocPage_first_fit_five_used :
    ∃ b, fiveUsed.LeastFree b ∧ (srvKpallocAllocPage fiveUsed).1.toNat = 0x80000000 + 4096 * b ∧
      UsablePage (srvKpallocAllocPage fiveUsed).2 0x80000000#64 0x80000#64
        (srvKpallocAllocPage fiveUsed).1 :=
  (allocPage_first_fit (by decide) (by decide) (by decide) ⟨rfl, by decide⟩).2
    ⟨5, by decide, by decide⟩

end SysRv.Kpalloc
