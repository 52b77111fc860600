import SysRv.Kpalloc

/-!
# What each allocator call does to the set of used pages

One lemma per function, in terms of page numbers. `AllocPage` finds the least unused page,
but marks page 0 in its place whenever the word of that page is all zero.
-/

namespace SysRv.Kpalloc
open Kalloc WordBitmaps

variable {s : PageAllocator}

namespace PageAllocator

/-- The page whose bit `AllocPage` sets when the least unused page is `b`: page 0 on the
path for an entry without any used page. -/
def markedFor (s : PageAllocator) (b : ℕ) : ℕ := if s.pageBitmap (b / 64) = 0#64 then 0 else b

def take (s : PageAllocator) (b : ℕ) : PageAllocator :=
  { s with
    pageBitmap := setBit s.pageBitmap (s.markedFor b)
    freePages := s.freePages - 1#64 }

@[simp] theorem take_tracked (b : ℕ) : (s.take b).tracked = s.tracked := rfl

@[simp] theorem take_pageAddress (b c : ℕ) : (s.take b).pageAddress c = s.pageAddress c := rfl

@[simp] theorem take_physBaseAddress (b : ℕ) : (s.take b).physBaseAddress = s.physBaseAddress := rfl

theorem used_take (b c : ℕ) :
    (s.take b).used c = (decide (c = s.markedFor b) || s.used c) := bit_setBit ..

theorem used_take_of_used {c : ℕ} (b : ℕ) (h : s.used c = true) : (s.take b).used c = true :=
  bit_setBit_of_bit _ h

structure LeastFree (s : PageAllocator) (b : ℕ) : Prop where
  lt : b < s.tracked
  free : s.used b = false
  below : ∀ c < b, s.used c = true

theorem LeastFree.le_of_free {b c : ℕ} (hb : s.LeastFree b) (hc : s.used c = false) : b ≤ c := by
  by_contra hlt
  have hused := hb.below c (by omega)
  rw [hc] at hused
  cases hused

theorem LeastFree.unique {b c : ℕ} (hb : s.LeastFree b) (hc : s.LeastFree c) : b = c :=
  Nat.le_antisymm (hb.le_of_free hc.free) (hc.le_of_free hb.free)

theorem LeastFree.eq_of_word_zero {b : ℕ} (h : s.LeastFree b)
    (hzero : s.pageBitmap (b / 64) = 0#64) : b = 64 * (b / 64) := by
  by_contra hne
  have hlt : 64 * (b / 64) < b := by omega
  have hfirst := (word_eq_zero_iff s.pageBitmap (b / 64)).mp hzero 0 (by decide)
  have hset := h.below (64 * (b / 64)) hlt
  simp [used] at hset
  simp [hset] at hfirst

/-- All pages before an entry and the entry itself are in use. -/
theorem used_below_next {bitmapIndex : ℕ} (hfull : ∀ b < 64 * bitmapIndex, s.used b = true)
    (hones : s.pageBitmap bitmapIndex = BitVec.allOnes 64) :
    ∀ b < 64 * (bitmapIndex + 1), s.used b = true := by
  intro b hb
  by_cases hlt : b < 64 * bitmapIndex
  · exact hfull b hlt
  · have hk := (word_eq_allOnes_iff s.pageBitmap bitmapIndex).mp hones (b - 64 * bitmapIndex)
      (by omega)
    rwa [Nat.add_sub_cancel' (by omega)] at hk

theorem leastFree_of_word_zero {bitmapIndex : ℕ} (hentry : bitmapIndex < s.bitmapEntryCount.toNat)
    (hfull : ∀ b < 64 * bitmapIndex, s.used b = true) (hzero : s.pageBitmap bitmapIndex = 0#64) :
    s.LeastFree (64 * bitmapIndex) where
  lt := by
    simp only [tracked]
    omega
  free := (word_eq_zero_iff s.pageBitmap bitmapIndex).mp hzero 0 (by decide)
  below := hfull

/-- The first clear bit of an entry that is not full behind full entries. -/
theorem leastFree_of_ctz {bitmapIndex : ℕ} (hentry : bitmapIndex < s.bitmapEntryCount.toNat)
    (hfull : ∀ b < 64 * bitmapIndex, s.used b = true)
    (hnotfull : s.pageBitmap bitmapIndex ≠ BitVec.allOnes 64) :
    s.LeastFree (64 * bitmapIndex + (~~~(s.pageBitmap bitmapIndex)).ctz.toNat) := by
  obtain ⟨hlt, hfree, hbelow⟩ := ctz_not_spec s.pageBitmap bitmapIndex hnotfull
  refine ⟨?_, hfree, fun c hc => ?_⟩
  · simp only [tracked]
    omega
  · by_cases hlt' : c < 64 * bitmapIndex
    · exact hfull c hlt'
    · have hcase := hbelow (c - 64 * bitmapIndex) (by omega)
      rwa [Nat.add_sub_cancel' (by omega)] at hcase

/-- `AllocPage` marks another page than the one it returns. -/
def Misses (s : PageAllocator) (b : ℕ) : Prop := 0 < b ∧ s.pageBitmap (b / 64) = 0#64

instance (b : ℕ) : Decidable (s.Misses b) := inferInstanceAs (Decidable (_ ∧ _))

theorem markedFor_of_not_misses {b : ℕ} (h : ¬ s.Misses b) : s.markedFor b = b := by
  unfold markedFor
  split
  · have hb : ¬ 0 < b := fun hpos => h ⟨hpos, ‹_›⟩
    omega
  · rfl

/-- Where every entry past the first has a page in use, the least unused page is marked. -/
theorem LeastFree.not_misses {b : ℕ} (hb : s.LeastFree b)
    (hentry : 0 < b / 64 → ∃ c, c / 64 = b / 64 ∧ s.used c = true) : ¬ s.Misses b := by
  rintro ⟨hpos, hzero⟩
  have hfirst := hb.eq_of_word_zero hzero
  obtain ⟨c, hc, hused⟩ := hentry (by omega)
  have hclear := (word_eq_zero_iff s.pageBitmap (b / 64)).mp hzero (c % 64)
    (Nat.mod_lt _ (by decide))
  rw [← hc, Nat.div_add_mod] at hclear
  exact absurd (hclear.symm.trans hused) (by decide)

/-- Page 0 is in use when an entry past the first is looked at, so nothing is marked. -/
theorem used_take_of_misses {b : ℕ} (hfree : s.LeastFree b) (h : s.Misses b) (c : ℕ) :
    (s.take b).used c = s.used c := by
  have hzero : s.used 0 = true := hfree.below 0 h.1
  rw [used_take, markedFor, if_pos h.2]
  by_cases hc : c = 0
  · subst hc
    simp [hzero]
  · simp [hc]

theorem take_clearPages {b : ℕ} (hfree : s.LeastFree b) (h : ¬ s.Misses b) :
    (s.take b).clearPages + 1 = s.clearPages := by
  have hmark := markedFor_of_not_misses h
  simp only [clearPages, take, hmark, tracked]
  exact clearCount_setBit hfree.lt hfree.free

end PageAllocator

open PageAllocator

theorem allocPageLoop_cases (hfits : s.Fits) {left bitmapIndex : ℕ} {bitIndex : BitVec 64}
    (hleft : bitmapIndex + left = s.bitmapEntryCount.toNat)
    (hbit : bitIndex = BitVec.ofNat 64 (64 * bitmapIndex))
    (hfull : ∀ b < 64 * bitmapIndex, s.used b = true) :
    ((∀ b < s.tracked, s.used b = true) ∧ allocPageLoop s left bitmapIndex bitIndex = (NULL, s)) ∨
      ∃ b, s.LeastFree b ∧
        allocPageLoop s left bitmapIndex bitIndex = (s.pageAddress b, s.take b) := by
  have hbound : 64 * s.bitmapEntryCount.toNat < 2 ^ 52 := hfits
  induction left generalizing bitmapIndex bitIndex with
  | zero =>
    left
    refine ⟨fun b hb => hfull b ?_, rfl⟩
    simp only [tracked] at hb
    omega
  | succ left ih =>
    have hdiv : 64 * bitmapIndex / 64 = bitmapIndex := by omega
    simp only [allocPageLoop]
    split
    · -- a full entry is skipped
      rename_i hones
      refine ih (by omega) ?_ (used_below_next hfull hones)
      rw [hbit, physallocBitsPerEntry, ← BitVec.ofNat_add]
      congr 1
    · rename_i hnotfull
      right
      split
      · -- an entry without used pages: page 0 is marked
        rename_i hzero
        have hmark : s.markedFor (64 * bitmapIndex) = 0 := by
          rw [markedFor, hdiv, if_pos hzero]
        refine ⟨64 * bitmapIndex, leastFree_of_word_zero (by omega) hfull hzero, ?_⟩
        rw [kpallocBitmapSetBit_eq, hbit, take, hmark]
        rfl
      · -- the first free bit of a partly used entry
        rename_i hzero
        have hleast := leastFree_of_ctz (by omega) hfull hnotfull
        generalize hk : (~~~(s.pageBitmap bitmapIndex)).ctz.toNat = k at hleast
        have hlt := (ctz_not_spec s.pageBitmap bitmapIndex hnotfull).1
        have hindex : bitIndex + (~~~(s.pageBitmap bitmapIndex)).ctz =
            BitVec.ofNat 64 (64 * bitmapIndex + k) := by
          rw [hbit, BitVec.ofNat_add, ← hk, BitVec.ofNat_toNat, BitVec.setWidth_eq]
        have hto : (BitVec.ofNat 64 (64 * bitmapIndex + k)).toNat = 64 * bitmapIndex + k := by
          rw [BitVec.toNat_ofNat]
          omega
        have hmark : s.markedFor (64 * bitmapIndex + k) = 64 * bitmapIndex + k := by
          have hword : (64 * bitmapIndex + k) / 64 = bitmapIndex := by omega
          rw [markedFor, hword, if_neg hzero]
        refine ⟨64 * bitmapIndex + k, hleast, ?_⟩
        rw [hindex, kpallocBitmapSetBit_eq, hto, take, hmark]
        rfl

/-- Everything `AllocPage` can do. -/
theorem srvKpallocAllocPage_cases (hfits : s.Fits) :
    ((∀ b < s.tracked, s.used b = true) ∧ srvKpallocAllocPage s = (NULL, s)) ∨
      ∃ b, s.LeastFree b ∧ srvKpallocAllocPage s = (s.pageAddress b, s.take b) :=
  allocPageLoop_cases hfits (by simp) rfl (by simp)

theorem srvKpallocAllocPage_of_leastFree (hfits : s.Fits) {b : ℕ} (hb : s.LeastFree b) :
    srvKpallocAllocPage s = (s.pageAddress b, s.take b) := by
  rcases srvKpallocAllocPage_cases hfits with ⟨hfull, -⟩ | ⟨c, hc, halloc⟩
  · have := hfull b hb.lt
    simp [hb.free] at this
  · rw [hb.unique hc]
    exact halloc

theorem srvKpallocFreePage_pageAddress (hbase : s.physBaseAddress % srvPageSize = 0#64) {b : ℕ}
    (hb : b < 2 ^ 52) : srvKpallocFreePage s (s.pageAddress b) =
      .ok { s with pageBitmap := unsetBit s.pageBitmap b, freePages := s.freePages + 1#64 } := by
  have hindex : (kpallocBitmapAddressToBitIndex s (s.pageAddress b)).toNat = b :=
    pageIndex_pageAddress hb
  rw [srvKpallocFreePage, if_neg (by simp [pageAddress_aligned hbase]), kpallocBitmapUnsetBit_eq,
    hindex]

/-- The marking loop sets consecutive bits while the bit index does not wrap. -/
theorem markRegionLoop_eq (pages : ℕ) (i : BitVec 64) (s : PageAllocator)
    (hfit : i.toNat + pages ≤ 2 ^ 64) :
    markRegionLoop pages i s = { s with pageBitmap := setBits pages i.toNat s.pageBitmap } := by
  induction pages generalizing i s with
  | zero => rfl
  | succ pages ih =>
    rcases Nat.eq_zero_or_pos pages with rfl | hpos
    · simp [markRegionLoop, setBits, kpallocBitmapSetBit_eq]
    · have hnext : (i + 1#64).toNat = i.toNat + 1 := by
        rw [BitVec.toNat_add, BitVec.toNat_ofNat]
        omega
      rw [markRegionLoop, ih _ _ (by omega), hnext, kpallocBitmapSetBit_eq]
      rfl

/-- The pages `MarkRegionUnusable` marks: as many as fit into `length`, from the page of
the base address on. -/
theorem srvKpallocMarkRegionUnusable_eq (s : PageAllocator) (base : Addr) (length : BitVec 64) :
    srvKpallocMarkRegionUnusable s base length =
      { s with pageBitmap := setBits (length.toNat / 4096) (s.pageIndex base) s.pageBitmap } := by
  have hpages : (length / srvPageSize).toNat = length.toNat / 4096 := by
    rw [srvPageSize, BitVec.toNat_udiv]
    rfl
  have hindex := pageIndex_lt (s := s) base
  have hlen := length.isLt
  rw [srvKpallocMarkRegionUnusable, hpages, markRegionLoop_eq]
  · rfl
  · simp only [pageIndex] at hindex
    omega

section Mark

variable (base : Addr) (length : BitVec 64)

@[simp] theorem mark_freePages :
    (srvKpallocMarkRegionUnusable s base length).freePages = s.freePages := by
  rw [srvKpallocMarkRegionUnusable_eq]

@[simp] theorem mark_physBaseAddress :
    (srvKpallocMarkRegionUnusable s base length).physBaseAddress = s.physBaseAddress := by
  rw [srvKpallocMarkRegionUnusable_eq]

@[simp] theorem mark_tracked :
    (srvKpallocMarkRegionUnusable s base length).tracked = s.tracked := by
  rw [srvKpallocMarkRegionUnusable_eq]
  rfl

@[simp] theorem mark_pageAddress (b : ℕ) :
    (srvKpallocMarkRegionUnusable s base length).pageAddress b = s.pageAddress b := by
  rw [srvKpallocMarkRegionUnusable_eq]
  rfl

theorem used_mark_iff (b : ℕ) : (srvKpallocMarkRegionUnusable s base length).used b = true ↔
    (s.pageIndex base ≤ b ∧ b < s.pageIndex base + length.toNat / 4096) ∨ s.used b = true := by
  rw [srvKpallocMarkRegionUnusable_eq, used, bit_setBits]
  simp [used]

end Mark

/-- What a successful `InitPageAllocator` leaves: all whole 64-page groups have bits. -/
theorem srvKpallocInitPageAllocator_ok {heap heap' : EternalHeap} {words : Addr → BitVec 64}
    {base memorySize : BitVec 64}
    (h : srvKpallocInitPageAllocator heap words base memorySize = .ok (heap', s)) :
    s.physBaseAddress = base ∧ s.freePages.toNat = memorySize.toNat / 4096 ∧
      s.bitmapEntryCount.toNat = memorySize.toNat / 4096 / 64 ∧ s.Fits := by
  have hsize := memorySize.isLt
  have hfree : (memorySize / srvPageSize).toNat = memorySize.toNat / 4096 := by
    rw [srvPageSize, BitVec.toNat_udiv]
    rfl
  have hcount : (memorySize / srvPageSize / physallocBitsPerEntry).toNat =
      memorySize.toNat / 4096 / 64 := by
    rw [BitVec.toNat_udiv, hfree]
    rfl
  unfold srvKpallocInitPageAllocator at h
  dsimp only at h
  split at h
  · cases h
  · simp only [Except.ok.injEq, Prod.mk.injEq] at h
    obtain ⟨-, rfl⟩ := h
    refine ⟨rfl, hfree, hcount, ?_⟩
    simp only [Fits, tracked, hcount]
    omega

theorem pageBitmap_of_init {heap heap' : EternalHeap} {words : Addr → BitVec 64}
    {base memorySize : BitVec 64}
    (h : srvKpallocInitPageAllocator heap words base memorySize = .ok (heap', s)) (i : ℕ) :
    s.pageBitmap i = words (heap.currKallocEternalAddress + 8#64 * BitVec.ofNat 64 i) := by
  unfold srvKpallocInitPageAllocator at h
  dsimp only at h
  split at h
  · cases h
  · rename_i bitmap heap' halloc
    obtain ⟨rfl, -⟩ := srvKallocEternalAlloc_eq_ok halloc
    cases h
    rfl

end SysRv.Kpalloc
