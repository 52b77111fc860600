import SysRv.KpallocFirstFit
import SysRv.KpallocRuns

/-!
# Which pages of RAM the allocator covers

`InitPageAllocator` tracks whole groups of 64 pages, so the pages of the last, incomplete
group have no bit, and the calls that take one of them touch the word behind the bitmap.
Of the pages that have a bit, `AllocPage` alone hands out those of the first group and the
first page of the second, which it never marks.
-/

namespace SysRv.Kpalloc
open Kalloc WordBitmaps PageAllocator

/-- The word of the bitmap that the bit helpers read and write for a bit. -/
def bitmapEntry (b : BitVec 64) : ℕ := (b / physallocBitsPerEntry).toNat

def freePageEntry (s : PageAllocator) (page : Addr) : ℕ :=
  bitmapEntry (kpallocBitmapAddressToBitIndex s page)

/-- The words that the loop of `MarkRegionUnusable` touches, one a page. -/
def markRegionEntries : ℕ → BitVec 64 → List ℕ
  | 0, _ => []
  | pages + 1, currBitIndex => bitmapEntry currBitIndex :: markRegionEntries pages (currBitIndex + 1#64)

def markEntries (s : PageAllocator) (address : Addr) (length : BitVec 64) : List ℕ :=
  markRegionEntries (length / srvPageSize).toNat (kpallocBitmapAddressToBitIndex s address)

section Touched

variable {s : PageAllocator} {e : ℕ}

theorem mem_markRegionEntries {pages : ℕ} {i : BitVec 64} (hfit : i.toNat + pages ≤ 2 ^ 64)
    (h : e ∈ markRegionEntries pages i) : ∃ k < pages, e = (i.toNat + k) / 64 := by
  induction pages generalizing i with
  | zero => cases h
  | succ pages ih =>
    rcases List.mem_cons.mp h with rfl | h
    · exact ⟨0, by omega, by rw [bitmapEntry, BitVec.toNat_udiv]; rfl⟩
    · have hpos : 0 < pages := by
        cases pages with
        | zero => cases h
        | succ pages => omega
      have hnext : (i + 1#64).toNat = i.toNat + 1 := by
        rw [BitVec.toNat_add, BitVec.toNat_ofNat]
        omega
      obtain ⟨k, hk, rfl⟩ := ih (by omega) h
      exact ⟨k + 1, by omega, by rw [hnext]; congr 1; omega⟩

end Touched

def allocated (s : PageAllocator) : PageAllocator := (srvKpallocAllocPage s).2

def Returns (s : PageAllocator) (b : ℕ) : Prop :=
  (srvKpallocAllocPage s).1 = s.pageAddress b ∧ ∃ c < s.tracked, s.used c = false

section Runs

variable {s : PageAllocator}

theorem returns_iff (hfits : s.Fits) {b : ℕ} (hb : b < 2 ^ 52) : Returns s b ↔ s.LeastFree b := by
  constructor
  · rintro ⟨haddr, c, hc, hfree⟩
    rcases srvKpallocAllocPage_cases hfits with ⟨hfull, -⟩ | ⟨d, hd, halloc⟩
    · rw [hfull c hc] at hfree
      cases hfree
    · have hbound : s.tracked < 2 ^ 52 := hfits
      have hlt := hd.lt
      rw [halloc] at haddr
      have hindex := congrArg s.pageIndex haddr
      rw [pageIndex_pageAddress (by omega), pageIndex_pageAddress hb] at hindex
      exact hindex ▸ hd
  · intro h
    exact ⟨by rw [srvKpallocAllocPage_of_leastFree hfits h], b, h.lt, h.free⟩

theorem allocated_cases (hfits : s.Fits) :
    allocated s = s ∨ ∃ b, s.LeastFree b ∧ allocated s = s.take b := by
  rcases srvKpallocAllocPage_cases hfits with ⟨-, halloc⟩ | ⟨b, hb, halloc⟩
  · exact .inl (by rw [allocated, halloc])
  · exact .inr ⟨b, hb, by rw [allocated, halloc]⟩

/-- What every state of a run of `AllocPage` calls has in common with the first: the pages
it tracks, and the bits that were set. -/
theorem allocated_iterate (hfits : s.Fits) (k : ℕ) :
    (allocated^[k] s).tracked = s.tracked ∧
      ∀ b, s.used b = true → (allocated^[k] s).used b = true := by
  induction k with
  | zero => exact ⟨rfl, fun b h => h⟩
  | succ k ih =>
    rw [Function.iterate_succ_apply']
    have hfits' : (allocated^[k] s).Fits := by rw [Fits, ih.1]; exact hfits
    rcases allocated_cases hfits' with heq | ⟨b, -, heq⟩
    · rw [heq]
      exact ih
    · rw [heq]
      exact ⟨ih.1, fun c hc => used_take_of_used b (ih.2 c hc)⟩

theorem markedFor_le (b : ℕ) : s.markedFor b ≤ b := by
  unfold markedFor
  split
  · exact Nat.zero_le b
  · exact le_rfl

/-- From a bitmap of zeros no page behind the first entry is ever marked. -/
theorem allocated_iterate_unused (hfits : s.Fits) (hzero : ∀ b < s.tracked, s.used b = false) (k : ℕ) :
    ∀ b < s.tracked, 64 ≤ b → (allocated^[k] s).used b = false := by
  induction k with
  | zero => exact fun b hb _ => hzero b hb
  | succ k ih =>
    intro b hb hge
    rw [Function.iterate_succ_apply']
    obtain ⟨htracked, -⟩ := allocated_iterate hfits k
    have hfits' : (allocated^[k] s).Fits := by rw [Fits, htracked]; exact hfits
    rcases allocated_cases hfits' with heq | ⟨c, hc, heq⟩
    · rw [heq]
      exact ih b hb hge
    · -- page 64 is the last that can be the least unused one, and it is not marked
      have hmark : (allocated^[k] s).markedFor c < 64 := by
        rcases Nat.lt_or_ge c 64 with hlt | hle
        · exact Nat.lt_of_le_of_lt (markedFor_le c) hlt
        · have hc64 : c = 64 := by
            by_contra hne
            have hused := hc.below 64 (by omega)
            rw [ih 64 (by omega) le_rfl] at hused
            cases hused
          rw [markedFor, if_pos]
          · decide
          · rw [hc64]
            refine (word_eq_zero_iff _ _).mpr fun j hj => ih _ ?_ (by omega)
            rw [tracked] at hb ⊢
            omega
      rw [heq, used_take, ih b hb hge, Bool.or_false, decide_eq_false_iff_not]
      omega

theorem returns_first_entry (hfits : s.Fits) (hone : 64 ≤ s.tracked)
    (hzero : ∀ b < 64, s.used b = false) {k : ℕ} (hk : k < 64) :
    (allocated^[k] s).LeastFree k := by
  suffices h : ∀ j ≤ 64, ∀ b < 64, (allocated^[j] s).used b = decide (b < j) by
    refine ⟨?_, by simpa using h k hk.le k hk, fun c hc => ?_⟩
    · rw [(allocated_iterate hfits k).1]
      omega
    · simpa [hc] using h k hk.le c (by omega)
  intro j hj
  induction j with
  | zero => simpa using hzero
  | succ j ih =>
    have htracked := (allocated_iterate hfits j).1
    have hused := ih (by omega)
    have hleast : (allocated^[j] s).LeastFree j :=
      ⟨by omega, by simpa using hused j (by omega), fun c hc => by simpa [hc] using hused c (by omega)⟩
    have hnot : ¬ (allocated^[j] s).Misses j := hleast.not_misses fun hpos => by omega
    have hfits' : (allocated^[j] s).Fits := by rw [Fits, htracked]; exact hfits
    have hnext : allocated (allocated^[j] s) = (allocated^[j] s).take j := by
      rw [allocated, srvKpallocAllocPage_of_leastFree hfits' hleast]
    intro b hb
    rw [Function.iterate_succ_apply', hnext, used_take, markedFor_of_not_misses hnot, hused b hb]
    rw [Bool.eq_iff_iff]
    simp
    omega

end Runs

/-- Every whole page of RAM has a bit, the calls that take a page or a region of pages touch
no word behind the bitmap, and some run of `AllocPage` calls returns the page. -/
structure CoversRam (s : PageAllocator) (memorySize : BitVec 64) : Prop where
  bits : ∀ b < memorySize.toNat / 4096,
    s.pageIndex (s.pageAddress b) < 64 * s.bitmapEntryCount.toNat
  free : ∀ b < memorySize.toNat / 4096,
    freePageEntry s (s.pageAddress b) < s.bitmapEntryCount.toNat
  mark : ∀ address length, address % srvPageSize = 0#64 → length % srvPageSize = 0#64 →
    (∀ page ∈ regionPages address length, s.pageIndex page < memorySize.toNat / 4096) →
    ∀ e ∈ markEntries s address length, e < s.bitmapEntryCount.toNat
  returned : ∀ b < memorySize.toNat / 4096, ∃ k, Returns (allocated^[k] s) b

section Coverage

variable {s : PageAllocator} {base memorySize : BitVec 64}

theorem freePageEntry_pageAddress {b : ℕ} (hb : b < 2 ^ 52) :
    freePageEntry s (s.pageAddress b) = b / 64 := by
  have hindex : (kpallocBitmapAddressToBitIndex s (s.pageAddress b)).toNat = b :=
    pageIndex_pageAddress hb
  rw [freePageEntry, bitmapEntry, BitVec.toNat_udiv, hindex]
  rfl

theorem markEntries_lt (hfits : s.Fits) {address : Addr} {length : BitVec 64}
    (hin : ∀ page ∈ regionPages address length, s.pageIndex page < s.tracked) :
    ∀ e ∈ markEntries s address length, e < s.bitmapEntryCount.toNat := by
  intro e he
  have hlen := length.isLt
  have hpages : (length / srvPageSize).toNat = length.toNat / 4096 := by
    rw [srvPageSize, BitVec.toNat_udiv]
    rfl
  have hindex := pageIndex_lt (s := s) address
  rw [markEntries, hpages] at he
  obtain ⟨k, hk, rfl⟩ := mem_markRegionEntries (by rw [← pageIndex]; omega) he
  have hpage := hin _ (Finset.mem_image_of_mem _ (Finset.mem_range.mpr hk))
  rw [pageIndex_region hfits hin hk, tracked] at hpage
  rw [← pageIndex]
  omega

/-- A page that some run of `AllocPage` returns was unused at its start. -/
theorem unused_of_returns (hfits : s.Fits) {b k : ℕ} (hb : b < 2 ^ 52)
    (h : Returns (allocated^[k] s) b) : (allocated^[k] s).LeastFree b ∧ s.used b = false := by
  obtain ⟨htracked, hkeeps⟩ := allocated_iterate hfits k
  have hleast := (returns_iff (by rw [Fits, htracked]; exact hfits) hb).mp h
  refine ⟨hleast, ?_⟩
  by_contra hused
  have := hkeeps b (by simpa using hused)
  simp [hleast.free] at this

/-- Where the RAM is one whole group of unused pages, or less than a page, it is covered. -/
theorem coversRam_of_group (h : TracksRam s base memorySize)
    (hgroup : memorySize.toNat / 4096 = 0 ∨
      memorySize.toNat / 4096 = 64 ∧ s.pageBitmap 0 = 0#64) : CoversRam s memorySize := by
  have htracked := h.tracked_eq
  have heq : s.tracked = memorySize.toNat / 4096 := by omega
  have hcount := h.entries
  refine ⟨fun b hb => ?_, fun b hb => ?_, fun address length _ _ hin => ?_, fun b hb => ?_⟩
  · rw [pageIndex_pageAddress (by omega)]
    omega
  · rw [freePageEntry_pageAddress (by omega)]
    omega
  · exact markEntries_lt h.fits (heq ▸ hin)
  · rcases hgroup with hnone | ⟨hone, hzero⟩
    · omega
    · have hunused : ∀ c < 64, s.used c = false := fun c hc => by
        simpa [used] using (word_eq_zero_iff s.pageBitmap 0).mp hzero c hc
      refine ⟨b, (returns_iff ?_ (by omega)).mpr (returns_first_entry h.fits (by omega) hunused
        (by omega))⟩
      rw [Fits, (allocated_iterate h.fits b).1]
      exact h.fits

end Coverage

/-- The allocator covers the RAM it is initialised with if and only if that is less than a
page, or exactly one group of 64 whole pages and the heap held a zero word for the bitmap. -/
theorem initPageAllocator_covers_iff {heap heap' : EternalHeap} {words : Addr → BitVec 64}
    {base memorySize : BitVec 64} {s : PageAllocator}
    (hinit : srvKpallocInitPageAllocator heap words base memorySize = .ok (heap', s)) :
    CoversRam s memorySize ↔ memorySize.toNat / 4096 = 0 ∨
      memorySize.toNat / 4096 = 64 ∧ words heap.currKallocEternalAddress = 0#64 := by
  have h := tracksRam_of_init hinit
  have hword : words heap.currKallocEternalAddress = s.pageBitmap 0 := by
    rw [pageBitmap_of_init hinit, BitVec.mul_zero, BitVec.add_zero]
  rw [hword]
  refine ⟨fun hcovers => ?_, coversRam_of_group h⟩
  have hsize := memorySize.isLt
  have htracked := h.tracked_eq
  have hcount := h.entries
  -- a page without a bit if there is a remainder
  have hwhole : memorySize.toNat / 4096 % 64 = 0 := by
    by_contra hrest
    have hlast := hcovers.bits (memorySize.toNat / 4096 - 1) (by omega)
    rw [pageIndex_pageAddress (by omega)] at hlast
    omega
  have hreturned : ∀ b < memorySize.toNat / 4096,
      s.used b = false ∧ ∃ k, (allocated^[k] s).LeastFree b := by
    intro b hb
    obtain ⟨k, hk⟩ := hcovers.returned b hb
    obtain ⟨hleast, hunused⟩ := unused_of_returns h.fits (by omega) hk
    exact ⟨hunused, k, hleast⟩
  -- page 65 is behind page 64, which is never marked
  have hgroups : memorySize.toNat / 4096 < 128 := by
    by_contra hge
    obtain ⟨-, k, hleast⟩ := hreturned 65 (by omega)
    have hused := hleast.below 64 (by decide)
    rw [allocated_iterate_unused h.fits (fun b hb => (hreturned b (by omega)).1) k 64 (by omega)
      le_rfl] at hused
    cases hused
  rcases Nat.eq_zero_or_pos (memorySize.toNat / 4096) with hnone | hpos
  · exact .inl hnone
  · refine .inr ⟨by omega, (word_eq_zero_iff s.pageBitmap 0).mpr fun k hk => ?_⟩
    simpa [used] using (hreturned k (by omega)).1

/-- 256 KiB of RAM and a zeroed heap. -/
theorem initPageAllocator_covers_one_group :
    CoversRam ⟨fun _ => 0#64, 64#64, 0x80000000#64, 1#64⟩ 0x40000#64 := by
  have hinit : ∃ heap', srvKpallocInitPageAllocator
      (.fresh 0xFFFFFFFF80300000#64 0xFFFFFFFF80400000#64) (fun _ => 0#64) 0x80000000#64 0x40000#64 =
        .ok (heap', ⟨fun _ => 0#64, 64#64, 0x80000000#64, 1#64⟩) := ⟨_, rfl⟩
  obtain ⟨heap', hinit⟩ := hinit
  exact (initPageAllocator_covers_iff hinit).mpr (.inr ⟨by decide, rfl⟩)

/-- With one page more than that, the last page has no bit, and `FreePage` of it touches the
word behind the bitmap. -/
theorem initPageAllocator_misses_last_page :
    ∃ heap', srvKpallocInitPageAllocator (.fresh 0xFFFFFFFF80300000#64 0xFFFFFFFF80400000#64)
        (fun _ => 0#64) 0x80000000#64 0x41000#64 =
          .ok (heap', ⟨fun _ => 0#64, 65#64, 0x80000000#64, 1#64⟩) ∧
      freePageEntry ⟨fun _ => 0#64, 65#64, 0x80000000#64, 1#64⟩ 0x80040000#64 = 1 ∧
      ¬ CoversRam ⟨fun _ => 0#64, 65#64, 0x80000000#64, 1#64⟩ 0x41000#64 := by
  refine ⟨_, rfl, by decide, fun hcovers => ?_⟩
  exact absurd (hcovers.bits 64 (by decide)) (by decide)

end SysRv.Kpalloc
