import SysRv.KpallocFirstFit

/-!
# Marking regions

`MarkRegionUnusable` for regions of any alignment. The start is rounded down to a page and
the length to whole pages, each by itself, so the pages at the end of a region can be left
out.
-/

namespace SysRv.Kpalloc
open Kalloc WordBitmaps PageAllocator

def bytePage (s : PageAllocator) (address : Addr) (k : ℕ) : ℕ :=
  s.pageIndex (address + BitVec.ofNat 64 k)

/-- Every byte of the region lies in a tracked page. -/
def InTracked (s : PageAllocator) (address : Addr) (length : BitVec 64) : Prop :=
  ∀ k < length.toNat, bytePage s address k < s.tracked

/-- Page `b` overlaps the region by at least one byte. -/
def OverlapsRegion (s : PageAllocator) (address : Addr) (length : BitVec 64) (b : ℕ) : Prop :=
  ∃ k < length.toNat, bytePage s address k = b

/-- The bits set afterwards are those set before and those of all pages that overlap. -/
def MarksExactly (s : PageAllocator) (address : Addr) (length : BitVec 64) : Prop :=
  ∀ b, (srvKpallocMarkRegionUnusable s address length).used b = true ↔
    OverlapsRegion s address length b ∨ s.used b = true

/-- From the page of the first byte on, `length / 4096` pages are marked. The pages of the
region behind these, if there are any, are in use already. -/
def TailUsed (s : PageAllocator) (address : Addr) (length : BitVec 64) : Prop :=
  0 < length.toNat → ∀ b, s.pageIndex address + length.toNat / 4096 ≤ b →
    b ≤ bytePage s address (length.toNat - 1) → s.used b = true

section Regions

variable {s : PageAllocator} {address : Addr} {length : BitVec 64}

/-- A region in tracked pages does not wrap, or it would contain the last page of the
address space. -/
theorem InTracked.offset_lt (h : InTracked s address length) (hfits : s.Fits) {k : ℕ}
    (hk : k < length.toNat) : (address - s.physBaseAddress).toNat + k < 2 ^ 64 := by
  have hoff := (address - s.physBaseAddress).isLt
  have hbound : s.tracked < 2 ^ 52 := hfits
  by_contra hge
  have hlast := h (2 ^ 64 - 1 - (address - s.physBaseAddress).toNat) (by omega)
  rw [bytePage, pageIndex_add] at hlast
  omega

theorem inTracked_of_le (hfits : s.Fits)
    (hle : (address - s.physBaseAddress).toNat + length.toNat ≤ 4096 * s.tracked) :
    InTracked s address length := by
  have hbound : s.tracked < 2 ^ 52 := hfits
  intro k hk
  rw [bytePage, pageIndex_add]
  omega

theorem InTracked.bytePage_eq (h : InTracked s address length) (hfits : s.Fits) {k : ℕ}
    (hk : k < length.toNat) :
    bytePage s address k = ((address - s.physBaseAddress).toNat + k) / 4096 := by
  rw [bytePage, pageIndex_add, Nat.mod_eq_of_lt (h.offset_lt hfits hk)]

/-- The pages that overlap a region are those from its first byte to its last. -/
theorem overlapsRegion_iff (h : InTracked s address length) (hfits : s.Fits) (b : ℕ) :
    OverlapsRegion s address length b ↔ 0 < length.toNat ∧ s.pageIndex address ≤ b ∧
      b ≤ bytePage s address (length.toNat - 1) := by
  constructor
  · rintro ⟨k, hk, rfl⟩
    rw [h.bytePage_eq hfits hk, h.bytePage_eq hfits (by omega), pageIndex_eq]
    omega
  · rintro ⟨hpos, hlo, hhi⟩
    rw [h.bytePage_eq hfits (by omega)] at hhi
    rw [pageIndex_eq] at hlo
    -- the first byte of page `b`, or the first of the region where that lies behind it
    refine ⟨4096 * b - (address - s.physBaseAddress).toNat, by omega, ?_⟩
    rw [h.bytePage_eq hfits (by omega)]
    omega

theorem marked_overlaps (h : InTracked s address length) (hfits : s.Fits) {b : ℕ}
    (hlo : s.pageIndex address ≤ b) (hhi : b < s.pageIndex address + length.toNat / 4096) :
    OverlapsRegion s address length b := by
  refine (overlapsRegion_iff h hfits b).mpr ⟨by omega, hlo, ?_⟩
  rw [h.bytePage_eq hfits (by omega)]
  rw [pageIndex_eq] at hhi
  omega

end Regions

/-- Marking is exact if and only if the pages at the end of the region that the two roundings
leave out are in use already. -/
theorem markRegionUnusable_exact_iff {s : PageAllocator} {base memorySize : BitVec 64}
    (hs : TracksRam s base memorySize) {address : Addr} {length : BitVec 64}
    (hin : InTracked s address length) :
    MarksExactly s address length ↔ TailUsed s address length := by
  constructor
  · intro hexact hpos b hlo hhi
    have hover : OverlapsRegion s address length b :=
      (overlapsRegion_iff hin hs.fits b).mpr ⟨hpos, by omega, hhi⟩
    rcases (used_mark_iff address length b).mp ((hexact b).mpr (.inl hover)) with hmarked | hused
    · omega
    · exact hused
  · intro htail b
    rw [used_mark_iff]
    constructor
    · rintro (⟨hlo, hhi⟩ | hused)
      · exact .inl (marked_overlaps hin hs.fits hlo hhi)
      · exact .inr hused
    · rintro (hover | hused)
      · obtain ⟨hpos, hlo, hhi⟩ := (overlapsRegion_iff hin hs.fits b).mp hover
        rcases Nat.lt_or_ge b (s.pageIndex address + length.toNat / 4096) with hlt | hge
        · exact .inl ⟨hlo, hlt⟩
        · exact .inr (htail hpos b hge hhi)
      · exact .inr hused

/-- For a page-aligned address and a whole number of pages nothing is left out. -/
theorem tailUsed_of_aligned {s : PageAllocator} (hfits : s.Fits) {address : Addr}
    {length : BitVec 64} (hin : InTracked s address length)
    (haddress : (address - s.physBaseAddress).toNat % 4096 = 0)
    (hlength : length.toNat % 4096 = 0) : TailUsed s address length := by
  intro hpos b hlo hhi
  rw [hin.bytePage_eq hfits (by omega)] at hhi
  rw [pageIndex_eq] at hlo
  omega

def allUnused : PageAllocator := ⟨fun _ => 0#64, 128#64, 0x80000000#64, 2#64⟩

theorem allUnused_tracksRam : TracksRam allUnused 0x80000000#64 0x80000#64 := ⟨rfl, by decide⟩

theorem markRegionUnusable_exact_two_pages : MarksExactly allUnused 0x80001000#64 0x2000#64 := by
  have hin : InTracked allUnused 0x80001000#64 0x2000#64 :=
    inTracked_of_le allUnused_tracksRam.fits (by decide)
  exact (markRegionUnusable_exact_iff allUnused_tracksRam hin).mpr
    (tailUsed_of_aligned allUnused_tracksRam.fits hin (by decide) (by decide))

/-- A device tree 8 bytes before a page boundary, with its length rounded up to a page: the
second page holds nearly all of it and is not marked. -/
theorem markRegionUnusable_misses_second_page :
    InTracked allUnused 0x80000FF8#64 0x1000#64 ∧
      OverlapsRegion allUnused 0x80000FF8#64 0x1000#64 1 ∧
      (srvKpallocMarkRegionUnusable allUnused 0x80000FF8#64 0x1000#64).used 1 = false ∧
      ¬ MarksExactly allUnused 0x80000FF8#64 0x1000#64 := by
  have hover : OverlapsRegion allUnused 0x80000FF8#64 0x1000#64 1 := ⟨8, by decide, by decide⟩
  have hunused : (srvKpallocMarkRegionUnusable allUnused 0x80000FF8#64 0x1000#64).used 1 = false := by
    decide
  refine ⟨inTracked_of_le allUnused_tracksRam.fits (by decide), hover, hunused, fun hexact => ?_⟩
  have hused := (hexact 1).mpr (.inl hover)
  rw [hunused] at hused
  cases hused

end SysRv.Kpalloc
