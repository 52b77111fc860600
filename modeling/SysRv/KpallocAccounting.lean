import SysRv.KpallocRuns

/-!
# The count of free pages

`free_pages` is kept beside the bitmap. The exact condition under which it is the number of
unused tracked pages in every state of a run has three parts: the memory fills the last
bitmap entry, `AllocPage` marks the page it returns, and a marked region holds no unused page.
-/

namespace SysRv.Kpalloc
open Kalloc WordBitmaps GuardedRuns PageAllocator

/-- `free_pages` is the number of unused tracked pages, and the next `AllocPage` does not
take it below zero. -/
def Accounted (c : Client) : Prop :=
  c.pages.freePages.toNat = c.pages.clearPages ∧
    (srvKpallocAllocPage c.pages).2.freePages.toNat ≤ c.pages.freePages.toNat

/-- The call changes `free_pages` by as many bits as it flips: `AllocPage` marks the page it
returns, and `MarkRegionUnusable`, which leaves the counter alone, is given used pages only. -/
def CountsItsBits (c : Client) : AllocatorCall → Prop
  | .allocPage => ∀ b, c.pages.LeastFree b → ¬ c.pages.Misses b
  | .freePage _ => True
  | .markRegionUnusable base length =>
    ∀ page ∈ regionPages base length, c.pages.used (c.pages.pageIndex page) = true

structure AccountingInv (c : Client) : Prop where
  fits : c.pages.Fits
  aligned : c.pages.physBaseAddress % srvPageSize = 0#64
  held : HoldsUsed c.pages c.outstanding
  counted : c.pages.freePages.toNat = c.pages.clearPages

theorem accountingInv_start {s : PageAllocator} (hfits : s.Fits)
    (hbase : s.physBaseAddress % srvPageSize = 0#64) (hcount : s.freePages.toNat = s.clearPages) :
    AccountingInv (.start s) where
  fits := hfits
  aligned := hbase
  held := by simp [HoldsUsed, Client.start]
  counted := hcount

theorem AccountingInv.freePages_pos {c : Client} (h : AccountingInv c) {b : ℕ}
    (hb : c.pages.LeastFree b) : 0 < c.pages.freePages.toNat := by
  rw [h.counted, clearPages, clearCount_pos_iff]
  exact ⟨b, hb.lt, hb.free⟩

theorem take_freePages_toNat {s : PageAllocator} (b : ℕ) (hpos : 0 < s.freePages.toNat) :
    (s.take b).freePages.toNat + 1 = s.freePages.toNat := by
  have hlt := s.freePages.isLt
  have hone : (1#64 : BitVec 64) ≤ s.freePages := by
    rw [BitVec.le_def]
    exact hpos
  simp only [take]
  rw [BitVec.toNat_sub_of_le hone]
  exact Nat.sub_add_cancel hpos

theorem AccountingInv.accounted {c : Client} (h : AccountingInv c) : Accounted c := by
  refine ⟨h.counted, ?_⟩
  rcases srvKpallocAllocPage_cases h.fits with ⟨-, halloc⟩ | ⟨b, hb, halloc⟩
  · rw [halloc]
  · have := take_freePages_toNat b (h.freePages_pos hb)
    rw [halloc]
    simp only
    omega

theorem accountingInv_allocPage {c : Client} (h : AccountingInv c)
    (hcond : CountsItsBits c .allocPage) :
    AccountingInv (allocatorCalls.next c .allocPage) := by
  rcases srvKpallocAllocPage_cases h.fits with ⟨hfull, -⟩ | ⟨b, hb, -⟩
  · rw [next_allocPage_full h.fits hfull]
    exact h
  · have hhit := hcond b hb
    have hkeep : HoldsUsed (c.pages.take b) c.outstanding :=
      h.held.mono rfl (fun _ => rfl) fun d _ hd => used_take_of_used b hd
    rw [next_allocPage_take h.fits hb]
    refine ⟨h.fits, h.aligned, ?_, ?_⟩
    · split
      · exact hkeep
      · intro page hpage
        rcases Finset.mem_insert.mp hpage with rfl | hpage
        · exact ⟨b, hb.lt, rfl, by simp [used_take, markedFor_of_not_misses hhit]⟩
        · exact hkeep page hpage
    · have hcount := take_clearPages hb hhit
      have hfree := take_freePages_toNat b (h.freePages_pos hb)
      have := h.counted
      simp only
      omega

theorem accountingInv_freePage {c : Client} (h : AccountingInv c) {page : Addr}
    (hheld : page ∈ c.outstanding) : AccountingInv (allocatorCalls.next c (.freePage page)) := by
  have hfits : c.pages.tracked < 2 ^ 52 := h.fits
  obtain ⟨b, hb, rfl, hused⟩ := h.held page hheld
  have hsub : HoldsUsed c.pages (c.outstanding.erase (c.pages.pageAddress b)) :=
    fun page hpage => h.held page (Finset.mem_of_mem_erase hpage)
  rw [next_freePage h.aligned (by omega)]
  refine ⟨h.fits, h.aligned, ?_, ?_⟩
  · exact hsub.mono rfl (fun _ => rfl) fun d hd hused =>
      used_unset_of_ne (fun hdb => Finset.notMem_erase _ _ (hdb ▸ hd)) hused
  · -- one more clear bit, and the counter is far from its upper end
    have hclear := clearCount_unsetBit (f := c.pages.pageBitmap) hb hused
    have hle : c.pages.clearPages ≤ c.pages.tracked := clearCount_le ..
    have hcounted := h.counted
    simp only [clearPages, tracked] at hclear hle hcounted ⊢
    simp only [tracked] at hfits
    rw [BitVec.toNat_add, hcounted, hclear, BitVec.toNat_ofNat]
    omega

/-- Marking used pages changes nothing. -/
theorem mark_used {s : PageAllocator} (hfits : s.Fits) {base : Addr} {length : BitVec 64}
    (hin : ∀ page ∈ regionPages base length, s.pageIndex page < s.tracked)
    (hused : ∀ page ∈ regionPages base length, s.used (s.pageIndex page) = true) :
    srvKpallocMarkRegionUnusable s base length = s := by
  have hbits : setBits (length.toNat / 4096) (s.pageIndex base) s.pageBitmap = s.pageBitmap := by
    apply ext_bit
    intro b
    rw [bit_setBits, Bool.or_eq_right_iff_imp, decide_eq_true_eq]
    intro hb
    obtain ⟨page, hpage, rfl⟩ := (mem_region_iff hfits hin b).mpr hb
    exact hused page hpage
  rw [srvKpallocMarkRegionUnusable_eq, hbits]

theorem accountingInv_step {c : Client} {a : AllocatorCall} (h : AccountingInv c)
    (hguard : allocatorCalls.guard c a) (hcond : CountsItsBits c a) :
    AccountingInv (allocatorCalls.next c a) := by
  cases a with
  | allocPage => exact accountingInv_allocPage h hcond
  | freePage page => exact accountingInv_freePage h hguard
  | markRegionUnusable base length =>
    have hsame := mark_used h.fits hguard.2.2 hcond
    have hnext : (allocatorCalls.next c (.markRegionUnusable base length)).pages = c.pages := hsame
    exact ⟨hnext.symm ▸ h.fits, hnext.symm ▸ h.aligned, hnext.symm ▸ h.held,
      hnext.symm ▸ h.counted⟩

/-- A step outside the condition leaves the counter off by at least one. -/
theorem not_accounted_of_not_counts {c : Client} {a : AllocatorCall} (h : AccountingInv c)
    (hguard : allocatorCalls.guard c a) (hcond : ¬ CountsItsBits c a) :
    ¬ Accounted (allocatorCalls.next c a) := by
  rintro ⟨hcount, -⟩
  have hcounted := h.counted
  cases a with
  | freePage page => exact hcond trivial
  | allocPage =>
    simp only [CountsItsBits, not_forall, not_not] at hcond
    obtain ⟨b, hb, hmiss⟩ := hcond
    have hfree := take_freePages_toNat b (h.freePages_pos hb)
    have hsame : (c.pages.take b).clearPages = c.pages.clearPages := by
      unfold clearPages clearCount
      congr 1
      exact Finset.filter_congr fun d _ => by
        rw [show bit (c.pages.take b).pageBitmap d = bit c.pages.pageBitmap d from
          used_take_of_misses hb hmiss d]
    rw [next_allocPage_take h.fits hb] at hcount
    simp only at hcount
    omega
  | markRegionUnusable base length =>
    simp only [CountsItsBits, not_forall] at hcond
    obtain ⟨page, hpage, hfree⟩ := hcond
    have hin := hguard.2.2
    have hnew := (used_mark_iff (s := c.pages) base length (c.pages.pageIndex page)).mpr
      (Or.inl ((mem_region_iff h.fits hin _).mp ⟨page, hpage, rfl⟩))
    have hmono : ∀ b, c.pages.used b = true →
        (srvKpallocMarkRegionUnusable c.pages base length).used b = true :=
      fun b hb => (used_mark_iff base length b).mpr (Or.inr hb)
    have hlt := clearCount_lt hmono (hin page hpage) (Bool.eq_false_iff.mpr hfree) hnew
    have hcount' : c.pages.freePages.toNat =
        clearCount (srvKpallocMarkRegionUnusable c.pages base length).pageBitmap c.pages.tracked := by
      have := hcount
      simpa [allocatorCalls, clearPages] using this
    simp only [clearPages] at hcounted
    omega

/-- From an empty bitmap on, `free_pages` is the number of unused tracked pages in every
state of a run exactly when the memory size fills the last bitmap entry and every step
changes the counter by the number of bits it flips. -/
theorem free_pages_counts_unused {heap heap' : EternalHeap} {words : Addr → BitVec 64}
    {base memorySize : BitVec 64} {s : PageAllocator}
    (hbase : base % srvPageSize = 0#64)
    (hinit : srvKpallocInitPageAllocator heap words base memorySize = .ok (heap', s))
    (hzero : ∀ i < s.bitmapEntryCount.toNat, s.pageBitmap i = 0#64) (calls : List AllocatorCall)
    (legal : allocatorCalls.Legal (.start s) calls) :
    allocatorCalls.Along Accounted (.start s) calls ↔
      memorySize.toNat / 4096 % 64 = 0 ∧ allocatorCalls.Meets CountsItsBits (.start s) calls := by
  obtain ⟨hphys, hfree, hcount, hfits⟩ := srvKpallocInitPageAllocator_ok hinit
  have hclear : s.clearPages = 64 * (memorySize.toNat / 4096 / 64) := by
    rw [clearPages, clearCount_of_zero, tracked, hcount]
    intro b hb
    simp only [tracked] at hb
    simp [bit, hzero (b / 64) (by omega)]
  by_cases hwhole : memorySize.toNat / 4096 % 64 = 0
  · have h₀ : AccountingInv (.start s) :=
      accountingInv_start hfits (hphys ▸ hbase) (by rw [hfree, hclear]; omega)
    rw [System.along_iff_meets h₀ (fun c hc => hc.accounted)
      (fun c a hc hg hm => accountingInv_step hc hg hm)
      (fun c a hc hg hm => not_accounted_of_not_counts hc hg hm) legal]
    simp [hwhole]
  · have hoff : ¬ Accounted (.start s) := by
      rintro ⟨hsame, -⟩
      simp only [Client.start, hfree, hclear] at hsame
      omega
    have hfirst : ¬ allocatorCalls.Along Accounted (.start s) calls := by
      cases calls with
      | nil => exact hoff
      | cons a as => exact fun h => hoff h.1
    simp [hwhole, hfirst]

/-- Allocating and freeing in the first entry of 512 KiB. -/
theorem free_pages_counts_unused_first_entry :
    allocatorCalls.Along Accounted (.start twoEntries)
      [.allocPage, .freePage 0x80000000#64, .allocPage] := by
  obtain ⟨heap', hinit⟩ := twoEntries_init
  exact (free_pages_counts_unused (by decide) hinit (fun _ _ => rfl)
    [.allocPage, .freePage 0x80000000#64, .allocPage]
    ⟨trivial, by decide, trivial, trivial⟩).mpr
    ⟨by decide, fun b hb hm => absurd (hb.below 0 hm.1) (by decide), trivial,
      fun b hb hm => absurd (hb.below 0 hm.1) (by decide), trivial⟩

/-- Marking one unused page sets its bit and leaves the counter at the old value. -/
theorem mark_region_leaves_counter :
    (∃ heap', srvKpallocInitPageAllocator (.fresh 0xFFFFFFFF80300000#64 0xFFFFFFFF80400000#64)
        (fun _ => 0#64) 0x80000000#64 0x80000#64 = .ok (heap', twoEntries)) ∧
      allocatorCalls.Legal (.start twoEntries) [.markRegionUnusable 0x80000000#64 0x1000#64] ∧
      ¬ allocatorCalls.Along Accounted (.start twoEntries)
        [.markRegionUnusable 0x80000000#64 0x1000#64] := by
  have hregion : regionPages 0x80000000#64 0x1000#64 = {0x80000000#64} := rfl
  have hguard : allocatorCalls.guard (.start twoEntries)
      (.markRegionUnusable 0x80000000#64 0x1000#64) := by
    refine ⟨by decide, by decide, fun page hpage => ?_⟩
    rw [hregion, Finset.mem_singleton] at hpage
    subst hpage
    decide
  have hzero : twoEntries.clearPages = 128 :=
    clearCount_of_zero fun b _ => by simp [twoEntries, bit]
  have h₀ : AccountingInv (.start twoEntries) :=
    accountingInv_start (by unfold Fits; decide) (by decide) (by rw [hzero]; decide)
  refine ⟨twoEntries_init, ⟨hguard, trivial⟩, fun h => ?_⟩
  refine not_accounted_of_not_counts h₀ hguard (fun hall => ?_) h.2
  have hused := hall 0x80000000#64 (by rw [hregion]; exact Finset.mem_singleton_self _)
  exact absurd hused (by decide)

end SysRv.Kpalloc
