import SysRv.GuardedRuns
import SysRv.KpallocSpec

/-!
# Runs of the page allocator

The allocator with a client that remembers which pages it holds and which it has marked.
Two properties of whole runs are settled here, each with its exact condition: that a page
has one owner, and that `free_pages` counts the unused pages. Both hang on the same branch
of `AllocPage`, which marks page 0 in place of the page it returns.
-/

namespace SysRv.Kpalloc
open Kalloc WordBitmaps GuardedRuns PageAllocator

/-- The allocator and the history that matters: the pages returned and not freed since, and
the pages marked unusable. -/
structure Client where
  pages : PageAllocator
  outstanding : Finset Addr
  marked : Finset Addr

def Client.start (s : PageAllocator) : Client := ⟨s, ∅, ∅⟩

inductive AllocatorCall where
  | allocPage
  | freePage (page : Addr)
  | markRegionUnusable (base : Addr) (length : BitVec 64)
  deriving DecidableEq, Repr

def regionPages (base : Addr) (length : BitVec 64) : Finset Addr :=
  (Finset.range (length.toNat / 4096)).image (fun k => base + BitVec.ofNat 64 (4096 * k))

/-- The calls a client makes: it frees only pages it holds and marks only page-aligned
regions all of whose pages are tracked. -/
def allocatorCalls : System Client AllocatorCall where
  guard c
    | .allocPage => True
    | .freePage page => page ∈ c.outstanding
    | .markRegionUnusable base length =>
      base % srvPageSize = 0#64 ∧ length % srvPageSize = 0#64 ∧
        ∀ page ∈ regionPages base length, c.pages.pageIndex page < c.pages.tracked
  next c
    | .allocPage =>
      let (page, s) := srvKpallocAllocPage c.pages
      { c with
        pages := s
        outstanding := if page = NULL then c.outstanding else insert page c.outstanding }
    | .freePage page =>
      match srvKpallocFreePage c.pages page with
      | .ok s => { c with pages := s, outstanding := c.outstanding.erase page }
      | .error _ => c
    | .markRegionUnusable base length =>
      { c with
        pages := srvKpallocMarkRegionUnusable c.pages base length
        marked := c.marked ∪ regionPages base length }

instance (c : Client) : (a : AllocatorCall) → Decidable (allocatorCalls.guard c a)
  | .allocPage => inferInstanceAs (Decidable True)
  | .freePage page => inferInstanceAs (Decidable (page ∈ c.outstanding))
  | .markRegionUnusable base length => inferInstanceAs (Decidable
      (base % srvPageSize = 0#64 ∧ length % srvPageSize = 0#64 ∧
        ∀ page ∈ regionPages base length, c.pages.pageIndex page < c.pages.tracked))

def MarksUnheld (c : Client) : AllocatorCall → Prop
  | .markRegionUnusable base length => Disjoint (regionPages base length) c.outstanding
  | _ => True

def ownershipCalls : System Client AllocatorCall := allocatorCalls.restrict MarksUnheld

section Steps

variable {c : Client}

theorem pageIndex_region {s : PageAllocator} (hfits : s.Fits) {base : Addr} {length : BitVec 64}
    (hin : ∀ page ∈ regionPages base length, s.pageIndex page < s.tracked) {k : ℕ}
    (hk : k < length.toNat / 4096) :
    s.pageIndex (base + BitVec.ofNat 64 (4096 * k)) = s.pageIndex base + k := by
  have hbound : s.tracked < 2 ^ 52 := hfits
  have hlen := length.isLt
  have hlast : (base - s.physBaseAddress).toNat / 4096 + k < 2 ^ 52 := by
    -- a region that wrapped would contain the last page of the address space
    by_contra hge
    have hj : 2 ^ 52 - 1 - (base - s.physBaseAddress).toNat / 4096 < length.toNat / 4096 := by omega
    have hmem := hin _ (Finset.mem_image_of_mem _ (Finset.mem_range.mpr hj))
    rw [pageIndex_add] at hmem
    have hd := (base - s.physBaseAddress).isLt
    omega
  rw [pageIndex_add, pageIndex_eq]
  omega

theorem mem_region_iff {s : PageAllocator} (hfits : s.Fits) {base : Addr} {length : BitVec 64}
    (hin : ∀ page ∈ regionPages base length, s.pageIndex page < s.tracked) (b : ℕ) :
    (∃ page ∈ regionPages base length, s.pageIndex page = b) ↔
      s.pageIndex base ≤ b ∧ b < s.pageIndex base + length.toNat / 4096 := by
  constructor
  · rintro ⟨page, hpage, rfl⟩
    obtain ⟨k, hk, rfl⟩ := Finset.mem_image.mp hpage
    rw [pageIndex_region hfits hin (Finset.mem_range.mp hk)]
    have := Finset.mem_range.mp hk
    omega
  · rintro ⟨hlo, hhi⟩
    have hk : b - s.pageIndex base < length.toNat / 4096 := by omega
    refine ⟨_, Finset.mem_image_of_mem _ (Finset.mem_range.mpr hk), ?_⟩
    rw [pageIndex_region hfits hin hk]
    omega

theorem region_aligned {base : Addr} {length : BitVec 64} (hbase : base % srvPageSize = 0#64) :
    ∀ page ∈ regionPages base length, page % srvPageSize = 0#64 := by
  intro page hpage
  obtain ⟨k, -, rfl⟩ := Finset.mem_image.mp hpage
  have hb := congrArg BitVec.toNat hbase
  apply BitVec.eq_of_toNat_eq
  simp only [srvPageSize, BitVec.toNat_umod, BitVec.toNat_ofNat, Nat.reducePow, Nat.reduceMod,
    BitVec.toNat_add] at hb ⊢
  omega

theorem next_allocPage_full (hfits : c.pages.Fits)
    (hfull : ∀ b < c.pages.tracked, c.pages.used b = true) :
    allocatorCalls.next c .allocPage = c := by
  rcases srvKpallocAllocPage_cases hfits with ⟨-, halloc⟩ | ⟨b, hb, -⟩
  · simp [allocatorCalls, halloc]
  · have := hfull b hb.lt
    simp [hb.free] at this

theorem next_allocPage_take (hfits : c.pages.Fits) {b : ℕ} (hb : c.pages.LeastFree b) :
    allocatorCalls.next c .allocPage =
      { c with
        pages := c.pages.take b
        outstanding := if c.pages.pageAddress b = NULL then c.outstanding
          else insert (c.pages.pageAddress b) c.outstanding } := by
  simp [allocatorCalls, srvKpallocAllocPage_of_leastFree hfits hb]

theorem next_freePage (hbase : c.pages.physBaseAddress % srvPageSize = 0#64) {b : ℕ}
    (hb : b < 2 ^ 52) :
    allocatorCalls.next c (.freePage (c.pages.pageAddress b)) =
      { c with
        pages := { c.pages with
          pageBitmap := unsetBit c.pages.pageBitmap b
          freePages := c.pages.freePages + 1#64 }
        outstanding := c.outstanding.erase (c.pages.pageAddress b) } := by
  simp [allocatorCalls, srvKpallocFreePage_pageAddress hbase hb]

end Steps

def HoldsUsed (s : PageAllocator) (pages : Finset Addr) : Prop :=
  ∀ page ∈ pages, ∃ b < s.tracked, page = s.pageAddress b ∧ s.used b = true

theorem HoldsUsed.used_pageIndex {s : PageAllocator} (hfits : s.Fits) {pages : Finset Addr}
    (h : HoldsUsed s pages) : ∀ page ∈ pages, s.used (s.pageIndex page) = true := by
  intro page hpage
  obtain ⟨b, hb, rfl, hused⟩ := h page hpage
  rwa [pageIndex_pageAddress (by unfold Fits at hfits; omega)]

/-- A change of the allocator that keeps the bits of the pages of the set. -/
theorem HoldsUsed.mono {s t : PageAllocator} {pages : Finset Addr} (h : HoldsUsed s pages)
    (htracked : t.tracked = s.tracked) (haddr : ∀ b, t.pageAddress b = s.pageAddress b)
    (hused : ∀ b, s.pageAddress b ∈ pages → s.used b = true → t.used b = true) :
    HoldsUsed t pages := by
  intro page hpage
  obtain ⟨b, hb, rfl, hb'⟩ := h page hpage
  exact ⟨b, htracked ▸ hb, (haddr b).symm, hused b hpage hb'⟩

theorem used_unset_of_ne {s : PageAllocator} {b d : ℕ} {free : BitVec 64} (hne : d ≠ b)
    (h : s.used d = true) :
    PageAllocator.used { s with pageBitmap := unsetBit s.pageBitmap b, freePages := free } d =
      true := by
  have hbit : bit s.pageBitmap d = true := h
  simp [used, bit_unsetBit, hne, hbit]

theorem HoldsUsed.notMem {s : PageAllocator} (hfits : s.Fits) {pages : Finset Addr}
    (h : HoldsUsed s pages) {b : ℕ} (hb : b < s.tracked) (hfree : s.used b = false) :
    s.pageAddress b ∉ pages := by
  intro hmem
  have hused := h.used_pageIndex hfits _ hmem
  rw [pageIndex_pageAddress (by unfold Fits at hfits; omega), hfree] at hused
  cases hused

/-- Every page that is held or marked has its bit set, and the page that `AllocPage` would
hand out next is neither held nor marked. -/
def Exclusive (c : Client) : Prop :=
  (∀ page ∈ c.outstanding ∪ c.marked, c.pages.used (c.pages.pageIndex page) = true) ∧
    ((srvKpallocAllocPage c.pages).1 ≠ NULL →
      (srvKpallocAllocPage c.pages).1 ∉ c.outstanding ∪ c.marked)

/-- `AllocPage` is not called when the least unused page is the first of an entry past
entry 0 that has no used page, unless the address of that page is the null pointer. -/
def MarksWhatItReturns (c : Client) : AllocatorCall → Prop
  | .allocPage => ∀ b, c.pages.LeastFree b → c.pages.Misses b → c.pages.pageAddress b = NULL
  | _ => True

structure OwnershipInv (c : Client) : Prop where
  fits : c.pages.Fits
  aligned : c.pages.physBaseAddress % srvPageSize = 0#64
  held : HoldsUsed c.pages c.outstanding
  reserved : HoldsUsed c.pages c.marked
  apart : Disjoint c.outstanding c.marked

theorem ownershipInv_start {s : PageAllocator} (hfits : s.Fits)
    (hbase : s.physBaseAddress % srvPageSize = 0#64) : OwnershipInv (.start s) where
  fits := hfits
  aligned := hbase
  held := by simp [HoldsUsed, Client.start]
  reserved := by simp [HoldsUsed, Client.start]
  apart := by simp [Client.start]

theorem OwnershipInv.exclusive {c : Client} (h : OwnershipInv c) : Exclusive c := by
  have hall : HoldsUsed c.pages (c.outstanding ∪ c.marked) := fun page hpage =>
    (Finset.mem_union.mp hpage).elim (h.held page) (h.reserved page)
  refine ⟨hall.used_pageIndex h.fits, fun hne => ?_⟩
  rcases srvKpallocAllocPage_cases h.fits with ⟨-, halloc⟩ | ⟨b, hb, halloc⟩
  · simp [halloc] at hne
  · rw [halloc]
    exact hall.notMem h.fits hb.lt hb.free

theorem ownershipInv_allocPage {c : Client} (h : OwnershipInv c)
    (hcond : MarksWhatItReturns c .allocPage) : OwnershipInv (allocatorCalls.next c .allocPage) := by
  rcases srvKpallocAllocPage_cases h.fits with ⟨hfull, -⟩ | ⟨b, hb, -⟩
  · rw [next_allocPage_full h.fits hfull]
    exact h
  · rw [next_allocPage_take h.fits hb]
    have hkeep : ∀ pages, HoldsUsed c.pages pages → HoldsUsed (c.pages.take b) pages :=
      fun pages hp => hp.mono rfl (fun _ => rfl) fun d _ hd => used_take_of_used b hd
    by_cases hnull : c.pages.pageAddress b = NULL
    · simp only [hnull, if_true]
      exact ⟨h.fits, h.aligned, hkeep _ h.held, hkeep _ h.reserved, h.apart⟩
    · simp only [hnull, if_false]
      have hhit : ¬ c.pages.Misses b := fun hm => hnull (hcond b hb hm)
      refine ⟨h.fits, h.aligned, fun page hpage => ?_, hkeep _ h.reserved, ?_⟩
      · rcases Finset.mem_insert.mp hpage with rfl | hpage
        · exact ⟨b, hb.lt, rfl, by simp [used_take, markedFor_of_not_misses hhit]⟩
        · exact hkeep _ h.held page hpage
      · exact Finset.disjoint_insert_left.mpr
          ⟨h.reserved.notMem h.fits hb.lt hb.free, h.apart⟩

/-- Freeing a held page clears its bit only, and no other held or marked page has that bit. -/
theorem ownershipInv_freePage {c : Client} (h : OwnershipInv c) {page : Addr}
    (hheld : page ∈ c.outstanding) : OwnershipInv (allocatorCalls.next c (.freePage page)) := by
  have hfits : c.pages.tracked < 2 ^ 52 := h.fits
  obtain ⟨b, hb, rfl, -⟩ := h.held page hheld
  rw [next_freePage h.aligned (by omega)]
  refine ⟨h.fits, h.aligned, ?_, ?_, h.apart.mono_left (Finset.erase_subset _ _)⟩
  · have hsub : HoldsUsed c.pages (c.outstanding.erase (c.pages.pageAddress b)) :=
      fun page hpage => h.held page (Finset.mem_of_mem_erase hpage)
    exact hsub.mono rfl (fun _ => rfl) fun d hd hused =>
      used_unset_of_ne (fun hdb => Finset.notMem_erase _ _ (hdb ▸ hd)) hused
  · exact h.reserved.mono rfl (fun _ => rfl) fun d hd hused =>
      used_unset_of_ne (fun hdb => Finset.disjoint_left.mp h.apart hheld (hdb ▸ hd)) hused

theorem ownershipInv_mark {c : Client} (h : OwnershipInv c) {base : Addr} {length : BitVec 64}
    (hguard : allocatorCalls.guard c (.markRegionUnusable base length))
    (hunheld : Disjoint (regionPages base length) c.outstanding) :
    OwnershipInv (allocatorCalls.next c (.markRegionUnusable base length)) := by
  obtain ⟨hbase, -, hin⟩ := hguard
  have hkeep : ∀ pages, HoldsUsed c.pages pages →
      HoldsUsed (srvKpallocMarkRegionUnusable c.pages base length) pages := fun pages hp =>
    hp.mono (mark_tracked ..) (mark_pageAddress _ _) fun d _ hd =>
      (used_mark_iff base length d).mpr (Or.inr hd)
  refine ⟨?_, (mark_physBaseAddress base length).symm ▸ h.aligned, hkeep _ h.held,
    fun page hpage => ?_, Finset.disjoint_union_right.mpr ⟨h.apart, hunheld.symm⟩⟩
  · simpa [Fits, allocatorCalls] using h.fits
  · rcases Finset.mem_union.mp hpage with hpage | hpage
    · exact hkeep _ h.reserved page hpage
    · refine ⟨c.pages.pageIndex page, (mark_tracked base length).symm ▸ hin page hpage, ?_,
        (used_mark_iff base length _).mpr (Or.inl ?_)⟩
      · simp [allocatorCalls, pageAddress_pageIndex h.aligned (region_aligned hbase page hpage)]
      · exact (mem_region_iff h.fits hin _).mp ⟨page, hpage, rfl⟩

theorem ownershipInv_step {c : Client} {a : AllocatorCall} (h : OwnershipInv c)
    (hguard : ownershipCalls.guard c a) (hcond : MarksWhatItReturns c a) :
    OwnershipInv (ownershipCalls.next c a) := by
  obtain ⟨hlegal, hunheld⟩ := hguard
  cases a with
  | allocPage => exact ownershipInv_allocPage h hcond
  | freePage page => exact ownershipInv_freePage h hlegal
  | markRegionUnusable base length => exact ownershipInv_mark h hlegal hunheld

/-- The page that is returned unmarked is held with its bit clear. -/
theorem not_exclusive_of_misses {c : Client} {a : AllocatorCall} (h : OwnershipInv c)
    (hcond : ¬ MarksWhatItReturns c a) : ¬ Exclusive (ownershipCalls.next c a) := by
  cases a with
  | freePage page => exact absurd trivial hcond
  | markRegionUnusable base length => exact absurd trivial hcond
  | allocPage =>
    simp only [MarksWhatItReturns, not_forall] at hcond
    obtain ⟨b, hb, hmiss, hnull⟩ := hcond
    have hfits : c.pages.tracked < 2 ^ 52 := h.fits
    have hlt := hb.lt
    change ¬ Exclusive (allocatorCalls.next c .allocPage)
    rw [next_allocPage_take h.fits hb]
    intro hex
    have hused := hex.1 (c.pages.pageAddress b) (by simp [hnull])
    have hindex : (c.pages.take b).pageIndex (c.pages.pageAddress b) = b :=
      pageIndex_pageAddress (s := c.pages) (by omega)
    rw [hindex, used_take_of_misses hb hmiss, hb.free] at hused
    cases hused

/-- From the initialised allocator on, whatever its bitmap holds, pages have one owner in
every state of a run exactly when no step of the run calls `AllocPage` where it returns one
page and marks another. -/
theorem pages_have_one_owner {heap heap' : EternalHeap} {words : Addr → BitVec 64}
    {base memorySize : BitVec 64} {s : PageAllocator}
    (hbase : base % srvPageSize = 0#64)
    (hinit : srvKpallocInitPageAllocator heap words base memorySize = .ok (heap', s))
    (calls : List AllocatorCall) (legal : ownershipCalls.Legal (.start s) calls) :
    ownershipCalls.Along Exclusive (.start s) calls ↔
      ownershipCalls.Meets MarksWhatItReturns (.start s) calls := by
  obtain ⟨hphys, -, -, hfits⟩ := srvKpallocInitPageAllocator_ok hinit
  exact System.along_iff_meets (ownershipInv_start hfits (hphys ▸ hbase))
    (fun c hc => hc.exclusive) (fun c a hc hg hm => ownershipInv_step hc hg hm)
    (fun c a hc _ hm => not_exclusive_of_misses hc hm) legal

/-- 512 KiB of RAM at 0x80000000: two bitmap entries. -/
def twoEntries : PageAllocator := ⟨fun _ => 0#64, 128#64, 0x80000000#64, 2#64⟩

theorem twoEntries_init :
    ∃ heap', srvKpallocInitPageAllocator (.fresh 0xFFFFFFFF80300000#64 0xFFFFFFFF80400000#64)
      (fun _ => 0#64) 0x80000000#64 0x80000#64 = .ok (heap', twoEntries) := ⟨_, rfl⟩

/-- Allocating, freeing and allocating again in the first entry. -/
theorem pages_have_one_owner_first_entry :
    ownershipCalls.Along Exclusive (.start twoEntries)
      [.allocPage, .freePage 0x80000000#64, .allocPage] := by
  obtain ⟨heap', hinit⟩ := twoEntries_init
  exact (pages_have_one_owner (by decide) hinit [.allocPage, .freePage 0x80000000#64, .allocPage]
    ⟨⟨trivial, trivial⟩, ⟨by decide, trivial⟩, ⟨trivial, trivial⟩, trivial⟩).mpr
    ⟨fun b hb hm => absurd (hb.below 0 hm.1) (by decide), trivial,
      fun b hb hm => absurd (hb.below 0 hm.1) (by decide), trivial⟩

theorem twoEntries_first_region_tracked :
    ∀ page ∈ regionPages 0x80000000#64 0x40000#64,
      twoEntries.pageIndex page < twoEntries.tracked := by
  intro page hpage
  obtain ⟨k, hk, rfl⟩ := Finset.mem_image.mp hpage
  have hk' : k < 64 := by simpa using hk
  rw [pageIndex_eq, twoEntries, tracked, BitVec.add_comm, BitVec.add_sub_cancel, BitVec.toNat_ofNat,
    BitVec.toNat_ofNat]
  omega

/-- With the first entry marked, the first page of the second is the least unused one, and
no page of its entry is in use. -/
theorem twoEntries_marked_leastFree :
    (srvKpallocMarkRegionUnusable twoEntries 0x80000000#64 0x40000#64).LeastFree 64 ∧
      (srvKpallocMarkRegionUnusable twoEntries 0x80000000#64 0x40000#64).Misses 64 := by
  have hused (b : ℕ) : (srvKpallocMarkRegionUnusable twoEntries 0x80000000#64 0x40000#64).used b =
      decide (b < 64) := by
    rw [srvKpallocMarkRegionUnusable_eq, used, bit_setBits, Bool.or_eq_left_iff_imp.mpr]
    · apply decide_eq_decide.mpr
      rw [show twoEntries.pageIndex 0x80000000#64 = 0 by decide]
      simp
    · simp [twoEntries, bit]
  refine ⟨⟨?_, by simp [hused], fun c hc => by simp [hused, hc]⟩, by decide, ?_⟩
  · rw [mark_tracked]
    decide
  · apply (word_eq_zero_iff _ _).mpr
    intro k hk
    have h := hused (64 * (64 / 64) + k)
    simpa [used] using h

/-- Marking a region and then allocating breaks ownership when marking leaves an entry past
the first as the first one with unused pages, without any used page. -/
theorem mark_allocPage_not_exclusive {s : PageAllocator} (h₀ : OwnershipInv (.start s)) {base : Addr}
    {length : BitVec 64} (hguard : allocatorCalls.guard (.start s) (.markRegionUnusable base length))
    {b : ℕ} (hfree : (srvKpallocMarkRegionUnusable s base length).LeastFree b)
    (hmiss : (srvKpallocMarkRegionUnusable s base length).Misses b) (hnull : s.pageAddress b ≠ NULL) :
    ¬ ownershipCalls.Along Exclusive (.start s) [.markRegionUnusable base length, .allocPage] := by
  rintro ⟨-, -, hlast⟩
  have hinv := ownershipInv_mark h₀ hguard (by simp [Client.start])
  refine not_exclusive_of_misses (a := .allocPage) hinv (fun hall => hnull ?_) hlast
  rw [← hall b hfree hmiss]
  exact (mark_pageAddress ..).symm

/-- With the first entry marked unusable, the next page returned keeps a clear bit, so the
call after that returns the same page again. -/
theorem second_entry_page_has_two_owners :
    (∃ heap', srvKpallocInitPageAllocator (.fresh 0xFFFFFFFF80300000#64 0xFFFFFFFF80400000#64)
        (fun _ => 0#64) 0x80000000#64 0x80000#64 = .ok (heap', twoEntries)) ∧
      ownershipCalls.Legal (.start twoEntries)
        [.markRegionUnusable 0x80000000#64 0x40000#64, .allocPage] ∧
      ¬ ownershipCalls.Along Exclusive (.start twoEntries)
        [.markRegionUnusable 0x80000000#64 0x40000#64, .allocPage] := by
  have hguard : allocatorCalls.guard (.start twoEntries)
      (.markRegionUnusable 0x80000000#64 0x40000#64) :=
    ⟨by decide, by decide, twoEntries_first_region_tracked⟩
  have h₀ : OwnershipInv (.start twoEntries) :=
    ownershipInv_start (by unfold Fits; decide) (by decide)
  obtain ⟨hfree, hmiss⟩ := twoEntries_marked_leastFree
  refine ⟨twoEntries_init, ⟨⟨hguard, ?_⟩, ⟨trivial, trivial⟩, trivial⟩,
    mark_allocPage_not_exclusive h₀ hguard hfree hmiss (by decide)⟩
  simp [MarksUnheld, Client.start]

end SysRv.Kpalloc
