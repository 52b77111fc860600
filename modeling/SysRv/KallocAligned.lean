import SysRv.Kalloc

/-!
# Aligned allocation

`EternalAllocAligned` adds to the bump pointer its residue modulo the alignment. That is the
way up to the next multiple from a pointer that is a multiple already, where it is nothing,
and from one half way between two multiples.
-/

namespace SysRv.Kalloc
open GuardedRuns BumpAllocation

variable (h : EternalHeap) (size alignment : BitVec 64)

/-- From the next multiple of the alignment on, `size` bytes of the heap are left. -/
def AlignedFits : Prop :=
  alignUp alignment.toNat h.currKallocEternalAddress.toNat + size.toNat ≤ h.kallocEternalEnd.toNat

/-- The call returns the least multiple of the alignment that is not below the bump pointer. -/
def AlignsMinimally : Prop := ∃ p h', srvKallocEternalAllocAligned h size alignment = .ok (p, h') ∧
  IsLeast {m | alignment.toNat ∣ m ∧ h.currKallocEternalAddress.toNat ≤ m} p.toNat

/-- The bump pointer is a multiple of the alignment or half way between two of them. -/
def OnHalfMultiple : Prop :=
  h.currKallocEternalAddress.toNat % alignment.toNat = 0 ∨
    2 * (h.currKallocEternalAddress.toNat % alignment.toNat) = alignment.toNat

/-- The request takes the heap up to its last byte. -/
def FillsHeap : Prop :=
  alignUp alignment.toNat h.currKallocEternalAddress.toNat + size.toNat = h.kallocEternalEnd.toNat

instance : Decidable (AlignedFits h size alignment) := inferInstanceAs (Decidable (_ ≤ _))

instance : Decidable (OnHalfMultiple h alignment) := inferInstanceAs (Decidable (_ ∨ _))

instance : Decidable (FillsHeap h size alignment) := inferInstanceAs (Decidable (_ = _))

variable {h size alignment}

/-- The mask of a power of two takes the residue. -/
theorem and_alignment_sub_one {k : ℕ} (hk : alignment.toNat = 2 ^ k) (x : BitVec 64) :
    (x &&& (alignment - 1#64)).toNat = x.toNat % alignment.toNat := by
  have hpos : 0 < 2 ^ k := Nat.two_pow_pos k
  have hmask : (alignment - 1#64).toNat = 2 ^ k - 1 := by
    rw [BitVec.toNat_sub_of_le (by simp [BitVec.le_def, hk]; omega), hk]
    rfl
  rw [BitVec.toNat_and, hmask, hk, Nat.and_two_pow_sub_one_eq_mod]

theorem alignedCursor_toNat {k : ℕ} (hk : alignment.toNat = 2 ^ k) :
    (KallocCall.cursor h (.eternalAllocAligned size alignment)).toNat =
      (h.currKallocEternalAddress.toNat +
        h.currKallocEternalAddress.toNat % alignment.toNat) % 2 ^ 64 := by
  rw [KallocCall.cursor, BitVec.toNat_add]
  simp only [KallocCall.skew, and_alignment_sub_one hk]

/-- A request that fits passes the bounds test from the next multiple on, unless it fills
the heap. -/
theorem alignedPasses_iff (hfits : AlignedFits h size alignment)
    (hcursor : (KallocCall.cursor h (.eternalAllocAligned size alignment)).toNat =
      alignUp alignment.toNat h.currKallocEternalAddress.toNat) :
    KallocCall.Passes h (.eternalAllocAligned size alignment) ↔ ¬ FillsHeap h size alignment := by
  have hstop := h.kallocEternalEnd.isLt
  rw [AlignedFits] at hfits
  rw [KallocCall.Passes, FillsHeap, BitVec.lt_def, BitVec.toNat_add, hcursor]
  simp only [KallocCall.size]
  rw [Nat.mod_eq_of_lt (by omega)]
  omega

/-- For one call: it aligns exactly when adding the residue rounds up. -/
theorem alignsMinimally_iff {k : ℕ} (hk : alignment.toNat = 2 ^ k)
    (hfits : AlignedFits h size alignment) :
    AlignsMinimally h size alignment ↔
      OnHalfMultiple h alignment ∧ ¬ FillsHeap h size alignment := by
  have hpos : 0 < alignment.toNat := hk ▸ Nat.two_pow_pos k
  have hleast := alignUp_isLeast (n := h.currKallocEternalAddress.toNat) hpos
  have hmod := Nat.mod_lt h.currKallocEternalAddress.toNat hpos
  have hcurr := h.currKallocEternalAddress.isLt
  have halign := alignment.isLt
  have hcursor : (KallocCall.cursor h (.eternalAllocAligned size alignment)).toNat =
      (h.currKallocEternalAddress.toNat +
        h.currKallocEternalAddress.toNat % alignment.toNat) % 2 ^ 64 := alignedCursor_toNat hk
  constructor
  · rintro ⟨p, h', hcall, hp⟩
    have hpasses : KallocCall.Passes h (.eternalAllocAligned size alignment) := by
      by_contra hfails
      have herror := KallocCall.run_fails hfails
      rw [KallocCall.run, hcall] at herror
      cases herror
    have hok := KallocCall.run_passes hpasses
    rw [KallocCall.run, hcall] at hok
    simp only [Except.ok.injEq, Prod.mk.injEq] at hok
    have hup := hp.unique hleast
    have hge := hp.1.2
    rw [hok.1] at hup hge
    -- a wrapped cursor would lie below the bump pointer
    have hnowrap : h.currKallocEternalAddress.toNat +
        h.currKallocEternalAddress.toNat % alignment.toNat < 2 ^ 64 := by
      rw [hcursor] at hge
      generalize h.currKallocEternalAddress.toNat % alignment.toNat = residue at hmod hge ⊢
      omega
    rw [hcursor, Nat.mod_eq_of_lt hnowrap] at hup
    have hpass := (alignedPasses_iff hfits (by rw [hcursor, Nat.mod_eq_of_lt hnowrap, hup])).mp
      hpasses
    exact ⟨(add_mod_eq_alignUp_iff hpos).mp hup, hpass⟩
  · rintro ⟨hhalf, hfills⟩
    have hexact := (add_mod_eq_alignUp_iff hpos).mpr hhalf
    have hup : (KallocCall.cursor h (.eternalAllocAligned size alignment)).toNat =
        alignUp alignment.toNat h.currKallocEternalAddress.toNat := by
      have hstop := h.kallocEternalEnd.isLt
      rw [AlignedFits] at hfits
      rw [hcursor, hexact, Nat.mod_eq_of_lt (by omega)]
    refine ⟨_, _, KallocCall.run_passes ((alignedPasses_iff hfits hup).mpr hfills), ?_⟩
    rw [hup]
    exact hleast

/-- After any earlier calls, an aligned request that fits gets the least multiple of its
alignment exactly when the bump pointer is on a multiple or half way between two, and the
request does not take the last byte of the heap. -/
theorem eternalAllocAligned_minimal_iff (start stop : Addr) (earlier : List KallocCall)
    (size alignment : BitVec 64)
    (legal : eternalCalls.Legal (.start (.fresh start stop))
      (earlier ++ [.eternalAllocAligned size alignment]))
    (hfits : AlignedFits (eternalCalls.after (.start (.fresh start stop)) earlier).heap
      size alignment) :
    AlignsMinimally (eternalCalls.after (.start (.fresh start stop)) earlier).heap
        size alignment ↔
      OnHalfMultiple (eternalCalls.after (.start (.fresh start stop)) earlier).heap alignment ∧
        ¬ FillsHeap (eternalCalls.after (.start (.fresh start stop)) earlier).heap
          size alignment := by
  obtain ⟨-, ⟨-, k, hk⟩, -⟩ := (System.meets_append _ _ _).mp legal
  exact alignsMinimally_iff hk hfits

/-- 64 bytes aligned to 64 behind a request of 32 bytes on the kernel's own heap. -/
theorem eternalAllocAligned_minimal_half_way :
    AlignsMinimally (eternalCalls.after
      (.start (.fresh 0xFFFFFFFF80300000#64 0xFFFFFFFF80400000#64)) [.eternalAlloc 32#64]).heap
      64#64 64#64 :=
  (eternalAllocAligned_minimal_iff 0xFFFFFFFF80300000#64 0xFFFFFFFF80400000#64
    [.eternalAlloc 32#64] 64#64 64#64 ⟨⟨rfl, trivial⟩, ⟨rfl, 6, by decide⟩, trivial⟩
    (by decide)).mpr (by decide)

/-- 64 bytes aligned to 64 behind a request of 16 bytes: the pointer ends in 0x20. -/
theorem eternalAllocAligned_misaligned :
    eternalCalls.Legal (.start (.fresh 0xFFFFFFFF80300000#64 0xFFFFFFFF80400000#64))
        [.eternalAlloc 16#64, .eternalAllocAligned 64#64 64#64] ∧
      AlignedFits (eternalCalls.after
        (.start (.fresh 0xFFFFFFFF80300000#64 0xFFFFFFFF80400000#64)) [.eternalAlloc 16#64]).heap
        64#64 64#64 ∧
      ¬ AlignsMinimally (eternalCalls.after
        (.start (.fresh 0xFFFFFFFF80300000#64 0xFFFFFFFF80400000#64)) [.eternalAlloc 16#64]).heap
        64#64 64#64 := by
  refine ⟨⟨⟨rfl, trivial⟩, ⟨rfl, 6, by decide⟩, trivial⟩, by decide, ?_⟩
  rintro ⟨p, h', hcall, hp⟩
  have hok : srvKallocEternalAllocAligned ⟨0xFFFFFFFF80300000#64, 0xFFFFFFFF80400000#64,
      0xFFFFFFFF80300010#64⟩ 64#64 64#64 = .ok (0xFFFFFFFF80300020#64,
        ⟨0xFFFFFFFF80300000#64, 0xFFFFFFFF80400000#64, 0xFFFFFFFF80300060#64⟩) := by
    decide
  have hpair := hok.symm.trans hcall
  simp only [Except.ok.injEq, Prod.mk.injEq] at hpair
  have hdvd := hp.1.1
  rw [← hpair.1] at hdvd
  exact absurd hdvd (by decide)

end SysRv.Kalloc
