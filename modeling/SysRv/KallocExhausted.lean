import SysRv.Kalloc

/-!
# When the eternal heap panics

Runs of `EternalAlloc` alone, against the sum of the sizes asked for. While the sum stays
below the length of the heap the bump pointer is the start plus the sum. The first request
that takes the sum to the length or past it decides: the bounds test refuses the one that
fits to the last byte, and accepts one whose end wraps.
-/

namespace SysRv.Kalloc
open GuardedRuns

def requested (sizes : List (BitVec 64)) : ℕ := (sizes.map BitVec.toNat).sum

def allocCalls (sizes : List (BitVec 64)) : List KallocCall := sizes.map .eternalAlloc

section Sequence

variable (start stop : Addr) (sizes : List (BitVec 64))

def allocated : EternalRun := eternalCalls.after (.start (.fresh start stop)) (allocCalls sizes)

/-- Each request of the sequence is made, that is, all before it have returned. -/
def AllMade : Prop := eternalCalls.Legal (.start (.fresh start stop)) (allocCalls sizes)

/-- Each request that is made panics exactly when the sizes up to its own exceed the heap,
and otherwise returns the start plus the sizes before it. -/
def PanicsWhenExhausted : Prop := ∀ front size back, sizes = front ++ size :: back →
  AllMade start stop (front ++ [size]) →
    (srvKallocEternalAlloc (allocated start stop front).heap size = .error .eternalHeapExhausted ↔
      stop.toNat - start.toNat < requested (front ++ [size])) ∧
    (requested (front ++ [size]) ≤ stop.toNat - start.toNat →
      ∃ p h', srvKallocEternalAlloc (allocated start stop front).heap size = .ok (p, h') ∧
        p.toNat = start.toNat + requested front)

/-- The first request that takes the sum to the length of the heap takes it past, to an end
that is in the address space. -/
def OverrunsPlainly : Prop := ∀ front size back, sizes = front ++ size :: back →
  front = [] ∨ requested front < stop.toNat - start.toNat →
    requested (front ++ [size]) ≠ stop.toNat - start.toNat ∧
    (stop.toNat - start.toNat < requested (front ++ [size]) →
      start.toNat + requested (front ++ [size]) < 2 ^ 64)

end Sequence

theorem requested_snoc (front : List (BitVec 64)) (size : BitVec 64) :
    requested (front ++ [size]) = requested front + size.toNat := by
  simp [requested]

theorem allMade_snoc {start stop : Addr} {front : List (BitVec 64)} {size : BitVec 64} :
    AllMade start stop (front ++ [size]) ↔
      AllMade start stop front ∧ (allocated start stop front).panicked = false := by
  simp only [AllMade, allocCalls, List.map_append, List.map_cons, List.map_nil]
  rw [System.Legal, System.meets_append]
  simp [eternalCalls, allocated, allocCalls, KallocCall.PowerOfTwo]

theorem allocated_snoc (start stop : Addr) (front : List (BitVec 64)) (size : BitVec 64) :
    allocated start stop (front ++ [size]) =
      eternalCalls.next (allocated start stop front) (.eternalAlloc size) := by
  simp [allocated, allocCalls, System.after_append]

structure AtSum (start stop : Addr) (sizes : List (BitVec 64)) : Prop where
  made : AllMade start stop sizes
  running : (allocated start stop sizes).panicked = false
  stop_eq : (allocated start stop sizes).heap.kallocEternalEnd = stop
  curr : (allocated start stop sizes).heap.currKallocEternalAddress.toNat =
    start.toNat + requested sizes

section Run

variable {start stop : Addr} {front : List (BitVec 64)} {size : BitVec 64}

theorem AtSum.passes_iff (h : AtSum start stop front) :
    KallocCall.Passes (allocated start stop front).heap (.eternalAlloc size) ↔
      (start.toNat + requested (front ++ [size])) % 2 ^ 64 < stop.toNat := by
  rw [KallocCall.Passes, BitVec.lt_def, BitVec.toNat_add, h.stop_eq, requested_snoc,
    ← Nat.add_assoc, ← h.curr]
  simp [KallocCall.cursor, KallocCall.skew, KallocCall.size]

/-- While the sum is below the length of the heap, every request returns. -/
theorem atSum_of_lt {sizes : List (BitVec 64)}
    (hlt : sizes = [] ∨ requested sizes < stop.toNat - start.toNat) : AtSum start stop sizes := by
  have hstop := stop.isLt
  induction sizes using List.reverseRecOn with
  | nil =>
    exact ⟨trivial, rfl, rfl, by simp [allocated, allocCalls, EternalRun.start, EternalHeap.fresh,
      requested]⟩
  | append_singleton front size ih =>
    have hsum : requested (front ++ [size]) < stop.toNat - start.toNat := by simpa using hlt
    have hsnoc := requested_snoc front size
    have hfront := ih (.inr (by omega))
    have hpasses : KallocCall.Passes (allocated start stop front).heap (.eternalAlloc size) := by
      rw [hfront.passes_iff, Nat.mod_eq_of_lt (by omega)]
      omega
    refine ⟨allMade_snoc.mpr ⟨hfront.made, hfront.running⟩, ?_, ?_, ?_⟩
    · rw [allocated_snoc, eternalCalls_next_passes hpasses]
    · rw [allocated_snoc, eternalCalls_next_passes hpasses]
      exact hfront.stop_eq
    · rw [allocated_snoc, eternalCalls_next_passes hpasses]
      simp only [KallocCall.cursor, KallocCall.skew, KallocCall.size, BitVec.add_zero]
      rw [BitVec.toNat_add, hfront.curr, hsnoc, Nat.mod_eq_of_lt (by omega)]
      omega

/-- The next request panics exactly when its end, modulo 2^64, is not below the end. -/
theorem AtSum.panics_iff (h : AtSum start stop front) :
    srvKallocEternalAlloc (allocated start stop front).heap size = .error .eternalHeapExhausted ↔
      stop.toNat ≤ (start.toNat + requested (front ++ [size])) % 2 ^ 64 := by
  rw [← not_lt, ← h.passes_iff]
  constructor
  · intro hpanic hpasses
    have hok := KallocCall.run_passes hpasses
    rw [KallocCall.run, hpanic] at hok
    cases hok
  · exact fun hfails => KallocCall.run_fails hfails

theorem AtSum.returns (h : AtSum start stop front)
    (hfit : (start.toNat + requested (front ++ [size])) % 2 ^ 64 < stop.toNat) :
    ∃ p h', srvKallocEternalAlloc (allocated start stop front).heap size = .ok (p, h') ∧
      p.toNat = start.toNat + requested front := by
  refine ⟨_, _, KallocCall.run_passes ((h.passes_iff).mpr hfit), ?_⟩
  rw [KallocCall.cursor, KallocCall.skew, BitVec.add_zero, h.curr]

end Run

/-- Where the first overrun is a plain one, no request is made behind it. -/
theorem lt_of_allMade {start stop : Addr} {sizes : List (BitVec 64)}
    (hplain : OverrunsPlainly start stop sizes) {front : List (BitVec 64)} {size : BitVec 64}
    {back : List (BitVec 64)} (hsizes : sizes = front ++ size :: back)
    (hmade : AllMade start stop (front ++ [size])) :
    front = [] ∨ requested front < stop.toNat - start.toNat := by
  induction front using List.reverseRecOn generalizing size back with
  | nil => exact .inl rfl
  | append_singleton front last ih =>
    right
    obtain ⟨hfront, hrunning⟩ := allMade_snoc.mp hmade
    have hsplit : sizes = front ++ last :: size :: back := by simp [hsizes]
    have hlt := ih hsplit hfront
    have hat := atSum_of_lt hlt
    obtain ⟨hne, hover⟩ := hplain front last _ hsplit hlt
    by_contra hge
    have hgt : stop.toNat - start.toNat < requested (front ++ [last]) := by omega
    have hend := hover hgt
    have hpanics : ¬ KallocCall.Passes (allocated start stop front).heap (.eternalAlloc last) := by
      rw [hat.passes_iff, Nat.mod_eq_of_lt hend]
      omega
    rw [allocated_snoc, eternalCalls_next_fails hpanics] at hrunning
    cases hrunning

/-- The eternal heap panics only when it is exhausted, and then always, on exactly those
sequences of requests that do not fill it to the last byte and do not wrap when they first
overrun it. -/
theorem eternalAlloc_panics_when_exhausted_iff (start stop : Addr) (hplace : start ≤ stop)
    (sizes : List (BitVec 64)) (hsizes : ∀ size ∈ sizes, size.toNat ≤ stop.toNat - start.toNat) :
    PanicsWhenExhausted start stop sizes ↔ OverrunsPlainly start stop sizes := by
  have hlen := stop.isLt
  have hle := BitVec.le_def.mp hplace
  constructor
  · intro hexact front size back hsplit hlt
    have hat := atSum_of_lt hlt
    have hsize := hsizes size (by simp [hsplit])
    obtain ⟨hpanics, -⟩ := hexact front size back hsplit
      (allMade_snoc.mpr ⟨hat.made, hat.running⟩)
    rw [hat.panics_iff] at hpanics
    have hsnoc := requested_snoc front size
    have hfront : requested front ≤ stop.toNat - start.toNat := by
      rcases hlt with rfl | hlt
      · simp [requested]
      · omega
    constructor
    · -- an end at the end of the heap is refused
      intro hfull
      have hmod : (start.toNat + requested (front ++ [size])) % 2 ^ 64 = stop.toNat := by
        rw [Nat.mod_eq_of_lt (by omega)]
        omega
      rw [hmod] at hpanics
      omega
    · -- an end that wraps is accepted
      intro hover
      have hrefused := hpanics.mpr hover
      omega
  · intro hplain front size back hsplit hmade
    have hlt := lt_of_allMade hplain hsplit hmade
    have hat := atSum_of_lt hlt
    obtain ⟨hne, hover⟩ := hplain front size back hsplit hlt
    constructor
    · rw [hat.panics_iff]
      rcases Nat.lt_or_gt_of_ne hne with hless | hmore
      · rw [Nat.mod_eq_of_lt (by omega)]
        omega
      · have hend := hover hmore
        rw [Nat.mod_eq_of_lt hend]
        omega
    · intro hfit
      refine hat.returns ?_
      rw [Nat.mod_eq_of_lt (by omega)]
      omega

/-- Three requests on a heap of 256 bytes, the last of which does not fit. -/
theorem eternalAlloc_panics_when_exhausted_three_requests :
    PanicsWhenExhausted 0x1000#64 0x1100#64 [0x80#64, 0#64, 0x90#64] :=
  (eternalAlloc_panics_when_exhausted_iff 0x1000#64 0x1100#64 (by decide)
    [0x80#64, 0#64, 0x90#64] (by simp)).mpr (by
      rintro front size back hsplit -
      match front, hsplit with
      | [], hsplit =>
        simp only [List.nil_append, List.cons.injEq] at hsplit
        rw [← hsplit.1]
        decide
      | [_], hsplit =>
        simp only [List.cons_append, List.nil_append, List.cons.injEq] at hsplit
        rw [← hsplit.1, ← hsplit.2.1]
        decide
      | [_, _], hsplit =>
        simp only [List.cons_append, List.nil_append, List.cons.injEq] at hsplit
        rw [← hsplit.1, ← hsplit.2.1, ← hsplit.2.2.1]
        decide
      | _ :: _ :: _ :: _, hsplit => simp at hsplit)

/-- One request for the whole of the kernel's own heap, 1 MiB, panics. -/
theorem eternalAlloc_whole_heap_panics :
    ¬ PanicsWhenExhausted 0xFFFFFFFF80300000#64 0xFFFFFFFF80400000#64 [0x100000#64] := by
  intro hexact
  obtain ⟨-, hreturns⟩ := hexact [] 0x100000#64 [] rfl ⟨⟨rfl, trivial⟩, trivial⟩
  obtain ⟨p, h', hok, -⟩ := hreturns (by decide)
  have hpanic : srvKallocEternalAlloc (.fresh 0xFFFFFFFF80300000#64 0xFFFFFFFF80400000#64)
      0x100000#64 = .error .eternalHeapExhausted := by
    decide
  have hboth := hpanic.symm.trans hok
  cases hboth

end SysRv.Kalloc
