import Mathlib.Tactic.Linarith
import SysRv.BumpAllocation
import SysRv.GuardedRuns
import SysRv.KernelTypes

/-!
# The eternal heap

`mm/kalloc.c`: a bump pointer between two linker symbols. Both entry points compute in 64
bits, so the sum that is compared with the end of the heap may have wrapped. Runs of calls
are related to bump allocation on the natural numbers: as long as no sum of a successful
call wraps, the returned blocks are carved from the heap in increasing order.
-/

namespace SysRv.Kalloc
open GuardedRuns BumpAllocation

/-- The linker symbols `__kalloc_eternal_start` and `__kalloc_eternal_end`, and the static
`curr_kalloc_eternal_address`. -/
structure EternalHeap where
  kallocEternalStart : Addr
  kallocEternalEnd : Addr
  currKallocEternalAddress : Addr
  deriving DecidableEq, Repr

def EternalHeap.fresh (start stop : Addr) : EternalHeap := ⟨start, stop, start⟩

/-- `srv_kalloc_EternalAlloc`. An error is a call that does not return. -/
def srvKallocEternalAlloc (h : EternalHeap) (size : BitVec 64) :
    Except KernelPanic (Addr × EternalHeap) :=
  if h.currKallocEternalAddress + size < h.kallocEternalEnd then
    .ok (h.currKallocEternalAddress,
      { h with currKallocEternalAddress := h.currKallocEternalAddress + size })
  else .error .eternalHeapExhausted

theorem srvKallocEternalAlloc_eq_ok {heap heap' : EternalHeap} {size : BitVec 64} {p : Addr}
    (h : srvKallocEternalAlloc heap size = .ok (p, heap')) :
    p = heap.currKallocEternalAddress ∧
      heap' = { heap with currKallocEternalAddress := heap.currKallocEternalAddress + size } := by
  rw [srvKallocEternalAlloc] at h
  split at h <;> cases h
  exact ⟨rfl, rfl⟩

def srvKallocEternalAllocAligned (h : EternalHeap) (size alignment : BitVec 64) :
    Except KernelPanic (Addr × EternalHeap) :=
  srvKallocEternalAlloc
    { h with currKallocEternalAddress :=
        h.currKallocEternalAddress + (h.currKallocEternalAddress &&& (alignment - 1#64)) }
    size

inductive KallocCall where
  | eternalAlloc (size : BitVec 64)
  | eternalAllocAligned (size alignment : BitVec 64)
  deriving DecidableEq, Repr

namespace KallocCall

def size : KallocCall → BitVec 64
  | .eternalAlloc size => size
  | .eternalAllocAligned size _ => size

def run (h : EternalHeap) : KallocCall → Except KernelPanic (Addr × EternalHeap)
  | .eternalAlloc size => srvKallocEternalAlloc h size
  | .eternalAllocAligned size alignment => srvKallocEternalAllocAligned h size alignment

/-- `kalloc.h`: the alignment must be a power of two. -/
def PowerOfTwo : KallocCall → Prop
  | .eternalAlloc _ => True
  | .eternalAllocAligned _ alignment => ∃ k, alignment.toNat = 2 ^ k

/-- What the call adds to the bump pointer before it allocates. -/
def skew (h : EternalHeap) : KallocCall → BitVec 64
  | .eternalAlloc _ => 0#64
  | .eternalAllocAligned _ alignment => h.currKallocEternalAddress &&& (alignment - 1#64)

def cursor (h : EternalHeap) (c : KallocCall) : Addr := h.currKallocEternalAddress + c.skew h

theorem run_eq (h : EternalHeap) (c : KallocCall) :
    c.run h = srvKallocEternalAlloc { h with currKallocEternalAddress := c.cursor h } c.size := by
  cases c with
  | eternalAlloc size => simp [run, cursor, skew, KallocCall.size]
  | eternalAllocAligned size alignment => rfl

/-- The bounds test of the call. -/
def Passes (h : EternalHeap) (c : KallocCall) : Prop := c.cursor h + c.size < h.kallocEternalEnd

instance (h : EternalHeap) (c : KallocCall) : Decidable (c.Passes h) :=
  inferInstanceAs (Decidable (_ < _))

/-- Neither sum of the call reaches 2^64. -/
def SumsFit (h : EternalHeap) (c : KallocCall) : Prop :=
  h.currKallocEternalAddress.toNat + (c.skew h).toNat < 2 ^ 64 ∧
    (c.cursor h).toNat + c.size.toNat < 2 ^ 64

instance (h : EternalHeap) (c : KallocCall) : Decidable (c.SumsFit h) :=
  inferInstanceAs (Decidable (_ ∧ _))

theorem run_passes {h : EternalHeap} {c : KallocCall} (hp : c.Passes h) :
    c.run h = .ok (c.cursor h, { h with currKallocEternalAddress := c.cursor h + c.size }) := by
  rw [run_eq]
  exact if_pos hp

theorem run_fails {h : EternalHeap} {c : KallocCall} (hp : ¬ c.Passes h) :
    c.run h = .error .eternalHeapExhausted := by
  rw [run_eq]
  exact if_neg hp

theorem skew_lt (h : EternalHeap) {c : KallocCall} (hc : c.PowerOfTwo) :
    (c.skew h).toNat < 2 ^ 63 := by
  cases c with
  | eternalAlloc size => simp [skew]
  | eternalAllocAligned size alignment =>
    obtain ⟨k, hk⟩ := hc
    have hlt := alignment.isLt
    have hk63 : k ≤ 63 := by
      rw [hk] at hlt
      have := (Nat.pow_lt_pow_iff_right (by decide)).mp hlt
      omega
    have hpow : 2 ^ k ≤ 2 ^ 63 := Nat.pow_le_pow_right (by decide) hk63
    have hpos : 0 < 2 ^ k := Nat.two_pow_pos k
    have hmask : (alignment - 1#64).toNat = 2 ^ k - 1 := by
      rw [BitVec.toNat_sub_of_le (by simp [BitVec.le_def, hk]; omega), hk]
      rfl
    have hand : (h.currKallocEternalAddress &&& (alignment - 1#64)).toNat ≤ 2 ^ k - 1 := by
      rw [BitVec.toNat_and, ← hmask]
      exact Nat.and_le_right
    simp only [skew]
    omega

end KallocCall

/-- The heap together with the blocks returned so far, newest first. -/
structure EternalRun where
  heap : EternalHeap
  blocks : List Block
  panicked : Bool

def EternalRun.start (h : EternalHeap) : EternalRun := ⟨h, [], false⟩

/-- Calls of the two entry points. A panic is the end of the run. -/
def eternalCalls : System EternalRun KallocCall where
  guard r c := r.panicked = false ∧ c.PowerOfTwo
  next r c := match c.run r.heap with
    | .ok (p, h) => ⟨h, ⟨p.toNat, c.size.toNat⟩ :: r.blocks, false⟩
    | .error _ => { r with panicked := true }

theorem eternalCalls_next_passes {r : EternalRun} {c : KallocCall} (hp : c.Passes r.heap) :
    eternalCalls.next r c =
      ⟨{ r.heap with currKallocEternalAddress := c.cursor r.heap + c.size },
        ⟨(c.cursor r.heap).toNat, c.size.toNat⟩ :: r.blocks, false⟩ := by
  simp [eternalCalls, KallocCall.run_passes hp]

theorem eternalCalls_next_fails {r : EternalRun} {c : KallocCall} (hp : ¬ c.Passes r.heap) :
    eternalCalls.next r c = { r with panicked := true } := by
  simp [eternalCalls, KallocCall.run_fails hp]

/-- Every returned block lies in the heap and is disjoint from every older one. -/
def BlocksApart (start stop : Addr) (r : EternalRun) : Prop :=
  (∀ b ∈ r.blocks, b.Within start.toNat stop.toNat) ∧
    r.blocks.Pairwise (fun b c => Disjoint b.bytes c.bytes)

/-- The call, if it passes the bounds test, does so without a wrapped sum. -/
def NoWrap (r : EternalRun) (c : KallocCall) : Prop := c.Passes r.heap → c.SumsFit r.heap

/-- The run is one of bump allocation on the natural numbers. -/
structure EternalInv (start stop : Addr) (r : EternalRun) : Prop where
  stop_eq : r.heap.kallocEternalEnd = stop
  carved : Carved start.toNat r.heap.currKallocEternalAddress.toNat r.blocks
  cur_le : r.heap.currKallocEternalAddress.toNat ≤ stop.toNat

theorem eternalInv_start {start stop : Addr} (h : start ≤ stop) :
    EternalInv start stop (.start (.fresh start stop)) where
  stop_eq := rfl
  carved := .start
  cur_le := BitVec.le_def.mp h

theorem EternalInv.blocksApart {start stop : Addr} {r : EternalRun} (h : EternalInv start stop r) :
    BlocksApart start stop r :=
  ⟨fun b hb => ⟨(h.carved.within b hb).1, (h.carved.within b hb).2.trans h.cur_le⟩,
    h.carved.disjoint⟩

/-- Without a wrapped sum a call skips to its cursor and cuts a block there. -/
theorem eternalInv_step {start stop : Addr} {r : EternalRun} {c : KallocCall}
    (h : EternalInv start stop r) (hfit : NoWrap r c) :
    EternalInv start stop (eternalCalls.next r c) := by
  by_cases hp : c.Passes r.heap
  · obtain ⟨hskew, hsize⟩ := hfit hp
    have hcursor : (c.cursor r.heap).toNat =
        r.heap.currKallocEternalAddress.toNat + (c.skew r.heap).toNat := by
      rw [KallocCall.cursor, BitVec.toNat_add, Nat.mod_eq_of_lt hskew]
    have hsum : (c.cursor r.heap + c.size).toNat = (c.cursor r.heap).toNat + c.size.toNat := by
      rw [BitVec.toNat_add, Nat.mod_eq_of_lt hsize]
    have hlt := BitVec.lt_def.mp hp
    rw [eternalCalls_next_passes hp]
    refine ⟨h.stop_eq, ?_, ?_⟩
    · have hskip := h.carved.skip (Nat.le_add_right _ (c.skew r.heap).toNat)
      rw [← hcursor] at hskip
      simpa only [hsum] using hskip.cut c.size.toNat
    · rw [← h.stop_eq]
      exact Nat.le_of_lt hlt
  · rw [eternalCalls_next_fails hp]
    exact ⟨h.stop_eq, h.carved, h.cur_le⟩

/-- In a heap of at most 2^63 bytes, a call that passes the test by a wrapped sum returns a
block that is not inside the heap: a wrapped cursor lies below the heap, and a wrapped end
means that the block runs past the top of the address space. -/
theorem not_blocksApart_of_wrap {start stop : Addr} {r : EternalRun} {c : KallocCall}
    (h : EternalInv start stop r) (hspan : stop.toNat ≤ start.toNat + 2 ^ 63)
    (hc : c.PowerOfTwo) (hwrap : ¬ NoWrap r c) :
    ¬ BlocksApart start stop (eternalCalls.next r c) := by
  simp only [NoWrap, not_forall] at hwrap
  obtain ⟨hp, hwrap⟩ := hwrap
  rw [eternalCalls_next_passes hp]
  intro hapart
  have hin : Block.Within start.toNat stop.toNat ⟨(c.cursor r.heap).toNat, c.size.toNat⟩ :=
    hapart.1 _ (List.mem_cons_self ..)
  obtain ⟨hlow, hhigh⟩ := hin
  simp only at hlow hhigh
  have hskew := KallocCall.skew_lt r.heap hc
  have hstop := stop.isLt
  have hcur := h.cur_le
  apply hwrap
  have hcursor : (c.cursor r.heap).toNat =
      (r.heap.currKallocEternalAddress.toNat + (c.skew r.heap).toNat) % 2 ^ 64 := by
    rw [KallocCall.cursor, BitVec.toNat_add]
  refine ⟨?_, by omega⟩
  by_contra hge
  rw [Nat.mod_eq_sub_mod (by omega), Nat.mod_eq_of_lt (by omega)] at hcursor
  omega

/-- Every run of the eternal heap whose successful calls compute no wrapped sum returns
blocks inside the heap and pairwise disjoint; in a heap of at most 2^63 bytes these are the
only such runs. -/
theorem eternal_blocks_apart (start stop : Addr) (hplace : start ≤ stop) (calls : List KallocCall)
    (legal : eternalCalls.Legal (.start (.fresh start stop)) calls) :
    (eternalCalls.Meets NoWrap (.start (.fresh start stop)) calls →
      eternalCalls.Along (BlocksApart start stop) (.start (.fresh start stop)) calls) ∧
    (stop.toNat ≤ start.toNat + 2 ^ 63 →
      (eternalCalls.Along (BlocksApart start stop) (.start (.fresh start stop)) calls ↔
        eternalCalls.Meets NoWrap (.start (.fresh start stop)) calls)) := by
  have h₀ := eternalInv_start hplace
  constructor
  · intro hmeets
    exact (System.along_of_step h₀ (fun r c hr hc => eternalInv_step hr hc) hmeets).mono
      fun r hr => hr.blocksApart
  · intro hspan
    exact System.along_iff_meets h₀ (fun r hr => hr.blocksApart)
      (fun r c hr _ hc => eternalInv_step hr hc)
      (fun r c hr hg hc => not_blocksApart_of_wrap hr hspan hg.2 hc) legal

/-- The kernel's own heap, an aligned request and a request that fills the next 64 bytes. -/
theorem eternal_blocks_apart_kernel_heap :
    eternalCalls.Along (BlocksApart 0xFFFFFFFF80300000#64 0xFFFFFFFF80400000#64)
      (.start (.fresh 0xFFFFFFFF80300000#64 0xFFFFFFFF80400000#64))
      [.eternalAlloc 272#64, .eternalAllocAligned 64#64 64#64] :=
  (eternal_blocks_apart 0xFFFFFFFF80300000#64 0xFFFFFFFF80400000#64 (by decide)
    [.eternalAlloc 272#64, .eternalAllocAligned 64#64 64#64]
    ⟨⟨rfl, trivial⟩, ⟨rfl, 6, by decide⟩, trivial⟩).1
    ⟨fun _ => by decide, fun _ => by decide, trivial⟩

/-- A request of 2 GiB on the kernel's own heap: the sum wraps to a small address, passes
the test, and the returned block runs past the end of the heap and of the address space. -/
theorem eternalAlloc_two_gib_leaves_heap :
    eternalCalls.Legal (.start (.fresh 0xFFFFFFFF80300000#64 0xFFFFFFFF80400000#64))
        [.eternalAlloc 0x80000000#64] ∧
      ¬ eternalCalls.Along (BlocksApart 0xFFFFFFFF80300000#64 0xFFFFFFFF80400000#64)
        (.start (.fresh 0xFFFFFFFF80300000#64 0xFFFFFFFF80400000#64))
        [.eternalAlloc 0x80000000#64] := by
  refine ⟨⟨⟨rfl, trivial⟩, trivial⟩, fun h => ?_⟩
  have hlast := h.last.1 ⟨0xFFFFFFFF80300000, 0x80000000⟩ (by decide)
  exact absurd hlast (by decide)

end SysRv.Kalloc
