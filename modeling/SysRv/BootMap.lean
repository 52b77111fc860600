import SysRv.Rv64
import SysRv.Sv39
import Mathlib.Tactic.Ring

/-!
# The boot mapper

`__boot_map_virt_to_phys` of `start.s` writes one gigapage entry into the root table. The
table it leaves after a sequence of calls, read by the walker, is the map that sends each
root index to the physical address of the last call with that index.
-/

namespace SysRv.BootMap

open Function Rv64 Sv39

/-- The line up to its `jr ra`: `a0` is the root table, `a1` the physical address and `a2`
the virtual address. -/
def bootMapVirtToPhys : List Instr :=
  [.srli .t0 .a2 30, .andi .t0 .t0 0x1FF#12, .srli .t1 .a1 30, .slli .t1 .t1 28, .li .t2 0xF#64,
    .or .t1 .t1 .t2, .slli .t0 .t0 3, .add .t0 .a0 .t0, .sd .t1 0#12 .t0]

/-- The line between the last call and the write of `satp`: the number of the root table's
page, with the mode of Sv39 above it. -/
def bootSatpLine : List Instr :=
  [.srli .a0 .a0 12, .li .t1 8#64, .slli .t1 .t1 60, .or .a0 .a0 .t1]

structure MapCall where
  physical : Addr
  virtual : Addr
  deriving DecidableEq, Repr

def MapCall.run (root : Addr) (m : Machine) (c : MapCall) : Machine :=
  (((m.setReg .a0 root).setReg .a1 c.physical).setReg .a2 c.virtual).run bootMapVirtToPhys

/-- The entry that the line builds from the physical address. -/
def gigapage (physical : Addr) : PageTableEntry := ((physical >>> 30) <<< 28) ||| 0xF#64

def rootIndex (va : Addr) : BitVec 64 := (va >>> 30) &&& 0x1FF#64

theorem rootIndex_toNat (va : Addr) : (rootIndex va).toNat = va.toNat / 2 ^ 30 % 512 := by
  rw [rootIndex, BitVec.toNat_and, BitVec.toNat_ushiftRight, Nat.shiftRight_eq_div_pow]
  exact Nat.and_two_pow_sub_one_eq_mod _ 9

theorem rootIndex_lt (va : Addr) : (rootIndex va).toNat < 512 := by
  rw [rootIndex_toNat]
  omega

theorem entryAddress_inj {table : Addr} {i j : BitVec 64} (hi : i.toNat < 512) (hj : j.toNat < 512)
    (h : entryAddress table i = entryAddress table j) : i = j := by
  have hmul : 8#64 * i = 8#64 * j := by simpa [entryAddress] using h
  have hnat := congrArg BitVec.toNat hmul
  simp only [BitVec.toNat_mul, BitVec.toNat_ofNat, Nat.reducePow, Nat.reduceMod] at hnat
  exact BitVec.eq_of_toNat_eq (by omega)

theorem entryAddress_shift (table index : BitVec 64) :
    table + index <<< 3 = entryAddress table index := by
  have hshift : index <<< 3 = 8#64 * index := by
    apply BitVec.eq_of_toNat_eq
    simp [BitVec.toNat_shiftLeft, Nat.shiftLeft_eq, Nat.mul_comm]
  rw [hshift, entryAddress]

theorem mapCall_mem (root : Addr) (m : Machine) (c : MapCall) :
    (c.run root m).mem =
      update m.mem (entryAddress root (rootIndex c.virtual)) (gigapage c.physical) := by
  rw [← entryAddress_shift]
  simp [MapCall.run, bootMapVirtToPhys, Machine.exec, Machine.address, gigapage, rootIndex]

theorem mapCall_entry (root : Addr) (m : Machine) (c : MapCall) {index : BitVec 64}
    (hindex : index.toNat < 512) :
    (c.run root m).mem (entryAddress root index) =
      if index = rootIndex c.virtual then gigapage c.physical
      else m.mem (entryAddress root index) := by
  rw [mapCall_mem, update_apply]
  by_cases h : index = rootIndex c.virtual
  · simp [h]
  · rw [if_neg h, if_neg fun heq => h (entryAddress_inj hindex (rootIndex_lt _) heq)]

/-- The low four bits of the entry are the flags, all set. -/
theorem gigapage_flags (physical : Addr) : gigapage physical &&& 0xF#64 = 0xF#64 := by
  have hshift : ((physical >>> 30) <<< 28) &&& 0xF#64 = 0#64 := by
    apply BitVec.eq_of_toNat_eq
    have hmod := Nat.and_two_pow_sub_one_eq_mod ((physical >>> 30) <<< 28).toNat 4
    simp only [BitVec.toNat_and, BitVec.toNat_shiftLeft, Nat.shiftLeft_eq, BitVec.toNat_ofNat,
      Nat.reducePow, Nat.reduceSub, Nat.reduceMod] at hmod ⊢
    rw [hmod]
    omega
  rw [gigapage, BitVec.and_or_distrib_right, hshift]
  decide

theorem gigapage_and_flag (physical : Addr) {flags : BitVec 64} (h : 0xF#64 &&& flags = flags) :
    gigapage physical &&& flags = flags := by
  calc gigapage physical &&& flags
      = (gigapage physical &&& 0xF#64) &&& flags := by rw [BitVec.and_assoc, h]
    _ = flags := by rw [gigapage_flags, h]

theorem gigapage_valid (physical : Addr) : srvHalIsPTEValid (gigapage physical) = true := by
  rw [srvHalIsPTEValid, gigapage_and_flag physical (by decide)]
  decide

theorem gigapage_leaf (physical : Addr) : srvHalIsPTELeaf (gigapage physical) = true := by
  rw [srvHalIsPTELeaf, gigapage_and_flag physical (by decide), gigapage_and_flag physical (by decide)]
  decide

theorem gigapage_physAddr {physical : Addr} (h : physical.toNat < 2 ^ 56) :
    (rv64PTEToPhysAddr (gigapage physical)).toNat = physical.toNat / 2 ^ 30 * 2 ^ 30 := by
  have hmask := fun x => Nat.and_two_pow_sub_one_eq_mod x 44
  simp only [Nat.reducePow, Nat.reduceSub] at hmask
  have hflags : 0xF#64 >>> 10 = 0#64 := by decide
  rw [rv64PTEToPhysAddr, gigapage, BitVec.ushiftRight_or_distrib, hflags, BitVec.or_zero]
  simp only [BitVec.toNat_shiftLeft, BitVec.toNat_ushiftRight, BitVec.toNat_and, Nat.shiftLeft_eq,
    Nat.shiftRight_eq_div_pow, BitVec.toNat_ofNat, Nat.reducePow, Nat.reduceMod, hmask]
  omega

def lastCall (calls : List MapCall) (index : BitVec 64) : Option MapCall :=
  calls.reverse.find? fun c => rootIndex c.virtual = index

def runCalls (root : Addr) (m : Machine) (calls : List MapCall) : Machine :=
  calls.foldl (fun m c => c.run root m) m

/-- The table holds the gigapage of the last call at every index that was mapped, and zero
at every other one. -/
def Represents (root : Addr) (m : Machine) (calls : List MapCall) : Prop :=
  ∀ index : BitVec 64, index.toNat < 512 →
    m.mem (entryAddress root index) =
      ((lastCall calls index).map fun c => gigapage c.physical).getD 0#64

theorem lastCall_append (calls : List MapCall) (c : MapCall) (index : BitVec 64) :
    lastCall (calls ++ [c]) index =
      if rootIndex c.virtual = index then some c else lastCall calls index := by
  by_cases h : rootIndex c.virtual = index <;> simp [lastCall, h]

theorem lastCall_eq_none {calls : List MapCall} {index : BitVec 64} :
    lastCall calls index = none ↔ ∀ c ∈ calls, rootIndex c.virtual ≠ index := by
  simp [lastCall]

theorem lastCall_of_split {before after : List MapCall} {c : MapCall} {index : BitVec 64}
    (hc : rootIndex c.virtual = index) (hafter : ∀ d ∈ after, rootIndex d.virtual ≠ index) :
    lastCall (before ++ c :: after) index = some c := by
  have hnone : after.reverse.find? (fun d => decide (rootIndex d.virtual = index)) = none := by
    simpa using hafter
  simp [lastCall, hnone, hc]

theorem mem_of_lastCall {calls : List MapCall} {index : BitVec 64} {c : MapCall}
    (h : lastCall calls index = some c) : c ∈ calls :=
  List.mem_reverse.mp (List.mem_of_find?_eq_some h)

theorem Represents.call {root : Addr} {m : Machine} {calls : List MapCall}
    (h : Represents root m calls) (c : MapCall) :
    Represents root (c.run root m) (calls ++ [c]) := by
  intro index hindex
  rw [mapCall_entry root m c hindex, lastCall_append]
  by_cases heq : index = rootIndex c.virtual
  · simp [heq]
  · rw [if_neg heq, if_neg (Ne.symm heq), h index hindex]

theorem represents_runCalls {root : Addr} {m : Machine} {calls : List MapCall}
    (h : Represents root m []) : Represents root (runCalls root m calls) calls := by
  induction calls using List.reverseRecOn with
  | nil => exact h
  | append_singleton calls c ih => simpa [runCalls] using ih.call c

theorem vpn_root {h : Rv64VmHeader} (hh : h.IsSv39) (va : Addr) : vpn h va 2 = rootIndex va := by
  simp [vpn, rv64GetVPN2, rootIndex, hh.vpn2Bitp, hh.vpnMask]

/-- Where the root entry is invalid or a leaf, the walk does not leave the root table. -/
theorem walk_root {h : Rv64VmHeader} (hh : h.IsSv39) (mem : Addr → PageTableEntry) (root va : Addr)
    (hroot : srvHalIsPTEValid (mem (entryAddress root (rootIndex va))) = true →
      srvHalIsPTELeaf (mem (entryAddress root (rootIndex va))) = true) :
    srvHalWalkPageTable h mem root va =
      if srvHalIsPTEValid (mem (entryAddress root (rootIndex va))) then
        entryAddress root (rootIndex va)
      else NULL := by
  rw [srvHalWalkPageTable, hh.maxLevels, walkLevels, vpn_root hh]
  by_cases hvalid : srvHalIsPTEValid (mem (entryAddress root (rootIndex va))) = true
  · simp [hvalid, hroot hvalid]
  · simp [hvalid]

theorem not_valid_zero : srvHalIsPTEValid 0#64 = false := by decide

/-- A machine whose root table represents a sequence of calls, walked at any address. -/
theorem Represents.walk {h : Rv64VmHeader} (hh : h.IsSv39) {root : Addr} {m : Machine}
    {calls : List MapCall} (hrep : Represents root m calls) (va : Addr) :
    srvHalWalkPageTable h m.mem root va =
      if (lastCall calls (rootIndex va)).isSome then entryAddress root (rootIndex va) else NULL := by
  have hentry := hrep (rootIndex va) (rootIndex_lt va)
  cases hlast : lastCall calls (rootIndex va) with
  | none =>
    rw [hlast] at hentry
    rw [walk_root hh _ root va (by simp [hentry, not_valid_zero]), hentry]
    simp [not_valid_zero]
  | some c =>
    rw [hlast] at hentry
    rw [walk_root hh _ root va (by simp [hentry, gigapage_leaf]), hentry]
    simp [gigapage_valid]

/-- The mapper and the walker agree on every address after every sequence of calls from an
all-zero root table, and no call changes another root entry. -/
theorem boot_mapper_and_walker_agree {h : Rv64VmHeader} (hh : h.IsSv39) (root : Addr) (m : Machine)
    (hzero : ∀ index : BitVec 64, index.toNat < 512 → m.mem (entryAddress root index) = 0#64)
    (calls : List MapCall) (hphysical : ∀ c ∈ calls, c.physical.toNat < 2 ^ 56) (va : Addr) :
    ((∀ c ∈ calls, rv64GetVPN2 h c.virtual ≠ rv64GetVPN2 h va) →
      srvHalWalkPageTable h (runCalls root m calls).mem root va = NULL) ∧
    (∀ before c after, calls = before ++ c :: after →
      rv64GetVPN2 h c.virtual = rv64GetVPN2 h va →
      (∀ d ∈ after, rv64GetVPN2 h d.virtual ≠ rv64GetVPN2 h va) →
      srvHalWalkPageTable h (runCalls root m calls).mem root va =
          entryAddress root (rv64GetVPN2 h va) ∧
        srvHalIsPTEValid ((runCalls root m calls).mem (entryAddress root (rv64GetVPN2 h va))) ∧
        srvHalIsPTELeaf ((runCalls root m calls).mem (entryAddress root (rv64GetVPN2 h va))) ∧
        (rv64PTEToPhysAddr
          ((runCalls root m calls).mem (entryAddress root (rv64GetVPN2 h va)))).toNat =
            c.physical.toNat / 2 ^ 30 * 2 ^ 30) ∧
    (∀ (m' : Machine) (c : MapCall) (index : BitVec 64), index.toNat < 512 →
      index ≠ rv64GetVPN2 h c.virtual →
      (c.run root m').mem (entryAddress root index) = m'.mem (entryAddress root index)) := by
  have hvpn : ∀ a, rv64GetVPN2 h a = rootIndex a := fun a => by
    simp [rv64GetVPN2, rootIndex, hh.vpn2Bitp, hh.vpnMask]
  have hrep : Represents root (runCalls root m calls) calls :=
    represents_runCalls fun index hindex => by simpa [lastCall] using hzero index hindex
  simp only [hvpn]
  refine ⟨fun hnone => ?_, fun before c after hcalls hc hafter => ?_, fun m' c index hindex hne => ?_⟩
  · rw [hrep.walk hh, lastCall_eq_none.mpr hnone]
    rfl
  · have hlast : lastCall calls (rootIndex va) = some c := hcalls ▸ lastCall_of_split hc hafter
    have hentry := hrep (rootIndex va) (rootIndex_lt va)
    rw [hlast] at hentry
    have hphys := hphysical c (mem_of_lastCall hlast)
    refine ⟨by simp [hrep.walk hh, hlast], ?_, ?_, ?_⟩ <;> rw [hentry]
    · exact gigapage_valid _
    · exact gigapage_leaf _
    · exact gigapage_physAddr hphys
  · rw [mapCall_entry root m' c hindex, if_neg hne]

def sv39Header : Rv64VmHeader := ⟨30, 21, 12, 0x1FF#64, 3⟩

def startCalls : List MapCall :=
  [⟨0x80200000#64, 0x80200000#64⟩, ⟨0x80200000#64, 0xFFFFFFFF80200000#64⟩]

/-- After the calls of `_start` the kernel's virtual base is mapped to the base of RAM. -/
theorem boot_mapper_and_walker_agree_at_start :
    let m := runCalls 0x80201000#64 ⟨fun _ => 0#64, fun _ => 0#64, fun _ => 0#64⟩ startCalls
    srvHalWalkPageTable sv39Header m.mem 0x80201000#64 0xFFFFFFFF80300000#64 =
        entryAddress 0x80201000#64 510#64 ∧
      (rv64PTEToPhysAddr (m.mem (entryAddress 0x80201000#64 510#64))).toNat = 0x80000000 := by
  have h := (boot_mapper_and_walker_agree (h := sv39Header) ⟨rfl, rfl, rfl, rfl, rfl⟩ 0x80201000#64
    ⟨fun _ => 0#64, fun _ => 0#64, fun _ => 0#64⟩ (fun _ _ => rfl) startCalls (by decide)
    0xFFFFFFFF80300000#64).2.1 [⟨0x80200000#64, 0x80200000#64⟩]
    ⟨0x80200000#64, 0xFFFFFFFF80200000#64⟩ [] rfl (by decide) (by simp)
  exact ⟨h.1, h.2.2.2⟩

end SysRv.BootMap
