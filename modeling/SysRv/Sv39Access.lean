import SysRv.Rv64Harts
import SysRv.Sv39Faults

/-!
# Accesses under Sv39

Address translation of supervisor accesses with the parts that the walker leaves out: the
physical address behind a leaf, the permission, and the bits A and D. A platform either sets
A and D itself or faults where they are clear; which of the two is a parameter.
-/

namespace SysRv.Sv39
open Function Rv64

section Flags

variable (pte : PageTableEntry)

def flagU : Bool := pte.getLsbD 4

def rv64PteAccessed : BitVec 64 := 1#64 <<< 6
def rv64PteDirty : BitVec 64 := 1#64 <<< 7

/-- A supervisor access that the entry permits, with `SUM` and `MXR` clear. -/
def permits : Access → Bool
  | .fetch => flagX pte && !flagU pte
  | .load => flagR pte && !flagU pte
  | .store => flagW pte && !flagU pte

end Flags

/-- The bits of a leaf that an access sets. -/
def marks : Access → BitVec 64
  | .fetch | .load => rv64PteAccessed
  | .store => rv64PteAccessed ||| rv64PteDirty

/-- The physical address that a leaf of a level gives to an address. -/
def physical (pte : PageTableEntry) (level : ℕ) (va : Addr) : Addr :=
  BitVec.ofNat 64 (4096 * ppn pte + va.toNat % 2 ^ (12 + 9 * level))

def satpMode (satp : Word) : ℕ := satp.toNat / 2 ^ 60

def satpRoot (satp : Word) : Addr := BitVec.ofNat 64 (4096 * (satp.toNat % 2 ^ 44))

/-- Modes 0 (no translation) and 8 (Sv39). A write of another mode has no effect. Translation is
that of `leaf`, so it does not fault on the reserved bits of an entry. -/
def mmu (updates : Bool) : Mmu where
  accepts satp := satpMode satp = 0 || satpMode satp = 8
  translate satp k mem va :=
    if satpMode satp = 0 then some (va, mem)
    else
      match leaf mem (satpRoot satp) va with
      | none => none
      | some (level, p) =>
        if permits (mem p) k && (updates || mem p &&& marks k = marks k) then
          some (physical (mem p) level va, update mem p (mem p ||| marks k))
        else none

section Leaf

variable {mem : Addr → PageTableEntry} {root va : Addr}

theorem leaf_root (hcan : Canonical va) {p : Addr} (hp : p = pteAddress root (vpnField va 2))
    (hvalid : flagV (mem p) = true) (hread : flagR (mem p) = true) (haligned : AlignedLeaf (mem p) 2) :
    leaf mem root va = some (2, p) := by
  subst hp
  have hres : ¬ ReservedEncoding (mem (pteAddress root (vpnField va 2))) := by
    rintro ⟨-, hno⟩
    rw [hread] at hno
    cases hno
  simp only [leaf, if_pos hcan, leafLevels, hvalid, Bool.true_eq_false, false_or, if_neg hres, hread,
    true_or, if_true, if_pos haligned]

theorem leaf_none (hinvalid : flagV (mem (pteAddress root (vpnField va 2))) = false) :
    leaf mem root va = none := by
  simp [leaf, leafLevels, hinvalid]

/-- The canonical addresses are the lowest and the highest 256 GiB. -/
theorem canonical_iff (va : Addr) : Canonical va ↔ va.toNat < 2 ^ 38 ∨ 2 ^ 64 - 2 ^ 38 ≤ va.toNat := by
  have hlow : ∀ x : Addr, x.toNat < 2 ^ 38 ↔ ∀ k, 38 ≤ k → k < 64 → x.getLsbD k = false := by
    intro x
    constructor
    · intro hlt k hk _
      exact Nat.testBit_lt_two_pow (Nat.lt_of_lt_of_le hlt (Nat.pow_le_pow_right (by decide) hk))
    · intro hbits
      refine Nat.lt_pow_two_of_testBit _ fun k hk => ?_
      by_cases hlt : k < 64
      · exact hbits k hk hlt
      · exact BitVec.getLsbD_of_ge x k (by omega)
  have hhigh : 2 ^ 64 - 2 ^ 38 ≤ va.toNat ↔ ∀ k, 38 ≤ k → k < 64 → va.getLsbD k = true := by
    have hcompl := hlow (~~~ va)
    have hlt := va.isLt
    rw [BitVec.toNat_not] at hcompl
    have hiff : 2 ^ 64 - 2 ^ 38 ≤ va.toNat ↔ 2 ^ 64 - 1 - va.toNat < 2 ^ 38 := by omega
    rw [hiff, hcompl]
    refine forall_congr' fun k => forall_congr' fun _ => forall_congr' fun hk => ?_
    simp [hk]
  rw [hlow, hhigh]
  constructor
  · intro hcan
    cases hbit : va.getLsbD 38 with
    | false => exact .inl fun k hk hlt => (hcan k hk hlt).trans hbit
    | true => exact .inr fun k hk hlt => (hcan k hk hlt).trans hbit
  · rintro (hall | hall) k hk hlt <;> rw [hall k hk hlt, hall 38 (by decide) (by decide)]

theorem mmu_bare (updates : Bool) {satp : Word} (h : satpMode satp = 0) : (mmu updates).Bare satp :=
  fun _ _ _ => if_pos h

end Leaf

end SysRv.Sv39
