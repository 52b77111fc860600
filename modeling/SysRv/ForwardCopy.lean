import Mathlib.Data.BitVec
import Mathlib.Logic.Function.Basic

/-!
# Copies in ascending order

A copy of cells one after the other, each read as the copy has left the memory so far. What
is in the target afterwards does not depend on the order in which one thinks of the writes:
cell `i` holds what cell `i % d` of the source held, `d` being the distance from the source
up to the target in the address space. So the copy is plain unless the target begins inside
the source, and where it does, the first `d` cells are repeated.
-/

namespace SysRv.ForwardCopy

open Function

universe u

variable {w : ℕ} {V : Type u}

/-- The memory after `n` cells. -/
def forwardCopy (mem : BitVec w → V) (dst src : BitVec w) : ℕ → BitVec w → V
  | 0 => mem
  | n + 1 => update (forwardCopy mem dst src n) (dst + BitVec.ofNat w n)
      (forwardCopy mem dst src n (src + BitVec.ofNat w n))

/-- The distance from the source up to the target. -/
def distance (dst src : BitVec w) : ℕ := (dst - src).toNat

section Offsets

variable (a b : BitVec w)

theorem add_ofNat_sub : b + BitVec.ofNat w (a - b).toNat = a := by
  rw [BitVec.ofNat_toNat, BitVec.setWidth_eq, BitVec.add_comm, BitVec.sub_add_cancel]

theorem add_ofNat_sub_self {i : ℕ} (hi : i < 2 ^ w) : (b + BitVec.ofNat w i - b).toNat = i := by
  rw [BitVec.add_comm, BitVec.add_sub_cancel, BitVec.toNat_ofNat, Nat.mod_eq_of_lt hi]

theorem source_sub_target (dst src : BitVec w) {i : ℕ} (hi : i < 2 ^ w) :
    (src + BitVec.ofNat w i - dst).toNat =
      if distance dst src ≤ i then i - distance dst src else i + 2 ^ w - distance dst src := by
  have hd : distance dst src < 2 ^ w := (dst - src).isLt
  have hsplit : src + BitVec.ofNat w i - dst = BitVec.ofNat w i - (dst - src) := by
    simp only [BitVec.sub_eq_add_neg, BitVec.neg_add, BitVec.neg_neg]
    ac_rfl
  rw [hsplit, BitVec.toNat_sub, BitVec.toNat_ofNat, Nat.mod_eq_of_lt hi]
  change (2 ^ w - distance dst src + i) % 2 ^ w = _
  split
  · rename_i hle
    have hsum : 2 ^ w - distance dst src + i = 2 ^ w + (i - distance dst src) := by omega
    rw [hsum, Nat.add_mod_left, Nat.mod_eq_of_lt (by omega)]
  · rw [Nat.mod_eq_of_lt (by omega)]
    omega

end Offsets

section Copy

variable {mem : BitVec w → V} {dst src : BitVec w} {n : ℕ}

theorem forwardCopy_apply (hn : n ≤ 2 ^ w) (a : BitVec w) : forwardCopy mem dst src n a =
    if (a - dst).toNat < n then
      mem (src + BitVec.ofNat w ((a - dst).toNat % distance dst src))
    else mem a := by
  induction n generalizing a with
  | zero => rfl
  | succ n ih =>
    have hlt : n < 2 ^ w := hn
    have hd : distance dst src < 2 ^ w := (dst - src).isLt
    rw [forwardCopy, update_apply]
    by_cases ha : a = dst + BitVec.ofNat w n
    · -- the cell that is written now, from one that may have been written before
      have hoffset : (a - dst).toNat = n := by rw [ha, add_ofNat_sub_self dst hlt]
      rw [if_pos ha, if_pos (by omega), ih (Nat.le_of_lt hlt), source_sub_target dst src hlt, hoffset]
      by_cases hle : distance dst src ≤ n
      · rw [if_pos hle]
        by_cases hzero : distance dst src = 0
        · simp [hzero]
        · rw [if_pos (by omega), Nat.mod_eq_sub_mod hle]
      · rw [if_neg hle, if_neg (by omega), Nat.mod_eq_of_lt (by omega)]
    · have hne : (a - dst).toNat ≠ n := fun h => ha (by rw [← h, add_ofNat_sub])
      have hiff : (a - dst).toNat < n + 1 ↔ (a - dst).toNat < n := by omega
      rw [if_neg ha, ih (Nat.le_of_lt hlt)]
      simp only [hiff]

theorem forwardCopy_at (hn : n ≤ 2 ^ w) {i : ℕ} (hi : i < n) :
    forwardCopy mem dst src n (dst + BitVec.ofNat w i) =
      mem (src + BitVec.ofNat w (i % distance dst src)) := by
  have hoffset := add_ofNat_sub_self dst (Nat.lt_of_lt_of_le hi hn)
  rw [forwardCopy_apply hn, hoffset, if_pos hi]

/-- The source cell that is read for cell `n` of the target. -/
theorem forwardCopy_source (hn : n < 2 ^ w) : forwardCopy mem dst src n (src + BitVec.ofNat w n) =
    mem (src + BitVec.ofNat w (n % distance dst src)) := by
  have hwritten : forwardCopy mem dst src (n + 1) (dst + BitVec.ofNat w n) =
      mem (src + BitVec.ofNat w (n % distance dst src)) := forwardCopy_at hn (Nat.lt_succ_self n)
  rwa [forwardCopy, update_self] at hwritten

/-- A target that does not begin inside the source gets a plain copy of it. -/
theorem forwardCopy_plain (hn : n ≤ 2 ^ w) (hapart : distance dst src = 0 ∨ n ≤ distance dst src)
    {i : ℕ} (hi : i < n) :
    forwardCopy mem dst src n (dst + BitVec.ofNat w i) = mem (src + BitVec.ofNat w i) := by
  rw [forwardCopy_at hn hi]
  rcases hapart with hzero | hle
  · rw [hzero, Nat.mod_zero]
  · rw [Nat.mod_eq_of_lt (by omega)]

end Copy

end SysRv.ForwardCopy
