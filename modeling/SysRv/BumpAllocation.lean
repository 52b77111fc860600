import Mathlib.Algebra.Order.Floor.Div
import Mathlib.Order.CompletePartialOrder
import Mathlib.Order.Interval.Set.Basic
import Mathlib.Data.Set.Lattice
import Mathlib.Tactic.Linarith

/-!
# Bump allocation on the natural numbers

The abstract picture of an allocator that never frees: a pointer moves up from `lo`, and
every block is cut off at the pointer. `Carved lo cur bs` says that the blocks `bs`, newest
first, were cut in this way and that the pointer now stands at `cur`. Gaps are allowed, so
the pointer may be moved up for alignment. Blocks cut in this way lie between `lo` and the
pointer and are pairwise disjoint.

An aligned block starts at the least multiple of the alignment that the pointer has not
passed, `alignUp`. Adding the residue, which rounds up residues 0 and half the alignment,
misses every multiple otherwise.
-/

namespace SysRv.BumpAllocation

/-- A half-open range of `size` bytes from `addr` on. -/
structure Block where
  addr : ℕ
  size : ℕ
  deriving DecidableEq, Repr

def Block.bytes (b : Block) : Set ℕ := Set.Ico b.addr (b.addr + b.size)

/-- The block lies between the two bounds. An empty block has its address there. -/
def Block.Within (lo hi : ℕ) (b : Block) : Prop := lo ≤ b.addr ∧ b.addr + b.size ≤ hi

instance (lo hi : ℕ) (b : Block) : Decidable (b.Within lo hi) :=
  inferInstanceAs (Decidable (_ ∧ _))

inductive Carved (lo : ℕ) : ℕ → List Block → Prop where
  | start : Carved lo lo []
  | skip {cur cur' bs} (tail : Carved lo cur bs) (h : cur ≤ cur') : Carved lo cur' bs
  | cut {cur bs} (tail : Carved lo cur bs) (size : ℕ) :
      Carved lo (cur + size) (⟨cur, size⟩ :: bs)

namespace Carved

variable {lo cur : ℕ} {bs : List Block}

theorem lo_le (h : Carved lo cur bs) : lo ≤ cur := by
  induction h with
  | start => exact le_rfl
  | skip _ hle ih => exact ih.trans hle
  | cut _ size ih => exact ih.trans (Nat.le_add_right _ size)

theorem within (h : Carved lo cur bs) : ∀ b ∈ bs, b.Within lo cur := by
  induction h with
  | start => simp
  | skip _ hle ih => exact fun b hb => ⟨(ih b hb).1, (ih b hb).2.trans hle⟩
  | cut tail size ih =>
    intro b hb
    rcases List.mem_cons.mp hb with rfl | hb
    · exact ⟨tail.lo_le, le_rfl⟩
    · exact ⟨(ih b hb).1, (ih b hb).2.trans (Nat.le_add_right _ size)⟩

/-- A new block starts where all older ones have ended. -/
theorem disjoint (h : Carved lo cur bs) :
    bs.Pairwise (fun b c => Disjoint b.bytes c.bytes) := by
  induction h with
  | start => exact .nil
  | skip _ _ ih => exact ih
  | cut tail size ih =>
    refine List.pairwise_cons.mpr ⟨fun c hc => ?_, ih⟩
    have hend : c.addr + c.size ≤ _ := (tail.within c hc).2
    apply Set.disjoint_left.mpr
    intro x hx hxc
    simp only [Block.bytes, Set.mem_Ico] at hx hxc
    omega

end Carved

def alignUp (a n : ℕ) : ℕ := a * (n ⌈/⌉ a)

section Alignment

variable {a n : ℕ}

theorem alignUp_isLeast (ha : 0 < a) : IsLeast {m | a ∣ m ∧ n ≤ m} (alignUp a n) := by
  refine ⟨⟨Dvd.intro _ rfl, le_smul_ceilDiv ha⟩, ?_⟩
  rintro m ⟨⟨c, rfl⟩, hle⟩
  exact Nat.mul_le_mul_left a ((ceilDiv_le_iff_le_smul ha).mpr hle)

theorem alignUp_of_dvd (ha : 0 < a) (h : a ∣ n) : alignUp a n = n :=
  le_antisymm ((alignUp_isLeast ha).2 ⟨h, le_rfl⟩) (alignUp_isLeast ha).1.2

/-- A pointer between two multiples goes up to the second. -/
theorem alignUp_of_not_dvd (ha : 0 < a) (h : ¬ a ∣ n) : alignUp a n = n + (a - n % a) := by
  have hlt := Nat.mod_lt n ha
  have hdiv := Nat.div_add_mod n a
  have hnext : n + (a - n % a) = a * (n / a + 1) := by
    rw [Nat.mul_succ]
    omega
  rw [hnext]
  refine le_antisymm ((alignUp_isLeast ha).2 ⟨Dvd.intro _ rfl, by omega⟩) ?_
  refine Nat.mul_le_mul_left a (Nat.succ_le_of_lt ?_)
  by_contra hle
  have hn : n ≤ a * (n / a) :=
    (le_smul_ceilDiv ha).trans (Nat.mul_le_mul_left a (not_lt.mp hle))
  exact h ⟨n / a, by omega⟩

/-- Adding the residue reaches the next multiple from residue 0 and from half way only. -/
theorem add_mod_eq_alignUp_iff (ha : 0 < a) :
    n + n % a = alignUp a n ↔ n % a = 0 ∨ 2 * (n % a) = a := by
  have hlt := Nat.mod_lt n ha
  by_cases h : a ∣ n
  · have hzero := Nat.mod_eq_zero_of_dvd h
    simp [alignUp_of_dvd ha h, hzero]
  · have hne : n % a ≠ 0 := fun hz => h (Nat.dvd_of_mod_eq_zero hz)
    rw [alignUp_of_not_dvd ha h]
    omega

end Alignment

end SysRv.BumpAllocation
