import Mathlib.Data.Nat.Digits.Lemmas

/-!
# Canonical numerals

The digits of a natural number in a base, most significant first and one digit for zero, and
the number that a list of digits stands for. A canonical numeral has no leading zero, is read
back to its number, and its digits are quotients by the powers of the base.
-/

namespace SysRv.Numerals

def lastFirst (b n : ℕ) : List ℕ := if n = 0 then [0] else Nat.digits b n

def numeral (b n : ℕ) : List ℕ := (lastFirst b n).reverse

/-- The number that digits stand for, the most significant first. -/
def value (b : ℕ) (ds : List ℕ) : ℕ := ds.foldl (fun v d => b * v + d) 0

variable {b n : ℕ}

theorem value_eq_ofDigits (b : ℕ) (ds : List ℕ) : value b ds = Nat.ofDigits b ds.reverse := by
  induction ds using List.reverseRecOn with
  | nil => rfl
  | append_singleton ds d ih =>
    have hstep : value b (ds ++ [d]) = b * value b ds + d := by simp [value]
    rw [hstep, ih, List.reverse_append, List.reverse_singleton, List.singleton_append,
      Nat.ofDigits_cons, Nat.add_comm]

theorem value_numeral (b n : ℕ) : value b (numeral b n) = n := by
  rw [value_eq_ofDigits, numeral, List.reverse_reverse, lastFirst]
  split
  · rename_i hn
    simp [hn]
  · exact Nat.ofDigits_digits b n

theorem lastFirst_eq_cons (hb : 1 < b) (n : ℕ) :
    lastFirst b n = n % b :: if n / b = 0 then [] else lastFirst b (n / b) := by
  by_cases hn : n = 0
  · simp [hn, lastFirst]
  · rw [lastFirst, if_neg hn, Nat.digits_eq_cons_digits_div hb hn]
    by_cases hdiv : n / b = 0
    · rw [if_pos hdiv, hdiv, Nat.digits_zero]
    · rw [if_neg hdiv, lastFirst, if_neg hdiv]

theorem lastFirst_lt (hb : 1 < b) : ∀ d ∈ lastFirst b n, d < b := by
  intro d hd
  rw [lastFirst] at hd
  split at hd
  · rw [List.mem_singleton.mp hd]
    exact Nat.zero_lt_of_lt hb
  · exact Nat.digits_lt_base hb hd

theorem numeral_lt (hb : 1 < b) : ∀ d ∈ numeral b n, d < b :=
  fun d hd => lastFirst_lt hb d (List.mem_reverse.mp hd)

theorem numeral_length : (numeral b n).length = (lastFirst b n).length := List.length_reverse

theorem lastFirst_length_of_ne (hn : n ≠ 0) : (lastFirst b n).length = (Nat.digits b n).length := by
  rw [lastFirst, if_neg hn]

/-- A number below a power of the base has no more digits than the exponent. -/
theorem numeral_length_le {k : ℕ} (hb : 1 < b) (hk : 0 < k) (hn : n < b ^ k) :
    (numeral b n).length ≤ k := by
  rw [numeral_length, lastFirst]
  split
  · exact hk
  · exact (Nat.digits_length_le_iff hb n).mpr hn

theorem numeral_head?_ne_zero (hn : n ≠ 0) : (numeral b n).head? ≠ some 0 := by
  rw [numeral, List.head?_reverse, lastFirst, if_neg hn]
  intro hlast
  have hne : Nat.digits b n ≠ [] := Nat.digits_ne_nil_iff_ne_zero.mpr hn
  rw [List.getLast?_eq_some_getLast hne, Option.some.injEq] at hlast
  exact Nat.getLast_digit_ne_zero b hn hlast

theorem lastFirst_eq_map (hb : 1 < b) (n : ℕ) :
    lastFirst b n = (List.range (lastFirst b n).length).map fun i => n / b ^ i % b := by
  apply List.ext_getElem
  · simp
  · intro i hi hi'
    rw [List.getElem_map, List.getElem_range, ← Nat.getD_digits n i hb]
    by_cases hn : n = 0
    · have hzero : i = 0 := by
        simp only [lastFirst, hn, if_true, List.length_singleton] at hi
        omega
      simp [lastFirst, hn, hzero]
    · simp only [lastFirst, if_neg hn] at hi ⊢
      rw [List.getD_eq_getElem?_getD, List.getElem?_eq_getElem hi, Option.getD_some]

/-- The digits as quotients, the most significant first. -/
theorem numeral_eq_map (hb : 1 < b) (n : ℕ) :
    numeral b n = (List.range (numeral b n).length).reverse.map fun i => n / b ^ i % b := by
  rw [List.map_reverse, numeral_length, ← lastFirst_eq_map hb n, numeral]

end SysRv.Numerals
