import Mathlib.Data.Finset.Card
import Mathlib.Data.Finset.Range
import Mathlib.Logic.Function.Basic
import Mathlib.Tactic.Linarith

/-!
# Bitmaps stored in machine words

An unbounded array of `w`-bit words is read as a set of natural numbers: number `b` is the
bit at position `b % w` of word `b / w`. Setting and clearing one bit by a mask changes
membership of that number only, a word is all ones (all zeros) exactly when its `w` numbers
are all in (out), and the trailing ones of a word locate its first absent number. The
number of absent elements below a bound moves by one with every change of membership.
-/

namespace SysRv.WordBitmaps

/-- Words of width `w`, indexed from the start of the array. -/
abbrev Bitmap (w : ℕ) := ℕ → BitVec w

variable {w : ℕ}

def bit (f : Bitmap w) (b : ℕ) : Bool := (f (b / w)).getLsbD (b % w)

def setBit (f : Bitmap w) (b : ℕ) : Bitmap w :=
  Function.update f (b / w) (f (b / w) ||| 1#w <<< (b % w))

def unsetBit (f : Bitmap w) (b : ℕ) : Bitmap w :=
  Function.update f (b / w) (f (b / w) &&& ~~~(1#w <<< (b % w)))

theorem div_mod_eq_iff (b c : ℕ) : (b / w = c / w ∧ b % w = c % w) ↔ b = c := by
  constructor
  · rintro ⟨hd, hm⟩
    rw [← Nat.div_add_mod b w, hd, hm, Nat.div_add_mod]
  · rintro rfl
    exact ⟨rfl, rfl⟩

theorem getLsbD_mask [NeZero w] (b c : ℕ) :
    (1#w <<< (b % w)).getLsbD (c % w) = decide (b % w = c % w) := by
  have hw : 0 < w := Nat.pos_of_ne_zero (NeZero.ne w)
  have hb := Nat.mod_lt b hw
  have hc := Nat.mod_lt c hw
  simp only [BitVec.getLsbD_shiftLeft, BitVec.getLsbD_one]
  by_cases h : b % w = c % w
  · simp [h, hc, hw]
  · by_cases hlt : c % w < b % w
    · simp [hlt, h]
    · have hne : c % w - b % w ≠ 0 := by omega
      simp [hne, h]

theorem bit_setBit [NeZero w] (f : Bitmap w) (b c : ℕ) :
    bit (setBit f b) c = (decide (c = b) || bit f c) := by
  unfold bit setBit
  by_cases hword : c / w = b / w
  · have hiff : b % w = c % w ↔ c = b := by
      rw [← div_mod_eq_iff (w := w) c b]
      exact ⟨fun h => ⟨hword, h.symm⟩, fun h => h.2.symm⟩
    rw [hword, Function.update_self, BitVec.getLsbD_or, getLsbD_mask, Bool.or_comm]
    simp [hiff]
  · have hne : c ≠ b := fun h => hword (h ▸ rfl)
    rw [Function.update_of_ne hword]
    simp [hne]

theorem bit_unsetBit [NeZero w] (f : Bitmap w) (b c : ℕ) :
    bit (unsetBit f b) c = (!decide (c = b) && bit f c) := by
  have hw : 0 < w := Nat.pos_of_ne_zero (NeZero.ne w)
  unfold bit unsetBit
  by_cases hword : c / w = b / w
  · have hiff : b % w = c % w ↔ c = b := by
      rw [← div_mod_eq_iff (w := w) c b]
      exact ⟨fun h => ⟨hword, h.symm⟩, fun h => h.2.symm⟩
    rw [hword, Function.update_self, BitVec.getLsbD_and, BitVec.getLsbD_not, getLsbD_mask,
      Bool.and_comm]
    simp [hiff, Nat.mod_lt c hw]
  · have hne : c ≠ b := fun h => hword (h ▸ rfl)
    rw [Function.update_of_ne hword]
    simp [hne]

theorem mask_and_ne_zero_iff [NeZero w] (f : Bitmap w) (b : ℕ) :
    1#w <<< (b % w) &&& f (b / w) ≠ 0#w ↔ bit f b = true := by
  have hb := Nat.mod_lt b (Nat.pos_of_ne_zero (NeZero.ne w))
  have hmask : 1#w <<< (b % w) ≠ 0#w := by
    intro h
    have hself := getLsbD_mask (w := w) b b
    rw [h] at hself
    simp at hself
  rw [← BitVec.twoPow_eq] at hmask ⊢
  rw [BitVec.twoPow_and, bit]
  cases hbit : (f (b / w)).getLsbD (b % w) with
  | true => simpa using hmask
  | false => simp

/-- Setting a bit never clears another. -/
theorem bit_setBit_of_bit [NeZero w] {f : Bitmap w} {c : ℕ} (b : ℕ) (h : bit f c = true) :
    bit (setBit f b) c = true := by
  simp [bit_setBit, h]

/-- Two bitmaps with the same members have the same words. -/
theorem ext_bit [NeZero w] {f g : Bitmap w} (h : ∀ b, bit f b = bit g b) : f = g := by
  have hw : 0 < w := Nat.pos_of_ne_zero (NeZero.ne w)
  funext i
  apply BitVec.eq_of_getLsbD_eq
  intro k hk
  have hb := h (w * i + k)
  simpa [bit, Nat.mul_add_div hw, Nat.div_eq_of_lt hk, Nat.mod_eq_of_lt hk] using hb

theorem setBit_of_bit [NeZero w] {f : Bitmap w} {b : ℕ} (h : bit f b = true) :
    setBit f b = f := by
  apply ext_bit
  intro c
  rw [bit_setBit]
  by_cases hc : c = b
  · subst hc
    simp [h]
  · simp [hc]

/-- Clearing a bit undoes setting it, where it was clear before. -/
theorem unsetBit_setBit [NeZero w] {f : Bitmap w} {b : ℕ} (h : bit f b = false) :
    unsetBit (setBit f b) b = f := by
  apply ext_bit
  intro c
  rw [bit_unsetBit, bit_setBit]
  by_cases hc : c = b
  · subst hc
    simp [h]
  · simp [hc]

/-- Clearing a bit that is clear changes no word. -/
theorem unsetBit_of_not_bit [NeZero w] {f : Bitmap w} {b : ℕ} (h : bit f b = false) :
    unsetBit f b = f := by
  apply ext_bit
  intro c
  rw [bit_unsetBit]
  by_cases hc : c = b
  · subst hc
    simp [h]
  · simp [hc]

section Words

variable [NeZero w] (f : Bitmap w)

theorem bit_mul_add (i : ℕ) {k : ℕ} (hk : k < w) : bit f (w * i + k) = (f i).getLsbD k := by
  have hw : 0 < w := Nat.pos_of_ne_zero (NeZero.ne w)
  simp [bit, Nat.mul_add_div hw, Nat.div_eq_of_lt hk, Nat.mod_eq_of_lt hk]

theorem word_eq_zero_iff (i : ℕ) : f i = 0#w ↔ ∀ k < w, bit f (w * i + k) = false := by
  constructor
  · intro h k hk
    simp [bit_mul_add f i hk, h]
  · intro h
    apply BitVec.eq_of_getLsbD_eq
    intro k hk
    simpa [bit_mul_add f i hk] using h k hk

theorem word_eq_allOnes_iff (i : ℕ) :
    f i = BitVec.allOnes w ↔ ∀ k < w, bit f (w * i + k) = true := by
  constructor
  · intro h k hk
    simp [bit_mul_add f i hk, h, hk]
  · intro h
    apply BitVec.eq_of_getLsbD_eq
    intro k hk
    simpa [bit_mul_add f i hk, hk] using h k hk

/-- The trailing-zero count of the complement is the position of the first absent number
of a word that is not full. -/
theorem ctz_not_spec (i : ℕ) (h : f i ≠ BitVec.allOnes w) :
    (~~~(f i)).ctz.toNat < w ∧ bit f (w * i + (~~~(f i)).ctz.toNat) = false ∧
      ∀ k < (~~~(f i)).ctz.toNat, bit f (w * i + k) = true := by
  have hne : ~~~(f i) ≠ 0#w := by
    intro h0
    apply h
    rw [← BitVec.not_not (b := f i), h0, BitVec.not_zero]
  have hlt : (~~~(f i)).ctz.toNat < w := by
    have h1 := BitVec.ctz_lt_iff_ne_zero.mpr hne
    have h2 : (BitVec.ofNat w w).toNat = w := by
      rw [BitVec.toNat_ofNat]
      exact Nat.mod_eq_of_lt Nat.lt_two_pow_self
    rw [BitVec.lt_def] at h1
    simpa [h2] using h1
  refine ⟨hlt, ?_, ?_⟩
  · have h1 := BitVec.getLsbD_true_ctz_of_ne_zero hne
    rw [bit_mul_add f i hlt]
    simpa [hlt] using h1
  · intro k hk
    have h1 := BitVec.getLsbD_false_of_lt_ctz hk
    have hkw : k < w := by omega
    rw [bit_mul_add f i hkw]
    simpa [hkw] using h1

end Words

def setBits : ℕ → ℕ → Bitmap w → Bitmap w
  | 0, _, f => f
  | n + 1, b, f => setBits n (b + 1) (setBit f b)

theorem bit_setBits [NeZero w] (n b c : ℕ) (f : Bitmap w) :
    bit (setBits n b f) c = (decide (b ≤ c ∧ c < b + n) || bit f c) := by
  induction n generalizing b f with
  | zero =>
    simp [setBits]
  | succ n ih =>
    rw [setBits, ih, bit_setBit, ← Bool.or_assoc, ← Bool.decide_or]
    congr 1
    apply decide_eq_decide.mpr
    omega

/-- How many numbers below `n` are absent. -/
def clearCount (f : Bitmap w) (n : ℕ) : ℕ := ((Finset.range n).filter (fun b => bit f b = false)).card

theorem clearCount_pos_iff (f : Bitmap w) (n : ℕ) :
    0 < clearCount f n ↔ ∃ b < n, bit f b = false := by
  simp [clearCount, Finset.card_pos, Finset.Nonempty, Finset.mem_filter]

theorem clearCount_le (f : Bitmap w) (n : ℕ) : clearCount f n ≤ n := by
  have h := Finset.card_filter_le (Finset.range n) (fun b => bit f b = false)
  rwa [Finset.card_range] at h

theorem clearCount_of_zero [NeZero w] {f : Bitmap w} {n : ℕ} (h : ∀ b < n, bit f b = false) :
    clearCount f n = n := by
  unfold clearCount
  rw [Finset.filter_true_of_mem (fun b hb => h b (Finset.mem_range.mp hb)), Finset.card_range]

/-- Setting an absent number below the bound removes one from the count. -/
theorem clearCount_setBit [NeZero w] {f : Bitmap w} {b n : ℕ} (hb : b < n)
    (hclear : bit f b = false) : clearCount (setBit f b) n + 1 = clearCount f n := by
  have hset : (Finset.range n).filter (fun c => bit (setBit f b) c = false) =
      ((Finset.range n).filter (fun c => bit f c = false)).erase b := by
    ext c
    simp only [Finset.mem_filter, Finset.mem_range, Finset.mem_erase, bit_setBit,
      Bool.or_eq_false_iff, decide_eq_false_iff_not]
    tauto
  have hmem : b ∈ (Finset.range n).filter (fun c => bit f c = false) := by
    simp [hb, hclear]
  unfold clearCount
  rw [hset, Finset.card_erase_add_one hmem]

/-- Clearing a present number below the bound adds one to the count. -/
theorem clearCount_unsetBit [NeZero w] {f : Bitmap w} {b n : ℕ} (hb : b < n)
    (hset : bit f b = true) : clearCount (unsetBit f b) n = clearCount f n + 1 := by
  have hins : (Finset.range n).filter (fun c => bit (unsetBit f b) c = false) =
      insert b ((Finset.range n).filter (fun c => bit f c = false)) := by
    ext c
    simp only [Finset.mem_filter, Finset.mem_range, Finset.mem_insert, bit_unsetBit,
      Bool.and_eq_false_iff, Bool.not_eq_false', decide_eq_true_eq]
    constructor
    · tauto
    · rintro (rfl | h)
      · exact ⟨hb, Or.inl rfl⟩
      · tauto
  have hnot : b ∉ (Finset.range n).filter (fun c => bit f c = false) := by
    simp [hset]
  unfold clearCount
  rw [hins, Finset.card_insert_of_notMem hnot]

/-- A change that only adds members, one of them new below the bound, lowers the count. -/
theorem clearCount_lt {f g : Bitmap w} {b n : ℕ} (hmono : ∀ c, bit f c = true → bit g c = true)
    (hb : b < n) (hf : bit f b = false) (hg : bit g b = true) : clearCount g n < clearCount f n := by
  apply Finset.card_lt_card
  refine ⟨fun c hc => ?_, fun hsub => ?_⟩
  · simp only [Finset.mem_filter] at hc ⊢
    refine ⟨hc.1, ?_⟩
    cases h : bit f c with
    | false => rfl
    | true => rw [hmono c h] at hc; simp at hc
  · have hmem := hsub (show b ∈ (Finset.range n).filter (fun c => bit f c = false) by simp [hb, hf])
    simp [hg] at hmem

end SysRv.WordBitmaps
