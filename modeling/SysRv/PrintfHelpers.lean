import SysRv.Numerals
import SysRv.PrintfScan

/-!
# The loops of the helpers

Every helper writes in a loop and keeps a count of its own: of the rounds, of the digits it has
divided off, or of the digits it is to write. Each loop has one invariant, which says what has
been written and what the count is then.
-/

namespace SysRv.Printf

open ByteMemory KString Numerals

theorem bind_ok_eq {ε α β : Type} {x : Except ε α} {a : α} (f : α → Except ε β) (h : x = .ok a) :
    x >>= f = f a := by
  rw [h]
  rfl

section Decimal

variable {w n number : ℕ} {text : List Byte} {num : BitVec w}

theorem decimalLoop_counts (n number : ℕ) (text : List Byte) (num : BitVec w) :
    ∃ written, (decimalLoop n number text num).1 = text ++ written ∧
      (decimalLoop n number text num).2 = num + BitVec.ofNat w written.length := by
  induction n generalizing number text num with
  | zero => exact ⟨[], by simp [decimalLoop]⟩
  | succ n ih =>
    rw [decimalLoop]
    by_cases hdiv : number / 10 = 0
    · rw [if_pos hdiv]
      exact ⟨[digit (number % 10)], rfl, rfl⟩
    · rw [if_neg hdiv]
      obtain ⟨written, htext, hnum⟩ :=
        ih (number / 10) (text ++ [digit (number % 10)]) (num + 1#w)
      refine ⟨digit (number % 10) :: written, ?_, ?_⟩
      · rw [htext, List.append_assoc, List.singleton_append]
      · rw [hnum, List.length_cons, Nat.add_comm, BitVec.ofNat_add, BitVec.add_assoc]

/-- The last digit is written first. -/
theorem decimalLoop_text (hn : 0 < n) (h : number < 10 ^ n) :
    (decimalLoop n number text num).1 = text ++ (lastFirst 10 number).map digit := by
  induction n generalizing number text num with
  | zero => exact absurd hn (Nat.lt_irrefl 0)
  | succ n ih =>
    rw [decimalLoop, lastFirst_eq_cons (by decide), List.map_cons]
    by_cases hdiv : number / 10 = 0
    · rw [if_pos hdiv, if_pos hdiv, List.map_nil]
    · have hlt : number / 10 < 10 ^ n := by
        rw [Nat.pow_succ] at h
        omega
      have hpos : 0 < n := by
        apply Nat.pos_of_ne_zero
        rintro rfl
        omega
      rw [if_neg hdiv, if_neg hdiv, ih hpos hlt, List.append_assoc, List.singleton_append]

end Decimal

section Strings

variable {mem : Memory} {p : Addr} {n i last : ℕ} {text : List Byte}

theorem stringLoop_counts (h : stringLoop mem p n i = .ok (text, last)) :
    last = i + text.length := by
  induction n generalizing i text with
  | zero => cases h
  | succ n ih =>
    obtain ⟨character, -, h⟩ := bind_eq_ok.mp h
    split at h
    · cases h
      rfl
    · obtain ⟨⟨text', last'⟩, hrest, h⟩ := bind_eq_ok.mp h
      cases h
      rw [ih hrest, List.length_cons]
      omega

theorem stringLoop_of_isString (h : IsString mem p text) (hi : i ≤ text.length)
    (hn : text.length - i < n) : stringLoop mem p n i = .ok (text.drop i, text.length) := by
  induction n generalizing i with
  | zero => omega
  | succ n ih =>
    rw [stringLoop, bind_ok_eq _ (readChar_of_isString h hi)]
    rcases Nat.lt_or_eq_of_le hi with hlt | rfl
    · have hdrop : text.drop i = text.getD i 0#8 :: text.drop (i + 1) := by
        rw [List.drop_eq_getElem_cons hlt, List.getD_eq_getElem?_getD, List.getElem?_eq_getElem hlt,
          Option.getD_some]
      rw [if_neg (h.getD_ne hlt), bind_ok_eq _ (ih (Nat.succ_le_of_lt hlt) (by omega)), hdrop]
      rfl
    · simp [pure, Except.pure]

theorem printfInternalString_of_isString (h : IsString mem p text) :
    printfInternalString mem p = .ok ⟨text, BitVec.ofNat 32 text.length⟩ := by
  rw [printfInternalString,
    bind_ok_eq _ (stringLoop_of_isString h (Nat.zero_le _) (by simpa using h.length_lt))]
  rfl

end Strings

section Hexadecimal

variable {w : ℕ} {number : BitVec w} {valueDigits : BitVec 32} {i : BitVec 64}

theorem valueDigitsLoop_eq {n : ℕ} (h : i.toNat < 16 ^ n) : valueDigitsLoop n i valueDigits =
    valueDigits + BitVec.ofNat 32 (Nat.digits 16 i.toNat).length := by
  induction n generalizing i valueDigits with
  | zero =>
    have hzero : i.toNat = 0 := by simpa using h
    simp [valueDigitsLoop, hzero]
  | succ n ih =>
    have hshift : (i >>> 4).toNat = i.toNat / 16 := by
      rw [BitVec.toNat_ushiftRight, Nat.shiftRight_eq_div_pow]
    rw [valueDigitsLoop]
    by_cases hpos : 0#64 < i
    · have hlt : (i >>> 4).toNat < 16 ^ n := by
        rw [hshift]
        rw [Nat.pow_succ] at h
        omega
      rw [if_pos hpos, ih hlt, hshift, Nat.digits_def' (by decide) hpos, List.length_cons,
        BitVec.add_assoc, Nat.add_comm, BitVec.ofNat_add]
    · have hzero : i.toNat = 0 := by
        rw [BitVec.lt_def] at hpos
        simpa using hpos
      rw [if_neg hpos]
      simp [hzero]

theorem hexLength_le (h : number.toNat < 2 ^ 64) : (numeral 16 number.toNat).length ≤ 16 :=
  numeral_length_le (by decide) (by decide) (Nat.lt_of_lt_of_eq h (by decide))

theorem valueDigits_toNat (i : BitVec 64) :
    (if valueDigitsLoop 16 i 0#32 = 0#32 then 1#32 else valueDigitsLoop 16 i 0#32).toNat =
      (numeral 16 i.toNat).length := by
  have hlt : i.toNat < 16 ^ 16 := Nat.lt_of_lt_of_eq i.isLt (by decide)
  have hle := hexLength_le i.isLt
  rw [valueDigitsLoop_eq hlt, BitVec.zero_add]
  rw [numeral_length] at hle ⊢
  by_cases hzero : i.toNat = 0
  · simp [hzero, lastFirst]
  · have hpos := List.length_pos_iff.mpr (Nat.digits_ne_nil_iff_ne_zero (b := 16).mpr hzero)
    rw [lastFirst_length_of_ne hzero] at hle ⊢
    have hmod : (Nat.digits 16 i.toNat).length % 2 ^ 32 = (Nat.digits 16 i.toNat).length :=
      Nat.mod_eq_of_lt (by omega)
    rw [if_neg, BitVec.toNat_ofNat, hmod]
    intro heq
    have hnat := congrArg BitVec.toNat heq
    rw [BitVec.toNat_ofNat, hmod, BitVec.toNat_ofNat] at hnat
    omega

theorem shift_and (n i : ℕ) : (n >>> (i * 4)) &&& 0xF = n / 16 ^ i % 16 := by
  have hpow : 2 ^ (i * 4) = 16 ^ i := by rw [Nat.mul_comm, Nat.pow_mul]
  calc (n >>> (i * 4)) &&& 0xF
      = (n >>> (i * 4)) % 2 ^ 4 := Nat.and_two_pow_sub_one_eq_mod _ 4
    _ = n / 16 ^ i % 16 := by rw [Nat.shiftRight_eq_div_pow, hpow]

/-- Below `value_digits` each round shifts, by less than the width. -/
theorem hexLoop_digits (hw : valueDigits.toNat * 4 ≤ w) {k : ℕ} (hk : k ≤ valueDigits.toNat) :
    hexLoop number valueDigits k =
      .ok ((List.range k).reverse.map fun i => digit (number.toNat / 16 ^ i % 16)) := by
  induction k with
  | zero => rfl
  | succ k ih =>
    have hshift : shiftRight number (k * 4) = .ok (number >>> (k * 4)) := if_pos (by omega)
    rw [hexLoop, if_neg (by omega), bind_ok_eq _ hshift, bind_ok_eq _ (ih (by omega)),
      BitVec.toNat_ushiftRight, shift_and, List.range_succ, List.reverse_append,
      List.reverse_singleton, List.singleton_append, List.map_cons]
    rfl

theorem hexLoop_padded (hdigits : valueDigits.toNat = (numeral 16 number.toNat).length)
    (hw : valueDigits.toNat * 4 ≤ w) (k : ℕ) :
    hexLoop number valueDigits (k + valueDigits.toNat) =
      .ok (List.replicate k (chr '0') ++ (numeral 16 number.toNat).map digit) := by
  induction k with
  | zero =>
    rw [Nat.zero_add, hexLoop_digits hw le_rfl, hdigits]
    conv_rhs => rw [numeral_eq_map (by decide) number.toNat]
    rw [List.map_map]
    rfl
  | succ k ih =>
    rw [Nat.add_right_comm, hexLoop, if_pos (Nat.le_add_left ..), bind_ok_eq _ ih]
    rfl

/-- What a hexadecimal helper is to write, and its length. A negative width pads nothing. -/
def hexOutput (number : ℕ) (zeroPadWidth : BitVec 32) : Printed :=
  let padding := zeroPadWidth.toInt.toNat - (numeral 16 number).length
  let text := List.replicate padding (chr '0') ++ (numeral 16 number).map digit
  ⟨text, BitVec.ofNat 32 text.length⟩

/-- The rounds of the loop and the count that is returned are `digits_to_print`. -/
theorem hexLoop_hexOutput (hdigits : valueDigits.toNat = (numeral 16 number.toNat).length)
    (hw : valueDigits.toNat * 4 ≤ w) (hle : valueDigits.toNat ≤ 16) (zeroPadWidth : BitVec 32) :
    hexLoop number valueDigits
        (if valueDigits.slt zeroPadWidth then zeroPadWidth else valueDigits).toNat =
      .ok (hexOutput number.toNat zeroPadWidth).text ∧
    (if valueDigits.slt zeroPadWidth then zeroPadWidth else valueDigits) =
      (hexOutput number.toNat zeroPadWidth).count := by
  have hint : valueDigits.toInt = valueDigits.toNat := BitVec.toInt_eq_toNat_of_lt (by omega)
  have hslt : valueDigits.slt zeroPadWidth = true ↔
      (valueDigits.toNat : ℤ) < zeroPadWidth.toInt := by
    rw [BitVec.slt, decide_eq_true_iff, hint]
  by_cases hpad : (valueDigits.toNat : ℤ) < zeroPadWidth.toInt
  · have hcast : zeroPadWidth.toInt = zeroPadWidth.toNat := toInt_of_nonneg (by omega)
    have hpadding : zeroPadWidth.toInt.toNat - valueDigits.toNat + valueDigits.toNat =
        zeroPadWidth.toNat := by omega
    rw [if_pos (hslt.mpr hpad)]
    constructor
    · have hrun := hexLoop_padded hdigits hw (zeroPadWidth.toInt.toNat - valueDigits.toNat)
      rw [hpadding] at hrun
      rw [hrun, hexOutput, hdigits]
    · rw [hexOutput, List.length_append, List.length_replicate, List.length_map, ← hdigits, hpadding,
        BitVec.ofNat_toNat, BitVec.setWidth_eq]
  · have hpadding : zeroPadWidth.toInt.toNat - (numeral 16 number.toNat).length = 0 := by omega
    rw [if_neg fun h => hpad (hslt.mp h)]
    constructor
    · have hrun := hexLoop_padded hdigits hw 0
      rw [Nat.zero_add] at hrun
      rw [hrun, hexOutput, hpadding]
    · rw [hexOutput, hpadding, List.replicate_zero, List.nil_append, List.length_map, ← hdigits,
        BitVec.ofNat_toNat, BitVec.setWidth_eq]

theorem printfInternalHexPadded_eq (number zeroPadWidth : BitVec 32) :
    printfInternalHexPadded number zeroPadWidth = .ok (hexOutput number.toNat zeroPadWidth) := by
  have hsame : (number.setWidth 64).toNat = number.toNat := by
    rw [BitVec.toNat_setWidth, Nat.mod_eq_of_lt (Nat.lt_trans number.isLt (by decide))]
  have hdigits := valueDigits_toNat (number.setWidth 64)
  have hle : (numeral 16 number.toNat).length ≤ 8 :=
    numeral_length_le (by decide) (by decide) (Nat.lt_of_lt_of_eq number.isLt (by decide))
  rw [hsame] at hdigits
  obtain ⟨hrun, hcount⟩ := hexLoop_hexOutput hdigits (by omega) (by omega) zeroPadWidth
  rw [printfInternalHexPadded, bind_ok_eq _ hrun, hcount]
  rfl

theorem printfInternalHexULongPadded_eq (number : BitVec 64) (zeroPadWidth : BitVec 32) :
    printfInternalHexULongPadded number zeroPadWidth =
      .ok (hexOutput number.toNat zeroPadWidth) := by
  have hdigits := valueDigits_toNat number
  have hle := hexLength_le number.isLt
  obtain ⟨hrun, hcount⟩ := hexLoop_hexOutput hdigits (by omega) (by omega) zeroPadWidth
  rw [printfInternalHexULongPadded, bind_ok_eq _ hrun, hcount]
  rfl

end Hexadecimal

end SysRv.Printf
