import SysRv.PrintfFormats

/-!
# Decimal output

Both decimal helpers write each digit as soon as they have divided it off, so the last digit
comes first, and the signed one makes its number zero behind the minus sign. What comes out is
the numeral of the number where that is the same in both directions.
-/

namespace SysRv.Printf

open ByteMemory KString Numerals

def decimalText (v : ℤ) : List Byte :=
  (if v < 0 then [chr '-'] else []) ++ (numeral 10 v.natAbs).map digit

def digitValue (b : Byte) : ℕ := digits.idxOf b

def readDecimal (text : List Byte) : ℤ :=
  if text.head? = some (chr '-') then -(value 10 (text.tail.map digitValue) : ℤ)
  else (value 10 (text.map digitValue) : ℤ)

/-- The call writes the canonical decimal text of a number, which is read back to it. -/
def DecimalReadsBack (mem : Memory) (p : Addr) (args : List (BitVec 64)) (v : ℤ) : Prop :=
  ∃ r, printfInternal mem p args = .ok r ∧ r.output = decimalText v ∧ readDecimal r.output = v

/-- The decimal digits of a number are the same in both directions. -/
def Palindromic (n : ℕ) : Prop := (numeral 10 n).reverse = numeral 10 n

instance (n : ℕ) : Decidable (Palindromic n) := inferInstanceAs (Decidable (_ = _))

theorem digitValue_digit {k : ℕ} (hk : k < 16) : digitValue (digit k) = k := by
  revert k
  decide

theorem digit_ne_minus {k : ℕ} (hk : k < 16) : digit k ≠ chr '-' := by
  revert k
  decide

theorem map_digitValue_digit {ds : List ℕ} (h : ∀ d ∈ ds, d < 16) :
    (ds.map digit).map digitValue = ds := by
  calc (ds.map digit).map digitValue
      = ds.map fun d => digitValue (digit d) := List.map_map
    _ = ds.map id := List.map_congr_left fun d hd => digitValue_digit (h d hd)
    _ = ds := List.map_id ds

theorem map_digit_inj {ds es : List ℕ} (hds : ∀ d ∈ ds, d < 16) (hes : ∀ d ∈ es, d < 16)
    (h : ds.map digit = es.map digit) : ds = es := by
  rw [← map_digitValue_digit hds, h, map_digitValue_digit hes]

theorem numeral_ten_lt (n : ℕ) : ∀ d ∈ numeral 10 n, d < 16 :=
  fun d hd => Nat.lt_trans (numeral_lt (by decide) d hd) (by decide)

theorem numeral_ten_head (n : ℕ) : ((numeral 10 n).map digit).head? ≠ some (chr '-') := by
  cases hds : numeral 10 n with
  | nil => simp
  | cons d ds =>
    have hd := numeral_ten_lt n d (by simp [hds])
    simpa using digit_ne_minus hd

theorem readDecimal_decimalText (v : ℤ) : readDecimal (decimalText v) = v := by
  have hvalue : value 10 (((numeral 10 v.natAbs).map digit).map digitValue) = v.natAbs := by
    rw [map_digitValue_digit (numeral_ten_lt _), value_numeral]
  rw [readDecimal, decimalText]
  by_cases hv : v < 0
  · simp only [if_pos hv, List.singleton_append, List.head?_cons, if_true, List.tail_cons, hvalue]
    omega
  · simp only [if_neg hv, List.nil_append, if_neg (numeral_ten_head _), hvalue]
    omega

theorem decimalLoop_reversed {w number : ℕ} (text : List Byte) {num : BitVec w}
    (h : number < 2 ^ 64) :
    (decimalLoop 20 number text num).1 = text ++ (numeral 10 number).reverse.map digit := by
  rw [decimalLoop_text (by decide) (Nat.lt_trans h (by decide)), numeral, List.reverse_reverse]

/-- The text is the canonical one where the digits read the same in both directions. -/
theorem reversed_eq_decimalText_iff (n : ℕ) :
    (numeral 10 n).reverse.map digit = decimalText n ↔ Palindromic n := by
  have hpos : ¬ (n : ℤ) < 0 := by omega
  rw [decimalText, if_neg hpos, List.nil_append, Int.natAbs_natCast]
  constructor
  · intro h
    exact map_digit_inj (fun d hd => numeral_ten_lt n d (List.mem_reverse.mp hd)) (numeral_ten_lt n) h
  · intro h
    rw [show (numeral 10 n).reverse = numeral 10 n from h]

theorem printfInternalULong_canonical_iff (val : BitVec 64) :
    (printfInternalULong val).text = decimalText val.toNat ↔ Palindromic val.toNat := by
  have htext : (printfInternalULong val).text = [] ++ (numeral 10 val.toNat).reverse.map digit :=
    decimalLoop_reversed [] val.isLt
  rw [← reversed_eq_decimalText_iff, htext, List.nil_append]

theorem slt_zero_iff (v : BitVec 32) : v.slt 0#32 = true ↔ v.toInt < 0 := by
  simp [BitVec.slt]

theorem printInt_text (val : BitVec 64) :
    (printInt val).text = (printfInternalNumber (val.setWidth 32)).text := by
  rw [printInt]
  split <;> rfl

/-- A negative number is printed as minus zero. -/
theorem printfInternalNumber_text_of_neg {v : BitVec 32} (h : v.toInt < 0) :
    (printfInternalNumber v).text = [chr '-', chr '0'] := by
  rw [printfInternalNumber, (slt_zero_iff v).mpr h]
  simp only [if_true, BitVec.sub_self]
  rfl

theorem printfInternalNumber_text_of_nonneg {v : BitVec 32} (h : 0 ≤ v.toInt) :
    (printfInternalNumber v).text = (numeral 10 v.toNat).reverse.map digit := by
  have hpos : v.slt 0#32 = false := by
    rw [Bool.eq_false_iff, ne_eq, slt_zero_iff]
    omega
  rw [printfInternalNumber, hpos]
  exact decimalLoop_reversed [] (Nat.lt_trans v.isLt (by decide))

theorem printfInternalNumber_canonical_iff (v : BitVec 32) :
    (printfInternalNumber v).text = decimalText v.toInt ↔
      0 ≤ v.toInt ∧ Palindromic v.toInt.natAbs := by
  by_cases hv : v.toInt < 0
  · refine iff_of_false (fun htext => ?_) (by omega)
    -- the numeral of a number other than zero does not begin with the digit zero
    rw [printfInternalNumber_text_of_neg hv, decimalText, if_pos hv, List.singleton_append,
      List.cons.injEq] at htext
    have hhead := numeral_head?_ne_zero (b := 10) (n := v.toInt.natAbs) (by omega)
    have hzero : [0] = numeral 10 v.toInt.natAbs :=
      map_digit_inj (by simp) (numeral_ten_lt _) htext.2
    rw [← hzero] at hhead
    exact hhead rfl
  · have hnonneg : 0 ≤ v.toInt := by omega
    have hcast : v.toInt = (v.toNat : ℤ) := toInt_of_nonneg hnonneg
    rw [and_iff_right hnonneg, printfInternalNumber_text_of_nonneg hnonneg, hcast,
      reversed_eq_decimalText_iff, Int.natAbs_natCast]

section Calls

variable {mem : Memory} {p : Addr} {width : ZeroWidth} {k : Conversion} {val : BitVec 64}
  {rest : List (BitVec 64)} {f : BitVec 64 → Except PrintfFault Printed} {q : Printed}

theorem decimalReadsBack_iff {v : ℤ} (h : IsString mem p (encode [.conversion width k]))
    (hk : k.printer mem width.value = some f) (hq : f val = .ok q) :
    DecimalReadsBack mem p (val :: rest) v ↔ q.text = decimalText v := by
  obtain ⟨r, hr, -, hout, -⟩ := printfInternal_conversion val rest h hk hq
  constructor
  · rintro ⟨r', hr', htext, -⟩
    obtain rfl : r = r' := Except.ok.inj (hr.symm.trans hr')
    rw [← hout, htext]
  · intro htext
    refine ⟨r, hr, hout.trans htext, ?_⟩
    rw [hout, htext, readDecimal_decimalText]

/-- Decimal output reads back for the numbers that are not negative and whose digits are the
same in both directions, and for no others. -/
theorem printfInternal_decimal_reads_back_iff (mem : Memory) (p : Addr) (val : BitVec 64)
    (rest : List (BitVec 64)) :
    (IsString mem p (encode [.conversion none .d]) →
      (DecimalReadsBack mem p (val :: rest) (val.setWidth 32).toInt ↔
        0 ≤ (val.setWidth 32).toInt ∧ Palindromic (val.setWidth 32).toInt.natAbs)) ∧
    (IsString mem p (encode [.conversion none .lu]) →
      (DecimalReadsBack mem p (val :: rest) val.toNat ↔ Palindromic val.toNat)) := by
  constructor
  · intro h
    rw [decimalReadsBack_iff h rfl rfl, printInt_text, printfInternalNumber_canonical_iff]
  · intro h
    rw [decimalReadsBack_iff h rfl rfl, printfInternalULong_canonical_iff]

end Calls

theorem isString_percent_lu : IsString (.ofBytes 4096#64 ("%lu\x00".toList.map chr)) 4096#64
    (encode [.conversion none .lu]) :=
  ⟨by simp [encode, Piece.bytes, ZeroWidth.bytes, Conversion.bytes, chr, Memory.ofBytes], by decide⟩

theorem printfInternal_decimal_reads_back_palindrome :
    DecimalReadsBack (.ofBytes 4096#64 ("%lu\x00".toList.map chr)) 4096#64 [12321#64] 12321 :=
  ((printfInternal_decimal_reads_back_iff _ 4096#64 12321#64 []).2 isString_percent_lu).mpr
    (by decide)

/-- `%lu` with the number 10 writes 01. -/
theorem printfInternal_decimal_reversed :
    ¬ DecimalReadsBack (.ofBytes 4096#64 ("%lu\x00".toList.map chr)) 4096#64 [10#64] 10 := by
  rw [decimalReadsBack_iff isString_percent_lu rfl rfl]
  decide

end SysRv.Printf
