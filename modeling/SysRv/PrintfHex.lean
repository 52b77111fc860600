import SysRv.PrintfFormats

/-!
# Hexadecimal output

Both hexadecimal helpers count the digits of their number by shifting it to zero, and then
write the digits by index, the highest index first. The indices at and above the count are the
padding, so no shift goes past the digits that were counted.
-/

namespace SysRv.Printf

open ByteMemory KString Numerals

/-- The canonical hexadecimal numeral of `n` behind as many zeros as the width `w` asks for, and
its length as the count. -/
structure HexPrinted (n w : ℕ) (p : Printed) : Prop where
  text : p.text =
    List.replicate (w - (numeral 16 n).length) (chr '0') ++ (numeral 16 n).map digit
  length : p.text.length = max w (numeral 16 n).length
  count : p.count.toInt = p.text.length

variable {w : BitVec 32}

theorem hexOutput_hexPrinted (hw : 0 ≤ w.toInt) {number : ℕ} (h : number < 2 ^ 64) :
    HexPrinted number w.toNat (hexOutput number w) := by
  have hcast : w.toInt.toNat = w.toNat := by
    rw [toInt_of_nonneg hw, Int.toNat_natCast]
  have hdigits : (numeral 16 number).length ≤ 16 :=
    numeral_length_le (by decide) (by decide) (Nat.lt_of_lt_of_eq h (by decide))
  have hwidth : w.toNat < 2 ^ 31 := by
    have hlt := BitVec.toInt_lt (x := w)
    rw [toInt_of_nonneg hw] at hlt
    omega
  have hlength : (hexOutput number w).text.length = max w.toNat (numeral 16 number).length := by
    rw [hexOutput, List.length_append, List.length_replicate, List.length_map, hcast]
    omega
  have hsmall : (hexOutput number w).text.length < 2 ^ 31 := by
    rw [hlength]
    omega
  exact ⟨by rw [hexOutput, hcast], hlength, toInt_ofNat_of_lt hsmall⟩

/-- Hexadecimal output is exact and padded to the width, by the two helpers and by the calls with
`%x` and `%lx`. The helpers return, so no shift amount reaches the width of their number, and the
two do the same for a number of 32 bits. -/
theorem printfInternal_hex_exact (hw : 0 ≤ w.toInt) :
    (∀ number : BitVec 32, ∃ q, printfInternalHexPadded number w = .ok q ∧
      HexPrinted number.toNat w.toNat q) ∧
    (∀ number : BitVec 64, ∃ q, printfInternalHexULongPadded number w = .ok q ∧
      HexPrinted number.toNat w.toNat q) ∧
    (∀ number : BitVec 64, number.toNat < 2 ^ 32 →
      printfInternalHexULongPadded number w = printfInternalHexPadded (number.setWidth 32) w) ∧
    ∀ (mem : Memory) (p : Addr) (width : ZeroWidth) (val : BitVec 64) (rest : List (BitVec 64)),
      width.value = w →
      (IsString mem p (encode [.conversion width .x]) →
        ∃ r, printfInternal mem p (val :: rest) = .ok r ∧ r.va = rest ∧
          HexPrinted (val.setWidth 32).toNat w.toNat ⟨r.output, r.numWritten⟩) ∧
      (IsString mem p (encode [.conversion width .lx]) →
        ∃ r, printfInternal mem p (val :: rest) = .ok r ∧ r.va = rest ∧
          HexPrinted val.toNat w.toNat ⟨r.output, r.numWritten⟩) := by
  have hlt (number : BitVec 32) : number.toNat < 2 ^ 64 := Nat.lt_trans number.isLt (by decide)
  refine ⟨fun number => ⟨_, printfInternalHexPadded_eq number w, hexOutput_hexPrinted hw (hlt number)⟩,
    fun number => ⟨_, printfInternalHexULongPadded_eq number w, hexOutput_hexPrinted hw number.isLt⟩,
    fun number hnumber => ?_, ?_⟩
  · rw [printfInternalHexPadded_eq, printfInternalHexULongPadded_eq, BitVec.toNat_setWidth,
      Nat.mod_eq_of_lt hnumber]
  · rintro mem p width val rest rfl
    constructor
    · intro h
      obtain ⟨r, hr, hva, hout, hcount⟩ :=
        printfInternal_conversion val rest h rfl (printfInternalHexPadded_eq _ _)
      exact ⟨r, hr, hva, hout ▸ hcount ▸ hexOutput_hexPrinted hw (hlt _)⟩
    · intro h
      obtain ⟨r, hr, hva, hout, hcount⟩ :=
        printfInternal_conversion val rest h rfl (printfInternalHexULongPadded_eq _ _)
      exact ⟨r, hr, hva, hout ▸ hcount ▸ hexOutput_hexPrinted hw val.isLt⟩

/-- The number 0x1F with a width of four, through either helper. -/
theorem printfInternal_hex_exact_width_four :
    ∃ q q', printfInternalHexPadded 0x1F#32 4#32 = .ok q ∧ HexPrinted 0x1F 4 q ∧
      printfInternalHexULongPadded 0x1F#64 4#32 = .ok q' ∧ HexPrinted 0x1F 4 q' ∧
      q.text = "001F".toList.map chr := by
  obtain ⟨h₃₂, h₆₄, -⟩ := printfInternal_hex_exact (w := 4#32) (by decide)
  obtain ⟨q, hq, hprinted⟩ := h₃₂ 0x1F#32
  obtain ⟨q', hq', hprinted'⟩ := h₆₄ 0x1F#64
  refine ⟨q, q', hq, hprinted, hq', hprinted', ?_⟩
  have hrun : printfInternalHexPadded 0x1F#32 4#32 = .ok ⟨"001F".toList.map chr, 4#32⟩ := rfl
  rw [hrun] at hq
  cases hq
  rfl

/-- One digit counted too many, and the shift goes wrong. -/
example : hexLoop 0#32 9#32 9 = .error .overwideShift := rfl

end SysRv.Printf
