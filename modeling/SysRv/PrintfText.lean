import SysRv.PrintfDecimal
import SysRv.PrintfHex

/-!
# Texts of `kprintf`

What a format writes as a whole: runs of literal characters, `%lx` padded to sixteen digits,
`%d` of a single digit and `%s`. Sixteen digits always are sixteen characters, and are read
back to their number.
-/

namespace SysRv.Printf

open ByteMemory KString Numerals

def kprintf (mem : Memory) (format : Addr) (args : List (BitVec 64)) : Except PrintfFault Printed := do
  let s ← printfInternal mem format args
  return ⟨s.output, s.numWritten⟩

theorem kprintf_written {mem : Memory} {p : Addr} {pieces : List Piece} {args : List (BitVec 64)}
    (h : IsString mem p (encode pieces)) (hargs : Matching mem pieces args)
    (hcase : ∀ piece ∈ pieces, piece.isDropped = false) :
    ∃ q, kprintf mem p args = .ok q ∧ Written mem pieces args q.text := by
  have hrun : printfInternal mem p args = printPieces mem pieces ⟨0, args, [], 0#32⟩ :=
    printfLoop_pieces h.length_lt le_rfl (by simpa using h.bytes)
  have hva : (⟨0, args, [], 0#32⟩ : PrintfState).va = args ++ [] := (List.append_nil args).symm
  obtain ⟨r, out, hpieces, -, hout, hwritten⟩ := printPieces_inStep hargs hcase hva
  refine ⟨⟨r.output, r.numWritten⟩, ?_, ?_⟩
  · rw [kprintf, hrun, hpieces]
    rfl
  · rwa [hout]

def isPlain (b : Byte) : Bool := b ≠ 0#8 && b ≠ chr '%'

theorem ne_of_isPlain {b : Byte} (h : isPlain b = true) : b ≠ 0#8 ∧ b ≠ chr '%' := by
  simpa [isPlain] using h

def literals (bs : List Byte) : List Piece :=
  bs.filterMap fun b => if h : isPlain b = true then some (.literal ⟨b, ne_of_isPlain h⟩) else none

section Literals

variable {mem : Memory} {bs : List Byte} {pieces : List Piece} {args : List (BitVec 64)}
  {out : List Byte}

theorem literals_cons {b : Byte} (h : isPlain b = true) :
    literals (b :: bs) = .literal ⟨b, ne_of_isPlain h⟩ :: literals bs := by
  simp [literals, h]

theorem matching_literals (h : bs.all isPlain = true) :
    Matching mem (literals bs ++ pieces) args ↔ Matching mem pieces args := by
  induction bs with
  | nil => rfl
  | cons b bs ih =>
    rw [List.all_cons, Bool.and_eq_true] at h
    rw [literals_cons h.1]
    exact ih h.2

theorem written_literals (h : bs.all isPlain = true) :
    Written mem (literals bs ++ pieces) args out ↔
      ∃ back, out = bs ++ back ∧ Written mem pieces args back := by
  induction bs generalizing out with
  | nil => simp [literals]
  | cons b bs ih =>
    rw [List.all_cons, Bool.and_eq_true] at h
    rw [literals_cons h.1]
    constructor
    · rintro ⟨rest, rfl, hrest⟩
      obtain ⟨back, rfl, hback⟩ := (ih h.2).mp hrest
      exact ⟨back, rfl, hback⟩
    · rintro ⟨back, rfl, hback⟩
      exact ⟨bs ++ back, rfl, (ih h.2).mpr ⟨back, rfl, hback⟩⟩

theorem encode_literals (h : bs.all isPlain = true) : encode (literals bs) = bs := by
  induction bs with
  | nil => rfl
  | cons b bs ih =>
    rw [List.all_cons, Bool.and_eq_true] at h
    rw [literals_cons h.1]
    exact congrArg (b :: ·) (ih h.2)

theorem isDropped_literals : ∀ piece ∈ literals bs, piece.isDropped = false := by
  intro piece hpiece
  obtain ⟨b, -, hb⟩ := List.mem_filterMap.mp hpiece
  split at hb
  · cases hb
    rfl
  · cases hb

end Literals

def hexText (v : BitVec 64) : List Byte :=
  List.replicate (16 - (numeral 16 v.toNat).length) (chr '0') ++ (numeral 16 v.toNat).map digit

def readHex (text : List Byte) : ℕ := value 16 (text.map digitValue)

theorem value_zeros (b k : ℕ) (ds : List ℕ) : value b (List.replicate k 0 ++ ds) = value b ds := by
  induction k with
  | zero => rfl
  | succ k ih => simpa [value, List.replicate_succ] using ih

theorem hexText_eq (v : BitVec 64) : (hexOutput v.toNat 16#32).text = hexText v := rfl

theorem hexText_length (v : BitVec 64) : (hexText v).length = 16 := by
  have hle : (numeral 16 v.toNat).length ≤ 16 :=
    numeral_length_le (by decide) (by decide) (Nat.lt_of_lt_of_eq v.isLt (by decide))
  rw [hexText, List.length_append, List.length_replicate, List.length_map]
  omega

theorem readHex_hexText (v : BitVec 64) : readHex (hexText v) = v.toNat := by
  have hzero : digitValue (chr '0') = 0 := by decide
  rw [readHex, hexText, List.map_append, List.map_replicate, hzero, value_zeros,
    map_digitValue_digit fun d hd => numeral_lt (by decide) d hd, value_numeral]

theorem hexText_inj {v w : BitVec 64} (h : hexText v = hexText w) : v = w := by
  apply BitVec.eq_of_toNat_eq
  rw [← readHex_hexText v, h, readHex_hexText]

def plainHex (v : BitVec 64) : List Byte := (numeral 16 v.toNat).map digit

section Conversions

variable {mem : Memory} {pieces : List Piece} {args : List (BitVec 64)} {v : BitVec 64}
  {out : List Byte}

def hexPiece : Piece := .conversion (some [1, 6]) .lx

theorem written_hex (h : Written mem (hexPiece :: pieces) (v :: args) out) :
    ∃ back, out = hexText v ++ back ∧ Written mem pieces args back := by
  obtain ⟨text, back, rfl, ⟨count, htext⟩, hback⟩ := h
  have hprinted : hexOutput v.toNat 16#32 = ⟨text, count⟩ :=
    Except.ok.inj ((printfInternalHexULongPadded_eq v 16#32).symm.trans htext)
  refine ⟨back, ?_, hback⟩
  rw [← hexText_eq, hprinted]

theorem written_plainHex (h : Written mem (.conversion none .lx :: pieces) (v :: args) out) :
    ∃ back, out = plainHex v ++ back ∧ Written mem pieces args back := by
  obtain ⟨text, back, rfl, ⟨count, htext⟩, hback⟩ := h
  have hprinted : hexOutput v.toNat 0#32 = ⟨text, count⟩ :=
    Except.ok.inj ((printfInternalHexULongPadded_eq v 0#32).symm.trans htext)
  have hplain : (hexOutput v.toNat 0#32).text = plainHex v := by simp [hexOutput, plainHex]
  rw [hprinted] at hplain
  exact ⟨back, congrArg (· ++ back) hplain, hback⟩

theorem written_string {width : ZeroWidth} {text : List Byte}
    (hv : IsString mem v text) (h : Written mem (.conversion width .s :: pieces) (v :: args) out) :
    ∃ back, out = text ++ back ∧ Written mem pieces args back := by
  obtain ⟨text', back, rfl, ⟨count, htext⟩, hback⟩ := h
  change printfInternalString mem v = .ok ⟨text', count⟩ at htext
  rw [printfInternalString_of_isString hv] at htext
  cases htext
  exact ⟨back, rfl, hback⟩

theorem written_digit {width : ZeroWidth} (hv : (v.setWidth 32).toNat < 10)
    (h : Written mem (.conversion width .d :: pieces) (v :: args) out) :
    ∃ back, out = digit (v.setWidth 32).toNat :: back ∧ Written mem pieces args back := by
  obtain ⟨text, back, rfl, ⟨count, htext⟩, hback⟩ := h
  have hprinted : printInt v = ⟨text, count⟩ := Except.ok.inj htext
  have hnonneg : 0 ≤ (v.setWidth 32).toInt := by
    rw [BitVec.toInt_eq_toNat_of_lt (by omega)]
    omega
  have hdigit : (numeral 10 (v.setWidth 32).toNat).reverse = [(v.setWidth 32).toNat] := by
    rw [numeral, List.reverse_reverse, lastFirst_eq_cons (by decide), Nat.mod_eq_of_lt hv,
      if_pos (Nat.div_eq_of_lt hv)]
  have hone := printInt_text v
  rw [printfInternalNumber_text_of_nonneg hnonneg, hdigit, hprinted] at hone
  have htext : text = [digit (v.setWidth 32).toNat] := hone
  exact ⟨back, by rw [htext, List.singleton_append], hback⟩

end Conversions

theorem kprintf_plain {mem : Memory} {p : Addr} {text : List Byte} (h : IsString mem p text)
    (hplain : text.all isPlain = true) : ∃ q, kprintf mem p [] = .ok q ∧ q.text = text := by
  have hmatching : Matching mem (literals text ++ []) [] := (matching_literals hplain).mpr rfl
  rw [List.append_nil] at hmatching
  rw [← encode_literals hplain] at h
  obtain ⟨q, hq, hwritten⟩ := kprintf_written h hmatching isDropped_literals
  rw [← List.append_nil (literals text)] at hwritten
  obtain ⟨back, hback, rfl⟩ := (written_literals hplain).mp hwritten
  exact ⟨q, hq, by rw [hback, List.append_nil]⟩

end SysRv.Printf
