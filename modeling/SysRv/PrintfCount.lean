import SysRv.PrintfHelpers

/-!
# The result of printf

Each helper returns the number of the characters it writes, except that the minus sign is
written by the helper of `%d` and counted by its caller. Over the whole scan `num_written` is
the length of the output, as an `int`.
-/

namespace SysRv.Printf

open ByteMemory KString

/-- The count is the number of the characters. -/
def Printed.Counted (p : Printed) : Prop := p.count = BitVec.ofNat 32 p.text.length

/-- The invariant of the loop. -/
def PrintfState.Counted (s : PrintfState) : Prop :=
  s.numWritten = BitVec.ofNat 32 s.output.length

variable {mem : Memory} {format : Addr} {s s' : PrintfState}

theorem printfInternalULong_counted (number : BitVec 64) : (printfInternalULong number).Counted := by
  obtain ⟨written, htext, hnum⟩ := decimalLoop_counts 20 number.toNat [] 0#64
  rw [Printed.Counted, printfInternalULong]
  dsimp only
  rw [htext, hnum, List.nil_append, BitVec.zero_add, BitVec.setWidth_ofNat_of_le (by decide)]

theorem printChar_counted (val : BitVec 64) : (printChar val).Counted := rfl

/-- The sign is one more character than the helper counts. -/
theorem printfInternalNumber_counts (number : BitVec 32) :
    (printfInternalNumber number).count + (if number.slt 0#32 then 1#32 else 0#32) =
      BitVec.ofNat 32 (printfInternalNumber number).text.length := by
  obtain ⟨written, htext, hnum⟩ := decimalLoop_counts 20
    (if number.slt 0#32 then number - number else number).toNat
    (if number.slt 0#32 then [chr '-'] else []) 0#32
  rw [printfInternalNumber]
  dsimp only
  rw [htext, hnum, BitVec.zero_add]
  cases number.slt 0#32 with
  | true => simp [BitVec.ofNat_add, BitVec.add_comm]
  | false => simp

theorem printInt_counted (val : BitVec 64) : (printInt val).Counted := by
  have hnumber := printfInternalNumber_counts (val.setWidth 32)
  rw [Printed.Counted, printInt]
  cases hneg : (val.setWidth 32).slt 0#32 with
  | true => simpa [hneg] using hnumber
  | false => simpa [hneg] using hnumber

theorem hexOutput_counted (number : ℕ) (w : BitVec 32) : (hexOutput number w).Counted := rfl

theorem printfInternalHexPadded_counted {number w : BitVec 32} {p : Printed}
    (h : printfInternalHexPadded number w = .ok p) : p.Counted := by
  rw [printfInternalHexPadded_eq] at h
  cases h
  exact hexOutput_counted _ w

theorem printfInternalHexULongPadded_counted {number : BitVec 64} {w : BitVec 32} {p : Printed}
    (h : printfInternalHexULongPadded number w = .ok p) : p.Counted := by
  rw [printfInternalHexULongPadded_eq] at h
  cases h
  exact hexOutput_counted _ w

theorem printfInternalString_counted {string : Addr} {p : Printed}
    (h : printfInternalString mem string = .ok p) : p.Counted := by
  obtain ⟨⟨text, currIndex⟩, hloop, h⟩ := bind_eq_ok.mp h
  cases h
  rw [Printed.Counted, stringLoop_counts hloop, Nat.zero_add]

theorem print_counted {p : Printed} (hp : p.Counted) (hs : s.Counted) : (s.print p).Counted := by
  rw [PrintfState.Counted, PrintfState.print, hs, hp, List.length_append, BitVec.ofNat_add]

theorem printArg_counted {f : BitVec 64 → Except PrintfFault Printed}
    (hf : ∀ val p, f val = .ok p → p.Counted) (hs : s.Counted) (h : s.printArg f = .ok s') :
    s'.Counted := by
  obtain ⟨val, va, p, -, hp, rfl⟩ := printArg_eq_ok.mp h
  exact print_counted (s := { s with va := va }) (hf val p hp) hs

theorem printArg_ok_counted {f : BitVec 64 → Printed} (hf : ∀ val, (f val).Counted)
    (hs : s.Counted) (h : (s.printArg fun val => .ok (f val)) = .ok s') : s'.Counted := by
  refine printArg_counted (fun val p hp => ?_) hs h
  cases hp
  exact hf val

theorem printDirective_counted {w : BitVec 32} (hs : s.Counted)
    (h : printDirective mem format w s = .ok s') : s'.Counted := by
  obtain ⟨formatChar, -, h⟩ := bind_eq_ok.mp h
  split at h
  · obtain ⟨nextFormatChar, -, h⟩ := bind_eq_ok.mp h
    have hnext : ({ s with index := s.index + 1 } : PrintfState).Counted := hs
    split at h
    · exact printArg_counted (fun val p hp => printfInternalHexULongPadded_counted hp) hnext h
    split at h
    · exact printArg_ok_counted printfInternalULong_counted hnext h
    · cases h
      exact hs
  split at h
  · exact printArg_ok_counted printChar_counted hs h
  split at h
  · exact printArg_ok_counted printInt_counted hs h
  split at h
  · exact printArg_counted (fun val p hp => printfInternalHexPadded_counted hp) hs h
  split at h
  · exact printArg_counted (fun val p hp => printfInternalString_counted hp) hs h
  split at h
  · cases h
    exact print_counted rfl hs
  · cases h
    exact hs

theorem printStep_counted {character : Byte} (hs : s.Counted)
    (h : printStep mem format character s = .ok s') : s'.Counted := by
  rw [printStep.eq_def] at h
  split at h
  · obtain ⟨⟨w, i⟩, -, h⟩ := bind_eq_ok.mp h
    obtain ⟨t, ht, h⟩ := bind_eq_ok.mp h
    have hcounted : t.Counted := printDirective_counted (s := { s with index := i }) hs ht
    cases h
    exact hcounted
  · cases h
    exact print_counted rfl hs

theorem printfLoop_counted {n : ℕ} (hs : s.Counted) (h : printfLoop mem format n s = .ok s') :
    s'.Counted := by
  induction n generalizing s with
  | zero => cases h
  | succ n ih =>
    obtain ⟨character, -, h⟩ := bind_eq_ok.mp h
    split at h
    · cases h
      exact hs
    · obtain ⟨t, ht, h⟩ := bind_eq_ok.mp h
      exact ih (printStep_counted hs ht) h

/-- The result of `printf` is the number of the characters it has written, as long as an `int`
can hold that number. -/
theorem printfInternal_counts {va : List (BitVec 64)} {r : PrintfState}
    (h : printfInternal mem format va = .ok r) (hlen : r.output.length < 2 ^ 31) :
    r.numWritten.toInt = r.output.length := by
  have hcounted : r.Counted := printfLoop_counted (s := ⟨0, va, [], 0#32⟩) rfl h
  rw [hcounted, toInt_ofNat_of_lt hlen]

/-- `%d%%%q%03x` with the number -7, of which `-0` is written, and the number 10. -/
theorem printfInternal_counts_signed_and_unknown :
    ∃ r, printfInternal (.ofBytes 4096#64 ("%d%%%q%03x\x00".toList.map chr)) 4096#64
        [BitVec.ofInt 64 (-7), 10#64] = .ok r ∧
      r.output = "-0%00A".toList.map chr ∧ r.numWritten.toInt = r.output.length := by
  have hrun : printfInternal (.ofBytes 4096#64 ("%d%%%q%03x\x00".toList.map chr)) 4096#64
      [BitVec.ofInt 64 (-7), 10#64] = .ok ⟨10, [], "-0%00A".toList.map chr, 6#32⟩ := rfl
  exact ⟨_, hrun, rfl, printfInternal_counts hrun (by decide)⟩

end SysRv.Printf
