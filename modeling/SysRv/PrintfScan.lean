import SysRv.Printf

/-!
# One format behind another

A scan reads the format only between the index where it starts and the index where it stops.
So it runs the same way inside a longer format, with output before it and arguments behind its
own.
-/

namespace SysRv.Printf

open ByteMemory KString

/-- What is around the run of a part of a format: the index where the part starts, what was
written before it, and the arguments behind those of the part. -/
structure Context where
  offset : ℕ
  output : List Byte
  numWritten : BitVec 32
  rest : List (BitVec 64)

def PrintfState.inContext (s : PrintfState) (c : Context) : PrintfState :=
  ⟨s.index + c.offset, s.va ++ c.rest, c.output ++ s.output, c.numWritten + s.numWritten⟩

/-- The part of a format from index `i` up to `j` stands `offset` bytes further in another. -/
def SameChars (mem : Memory) (part whole : Addr) (offset i j : ℕ) : Prop :=
  ∀ k, i ≤ k → k < j → readChar mem whole (k + offset) = readChar mem part k

variable {mem : Memory} {part whole : Addr} {s s' : PrintfState} {c : Context}
  {f : BitVec 64 → Except PrintfFault Printed}

theorem SameChars.mono {offset i j i' j' : ℕ} (h : SameChars mem part whole offset i j)
    (hi : i ≤ i') (hj : j' ≤ j) : SameChars mem part whole offset i' j' :=
  fun k hik hkj => h k (hi.trans hik) (hkj.trans_le hj)

theorem toInt_of_nonneg {v : BitVec 32} (h : 0 ≤ v.toInt) : v.toInt = (v.toNat : ℤ) := by
  have hcond := BitVec.toInt_eq_toNat_cond v
  split at hcond <;> omega

theorem toInt_ofNat_of_lt {n : ℕ} (h : n < 2 ^ 31) : (BitVec.ofNat 32 n).toInt = (n : ℤ) := by
  have hmod : n % 2 ^ 32 = n := Nat.mod_eq_of_lt (by omega)
  rw [BitVec.toInt_eq_toNat_cond, BitVec.toNat_ofNat, hmod, if_pos (by omega)]

theorem print_inContext (p : Printed) : (s.inContext c).print p = (s.print p).inContext c := by
  simp [PrintfState.inContext, PrintfState.print, BitVec.add_assoc]

theorem printArg_eq_ok : s.printArg f = .ok s' ↔
    ∃ val va p, s.va = val :: va ∧ f val = .ok p ∧ s' = { s with va := va }.print p := by
  rw [PrintfState.printArg.eq_def]
  cases hva : s.va with
  | nil => simp
  | cons val va =>
    simp only [bind_eq_ok, List.cons.injEq]
    constructor
    · rintro ⟨p, hp, ⟨⟩⟩
      exact ⟨val, va, p, ⟨rfl, rfl⟩, hp, rfl⟩
    · rintro ⟨_, _, p, ⟨rfl, rfl⟩, hp, rfl⟩
      exact ⟨p, hp, rfl⟩

theorem printArg_index (h : s.printArg f = .ok s') : s'.index = s.index := by
  obtain ⟨val, va, p, -, -, rfl⟩ := printArg_eq_ok.mp h
  rfl

theorem printArg_inContext (h : s.printArg f = .ok s') :
    (s.inContext c).printArg f = .ok (s'.inContext c) := by
  obtain ⟨val, va, p, hva, hp, rfl⟩ := printArg_eq_ok.mp h
  refine printArg_eq_ok.mpr ⟨val, va ++ c.rest, p, ?_, hp, (print_inContext p).symm⟩
  rw [PrintfState.inContext, hva, List.cons_append]

theorem zeroPadWidthLoop_le {n i j : ℕ} {v w : BitVec 32}
    (h : zeroPadWidthLoop mem part n v i = .ok (w, j)) : i ≤ j := by
  induction n generalizing v i with
  | zero => cases h
  | succ n ih =>
    obtain ⟨b, -, h⟩ := bind_eq_ok.mp h
    split at h
    · exact Nat.le_of_succ_le (ih h)
    · cases h
      rfl

theorem zeroPadWidthLoop_same {n i j offset : ℕ} {v w : BitVec 32}
    (h : zeroPadWidthLoop mem part n v i = .ok (w, j))
    (hsame : SameChars mem part whole offset i (j + 1)) :
    zeroPadWidthLoop mem whole n v (i + offset) = .ok (w, j + offset) := by
  induction n generalizing v i with
  | zero => cases h
  | succ n ih =>
    have hij := zeroPadWidthLoop_le h
    obtain ⟨b, hb, h⟩ := bind_eq_ok.mp h
    refine bind_eq_ok.mpr ⟨b, (hsame i le_rfl (by omega)).trans hb, ?_⟩
    split at h
    · rw [if_pos ‹_›, Nat.add_right_comm]
      exact ih h (hsame.mono (Nat.le_succ i) le_rfl)
    · cases h
      rw [if_neg ‹_›]
      rfl

theorem parseZeroPadWidth_le {i j : ℕ} {w : BitVec 32}
    (h : parseZeroPadWidth mem part i = .ok (w, j)) : i ≤ j := by
  obtain ⟨b, -, h⟩ := bind_eq_ok.mp h
  split at h
  · cases h
    rfl
  · exact Nat.le_of_succ_le (zeroPadWidthLoop_le h)

theorem parseZeroPadWidth_same {i j offset : ℕ} {w : BitVec 32}
    (h : parseZeroPadWidth mem part i = .ok (w, j))
    (hsame : SameChars mem part whole offset i (j + 1)) :
    parseZeroPadWidth mem whole (i + offset) = .ok (w, j + offset) := by
  have hij := parseZeroPadWidth_le h
  obtain ⟨b, hb, h⟩ := bind_eq_ok.mp h
  refine bind_eq_ok.mpr ⟨b, (hsame i le_rfl (by omega)).trans hb, ?_⟩
  split at h
  · cases h
    rw [if_pos ‹_›]
    rfl
  · rw [if_neg ‹_›, Nat.add_right_comm]
    exact zeroPadWidthLoop_same h (hsame.mono (Nat.le_succ i) le_rfl)

theorem printDirective_index {w : BitVec 32} {formatChar : Byte}
    (h : printDirective mem part w s = .ok s') (hchar : readChar mem part s.index = .ok formatChar) :
    s'.index = if formatChar = chr 'l' then s.index + 1 else s.index := by
  rw [printDirective, hchar] at h
  obtain ⟨formatChar, hc, h⟩ := bind_eq_ok.mp h
  cases hc
  split at h
  · rw [if_pos ‹_›]
    obtain ⟨nextFormatChar, -, h⟩ := bind_eq_ok.mp h
    iterate 2
      split at h
      · exact printArg_index h
    cases h
    rfl
  · rw [if_neg ‹_›]
    iterate 4
      split at h
      · exact printArg_index h
    split at h <;> cases h <;> rfl

theorem printDirective_le {w : BitVec 32} (h : printDirective mem part w s = .ok s') :
    s.index ≤ s'.index := by
  obtain ⟨formatChar, hchar, -⟩ := bind_eq_ok.mp h
  rw [printDirective_index h hchar]
  split <;> omega

theorem printDirective_same {w : BitVec 32} (h : printDirective mem part w s = .ok s')
    (hsame : SameChars mem part whole c.offset s.index (s'.index + 1)) :
    printDirective mem whole w (s.inContext c) = .ok (s'.inContext c) := by
  have hle := printDirective_le h
  have hrun := h
  obtain ⟨formatChar, hchar, h⟩ := bind_eq_ok.mp h
  have hindex := printDirective_index hrun hchar
  refine bind_eq_ok.mpr ⟨formatChar, (hsame _ le_rfl (by omega)).trans hchar, ?_⟩
  split at h
  · rw [if_pos ‹_›]
    rw [if_pos ‹_›] at hindex
    obtain ⟨nextFormatChar, hnext, h⟩ := bind_eq_ok.mp h
    have hstep : ({ s.inContext c with index := (s.inContext c).index + 1 } : PrintfState) =
        ({ s with index := s.index + 1 } : PrintfState).inContext c := by
      simp [PrintfState.inContext, Nat.add_right_comm]
    rw [hstep]
    refine bind_eq_ok.mpr ⟨nextFormatChar, (hsame _ (by simp) (by simp [hindex])).trans hnext, ?_⟩
    iterate 2
      split at h
      · rw [if_pos ‹_›]
        exact printArg_inContext h
      rw [if_neg ‹_›]
    cases h
    rfl
  · rw [if_neg ‹_›]
    iterate 4
      split at h
      · rw [if_pos ‹_›]
        exact printArg_inContext h
      rw [if_neg ‹_›]
    split at h
    · rw [if_pos ‹_›, print_inContext]
      cases h
      rfl
    · rw [if_neg ‹_›]
      cases h
      rfl

theorem printStep_lt {character : Byte} (h : printStep mem part character s = .ok s') :
    s.index < s'.index := by
  rw [printStep.eq_def] at h
  split at h
  · obtain ⟨⟨w, i⟩, hparse, h⟩ := bind_eq_ok.mp h
    obtain ⟨t, ht, h⟩ := bind_eq_ok.mp h
    have hi := parseZeroPadWidth_le hparse
    have hle : i ≤ t.index := printDirective_le ht
    cases h
    exact Nat.lt_add_one_of_le ((Nat.le_of_succ_le hi).trans hle)
  · cases h
    exact Nat.lt_add_one _

theorem printStep_same {character : Byte} (h : printStep mem part character s = .ok s')
    (hsame : SameChars mem part whole c.offset s.index s'.index) :
    printStep mem whole character (s.inContext c) = .ok (s'.inContext c) := by
  rw [printStep.eq_def] at h ⊢
  split at h
  · rw [if_pos ‹_›]
    obtain ⟨⟨w, i⟩, hparse, h⟩ := bind_eq_ok.mp h
    obtain ⟨t, ht, h⟩ := bind_eq_ok.mp h
    have hle : i ≤ t.index := printDirective_le ht
    have hi := parseZeroPadWidth_le hparse
    cases h
    have hwidth : parseZeroPadWidth mem whole ((s.inContext c).index + 1) =
        .ok (w, i + c.offset) := by
      rw [PrintfState.inContext, Nat.add_right_comm]
      exact parseZeroPadWidth_same hparse (hsame.mono (Nat.le_succ _) (Nat.succ_le_succ hle))
    have hdirective := printDirective_same (c := c) ht
      (hsame.mono (Nat.le_of_succ_le hi) le_rfl)
    refine bind_eq_ok.mpr ⟨_, hwidth, bind_eq_ok.mpr ⟨_, hdirective, ?_⟩⟩
    simp [PrintfState.inContext, Nat.add_right_comm]
    rfl
  · rw [if_neg ‹_›, print_inContext]
    cases h
    simp [PrintfState.inContext, Nat.add_right_comm]
    rfl

theorem printfLoop_le {n : ℕ} (h : printfLoop mem part n s = .ok s') : s.index ≤ s'.index := by
  induction n generalizing s with
  | zero => cases h
  | succ n ih =>
    obtain ⟨character, -, h⟩ := bind_eq_ok.mp h
    split at h
    · cases h
      rfl
    · obtain ⟨t, ht, h⟩ := bind_eq_ok.mp h
      exact (printStep_lt ht).le.trans (ih h)

/-- A run inside a longer format comes to where the run of the part ends, in at most as many
rounds as the part has bytes, and goes on from there. -/
theorem printfLoop_same {n : ℕ} (h : printfLoop mem part n s = .ok s')
    (hsame : SameChars mem part whole c.offset s.index s'.index) :
    ∃ k ≤ s'.index - s.index, ∀ m,
      printfLoop mem whole (k + m) (s.inContext c) = printfLoop mem whole m (s'.inContext c) := by
  induction n generalizing s with
  | zero => cases h
  | succ n ih =>
    obtain ⟨character, hchar, h⟩ := bind_eq_ok.mp h
    split at h
    · cases h
      exact ⟨0, Nat.zero_le _, fun m => by rw [Nat.zero_add]⟩
    · obtain ⟨t, ht, h⟩ := bind_eq_ok.mp h
      have hlt := printStep_lt ht
      have hle := printfLoop_le h
      obtain ⟨k, hk, hrun⟩ := ih h (hsame.mono hlt.le le_rfl)
      have hwhole : readChar mem whole (s.inContext c).index = .ok character :=
        (hsame _ le_rfl (hlt.trans_le hle)).trans hchar
      have hstep := printStep_same (c := c) ht (hsame.mono le_rfl hle)
      refine ⟨k + 1, by omega, fun m => ?_⟩
      rw [Nat.add_right_comm, printfLoop.eq_def]
      simp only [hwhole, if_neg ‹_›, hstep, hrun, bind, Except.bind]

theorem printfLoop_end {n : ℕ} (h : readChar mem whole s.index = .ok 0#8) :
    printfLoop mem whole (n + 1) s = .ok s := by
  rw [printfLoop, h]
  rfl

section Concatenation

variable {p₁ p₂ p : Addr} {f₁ f₂ : List Byte} {a₁ a₂ : List (BitVec 64)} {r₁ r₂ : PrintfState}

theorem readChar_of_isString {text : List Byte} {k : ℕ} (h : IsString mem p text)
    (hk : k ≤ text.length) : readChar mem p k = .ok (text.getD k 0#8) := by
  rw [readChar, readByte, h.byte hk]

theorem sameChars_left (h₁ : IsString mem p₁ f₁) (h : IsString mem p (f₁ ++ f₂)) :
    SameChars mem p₁ p 0 0 f₁.length := by
  intro k _ hk
  have hlen : k ≤ (f₁ ++ f₂).length := by simp; omega
  rw [Nat.add_zero, readChar_of_isString h hlen, readChar_of_isString h₁ hk.le]
  simp [List.getD_eq_getElem?_getD, List.getElem?_append_left hk]

theorem sameChars_right (h₂ : IsString mem p₂ f₂) (h : IsString mem p (f₁ ++ f₂)) :
    SameChars mem p₂ p f₁.length 0 f₂.length := by
  intro k _ hk
  have hlen : k + f₁.length ≤ (f₁ ++ f₂).length := by simp; omega
  rw [readChar_of_isString h hlen, readChar_of_isString h₂ hk.le]
  simp [List.getD_eq_getElem?_getD, List.getElem?_append_right]

/-- The run of the whole format, from the runs of the two parts. -/
theorem printfInternal_concat (h₁ : IsString mem p₁ f₁) (h₂ : IsString mem p₂ f₂)
    (h : IsString mem p (f₁ ++ f₂)) (run₁ : printfInternal mem p₁ a₁ = .ok r₁)
    (stop₁ : r₁.index = f₁.length) (all₁ : r₁.va = [])
    (run₂ : printfInternal mem p₂ a₂ = .ok r₂) (stop₂ : r₂.index = f₂.length) :
    printfInternal mem p (a₁ ++ a₂) = .ok ⟨(f₁ ++ f₂).length, r₂.va, r₁.output ++ r₂.output,
      r₁.numWritten + r₂.numWritten⟩ := by
  have hlen := h.length_lt
  rw [List.length_append] at hlen
  obtain ⟨k₁, hk₁, hrun₁⟩ := printfLoop_same (c := ⟨0, [], 0#32, a₂⟩) run₁
    (stop₁ ▸ sameChars_left h₁ h)
  obtain ⟨k₂, hk₂, hrun₂⟩ := printfLoop_same (c := ⟨f₁.length, r₁.output, r₁.numWritten, []⟩)
    run₂ (stop₂ ▸ sameChars_right h₂ h)
  rw [stop₁] at hk₁
  rw [stop₂] at hk₂
  -- the rounds of the two parts leave at least one for the NUL
  obtain ⟨m, hm⟩ : ∃ m, 2 ^ 64 = k₁ + (k₂ + (m + 1)) :=
    ⟨2 ^ 64 - (k₁ + k₂ + 1), by omega⟩
  have hstart : (⟨0, a₁ ++ a₂, [], 0#32⟩ : PrintfState) =
      (⟨0, a₁, [], 0#32⟩ : PrintfState).inContext ⟨0, [], 0#32, a₂⟩ := by
    simp [PrintfState.inContext]
  have hmiddle : r₁.inContext ⟨0, [], 0#32, a₂⟩ =
      (⟨0, a₂, [], 0#32⟩ : PrintfState).inContext ⟨f₁.length, r₁.output, r₁.numWritten, []⟩ := by
    simp [PrintfState.inContext, stop₁, all₁]
  have hlast : r₂.inContext ⟨f₁.length, r₁.output, r₁.numWritten, []⟩ =
      ⟨(f₁ ++ f₂).length, r₂.va, r₁.output ++ r₂.output, r₁.numWritten + r₂.numWritten⟩ := by
    simp [PrintfState.inContext, stop₂, Nat.add_comm]
  rw [printfInternal, hm, hstart, hrun₁, hmiddle, hrun₂, hlast, printfLoop_end]
  rw [readChar_of_isString h le_rfl]
  simp

/-- `printf` is compositional. Where the scans of two formats stop at their NULs and the first
takes exactly its arguments, the format of both, one behind the other, writes both outputs,
leaves the arguments that the second leaves, and returns the sum of the counts. -/
theorem printfInternal_append (h₁ : IsString mem p₁ f₁) (h₂ : IsString mem p₂ f₂)
    (h : IsString mem p (f₁ ++ f₂)) (run₁ : printfInternal mem p₁ a₁ = .ok r₁)
    (stop₁ : r₁.index = f₁.length) (all₁ : r₁.va = [])
    (run₂ : printfInternal mem p₂ a₂ = .ok r₂) (stop₂ : r₂.index = f₂.length) :
    ∃ r, printfInternal mem p (a₁ ++ a₂) = .ok r ∧ r.index = (f₁ ++ f₂).length ∧
      r.output = r₁.output ++ r₂.output ∧ r.va = r₂.va ∧
      (r₁.numWritten.toNat + r₂.numWritten.toNat < 2 ^ 31 →
        r.numWritten.toInt = r₁.numWritten.toInt + r₂.numWritten.toInt) := by
  refine ⟨_, printfInternal_concat h₁ h₂ h run₁ stop₁ all₁ run₂ stop₂, rfl, rfl, rfl, fun hsum => ?_⟩
  simp only [BitVec.toInt_eq_toNat_cond, BitVec.toNat_add]
  split <;> split <;> split <;> omega

def formatBlock : Memory :=
  .ofBytes 4096#64 ("a%c\x00%%%02x\x00a%c%%%02x\x00".toList.map chr)

theorem printfInternal_append_two_formats :
    ∃ r, printfInternal formatBlock 4107#64 [66#64, 7#64, 1#64] = .ok r ∧ r.index = 9 ∧
      r.output = "aB%07".toList.map chr ∧ r.va = [1#64] ∧ r.numWritten.toInt = 5 := by
  have h₁ : IsString formatBlock 4096#64 ("a%c".toList.map chr) :=
    ⟨by simp [formatBlock, chr, Memory.ofBytes], by decide⟩
  have h₂ : IsString formatBlock 4100#64 ("%%%02x".toList.map chr) :=
    ⟨by simp [formatBlock, chr, Memory.ofBytes], by decide⟩
  have h : IsString formatBlock 4107#64 ("a%c".toList.map chr ++ "%%%02x".toList.map chr) :=
    ⟨by simp [formatBlock, chr, Memory.ofBytes], by decide⟩
  have run₁ : printfInternal formatBlock 4096#64 [66#64] =
      .ok ⟨3, [], "aB".toList.map chr, 2#32⟩ := rfl
  have run₂ : printfInternal formatBlock 4100#64 [7#64, 1#64] =
      .ok ⟨6, [1#64], "%07".toList.map chr, 3#32⟩ := rfl
  obtain ⟨r, hrun, hindex, hout, hva, hcount⟩ :=
    printfInternal_append h₁ h₂ h run₁ rfl rfl run₂ rfl
  exact ⟨r, hrun, hindex, hout, hva, hcount (by decide)⟩

end Concatenation

end SysRv.Printf
