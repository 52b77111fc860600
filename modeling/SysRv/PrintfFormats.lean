import SysRv.PrintfHelpers

/-!
# Formats that the compiler's check accepts

Formats of literal characters, `%%` and the conversions that `gnu::format(printf)` lets pass.
What the scan does at each piece of such a format does not depend on the arguments, so the
format and the arguments stay in step exactly where no conversion is without a case.
-/

namespace SysRv.Printf

open ByteMemory KString

inductive Conversion where
  | d | u | x | c | s | ld | lu | lx
  deriving DecidableEq, Repr

def Conversion.bytes : Conversion → List Byte
  | .d => [chr 'd']
  | .u => [chr 'u']
  | .x => [chr 'x']
  | .c => [chr 'c']
  | .s => [chr 's']
  | .ld => [chr 'l', chr 'd']
  | .lu => [chr 'l', chr 'u']
  | .lx => [chr 'l', chr 'x']

abbrev ZeroWidth := Option (List (Fin 10))

def digitByte (k : Fin 10) : Byte := chr '0' + BitVec.ofNat 8 k

def ZeroWidth.bytes : ZeroWidth → List Byte
  | none => []
  | some ks => chr '0' :: ks.map digitByte

def appendDigit (width : BitVec 32) (k : Fin 10) : BitVec 32 := width * 10#32 + BitVec.ofNat 32 k

def ZeroWidth.value (width : ZeroWidth) : BitVec 32 := (width.getD []).foldl appendDigit 0#32

inductive Piece where
  | literal (b : {b : Byte // b ≠ 0#8 ∧ b ≠ chr '%'})
  | percent
  | conversion (width : ZeroWidth) (k : Conversion)

def Piece.bytes : Piece → List Byte
  | .literal b => [b]
  | .percent => [chr '%', chr '%']
  | .conversion width k => chr '%' :: (width.bytes ++ k.bytes)

def encode (pieces : List Piece) : List Byte := pieces.flatMap Piece.bytes

/-- One argument for each conversion, where that of `%s` points to a string. -/
def Matching (mem : Memory) : List Piece → List (BitVec 64) → Prop
  | [], args => args = []
  | .conversion _ k :: pieces, val :: args =>
    (k = .s → ∃ text, IsString mem val text) ∧ Matching mem pieces args
  | .conversion _ _ :: _, [] => False
  | .literal _ :: pieces, args => Matching mem pieces args
  | .percent :: pieces, args => Matching mem pieces args

/-- What the switch makes of the argument of a conversion; there is no case for `%u` and for
`%ld`. -/
def Conversion.printer (mem : Memory) (width : BitVec 32) :
    Conversion → Option (BitVec 64 → Except PrintfFault Printed)
  | .d => some fun val => .ok (printInt val)
  | .u => none
  | .x => some fun val => printfInternalHexPadded (val.setWidth 32) width
  | .c => some fun val => .ok (printChar val)
  | .s => some fun val => printfInternalString mem val
  | .ld => none
  | .lu => some fun val => .ok (printfInternalULong val)
  | .lx => some fun val => printfInternalHexULongPadded val width

def PrintfState.advance (s : PrintfState) (n : ℕ) : PrintfState := { s with index := s.index + n }

def Conversion.print (mem : Memory) (width : BitVec 32) (k : Conversion) (s : PrintfState) :
    Except PrintfFault PrintfState :=
  match k.printer mem width with
  | some f => s.printArg f
  | none => .ok s

/-- The effect of a piece apart from the step over its bytes. -/
def Piece.print (mem : Memory) (s : PrintfState) : Piece → Except PrintfFault PrintfState
  | .literal b => .ok (s.print ⟨[b], 1#32⟩)
  | .percent => .ok (s.print ⟨[chr '%'], 1#32⟩)
  | .conversion width k => k.print mem width.value s

def printPieces (mem : Memory) : List Piece → PrintfState → Except PrintfFault PrintfState
  | [], s => .ok s
  | piece :: pieces, s => do
    let s' ← piece.print mem s
    printPieces mem pieces (s'.advance piece.bytes.length)

variable {mem : Memory} {p : Addr} {s r : PrintfState} {pieces : List Piece}

theorem readChar_of_holds {i : ℕ} {b : Byte} {bs : List Byte}
    (h : Holds mem (p + BitVec.ofNat 64 i) (b :: bs)) :
    readChar mem p i = .ok b ∧ Holds mem (p + BitVec.ofNat 64 (i + 1)) bs := by
  obtain ⟨hb, hbs⟩ := h
  rw [readChar, readByte, hb, add_ofNat_succ']
  exact ⟨rfl, hbs⟩

theorem digitByte_isDigit (k : Fin 10) : isDigit (digitByte k) = true := by
  revert k
  decide

theorem digitByte_value (k : Fin 10) :
    (digitByte k - chr '0').setWidth 32 = BitVec.ofNat 32 k := by
  revert k
  decide

theorem conversion_head (k : Conversion) :
    ∃ b bs, k.bytes = b :: bs ∧ isDigit b = false ∧ b ≠ chr '0' := by
  cases k <;> exact ⟨_, _, rfl, by decide, by decide⟩

theorem zeroPadWidthLoop_of_holds {n i : ℕ} {v : BitVec 32} {ks : List (Fin 10)} {b : Byte}
    {bs : List Byte} (hb : isDigit b = false) (hn : ks.length < n)
    (h : Holds mem (p + BitVec.ofNat 64 i) (ks.map digitByte ++ b :: bs)) :
    zeroPadWidthLoop mem p n v i = .ok (ks.foldl appendDigit v, i + ks.length) := by
  induction ks generalizing n v i with
  | nil =>
    obtain ⟨n, rfl⟩ := Nat.exists_eq_add_one_of_ne_zero (Nat.ne_of_gt hn)
    rw [zeroPadWidthLoop, (readChar_of_holds h).1]
    simp [bind, Except.bind, hb, pure, Except.pure]
  | cons k ks ih =>
    obtain ⟨n, rfl⟩ := Nat.exists_eq_add_one_of_ne_zero (Nat.ne_of_gt (Nat.zero_lt_of_lt hn))
    obtain ⟨hchar, hrest⟩ := readChar_of_holds h
    have hstep := ih (v := appendDigit v k) (by simpa using hn) hrest
    rw [zeroPadWidthLoop, hchar]
    simp only [bind, Except.bind, digitByte_isDigit, if_true, digitByte_value]
    rw [← appendDigit, hstep, List.foldl_cons, List.length_cons, Nat.add_assoc, Nat.add_comm 1]

theorem parseZeroPadWidth_of_holds {width : ZeroWidth} {i : ℕ} {b : Byte} {bs : List Byte}
    (hb : isDigit b = false) (hzero : b ≠ chr '0') (hlen : width.bytes.length < 2 ^ 64)
    (h : Holds mem (p + BitVec.ofNat 64 i) (width.bytes ++ b :: bs)) :
    parseZeroPadWidth mem p i = .ok (width.value, i + width.bytes.length) := by
  cases width with
  | none =>
    rw [parseZeroPadWidth, (readChar_of_holds h).1]
    simp only [bind, Except.bind, if_pos hzero]
    rfl
  | some ks =>
    obtain ⟨hchar, hrest⟩ := readChar_of_holds h
    have hks : ks.length < 2 ^ 64 := by
      simp only [ZeroWidth.bytes, List.length_cons, List.length_map] at hlen
      omega
    have hloop := zeroPadWidthLoop_of_holds (v := 0#32) hb hks hrest
    rw [parseZeroPadWidth, hchar]
    simp only [bind, Except.bind, ne_eq, not_true_eq_false, if_false, hloop]
    simp [ZeroWidth.value, ZeroWidth.bytes, Nat.add_assoc, Nat.add_comm 1]

theorem printArg_advance {f : BitVec 64 → Except PrintfFault Printed} (n : ℕ) :
    (s.advance n).printArg f = (s.printArg f).map (·.advance n) := by
  rw [PrintfState.printArg.eq_def, PrintfState.printArg.eq_def, PrintfState.advance]
  cases s.va with
  | nil => rfl
  | cons val va =>
    simp only
    cases f val <;> rfl

theorem piece_print_index {piece : Piece} (h : piece.print mem s = .ok r) : r.index = s.index := by
  cases piece with
  | literal b | percent =>
    cases h
    rfl
  | conversion width k =>
    rw [Piece.print, Conversion.print] at h
    split at h
    · exact printArg_index h
    · cases h
      rfl

theorem conversion_print_advance {width : BitVec 32} (k : Conversion) (n : ℕ) :
    k.print mem width (s.advance n) = (k.print mem width s).map (·.advance n) := by
  rw [Conversion.print, Conversion.print]
  cases k.printer mem width with
  | none => rfl
  | some f => exact printArg_advance n

theorem printDirective_of_holds {width : BitVec 32} {k : Conversion} {bs : List Byte}
    (h : Holds mem (p + BitVec.ofNat 64 s.index) (k.bytes ++ bs)) :
    printDirective mem p width s =
      (k.print mem width s).map (·.advance (k.bytes.length - 1)) := by
  rw [← conversion_print_advance]
  cases k with
  | d | u | x | c | s =>
    have hchar := (readChar_of_holds h).1
    simp [printDirective, hchar, bind, Except.bind, pure, Except.pure, Conversion.print,
      Conversion.printer, Conversion.bytes, PrintfState.advance, chr]
  | ld | lu | lx =>
    obtain ⟨hchar, hrest⟩ := readChar_of_holds h
    have hnext := (readChar_of_holds hrest).1
    simp [printDirective, hchar, hnext, bind, Except.bind, pure, Except.pure, Conversion.print,
      Conversion.printer, Conversion.bytes, PrintfState.advance, chr]

theorem printStep_directive {width : BitVec 32} {i : ℕ}
    (h : parseZeroPadWidth mem p (s.index + 1) = .ok (width, i)) :
    printStep mem p (chr '%') s =
      (printDirective mem p width { s with index := i }).map (·.advance 1) := by
  rw [printStep, if_pos rfl, h]
  simp only [bind, Except.bind]
  cases printDirective mem p width { s with index := i } <;> rfl

theorem printStep_percent {bs : List Byte}
    (h : Holds mem (p + BitVec.ofNat 64 (s.index + 1)) (chr '%' :: bs)) :
    printStep mem p (chr '%') s = .ok ((s.print ⟨[chr '%'], 1#32⟩).advance 2) := by
  have hwidth : parseZeroPadWidth mem p (s.index + 1) = .ok (0#32, s.index + 1) :=
    @parseZeroPadWidth_of_holds mem p none _ _ _ (by decide) (by decide) (by decide) h
  rw [printStep_directive hwidth]
  simp [printDirective, (readChar_of_holds h).1, bind, Except.bind, pure, Except.pure, chr,
    Except.map, PrintfState.advance, PrintfState.print]

theorem printStep_conversion {width : ZeroWidth} {k : Conversion} {bs : List Byte}
    (hlen : width.bytes.length < 2 ^ 64)
    (h : Holds mem (p + BitVec.ofNat 64 (s.index + 1)) (width.bytes ++ k.bytes ++ bs)) :
    printStep mem p (chr '%') s =
      (k.print mem width.value s).map (·.advance (1 + (width.bytes.length + k.bytes.length))) := by
  obtain ⟨b, bs', hbytes, hdigit, hzero⟩ := conversion_head k
  rw [List.append_assoc] at h
  have hwidth : parseZeroPadWidth mem p (s.index + 1) =
      .ok (width.value, s.index + 1 + width.bytes.length) := by
    rw [hbytes] at h
    exact parseZeroPadWidth_of_holds hdigit hzero hlen h
  have hswitch : Holds mem (p + BitVec.ofNat 64 (s.index + 1 + width.bytes.length))
      (k.bytes ++ bs) := by
    have hrest := (holds_append.mp h).2
    rwa [BitVec.add_assoc, BitVec.ofNat_add_ofNat] at hrest
  have hstate : ({ s with index := s.index + 1 + width.bytes.length } : PrintfState) =
      s.advance (1 + width.bytes.length) := by
    rw [PrintfState.advance, Nat.add_assoc]
  have hpos : 0 < k.bytes.length := hbytes ▸ Nat.succ_pos _
  have hdirective : printDirective mem p width.value
      { s with index := s.index + 1 + width.bytes.length } = _ := printDirective_of_holds hswitch
  rw [printStep_directive hwidth, hdirective, hstate, conversion_print_advance]
  cases k.print mem width.value s with
  | error fault => rfl
  | ok t =>
    simp only [Except.map, PrintfState.advance]
    congr 2
    omega

theorem printStep_piece {piece : Piece} {bs : List Byte} (hlen : piece.bytes.length < 2 ^ 64)
    (h : Holds mem (p + BitVec.ofNat 64 s.index) (piece.bytes ++ bs)) :
    ∃ character, readChar mem p s.index = .ok character ∧ character ≠ 0#8 ∧
      printStep mem p character s = (piece.print mem s).map (·.advance piece.bytes.length) := by
  cases piece with
  | literal b =>
    refine ⟨b, (readChar_of_holds h).1, b.2.1, ?_⟩
    rw [printStep, if_neg b.2.2]
    rfl
  | percent =>
    obtain ⟨hchar, hrest⟩ := readChar_of_holds h
    exact ⟨chr '%', hchar, by decide, printStep_percent hrest⟩
  | conversion width k =>
    obtain ⟨hchar, hrest⟩ := readChar_of_holds h
    refine ⟨chr '%', hchar, by decide, ?_⟩
    simp only [Piece.bytes, List.length_cons, List.length_append] at hlen
    rw [printStep_conversion (by omega) hrest, Piece.print, Piece.bytes, List.length_cons,
      List.length_append, Nat.add_comm 1]

theorem printfLoop_pieces {n : ℕ} (hn : (encode pieces).length < n) (hsize : n ≤ 2 ^ 64)
    (h : Holds mem (p + BitVec.ofNat 64 s.index) (encode pieces ++ [0#8])) :
    printfLoop mem p n s = printPieces mem pieces s := by
  obtain ⟨n, rfl⟩ := Nat.exists_eq_add_one_of_ne_zero (Nat.ne_of_gt (Nat.zero_lt_of_lt hn))
  induction pieces generalizing n s with
  | nil => exact printfLoop_end (readChar_of_holds h).1
  | cons piece pieces ih =>
    have hencode : encode (piece :: pieces) = piece.bytes ++ encode pieces := rfl
    rw [hencode, List.length_append] at hn
    rw [hencode, List.append_assoc] at h
    have hpos : 0 < piece.bytes.length := by cases piece <;> simp [Piece.bytes]
    obtain ⟨character, hchar, hne, hstep⟩ := printStep_piece (by omega) h
    obtain ⟨n, rfl⟩ := Nat.exists_eq_add_one_of_ne_zero (show n ≠ 0 by omega)
    rw [printfLoop, hchar]
    simp only [bind, Except.bind, hne, if_false, hstep, printPieces]
    cases hprint : piece.print mem s with
    | error fault => rfl
    | ok t =>
      have hindex := piece_print_index hprint
      have hrest := (holds_append.mp h).2
      rw [BitVec.add_assoc, BitVec.ofNat_add_ofNat, ← hindex] at hrest
      exact ih (s := t.advance piece.bytes.length) hrest n (by omega) (by omega)

/-- A format of one conversion writes what the conversion makes of the first argument. -/
theorem printfInternal_conversion {width : ZeroWidth} {k : Conversion}
    {f : BitVec 64 → Except PrintfFault Printed} {q : Printed} (val : BitVec 64)
    (rest : List (BitVec 64)) (h : IsString mem p (encode [.conversion width k]))
    (hk : k.printer mem width.value = some f) (hq : f val = .ok q) :
    ∃ r, printfInternal mem p (val :: rest) = .ok r ∧ r.va = rest ∧ r.output = q.text ∧
      r.numWritten = q.count := by
  have hrun : printfInternal mem p (val :: rest) =
      printPieces mem [.conversion width k] ⟨0, val :: rest, [], 0#32⟩ :=
    printfLoop_pieces h.length_lt le_rfl (by simpa using h.bytes)
  have hprint : Piece.print mem ⟨0, val :: rest, [], 0#32⟩ (.conversion width k) =
      .ok (PrintfState.print ⟨0, rest, [], 0#32⟩ q) := by
    rw [Piece.print, Conversion.print, hk]
    exact printArg_eq_ok.mpr ⟨val, rest, q, rfl, hq, rfl⟩
  refine ⟨_, by rw [hrun, printPieces, hprint]; rfl, rfl, ?_, ?_⟩
  · simp [PrintfState.advance, PrintfState.print]
  · simp [PrintfState.advance, PrintfState.print]

/-- The text that a conversion makes of its argument. For `%u` and `%ld` the code has none; any
text but the empty one would do. -/
def Formats (mem : Memory) (width : BitVec 32) (k : Conversion) (val : BitVec 64)
    (text : List Byte) : Prop :=
  match k.printer mem width with
  | some f => ∃ count, f val = .ok ⟨text, count⟩
  | none => text ≠ []

/-- Output made piece by piece, where conversion number `k` formats argument number `k`. -/
def Written (mem : Memory) : List Piece → List (BitVec 64) → List Byte → Prop
  | [], _, out => out = []
  | .literal b :: pieces, args, out => ∃ back, out = b.1 :: back ∧ Written mem pieces args back
  | .percent :: pieces, args, out => ∃ back, out = chr '%' :: back ∧ Written mem pieces args back
  | .conversion width k :: pieces, val :: args, out =>
    ∃ text back, out = text ++ back ∧ Formats mem width.value k val text ∧
      Written mem pieces args back
  | .conversion _ _ :: _, [], _ => False

/-- The call returns with exactly the arguments of the format taken, each by its conversion. -/
def InStep (mem : Memory) (p : Addr) (pieces : List Piece) (args rest : List (BitVec 64)) : Prop :=
  ∃ r, printfInternal mem p (args ++ rest) = .ok r ∧ r.va = rest ∧ Written mem pieces args r.output

def Piece.isConversion : Piece → Bool
  | .conversion _ _ => true
  | _ => false

def Piece.isDropped : Piece → Bool
  | .conversion _ .u => true
  | .conversion _ .ld => true
  | _ => false

theorem Matching.length {args : List (BitVec 64)} (h : Matching mem pieces args) :
    args.length = pieces.countP Piece.isConversion := by
  induction pieces generalizing args with
  | nil => rw [h, List.length_nil, List.countP_nil]
  | cons piece pieces ih =>
    cases piece with
    | literal b | percent => rw [ih h, List.countP_cons_of_neg (by simp [Piece.isConversion])]
    | conversion width k =>
      cases args with
      | nil => exact h.elim
      | cons val args =>
        rw [List.countP_cons_of_pos (by rfl), List.length_cons, ih h.2]

theorem printArg_length {f : BitVec 64 → Except PrintfFault Printed} (h : s.printArg f = .ok r) :
    s.va.length = r.va.length + 1 := by
  obtain ⟨val, va, p, hva, -, rfl⟩ := printArg_eq_ok.mp h
  rw [hva, List.length_cons]
  rfl

theorem piece_print_length {piece : Piece} (h : piece.print mem s = .ok r) :
    s.va.length + (if piece.isDropped then 1 else 0) =
      r.va.length + (if piece.isConversion then 1 else 0) := by
  cases piece with
  | literal b | percent =>
    cases h
    rfl
  | conversion width k =>
    cases k with
    | u | ld =>
      cases h
      rfl
    | d | x | c | s | lu | lx => exact printArg_length h

theorem printPieces_length (h : printPieces mem pieces s = .ok r) :
    s.va.length + pieces.countP Piece.isDropped =
      r.va.length + pieces.countP Piece.isConversion := by
  induction pieces generalizing s with
  | nil =>
    cases h
    rfl
  | cons piece pieces ih =>
    obtain ⟨t, ht, h⟩ := bind_eq_ok.mp h
    have hpiece := piece_print_length ht
    have hrest : t.va.length + pieces.countP Piece.isDropped =
        r.va.length + pieces.countP Piece.isConversion := ih (s := t.advance _) h
    rw [List.countP_cons, List.countP_cons]
    omega

theorem printer_of_matching {width : BitVec 32} {k : Conversion}
    {f : BitVec 64 → Except PrintfFault Printed} {val : BitVec 64}
    (hk : k.printer mem width = some f) (hval : k = .s → ∃ text, IsString mem val text) :
    ∃ p, f val = .ok p := by
  cases k with
  | u | ld => cases hk
  | d | c | lu =>
    cases hk
    exact ⟨_, rfl⟩
  | x =>
    cases hk
    exact ⟨_, printfInternalHexPadded_eq _ _⟩
  | lx =>
    cases hk
    exact ⟨_, printfInternalHexULongPadded_eq _ _⟩
  | s =>
    cases hk
    obtain ⟨text, htext⟩ := hval rfl
    exact ⟨_, printfInternalString_of_isString htext⟩

theorem printPieces_inStep {args rest : List (BitVec 64)} (h : Matching mem pieces args)
    (hcase : ∀ piece ∈ pieces, piece.isDropped = false) (hva : s.va = args ++ rest) :
    ∃ r out, printPieces mem pieces s = .ok r ∧ r.va = rest ∧ r.output = s.output ++ out ∧
      Written mem pieces args out := by
  induction pieces generalizing args s with
  | nil =>
    rw [h, List.nil_append] at hva
    exact ⟨s, [], rfl, hva, (List.append_nil _).symm, rfl⟩
  | cons piece pieces ih =>
    obtain ⟨hpiece, hrest⟩ := List.forall_mem_cons.mp hcase
    cases piece with
    | literal b =>
      obtain ⟨r, out, hrun, hr, hout, hwritten⟩ :=
        ih (s := (s.print ⟨[b], 1#32⟩).advance 1) h hrest hva
      refine ⟨r, b.1 :: out, hrun, hr, ?_, out, rfl, hwritten⟩
      rw [hout]
      simp [PrintfState.advance, PrintfState.print]
    | percent =>
      obtain ⟨r, out, hrun, hr, hout, hwritten⟩ :=
        ih (s := (s.print ⟨[chr '%'], 1#32⟩).advance 2) h hrest hva
      refine ⟨r, chr '%' :: out, hrun, hr, ?_, out, rfl, hwritten⟩
      rw [hout]
      simp [PrintfState.advance, PrintfState.print]
    | conversion width k =>
      cases args with
      | nil => exact h.elim
      | cons val args =>
        obtain ⟨hval, h⟩ := h
        cases hk : k.printer mem width.value with
        | none => cases k <;> simp [Conversion.printer, Piece.isDropped] at hk hpiece
        | some f =>
          obtain ⟨q, hq⟩ := printer_of_matching hk hval
          have hprint : Piece.print mem s (.conversion width k) =
              .ok ({ s with va := args ++ rest }.print q) := by
            rw [Piece.print, Conversion.print, hk]
            exact printArg_eq_ok.mpr ⟨val, args ++ rest, q, hva, hq, rfl⟩
          obtain ⟨r, out, hrun, hr, hout, hwritten⟩ :=
            ih (s := ({ s with va := args ++ rest }.print q).advance
              (Piece.conversion width k).bytes.length) h hrest rfl
          refine ⟨r, q.text ++ out, ?_, hr, ?_, q.text, out, rfl, ?_, hwritten⟩
          · rw [printPieces, hprint]
            exact hrun
          · rw [hout]
            simp [PrintfState.advance, PrintfState.print]
          · rw [Formats, hk]
            exact ⟨q.count, hq⟩

/-- Format and arguments stay in step exactly where the format has no `%u` without `l` and no
`%ld`: these are dropped with their arguments left behind for the next conversion. -/
theorem printfInternal_inStep_iff {args rest : List (BitVec 64)} (h : IsString mem p (encode pieces))
    (hargs : Matching mem pieces args) :
    InStep mem p pieces args rest ↔
      (∀ width, .conversion width .u ∉ pieces) ∧ ∀ width, .conversion width .ld ∉ pieces := by
  have hrun : printfInternal mem p (args ++ rest) =
      printPieces mem pieces ⟨0, args ++ rest, [], 0#32⟩ :=
    printfLoop_pieces h.length_lt le_rfl (by simpa using h.bytes)
  constructor
  · rintro ⟨r, hr, hva, -⟩
    have hlen := printPieces_length (hrun ▸ hr)
    rw [List.length_append, hargs.length, hva] at hlen
    have hnone : pieces.countP Piece.isDropped = 0 := by omega
    rw [List.countP_eq_zero] at hnone
    exact ⟨fun width hmem => hnone _ hmem rfl, fun width hmem => hnone _ hmem rfl⟩
  · rintro ⟨hu, hld⟩
    have hcase : ∀ piece ∈ pieces, piece.isDropped = false := by
      intro piece hmem
      rw [Bool.eq_false_iff]
      intro hdropped
      unfold Piece.isDropped at hdropped
      split at hdropped
      · exact hu _ hmem
      · exact hld _ hmem
      · cases hdropped
    obtain ⟨r, out, hpieces, hva, hout, hwritten⟩ :=
      printPieces_inStep (s := ⟨0, args ++ rest, [], 0#32⟩) hargs hcase rfl
    exact ⟨r, hrun.trans hpieces, hva, hout ▸ hwritten⟩

/-- `%lu%s` with the number 7 and the string behind the format. -/
theorem printfInternal_inStep_two_conversions :
    InStep (.ofBytes 4096#64 ("%lu%s\x00ok\x00".toList.map chr)) 4096#64
      [.conversion none .lu, .conversion none .s] [7#64, 4102#64] [] := by
  have h : IsString (.ofBytes 4096#64 ("%lu%s\x00ok\x00".toList.map chr)) 4096#64
      (encode [.conversion none .lu, .conversion none .s]) :=
    ⟨by simp [encode, Piece.bytes, ZeroWidth.bytes, Conversion.bytes, chr, Memory.ofBytes],
      by decide⟩
  have hs : IsString (.ofBytes 4096#64 ("%lu%s\x00ok\x00".toList.map chr)) 4102#64
      ("ok".toList.map chr) := ⟨by simp [chr, Memory.ofBytes], by decide⟩
  have hargs : Matching (.ofBytes 4096#64 ("%lu%s\x00ok\x00".toList.map chr))
      [.conversion none .lu, .conversion none .s] [7#64, 4102#64] :=
    ⟨by simp, fun _ => ⟨_, hs⟩, rfl⟩
  exact (printfInternal_inStep_iff h hargs).mpr (by simp)

/-- `%u%c` with the arguments 7 and `A`: the `%u` writes nothing, the `%c` takes the 7, and the
`A` is left over. -/
theorem printfInternal_drops_unsigned :
    let mem := Memory.ofBytes 4096#64 ("%u%c\x00".toList.map chr)
    let pieces : List Piece := [.conversion none .u, .conversion none .c]
    IsString mem 4096#64 (encode pieces) ∧ Matching mem pieces [7#64, 65#64] ∧
      printfInternal mem 4096#64 [7#64, 65#64] = .ok ⟨4, [65#64], [7#8], 1#32⟩ ∧
      ¬ InStep mem 4096#64 pieces [7#64, 65#64] [] := by
  have hrun : printfInternal (.ofBytes 4096#64 ("%u%c\x00".toList.map chr)) 4096#64
      [7#64, 65#64] = .ok ⟨4, [65#64], [7#8], 1#32⟩ := rfl
  refine ⟨⟨?_, by decide⟩, ⟨by simp, by simp, rfl⟩, hrun, ?_⟩
  · simp [encode, Piece.bytes, ZeroWidth.bytes, Conversion.bytes, chr, Memory.ofBytes]
  · rintro ⟨r, hr, hva, -⟩
    cases hrun.symm.trans hr
    cases hva

end SysRv.Printf
