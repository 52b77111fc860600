import SysRv.PrintfText
import SysRv.TrapContext

/-!
# Kernel panics

`srv_KernelPanic` writes a header with the number of the processor and the cause, and then the
registers in the control block of that processor. The text determines the cause and every
register. Behind a trap in the kernel, it is the context at the trap.
-/

namespace SysRv.Panic

open ByteMemory KString Printf Rv64 Cpu Trap

def headerFormat : String := "panic[cpu%d]: %s\n"

def registerLines : List (String × List Reg) :=
  [("ra: 0x%016lx sp:  0x%016lx gp:  0x%016lx tp: 0x%016lx\n", [.ra, .sp, .gp, .tp]),
    ("t0: 0x%016lx t1:  0x%016lx t2:  0x%016lx s0: 0x%016lx\n", [.t0, .t1, .t2, .s0]),
    ("s1: 0x%016lx a0:  0x%016lx a1:  0x%016lx a2: 0x%016lx\n", [.s1, .a0, .a1, .a2]),
    ("a3: 0x%016lx a4:  0x%016lx a5:  0x%016lx a6: 0x%016lx\n", [.a3, .a4, .a5, .a6]),
    ("a7: 0x%016lx s2:  0x%016lx s3:  0x%016lx s4: 0x%016lx\n", [.a7, .s2, .s3, .s4]),
    ("s5: 0x%016lx s6:  0x%016lx s7:  0x%016lx s8: 0x%016lx\n", [.s5, .s6, .s7, .s8]),
    ("s9: 0x%016lx s10: 0x%016lx s11: 0x%016lx t3: 0x%016lx\n", [.s9, .s10, .s11, .t3]),
    ("t4: 0x%016lx t5:  0x%016lx t6:  0x%016lx\n", [.t4, .t5, .t6])]

/-- The formats in memory. -/
structure PanicStrings (mem : Memory) where
  header : Addr
  lines : List Addr
  header_text : IsString mem header (literal headerFormat)
  lines_text : List.Forall₂ (fun a line => IsString mem a (literal line.1)) lines registerLines

def dumpLines (mem : Memory) (context : Reg → Word) :
    List (Addr × List Reg) → Except PrintfFault (List Byte)
  | [] => return []
  | (format, regs) :: lines => do
    let p ← kprintf mem format (regs.map context)
    let text ← dumpLines mem context lines
    return p.text ++ text

/-- What `srv_KernelPanic` has written when it begins to spin. -/
def srvKernelPanic {mem : Memory} (strings : PanicStrings mem) (cpus : Addr) (m : Machine)
    (cause : Addr) : Except PrintfFault (List Byte) := do
  let header ← kprintf mem strings.header [(srvHalGetExecutingCPU m).setWidth 64, cause]
  let context := srvHalGetCurrentContextStruct cpus m
  let dump ← dumpLines mem (fun r => contextField m.mem context (.reg r))
    (strings.lines.zip (registerLines.map Prod.snd))
  return header.text ++ dump

def labelledLines : List (List (String × Reg)) :=
  [[("ra: 0x", .ra), (" sp:  0x", .sp), (" gp:  0x", .gp), (" tp: 0x", .tp)],
    [("t0: 0x", .t0), (" t1:  0x", .t1), (" t2:  0x", .t2), (" s0: 0x", .s0)],
    [("s1: 0x", .s1), (" a0:  0x", .a0), (" a1:  0x", .a1), (" a2: 0x", .a2)],
    [("a3: 0x", .a3), (" a4:  0x", .a4), (" a5:  0x", .a5), (" a6: 0x", .a6)],
    [("a7: 0x", .a7), (" s2:  0x", .s2), (" s3:  0x", .s3), (" s4: 0x", .s4)],
    [("s5: 0x", .s5), (" s6:  0x", .s6), (" s7:  0x", .s7), (" s8: 0x", .s8)],
    [("s9: 0x", .s9), (" s10: 0x", .s10), (" s11: 0x", .s11), (" t3: 0x", .t3)],
    [("t4: 0x", .t4), (" t5:  0x", .t5), (" t6:  0x", .t6)]]

def entryText (context : Reg → Word) (e : String × Reg) : List Byte :=
  literal e.1 ++ hexText (context e.2)

def lineText (context : Reg → Word) (line : List (String × Reg)) : List Byte :=
  line.flatMap (entryText context) ++ [chr '\n']

def dumpText (context : Reg → Word) : List Byte := labelledLines.flatMap (lineText context)

def panicText (cpu : ℕ) (cause : List Byte) (context : Reg → Word) : List Byte :=
  literal "panic[cpu" ++ digit cpu :: (literal "]: " ++ (cause ++ chr '\n' :: dumpText context))

def entryPieces (e : String × Reg) : List Piece := literals (literal e.1) ++ [hexPiece]

def linePieces (line : List (String × Reg)) : List Piece :=
  line.flatMap entryPieces ++ literals [chr '\n']

def headerPieces : List Piece :=
  literals (literal "panic[cpu") ++ .conversion none .d :: (literals (literal "]: ") ++
    .conversion none .s :: literals [chr '\n'])

theorem encode_headerPieces : encode headerPieces = literal headerFormat := by decide

theorem registerLines_eq : registerLines.map (fun line => (literal line.1, line.2)) =
    labelledLines.map fun line => (encode (linePieces line), line.map Prod.snd) := by decide

theorem isPlain_labels : ∀ line ∈ labelledLines, ∀ e ∈ line, (literal e.1).all isPlain = true := by
  decide

section Lines

variable {mem : Memory} {context : Reg → Word} {line : List (String × Reg)}

theorem linePieces_cons (e : String × Reg) :
    linePieces (e :: line) = literals (literal e.1) ++ hexPiece :: linePieces line := by
  simp [linePieces, entryPieces]

theorem isDropped_linePieces : ∀ piece ∈ linePieces line, piece.isDropped = false := by
  intro piece hpiece
  rw [linePieces, List.mem_append, List.mem_flatMap] at hpiece
  rcases hpiece with ⟨e, -, he⟩ | hnewline
  · rw [entryPieces, List.mem_append, List.mem_singleton] at he
    rcases he with hlabel | rfl
    · exact isDropped_literals piece hlabel
    · rfl
  · exact isDropped_literals piece hnewline

theorem matching_linePieces (hplain : ∀ e ∈ line, (literal e.1).all isPlain = true) :
    Matching mem (linePieces line) ((line.map Prod.snd).map context) := by
  induction line with
  | nil => rfl
  | cons e line ih =>
    obtain ⟨he, hline⟩ := List.forall_mem_cons.mp hplain
    rw [linePieces_cons]
    refine (matching_literals he).mpr ⟨fun h => ?_, ih hline⟩
    cases h

theorem written_linePieces (hplain : ∀ e ∈ line, (literal e.1).all isPlain = true) {out : List Byte}
    (h : Written mem (linePieces line) ((line.map Prod.snd).map context) out) :
    out = lineText context line := by
  induction line generalizing out with
  | nil =>
    obtain ⟨back, rfl, rfl⟩ := h
    rfl
  | cons e line ih =>
    obtain ⟨he, hline⟩ := List.forall_mem_cons.mp hplain
    rw [linePieces_cons] at h
    obtain ⟨text, rfl, htext⟩ := (written_literals he).mp h
    obtain ⟨back, rfl, hback⟩ := written_hex htext
    rw [ih hline hback]
    simp [lineText, entryText]

theorem kprintf_line (context : Reg → Word) {format : Addr}
    (hplain : ∀ e ∈ line, (literal e.1).all isPlain = true)
    (h : IsString mem format (encode (linePieces line))) :
    ∃ q, kprintf mem format ((line.map Prod.snd).map context) = .ok q ∧
      q.text = lineText context line := by
  obtain ⟨q, hq, hwritten⟩ := kprintf_written h (matching_linePieces hplain) isDropped_linePieces
  exact ⟨q, hq, written_linePieces hplain hwritten⟩

theorem dumpLines_text {lines : List Addr} {formats : List (String × List Reg)}
    {labels : List (List (String × Reg))}
    (hlines : List.Forall₂ (fun a line => IsString mem a (literal line.1)) lines formats)
    (heq : formats.map (fun line => (literal line.1, line.2)) =
      labels.map fun line => (encode (linePieces line), line.map Prod.snd))
    (hplain : ∀ line ∈ labels, ∀ e ∈ line, (literal e.1).all isPlain = true) :
    dumpLines mem context (lines.zip (formats.map Prod.snd)) =
      .ok (labels.flatMap (lineText context)) := by
  induction hlines generalizing labels with
  | nil =>
    cases labels with
    | nil => rfl
    | cons line labels => simp at heq
  | @cons a format lines formats hformat hlines ih =>
    cases labels with
    | nil => simp at heq
    | cons line labels =>
      obtain ⟨hhead, hrest⟩ := List.cons.inj heq
      obtain ⟨htext, hregs⟩ := Prod.mk.inj hhead
      obtain ⟨hline, hlabels⟩ := List.forall_mem_cons.mp hplain
      obtain ⟨q, hq, hqtext⟩ := kprintf_line context hline (htext ▸ hformat)
      rw [List.map_cons, List.zip_cons_cons, dumpLines, hregs, hq, ih hrest hlabels,
        List.flatMap_cons, ← hqtext]
      rfl

theorem kprintf_header {format cause : Addr} {cpu : BitVec 32} {text : List Byte}
    (h : IsString mem format (literal headerFormat)) (hcause : IsString mem cause text)
    (hcpu : cpu.toNat < 10) :
    ∃ q, kprintf mem format [cpu.setWidth 64, cause] = .ok q ∧ q.text =
      literal "panic[cpu" ++ digit cpu.toNat :: (literal "]: " ++ (text ++ [chr '\n'])) := by
  have hwidth : (cpu.setWidth 64).setWidth 32 = cpu := by
    apply BitVec.eq_of_toNat_eq
    have hlt := cpu.isLt
    simp only [BitVec.toNat_setWidth]
    omega
  have hfirst : (literal "panic[cpu").all isPlain = true := by decide
  have hsecond : (literal "]: ").all isPlain = true := by decide
  have hlast : [chr '\n'].all isPlain = true := by decide
  have hmatching : Matching mem headerPieces [cpu.setWidth 64, cause] := by
    refine (matching_literals hfirst).mpr ⟨(nomatch ·), ?_⟩
    exact (matching_literals hsecond).mpr ⟨fun _ => ⟨text, hcause⟩, rfl⟩
  rw [← encode_headerPieces] at h
  obtain ⟨q, hq, hwritten⟩ := kprintf_written h hmatching (by decide)
  refine ⟨q, hq, ?_⟩
  obtain ⟨out₁, h₁, hout₁⟩ := (written_literals hfirst).mp hwritten
  obtain ⟨out₂, rfl, hout₂⟩ := written_digit (by rw [hwidth]; exact hcpu) hout₁
  obtain ⟨out₃, rfl, hout₃⟩ := (written_literals hsecond).mp hout₂
  obtain ⟨out₄, rfl, hout₄⟩ := written_string hcause hout₃
  obtain ⟨out₅, rfl, rfl⟩ := hout₄
  rw [h₁, hwidth]

end Lines

section Text

variable {mem : Memory} {m : Machine} {cause : Addr} {text : List Byte}

theorem srvKernelPanic_text (strings : PanicStrings mem) (cpus : Addr)
    (hcpu : (srvHalGetExecutingCPU m).toNat < 10) (hcause : IsString mem cause text) :
    srvKernelPanic strings cpus m cause = .ok (panicText (srvHalGetExecutingCPU m).toNat text
      fun r => contextField m.mem (srvHalGetCurrentContextStruct cpus m) (.reg r)) := by
  obtain ⟨q, hq, hqtext⟩ := kprintf_header strings.header_text hcause hcpu
  rw [srvKernelPanic, hq]
  simp only [bind, Except.bind, dumpLines_text strings.lines_text registerLines_eq isPlain_labels]
  rw [panicText, dumpText, hqtext]
  simp [pure, Except.pure]

end Text

/-- Pieces of a text are found again where their lengths are fixed. -/
theorem eq_of_flatMap_eq {α β : Type} {f g : α → List β} {l : List α}
    (hlen : ∀ a ∈ l, (f a).length = (g a).length) (h : l.flatMap f = l.flatMap g) :
    ∀ a ∈ l, f a = g a := by
  induction l with
  | nil => exact fun _ ha => nomatch ha
  | cons a l ih =>
    obtain ⟨ha, hl⟩ := List.forall_mem_cons.mp hlen
    rw [List.flatMap_cons, List.flatMap_cons] at h
    obtain ⟨hhead, hrest⟩ := List.append_inj h ha
    exact List.forall_mem_cons.mpr ⟨hhead, ih hl hrest⟩

section Reading

variable (context context' : Reg → Word)

theorem entryText_length (e : String × Reg) :
    (entryText context e).length = (entryText context' e).length := by
  simp only [entryText, List.length_append, hexText_length]

theorem lineText_length (line : List (String × Reg)) :
    (lineText context line).length = (lineText context' line).length := by
  simp only [lineText, List.length_append, List.length_flatMap, entryText_length context context']

theorem dumpText_length : (dumpText context).length = (dumpText context').length := by
  simp only [dumpText, List.length_flatMap, lineText_length context context']

variable {context context'}

theorem exists_label {r : Reg} (hr : r ≠ .zero) :
    ∃ line ∈ labelledLines, ∃ e ∈ line, e.2 = r := by
  revert hr
  cases r <;> decide

theorem lineText_inj {line : List (String × Reg)} (h : lineText context line = lineText context' line) :
    ∀ e ∈ line, context e.2 = context' e.2 := by
  intro e he
  have hentries := List.append_cancel_right h
  have hentry := eq_of_flatMap_eq (fun e _ => entryText_length _ _ e) hentries e he
  exact hexText_inj (List.append_cancel_left hentry)

theorem dumpText_inj (h : dumpText context = dumpText context') {r : Reg} (hr : r ≠ .zero) :
    context r = context' r := by
  obtain ⟨line, hline, e, he, rfl⟩ := exists_label hr
  exact lineText_inj (eq_of_flatMap_eq (fun line _ => lineText_length _ _ line) h line hline) e he

/-- The text of a panic determines the processor, the cause and every register. -/
theorem panicText_inj {cpu cpu' : ℕ} {cause cause' : List Byte} (hcpu : cpu < 10)
    (hcpu' : cpu' < 10) (h : panicText cpu cause context = panicText cpu' cause' context') :
    cpu = cpu' ∧ cause = cause' ∧ ∀ r, r ≠ .zero → context r = context' r := by
  obtain ⟨hdigit, hrest⟩ := List.cons.inj (List.append_cancel_left h)
  have htail := List.append_cancel_left hrest
  -- the dump has the same length in both texts, the cause need not
  obtain ⟨hcause, hdump⟩ := List.append_inj' htail (congrArg (· + 1) (dumpText_length _ _))
  refine ⟨?_, hcause, fun r hr => dumpText_inj (List.cons.inj hdump).2 hr⟩
  rw [← digitValue_digit (Nat.lt_trans hcpu (by decide)), hdigit,
    digitValue_digit (Nat.lt_trans hcpu' (by decide))]

end Reading

/-- What is written for an exception code: accesses of a store are reported as loads. -/
def exceptionText (code : ℕ) : String :=
  match code with
  | 0 => "Instruction address misaligned"
  | 1 => "Instruction access fault"
  | 2 => "Illegal instruction"
  | 3 => "Breakpoint"
  | 4 | 6 => "Load address misaligned"
  | 5 | 7 => "Load access fault"
  | 12 | 13 | 15 => "Page fault"
  | _ => "Unknown"

theorem exceptionString_eq (mem : Word → Word) (context : Addr) :
    srvHalGetExceptionString (srvHalGetExceptionCause mem context).1 =
      exceptionText ((contextField mem context (.csr .scause)).toNat % 2 ^ 63) := by
  have hcode : (contextField mem context (.csr .scause) &&& rv64ExceptionCodeMask).toNat =
      (contextField mem context (.csr .scause)).toNat % 2 ^ 63 := by
    rw [BitVec.toNat_and]
    exact Nat.and_two_pow_sub_one_eq_mod _ 63
  simp only [srvHalGetExceptionCause, hcode]
  generalize (contextField mem context (.csr .scause)).toNat % 2 ^ 63 = code
  by_cases hcode : code < 16
  · revert code
    decide
  · obtain ⟨n, rfl⟩ := Nat.exists_eq_add_of_le' (Nat.le_of_not_lt hcode)
    rfl

def stringBlock (texts : List (List Byte)) : List Byte := texts.flatMap (· ++ [0#8])

def stringAddr (base : Addr) (texts : List (List Byte)) (i : ℕ) : Addr :=
  base + BitVec.ofNat 64 (stringBlock (texts.take i)).length

theorem stringBlock_split {texts : List (List Byte)} {i : ℕ} {text : List Byte}
    (hi : texts[i]? = some text) : stringBlock texts =
      stringBlock (texts.take i) ++ (text ++ [0#8]) ++ stringBlock (texts.drop (i + 1)) := by
  obtain ⟨hlt, hget⟩ := List.getElem?_eq_some_iff.mp hi
  have hsplit : texts = texts.take i ++ text :: texts.drop (i + 1) := by
    rw [← hget, ← List.drop_eq_getElem_cons hlt, List.take_append_drop]
  conv_lhs => rw [hsplit]
  simp [stringBlock]

theorem isString_stringBlock (base : Addr) {texts : List (List Byte)} {i : ℕ} {text : List Byte}
    (hi : texts[i]? = some text) (hnonzero : ∀ b ∈ text, b ≠ 0#8)
    (hsize : (stringBlock texts).length ≤ 2 ^ 64) :
    IsString (.ofBytes base (stringBlock texts)) (stringAddr base texts i) text := by
  have hlies : LiesAt (stringBlock texts) (text ++ [0#8]) (stringBlock (texts.take i)).length :=
    ⟨_, _, stringBlock_split hi, rfl⟩
  exact ⟨hlies.holds hsize, hnonzero⟩

def sampleTexts : List (List Byte) :=
  literal headerFormat :: registerLines.map (fun line => literal line.1) ++ [literal "Page fault"]

def sampleMemory : Memory := .ofBytes 0xFFFFFFFF80220000#64 (stringBlock sampleTexts)

theorem sampleMemory_text {i : ℕ} {text : List Byte} (hi : sampleTexts[i]? = some text) :
    IsString sampleMemory (stringAddr 0xFFFFFFFF80220000#64 sampleTexts i) text := by
  have hblock : (sampleTexts.all fun text => text.all fun b => b.toNat != 0) = true ∧
      (stringBlock sampleTexts).length ≤ 2 ^ 64 := by decide +kernel
  have htext := List.all_eq_true.mp hblock.1 text (List.mem_of_getElem? hi)
  refine isString_stringBlock _ hi (fun b hb hzero => ?_) hblock.2
  have hbyte := List.all_eq_true.mp htext b hb
  rw [hzero] at hbyte
  cases hbyte

def sampleStrings : PanicStrings sampleMemory where
  header := stringAddr 0xFFFFFFFF80220000#64 sampleTexts 0
  lines := (List.range 8).map fun i => stringAddr 0xFFFFFFFF80220000#64 sampleTexts (i + 1)
  header_text := sampleMemory_text rfl
  lines_text := by
    repeat' first | exact .nil | refine .cons (sampleMemory_text rfl) ?_

theorem dumpText_congr {context context' : Reg → Word}
    (h : ∀ r, r ≠ .zero → context r = context' r) : dumpText context = dumpText context' := by
  have hlabel : ∀ line ∈ labelledLines, ∀ e ∈ line, e.2 ≠ .zero := by decide
  refine List.flatMap_congr fun line hline => congrArg (· ++ [chr '\n']) ?_
  refine List.flatMap_congr fun e he => ?_
  rw [entryText, entryText, h e.2 (hlabel line hline e he)]

theorem panicText_congr {context context' : Reg → Word} {cpu : ℕ} {cause : List Byte}
    (h : ∀ r, r ≠ .zero → context r = context' r) :
    panicText cpu cause context = panicText cpu cause context' := by
  rw [panicText, panicText, dumpText_congr h]

/-- Two panics write the same text exactly where the processors, the causes and all registers in
the control blocks are the same. -/
theorem kernel_panic_text_readable {mem mem' : Memory} (strings : PanicStrings mem)
    (strings' : PanicStrings mem') (cpus cpus' : Addr) (m m' : Machine) {cause cause' : Addr}
    {text text' : List Byte} (hcpu : (srvHalGetExecutingCPU m).toNat < 10)
    (hcpu' : (srvHalGetExecutingCPU m').toNat < 10) (hcause : IsString mem cause text)
    (hcause' : IsString mem' cause' text') :
    ∃ out out', srvKernelPanic strings cpus m cause = .ok out ∧
      srvKernelPanic strings' cpus' m' cause' = .ok out' ∧
      (out = out' ↔ srvHalGetExecutingCPU m = srvHalGetExecutingCPU m' ∧ text = text' ∧
        ∀ r, r ≠ .zero →
          contextField m.mem (srvHalGetCurrentContextStruct cpus m) (.reg r) =
            contextField m'.mem (srvHalGetCurrentContextStruct cpus' m') (.reg r)) := by
  refine ⟨_, _, srvKernelPanic_text strings cpus hcpu hcause,
    srvKernelPanic_text strings' cpus' hcpu' hcause', fun heq => ?_, ?_⟩
  · obtain ⟨hnumber, htext, hregs⟩ := panicText_inj hcpu hcpu' heq
    exact ⟨BitVec.eq_of_toNat_eq hnumber, htext, hregs⟩
  · rintro ⟨hnumber, rfl, hregs⟩
    rw [hnumber, panicText_congr hregs]

/-- Processor 0 with nothing in its control block, or with one register. -/
def sampleMachine (sp : Word) : Machine where
  regs _ := 0#64
  csrs _ := 0#64
  mem a := if a = 16#64 then sp else 0#64

theorem kernel_panic_text_readable_sample :
    ∃ out out',
      srvKernelPanic sampleStrings 0#64 (sampleMachine 0#64)
        (stringAddr 0xFFFFFFFF80220000#64 sampleTexts 9) = .ok out ∧
      srvKernelPanic sampleStrings 0#64 (sampleMachine 1#64)
        (stringAddr 0xFFFFFFFF80220000#64 sampleTexts 9) = .ok out' ∧ out ≠ out' := by
  have hcause := sampleMemory_text (i := 9) rfl
  obtain ⟨out, out', hout, hout', hiff⟩ := kernel_panic_text_readable sampleStrings sampleStrings
    0#64 0#64 (sampleMachine 0#64) (sampleMachine 1#64) (by decide) (by decide) hcause hcause
  refine ⟨out, out', hout, hout', fun heq => ?_⟩
  exact absurd ((hiff.mp heq).2.2 .sp (by decide)) (by decide)

section Exceptions

variable {k : Image} {m m' : Machine}

theorem exceptionHandlerStarts_tp (hstack : ClearRoom k m) (h : exceptionHandlerStarts k m m') :
    m'.reg .tp = m.reg .tp := by
  obtain ⟨m₁, hsave, rfl⟩ := h
  have hsaved := srvHalSaveCPUContext_saved (hstack.setReg_ra k.afterSaveContext).stackRoom hsave
  rw [Machine.setReg_reg_ne _ _ (by decide), hsaved.kept .tp rfl,
    Machine.setReg_reg_ne _ _ (by decide)]

theorem exceptionHandlerStarts_panics {mem : Memory} (strings : PanicStrings mem) {cause : Addr}
    (hstack : ClearRoom k m) (hkernel : m.csrs .sstatus &&& rv64SstatusSppBit ≠ 0#64)
    (hcause : IsString mem cause (literal (exceptionText ((m.csrs .scause).toNat % 2 ^ 63))))
    (hstarts : exceptionHandlerStarts k m m') :
    srvArchExceptionHandler k.cpus m' =
        .error (.exception (exceptionText ((m.csrs .scause).toNat % 2 ^ 63))) ∧
      srvKernelPanic strings k.cpus m' cause = .ok (panicText (m.reg .tp).toNat
        (literal (exceptionText ((m.csrs .scause).toNat % 2 ^ 63)))
        fun r => if r = .ra then k.afterSaveContext else m.reg r) := by
  have htp := exceptionHandlerStarts_tp hstack hstarts
  have hcpu := hstack.cpu
  rw [sysrvMaxCpus] at hcpu
  have hblock : srvHalGetCurrentContextStruct k.cpus m' = controlBlock k (m.reg .tp).toNat := by
    rw [currentContextStruct_congr k.cpus htp, hstack.currentContextStruct]
  have hnumber : (srvHalGetExecutingCPU m').toNat = (m.reg .tp).toNat := by
    rw [srvHalGetExecutingCPU, htp, BitVec.toNat_setWidth, Nat.mod_eq_of_lt (by omega)]
  have hfield := hstack.exceptionHandlerStarts_block hstarts
  constructor
  · have hspp : contextField m'.mem (controlBlock k (m.reg .tp).toNat) (.csr .sstatus) &&&
        rv64SstatusSppBit ≠ 0#64 := by
      rw [hfield]
      exact hkernel
    have hscause : contextField m'.mem (controlBlock k (m.reg .tp).toNat) (.csr .scause) =
        m.csrs .scause := hfield _
    have htext := exceptionString_eq m'.mem (controlBlock k (m.reg .tp).toNat)
    rw [hscause] at htext
    rw [← htext, srvArchExceptionHandler, hblock]
    simp [srvHalGetExceptionCause, hspp]
  · have hdigit : (srvHalGetExecutingCPU m').toNat < 10 := by omega
    rw [srvKernelPanic_text strings k.cpus hdigit hcause, hnumber, hblock]
    refine congrArg _ (panicText_congr fun r _ => ?_)
    rw [hfield]
    split
    · rename_i hra
      rw [hra]
      exact Machine.setReg_reg_self _ _ (by decide)
    · rename_i hra
      exact Machine.setReg_reg_ne _ _ hra

/-- An exception in the kernel comes to a panic that writes the cause by its code, the number of
the processor and the registers at the trap, except that `ra` is the one of the trap handler. -/
theorem kernel_exception_prints_context {mem : Memory} (strings : PanicStrings mem) {cause : Addr}
    (hstack : ClearRoom k m) (hkernel : m.csrs .sstatus &&& rv64SstatusSppBit ≠ 0#64)
    (hcause : IsString mem cause (literal (exceptionText ((m.csrs .scause).toNat % 2 ^ 63)))) :
    (∃ m', exceptionHandlerStarts k m m') ∧ ∀ m', exceptionHandlerStarts k m m' →
      srvArchExceptionHandler k.cpus m' =
        .error (.exception (exceptionText ((m.csrs .scause).toNat % 2 ^ 63))) ∧
      srvKernelPanic strings k.cpus m' cause = .ok (panicText (m.reg .tp).toNat
        (literal (exceptionText ((m.csrs .scause).toNat % 2 ^ 63)))
        fun r => if r = .ra then k.afterSaveContext else m.reg r) :=
  ⟨hstack.exists_exceptionHandlerStarts, fun _ =>
    exceptionHandlerStarts_panics strings hstack hkernel hcause⟩

end Exceptions

/-- A load page fault in the kernel, with `a0` and the stack pointer set. -/
def kernelTrap : Machine where
  regs r := if r = .sp then 0xFFFFFFFF80300000#64 else if r = .a0 then 7#64 else 0#64
  csrs c := if c = .sstatus then 0x100#64 else if c = .scause then 13#64 else 0#64
  mem _ := 0#64

theorem kernel_exception_prints_context_page_fault :
    (∃ m', exceptionHandlerStarts kernelImage kernelTrap m') ∧
      ∀ m', exceptionHandlerStarts kernelImage kernelTrap m' →
        srvArchExceptionHandler kernelImage.cpus m' = .error (.exception "Page fault") ∧
        srvKernelPanic sampleStrings kernelImage.cpus m'
          (stringAddr 0xFFFFFFFF80220000#64 sampleTexts 9) = .ok (panicText 0 (literal "Page fault")
            fun r => if r = .ra then kernelImage.afterSaveContext else kernelTrap.reg r) :=
  kernel_exception_prints_context sampleStrings
    ⟨by decide, by decide, by decide, by decide⟩ (by decide) (sampleMemory_text rfl)

end SysRv.Panic
