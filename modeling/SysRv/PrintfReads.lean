import SysRv.PrintfScan

/-!
# Where the format is read

The indices of the format that a scan reads, in order, and the proof that the run depends on no
other byte of the format.
-/

namespace SysRv.Printf

open ByteMemory KString

def zeroPadWidthLoopReads (mem : Memory) (format : Addr) : ℕ → ℕ → List ℕ
  | 0, _ => []
  | n + 1, index => index ::
    match readChar mem format index with
    | .ok b => if isDigit b then zeroPadWidthLoopReads mem format n (index + 1) else []
    | .error _ => []

def parseZeroPadWidthReads (mem : Memory) (format : Addr) (index : ℕ) : List ℕ := index ::
  match readChar mem format index with
  | .ok b => if b ≠ chr '0' then [] else zeroPadWidthLoopReads mem format (2 ^ 64) (index + 1)
  | .error _ => []

def printDirectiveReads (mem : Memory) (format : Addr) (index : ℕ) : List ℕ := index ::
  match readChar mem format index with
  | .ok formatChar => if formatChar = chr 'l' then [index + 1] else []
  | .error _ => []

/-- A character that is no `%` is read once more to be written. -/
def printStepReads (mem : Memory) (format : Addr) (character : Byte) (index : ℕ) : List ℕ :=
  if character = chr '%' then
    parseZeroPadWidthReads mem format (index + 1) ++
      match parseZeroPadWidth mem format (index + 1) with
      | .ok (_, index) => printDirectiveReads mem format index
      | .error _ => []
  else [index]

def printfLoopReads (mem : Memory) (format : Addr) : ℕ → PrintfState → List ℕ
  | 0, _ => []
  | n + 1, s => s.index ::
    match readChar mem format s.index with
    | .error _ => []
    | .ok character =>
      if character = 0#8 then []
      else printStepReads mem format character s.index ++
        match printStep mem format character s with
        | .ok s => printfLoopReads mem format n s
        | .error _ => []

/-- The indices at which `printf_internal` reads its format, up to the end of the run or up to the
access that ends it. -/
def printfInternalReads (mem : Memory) (format : Addr) (va : List (BitVec 64)) : List ℕ :=
  printfLoopReads mem format (2 ^ 64) ⟨0, va, [], 0#32⟩

section Dependence

variable {mem mem' : Memory} {format : Addr} {s : PrintfState}

theorem zeroPadWidthLoop_eq_of_reads {n i : ℕ} {v : BitVec 32}
    (h : ∀ k ∈ zeroPadWidthLoopReads mem format n i, readChar mem' format k = readChar mem format k) :
    zeroPadWidthLoop mem' format n v i = zeroPadWidthLoop mem format n v i := by
  induction n generalizing i v with
  | zero => rfl
  | succ n ih =>
    obtain ⟨hfirst, hrest⟩ := List.forall_mem_cons.mp h
    rw [zeroPadWidthLoop, zeroPadWidthLoop, hfirst]
    cases hb : readChar mem format i with
    | error fault => simp only [bind, Except.bind]
    | ok b =>
      rw [hb] at hrest
      simp only [bind, Except.bind]
      split
      · simp only [if_pos ‹_›] at hrest
        exact ih hrest
      · rfl

theorem parseZeroPadWidth_eq_of_reads {i : ℕ}
    (h : ∀ k ∈ parseZeroPadWidthReads mem format i, readChar mem' format k = readChar mem format k) :
    parseZeroPadWidth mem' format i = parseZeroPadWidth mem format i := by
  obtain ⟨hfirst, hrest⟩ := List.forall_mem_cons.mp h
  rw [parseZeroPadWidth, parseZeroPadWidth, hfirst]
  cases hb : readChar mem format i with
  | error fault => simp only [bind, Except.bind]
  | ok b =>
    rw [hb] at hrest
    simp only [bind, Except.bind]
    split
    · rfl
    · simp only [if_neg ‹_›] at hrest
      exact zeroPadWidthLoop_eq_of_reads hrest

/-- The output of a directive depends on the strings behind the arguments as well. -/
def SameStrings (mem mem' : Memory) (va : List (BitVec 64)) : Prop :=
  ∀ val ∈ va, printfInternalString mem' val = printfInternalString mem val

theorem printDirective_eq_of_reads {w : BitVec 32}
    (h : ∀ k ∈ printDirectiveReads mem format s.index,
      readChar mem' format k = readChar mem format k)
    (hva : SameStrings mem mem' s.va) :
    printDirective mem' format w s = printDirective mem format w s := by
  obtain ⟨hfirst, hrest⟩ := List.forall_mem_cons.mp h
  have hstring : s.printArg (fun val => printfInternalString mem' val) =
      s.printArg fun val => printfInternalString mem val := by
    rw [PrintfState.printArg.eq_def, PrintfState.printArg.eq_def]
    cases hs : s.va with
    | nil => rfl
    | cons val va =>
      dsimp only
      rw [hva val (hs ▸ List.mem_cons_self ..)]
  rw [printDirective, printDirective, hfirst, hstring]
  cases hc : readChar mem format s.index with
  | error fault => simp only [bind, Except.bind]
  | ok formatChar =>
    rw [hc] at hrest
    by_cases hl : formatChar = chr 'l'
    · simp only [if_pos hl] at hrest
      simp only [bind, Except.bind, if_pos hl, hrest _ (List.mem_singleton_self _)]
    · simp only [bind, Except.bind, if_neg hl]

theorem printStep_eq_of_reads {character : Byte}
    (h : ∀ k ∈ printStepReads mem format character s.index,
      readChar mem' format k = readChar mem format k)
    (hva : SameStrings mem mem' s.va) :
    printStep mem' format character s = printStep mem format character s := by
  rw [printStep.eq_def, printStep.eq_def]
  by_cases hpercent : character = chr '%'
  · rw [printStepReads, if_pos hpercent, List.forall_mem_append] at h
    rw [if_pos hpercent, if_pos hpercent, parseZeroPadWidth_eq_of_reads h.1]
    cases hparse : parseZeroPadWidth mem format (s.index + 1) with
    | error fault => simp only [bind, Except.bind]
    | ok r =>
      have hdirective := h.2
      rw [hparse] at hdirective
      simp only [bind, Except.bind]
      rw [printDirective_eq_of_reads (s := { s with index := r.2 }) hdirective hva]
  · rw [if_neg hpercent, if_neg hpercent]

theorem printArg_va {s s' : PrintfState} {f : BitVec 64 → Except PrintfFault Printed}
    (h : s.printArg f = .ok s') : s'.va ⊆ s.va := by
  obtain ⟨val, va, p, hva, -, rfl⟩ := printArg_eq_ok.mp h
  exact hva ▸ List.subset_cons_self val va

theorem printDirective_va {s' : PrintfState} {w : BitVec 32}
    (h : printDirective mem format w s = .ok s') : s'.va ⊆ s.va := by
  obtain ⟨formatChar, -, h⟩ := bind_eq_ok.mp h
  split at h
  · obtain ⟨nextFormatChar, -, h⟩ := bind_eq_ok.mp h
    iterate 2
      split at h
      · exact printArg_va (s := { s with index := s.index + 1 }) h
    cases h
    exact List.Subset.refl _
  iterate 4
    split at h
    · exact printArg_va h
  split at h <;> cases h <;> exact List.Subset.refl _

theorem printStep_va {s' : PrintfState} {character : Byte}
    (h : printStep mem format character s = .ok s') : s'.va ⊆ s.va := by
  rw [printStep.eq_def] at h
  split at h
  · obtain ⟨⟨w, i⟩, -, h⟩ := bind_eq_ok.mp h
    obtain ⟨t, ht, h⟩ := bind_eq_ok.mp h
    have hsub : t.va ⊆ s.va := printDirective_va (s := { s with index := i }) ht
    cases h
    exact hsub
  · cases h
    exact List.Subset.refl _

theorem printfLoop_eq_of_reads {n : ℕ}
    (h : ∀ k ∈ printfLoopReads mem format n s, readChar mem' format k = readChar mem format k)
    (hva : SameStrings mem mem' s.va) :
    printfLoop mem' format n s = printfLoop mem format n s := by
  induction n generalizing s with
  | zero => simp only [printfLoop]
  | succ n ih =>
    obtain ⟨hfirst, hrest⟩ := List.forall_mem_cons.mp h
    rw [printfLoop, printfLoop, hfirst]
    cases hc : readChar mem format s.index with
    | error fault => simp only [bind, Except.bind]
    | ok character =>
      rw [hc] at hrest
      simp only [bind, Except.bind]
      split
      · rfl
      · simp only [if_neg ‹_›, List.forall_mem_append] at hrest
        rw [printStep_eq_of_reads hrest.1 hva]
        cases hstep : printStep mem format character s with
        | error fault => simp only
        | ok s' =>
          have hmore := hrest.2
          rw [hstep] at hmore
          exact ih hmore fun val hval => hva val (printStep_va hstep hval)

/-- The listed indices are all of the format that a run depends on. -/
theorem printfInternal_eq_of_reads {va : List (BitVec 64)}
    (h : ∀ k ∈ printfInternalReads mem format va, readChar mem' format k = readChar mem format k)
    (hva : SameStrings mem mem' va) :
    printfInternal mem' format va = printfInternal mem format va :=
  printfLoop_eq_of_reads (s := ⟨0, va, [], 0#32⟩) h hva

end Dependence

end SysRv.Printf
