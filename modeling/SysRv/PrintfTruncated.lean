import SysRv.PrintfFormats
import SysRv.PrintfReads

/-!
# Formats that end in a directive

The scan goes over the NUL of a format that ends in the middle of a directive: behind a `%`,
behind the digits of a width, or behind an `l` the NUL is taken for the character of the
directive, and the step over that character is made all the same. A format that ends nowhere in
a directive is read up to its NUL and no further.
-/

namespace SysRv.Printf

open ByteMemory KString

/-- Where in a directive the scan stands: outside, behind the `%`, in the width or behind `l`. -/
inductive ScanState where
  | text | percent | width | long
  deriving DecidableEq, Repr

def scanByte : ScanState → Byte → ScanState
  | .text, b => if b = chr '%' then .percent else .text
  | .percent, b => if b = chr '0' then .width else if b = chr 'l' then .long else .text
  | .width, b => if isDigit b then .width else if b = chr 'l' then .long else .text
  | .long, _ => .text

/-- The format does not end in the middle of a directive. -/
def Complete (text : List Byte) : Prop := text.foldl scanByte .text = .text

instance (text : List Byte) : Decidable (Complete text) := inferInstanceAs (Decidable (_ = _))

/-- There is no argument left, or one of the arguments is not the string it is taken for. -/
def ArgumentFault (mem : Memory) (va : List (BitVec 64)) (fault : PrintfFault) : Prop :=
  va = [] ∧ fault = .noArgument ∨ ∃ val ∈ va, printfInternalString mem val = .error fault

/-- The round goes on to an index with at most one argument taken, or stops at an argument. -/
def EndsAt (mem : Memory) (s : PrintfState) (index : ℕ) (result : Except PrintfFault PrintfState) :
    Prop :=
  (∃ s' taken, result = .ok s' ∧ s'.index = index ∧ s.va = taken ++ s'.va ∧ taken.length ≤ 1) ∨
    ∃ fault, result = .error fault ∧ ArgumentFault mem s.va fault

variable {mem : Memory} {format : Addr} {s : PrintfState}

theorem printArg_endsAt {f : BitVec 64 → Except PrintfFault Printed}
    (hf : ∀ val fault, f val = .error fault → printfInternalString mem val = .error fault) :
    EndsAt mem s s.index (s.printArg f) := by
  rw [PrintfState.printArg.eq_def]
  cases hva : s.va with
  | nil => exact .inr ⟨_, rfl, .inl ⟨hva, rfl⟩⟩
  | cons val va =>
    simp only [bind, Except.bind]
    cases hval : f val with
    | ok p => exact .inl ⟨_, [val], rfl, rfl, hva, le_rfl⟩
    | error fault =>
      exact .inr ⟨fault, rfl, .inr ⟨val, hva ▸ List.mem_cons_self .., hf val fault hval⟩⟩

/-- A conversion that makes its output of every argument. -/
theorem printArg_ok_endsAt {f : BitVec 64 → Printed} :
    EndsAt mem s s.index (s.printArg fun val => .ok (f val)) :=
  printArg_endsAt fun _ _ h => nomatch h

/-- The hexadecimal helpers make their output of every argument, too. -/
theorem printArg_eq_endsAt {f : BitVec 64 → Except PrintfFault Printed} {g : BitVec 64 → Printed}
    (h : ∀ val, f val = .ok (g val)) : EndsAt mem s s.index (s.printArg f) :=
  printArg_endsAt fun val _ hfault => (nomatch (h val).symm.trans hfault)

theorem printDirective_endsAt {w : BitVec 32} {formatChar : Byte}
    (hchar : readChar mem format s.index = .ok formatChar)
    (hnext : formatChar = chr 'l' → ∃ b, readChar mem format (s.index + 1) = .ok b) :
    EndsAt mem s (if formatChar = chr 'l' then s.index + 1 else s.index)
      (printDirective mem format w s) := by
  rw [printDirective, hchar]
  simp only [bind, Except.bind]
  split
  · obtain ⟨nextFormatChar, hnextChar⟩ := hnext ‹_›
    rw [hnextChar]
    dsimp only
    split
    · exact printArg_eq_endsAt (s := { s with index := s.index + 1 })
        fun val => printfInternalHexULongPadded_eq val w
    split
    · exact printArg_ok_endsAt (s := { s with index := s.index + 1 })
    · exact .inl ⟨_, [], rfl, rfl, rfl, Nat.zero_le _⟩
  split
  · exact printArg_ok_endsAt
  split
  · exact printArg_ok_endsAt
  split
  · exact printArg_eq_endsAt fun val => printfInternalHexPadded_eq (val.setWidth 32) w
  split
  · exact printArg_endsAt fun _ _ h => h
  split <;> exact .inl ⟨_, [], rfl, rfl, rfl, Nat.zero_le _⟩

/-- The character at the start of the rest of a format, its NUL where nothing is left. -/
theorem readChar_headD {i : ℕ} {rest : List Byte}
    (h : IsString mem (format + BitVec.ofNat 64 i) rest) :
    readChar mem format i = .ok (rest.headD 0#8) := by
  rw [readChar, readByte]
  cases rest with
  | nil => rw [h.nil_byte]; rfl
  | cons b rest => rw [h.head.1]; rfl

theorem isString_drop {i : ℕ} {front rest : List Byte}
    (h : IsString mem (format + BitVec.ofNat 64 i) (front ++ rest)) :
    IsString mem (format + BitVec.ofNat 64 (i + front.length)) rest where
  bytes := by
    have hbytes := h.bytes
    rw [List.append_assoc] at hbytes
    rw [BitVec.ofNat_add, ← BitVec.add_assoc]
    exact (holds_append.mp hbytes).2
  nonzero b hb := h.nonzero b (List.mem_append_right _ hb)

theorem isString_next {i : ℕ} {b : Byte} {rest : List Byte}
    (h : IsString mem (format + BitVec.ofNat 64 i) (b :: rest)) :
    IsString mem (format + BitVec.ofNat 64 (i + 1)) rest := @isString_drop mem format i [b] rest h

/-- What the digits of a width are to the scan: the rest starts with bytes that leave it in the
state `st`, in which the next byte is the character of the directive. -/
structure WidthEnds (rest : List Byte) (from' st : ScanState) (width tail : List Byte) : Prop where
  split : rest = width ++ tail
  eats : width.foldl scanByte from' = st
  inside : st = .percent ∨ st = .width
  stops : ∀ c, tail.head? = some c → scanByte st c = if c = chr 'l' then .long else .text

theorem WidthEnds.cons {b : Byte} {rest width tail : List Byte} {st₀ st₁ st : ScanState}
    (h : WidthEnds rest st₁ st width tail) (hb : scanByte st₀ b = st₁) :
    WidthEnds (b :: rest) st₀ st (b :: width) tail :=
  ⟨by rw [h.split, List.cons_append], by rw [List.foldl_cons, hb, h.eats], h.inside, h.stops⟩

/-- There is no width where the first byte already is the character of the directive. -/
theorem widthEnds_nil {rest : List Byte} {st : ScanState} (hst : st = .percent ∨ st = .width)
    (h : ∀ c, rest.head? = some c → scanByte st c = if c = chr 'l' then .long else .text) :
    WidthEnds rest st st [] rest := ⟨rfl, rfl, hst, h⟩

theorem zeroPadWidthLoop_ends {n i : ℕ} {v : BitVec 32} {rest : List Byte}
    (h : IsString mem (format + BitVec.ofNat 64 i) rest) (hn : rest.length < n) :
    ∃ width tail w, WidthEnds rest .width .width width tail ∧
      zeroPadWidthLoop mem format n v i = .ok (w, i + width.length) ∧
      ∀ k ∈ zeroPadWidthLoopReads mem format n i, k ≤ i + width.length := by
  induction n generalizing i v rest with
  | zero => exact absurd hn (Nat.not_lt_zero _)
  | succ n ih =>
    rw [zeroPadWidthLoop, zeroPadWidthLoopReads, readChar_headD h]
    simp only [bind, Except.bind]
    by_cases hdigit : isDigit (rest.headD 0#8) = true
    · cases rest with
      | nil => exact absurd hdigit (by decide)
      | cons b rest =>
        rw [List.headD_cons] at hdigit ⊢
        obtain ⟨width, tail, w, hends, hrun, hreads⟩ := ih (i := i + 1)
          (v := v * 10#32 + (b - chr '0').setWidth 32) (isString_next h)
          (Nat.lt_of_succ_lt_succ hn)
        rw [Nat.add_assoc, Nat.add_comm 1] at hrun hreads
        rw [if_pos hdigit, if_pos hdigit]
        exact ⟨b :: width, tail, w, hends.cons (by rw [scanByte, if_pos hdigit]), hrun,
          List.forall_mem_cons.mpr ⟨Nat.le_add_right .., hreads⟩⟩
    · rw [if_neg hdigit, if_neg hdigit]
      refine ⟨[], rest, v, widthEnds_nil (.inr rfl) fun c hc => ?_, rfl, by simp⟩
      rw [List.headD_eq_head?_getD, hc, Option.getD_some] at hdigit
      rw [scanByte, if_neg hdigit]

theorem parseZeroPadWidth_ends {i : ℕ} {rest : List Byte}
    (h : IsString mem (format + BitVec.ofNat 64 i) rest) :
    ∃ st width tail w, WidthEnds rest .percent st width tail ∧
      parseZeroPadWidth mem format i = .ok (w, i + width.length) ∧
      ∀ k ∈ parseZeroPadWidthReads mem format i, k ≤ i + width.length := by
  rw [parseZeroPadWidth, parseZeroPadWidthReads, readChar_headD h]
  simp only [bind, Except.bind]
  by_cases hzero : rest.headD 0#8 = chr '0'
  · cases rest with
    | nil => exact absurd hzero (by decide)
    | cons b rest =>
      rw [List.headD_cons] at hzero ⊢
      have hlen := h.length_lt
      obtain ⟨width, tail, w, hends, hrun, hreads⟩ := zeroPadWidthLoop_ends (i := i + 1)
        (n := 2 ^ 64) (v := 0#32) (isString_next h) (Nat.lt_of_succ_lt hlen)
      rw [Nat.add_assoc, Nat.add_comm 1] at hrun hreads
      rw [if_neg (not_not_intro hzero), if_neg (not_not_intro hzero)]
      exact ⟨.width, b :: width, tail, w, hends.cons (by rw [scanByte, if_pos hzero]), hrun,
        List.forall_mem_cons.mpr ⟨Nat.le_add_right .., hreads⟩⟩
  · rw [if_pos hzero, if_pos hzero]
    refine ⟨.percent, [], rest, 0#32, widthEnds_nil (.inl rfl) fun c hc => ?_, rfl, by simp⟩
    rw [List.headD_eq_head?_getD, hc, Option.getD_some] at hzero
    rw [scanByte, if_neg hzero]

theorem printDirective_cases {w : BitVec 32} {st : ScanState} {tail : List Byte}
    (h : IsString mem (format + BitVec.ofNat 64 s.index) tail)
    (hinside : st = .percent ∨ st = .width)
    (hstops : ∀ c, tail.head? = some c → scanByte st c = if c = chr 'l' then .long else .text) :
    (∃ last rest j, tail = last ++ rest ∧ last.length = j + 1 ∧ last.foldl scanByte st = .text ∧
      (∀ k ∈ printDirectiveReads mem format s.index, k ≤ s.index + j) ∧
      EndsAt mem s (s.index + j) (printDirective mem format w s)) ∨
    tail.foldl scanByte st ≠ .text ∧
      EndsAt mem s (s.index + tail.length) (printDirective mem format w s) := by
  have hchar := readChar_headD h
  rcases tail with _ | ⟨c, tail⟩
  · -- the NUL is the character of the directive
    refine .inr ⟨?_, printDirective_endsAt hchar fun hl => absurd hl (by decide)⟩
    rcases hinside with rfl | rfl <;> decide
  have hst := hstops c rfl
  rw [List.headD_cons] at hchar
  by_cases hl : c = chr 'l'
  · have hnext := readChar_headD (isString_next h)
    have hends := printDirective_endsAt (w := w) hchar fun _ => ⟨_, hnext⟩
    rw [if_pos hl] at hst hends
    rcases tail with _ | ⟨c', tail⟩
    · -- the NUL is the character behind the `l`
      refine .inr ⟨?_, hends⟩
      rw [List.foldl_cons, hst]
      decide
    · refine .inl ⟨[c, c'], tail, 1, rfl, rfl, by rw [List.foldl_cons, hst]; rfl, ?_, hends⟩
      simp [printDirectiveReads, hchar, hl]
  · have hends := printDirective_endsAt (w := w) hchar fun h => absurd h hl
    rw [if_neg hl] at hst hends
    refine .inl ⟨[c], tail, 0, rfl, rfl, by rw [List.foldl_cons, hst]; rfl, ?_, hends⟩
    simp [printDirectiveReads, hchar, hl]

theorem printStep_endsAt {w : BitVec 32} {i index : ℕ}
    (hwidth : parseZeroPadWidth mem format (s.index + 1) = .ok (w, i))
    (h : EndsAt mem { s with index := i } index (printDirective mem format w { s with index := i })) :
    EndsAt mem s (index + 1) (printStep mem format (chr '%') s) := by
  rw [printStep_directive hwidth]
  rcases h with ⟨s', taken, hrun, hindex, hva⟩ | ⟨fault, hrun, hfault⟩
  · rw [hrun]
    exact .inl ⟨_, taken, rfl, congrArg (· + 1) hindex, hva⟩
  · rw [hrun]
    exact .inr ⟨fault, rfl, hfault⟩

/-- What a round does with the rest of the format: it takes a character or a whole directive, or it
steps over the NUL of a format that ends in the middle of one. -/
inductive Round (mem : Memory) (format : Addr) (s : PrintfState) (b : Byte) (rest : List Byte) :
    Prop where
  | inside (eaten rest' : List Byte) (split : b :: rest = eaten ++ rest') (pos : 0 < eaten.length)
      (complete : Complete eaten)
      (reads : ∀ k ∈ printStepReads mem format b s.index, k ≤ s.index + eaten.length)
      (ends : EndsAt mem s (s.index + eaten.length) (printStep mem format b s))
  | past (truncated : ¬ Complete (b :: rest))
      (ends : EndsAt mem s (s.index + (b :: rest).length + 1) (printStep mem format b s))

theorem round_text {b : Byte} (rest : List Byte) (hb : b ≠ chr '%') :
    Round mem format s b rest := by
  refine .inside [b] rest rfl Nat.zero_lt_one ?_ ?_ ?_
  · rw [Complete, List.foldl_cons, scanByte, if_neg hb]
    rfl
  · simp [printStepReads, hb]
  · rw [printStep, if_neg hb]
    exact .inl ⟨_, [], rfl, rfl, rfl, Nat.zero_le _⟩

theorem round_percent {rest : List Byte}
    (h : IsString mem (format + BitVec.ofNat 64 (s.index + 1)) rest) :
    Round mem format s (chr '%') rest := by
  obtain ⟨st, width, tail, w, hwidth, hparse, hreads⟩ := parseZeroPadWidth_ends h
  have htail : IsString mem (format + BitVec.ofNat 64 (s.index + 1 + width.length)) tail :=
    isString_drop (hwidth.split ▸ h)
  have hfold : ∀ bs, (chr '%' :: (width ++ bs)).foldl scanByte .text = bs.foldl scanByte st := by
    intro bs
    rw [List.foldl_cons, List.foldl_append, ← hwidth.eats]
    rfl
  have hlen : ∀ bs : List Byte, s.index + (chr '%' :: (width ++ bs)).length =
      s.index + 1 + width.length + bs.length := by
    intro bs
    rw [List.length_cons, List.length_append]
    omega
  rw [hwidth.split]
  rcases printDirective_cases (s := { s with index := s.index + 1 + width.length }) (w := w) htail
    hwidth.inside hwidth.stops with ⟨last, rest', j, rfl, hj, hlast, hbound, hends⟩ | ⟨hst, hends⟩
  · refine .inside (chr '%' :: (width ++ last)) rest' (by simp) (Nat.succ_pos _)
      ((hfold last).trans hlast) ?_ ?_
    · intro k hk
      rw [printStepReads, if_pos rfl, hparse] at hk
      rw [hlen, hj]
      rcases List.mem_append.mp hk with hk | hk
      · have hle := hreads k hk
        omega
      · have hle : k ≤ s.index + 1 + width.length + j := hbound k hk
        omega
    · rw [hlen, hj]
      exact printStep_endsAt hparse hends
  · refine .past (fun hcomplete => hst ((hfold tail).symm.trans hcomplete)) ?_
    rw [hlen]
    exact printStep_endsAt hparse hends

theorem printStep_round {b : Byte} {rest : List Byte}
    (h : IsString mem (format + BitVec.ofNat 64 s.index) (b :: rest)) :
    Round mem format s b rest := by
  by_cases hpercent : b = chr '%'
  · subst hpercent
    exact round_percent (isString_next h)
  · exact round_text rest hpercent

theorem complete_append {front rest : List Byte} (h : Complete front) :
    Complete (front ++ rest) ↔ Complete rest := by
  rw [Complete, List.foldl_append, h]
  rfl

/-- The run ends at the NUL with index `len`, or stops at an argument before. -/
def EndsAtNul (mem : Memory) (va : List (BitVec 64)) (len : ℕ)
    (result : Except PrintfFault PrintfState) : Prop :=
  (∃ r, result = .ok r ∧ r.index = len) ∨
    ∃ fault, result = .error fault ∧
      (fault = .noArgument ∨ ∃ val ∈ va, printfInternalString mem val = .error fault)

theorem ArgumentFault.endsAtNul {va : List (BitVec 64)} {fault : PrintfFault} {len : ℕ}
    (h : ArgumentFault mem va fault) : EndsAtNul mem va len (.error fault) :=
  .inr ⟨fault, rfl, h.imp_left And.right⟩

/-- An argument at which the rest of a run stops is an argument of the run. -/
theorem EndsAtNul.of_taken {taken va : List (BitVec 64)} {len : ℕ}
    {result : Except PrintfFault PrintfState} (h : EndsAtNul mem va len result) :
    EndsAtNul mem (taken ++ va) len result := by
  rcases h with h | ⟨fault, hfault, harg⟩
  · exact .inl h
  · refine .inr ⟨fault, hfault, harg.imp_right ?_⟩
    rintro ⟨val, hval, hbad⟩
    exact ⟨val, List.mem_append_right taken hval, hbad⟩

theorem reads_le {i eaten len : ℕ} {reads rest : List ℕ} (hlen : i + eaten ≤ len)
    (hreads : ∀ k ∈ reads, k ≤ i + eaten) (hrest : ∀ k ∈ rest, k ≤ len) :
    ∀ k ∈ i :: (reads ++ rest), k ≤ len :=
  List.forall_mem_cons.mpr ⟨(Nat.le_add_right ..).trans hlen,
    List.forall_mem_append.mpr ⟨fun k hk => (hreads k hk).trans hlen, hrest⟩⟩

theorem printfLoop_inside {n : ℕ} {rest : List Byte}
    (h : IsString mem (format + BitVec.ofNat 64 s.index) rest) (hcomplete : Complete rest)
    (hn : rest.length < n) :
    (∀ k ∈ printfLoopReads mem format n s, k ≤ s.index + rest.length) ∧
      EndsAtNul mem s.va (s.index + rest.length) (printfLoop mem format n s) := by
  induction n generalizing s rest with
  | zero => exact absurd hn (Nat.not_lt_zero _)
  | succ n ih =>
    rw [printfLoop, printfLoopReads, readChar_headD h]
    simp only [bind, Except.bind]
    cases rest with
    | nil => exact ⟨by simp, .inl ⟨s, rfl, rfl⟩⟩
    | cons b rest =>
      rw [List.headD_cons, if_neg h.head.2, if_neg h.head.2]
      cases printStep_round h with
      | inside eaten rest' hsplit hpos heaten hreads hends =>
        rw [hsplit] at h hcomplete hn ⊢
        rw [List.length_append] at hn ⊢
        have hle : s.index + eaten.length ≤ s.index + (eaten.length + rest'.length) := by omega
        rcases hends with ⟨s', taken, hrun, hindex, hva, -⟩ | ⟨fault, hrun, hfault⟩
        · obtain ⟨hmore, hend⟩ := ih (s := s') (hindex ▸ isString_drop h)
            ((complete_append heaten).mp hcomplete) (by omega)
          rw [hindex, Nat.add_assoc] at hmore hend
          rw [hrun, hva]
          exact ⟨reads_le hle hreads hmore, hend.of_taken⟩
        · rw [hrun]
          exact ⟨reads_le hle hreads (by simp), hfault.endsAtNul⟩
      | past htruncated => exact absurd hcomplete htruncated

/-- Where the arguments do not stop it, the scan of a format that ends in the middle of a directive
reads behind the NUL. -/
theorem printfLoop_past_nul {n : ℕ} {rest : List Byte}
    (h : IsString mem (format + BitVec.ofNat 64 s.index) rest) (htruncated : ¬ Complete rest)
    (hn : rest.length < n) (hargs : rest.length ≤ s.va.length)
    (hstrings : ∀ val ∈ s.va, ∃ p, printfInternalString mem val = .ok p) :
    s.index + rest.length + 1 ∈ printfLoopReads mem format n s := by
  induction n generalizing s rest with
  | zero => exact absurd hn (Nat.not_lt_zero _)
  | succ n ih =>
    cases rest with
    | nil => exact absurd rfl htruncated
    | cons b rest =>
      have hgood : ∀ fault, ¬ ArgumentFault mem s.va fault := by
        rintro fault (⟨hnone, -⟩ | ⟨val, hval, hbad⟩)
        · rw [hnone] at hargs
          exact absurd hargs (Nat.not_succ_le_zero _)
        · obtain ⟨p, hp⟩ := hstrings val hval
          rw [hp] at hbad
          cases hbad
      have hchar : readChar mem format s.index = .ok b := readChar_headD h
      rw [printfLoopReads, hchar]
      simp only [if_neg h.head.2]
      refine List.mem_cons_of_mem _ (List.mem_append_right _ ?_)
      cases printStep_round h with
      | inside eaten rest' hsplit hpos heaten _ hends =>
        rw [hsplit] at h htruncated hn hargs ⊢
        rw [List.length_append] at hn hargs ⊢
        rcases hends with ⟨s', taken, hrun, hindex, hva, htaken⟩ | ⟨fault, -, hfault⟩
        · rw [hva, List.length_append] at hargs
          have hmem := ih (s := s') (hindex ▸ isString_drop h)
            (fun hrest => htruncated ((complete_append heaten).mpr hrest)) (by omega) (by omega)
            fun val hval => hstrings val (hva ▸ List.mem_append_right taken hval)
          rw [hrun, ← Nat.add_assoc, ← hindex]
          exact hmem
        · exact absurd hfault (hgood fault)
      | past _ hends =>
        rcases hends with ⟨s', -, hrun, hindex, -⟩ | ⟨fault, -, hfault⟩
        · obtain ⟨n, rfl⟩ : ∃ k, n = k + 1 :=
            Nat.exists_eq_add_one_of_ne_zero (by simp only [List.length_cons] at hn; omega)
          rw [hrun, ← hindex]
          exact List.mem_cons_self ..
        · exact absurd hfault (hgood fault)

/-- The format is read up to its NUL and no further, and the scan ends there. -/
def ReadsInside (mem : Memory) (format : Addr) (text : List Byte) (va : List (BitVec 64)) : Prop :=
  (∀ k ∈ printfInternalReads mem format va, k ≤ text.length) ∧
    EndsAtNul mem va text.length (printfInternal mem format va)

section Format

variable {text : List Byte} {va : List (BitVec 64)}

theorem printfInternal_inside (h : IsString mem format text) (hcomplete : Complete text) :
    ReadsInside mem format text va := by
  have hrun := printfLoop_inside (s := ⟨0, va, [], 0#32⟩) (by simpa using h) hcomplete h.length_lt
  rwa [Nat.zero_add] at hrun

theorem printfInternal_past_nul (h : IsString mem format text) (htruncated : ¬ Complete text)
    (hargs : text.length ≤ va.length)
    (hstrings : ∀ val ∈ va, ∃ p, printfInternalString mem val = .ok p) :
    text.length + 1 ∈ printfInternalReads mem format va := by
  have hmem := printfLoop_past_nul (s := ⟨0, va, [], 0#32⟩) (by simpa using h) htruncated
    h.length_lt hargs hstrings
  rwa [Nat.zero_add] at hmem

/-- A format stays inside its bytes, whatever the arguments are, exactly where it does not end in
the middle of a directive. With arguments enough, each of them a string, it goes behind its NUL in
every other case. -/
theorem printfInternal_readsInside_iff (h : IsString mem format text) :
    ((∀ va, ReadsInside mem format text va) ↔ Complete text) ∧
      ∀ va : List (BitVec 64), text.length ≤ va.length →
        (∀ val ∈ va, ∃ p, printfInternalString mem val = .ok p) →
        (ReadsInside mem format text va ↔ Complete text) := by
  have hpast : ∀ va : List (BitVec 64), text.length ≤ va.length →
      (∀ val ∈ va, ∃ p, printfInternalString mem val = .ok p) →
      ReadsInside mem format text va → Complete text := by
    intro va hargs hstrings hinside
    by_contra htruncated
    have hle := hinside.1 _ (printfInternal_past_nul h htruncated hargs hstrings)
    omega
  refine ⟨⟨fun hall => ?_, fun hcomplete va => printfInternal_inside h hcomplete⟩,
    fun va hargs hstrings => ⟨hpast va hargs hstrings, printfInternal_inside h⟩⟩
  -- the format itself is a string that every conversion can print
  refine hpast (List.replicate text.length format) (by simp) (fun val hval => ?_) (hall _)
  rw [List.eq_of_mem_replicate hval]
  exact ⟨_, printfInternalString_of_isString h⟩

/-- `%03x%lx`, in which a byte is left behind the `l`. -/
theorem printfInternal_readsInside_iff_long :
    ReadsInside (.ofBytes 4096#64 ("%03x%lx\x00".toList.map chr)) 4096#64
      ("%03x%lx".toList.map chr) [1#64, 2#64] := by
  have h : IsString (.ofBytes 4096#64 ("%03x%lx\x00".toList.map chr)) 4096#64
      ("%03x%lx".toList.map chr) := ⟨by simp [chr, Memory.ofBytes], by decide⟩
  exact (printfInternal_readsInside_iff h).1.mpr (by decide) [1#64, 2#64]

/-- A format that is nothing but `%`, with nothing readable behind its NUL. -/
theorem printfInternal_reads_past_nul :
    IsString (.ofBytes 4096#64 [chr '%', 0#8]) 4096#64 [chr '%'] ∧
      printfInternal (.ofBytes 4096#64 [chr '%', 0#8]) 4096#64 [] =
        .error (.memory (.unreadable 4098#64)) ∧
      ¬ ∀ k ∈ printfInternalReads (.ofBytes 4096#64 [chr '%', 0#8]) 4096#64 [],
        k ≤ [chr '%'].length := by
  have hread : 2 ∈ printfInternalReads (.ofBytes 4096#64 [chr '%', 0#8]) 4096#64 [] := by
    decide
  exact ⟨⟨by simp [chr, Memory.ofBytes], by decide⟩, rfl, fun h => absurd (h 2 hread) (by decide)⟩

end Format

end SysRv.Printf
