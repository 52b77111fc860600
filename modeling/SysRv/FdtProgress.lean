import SysRv.FdtFrame

/-!
# The parse loop ends on any memory

Nothing is assumed of the blob but that the names it leads to end somewhere in the next 4 GiB.
The offset is 64 bits wide, and every length that is added to it is at most a 32-bit number, so
no addition wraps around and each iteration takes the offset at least one word further.
-/

namespace SysRv.Fdt

open ByteMemory KString Kalloc

/-- A number of bytes, rounded up to whole words. -/
def wordsUp (n : ℕ) : ℕ := n + (4 - n % 4) % 4

/-- The name behind a token `FDT_BEGIN_NODE` has a NUL less than 4 GiB on. -/
def NameEnds (mem : Memory) (dt : Addr) (s : FdtState) : Prop :=
  fdtRead32 mem (dt + s.currOffset) = .ok fdtBeginNode →
    ∃ name, IsString mem (dt + (pastWord s).currOffset) name ∧ name.length < 2 ^ 32

/-- What an iteration adds to the offset: the word of the token, and what the branch for the token
steps over, as numbers that do not wrap. -/
inductive Advances (mem : Memory) (dt : Addr) (s : FdtState) : ℕ → Prop where
  | beginNode {name : List Byte} (token : fdtRead32 mem (dt + s.currOffset) = .ok fdtBeginNode)
      (isString : IsString mem (dt + (pastWord s).currOffset) name) :
    Advances mem dt s (4 + wordsUp name.length)
  | prop {propLen : BitVec 32} (token : fdtRead32 mem (dt + s.currOffset) = .ok fdtProp)
      (len : fdtRead32 mem (dt + (pastWord s).currOffset) = .ok propLen) :
    Advances mem dt s (4 + (8 + wordsUp propLen.toNat))
  | word {token : BitVec 32} (token_eq : fdtRead32 mem (dt + s.currOffset) = .ok token)
      (noBegin : token ≠ fdtBeginNode) (noProp : token ≠ fdtProp) : Advances mem dt s 4

section Iteration

variable {mem : Memory} {dt : Addr} {bound : BitVec 32} {s s' start : FdtState}

theorem Advances.four_le {k : ℕ} (h : Advances mem dt s k) : 4 ≤ k := by
  cases h with
  | beginNode | prop => exact Nat.le_add_right ..
  | word => exact le_rfl

theorem linkNode_currOffset (newNode nodeName : Addr) (nodeNameLen : BitVec 64) :
    (linkNode s newNode nodeName nodeNameLen).currOffset = s.currOffset := by
  rw [linkNode]
  split <;> rfl

theorem fdtInsertChild_currOffset {node child : Addr} {b : Bool}
    (h : fdtInsertChild s node child = .ok (s', b)) : s'.currOffset = s.currOffset := by
  rcases fdtInsertChild_eq_ok h with ⟨-, t, -, rfl⟩ | ⟨-, -, rfl⟩ <;> rfl

theorem fdtInsertProperty_currOffset {node propertyPtr : Addr} {nameoff propLen : BitVec 32}
    {b : Bool} (h : fdtInsertProperty mem s node nameoff propLen propertyPtr = .ok (s', b)) :
    s'.currOffset = s.currOffset := by
  rcases fdtInsertProperty_eq_ok h with ⟨-, t, strings, -, -, rfl⟩ | ⟨-, -, rfl⟩ <;> rfl

theorem parseBeginNode_currOffset {name : List Byte} (h : parseBeginNode mem dt s = .ok s')
    (hname : IsString mem (dt + s.currOffset) name) :
    s'.currOffset = s.currOffset + fdtAlignToNextWord (BitVec.ofNat 64 name.length) := by
  obtain ⟨nodeNameLen, hlen, h⟩ := bind_eq_ok.mp h
  rw [strlen_of_isString hname hname.length_lt] at hlen
  cases hlen
  obtain ⟨⟨newNode, t⟩, halloc, h⟩ := bind_eq_ok.mp h
  obtain ⟨rfl, rfl⟩ := eternalAlloc_eq_ok halloc
  obtain ⟨-, -, h⟩ := bind_eq_ok.mp h
  obtain ⟨⟨u, inserted⟩, hinsert, h⟩ := bind_eq_ok.mp h
  cases h
  exact (fdtInsertChild_currOffset hinsert).trans (linkNode_currOffset ..)

theorem parseProp_currOffset (h : parseProp mem dt s = .ok s') :
    ∃ propLen, fdtRead32 mem (dt + s.currOffset) = .ok propLen ∧
      s'.currOffset = s.currOffset + (8#64 + fdtAlignToNextWord (propLen.setWidth 64)) := by
  obtain ⟨propLen, hlen, h⟩ := bind_eq_ok.mp h
  obtain ⟨strOffset, -, h⟩ := bind_eq_ok.mp h
  obtain ⟨⟨t, inserted⟩, hinsert, h⟩ := bind_eq_ok.mp h
  cases h
  exact ⟨propLen, hlen, congrArg (· + _) (fdtInsertProperty_currOffset hinsert)⟩

theorem fdtAlignToNextWord_ofNat {n : ℕ} (h : n < 2 ^ 32) :
    (fdtAlignToNextWord (BitVec.ofNat 64 n)).toNat = wordsUp n := by
  have hn : (BitVec.ofNat 64 n).toNat = n := by
    rw [BitVec.toNat_ofNat, Nat.mod_eq_of_lt (by omega)]
  rw [fdtAlignToNextWord_toNat (by omega), hn, wordsUp]

theorem pastWord_currOffset (h : s.currOffset.toNat < 2 ^ 32) :
    (pastWord s).currOffset.toNat = s.currOffset.toNat + 4 := by
  rw [BitVec.toNat_add]
  simp only [BitVec.toNat_ofNat, Nat.reducePow, Nat.reduceMod]
  omega

theorem parseToken_advances {token : BitVec 32} (hoffset : s.currOffset.toNat < 2 ^ 32)
    (htoken : fdtRead32 mem (dt + s.currOffset) = .ok token) (hname : NameEnds mem dt s)
    (h : parseToken mem dt token (pastWord s) = .ok (.running s')) :
    ∃ k, Advances mem dt s k ∧ s'.currOffset.toNat = s.currOffset.toNat + k := by
  have hpast := pastWord_currOffset hoffset
  have hword : token ≠ fdtBeginNode → token ≠ fdtProp → s'.currOffset = (pastWord s).currOffset →
      ∃ k, Advances mem dt s k ∧ s'.currOffset.toNat = s.currOffset.toNat + k :=
    fun hbegin hprop heq => ⟨4, .word htoken hbegin hprop, by rw [heq, hpast]⟩
  rw [parseToken] at h
  split at h
  · obtain rfl : token = fdtBeginNode := ‹_›
    obtain ⟨name, hstring, hlen⟩ := hname htoken
    refine ⟨_, .beginNode htoken hstring, ?_⟩
    rw [parseBeginNode_currOffset (map_running_eq_ok h) hstring, BitVec.toNat_add, hpast,
      fdtAlignToNextWord_ofNat hlen, wordsUp]
    omega
  have hbegin : token ≠ fdtBeginNode := ‹_›
  split at h
  · obtain rfl : token = fdtEndNode := ‹_›
    have hend := map_running_eq_ok h
    obtain ⟨-, -, hend⟩ := bind_eq_ok.mp hend
    cases hend
    exact hword hbegin (by decide) rfl
  split at h
  · obtain rfl : token = fdtProp := ‹_›
    obtain ⟨propLen, hlen, heq⟩ := parseProp_currOffset (map_running_eq_ok h)
    refine ⟨_, .prop htoken hlen, ?_⟩
    have hprop := propLen.isLt
    have hwidth : propLen.setWidth 64 = BitVec.ofNat 64 propLen.toNat := by
      rw [← BitVec.ofNat_toNat]
    rw [heq, hwidth, BitVec.toNat_add, BitVec.toNat_add 8#64, hpast,
      fdtAlignToNextWord_ofNat hprop, wordsUp]
    simp only [BitVec.toNat_ofNat, Nat.reducePow, Nat.reduceMod]
    omega
  have hprop : token ≠ fdtProp := ‹_›
  split at h
  · cases h
    exact hword hbegin hprop rfl
  split at h
  · cases h
  · cases h
    exact hword hbegin hprop rfl

theorem parseToken_eq_done {token : BitVec 32} (h : parseToken mem dt token s = .ok (.done s')) :
    token = fdtEnd ∧ s' = s := by
  have hbranch : ∀ x : Except Fault FdtState, x.map LoopState.running ≠ .ok (.done s') := by
    intro x hx
    cases x <;> cases hx
  rw [parseToken] at h
  split at h
  · exact absurd h (hbranch _)
  split at h
  · exact absurd h (hbranch _)
  split at h
  · exact absurd h (hbranch _)
  split at h
  · cases h
  split at h
  · cases h
    exact ⟨‹_›, rfl⟩
  · cases h

/-- An iteration that goes on has passed the test of the loop. -/
theorem currOffset_lt_of_running
    (hbound : readWord mem (s.fdtInfoBlock + sizeDtStructField) = .ok bound)
    (h : parseIteration mem dt s = .ok (.running s')) : s.currOffset.toNat < bound.toNat := by
  rw [parseIteration, hbound] at h
  simp only [bind, Except.bind] at h
  split at h
  · exact (lt_setWidth_iff _).mp ‹_›
  · cases h

/-- An iteration whose test holds goes one word and what its branch steps over further, or it reads
`FDT_END`. -/
theorem parseIteration_advances {l : LoopState}
    (hbound : readWord mem (s.fdtInfoBlock + sizeDtStructField) = .ok bound)
    (hlt : s.currOffset.toNat < bound.toNat) (hname : NameEnds mem dt s)
    (h : parseIteration mem dt s = .ok l) :
    (∃ s' k, l = .running s' ∧ Advances mem dt s k ∧
      s'.currOffset.toNat = s.currOffset.toNat + k) ∨
    l = .done (pastWord s) ∧ (pastWord s).currOffset.toNat = s.currOffset.toNat + 4 := by
  have hoffset : s.currOffset.toNat < 2 ^ 32 := hlt.trans bound.isLt
  rw [parseIteration, hbound] at h
  simp only [bind, Except.bind, if_pos ((lt_setWidth_iff _).mpr hlt)] at h
  cases htoken : fdtRead32 mem (dt + s.currOffset) with
  | error fault => simp [htoken] at h
  | ok token =>
    simp only [htoken] at h
    cases l with
    | running s' =>
      obtain ⟨k, hk, heq⟩ := parseToken_advances hoffset htoken hname h
      exact .inl ⟨s', k, rfl, hk, heq⟩
    | done s' =>
      rw [(parseToken_eq_done h).2]
      exact .inr ⟨rfl, pastWord_currOffset hoffset⟩

theorem checkPointer_ne_endless (p : Addr) : checkPointer p ≠ .error .endless := by
  rw [checkPointer]
  split <;> simp

theorem fdtRead32_ne_endless (ptr : Addr) : fdtRead32 mem ptr ≠ .error .endless := by
  rw [fdtRead32, readWord]
  split <;> simp [Except.map]

theorem eternalAlloc_ne_endless (size : BitVec 64) : eternalAlloc s size ≠ .error .endless := by
  rw [eternalAlloc]
  split <;> simp

theorem fdtInsertChild_ne_endless (node child : Addr) :
    fdtInsertChild s node child ≠ .error .endless := by
  intro h
  rcases bind_eq_error.mp h with h | ⟨_, -, h⟩
  · exact checkPointer_ne_endless _ h
  · split at h <;> cases h

theorem fdtInsertProperty_ne_endless (node : Addr) (nameoff propLen : BitVec 32)
    (propertyPtr : Addr) :
    fdtInsertProperty mem s node nameoff propLen propertyPtr ≠ .error .endless := by
  intro h
  rcases bind_eq_error.mp h with h | ⟨_, -, h⟩
  · exact checkPointer_ne_endless _ h
  split at h
  · rcases bind_eq_error.mp h with h | ⟨⟨property, t⟩, -, h⟩
    · exact eternalAlloc_ne_endless _ h
    rcases bind_eq_error.mp h with h | ⟨_, -, h⟩
    · exact fdtRead32_ne_endless _ h
    rcases bind_eq_error.mp h with h | ⟨_, -, h⟩
    · exact checkPointer_ne_endless _ h
    · cases h
  · cases h

theorem parseBeginNode_ne_endless {name : List Byte}
    (hname : IsString mem (dt + s.currOffset) name) : parseBeginNode mem dt s ≠ .error .endless := by
  intro h
  rw [parseBeginNode, strlen_of_isString hname hname.length_lt] at h
  rcases bind_eq_error.mp h with h | ⟨_, -, h⟩
  · cases h
  rcases bind_eq_error.mp h with h | ⟨⟨newNode, t⟩, -, h⟩
  · exact eternalAlloc_ne_endless _ h
  rcases bind_eq_error.mp h with h | ⟨_, -, h⟩
  · exact checkPointer_ne_endless _ h
  rcases bind_eq_error.mp h with h | ⟨⟨u, inserted⟩, -, h⟩
  · exact fdtInsertChild_ne_endless _ _ h
  · cases h

theorem parseProp_ne_endless : parseProp mem dt s ≠ .error .endless := by
  intro h
  rcases bind_eq_error.mp h with h | ⟨_, -, h⟩
  · exact fdtRead32_ne_endless _ h
  rcases bind_eq_error.mp h with h | ⟨_, -, h⟩
  · exact fdtRead32_ne_endless _ h
  rcases bind_eq_error.mp h with h | ⟨⟨u, inserted⟩, -, h⟩
  · exact fdtInsertProperty_ne_endless _ _ _ _ h
  · cases h

theorem map_eq_error {x : Except Fault FdtState} {fault : Fault}
    (h : x.map LoopState.running = .error fault) : x = .error fault := by
  cases x with
  | error e => cases h; rfl
  | ok t => cases h

/-- The only loop inside the body is that of `strlen`. -/
theorem parseIteration_ne_endless
    (hbound : readWord mem (s.fdtInfoBlock + sizeDtStructField) = .ok bound)
    (hname : s.currOffset.toNat < bound.toNat → NameEnds mem dt s) :
    parseIteration mem dt s ≠ .error .endless := by
  intro h
  rw [parseIteration, hbound] at h
  simp only [bind, Except.bind] at h
  split at h
  · have hends := hname ((lt_setWidth_iff _).mp ‹_›)
    cases htoken : fdtRead32 mem (dt + s.currOffset) with
    | error fault =>
      simp only [htoken, Except.error.injEq] at h
      exact fdtRead32_ne_endless _ (htoken.trans (congrArg _ h))
    | ok token =>
      simp only [htoken] at h
      rw [parseToken] at h
      split at h
      · obtain rfl : token = fdtBeginNode := ‹_›
        obtain ⟨name, hstring, -⟩ := hends htoken
        exact parseBeginNode_ne_endless hstring (map_eq_error h)
      split at h
      · rcases bind_eq_error.mp (map_eq_error h) with h | ⟨_, -, h⟩
        · exact checkPointer_ne_endless _ h
        · cases h
      split at h
      · exact parseProp_ne_endless (map_eq_error h)
      split at h
      · cases h
      split at h <;> cases h
  · cases h

end Iteration

/-- The first state of the loop of `fdt_ParseTree`. -/
def FdtState.atStart (s : FdtState) : FdtState := { s with currOffset := 0#64, currNode := NULL }

/-- Every name that is reached below the bound ends. -/
def NamesEnd (mem : Memory) (dt : Addr) (bound : BitVec 32) (start : FdtState) : Prop :=
  ∀ n s, parseLoop mem dt n start = .ok (.running s) → s.currOffset.toNat < bound.toNat →
    NameEnds mem dt s

def wordsBelow (bound : BitVec 32) : ℕ := (bound.toNat + 3) / 4

section Runs

variable {mem : Memory} {dt : Addr} {bound : BitVec 32} {s s' start : FdtState}

theorem readWord_bound_of_running
    (hbound : readWord mem (start.fdtInfoBlock + sizeDtStructField) = .ok bound) {n : ℕ}
    (h : parseLoop mem dt n start = .ok (.running s)) :
    readWord mem (s.fdtInfoBlock + sizeDtStructField) = .ok bound := by
  rw [(parseLoop_frame h).infoBlock, hbound]

/-- After `n` iterations the offset is at least `n` words on. -/
theorem four_mul_le_currOffset
    (hbound : readWord mem (start.fdtInfoBlock + sizeDtStructField) = .ok bound)
    (hnames : NamesEnd mem dt bound start) {n : ℕ}
    (h : parseLoop mem dt n start = .ok (.running s)) : 4 * n ≤ s.currOffset.toNat := by
  induction n generalizing s with
  | zero => omega
  | succ n ih =>
    obtain ⟨t, hrun, hlast⟩ := parseLoop_eq_running h
    have ht := readWord_bound_of_running hbound hrun
    have hlt := currOffset_lt_of_running ht hlast
    have hle := ih hrun
    rcases parseIteration_advances ht hlt (hnames n t hrun hlt) hlast with
      ⟨s', k, hs, hk, hadd⟩ | ⟨hdone, -⟩
    · cases hs
      have hfour := hk.four_le
      omega
    · cases hdone

/-- The progress of the loop: each iteration takes the offset forward by the bytes it steps over, no
addition wraps around, and no more iterations run than words start below the bound. -/
structure Progress (mem : Memory) (dt : Addr) (bound : BitVec 32) (start : FdtState) : Prop where
  grows : ∀ n s l, parseLoop mem dt n start = .ok (.running s) →
    s.currOffset.toNat < bound.toNat → parseIteration mem dt s = .ok l →
    (∃ s' k, l = .running s' ∧ 4 ≤ k ∧ Advances mem dt s k ∧
      s'.currOffset.toNat = s.currOffset.toNat + k) ∨
    l = .done (pastWord s) ∧ (pastWord s).currOffset.toNat = s.currOffset.toNat + 4
  count : ∀ n s, parseLoop mem dt n start = .ok (.running s) →
    s.currOffset.toNat < bound.toNat → n + 1 ≤ wordsBelow bound
  ends : ∀ n s, wordsBelow bound < n → parseLoop mem dt n start ≠ .ok (.running s)

theorem progress (hbound : readWord mem (start.fdtInfoBlock + sizeDtStructField) = .ok bound)
    (hnames : NamesEnd mem dt bound start) : Progress mem dt bound start where
  grows n s l hrun hlt hit := by
    rcases parseIteration_advances (readWord_bound_of_running hbound hrun) hlt (hnames n s hrun hlt)
      hit with ⟨s', k, hl, hk, hadd⟩ | hdone
    · exact .inl ⟨s', k, hl, hk.four_le, hk, hadd⟩
    · exact .inr hdone
  count n s hrun hlt := by
    have hle := four_mul_le_currOffset hbound hnames hrun
    rw [wordsBelow]
    omega
  ends n s hn hrun := by
    obtain ⟨n, rfl⟩ := Nat.exists_eq_add_one_of_ne_zero (Nat.ne_of_gt (Nat.zero_lt_of_lt hn))
    obtain ⟨t, hbefore, hlast⟩ := parseLoop_eq_running hrun
    have hlt := currOffset_lt_of_running (readWord_bound_of_running hbound hbefore) hlast
    have hle := four_mul_le_currOffset hbound hnames hbefore
    rw [wordsBelow] at hn
    omega

/-- A run that is long enough is over, or ended by a fault of an iteration. -/
theorem parseLoop_ne_endless
    (hbound : readWord mem (start.fdtInfoBlock + sizeDtStructField) = .ok bound)
    (hnames : NamesEnd mem dt bound start) {n : ℕ} (hn : wordsBelow bound < n) :
    (∃ s, parseLoop mem dt n start = .ok (.done s)) ∨
      ∃ fault, parseLoop mem dt n start = .error fault ∧ fault ≠ .endless := by
  cases hrun : parseLoop mem dt n start with
  | error fault =>
    obtain ⟨m, t, hbefore, hfault⟩ := parseLoop_eq_error hrun
    have hne := parseIteration_ne_endless (readWord_bound_of_running hbound hbefore)
      (hnames m t hbefore)
    exact .inr ⟨fault, rfl, fun h => hne (h ▸ hfault)⟩
  | ok l =>
    cases l with
    | done t => exact .inl ⟨t, rfl⟩
    | running t => exact absurd hrun ((progress hbound hnames).ends n t hn)

/-- `fdt_ParseTree` ends on every memory in which the names it reaches end. -/
theorem fdtParseTree_terminates {offDtStruct : BitVec 32}
    (hoff : readWord mem (s.fdtInfoBlock + offDtStructField) = .ok offDtStruct)
    (hbound : readWord mem (s.fdtInfoBlock + sizeDtStructField) = .ok bound)
    (hnames : NamesEnd mem (s.fdtInfoBlock + (bswap32 offDtStruct).setWidth 64) bound s.atStart) :
    Progress mem (s.fdtInfoBlock + (bswap32 offDtStruct).setWidth 64) bound s.atStart ∧
      ∀ n, wordsBelow bound < n → fdtParseTree mem n s ≠ .error .endless := by
  have hstart : readWord mem (s.atStart.fdtInfoBlock + sizeDtStructField) = .ok bound := hbound
  refine ⟨progress hstart hnames, fun n hn => ?_⟩
  have hrun := parseLoop_ne_endless hstart hnames hn
  rw [FdtState.atStart] at hrun
  rw [fdtParseTree, hoff]
  simp only [bind, Except.bind]
  rcases hrun with ⟨t, hrun⟩ | ⟨fault, hrun, hne⟩
  · simp [hrun, pure, Except.pure]
  · simpa [hrun] using hne

def longProperty : Memory := .ofBytes 0x82200000#64
  (List.replicate 8 0#8 ++ be32 40#32 ++ List.replicate 24 0#8 ++ [64#8, 0#8, 0#8, 0#8] ++
    be32 fdtBeginNode ++ be32 0#32 ++ be32 fdtProp ++ be32 0xFFFFFFFF#32 ++ be32 0#32)

def longPropertyStart : FdtState :=
  { FdtState.zeroed (.fresh 0x80300000#64 0x80400000#64) with fdtInfoBlock := 0x82200000#64 }

theorem fdtParseTree_terminates_long_property :
    fdtParseTree longProperty 17 longPropertyStart ≠ .error .endless := by
  have hnames : NamesEnd longProperty 0x82200028#64 64#32 longPropertyStart.atStart := by
    intro n s hrun hlt htoken
    match n with
    | 0 =>
      cases hrun
      exact ⟨[], ⟨⟨rfl, trivial⟩, by simp⟩, by decide⟩
    | 1 | 2 | 3 =>
      cases hrun
      cases htoken
    | n + 4 => cases hrun
  have hoff : readWord longProperty (longPropertyStart.fdtInfoBlock + offDtStructField) =
      .ok (bswap32 40#32) := rfl
  exact (fdtParseTree_terminates hoff rfl hnames).2 17 (by decide)

end Runs

end SysRv.Fdt
