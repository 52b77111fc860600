import SysRv.FdtParse

/-!
# Runs of the parse loop on a well-formed block

An invariant for the states of the loop, kept by every iteration: the loop stands behind a
prefix of the tokens and tracks its nesting. What is known about the heap is a parameter,
so that the same induction serves runs on a heap that suffices and runs that may panic.
-/

namespace SysRv.Fdt

open ByteMemory KString Kalloc Nesting FdtTokens

/-- A fact about the heap and the tokens to come that lets the next token be read and is
kept by reading it. -/
structure HeapRule (H : List Token → EternalHeap → Prop) : Prop where
  next : ∀ t post heap, H (t :: post) heap →
    heap.currKallocEternalAddress.toNat + tokenCost t < 2 ^ 64
  moved : ∀ t post heap heap', H (t :: post) heap → Moved heap heap' (tokenCost t) → H post heap'

/-- The heap suffices for the tokens to come. -/
def Suffices (post : List Token) (heap : EternalHeap) : Prop :=
  heap.currKallocEternalAddress.toNat + (post.map tokenCost).sum < heap.kallocEternalEnd.toNat

theorem suffices_rule : HeapRule Suffices where
  next t post heap h := by
    have hend := heap.kallocEternalEnd.isLt
    simp only [Suffices, List.map_cons, List.sum_cons] at h
    omega
  moved t post heap heap' h hm := by
    have hle := hm.le
    rw [Suffices, hm.stop]
    simp only [Suffices, List.map_cons, List.sum_cons] at h
    omega

def SufficesBeside (spare : ℕ) (post : List Token) (heap : EternalHeap) : Prop :=
  heap.currKallocEternalAddress.toNat + (post.map tokenCost).sum + spare <
    heap.kallocEternalEnd.toNat

theorem SufficesBeside.suffices {spare : ℕ} {post : List Token} {heap : EternalHeap}
    (h : SufficesBeside spare post heap) : Suffices post heap := by
  simp only [SufficesBeside] at h
  simp only [Suffices]
  omega

theorem sufficesBeside_rule (spare : ℕ) : HeapRule (SufficesBeside spare) where
  next t post heap h := suffices_rule.next t post heap h.suffices
  moved t post heap heap' h hm := by
    have hle := hm.le
    rw [SufficesBeside, hm.stop]
    simp only [SufficesBeside, List.map_cons, List.sum_cons] at h
    omega

/-- The heap ends well below the top of the address space. -/
def EndsBelow (_ : List Token) (heap : EternalHeap) : Prop :=
  heap.currKallocEternalAddress.toNat ≤ heap.kallocEternalEnd.toNat ∧
    heap.kallocEternalEnd.toNat + 272 < 2 ^ 64

theorem tokenCost_le (t : Token) : tokenCost t ≤ 272 := by cases t <;> simp [tokenCost]

theorem endsBelow_rule : HeapRule EndsBelow where
  next t _ _ h := by
    have hle := tokenCost_le t
    have hcurr := h.1
    have hend := h.2
    omega
  moved t _ heap heap' h hm := by
    rcases hm.inside with rfl | hlt
    · exact h
    · exact ⟨by rw [hm.stop]; exact hlt.le, by rw [hm.stop]; exact h.2⟩

section Loop

variable {mem : Memory} {infoBlock dt : Addr} {nodes₀ : Addr → FdtNode} {bound : BitVec 32}
  {body pre post : List Token} {t : Token} {H : List Token → EternalHeap → Prop} {s : FdtState}

/-- The test of the loop compares an offset with a bound of 32 bits. -/
theorem lt_setWidth_iff (o : BitVec 64) : o < bound.setWidth 64 ↔ o.toNat < bound.toNat := by
  rw [BitVec.lt_def, BitVec.toNat_setWidth, Nat.mod_eq_of_lt (bound.isLt.trans (by decide))]

theorem LoadedTokens.readBound (hl : LoadedTokens mem infoBlock dt bound body)
    (hinfo : s.fdtInfoBlock = infoBlock) :
    readWord mem (s.fdtInfoBlock + sizeDtStructField) = .ok bound := by
  rw [hinfo, readWord, hl.sizeDtStruct]

theorem parseIteration_of_holds {w : BitVec 32} (hl : LoadedTokens mem infoBlock dt bound body)
    (hinfo : s.fdtInfoBlock = infoBlock) (hcond : s.currOffset.toNat < bound.toNat)
    (hw : Holds mem (dt + s.currOffset) (be32 w)) :
    parseIteration mem dt s = parseToken mem dt w (pastWord s) := by
  rw [parseIteration, hl.readBound hinfo]
  simp only [bind, Except.bind, if_pos ((lt_setWidth_iff _).mpr hcond), fdtRead32_of_holds hw]

theorem parseIteration_stopped (hl : LoadedTokens mem infoBlock dt bound body)
    (hinfo : s.fdtInfoBlock = infoBlock) (hcond : bound.toNat ≤ s.currOffset.toNat) :
    parseIteration mem dt s = .ok (.done s) := by
  have hlt : ¬ s.currOffset < bound.setWidth 64 :=
    fun hlt => Nat.not_lt.mpr hcond ((lt_setWidth_iff _).mp hlt)
  rw [parseIteration, hl.readBound hinfo]
  simp only [bind, Except.bind, if_neg hlt]
  rfl

theorem At.fdtInfoBlock {pre : List Token} (h : At infoBlock dt nodes₀ pre s) :
    s.fdtInfoBlock = infoBlock := by
  obtain ⟨st, -, htracks⟩ := h.tracks
  exact htracks.infoBlock

theorem At.pastWord {pre : List Token} (h : At infoBlock dt nodes₀ pre s) :
    At infoBlock dt nodes₀ pre (pastWord s) := by
  obtain ⟨st, hst, htracks⟩ := h.tracks
  exact ⟨⟨st, hst, htracks.setOffset _⟩, h.rooted.moved _ _⟩

theorem LoadedTokens.at_short {pre post : List Token} (hl : LoadedTokens mem infoBlock dt bound body)
    (hsplit : body = pre ++ post) (hshort : Short pre s) :
    Holds mem (dt + s.currOffset) (be32 0#32) := by
  obtain ⟨front, hfront, hoffset⟩ := hshort
  have hblock := hl.block
  rw [hsplit, FdtTokens.encode_append, hfront, List.append_assoc] at hblock
  exact holds_at hblock hoffset

theorem Loaded.at_end (hl : Loaded mem infoBlock dt bound body) (hexact : Exact body s) :
    Holds mem (dt + s.currOffset) (be32 fdtEnd) := by
  have hblock := hl.block
  have hend : FdtTokens.encode [.fdtEnd] = be32 fdtEnd ++ ([] ++ []) := rfl
  rw [FdtTokens.encode_append, hend] at hblock
  exact holds_at hblock hexact

/-- In front of a terminator word the loop reads 0, which is no token, and goes on. -/
theorem parseIteration_short {pre post : List Token} (hl : LoadedTokens mem infoBlock dt bound body)
    (hsplit : body = pre ++ post) (hinfo : s.fdtInfoBlock = infoBlock) (hshort : Short pre s)
    (hcond : s.currOffset.toNat < bound.toNat) :
    parseIteration mem dt s = .ok (.running (pastWord s)) ∧ Exact pre (pastWord s) := by
  have hword := hl.at_short hsplit hshort
  obtain ⟨front, hfront, hoffset⟩ := hshort
  have hsmall := hl.le_small hsplit
  rw [hfront, List.length_append, be32_length] at hsmall
  refine ⟨?_, ?_⟩
  · rw [parseIteration_of_holds hl hinfo hcond hword]
    simp [parseToken, fdtBeginNode, fdtEndNode, fdtProp, fdtNop, fdtEnd]
  · rw [Exact, hfront, BitVec.toNat_add, hoffset, List.length_append, be32_length]
    simp only [BitVec.toNat_ofNat, Nat.reducePow, Nat.reduceMod]
    omega

theorem Short.not_exact {pre : List Token} (hshort : Short pre s) : ¬ Exact pre s := by
  obtain ⟨front, hfront, hoffset⟩ := hshort
  rw [Exact, hfront, hoffset, List.length_append, be32_length]
  omega

/-- At `FDT_END` the loop ends. -/
theorem parseIteration_end (hl : Loaded mem infoBlock dt bound body)
    (hinfo : s.fdtInfoBlock = infoBlock) (hexact : Exact body s)
    (hcond : s.currOffset.toNat < bound.toNat) :
    parseIteration mem dt s = .ok (.done (pastWord s)) := by
  rw [parseIteration_of_holds hl.tokens hinfo hcond (hl.at_end hexact)]
  exact parseToken_end mem dt _

/-- The loop stands behind `pre` with `post` still to come. -/
structure Stands (infoBlock dt : Addr) (nodes₀ : Addr → FdtNode) (body : List Token)
    (H : List Token → EternalHeap → Prop) (pre post : List Token) (s : FdtState) : Prop where
  split : body = pre ++ post
  tracked : At infoBlock dt nodes₀ pre s
  offset : Exact pre s ∨ Short pre s
  heap : H post s.heap

/-- What an iteration does in a state that stands in the block. -/
inductive Iterated (infoBlock dt : Addr) (nodes₀ : Addr → FdtNode) (bound : BitVec 32)
    (body : List Token) (H : List Token → EternalHeap → Prop) (pre : List Token) (s : FdtState) :
    List Token → Except Fault LoopState → Prop where
  | stopped {post : List Token} (h : bound.toNat ≤ s.currOffset.toNat) :
    Iterated infoBlock dt nodes₀ bound body H pre s post (.ok (.done s))
  | padding {post : List Token} (short : Short pre s)
      (h : Stands infoBlock dt nodes₀ body H pre post (pastWord s))
      (exact : Exact pre (pastWord s)) :
    Iterated infoBlock dt nodes₀ bound body H pre s post (.ok (.running (pastWord s)))
  | token {t : Token} {post : List Token} {s' : FdtState}
      (h : Stands infoBlock dt nodes₀ body H (pre ++ [t]) post s') :
    Iterated infoBlock dt nodes₀ bound body H pre s (t :: post) (.ok (.running s'))
  | ended (h : At infoBlock dt nodes₀ body (pastWord s)) :
    Iterated infoBlock dt nodes₀ bound body H pre s [] (.ok (.done (pastWord s)))
  | exhausted {t : Token} {post : List Token} (h : H (t :: post) s.heap)
      (full : s.heap.kallocEternalEnd.toNat ≤ s.heap.currKallocEternalAddress.toNat + tokenCost t) :
    Iterated infoBlock dt nodes₀ bound body H pre s (t :: post)
      (.error (.panic .eternalHeapExhausted))

/-- An iteration that the bound lets run reads the word it stands at, or it is stopped. -/
theorem iterated_of_exact (hl : LoadedTokens mem infoBlock dt bound body)
    {pre post : List Token} (hs : Stands infoBlock dt nodes₀ body H pre post s)
    (hread : s.currOffset.toNat < bound.toNat → Exact pre s →
      Iterated infoBlock dt nodes₀ bound body H pre s post (parseIteration mem dt s)) :
    Iterated infoBlock dt nodes₀ bound body H pre s post (parseIteration mem dt s) := by
  rcases Nat.lt_or_ge s.currOffset.toNat bound.toNat with hcond | hcond
  swap
  · rw [parseIteration_stopped hl hs.tracked.fdtInfoBlock hcond]
    exact .stopped hcond
  rcases hs.offset with hexact | hshort
  · exact hread hcond hexact
  · obtain ⟨hrun, hexact⟩ := parseIteration_short hl hs.split hs.tracked.fdtInfoBlock hshort hcond
    rw [hrun]
    exact .padding hshort ⟨hs.split, hs.tracked.pastWord, .inl hexact, hs.heap⟩ hexact

theorem Stands.next (hs : Stands infoBlock dt nodes₀ body H pre (t :: post) s)
    (hwf : WellFormed body) : t.Valid ∧ t ≠ .fdtEnd ∧ (nesting (pre ++ [t])).isSome := by
  obtain ⟨hvalid, hend⟩ := hwf.at_split hs.split
  obtain ⟨st, hst, -⟩ := hwf.balanced
  rw [hs.split, show pre ++ t :: post = pre ++ [t] ++ post by simp] at hst
  exact ⟨hvalid, hend, Option.isSome_iff_exists.mpr (nesting_of_append hst)⟩

theorem iterated_token (hl : LoadedTokens mem infoBlock dt bound body) (hwf : WellFormed body)
    (hH : HeapRule H) (hs : Stands infoBlock dt nodes₀ body H pre (t :: post) s) :
    Iterated infoBlock dt nodes₀ bound body H pre s (t :: post) (parseIteration mem dt s) := by
  refine iterated_of_exact hl hs fun hcond hexact => ?_
  have hsnoc : body = pre ++ [t] ++ post := by rw [hs.split]; simp
  obtain ⟨hvalid, hne, hnest⟩ := hs.next hwf
  rw [parseIteration_of_holds hl hs.tracked.fdtInfoBlock hcond (hl.at_token hs.split hexact).1]
  rcases read_token hl hs.split hvalid hne hs.tracked hexact hnest
      (hH.next t post _ hs.heap) with ⟨s', hrun, hat, hoffset, hmoved⟩ | ⟨hfault, hfull⟩
  · rw [hrun]
    exact .token ⟨hsnoc, hat, hoffset, hH.moved t post _ _ hs.heap hmoved⟩
  · rw [hfault]
    exact .exhausted hs.heap hfull

theorem iterated (hl : Loaded mem infoBlock dt bound body) (hwf : WellFormed body) (hH : HeapRule H)
    {pre post : List Token} (hs : Stands infoBlock dt nodes₀ body H pre post s) :
    Iterated infoBlock dt nodes₀ bound body H pre s post (parseIteration mem dt s) := by
  cases post with
  | nil =>
    refine iterated_of_exact hl.tokens hs fun hcond hexact => ?_
    obtain rfl : body = pre := by simpa using hs.split
    rw [parseIteration_end hl hs.tracked.fdtInfoBlock hexact hcond]
    exact .ended hs.tracked.pastWord
  | cons t post => exact iterated_token hl.tokens hwf hH hs

/-- An iteration that goes on has passed a terminator word or read the next token. -/
theorem Stands.running (hs : Stands infoBlock dt nodes₀ body H pre post s)
    (hl : Loaded mem infoBlock dt bound body) (hwf : WellFormed body) (hH : HeapRule H)
    {s' : FdtState} (hrun : parseIteration mem dt s = .ok (.running s')) :
    (s' = pastWord s ∧ Stands infoBlock dt nodes₀ body H pre post s') ∨
    ∃ t rest, post = t :: rest ∧ Exact pre s ∧ s.currOffset.toNat < bound.toNat ∧
      parseToken mem dt (tokenWord t) (pastWord s) = .ok (.running s') ∧
      Stands infoBlock dt nodes₀ body H (pre ++ [t]) rest s' := by
  have hinfo := hs.tracked.fdtInfoBlock
  rcases Nat.lt_or_ge s.currOffset.toNat bound.toNat with hcond | hcond
  swap
  · cases (parseIteration_stopped hl.tokens hinfo hcond).symm.trans hrun
  rcases hs.offset with hexact | hshort
  swap
  · obtain ⟨hpast, hexact⟩ :=
      parseIteration_short hl.tokens hs.split hs.tracked.fdtInfoBlock hshort hcond
    cases hpast.symm.trans hrun
    exact .inl ⟨rfl, hs.split, hs.tracked.pastWord, .inl hexact, hs.heap⟩
  cases post with
  | nil =>
    obtain rfl : body = pre := by simpa using hs.split
    cases (parseIteration_end hl hs.tracked.fdtInfoBlock hexact hcond).symm.trans hrun
  | cons t rest =>
    have hword := (hl.tokens.at_token hs.split hexact).1
    have hparse := (parseIteration_of_holds hl.tokens hinfo hcond hword).symm.trans hrun
    have hstep := iterated_token hl.tokens hwf hH hs
    rw [hrun] at hstep
    cases hstep with
    | padding short => exact absurd hexact short.not_exact
    | token h => exact .inr ⟨t, rest, rfl, hexact, hcond, hparse, h⟩

/-- An iteration that ends the loop was stopped by the bound or has read `FDT_END`. -/
theorem Stands.done (hs : Stands infoBlock dt nodes₀ body H pre post s)
    (hl : Loaded mem infoBlock dt bound body) (hwf : WellFormed body) (hH : HeapRule H)
    {s' : FdtState} (hrun : parseIteration mem dt s = .ok (.done s')) :
    (s' = s ∧ bound.toNat ≤ s.currOffset.toNat) ∨ (s' = pastWord s ∧ post = []) := by
  have hstep := iterated hl hwf hH hs
  rw [hrun] at hstep
  cases hstep with
  | stopped h => exact .inl ⟨rfl, h⟩
  | ended h => exact .inr ⟨rfl, rfl⟩

theorem parseLoop_succ (n : ℕ) (s : FdtState) : parseLoop mem dt (n + 1) s =
    match parseIteration mem dt s with
    | .error fault => .error fault
    | .ok (.done s') => .ok (.done s')
    | .ok (.running s') => parseLoop mem dt n s' := rfl

theorem parseLoop_add {n m : ℕ} {s s' : FdtState} (h : parseLoop mem dt n s = .ok (.running s')) :
    parseLoop mem dt (n + m) s = parseLoop mem dt m s' := by
  induction n generalizing s with
  | zero =>
    cases h
    rw [Nat.zero_add]
  | succ n ih =>
    rw [Nat.succ_add, parseLoop_succ]
    rw [parseLoop_succ] at h
    cases hit : parseIteration mem dt s with
    | error fault => simp [hit] at h
    | ok l =>
      cases l with
      | done t => simp [hit] at h
      | running t =>
        rw [hit] at h
        exact ih h

/-- What every iteration keeps, a run keeps. -/
theorem parseLoop_invariant {P : FdtState → Prop}
    (hstep : ∀ s s', P s → parseIteration mem dt s = .ok (.running s') → P s') {n : ℕ}
    {s s' : FdtState} (h : P s) (hrun : parseLoop mem dt n s = .ok (.running s')) : P s' := by
  induction n generalizing s with
  | zero =>
    cases hrun
    exact h
  | succ n ih =>
    rw [parseLoop_succ] at hrun
    split at hrun
    · cases hrun
    · cases hrun
    · rename_i t ht
      exact ih (hstep s t h ht) hrun

theorem parseLoop_eq_done {n : ℕ} {s s' : FdtState} (h : parseLoop mem dt n s = .ok (.done s')) :
    ∃ m t, parseLoop mem dt m s = .ok (.running t) ∧ parseIteration mem dt t = .ok (.done s') := by
  induction n generalizing s with
  | zero => cases h
  | succ n ih =>
    rw [parseLoop_succ] at h
    split at h
    · cases h
    · rename_i t ht
      cases h
      exact ⟨0, s, rfl, ht⟩
    · rename_i t ht
      obtain ⟨m, u, hrun, hdone⟩ := ih h
      exact ⟨m + 1, u, by rw [parseLoop_succ, ht]; exact hrun, hdone⟩

theorem parseLoop_eq_error {n : ℕ} {s : FdtState} {fault : Fault}
    (h : parseLoop mem dt n s = .error fault) :
    ∃ m t, parseLoop mem dt m s = .ok (.running t) ∧ parseIteration mem dt t = .error fault := by
  induction n generalizing s with
  | zero => cases h
  | succ n ih =>
    rw [parseLoop_succ] at h
    split at h
    · cases h
      exact ⟨0, s, rfl, ‹_›⟩
    · cases h
    · obtain ⟨m, t, hrun, hfault⟩ := ih h
      exact ⟨m + 1, t, by rw [parseLoop_succ, ‹parseIteration mem dt s = _›]; exact hrun, hfault⟩

theorem parseLoop_eq_running {n : ℕ} {s s' : FdtState}
    (h : parseLoop mem dt (n + 1) s = .ok (.running s')) :
    ∃ t, parseLoop mem dt n s = .ok (.running t) ∧ parseIteration mem dt t = .ok (.running s') := by
  induction n generalizing s with
  | zero =>
    rw [parseLoop_succ] at h
    split at h
    · cases h
    · cases h
    · cases h
      exact ⟨s, rfl, ‹_›⟩
  | succ n ih =>
    rw [parseLoop_succ] at h
    split at h
    · cases h
    · cases h
    · obtain ⟨t, hrun, hlast⟩ := ih h
      exact ⟨t, by rw [parseLoop_succ, ‹parseIteration mem dt s = _›]; exact hrun, hlast⟩

/-- Where a run from a state that stands in the block can be: in the block, at its end or
stopped by the bound behind some tokens, or in the panic of a heap that is too small. -/
inductive Reached (infoBlock dt : Addr) (nodes₀ : Addr → FdtNode) (bound : BitVec 32)
    (body : List Token) (H : List Token → EternalHeap → Prop) : Except Fault LoopState → Prop where
  | running {pre post : List Token} {s : FdtState}
      (h : Stands infoBlock dt nodes₀ body H pre post s) :
    Reached infoBlock dt nodes₀ bound body H (.ok (.running s))
  | ended {s : FdtState} (h : At infoBlock dt nodes₀ body s) :
    Reached infoBlock dt nodes₀ bound body H (.ok (.done s))
  | stopped {pre post : List Token} {s : FdtState}
      (h : Stands infoBlock dt nodes₀ body H pre post s)
      (bound_le : bound.toNat ≤ s.currOffset.toNat) :
    Reached infoBlock dt nodes₀ bound body H (.ok (.done s))
  | exhausted {t : Token} {post : List Token} {heap : EternalHeap} (h : H (t :: post) heap)
      (full : heap.kallocEternalEnd.toNat ≤ heap.currKallocEternalAddress.toNat + tokenCost t) :
    Reached infoBlock dt nodes₀ bound body H (.error (.panic .eternalHeapExhausted))

theorem reached_parseLoop (hl : Loaded mem infoBlock dt bound body) (hwf : WellFormed body)
    (hH : HeapRule H) (n : ℕ) {pre post : List Token}
    (hs : Stands infoBlock dt nodes₀ body H pre post s) :
    Reached infoBlock dt nodes₀ bound body H (parseLoop mem dt n s) := by
  induction n generalizing s pre post with
  | zero => exact .running hs
  | succ n ih =>
    have hstep := iterated hl hwf hH hs
    rw [parseLoop_succ]
    generalize parseIteration mem dt s = r at hstep
    cases hstep with
    | stopped h => exact .stopped hs h
    | padding _ h _ => exact ih h
    | token h => exact ih h
    | ended h => exact .ended h
    | exhausted h full => exact .exhausted h full

def Ends (mem : Memory) (dt : Addr) (s : FdtState) : Prop :=
  ∃ n, ∀ s', parseLoop mem dt n s ≠ .ok (.running s')

theorem ends_of_iteration (h : ∀ s', parseIteration mem dt s = .ok (.running s') → Ends mem dt s') :
    Ends mem dt s := by
  cases hit : parseIteration mem dt s with
  | error fault => exact ⟨1, fun s' => by simp [parseLoop_succ, hit]⟩
  | ok l =>
    cases l with
    | done t => exact ⟨1, fun s' => by simp [parseLoop_succ, hit]⟩
    | running t =>
      obtain ⟨n, hn⟩ := h t hit
      exact ⟨n + 1, fun s' => by simpa [parseLoop_succ, hit] using hn s'⟩

/-- An iteration reads the next token, unless the last name has left its terminator word. -/
theorem ends_of_token (hl : Loaded mem infoBlock dt bound body) (hwf : WellFormed body)
    (hH : HeapRule H) {pre post : List Token}
    (htoken : ∀ t rest, post = t :: rest → ∀ s,
      Stands infoBlock dt nodes₀ body H (pre ++ [t]) rest s → Ends mem dt s)
    (hs : Stands infoBlock dt nodes₀ body H pre post s) : Ends mem dt s := by
  have hexact : ∀ s, Stands infoBlock dt nodes₀ body H pre post s → Exact pre s → Ends mem dt s := by
    refine fun s hs hexact => ends_of_iteration fun s' hs' => ?_
    have hstep := iterated hl hwf hH hs
    rw [hs'] at hstep
    cases hstep with
    | padding short => exact absurd hexact short.not_exact
    | token h => exact htoken _ _ rfl _ h
  refine ends_of_iteration fun s' hs' => ?_
  have hstep := iterated hl hwf hH hs
  rw [hs'] at hstep
  cases hstep with
  | padding _ h exact' => exact hexact _ h exact'
  | token h => exact htoken _ _ rfl _ h

/-- Every run ends, by induction on the tokens to come. -/
theorem ends_of_stands (hl : Loaded mem infoBlock dt bound body) (hwf : WellFormed body)
    (hH : HeapRule H) {pre post : List Token} (hs : Stands infoBlock dt nodes₀ body H pre post s) :
    Ends mem dt s := by
  induction post generalizing pre s with
  | nil => exact ends_of_token hl hwf hH (fun _ _ h => absurd h (List.cons_ne_nil _ _).symm) hs
  | cons t post ih =>
    refine ends_of_token hl hwf hH (fun u rest hcons s' h => ?_) hs
    cases hcons
    exact ih h

end Loop

end SysRv.Fdt
