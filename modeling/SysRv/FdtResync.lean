import SysRv.FdtProgress
import SysRv.FdtStack

/-!
# Where the loop reads tokens

The loop steps over the text of a name and not over its terminator. Where the terminator has been
padded to a word of its own, the loop reads that word as a token, finds none, and is back in step
at the next word. So it reads at every token of the block, and besides only at such words.
-/

namespace SysRv.Fdt

open ByteMemory KString Kalloc Nesting FdtTokens ListSplits

/-- The offsets at which the loop reads a word as a token on account of a token. -/
def tokenReadsOf (offset : ℕ) : Token → List ℕ
  | .beginNode name =>
    if name.length % 4 = 0 then [offset, offset + 4 + name.length] else [offset]
  | _ => [offset]

def readOffsets : ℕ → List Token → List ℕ
  | _, [] => []
  | offset, t :: ts => tokenReadsOf offset t ++ readOffsets (offset + t.encode.length) ts

/-- The bytes behind the word of a token that are no terminator and no padding of one: the text of
a name, and the length, the name offset and the value of a property. -/
def payloadLength : Token → ℕ
  | .beginNode name => name.length
  | .prop _ value => 8 + value.length
  | _ => 0

/-- The offsets of the tokens in order, and no others but those of words that are a terminator. -/
structure Resynchronised (tokens : List Token) (reads : List ℕ) : Prop where
  aligned : ∀ o ∈ reads, o % 4 = 0
  ascending : reads.Pairwise (· < ·)
  all : ∀ pre t post, tokens = pre ++ t :: post → (FdtTokens.encode pre).length ∈ reads
  only : ∀ o ∈ reads, (∃ pre t post, tokens = pre ++ t :: post ∧ o = (FdtTokens.encode pre).length) ∨
    ∃ pre name post, tokens = pre ++ .beginNode name :: post ∧
      o = (FdtTokens.encode pre).length + 4 + name.length ∧
      LiesAt (FdtTokens.encode tokens) (be32 0#32) o
  outside : ∀ o ∈ reads, ∀ pre t post, tokens = pre ++ t :: post →
    o ≤ (FdtTokens.encode pre).length ∨ (FdtTokens.encode pre).length + 4 + payloadLength t ≤ o

section Offsets

variable {tokens : List Token} {t : Token} {offset o : ℕ}

theorem mem_tokenReadsOf : o ∈ tokenReadsOf offset t ↔ o = offset ∨
    ∃ name, t = .beginNode name ∧ name.length % 4 = 0 ∧ o = offset + 4 + name.length := by
  cases t with
  | beginNode name =>
    rw [tokenReadsOf]
    by_cases hdiv : name.length % 4 = 0 <;> simp [hdiv]
  | _ => simp [tokenReadsOf]

theorem tokenReadsOf_ascending (offset : ℕ) (t : Token) :
    (tokenReadsOf offset t).Pairwise (· < ·) := by
  cases t with
  | beginNode name =>
    rw [tokenReadsOf]
    split
    · refine List.pairwise_pair.mpr ?_
      omega
    · exact List.pairwise_singleton ..
  | _ => exact List.pairwise_singleton ..

theorem token_encode_length (t : Token) :
    t.encode.length % 4 = 0 ∧ 4 + payloadLength t ≤ t.encode.length := by
  cases t with
  | beginNode | prop =>
    simp only [Token.encode, List.length_append, be32_length, padded_length, List.length_singleton,
      payloadLength]
    omega
  | _ => simp [Token.encode, payloadLength]

theorem encode_length_mod (tokens : List Token) : (FdtTokens.encode tokens).length % 4 = 0 := by
  induction tokens with
  | nil => rfl
  | cons t tokens ih =>
    have ht := (token_encode_length t).1
    rw [FdtTokens.encode_cons, List.length_append]
    omega

theorem tokenReadsOf_bounds (h : o ∈ tokenReadsOf offset t) :
    offset ≤ o ∧ o < offset + t.encode.length := by
  have hlen := (token_encode_length t).2
  rcases mem_tokenReadsOf.mp h with rfl | ⟨name, rfl, hdiv, rfl⟩
  · omega
  · rw [encode_beginNode hdiv]
    simp only [List.length_append, be32_length]
    omega

theorem mem_readOffsets : o ∈ readOffsets offset tokens ↔ ∃ pre t post,
    tokens = pre ++ t :: post ∧ o ∈ tokenReadsOf (offset + (FdtTokens.encode pre).length) t := by
  induction tokens generalizing offset with
  | nil => simp [readOffsets]
  | cons t tokens ih =>
    rw [readOffsets, List.mem_append, ih]
    constructor
    · rintro (ho | ⟨pre, u, post, rfl, ho⟩)
      · exact ⟨[], t, tokens, rfl, ho⟩
      · refine ⟨t :: pre, u, post, rfl, ?_⟩
        rwa [FdtTokens.encode_cons, List.length_append, ← Nat.add_assoc]
    · rintro ⟨pre, u, post, hsplit, ho⟩
      cases pre with
      | nil =>
        cases hsplit
        exact .inl ho
      | cons v pre =>
        cases hsplit
        refine .inr ⟨pre, u, post, rfl, ?_⟩
        rwa [FdtTokens.encode_cons, List.length_append, ← Nat.add_assoc] at ho

theorem readOffsets_ascending (offset : ℕ) (tokens : List Token) :
    (readOffsets offset tokens).Pairwise (· < ·) := by
  induction tokens generalizing offset with
  | nil => exact .nil
  | cons t tokens ih =>
    refine List.pairwise_append.mpr ⟨tokenReadsOf_ascending offset t, ih _, fun o ho o' ho' => ?_⟩
    obtain ⟨pre, u, post, -, hu⟩ := mem_readOffsets.mp ho'
    have hfirst := tokenReadsOf_bounds ho
    have hlater := tokenReadsOf_bounds hu
    omega

theorem readOffsets_outside {pre post : List Token} (ho : o ∈ readOffsets 0 tokens)
    (hsplit : tokens = pre ++ t :: post) :
    o ≤ (FdtTokens.encode pre).length ∨ (FdtTokens.encode pre).length + 4 + payloadLength t ≤ o := by
  obtain ⟨pre', u, post', hu, hread⟩ := mem_readOffsets.mp ho
  rw [Nat.zero_add] at hread
  have hbounds := tokenReadsOf_bounds hread
  rcases split_cases (hsplit.symm.trans hu) with ⟨back, rfl⟩ | ⟨rest, rfl⟩
  · -- the token that is read stands before `t`
    left
    rw [FdtTokens.encode_append, FdtTokens.encode_cons, List.length_append, List.length_append]
    omega
  · rw [hsplit, List.append_assoc] at hu
    have hrest := List.append_cancel_left hu
    cases rest with
    | nil =>
      cases hrest
      rw [List.append_nil] at hread
      rcases mem_tokenReadsOf.mp hread with rfl | ⟨name, rfl, -, rfl⟩
      · exact .inl le_rfl
      · exact .inr le_rfl
    | cons v rest =>
      cases hrest
      have hlen := (token_encode_length t).2
      rw [FdtTokens.encode_append, FdtTokens.encode_cons, List.length_append,
        List.length_append] at hbounds
      right
      omega

theorem resynchronised_readOffsets (tokens : List Token) :
    Resynchronised tokens (readOffsets 0 tokens) where
  aligned o ho := by
    obtain ⟨pre, t, post, -, ht⟩ := mem_readOffsets.mp ho
    have hpre := encode_length_mod pre
    rcases mem_tokenReadsOf.mp ht with rfl | ⟨name, -, hdiv, rfl⟩ <;> omega
  ascending := readOffsets_ascending 0 tokens
  all pre t post hsplit := by
    refine mem_readOffsets.mpr ⟨pre, t, post, hsplit, mem_tokenReadsOf.mpr (.inl ?_)⟩
    rw [Nat.zero_add]
  only o ho := by
    obtain ⟨pre, t, post, hsplit, ht⟩ := mem_readOffsets.mp ho
    rw [Nat.zero_add] at ht
    rcases mem_tokenReadsOf.mp ht with rfl | ⟨name, rfl, hdiv, rfl⟩
    · exact .inl ⟨pre, t, post, hsplit, rfl⟩
    · refine .inr ⟨pre, name, post, hsplit, rfl,
        FdtTokens.encode pre ++ be32 1#32 ++ name, FdtTokens.encode post, ?_, ?_⟩
      · rw [hsplit, FdtTokens.encode_append, FdtTokens.encode_cons, encode_beginNode hdiv]
        simp
      · rw [List.length_append, List.length_append, be32_length]
  outside o ho pre t post hsplit := readOffsets_outside ho hsplit

end Offsets

def iterationReads (mem : Memory) (s : FdtState) : List ℕ :=
  match readWord mem (s.fdtInfoBlock + sizeDtStructField) with
  | .ok sizeDtStruct =>
    if s.currOffset < sizeDtStruct.setWidth 64 then [s.currOffset.toNat] else []
  | .error _ => []

def loopReads (mem : Memory) (dt : Addr) : ℕ → FdtState → List ℕ
  | 0, _ => []
  | n + 1, s => iterationReads mem s ++
    match parseIteration mem dt s with
    | .ok (.running s') => loopReads mem dt n s'
    | _ => []

/-- How far an iteration goes that reads the word of a token. -/
def tokenAdvance : Token → ℕ
  | .beginNode name => 4 + wordsUp name.length
  | .prop _ value => 4 + (8 + wordsUp value.length)
  | _ => 4

section Reads

variable {mem : Memory} {infoBlock dt : Addr} {bound : BitVec 32} {body pre post : List Token}
  {t : Token} {s s' : FdtState}

theorem loopReads_succ (n : ℕ) (s : FdtState) : loopReads mem dt (n + 1) s =
    iterationReads mem s ++ match parseIteration mem dt s with
      | .ok (.running s') => loopReads mem dt n s'
      | _ => [] := rfl

theorem iterationReads_of_lt (hl : LoadedTokens mem infoBlock dt bound body)
    (hinfo : s.fdtInfoBlock = infoBlock) (hlt : s.currOffset.toNat < bound.toNat) :
    iterationReads mem s = [s.currOffset.toNat] := by
  rw [iterationReads, hl.readBound hinfo]
  exact if_pos ((lt_setWidth_iff _).mpr hlt)

theorem isString_length_unique {a : Addr} {text1 text2 : List Byte} (h1 : IsString mem a text1)
    (h2 : IsString mem a text2) : text1.length = text2.length := by
  have hlen := (strlen_of_isString h1 h1.length_lt).symm.trans (strlen_of_isString h2 h2.length_lt)
  have hnat := congrArg BitVec.toNat (Except.ok.inj hlen)
  rwa [BitVec.toNat_ofNat, BitVec.toNat_ofNat, Nat.mod_eq_of_lt h1.length_lt,
    Nat.mod_eq_of_lt h2.length_lt] at hnat

theorem Advances.eq_tokenAdvance {k : ℕ} (h : Advances mem dt s k)
    (hl : LoadedTokens mem infoBlock dt bound body) (hsplit : body = pre ++ t :: post)
    (hvalid : t.Valid) (hexact : Exact pre s) : k = tokenAdvance t := by
  obtain ⟨hword, hpayload⟩ := hl.at_token hsplit hexact
  have hread := fdtRead32_of_holds hword
  cases h with
  | beginNode token isString =>
    have htoken := Except.ok.inj (hread.symm.trans token)
    cases t with
    | beginNode name =>
      have hname : IsString mem (dt + (pastWord s).currOffset) name :=
        ⟨(holds_append.mp hpayload).1, hvalid⟩
      rw [tokenAdvance, isString_length_unique isString hname]
    | _ => cases htoken
  | prop token len =>
    have htoken := Except.ok.inj (hread.symm.trans token)
    cases t with
    | prop nameoff value =>
      have hlen : fdtRead32 mem (dt + (pastWord s).currOffset) = .ok (BitVec.ofNat 32 value.length) :=
        fdtRead32_of_holds (holds_append.mp (holds_append.mp hpayload).1).1
      obtain rfl := Except.ok.inj (len.symm.trans hlen)
      have hvalue : value.length < 2 ^ 32 := hvalid
      rw [tokenAdvance, BitVec.toNat_ofNat, Nat.mod_eq_of_lt hvalue]
    | _ => cases htoken
  | word token_eq noBegin noProp =>
    obtain rfl := Except.ok.inj (hread.symm.trans token_eq)
    cases t with
    | beginNode => exact absurd rfl noBegin
    | prop => exact absurd rfl noProp
    | _ => rfl

/-- The name of a token in a block that ends below the bound is shorter than 4 GiB. -/
theorem nameEnds_of_token (hl : LoadedTokens mem infoBlock dt bound body)
    (hsplit : body = pre ++ t :: post) (hvalid : t.Valid) (hexact : Exact pre s)
    (hbound : (FdtTokens.encode body).length < bound.toNat) : NameEnds mem dt s := by
  intro token
  obtain ⟨hword, hpayload⟩ := hl.at_token hsplit hexact
  have htoken := Except.ok.inj ((fdtRead32_of_holds hword).symm.trans token)
  cases t with
  | beginNode name =>
    refine ⟨name, ⟨(holds_append.mp hpayload).1, hvalid⟩, ?_⟩
    have hlt := bound.isLt
    have hlen := (token_encode_length (.beginNode name)).2
    rw [hsplit, FdtTokens.encode_append, FdtTokens.encode_cons, List.length_append,
      List.length_append] at hbound
    rw [payloadLength] at hlen
    omega
  | _ => cases htoken

/-- The iteration that reads a token ends at its end, or in front of the terminator of its name. -/
theorem tokenAdvance_cases (offset : ℕ) (t : Token) :
    tokenReadsOf offset t = [offset] ∧ t.encode.length = tokenAdvance t ∨
    tokenReadsOf offset t = [offset, offset + tokenAdvance t] ∧
      ∃ front, t.encode = front ++ be32 0#32 ∧ front.length = tokenAdvance t := by
  cases t with
  | beginNode name =>
    rw [tokenReadsOf, tokenAdvance, wordsUp]
    by_cases hdiv : name.length % 4 = 0
    · right
      rw [if_pos hdiv, hdiv, Nat.add_assoc]
      refine ⟨rfl, be32 1#32 ++ name, encode_beginNode hdiv, ?_⟩
      rw [List.length_append, be32_length]
      omega
    · left
      rw [if_neg hdiv, Token.encode, List.length_append, be32_length, padded_length,
        List.length_append, List.length_singleton]
      exact ⟨rfl, by omega⟩
  | prop nameoff value =>
    left
    simp only [Token.encode, List.length_append, be32_length, padded_length, tokenReadsOf,
      tokenAdvance, wordsUp, true_and]
    omega
  | _ => exact .inl ⟨rfl, rfl⟩

/-- The loop stands behind some tokens of the block, or in front of the terminator of the last name.
Nothing is said of the heap and of the tree. -/
structure InStep (infoBlock : Addr) (body pre post : List Token) (s : FdtState) : Prop where
  fdtInfoBlock : s.fdtInfoBlock = infoBlock
  split : body = pre ++ post
  offset : Exact pre s ∨ Short pre s

theorem InStep.offset_lt (h : InStep infoBlock body pre post s)
    (hbound : (FdtTokens.encode body).length < bound.toNat) : s.currOffset.toNat < bound.toNat := by
  rw [h.split, FdtTokens.encode_append, List.length_append] at hbound
  rcases h.offset with hexact | ⟨front, hfront, hoffset⟩
  · rw [Exact] at hexact
    omega
  · rw [hfront, List.length_append] at hbound
    omega

theorem InStep.iterationReads_eq (h : InStep infoBlock body pre post s)
    (hl : LoadedTokens mem infoBlock dt bound body)
    (hbound : (FdtTokens.encode body).length < bound.toNat) :
    iterationReads mem s = [s.currOffset.toNat] :=
  iterationReads_of_lt hl h.fdtInfoBlock (h.offset_lt hbound)

theorem InStep.pastWord (h : InStep infoBlock body pre post s)
    (hl : LoadedTokens mem infoBlock dt bound body)
    (hbound : (FdtTokens.encode body).length < bound.toNat) (hshort : Short pre s) :
    parseIteration mem dt s = .ok (.running (pastWord s)) ∧
      InStep infoBlock body pre post (pastWord s) ∧ Exact pre (pastWord s) := by
  obtain ⟨hpast, hexact⟩ :=
    parseIteration_short hl h.split h.fdtInfoBlock hshort (h.offset_lt hbound)
  exact ⟨hpast, ⟨h.fdtInfoBlock, h.split, .inl hexact⟩, hexact⟩

/-- The iteration at a token that goes on: the loop is behind the token, or in front of a terminator
which is one of the places to read at. -/
theorem InStep.behind_token (h : InStep infoBlock body pre (t :: post) s)
    (hl : LoadedTokens mem infoBlock dt bound body) (hvalid : t.Valid)
    (hbound : (FdtTokens.encode body).length < bound.toNat) (hexact : Exact pre s)
    (hrun : parseIteration mem dt s = .ok (.running s')) :
    InStep infoBlock body (pre ++ [t]) post s' ∧
      (tokenReadsOf (FdtTokens.encode pre).length t = [(FdtTokens.encode pre).length] ∧
          Exact (pre ++ [t]) s' ∨
        tokenReadsOf (FdtTokens.encode pre).length t =
          [(FdtTokens.encode pre).length, s'.currOffset.toNat] ∧ Short (pre ++ [t]) s') := by
  have hname := nameEnds_of_token hl h.split hvalid hexact hbound
  have hread := hl.readBound h.fdtInfoBlock
  rcases parseIteration_advances hread (h.offset_lt hbound) hname hrun with
    ⟨s'', k, hs'', hadvances, hoffset⟩ | ⟨hdone, -⟩
  swap
  · cases hdone
  cases hs''
  rw [hadvances.eq_tokenAdvance hl h.split hvalid hexact,
    show s.currOffset.toNat = _ from hexact] at hoffset
  have hinfo : s'.fdtInfoBlock = infoBlock :=
    (parseIteration_frame hrun).infoBlock.trans h.fdtInfoBlock
  have hsplit : body = pre ++ [t] ++ post := by simpa using h.split
  rcases tokenAdvance_cases (FdtTokens.encode pre).length t with
    ⟨hreads, hlen⟩ | ⟨hreads, front, hencode, hfront⟩
  · have hexact' : Exact (pre ++ [t]) s' := by
      rw [Exact, encode_append_singleton_length, hlen, hoffset]
    exact ⟨⟨hinfo, hsplit, .inl hexact'⟩, .inl ⟨hreads, hexact'⟩⟩
  · have hshort : Short (pre ++ [t]) s' := by
      refine ⟨FdtTokens.encode pre ++ front, ?_, ?_⟩
      · rw [FdtTokens.encode_append, FdtTokens.encode_cons, hencode]
        simp
      · rw [hoffset, List.length_append, hfront]
    rw [← hoffset] at hreads
    exact ⟨⟨hinfo, hsplit, .inr hshort⟩, .inr ⟨hreads, hshort⟩⟩

theorem InStep.not_done (h : InStep infoBlock body pre (t :: post) s)
    (hl : LoadedTokens mem infoBlock dt bound body) (hend : t ≠ .fdtEnd)
    (hbound : (FdtTokens.encode body).length < bound.toNat) (hexact : Exact pre s) :
    parseIteration mem dt s ≠ .ok (.done s') := by
  intro hdone
  rw [parseIteration_of_holds hl h.fdtInfoBlock (h.offset_lt hbound)
    (hl.at_token h.split hexact).1] at hdone
  have hword := (parseToken_eq_done hdone).1
  cases t with
  | fdtEnd => exact hend rfl
  | _ => cases hword

/-- Every iteration that goes on keeps the loop in step. -/
theorem InStep.next (h : InStep infoBlock body pre post s) (hl : Loaded mem infoBlock dt bound body)
    (hwf : WellFormed body) (hbound : (FdtTokens.encode body).length < bound.toNat)
    (hrun : parseIteration mem dt s = .ok (.running s')) :
    ∃ pre' post', InStep infoBlock body pre' post' s' := by
  rcases h.offset with hexact | hshort
  · cases post with
    | nil =>
      obtain rfl : body = pre := by simpa using h.split
      have hend := parseIteration_end hl h.fdtInfoBlock hexact (h.offset_lt hbound)
      cases hend.symm.trans hrun
    | cons t post =>
      exact ⟨_, _, (h.behind_token hl.tokens (hwf.at_split h.split).1 hbound hexact hrun).1⟩
  · obtain ⟨hpast, hstep, -⟩ := h.pastWord hl.tokens hbound hshort
    cases hpast.symm.trans hrun
    exact ⟨pre, post, hstep⟩

theorem InStep.nameEnds (h : InStep infoBlock body pre post s)
    (hl : Loaded mem infoBlock dt bound body) (hwf : WellFormed body)
    (hbound : (FdtTokens.encode body).length < bound.toNat) : NameEnds mem dt s := by
  have hother : ∀ {w}, Holds mem (dt + s.currOffset) (be32 w) → w ≠ fdtBeginNode →
      NameEnds mem dt s := by
    intro w hword hne htoken
    exact absurd (Except.ok.inj ((fdtRead32_of_holds hword).symm.trans htoken)) hne
  rcases h.offset with hexact | hshort
  · cases post with
    | nil =>
      obtain rfl : body = pre := by simpa using h.split
      exact hother (hl.at_end hexact) (by decide)
    | cons t post =>
      exact nameEnds_of_token hl.tokens h.split (hwf.at_split h.split).1 hexact hbound
  · exact hother (hl.tokens.at_short h.split hshort) (by decide)

theorem InStep.namesEnd (h : InStep infoBlock body pre post s)
    (hl : Loaded mem infoBlock dt bound body) (hwf : WellFormed body)
    (hbound : (FdtTokens.encode body).length < bound.toNat) : NamesEnd mem dt bound s := by
  intro n s' hrun _
  have hstep : ∀ s s', (∃ pre post, InStep infoBlock body pre post s) →
      parseIteration mem dt s = .ok (.running s') →
        ∃ pre post, InStep infoBlock body pre post s' := by
    rintro s s' ⟨pre, post, h⟩ hrun
    exact h.next hl hwf hbound hrun
  obtain ⟨pre', post', h'⟩ := parseLoop_invariant hstep ⟨pre, post, h⟩ hrun
  exact h'.nameEnds hl hwf hbound

/-- At most `n` iterations read the first of the expected offsets, and all of them where the loop
is over. -/
def ReadsRest (mem : Memory) (dt : Addr) (n : ℕ) (s : FdtState) (expected : List ℕ) : Prop :=
  ∃ rest, loopReads mem dt n s ++ rest = expected ∧
    ∀ s', parseLoop mem dt n s = .ok (.done s') → rest = []

theorem readsRest_zero (expected : List ℕ) : ReadsRest mem dt 0 s expected :=
  ⟨expected, rfl, fun _ hrun => nomatch hrun⟩

theorem readsRest_running {n o : ℕ} {expected : List ℕ}
    (hit : parseIteration mem dt s = .ok (.running s')) (hreads : iterationReads mem s = [o])
    (h : ReadsRest mem dt n s' expected) : ReadsRest mem dt (n + 1) s (o :: expected) := by
  obtain ⟨rest, rfl, hdone⟩ := h
  refine ⟨rest, ?_, ?_⟩
  · rw [loopReads_succ, hit, hreads]
    rfl
  · rw [parseLoop_succ, hit]
    exact hdone

theorem readsRest_error {n o : ℕ} {fault : Fault} (expected : List ℕ)
    (hit : parseIteration mem dt s = .error fault) (hreads : iterationReads mem s = [o]) :
    ReadsRest mem dt (n + 1) s (o :: expected) := by
  refine ⟨expected, ?_, ?_⟩
  · rw [loopReads_succ, hit, hreads]
    rfl
  · rw [parseLoop_succ, hit]
    exact fun _ hrun => nomatch hrun

theorem readsRest_done {n o : ℕ} (hit : parseIteration mem dt s = .ok (.done s'))
    (hreads : iterationReads mem s = [o]) : ReadsRest mem dt (n + 1) s [o] := by
  refine ⟨[], ?_, fun _ _ => rfl⟩
  rw [loopReads_succ, hit, hreads]
  rfl

theorem readsRest_terminator {n : ℕ} {expected : List ℕ}
    (hl : LoadedTokens mem infoBlock dt bound body)
    (hbound : (FdtTokens.encode body).length < bound.toNat)
    (h : InStep infoBlock body pre post s) (hshort : Short pre s)
    (hrest : ∀ n s', InStep infoBlock body pre post s' → Exact pre s' →
      ReadsRest mem dt n s' expected) :
    ReadsRest mem dt n s (s.currOffset.toNat :: expected) := by
  rcases n with _ | n
  · exact readsRest_zero _
  obtain ⟨hpast, hstep, hexact⟩ := h.pastWord hl hbound hshort
  exact readsRest_running hpast (h.iterationReads_eq hl hbound) (hrest n _ hstep hexact)

theorem readsRest_token {n : ℕ} {expected : List ℕ} (hl : LoadedTokens mem infoBlock dt bound body)
    (hwf : WellFormed body) (hbound : (FdtTokens.encode body).length < bound.toNat)
    (h : InStep infoBlock body pre (t :: post) s) (hexact : Exact pre s)
    (hrest : ∀ n s', InStep infoBlock body (pre ++ [t]) post s' → Exact (pre ++ [t]) s' →
      ReadsRest mem dt n s' expected) :
    ReadsRest mem dt n s (tokenReadsOf (FdtTokens.encode pre).length t ++ expected) := by
  rcases n with _ | n
  · exact readsRest_zero _
  obtain ⟨hvalid, hend⟩ := hwf.at_split h.split
  have hreads := h.iterationReads_eq hl hbound
  rw [show s.currOffset.toNat = _ from hexact] at hreads
  cases hit : parseIteration mem dt s with
  | error fault =>
    rcases tokenAdvance_cases (FdtTokens.encode pre).length t with ⟨hof, -⟩ | ⟨hof, -⟩
    · rw [hof]
      exact readsRest_error _ hit hreads
    · rw [hof]
      exact readsRest_error _ hit hreads
  | ok l =>
    cases l with
    | done s' => exact absurd hit (h.not_done hl hend hbound hexact)
    | running s' =>
      obtain ⟨h', ⟨hof, hexact'⟩ | ⟨hof, hshort⟩⟩ := h.behind_token hl hvalid hbound hexact hit
      · rw [hof]
        exact readsRest_running hit hreads (hrest n s' h' hexact')
      · -- the terminator of the name is still to come
        rw [hof]
        exact readsRest_running hit hreads (readsRest_terminator hl hbound h' hshort hrest)

theorem readsRest_of_inStep (hl : Loaded mem infoBlock dt bound body) (hwf : WellFormed body)
    (hbound : (FdtTokens.encode body).length < bound.toNat) (n : ℕ)
    (h : InStep infoBlock body pre post s) (hexact : Exact pre s) :
    ReadsRest mem dt n s (readOffsets (FdtTokens.encode pre).length (post ++ [.fdtEnd])) := by
  induction post generalizing pre s n with
  | nil =>
    rcases n with _ | n
    · exact readsRest_zero _
    have hreads := h.iterationReads_eq hl.tokens hbound
    have hlt := h.offset_lt hbound
    rw [show s.currOffset.toNat = _ from hexact] at hreads
    obtain rfl : body = pre := by simpa using h.split
    exact readsRest_done (parseIteration_end hl h.fdtInfoBlock hexact hlt) hreads
  | cons t post ih =>
    rw [List.cons_append, readOffsets, ← encode_append_singleton_length]
    exact readsRest_token hl.tokens hwf hbound h hexact fun n _ h' hexact' => ih n h' hexact'

end Reads

section Block

variable {mem : Memory} {fdtPtr : Addr} {header : BlobHeader} {body : List Token}
  {heap : EternalHeap}

theorem inStep_entered (heap : EternalHeap) (nodes : Addr → FdtNode)
    (nodeProperties : Addr → FdtNodeProperty) :
    InStep fdtPtr body [] body (.entered fdtPtr heap nodes nodeProperties) := ⟨rfl, rfl, .inl rfl⟩

theorem fdtParseTree_eq_ok_of_blob {n : ℕ} {nodes : Addr → FdtNode}
    {nodeProperties : Addr → FdtNodeProperty} {s : FdtState} (hb : Blob mem fdtPtr header body) :
    fdtParseTree mem n (.entered fdtPtr heap nodes nodeProperties) = .ok s ↔
      parseLoop mem (header.dtStart fdtPtr) n (.entered fdtPtr heap nodes nodeProperties) =
        .ok (.done s) := by
  rw [hb.fdtParseTree]
  generalize parseLoop mem _ n _ = r
  rcases r with fault | t | t <;> simp

theorem ReadsRest.resynchronised {n : ℕ} {start : FdtState} {dt : Addr}
    (h : ReadsRest mem dt n start (readOffsets 0 (body ++ [.fdtEnd]))) :
    ∃ rest, Resynchronised (body ++ [.fdtEnd]) (loopReads mem dt n start ++ rest) ∧
      ∀ s, parseLoop mem dt n start = .ok (.done s) → rest = [] := by
  obtain ⟨rest, hrest, hdone⟩ := h
  exact ⟨rest, hrest ▸ resynchronised_readOffsets _, hdone⟩

theorem fdtParseTree_ends_of_blob {nodes : Addr → FdtNode}
    {nodeProperties : Addr → FdtNodeProperty} (hb : Blob mem fdtPtr header body)
    (hwf : WellFormed body)
    (hbound : (FdtTokens.encode body).length < (bswap32 header.sizeDtStruct).toNat) {n : ℕ}
    (hn : wordsBelow (bswap32 header.sizeDtStruct) < n) :
    (∃ s, fdtParseTree mem n (.entered fdtPtr heap nodes nodeProperties) = .ok s) ∨
      ∃ fault, fdtParseTree mem n (.entered fdtPtr heap nodes nodeProperties) = .error fault ∧
        fault ≠ .endless := by
  have hl := hb.loaded (hbound.trans (bswap32 header.sizeDtStruct).isLt)
  have hstep : InStep fdtPtr body [] body (.entered fdtPtr heap nodes nodeProperties) :=
    inStep_entered heap nodes nodeProperties
  rw [hb.fdtParseTree]
  rcases parseLoop_ne_endless (hl.tokens.readBound hstep.fdtInfoBlock)
    (hstep.namesEnd hl hwf hbound) hn with ⟨s, hrun⟩ | ⟨fault, hrun, hne⟩
  · rw [hrun]
    exact .inl ⟨s, rfl⟩
  · rw [hrun]
    exact .inr ⟨fault, rfl, hne⟩

/-- `fdt_ParseTree` stays in step with the tokens of every well-formed block whose `FDT_END` lies
below the bound, up to a panic or a null pointer where there is one. Every run comes to an end, and
on a heap that suffices to the regular one. -/
theorem fdtParseTree_resynchronises (hb : Blob mem fdtPtr header body) (hwf : WellFormed body)
    (hbound : (FdtTokens.encode body).length < (bswap32 header.sizeDtStruct).toNat)
    (heap : EternalHeap) (nodes : Addr → FdtNode) (nodeProperties : Addr → FdtNodeProperty) :
    let start : FdtState := .entered fdtPtr heap nodes nodeProperties
    (∀ n, ∃ rest, Resynchronised (body ++ [.fdtEnd])
        (loopReads mem (header.dtStart fdtPtr) n start ++ rest) ∧
      ∀ s, fdtParseTree mem n start = .ok s → rest = []) ∧
    (∃ n, (∃ s, fdtParseTree mem n start = .ok s) ∨
      ∃ fault, fdtParseTree mem n start = .error fault ∧ fault ≠ .endless) ∧
    (heap.currKallocEternalAddress ≠ NULL → Suffices body heap →
      ∃ n s, fdtParseTree mem n start = .ok s) := by
  intro start
  have hl := hb.loaded (hbound.trans (bswap32 header.sizeDtStruct).isLt)
  have hstep : InStep fdtPtr body [] body start := inStep_entered heap nodes nodeProperties
  refine ⟨fun n => ?_, ?_, fun hstart hsuffices => ?_⟩
  · obtain ⟨rest, hresync, hdone⟩ :=
      (readsRest_of_inStep hl hwf hbound n hstep rfl).resynchronised
    exact ⟨rest, hresync, fun s hs => hdone s ((fdtParseTree_eq_ok_of_blob hb).mp hs)⟩
  · exact ⟨_, fdtParseTree_ends_of_blob hb hwf hbound (Nat.lt_succ_self _)⟩
  · obtain ⟨n, s, hrun⟩ := (stackDiscipline hl hwf hbound
      (stands_entered nodes nodeProperties hstart hsuffices) rfl).ended
    exact ⟨n, s, (fdtParseTree_eq_ok_of_blob hb).mpr hrun⟩

/-- The sample, whose root has a terminator in a word of its own. -/
theorem fdtParseTree_resynchronises_sample :
    ∃ n, Resynchronised (sampleBody ++ [.fdtEnd]) (loopReads sampleMemory 0x82200038#64 n
      (.entered 0x82200000#64 sampleHeap (fun _ => .zeroed) fun _ => .zeroed)) := by
  have hblob : Blob sampleMemory 0x82200000#64 (blobHeader sampleBody) sampleBody :=
    blob_blobBytes (by decide)
  obtain ⟨hreads, -, hends⟩ := fdtParseTree_resynchronises hblob sampleBody_wellFormed (by decide)
    sampleHeap (fun _ => .zeroed) fun _ => .zeroed
  obtain ⟨n, s, hs⟩ := hends (by decide) sampleHeap_suffices
  obtain ⟨rest, hresync, hdone⟩ := hreads n
  rw [hdone s hs, List.append_nil] at hresync
  exact ⟨n, hresync⟩

end Block

end SysRv.Fdt
