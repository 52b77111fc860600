import SysRv.FdtBlob

/-!
# The stack discipline of the parser

On a well-formed block whose `FDT_END` lies below the bound of the loop, with a heap that
suffices for its nodes and properties, the loop stops behind every token, and wherever it is
the current node, the parents and the properties passed on are those of the nesting so far.
Insertions that a full node refuses make no difference.
-/

namespace SysRv.Fdt

open ByteMemory KString Kalloc Nesting FdtTokens ListSplits

section Discipline

variable {mem : Memory} {infoBlock dt : Addr} {nodes₀ : Addr → FdtNode} {bound : BitVec 32}
  {body pre post : List Token} {t : Token} {s : FdtState}

theorem encode_prefix_length (hsplit : body = pre ++ post) :
    (FdtTokens.encode pre).length ≤ (FdtTokens.encode body).length := by
  rw [hsplit, FdtTokens.encode_append, List.length_append]
  exact Nat.le_add_right _ _

theorem Short.offset_le (h : Short pre s) : s.currOffset.toNat ≤ (FdtTokens.encode pre).length := by
  obtain ⟨front, hfront, hoffset⟩ := h
  rw [hoffset, hfront, List.length_append]
  exact Nat.le_add_right _ _

/-- Below the bound the loop is not stopped inside the block. -/
theorem Stands.offset_lt {H : List Token → EternalHeap → Prop}
    (hs : Stands infoBlock dt nodes₀ body H pre post s)
    (hbound : (FdtTokens.encode body).length < bound.toNat) : s.currOffset.toNat < bound.toNat := by
  have hle := encode_prefix_length hs.split
  rcases hs.offset with hexact | hshort
  · rw [Exact] at hexact
    omega
  · have hoffset := hshort.offset_le
    omega

theorem Stands.read_of_done {H : List Token → EternalHeap → Prop}
    (hs : Stands infoBlock dt nodes₀ body H pre post s) (hl : Loaded mem infoBlock dt bound body)
    (hwf : WellFormed body) (hH : HeapRule H) {s' : FdtState}
    (hrun : parseIteration mem dt s = .ok (.done s')) {front back : List Token}
    (hsplit : body = front ++ t :: back) (hlt : (FdtTokens.encode front).length < bound.toNat) :
    ∃ back', pre = front ++ t :: back' := by
  rcases hs.done hl hwf hH hrun with ⟨-, hbound⟩ | ⟨-, rfl⟩
  swap
  · exact ⟨back, by rw [← hsplit, hs.split, List.append_nil]⟩
  rcases split_cases (hs.split.symm.trans hsplit) with hread | ⟨rest, hfront⟩
  · exact hread
  · have hle := encode_prefix_length hfront
    rcases hs.offset with hexact | hshort
    · rw [Exact] at hexact
      omega
    · have hoffset := hshort.offset_le
      omega

theorem Suffices.not_full {heap : EternalHeap} (h : Suffices (t :: post) heap) :
    ¬ heap.kallocEternalEnd.toNat ≤ heap.currKallocEternalAddress.toNat + tokenCost t := by
  simp only [Suffices, List.map_cons, List.sum_cons] at h
  omega

/-- From in front of a token the loop gets behind it, in two iterations where a terminator
word is left and in one otherwise. -/
theorem parseLoop_token (hl : LoadedTokens mem infoBlock dt bound body) (hwf : WellFormed body)
    (hbound : (FdtTokens.encode body).length < bound.toNat)
    (hs : Stands infoBlock dt nodes₀ body Suffices pre (t :: post) s) (hexact : Exact pre s) :
    ∃ n s', parseLoop mem dt n s = .ok (.running s') ∧
      Stands infoBlock dt nodes₀ body Suffices (pre ++ [t]) post s' ∧ Exact (pre ++ [t]) s' := by
  have hstep := iterated_token hl hwf suffices_rule hs
  have hlt := hs.offset_lt hbound
  generalize hit : parseIteration mem dt s = r at hstep
  cases hstep with
  | stopped h => omega
  | padding short => exact absurd hexact short.not_exact
  | exhausted h full => exact absurd full h.not_full
  | token h =>
    rename_i s'
    rcases h.offset with hexact' | hshort
    · exact ⟨1, s', by simp [hit, parseLoop], h, hexact'⟩
    · obtain ⟨hpast, hexact'⟩ :=
        parseIteration_short hl h.split h.tracked.fdtInfoBlock hshort (h.offset_lt hbound)
      exact ⟨2, pastWord s', by simp [hit, hpast, parseLoop],
        ⟨h.split, h.tracked.pastWord, .inl hexact', h.heap⟩, hexact'⟩

theorem parseLoop_behind (hl : LoadedTokens mem infoBlock dt bound body) (hwf : WellFormed body)
    (hbound : (FdtTokens.encode body).length < bound.toNat)
    (hs : Stands infoBlock dt nodes₀ body Suffices [] body s) (hexact : Exact [] s)
    (hsplit : body = pre ++ post) :
    ∃ n s', parseLoop mem dt n s = .ok (.running s') ∧
      Stands infoBlock dt nodes₀ body Suffices pre post s' ∧ Exact pre s' := by
  induction pre using List.reverseRecOn generalizing post with
  | nil =>
    obtain rfl : body = post := hsplit
    exact ⟨0, s, rfl, hs, hexact⟩
  | append_singleton pre t ih =>
    obtain ⟨n, s₁, hn, hs₁, hexact₁⟩ := ih (show body = pre ++ t :: post by rw [hsplit]; simp)
    obtain ⟨m, s₂, hm, hs₂, hexact₂⟩ := parseLoop_token hl hwf hbound hs₁ hexact₁
    exact ⟨n + m, s₂, by rw [parseLoop_add hn, hm], hs₂, hexact₂⟩

/-- What the stack discipline says of the loop started in a state: it gets behind every
token; at any time it stands behind some of the tokens, up to the word with the terminator
of the last name, or is over; and it is over at some time. Wherever it is, it tracks the
nesting of the tokens it has consumed. -/
structure StackDiscipline (mem : Memory) (infoBlock dt : Addr) (body : List Token)
    (start : FdtState) : Prop where
  reached : ∀ pre post, body = pre ++ post → ∃ n s st, parseLoop mem dt n start = .ok (.running s) ∧
    Exact pre s ∧ nesting pre = some st ∧ Tracks infoBlock dt st s
  always : ∀ n, ∃ pre post s st, body = pre ++ post ∧ nesting pre = some st ∧
    Tracks infoBlock dt st s ∧
    (parseLoop mem dt n start = .ok (.running s) ∧ (Exact pre s ∨ Short pre s) ∨
      parseLoop mem dt n start = .ok (.done s) ∧ post = [])
  ended : ∃ n s, parseLoop mem dt n start = .ok (.done s)

theorem stackDiscipline (hl : Loaded mem infoBlock dt bound body) (hwf : WellFormed body)
    (hbound : (FdtTokens.encode body).length < bound.toNat)
    (hs : Stands infoBlock dt nodes₀ body Suffices [] body s) (hexact : Exact [] s) :
    StackDiscipline mem infoBlock dt body s where
  reached pre post hsplit := by
    obtain ⟨n, s', hn, hs', hexact'⟩ := parseLoop_behind hl.tokens hwf hbound hs hexact hsplit
    obtain ⟨st, hst, htracks⟩ := hs'.tracked.tracks
    exact ⟨n, s', st, hn, hexact', hst, htracks⟩
  always n := by
    have hreached := reached_parseLoop hl hwf suffices_rule n hs
    generalize parseLoop mem dt n s = r at hreached
    cases hreached with
    | running h =>
      obtain ⟨st, hst, htracks⟩ := h.tracked.tracks
      exact ⟨_, _, _, st, h.split, hst, htracks, .inl ⟨rfl, h.offset⟩⟩
    | ended h =>
      obtain ⟨st, hst, htracks⟩ := h.tracks
      exact ⟨body, [], _, st, by simp, hst, htracks, .inr ⟨rfl, rfl⟩⟩
    | stopped h bound_le =>
      have hlt := h.offset_lt hbound
      omega
    | exhausted h full => exact absurd full h.not_full
  ended := by
    have hsplit : body = body ++ [] := by simp
    obtain ⟨n, s', hn, hs', hexact'⟩ := parseLoop_behind hl.tokens hwf hbound hs hexact hsplit
    have hend := parseIteration_end hl hs'.tracked.fdtInfoBlock hexact' (hs'.offset_lt hbound)
    exact ⟨n + 1, pastWord s', by rw [parseLoop_add hn, parseLoop_succ, hend]⟩

end Discipline

section Init

variable {mem : Memory} {fdtPtr : Addr} {header : BlobHeader} {body : List Token}
  {heap : EternalHeap} {nodes : Addr → FdtNode} {nodeProperties : Addr → FdtNodeProperty}

/-- `fdt_ParseTree` keeps the stack discipline on every well-formed block whose `FDT_END` lies
below the offset bound, whatever the heap region held. -/
theorem fdtParseTree_stack_discipline (hb : Blob mem fdtPtr header body) (hwf : WellFormed body)
    (hbound : (FdtTokens.encode body).length < (bswap32 header.sizeDtStruct).toNat)
    (hstart : heap.currKallocEternalAddress ≠ NULL) (hheap : Suffices body heap) :
    StackDiscipline mem fdtPtr (header.dtStart fdtPtr) body
        (.entered fdtPtr heap nodes nodeProperties) ∧
      ∃ n s st, fdtParseTree mem n (.entered fdtPtr heap nodes nodeProperties) = .ok s ∧
        nesting body = some st ∧ Tracks fdtPtr (header.dtStart fdtPtr) st s := by
  have hl := hb.loaded (by omega)
  have hdiscipline := stackDiscipline hl hwf hbound
    (stands_entered nodes nodeProperties hstart hheap) rfl
  refine ⟨hdiscipline, ?_⟩
  obtain ⟨n, s, hn⟩ := hdiscipline.ended
  obtain ⟨pre, post, s', st, hsplit, hst, htracks, ⟨hrun, -⟩ | ⟨hrun, hpost⟩⟩ := hdiscipline.always n
  · rw [hn] at hrun
    cases hrun
  · obtain rfl : body = pre := by rw [hsplit, hpost, List.append_nil]
    obtain rfl : s = s' := by simpa [hn] using hrun
    exact ⟨n, s, st, by rw [hb.fdtParseTree, hn], hst, htracks⟩

/-- With a heap that suffices, `srv_fdt_Init` says yes to every well-formed block. -/
theorem Blob.srvFdtInit_true (hb : Blob mem fdtPtr header body)
    (hmagic : Holds mem fdtPtr (be32 fdtMagic)) (hwf : WellFormed body)
    (hsmall : (FdtTokens.encode body).length < 2 ^ 32)
    (hstart : heap.currKallocEternalAddress ≠ NULL) (hheap : Suffices body heap) :
    ∃ n s, srvFdtInit mem n (.initial heap nodes nodeProperties) fdtPtr = .ok (s, true) := by
  obtain ⟨n, hn⟩ := hb.srvFdtInit_ends nodes nodeProperties hmagic hwf hsmall suffices_rule hstart
    hheap
  rcases hb.srvFdtInit_cases nodes nodeProperties hmagic hwf hsmall suffices_rule hstart hheap n with
    ⟨s, -, hinit, -⟩ | hinit | ⟨-, _, _, _, hpost, hfull⟩
  · exact ⟨n, s, hinit⟩
  · exact absurd hinit hn
  · exact absurd hfull hpost.not_full

def sampleBody : List Token :=
  [.beginNode [], .prop 0#32 [0x72#8], .nop, .beginNode [0x61#8], .endNode, .endNode]

theorem sampleBody_wellFormed : WellFormed sampleBody where
  valid := by simp [sampleBody, Token.Valid]
  noEnd := by decide
  balanced := ⟨_, rfl, rfl, by decide⟩

def sampleMemory : Memory := .ofBytes 0x82200000#64 (blobBytes sampleBody [0x70#8, 0#8])

def sampleHeap : EternalHeap := .fresh 0x80300000#64 0x80400000#64

theorem sampleHeap_suffices : Suffices sampleBody sampleHeap := by
  simp only [Suffices]
  decide

theorem fdtParseTree_stack_discipline_sample :
    let start : FdtState :=
      .entered 0x82200000#64 sampleHeap (fun _ => .zeroed) fun _ => .zeroed
    StackDiscipline sampleMemory 0x82200000#64 0x82200038#64 sampleBody start ∧
      ∃ n s st, fdtParseTree sampleMemory n start = .ok s ∧ nesting sampleBody = some st ∧
        Tracks 0x82200000#64 0x82200038#64 st s :=
  fdtParseTree_stack_discipline (blob_blobBytes (by decide)) sampleBody_wellFormed (by decide)
    (by decide) sampleHeap_suffices

end Init

end SysRv.Fdt
