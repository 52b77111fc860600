import SysRv.FdtFrame
import SysRv.FdtStack

/-!
# The part of the structure block that is parsed

The loop compares its offset with `size_dt_struct` as it stands in memory, while the header is
stored most significant byte first. So it covers the structure block where the size with its
bytes turned round happens to be large or small enough.
-/

namespace SysRv.Fdt

open ByteMemory KString Kalloc Nesting FdtTokens ListSplits

/-- A structure block of some tokens whose size is in the header, in the byte order of the
tree. -/
structure SizedBlob (mem : Memory) (fdtPtr : Addr) (header : BlobHeader) (tokens : List Token) :
    Prop where
  offDtStruct : Holds mem (fdtPtr + offDtStructField) (be32 header.offDtStruct)
  offDtStrings : Holds mem (fdtPtr + offDtStringsField) (be32 header.offDtStrings)
  sizeDtStruct : Holds mem (fdtPtr + sizeDtStructField) (be32 header.sizeDtStruct)
  block : Holds mem (header.dtStart fdtPtr) (FdtTokens.encode tokens)
  size : header.sizeDtStruct.toNat = (FdtTokens.encode tokens).length

def ReadsToken (mem : Memory) (dt : Addr) (start : FdtState) (offset : ℕ) : Prop :=
  ∃ n s bound, parseLoop mem dt n start = .ok (.running s) ∧
    readWord mem (s.fdtInfoBlock + sizeDtStructField) = .ok bound ∧
    s.currOffset < bound.setWidth 64 ∧ s.currOffset.toNat = offset

def ReadsAll (mem : Memory) (dt : Addr) (start : FdtState) (tokens : List Token) : Prop :=
  ∀ pre t post, tokens = pre ++ t :: post → ReadsToken mem dt start (FdtTokens.encode pre).length

def ReadsBelow (mem : Memory) (dt : Addr) (start : FdtState) (size : ℕ) : Prop :=
  ∀ offset, ReadsToken mem dt start offset → offset < size

section Cover

variable {mem : Memory} {fdtPtr : Addr} {header : BlobHeader} {body : List Token}
  {heap : EternalHeap} {nodes : Addr → FdtNode} {nodeProperties : Addr → FdtNodeProperty}
  {start : FdtState} {infoBlock dt : Addr} {bound : BitVec 32} {offset : ℕ}

theorem ReadsToken.lt_bound (hl : LoadedTokens mem infoBlock dt bound body)
    (hinfo : start.fdtInfoBlock = infoBlock) (h : ReadsToken mem dt start offset) :
    offset < bound.toNat := by
  obtain ⟨n, s, w, hrun, hw, hlt, rfl⟩ := h
  have hbound := hl.readBound ((parseLoop_frame hrun).infoBlock.trans hinfo)
  obtain rfl : bound = w := by simpa [hbound] using hw
  exact (lt_setWidth_iff _).mp hlt

theorem readsToken_of_lt {s : FdtState} {n : ℕ} (hl : LoadedTokens mem infoBlock dt bound body)
    (hinfo : start.fdtInfoBlock = infoBlock) (hrun : parseLoop mem dt n start = .ok (.running s))
    (hlt : s.currOffset.toNat < bound.toNat) : ReadsToken mem dt start s.currOffset.toNat := by
  exact ⟨n, s, bound, hrun, hl.readBound ((parseLoop_frame hrun).infoBlock.trans hinfo),
    (lt_setWidth_iff _).mpr hlt, rfl⟩

/-- Where the bound is above the offset behind the tokens, the loop reads them and goes on to
read there. -/
theorem readsToken_behind {pre post : List Token} (hl : LoadedTokens mem infoBlock dt bound body)
    (hwf : WellFormed body) (hbound : (FdtTokens.encode body).length < bound.toNat)
    (hs : Stands infoBlock dt nodes body Suffices [] body start) (hexact : Exact [] start)
    (hsplit : body = pre ++ post) : ReadsToken mem dt start (FdtTokens.encode pre).length := by
  obtain ⟨n, s, hrun, hs', hexact'⟩ := parseLoop_behind hl hwf hbound hs hexact hsplit
  have hreads := readsToken_of_lt hl hs.tracked.fdtInfoBlock hrun (hs'.offset_lt hbound)
  rwa [show s.currOffset.toNat = _ from hexact'] at hreads

theorem SizedBlob.loaded {tokens : List Token} (hb : SizedBlob mem fdtPtr header tokens) :
    LoadedTokens mem fdtPtr (header.dtStart fdtPtr) (bswap32 header.sizeDtStruct) tokens where
  sizeDtStruct := load32_of_holds_be32 hb.sizeDtStruct
  offDtStrings := ⟨_, load32_of_holds_be32 hb.offDtStrings⟩
  block := hb.block
  small := by
    have hlt := header.sizeDtStruct.isLt
    rw [hb.size] at hlt
    omega

theorem SizedBlob.loaded_body (hb : SizedBlob mem fdtPtr header (body ++ [.fdtEnd])) :
    LoadedTokens mem fdtPtr (header.dtStart fdtPtr) (bswap32 header.sizeDtStruct) body := by
  refine Loaded.tokens ⟨hb.loaded.sizeDtStruct, hb.loaded.offDtStrings, hb.block, ?_⟩
  have hsmall := hb.loaded.small
  omega

/-- With `FDT_END` the loop reads every token if and only if the bound is above the last. -/
theorem SizedBlob.readsAll_iff (hb : SizedBlob mem fdtPtr header (body ++ [.fdtEnd]))
    (hwf : WellFormed body) (hstart : heap.currKallocEternalAddress ≠ NULL)
    (hheap : Suffices body heap) :
    ReadsAll mem (header.dtStart fdtPtr) (.entered fdtPtr heap nodes nodeProperties)
        (body ++ [.fdtEnd]) ↔
      header.sizeDtStruct.toNat < (bswap32 header.sizeDtStruct).toNat + 4 := by
  have hsize := hb.size
  rw [encode_end_length] at hsize
  constructor
  · intro hall
    have hlast := (hall body .fdtEnd [] rfl).lt_bound hb.loaded_body rfl
    omega
  · intro hlt pre t post hsplit
    have hbehind : ∃ rest, body = pre ++ rest := by
      rcases snoc_split hsplit with ⟨rfl, -⟩ | ⟨rest, hrest⟩
      · exact ⟨[], (List.append_nil _).symm⟩
      · exact ⟨_, hrest⟩
    obtain ⟨rest, hbody⟩ := hbehind
    exact readsToken_behind hb.loaded_body hwf (by omega)
      (stands_entered nodes nodeProperties hstart hheap) rfl hbody

/-- Without `FDT_END` the loop stays in the block if and only if the bound is not above it. -/
theorem SizedBlob.readsBelow_iff (hb : SizedBlob mem fdtPtr header body)
    (hwf : WellFormed body) (hstart : heap.currKallocEternalAddress ≠ NULL)
    (hheap : Suffices body heap) :
    ReadsBelow mem (header.dtStart fdtPtr) (.entered fdtPtr heap nodes nodeProperties)
        header.sizeDtStruct.toNat ↔
      (bswap32 header.sizeDtStruct).toNat ≤ header.sizeDtStruct.toNat := by
  have hsize := hb.size
  constructor
  · intro hbelow
    by_contra habove
    have hreads := readsToken_behind hb.loaded hwf (by omega)
      (stands_entered nodes nodeProperties hstart hheap) rfl (List.append_nil body).symm
    have hlt := hbelow _ hreads
    omega
  · intro hle offset hreads
    exact Nat.lt_of_lt_of_le (hreads.lt_bound hb.loaded rfl) hle

def CoversBlock (mem : Memory) (dt : Addr) (start : FdtState) (size : ℕ) (tokens : List Token) :
    Prop :=
  if .fdtEnd ∈ tokens then ReadsAll mem dt start tokens else ReadsBelow mem dt start size

/-- Whether the loop covers the block of some tokens, with or without `FDT_END` behind them,
is a matter of their size and of its value with the bytes turned round. -/
theorem fdtParseTree_covers_iff {tokens : List Token} (hb : SizedBlob mem fdtPtr header tokens)
    (htokens : tokens = body ++ [.fdtEnd] ∨ tokens = body) (hwf : WellFormed body)
    (hstart : heap.currKallocEternalAddress ≠ NULL) (hheap : Suffices body heap) :
    CoversBlock mem (header.dtStart fdtPtr) (.entered fdtPtr heap nodes nodeProperties)
        header.sizeDtStruct.toNat tokens ↔
      if .fdtEnd ∈ tokens then
        header.sizeDtStruct.toNat < (bswap32 header.sizeDtStruct).toNat + 4
      else (bswap32 header.sizeDtStruct).toNat ≤ header.sizeDtStruct.toNat := by
  rcases htokens with rfl | rfl
  · have hend : Token.fdtEnd ∈ body ++ [.fdtEnd] := List.mem_append_right _ (List.mem_singleton_self _)
    rw [CoversBlock, if_pos hend, if_pos hend]
    exact hb.readsAll_iff hwf hstart hheap
  · rw [CoversBlock, if_neg hwf.noEnd, if_neg hwf.noEnd]
    exact hb.readsBelow_iff hwf hstart hheap

/-- The sample has 64 bytes with its `FDT_END`, and the loop a bound of 2^30. -/
theorem fdtParseTree_covers_sample :
    CoversBlock sampleMemory 0x82200038#64
      (.entered 0x82200000#64 sampleHeap (fun _ => .zeroed) fun _ => .zeroed) 64
      (sampleBody ++ [.fdtEnd]) := by
  have hblob : Blob sampleMemory 0x82200000#64 (blobHeader sampleBody) sampleBody :=
    blob_blobBytes (by decide)
  have hsized : SizedBlob sampleMemory 0x82200000#64 (blobHeader sampleBody)
      (sampleBody ++ [.fdtEnd]) :=
    ⟨hblob.offDtStruct, hblob.offDtStrings, hblob.sizeDtStruct, hblob.block, by decide⟩
  exact (fdtParseTree_covers_iff hsized (.inl rfl) sampleBody_wellFormed (by decide)
    sampleHeap_suffices).mpr (by decide)

/-- A root node without `FDT_END`, and a header that says so. -/
def openBody : List Token := [.beginNode [], .endNode]

def openBytes : List Byte :=
  [fdtMagic, 68#32, 56#32, 68#32, 40#32, 17#32, 16#32, 0#32, 0#32, 12#32].flatMap be32 ++
    (List.replicate 16 0#8 ++ FdtTokens.encode openBody)

/-- The block has 12 bytes, and the loop a bound of 0x0C000000: it goes on behind the block. -/
theorem fdtParseTree_reads_behind_block :
    let mem := Memory.ofBytes 0x82200000#64 openBytes
    let start : FdtState := .entered 0x82200000#64 sampleHeap (fun _ => .zeroed) fun _ => .zeroed
    SizedBlob mem 0x82200000#64 ⟨56#32, 68#32, 12#32⟩ openBody ∧ WellFormed openBody ∧
      ReadsToken mem 0x82200038#64 start 12 ∧ ¬ CoversBlock mem 0x82200038#64 start 12 openBody := by
  have hsize : openBytes.length ≤ 2 ^ 64 := by decide
  have hfield : ∀ k w, [fdtMagic, 68#32, 56#32, 68#32, 40#32, 17#32, 16#32, 0#32, 0#32, 12#32][k]? =
      some w → Holds (.ofBytes 0x82200000#64 openBytes) (0x82200000#64 + BitVec.ofNat 64 (4 * k))
        (be32 w) := fun k w hw => (liesAt_flatMap_be32 hw _).holds hsize
  have hblock : LiesAt openBytes (FdtTokens.encode openBody) 56 := ⟨openBytes.take 56, [], rfl, rfl⟩
  have hblob : SizedBlob (.ofBytes 0x82200000#64 openBytes) 0x82200000#64 ⟨56#32, 68#32, 12#32⟩
      openBody :=
    { offDtStruct := hfield 2 _ rfl
      offDtStrings := hfield 3 _ rfl
      sizeDtStruct := hfield 9 _ rfl
      block := hblock.holds hsize
      size := rfl }
  have hwf : WellFormed openBody :=
    ⟨by simp [openBody, Token.Valid], by decide, _, rfl, rfl, by decide⟩
  have hheap : Suffices openBody sampleHeap := by
    simp only [Suffices]
    decide
  have hreads : ReadsToken (.ofBytes 0x82200000#64 openBytes) 0x82200038#64
      (.entered 0x82200000#64 sampleHeap (fun _ => .zeroed) fun _ => .zeroed) 12 :=
    readsToken_behind hblob.loaded hwf (by decide)
      (stands_entered _ _ (by decide) hheap) rfl (List.append_nil openBody).symm
  refine ⟨hblob, hwf, hreads, fun hcovers => ?_⟩
  rw [CoversBlock, if_neg hwf.noEnd] at hcovers
  exact Nat.lt_irrefl _ (hcovers 12 hreads)

end Cover

end SysRv.Fdt
