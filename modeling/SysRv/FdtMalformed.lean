import SysRv.FdtStack

/-!
# Blobs from outside

Any bytes that start with the magic number. Nothing but that number is checked, so the
answer is never no: the blobs that are dealt with as the header file promises are those
with a well-formed structure block. On these no byte outside the blob is read and the
current node is never NULL where it is used.
-/

namespace SysRv.Fdt

open ByteMemory KString Kalloc Nesting FdtTokens

/-- Every node has its properties in front of its children. -/
def PropertiesFirst (body : List Token) : Prop :=
  ∀ nameoff value, ¬ [.endNode, .prop nameoff value] <:+: body.filter (· ≠ .nop)

/-- The header is complete, and where it says that the structure block is there are the given
tokens and `FDT_END`, in the order of the specification. -/
structure StructureBlock (bytes : List Byte) (body : List Token) : Prop where
  header : 40 ≤ bytes.length
  block : LiesAt bytes (FdtTokens.encode (body ++ [.fdtEnd])) (wordAt bytes 8).toNat
  size : (FdtTokens.encode (body ++ [.fdtEnd])).length = (wordAt bytes 36).toNat
  wellFormed : WellFormed body
  propertiesFirst : PropertiesFirst body

section Safety

variable {base fdtPtr : Addr} {bytes : List Byte} {mem : Memory} {header : BlobHeader}
  {body : List Token} {heap : EternalHeap} {nodes : Addr → FdtNode}
  {nodeProperties : Addr → FdtNodeProperty}

/-- The promise of the header file for a blob: no access through a NULL current node, no read
outside the blob, and the answer no where the structure block is not well formed. -/
structure HandledSafely (base : Addr) (bytes : List Byte) (start : FdtState) : Prop where
  noNull : ∀ n, srvFdtInit (.ofBytes base bytes) n start base ≠ .error .nullPointer
  inside : ∀ n a, srvFdtInit (.ofBytes base bytes) n start base ≠ .error (.unreadable a)
  rejected : (¬ ∃ body, StructureBlock bytes body) →
    ∃ n s, srvFdtInit (.ofBytes base bytes) n start base = .ok (s, false)

def headerAt (bytes : List Byte) : BlobHeader := ⟨wordAt bytes 8, wordAt bytes 12, wordAt bytes 36⟩

theorem StructureBlock.blob (h : StructureBlock bytes body) (base : Addr)
    (hsize : bytes.length ≤ 2 ^ 64) :
    Blob (.ofBytes base bytes) base (headerAt bytes) body := by
  have hheader := h.header
  refine ⟨holds_wordAt 8 (by omega) hsize, holds_wordAt 12 (by omega) hsize,
    holds_wordAt 36 (by omega) hsize, ?_⟩
  rw [BlobHeader.dtStart, ← BitVec.ofNat_toNat]
  exact h.block.holds hsize

theorem StructureBlock.small (h : StructureBlock bytes body) :
    (FdtTokens.encode body).length < 2 ^ 32 := by
  have hsize := h.size
  have hlt := (wordAt bytes 36).isLt
  rw [encode_end_length] at hsize
  omega

/-- On a well-formed block the only fault is the panic of a heap that is too small. -/
theorem StructureBlock.fault (h : StructureBlock bytes body) (hmagic : be32 fdtMagic <+: bytes)
    (hsize : bytes.length ≤ 2 ^ 64) (hstart : heap.currKallocEternalAddress ≠ NULL)
    (hheap : EndsBelow body heap) {n : ℕ} {fault : Fault}
    (hinit : srvFdtInit (.ofBytes base bytes) n (.initial heap nodes nodeProperties) base =
      .error fault) : fault = .endless ∨ fault = .panic .eternalHeapExhausted := by
  rcases (h.blob base hsize).srvFdtInit_cases nodes nodeProperties (holds_at_base hmagic hsize)
      h.wellFormed h.small endsBelow_rule hstart hheap n with
    ⟨s, -, hinit', -⟩ | hinit' | ⟨hinit', -⟩
  · simp [hinit'] at hinit
  · exact .inl (by simpa [hinit', eq_comm] using hinit)
  · exact .inr (by simpa [hinit', eq_comm] using hinit)

/-- Behind the magic number the answer is never no. -/
theorem srvFdtInit_ne_false {s s' : FdtState} (hmagic : Holds mem fdtPtr (be32 fdtMagic)) (n : ℕ) :
    srvFdtInit mem n s fdtPtr ≠ .ok (s', false) := by
  intro hinit
  rw [srvFdtInit, fdtRead32_of_holds hmagic] at hinit
  simp only [bind, Except.bind, ne_eq, not_true_eq_false, if_false] at hinit
  generalize fdtParseTree mem n _ = r at hinit
  cases r <;> simp [pure, Except.pure] at hinit

/-- A block that starts with `FDT_END_NODE` is followed through the NULL current node. -/
theorem Blob.srvFdtInit_endNode (hb : Blob mem fdtPtr header (.endNode :: body))
    (hmagic : Holds mem fdtPtr (be32 fdtMagic))
    (hsmall : (FdtTokens.encode (.endNode :: body)).length < 2 ^ 32)
    (hbound : 0 < (bswap32 header.sizeDtStruct).toNat) (n : ℕ) :
    srvFdtInit mem (n + 1) (.initial heap nodes nodeProperties) fdtPtr = .error .nullPointer := by
  have hl := (hb.loaded hsmall).tokens
  have hsplit : Token.endNode :: body = [] ++ .endNode :: body := rfl
  have hexact : Exact [] (.entered fdtPtr heap nodes nodeProperties) := rfl
  have hcond : (FdtState.entered fdtPtr heap nodes nodeProperties).currOffset.toNat <
      (bswap32 header.sizeDtStruct).toNat := hbound
  have hiteration : parseIteration mem (header.dtStart fdtPtr)
      (.entered fdtPtr heap nodes nodeProperties) = .error .nullPointer := by
    rw [parseIteration_of_holds hl rfl hcond (hl.at_token hsplit hexact).1]
    rfl
  rw [srvFdtInit_of_magic hmagic, hb.fdtParseTree, parseLoop_succ, hiteration]
  rfl

/-- `srv_fdt_Init` deals with a blob as promised if and only if its structure block is well
formed. -/
theorem srvFdtInit_handled_safely_iff (hmagic : be32 fdtMagic <+: bytes)
    (hsize : bytes.length ≤ 2 ^ 64) (hstart : heap.currKallocEternalAddress ≠ NULL)
    (hcurr : heap.currKallocEternalAddress.toNat ≤ heap.kallocEternalEnd.toNat)
    (hend : heap.kallocEternalEnd.toNat + 272 < 2 ^ 64) :
    HandledSafely base bytes (.initial heap nodes nodeProperties) ↔
      ∃ body, StructureBlock bytes body := by
  constructor
  · intro h
    by_contra hmalformed
    obtain ⟨n, s, hinit⟩ := h.rejected hmalformed
    exact srvFdtInit_ne_false (holds_at_base hmagic hsize) n hinit
  · rintro ⟨body, h⟩
    have hfault : ∀ n fault, srvFdtInit (.ofBytes base bytes) n (.initial heap nodes nodeProperties)
        base = .error fault → fault = .endless ∨ fault = .panic .eternalHeapExhausted :=
      fun n fault => h.fault hmagic hsize hstart ⟨hcurr, hend⟩
    refine ⟨fun n hinit => ?_, fun n a hinit => ?_, fun hmalformed => absurd ⟨body, h⟩ hmalformed⟩
    · simpa using hfault n _ hinit
    · simpa using hfault n _ hinit

end Safety

section Layout

variable {body : List Token} {strings : List Byte}

theorem structureBlock_blobBytes (hsize : (blobBytes body strings).length < 2 ^ 32)
    (hwf : WellFormed body) (hfirst : PropertiesFirst body) :
    StructureBlock (blobBytes body strings) body where
  header := by
    have hwords : ((blobWords body strings).flatMap be32).length = 40 := rfl
    rw [blobBytes, List.length_append, hwords]
    exact Nat.le_add_right ..
  block := by
    rw [(blobBytes_field (k := 2) rfl : LiesAt _ (be32 56#32) 8).wordAt]
    exact blobBytes_block
  size := by
    rw [(blobBytes_field (k := 9) rfl : LiesAt _ _ 36).wordAt, BitVec.toNat_ofNat, Nat.mod_eq_of_lt]
    simp only [blobBytes, List.length_append] at hsize ⊢
    omega
  wellFormed := hwf
  propertiesFirst := hfirst

end Layout

theorem srvFdtInit_handled_safely_sample :
    HandledSafely 0x82200000#64 (blobBytes sampleBody [0x70#8, 0#8]) (.zeroed sampleHeap) :=
  (srvFdtInit_handled_safely_iff ⟨_, rfl⟩ (by decide) (by decide) (by decide) (by decide)).mpr
    ⟨sampleBody, structureBlock_blobBytes (by decide) sampleBody_wellFormed
      (by simp [PropertiesFirst, sampleBody, List.infix_cons_iff, List.prefix_cons_iff])⟩

/-- A blob that closes a node before any is open. -/
theorem srvFdtInit_endNode_sample :
    srvFdtInit (.ofBytes 0x82200000#64 (blobBytes [.endNode] [])) 1 (.zeroed sampleHeap)
        0x82200000#64 = .error .nullPointer ∧
      ¬ HandledSafely 0x82200000#64 (blobBytes [.endNode] []) (.zeroed sampleHeap) := by
  have hsize : (blobBytes [.endNode] []).length < 2 ^ 32 := by decide
  have hnull : srvFdtInit (.ofBytes 0x82200000#64 (blobBytes [.endNode] [])) 1 (.zeroed sampleHeap)
      0x82200000#64 = .error .nullPointer :=
    (blob_blobBytes hsize).srvFdtInit_endNode (holds_at_base blobBytes_magic (by decide)) (by decide)
      (by decide) 0
  exact ⟨hnull, fun h => h.noNull 1 hnull⟩

end SysRv.Fdt
