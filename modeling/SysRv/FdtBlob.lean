import SysRv.FdtLoop

/-!
# Blobs

What the parser reads of a flattened device tree in memory, and how `srv_fdt_Init` and
`fdt_ParseTree` get from there to the loop. A flattened device tree with given tokens and
strings can be laid out as the specification has it.
-/

namespace SysRv.Fdt

open ByteMemory KString Kalloc Nesting FdtTokens

structure BlobHeader where
  offDtStruct : BitVec 32
  offDtStrings : BitVec 32
  sizeDtStruct : BitVec 32
  deriving DecidableEq, Repr

def BlobHeader.dtStart (header : BlobHeader) (fdtPtr : Addr) : Addr :=
  fdtPtr + header.offDtStruct.setWidth 64

/-- A blob at an address: the header fields in the byte order of the tree, and the structure
block with `FDT_END` behind its other tokens. -/
structure Blob (mem : Memory) (fdtPtr : Addr) (header : BlobHeader) (body : List Token) : Prop where
  offDtStruct : Holds mem (fdtPtr + offDtStructField) (be32 header.offDtStruct)
  offDtStrings : Holds mem (fdtPtr + offDtStringsField) (be32 header.offDtStrings)
  sizeDtStruct : Holds mem (fdtPtr + sizeDtStructField) (be32 header.sizeDtStruct)
  block : Holds mem (header.dtStart fdtPtr) (FdtTokens.encode (body ++ [.fdtEnd]))

section Entry

variable {mem : Memory} {dt : Addr} {body : List Token} {H : List Token → EternalHeap → Prop}
  {fdtPtr : Addr} {header : BlobHeader} {heap : EternalHeap} {nodes : Addr → FdtNode}
  {nodeProperties : Addr → FdtNodeProperty}

/-- The loop tests the bound without turning its bytes round. -/
theorem Blob.loaded (hb : Blob mem fdtPtr header body)
    (hsmall : (FdtTokens.encode body).length < 2 ^ 32) :
    Loaded mem fdtPtr (header.dtStart fdtPtr) (bswap32 header.sizeDtStruct) body where
  sizeDtStruct := load32_of_holds_be32 hb.sizeDtStruct
  offDtStrings := ⟨_, load32_of_holds_be32 hb.offDtStrings⟩
  block := hb.block
  small := by
    rw [encode_end_length]
    omega

/-- The driver at the entry of `fdt_ParseTree`. -/
def FdtState.entered (fdtPtr : Addr) (heap : EternalHeap) (nodes : Addr → FdtNode)
    (nodeProperties : Addr → FdtNodeProperty) : FdtState :=
  { FdtState.initial heap nodes nodeProperties with fdtInfoBlock := fdtPtr }

theorem at_entered (hstart : heap.currKallocEternalAddress ≠ NULL) :
    At fdtPtr dt nodes [] (FdtState.entered fdtPtr heap nodes nodeProperties) :=
  ⟨⟨.initial, rfl, rfl, rfl, List.nodup_nil, by simp [FdtState.entered, FdtState.initial], hstart,
    rfl, by simp [FdtState.entered, FdtState.initial], rfl⟩,
    ⟨rfl, fun _ _ => rfl, by simp [FdtState.entered, FdtState.initial]⟩⟩

theorem stands_entered (nodes : Addr → FdtNode) (nodeProperties : Addr → FdtNodeProperty)
    (hstart : heap.currKallocEternalAddress ≠ NULL) (hheap : H body heap) :
    Stands fdtPtr dt nodes body H [] body (FdtState.entered fdtPtr heap nodes nodeProperties) :=
  ⟨rfl, at_entered hstart, .inl rfl, hheap⟩

theorem Blob.fdtParseTree (hb : Blob mem fdtPtr header body) (n : ℕ) :
    fdtParseTree mem n (.entered fdtPtr heap nodes nodeProperties) =
      match parseLoop mem (header.dtStart fdtPtr) n (.entered fdtPtr heap nodes nodeProperties) with
      | .error fault => .error fault
      | .ok (.done s) => .ok s
      | .ok (.running _) => .error .endless := by
  have hoff : load32 mem (fdtPtr + offDtStructField) = some (bswap32 header.offDtStruct) :=
    load32_of_holds_be32 hb.offDtStruct
  rw [Fdt.fdtParseTree]
  simp only [bind, Except.bind, readWord, FdtState.entered, FdtState.initial, hoff,
    bswap32_bswap32, BlobHeader.dtStart]
  generalize parseLoop mem _ n _ = r
  rcases r with fault | s | s <;> rfl

theorem srvFdtInit_of_magic (hmagic : Holds mem fdtPtr (be32 fdtMagic)) (n : ℕ) :
    srvFdtInit mem n (.initial heap nodes nodeProperties) fdtPtr =
      (fdtParseTree mem n (.entered fdtPtr heap nodes nodeProperties)).map fun s => (s, true) := by
  rw [srvFdtInit, fdtRead32_of_holds hmagic]
  simp only [bind, Except.bind, ne_eq, not_true_eq_false, if_false, FdtState.entered]
  generalize Fdt.fdtParseTree mem n _ = r
  cases r <;> rfl

/-- What `srv_fdt_Init` can end with on a well-formed block: the answer yes, with a state that
the loop left behind some of the tokens, or the panic of a heap that is too small. -/
theorem Blob.srvFdtInit_cases (nodes : Addr → FdtNode) (nodeProperties : Addr → FdtNodeProperty)
    (hb : Blob mem fdtPtr header body)
    (hmagic : Holds mem fdtPtr (be32 fdtMagic)) (hwf : WellFormed body)
    (hsmall : (FdtTokens.encode body).length < 2 ^ 32) (hH : HeapRule H)
    (hstart : heap.currKallocEternalAddress ≠ NULL) (hheap : H body heap) (n : ℕ) :
    (∃ s pre, srvFdtInit mem n (.initial heap nodes nodeProperties) fdtPtr = .ok (s, true) ∧
      At fdtPtr (header.dtStart fdtPtr) nodes pre s) ∨
    srvFdtInit mem n (.initial heap nodes nodeProperties) fdtPtr = .error .endless ∨
    (srvFdtInit mem n (.initial heap nodes nodeProperties) fdtPtr =
        .error (.panic .eternalHeapExhausted) ∧
      ∃ t post heap', H (t :: post) heap' ∧
        heap'.kallocEternalEnd.toNat ≤ heap'.currKallocEternalAddress.toNat + tokenCost t) := by
  have hreached := reached_parseLoop (hb.loaded hsmall) hwf hH n
    (stands_entered nodes nodeProperties hstart hheap)
  rw [srvFdtInit_of_magic hmagic, hb.fdtParseTree]
  generalize parseLoop mem _ n _ = r at hreached
  cases hreached with
  | running h => exact .inr (.inl rfl)
  | ended h => exact .inl ⟨_, _, rfl, h⟩
  | stopped h => exact .inl ⟨_, _, rfl, h.tracked⟩
  | exhausted h full => exact .inr (.inr ⟨rfl, _, _, _, h, full⟩)

theorem Blob.srvFdtInit_ends (nodes : Addr → FdtNode) (nodeProperties : Addr → FdtNodeProperty)
    (hb : Blob mem fdtPtr header body)
    (hmagic : Holds mem fdtPtr (be32 fdtMagic)) (hwf : WellFormed body)
    (hsmall : (FdtTokens.encode body).length < 2 ^ 32) (hH : HeapRule H)
    (hstart : heap.currKallocEternalAddress ≠ NULL) (hheap : H body heap) :
    ∃ n, srvFdtInit mem n (.initial heap nodes nodeProperties) fdtPtr ≠ .error .endless := by
  have hstands : Stands fdtPtr (header.dtStart fdtPtr) nodes body H [] body
      (.entered fdtPtr heap nodes nodeProperties) := stands_entered nodes nodeProperties hstart hheap
  obtain ⟨n, hn⟩ := ends_of_stands (hb.loaded hsmall) hwf hH hstands
  have hreached := reached_parseLoop (hb.loaded hsmall) hwf hH n hstands
  refine ⟨n, ?_⟩
  rw [srvFdtInit_of_magic hmagic, hb.fdtParseTree]
  generalize parseLoop mem _ n _ = r at hn hreached
  cases hreached with
  | running h => exact absurd rfl (hn _)
  | ended h => simp [Except.map]
  | stopped h => simp [Except.map]
  | exhausted h full => simp [Except.map]

/-- The answer is always yes, with the state that the loop leaves. -/
theorem Blob.parseLoop_of_init (hb : Blob mem fdtPtr header body)
    (hmagic : Holds mem fdtPtr (be32 fdtMagic)) {n : ℕ} {s : FdtState} {b : Bool}
    (hinit : srvFdtInit mem n (.initial heap nodes nodeProperties) fdtPtr = .ok (s, b)) :
    b = true ∧ parseLoop mem (header.dtStart fdtPtr) n
      (.entered fdtPtr heap nodes nodeProperties) = .ok (.done s) := by
  rw [srvFdtInit_of_magic hmagic, hb.fdtParseTree] at hinit
  generalize parseLoop mem _ n _ = r at hinit
  rcases r with fault | t | t
  · cases hinit
  · cases hinit
  · cases hinit
    exact ⟨rfl, rfl⟩

end Entry

/-- The words of the header of a blob with an empty memory reservation block behind it, then
the structure block and the strings. -/
def blobWords (body : List Token) (strings : List Byte) : List (BitVec 32) :=
  let size := (FdtTokens.encode (body ++ [.fdtEnd])).length
  [fdtMagic, BitVec.ofNat 32 (56 + size + strings.length), 56#32, BitVec.ofNat 32 (56 + size), 40#32,
    17#32, 16#32, 0#32, BitVec.ofNat 32 strings.length, BitVec.ofNat 32 size]

def blobBytes (body : List Token) (strings : List Byte) : List Byte :=
  (blobWords body strings).flatMap be32 ++
    (List.replicate 16 0#8 ++ FdtTokens.encode (body ++ [.fdtEnd]) ++ strings)

def blobHeader (body : List Token) : BlobHeader :=
  let size := (FdtTokens.encode (body ++ [.fdtEnd])).length
  ⟨56#32, BitVec.ofNat 32 (56 + size), BitVec.ofNat 32 size⟩

section Layout

variable {base : Addr} {body : List Token} {strings : List Byte}

theorem blobBytes_magic : be32 fdtMagic <+: blobBytes body strings := by
  obtain ⟨front, back, hsplit, hfront⟩ : LiesAt (blobBytes body strings) (be32 fdtMagic) (4 * 0) :=
    liesAt_flatMap_be32 rfl _
  rw [hsplit, List.eq_nil_of_length_eq_zero hfront]
  exact ⟨back, rfl⟩

theorem blobBytes_length : (blobBytes body strings).length =
    56 + (FdtTokens.encode (body ++ [.fdtEnd])).length + strings.length := by
  have hwords : ((blobWords body strings).flatMap be32).length = 40 := rfl
  rw [blobBytes, List.length_append, List.length_append, List.length_append, hwords,
    List.length_replicate]
  omega

theorem blobBytes_field {k : ℕ} {w : BitVec 32} (hw : (blobWords body strings)[k]? = some w) :
    LiesAt (blobBytes body strings) (be32 w) (4 * k) := liesAt_flatMap_be32 hw _

theorem blobBytes_block :
    LiesAt (blobBytes body strings) (FdtTokens.encode (body ++ [.fdtEnd])) 56 := by
  refine ⟨(blobWords body strings).flatMap be32 ++ List.replicate 16 0#8, strings, ?_, rfl⟩
  simp only [blobBytes, List.append_assoc]

theorem blobBytes_strings {front bs back : List Byte} (hstrings : strings = front ++ bs ++ back) :
    LiesAt (blobBytes body strings) bs
      (56 + (FdtTokens.encode (body ++ [.fdtEnd])).length + front.length) := by
  refine ⟨(blobWords body strings).flatMap be32 ++
    (List.replicate 16 0#8 ++ FdtTokens.encode (body ++ [.fdtEnd]) ++ front), back, ?_, ?_⟩
  · simp only [blobBytes, hstrings, List.append_assoc]
  · have hwords : ((blobWords body strings).flatMap be32).length = 40 := rfl
    rw [List.length_append, List.length_append, List.length_append, hwords, List.length_replicate]
    omega

theorem blob_blobBytes (hsize : (blobBytes body strings).length < 2 ^ 32) :
    Blob (.ofBytes base (blobBytes body strings)) base (blobHeader body) body where
  offDtStruct := (blobBytes_field (k := 2) rfl).holds (by omega)
  offDtStrings := (blobBytes_field (k := 3) rfl).holds (by omega)
  sizeDtStruct := (blobBytes_field (k := 9) rfl).holds (by omega)
  block := blobBytes_block.holds (by omega)

end Layout

end SysRv.Fdt
