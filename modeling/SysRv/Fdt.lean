import SysRv.Kalloc
import SysRv.KString

/-!
# The device tree parser

`drivers/fdt/fdt.c` up to `srv_fdt_Init`. The blob is memory that is only read; nodes and
properties live in blocks of the eternal heap, each kind in a map of its own because blocks
do not overlap. Slots hold what the heap region held before, so the maps start with
arbitrary contents. Reads outside the readable memory and accesses through the null pointer
end a run with a fault.
-/

namespace SysRv.Fdt

open ByteMemory KString Kalloc

def fdtMaxChildren : ℕ := 16

def fdtMaxProperties : ℕ := 16

/-- A pointer array with `n` slots. -/
structure SlotTable (n : ℕ) where
  slots : List Addr
  size : slots.length = n

namespace SlotTable

variable {n : ℕ}

def empty (n : ℕ) : SlotTable n := ⟨List.replicate n NULL, List.length_replicate⟩

def slot (t : SlotTable n) (i : ℕ) : Addr := t.slots.getD i NULL

/-- The first slot without a pointer. -/
def firstFree (t : SlotTable n) : Option ℕ := t.slots.findIdx? fun p => p = NULL

def set (t : SlotTable n) (i : ℕ) (p : Addr) : SlotTable n :=
  ⟨t.slots.set i p, List.length_set.trans t.size⟩

end SlotTable

structure FdtNode where
  parent : Addr
  children : SlotTable fdtMaxChildren
  properties : SlotTable fdtMaxProperties
  name : Addr

structure FdtNodeProperty where
  name : Addr
  value : Addr
  length : BitVec 32

def FdtNode.zeroed : FdtNode := ⟨NULL, .empty _, .empty _, NULL⟩

def FdtNodeProperty.zeroed : FdtNodeProperty := ⟨NULL, NULL, 0#32⟩

/-- `sizeof(fdt_node_t)`: two pointers and two arrays of 16 pointers. -/
def fdtNodeSize : BitVec 64 := 272#64

/-- `sizeof(fdt_node_property_t)`: two pointers and a padded 32-bit length. -/
def fdtNodePropertySize : BitVec 64 := 24#64

/-- The arguments of a call of `fdt_InsertProperty`. -/
structure InsertPropertyCall where
  node : Addr
  nameoff : BitVec 32
  propLen : BitVec 32
  propertyPtr : Addr
  deriving DecidableEq, Repr

/-- The statics, the heap and its contents, and the locals of the loop. `created` and
`insertPropertyCalls` are no memory of the code: they list the nodes allocated and the
properties passed on so far, in order. -/
structure FdtState where
  fdtInfoBlock : Addr
  rootNode : Addr
  heap : EternalHeap
  nodes : Addr → FdtNode
  nodeProperties : Addr → FdtNodeProperty
  currOffset : BitVec 64
  currNode : Addr
  created : List Addr
  insertPropertyCalls : List InsertPropertyCall

/-- The driver before its first call, on a heap with the given contents. -/
def FdtState.initial (heap : EternalHeap) (nodes : Addr → FdtNode)
    (nodeProperties : Addr → FdtNodeProperty) : FdtState :=
  ⟨NULL, NULL, heap, nodes, nodeProperties, 0#64, NULL, [], []⟩

def FdtState.zeroed (heap : EternalHeap) : FdtState :=
  .initial heap (fun _ => .zeroed) fun _ => .zeroed

def FdtState.setNode (s : FdtState) (p : Addr) (node : FdtNode) : FdtState :=
  { s with nodes := Function.update s.nodes p node }

def fdtMagic : BitVec 32 := 0xD00DFEED#32
def fdtBeginNode : BitVec 32 := 1#32
def fdtEndNode : BitVec 32 := 2#32
def fdtProp : BitVec 32 := 3#32
def fdtNop : BitVec 32 := 4#32
def fdtEnd : BitVec 32 := 9#32

/-- Byte offsets of the header fields that are read. -/
def offDtStructField : BitVec 64 := 8#64
def offDtStringsField : BitVec 64 := 12#64
def sizeDtStructField : BitVec 64 := 36#64

/-- An access through a pointer. -/
def checkPointer (p : Addr) : Except Fault Unit :=
  if p = NULL then .error .nullPointer else .ok ()

def readWord (mem : Memory) (ptr : Addr) : Except Fault (BitVec 32) :=
  match load32 mem ptr with
  | some w => .ok w
  | none => .error (.unreadable ptr)

def fdtRead32 (mem : Memory) (ptr : Addr) : Except Fault (BitVec 32) :=
  (readWord mem ptr).map bswap32

def fdtAlignToNextWord (value : BitVec 64) : BitVec 64 := value + (4#64 - value) % 4#64

def eternalAlloc (s : FdtState) (size : BitVec 64) : Except Fault (Addr × FdtState) :=
  match srvKallocEternalAlloc s.heap size with
  | .ok (p, heap) => .ok (p, { s with heap := heap })
  | .error panic => .error (.panic panic)

def fdtInsertChild (s : FdtState) (node child : Addr) : Except Fault (FdtState × Bool) := do
  checkPointer node
  match (s.nodes node).children.firstFree with
  | some i =>
    return (s.setNode node
      { s.nodes node with children := (s.nodes node).children.set i child }, true)
  | none => return (s, false)

/-- `fdt_InsertProperty`. The property is only allocated where a slot is free. -/
def fdtInsertProperty (mem : Memory) (s : FdtState) (node : Addr) (nameoff propLen : BitVec 32)
    (propertyPtr : Addr) : Except Fault (FdtState × Bool) := do
  let call : InsertPropertyCall := ⟨node, nameoff, propLen, propertyPtr⟩
  let s := { s with insertPropertyCalls := s.insertPropertyCalls ++ [call] }
  checkPointer node
  match (s.nodes node).properties.firstFree with
  | some i =>
    let (property, s) ← eternalAlloc s fdtNodePropertySize
    let stringTableOffset ← fdtRead32 mem (s.fdtInfoBlock + offDtStringsField)
    checkPointer property
    let filled : FdtNodeProperty :=
      ⟨s.fdtInfoBlock + (stringTableOffset + nameoff).setWidth 64, propertyPtr, propLen⟩
    let s := { s with nodeProperties := Function.update s.nodeProperties property filled }
    return (s.setNode node
      { s.nodes node with properties := (s.nodes node).properties.set i property }, true)
  | none => return (s, false)

/-- The fields of a new node other than its slots. The root is the node with an empty name;
it becomes the current node before it is inserted. -/
def linkNode (s : FdtState) (newNode nodeName : Addr) (nodeNameLen : BitVec 64) : FdtState :=
  let s := { s.setNode newNode { s.nodes newNode with name := nodeName } with
    created := s.created ++ [newNode] }
  if nodeNameLen = 0#64 then
    { s.setNode newNode { s.nodes newNode with parent := NULL } with
      rootNode := newNode
      currNode := newNode }
  else s.setNode newNode { s.nodes newNode with parent := s.currNode }

def parseBeginNode (mem : Memory) (dtStartPtr : Addr) (s : FdtState) : Except Fault FdtState := do
  let nodeName := dtStartPtr + s.currOffset
  let nodeNameLen ← strlen mem nodeName
  let s := { s with currOffset := s.currOffset + fdtAlignToNextWord nodeNameLen }
  let (newNode, s) ← eternalAlloc s fdtNodeSize
  checkPointer newNode
  let s := linkNode s newNode nodeName nodeNameLen
  let (s, _) ← fdtInsertChild s s.currNode newNode
  return { s with currNode := newNode }

def parseEndNode (s : FdtState) : Except Fault FdtState := do
  checkPointer s.currNode
  return { s with currNode := (s.nodes s.currNode).parent }

def parseProp (mem : Memory) (dtStartPtr : Addr) (s : FdtState) : Except Fault FdtState := do
  let prop := dtStartPtr + s.currOffset
  let propLen ← fdtRead32 mem prop
  let strOffset ← fdtRead32 mem (prop + 4#64)
  let (s, _) ← fdtInsertProperty mem s s.currNode strOffset propLen (prop + 8#64)
  return { s with currOffset := s.currOffset + (8#64 + fdtAlignToNextWord (propLen.setWidth 64)) }

inductive LoopState where
  | running (s : FdtState)
  | done (s : FdtState)

/-- The branches of the body, behind the token. -/
def parseToken (mem : Memory) (dtStartPtr : Addr) (token : BitVec 32) (s : FdtState) :
    Except Fault LoopState :=
  if token = fdtBeginNode then (parseBeginNode mem dtStartPtr s).map .running
  else if token = fdtEndNode then (parseEndNode s).map .running
  else if token = fdtProp then (parseProp mem dtStartPtr s).map .running
  else if token = fdtNop then .ok (.running s)
  else if token = fdtEnd then .ok (.done s)
  else .ok (.running s)

/-- One test of the loop condition and, where it holds, one run of the body. The bound is
compared as it stands in memory. -/
def parseIteration (mem : Memory) (dtStartPtr : Addr) (s : FdtState) : Except Fault LoopState := do
  let sizeDtStruct ← readWord mem (s.fdtInfoBlock + sizeDtStructField)
  if s.currOffset < sizeDtStruct.setWidth 64 then
    let token ← fdtRead32 mem (dtStartPtr + s.currOffset)
    parseToken mem dtStartPtr token { s with currOffset := s.currOffset + 4#64 }
  else return .done s

def parseLoop (mem : Memory) (dtStartPtr : Addr) : ℕ → FdtState → Except Fault LoopState
  | 0, s => .ok (.running s)
  | n + 1, s =>
    match parseIteration mem dtStartPtr s with
    | .error fault => .error fault
    | .ok (.done s') => .ok (.done s')
    | .ok (.running s') => parseLoop mem dtStartPtr n s'

/-- `fdt_ParseTree`, given up as endless after `n` iterations. -/
def fdtParseTree (mem : Memory) (n : ℕ) (s : FdtState) : Except Fault FdtState := do
  let offDtStruct ← readWord mem (s.fdtInfoBlock + offDtStructField)
  let dtStartPtr := s.fdtInfoBlock + (bswap32 offDtStruct).setWidth 64
  match ← parseLoop mem dtStartPtr n { s with currOffset := 0#64, currNode := NULL } with
  | .done s => return s
  | .running _ => throw .endless

def srvFdtInit (mem : Memory) (n : ℕ) (s : FdtState) (fdtPtr : Addr) :
    Except Fault (FdtState × Bool) := do
  let magic ← fdtRead32 mem fdtPtr
  if magic ≠ fdtMagic then return (s, false)
  let s ← fdtParseTree mem n { s with fdtInfoBlock := fdtPtr }
  return (s, true)

end SysRv.Fdt
