import SysRv.Fdt

/-!
# What the functions of the parser do

One lemma for each function, with all that the later invariants need: which nodes keep
their parents and occupied slots, how far the heap moves, and when a call panics instead.
-/

namespace SysRv.Fdt

open ByteMemory KString Kalloc

namespace SlotTable

variable {n : ℕ} {t : SlotTable n} {i : ℕ}

theorem firstFree_eq_some (h : t.firstFree = some i) :
    t.slot i = NULL ∧ ∀ j < i, t.slot j ≠ NULL := by
  obtain ⟨hlt, hi, hbefore⟩ := List.findIdx?_eq_some_iff_getElem.mp h
  refine ⟨by simpa [slot, hlt] using hi, fun j hj => ?_⟩
  have hjlt : j < t.slots.length := by omega
  simpa [slot, hjlt] using hbefore j hj

theorem firstFree_of_slot_zero (hn : 0 < n) (h : t.slot 0 = NULL) : t.firstFree = some 0 := by
  obtain ⟨slots, hsize⟩ := t
  cases slots with
  | nil =>
    simp only [List.length_nil] at hsize
    omega
  | cons p rest =>
    have hp : p = NULL := h
    simp [firstFree, List.findIdx?_cons, hp]

theorem set_slot_of_ne {j : ℕ} (p : Addr) (h : j ≠ i) : (t.set i p).slot j = t.slot j := by
  simp [slot, set, List.getElem?_set_ne h.symm]

theorem set_slot_self (p : Addr) (h : i < n) : (t.set i p).slot i = p := by
  simp [slot, set, t.size, h]

/-- Filling the first free slot keeps the taken ones. -/
theorem set_firstFree_slot (h : t.firstFree = some i) (p : Addr) {j : ℕ} (hj : t.slot j ≠ NULL) :
    (t.set i p).slot j = t.slot j :=
  set_slot_of_ne p fun hji => hj (hji ▸ (firstFree_eq_some h).1)

end SlotTable

/-- The heap after an allocation that did not run past the end. -/
structure Allocated (heap heap' : EternalHeap) (size : ℕ) : Prop where
  stop : heap'.kallocEternalEnd = heap.kallocEternalEnd
  curr : heap'.currKallocEternalAddress.toNat = heap.currKallocEternalAddress.toNat + size
  inside : heap'.currKallocEternalAddress.toNat < heap.kallocEternalEnd.toNat

/-- Where the sum does not wrap, an allocation takes the next block or panics because the
block would reach the end. -/
theorem eternalAlloc_spec (s : FdtState) (size : BitVec 64)
    (hsum : s.heap.currKallocEternalAddress.toNat + size.toNat < 2 ^ 64) :
    (∃ heap, eternalAlloc s size = .ok (s.heap.currKallocEternalAddress, { s with heap := heap }) ∧
      Allocated s.heap heap size.toNat) ∨
    (eternalAlloc s size = .error (.panic .eternalHeapExhausted) ∧
      s.heap.kallocEternalEnd.toNat ≤ s.heap.currKallocEternalAddress.toNat + size.toNat) := by
  have hnat : (s.heap.currKallocEternalAddress + size).toNat =
      s.heap.currKallocEternalAddress.toNat + size.toNat := by
    rw [BitVec.toNat_add, Nat.mod_eq_of_lt hsum]
  by_cases h : s.heap.currKallocEternalAddress + size < s.heap.kallocEternalEnd
  · refine .inl ⟨{ s.heap with
      currKallocEternalAddress := s.heap.currKallocEternalAddress + size }, ?_, rfl, hnat,
      BitVec.lt_def.mp h⟩
    rw [eternalAlloc, srvKallocEternalAlloc, if_pos h]
  · refine .inr ⟨by rw [eternalAlloc, srvKallocEternalAlloc, if_neg h], ?_⟩
    have hle : ¬ (s.heap.currKallocEternalAddress + size).toNat < s.heap.kallocEternalEnd.toNat :=
      fun hlt => h (BitVec.lt_def.mpr hlt)
    omega

theorem checkPointer_of_ne {p : Addr} (h : p ≠ NULL) : checkPointer p = .ok () := if_neg h

/-- Parents and occupied child slots are as before. -/
structure KeepsLinks (nodes nodes' : Addr → FdtNode) : Prop where
  parent : ∀ q, (nodes' q).parent = (nodes q).parent
  children : ∀ q i, (nodes q).children.slot i ≠ NULL →
    (nodes' q).children.slot i = (nodes q).children.slot i

theorem keepsLinks_refl (nodes : Addr → FdtNode) : KeepsLinks nodes nodes :=
  ⟨fun _ => rfl, fun _ _ _ => rfl⟩

theorem keepsLinks_update {nodes : Addr → FdtNode} {p : Addr} {node : FdtNode}
    (hparent : node.parent = (nodes p).parent)
    (hchildren : ∀ i, (nodes p).children.slot i ≠ NULL →
      node.children.slot i = (nodes p).children.slot i) :
    KeepsLinks nodes (Function.update nodes p node) where
  parent q := by
    by_cases h : q = p
    · simp [h, hparent]
    · simp [h]
  children q i hi := by
    by_cases h : q = p
    · subst h
      simpa using hchildren i hi
    · simp [h]

theorem fdtInsertChild_spec {s : FdtState} {node : Addr} (child : Addr) (hnode : node ≠ NULL) :
    ∃ nodes inserted, fdtInsertChild s node child = .ok ({ s with nodes := nodes }, inserted) ∧
      KeepsLinks s.nodes nodes ∧
      ((s.nodes node).children.slot 0 = NULL → (nodes node).children.slot 0 = child) := by
  rw [fdtInsertChild, checkPointer_of_ne hnode]
  cases h : (s.nodes node).children.firstFree with
  | none =>
    refine ⟨s.nodes, false, by simp only [bind, Except.bind, pure, Except.pure],
      keepsLinks_refl _, fun hfree => ?_⟩
    rw [SlotTable.firstFree_of_slot_zero (by decide) hfree] at h
    cases h
  | some i =>
    refine ⟨Function.update s.nodes node
      { s.nodes node with children := (s.nodes node).children.set i child }, true,
      by simp only [bind, Except.bind, pure, Except.pure, FdtState.setNode],
      keepsLinks_update rfl fun j hj => SlotTable.set_firstFree_slot h child hj, fun hfree => ?_⟩
    rw [SlotTable.firstFree_of_slot_zero (by decide) hfree] at h
    cases h
    simpa using SlotTable.set_slot_self child (by decide)

theorem fdtInsertProperty_spec {mem : Memory} {s : FdtState} {node : Addr} {strings : BitVec 32}
    (nameoff propLen : BitVec 32) (propertyPtr : Addr) (hnode : node ≠ NULL)
    (hstart : s.heap.currKallocEternalAddress ≠ NULL)
    (hsum : s.heap.currKallocEternalAddress.toNat + 24 < 2 ^ 64)
    (hstrings : load32 mem (s.fdtInfoBlock + offDtStringsField) = some strings) :
    (∃ heap nodes nodeProperties inserted,
      fdtInsertProperty mem s node nameoff propLen propertyPtr = .ok
        ({ s with
            heap := heap
            nodes := nodes
            nodeProperties := nodeProperties
            insertPropertyCalls :=
              s.insertPropertyCalls ++ [⟨node, nameoff, propLen, propertyPtr⟩] }, inserted) ∧
      (heap = s.heap ∨ Allocated s.heap heap 24) ∧ KeepsLinks s.nodes nodes) ∨
    (fdtInsertProperty mem s node nameoff propLen propertyPtr =
        .error (.panic .eternalHeapExhausted) ∧
      s.heap.kallocEternalEnd.toNat ≤ s.heap.currKallocEternalAddress.toNat + 24) := by
  rw [fdtInsertProperty, checkPointer_of_ne hnode]
  cases hfree : (s.nodes node).properties.firstFree with
  | none =>
    refine .inl ⟨s.heap, s.nodes, s.nodeProperties, false, ?_, .inl rfl, keepsLinks_refl _⟩
    simp only [bind, Except.bind, pure, Except.pure]
  | some i =>
    rcases eternalAlloc_spec { s with insertPropertyCalls :=
        s.insertPropertyCalls ++ [⟨node, nameoff, propLen, propertyPtr⟩] }
        fdtNodePropertySize hsum with ⟨heap, halloc, hheap⟩ | ⟨halloc, hfull⟩
    · refine .inl ⟨heap, Function.update s.nodes node { s.nodes node with
        properties := (s.nodes node).properties.set i s.heap.currKallocEternalAddress },
        Function.update s.nodeProperties s.heap.currKallocEternalAddress
          ⟨s.fdtInfoBlock + (bswap32 strings + nameoff).setWidth 64, propertyPtr, propLen⟩,
        true, ?_, .inr hheap, keepsLinks_update rfl fun _ _ => rfl⟩
      simp only [bind, Except.bind, pure, Except.pure, halloc, fdtRead32, readWord, hstrings,
        Except.map, checkPointer_of_ne hstart, FdtState.setNode]
    · refine .inr ⟨?_, hfull⟩
      simp only [bind, Except.bind, halloc]

structure NodeBegun (s s' : FdtState) (name : List Byte) : Prop where
  infoBlock : s'.fdtInfoBlock = s.fdtInfoBlock
  calls : s'.insertPropertyCalls = s.insertPropertyCalls
  heap : Allocated s.heap s'.heap 272
  created : s'.created = s.created ++ [s.heap.currKallocEternalAddress]
  currNode : s'.currNode = s.heap.currKallocEternalAddress
  currOffset : s'.currOffset = s.currOffset + fdtAlignToNextWord (BitVec.ofNat 64 name.length)
  rootNode : s'.rootNode = if name = [] then s.heap.currKallocEternalAddress else s.rootNode
  parent_new : (s'.nodes s.heap.currKallocEternalAddress).parent =
    if name = [] then NULL else s.currNode
  parent_old : ∀ q, q ≠ s.heap.currKallocEternalAddress → (s'.nodes q).parent = (s.nodes q).parent
  children : ∀ q i, (s.nodes q).children.slot i ≠ NULL →
    (s'.nodes q).children.slot i = (s.nodes q).children.slot i
  root_child : name = [] →
    (s.nodes s.heap.currKallocEternalAddress).children.slot 0 = NULL →
    (s'.nodes s.heap.currKallocEternalAddress).children.slot 0 = s.heap.currKallocEternalAddress

section LinkNode

variable {s : FdtState} {newNode nodeName : Addr} {name : List Byte}

/-- The root is recognised by the length of its name. -/
theorem linkNode_eq (hlen : name.length < 2 ^ 64) :
    linkNode s newNode nodeName (BitVec.ofNat 64 name.length) =
      { s with
        nodes := Function.update s.nodes newNode { s.nodes newNode with
          name := nodeName
          parent := if name = [] then NULL else s.currNode }
        created := s.created ++ [newNode]
        rootNode := if name = [] then newNode else s.rootNode
        currNode := if name = [] then newNode else s.currNode } := by
  have hzero : BitVec.ofNat 64 name.length = 0#64 ↔ name = [] := by
    rw [← BitVec.toNat_inj, BitVec.toNat_ofNat, Nat.mod_eq_of_lt hlen]
    simp
  by_cases h : name = []
  · simp [linkNode, h, FdtState.setNode]
  · simp [linkNode, hzero, h, FdtState.setNode]

theorem nodeBegun_of_insert {linked : FdtState} {nodes : Addr → FdtNode} {heap : EternalHeap}
    (hlen : name.length < 2 ^ 64) (hheap : Allocated s.heap heap 272)
    (hlinked : linkNode { s with
        currOffset := s.currOffset + fdtAlignToNextWord (BitVec.ofNat 64 name.length)
        heap := heap } s.heap.currKallocEternalAddress nodeName (BitVec.ofNat 64 name.length) =
      linked)
    (hkeeps : KeepsLinks linked.nodes nodes)
    (hfirst : (linked.nodes linked.currNode).children.slot 0 = NULL →
      (nodes linked.currNode).children.slot 0 = s.heap.currKallocEternalAddress) :
    NodeBegun s
      { linked with nodes := nodes, currNode := s.heap.currKallocEternalAddress } name := by
  rw [linkNode_eq hlen] at hlinked
  subst hlinked
  constructor
  case infoBlock => rfl
  case calls => rfl
  case heap => exact hheap
  case created => rfl
  case currNode => rfl
  case currOffset => rfl
  case rootNode => rfl
  case parent_new => simp [hkeeps.parent]
  case parent_old =>
    intro q hq
    rw [hkeeps.parent]
    exact congrArg FdtNode.parent (Function.update_of_ne hq ..)
  case children =>
    intro q i hi
    have hsame := hkeeps.children q i
    by_cases hq : q = s.heap.currKallocEternalAddress
    · subst hq
      simp only [Function.update_self] at hsame
      exact hsame hi
    · simp only [Function.update_of_ne hq] at hsame
      exact hsame hi
  case root_child =>
    intro hnil hfree
    simp only [hnil, if_true, Function.update_self] at hfirst
    exact hfirst hfree

end LinkNode

theorem parseBeginNode_spec {mem : Memory} {dt : Addr} {s : FdtState} {name : List Byte}
    (hname : IsString mem (dt + s.currOffset) name) (hlen : name.length < 2 ^ 64)
    (hcurr : name ≠ [] → s.currNode ≠ NULL) (hstart : s.heap.currKallocEternalAddress ≠ NULL)
    (hsum : s.heap.currKallocEternalAddress.toNat + 272 < 2 ^ 64) :
    (∃ s', parseBeginNode mem dt s = .ok s' ∧ NodeBegun s s' name) ∨
    (parseBeginNode mem dt s = .error (.panic .eternalHeapExhausted) ∧
      s.heap.kallocEternalEnd.toNat ≤ s.heap.currKallocEternalAddress.toNat + 272) := by
  rw [parseBeginNode, strlen_of_isString hname hlen]
  let offset := s.currOffset + fdtAlignToNextWord (BitVec.ofNat 64 name.length)
  rcases eternalAlloc_spec { s with currOffset := offset } fdtNodeSize hsum with
    ⟨heap, halloc, hheap⟩ | ⟨halloc, hfull⟩
  · left
    generalize hlinked : linkNode { s with currOffset := offset, heap := heap }
      s.heap.currKallocEternalAddress (dt + s.currOffset) (BitVec.ofNat 64 name.length) = linked
    have hcurrNode : linked.currNode ≠ NULL := by
      rw [← hlinked, linkNode_eq hlen]
      by_cases hnil : name = []
      · simpa [hnil] using hstart
      · simpa [hnil] using hcurr hnil
    obtain ⟨nodes, inserted, hinsert, hkeeps, hfirst⟩ :=
      fdtInsertChild_spec s.heap.currKallocEternalAddress hcurrNode
    refine ⟨_, ?_, nodeBegun_of_insert hlen hheap hlinked hkeeps hfirst⟩
    simp only [bind, Except.bind, pure, Except.pure]
    rw [halloc]
    simp only [checkPointer_of_ne hstart]
    rw [hlinked, hinsert]
  · right
    refine ⟨?_, hfull⟩
    simp only [bind, Except.bind]
    rw [halloc]

theorem parseEndNode_spec {s : FdtState} (h : s.currNode ≠ NULL) :
    parseEndNode s = .ok { s with currNode := (s.nodes s.currNode).parent } := by
  rw [parseEndNode, checkPointer_of_ne h]
  rfl

structure PropPassed (s s' : FdtState) (call : InsertPropertyCall) : Prop where
  infoBlock : s'.fdtInfoBlock = s.fdtInfoBlock
  rootNode : s'.rootNode = s.rootNode
  calls : s'.insertPropertyCalls = s.insertPropertyCalls ++ [call]
  heap : s'.heap = s.heap ∨ Allocated s.heap s'.heap 24
  created : s'.created = s.created
  currNode : s'.currNode = s.currNode
  currOffset : s'.currOffset =
    s.currOffset + (8#64 + fdtAlignToNextWord (call.propLen.setWidth 64))
  links : KeepsLinks s.nodes s'.nodes

theorem fdtRead32_of_holds {mem : Memory} {a : Addr} {w : BitVec 32} (h : Holds mem a (be32 w)) :
    fdtRead32 mem a = .ok w := by
  rw [fdtRead32, readWord, load32_of_holds_be32 h]
  simp [Except.map]

theorem parseProp_spec {mem : Memory} {dt : Addr} {s : FdtState} {propLen nameoff strings : BitVec 32}
    (hwords : Holds mem (dt + s.currOffset) (be32 propLen ++ be32 nameoff))
    (hcurr : s.currNode ≠ NULL) (hstart : s.heap.currKallocEternalAddress ≠ NULL)
    (hsum : s.heap.currKallocEternalAddress.toNat + 24 < 2 ^ 64)
    (hstrings : load32 mem (s.fdtInfoBlock + offDtStringsField) = some strings) :
    (∃ s', parseProp mem dt s = .ok s' ∧
      PropPassed s s' ⟨s.currNode, nameoff, propLen, dt + s.currOffset + 8#64⟩) ∨
    (parseProp mem dt s = .error (.panic .eternalHeapExhausted) ∧
      s.heap.kallocEternalEnd.toNat ≤ s.heap.currKallocEternalAddress.toNat + 24) := by
  obtain ⟨hlen, hoff⟩ := holds_append.mp hwords
  rw [be32_length] at hoff
  have hlen' := fdtRead32_of_holds hlen
  have hoff' : fdtRead32 mem (dt + s.currOffset + 4#64) = .ok nameoff := fdtRead32_of_holds hoff
  rw [parseProp, hlen']
  rcases fdtInsertProperty_spec nameoff propLen (dt + s.currOffset + 8#64) hcurr hstart hsum
      hstrings with
    ⟨heap, nodes, nodeProperties, inserted, hinsert, hheap, hlinks⟩ | ⟨hinsert, hfull⟩
  · left
    let call : InsertPropertyCall := ⟨s.currNode, nameoff, propLen, dt + s.currOffset + 8#64⟩
    refine ⟨{ s with
      heap := heap
      nodes := nodes
      nodeProperties := nodeProperties
      insertPropertyCalls := s.insertPropertyCalls ++ [call]
      currOffset := s.currOffset + (8#64 + fdtAlignToNextWord (propLen.setWidth 64)) }, ?_, ?_⟩
    · simp only [bind, Except.bind, pure, Except.pure]
      rw [hoff']
      simp only []
      rw [hinsert]
    · exact ⟨rfl, rfl, rfl, hheap, rfl, rfl, rfl, hlinks⟩
  · right
    refine ⟨?_, hfull⟩
    simp only [bind, Except.bind]
    rw [hoff']
    simp only []
    rw [hinsert]

section Branches

variable (mem : Memory) (dt : Addr) (s : FdtState)

theorem parseToken_beginNode :
    parseToken mem dt fdtBeginNode s = (parseBeginNode mem dt s).map .running := by
  simp [parseToken]

theorem parseToken_endNode : parseToken mem dt fdtEndNode s = (parseEndNode s).map .running := by
  simp [parseToken, fdtEndNode, fdtBeginNode]

theorem parseToken_prop : parseToken mem dt fdtProp s = (parseProp mem dt s).map .running := by
  simp [parseToken, fdtProp, fdtEndNode, fdtBeginNode]

theorem parseToken_nop : parseToken mem dt fdtNop s = .ok (.running s) := by
  simp [parseToken, fdtNop, fdtBeginNode, fdtEndNode, fdtProp]

theorem parseToken_end : parseToken mem dt fdtEnd s = .ok (.done s) := by
  simp [parseToken, fdtBeginNode, fdtEndNode, fdtProp, fdtNop, fdtEnd]

end Branches

end SysRv.Fdt
