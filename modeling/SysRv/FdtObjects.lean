import Mathlib.Data.List.Pairwise
import SysRv.ArchInit

/-!
# Objects in the eternal heap

The driver's nodes and properties are objects at addresses, and a store to one leaves all others
alone. That is so because they do not overlap, whatever the parser reads: each is a block of its
own of the heap, and every pointer of the driver leads to one of its type.
-/

namespace SysRv.Fdt

open ByteMemory KString Kalloc Kpalloc BumpAllocation ReservedMemory ArchInit

def nodeBlock (p : Addr) : Block := ⟨p.toNat, 272⟩

def propertyBlock (p : Addr) : Block := ⟨p.toNat, 24⟩

@[simp] theorem nodeBlock_size (p : Addr) : (nodeBlock p).size = 272 := rfl

@[simp] theorem propertyBlock_size (p : Addr) : (propertyBlock p).size = 24 := rfl

def PointsToNode (s : FdtState) (p : Addr) : Prop := p = NULL ∨ p ∈ s.created

/-- The nodes and the properties are blocks `bs` of the heap, and the pointers lead to them. -/
structure Objects (start : ℕ) (stop : Addr) (s : FdtState) (bs : List Block) : Prop where
  carved : Carved start s.heap.currKallocEternalAddress.toNat bs
  ends : s.heap.kallocEternalEnd = stop
  inside : s.heap.currKallocEternalAddress.toNat ≤ stop.toNat
  created : ∀ p ∈ s.created, nodeBlock p ∈ bs
  property : ∀ q i, (s.nodes q).properties.slot i ≠ NULL →
    propertyBlock ((s.nodes q).properties.slot i) ∈ bs
  once : ∀ q i q' i', (s.nodes q).properties.slot i ≠ NULL →
    (s.nodes q).properties.slot i = (s.nodes q').properties.slot i' → q = q' ∧ i = i'
  root : PointsToNode s s.rootNode
  curr : PointsToNode s s.currNode
  parent : ∀ q, PointsToNode s (s.nodes q).parent
  child : ∀ q i, PointsToNode s ((s.nodes q).children.slot i)

variable {mem : Memory} {dt : Addr} {s s' t : FdtState} {start : ℕ} {stop : Addr} {bs : List Block}

theorem eternalAlloc_passes {size p : BitVec 64} (h : eternalAlloc s size = .ok (p, s')) :
    s.heap.currKallocEternalAddress + size < s.heap.kallocEternalEnd := by
  by_contra hfull
  rw [eternalAlloc, srvKallocEternalAlloc, if_neg hfull] at h
  cases h

/-- A store to a node keeps what the new contents keep. -/
theorem setNode_field {α : Type} (f : FdtNode → α) {p : Addr} {node : FdtNode}
    (h : f node = f (s.nodes p)) (q : Addr) : f ((s.setNode p node).nodes q) = f (s.nodes q) := by
  by_cases hq : q = p
  · subst hq
    simpa [FdtState.setNode] using h
  · simp [FdtState.setNode, hq]

/-- The branch for `FDT_BEGIN_NODE`: one more node, which becomes the current one. -/
structure NodeAdded (s s' : FdtState) : Prop where
  room : s.heap.currKallocEternalAddress + fdtNodeSize < s.heap.kallocEternalEnd
  heap : s'.heap = { s.heap with
    currKallocEternalAddress := s.heap.currKallocEternalAddress + fdtNodeSize }
  created : s'.created = s.created ++ [s.heap.currKallocEternalAddress]
  currNode : s'.currNode = s.heap.currKallocEternalAddress
  rootNode : s'.rootNode = s.heap.currKallocEternalAddress ∨ s'.rootNode = s.rootNode
  properties : ∀ q, (s'.nodes q).properties = (s.nodes q).properties
  parent : ∀ q, (s'.nodes q).parent = NULL ∨ (s'.nodes q).parent = s.currNode ∨
    (s'.nodes q).parent = (s.nodes q).parent
  child : ∀ q i, (s'.nodes q).children.slot i = s.heap.currKallocEternalAddress ∨
    (s'.nodes q).children.slot i = (s.nodes q).children.slot i

theorem fdtInsertChild_slots {node child : Addr} {b : Bool}
    (h : fdtInsertChild s node child = .ok (s', b)) (q : Addr) :
    (s'.nodes q).properties = (s.nodes q).properties ∧ (s'.nodes q).parent = (s.nodes q).parent ∧
      ∀ i, (s'.nodes q).children.slot i = child ∨
        (s'.nodes q).children.slot i = (s.nodes q).children.slot i := by
  rcases fdtInsertChild_eq_ok h with ⟨-, t, ht, rfl⟩ | ⟨-, -, rfl⟩
  · refine ⟨setNode_field FdtNode.properties (by rfl) q, setNode_field FdtNode.parent (by rfl) q,
      fun i => ?_⟩
    by_cases hq : q = node
    · subst hq
      obtain ⟨j, hj, rfl⟩ := Option.map_eq_some_iff.mp ht
      by_cases hij : i = j
      · subst hij
        obtain ⟨hlt, -⟩ := List.findIdx?_eq_some_iff_getElem.mp hj
        left
        simpa [FdtState.setNode] using SlotTable.set_slot_self child
          (Nat.lt_of_lt_of_eq hlt (s.nodes q).children.size)
      · right
        simpa [FdtState.setNode] using SlotTable.set_slot_of_ne child hij
    · right
      simp [FdtState.setNode, hq]
  · exact ⟨rfl, rfl, fun _ => .inr rfl⟩

theorem fdtInsertChild_fields {node child : Addr} {b : Bool}
    (h : fdtInsertChild s node child = .ok (s', b)) :
    s'.heap = s.heap ∧ s'.created = s.created ∧ s'.rootNode = s.rootNode := by
  rcases fdtInsertChild_eq_ok h with ⟨-, t, ht, rfl⟩ | ⟨-, -, rfl⟩ <;> exact ⟨rfl, rfl, rfl⟩

theorem linkNode_links (s : FdtState) (newNode nodeName : Addr) (nodeNameLen : BitVec 64) (q : Addr) :
    ((linkNode s newNode nodeName nodeNameLen).nodes q).properties = (s.nodes q).properties ∧
      ((linkNode s newNode nodeName nodeNameLen).nodes q).children = (s.nodes q).children ∧
      (((linkNode s newNode nodeName nodeNameLen).nodes q).parent = NULL ∨
        ((linkNode s newNode nodeName nodeNameLen).nodes q).parent = s.currNode ∨
        ((linkNode s newNode nodeName nodeNameLen).nodes q).parent = (s.nodes q).parent) := by
  simp only [linkNode]
  by_cases hlen : nodeNameLen = 0#64 <;> by_cases hq : q = newNode <;>
    simp [hlen, hq, FdtState.setNode]

theorem linkNode_fields (s : FdtState) (newNode nodeName : Addr) (nodeNameLen : BitVec 64) :
    (linkNode s newNode nodeName nodeNameLen).heap = s.heap ∧
      (linkNode s newNode nodeName nodeNameLen).created = s.created ++ [newNode] ∧
      ((linkNode s newNode nodeName nodeNameLen).rootNode = newNode ∨
        (linkNode s newNode nodeName nodeNameLen).rootNode = s.rootNode) := by
  simp only [linkNode]
  by_cases hlen : nodeNameLen = 0#64 <;> simp [hlen, FdtState.setNode]

theorem parseBeginNode_adds (h : parseBeginNode mem dt s = .ok s') : NodeAdded s s' := by
  obtain ⟨nodeNameLen, -, h⟩ := bind_eq_ok.mp h
  obtain ⟨⟨newNode, t⟩, halloc, h⟩ := bind_eq_ok.mp h
  have hroom := eternalAlloc_passes halloc
  obtain ⟨rfl, rfl⟩ := eternalAlloc_eq_ok halloc
  obtain ⟨-, -, h⟩ := bind_eq_ok.mp h
  obtain ⟨⟨u, inserted⟩, hinsert, h⟩ := bind_eq_ok.mp h
  cases h
  set moved : FdtState := { s with
    currOffset := s.currOffset + fdtAlignToNextWord nodeNameLen
    heap := { s.heap with
      currKallocEternalAddress := s.heap.currKallocEternalAddress + fdtNodeSize } }
  have hslots := fdtInsertChild_slots hinsert
  obtain ⟨hheap, hcreated, hroot⟩ := fdtInsertChild_fields hinsert
  have hlinks := linkNode_links moved s.heap.currKallocEternalAddress (dt + s.currOffset) nodeNameLen
  obtain ⟨hheap', hcreated', hroot'⟩ :=
    linkNode_fields moved s.heap.currKallocEternalAddress (dt + s.currOffset) nodeNameLen
  refine ⟨hroom, hheap.trans hheap', hcreated.trans hcreated', rfl, ?_, fun q => ?_, fun q => ?_,
    fun q i => ?_⟩
  · exact hroot'.imp hroot.trans hroot.trans
  · exact (hslots q).1.trans (hlinks q).1
  · rw [(hslots q).2.1]
    exact (hlinks q).2.2
  · refine ((hslots q).2.2 i).imp_right fun hsame => hsame.trans ?_
    rw [(hlinks q).2.1]

/-- The branch for `FDT_PROP`: nothing, or one more property in a free slot. -/
def PropertyAdded (s s' : FdtState) : Prop :=
  s.heap.currKallocEternalAddress + fdtNodePropertySize < s.heap.kallocEternalEnd ∧
    s'.heap = { s.heap with
      currKallocEternalAddress := s.heap.currKallocEternalAddress + fdtNodePropertySize } ∧
    ∃ node i, (s'.nodes node).properties.slot i = s.heap.currKallocEternalAddress ∧
      ∀ q j, ¬ (q = node ∧ j = i) →
        (s'.nodes q).properties.slot j = (s.nodes q).properties.slot j

structure SameLinks (s s' : FdtState) : Prop where
  created : s'.created = s.created
  currNode : s'.currNode = s.currNode
  rootNode : s'.rootNode = s.rootNode
  parent : ∀ q, (s'.nodes q).parent = (s.nodes q).parent
  children : ∀ q, (s'.nodes q).children = (s.nodes q).children

theorem fdtInsertProperty_adds {node propertyPtr : Addr} {nameoff propLen : BitVec 32} {b : Bool}
    (h : fdtInsertProperty mem s node nameoff propLen propertyPtr = .ok (s', b)) :
    SameLinks s s' ∧ (PropertyAdded s s' ∨ s'.heap = s.heap ∧ s'.nodes = s.nodes) := by
  obtain ⟨-, -, h⟩ := bind_eq_ok.mp h
  split at h
  · rename_i i hi
    obtain ⟨⟨property, t⟩, halloc, h⟩ := bind_eq_ok.mp h
    have hroom := eternalAlloc_passes halloc
    obtain ⟨rfl, rfl⟩ := eternalAlloc_eq_ok halloc
    obtain ⟨strings, -, h⟩ := bind_eq_ok.mp h
    obtain ⟨-, -, h⟩ := bind_eq_ok.mp h
    cases h
    obtain ⟨hlt, -⟩ := List.findIdx?_eq_some_iff_getElem.mp hi
    refine ⟨⟨rfl, rfl, rfl, setNode_field FdtNode.parent (by rfl),
      setNode_field FdtNode.children (by rfl)⟩, .inl ⟨hroom, rfl, node, i, ?_, fun q j hne => ?_⟩⟩
    · simpa [FdtState.setNode] using SlotTable.set_slot_self s.heap.currKallocEternalAddress
        (Nat.lt_of_lt_of_eq hlt (s.nodes node).properties.size)
    · by_cases hq : q = node
      · subst hq
        have hji : j ≠ i := fun hj => hne ⟨rfl, hj⟩
        simpa [FdtState.setNode] using SlotTable.set_slot_of_ne s.heap.currKallocEternalAddress hji
      · simp [FdtState.setNode, hq]
  · cases h
    exact ⟨⟨rfl, rfl, rfl, fun _ => rfl, fun _ => rfl⟩, .inr ⟨rfl, rfl⟩⟩

theorem PointsToNode.mono {p : Addr} (h : PointsToNode s p) (hcreated : s.created ⊆ s'.created) :
    PointsToNode s' p := h.imp_right fun hp => hcreated hp

/-- The next block lies below the end, and the sum does not wrap around. -/
theorem Objects.next_toNat (h : Objects start stop s bs) (hstop : stop.toNat + 272 < 2 ^ 64)
    {size : BitVec 64} (hsize : size.toNat ≤ 272) (hroom :
      s.heap.currKallocEternalAddress + size < s.heap.kallocEternalEnd) :
    (s.heap.currKallocEternalAddress + size).toNat =
        s.heap.currKallocEternalAddress.toNat + size.toNat ∧
      (s.heap.currKallocEternalAddress + size).toNat ≤ stop.toNat := by
  have hinside := h.inside
  rw [h.ends, BitVec.lt_def] at hroom
  refine ⟨?_, Nat.le_of_lt hroom⟩
  rw [BitVec.toNat_add, Nat.mod_eq_of_lt (by omega)]

theorem Objects.slot_ne_next (h : Objects start stop s bs) {q : Addr} {i : ℕ}
    (hq : (s.nodes q).properties.slot i ≠ NULL) :
    (s.nodes q).properties.slot i ≠ s.heap.currKallocEternalAddress := by
  intro heq
  have hend := (h.carved.within _ (h.property q i hq)).2
  simp only [propertyBlock, heq] at hend
  omega

theorem Objects.nodeAdded (h : Objects start stop s bs) (hstop : stop.toNat + 272 < 2 ^ 64)
    (ha : NodeAdded s s') :
    Objects start stop s' (nodeBlock s.heap.currKallocEternalAddress :: bs) := by
  have hsize : fdtNodeSize.toNat ≤ 272 := by decide
  obtain ⟨hnext, hle⟩ := h.next_toNat hstop hsize ha.room
  have hheap : s'.heap.currKallocEternalAddress = s.heap.currKallocEternalAddress + fdtNodeSize := by
    rw [ha.heap]
  have hnew : s.heap.currKallocEternalAddress ∈ s'.created := by
    rw [ha.created]
    exact List.mem_append_right _ (List.mem_singleton_self _)
  have hsub : s.created ⊆ s'.created := by
    rw [ha.created]
    exact List.subset_append_left _ _
  refine ⟨?_, ?_, ?_, fun p hp => ?_, fun q i hq => ?_, fun q i q' i' hq heq => ?_, ?_, ?_,
    fun q => ?_, fun q i => ?_⟩
  · rw [hheap, hnext]
    exact .cut h.carved 272
  · rw [ha.heap]
    exact h.ends
  · rwa [hheap]
  · rw [ha.created] at hp
    rcases List.mem_append.mp hp with hp | hp
    · exact List.mem_cons_of_mem _ (h.created p hp)
    · rw [List.mem_singleton.mp hp]
      exact List.mem_cons_self
  · rw [ha.properties q] at hq ⊢
    exact List.mem_cons_of_mem _ (h.property q i hq)
  · rw [ha.properties q] at hq heq
    rw [ha.properties q'] at heq
    exact h.once q i q' i' hq heq
  · rcases ha.rootNode with heq | heq <;> rw [heq]
    · exact .inr hnew
    · exact h.root.mono hsub
  · rw [ha.currNode]
    exact .inr hnew
  · rcases ha.parent q with heq | heq | heq <;> rw [heq]
    · exact .inl rfl
    · exact h.curr.mono hsub
    · exact (h.parent q).mono hsub
  · rcases ha.child q i with heq | heq <;> rw [heq]
    · exact .inr hnew
    · exact (h.child q i).mono hsub

theorem Objects.sameLinks (h : Objects start stop s bs) (hs : SameLinks s s') :
    PointsToNode s' s'.rootNode ∧ PointsToNode s' s'.currNode ∧
      (∀ q, PointsToNode s' (s'.nodes q).parent) ∧
      ∀ q i, PointsToNode s' ((s'.nodes q).children.slot i) := by
  have hsub : s.created ⊆ s'.created := by rw [hs.created]; exact List.Subset.refl _
  refine ⟨?_, ?_, fun q => ?_, fun q i => ?_⟩
  · rw [hs.rootNode]
    exact h.root.mono hsub
  · rw [hs.currNode]
    exact h.curr.mono hsub
  · rw [hs.parent q]
    exact (h.parent q).mono hsub
  · rw [hs.children q]
    exact (h.child q i).mono hsub

theorem Objects.propertyAdded (h : Objects start stop s bs) (hstop : stop.toNat + 272 < 2 ^ 64)
    (hs : SameLinks s s') (ha : PropertyAdded s s') :
    Objects start stop s' (propertyBlock s.heap.currKallocEternalAddress :: bs) := by
  obtain ⟨hroom, hheap', node, i₀, hslot, hothers⟩ := ha
  have hsize : fdtNodePropertySize.toNat ≤ 272 := by decide
  obtain ⟨hnext, hle⟩ := h.next_toNat hstop hsize hroom
  have hheap : s'.heap.currKallocEternalAddress =
      s.heap.currKallocEternalAddress + fdtNodePropertySize := by rw [hheap']
  obtain ⟨hroot, hcurr, hparent, hchild⟩ := h.sameLinks hs
  -- an older property is not at the new address
  have hfresh : ∀ q j, ¬ (q = node ∧ j = i₀) → (s'.nodes q).properties.slot j ≠ NULL →
      (s'.nodes q).properties.slot j ≠ s.heap.currKallocEternalAddress := by
    intro q j hne hq
    rw [hothers q j hne] at hq ⊢
    exact h.slot_ne_next hq
  refine ⟨?_, ?_, ?_, fun p hp => ?_, fun q j hq => ?_, fun q j q' j' hq heq => ?_, hroot, hcurr,
    hparent, hchild⟩
  · rw [hheap, hnext]
    exact .cut h.carved 24
  · rw [hheap']
    exact h.ends
  · rwa [hheap]
  · rw [hs.created] at hp
    exact List.mem_cons_of_mem _ (h.created p hp)
  · by_cases hnew : q = node ∧ j = i₀
    · rw [hnew.1, hnew.2, hslot]
      exact List.mem_cons_self
    · rw [hothers q j hnew] at hq ⊢
      exact List.mem_cons_of_mem _ (h.property q j hq)
  · by_cases hnew : q = node ∧ j = i₀ <;> by_cases hnew' : q' = node ∧ j' = i₀
    · exact ⟨hnew.1.trans hnew'.1.symm, hnew.2.trans hnew'.2.symm⟩
    · obtain ⟨rfl, rfl⟩ := hnew
      exact absurd (heq.symm.trans hslot) (hfresh q' j' hnew' (heq ▸ hq))
    · obtain ⟨rfl, rfl⟩ := hnew'
      exact absurd (heq.trans hslot) (hfresh q j hnew hq)
    · rw [hothers q j hnew] at hq heq
      rw [hothers q' j' hnew'] at heq
      exact h.once q j q' j' hq heq

theorem Objects.moved (h : Objects start stop s bs) (o : BitVec 64) {p : Addr}
    (hp : PointsToNode s p) :
    Objects start stop { s with currOffset := o, currNode := p } bs :=
  ⟨h.carved, h.ends, h.inside, h.created, h.property, h.once, h.root, hp, h.parent, h.child⟩

theorem Objects.kept (h : Objects start stop s bs) (hs : SameLinks s s') (hheap : s'.heap = s.heap)
    (hnodes : s'.nodes = s.nodes) : Objects start stop s' bs := by
  obtain ⟨hroot, hcurr, hparent, hchild⟩ := h.sameLinks hs
  refine ⟨?_, ?_, ?_, ?_, ?_, ?_, hroot, hcurr, hparent, hchild⟩
  · rw [hheap]
    exact h.carved
  · rw [hheap]
    exact h.ends
  · rw [hheap]
    exact h.inside
  · rw [hs.created]
    exact h.created
  · rw [hnodes]
    exact h.property
  · rw [hnodes]
    exact h.once

/-- Whatever the token, the objects stay apart. -/
theorem Objects.parseToken (h : Objects start stop s bs) (hstop : stop.toNat + 272 < 2 ^ 64)
    {token : BitVec 32} (ht : Fdt.parseToken mem dt token s = .ok (.running s')) :
    ∃ bs', Objects start stop s' bs' := by
  rw [Fdt.parseToken] at ht
  split at ht
  · exact ⟨_, h.nodeAdded hstop (parseBeginNode_adds (map_running_eq_ok ht))⟩
  split at ht
  · have hend := map_running_eq_ok ht
    obtain ⟨-, -, hend⟩ := bind_eq_ok.mp hend
    cases hend
    exact ⟨bs, h.moved s.currOffset (h.parent s.currNode)⟩
  split at ht
  · obtain ⟨propLen, -, hprop⟩ := bind_eq_ok.mp (map_running_eq_ok ht)
    obtain ⟨strOffset, -, hprop⟩ := bind_eq_ok.mp hprop
    obtain ⟨⟨u, inserted⟩, hinsert, hprop⟩ := bind_eq_ok.mp hprop
    cases hprop
    obtain ⟨hs, hadded | ⟨hheap, hnodes⟩⟩ := fdtInsertProperty_adds hinsert
    · have hu := h.propertyAdded hstop hs hadded
      exact ⟨_, hu.moved _ hu.curr⟩
    · have hu := h.kept hs hheap hnodes
      exact ⟨_, hu.moved _ hu.curr⟩
  split at ht
  · cases ht
    exact ⟨bs, h⟩
  split at ht
  · cases ht
  · cases ht
    exact ⟨bs, h⟩

theorem Objects.parseIteration (h : Objects start stop s bs) (hstop : stop.toNat + 272 < 2 ^ 64)
    (ht : Fdt.parseIteration mem dt s = .ok (.running s')) : ∃ bs', Objects start stop s' bs' := by
  obtain ⟨bound, -, ht⟩ := bind_eq_ok.mp ht
  split at ht
  · obtain ⟨token, -, ht⟩ := bind_eq_ok.mp ht
    exact (h.moved (s.currOffset + 4#64) h.curr).parseToken hstop ht
  · cases ht

theorem Objects.done (h : Objects start stop s bs)
    (ht : Fdt.parseIteration mem dt s = .ok (.done s')) : Objects start stop s' bs := by
  obtain ⟨bound, -, ht⟩ := bind_eq_ok.mp ht
  split at ht
  · obtain ⟨token, -, ht⟩ := bind_eq_ok.mp ht
    have hrunning : ∀ {x : Except Fault FdtState}, x.map LoopState.running ≠ .ok (.done s') := by
      intro x hx
      cases x <;> cases hx
    rw [Fdt.parseToken] at ht
    split at ht
    · exact absurd ht hrunning
    split at ht
    · exact absurd ht hrunning
    split at ht
    · exact absurd ht hrunning
    split at ht
    · cases ht
    split at ht
    · cases ht
      exact h.moved _ h.curr
    · cases ht
  · cases ht
    exact h

theorem slot_empty (n i : ℕ) : (SlotTable.empty n).slot i = NULL := by
  rw [SlotTable.slot, SlotTable.empty, List.getD_eq_getElem?_getD, List.getElem?_replicate]
  split <;> rfl

theorem objects_zeroed (heap : EternalHeap) (fdtPtr : Addr)
    (hstart : heap.currKallocEternalAddress ≤ heap.kallocEternalEnd) :
    Objects heap.currKallocEternalAddress.toNat heap.kallocEternalEnd
      { FdtState.zeroed heap with fdtInfoBlock := fdtPtr } [] where
  carved := .start
  ends := rfl
  inside := BitVec.le_def.mp hstart
  created _ hp := nomatch hp
  property _ i hq := absurd (slot_empty _ i) hq
  once _ i _ _ hq := absurd (slot_empty _ i) hq
  root := .inl rfl
  curr := .inl rfl
  parent _ := .inl rfl
  child _ i := .inl (slot_empty _ i)

/-- What `srv_fdt_Init` leaves of a zeroed heap, whatever blob it is given. -/
theorem objects_of_init {heap : EternalHeap} {fdtPtr : Addr} {n : ℕ} {b : Bool}
    (hstart : heap.currKallocEternalAddress ≤ heap.kallocEternalEnd)
    (hstop : heap.kallocEternalEnd.toNat + 272 < 2 ^ 64)
    (hinit : srvFdtInit mem n (.zeroed heap) fdtPtr = .ok (s, b)) :
    ∃ bs, Objects heap.currKallocEternalAddress.toNat heap.kallocEternalEnd s bs := by
  obtain ⟨magic, -, hinit⟩ := bind_eq_ok.mp hinit
  split at hinit
  · cases hinit
    exact ⟨[], objects_zeroed heap _ hstart⟩
  · obtain ⟨u, htree, hinit⟩ := bind_eq_ok.mp hinit
    cases hinit
    obtain ⟨offDtStruct, -, htree⟩ := bind_eq_ok.mp htree
    obtain ⟨last, hloop, htree⟩ := bind_eq_ok.mp htree
    cases last with
    | running t => cases htree
    | done t =>
      cases htree
      obtain ⟨m, t, hrunning, hdone⟩ := parseLoop_eq_done hloop
      obtain ⟨bs, hbs⟩ := parseLoop_invariant
        (P := fun s => ∃ bs, Objects heap.currKallocEternalAddress.toNat heap.kallocEternalEnd s bs)
        (fun _ _ ⟨_, h⟩ ht => h.parseIteration hstop ht)
        ⟨[], (objects_zeroed heap fdtPtr hstart).moved 0#64 (.inl rfl)⟩ hrunning
      exact ⟨bs, hbs.done hdone⟩

theorem srvFdtGetMemorySize_lt {memoryNodeName regName : Addr} {size : BitVec 64}
    (h : srvFdtGetMemorySize mem memoryNodeName regName s = .ok size) : size.toNat < 2 ^ 32 := by
  obtain ⟨node, -, h⟩ := bind_eq_ok.mp h
  split at h
  · cases h
    decide
  · obtain ⟨found, -, h⟩ := bind_eq_ok.mp h
    cases found with
    | none =>
      cases h
      decide
    | some prop =>
      obtain ⟨sizeLo, -, h⟩ := bind_eq_ok.mp h
      cases h
      have hlt := sizeLo.isLt
      rw [BitVec.toNat_setWidth]
      omega

inductive HeapObject where
  | node (p : Addr)
  | property (node : Addr) (i : ℕ)
  | bitmap
  deriving DecidableEq, Repr

section HeapObjects

variable (s : FdtState) (a : PageAllocator)

def HeapObject.Live : HeapObject → Prop
  | node p => p ∈ s.created
  | property q i => (s.nodes q).properties.slot i ≠ NULL
  | bitmap => True

/-- The bytes of an object. The bitmap comes behind all that the driver has. -/
def HeapObject.block : HeapObject → Block
  | node p => nodeBlock p
  | property q i => propertyBlock ((s.nodes q).properties.slot i)
  | bitmap => ⟨s.heap.currKallocEternalAddress.toNat, 8 * a.bitmapEntryCount.toNat⟩

end HeapObjects

section Bitmap

variable {words : Addr → BitVec 64} {base memorySize : BitVec 64} {heap' : EternalHeap}
  {a : PageAllocator}

theorem Objects.bitmap (h : Objects start stop s bs) (hstop : stop.toNat + 2 ^ 17 ≤ 2 ^ 64)
    (hsize : memorySize.toNat < 2 ^ 32)
    (hpages : srvKpallocInitPageAllocator s.heap words base memorySize = .ok (heap', a)) :
    Carved start heap'.currKallocEternalAddress.toNat (HeapObject.bitmap.block s a :: bs) ∧
      heap'.currKallocEternalAddress.toNat ≤ stop.toNat := by
  have hcount := (srvKpallocInitPageAllocator_ok hpages).2.2.1
  have hinside := h.inside
  rw [srvKpallocInitPageAllocator] at hpages
  split at hpages
  · cases hpages
  rename_i bitmap heap'' halloc
  cases hpages
  have hroom : s.heap.currKallocEternalAddress +
      memorySize / srvPageSize / physallocBitsPerEntry * 8#64 < s.heap.kallocEternalEnd := by
    by_contra hfull
    rw [srvKallocEternalAlloc, if_neg hfull] at halloc
    cases halloc
  obtain ⟨-, rfl⟩ := srvKallocEternalAlloc_eq_ok halloc
  rw [h.ends, BitVec.lt_def] at hroom
  have hbytes : (memorySize / srvPageSize / physallocBitsPerEntry * 8#64).toNat =
      8 * (memorySize / srvPageSize / physallocBitsPerEntry).toNat := by
    rw [BitVec.toNat_mul, hcount, BitVec.toNat_ofNat]
    omega
  have hnext : (s.heap.currKallocEternalAddress +
      memorySize / srvPageSize / physallocBitsPerEntry * 8#64).toNat =
      s.heap.currKallocEternalAddress.toNat +
        8 * (memorySize / srvPageSize / physallocBitsPerEntry).toNat := by
    rw [BitVec.toNat_add, hbytes, hcount]
    omega
  refine ⟨?_, Nat.le_of_lt hroom⟩
  rw [hnext]
  exact .cut h.carved _

theorem Objects.block_mem_driver (h : Objects start stop s bs) {o : HeapObject} (ho : o.Live s)
    (hdriver : o ≠ .bitmap) : o.block s a ∈ bs := by
  cases o with
  | node p => exact h.created p ho
  | property q i => exact h.property q i ho
  | bitmap => exact absurd rfl hdriver

theorem Objects.block_mem (h : Objects start stop s bs) {o : HeapObject} (ho : o.Live s) :
    o.block s a ∈ HeapObject.bitmap.block s a :: bs := by
  by_cases hbitmap : o = .bitmap
  · rw [hbitmap]
    exact List.mem_cons_self
  · exact List.mem_cons_of_mem _ (h.block_mem_driver ho hbitmap)

/-- Two objects are two blocks: nodes and properties differ in size, and the bitmap begins where
all of them have ended. -/
theorem Objects.block_injective (h : Objects start stop s bs) {o o' : HeapObject} (ho : o.Live s)
    (ho' : o'.Live s) (heq : o.block s a = o'.block s a) : o = o' := by
  have hbefore : ∀ b ∈ bs, b.size ≠ 0 → b ≠ HeapObject.bitmap.block s a := by
    rintro b hb hne rfl
    have hend := (h.carved.within _ hb).2
    simp only [HeapObject.block] at hend hne
    omega
  have hnode : ∀ p ∈ s.created, nodeBlock p ≠ HeapObject.bitmap.block s a :=
    fun p hp => hbefore _ (h.created p hp) (by simp)
  have hproperty : ∀ q i, (s.nodes q).properties.slot i ≠ NULL →
      propertyBlock ((s.nodes q).properties.slot i) ≠ HeapObject.bitmap.block s a :=
    fun q i hq => hbefore _ (h.property q i hq) (by simp)
  cases o <;> cases o'
  case node.node p p' =>
    have haddr := congrArg Block.addr heq
    rw [HeapObject.node.injEq]
    exact BitVec.eq_of_toNat_eq haddr
  case node.property p q i => exact absurd (congrArg Block.size heq) (by simp [HeapObject.block])
  case node.bitmap p => exact absurd heq (hnode p ho)
  case property.node q i p => exact absurd (congrArg Block.size heq) (by simp [HeapObject.block])
  case property.property q i q' i' =>
    have haddr := BitVec.eq_of_toNat_eq (congrArg Block.addr heq)
    obtain ⟨rfl, rfl⟩ := h.once q i q' i' ho haddr
    rfl
  case property.bitmap q i => exact absurd heq (hproperty q i ho)
  case bitmap.node p => exact absurd heq.symm (hnode p ho')
  case bitmap.property q i => exact absurd heq.symm (hproperty q i ho')
  case bitmap.bitmap => rfl

theorem Objects.pairwiseDisjoint (h : Objects start stop s bs) {objects : Set HeapObject}
    (hlive : ∀ o ∈ objects, o.Live s) {blocks : List Block} {top : ℕ}
    (hcarved : Carved start top blocks) (hmem : ∀ o ∈ objects, o.block s a ∈ blocks) :
    objects.PairwiseDisjoint fun o => (o.block s a).bytes := by
  intro o ho o' ho' hne
  have : Std.Symm fun b c : Block => Disjoint b.bytes c.bytes := ⟨fun _ _ hd => hd.symm⟩
  exact hcarved.disjoint.forall (hmem o ho) (hmem o' ho')
    fun heq => hne (h.block_injective (hlive o ho) (hlive o' ho') heq)

/-- What boot takes from the eternal heap, on any blob. The nodes and the properties that
`srv_fdt_Init` leaves do not overlap and lie between where the heap stood and where it stands, and
the driver's links are NULL or lead to one of its nodes. With the bitmap, if the calls behind get
there, it is the same, up to the end of the heap. -/
theorem boot_objects_apart {heap : EternalHeap} {fdtPtr : Addr} {n : ℕ} {b : Bool}
    (hstart : heap.currKallocEternalAddress ≤ heap.kallocEternalEnd)
    (hstop : heap.kallocEternalEnd.toNat + 2 ^ 17 ≤ 2 ^ 64)
    (hinit : srvFdtInit mem n (.zeroed heap) fdtPtr = .ok (s, b)) :
    ((∀ a, {o : HeapObject | o.Live s ∧ o ≠ .bitmap}.PairwiseDisjoint fun o => (o.block s a).bytes) ∧
      (∀ a, ∀ o : HeapObject, o.Live s → o ≠ .bitmap →
        (o.block s a).Within heap.currKallocEternalAddress.toNat
          s.heap.currKallocEternalAddress.toNat) ∧
      PointsToNode s s.rootNode ∧ ∀ q, PointsToNode s (s.nodes q).parent ∧
        ∀ i, PointsToNode s ((s.nodes q).children.slot i)) ∧
    ∀ memoryNodeName regName memorySize words base heap' a,
      srvFdtGetMemorySize mem memoryNodeName regName s = .ok memorySize →
      srvKpallocInitPageAllocator s.heap words base memorySize = .ok (heap', a) →
      {o : HeapObject | o.Live s}.PairwiseDisjoint (fun o => (o.block s a).bytes) ∧
        ∀ o : HeapObject, o.Live s → (o.block s a).Within heap.currKallocEternalAddress.toNat
          heap.kallocEternalEnd.toNat := by
  obtain ⟨bs, hbs⟩ := objects_of_init hstart (by omega) hinit
  refine ⟨⟨fun a => ?_, fun a o ho hdriver => ?_, hbs.root,
    fun q => ⟨hbs.parent q, hbs.child q⟩⟩, ?_⟩
  · exact hbs.pairwiseDisjoint (fun o ho => ho.1) hbs.carved
      fun o ho => hbs.block_mem_driver ho.1 ho.2
  · exact hbs.carved.within _ (hbs.block_mem_driver ho hdriver)
  · intro memoryNodeName regName memorySize words base heap' a hsize hpages
    obtain ⟨hcarved, hinside⟩ := hbs.bitmap hstop (srvFdtGetMemorySize_lt hsize) hpages
    refine ⟨hbs.pairwiseDisjoint (fun o ho => ho) hcarved fun o ho => hbs.block_mem ho,
      fun o ho => ?_⟩
    obtain ⟨hlo, hhi⟩ := hcarved.within _ (hbs.block_mem (a := a) ho)
    exact ⟨hlo, hhi.trans hinside⟩

end Bitmap

/-- The heap of the image, with the tree in the last 2 MiB of the RAM. -/
theorem boot_objects_apart_128_mebibytes :
    ∃ n s heap' a, srvFdtInit initMemory n (.zeroed initHeap) initInput.fdtPtr = .ok (s, true) ∧
      srvKpallocInitPageAllocator s.heap (fun _ => 0#64) physicalMemoryStart initInput.memorySize =
        .ok (heap', a) ∧
      {o : HeapObject | o.Live s}.PairwiseDisjoint fun o => (o.block s a).bytes := by
  have hd := initInput_describes
  obtain ⟨n, s, hinit⟩ := hd.flat.srvFdtInit_true hd.parsable hd.start hd.room.suffices
  obtain ⟨hsize, ⟨heap', a, hpages⟩, -⟩ := hd.calls initStrings hinit
  exact ⟨n, s, heap', a, hinit, hpages,
    ((boot_objects_apart (by decide) (by decide) hinit).2 _ _ _ _ _ _ _ hsize hpages).1⟩

end SysRv.Fdt
