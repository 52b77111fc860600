import SysRv.FdtInsertion
import SysRv.FdtLoop

/-!
# What the loop leaves alone

Whatever an iteration reads, it keeps the pointer to the blob and every child slot that holds
a pointer already.
-/

namespace SysRv.Fdt

open ByteMemory KString Kalloc

structure Frame (s s' : FdtState) : Prop where
  infoBlock : s'.fdtInfoBlock = s.fdtInfoBlock
  children : ∀ q i, (s.nodes q).children.slot i ≠ NULL →
    (s'.nodes q).children.slot i = (s.nodes q).children.slot i

variable {mem : Memory} {dt : Addr} {s s' t : FdtState}

theorem frame_refl (s : FdtState) : Frame s s := ⟨rfl, fun _ _ _ => rfl⟩

theorem Frame.trans (h : Frame s t) (h' : Frame t s') : Frame s s' where
  infoBlock := h'.infoBlock.trans h.infoBlock
  children q i hi := by
    have hq := h.children q i hi
    rw [h'.children q i (by rwa [hq]), hq]

theorem frame_of_children (hinfo : s'.fdtInfoBlock = s.fdtInfoBlock)
    (h : ∀ q, (s'.nodes q).children = (s.nodes q).children) : Frame s s' :=
  ⟨hinfo, fun q i _ => by rw [h q]⟩

theorem setNode_children {p : Addr} {node : FdtNode} (h : node.children = (s.nodes p).children)
    (q : Addr) : ((s.setNode p node).nodes q).children = (s.nodes q).children := by
  by_cases hq : q = p
  · subst hq
    simpa [FdtState.setNode] using h
  · simp [FdtState.setNode, hq]

theorem fdtInsertChild_frame {node child : Addr} {b : Bool}
    (h : fdtInsertChild s node child = .ok (s', b)) : Frame s s' := by
  rcases fdtInsertChild_eq_ok h with ⟨-, t, ht, rfl⟩ | ⟨-, -, rfl⟩
  · have hkeeps : KeepsLinks s.nodes (Function.update s.nodes node
        { s.nodes node with children := t }) :=
      keepsLinks_update rfl fun j hj => SlotTable.slot_insert ht hj
    exact ⟨rfl, hkeeps.children⟩
  · exact frame_refl _

theorem fdtInsertProperty_frame {node propertyPtr : Addr} {nameoff propLen : BitVec 32} {b : Bool}
    (h : fdtInsertProperty mem s node nameoff propLen propertyPtr = .ok (s', b)) : Frame s s' := by
  rcases fdtInsertProperty_eq_ok h with ⟨-, t, strings, -, -, rfl⟩ | ⟨-, -, rfl⟩
  · exact frame_of_children rfl (setNode_children rfl)
  · exact frame_of_children rfl fun _ => rfl

theorem linkNode_frame (s : FdtState) (newNode nodeName : Addr) (nodeNameLen : BitVec 64) :
    Frame s (linkNode s newNode nodeName nodeNameLen) := by
  refine frame_of_children ?_ fun q => ?_
  · rw [linkNode]
    split <;> rfl
  · have hname : ((s.setNode newNode { s.nodes newNode with name := nodeName }).nodes q).children =
        (s.nodes q).children := setNode_children (by rfl) q
    rw [linkNode]
    split
    · exact (setNode_children (by rfl) q).trans hname
    · exact (setNode_children (by rfl) q).trans hname

theorem parseBeginNode_frame (h : parseBeginNode mem dt s = .ok s') : Frame s s' := by
  obtain ⟨nodeNameLen, -, h⟩ := bind_eq_ok.mp h
  obtain ⟨⟨newNode, t⟩, halloc, h⟩ := bind_eq_ok.mp h
  obtain ⟨rfl, rfl⟩ := eternalAlloc_eq_ok halloc
  obtain ⟨-, -, h⟩ := bind_eq_ok.mp h
  obtain ⟨⟨u, inserted⟩, hinsert, h⟩ := bind_eq_ok.mp h
  cases h
  have hmoved : Frame s { s with
      currOffset := s.currOffset + fdtAlignToNextWord nodeNameLen
      heap := { s.heap with
        currKallocEternalAddress := s.heap.currKallocEternalAddress + fdtNodeSize } } :=
    frame_of_children rfl fun _ => rfl
  have hinserted := (hmoved.trans (linkNode_frame ..)).trans (fdtInsertChild_frame hinsert)
  exact hinserted.trans (frame_of_children rfl fun _ => rfl)

theorem parseProp_frame (h : parseProp mem dt s = .ok s') : Frame s s' := by
  obtain ⟨propLen, -, h⟩ := bind_eq_ok.mp h
  obtain ⟨strOffset, -, h⟩ := bind_eq_ok.mp h
  obtain ⟨⟨t, inserted⟩, hinsert, h⟩ := bind_eq_ok.mp h
  cases h
  exact (fdtInsertProperty_frame hinsert).trans (frame_of_children rfl fun _ => rfl)

theorem map_running_eq_ok {x : Except Fault FdtState}
    (h : x.map LoopState.running = .ok (.running s')) : x = .ok s' := by
  cases x with
  | error fault => cases h
  | ok t =>
    cases h
    rfl

theorem parseToken_frame {token : BitVec 32} (h : parseToken mem dt token s = .ok (.running s')) :
    Frame s s' := by
  rw [parseToken] at h
  split at h
  · exact parseBeginNode_frame (map_running_eq_ok h)
  split at h
  · have hend := map_running_eq_ok h
    obtain ⟨-, -, hend⟩ := bind_eq_ok.mp hend
    cases hend
    exact frame_of_children rfl fun _ => rfl
  split at h
  · exact parseProp_frame (map_running_eq_ok h)
  split at h
  · cases h
    exact frame_refl s
  split at h
  · cases h
  · cases h
    exact frame_refl s

theorem parseIteration_frame (h : parseIteration mem dt s = .ok (.running s')) : Frame s s' := by
  obtain ⟨bound, -, h⟩ := bind_eq_ok.mp h
  split at h
  · obtain ⟨token, -, h⟩ := bind_eq_ok.mp h
    have hpast : Frame s (pastWord s) := frame_of_children rfl fun _ => rfl
    exact hpast.trans (parseToken_frame h)
  · cases h

theorem parseLoop_frame {n : ℕ} (h : parseLoop mem dt n s = .ok (.running s')) : Frame s s' :=
  parseLoop_invariant (fun _ _ hframe ht => hframe.trans (parseIteration_frame ht)) (frame_refl s) h

end SysRv.Fdt
