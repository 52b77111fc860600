import SysRv.FdtStack

/-!
# Flattened device trees

Device trees, their flattening, and when the graph that the driver built is a device tree.
The flattening of every tree is a well-formed block. Parsing it ends with success, but never
with the tree: the root is made the current node before the new node is inserted into the
current node, which is the root itself.
-/

namespace SysRv.Fdt

open ByteMemory KString Kalloc Nesting FdtTokens

structure TreeProperty where
  name : List Byte
  nameoff : BitVec 32
  value : List Byte
  deriving DecidableEq, Repr

abbrev DeviceTree := RoseTree (List Byte) TreeProperty

def TreeProperty.token (p : TreeProperty) : Token := .prop p.nameoff p.value

mutual

def flatten : DeviceTree → List Token
  | .node name properties children =>
    .beginNode name :: (properties.map TreeProperty.token ++ flattenList children ++ [.endNode])

def flattenList : List DeviceTree → List Token
  | [] => []
  | t :: ts => flatten t ++ flattenList ts

end

/-- A node within the limits of the driver and of the format. -/
def NodeFits (name : List Byte) (properties : List TreeProperty) (children : ℕ) : Prop :=
  (∀ b ∈ name, b ≠ 0#8) ∧ children ≤ fdtMaxChildren ∧ properties.length ≤ fdtMaxProperties ∧
    ∀ p ∈ properties, p.value.length < 2 ^ 32

/-- Trees with an empty name at the root and nowhere else whose nodes fit. -/
structure Parsable (t : DeviceTree) : Prop where
  root : t.label = []
  inner : RoseTree.InnerList List.isEmpty t.children
  fits : t.Every NodeFits

structure FlatBlob (mem : Memory) (fdtPtr : Addr) (header : BlobHeader) (tokens : List Token)
    (t : DeviceTree) : Prop where
  magic : Holds mem fdtPtr (be32 fdtMagic)
  blob : Blob mem fdtPtr header tokens
  flat : tokens.filter (· ≠ .nop) = flatten t
  size : header.sizeDtStruct.toNat = (FdtTokens.encode (tokens ++ [.fdtEnd])).length
  strings : t.Every fun _ properties _ => ∀ p ∈ properties,
    IsString mem (fdtPtr + BitVec.ofNat 64 (header.offDtStrings.toNat + p.nameoff.toNat)) p.name

def outline : Token → List (Event (List Byte) (BitVec 32))
  | .beginNode name => [.opening name]
  | .endNode => [.closing]
  | .prop nameoff _ => [.item nameoff]
  | .nop => []
  | .fdtEnd => []

theorem events_outline (offset : ℕ) (tokens : List Token) :
    (FdtTokens.events offset tokens).map (Event.map PropertyItem.nameoff) =
      tokens.flatMap outline := by
  induction tokens generalizing offset with
  | nil => rfl
  | cons t tokens ih =>
    rw [FdtTokens.events, List.map_append, ih, List.flatMap_cons]
    cases t <;> rfl

theorem flatMap_outline_filter (tokens : List Token) :
    (tokens.filter (· ≠ .nop)).flatMap outline = tokens.flatMap outline := by
  induction tokens with
  | nil => rfl
  | cons t tokens ih =>
    rw [List.filter_cons, List.flatMap_cons]
    by_cases h : t = .nop
    · simpa [h, outline] using ih
    · simpa [h] using ih

theorem nesting_outline (tokens : List Token) :
    (nesting tokens).map (State.map PropertyItem.nameoff) =
      run List.isEmpty .initial ((tokens.filter (· ≠ .nop)).flatMap outline) := by
  rw [flatMap_outline_filter, ← events_outline 0, nesting]
  exact (run_map PropertyItem.nameoff .initial _).symm

theorem flatMap_outline_properties (properties : List TreeProperty) :
    (properties.map TreeProperty.token).flatMap outline =
      (properties.map .item).map (Event.map (α := List Byte) TreeProperty.nameoff) := by
  induction properties with
  | nil => rfl
  | cons p properties ih =>
    rw [List.map_cons, List.flatMap_cons, ih]
    rfl

mutual

theorem flatMap_outline_flatten (t : DeviceTree) :
    (flatten t).flatMap outline = t.events.map (Event.map TreeProperty.nameoff) := by
  match t with
  | .node name properties children =>
    rw [flatten, RoseTree.events, List.flatMap_cons, List.flatMap_append, List.flatMap_append,
      flatMap_outline_properties, flatMap_outline_flattenList children, List.map_cons,
      List.map_append, List.map_append]
    rfl

theorem flatMap_outline_flattenList (ts : List DeviceTree) :
    (flattenList ts).flatMap outline =
      (RoseTree.eventsList ts).map (Event.map TreeProperty.nameoff) := by
  match ts with
  | [] => rfl
  | t :: ts =>
    rw [flattenList, RoseTree.eventsList, List.flatMap_append, List.map_append,
      flatMap_outline_flatten t, flatMap_outline_flattenList ts]

end

def shape : Token → List (Event (List Byte) Unit)
  | .beginNode name => [.opening name]
  | .endNode => [.closing]
  | .prop _ _ => [.item ()]
  | .nop => []
  | .fdtEnd => []

theorem flatMap_shape (tokens : List Token) :
    tokens.flatMap shape = (tokens.flatMap outline).map (Event.map fun _ => ()) := by
  induction tokens with
  | nil => rfl
  | cons t tokens ih =>
    rw [List.flatMap_cons, List.flatMap_cons, List.map_append, ih]
    cases t <;> rfl

theorem flatMap_shape_filter (tokens : List Token) :
    (tokens.filter (· ≠ .nop)).flatMap shape = tokens.flatMap shape := by
  rw [flatMap_shape, flatMap_shape, flatMap_outline_filter]

theorem events_shape (offset : ℕ) (tokens : List Token) :
    (FdtTokens.events offset tokens).map (Event.map fun _ => ()) = tokens.flatMap shape := by
  rw [flatMap_shape, ← events_outline offset, map_erased]

theorem flatMap_shape_flatten (t : DeviceTree) :
    (flatten t).flatMap shape = t.events.map (Event.map fun _ => ()) := by
  rw [flatMap_shape, flatMap_outline_flatten, map_erased]

mutual

theorem mem_flatten {t : DeviceTree} (h : t.Every NodeFits) :
    ∀ token ∈ flatten t, token.Valid ∧ token ≠ .fdtEnd := by
  match t with
  | .node name properties children =>
    intro token hmem
    rw [flatten] at hmem
    rcases List.mem_cons.mp hmem with rfl | hmem
    · exact ⟨h.1.1, by simp⟩
    rcases List.mem_append.mp hmem with hmem | hmem
    · rcases List.mem_append.mp hmem with hmem | hmem
      · obtain ⟨p, hp, rfl⟩ := List.mem_map.mp hmem
        exact ⟨h.1.2.2.2 p hp, by simp [TreeProperty.token]⟩
      · exact mem_flattenList h.2 token hmem
    · rw [List.mem_singleton.mp hmem]
      exact ⟨trivial, by simp⟩

theorem mem_flattenList {ts : List DeviceTree} (h : RoseTree.EveryList NodeFits ts) :
    ∀ token ∈ flattenList ts, token.Valid ∧ token ≠ .fdtEnd := by
  match ts with
  | [] => exact fun _ hmem => nomatch hmem
  | t :: ts =>
    intro token hmem
    rw [flattenList] at hmem
    rcases List.mem_append.mp hmem with hmem | hmem
    · exact mem_flatten h.1 token hmem
    · exact mem_flattenList h.2 token hmem

end

/-- The tokens of a flattened tree are one root node and what it encloses. -/
theorem wellFormed_of_flat {tokens : List Token} {t : DeviceTree} (ht : Parsable t)
    (hflat : tokens.filter (· ≠ .nop) = flatten t) : WellFormed tokens := by
  have hmem : ∀ token ∈ tokens, token.Valid ∧ token ≠ .fdtEnd := by
    intro token htoken
    by_cases hnop : token = .nop
    · exact hnop ▸ ⟨trivial, by simp⟩
    · exact mem_flatten ht.fits token (hflat ▸ List.mem_filter.mpr ⟨htoken, by simpa using hnop⟩)
  refine ⟨fun token htoken => (hmem token htoken).1, fun hend => (hmem _ hend).2 rfl, ?_⟩
  obtain ⟨name, properties, children⟩ := t
  have hroot : name = [] := ht.root
  have hinner : RoseTree.InnerList List.isEmpty children := ht.inner
  obtain ⟨u, hu, hopened, hparents⟩ : ∃ u,
      run List.isEmpty .initial (RoseTree.node name properties children).events = some u ∧
        u.opened = [] ∧ u.parents ≠ [] := run_events_root (List.isEmpty_iff.mpr hroot) hinner
  have herased : (nesting tokens).map (State.map fun _ => ()) = some (u.map fun _ => ()) := by
    rw [nesting, ← run_map, events_shape, ← flatMap_shape_filter, hflat, flatMap_shape_flatten]
    exact (run_map _ State.initial _).trans (by rw [hu])
  obtain ⟨st, hst, heq⟩ := Option.map_eq_some_iff.mp herased
  have hopened' : st.opened = u.opened := congrArg State.opened heq
  have hparents' : st.parents = u.parents := congrArg State.parents heq
  exact ⟨st, hst, hopened'.trans hopened, by rw [hparents']; exact hparents⟩

section Heap

variable (mem : Memory) (s : FdtState)

def PropertySlots : List Addr → List TreeProperty → Prop
  | slots, [] => ∀ q ∈ slots, q = NULL
  | [], _ :: _ => False
  | q :: slots, p :: properties =>
    (q ≠ NULL ∧ IsString mem (s.nodeProperties q).name p.name ∧
      (s.nodeProperties q).length.toNat = p.value.length ∧
      Holds mem (s.nodeProperties q).value p.value) ∧ PropertySlots slots properties

mutual

/-- The graph from a node on is the tree: names, parents, and in the slots the properties and
the children in order, and nothing else. -/
def Represents : DeviceTree → Addr → Addr → Prop
  | .node name properties children, parent, p =>
    p ≠ NULL ∧ (s.nodes p).parent = parent ∧ IsString mem (s.nodes p).name name ∧
      PropertySlots mem s (s.nodes p).properties.slots properties ∧
      ChildSlots children p (s.nodes p).children.slots

def ChildSlots : List DeviceTree → Addr → List Addr → Prop
  | [], _, slots => ∀ q ∈ slots, q = NULL
  | _ :: _, _, [] => False
  | t :: ts, parent, q :: slots => Represents t parent q ∧ ChildSlots ts parent slots

end

end Heap

section Root

variable {mem : Memory} {infoBlock dt fdtPtr : Addr} {header : BlobHeader} {tokens pre : List Token}
  {t : DeviceTree} {heap : EternalHeap} {nodes₀ : Addr → FdtNode} {s : FdtState}

theorem SlotTable.slots_eq_cons {n : ℕ} (hn : 0 < n) (table : SlotTable n) :
    ∃ rest, table.slots = table.slot 0 :: rest := by
  obtain ⟨slots, hsize⟩ := table
  cases slots with
  | nil => exact absurd hsize (Nat.ne_of_lt hn)
  | cons p rest => exact ⟨rest, rfl⟩

/-- A root that is its own first child is no tree: the root has no parent, its child has. -/
theorem not_represents_of_loop {p : Addr} (hloop : (s.nodes p).children.slot 0 = p) :
    ¬ Represents mem s t NULL p := by
  obtain ⟨name, properties, children⟩ := t
  rintro ⟨hp, hparent, -, -, hchildren⟩
  obtain ⟨rest, hslots⟩ := (s.nodes p).children.slots_eq_cons (by decide)
  rw [hslots, hloop] at hchildren
  cases children with
  | nil => exact hp (hchildren p (List.mem_cons_self ..))
  | cons c cs =>
    obtain ⟨name', properties', children'⟩ := c
    obtain ⟨⟨-, hparent', -⟩, -⟩ := hchildren
    exact hp (hparent'.symm.trans hparent)

/-- Wherever the loop stops on a zeroed heap, the graph is no tree. -/
theorem At.not_represents (hat : At infoBlock dt nodes₀ pre s)
    (hfree : ∀ q, (nodes₀ q).children.slot 0 = NULL) : ¬ Represents mem s t NULL s.rootNode := by
  rw [hat.rooted.rootNode]
  cases hcreated : s.created with
  | nil =>
    obtain ⟨name, properties, children⟩ := t
    exact fun h => h.1 rfl
  | cons p rest => exact not_represents_of_loop (hat.rooted.loop hfree p (by rw [hcreated]; rfl)).2

theorem FlatBlob.small (hflat : FlatBlob mem fdtPtr header tokens t) :
    (FdtTokens.encode tokens).length < 2 ^ 32 := by
  have hlt := header.sizeDtStruct.isLt
  rw [hflat.size, encode_end_length] at hlt
  omega

/-- With a heap that suffices, `srv_fdt_Init` says yes to every flattened tree. -/
theorem FlatBlob.srvFdtInit_true (hflat : FlatBlob mem fdtPtr header tokens t) (ht : Parsable t)
    (hstart : heap.currKallocEternalAddress ≠ NULL) (hheap : Suffices tokens heap) :
    ∃ n s, srvFdtInit mem n (.zeroed heap) fdtPtr = .ok (s, true) :=
  hflat.blob.srvFdtInit_true hflat.magic (wellFormed_of_flat ht hflat.flat) hflat.small hstart hheap

/-- What it returns is left by the loop behind some of the tokens, so it is no tree. -/
theorem FlatBlob.not_represents (hflat : FlatBlob mem fdtPtr header tokens t) (ht : Parsable t)
    (hstart : heap.currKallocEternalAddress ≠ NULL) (hheap : Suffices tokens heap) {n : ℕ}
    (hinit : srvFdtInit mem n (.zeroed heap) fdtPtr = .ok (s, true)) :
    ¬ Represents mem s t NULL s.rootNode := by
  have hwf := wellFormed_of_flat ht hflat.flat
  rw [FdtState.zeroed] at hinit
  rcases hflat.blob.srvFdtInit_cases (fun _ => .zeroed) (fun _ => .zeroed) hflat.magic hwf
      hflat.small suffices_rule hstart hheap n with
    ⟨s', pre, hinit', hat⟩ | hinit' | ⟨hinit', -⟩
  · obtain rfl : s' = s := by simpa [hinit'] using hinit
    exact hat.not_represents fun _ => rfl
  · simp [hinit'] at hinit
  · simp [hinit'] at hinit

/-- Parsing never undoes flattening. -/
theorem srvFdtInit_never_represents (hflat : FlatBlob mem fdtPtr header tokens t) (ht : Parsable t)
    (hstart : heap.currKallocEternalAddress ≠ NULL) (hheap : Suffices tokens heap) :
    (∃ n s, srvFdtInit mem n (.zeroed heap) fdtPtr = .ok (s, true)) ∧
      ∀ n s, srvFdtInit mem n (.zeroed heap) fdtPtr = .ok (s, true) →
        ¬ Represents mem s t NULL s.rootNode := by
  refine ⟨hflat.srvFdtInit_true ht hstart hheap, fun n s hinit => ?_⟩
  exact hflat.not_represents ht hstart hheap hinit

end Root

def sampleTree : DeviceTree :=
  .node [] [⟨[0x70#8], 0#32, [0x72#8]⟩] [.node [0x61#8] [] []]

theorem sampleTree_parsable : Parsable sampleTree where
  root := rfl
  inner := ⟨⟨rfl, trivial⟩, trivial⟩
  fits := by simp [sampleTree, RoseTree.Every, RoseTree.EveryList, NodeFits, fdtMaxChildren,
    fdtMaxProperties]

theorem sampleTree_flatBlob :
    FlatBlob sampleMemory 0x82200000#64 (blobHeader sampleBody) sampleBody sampleTree where
  magic := holds_at_base blobBytes_magic (by decide)
  blob := blob_blobBytes (by decide)
  flat := by decide
  size := by decide
  strings := by
    refine ⟨fun p hp => ?_, ⟨fun p hp => (nomatch hp), trivial⟩, trivial⟩
    rw [List.mem_singleton.mp hp]
    exact ⟨⟨by decide, by decide, trivial⟩, by simp⟩

theorem srvFdtInit_never_represents_sample :
    (∃ n s, srvFdtInit sampleMemory n (.zeroed sampleHeap) 0x82200000#64 = .ok (s, true)) ∧
      ∀ n s, srvFdtInit sampleMemory n (.zeroed sampleHeap) 0x82200000#64 = .ok (s, true) →
        ¬ Represents sampleMemory s sampleTree NULL s.rootNode :=
  srvFdtInit_never_represents sampleTree_flatBlob sampleTree_parsable (by decide) sampleHeap_suffices

theorem srvFdtInit_sample_is_no_tree :
    ¬ ∀ n s, srvFdtInit sampleMemory n (.zeroed sampleHeap) 0x82200000#64 = .ok (s, true) →
      Represents sampleMemory s sampleTree NULL s.rootNode := by
  intro h
  obtain ⟨n, s, hinit⟩ := sampleTree_flatBlob.srvFdtInit_true sampleTree_parsable (by decide)
    sampleHeap_suffices
  exact sampleTree_flatBlob.not_represents sampleTree_parsable (by decide) sampleHeap_suffices hinit
    (h n s hinit)

end SysRv.Fdt
