import SysRv.FdtFrame

/-!
# The answers that the loop drops

The branches for `FDT_BEGIN_NODE` and `FDT_PROP` do not look at the answers of the insertions.
Here they are kept, with what an insertion of either kind does to the tables and what the loop
does at each token.
-/

namespace SysRv.Fdt

open ByteMemory KString Kalloc Nesting FdtTokens

def beginNodeAnswer (mem : Memory) (dtStartPtr : Addr) (s : FdtState) :
    Except Fault (FdtState × Bool) := do
  let nodeName := dtStartPtr + s.currOffset
  let nodeNameLen ← strlen mem nodeName
  let s := { s with currOffset := s.currOffset + fdtAlignToNextWord nodeNameLen }
  let (newNode, s) ← eternalAlloc s fdtNodeSize
  checkPointer newNode
  let s := linkNode s newNode nodeName nodeNameLen
  let (s, inserted) ← fdtInsertChild s s.currNode newNode
  return ({ s with currNode := newNode }, inserted)

def propAnswer (mem : Memory) (dtStartPtr : Addr) (s : FdtState) :
    Except Fault (FdtState × Bool) := do
  let prop := dtStartPtr + s.currOffset
  let propLen ← fdtRead32 mem prop
  let strOffset ← fdtRead32 mem (prop + 4#64)
  let (s, inserted) ← fdtInsertProperty mem s s.currNode strOffset propLen (prop + 8#64)
  return ({ s with currOffset := s.currOffset + (8#64 + fdtAlignToNextWord (propLen.setWidth 64)) },
    inserted)

variable {mem : Memory} {dt : Addr} {s s' : FdtState} {b : Bool}

theorem parseBeginNode_eq (mem : Memory) (dt : Addr) (s : FdtState) :
    parseBeginNode mem dt s = (beginNodeAnswer mem dt s).map Prod.fst := by
  rw [parseBeginNode, beginNodeAnswer]
  simp only [bind, Except.bind]
  cases strlen mem (dt + s.currOffset) with
  | error fault => rfl
  | ok nodeNameLen =>
    simp only []
    split
    · rfl
    · split
      · rfl
      · split <;> rfl

theorem parseProp_eq (mem : Memory) (dt : Addr) (s : FdtState) :
    parseProp mem dt s = (propAnswer mem dt s).map Prod.fst := by
  rw [parseProp, propAnswer]
  simp only [bind, Except.bind]
  split
  · rfl
  · split
    · rfl
    · split <;> rfl

theorem exists_answer {x : Except Fault (FdtState × Bool)} (h : x.map Prod.fst = .ok s') :
    ∃ b, x = .ok (s', b) := by
  cases x with
  | error fault => cases h
  | ok r =>
    cases h
    exact ⟨r.2, rfl⟩

/-- An iteration in which an insertion answers no. -/
def RefusedAt (mem : Memory) (dt : Addr) (s : FdtState) : Prop :=
  ∃ bound token, readWord mem (s.fdtInfoBlock + sizeDtStructField) = .ok bound ∧
    s.currOffset < bound.setWidth 64 ∧ fdtRead32 mem (dt + s.currOffset) = .ok token ∧
    (token = fdtBeginNode ∧ (∃ s', beginNodeAnswer mem dt (pastWord s) = .ok (s', false)) ∨
      token = fdtProp ∧ ∃ s', propAnswer mem dt (pastWord s) = .ok (s', false))

def Refused (mem : Memory) (dt : Addr) (start : FdtState) : Prop :=
  ∃ n s, parseLoop mem dt n start = .ok (.running s) ∧ RefusedAt mem dt s

/-- The new node is inserted into a node, or refused by it; other tables stay as they are. -/
structure NodeInserted (s s' : FdtState) (target : Addr) (b : Bool) : Prop where
  properties : ∀ q, (s'.nodes q).properties = (s.nodes q).properties
  nodeProperties : s'.nodeProperties = s.nodeProperties
  children : ∀ q, q ≠ target → (s'.nodes q).children = (s.nodes q).children
  untouched : ∀ q, q ≠ s.heap.currKallocEternalAddress → q ≠ target → s'.nodes q = s.nodes q
  answer : (s.nodes target).children.insert s.heap.currKallocEternalAddress =
    if b then some (s'.nodes target).children else none

theorem nodeInserted_of_insert {linked u : FdtState} {node : FdtNode} {p : Addr}
    (hnodes : linked.nodes = Function.update s.nodes s.heap.currKallocEternalAddress node)
    (hchildren : node.children = (s.nodes s.heap.currKallocEternalAddress).children)
    (hproperties : node.properties = (s.nodes s.heap.currKallocEternalAddress).properties)
    (hrecords : linked.nodeProperties = s.nodeProperties)
    (h : fdtInsertChild linked linked.currNode s.heap.currKallocEternalAddress = .ok (u, b)) :
    NodeInserted s { u with currNode := p } linked.currNode b := by
  have hold : ∀ q, (linked.nodes q).children = (s.nodes q).children ∧
      (linked.nodes q).properties = (s.nodes q).properties := by
    intro q
    rw [hnodes]
    by_cases hq : q = s.heap.currKallocEternalAddress
    · subst hq
      simp [hchildren, hproperties]
    · simp [hq]
  rcases fdtInsertChild_eq_ok h with ⟨rfl, t, ht, rfl⟩ | ⟨rfl, ht, rfl⟩
  · constructor
    case properties =>
      intro q
      by_cases hq : q = linked.currNode
      · simp [FdtState.setNode, hq, hold]
      · simp [FdtState.setNode, hq, hold]
    case nodeProperties => exact hrecords
    case children =>
      intro q hq
      simp [FdtState.setNode, hq, hold]
    case untouched =>
      intro q hnew hq
      simp [FdtState.setNode, hq, hnodes, hnew]
    case answer => simpa [FdtState.setNode, ← (hold linked.currNode).1] using ht
  · constructor
    case properties => exact fun q => (hold q).2
    case nodeProperties => exact hrecords
    case children => exact fun q _ => (hold q).1
    case untouched =>
      intro q hnew _
      simp [hnodes, hnew]
    case answer => simpa [← (hold u.currNode).1] using ht

theorem beginNodeAnswer_eq_ok {name : List Byte} (hname : IsString mem (dt + s.currOffset) name)
    (h : beginNodeAnswer mem dt s = .ok (s', b)) :
    ∃ linked u : FdtState,
      linked.nodes = Function.update s.nodes s.heap.currKallocEternalAddress
        { s.nodes s.heap.currKallocEternalAddress with
          name := dt + s.currOffset
          parent := if name = [] then NULL else s.currNode } ∧
      linked.nodeProperties = s.nodeProperties ∧
      linked.currNode = (if name = [] then s.heap.currKallocEternalAddress else s.currNode) ∧
      fdtInsertChild linked linked.currNode s.heap.currKallocEternalAddress = .ok (u, b) ∧
      s' = { u with currNode := s.heap.currKallocEternalAddress } := by
  obtain ⟨nodeNameLen, hlen, h⟩ := bind_eq_ok.mp h
  rw [strlen_of_isString hname hname.length_lt] at hlen
  cases hlen
  obtain ⟨⟨newNode, t⟩, halloc, h⟩ := bind_eq_ok.mp h
  obtain ⟨hnew, ht⟩ := eternalAlloc_eq_ok halloc
  obtain ⟨-, -, h⟩ := bind_eq_ok.mp h
  obtain ⟨⟨u, inserted⟩, hinsert, h⟩ := bind_eq_ok.mp h
  cases h
  subst hnew ht
  generalize hlinked : linkNode _ _ _ _ = linked at hinsert
  rw [linkNode_eq hname.length_lt] at hlinked
  exact ⟨linked, u, by rw [← hlinked], by rw [← hlinked], by rw [← hlinked], hinsert, rfl⟩

theorem beginNodeAnswer_inserted {name : List Byte} (hname : IsString mem (dt + s.currOffset) name)
    (h : beginNodeAnswer mem dt s = .ok (s', b)) :
    NodeInserted s s' (if name = [] then s.heap.currKallocEternalAddress else s.currNode) b := by
  obtain ⟨linked, u, hnodes, hrecords, hcurr, hinsert, rfl⟩ := beginNodeAnswer_eq_ok hname h
  rw [← hcurr]
  exact nodeInserted_of_insert hnodes rfl rfl hrecords hinsert

structure NodeNamed (dt : Addr) (s s' : FdtState) (b : Bool) : Prop where
  name_new : (s'.nodes s.heap.currKallocEternalAddress).name = dt + s.currOffset
  name_old : ∀ q, q ≠ s.heap.currKallocEternalAddress → (s'.nodes q).name = (s.nodes q).name
  refused : b = false → ∀ q, (s'.nodes q).children = (s.nodes q).children

theorem fdtInsertChild_name {node child : Addr} (h : fdtInsertChild s node child = .ok (s', b))
    (q : Addr) : (s'.nodes q).name = (s.nodes q).name := by
  rcases fdtInsertChild_eq_ok h with ⟨-, t, -, rfl⟩ | ⟨-, -, rfl⟩
  · by_cases hq : q = node
    · simp [FdtState.setNode, hq]
    · simp [FdtState.setNode, hq]
  · rfl

theorem beginNodeAnswer_named {name : List Byte} (hname : IsString mem (dt + s.currOffset) name)
    (h : beginNodeAnswer mem dt s = .ok (s', b)) : NodeNamed dt s s' b := by
  obtain ⟨linked, u, hnodes, -, -, hinsert, rfl⟩ := beginNodeAnswer_eq_ok hname h
  have hnames := fdtInsertChild_name hinsert
  constructor
  case name_new => simp [hnames, hnodes]
  case name_old =>
    intro q hq
    simp [hnames, hnodes, hq]
  case refused =>
    rintro rfl q
    rcases fdtInsertChild_eq_ok hinsert with ⟨hb, -⟩ | ⟨-, -, rfl⟩
    · cases hb
    · by_cases hq : q = s.heap.currKallocEternalAddress
      · simp [hnodes, hq]
      · simp [hnodes, hq]

/-- A property is inserted into the current node with its record in a new block, or refused;
children stay as they are. -/
structure PropertyInserted (mem : Memory) (s s' : FdtState) (call : InsertPropertyCall) (b : Bool) :
    Prop where
  children : ∀ q, (s'.nodes q).children = (s.nodes q).children
  untouched : ∀ q, q ≠ s.currNode → s'.nodes q = s.nodes q
  answer : (s.nodes s.currNode).properties.insert s.heap.currKallocEternalAddress =
    if b then some (s'.nodes s.currNode).properties else none
  heap : b = true → s'.heap.currKallocEternalAddress = s.heap.currKallocEternalAddress + 24#64
  record : b = true → ∃ strings, fdtRead32 mem (s.fdtInfoBlock + offDtStringsField) = .ok strings ∧
    s'.nodeProperties = Function.update s.nodeProperties s.heap.currKallocEternalAddress
      ⟨s.fdtInfoBlock + (strings + call.nameoff).setWidth 64, call.propertyPtr, call.propLen⟩

theorem propAnswer_eq_ok {propLen nameoff : BitVec 32}
    (hwords : Holds mem (dt + s.currOffset) (be32 propLen ++ be32 nameoff))
    (h : propAnswer mem dt s = .ok (s', b)) :
    ∃ u o, fdtInsertProperty mem s s.currNode nameoff propLen (dt + s.currOffset + 8#64) =
      .ok (u, b) ∧ s' = { u with currOffset := o } := by
  obtain ⟨hlen, hoff⟩ := holds_append.mp hwords
  obtain ⟨propLen', hlen', h⟩ := bind_eq_ok.mp h
  obtain ⟨nameoff', hoff', h⟩ := bind_eq_ok.mp h
  obtain rfl : propLen = propLen' := by simpa [fdtRead32_of_holds hlen] using hlen'
  obtain rfl : nameoff = nameoff' := by
    have hread : fdtRead32 mem (dt + s.currOffset + 4#64) = .ok nameoff := fdtRead32_of_holds hoff
    simpa [hread] using hoff'
  obtain ⟨⟨u, inserted⟩, hinsert, h⟩ := bind_eq_ok.mp h
  cases h
  exact ⟨u, _, hinsert, rfl⟩

theorem propAnswer_inserted {propLen nameoff : BitVec 32}
    (hwords : Holds mem (dt + s.currOffset) (be32 propLen ++ be32 nameoff))
    (h : propAnswer mem dt s = .ok (s', b)) :
    PropertyInserted mem s s' ⟨s.currNode, nameoff, propLen, dt + s.currOffset + 8#64⟩ b := by
  obtain ⟨u, o, hinsert, rfl⟩ := propAnswer_eq_ok hwords h
  rcases fdtInsertProperty_eq_ok hinsert with ⟨rfl, t, strings, ht, hstrings, rfl⟩ | ⟨rfl, ht, rfl⟩
  · constructor
    case children => exact setNode_children rfl
    case untouched =>
      intro q hq
      simp [hq]
    case answer => simpa using ht
    case heap => exact fun _ => rfl
    case record => exact fun _ => ⟨strings, hstrings, rfl⟩
  · constructor
    case children => exact fun _ => rfl
    case untouched => exact fun _ _ => rfl
    case answer => simpa using ht
    case heap => exact fun h => nomatch h
    case record => exact fun h => nomatch h

structure PropertyNamed (s s' : FdtState) (b : Bool) : Prop where
  name : ∀ q, (s'.nodes q).name = (s.nodes q).name
  refused : b = false → s'.nodes = s.nodes ∧ s'.nodeProperties = s.nodeProperties

theorem propAnswer_named {propLen nameoff : BitVec 32}
    (hwords : Holds mem (dt + s.currOffset) (be32 propLen ++ be32 nameoff))
    (h : propAnswer mem dt s = .ok (s', b)) : PropertyNamed s s' b := by
  obtain ⟨u, o, hinsert, rfl⟩ := propAnswer_eq_ok hwords h
  rcases fdtInsertProperty_eq_ok hinsert with ⟨rfl, t, strings, -, -, rfl⟩ | ⟨rfl, -, rfl⟩
  · refine ⟨fun q => ?_, fun hb => nomatch hb⟩
    by_cases hq : q = s.currNode
    · simp [hq]
    · simp [hq]
  · exact ⟨fun _ => rfl, fun _ => ⟨rfl, rfl⟩⟩

inductive TokenPassed (mem : Memory) (dt : Addr) (pre : List Token) (st : State PropertyItem)
    (s : FdtState) : Token → State PropertyItem → FdtState → Prop where
  | beginNode {name : List Byte} {s' : FdtState} (b : Bool)
      (root : name.isEmpty = st.opened.isEmpty) (first : st.opened = [] → st.parents = [])
      (isString : IsString mem (dt + (pastWord s).currOffset) name)
      (begun : NodeBegun (pastWord s) s' name)
      (answer : beginNodeAnswer mem dt (pastWord s) = .ok (s', b)) :
    TokenPassed mem dt pre st s (.beginNode name) st.open s'
  | prop {nameoff : BitVec 32} {value : List Byte} {i : ℕ} {outer : List ℕ} {it : PropertyItem}
      {s' : FdtState} (b : Bool) (opened : st.opened = i :: outer)
      (item : it = ⟨nameoff, BitVec.ofNat 32 value.length, (FdtTokens.encode pre).length + 12⟩)
      (passed : PropPassed (pastWord s) s'
        ⟨s.currNode, it.nameoff, it.length, dt + BitVec.ofNat 64 it.offset⟩)
      (answer : propAnswer mem dt (pastWord s) = .ok (s', b))
      (inserted : PropertyInserted mem (pastWord s) s'
        ⟨s.currNode, it.nameoff, it.length, dt + BitVec.ofNat 64 it.offset⟩ b)
      (named : PropertyNamed (pastWord s) s' b) :
    TokenPassed mem dt pre st s (.prop nameoff value) { st with items := st.items ++ [(i, it)] } s'
  | endNode {i : ℕ} {outer : List ℕ} (opened : st.opened = i :: outer) :
    TokenPassed mem dt pre st s .endNode { st with opened := outer }
      { pastWord s with currNode := (s.nodes s.currNode).parent }
  | nop : TokenPassed mem dt pre st s .nop st (pastWord s)

section Passed

variable {infoBlock : Addr} {nodes₀ : Addr → FdtNode} {bound : BitVec 32}
  {body pre post : List Token} {t : Token}

theorem tracks_pastWord {st : State PropertyItem} (hat : At infoBlock dt nodes₀ pre s)
    (hst : nesting pre = some st) : Coherent st ∧ Tracks infoBlock dt st (pastWord s) := by
  obtain ⟨st', hst', htracks⟩ := hat.pastWord.tracks
  obtain rfl : st = st' := Option.some.inj (hst.symm.trans hst')
  exact ⟨coherent_run hst coherent_initial, htracks⟩

theorem tokenPassed_beginNode {name : List Byte} (hl : LoadedTokens mem infoBlock dt bound body)
    (hsplit : body = pre ++ .beginNode name :: post) (hvalid : (Token.beginNode name).Valid)
    (hat : At infoBlock dt nodes₀ pre s) (hexact : Exact pre s)
    (hnest : (nesting (pre ++ [.beginNode name])).isSome)
    (hsum : s.heap.currKallocEternalAddress.toNat + 272 < 2 ^ 64)
    (hrun : parseToken mem dt fdtBeginNode (pastWord s) = .ok (.running s')) :
    ∃ st st', nesting pre = some st ∧ nesting (pre ++ [.beginNode name]) = some st' ∧
      TokenPassed mem dt pre st s (.beginNode name) st' s' := by
  obtain ⟨st, -, -, hst, hst', hroot, hfirst, hname, hparse⟩ :=
    beginNode_spec hl hsplit hvalid hat hexact hnest hsum
  have hparsed := map_running_eq_ok ((parseToken_beginNode ..).symm.trans hrun)
  obtain ⟨b, hanswer⟩ := exists_answer ((parseBeginNode_eq ..).symm.trans hparsed)
  obtain ⟨s'', hs'', hbegun⟩ | ⟨hfault, -⟩ := hparse
  · obtain rfl : s' = s'' := Except.ok.inj (hparsed.symm.trans hs'')
    exact ⟨st, st.open, hst, hst', .beginNode b hroot hfirst hname hbegun hanswer⟩
  · cases hfault.symm.trans hparsed

theorem tokenPassed_prop {nameoff : BitVec 32} {value : List Byte}
    (hl : LoadedTokens mem infoBlock dt bound body)
    (hsplit : body = pre ++ .prop nameoff value :: post)
    (hat : At infoBlock dt nodes₀ pre s) (hexact : Exact pre s)
    (hnest : (nesting (pre ++ [.prop nameoff value])).isSome)
    (hsum : s.heap.currKallocEternalAddress.toNat + 24 < 2 ^ 64)
    (hrun : parseToken mem dt fdtProp (pastWord s) = .ok (.running s')) :
    ∃ st st', nesting pre = some st ∧ nesting (pre ++ [.prop nameoff value]) = some st' ∧
      TokenPassed mem dt pre st s (.prop nameoff value) st' s' := by
  obtain ⟨st, i, outer, -, -, hst, hopened, hst', hwords, hparse⟩ :=
    prop_spec hl hsplit hat hexact hnest hsum
  have hparsed := map_running_eq_ok ((parseToken_prop ..).symm.trans hrun)
  obtain ⟨b, hanswer⟩ := exists_answer ((parseProp_eq ..).symm.trans hparsed)
  have hinserted := propAnswer_inserted hwords hanswer
  rw [valueAddress_eq hl hsplit hexact] at hinserted
  obtain ⟨s'', hs'', hpassed⟩ | ⟨hfault, -⟩ := hparse
  · obtain rfl : s' = s'' := Except.ok.inj (hparsed.symm.trans hs'')
    exact ⟨st, _, hst, hst', .prop b hopened rfl hpassed hanswer hinserted
      (propAnswer_named hwords hanswer)⟩
  · cases hfault.symm.trans hparsed

theorem tokenPassed_other (hat : At infoBlock dt nodes₀ pre s)
    (hnest : (nesting (pre ++ [t])).isSome) (ht : t = .endNode ∨ t = .nop)
    (hrun : parseToken mem dt (tokenWord t) (pastWord s) = .ok (.running s')) :
    ∃ st st', nesting pre = some st ∧ nesting (pre ++ [t]) = some st' ∧
      TokenPassed mem dt pre st s t st' s' := by
  obtain ⟨st, st', -, -, hst, hst', hstep⟩ := hat.next hnest
  refine ⟨st, st', hst, hst', ?_⟩
  rcases ht with rfl | rfl
  · have hclose : step List.isEmpty st (.closing : FdtEvent) = some st' := by
      simpa [Token.event] using hstep
    obtain ⟨i, outer, hopened, rfl⟩ := step_closing hclose
    have hparsed := map_running_eq_ok ((parseToken_endNode ..).symm.trans hrun)
    obtain ⟨-, -, hend⟩ := bind_eq_ok.mp hparsed
    cases hend
    exact .endNode hopened
  · obtain rfl : st = st' := by simpa [Token.event] using hstep
    cases (parseToken_nop ..).symm.trans hrun
    exact .nop

theorem tokenPassed (hl : LoadedTokens mem infoBlock dt bound body)
    (hsplit : body = pre ++ t :: post) (hvalid : t.Valid) (hend : t ≠ .fdtEnd)
    (hat : At infoBlock dt nodes₀ pre s) (hexact : Exact pre s) (hnest : (nesting (pre ++ [t])).isSome)
    (hsum : s.heap.currKallocEternalAddress.toNat + tokenCost t < 2 ^ 64)
    (hrun : parseToken mem dt (tokenWord t) (pastWord s) = .ok (.running s')) :
    ∃ st st', nesting pre = some st ∧ nesting (pre ++ [t]) = some st' ∧
      TokenPassed mem dt pre st s t st' s' := by
  cases t with
  | beginNode name => exact tokenPassed_beginNode hl hsplit hvalid hat hexact hnest hsum hrun
  | endNode => exact tokenPassed_other hat hnest (.inl rfl) hrun
  | prop nameoff value => exact tokenPassed_prop hl hsplit hat hexact hnest hsum hrun
  | nop => exact tokenPassed_other hat hnest (.inr rfl) hrun
  | fdtEnd => exact absurd rfl hend

end Passed

end SysRv.Fdt
