import SysRv.FdtAnswers

/-!
# Tables against the nesting

As long as no insertion is refused, the loop takes the same blocks of the heap whatever that
held, and the tables of a node have as many free slots less as the nesting so far has inserted
into it.
-/

namespace SysRv.Fdt

open ByteMemory KString Kalloc Nesting FdtTokens ListSplits

def opensNode : Token → Bool
  | .beginNode _ => true
  | _ => false

def nodesIn (tokens : List Token) : ℕ := tokens.countP opensNode

def passesProperty : Token → Bool
  | .prop _ _ => true
  | _ => false

def propertiesIn (tokens : List Token) : ℕ := tokens.countP passesProperty

def blockAt (heap : EternalHeap) (front : List Token) : Addr :=
  heap.currKallocEternalAddress + BitVec.ofNat 64 (front.map tokenCost).sum

/-- The calls of `fdt_InsertChild` on a node. The root is inserted into itself. -/
def childCalls (st : State PropertyItem) (i : ℕ) : ℕ :=
  st.parents.count (some i) + if i = 0 then 1 else 0

def propertyCalls (st : State PropertyItem) (i : ℕ) : ℕ := (st.items.map Prod.fst).count i

section Counting

variable {st st' : State PropertyItem} {i : ℕ}

theorem nesting_counts {tokens : List Token} (h : nesting tokens = some st) :
    st.parents.length = nodesIn tokens ∧ st.items.length = propertiesIn tokens := by
  induction tokens using List.reverseRecOn generalizing st with
  | nil =>
    cases h
    exact ⟨rfl, rfl⟩
  | append_singleton pre t ih =>
    rw [nesting_append_singleton] at h
    obtain ⟨st', hst', hrun⟩ := Option.bind_eq_some_iff.mp h
    obtain ⟨hparents, hitems⟩ := ih hst'
    rw [nodesIn, propertiesIn, List.countP_append, List.countP_append, List.countP_singleton,
      List.countP_singleton, ← nodesIn, ← propertiesIn, ← hparents, ← hitems]
    cases t with
    | beginNode name =>
      have hstep : step List.isEmpty st' (.opening name : FdtEvent) = some st := by
        simpa [Token.event] using hrun
      obtain ⟨-, -, rfl⟩ := step_opening hstep
      simp [opensNode, passesProperty]
    | endNode =>
      have hstep : step List.isEmpty st' (.closing : FdtEvent) = some st := by
        simpa [Token.event] using hrun
      obtain ⟨i, outer, -, rfl⟩ := step_closing hstep
      simp [opensNode, passesProperty]
    | prop nameoff value =>
      have hstep : step List.isEmpty st' (.item ⟨nameoff, BitVec.ofNat 32 value.length,
          (FdtTokens.encode pre).length + 12⟩ : FdtEvent) = some st := by
        simpa [Token.event] using hrun
      obtain ⟨i, outer, -, rfl⟩ := step_item hstep
      simp [opensNode, passesProperty]
    | nop | fdtEnd =>
      obtain rfl : st' = st := by simpa [Token.event] using hrun
      simp [opensNode, passesProperty]

theorem parent_of_token {front back : List Token} {name : List Byte}
    (h : nesting (front ++ .beginNode name :: back) = some st) :
    ∃ st₀ : State PropertyItem, name.isEmpty = st₀.opened.isEmpty ∧
      st.parents[nodesIn front]? = some st₀.opened.head? := by
  have hsnoc : front ++ .beginNode name :: back = (front ++ [.beginNode name]) ++ back := by simp
  rw [hsnoc] at h
  obtain ⟨st', hst'⟩ := nesting_of_append h
  have hext := h
  rw [nesting, events_append, run_append, ← nesting, hst', Option.bind_some] at hext
  rw [nesting_append_singleton] at hst'
  obtain ⟨st₀, hst₀, hrun⟩ := Option.bind_eq_some_iff.mp hst'
  have hstep : step List.isEmpty st₀ (.opening name : FdtEvent) = some st' := by
    simpa [Token.event] using hrun
  obtain ⟨hroot, -, rfl⟩ := step_opening hstep
  obtain ⟨extra, hextra⟩ := (run_extends hext).1
  refine ⟨st₀, hroot, ?_⟩
  rw [← hextra, ← (nesting_counts hst₀).1]
  simp

theorem nesting_extends {pre post : List Token} (h : nesting pre = some st)
    (h' : nesting (pre ++ post) = some st') :
    st.parents <+: st'.parents ∧ st.items <+: st'.items := by
  rw [nesting, events_append, run_append] at h'
  rw [nesting] at h
  rw [h, Option.bind_some] at h'
  exact run_extends h'

theorem childCalls_open (st : State PropertyItem) (i : ℕ) :
    childCalls st.open i = childCalls st i + if st.opened.head? = some i then 1 else 0 := by
  simp only [childCalls, open_parents, List.count_append, List.count_singleton, beq_iff_eq]
  omega

theorem childCalls_new (hst : Coherent st) :
    childCalls st.open st.parents.length = if st.parents = [] then 1 else 0 := by
  have hnone : st.parents.count (some st.parents.length) = 0 := by
    refine List.count_eq_zero.mpr fun hmem => ?_
    obtain ⟨j, hj⟩ := List.mem_iff_getElem?.mp hmem
    have hlt := (List.getElem?_eq_some_iff.mp hj).1
    have hback := hst.parents j _ hj
    omega
  have hhead : st.opened.head? ≠ some st.parents.length :=
    fun h => Nat.lt_irrefl _ (hst.head_lt h)
  rw [childCalls_open, childCalls, hnone, if_neg hhead]
  simp

theorem propertyCalls_new (hst : Coherent st) : propertyCalls st st.parents.length = 0 := by
  refine List.count_eq_zero.mpr fun hmem => ?_
  obtain ⟨it, hit, hfst⟩ := List.mem_map.mp hmem
  have hlt := hst.items it hit
  omega

theorem childCalls_le (h : st.parents <+: st'.parents) (i : ℕ) : childCalls st i ≤ childCalls st' i := by
  have hle := h.sublist.count_le (some i)
  simp only [childCalls]
  omega

theorem propertyCalls_le (h : st.items <+: st'.items) (i : ℕ) :
    propertyCalls st i ≤ propertyCalls st' i :=
  (h.sublist.map Prod.fst).count_le i

end Counting

/-- No insertion has been refused so far: every node has the block that the tokens before it
leave, and all tokens read were below the bound. -/
structure Placed (heap₀ : EternalHeap) (bound : BitVec 32) (pre : List Token) (s : FdtState) :
    Prop where
  position : s.heap.currKallocEternalAddress.toNat =
    heap₀.currKallocEternalAddress.toNat + (pre.map tokenCost).sum
  count : s.created.length = nodesIn pre
  block : ∀ front name back, pre = front ++ .beginNode name :: back →
    s.created[nodesIn front]? = some (blockAt heap₀ front)
  below : ∀ front t back, pre = front ++ t :: back →
    (FdtTokens.encode front).length < bound.toNat

section Placing

variable {heap₀ : EternalHeap} {bound : BitVec 32} {pre : List Token} {t : Token} {s s' : FdtState}

theorem Placed.block_eq (h : Placed heap₀ bound pre s) :
    s.heap.currKallocEternalAddress = blockAt heap₀ pre := by
  apply BitVec.eq_of_toNat_eq
  have hlt := s.heap.currKallocEternalAddress.isLt
  rw [h.position] at hlt ⊢
  rw [blockAt, BitVec.toNat_add, BitVec.toNat_ofNat]
  omega

theorem Placed.token_of_lt (h : Placed heap₀ bound pre s) {i : ℕ} {p : Addr}
    (hp : s.created[i]? = some p) : ∃ front name back, pre = front ++ .beginNode name :: back ∧
      nodesIn front = i ∧ p = blockAt heap₀ front := by
  have hlt : i < nodesIn pre := h.count ▸ (List.getElem?_eq_some_iff.mp hp).1
  obtain ⟨front, a, back, hsplit, ha, hcount⟩ := exists_split_of_countP opensNode hlt
  cases a with
  | beginNode name =>
    have hcount' : nodesIn front = i := hcount
    have hblock := h.block front name back hsplit
    rw [hcount', hp] at hblock
    exact ⟨front, name, back, hsplit, hcount, Option.some.inj hblock⟩
  | endNode | prop | nop | fdtEnd => cases ha

theorem Placed.snoc (h : Placed heap₀ bound pre s)
    (hread : (FdtTokens.encode pre).length < bound.toNat)
    (hheap : s'.heap.currKallocEternalAddress.toNat =
      s.heap.currKallocEternalAddress.toNat + tokenCost t)
    (hcreated : s'.created =
      s.created ++ if opensNode t then [s.heap.currKallocEternalAddress] else []) :
    Placed heap₀ bound (pre ++ [t]) s' where
  position := by simp [hheap, h.position, Nat.add_assoc]
  count := by
    have hcount := h.count
    simp only [nodesIn] at hcount
    rw [hcreated, List.length_append, hcount, nodesIn, List.countP_append, List.countP_singleton]
    split <;> rfl
  block front name back hsplit := by
    rw [hcreated]
    rcases snoc_split hsplit with ⟨rfl, rfl⟩ | ⟨back', hpre⟩
    · rw [← h.count, ← h.block_eq]
      simp [opensNode]
    · have hblock := h.block front name back' hpre
      rw [List.getElem?_append_left (List.getElem?_eq_some_iff.mp hblock).1, hblock]
  below := forall_snoc_split h.below hread

end Placing

def Recorded (strings : BitVec 32) (dt : Addr) (s : FdtState) (a : Addr) (it : PropertyItem) :
    Prop :=
  a.toNat < s.heap.currKallocEternalAddress.toNat ∧
    s.nodeProperties a = ⟨s.fdtInfoBlock + (strings + it.nameoff).setWidth 64,
      dt + BitVec.ofNat 64 it.offset, it.length⟩

def PropertyStored (strings : BitVec 32) (dt : Addr) (s : FdtState) (it : ℕ × PropertyItem) :
    Prop :=
  ∃ q a, s.created[it.1]? = some q ∧ a ∈ (s.nodes q).properties.slots ∧ a ≠ NULL ∧
    a.toNat < s.heap.currKallocEternalAddress.toNat ∧
    s.nodeProperties a = ⟨s.fdtInfoBlock + (strings + it.2.nameoff).setWidth 64,
      dt + BitVec.ofNat 64 it.2.offset, it.2.length⟩

/-- The tables against the nesting, and blocks not taken yet as the heap held them. -/
structure Filled (nodes₀ : Addr → FdtNode) (strings : BitVec 32) (dt : Addr)
    (st : State PropertyItem) (s : FdtState) : Prop where
  fresh : ∀ q ∉ s.created, s.nodes q = nodes₀ q
  children : ∀ (i : ℕ) p, s.created[i]? = some p →
    (s.nodes p).children.free + childCalls st i = (nodes₀ p).children.free
  properties : ∀ (i : ℕ) p, s.created[i]? = some p →
    (s.nodes p).properties.free + propertyCalls st i = (nodes₀ p).properties.free
  child : ∀ (j i : ℕ) p q, st.parents[j]? = some (some i) → s.created[j]? = some p →
    s.created[i]? = some q → p ∈ (s.nodes q).children.slots
  property : ∀ it ∈ st.items, PropertyStored strings dt s it

section Filling

variable {mem : Memory} {infoBlock dt target : Addr} {nodes₀ : Addr → FdtNode}
  {strings : BitVec 32} {st st' : State PropertyItem} {s s' : FdtState} {name : List Byte}

/-- Neither the heap pointer nor the offset nor the stack of open nodes plays a part. -/
theorem Filled.congr (h : Filled nodes₀ strings dt st s) (hparents : st'.parents = st.parents)
    (hitems : st'.items = st.items) (hnodes : s'.nodes = s.nodes) (hcreated : s'.created = s.created)
    (hheap : s'.heap = s.heap) (hrecords : s'.nodeProperties = s.nodeProperties)
    (hinfo : s'.fdtInfoBlock = s.fdtInfoBlock) : Filled nodes₀ strings dt st' s' where
  fresh := by
    rw [hcreated, hnodes]
    exact h.fresh
  children := by
    rw [hcreated, hnodes]
    simpa [childCalls, hparents] using h.children
  properties := by
    rw [hcreated, hnodes]
    simpa [propertyCalls, hitems] using h.properties
  child := by
    rw [hcreated, hnodes, hparents]
    exact h.child
  property it hit := by
    rw [hitems] at hit
    rw [PropertyStored, hcreated, hnodes, hheap, hrecords, hinfo]
    exact h.property it hit

/-- A record stays while blocks are taken behind it. -/
theorem Recorded.mono {a : Addr} {it : PropertyItem} (h : Recorded strings dt s a it)
    (hheap : s.heap.currKallocEternalAddress.toNat ≤ s'.heap.currKallocEternalAddress.toNat)
    (hinfo : s'.fdtInfoBlock = s.fdtInfoBlock)
    (hrecords : ∀ a : Addr, a.toNat < s.heap.currKallocEternalAddress.toNat →
      s'.nodeProperties a = s.nodeProperties a) : Recorded strings dt s' a it :=
  ⟨Nat.lt_of_lt_of_le h.1 hheap, by rw [hrecords a h.1, hinfo, h.2]⟩

/-- A property that is stored stays so while tables and records only grow. -/
theorem PropertyStored.mono {it : ℕ × PropertyItem} (h : PropertyStored strings dt s it)
    (hcreated : s.created <+: s'.created)
    (hslots : ∀ q a, a ≠ NULL → a ∈ (s.nodes q).properties.slots →
      a ∈ (s'.nodes q).properties.slots)
    (hheap : s.heap.currKallocEternalAddress.toNat ≤ s'.heap.currKallocEternalAddress.toNat)
    (hinfo : s'.fdtInfoBlock = s.fdtInfoBlock)
    (hrecords : ∀ a : Addr, a.toNat < s.heap.currKallocEternalAddress.toNat →
      s'.nodeProperties a = s.nodeProperties a) : PropertyStored strings dt s' it := by
  obtain ⟨q, a, hq, ha, hnull, hrecord⟩ := h
  have hrecorded : Recorded strings dt s a it.2 := hrecord
  refine ⟨q, a, ?_, hslots q a hnull ha, hnull, hrecorded.mono hheap hinfo hrecords⟩
  obtain ⟨extra, hextra⟩ := hcreated
  rw [← hextra, List.getElem?_append_left (List.getElem?_eq_some_iff.mp hq).1, hq]

theorem NodeInserted.free (h : NodeInserted s s' target true)
    (hnew : s.heap.currKallocEternalAddress ≠ NULL) (q : Addr) :
    (s.nodes q).children.free = (s'.nodes q).children.free + if q = target then 1 else 0 := by
  by_cases hq : q = target
  · subst hq
    rw [if_pos rfl]
    exact SlotTable.free_insert h.answer hnew
  · rw [if_neg hq, h.children q hq]
    rfl

theorem NodeInserted.mem_slots (h : NodeInserted s s' target true) {p q : Addr} (hp : p ≠ NULL)
    (hmem : p ∈ (s.nodes q).children.slots) : p ∈ (s'.nodes q).children.slots := by
  by_cases hq : q = target
  · subst hq
    exact SlotTable.mem_insert_of_mem h.answer hp hmem
  · rwa [h.children q hq]

/-- Into which node a new one is inserted: the root into itself, any other into the innermost
node open. -/
theorem Tracks.insertion (ht : Tracks infoBlock dt st s) (hst : Coherent st)
    (hroot : name.isEmpty = st.opened.isEmpty) (hfirst : st.opened = [] → st.parents = []) :
    (name = [] ∧ st.opened = [] ∧ st.parents = []) ∨
      (name ≠ [] ∧ st.parents ≠ [] ∧
        ∃ k, st.opened.head? = some k ∧ s.created[k]? = some s.currNode) := by
  cases ho : st.opened with
  | nil =>
    have hname : name = [] := List.isEmpty_iff.mp (by rw [hroot, ho]; rfl)
    exact .inl ⟨hname, rfl, hfirst ho⟩
  | cons k outer =>
    have hname : name ≠ [] := fun hnil => by simp [hnil, ho] at hroot
    have hlt := hst.head_lt (i := k) (by simp [ho])
    have hparents : st.parents ≠ [] := List.ne_nil_of_length_pos (Nat.zero_lt_of_lt hlt)
    exact .inr ⟨hname, hparents, k, by simp, ht.getElem?_currNode hst ho⟩

theorem Tracks.head_iff (ht : Tracks infoBlock dt st s) (hst : Coherent st)
    (hroot : name.isEmpty = st.opened.isEmpty) (hfirst : st.opened = [] → st.parents = [])
    {i : ℕ} {p : Addr} (hp : s.created[i]? = some p) : st.opened.head? = some i ↔
      p = if name = [] then s.heap.currKallocEternalAddress else s.currNode := by
  rcases ht.insertion hst hroot hfirst with ⟨hname, ho, -⟩ | ⟨hname, -, k, hk, hcurr⟩
  · rw [ho, if_pos hname]
    refine iff_of_false (by simp) fun heq => ht.next_notMem (heq ▸ List.mem_of_getElem? hp)
  · rw [hk, if_neg hname]
    constructor
    · intro hki
      obtain rfl : k = i := Option.some.inj hki
      exact Option.some.inj (hp.symm.trans hcurr)
    · rintro rfl
      rw [getElem?_inj ht.nodup hcurr hp]

theorem Tracks.new_iff (ht : Tracks infoBlock dt st s) (hst : Coherent st)
    (hroot : name.isEmpty = st.opened.isEmpty) (hfirst : st.opened = [] → st.parents = []) :
    st.parents = [] ↔ s.heap.currKallocEternalAddress =
      if name = [] then s.heap.currKallocEternalAddress else s.currNode := by
  rcases ht.insertion hst hroot hfirst with ⟨hname, -, hparents⟩ | ⟨hname, hparents, k, -, hcurr⟩
  · simp [hname, hparents]
  · refine iff_of_false hparents fun heq => ht.next_notMem ?_
    rw [heq, if_neg hname]
    exact List.mem_of_getElem? hcurr

theorem NodeInserted.nodes_fresh {b : Bool} (ht : Tracks infoBlock dt st s) (hst : Coherent st)
    (hroot : name.isEmpty = st.opened.isEmpty) (hfirst : st.opened = [] → st.parents = [])
    (hb : NodeBegun s s' name)
    (hi : NodeInserted s s' (if name = [] then s.heap.currKallocEternalAddress else s.currNode) b)
    {q : Addr} (hq : q ∉ s'.created) : q ∉ s.created ∧ s'.nodes q = s.nodes q := by
  rw [hb.created, List.mem_append, List.mem_singleton, not_or] at hq
  refine ⟨hq.1, hi.untouched q hq.2 ?_⟩
  rcases ht.insertion hst hroot hfirst with ⟨hname, -⟩ | ⟨hname, -, k, -, hcurr⟩
  · rw [if_pos hname]
    exact hq.2
  · rw [if_neg hname]
    exact fun heq => hq.1 (heq ▸ List.mem_of_getElem? hcurr)

theorem Filled.begun (hf : Filled nodes₀ strings dt st s) (ht : Tracks infoBlock dt st s)
    (hst : Coherent st) (hroot : name.isEmpty = st.opened.isEmpty)
    (hfirst : st.opened = [] → st.parents = []) (hb : NodeBegun s s' name)
    (hi : NodeInserted s s'
      (if name = [] then s.heap.currKallocEternalAddress else s.currNode) true) :
    Filled nodes₀ strings dt st.open s' := by
  have hcreated := hb.created
  have hnew := hf.fresh _ ht.next_notMem
  have hlen : s.created.length = st.parents.length := ht.length
  constructor
  case fresh =>
    intro q hq
    obtain ⟨hold, hnodes⟩ := hi.nodes_fresh ht hst hroot hfirst hb hq
    rw [hnodes, hf.fresh q hold]
  case children =>
    intro i p hp
    rw [hcreated] at hp
    have hfree := hi.free ht.start p
    rcases getElem?_snoc hp with hp | ⟨rfl, rfl⟩
    · have hcalls := hf.children i p hp
      rw [childCalls_open]
      simp only [ht.head_iff hst hroot hfirst hp]
      omega
    · rw [hlen, childCalls_new hst, ← hnew]
      simp only [ht.new_iff hst hroot hfirst]
      omega
  case properties =>
    intro i p hp
    rw [hcreated] at hp
    rw [hi.properties p]
    rcases getElem?_snoc hp with hp | ⟨rfl, rfl⟩
    · exact hf.properties i p hp
    · have hnone : propertyCalls st.open s.created.length = 0 := hlen ▸ propertyCalls_new hst
      rw [hnone, hnew, Nat.add_zero]
  case child =>
    intro j i p q hj hp hq
    rw [hcreated] at hp hq
    rw [open_parents] at hj
    rcases getElem?_snoc hj with hj | ⟨rfl, hhead⟩
    · have hji := hst.parents j i hj
      have hjlt := (List.getElem?_eq_some_iff.mp hj).1
      rw [List.getElem?_append_left (by omega)] at hp hq
      exact hi.mem_slots (ht.below p (List.mem_of_getElem? hp)).1 (hf.child j i p q hj hp hq)
    · have hlt := hst.head_lt hhead
      rw [← hlen, List.getElem?_concat_length, Option.some.injEq] at hp
      rw [List.getElem?_append_left (by omega)] at hq
      rw [(ht.head_iff hst hroot hfirst hq).mp hhead, ← hp]
      exact SlotTable.mem_insert hi.answer
  case property =>
    intro it hit
    refine (hf.property it hit).mono ⟨_, hcreated.symm⟩ (fun q a _ ha => ?_) ?_ hb.infoBlock
      fun a _ => by rw [hi.nodeProperties]
    · rwa [hi.properties q]
    · rw [hb.heap.curr]
      exact Nat.le_add_right _ _

theorem propertyCalls_item (st : State PropertyItem) (k i : ℕ) (it : PropertyItem) :
    propertyCalls { st with items := st.items ++ [(k, it)] } i =
      propertyCalls st i + if k = i then 1 else 0 := by
  simp [propertyCalls, List.count_append, List.count_singleton]

theorem PropertyInserted.mem_slots {call : InsertPropertyCall}
    (h : PropertyInserted mem s s' call true) {a q : Addr} (ha : a ≠ NULL)
    (hmem : a ∈ (s.nodes q).properties.slots) : a ∈ (s'.nodes q).properties.slots := by
  by_cases hq : q = s.currNode
  · subst hq
    exact SlotTable.mem_insert_of_mem h.answer ha hmem
  · rwa [h.untouched q hq]

theorem PropertyInserted.free {call : InsertPropertyCall} (h : PropertyInserted mem s s' call true)
    (hnew : s.heap.currKallocEternalAddress ≠ NULL) (q : Addr) :
    (s.nodes q).properties.free =
      (s'.nodes q).properties.free + if q = s.currNode then 1 else 0 := by
  by_cases hq : q = s.currNode
  · subst hq
    rw [if_pos rfl]
    exact SlotTable.free_insert h.answer hnew
  · rw [if_neg hq, h.untouched q hq]
    rfl

theorem PropPassed.allocated {call : InsertPropertyCall} (hp : PropPassed s s' call)
    (hi : PropertyInserted mem s s' call true) : Allocated s.heap s'.heap 24 := by
  rcases hp.heap with hheap | hheap
  · have hmoved := congrArg BitVec.toNat (hi.heap rfl)
    rw [hheap, BitVec.toNat_add] at hmoved
    have hlt := s.heap.currKallocEternalAddress.isLt
    simp only [BitVec.toNat_ofNat, Nat.reducePow, Nat.reduceMod] at hmoved
    omega
  · exact hheap

theorem PropertyInserted.nodeProperties_old {call : InsertPropertyCall}
    (hi : PropertyInserted mem s s' call true) {a : Addr}
    (ha : a.toNat < s.heap.currKallocEternalAddress.toNat) :
    s'.nodeProperties a = s.nodeProperties a := by
  have hne : a ≠ s.heap.currKallocEternalAddress := by
    rintro rfl
    exact Nat.lt_irrefl _ ha
  obtain ⟨strings', -, hrecord⟩ := hi.record rfl
  rw [hrecord, Function.update_of_ne hne]

theorem PropertyInserted.recorded_new {it : PropertyItem} (ht : Tracks infoBlock dt st s)
    (hstrings : fdtRead32 mem (infoBlock + offDtStringsField) = .ok strings)
    (hp : PropPassed s s' ⟨s.currNode, it.nameoff, it.length, dt + BitVec.ofNat 64 it.offset⟩)
    (hi : PropertyInserted mem s s'
      ⟨s.currNode, it.nameoff, it.length, dt + BitVec.ofNat 64 it.offset⟩ true) :
    Recorded strings dt s' s.heap.currKallocEternalAddress it := by
  obtain ⟨strings', hread, hrecord⟩ := hi.record rfl
  obtain rfl : strings = strings' := by
    rw [ht.infoBlock, hstrings] at hread
    exact Except.ok.inj hread
  have hheap := (hp.allocated hi).curr
  exact ⟨by omega, by rw [hrecord, Function.update_self, hp.infoBlock]⟩

theorem Tracks.currNode_iff (ht : Tracks infoBlock dt st s) (hst : Coherent st) {k : ℕ}
    {outer : List ℕ} (ho : st.opened = k :: outer) {i : ℕ} {p : Addr}
    (hp : s.created[i]? = some p) : k = i ↔ p = s.currNode := by
  have hcurr := ht.getElem?_currNode hst ho
  constructor
  · rintro rfl
    exact Option.some.inj (hp.symm.trans hcurr)
  · rintro rfl
    exact getElem?_inj ht.nodup hcurr hp

theorem PropertyInserted.nodes_fresh {b : Bool} {call : InsertPropertyCall}
    (ht : Tracks infoBlock dt st s) (hst : Coherent st) {k : ℕ} {outer : List ℕ}
    (ho : st.opened = k :: outer) (hp : PropPassed s s' call)
    (hi : PropertyInserted mem s s' call b) {q : Addr} (hq : q ∉ s'.created) :
    q ∉ s.created ∧ s'.nodes q = s.nodes q := by
  rw [hp.created] at hq
  have hcurr := List.mem_of_getElem? (ht.getElem?_currNode hst ho)
  exact ⟨hq, hi.untouched q fun heq => hq (heq ▸ hcurr)⟩

theorem Filled.passed (hf : Filled nodes₀ strings dt st s) (ht : Tracks infoBlock dt st s)
    (hst : Coherent st) {k : ℕ} {outer : List ℕ} {it : PropertyItem} (ho : st.opened = k :: outer)
    (hstrings : fdtRead32 mem (infoBlock + offDtStringsField) = .ok strings)
    (hp : PropPassed s s' ⟨s.currNode, it.nameoff, it.length, dt + BitVec.ofNat 64 it.offset⟩)
    (hi : PropertyInserted mem s s'
      ⟨s.currNode, it.nameoff, it.length, dt + BitVec.ofNat 64 it.offset⟩ true) :
    Filled nodes₀ strings dt { st with items := st.items ++ [(k, it)] } s' := by
  have hcurr := ht.getElem?_currNode hst ho
  have hcreated := hp.created
  have hheap := (hp.allocated hi).curr
  constructor
  case fresh =>
    intro q hq
    obtain ⟨hold, hnodes⟩ := hi.nodes_fresh ht hst ho hp hq
    rw [hnodes, hf.fresh q hold]
  case children =>
    intro i p hp
    rw [hcreated] at hp
    rw [hi.children p]
    exact hf.children i p hp
  case properties =>
    intro i p hp
    rw [hcreated] at hp
    have hfree := hi.free ht.start p
    have hcalls := hf.properties i p hp
    rw [propertyCalls_item]
    simp only [ht.currNode_iff hst ho hp]
    omega
  case child =>
    intro j i p q hj hp hq
    rw [hcreated] at hp hq
    rw [hi.children q]
    exact hf.child j i p q hj hp hq
  case property =>
    intro entry hentry
    rcases List.mem_append.mp hentry with hentry | hentry
    · refine (hf.property entry hentry).mono (hcreated ▸ List.prefix_rfl)
        (fun q a hnull ha => hi.mem_slots hnull ha) (by omega) hp.infoBlock fun a hlt => ?_
      exact hi.nodeProperties_old hlt
    · obtain rfl := List.mem_singleton.mp hentry
      exact ⟨s.currNode, s.heap.currKallocEternalAddress, hcreated ▸ hcurr,
        SlotTable.mem_insert hi.answer, ht.start, hi.recorded_new ht hstrings hp⟩

section Refusals

variable {heap₀ : EternalHeap} {bound : BitVec 32} {pre : List Token}

theorem Filled.child_refused (hf : Filled nodes₀ strings dt st s) (hplaced : Placed heap₀ bound pre s)
    (ht : Tracks infoBlock dt st s) (hst : Coherent st) (hroot : name.isEmpty = st.opened.isEmpty)
    (hfirst : st.opened = [] → st.parents = [])
    (hi : NodeInserted s s'
      (if name = [] then s.heap.currKallocEternalAddress else s.currNode) false) :
    ∃ front parent back, pre ++ [.beginNode name] = front ++ .beginNode parent :: back ∧
      (nodes₀ (blockAt heap₀ front)).children.free < childCalls st.open (nodesIn front) := by
  have hfull := SlotTable.insert_eq_none hi.answer
  have hlen : nodesIn pre = st.parents.length := hplaced.count.symm.trans ht.length
  rcases ht.insertion hst hroot hfirst with ⟨hname, -, hparents⟩ | ⟨hname, -, k, hk, hcurr⟩
  · refine ⟨pre, name, [], rfl, ?_⟩
    rw [if_pos hname, hf.fresh _ ht.next_notMem, hplaced.block_eq] at hfull
    rw [hfull, hlen, childCalls_new hst, if_pos hparents]
    exact Nat.one_pos
  · obtain ⟨front, parent, back, rfl, hfront, hblock⟩ := hplaced.token_of_lt hcurr
    refine ⟨front, parent, back ++ [.beginNode name], by simp, ?_⟩
    have hcalls := hf.children k _ hcurr
    rw [if_neg hname] at hfull
    rw [← hblock, hfront, childCalls_open, if_pos hk]
    omega

theorem Filled.property_refused (hf : Filled nodes₀ strings dt st s)
    (hplaced : Placed heap₀ bound pre s) (ht : Tracks infoBlock dt st s) (hst : Coherent st)
    {k : ℕ} {outer : List ℕ} {it : PropertyItem} (ho : st.opened = k :: outer)
    {call : InsertPropertyCall} (hi : PropertyInserted mem s s' call false) :
    ∃ front parent back, pre = front ++ .beginNode parent :: back ∧
      (nodes₀ (blockAt heap₀ front)).properties.free <
        propertyCalls { st with items := st.items ++ [(k, it)] } (nodesIn front) := by
  have hfull := SlotTable.insert_eq_none hi.answer
  have hcurr := ht.getElem?_currNode hst ho
  obtain ⟨front, parent, back, rfl, hfront, hblock⟩ := hplaced.token_of_lt hcurr
  refine ⟨front, parent, back, rfl, ?_⟩
  have hcalls := hf.properties k _ hcurr
  rw [← hblock, hfront, propertyCalls_item, if_pos rfl]
  omega

end Refusals

end Filling

end SysRv.Fdt
