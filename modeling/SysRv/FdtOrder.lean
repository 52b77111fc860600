import SysRv.FdtTables
import SysRv.FdtTree
import SysRv.NestingOrder

/-!
# The tables in the order of the tokens

On a zeroed heap every table is filled from the front. Whatever insertions are refused, the
tables of a node hold its children and its properties in the order of their tokens, as many as
there are slots; the children of the root come behind the root itself.
-/

namespace SysRv.Fdt

open ByteMemory KString Kalloc Nesting FdtTokens ListSplits

def nodeNames (tokens : List Token) : List (List Byte) := openings (tokens.flatMap outline)

/-- What the table of a node lists: the children, behind the node itself if it is the root. -/
def childEntries (st : State PropertyItem) (s : FdtState) (i : ℕ) (p : Addr) : List Addr :=
  (if i = 0 then [p] else []) ++ childrenIn s.created st.parents i

/-- The tables against the nesting, on a heap that held zeros. -/
structure Ordered (mem : Memory) (strings : BitVec 32) (dt : Addr) (names : List (List Byte))
    (st : State PropertyItem) (s : FdtState) : Prop where
  fresh : ∀ q ∉ s.created, s.nodes q = .zeroed
  named : List.Forall₂ (fun p name => IsString mem (s.nodes p).name name) s.created names
  children : ∀ (i : ℕ) p, s.created[i]? = some p →
    (s.nodes p).children.ListsBy (· = ·) (childEntries st s i p)
  properties : ∀ (i : ℕ) p, s.created[i]? = some p →
    (s.nodes p).properties.ListsBy (Recorded strings dt s) (itemsIn st.items i)

section Ordering

variable {mem : Memory} {infoBlock dt : Addr} {strings : BitVec 32} {names : List (List Byte)}
  {st st' : State PropertyItem} {s s' : FdtState} {name : List Byte} {b : Bool}

/-- Neither the offset nor the stack of open nodes plays a part. -/
theorem Ordered.congr (h : Ordered mem strings dt names st s) (hparents : st'.parents = st.parents)
    (hitems : st'.items = st.items) (hnodes : s'.nodes = s.nodes) (hcreated : s'.created = s.created)
    (hheap : s'.heap = s.heap) (hrecords : s'.nodeProperties = s.nodeProperties)
    (hinfo : s'.fdtInfoBlock = s.fdtInfoBlock) : Ordered mem strings dt names st' s' where
  fresh := by
    rw [hcreated, hnodes]
    exact h.fresh
  named := by
    rw [hcreated, hnodes]
    exact h.named
  children i p hp := by
    rw [hcreated] at hp
    rw [hnodes, childEntries, hparents, hcreated]
    exact h.children i p hp
  properties i p hp := by
    rw [hcreated] at hp
    rw [hnodes, hitems]
    refine (h.properties i p hp).mono fun a it hrecord => ?_
    rwa [Recorded, hheap, hrecords, hinfo]

theorem NodeInserted.listsBy {target p : Addr} {l : List Addr} (hi : NodeInserted s s' target b)
    (hn : NodeNamed dt s s' b) (hstart : s.heap.currKallocEternalAddress ≠ NULL)
    (h : (s.nodes p).children.ListsBy (· = ·) l) : (s'.nodes p).children.ListsBy (· = ·)
      (l ++ if p = target then [s.heap.currKallocEternalAddress] else []) := by
  by_cases hp : p = target
  · subst hp
    rw [if_pos rfl]
    exact h.insert hstart (fun _ => rfl) hi.answer fun hno => by rw [hn.refused hno]
  · rw [if_neg hp, List.append_nil, hi.children p hp]
    exact h

theorem Ordered.begun (ho : Ordered mem strings dt names st s) (ht : Tracks infoBlock dt st s)
    (hst : Coherent st) (hroot : name.isEmpty = st.opened.isEmpty)
    (hfirst : st.opened = [] → st.parents = []) (hname : IsString mem (dt + s.currOffset) name)
    (hb : NodeBegun s s' name)
    (hi : NodeInserted s s'
      (if name = [] then s.heap.currKallocEternalAddress else s.currNode) b)
    (hn : NodeNamed dt s s' b) : Ordered mem strings dt (names ++ [name]) st.open s' := by
  have hcreated := hb.created
  have hlen : s.created.length = st.parents.length := ht.length
  have hnew := ho.fresh _ ht.next_notMem
  have hold : ∀ p ∈ s.created, p ≠ s.heap.currKallocEternalAddress :=
    fun p hp heq => ht.next_notMem (heq ▸ hp)
  constructor
  case fresh =>
    intro q hq
    obtain ⟨hunused, hnodes⟩ := hi.nodes_fresh ht hst hroot hfirst hb hq
    rw [hnodes, ho.fresh q hunused]
  case named =>
    rw [hcreated]
    refine List.rel_append ?_ (.cons ?_ .nil)
    · refine ((List.forall₂_and_left _ _).mpr ⟨hold, ho.named⟩).imp fun p name' hp => ?_
      rw [hn.name_old p hp.1]
      exact hp.2
    · rw [hn.name_new]
      exact hname
  case children =>
    intro i p hp
    rw [hcreated] at hp
    rw [childEntries, hcreated, open_parents, childrenIn_concat hlen]
    rcases getElem?_snoc hp with hp | ⟨rfl, rfl⟩
    · rw [if_congr (ht.head_iff hst hroot hfirst hp) rfl rfl, ← List.append_assoc]
      exact hi.listsBy hn ht.start (ho.children i p hp)
    · have hhead : st.opened.head? ≠ some s.created.length :=
        fun h => Nat.lt_irrefl _ (hlen ▸ hst.head_lt h)
      have hnone : childrenIn s.created st.parents s.created.length = [] := by
        rw [hlen]
        exact hst.childrenIn_new s.created
      have hfirst' := List.length_eq_zero_iff.trans (ht.new_iff hst hroot hfirst)
      have hempty : SlotTable.ListsBy (· = ·)
          (s.nodes s.heap.currKallocEternalAddress).children ([] : List Addr) :=
        hnew ▸ SlotTable.listsBy_empty
      rw [hnone, if_neg hhead, List.append_nil, List.append_nil, hlen, if_congr hfirst' rfl rfl]
      exact hi.listsBy hn ht.start hempty
  case properties =>
    intro i p hp
    rw [hcreated] at hp
    rw [hi.properties p, open_items]
    rcases getElem?_snoc hp with hp | ⟨rfl, rfl⟩
    · refine (ho.properties i p hp).mono fun a it hrecord => hrecord.mono ?_ hb.infoBlock ?_
      · rw [hb.heap.curr]
        exact Nat.le_add_right _ _
      · exact fun q _ => by rw [hi.nodeProperties]
    · rw [hlen, hst.itemsIn_new, hnew]
      exact SlotTable.listsBy_empty

theorem PropertyInserted.recorded {call : InsertPropertyCall} {a : Addr} {it : PropertyItem}
    (hi : PropertyInserted mem s s' call b) (hn : PropertyNamed s s' b) (hp : PropPassed s s' call)
    (h : Recorded strings dt s a it) : Recorded strings dt s' a it := by
  refine h.mono ?_ hp.infoBlock fun q hq => ?_
  · rcases hp.heap with hsame | hmoved
    · rw [hsame]
    · rw [hmoved.curr]
      exact Nat.le_add_right _ _
  · cases b with
    | true => exact hi.nodeProperties_old hq
    | false => rw [(hn.refused rfl).2]

/-- What tables of properties list behind an insertion: that of the current node has the new
property too. -/
theorem PropertyInserted.listsBy {call : InsertPropertyCall} {R : Addr → PropertyItem → Prop}
    {p : Addr} {l : List PropertyItem} {it : PropertyItem} (hi : PropertyInserted mem s s' call b)
    (hn : PropertyNamed s s' b) (hstart : s.heap.currKallocEternalAddress ≠ NULL)
    (hnew : b = true → R s.heap.currKallocEternalAddress it)
    (h : (s.nodes p).properties.ListsBy R l) :
    (s'.nodes p).properties.ListsBy R (l ++ if p = s.currNode then [it] else []) := by
  by_cases hp : p = s.currNode
  · subst hp
    rw [if_pos rfl]
    exact h.insert hstart hnew hi.answer fun hno => by rw [(hn.refused hno).1]
  · rw [if_neg hp, List.append_nil, hi.untouched p hp]
    exact h

theorem Ordered.passed (ho : Ordered mem strings dt names st s) (ht : Tracks infoBlock dt st s)
    (hst : Coherent st) {k : ℕ} {outer : List ℕ} {it : PropertyItem}
    (hopened : st.opened = k :: outer)
    (hstrings : fdtRead32 mem (infoBlock + offDtStringsField) = .ok strings)
    (hp : PropPassed s s' ⟨s.currNode, it.nameoff, it.length, dt + BitVec.ofNat 64 it.offset⟩)
    (hi : PropertyInserted mem s s'
      ⟨s.currNode, it.nameoff, it.length, dt + BitVec.ofNat 64 it.offset⟩ b)
    (hn : PropertyNamed s s' b) :
    Ordered mem strings dt names { st with items := st.items ++ [(k, it)] } s' := by
  have hcreated := hp.created
  constructor
  case fresh =>
    intro q hq
    obtain ⟨hunused, hnodes⟩ := hi.nodes_fresh ht hst hopened hp hq
    rw [hnodes, ho.fresh q hunused]
  case named =>
    rw [hcreated]
    refine ho.named.imp fun p name' hname => ?_
    rwa [hn.name p]
  case children =>
    intro i p hp
    rw [hcreated] at hp
    rw [childEntries, hcreated, hi.children p]
    exact ho.children i p hp
  case properties =>
    intro i p hnode
    rw [hcreated] at hnode
    have hlists := (ho.properties i p hnode).mono fun a e hrecord => hi.recorded hn hp hrecord
    rw [itemsIn_concat, if_congr (ht.currNode_iff hst hopened hnode) rfl rfl]
    refine hi.listsBy hn ht.start (fun hyes => ?_) hlists
    subst hyes
    exact hi.recorded_new ht hstrings hp

end Ordering

/-- Only tokens below the bound have been read, and the tables are in their order. -/
structure OrderedBehind (mem : Memory) (strings : BitVec 32) (dt : Addr) (bound : BitVec 32)
    (pre : List Token) (s : FdtState) : Prop where
  below : ∀ front t back, pre = front ++ t :: back → (FdtTokens.encode front).length < bound.toNat
  ordered : ∃ st, nesting pre = some st ∧ Ordered mem strings dt (nodeNames pre) st s

section Iteration

variable {mem : Memory} {infoBlock dt : Addr} {nodes₀ : Addr → FdtNode} {bound strings : BitVec 32}
  {body pre post : List Token} {t : Token} {H : List Token → EternalHeap → Prop} {s s' : FdtState}

theorem nodeNames_snoc (pre : List Token) (t : Token) :
    nodeNames (pre ++ [t]) = nodeNames pre ++ openings (outline t) := by
  simp [nodeNames]

theorem OrderedBehind.pastWord {st : State PropertyItem}
    (h : OrderedBehind mem strings dt bound pre s) (hst : nesting pre = some st) :
    Ordered mem strings dt (nodeNames pre) st (pastWord s) := by
  obtain ⟨st', hst', hordered⟩ := h.ordered
  obtain rfl : st = st' := Option.some.inj (hst.symm.trans hst')
  exact hordered.congr rfl rfl rfl rfl rfl rfl rfl

theorem ordered_token (hl : LoadedTokens mem infoBlock dt bound body)
    (hstrings : fdtRead32 mem (infoBlock + offDtStringsField) = .ok strings)
    (hsplit : body = pre ++ t :: post) (hvalid : t.Valid) (hend : t ≠ .fdtEnd)
    (hat : At infoBlock dt nodes₀ pre s) (hexact : Exact pre s)
    (hcond : s.currOffset.toNat < bound.toNat) (hnest : (nesting (pre ++ [t])).isSome)
    (hsum : s.heap.currKallocEternalAddress.toNat + tokenCost t < 2 ^ 64)
    (ho : OrderedBehind mem strings dt bound pre s)
    (hrun : parseToken mem dt (tokenWord t) (pastWord s) = .ok (.running s')) :
    OrderedBehind mem strings dt bound (pre ++ [t]) s' := by
  obtain ⟨st, st', hst, hst', hpassed⟩ :=
    tokenPassed hl hsplit hvalid hend hat hexact hnest hsum hrun
  obtain ⟨hcoherent, htracks⟩ := tracks_pastWord hat hst
  have hordered := ho.pastWord hst
  rw [hexact] at hcond
  refine ⟨forall_snoc_split ho.below hcond, st', hst', ?_⟩
  rw [nodeNames_snoc]
  cases hpassed with
  | beginNode b hroot hfirst hname hbegun hanswer =>
    exact hordered.begun htracks hcoherent hroot hfirst hname hbegun
      (beginNodeAnswer_inserted hname hanswer) (beginNodeAnswer_named hname hanswer)
  | prop b hopened hitem hpassed hanswer hinserted hnamed =>
    rw [outline, openings, openings, List.append_nil]
    exact hordered.passed htracks hcoherent hopened hstrings hpassed hinserted hnamed
  | endNode hopened =>
    rw [outline, openings, openings, List.append_nil]
    exact hordered.congr rfl rfl rfl rfl rfl rfl rfl
  | nop =>
    rw [outline, openings, List.append_nil]
    exact hordered

theorem ordered_step (hl : Loaded mem infoBlock dt bound body) (hwf : WellFormed body)
    (hH : HeapRule H) (hstrings : fdtRead32 mem (infoBlock + offDtStringsField) = .ok strings)
    (hs : Stands infoBlock dt nodes₀ body H pre post s)
    (ho : OrderedBehind mem strings dt bound pre s)
    (hrun : parseIteration mem dt s = .ok (.running s')) :
    ∃ pre' post', Stands infoBlock dt nodes₀ body H pre' post' s' ∧
      OrderedBehind mem strings dt bound pre' s' := by
  rcases hs.running hl hwf hH hrun with ⟨rfl, hs'⟩ | ⟨t, rest, rfl, hexact, hcond, hparse, hs'⟩
  · obtain ⟨st, hst, -⟩ := ho.ordered
    exact ⟨pre, post, hs', ho.below, st, hst, ho.pastWord hst⟩
  · obtain ⟨hvalid, hend, hnest⟩ := hs.next hwf
    exact ⟨pre ++ [t], rest, hs', ordered_token hl.tokens hstrings hs.split hvalid hend hs.tracked
      hexact hcond hnest (hH.next t rest _ hs.heap) ho hparse⟩

end Iteration

/-- What the parser leaves of a block: the tables are in the order of those tokens that stand
below the bound. -/
structure LeftOrdered (mem : Memory) (infoBlock dt : Addr) (strings bound : BitVec 32)
    (body pre : List Token) (st : State PropertyItem) (s : FdtState) : Prop where
  split : ∃ post, body = pre ++ post
  below : ∀ front t back, pre = front ++ t :: back → (FdtTokens.encode front).length < bound.toNat
  read : ∀ front t back, body = front ++ t :: back →
    (FdtTokens.encode front).length < bound.toNat → ∃ back', pre = front ++ t :: back'
  nesting : nesting pre = some st
  ordered : Ordered mem strings dt (nodeNames pre) st s
  tracks : Tracks infoBlock dt st s
  rootNode : s.rootNode = s.created.headD NULL

section Left

variable {mem : Memory} {fdtPtr dt : Addr} {header : BlobHeader} {body : List Token}
  {heap : EternalHeap} {strings bound : BitVec 32} {H : List Token → EternalHeap → Prop}
  {s : FdtState} {n : ℕ}

theorem leftOrdered_of_done (hl : Loaded mem fdtPtr dt bound body) (hwf : WellFormed body)
    (hH : HeapRule H) (hstrings : fdtRead32 mem (fdtPtr + offDtStringsField) = .ok strings)
    (hstart : heap.currKallocEternalAddress ≠ NULL) (hheap : H body heap)
    (hrun : parseLoop mem dt n (.entered fdtPtr heap (fun _ => .zeroed) fun _ => .zeroed) =
      .ok (.done s)) : ∃ pre st, LeftOrdered mem fdtPtr dt strings bound body pre st s := by
  obtain ⟨m, t, hrunning, hdone⟩ := parseLoop_eq_done hrun
  have hentered : OrderedBehind mem strings dt bound []
      (.entered fdtPtr heap (fun _ => .zeroed) fun _ => .zeroed) := by
    refine ⟨fun front t back h => by simp at h, .initial, rfl, fun _ _ => rfl, .nil, ?_, ?_⟩
    all_goals simp [FdtState.entered, FdtState.initial]
  have hstep : ∀ u v, (∃ pre post, Stands fdtPtr dt (fun _ => .zeroed) body H pre post u ∧
      OrderedBehind mem strings dt bound pre u) →
      parseIteration mem dt u = .ok (.running v) →
      ∃ pre post, Stands fdtPtr dt (fun _ => .zeroed) body H pre post v ∧
        OrderedBehind mem strings dt bound pre v := by
    rintro u v ⟨pre, post, hs, ho⟩ hiteration
    exact ordered_step hl hwf hH hstrings hs ho hiteration
  obtain ⟨pre, post, hs, ho⟩ := parseLoop_invariant hstep
    ⟨[], body, stands_entered _ _ hstart hheap, hentered⟩ hrunning
  obtain ⟨st, hst, hordered⟩ := ho.ordered
  obtain ⟨st', hst', htracks⟩ := hs.tracked.tracks
  obtain rfl : st = st' := Option.some.inj (hst.symm.trans hst')
  have hread : ∀ front u back, body = front ++ u :: back →
      (FdtTokens.encode front).length < bound.toNat → ∃ back', pre = front ++ u :: back' :=
    fun _ _ _ => hs.read_of_done hl hwf hH hdone
  have hrooted := hs.tracked.rooted
  rcases hs.done hl hwf hH hdone with ⟨rfl, -⟩ | ⟨rfl, -⟩
  · exact ⟨pre, st, ⟨post, hs.split⟩, ho.below, hread, hst, hordered, htracks, hrooted.rootNode⟩
  · exact ⟨pre, st, ⟨post, hs.split⟩, ho.below, hread, hst, ho.pastWord hst, htracks.setOffset _,
      hrooted.rootNode⟩

end Left

end SysRv.Fdt
