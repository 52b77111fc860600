import SysRv.FdtStack
import SysRv.FdtTables

/-!
# Nodes and properties that get lost

`srv_fdt_Init` says yes whatever the insertions answered. So nothing is lost silently exactly
where no insertion is refused and no token is left out: in every node the slots that the heap
held free are enough for the calls that the tokens make, and the bound is above the last
token that inserts something.
-/

namespace SysRv.Fdt

open ByteMemory KString Kalloc Nesting FdtTokens ListSplits

/-- The tables in a state of the loop that has refused nothing so far. -/
structure FilledAt (heap₀ : EternalHeap) (nodes₀ : Addr → FdtNode) (strings : BitVec 32)
    (dt : Addr) (bound : BitVec 32) (pre : List Token) (s : FdtState) : Prop where
  placed : Placed heap₀ bound pre s
  filled : ∃ st, nesting pre = some st ∧ Filled nodes₀ strings dt st s

def TooFew (heap₀ : EternalHeap) (nodes₀ : Addr → FdtNode) (pre : List Token) : Prop :=
  ∃ front parent back st, pre = front ++ .beginNode parent :: back ∧ nesting pre = some st ∧
    ((nodes₀ (blockAt heap₀ front)).children.free < childCalls st (nodesIn front) ∨
      (nodes₀ (blockAt heap₀ front)).properties.free < propertyCalls st (nodesIn front))

section Iteration

variable {mem : Memory} {infoBlock dt : Addr} {nodes₀ : Addr → FdtNode} {bound strings : BitVec 32}
  {body pre post : List Token} {t : Token} {heap₀ : EternalHeap} {s s' : FdtState}

theorem FilledAt.pastWord (h : FilledAt heap₀ nodes₀ strings dt bound pre s) :
    FilledAt heap₀ nodes₀ strings dt bound pre (pastWord s) := by
  obtain ⟨st, hst, hfilled⟩ := h.filled
  exact ⟨⟨h.placed.position, h.placed.count, h.placed.block, h.placed.below⟩, st, hst,
    hfilled.congr rfl rfl rfl rfl rfl rfl rfl⟩

theorem refusedAt_of_answer (hl : LoadedTokens mem infoBlock dt bound body)
    (hsplit : body = pre ++ t :: post) (hat : At infoBlock dt nodes₀ pre s) (hexact : Exact pre s)
    (hcond : s.currOffset.toNat < bound.toNat)
    (h : (tokenWord t = fdtBeginNode ∧ ∃ s', beginNodeAnswer mem dt (pastWord s) = .ok (s', false)) ∨
      tokenWord t = fdtProp ∧ ∃ s', propAnswer mem dt (pastWord s) = .ok (s', false)) :
    RefusedAt mem dt s := by
  exact ⟨bound, tokenWord t, hl.readBound hat.fdtInfoBlock, (lt_setWidth_iff _).mpr hcond,
    fdtRead32_of_holds (hl.at_token hsplit hexact).1, h⟩

theorem filled_token (hl : LoadedTokens mem infoBlock dt bound body)
    (hstrings : fdtRead32 mem (infoBlock + offDtStringsField) = .ok strings)
    (hsplit : body = pre ++ t :: post) (hvalid : t.Valid) (hend : t ≠ .fdtEnd)
    (hat : At infoBlock dt nodes₀ pre s) (hexact : Exact pre s)
    (hcond : s.currOffset.toNat < bound.toNat) (hnest : (nesting (pre ++ [t])).isSome)
    (hsum : s.heap.currKallocEternalAddress.toNat + tokenCost t < 2 ^ 64)
    (hf : FilledAt heap₀ nodes₀ strings dt bound pre s) (hyes : ¬ RefusedAt mem dt s)
    (hrun : parseToken mem dt (tokenWord t) (pastWord s) = .ok (.running s')) :
    FilledAt heap₀ nodes₀ strings dt bound (pre ++ [t]) s' := by
  have hread : (FdtTokens.encode pre).length < bound.toNat := by
    rw [Exact] at hexact
    omega
  have hrefused := refusedAt_of_answer hl hsplit hat hexact hcond
  obtain ⟨st, st', hst, hst', hpassed⟩ :=
    tokenPassed hl hsplit hvalid hend hat hexact hnest hsum hrun
  obtain ⟨st₀, hst₀, hfilled⟩ := hf.pastWord.filled
  obtain rfl : st = st₀ := Option.some.inj (hst.symm.trans hst₀)
  obtain ⟨hcoherent, htracks⟩ := tracks_pastWord hat hst
  cases hpassed with
  | beginNode b hroot hfirst hname hbegun hanswer =>
    cases b with
    | false => exact absurd (hrefused (.inl ⟨rfl, _, hanswer⟩)) hyes
    | true =>
      exact ⟨hf.placed.snoc hread hbegun.heap.curr hbegun.created, _, hst', hfilled.begun htracks
        hcoherent hroot hfirst hbegun (beginNodeAnswer_inserted hname hanswer)⟩
  | prop b hopened hitem hpassed hanswer hinserted hnamed =>
    cases b with
    | false => exact absurd (hrefused (.inr ⟨rfl, _, hanswer⟩)) hyes
    | true =>
      exact ⟨hf.placed.snoc hread (hpassed.allocated hinserted).curr
          (by simp [hpassed.created, opensNode]), _, hst',
        hfilled.passed htracks hcoherent hopened hstrings hpassed hinserted⟩
  | endNode hopened =>
    exact ⟨hf.placed.snoc hread rfl (by simp [opensNode]), _, hst',
      hfilled.congr rfl rfl rfl rfl rfl rfl rfl⟩
  | nop => exact ⟨hf.placed.snoc hread rfl (by simp [opensNode]), _, hst', hfilled⟩

theorem filled_step (hl : Loaded mem infoBlock dt bound body) (hwf : WellFormed body)
    (hstrings : fdtRead32 mem (infoBlock + offDtStringsField) = .ok strings)
    (hs : Stands infoBlock dt nodes₀ body Suffices pre post s)
    (hf : FilledAt heap₀ nodes₀ strings dt bound pre s) (hyes : ¬ RefusedAt mem dt s)
    (hrun : parseIteration mem dt s = .ok (.running s')) :
    ∃ pre' post', Stands infoBlock dt nodes₀ body Suffices pre' post' s' ∧
      FilledAt heap₀ nodes₀ strings dt bound pre' s' := by
  rcases hs.running hl hwf suffices_rule hrun with ⟨rfl, hs'⟩ |
    ⟨t, rest, rfl, hexact, hcond, hparse, hs'⟩
  · exact ⟨pre, post, hs', hf.pastWord⟩
  · obtain ⟨hvalid, hend, hnest⟩ := hs.next hwf
    exact ⟨pre ++ [t], rest, hs', filled_token hl.tokens hstrings hs.split hvalid hend hs.tracked
      hexact hcond hnest (suffices_rule.next t rest _ hs.heap) hf hyes hparse⟩

/-- Only a token of the block can be refused: neither a terminator word nor `FDT_END` inserts
anything. -/
theorem refusedAt_token (hl : Loaded mem infoBlock dt bound body)
    (hs : Stands infoBlock dt nodes₀ body Suffices pre post s) (hno : RefusedAt mem dt s) :
    ∃ t rest, post = t :: rest ∧ Exact pre s ∧ (FdtTokens.encode pre).length < bound.toNat ∧
      ((tokenWord t = fdtBeginNode ∧ ∃ s', beginNodeAnswer mem dt (pastWord s) = .ok (s', false)) ∨
        tokenWord t = fdtProp ∧ ∃ s', propAnswer mem dt (pastWord s) = .ok (s', false)) := by
  obtain ⟨w, token, hw, hlt, htoken, hanswer⟩ := hno
  obtain rfl : bound = w := by
    rw [hl.tokens.readBound hs.tracked.fdtInfoBlock] at hw
    exact Except.ok.inj hw
  have hword : ∀ {w : BitVec 32}, Holds mem (dt + s.currOffset) (be32 w) → w = token := by
    intro w hholds
    rw [fdtRead32_of_holds hholds] at htoken
    exact Except.ok.inj htoken
  rcases hs.offset with hexact | hshort
  swap
  · obtain rfl := hword (hl.tokens.at_short hs.split hshort)
    rcases hanswer with ⟨heq, -⟩ | ⟨heq, -⟩ <;> cases heq
  cases post with
  | nil =>
    obtain rfl : body = pre := by simpa using hs.split
    obtain rfl := hword (hl.at_end hexact)
    rcases hanswer with ⟨heq, -⟩ | ⟨heq, -⟩ <;> cases heq
  | cons t rest =>
    obtain rfl := hword (hl.tokens.at_token hs.split hexact).1
    refine ⟨t, rest, rfl, hexact, ?_, hanswer⟩
    rw [lt_setWidth_iff, hexact] at hlt
    exact hlt

/-- A refusal in a node that has too few free slots for the calls up to the token read. -/
theorem refusedAt_tooFew (hl : Loaded mem infoBlock dt bound body) (hwf : WellFormed body)
    (hs : Stands infoBlock dt nodes₀ body Suffices pre post s)
    (hf : FilledAt heap₀ nodes₀ strings dt bound pre s) (hno : RefusedAt mem dt s) :
    ∃ t rest, post = t :: rest ∧ (FdtTokens.encode pre).length < bound.toNat ∧
      TooFew heap₀ nodes₀ (pre ++ [t]) := by
  obtain ⟨t, rest, rfl, hexact, hread, hanswer⟩ := refusedAt_token hl hs hno
  obtain ⟨hvalid, -, hnest⟩ := hs.next hwf
  obtain ⟨st₀, hst₀, hfilled⟩ := hf.pastWord.filled
  have hplaced := hf.pastWord.placed
  have hsum := suffices_rule.next t rest _ hs.heap
  refine ⟨t, rest, rfl, hread, ?_⟩
  rcases hanswer with ⟨hword, s', hb⟩ | ⟨hword, s', hb⟩
  · cases t with
    | endNode | prop | nop | fdtEnd => cases hword
    | beginNode name =>
      obtain ⟨st, htracks, hcoherent, hst, hst', hroot, hfirst, hname, -⟩ :=
        beginNode_spec hl.tokens hs.split hvalid hs.tracked hexact hnest hsum
      obtain rfl : st = st₀ := Option.some.inj (hst.symm.trans hst₀)
      obtain ⟨front, parent, back, hsplit, hfew⟩ := hfilled.child_refused hplaced
        (htracks.setOffset _) hcoherent hroot hfirst (beginNodeAnswer_inserted hname hb)
      exact ⟨front, parent, back, _, hsplit, hst', .inl hfew⟩
  · cases t with
    | beginNode | endNode | nop | fdtEnd => cases hword
    | prop nameoff value =>
      obtain ⟨st, i, outer, htracks, hcoherent, hst, ho, hst', hwords, -⟩ :=
        prop_spec hl.tokens hs.split hs.tracked hexact hnest hsum
      obtain rfl : st = st₀ := Option.some.inj (hst.symm.trans hst₀)
      obtain ⟨front, parent, back, hsplit, hfew⟩ := hfilled.property_refused hplaced
        (htracks.setOffset _) hcoherent ho (propAnswer_inserted hwords hb)
      exact ⟨front, parent, back ++ [.prop nameoff value], _, by rw [hsplit]; simp, hst', .inr hfew⟩

theorem refused_of_iteration {t : FdtState} (hrun : parseIteration mem dt s = .ok (.running t))
    (h : Refused mem dt t) : Refused mem dt s := by
  obtain ⟨n, u, hu, hno⟩ := h
  exact ⟨n + 1, u, by rw [parseLoop_succ, hrun]; exact hu, hno⟩

def StandsFilled (infoBlock dt : Addr) (heap₀ : EternalHeap) (nodes₀ : Addr → FdtNode)
    (strings bound : BitVec 32) (body : List Token) (s : FdtState) : Prop :=
  ∃ pre post, Stands infoBlock dt nodes₀ body Suffices pre post s ∧
    FilledAt heap₀ nodes₀ strings dt bound pre s

theorem filled_run (hl : Loaded mem infoBlock dt bound body) (hwf : WellFormed body)
    (hstrings : fdtRead32 mem (infoBlock + offDtStringsField) = .ok strings)
    (hs : StandsFilled infoBlock dt heap₀ nodes₀ strings bound body s) (hyes : ¬ Refused mem dt s)
    {n : ℕ} (hrun : parseLoop mem dt n s = .ok (.running s')) :
    StandsFilled infoBlock dt heap₀ nodes₀ strings bound body s' := by
  refine (parseLoop_invariant
    (P := fun s => StandsFilled infoBlock dt heap₀ nodes₀ strings bound body s ∧
      ¬ Refused mem dt s) ?_ ⟨hs, hyes⟩ hrun).1
  rintro s t ⟨⟨pre, post, hs, hf⟩, hyes⟩ ht
  exact ⟨filled_step hl hwf hstrings hs hf (fun hno => hyes ⟨0, s, rfl, hno⟩) ht,
    fun hno => hyes (refused_of_iteration ht hno)⟩

/-- Where no node has too few free slots for the tokens below the bound, nothing is refused. -/
theorem not_refused (hl : Loaded mem infoBlock dt bound body) (hwf : WellFormed body)
    (hstrings : fdtRead32 mem (infoBlock + offDtStringsField) = .ok strings)
    (hs : StandsFilled infoBlock dt heap₀ nodes₀ strings bound body s)
    (henough : ∀ front t back, body = front ++ t :: back →
      (FdtTokens.encode front).length < bound.toNat → ¬ TooFew heap₀ nodes₀ (front ++ [t])) :
    ¬ Refused mem dt s := by
  have hyes : ∀ {pre post s}, Stands infoBlock dt nodes₀ body Suffices pre post s →
      FilledAt heap₀ nodes₀ strings dt bound pre s → ¬ RefusedAt mem dt s := by
    intro pre post s hs hf hno
    obtain ⟨t, rest, rfl, hread, hfew⟩ := refusedAt_tooFew hl hwf hs hf hno
    exact henough pre t rest hs.split hread hfew
  rintro ⟨n, u, hrun, hno⟩
  obtain ⟨pre, post, hu, hf⟩ : StandsFilled infoBlock dt heap₀ nodes₀ strings bound body u := by
    refine parseLoop_invariant ?_ hs hrun
    rintro s t ⟨pre, post, hs, hf⟩ ht
    exact filled_step hl hwf hstrings hs hf (hyes hs hf) ht
  exact hyes hu hf hno

end Iteration

/-- Every node but the root is in the table of its parent. -/
def NodesKept (st : State PropertyItem) (s : FdtState) : Prop :=
  ∀ j i : ℕ, st.parents[j]? = some (some i) → ∃ p q, s.created[j]? = some p ∧
    s.created[i]? = some q ∧ p ∈ (s.nodes q).children.slots

/-- Every property has been passed on, and the table of its node has its record. -/
def PropertiesKept (strings : BitVec 32) (dt : Addr) (st : State PropertyItem) (s : FdtState) :
    Prop :=
  s.insertPropertyCalls = st.items.map (callOf s.created dt) ∧
    ∀ it ∈ st.items, PropertyStored strings dt s it

/-- `srv_fdt_Init` says yes only where every node and every property of the blob is in its
table, and no where some insertion is refused. -/
def NothingLost (mem : Memory) (fdtPtr : Addr) (header : BlobHeader) (body : List Token)
    (heap : EternalHeap) (nodes : Addr → FdtNode) (nodeProperties : Addr → FdtNodeProperty) : Prop :=
  ∀ st, nesting body = some st → ∀ n s b,
    srvFdtInit mem n (.initial heap nodes nodeProperties) fdtPtr = .ok (s, b) →
      (b = true → NodesKept st s ∧
        PropertiesKept header.offDtStrings (header.dtStart fdtPtr) st s) ∧
      (Refused mem (header.dtStart fdtPtr) (.entered fdtPtr heap nodes nodeProperties) → b = false)

def Inserts : Token → Prop
  | .beginNode name => name ≠ []
  | .prop _ _ => True
  | _ => False

/-- The bound is above every token that inserts something, and every node that is read has free
slots for all its children and properties. -/
structure TablesSuffice (heap : EternalHeap) (nodes : Addr → FdtNode) (bound : BitVec 32)
    (body : List Token) (st : State PropertyItem) : Prop where
  covered : ∀ front t back, body = front ++ t :: back → Inserts t →
    (FdtTokens.encode front).length < bound.toNat
  children : ∀ front name back, body = front ++ .beginNode name :: back →
    (FdtTokens.encode front).length < bound.toNat →
    childCalls st (nodesIn front) ≤ (nodes (blockAt heap front)).children.free
  properties : ∀ front name back, body = front ++ .beginNode name :: back →
    (FdtTokens.encode front).length < bound.toNat →
    propertyCalls st (nodesIn front) ≤ (nodes (blockAt heap front)).properties.free

section Lost

variable {mem : Memory} {fdtPtr dt : Addr} {header : BlobHeader} {body : List Token}
  {heap : EternalHeap} {nodes : Addr → FdtNode} {nodeProperties : Addr → FdtNodeProperty}
  {strings bound : BitVec 32} {st : State PropertyItem} {s : FdtState}

theorem TablesSuffice.enough (h : TablesSuffice heap nodes bound body st)
    (hst : nesting body = some st) (front : List Token) (t : Token) (back : List Token)
    (hsplit : body = front ++ t :: back) (hread : (FdtTokens.encode front).length < bound.toNat) :
    ¬ TooFew heap nodes (front ++ [t]) := by
  rintro ⟨opening, parent, rest, st', hopening, hst', hfew⟩
  have hbody : body = (front ++ [t]) ++ back := by simp [hsplit]
  obtain ⟨hparents, hitems⟩ := nesting_extends hst' (hbody ▸ hst)
  have hopens : body = opening ++ .beginNode parent :: (rest ++ back) := by
    rw [hbody, hopening]
    simp
  have hbelow : (FdtTokens.encode opening).length < bound.toNat := by
    rcases snoc_split hopening with ⟨rfl, -⟩ | ⟨rest', hfront⟩
    · exact hread
    · have hle := encode_prefix_length hfront
      omega
  rcases hfew with hfew | hfew
  · have hle := childCalls_le hparents (nodesIn opening)
    have hsuffice := h.children opening parent _ hopens hbelow
    omega
  · have hle := propertyCalls_le hitems (nodesIn opening)
    have hsuffice := h.properties opening parent _ hopens hbelow
    omega

/-- The state that the loop leaves, where it has refused nothing: the tables are filled for some
tokens, which are all that stand below the bound. -/
structure LeftAt (heap : EternalHeap) (nodes : Addr → FdtNode) (strings : BitVec 32) (dt : Addr)
    (bound : BitVec 32) (body pre : List Token) (s : FdtState) : Prop where
  split : ∃ post, body = pre ++ post
  placed : Placed heap bound pre s
  filled : ∃ st, nesting pre = some st ∧ Filled nodes strings dt st s ∧
    (∃ infoBlock, Tracks infoBlock dt st s)
  read : ∀ front t back, body = front ++ t :: back →
    (FdtTokens.encode front).length < bound.toNat → ∃ back', pre = front ++ t :: back'

theorem filledAt_entered (heap : EternalHeap) (nodes : Addr → FdtNode)
    (nodeProperties : Addr → FdtNodeProperty) : FilledAt heap nodes strings dt bound []
      (.entered fdtPtr heap nodes nodeProperties) := by
  refine ⟨⟨rfl, rfl, ?_, ?_⟩, .initial, rfl, fun _ _ => rfl, ?_, ?_, ?_, ?_⟩
  all_goals simp [FdtState.entered, FdtState.initial, State.initial]

theorem standsFilled_entered (hstart : heap.currKallocEternalAddress ≠ NULL)
    (hheap : Suffices body heap) : StandsFilled fdtPtr dt heap nodes strings bound body
      (.entered fdtPtr heap nodes nodeProperties) :=
  ⟨[], body, stands_entered nodes nodeProperties hstart hheap,
    filledAt_entered heap nodes nodeProperties⟩

theorem leftAt_of_done (hl : Loaded mem fdtPtr dt bound body) (hwf : WellFormed body)
    (hstrings : fdtRead32 mem (fdtPtr + offDtStringsField) = .ok strings)
    (hstart : heap.currKallocEternalAddress ≠ NULL) (hheap : Suffices body heap)
    (hyes : ¬ Refused mem dt (.entered fdtPtr heap nodes nodeProperties)) {n : ℕ}
    (hrun : parseLoop mem dt n (.entered fdtPtr heap nodes nodeProperties) = .ok (.done s)) :
    ∃ pre, LeftAt heap nodes strings dt bound body pre s := by
  obtain ⟨m, t, hrunning, hdone⟩ := parseLoop_eq_done hrun
  obtain ⟨pre, post, hs, hf⟩ := filled_run hl hwf hstrings (standsFilled_entered hstart hheap) hyes
    hrunning
  obtain ⟨st, hst, hfilled⟩ := hf.filled
  obtain ⟨st', hst', htracks⟩ := hs.tracked.tracks
  obtain rfl : st = st' := Option.some.inj (hst.symm.trans hst')
  have hread : ∀ front u back, body = front ++ u :: back →
      (FdtTokens.encode front).length < bound.toNat → ∃ back', pre = front ++ u :: back' :=
    fun _ _ _ => hs.read_of_done hl hwf suffices_rule hdone
  rcases hs.done hl hwf suffices_rule hdone with ⟨rfl, -⟩ | ⟨rfl, -⟩
  · exact ⟨pre, ⟨post, hs.split⟩, hf.placed, ⟨st, hst, hfilled, _, htracks⟩, hread⟩
  · exact ⟨pre, ⟨post, hs.split⟩, hf.pastWord.placed,
      ⟨st, hst, hfilled.congr rfl rfl rfl rfl rfl rfl rfl, _, htracks.setOffset _⟩, hread⟩

theorem NodesKept.lt_of_parent (h : NodesKept st s) {stPre : State PropertyItem} {infoBlock : Addr}
    (htracks : Tracks infoBlock dt stPre s) {j i : ℕ} (hj : st.parents[j]? = some (some i)) :
    j < stPre.parents.length := by
  obtain ⟨p, -, hp, -⟩ := h j i hj
  rw [← htracks.length]
  exact (List.getElem?_eq_some_iff.mp hp).1

theorem PropertiesKept.items_eq (h : PropertiesKept strings dt st s) {stPre : State PropertyItem}
    {infoBlock : Addr} (htracks : Tracks infoBlock dt stPre s) (hitems : stPre.items <+: st.items) :
    st.items = stPre.items := by
  have hcalls := congrArg List.length (htracks.calls.symm.trans h.1)
  rw [List.length_map, List.length_map] at hcalls
  exact (hitems.eq_of_length hcalls).symm

/-- Nodes behind those read are children of none of them. -/
theorem childCalls_eq_of_kept {stPre : State PropertyItem} (hparents : stPre.parents <+: st.parents)
    (hinner : ∀ j i : ℕ, st.parents[j]? = some (some i) → j < stPre.parents.length) (i : ℕ) :
    childCalls st i = childCalls stPre i := by
  obtain ⟨extra, hextra⟩ := hparents
  have hnone : extra.count (some i) = 0 := by
    refine List.count_eq_zero.mpr fun hmem => ?_
    obtain ⟨j, hj⟩ := List.mem_iff_getElem?.mp hmem
    have hlong := hinner (stPre.parents.length + j) i (by
      rw [← hextra, List.getElem?_append_right (Nat.le_add_right ..), Nat.add_sub_cancel_left, hj])
    omega
  rw [childCalls, childCalls, ← hextra, List.count_append, hnone, Nat.add_zero]

/-- A token behind those read that inserts something leaves its mark in the nesting, and what
is marked there is not kept. -/
theorem not_inserts_behind {front back rest pre : List Token} {t : Token} {stPre : State PropertyItem}
    (hst : nesting body = some st) (hstPre : nesting pre = some stPre)
    (hsplit : body = front ++ t :: back) (hfront : front = pre ++ rest)
    (hinner : ∀ j i : ℕ, st.parents[j]? = some (some i) → j < stPre.parents.length)
    (hsame : st.items = stPre.items) : ¬ Inserts t := by
  intro hinserts
  cases t with
  | beginNode name =>
    obtain ⟨stFront, hroot, hparent⟩ := parent_of_token (hsplit ▸ hst)
    cases ho : stFront.opened with
    | nil => exact hinserts (List.isEmpty_iff.mp (by rw [hroot, ho]; rfl))
    | cons k outer =>
      rw [ho, List.head?_cons] at hparent
      have hlt := hinner _ k hparent
      rw [(nesting_counts hstPre).1, hfront, nodesIn, nodesIn, List.countP_append] at hlt
      omega
  | prop nameoff value =>
    have hcount := (nesting_counts hst).2
    have hcountPre := (nesting_counts hstPre).2
    rw [propertiesIn, hsplit, hfront, List.countP_append, List.countP_append,
      List.countP_cons_of_pos (by rfl)] at hcount
    rw [propertiesIn] at hcountPre
    rw [hsame] at hcount
    omega
  | endNode | nop | fdtEnd => exact hinserts

theorem tablesSuffice_of_kept {pre : List Token} (hleft : LeftAt heap nodes strings dt bound body pre s)
    (hst : nesting body = some st) (hnodes : NodesKept st s)
    (hproperties : PropertiesKept strings dt st s) : TablesSuffice heap nodes bound body st := by
  obtain ⟨stPre, hstPre, hfilled, infoBlock, htracks⟩ := hleft.filled
  obtain ⟨post, hbody⟩ := hleft.split
  obtain ⟨hparents, hitems⟩ := nesting_extends hstPre (hbody ▸ hst)
  have hinner := fun j i hj => hnodes.lt_of_parent htracks (j := j) (i := i) hj
  have hsame := hproperties.items_eq htracks hitems
  constructor
  case covered =>
    intro front t back hsplit hinserts
    rcases split_cases (hbody.symm.trans hsplit) with ⟨back', hpre⟩ | ⟨rest, hfront⟩
    · exact hleft.placed.below front t back' hpre
    · exact absurd hinserts (not_inserts_behind hst hstPre hsplit hfront hinner hsame)
  case children =>
    intro front name back hsplit hlt
    obtain ⟨back', hpre⟩ := hleft.read front _ back hsplit hlt
    have hcalls := hfilled.children _ _ (hleft.placed.block front name back' hpre)
    have hsum := childCalls_eq_of_kept hparents hinner (nodesIn front)
    omega
  case properties =>
    intro front name back hsplit hlt
    obtain ⟨back', hpre⟩ := hleft.read front _ back hsplit hlt
    have hcalls := hfilled.properties _ _ (hleft.placed.block front name back' hpre)
    have hsum : propertyCalls st (nodesIn front) = propertyCalls stPre (nodesIn front) := by
      rw [propertyCalls, propertyCalls, hsame]
    omega

theorem TablesSuffice.opening_read {pre : List Token} (h : TablesSuffice heap nodes bound body st)
    (hleft : LeftAt heap nodes strings dt bound body pre s) (hst : nesting body = some st) {j i : ℕ}
    (hj : st.parents[j]? = some (some i)) :
    ∃ front name back, pre = front ++ .beginNode name :: back ∧ nodesIn front = j := by
  have hcount := (nesting_counts hst).1
  have hlt := (List.getElem?_eq_some_iff.mp hj).1
  obtain ⟨front, a, back, hsplit, ha, hfront⟩ :=
    exists_split_of_countP opensNode (show j < nodesIn body by omega)
  cases a with
  | endNode | prop | nop | fdtEnd => cases ha
  | beginNode name =>
    have hfront' : nodesIn front = j := hfront
    have hinserts : Inserts (.beginNode name) := by
      obtain ⟨stFront, hroot, hparent⟩ := parent_of_token (hsplit ▸ hst)
      rw [hfront', hj, Option.some.injEq] at hparent
      rintro rfl
      rw [List.isEmpty_iff.mp hroot.symm] at hparent
      cases hparent
    obtain ⟨back', hpre⟩ := hleft.read front _ back hsplit (h.covered front _ back hsplit hinserts)
    exact ⟨front, name, back', hpre, hfront'⟩

theorem TablesSuffice.items_eq {pre : List Token} (h : TablesSuffice heap nodes bound body st)
    (hleft : LeftAt heap nodes strings dt bound body pre s) (hst : nesting body = some st)
    {stPre : State PropertyItem} (hstPre : nesting pre = some stPre)
    (hitems : stPre.items <+: st.items) : stPre.items = st.items := by
  refine hitems.eq_of_length (Nat.le_antisymm hitems.length_le ?_)
  by_contra hlt
  rw [(nesting_counts hst).2, (nesting_counts hstPre).2, Nat.not_le] at hlt
  obtain ⟨front, a, back, hsplit, ha, hfront⟩ := exists_split_of_countP passesProperty hlt
  cases a with
  | beginNode | endNode | nop | fdtEnd => cases ha
  | prop nameoff value =>
    obtain ⟨back', hpre⟩ := hleft.read front _ back hsplit (h.covered front _ back hsplit trivial)
    rw [propertiesIn, hpre, List.countP_append, List.countP_cons_of_pos (by rfl)] at hfront
    omega

theorem kept_of_tablesSuffice {pre : List Token} (hleft : LeftAt heap nodes strings dt bound body pre s)
    (hst : nesting body = some st) (h : TablesSuffice heap nodes bound body st) :
    NodesKept st s ∧ PropertiesKept strings dt st s := by
  obtain ⟨stPre, hstPre, hfilled, infoBlock, htracks⟩ := hleft.filled
  obtain ⟨post, hbody⟩ := hleft.split
  obtain ⟨⟨extra, hextra⟩, hitems⟩ := nesting_extends hstPre (hbody ▸ hst)
  have hcoherent : Coherent st := coherent_run hst coherent_initial
  constructor
  · intro j i hj
    obtain ⟨front, name, back, hpre, rfl⟩ := h.opening_read hleft hst hj
    have hp := hleft.placed.block front name back hpre
    have hlt := (List.getElem?_eq_some_iff.mp hp).1
    have hq := List.getElem?_eq_getElem ((hcoherent.parents _ i hj).trans hlt)
    have hjPre : stPre.parents[nodesIn front]? = some (some i) := by
      rwa [← hextra, List.getElem?_append_left (htracks.length ▸ hlt)] at hj
    exact ⟨_, _, hp, hq, hfilled.child _ i _ _ hjPre hp hq⟩
  · rw [PropertiesKept, ← h.items_eq hleft hst hstPre hitems]
    exact ⟨htracks.calls, hfilled.property⟩

theorem NothingLost.tablesSuffice (h : NothingLost mem fdtPtr header body heap nodes nodeProperties)
    (hb : Blob mem fdtPtr header body) (hmagic : Holds mem fdtPtr (be32 fdtMagic))
    (hwf : WellFormed body) (hsmall : (FdtTokens.encode body).length < 2 ^ 32)
    (hstart : heap.currKallocEternalAddress ≠ NULL) (hheap : Suffices body heap)
    (hst : nesting body = some st) :
    TablesSuffice heap nodes (bswap32 header.sizeDtStruct) body st := by
  obtain ⟨n, s, hinit⟩ := hb.srvFdtInit_true hmagic hwf hsmall hstart hheap
  obtain ⟨hkept, hrefused⟩ := h st hst n s true hinit
  obtain ⟨hnodes, hproperties⟩ := hkept rfl
  obtain ⟨pre, hleft⟩ := leftAt_of_done (hb.loaded hsmall) hwf
    (fdtRead32_of_holds hb.offDtStrings) hstart hheap (fun hno => nomatch hrefused hno)
    (hb.parseLoop_of_init hmagic hinit).2
  exact tablesSuffice_of_kept hleft hst hnodes hproperties

/-- Nothing is lost silently if and only if nothing is refused and nothing is left out, which
the free slots of the nodes, the nesting and the bound of the loop decide. -/
theorem srvFdtInit_nothingLost_iff (hb : Blob mem fdtPtr header body)
    (hmagic : Holds mem fdtPtr (be32 fdtMagic)) (hwf : WellFormed body)
    (hsmall : (FdtTokens.encode body).length < 2 ^ 32)
    (hstart : heap.currKallocEternalAddress ≠ NULL) (hheap : Suffices body heap)
    (hst : nesting body = some st) :
    NothingLost mem fdtPtr header body heap nodes nodeProperties ↔
      TablesSuffice heap nodes (bswap32 header.sizeDtStruct) body st := by
  refine ⟨fun h => h.tablesSuffice hb hmagic hwf hsmall hstart hheap hst, fun h => ?_⟩
  have hl := hb.loaded hsmall
  have hstrings := fdtRead32_of_holds hb.offDtStrings
  have hyes : ¬ Refused mem (header.dtStart fdtPtr) (.entered fdtPtr heap nodes nodeProperties) :=
    not_refused hl hwf hstrings (standsFilled_entered hstart hheap) (h.enough hst)
  intro st' hst' n s b hinit
  obtain rfl : st = st' := Option.some.inj (hst.symm.trans hst')
  obtain ⟨rfl, hrun⟩ := hb.parseLoop_of_init hmagic hinit
  obtain ⟨pre, hleft⟩ := leftAt_of_done hl hwf hstrings hstart hheap hyes hrun
  exact ⟨fun _ => kept_of_tablesSuffice hleft hst h, fun hno => absurd hno hyes⟩

theorem free_zeroed_children : FdtNode.zeroed.children.free = fdtMaxChildren := by decide

theorem free_zeroed_properties : FdtNode.zeroed.properties.free = fdtMaxProperties := by decide

/-- On a zeroed heap a node has room for 16 properties and 16 children, of which the root is
one of its own. -/
theorem tablesSuffice_zeroed (hbound : (FdtTokens.encode body).length < bound.toNat)
    (hchildren : ∀ i < nodesIn body, childCalls st i ≤ fdtMaxChildren)
    (hproperties : ∀ i < nodesIn body, propertyCalls st i ≤ fdtMaxProperties) :
    TablesSuffice heap (fun _ => .zeroed) bound body st := by
  have hlt : ∀ {front name back}, body = front ++ .beginNode name :: back →
      nodesIn front < nodesIn body := by
    intro front name back hsplit
    rw [hsplit, nodesIn, nodesIn, List.countP_append, List.countP_cons_of_pos (by rfl)]
    omega
  constructor
  case covered =>
    intro front t back hsplit _
    exact Nat.lt_of_le_of_lt (encode_prefix_length hsplit) hbound
  case children =>
    intro front name back hsplit _
    rw [free_zeroed_children]
    exact hchildren _ (hlt hsplit)
  case properties =>
    intro front name back hsplit _
    rw [free_zeroed_properties]
    exact hproperties _ (hlt hsplit)

theorem srvFdtInit_nothingLost_sample :
    NothingLost sampleMemory 0x82200000#64 (blobHeader sampleBody) sampleBody sampleHeap
      (fun _ => .zeroed) fun _ => .zeroed := by
  have hb : Blob sampleMemory 0x82200000#64 (blobHeader sampleBody) sampleBody :=
    blob_blobBytes (by decide)
  exact (srvFdtInit_nothingLost_iff hb (holds_at_base blobBytes_magic (by decide))
    sampleBody_wellFormed (by decide) (by decide) sampleHeap_suffices rfl).mpr
    (tablesSuffice_zeroed (by decide) (by decide) (by decide))

def wideBody : List Token :=
  .beginNode [] :: ((List.range 16).flatMap fun k =>
    [.beginNode [BitVec.ofNat 8 (0x61 + k)], .endNode]) ++ [.endNode]

def wideMemory : Memory := .ofBytes 0x82200000#64 (blobBytes wideBody [])

/-- The root takes a slot of its own table, so the last of its 16 nodes is refused, and the
answer is yes. -/
theorem srvFdtInit_loses_last_child :
    (∃ n s, srvFdtInit wideMemory n (.zeroed sampleHeap) 0x82200000#64 = .ok (s, true)) ∧
      ¬ NothingLost wideMemory 0x82200000#64 (blobHeader wideBody) wideBody sampleHeap
        (fun _ => .zeroed) fun _ => .zeroed := by
  have hb : Blob wideMemory 0x82200000#64 (blobHeader wideBody) wideBody :=
    blob_blobBytes (by decide +kernel)
  have hmagic : Holds wideMemory 0x82200000#64 (be32 fdtMagic) :=
    holds_at_base blobBytes_magic (by decide +kernel)
  have hwf : WellFormed wideBody :=
    ⟨by decide +kernel, by decide +kernel, _, rfl, rfl, by decide⟩
  have hheap : Suffices wideBody sampleHeap := by
    simp only [Suffices]
    decide +kernel
  refine ⟨hb.srvFdtInit_true hmagic hwf (by decide +kernel) (by decide) hheap, fun h => ?_⟩
  have hsuffice := h.tablesSuffice hb hmagic hwf (by decide +kernel) (by decide) hheap rfl
  have hroot := hsuffice.children [] [] _ rfl (by decide +kernel)
  exact absurd hroot (by decide +kernel)

end Lost

end SysRv.Fdt
