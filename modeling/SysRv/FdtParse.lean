import SysRv.FdtSpec
import SysRv.FdtTokens

/-!
# The parser follows the nesting of the structure block

The stack of open nodes exists only as parent pointers. `Tracks` relates the nesting after
some tokens to the state of the loop: node number `i` is the `i`-th node created, the
current node is the innermost one open, parents are as the nesting has them, and the
properties passed on are its items. The loop reads a name without its terminator, so where
the terminator fills a word of its own it takes that word for a token and skips it.
-/

namespace SysRv.Fdt

open ByteMemory KString Kalloc Nesting FdtTokens

def nodeAt (created : List Addr) (number : Option ℕ) : Addr :=
  (number.bind fun i => created[i]?).getD NULL

@[simp] theorem nodeAt_none (created : List Addr) : nodeAt created none = NULL := rfl

theorem nodeAt_of_getElem? {created : List Addr} {i : ℕ} {p : Addr} (h : created[i]? = some p) :
    nodeAt created (some i) = p := by simp [nodeAt, h]

theorem nodeAt_append {created : List Addr} {number : Option ℕ}
    (h : ∀ i, number = some i → i < created.length) (new : List Addr) :
    nodeAt (created ++ new) number = nodeAt created number := by
  cases number with
  | none => rfl
  | some i => simp [nodeAt, List.getElem?_append_left (h i rfl)]

theorem nodeAt_mem {created : List Addr} {i : ℕ} (h : i < created.length) :
    nodeAt created (some i) ∈ created := by
  simp [nodeAt, h]

def callOf (created : List Addr) (dt : Addr) (it : ℕ × PropertyItem) : InsertPropertyCall :=
  ⟨nodeAt created (some it.1), it.2.nameoff, it.2.length, dt + BitVec.ofNat 64 it.2.offset⟩

structure Tracks (infoBlock dt : Addr) (st : State PropertyItem) (s : FdtState) : Prop where
  infoBlock : s.fdtInfoBlock = infoBlock
  length : s.created.length = st.parents.length
  nodup : s.created.Nodup
  below : ∀ p ∈ s.created, p ≠ NULL ∧ p.toNat < s.heap.currKallocEternalAddress.toNat
  start : s.heap.currKallocEternalAddress ≠ NULL
  currNode : s.currNode = nodeAt s.created st.opened.head?
  parent : ∀ (i : ℕ) p, s.created[i]? = some p →
    (s.nodes p).parent = nodeAt s.created st.parents[i]?.join
  calls : s.insertPropertyCalls = st.items.map (callOf s.created dt)

section Tracking

variable {infoBlock dt : Addr} {st : State PropertyItem} {s s' : FdtState}

theorem Tracks.setOffset (h : Tracks infoBlock dt st s) (o : BitVec 64) :
    Tracks infoBlock dt st { s with currOffset := o } :=
  ⟨h.infoBlock, h.length, h.nodup, h.below, h.start, h.currNode, h.parent, h.calls⟩

theorem Tracks.getElem?_currNode (h : Tracks infoBlock dt st s) (hst : Coherent st) {i : ℕ}
    {outer : List ℕ} (ho : st.opened = i :: outer) : s.created[i]? = some s.currNode := by
  have hlt : i < s.created.length := h.length ▸ hst.head_lt (by simp [ho])
  rw [h.currNode, ho, List.head?_cons, nodeAt_of_getElem? (List.getElem?_eq_getElem hlt)]
  exact List.getElem?_eq_getElem hlt

theorem Tracks.currNode_ne (h : Tracks infoBlock dt st s) (hst : Coherent st)
    (hopen : st.opened ≠ []) : s.currNode ≠ NULL := by
  cases ho : st.opened with
  | nil => exact absurd ho hopen
  | cons i outer =>
    have hlt : i < s.created.length := h.length ▸ hst.head_lt (by simp [ho])
    rw [h.currNode, ho]
    exact (h.below _ (nodeAt_mem hlt)).1

theorem Tracks.next_notMem (h : Tracks infoBlock dt st s) :
    s.heap.currKallocEternalAddress ∉ s.created :=
  fun hmem => Nat.lt_irrefl _ (h.below _ hmem).2

theorem tracks_heap {heap heap' : EternalHeap} {size : ℕ} {p : Addr} (ha : Allocated heap heap' size)
    (h : p ≠ NULL ∧ p.toNat < heap.currKallocEternalAddress.toNat) :
    p ≠ NULL ∧ p.toNat < heap'.currKallocEternalAddress.toNat := by
  refine ⟨h.1, ?_⟩
  rw [ha.curr]
  omega

theorem allocated_ne_null {heap heap' : EternalHeap} {size : ℕ} (ha : Allocated heap heap' size)
    (h : heap.currKallocEternalAddress ≠ NULL) : heap'.currKallocEternalAddress ≠ NULL := by
  intro hnull
  have hcurr := ha.curr
  rw [hnull] at hcurr
  have hpos : heap.currKallocEternalAddress.toNat ≠ 0 := fun hz => h (BitVec.eq_of_toNat_eq hz)
  have hzero : NULL.toNat = 0 := rfl
  omega

/-- A new node takes the next number, inside the innermost node open. -/
theorem Tracks.begun (h : Tracks infoBlock dt st s) (hst : Coherent st) {name : List Byte}
    (hroot : name.isEmpty = st.opened.isEmpty) (hb : NodeBegun s s' name) :
    Tracks infoBlock dt st.open s' where
  infoBlock := hb.infoBlock.trans h.infoBlock
  length := by rw [hb.created, open_parents, List.length_append, List.length_append, h.length]; rfl
  nodup := by
    rw [hb.created]
    exact List.nodup_append.mpr ⟨h.nodup, List.nodup_singleton _, fun p hp q hq hpq =>
      h.next_notMem (by rw [← List.mem_singleton.mp hq, ← hpq]; exact hp)⟩
  below p hp := by
    rw [hb.created] at hp
    rcases List.mem_append.mp hp with hp | hp
    · exact tracks_heap hb.heap (h.below p hp)
    · rw [List.mem_singleton.mp hp]
      exact ⟨h.start, by rw [hb.heap.curr]; omega⟩
  start := allocated_ne_null hb.heap h.start
  currNode := by
    rw [hb.currNode, hb.created, open_opened, List.head?_cons, ← h.length]
    exact (nodeAt_of_getElem? (by simp)).symm
  parent i p hp := by
    rw [hb.created] at hp ⊢
    rw [open_parents]
    rcases ListSplits.getElem?_snoc hp with hp | ⟨rfl, rfl⟩
    · have hlt := (List.getElem?_eq_some_iff.mp hp).1
      have hne : p ≠ s.heap.currKallocEternalAddress := fun heq =>
        h.next_notMem (heq ▸ List.mem_of_getElem? hp)
      rw [hb.parent_old p hne, h.parent i p hp, List.getElem?_append_left (h.length ▸ hlt),
        nodeAt_append]
      intro j hj
      have hjlt := hst.parents i j (Option.join_eq_some_iff.mp hj)
      omega
    · rw [hb.parent_new, h.length, List.getElem?_concat_length, Option.join_some,
        nodeAt_append fun j hj => h.length ▸ hst.head_lt hj]
      by_cases hopen : st.opened = []
      · have hnil : name = [] := List.isEmpty_iff.mp (by rw [hroot, hopen]; rfl)
        simp [hnil, hopen]
      · have hne : name ≠ [] := fun hnil => hopen (List.isEmpty_iff.mp (by rw [← hroot, hnil]; rfl))
        rw [if_neg hne, h.currNode]
  calls := by
    rw [hb.calls, h.calls]
    apply List.map_congr_left
    intro it hit
    have hlt : it.1 < s.created.length := h.length ▸ hst.items it hit
    rw [callOf, callOf, hb.created, nodeAt_append (fun i hi => Option.some.inj hi ▸ hlt)]

theorem Tracks.ended (h : Tracks infoBlock dt st s) (hst : Coherent st) {i : ℕ} {outer : List ℕ}
    (ho : st.opened = i :: outer) :
    Tracks infoBlock dt { st with opened := outer }
      { s with currNode := (s.nodes s.currNode).parent } where
  infoBlock := h.infoBlock
  length := h.length
  nodup := h.nodup
  below := h.below
  start := h.start
  currNode := by
    have hchain := hst.chained
    rw [ho] at hchain
    rw [h.parent i s.currNode (h.getElem?_currNode hst ho), hchain.1]
    rfl
  parent := h.parent
  calls := h.calls

theorem Tracks.passed (h : Tracks infoBlock dt st s) {i : ℕ} {outer : List ℕ} {it : PropertyItem}
    (ho : st.opened = i :: outer)
    (hp : PropPassed s s' ⟨s.currNode, it.nameoff, it.length, dt + BitVec.ofNat 64 it.offset⟩) :
    Tracks infoBlock dt { st with items := st.items ++ [(i, it)] } s' where
  infoBlock := hp.infoBlock.trans h.infoBlock
  length := hp.created ▸ h.length
  nodup := hp.created ▸ h.nodup
  below p hmem := by
    rw [hp.created] at hmem
    rcases hp.heap with hheap | hheap
    · rw [hheap]
      exact h.below p hmem
    · exact tracks_heap hheap (h.below p hmem)
  start := by
    rcases hp.heap with hheap | hheap
    · rw [hheap]
      exact h.start
    · exact allocated_ne_null hheap h.start
  currNode := by rw [hp.currNode, hp.created, h.currNode]
  parent j p hj := by
    rw [hp.created] at hj ⊢
    rw [hp.links.parent, h.parent j p hj]
  calls := by
    rw [hp.calls, hp.created, h.calls, List.map_append]
    have hcurr := h.currNode
    rw [ho, List.head?_cons] at hcurr
    simp [callOf, hcurr]

end Tracking

/-- The root is the first node created. While there is none, the child slots hold what the
heap held; a root whose first slot was free is its own first child. -/
structure Rooted (nodes₀ : Addr → FdtNode) (s : FdtState) : Prop where
  rootNode : s.rootNode = s.created.headD NULL
  before : s.created = [] → ∀ q, (s.nodes q).children = (nodes₀ q).children
  loop : (∀ q, (nodes₀ q).children.slot 0 = NULL) → ∀ p, s.created.head? = some p →
    p ≠ NULL ∧ (s.nodes p).children.slot 0 = p

section Roots

variable {nodes₀ : Addr → FdtNode} {infoBlock dt : Addr} {st : State PropertyItem} {s s' : FdtState}

theorem Rooted.moved (h : Rooted nodes₀ s) (o : BitVec 64) (p : Addr) :
    Rooted nodes₀ { s with currOffset := o, currNode := p } := ⟨h.rootNode, h.before, h.loop⟩

theorem Rooted.begun (h : Rooted nodes₀ s) (ht : Tracks infoBlock dt st s) {name : List Byte}
    (hroot : name.isEmpty = st.opened.isEmpty) (hfirst : st.opened = [] → st.parents = [])
    (hst : Coherent st) (hb : NodeBegun s s' name) : Rooted nodes₀ s' := by
  have hempty : name = [] ↔ s.created = [] := by
    have hlen : s.created = [] ↔ st.parents = [] := by
      rw [← List.length_eq_zero_iff, ht.length, List.length_eq_zero_iff]
    rw [hlen, ← List.isEmpty_iff, hroot, List.isEmpty_iff]
    refine ⟨hfirst, fun hparents => ?_⟩
    cases ho : st.opened with
    | nil => rfl
    | cons i outer =>
      have hlt := hst.head_lt (i := i) (by simp [ho])
      simp [hparents] at hlt
  by_cases hnil : name = []
  · have hcreated := hempty.mp hnil
    refine ⟨?_, fun h' => ?_, fun hfree p hp => ?_⟩
    · rw [hb.rootNode, hb.created, hcreated, if_pos hnil]
      rfl
    · rw [hb.created] at h'
      simp at h'
    · rw [hb.created, hcreated] at hp
      obtain rfl : s.heap.currKallocEternalAddress = p := by simpa using hp
      exact ⟨ht.start, hb.root_child hnil (by rw [h.before hcreated]; exact hfree _)⟩
  · have hcreated : s.created ≠ [] := fun h' => hnil (hempty.mpr h')
    obtain ⟨root, rest, hcons⟩ := List.exists_cons_of_ne_nil hcreated
    refine ⟨?_, fun h' => ?_, fun hfree p hp => ?_⟩
    · rw [hb.rootNode, hb.created, if_neg hnil, h.rootNode, hcons]
      rfl
    · rw [hb.created] at h'
      simp at h'
    · rw [hb.created, hcons] at hp
      obtain rfl : root = p := by simpa using hp
      obtain ⟨hne, hslot⟩ := h.loop hfree root (by simp [hcons])
      exact ⟨hne, by rw [hb.children root 0 (by rwa [hslot]), hslot]⟩

theorem Rooted.passed (h : Rooted nodes₀ s) (hne : s.created ≠ []) {call : InsertPropertyCall}
    (hp : PropPassed s s' call) : Rooted nodes₀ s' := by
  refine ⟨by rw [hp.rootNode, hp.created, h.rootNode], fun h' => absurd (hp.created ▸ h') hne, ?_⟩
  intro hfree p hmem
  rw [hp.created] at hmem
  obtain ⟨hnull, hslot⟩ := h.loop hfree p hmem
  exact ⟨hnull, by rw [hp.links.children p 0 (by rwa [hslot]), hslot]⟩

end Roots

/-- The heap that a token may take. -/
def tokenCost : Token → ℕ
  | .beginNode _ => 272
  | .prop _ _ => 24
  | _ => 0

def tokenWord : Token → BitVec 32
  | .beginNode _ => fdtBeginNode
  | .endNode => fdtEndNode
  | .prop _ _ => fdtProp
  | .nop => fdtNop
  | .fdtEnd => fdtEnd

def tokenPayload : Token → List Byte
  | .beginNode name => padded (name ++ [0#8])
  | .prop nameoff value =>
    be32 (BitVec.ofNat 32 value.length) ++ be32 nameoff ++ padded value
  | _ => []

theorem encode_eq (t : Token) : t.encode = be32 (tokenWord t) ++ tokenPayload t := by
  cases t <;> simp [Token.encode, tokenWord, tokenPayload, fdtBeginNode, fdtEndNode, fdtProp,
    fdtNop, fdtEnd]

structure LoadedTokens (mem : Memory) (infoBlock dt : Addr) (bound : BitVec 32)
    (body : List Token) : Prop where
  sizeDtStruct : load32 mem (infoBlock + sizeDtStructField) = some bound
  offDtStrings : ∃ w, load32 mem (infoBlock + offDtStringsField) = some w
  block : Holds mem dt (FdtTokens.encode body)
  small : (FdtTokens.encode body).length + 4 < 2 ^ 63

structure Loaded (mem : Memory) (infoBlock dt : Addr) (bound : BitVec 32) (body : List Token) :
    Prop where
  sizeDtStruct : load32 mem (infoBlock + sizeDtStructField) = some bound
  offDtStrings : ∃ w, load32 mem (infoBlock + offDtStringsField) = some w
  block : Holds mem dt (FdtTokens.encode (body ++ [.fdtEnd]))
  small : (FdtTokens.encode (body ++ [.fdtEnd])).length < 2 ^ 63

theorem encode_end_length (body : List Token) :
    (FdtTokens.encode (body ++ [.fdtEnd])).length = (FdtTokens.encode body).length + 4 := by
  simp [Token.encode]

theorem Loaded.tokens {mem : Memory} {infoBlock dt : Addr} {bound : BitVec 32} {body : List Token}
    (hl : Loaded mem infoBlock dt bound body) : LoadedTokens mem infoBlock dt bound body where
  sizeDtStruct := hl.sizeDtStruct
  offDtStrings := hl.offDtStrings
  block := by
    have hblock := hl.block
    rw [FdtTokens.encode_append] at hblock
    exact (holds_append.mp hblock).1
  small := encode_end_length body ▸ hl.small

/-- Bytes of a block behind an offset that is a prefix long. -/
theorem holds_at {mem : Memory} {dt : Addr} {front mid back : List Byte} {o : BitVec 64}
    (h : Holds mem dt (front ++ (mid ++ back))) (ho : o.toNat = front.length) :
    Holds mem (dt + o) mid := by
  have hmid := (holds_append.mp (holds_append.mp h).2).1
  rwa [← ho, BitVec.ofNat_toNat, BitVec.setWidth_eq] at hmid

/-- The loop stands behind some tokens, either at the next token or still in front of the
word with the terminator of the last name. -/
def Exact (pre : List Token) (s : FdtState) : Prop :=
  s.currOffset.toNat = (FdtTokens.encode pre).length

def Short (pre : List Token) (s : FdtState) : Prop :=
  ∃ front, FdtTokens.encode pre = front ++ be32 0#32 ∧ s.currOffset.toNat = front.length

structure At (infoBlock dt : Addr) (nodes₀ : Addr → FdtNode) (pre : List Token) (s : FdtState) :
    Prop where
  tracks : ∃ st, nesting pre = some st ∧ Tracks infoBlock dt st s
  rooted : Rooted nodes₀ s

/-- The heap after a token: moved by at most its cost, and inside where it moved. -/
structure Moved (heap heap' : EternalHeap) (cost : ℕ) : Prop where
  stop : heap'.kallocEternalEnd = heap.kallocEternalEnd
  le : heap'.currKallocEternalAddress.toNat ≤ heap.currKallocEternalAddress.toNat + cost
  inside : heap' = heap ∨ heap'.currKallocEternalAddress.toNat < heap.kallocEternalEnd.toNat

theorem moved_refl (heap : EternalHeap) (cost : ℕ) : Moved heap heap cost :=
  ⟨rfl, Nat.le_add_right _ _, .inl rfl⟩

theorem Allocated.moved {heap heap' : EternalHeap} {size : ℕ} (h : Allocated heap heap' size) :
    Moved heap heap' size := ⟨h.stop, h.curr.le, .inr h.inside⟩

theorem fdtAlignToNextWord_toNat {v : BitVec 64} (h : v.toNat + 4 ≤ 2 ^ 64) :
    (fdtAlignToNextWord v).toNat = v.toNat + (4 - v.toNat % 4) % 4 := by
  rw [fdtAlignToNextWord, BitVec.toNat_add, BitVec.toNat_umod, BitVec.toNat_sub]
  simp only [BitVec.toNat_ofNat, Nat.reducePow, Nat.reduceMod]
  omega

section Token

variable {mem : Memory} {infoBlock dt : Addr} {nodes₀ : Addr → FdtNode} {bound : BitVec 32}
  {body pre post : List Token} {t : Token} {s : FdtState}

theorem LoadedTokens.at_token (hl : LoadedTokens mem infoBlock dt bound body)
    (hsplit : body = pre ++ t :: post) (hexact : Exact pre s) :
    Holds mem (dt + s.currOffset) (be32 (tokenWord t)) ∧
      Holds mem (dt + (s.currOffset + 4#64)) (tokenPayload t) := by
  have hblock := hl.block
  rw [hsplit, FdtTokens.encode_append, FdtTokens.encode_cons] at hblock
  have htoken := holds_at hblock hexact
  rw [encode_eq, holds_append, be32_length] at htoken
  exact ⟨htoken.1, by rw [← BitVec.add_assoc]; exact htoken.2⟩

theorem LoadedTokens.le_small (hl : LoadedTokens mem infoBlock dt bound body)
    (hsplit : body = pre ++ post) :
    (FdtTokens.encode pre).length + (FdtTokens.encode post).length + 4 < 2 ^ 63 := by
  have hsmall := hl.small
  rwa [hsplit, FdtTokens.encode_append, List.length_append] at hsmall

abbrev pastWord (s : FdtState) : FdtState := { s with currOffset := s.currOffset + 4#64 }

theorem pastWord_toNat (hl : LoadedTokens mem infoBlock dt bound body)
    (hsplit : body = pre ++ t :: post) (hexact : Exact pre s) :
    (s.currOffset + 4#64).toNat = (FdtTokens.encode pre).length + 4 := by
  have hsmall := hl.le_small hsplit
  have hnat : s.currOffset.toNat = (FdtTokens.encode pre).length := hexact
  rw [BitVec.toNat_add, hnat]
  simp only [BitVec.toNat_ofNat, Nat.reducePow, Nat.reduceMod]
  omega

/-- A token was read and the loop goes on behind it, or the heap was too small for it. -/
def TokenRead (infoBlock dt : Addr) (nodes₀ : Addr → FdtNode) (pre : List Token) (t : Token)
    (s : FdtState) (r : Except Fault LoopState) : Prop :=
  (∃ s', r = .ok (.running s') ∧ At infoBlock dt nodes₀ (pre ++ [t]) s' ∧
    (Exact (pre ++ [t]) s' ∨ Short (pre ++ [t]) s') ∧ Moved s.heap s'.heap (tokenCost t)) ∨
  (r = .error (.panic .eternalHeapExhausted) ∧
    s.heap.kallocEternalEnd.toNat ≤ s.heap.currKallocEternalAddress.toNat + tokenCost t)

theorem At.next (hat : At infoBlock dt nodes₀ pre s) (hnest : (nesting (pre ++ [t])).isSome) :
    ∃ st st', Tracks infoBlock dt st s ∧ Coherent st ∧ nesting pre = some st ∧
      nesting (pre ++ [t]) = some st' ∧
      run List.isEmpty st (t.event (FdtTokens.encode pre).length) = some st' := by
  obtain ⟨st, hst, htracks⟩ := hat.tracks
  obtain ⟨st', hst'⟩ := Option.isSome_iff_exists.mp hnest
  have hrun := hst'
  rw [nesting_append_singleton, hst, Option.bind_some] at hrun
  exact ⟨st, st', htracks, coherent_run hst coherent_initial, hst, hst', hrun⟩

theorem encode_snoc_length (pre : List Token) (t : Token) :
    (FdtTokens.encode (pre ++ [t])).length =
      (FdtTokens.encode pre).length + 4 + (tokenPayload t).length := by
  rw [encode_append_singleton_length, encode_eq, List.length_append, be32_length, Nat.add_assoc]

/-- Behind a name the loop is at the next token, except that a name of a length divisible by
four leaves the word of its terminator. -/
theorem exact_or_short_of_name {name : List Byte} {o : BitVec 64}
    (ho : o.toNat = (FdtTokens.encode pre).length + 4 + (name.length + (4 - name.length % 4) % 4))
    (hs : s.currOffset = o) :
    Exact (pre ++ [.beginNode name]) s ∨ Short (pre ++ [.beginNode name]) s := by
  by_cases hdiv : name.length % 4 = 0
  · right
    refine ⟨FdtTokens.encode pre ++ be32 fdtBeginNode ++ name, ?_, ?_⟩
    · rw [FdtTokens.encode_append, FdtTokens.encode_cons, encode_beginNode hdiv, fdtBeginNode]
      simp
    · rw [hs, ho]
      simp only [List.length_append, be32_length]
      omega
  · left
    rw [Exact, hs, ho, encode_snoc_length, tokenPayload, padded_length, List.length_append,
      List.length_singleton]
    omega

theorem beginNode_spec {name : List Byte} (hl : LoadedTokens mem infoBlock dt bound body)
    (hsplit : body = pre ++ .beginNode name :: post) (hvalid : (Token.beginNode name).Valid)
    (hat : At infoBlock dt nodes₀ pre s) (hexact : Exact pre s)
    (hnest : (nesting (pre ++ [.beginNode name])).isSome)
    (hsum : s.heap.currKallocEternalAddress.toNat + 272 < 2 ^ 64) :
    ∃ st, Tracks infoBlock dt st s ∧ Coherent st ∧ nesting pre = some st ∧
      nesting (pre ++ [.beginNode name]) = some st.open ∧ name.isEmpty = st.opened.isEmpty ∧
      (st.opened = [] → st.parents = []) ∧ IsString mem (dt + (pastWord s).currOffset) name ∧
      ((∃ s', parseBeginNode mem dt (pastWord s) = .ok s' ∧ NodeBegun (pastWord s) s' name) ∨
        (parseBeginNode mem dt (pastWord s) = .error (.panic .eternalHeapExhausted) ∧
          s.heap.kallocEternalEnd.toNat ≤ s.heap.currKallocEternalAddress.toNat + 272)) := by
  obtain ⟨st, st', htracks, hcoherent, hst, hst', hrun⟩ := hat.next hnest
  have hstep : step List.isEmpty st (.opening name : FdtEvent) = some st' := by
    simpa [Token.event] using hrun
  obtain ⟨hroot, hfirst, rfl⟩ := step_opening hstep
  have hname : IsString mem (dt + (pastWord s).currOffset) name :=
    ⟨(holds_append.mp (hl.at_token hsplit hexact).2).1, hvalid⟩
  have hcurr : name ≠ [] → (pastWord s).currNode ≠ NULL := fun hne =>
    htracks.currNode_ne hcoherent fun hnil => hne (List.isEmpty_iff.mp (by rw [hroot, hnil]; rfl))
  exact ⟨st, htracks, hcoherent, hst, hst', hroot, hfirst, hname,
    parseBeginNode_spec hname hname.length_lt hcurr htracks.start hsum⟩

theorem read_beginNode {name : List Byte} (hl : LoadedTokens mem infoBlock dt bound body)
    (hsplit : body = pre ++ .beginNode name :: post) (hvalid : (Token.beginNode name).Valid)
    (hat : At infoBlock dt nodes₀ pre s) (hexact : Exact pre s)
    (hnest : (nesting (pre ++ [.beginNode name])).isSome)
    (hsum : s.heap.currKallocEternalAddress.toNat + 272 < 2 ^ 64) :
    TokenRead infoBlock dt nodes₀ pre (.beginNode name) s
      (parseToken mem dt fdtBeginNode (pastWord s)) := by
  obtain ⟨st, htracks, hcoherent, -, hst', hroot, hfirst, -, hparse⟩ :=
    beginNode_spec hl hsplit hvalid hat hexact hnest hsum
  have hsmall := hl.le_small hsplit
  have hpast := pastWord_toNat hl hsplit hexact
  have hlen : name.length < 2 ^ 63 := by
    simp only [FdtTokens.encode_cons, Token.encode, List.length_append, padded_length] at hsmall
    omega
  rcases hparse with ⟨s', hs', hbegun⟩ | ⟨hfault, hfull⟩
  · refine .inl ⟨s', by rw [parseToken_beginNode, hs']; rfl, ⟨⟨st.open, hst', ?_⟩, ?_⟩, ?_,
      hbegun.heap.moved⟩
    · exact (htracks.setOffset _).begun hcoherent hroot hbegun
    · exact (hat.rooted.moved _ _).begun (htracks.setOffset _) hroot hfirst hcoherent hbegun
    · refine exact_or_short_of_name (o := s'.currOffset) ?_ rfl
      have hnat : (BitVec.ofNat 64 name.length).toNat = name.length := by
        rw [BitVec.toNat_ofNat, Nat.mod_eq_of_lt (by omega)]
      rw [hbegun.currOffset, BitVec.toNat_add, hpast, fdtAlignToNextWord_toNat (by omega), hnat]
      have hencode : name.length ≤ (FdtTokens.encode (.beginNode name :: post)).length := by
        simp only [FdtTokens.encode_cons, Token.encode, List.length_append, padded_length]
        omega
      omega
  · exact .inr ⟨by rw [parseToken_beginNode, hfault]; rfl, hfull⟩

theorem read_endNode (hl : LoadedTokens mem infoBlock dt bound body)
    (hsplit : body = pre ++ .endNode :: post) (hat : At infoBlock dt nodes₀ pre s)
    (hexact : Exact pre s) (hnest : (nesting (pre ++ [.endNode])).isSome) :
    TokenRead infoBlock dt nodes₀ pre .endNode s (parseToken mem dt fdtEndNode (pastWord s)) := by
  obtain ⟨st, st', htracks, hcoherent, -, hst', hrun⟩ := hat.next hnest
  have hstep : step List.isEmpty st (.closing : FdtEvent) = some st' := by
    simpa [Token.event] using hrun
  obtain ⟨i, outer, ho, rfl⟩ := step_closing hstep
  have hcurr : (pastWord s).currNode ≠ NULL := htracks.currNode_ne hcoherent (by simp [ho])
  refine .inl ⟨{ pastWord s with currNode := (s.nodes s.currNode).parent }, ?_,
    ⟨⟨_, hst', (htracks.setOffset _).ended hcoherent ho⟩, hat.rooted.moved _ _⟩, .inl ?_,
    moved_refl _ _⟩
  · rw [parseToken_endNode, parseEndNode_spec hcurr]
    rfl
  · rw [Exact, encode_snoc_length]
    simpa [tokenPayload] using pastWord_toNat hl hsplit hexact

theorem read_nop (hl : LoadedTokens mem infoBlock dt bound body) (hsplit : body = pre ++ .nop :: post)
    (hat : At infoBlock dt nodes₀ pre s) (hexact : Exact pre s)
    (hnest : (nesting (pre ++ [.nop])).isSome) :
    TokenRead infoBlock dt nodes₀ pre .nop s (parseToken mem dt fdtNop (pastWord s)) := by
  obtain ⟨st, st', htracks, -, -, hst', hrun⟩ := hat.next hnest
  obtain rfl : st = st' := by simpa [Token.event] using hrun
  refine .inl ⟨pastWord s, parseToken_nop mem dt _,
    ⟨⟨st, hst', htracks.setOffset _⟩, hat.rooted.moved _ _⟩, .inl ?_, moved_refl _ _⟩
  rw [Exact, encode_snoc_length]
  simpa [tokenPayload] using pastWord_toNat hl hsplit hexact

theorem valueAddress_eq (hl : LoadedTokens mem infoBlock dt bound body)
    (hsplit : body = pre ++ t :: post) (hexact : Exact pre s) : dt + (pastWord s).currOffset + 8#64 =
      dt + BitVec.ofNat 64 ((FdtTokens.encode pre).length + 12) := by
  have hoffset : s.currOffset + 4#64 + 8#64 =
      BitVec.ofNat 64 ((FdtTokens.encode pre).length + 12) := by
    apply BitVec.eq_of_toNat_eq
    rw [BitVec.toNat_add, pastWord_toNat hl hsplit hexact, BitVec.toNat_ofNat, BitVec.toNat_ofNat]
  rw [BitVec.add_assoc, hoffset]

theorem exact_of_value {nameoff : BitVec 32} {value : List Byte} {s' : FdtState}
    (hl : LoadedTokens mem infoBlock dt bound body)
    (hsplit : body = pre ++ .prop nameoff value :: post)
    (hvalid : (Token.prop nameoff value).Valid) (hexact : Exact pre s)
    (hoffset : s'.currOffset = (pastWord s).currOffset +
      (8#64 + fdtAlignToNextWord ((BitVec.ofNat 32 value.length).setWidth 64))) :
    Exact (pre ++ [.prop nameoff value]) s' := by
  have hsmall := hl.le_small hsplit
  have hpast := pastWord_toNat hl hsplit hexact
  have hvalue : value.length < 2 ^ 32 := hvalid
  have hwidth : ((BitVec.ofNat 32 value.length).setWidth 64).toNat = value.length := by
    rw [BitVec.toNat_setWidth, BitVec.toNat_ofNat, Nat.mod_eq_of_lt hvalue, Nat.mod_eq_of_lt]
    exact Nat.lt_trans hvalue (by decide)
  rw [Exact, hoffset, encode_snoc_length, tokenPayload,
    BitVec.toNat_add (pastWord s).currOffset, BitVec.toNat_add 8#64, hpast,
    fdtAlignToNextWord_toNat (by rw [hwidth]; omega), hwidth]
  simp only [List.length_append, be32_length, padded_length, BitVec.toNat_ofNat, Nat.reducePow,
    Nat.reduceMod]
  simp only [FdtTokens.encode_cons, Token.encode, List.length_append, padded_length] at hsmall
  omega

theorem prop_spec {nameoff : BitVec 32} {value : List Byte}
    (hl : LoadedTokens mem infoBlock dt bound body)
    (hsplit : body = pre ++ .prop nameoff value :: post)
    (hat : At infoBlock dt nodes₀ pre s) (hexact : Exact pre s)
    (hnest : (nesting (pre ++ [.prop nameoff value])).isSome)
    (hsum : s.heap.currKallocEternalAddress.toNat + 24 < 2 ^ 64) :
    let it : PropertyItem :=
      ⟨nameoff, BitVec.ofNat 32 value.length, (FdtTokens.encode pre).length + 12⟩
    let call : InsertPropertyCall :=
      ⟨s.currNode, it.nameoff, it.length, dt + BitVec.ofNat 64 it.offset⟩
    ∃ st i outer, Tracks infoBlock dt st s ∧ Coherent st ∧ nesting pre = some st ∧
      st.opened = i :: outer ∧
      nesting (pre ++ [.prop nameoff value]) = some { st with items := st.items ++ [(i, it)] } ∧
      Holds mem (dt + (pastWord s).currOffset) (be32 it.length ++ be32 it.nameoff) ∧
      ((∃ s', parseProp mem dt (pastWord s) = .ok s' ∧ PropPassed (pastWord s) s' call) ∨
        (parseProp mem dt (pastWord s) = .error (.panic .eternalHeapExhausted) ∧
          s.heap.kallocEternalEnd.toNat ≤ s.heap.currKallocEternalAddress.toNat + 24)) := by
  intro it call
  obtain ⟨st, st', htracks, hcoherent, hst, hst', hrun⟩ := hat.next hnest
  have hstep : step List.isEmpty st (.item it : FdtEvent) = some st' := by
    simpa [Token.event] using hrun
  obtain ⟨i, outer, ho, rfl⟩ := step_item hstep
  obtain ⟨strings, hstrings⟩ := hl.offDtStrings
  have hcurr : (pastWord s).currNode ≠ NULL := htracks.currNode_ne hcoherent (by simp [ho])
  have hwords := (holds_append.mp (hl.at_token hsplit hexact).2).1
  have hparse := parseProp_spec (s := pastWord s) hwords hcurr htracks.start hsum
    (by rw [show (pastWord s).fdtInfoBlock = infoBlock from htracks.infoBlock]; exact hstrings)
  rw [valueAddress_eq hl hsplit hexact] at hparse
  exact ⟨st, i, outer, htracks, hcoherent, hst, ho, hst', hwords, hparse⟩

theorem read_prop {nameoff : BitVec 32} {value : List Byte}
    (hl : LoadedTokens mem infoBlock dt bound body)
    (hsplit : body = pre ++ .prop nameoff value :: post) (hvalid : (Token.prop nameoff value).Valid)
    (hat : At infoBlock dt nodes₀ pre s) (hexact : Exact pre s)
    (hnest : (nesting (pre ++ [.prop nameoff value])).isSome)
    (hsum : s.heap.currKallocEternalAddress.toNat + 24 < 2 ^ 64) :
    TokenRead infoBlock dt nodes₀ pre (.prop nameoff value) s
      (parseToken mem dt fdtProp (pastWord s)) := by
  obtain ⟨st, i, outer, htracks, hcoherent, -, ho, hst', -, hparse⟩ :=
    prop_spec hl hsplit hat hexact hnest hsum
  have hcreated : s.created ≠ [] := fun hnil => by
    have hcurr := htracks.getElem?_currNode hcoherent ho
    simp [hnil] at hcurr
  rcases hparse with ⟨s', hs', hpassed⟩ | ⟨hfault, hfull⟩
  · refine .inl ⟨s', by rw [parseToken_prop, hs']; rfl, ⟨⟨_, hst', ?_⟩, ?_⟩, .inl ?_, ?_⟩
    · exact (htracks.setOffset _).passed ho hpassed
    · have hrooted : Rooted nodes₀ (pastWord s) := hat.rooted.moved _ _
      exact hrooted.passed hcreated hpassed
    · exact exact_of_value hl hsplit hvalid hexact hpassed.currOffset
    · rcases hpassed.heap with hheap | hheap
      · rw [hheap]
        exact moved_refl _ _
      · exact hheap.moved
  · exact .inr ⟨by rw [parseToken_prop, hfault]; rfl, hfull⟩

theorem read_token (hl : LoadedTokens mem infoBlock dt bound body) (hsplit : body = pre ++ t :: post)
    (hvalid : t.Valid) (hend : t ≠ .fdtEnd) (hat : At infoBlock dt nodes₀ pre s)
    (hexact : Exact pre s) (hnest : (nesting (pre ++ [t])).isSome)
    (hsum : s.heap.currKallocEternalAddress.toNat + tokenCost t < 2 ^ 64) :
    TokenRead infoBlock dt nodes₀ pre t s (parseToken mem dt (tokenWord t) (pastWord s)) := by
  cases t with
  | beginNode name => exact read_beginNode hl hsplit hvalid hat hexact hnest hsum
  | endNode => exact read_endNode hl hsplit hat hexact hnest
  | prop nameoff value => exact read_prop hl hsplit hvalid hat hexact hnest hsum
  | nop => exact read_nop hl hsplit hat hexact hnest
  | fdtEnd => exact absurd rfl hend

end Token

end SysRv.Fdt
