import SysRv.FdtChildren

/-!
# The size of the memory

What `srv_fdt_GetMemorySize` makes of a tree with a memory node, from the blob through the parse
and the two searches to the word that it reads. It reads the lower word of the size only.
-/

namespace SysRv.Fdt

open ByteMemory KString Kalloc Nesting FdtTokens ListSplits

/-- A number of 64 bits in the byte order of the tree. -/
def be64 (w : BitVec 64) : List Byte := be32 (w.extractLsb' 32 32) ++ be32 (w.setWidth 32)

/-- A device tree with a memory node among the children of its root, the first with its name, and
in the node a property `reg`, the first with its name, that holds an address and a size. -/
structure MemoryTree where
  rootProperties : List TreeProperty
  before : List DeviceTree
  propertiesBefore : List TreeProperty
  reg : TreeProperty
  propertiesAfter : List TreeProperty
  children : List DeviceTree
  after : List DeviceTree
  address : BitVec 64
  size : BitVec 64
  before_label : ∀ t ∈ before, t.label ≠ memoryNodeText
  before_name : ∀ p ∈ propertiesBefore, p.name ≠ regText
  reg_name : reg.name = regText
  reg_value : reg.value = be64 address ++ be64 size

namespace MemoryTree

def node (m : MemoryTree) : DeviceTree :=
  .node memoryNodeText (m.propertiesBefore ++ m.reg :: m.propertiesAfter) m.children

def tree (m : MemoryTree) : DeviceTree :=
  .node [] m.rootProperties (m.before ++ m.node :: m.after)

def regFront (m : MemoryTree) : List Token :=
  childFront m.rootProperties m.before ++
    .beginNode memoryNodeText :: m.propertiesBefore.map TreeProperty.token

/-- There is a slot for the memory node behind the root and the nodes before it, and the token of
`reg` lies below the bound of the loop. -/
def RegRead (m : MemoryTree) (bound : BitVec 32) (tokens : List Token) : Prop :=
  m.before.length + 1 < fdtMaxChildren ∧ LiesBelow bound tokens m.regFront m.reg.token

/-- The root and the nodes before the memory node take all slots, and their tokens lie below the
bound of the loop. -/
def CrowdedOut (m : MemoryTree) (bound : BitVec 32) (tokens : List Token) : Prop :=
  m.before.length + 1 = fdtMaxChildren ∧ ∃ children last, m.before = children ++ [last] ∧
    LiesBelow bound tokens (childFront m.rootProperties children) (.beginNode last.label)

end MemoryTree

/-- The names of the properties lie in the first 4 GiB of the blob, where an offset of 32 bits
reaches. -/
def NamesReached (header : BlobHeader) (t : DeviceTree) : Prop :=
  t.Every fun _ properties _ => ∀ p ∈ properties,
    header.offDtStrings.toNat + p.nameoff.toNat < 2 ^ 32

section Properties

variable {mem : Memory} {fdtPtr dt node regName : Addr} {strings bound nameoff : BitVec 32}
  {tokens pre p back : List Token} {st : State PropertyItem} {s : FdtState}
  {rootProperties properties : List TreeProperty} {children : List DeviceTree}
  {label text value : List Byte}

/-- Behind an opening and some properties the opened node is the innermost one, and these are its
properties. -/
theorem nesting_properties (hfront : pre.filter (· ≠ .nop) =
      childFront rootProperties children ++ .beginNode label :: properties.map TreeProperty.token)
    (h : nesting pre = some st) :
    st.opened.head? = some (nodeNames (childFront rootProperties children)).length ∧
      (itemsIn st.items (nodeNames (childFront rootProperties children)).length).map
        PropertyItem.nameoff = properties.map TreeProperty.nameoff := by
  have houtline := nesting_outline pre
  rw [h, hfront, List.flatMap_append, Option.map_some] at houtline
  obtain ⟨u, hu, hrest⟩ := run_of_append houtline.symm
  have hlen : u.parents.length = (nodeNames (childFront rootProperties children)).length := by
    rw [run_parents_length hu]
    exact Nat.zero_add _
  have hcoherent : Coherent u := coherent_run hu coherent_initial
  have hitems : (properties.map TreeProperty.token).flatMap outline =
      (properties.map TreeProperty.nameoff).map Event.item := by
    rw [flatMap_outline_properties, List.map_map, List.map_map]
    rfl
  rw [List.flatMap_cons, hitems] at hrest
  obtain ⟨t, ht, hrest⟩ := Option.bind_eq_some_iff.mp hrest
  obtain ⟨-, -, rfl⟩ := step_opening ht
  have hrun := (run_items (open_opened u) (properties.map TreeProperty.nameoff)).symm.trans hrest
  have hstate := Option.some.inj hrun
  have hopened := congrArg State.opened hstate
  have hitems' := congrArg State.items hstate
  simp only [open_opened, open_items, State.map] at hopened hitems'
  rw [← hlen]
  refine ⟨by rw [← hopened, List.head?_cons], ?_⟩
  rw [← itemsIn_map, ← hitems', itemsIn_append_self, hcoherent.itemsIn_new, List.nil_append]

theorem nesting_item {k : ℕ} {st' : State PropertyItem} (h : nesting p = some st)
    (hhead : st.opened.head? = some k)
    (h' : nesting (p ++ .prop nameoff value :: back) = some st') :
    ∃ more, itemsIn st'.items k = itemsIn st.items k ++
      ⟨nameoff, BitVec.ofNat 32 value.length, (FdtTokens.encode p).length + 12⟩ :: more := by
  have hsnoc : p ++ .prop nameoff value :: back = (p ++ [.prop nameoff value]) ++ back := by simp
  rw [hsnoc] at h'
  obtain ⟨u, hu⟩ := nesting_of_append h'
  obtain ⟨-, hextends⟩ := nesting_extends hu h'
  rw [nesting_append_singleton, h, Option.bind_some] at hu
  have hstep : step List.isEmpty st (.item ⟨nameoff, BitVec.ofNat 32 value.length,
      (FdtTokens.encode p).length + 12⟩ : FdtEvent) = some u := by
    simpa [Token.event] using hu
  obtain ⟨i, outer, hopened, rfl⟩ := step_item hstep
  obtain rfl : i = k := by simpa [hopened] using hhead
  obtain ⟨more, hmore⟩ := itemsIn_mono (i := i) hextends
  rw [itemsIn_concat, if_pos rfl, List.append_assoc, List.singleton_append] at hmore
  exact ⟨more, hmore.symm⟩

theorem name_notMem (hother : ∀ q ∈ properties, q.name ≠ text) :
    text ∉ properties.map TreeProperty.name := fun hmem => by
  obtain ⟨q, hq, heq⟩ := List.mem_map.mp hmem
  exact hother q hq heq

theorem named_of_recorded {entries : List Addr} {items : List PropertyItem}
    (h : List.Forall₂ (Recorded strings dt s) entries items) (htaken : ∀ a ∈ entries, a ≠ NULL)
    (hoffsets : items.map PropertyItem.nameoff = properties.map TreeProperty.nameoff)
    (hstrings : ∀ p ∈ properties,
      IsString mem (s.fdtInfoBlock + (strings + p.nameoff).setWidth 64) p.name) :
    Named mem (fun a => (s.nodeProperties a).name) entries (properties.map TreeProperty.name) := by
  induction h generalizing properties with
  | nil =>
    obtain rfl : properties = [] := by simpa using hoffsets.symm
    exact .nil
  | @cons a it entries items hrecord _ ih =>
    cases properties with
    | nil => simp at hoffsets
    | cons p properties =>
      rw [List.map_cons, List.map_cons, List.cons.injEq] at hoffsets
      refine .cons ⟨htaken a (by simp), ?_⟩ (ih (fun b hb => htaken b (List.mem_cons_of_mem _ hb))
        hoffsets.2 fun q hq => hstrings q (List.mem_cons_of_mem _ hq))
      simp only [hrecord.2, hoffsets.1]
      exact hstrings p (by simp)

theorem LeftOrdered.find_property (h : LeftOrdered mem fdtPtr dt strings bound tokens pre st s)
    (hpre : pre = p ++ .prop nameoff value :: back)
    (hfront : p.filter (· ≠ .nop) =
      childFront rootProperties children ++ .beginNode label :: properties.map TreeProperty.token)
    (hnode : s.created[(nodeNames (childFront rootProperties children)).length]? = some node)
    (hstrings : ∀ q ∈ properties,
      IsString mem (fdtPtr + (strings + q.nameoff).setWidth 64) q.name)
    (htext : IsString mem (fdtPtr + (strings + nameoff).setWidth 64) text)
    (hreg : IsString mem regName text) (hother : ∀ q ∈ properties, q.name ≠ text)
    (hroom : properties.length < fdtMaxProperties) :
    ∃ a, findNamed mem (fun q => (s.nodeProperties q).name) regName
        (s.nodes node).properties.slots = .ok (some a) ∧
      (s.nodeProperties a).value =
        dt + BitVec.ofNat 64 ((FdtTokens.encode p).length + 12) := by
  subst hpre
  obtain ⟨st₁, hst₁⟩ := nesting_of_append h.nesting
  obtain ⟨hhead, hoffsets⟩ := nesting_properties hfront hst₁
  generalize (nodeNames (childFront rootProperties children)).length = k at *
  obtain ⟨more, hmore⟩ := nesting_item hst₁ hhead h.nesting
  have hlen : (itemsIn st₁.items k).length = properties.length := by
    simpa using congrArg List.length hoffsets
  obtain ⟨entries, hlists, hall⟩ := h.ordered.properties k node hnode
  obtain ⟨j, hj⟩ : ∃ j, fdtMaxProperties - (itemsIn st₁.items k).length = j + 1 :=
    ⟨fdtMaxProperties - (itemsIn st₁.items k).length - 1, by omega⟩
  rw [hmore, List.take_append, List.take_of_length_le (by omega), hj, List.take_succ_cons] at hall
  obtain ⟨before, a, after, rfl, hbefore, hrecord, -⟩ := forall₂_split hall
  rw [← h.tracks.infoBlock] at hstrings htext
  have hnamed := named_of_recorded hbefore (fun b hb => hlists.taken b (by simp [hb])) hoffsets
    hstrings
  refine ⟨a, hlists.findNamed_hit hnamed (name_notMem hother) ?_ hreg, by rw [hrecord.2]⟩
  rw [hrecord.2]
  exact htext

/-- Where the parser has stopped in front of a property that there is a slot for, the search for a
name of none of the properties before ends at a free slot. -/
theorem LeftOrdered.property_fault (h : LeftOrdered mem fdtPtr dt strings bound tokens pre st s)
    (hbody : (FdtTokens.nesting (pre ++ back)).isSome)
    (hfront : (pre ++ back).filter (· ≠ .nop) =
      childFront rootProperties children ++ .beginNode label :: properties.map TreeProperty.token)
    (hnode : s.created[(nodeNames (childFront rootProperties children)).length]? = some node)
    (hstrings : ∀ q ∈ properties,
      IsString mem (fdtPtr + (strings + q.nameoff).setWidth 64) q.name)
    (hreg : IsString mem regName text) (hother : ∀ q ∈ properties, q.name ≠ text)
    (hroom : properties.length < fdtMaxProperties) :
    findNamed mem (fun q => (s.nodeProperties q).name) regName (s.nodes node).properties.slots =
      .error .nullPointer := by
  obtain ⟨st₁, hst₁⟩ := Option.isSome_iff_exists.mp hbody
  obtain ⟨-, hoffsets⟩ := nesting_properties hfront hst₁
  generalize (nodeNames (childFront rootProperties children)).length = k at *
  obtain ⟨-, hextends⟩ := nesting_extends h.nesting hst₁
  obtain ⟨more, hmore⟩ := itemsIn_mono (i := k) hextends
  have hlen : (itemsIn st₁.items k).length = properties.length := by
    simpa using congrArg List.length hoffsets
  have hle : (itemsIn st.items k).length ≤ properties.length := by
    rw [← hlen, ← hmore, List.length_append]
    exact Nat.le_add_right _ _
  -- the properties read are the first ones
  have hread : (itemsIn st.items k).map PropertyItem.nameoff =
      (properties.take (itemsIn st.items k).length).map TreeProperty.nameoff := by
    rw [List.map_take, ← hoffsets, ← hmore, List.map_append,
      List.take_append_of_le_length (by simp), List.take_of_length_le (by simp)]
  obtain ⟨entries, hlists, hall⟩ := h.ordered.properties k node hnode
  rw [List.take_of_length_le (by omega)] at hall
  rw [← h.tracks.infoBlock] at hstrings
  have hnamed := named_of_recorded hall hlists.taken hread
    fun q hq => hstrings q (List.mem_of_mem_take hq)
  have hnone : text ∉ (properties.take (itemsIn st.items k).length).map TreeProperty.name :=
    name_notMem fun q hq => hother q (List.mem_of_mem_take hq)
  have hentries := hall.length_eq
  rw [(hlists.namedTable hnamed).findNamed hreg, if_neg hnone, if_neg (by omega)]

end Properties

theorem flattenList_append (ts us : List DeviceTree) :
    flattenList (ts ++ us) = flattenList ts ++ flattenList us := by
  induction ts with
  | nil => rfl
  | cons t ts ih => rw [List.cons_append, flattenList, flattenList, ih, List.append_assoc]

theorem flatten_child (rootProperties : List TreeProperty) (children after : List DeviceTree)
    (child : DeviceTree) :
    ∃ rest, flatten (.node [] rootProperties (children ++ child :: after)) =
      childFront rootProperties children ++
        .beginNode child.label :: (child.items.map TreeProperty.token ++ rest) := by
  obtain ⟨label, properties, below⟩ := child
  rw [flatten, flattenList_append, flattenList, flatten, childFront]
  exact ⟨flattenList below ++ [.endNode] ++ flattenList after ++ [.endNode],
    by simp [RoseTree.label, RoseTree.items]⟩

theorem fdtRead32_size {mem : Memory} {a : Addr} {address size : BitVec 64}
    (h : Holds mem a (be64 address ++ be64 size)) :
    fdtRead32 mem (a + 12#64) = .ok (size.setWidth 32) := by
  have hsplit : be64 address ++ be64 size =
      (be64 address ++ be32 (size.extractLsb' 32 32)) ++ be32 (size.setWidth 32) := by
    simp [be64]
  rw [hsplit, holds_append] at h
  exact fdtRead32_of_holds h.2

section Reported

variable {mem : Memory} {fdtPtr memoryNodeName regName : Addr} {header : BlobHeader}
  {tokens pre : List Token} {st : State PropertyItem} {heap : EternalHeap} {m : MemoryTree}
  {s : FdtState}

theorem MemoryTree.before_length_lt (hp : Parsable m.tree) :
    m.before.length < fdtMaxChildren := by
  have hfits := hp.fits.1.2.1
  rw [List.length_append, List.length_cons] at hfits
  omega

theorem MemoryTree.node_every {P : List Byte → List TreeProperty → ℕ → Prop}
    (h : m.tree.Every P) : m.node.Every P :=
  h.2.mem (by simp)

theorem MemoryTree.propertiesBefore_length_lt (hp : Parsable m.tree) :
    m.propertiesBefore.length < fdtMaxProperties := by
  have hfits := (MemoryTree.node_every hp.fits).1.2.2.1
  rw [List.length_append, List.length_cons] at hfits
  omega

theorem MemoryTree.property_name (hflat : FlatBlob mem fdtPtr header tokens m.tree)
    (hreached : NamesReached header m.tree) {q : TreeProperty}
    (hq : q ∈ m.propertiesBefore ++ m.reg :: m.propertiesAfter) :
    IsString mem (fdtPtr + (header.offDtStrings + q.nameoff).setWidth 64) q.name := by
  have hlt := (MemoryTree.node_every hreached).1 q hq
  have hname := (MemoryTree.node_every hflat.strings).1 q hq
  have hoffset : (header.offDtStrings + q.nameoff).setWidth 64 =
      BitVec.ofNat 64 (header.offDtStrings.toNat + q.nameoff.toNat) := by
    apply BitVec.eq_of_toNat_eq
    rw [BitVec.toNat_setWidth, BitVec.toNat_add, BitVec.toNat_ofNat, Nat.mod_eq_of_lt hlt]
  rwa [hoffset]

theorem MemoryTree.flat_node (hflat : FlatBlob mem fdtPtr header tokens m.tree) :
    ∃ rest, tokens.filter (· ≠ .nop) =
      childFront m.rootProperties m.before ++ .beginNode memoryNodeText :: rest := by
  obtain ⟨rest, hrest⟩ := flatten_child m.rootProperties m.before m.after m.node
  exact ⟨_, hflat.flat.trans hrest⟩

theorem MemoryTree.flat_reg (hflat : FlatBlob mem fdtPtr header tokens m.tree) :
    ∃ rest, tokens.filter (· ≠ .nop) = m.regFront ++ m.reg.token :: rest := by
  obtain ⟨rest, hrest⟩ := flatten_child m.rootProperties m.before m.after m.node
  refine ⟨m.propertiesAfter.map TreeProperty.token ++ rest, hflat.flat.trans (hrest.trans ?_)⟩
  simp [MemoryTree.node, RoseTree.label, RoseTree.items, MemoryTree.regFront]

theorem MemoryTree.flat_last (hflat : FlatBlob mem fdtPtr header tokens m.tree)
    {children : List DeviceTree} {last : DeviceTree} (hbefore : m.before = children ++ [last]) :
    ∃ rest, tokens.filter (· ≠ .nop) =
      childFront m.rootProperties children ++ .beginNode last.label :: rest := by
  obtain ⟨rest, hrest⟩ := flatten_child m.rootProperties children (m.node :: m.after) last
  have hflatten := hflat.flat
  rw [MemoryTree.tree, hbefore, List.append_assoc, List.singleton_append, hrest] at hflatten
  exact ⟨_, hflatten⟩

theorem memoryNodeText_ne : memoryNodeText ≠ [] := by decide

theorem Blob.value (hb : Blob mem fdtPtr header tokens) {nameoff : BitVec 32} {value : List Byte}
    {p post : List Token} (hsplit : tokens = p ++ .prop nameoff value :: post) :
    Holds mem (header.dtStart fdtPtr + BitVec.ofNat 64 ((FdtTokens.encode p).length + 12))
      value := by
  have hblock := hb.block
  have hbytes : FdtTokens.encode (tokens ++ [.fdtEnd]) =
      (FdtTokens.encode p ++ (be32 3#32 ++ be32 (BitVec.ofNat 32 value.length) ++ be32 nameoff)) ++
        (value ++ (List.replicate ((4 - value.length % 4) % 4) 0#8 ++
          FdtTokens.encode (post ++ [.fdtEnd]))) := by
    simp [hsplit, Token.encode, padded]
  rw [hbytes, holds_append] at hblock
  have hvalue := (holds_append.mp hblock.2).1
  simpa using hvalue

/-- Where `reg` has been read, the answer is the lower word of the size. -/
theorem MemoryTree.getMemorySize_of_regRead (hflat : FlatBlob mem fdtPtr header tokens m.tree)
    (hp : Parsable m.tree) (hreached : NamesReached header m.tree)
    (hmemory : IsString mem memoryNodeName memoryNodeText) (hreg : IsString mem regName regText)
    {bound : BitVec 32} (hleft : LeftOrdered mem fdtPtr (header.dtStart fdtPtr) header.offDtStrings
      bound tokens pre st s) (hread : m.RegRead bound tokens) :
    srvFdtGetMemorySize mem memoryNodeName regName s = .ok ((m.size.setWidth 32).setWidth 64) := by
  obtain ⟨hroom, hbelow⟩ := hread
  obtain ⟨rest, hrest⟩ := MemoryTree.flat_reg hflat
  rcases hleft.read_cases hrest with ⟨-, p, back, hpre, hfront⟩ | ⟨hnot, -⟩
  swap
  · exact absurd hbelow hnot
  obtain ⟨q, properties, hq, hchildren, -⟩ := filter_split hfront
  have hnode : pre = q ++ .beginNode memoryNodeText :: (properties ++ m.reg.token :: back) := by
    rw [hpre, hq, List.append_assoc, List.cons_append]
  obtain ⟨node, hfind, hnull, hcreated⟩ := hleft.find_child hnode hchildren hmemory
    memoryNodeText_ne m.before_label hroom
  obtain ⟨a, hproperty, hvalue⟩ := hleft.find_property hpre hfront hcreated
    (fun r hr => MemoryTree.property_name hflat hreached (List.mem_append_left _ hr))
    (m.reg_name ▸ MemoryTree.property_name hflat hreached (by simp)) hreg m.before_name
    (MemoryTree.propertiesBefore_length_lt hp)
  obtain ⟨post, hsplit⟩ := hleft.split
  have hsplit' : tokens = p ++ .prop m.reg.nameoff m.reg.value :: (back ++ post) := by
    rw [hsplit, hpre, List.append_assoc, List.cons_append]
    rfl
  have hbytes := hflat.blob.value hsplit'
  rw [m.reg_value] at hbytes
  rw [srvFdtGetMemorySize]
  simp only [hfind, bind, Except.bind, if_neg hnull, hproperty, hvalue, fdtRead32_size hbytes]
  rfl

theorem MemoryTree.getMemorySize_of_crowdedOut (hflat : FlatBlob mem fdtPtr header tokens m.tree)
    (hmemory : IsString mem memoryNodeName memoryNodeText)
    {bound : BitVec 32} (hleft : LeftOrdered mem fdtPtr (header.dtStart fdtPtr) header.offDtStrings
      bound tokens pre st s) (hcrowded : m.CrowdedOut bound tokens) :
    srvFdtGetMemorySize mem memoryNodeName regName s = .ok 0#64 := by
  obtain ⟨hroom, children, last, hbefore, hbelow⟩ := hcrowded
  obtain ⟨rest, hrest⟩ := MemoryTree.flat_last hflat hbefore
  rcases hleft.read_cases hrest with ⟨-, p, back, hpre, hfront⟩ | ⟨hnot, -⟩
  swap
  · exact absurd hbelow hnot
  rw [hbefore, List.length_append, List.length_singleton] at hroom
  have hother : ∀ child ∈ children ++ [last], child.label ≠ memoryNodeText :=
    hbefore ▸ m.before_label
  have hfind := hleft.find_full hpre hfront hmemory memoryNodeText_ne (hother last (by simp))
    (fun child hchild => hother child (List.mem_append_left _ hchild)) hroom
  rw [srvFdtGetMemorySize]
  simp only [hfind, bind, Except.bind, if_true]
  rfl

/-- Otherwise a search comes to a free slot. -/
theorem MemoryTree.getMemorySize_faults (hflat : FlatBlob mem fdtPtr header tokens m.tree)
    (hp : Parsable m.tree) (hreached : NamesReached header m.tree)
    (hmemory : IsString mem memoryNodeName memoryNodeText) (hreg : IsString mem regName regText)
    {bound : BitVec 32} (hleft : LeftOrdered mem fdtPtr (header.dtStart fdtPtr) header.offDtStrings
      bound tokens pre st s) (hread : ¬ m.RegRead bound tokens)
    (hcrowded : ¬ m.CrowdedOut bound tokens) :
    srvFdtGetMemorySize mem memoryNodeName regName s = .error .nullPointer := by
  have hnested : ∀ {back post : List Token} {t : Token}, tokens = pre ++ back ++ t :: post →
      (FdtTokens.nesting (pre ++ back)).isSome := by
    intro back post t hsplit
    obtain ⟨full, hfull, -⟩ := (wellFormed_of_flat hp hflat.flat).balanced
    exact Option.isSome_iff_exists.mpr (nesting_of_append (hsplit ▸ hfull))
  have hlt := MemoryTree.before_length_lt hp
  rw [srvFdtGetMemorySize]
  by_cases hroom : m.before.length + 1 < fdtMaxChildren
  · obtain ⟨rest, hrest⟩ := MemoryTree.flat_node hflat
    rcases hleft.read_cases hrest with ⟨-, p, back, hpre, hfront⟩ | ⟨-, back, post, hsplit, hfront⟩
    · -- the memory node has been read, but not its `reg`
      obtain ⟨node, hfind, hnull, hcreated⟩ := hleft.find_child hpre hfront hmemory
        memoryNodeText_ne m.before_label hroom
      obtain ⟨rest', hrest'⟩ := MemoryTree.flat_reg hflat
      rcases hleft.read_cases hrest' with ⟨hbelow, -⟩ | ⟨-, back', post', hsplit', hfront'⟩
      · exact absurd ⟨hroom, hbelow⟩ hread
      · have hfault := hleft.property_fault (hnested hsplit') hfront' hcreated
          (fun r hr => MemoryTree.property_name hflat hreached (List.mem_append_left _ hr)) hreg
          m.before_name (MemoryTree.propertiesBefore_length_lt hp)
        simp only [hfind, bind, Except.bind, if_neg hnull, hfault]
    · have hfault := hleft.find_fault (hnested hsplit) hfront hmemory memoryNodeText_ne
        m.before_label hroom
      simp only [hfault, bind, Except.bind]
  · -- the last slot of the root is still free
    rcases List.eq_nil_or_concat m.before with hnil | ⟨children, last, hbefore⟩
    · rw [hnil] at hroom
      exact absurd (by decide) hroom
    rw [List.concat_eq_append] at hbefore
    obtain ⟨rest, hrest⟩ := MemoryTree.flat_last hflat hbefore
    rcases hleft.read_cases hrest with ⟨hbelow, -⟩ | ⟨-, back, post, hsplit, hfront⟩
    · exact absurd ⟨by omega, children, last, hbefore, hbelow⟩ hcrowded
    · have hlength : m.before.length = children.length + 1 := by
        rw [hbefore, List.length_append, List.length_singleton]
      have hother : ∀ child ∈ children, child.label ≠ memoryNodeText := fun child hchild =>
        m.before_label child (hbefore ▸ List.mem_append_left _ hchild)
      have hfault := hleft.find_fault (hnested hsplit) hfront hmemory memoryNodeText_ne hother
        (by omega)
      simp only [hfault, bind, Except.bind]

def MemoryTree.Reported (m : MemoryTree) (bound : BitVec 32) (tokens : List Token) : Prop :=
  m.size.toNat < 2 ^ 32 ∧ m.RegRead bound tokens ∨ m.size = 0#64 ∧ m.CrowdedOut bound tokens

theorem low_word_eq_iff (size : BitVec 64) :
    (size.setWidth 32).setWidth 64 = size ↔ size.toNat < 2 ^ 32 := by
  rw [← BitVec.toNat_inj, BitVec.toNat_setWidth, BitVec.toNat_setWidth]
  omega

theorem FlatBlob.leftOrdered {t : DeviceTree} (hflat : FlatBlob mem fdtPtr header tokens t)
    (hp : Parsable t) (hstart : heap.currKallocEternalAddress ≠ NULL) (hheap : Suffices tokens heap)
    {n : ℕ} (hinit : srvFdtInit mem n (.zeroed heap) fdtPtr = .ok (s, true)) :
    ∃ pre st, LeftOrdered mem fdtPtr (header.dtStart fdtPtr) header.offDtStrings
      (bswap32 header.sizeDtStruct) tokens pre st s :=
  leftOrdered_of_done (hflat.blob.loaded hflat.small) (wellFormed_of_flat hp hflat.flat)
    suffices_rule (fdtRead32_of_holds hflat.blob.offDtStrings) hstart hheap
    (hflat.blob.parseLoop_of_init hflat.magic hinit).2

/-- The size that is reported is that of the memory node if and only if it fits a word and `reg` is
read, or it is 0 and the memory node finds no slot. -/
theorem srvFdtGetMemorySize_installed_iff (hflat : FlatBlob mem fdtPtr header tokens m.tree)
    (hp : Parsable m.tree) (hreached : NamesReached header m.tree)
    (hstart : heap.currKallocEternalAddress ≠ NULL) (hheap : Suffices tokens heap)
    (hmemory : IsString mem memoryNodeName memoryNodeText) (hreg : IsString mem regName regText) :
    (∃ n s, srvFdtInit mem n (.zeroed heap) fdtPtr = .ok (s, true)) ∧
      ∀ n s, srvFdtInit mem n (.zeroed heap) fdtPtr = .ok (s, true) →
        (srvFdtGetMemorySize mem memoryNodeName regName s = .ok m.size ↔
          m.Reported (bswap32 header.sizeDtStruct) tokens) := by
  refine ⟨hflat.srvFdtInit_true hp hstart hheap, fun n s hinit => ?_⟩
  obtain ⟨pre, st, hleft⟩ := hflat.leftOrdered hp hstart hheap hinit
  by_cases hread : m.RegRead (bswap32 header.sizeDtStruct) tokens
  · have hcrowded : ¬ m.CrowdedOut (bswap32 header.sizeDtStruct) tokens := fun h =>
      Nat.ne_of_lt hread.1 h.1
    rw [MemoryTree.getMemorySize_of_regRead hflat hp hreached hmemory hreg hleft hread,
      Except.ok.injEq, low_word_eq_iff]
    simp [MemoryTree.Reported, hread, hcrowded]
  by_cases hcrowded : m.CrowdedOut (bswap32 header.sizeDtStruct) tokens
  · rw [MemoryTree.getMemorySize_of_crowdedOut hflat hmemory hleft hcrowded, Except.ok.injEq]
    refine ⟨fun hsize => .inr ⟨hsize.symm, hcrowded⟩, fun hreported => ?_⟩
    rcases hreported with ⟨-, hread'⟩ | ⟨hsize, -⟩
    · exact absurd hread' hread
    · exact hsize.symm
  · rw [MemoryTree.getMemorySize_faults hflat hp hreached hmemory hreg hleft hread hcrowded]
    simp [MemoryTree.Reported, hread, hcrowded]

end Reported

def ramTree (size : BitVec 64) : MemoryTree where
  rootProperties := []
  before := []
  propertiesBefore := []
  reg := ⟨regText, 0#32, be64 0x80000000#64 ++ be64 size⟩
  propertiesAfter := []
  children := []
  after := []
  address := 0x80000000#64
  size := size
  before_label _ ht := nomatch ht
  before_name _ hp := nomatch hp
  reg_name := rfl
  reg_value := rfl

def ramBody (size : BitVec 64) : List Token :=
  [.beginNode [], .beginNode memoryNodeText, (ramTree size).reg.token, .endNode, .endNode]

def ramStrings : List Byte := regText ++ [0#8] ++ (memoryNodeText ++ [0#8])

/-- The tree in memory, with the literals of the code among its strings. -/
def ramMemory (size : BitVec 64) : Memory :=
  .ofBytes 0x82200000#64 (blobBytes (ramBody size) ramStrings)

section Ram

variable (size : BitVec 64)

theorem ramBody_length : (FdtTokens.encode (ramBody size ++ [.fdtEnd])).length = 68 := by
  have hlabel : memoryNodeText.length = 15 := by decide
  simp [FdtTokens.encode, ramBody, ramTree, TreeProperty.token, Token.encode, padded_length, be64,
    hlabel]

theorem ramBytes_length : (blobBytes (ramBody size) ramStrings).length = 144 := by
  rw [blobBytes_length, ramBody_length]
  decide

theorem ramMemory_string (front : List Byte) {text back : List Byte}
    (hnonzero : ∀ b ∈ text, b ≠ 0#8) (hstrings : ramStrings = front ++ (text ++ [0#8]) ++ back) :
    IsString (ramMemory size) (0x82200000#64 + BitVec.ofNat 64 (124 + front.length)) text := by
  have hlies : LiesAt (blobBytes (ramBody size) ramStrings) (text ++ [0#8])
      (56 + (FdtTokens.encode (ramBody size ++ [.fdtEnd])).length + front.length) :=
    blobBytes_strings hstrings
  rw [ramBody_length] at hlies
  exact ⟨hlies.holds (by rw [ramBytes_length]; decide), hnonzero⟩

theorem memoryNodeText_nonzero : ∀ b ∈ memoryNodeText, b ≠ 0#8 := by decide

theorem ramMemory_regText : IsString (ramMemory size) 0x8220007C#64 regText :=
  ramMemory_string size [] (by decide) rfl

theorem ramMemory_memoryNodeText : IsString (ramMemory size) 0x82200080#64 memoryNodeText :=
  ramMemory_string size (regText ++ [0#8]) memoryNodeText_nonzero (List.append_nil _).symm

theorem ramTree_properties {P : TreeProperty → Prop} (h : P (ramTree size).reg) :
    (ramTree size).tree.Every fun _ properties _ => ∀ p ∈ properties, P p := by
  refine ⟨fun p hp => (nomatch hp), ⟨fun p hp => ?_, trivial⟩, trivial⟩
  rwa [List.mem_singleton.mp hp]

theorem ramTree_parsable : Parsable (ramTree size).tree where
  root := rfl
  inner := ⟨⟨by decide, trivial⟩, trivial⟩
  fits := by
    simpa [ramTree, MemoryTree.tree, MemoryTree.node, RoseTree.Every, RoseTree.EveryList, NodeFits,
      fdtMaxChildren, fdtMaxProperties, be64] using memoryNodeText_nonzero

theorem ramTree_flatBlob : FlatBlob (ramMemory size) 0x82200000#64 (blobHeader (ramBody size))
    (ramBody size) (ramTree size).tree where
  magic := holds_at_base blobBytes_magic (by rw [ramBytes_length]; decide)
  blob := blob_blobBytes (by rw [ramBytes_length]; decide)
  flat := by simp [ramBody, ramTree, MemoryTree.tree, MemoryTree.node, TreeProperty.token, flatten,
    flattenList]
  size := by
    rw [blobHeader, ramBody_length]
    rfl
  strings := by
    refine ramTree_properties size ?_
    rw [blobHeader, ramBody_length]
    exact ramMemory_regText size

theorem ramTree_namesReached : NamesReached (blobHeader (ramBody size)) (ramTree size).tree := by
  refine ramTree_properties size ?_
  rw [blobHeader, ramBody_length]
  simp [ramTree]

theorem ramBody_suffices : Suffices (ramBody size) sampleHeap := by
  have hcost : ((ramBody size).map tokenCost).sum = 568 := rfl
  rw [Suffices, hcost]
  decide

theorem ramTree_regRead :
    (ramTree size).RegRead (bswap32 (blobHeader (ramBody size)).sizeDtStruct) (ramBody size) := by
  refine ⟨by simp [ramTree, fdtMaxChildren], [.beginNode [], .beginNode memoryNodeText], _, rfl,
    rfl, ?_⟩
  rw [blobHeader, ramBody_length]
  decide

/-- A memory of 128 MiB. -/
theorem srvFdtGetMemorySize_installed_128_mebibytes :
    (∃ n s, srvFdtInit (ramMemory 0x8000000#64) n (.zeroed sampleHeap) 0x82200000#64 =
        .ok (s, true)) ∧
      ∀ n s, srvFdtInit (ramMemory 0x8000000#64) n (.zeroed sampleHeap) 0x82200000#64 =
          .ok (s, true) →
        srvFdtGetMemorySize (ramMemory 0x8000000#64) 0x82200080#64 0x8220007C#64 s =
          .ok 0x8000000#64 := by
  obtain ⟨hinit, hsize⟩ := srvFdtGetMemorySize_installed_iff (ramTree_flatBlob 0x8000000#64)
    (ramTree_parsable _) (ramTree_namesReached _) (by decide) (ramBody_suffices _)
    (ramMemory_memoryNodeText _) (ramMemory_regText _)
  exact ⟨hinit, fun n s h => (hsize n s h).mpr (.inl ⟨by decide, ramTree_regRead _⟩)⟩

/-- A memory of 4 GiB is reported as none. -/
theorem srvFdtGetMemorySize_four_gibibytes :
    ∃ n s, srvFdtInit (ramMemory 0x100000000#64) n (.zeroed sampleHeap) 0x82200000#64 =
        .ok (s, true) ∧
      srvFdtGetMemorySize (ramMemory 0x100000000#64) 0x82200080#64 0x8220007C#64 s = .ok 0#64 ∧
      srvFdtGetMemorySize (ramMemory 0x100000000#64) 0x82200080#64 0x8220007C#64 s ≠
        .ok (ramTree 0x100000000#64).size := by
  have hflat := ramTree_flatBlob 0x100000000#64
  have hp := ramTree_parsable 0x100000000#64
  obtain ⟨n, s, hinit⟩ := hflat.srvFdtInit_true hp (by decide) (ramBody_suffices _)
  obtain ⟨pre, st, hleft⟩ := hflat.leftOrdered hp (by decide) (ramBody_suffices _) hinit
  have hsize := MemoryTree.getMemorySize_of_regRead hflat hp (ramTree_namesReached _)
    (ramMemory_memoryNodeText _) (ramMemory_regText _) hleft (ramTree_regRead _)
  refine ⟨n, s, hinit, hsize, ?_⟩
  rw [hsize]
  simp [ramTree]

end Ram

end SysRv.Fdt
