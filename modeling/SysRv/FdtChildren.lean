import SysRv.FdtLookup
import SysRv.FdtOrder

/-!
# The children of the root that are found

Where the parser stops among the tokens of a tree, what the table of the root holds then, and
what a search for a child by its name comes to. The root stands in its own first slot, so there
is room for 15 children.
-/

namespace SysRv.Fdt

open ByteMemory KString Kalloc Nesting FdtTokens ListSplits

def childFront (rootProperties : List TreeProperty) (children : List DeviceTree) : List Token :=
  .beginNode [] :: (rootProperties.map TreeProperty.token ++ flattenList children)

/-- Behind the tokens of `front` the next one lies below the bound, where `FDT_NOP` tokens do not
count. -/
def LiesBelow (bound : BitVec 32) (tokens front : List Token) (t : Token) : Prop :=
  ∃ pre post, tokens = pre ++ t :: post ∧ pre.filter (· ≠ .nop) = front ∧
    (FdtTokens.encode pre).length < bound.toNat

section Fronts

variable {tokens front pre post : List Token} {t : Token} {st : State PropertyItem}
  {rootProperties : List TreeProperty} {children : List DeviceTree}

@[simp] theorem nodeNames_append (ts us : List Token) :
    nodeNames (ts ++ us) = nodeNames ts ++ nodeNames us := by
  simp [nodeNames]

theorem nodeNames_beginNode (name : List Byte) (ts : List Token) :
    nodeNames (.beginNode name :: ts) = name :: nodeNames ts := rfl

theorem nodeNames_filter (ts : List Token) : nodeNames (ts.filter (· ≠ .nop)) = nodeNames ts := by
  rw [nodeNames, flatMap_outline_filter, nodeNames]

theorem nesting_parents_length (h : nesting pre = some st) :
    st.parents.length = (nodeNames pre).length := by
  rw [run_parents_length h, nodeNames, ← events_outline 0, openings_map]
  exact Nat.zero_add _

theorem flatMap_outline_childFront :
    (childFront rootProperties children).flatMap outline =
      (RoseTree.front [] rootProperties children).map (Event.map TreeProperty.nameoff) := by
  rw [childFront, RoseTree.front, List.flatMap_cons, List.flatMap_append,
    flatMap_outline_properties, flatMap_outline_flattenList, List.map_cons, List.map_append]
  rfl

theorem nesting_childFront (hfront : pre.filter (· ≠ .nop) = childFront rootProperties children)
    (h : nesting pre = some st) : st.opened = [0] ∧
      childrenIn (nodeNames pre) st.parents 0 = children.map RoseTree.label := by
  have hrun : (run List.isEmpty .initial (RoseTree.front [] rootProperties children)).map
      (State.map TreeProperty.nameoff) = some (st.map PropertyItem.nameoff) := by
    have houtline := nesting_outline pre
    rw [h, hfront, flatMap_outline_childFront, Option.map_some] at houtline
    exact (run_map TreeProperty.nameoff State.initial _).symm.trans houtline.symm
  obtain ⟨u, hu, heq⟩ := Option.map_eq_some_iff.mp hrun
  obtain ⟨hopened, hchildren⟩ := run_front hu
  have hopened' : u.opened = st.opened := congrArg State.opened heq
  have hparents' : u.parents = st.parents := congrArg State.parents heq
  have hnames : nodeNames pre = openings (RoseTree.front [] rootProperties children) := by
    rw [← nodeNames_filter, hfront, nodeNames, flatMap_outline_childFront, openings_map]
  rw [← hopened', ← hparents', hnames]
  exact ⟨hopened, hchildren⟩

theorem nesting_open {name : List Byte} {st' : State PropertyItem} (h : nesting pre = some st)
    (h' : nesting (pre ++ .beginNode name :: post) = some st') :
    ∃ parents, st'.parents = st.parents ++ st.opened.head? :: parents := by
  have hsnoc : pre ++ .beginNode name :: post = (pre ++ [.beginNode name]) ++ post := by simp
  rw [hsnoc] at h'
  obtain ⟨u, hu⟩ := nesting_of_append h'
  obtain ⟨⟨parents, hparents⟩, -⟩ := nesting_extends hu h'
  rw [nesting_append_singleton, h, Option.bind_some] at hu
  have hstep : step List.isEmpty st (.opening name : FdtEvent) = some u := by
    simpa [Token.event] using hu
  obtain ⟨-, -, rfl⟩ := step_opening hstep
  exact ⟨parents, by rw [← hparents, open_parents, List.append_assoc]; rfl⟩

end Fronts

section Left

variable {mem : Memory} {infoBlock dt nodeName : Addr} {strings bound : BitVec 32}
  {tokens front pre p back rest : List Token} {t : Token} {st : State PropertyItem} {s : FdtState}
  {rootProperties : List TreeProperty} {children : List DeviceTree} {label text : List Byte}

/-- A token that lies below the bound has been read. Otherwise the parser has stopped among the
tokens in front of it. -/
theorem LeftOrdered.read_cases (h : LeftOrdered mem infoBlock dt strings bound tokens pre st s)
    (hflat : tokens.filter (· ≠ .nop) = front ++ t :: rest) :
    (LiesBelow bound tokens front t ∧ ∃ p back, pre = p ++ t :: back ∧
      p.filter (· ≠ .nop) = front) ∨
    (¬ LiesBelow bound tokens front t ∧ ∃ back post, tokens = pre ++ back ++ t :: post ∧
      (pre ++ back).filter (· ≠ .nop) = front) := by
  by_cases hbelow : LiesBelow bound tokens front t
  · refine .inl ⟨hbelow, ?_⟩
    obtain ⟨p, post, hsplit, hfront, hlt⟩ := hbelow
    obtain ⟨back, hpre⟩ := h.read p t post hsplit hlt
    exact ⟨p, back, hpre, hfront⟩
  · refine .inr ⟨hbelow, ?_⟩
    obtain ⟨p, post, hsplit, hfront, -⟩ := filter_split hflat
    obtain ⟨left, hleft⟩ := h.split
    rcases split_cases (hleft.symm.trans hsplit) with ⟨back, hpre⟩ | ⟨back, rfl⟩
    · exact absurd ⟨p, post, hsplit, hfront, h.below p t back hpre⟩ hbelow
    · exact ⟨back, post, hsplit, hfront⟩

theorem LeftOrdered.named (h : LeftOrdered mem infoBlock dt strings bound tokens pre st s) :
    Named mem (fun p => (s.nodes p).name) s.created (nodeNames pre) :=
  (List.forall₂_and_left _ _).mpr ⟨fun p hp => (h.tracks.below p hp).1, h.ordered.named⟩

theorem LeftOrdered.rootTable (h : LeftOrdered mem infoBlock dt strings bound tokens pre st s)
    {root : Addr} (hroot : s.created[0]? = some root) : s.rootNode = root ∧
      (s.nodes root).children.Lists
        ((root :: childrenIn s.created st.parents 0).take fdtMaxChildren) := by
  refine ⟨?_, SlotTable.listsBy_eq_iff.mp (h.ordered.children 0 root hroot)⟩
  rw [h.rootNode]
  cases hcreated : s.created with
  | nil => simp [hcreated] at hroot
  | cons p rest => simpa [hcreated] using hroot

/-- Where the child behind a front has been read, the table of the root has the root, the children
of the front and that child, as far as there are slots. -/
theorem LeftOrdered.child_read (h : LeftOrdered mem infoBlock dt strings bound tokens pre st s)
    (hpre : pre = p ++ .beginNode label :: back)
    (hfront : p.filter (· ≠ .nop) = childFront rootProperties children) :
    ∃ entries node more, s.rootNode ≠ NULL ∧
      (s.nodes s.rootNode).children.Lists
        ((s.rootNode :: (entries ++ node :: more)).take fdtMaxChildren) ∧
      Named mem (fun p => (s.nodes p).name) (s.rootNode :: entries)
        ([] :: children.map RoseTree.label) ∧
      node ≠ NULL ∧ IsString mem (s.nodes node).name label ∧
      s.created[(nodeNames (childFront rootProperties children)).length]? = some node := by
  subst hpre
  obtain ⟨st₁, hst₁⟩ := nesting_of_append h.nesting
  obtain ⟨hopened, hchildren⟩ := nesting_childFront hfront hst₁
  obtain ⟨parents, hparents⟩ := nesting_open hst₁ h.nesting
  rw [hopened, List.head?_cons] at hparents
  have hnamed := h.named
  rw [nodeNames_append, nodeNames_beginNode] at hnamed
  obtain ⟨before, node, after, hcreated, hbefore, ⟨hnull, hnode⟩, -⟩ := forall₂_split hnamed
  have hlen : before.length = st₁.parents.length := by
    rw [hbefore.length_eq, nesting_parents_length hst₁]
  have hnames : nodeNames p = nodeNames (childFront rootProperties children) := by
    rw [← nodeNames_filter, hfront]
  -- the root is the first node read
  obtain ⟨root, others, ⟨hroot, hrootName⟩, -, rfl⟩ :=
    List.forall₂_cons_right_iff.mp (show Named mem (fun p => (s.nodes p).name) before
      ([] :: nodeNames (rootProperties.map TreeProperty.token ++ flattenList children)) by
        rwa [hnames] at hbefore)
  have hfirst : s.created[0]? = some root := by rw [hcreated]; rfl
  obtain ⟨hrootNode, htable⟩ := h.rootTable hfirst
  have hentries : childrenIn s.created st.parents 0 =
      childrenIn (root :: others) st₁.parents 0 ++ node :: childrenIn after parents 0 := by
    rw [hcreated, hparents, childrenIn_append hlen, childrenIn_cons, if_pos rfl]
    rfl
  refine ⟨childrenIn (root :: others) st₁.parents 0, node, childrenIn after parents 0,
    hrootNode ▸ hroot, ?_, ?_, hnull, hnode, ?_⟩
  · rw [hrootNode, ← hentries]
    exact htable
  · rw [hrootNode, ← hchildren]
    exact .cons ⟨hroot, hrootName⟩ (childrenIn_forall₂ hbefore)
  · rw [← hnames, ← hbefore.length_eq, hcreated, List.getElem?_append_right (Nat.le_refl _),
      Nat.sub_self]
    rfl

/-- Where the parser has stopped in front of the child behind a front, the table of the root has
the root and some of the children of the front, unless there is no root. -/
theorem LeftOrdered.child_unread (h : LeftOrdered mem infoBlock dt strings bound tokens pre st s)
    (hbody : (FdtTokens.nesting (pre ++ back)).isSome)
    (hfront : (pre ++ back).filter (· ≠ .nop) = childFront rootProperties children) :
    s.rootNode = NULL ∨ ∃ entries names, s.rootNode ≠ NULL ∧
      (s.nodes s.rootNode).children.Lists ((s.rootNode :: entries).take fdtMaxChildren) ∧
      Named mem (fun p => (s.nodes p).name) (s.rootNode :: entries) ([] :: names) ∧
      names <+: children.map RoseTree.label := by
  cases hcreated : s.created with
  | nil => exact .inl (by rw [h.rootNode, hcreated]; rfl)
  | cons root others =>
    have hfirst : s.created[0]? = some root := by rw [hcreated]; rfl
    obtain ⟨hrootNode, htable⟩ := h.rootTable hfirst
    have hnamed := h.named
    obtain ⟨st₁, hst₁⟩ := Option.isSome_iff_exists.mp hbody
    obtain ⟨-, hchildren⟩ := nesting_childFront hfront hst₁
    obtain ⟨hparents, -⟩ := nesting_extends h.nesting hst₁
    -- the first name is that of the root
    have hrootLabel : ∃ names, nodeNames pre = [] :: names := by
      have hall : nodeNames pre ++ nodeNames back = [] ::
          nodeNames (rootProperties.map TreeProperty.token ++ flattenList children) := by
        rw [← nodeNames_append, ← nodeNames_filter, hfront]
        rfl
      cases hnames : nodeNames pre with
      | nil => simp [hnames, hcreated] at hnamed
      | cons name names =>
        rw [hnames, List.cons_append, List.cons.injEq] at hall
        exact ⟨names, by rw [hall.1]⟩
    obtain ⟨names, hnames⟩ := hrootLabel
    have hroot : root ≠ NULL ∧ IsString mem (s.nodes root).name [] := by
      rw [hnames, hcreated] at hnamed
      exact (List.forall₂_cons.mp hnamed).1
    refine .inr ⟨childrenIn s.created st.parents 0, childrenIn (nodeNames pre) st.parents 0,
      hrootNode ▸ hroot.1, hrootNode ▸ htable,
      hrootNode ▸ .cons hroot (childrenIn_forall₂ hnamed), ?_⟩
    rw [← hchildren]
    exact childrenIn_mono (nesting_parents_length h.nesting).symm
      (nodeNames_append .. ▸ List.prefix_append _ _) hparents

theorem SlotTable.Lists.namedTable {n : ℕ} {table : SlotTable n} {nameOf : Addr → Addr}
    {entries : List Addr} {names : List (List Byte)} (h : table.Lists entries)
    (hnamed : Named mem nameOf entries names) :
    NamedTable mem nameOf table entries names := ⟨h.slots, hnamed⟩

theorem SlotTable.Lists.findNamed_hit {n : ℕ} {table : SlotTable n} {nameOf : Addr → Addr}
    {a name : Addr} {entries more : List Addr} {names : List (List Byte)}
    (h : table.Lists (entries ++ a :: more)) (hnamed : Named mem nameOf entries names)
    (hother : text ∉ names) (ha : IsString mem (nameOf a) text) (hname : IsString mem name text) :
    findNamed mem nameOf name table.slots = .ok (some a) := by
  have hnull : a ≠ NULL := h.taken a (by simp)
  rw [h.slots, List.append_assoc, findNamed_skip hnamed hname hother, List.cons_append,
    Fdt.findNamed_hit hnull ha hname]

theorem text_notMem (htext : text ≠ []) (hother : ∀ child ∈ children, child.label ≠ text) :
    text ∉ [] :: children.map RoseTree.label := by
  rw [List.mem_cons, not_or]
  refine ⟨htext, fun hmem => ?_⟩
  obtain ⟨child, hchild, heq⟩ := List.mem_map.mp hmem
  exact hother child hchild heq

theorem LeftOrdered.find_child (h : LeftOrdered mem infoBlock dt strings bound tokens pre st s)
    (hpre : pre = p ++ .beginNode text :: back)
    (hfront : p.filter (· ≠ .nop) = childFront rootProperties children)
    (hname : IsString mem nodeName text) (htext : text ≠ [])
    (hother : ∀ child ∈ children, child.label ≠ text)
    (hroom : children.length + 1 < fdtMaxChildren) :
    ∃ node, fdtFindNodeByName mem s s.rootNode nodeName = .ok node ∧ node ≠ NULL ∧
      s.created[(nodeNames (childFront rootProperties children)).length]? = some node := by
  obtain ⟨entries, node, more, hroot, htable, hnamed, hnull, hnode, hcreated⟩ :=
    h.child_read hpre hfront
  refine ⟨node, ?_, hnull, hcreated⟩
  have hlen : (s.rootNode :: entries).length = children.length + 1 := by
    simpa using hnamed.length_eq
  obtain ⟨k, hk⟩ : ∃ k, fdtMaxChildren - (s.rootNode :: entries).length = k + 1 :=
    ⟨fdtMaxChildren - (s.rootNode :: entries).length - 1, by omega⟩
  rw [← List.cons_append, List.take_append, List.take_of_length_le (by omega), hk,
    List.take_succ_cons] at htable
  rw [fdtFindNodeByName_eq hroot,
    htable.findNamed_hit hnamed (text_notMem htext hother) hnode hname]
  rfl

/-- Where the last slot of the root has gone to another child, the search finds nothing. -/
theorem LeftOrdered.find_full (h : LeftOrdered mem infoBlock dt strings bound tokens pre st s)
    (hpre : pre = p ++ .beginNode label :: back)
    (hfront : p.filter (· ≠ .nop) = childFront rootProperties children)
    (hname : IsString mem nodeName text) (htext : text ≠ []) (hlabel : label ≠ text)
    (hother : ∀ child ∈ children, child.label ≠ text)
    (hroom : children.length + 2 = fdtMaxChildren) :
    fdtFindNodeByName mem s s.rootNode nodeName = .ok NULL := by
  obtain ⟨entries, node, more, hroot, htable, hnamed, hnull, hnode, -⟩ := h.child_read hpre hfront
  have hlen : (s.rootNode :: entries).length = children.length + 1 := by
    simpa using hnamed.length_eq
  have hone : fdtMaxChildren - (s.rootNode :: entries).length = 1 := by omega
  rw [← List.cons_append, List.take_append, List.take_of_length_le (by omega), hone,
    List.take_succ_cons, List.take_zero] at htable
  have hall : Named mem (fun p => (s.nodes p).name) (s.rootNode :: entries ++ [node])
      ([] :: children.map RoseTree.label ++ [label]) :=
    List.rel_append hnamed (.cons ⟨hnull, hnode⟩ .nil)
  have hnone : text ∉ [] :: children.map RoseTree.label ++ [label] := by
    rw [List.mem_append, not_or]
    exact ⟨text_notMem htext hother, by simpa using Ne.symm hlabel⟩
  have hfull : (s.rootNode :: entries ++ [node]).length = fdtMaxChildren := by
    rw [List.length_append, List.length_singleton, hlen]
    omega
  rw [fdtFindNodeByName_of_named hroot (htable.namedTable hall) hname, if_pos (.inr hfull),
    firstNamed_of_notMem hnone]

/-- Where the parser has stopped in front of a child that there is a slot for, the search for a
name of none of the children before ends at a free slot. -/
theorem LeftOrdered.find_fault (h : LeftOrdered mem infoBlock dt strings bound tokens pre st s)
    (hbody : (FdtTokens.nesting (pre ++ back)).isSome)
    (hfront : (pre ++ back).filter (· ≠ .nop) = childFront rootProperties children)
    (hname : IsString mem nodeName text) (htext : text ≠ [])
    (hother : ∀ child ∈ children, child.label ≠ text)
    (hroom : children.length + 1 < fdtMaxChildren) :
    fdtFindNodeByName mem s s.rootNode nodeName = .error .nullPointer := by
  rcases h.child_unread hbody hfront with hnull | ⟨entries, names, hroot, htable, hnamed, hfew⟩
  · rw [fdtFindNodeByName, hnull]
    rfl
  · have hlen : (s.rootNode :: entries).length = names.length + 1 := by
      simpa using hnamed.length_eq
    have hle := hfew.length_le
    rw [List.length_map] at hle
    have hnone : text ∉ [] :: names := fun hmem =>
      text_notMem htext hother (List.mem_cons.mpr ((List.mem_cons.mp hmem).imp id
        fun hmem => hfew.subset hmem))
    rw [List.take_of_length_le (by omega)] at htable
    have hfree : (s.rootNode :: entries).length ≠ fdtMaxChildren := by omega
    rw [fdtFindNodeByName_of_named hroot (htable.namedTable hnamed) hname,
      if_neg (not_or.mpr ⟨hnone, hfree⟩)]

end Left

end SysRv.Fdt
