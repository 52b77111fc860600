import SysRv.FdtSpec

/-!
# Looking up nodes and properties

The accessors of `drivers/fdt/fdt.c` that search a table by name. A search goes on to the end
of the table, so it comes to the free slots unless it finds its entry before them; there it
reads a name through the null pointer.
-/

namespace SysRv.Fdt

open ByteMemory KString

/-- The loop over the slots of a table, up to the first entry with the name. -/
def findNamed (mem : Memory) (nameOf : Addr → Addr) (name : Addr) :
    List Addr → Except Fault (Option Addr)
  | [] => .ok none
  | p :: slots => do
    checkPointer p
    let order ← strcmp mem (nameOf p) name
    if order = 0 then return some p else findNamed mem nameOf name slots

def fdtFindNodeByName (mem : Memory) (s : FdtState) (root nodeName : Addr) : Except Fault Addr := do
  checkPointer root
  let node ← findNamed mem (fun p => (s.nodes p).name) nodeName (s.nodes root).children.slots
  return node.getD NULL

def srvFdtGetMemorySize (mem : Memory) (memoryNodeName regName : Addr) (s : FdtState) :
    Except Fault (BitVec 64) := do
  let memoryNode ← fdtFindNodeByName mem s s.rootNode memoryNodeName
  if memoryNode = NULL then return 0#64
  else
    match ← findNamed mem (fun p => (s.nodeProperties p).name) regName
        (s.nodes memoryNode).properties.slots with
    | none => return 0#64
    | some prop =>
      let sizeLo ← fdtRead32 mem ((s.nodeProperties prop).value + 12#64)
      return sizeLo.setWidth 64

def memoryNodeText : List Byte := literal "memory@80000000"

def regText : List Byte := literal "reg"

/-- Pointers to entries with the given names. -/
abbrev Named (mem : Memory) (nameOf : Addr → Addr) : List Addr → List (List Byte) → Prop :=
  List.Forall₂ fun p name => p ≠ NULL ∧ IsString mem (nameOf p) name

structure NamedTable (mem : Memory) (nameOf : Addr → Addr) {n : ℕ} (table : SlotTable n)
    (entries : List Addr) (names : List (List Byte)) : Prop where
  slots : table.slots = entries ++ List.replicate (n - entries.length) NULL
  named : Named mem nameOf entries names

def NamedChildren (mem : Memory) (s : FdtState) (node : Addr) : List Addr → List (List Byte) → Prop :=
  NamedTable mem (fun p => (s.nodes p).name) (s.nodes node).children

def NamedProperties (mem : Memory) (s : FdtState) (node : Addr) :
    List Addr → List (List Byte) → Prop :=
  NamedTable mem (fun p => (s.nodeProperties p).name) (s.nodes node).properties

/-- The first entry with a name, NULL for none. -/
def firstNamed (text : List Byte) (entries : List Addr) (names : List (List Byte)) : Addr :=
  (((entries.zip names).find? fun e => e.2 = text).map Prod.fst).getD NULL

section Search

variable {mem : Memory} {nameOf : Addr → Addr} {name p : Addr} {text : List Byte}
  {entries slots : List Addr} {names : List (List Byte)}

theorem findNamed_hit (hp : p ≠ NULL) (hentry : IsString mem (nameOf p) text)
    (hname : IsString mem name text) : findNamed mem nameOf name (p :: slots) = .ok (some p) := by
  obtain ⟨order, horder, hzero⟩ := exists_strcmp_of_isString hentry hname
  have heq : order = 0 := hzero.mpr rfl
  simp only [findNamed, checkPointer_of_ne hp, horder, bind, Except.bind, if_pos heq]
  rfl

theorem findNamed_skip (hnamed : Named mem nameOf entries names) (hname : IsString mem name text)
    (hother : text ∉ names) :
    findNamed mem nameOf name (entries ++ slots) = findNamed mem nameOf name slots := by
  induction hnamed with
  | nil => rfl
  | cons hp _ ih =>
    rw [List.mem_cons, not_or] at hother
    obtain ⟨order, horder, hzero⟩ := exists_strcmp_of_isString hp.2 hname
    have hne : ¬ order = 0 := fun h => hother.1 (hzero.mp h).symm
    rw [List.cons_append, findNamed]
    simp only [checkPointer_of_ne hp.1, horder, bind, Except.bind, if_neg hne]
    exact ih hother.2

/-- A search that comes to a free slot goes through the null pointer. -/
theorem findNamed_null : findNamed mem nameOf name (NULL :: slots) = .error .nullPointer := by
  simp [findNamed, checkPointer, bind, Except.bind]

theorem firstNamed_cons (p : Addr) (name : List Byte) :
    firstNamed text (p :: entries) (name :: names) =
      if name = text then p else firstNamed text entries names := by
  by_cases h : name = text
  · simp [firstNamed, h]
  · simp [firstNamed, h]

theorem firstNamed_of_notMem (h : text ∉ names) : firstNamed text entries names = NULL := by
  induction names generalizing entries with
  | nil => simp [firstNamed]
  | cons name names ih =>
    cases entries with
    | nil => simp [firstNamed]
    | cons p entries =>
      rw [List.mem_cons, not_or] at h
      rw [firstNamed_cons, if_neg (Ne.symm h.1), ih h.2]

theorem Named.firstNamed_ne (hnamed : Named mem nameOf entries names) (h : text ∈ names) :
    firstNamed text entries names ≠ NULL := by
  induction hnamed with
  | nil => simp at h
  | @cons p name entries names hp _ ih =>
    rw [firstNamed_cons]
    by_cases heq : name = text
    · rw [if_pos heq]
      exact hp.1
    · rw [if_neg heq]
      exact ih ((List.mem_cons.mp h).resolve_left (Ne.symm heq))

theorem findNamed_mem (hnamed : Named mem nameOf entries names) (hname : IsString mem name text)
    (h : text ∈ names) : findNamed mem nameOf name (entries ++ slots) =
      .ok (some (firstNamed text entries names)) := by
  induction hnamed with
  | nil => simp at h
  | @cons p name' entries names hp _ ih =>
    rw [firstNamed_cons]
    by_cases heq : name' = text
    · rw [if_pos heq, List.cons_append, findNamed_hit hp.1 (heq ▸ hp.2) hname]
    · have hone : Named mem nameOf [p] [name'] := .cons hp .nil
      have hskip : findNamed mem nameOf name ([p] ++ (entries ++ slots)) =
          findNamed mem nameOf name (entries ++ slots) :=
        findNamed_skip hone hname (by simpa using Ne.symm heq)
      rw [if_neg heq, ← ih ((List.mem_cons.mp h).resolve_left (Ne.symm heq)), ← hskip]
      rfl

theorem NamedTable.findNamed {n : ℕ} {table : SlotTable n}
    (ht : NamedTable mem nameOf table entries names) (hname : IsString mem name text) :
    Fdt.findNamed mem nameOf name table.slots =
      if text ∈ names then .ok (some (firstNamed text entries names))
      else if entries.length = n then .ok none else .error .nullPointer := by
  have hsize := table.size
  rw [ht.slots] at hsize
  simp only [List.length_append, List.length_replicate] at hsize
  rw [ht.slots]
  by_cases hmem : text ∈ names
  · rw [if_pos hmem, findNamed_mem ht.named hname hmem]
  · rw [if_neg hmem, findNamed_skip ht.named hname hmem]
    by_cases hfull : entries.length = n
    · rw [if_pos hfull, hfull, Nat.sub_self]
      rfl
    · obtain ⟨free, hfree⟩ : ∃ free, n - entries.length = free + 1 := ⟨n - entries.length - 1, by omega⟩
      rw [if_neg hfull, hfree, List.replicate_succ, findNamed_null]

end Search

section Accessors

variable {mem : Memory} {s : FdtState} {node nodeName memoryNodeName regName : Addr}
  {text : List Byte} {entries properties : List Addr} {names propertyNames : List (List Byte)}

theorem fdtFindNodeByName_eq (hnode : node ≠ NULL) :
    fdtFindNodeByName mem s node nodeName =
      (findNamed mem (fun p => (s.nodes p).name) nodeName (s.nodes node).children.slots).map
        fun found => found.getD NULL := by
  rw [fdtFindNodeByName, checkPointer_of_ne hnode]
  simp only [bind, Except.bind]
  cases findNamed mem (fun p => (s.nodes p).name) nodeName (s.nodes node).children.slots <;> rfl

theorem fdtFindNodeByName_of_named (hnode : node ≠ NULL)
    (h : NamedChildren mem s node entries names) (hname : IsString mem nodeName text) :
    fdtFindNodeByName mem s node nodeName =
      if text ∈ names ∨ entries.length = fdtMaxChildren then .ok (firstNamed text entries names)
      else .error .nullPointer := by
  rw [fdtFindNodeByName_eq hnode, NamedTable.findNamed h hname]
  by_cases hmem : text ∈ names
  · rw [if_pos hmem, if_pos (Or.inl hmem)]
    rfl
  · by_cases hfull : entries.length = fdtMaxChildren
    · rw [if_neg hmem, if_pos hfull, if_pos (Or.inr hfull), firstNamed_of_notMem hmem]
      rfl
    · rw [if_neg hmem, if_neg hfull, if_neg (not_or.mpr ⟨hmem, hfull⟩)]
      rfl

/-- Without a memory node the answer is 0, or a fault at a free slot of the root. -/
theorem srvFdtGetMemorySize_of_no_memory (hroot : s.rootNode ≠ NULL)
    (h : NamedChildren mem s s.rootNode entries names)
    (hmemory : IsString mem memoryNodeName memoryNodeText) (hnone : memoryNodeText ∉ names) :
    srvFdtGetMemorySize mem memoryNodeName regName s =
      if entries.length = fdtMaxChildren then .ok 0#64 else .error .nullPointer := by
  rw [srvFdtGetMemorySize]
  simp only [fdtFindNodeByName_of_named hroot h hmemory, hnone, false_or, bind, Except.bind]
  by_cases hfull : entries.length = fdtMaxChildren
  · simp only [if_pos hfull, firstNamed_of_notMem hnone]
    rfl
  · simp only [if_neg hfull]

theorem srvFdtGetMemorySize_of_memory (hroot : s.rootNode ≠ NULL)
    (h : NamedChildren mem s s.rootNode entries names)
    (hmemory : IsString mem memoryNodeName memoryNodeText) (hmem : memoryNodeText ∈ names)
    (hp : NamedProperties mem s (firstNamed memoryNodeText entries names) properties propertyNames)
    (hreg : IsString mem regName regText) :
    srvFdtGetMemorySize mem memoryNodeName regName s =
      if regText ∈ propertyNames then
        (fdtRead32 mem ((s.nodeProperties (firstNamed regText properties propertyNames)).value +
          12#64)).map fun sizeLo => sizeLo.setWidth 64
      else if properties.length = fdtMaxProperties then .ok 0#64 else .error .nullPointer := by
  have hne := h.named.firstNamed_ne hmem
  rw [srvFdtGetMemorySize]
  simp only [fdtFindNodeByName_of_named hroot h hmemory, if_pos (Or.inl hmem), bind, Except.bind,
    if_neg hne, NamedTable.findNamed hp hreg]
  by_cases hthere : regText ∈ propertyNames
  · simp only [if_pos hthere]
    rfl
  · by_cases hfull : properties.length = fdtMaxProperties
    · simp only [if_neg hthere, if_pos hfull]
      rfl
    · simp only [if_neg hthere, if_neg hfull]

/-- The lookups end without a fault, with the answer for an entry that is not there, if and
only if the entry is there or the table that is searched has no free slot. -/
theorem fdt_lookups_total_iff (hmemory : IsString mem memoryNodeName memoryNodeText)
    (hreg : IsString mem regName regText) :
    (∀ node entries names nodeName text, node ≠ NULL → NamedChildren mem s node entries names →
      IsString mem nodeName text →
      (fdtFindNodeByName mem s node nodeName = .ok (firstNamed text entries names) ↔
        text ∈ names ∨ entries.length = fdtMaxChildren)) ∧
    (∀ entries names properties propertyNames, s.rootNode ≠ NULL →
      NamedChildren mem s s.rootNode entries names → memoryNodeText ∈ names →
      NamedProperties mem s (firstNamed memoryNodeText entries names) properties propertyNames →
      regText ∉ propertyNames →
      (srvFdtGetMemorySize mem memoryNodeName regName s = .ok 0#64 ↔
        properties.length = fdtMaxProperties)) ∧
    (∀ entries names, s.rootNode ≠ NULL → NamedChildren mem s s.rootNode entries names →
      memoryNodeText ∉ names →
      (srvFdtGetMemorySize mem memoryNodeName regName s = .ok 0#64 ↔
        entries.length = fdtMaxChildren)) := by
  refine ⟨fun node entries names nodeName text hnode h hname => ?_,
    fun entries names properties propertyNames hroot h hmem hp hnone => ?_,
    fun entries names hroot h hnone => ?_⟩
  · rw [fdtFindNodeByName_of_named hnode h hname]
    by_cases hfound : text ∈ names ∨ entries.length = fdtMaxChildren
    · rw [if_pos hfound]
      exact iff_of_true rfl hfound
    · rw [if_neg hfound]
      exact iff_of_false (by simp) hfound
  · rw [srvFdtGetMemorySize_of_memory hroot h hmemory hmem hp hreg, if_neg hnone]
    simp
  · rw [srvFdtGetMemorySize_of_no_memory hroot h hmemory hnone]
    simp

end Accessors

def literalMemory : Memory :=
  .ofBytes 0x80210000#64 (memoryNodeText ++ [0#8] ++ (regText ++ [0#8]))

/-- What the parser leaves of a root without children: its first slot holds the root itself. -/
def rootOnly : FdtState :=
  { FdtState.zeroed (.fresh 0x80300110#64 0x80400000#64) with
    rootNode := 0x80300000#64
    nodes := fun _ =>
      ⟨NULL, ⟨0x80300000#64 :: List.replicate 15 NULL, rfl⟩, .empty _, 0x8021000F#64⟩ }

theorem literalMemory_memoryNodeText : IsString literalMemory 0x80210000#64 memoryNodeText :=
  ⟨holds_at_base ⟨regText ++ [0#8], rfl⟩ (by decide), by decide⟩

theorem literalMemory_regText : IsString literalMemory 0x80210010#64 regText := by
  have hlies : LiesAt (memoryNodeText ++ [0#8] ++ (regText ++ [0#8])) (regText ++ [0#8]) 16 :=
    ⟨memoryNodeText ++ [0#8], [], by simp, rfl⟩
  exact ⟨hlies.holds (by decide), by decide⟩

theorem rootOnly_namedChildren :
    NamedChildren literalMemory rootOnly 0x80300000#64 [0x80300000#64] [[]] where
  slots := rfl
  named := .cons ⟨by decide, ⟨by decide, trivial⟩, by simp⟩ .nil

/-- A tree without a memory node: the search goes on to the second slot of the root. -/
theorem srvFdtGetMemorySize_faults_root_only :
    NamedChildren literalMemory rootOnly rootOnly.rootNode [0x80300000#64] [[]] ∧
      memoryNodeText ∉ [([] : List Byte)] ∧
      fdtFindNodeByName literalMemory rootOnly rootOnly.rootNode 0x80210000#64 ≠ .ok NULL ∧
      srvFdtGetMemorySize literalMemory 0x80210000#64 0x80210010#64 rootOnly ≠ .ok 0#64 := by
  have hroot : rootOnly.rootNode ≠ NULL := by decide
  have hnone : memoryNodeText ∉ [([] : List Byte)] := by decide
  refine ⟨rootOnly_namedChildren, hnone, ?_, ?_⟩
  · rw [fdtFindNodeByName_of_named hroot rootOnly_namedChildren literalMemory_memoryNodeText]
    simp [hnone, fdtMaxChildren]
  · rw [srvFdtGetMemorySize_of_no_memory hroot rootOnly_namedChildren literalMemory_memoryNodeText
      hnone]
    simp [fdtMaxChildren]

def twoChildren : FdtState :=
  { FdtState.zeroed (.fresh 0x80300330#64 0x80400000#64) with
    rootNode := 0x80300000#64
    nodes := fun p =>
      ⟨NULL,
        ⟨[0x80300000#64, 0x80300110#64, 0x80300220#64] ++ List.replicate 13 NULL, rfl⟩, .empty _,
        if p = 0x80300110#64 then 0x80210010#64
        else if p = 0x80300220#64 then 0x80210000#64
        else 0x8021000F#64⟩ }

theorem twoChildren_namedChildren :
    NamedChildren literalMemory twoChildren 0x80300000#64
      [0x80300000#64, 0x80300110#64, 0x80300220#64] [[], regText, memoryNodeText] where
  slots := rfl
  named := .cons ⟨by decide, ⟨by decide, trivial⟩, by simp⟩
    (.cons ⟨by decide, literalMemory_regText⟩ (.cons ⟨by decide, literalMemory_memoryNodeText⟩ .nil))

/-- The third slot is found by its name. The node there has no properties, so that the search for
its size goes wrong. -/
theorem fdt_lookups_total_two_children :
    fdtFindNodeByName literalMemory twoChildren 0x80300000#64 0x80210000#64 = .ok 0x80300220#64 ∧
      srvFdtGetMemorySize literalMemory 0x80210000#64 0x80210010#64 twoChildren ≠ .ok 0#64 := by
  obtain ⟨hnodes, hproperties, -⟩ := fdt_lookups_total_iff (s := twoChildren)
    literalMemory_memoryNodeText literalMemory_regText
  constructor
  · exact (hnodes 0x80300000#64 _ _ 0x80210000#64 memoryNodeText (by decide)
      twoChildren_namedChildren literalMemory_memoryNodeText).mpr (.inl (by simp))
  · intro hzero
    have hfull := (hproperties _ _ [] [] (by decide) twoChildren_namedChildren (by simp)
      ⟨rfl, .nil⟩ (by simp)).mp hzero
    cases hfull

end SysRv.Fdt
