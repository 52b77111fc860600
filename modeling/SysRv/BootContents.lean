import SysRv.FdtFrame
import SysRv.FdtTables
import SysRv.FdtStack
import SysRv.KpallocFirstFit

/-!
# What the heap held before

`srv_fdt_Init` and then `srv_kpalloc_InitPageAllocator` on an eternal heap with arbitrary
contents. No section of the image initialises the heap, and neither function clears the
blocks it takes: the slots of the nodes and the words of the bitmap are used as they are
found.
-/

namespace SysRv.BootContents

open ByteMemory KString Kalloc Kpalloc PageAllocator WordBitmaps Nesting FdtTokens Fdt ListSplits

abbrev Contents := Addr → Byte

def wordIn (c : Contents) (p : Addr) : BitVec 64 :=
  c (p + 7#64) ++ c (p + 6#64) ++ c (p + 5#64) ++ c (p + 4#64) ++ c (p + 3#64) ++ c (p + 2#64) ++
    c (p + 1#64) ++ c p

def tableIn (n : ℕ) (c : Contents) (p : Addr) : SlotTable n :=
  ⟨(List.range n).map fun i => wordIn c (p + BitVec.ofNat 64 (8 * i)), by simp⟩

def nodeIn (c : Contents) (p : Addr) : FdtNode :=
  ⟨wordIn c p, tableIn fdtMaxChildren c (p + 8#64), tableIn fdtMaxProperties c (p + 136#64),
    wordIn c (p + 264#64)⟩

def propertyIn (c : Contents) (p : Addr) : FdtNodeProperty :=
  ⟨wordIn c p, wordIn c (p + 8#64), (wordIn c (p + 16#64)).setWidth 32⟩

def boot (mem : Memory) (fdtPtr : Addr) (n : ℕ) (heap : EternalHeap) (c : Contents)
    (baseAddress memorySize : BitVec 64) : Except Fault (FdtState × PageAllocator) := do
  let (s, _) ← srvFdtInit mem n (.initial heap (nodeIn c) (propertyIn c)) fdtPtr
  match srvKpallocInitPageAllocator s.heap (wordIn c) baseAddress memorySize with
  | .ok (_, allocator) => return (s, allocator)
  | .error panic => throw (.panic panic)

/-- A renaming of the pointers takes the nodes, and the tables of every node, to each other. -/
def SameTree (s s' : FdtState) : Prop :=
  ∃ ρ : Addr ≃ Addr, ρ NULL = NULL ∧ ρ s.rootNode = s'.rootNode ∧
    s'.created = s.created.map ρ ∧ ∀ p ∈ s.created,
      (∀ i, (s'.nodes (ρ p)).children.slot i = ρ ((s.nodes p).children.slot i)) ∧
      ∀ i, (s'.nodes (ρ p)).properties.slot i = ρ ((s.nodes p).properties.slot i)

/-- The tracked pages are the same, and the unused ones among them. -/
def SameFreePages (a a' : PageAllocator) : Prop :=
  a.tracked = a'.tracked ∧ ∀ b < a.tracked, a.used b = a'.used b

/-- The results of any two boots, whatever the heap held. -/
def ContentsIndependent (mem : Memory) (fdtPtr : Addr) (heap : EternalHeap)
    (baseAddress memorySize : BitVec 64) : Prop :=
  ∀ c c' n n' s s' a a', boot mem fdtPtr n heap c baseAddress memorySize = .ok (s, a) →
    boot mem fdtPtr n' heap c' baseAddress memorySize = .ok (s', a') →
      SameTree s s' ∧ SameFreePages a a'

/-- No node is read and no page is tracked, so that no block is taken at all. -/
structure NothingTaken (body : List Token) (bound : BitVec 32) (memorySize : BitVec 64) : Prop where
  noNode : ∀ front name back, body = front ++ .beginNode name :: back →
    bound.toNat ≤ (FdtTokens.encode front).length
  noPage : memorySize.toNat / 4096 / 64 = 0

section Boot

variable {mem : Memory} {infoBlock fdtPtr dt : Addr} {header : BlobHeader} {body pre post : List Token}
  {heap : EternalHeap} {nodes : Addr → FdtNode} {nodeProperties : Addr → FdtNodeProperty}
  {bound : BitVec 32} {H : List Token → EternalHeap → Prop} {start s s' : FdtState} {c : Contents}
  {n : ℕ} {a : PageAllocator} {baseAddress memorySize : BitVec 64}

def Below (bound : BitVec 32) (pre : List Token) : Prop :=
  ∀ front t back, pre = front ++ t :: back → (FdtTokens.encode front).length < bound.toNat

theorem below_run (hl : Loaded mem infoBlock dt bound body) (hwf : WellFormed body)
    (hH : HeapRule H) (hs : Stands infoBlock dt nodes body H [] body start)
    (hrun : parseLoop mem dt n start = .ok (.running s)) :
    ∃ pre post, Stands infoBlock dt nodes body H pre post s ∧ Below bound pre := by
  refine parseLoop_invariant
    (P := fun s => ∃ pre post, Stands infoBlock dt nodes body H pre post s ∧ Below bound pre) ?_
    ⟨[], body, hs, fun _ _ _ h => by simp at h⟩ hrun
  rintro s s' ⟨pre, post, hs, hpre⟩ ht
  rcases hs.running hl hwf hH ht with ⟨-, hs'⟩ | ⟨t, rest, rfl, hexact, hcond, -, hs'⟩
  · exact ⟨pre, post, hs', hpre⟩
  · rw [hexact] at hcond
    exact ⟨pre ++ [t], rest, hs', forall_snoc_split hpre hcond⟩

theorem created_iff (hl : Loaded mem infoBlock dt bound body) (hwf : WellFormed body)
    (hH : HeapRule H) (hs : Stands infoBlock dt nodes body H [] body start)
    (hrun : parseLoop mem dt n start = .ok (.done s)) :
    s.created ≠ [] ↔ ∃ front name back, body = front ++ .beginNode name :: back ∧
      (FdtTokens.encode front).length < bound.toNat := by
  obtain ⟨m, t, hrunning, hdone⟩ := parseLoop_eq_done hrun
  obtain ⟨pre, post, ht, hbelow⟩ := below_run hl hwf hH hs hrunning
  obtain ⟨st, hst, htracks⟩ := ht.tracked.tracks
  have hcreated : s.created = t.created := by
    rcases ht.done hl hwf hH hdone with ⟨rfl, -⟩ | ⟨rfl, -⟩ <;> rfl
  have hcount : s.created.length = nodesIn pre := by
    rw [hcreated, htracks.length, (nesting_counts hst).1]
  rw [← List.length_pos_iff, hcount]
  constructor
  · intro hpos
    obtain ⟨front, u, back, hsplit, hu, -⟩ := exists_split_of_countP opensNode hpos
    cases u with
    | beginNode name =>
      refine ⟨front, name, back ++ post, ?_, hbelow front _ back hsplit⟩
      rw [ht.split, hsplit, List.append_assoc, List.cons_append]
    | endNode | prop | nop | fdtEnd => cases hu
  · rintro ⟨front, name, back, hsplit, hlt⟩
    obtain ⟨back', hpre⟩ := ht.read_of_done hl hwf hH hdone hsplit hlt
    rw [nodesIn, hpre, List.countP_append, List.countP_cons_of_pos (by rfl)]
    omega

theorem left_of_done (hl : Loaded mem infoBlock dt bound body) (hwf : WellFormed body)
    (hH : HeapRule H) (hs : Stands infoBlock dt nodes body H [] body start)
    (hrun : parseLoop mem dt n start = .ok (.done s)) :
    Frame start s ∧ ∃ pre post, At infoBlock dt nodes pre s ∧ H post s.heap := by
  obtain ⟨m, t, hrunning, hdone⟩ := parseLoop_eq_done hrun
  obtain ⟨pre, post, ht, -⟩ := below_run hl hwf hH hs hrunning
  have hframe := parseLoop_frame hrunning
  rcases ht.done hl hwf hH hdone with ⟨rfl, -⟩ | ⟨rfl, -⟩
  · exact ⟨hframe, pre, post, ht.tracked, ht.heap⟩
  · exact ⟨hframe.trans (frame_of_children rfl fun _ => rfl), pre, post, ht.tracked.pastWord, ht.heap⟩

theorem boot_eq_ok (h : boot mem fdtPtr n heap c baseAddress memorySize = .ok (s, a)) :
    ∃ b heap', srvFdtInit mem n (.initial heap (nodeIn c) (propertyIn c)) fdtPtr = .ok (s, b) ∧
      srvKpallocInitPageAllocator s.heap (wordIn c) baseAddress memorySize = .ok (heap', a) := by
  obtain ⟨⟨t, b⟩, hinit, hrest⟩ := bind_eq_ok.mp h
  dsimp only at hrest
  split at hrest
  · rename_i heap' allocator hpages
    cases hrest
    exact ⟨b, heap', hinit, hpages⟩
  · cases hrest

def bitmapBytes (memorySize : BitVec 64) : ℕ := 8 * (memorySize.toNat / 4096 / 64)

theorem exists_initPageAllocator (baseAddress : BitVec 64) (words : Addr → BitVec 64)
    (hroom : SufficesBeside (bitmapBytes memorySize) post heap) :
    ∃ heap' a, srvKpallocInitPageAllocator heap words baseAddress memorySize = .ok (heap', a) := by
  have hsize := memorySize.isLt
  have hend := heap.kallocEternalEnd.isLt
  have hbytes : (memorySize / srvPageSize / physallocBitsPerEntry * 8#64).toNat =
      bitmapBytes memorySize := by
    simp only [srvPageSize, physallocBitsPerEntry, BitVec.toNat_mul, BitVec.toNat_udiv,
      BitVec.toNat_ofNat, bitmapBytes, Nat.reducePow, Nat.reduceMod]
    omega
  simp only [SufficesBeside] at hroom
  have hfits : heap.currKallocEternalAddress +
      memorySize / srvPageSize / physallocBitsPerEntry * 8#64 < heap.kallocEternalEnd := by
    rw [BitVec.lt_def, BitVec.toNat_add, hbytes]
    omega
  rw [srvKpallocInitPageAllocator, srvKallocEternalAlloc, if_pos hfits]
  exact ⟨_, _, rfl⟩

/-- A valid FDT, and a heap with room for its tree and for the bitmap. -/
structure Bootable (mem : Memory) (fdtPtr : Addr) (header : BlobHeader) (body : List Token)
    (heap : EternalHeap) (memorySize : BitVec 64) : Prop where
  blob : Blob mem fdtPtr header body
  magic : Holds mem fdtPtr (be32 fdtMagic)
  wellFormed : WellFormed body
  small : (FdtTokens.encode body).length < 2 ^ 32
  start : heap.currKallocEternalAddress ≠ NULL
  room : SufficesBeside (bitmapBytes memorySize) body heap

theorem slot_nodeIn_const (byte : Byte) (q : Addr) :
    (nodeIn (fun _ => byte) q).children.slot 0 = wordIn (fun _ => byte) NULL :=
  rfl

namespace Bootable

theorem stands (hb : Bootable mem fdtPtr header body heap memorySize) (c : Contents) :
    Stands fdtPtr (header.dtStart fdtPtr) (nodeIn c) body
      (SufficesBeside (bitmapBytes memorySize)) [] body
      (.entered fdtPtr heap (nodeIn c) (propertyIn c)) :=
  stands_entered (nodeIn c) (propertyIn c) hb.start hb.room

theorem left_of_init (hb : Bootable mem fdtPtr header body heap memorySize) {b : Bool}
    (h : srvFdtInit mem n (.initial heap (nodeIn c) (propertyIn c)) fdtPtr = .ok (s, b)) :
    Frame (.entered fdtPtr heap (nodeIn c) (propertyIn c)) s ∧
      ∃ pre post, At fdtPtr (header.dtStart fdtPtr) (nodeIn c) pre s ∧
        SufficesBeside (bitmapBytes memorySize) post s.heap :=
  left_of_done (hb.blob.loaded hb.small) hb.wellFormed (sufficesBeside_rule _) (hb.stands c)
    (hb.blob.parseLoop_of_init hb.magic h).2

theorem exists_boot (hb : Bootable mem fdtPtr header body heap memorySize)
    (baseAddress : BitVec 64) (c : Contents) :
    ∃ n s a, boot mem fdtPtr n heap c baseAddress memorySize = .ok (s, a) := by
  obtain ⟨n, s, hinit⟩ := hb.blob.srvFdtInit_true hb.magic hb.wellFormed hb.small hb.start
    hb.room.suffices
  obtain ⟨-, pre, post, -, hroom⟩ := hb.left_of_init hinit
  obtain ⟨heap', a, hpages⟩ := exists_initPageAllocator baseAddress (wordIn c) hroom
  refine ⟨n, s, a, bind_eq_ok.mpr ⟨(s, true), hinit, ?_⟩⟩
  dsimp only
  rw [hpages]
  rfl

theorem frame (hb : Bootable mem fdtPtr header body heap memorySize)
    (h : boot mem fdtPtr n heap c baseAddress memorySize = .ok (s, a)) :
    Frame (.entered fdtPtr heap (nodeIn c) (propertyIn c)) s := by
  obtain ⟨b, heap', hinit, -⟩ := boot_eq_ok h
  exact (hb.left_of_init hinit).1

theorem exists_at (hb : Bootable mem fdtPtr header body heap memorySize)
    (h : boot mem fdtPtr n heap c baseAddress memorySize = .ok (s, a)) :
    ∃ pre, At fdtPtr (header.dtStart fdtPtr) (nodeIn c) pre s := by
  obtain ⟨b, heap', hinit, -⟩ := boot_eq_ok h
  obtain ⟨-, pre, post, hat, -⟩ := hb.left_of_init hinit
  exact ⟨pre, hat⟩

theorem created_iff (hb : Bootable mem fdtPtr header body heap memorySize)
    (h : boot mem fdtPtr n heap c baseAddress memorySize = .ok (s, a)) :
    s.created ≠ [] ↔ ∃ front name back, body = front ++ .beginNode name :: back ∧
      (FdtTokens.encode front).length < (bswap32 header.sizeDtStruct).toNat := by
  obtain ⟨b, heap', hinit, -⟩ := boot_eq_ok h
  exact BootContents.created_iff (hb.blob.loaded hb.small) hb.wellFormed (sufficesBeside_rule _)
    (hb.stands c) (hb.blob.parseLoop_of_init hb.magic hinit).2

/-- The first node of a heap of zeros is its own child. -/
theorem root_of_zeros (hb : Bootable mem fdtPtr header body heap memorySize)
    (h : boot mem fdtPtr n heap (fun _ => 0x00#8) baseAddress memorySize = .ok (s, a))
    (hne : s.created ≠ []) : ∃ p ∈ s.created, (s.nodes p).children.slot 0 = p := by
  obtain ⟨pre, hat⟩ := hb.exists_at h
  obtain ⟨p, rest, hp⟩ := List.exists_cons_of_ne_nil hne
  have hempty : ∀ q, (nodeIn (fun _ => 0x00#8) q).children.slot 0 = NULL :=
    fun q => (slot_nodeIn_const _ q).trans (by decide)
  exact ⟨p, by simp [hp], (hat.rooted.loop hempty p (by simp [hp])).2⟩

theorem slot_of_ones (hb : Bootable mem fdtPtr header body heap memorySize)
    (h : boot mem fdtPtr n heap (fun _ => 0xFF#8) baseAddress memorySize = .ok (s, a)) (q : Addr) :
    (s.nodes q).children.slot 0 = BitVec.allOnes 64 := by
  have hfull : (nodeIn (fun _ => 0xFF#8) q).children.slot 0 = BitVec.allOnes 64 :=
    (slot_nodeIn_const _ q).trans (by decide)
  exact ((hb.frame h).children q 0 (hfull.trans_ne (by decide))).trans hfull

theorem ones_notMem (hb : Bootable mem fdtPtr header body heap memorySize)
    (h : boot mem fdtPtr n heap c baseAddress memorySize = .ok (s, a)) :
    BitVec.allOnes 64 ∉ s.created := by
  intro hmem
  obtain ⟨pre, hat⟩ := hb.exists_at h
  obtain ⟨st, -, htracks⟩ := hat.tracks
  have hlt := (htracks.below _ hmem).2
  have hmax := s.heap.currKallocEternalAddress.isLt
  rw [BitVec.toNat_allOnes] at hlt
  omega

end Bootable

theorem noNode_of_independent (hb : Bootable mem fdtPtr header body heap memorySize)
    (hind : ContentsIndependent mem fdtPtr heap baseAddress memorySize) (front back : List Token)
    (name : List Byte) (hsplit : body = front ++ .beginNode name :: back) :
    (bswap32 header.sizeDtStruct).toNat ≤ (FdtTokens.encode front).length := by
  by_contra hlt
  obtain ⟨n, s, a, hzeros⟩ := hb.exists_boot baseAddress fun _ => 0x00#8
  obtain ⟨n', s', a', hones⟩ := hb.exists_boot baseAddress fun _ => 0xFF#8
  have hne := (hb.created_iff hzeros).mpr ⟨front, name, back, hsplit, not_le.mp hlt⟩
  obtain ⟨p, hp, hloop⟩ := hb.root_of_zeros hzeros hne
  obtain ⟨⟨ρ, -, -, hcreated, htables⟩, -⟩ := hind _ _ _ _ _ _ _ _ hzeros hones
  -- the slot of the image holds the image in one heap and all ones in the other
  have himage : ρ p = BitVec.allOnes 64 := by
    rw [← hb.slot_of_ones hones (ρ p), (htables p hp).1 0, hloop]
  exact hb.ones_notMem hones (himage ▸ hcreated ▸ List.mem_map_of_mem hp)

theorem used_zero_of_const {byte : Byte}
    (h : boot mem fdtPtr n heap (fun _ => byte) baseAddress memorySize = .ok (s, a)) :
    a.used 0 = (wordIn (fun _ => byte) NULL).getLsbD 0 := by
  obtain ⟨-, heap', -, hpages⟩ := boot_eq_ok h
  rw [used, bit, pageBitmap_of_init hpages]
  rfl

theorem noPage_of_independent (hb : Bootable mem fdtPtr header body heap memorySize)
    (hind : ContentsIndependent mem fdtPtr heap baseAddress memorySize) :
    memorySize.toNat / 4096 / 64 = 0 := by
  by_contra hpages
  obtain ⟨n, s, a, hzeros⟩ := hb.exists_boot baseAddress fun _ => 0x00#8
  obtain ⟨n', s', a', hones⟩ := hb.exists_boot baseAddress fun _ => 0xFF#8
  obtain ⟨-, heap', -, hinit⟩ := boot_eq_ok hzeros
  obtain ⟨-, -, hsame⟩ := hind _ _ _ _ _ _ _ _ hzeros hones
  have hbit := hsame 0 (by rw [(tracksRam_of_init hinit).tracked_eq]; omega)
  rw [used_zero_of_const hzeros, used_zero_of_const hones] at hbit
  exact absurd hbit (by decide)

theorem Bootable.empty_of_nothingTaken (hb : Bootable mem fdtPtr header body heap memorySize)
    (hnothing : NothingTaken body (bswap32 header.sizeDtStruct) memorySize)
    (h : boot mem fdtPtr n heap c baseAddress memorySize = .ok (s, a)) :
    s.created = [] ∧ s.rootNode = NULL ∧ a.tracked = 0 := by
  have hcreated : s.created = [] := by
    by_contra hne
    obtain ⟨front, name, back, hsplit, hlt⟩ := (hb.created_iff h).mp hne
    have hbound := hnothing.noNode front name back hsplit
    omega
  obtain ⟨pre, hat⟩ := hb.exists_at h
  obtain ⟨-, heap', -, hinit⟩ := boot_eq_ok h
  refine ⟨hcreated, ?_, ?_⟩
  · rw [hat.rooted.rootNode, hcreated, List.headD_nil]
  · rw [(tracksRam_of_init hinit).tracked_eq, hnothing.noPage]

/-- The tree and the free pages are the same whatever the heap held if and only if the heap
is not used. -/
theorem boot_contentsIndependent_iff (hb : Bootable mem fdtPtr header body heap memorySize)
    (baseAddress : BitVec 64) : ContentsIndependent mem fdtPtr heap baseAddress memorySize ↔
      NothingTaken body (bswap32 header.sizeDtStruct) memorySize := by
  constructor
  · exact fun hind => ⟨fun front name back => noNode_of_independent hb hind front back name,
      noPage_of_independent hb hind⟩
  · intro hnothing c c' n n' s s' a a' hboot hboot'
    obtain ⟨hcreated, hroot, htracked⟩ := hb.empty_of_nothingTaken hnothing hboot
    obtain ⟨hcreated', hroot', htracked'⟩ := hb.empty_of_nothingTaken hnothing hboot'
    constructor
    · refine ⟨Equiv.refl _, rfl, by simp [hroot, hroot'], by simp [hcreated, hcreated'], ?_⟩
      simp [hcreated]
    · exact ⟨htracked.trans htracked'.symm, fun b hlt => absurd hlt (by simp [htracked])⟩

end Boot

theorem sample_bootable {memorySize : BitVec 64}
    (hroom : SufficesBeside (bitmapBytes memorySize) sampleBody sampleHeap) :
    Bootable sampleMemory 0x82200000#64 (blobHeader sampleBody) sampleBody sampleHeap memorySize where
  blob := blob_blobBytes (by decide)
  magic := holds_at_base blobBytes_magic (by decide)
  wellFormed := sampleBody_wellFormed
  small := by decide
  start := by decide
  room := hroom

theorem boot_contentsIndependent_sample :
    ¬ ContentsIndependent sampleMemory 0x82200000#64 sampleHeap 0x80000000#64 0#64 := by
  have hroom : SufficesBeside (bitmapBytes 0#64) sampleBody sampleHeap := by
    simp only [SufficesBeside]
    decide
  rw [boot_contentsIndependent_iff (sample_bootable hroom) 0x80000000#64]
  exact fun h => absurd (h.noNode [] [] _ rfl) (by decide)

/-- With 512 KiB of RAM the first page is unused on a heap of zeros and in use on a heap of
ones. -/
theorem boot_not_contentsIndependent :
    Bootable sampleMemory 0x82200000#64 (blobHeader sampleBody) sampleBody sampleHeap 0x80000#64 ∧
      ¬ ContentsIndependent sampleMemory 0x82200000#64 sampleHeap 0x80000000#64 0x80000#64 := by
  have hroom : SufficesBeside (bitmapBytes 0x80000#64) sampleBody sampleHeap := by
    simp only [SufficesBeside]
    decide
  have hb := sample_bootable hroom
  refine ⟨hb, fun hind => ?_⟩
  exact absurd (noPage_of_independent hb hind) (by decide)

end SysRv.BootContents
