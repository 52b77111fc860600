import SysRv.Sv39Walk

/-!
# What the walker finds and the hardware refuses

The structural part of address translation in Sv39: the address must be canonical, W=1 with
R=0 is reserved, and a leaf above the last level must be aligned to what it maps. The walker
looks at V and at whether any of R, W and X is set, so that it stops at the same entries, and
makes none of the three checks.
-/

namespace SysRv.Sv39
open RadixWalk

/-- Bits 63 to 39 all equal bit 38. -/
def Canonical (va : Addr) : Prop := ∀ k, 38 ≤ k → k < 64 → va.getLsbD k = va.getLsbD 38

/-- W=1 with R=0. -/
def ReservedEncoding (pte : PageTableEntry) : Prop := flagW pte = true ∧ flagR pte = false

/-- The low PPN bits that a leaf of the level leaves to the address are zero: 9 at level 1, 18
at level 2. -/
def AlignedLeaf (pte : PageTableEntry) (level : ℕ) : Prop := ppn pte % 2 ^ (9 * level) = 0

instance (va : Addr) : Decidable (Canonical va) :=
  decidable_of_iff (∀ k < 64, 38 ≤ k → va.getLsbD k = va.getLsbD 38)
    ⟨fun h k hk hlt => h k hlt hk, fun h k hlt hk => h k hk hlt⟩

instance (pte : PageTableEntry) : Decidable (ReservedEncoding pte) :=
  inferInstanceAs (Decidable (_ ∧ _))

instance (pte : PageTableEntry) (level : ℕ) : Decidable (AlignedLeaf pte level) :=
  inferInstanceAs (Decidable (_ = _))

/-- Translation from a table of a level on: a fault, or the level and the address of the leaf.
The bits 54 to 63 of an entry are not looked at; Sv39 reserves them and faults where one is
set. -/
def leafLevels (mem : Addr → PageTableEntry) (va : Addr) : ℕ → Addr → Option (ℕ × Addr)
  | 0, _ => none
  | level + 1, table =>
    let p := pteAddress table (vpnField va level)
    if flagV (mem p) = false ∨ ReservedEncoding (mem p) then none
    else if flagR (mem p) = true ∨ flagX (mem p) = true then
      if AlignedLeaf (mem p) level then some (level, p) else none
    else leafLevels mem va level (nextTable (mem p))

def leaf (mem : Addr → PageTableEntry) (root va : Addr) : Option (ℕ × Addr) :=
  if Canonical va then leafLevels mem va 3 root else none

def translate (mem : Addr → PageTableEntry) (root va : Addr) : Option Addr :=
  (leaf mem root va).map Prod.snd

/-- No structural reason for a fault: what is claimed of every entry that the walker returns. -/
structure StructurallySound (mem : Addr → PageTableEntry) (root va : Addr) : Prop where
  canonical : Canonical va
  encodings : ∀ level table, TableAt mem root va level table →
    ¬ ReservedEncoding (mem (pteAddress table (vpnField va level)))
  aligned : ∀ level table, TableAt mem root va level table →
    IsLeaf (mem (pteAddress table (vpnField va level))) →
    AlignedLeaf (mem (pteAddress table (vpnField va level))) level

/-- A leaf that the walker comes to, with what is checked on the way and what is not. -/
structure FoundLeaf (mem : Addr → PageTableEntry) (root va : Addr) (level : ℕ) (table : Addr) :
    Prop where
  reached : TableAt mem root va level table
  leaf : IsLeaf (mem (pteAddress table (vpnField va level)))
  above : ∀ l t, level < l → TableAt mem root va l t →
    IsPointer (mem (pteAddress t (vpnField va l))) ∧
      ¬ ReservedEncoding (mem (pteAddress t (vpnField va l)))
  translated : translate mem root va = some (pteAddress table (vpnField va level)) ↔
    Canonical va ∧ ¬ ReservedEncoding (mem (pteAddress table (vpnField va level))) ∧
      AlignedLeaf (mem (pteAddress table (vpnField va level))) level

section Faults

variable {h : Rv64VmHeader} {mem : Addr → PageTableEntry} {root va table : Addr} {level : ℕ}

theorem IsPointer.not_reserved {pte : PageTableEntry} (hptr : IsPointer pte) :
    ¬ ReservedEncoding pte := by
  rintro ⟨hwrite, -⟩
  rw [hptr.2.2.1] at hwrite
  cases hwrite

/-- Both walks pass the entries that point to a table. -/
theorem leafLevels_of_pointer (hptr : IsPointer (mem (pteAddress table (vpnField va level)))) :
    leafLevels mem va (level + 1) table =
      leafLevels mem va level (nextTable (mem (pteAddress table (vpnField va level)))) := by
  have hpass : ¬ (flagV (mem (pteAddress table (vpnField va level))) = false ∨
      ReservedEncoding (mem (pteAddress table (vpnField va level)))) := by
    rw [not_or]
    exact ⟨by simp [hptr.1], hptr.not_reserved⟩
  have hgo : ¬ (flagR (mem (pteAddress table (vpnField va level))) = true ∨
      flagX (mem (pteAddress table (vpnField va level))) = true) := by
    simp [hptr.2.1, hptr.2.2.2]
  rw [leafLevels]
  simp only [if_neg hpass, if_neg hgo]

theorem leafLevels_of_tableAt (hat : TableAt mem root va level table) :
    leafLevels mem va 3 root = leafLevels mem va (level + 1) table := by
  induction hat with
  | root => rfl
  | next hat hptr ih => rw [ih, leafLevels_of_pointer hptr]

/-- At a leaf of the walker the translation depends on the encoding and the alignment. -/
theorem leafLevels_of_leaf (hleaf : IsLeaf (mem (pteAddress table (vpnField va level)))) :
    leafLevels mem va (level + 1) table =
      if ¬ ReservedEncoding (mem (pteAddress table (vpnField va level))) ∧
          AlignedLeaf (mem (pteAddress table (vpnField va level))) level then
        some (level, pteAddress table (vpnField va level))
      else none := by
  rw [leafLevels]
  by_cases hres : ReservedEncoding (mem (pteAddress table (vpnField va level)))
  · simp [hres]
  · have hread : flagR (mem (pteAddress table (vpnField va level))) = true ∨
        flagX (mem (pteAddress table (vpnField va level))) = true := by
      rcases hleaf.2 with hr | hw | hx
      · exact .inl hr
      · by_contra hnone
        rw [not_or] at hnone
        exact hres ⟨hw, by simpa using hnone.1⟩
      · exact .inr hx
    simp [hleaf.1, hres, hread]

/-- On the way to a leaf there are pointers only. -/
theorem TableAt.pointer_above {l : ℕ} {t : Addr} (hat : TableAt mem root va level table)
    (hlt : level < l) (hl : TableAt mem root va l t) :
    IsPointer (mem (pteAddress t (vpnField va l))) := by
  induction hat with
  | root =>
    have hle := hl.le
    omega
  | @next level table hat hptr ih =>
    rcases Nat.lt_or_ge (level + 1) l with hgt | hle
    · exact ih hgt
    · obtain rfl : l = level + 1 := by omega
      obtain rfl : t = table := (tableAt_iff.mp hl).unique (tableAt_iff.mp hat)
      exact hptr

theorem foundLeaf_of_walk {p : Addr} (hwalk : sv39.walk mem (vpnField va) 3 root = some p) :
    ∃ level table, FoundLeaf mem root va level table ∧ p = pteAddress table (vpnField va level) := by
  obtain ⟨level, table, hat, hleaf, hp⟩ := walk_eq_some_iff.mp hwalk
  refine ⟨level, table, ⟨hat, hleaf, fun l t hlt hl => ?_, ?_⟩, hp⟩
  · have hptr := hat.pointer_above hlt hl
    exact ⟨hptr, hptr.not_reserved⟩
  · rw [translate, Sv39.leaf]
    by_cases hcan : Canonical va
    · rw [if_pos hcan, leafLevels_of_tableAt hat, leafLevels_of_leaf hleaf]
      split
      · rename_i hgood
        simp [hcan, hgood]
      · rename_i hbad
        simp [hcan, hbad]
    · simp [hcan]

/-- Whenever the walker returns an entry, the entries above it are pointers and so not of the
reserved encoding, and it is valid with some of R, W and X set. It is the leaf that the
hardware translates through exactly if the address is canonical, its own encoding is not the
reserved one, and it is aligned; the walker checks none of the three. -/
theorem srvHalWalkPageTable_found (hh : h.IsSv39) (mem : Addr → PageTableEntry) (root va : Addr)
    (hfound : srvHalWalkPageTable h mem root va ≠ NULL) :
    ∃ level table, FoundLeaf mem root va level table ∧
      srvHalWalkPageTable h mem root va = pteAddress table (vpnField va level) := by
  rw [srvHalWalkPageTable_eq hh] at hfound ⊢
  cases hwalk : sv39.walk mem (vpnField va) 3 root with
  | none =>
    rw [hwalk] at hfound
    exact absurd rfl hfound
  | some p => exact foundLeaf_of_walk hwalk

end Faults

def oneEntry (pte : PageTableEntry) (a : Addr) : PageTableEntry :=
  if a = 0x80001000#64 then pte else 0#64

theorem srvHalWalkPageTable_found_three_tables :
    ∃ level table, FoundLeaf threeTables 0x80001000#64 0x202000#64 level table ∧
      srvHalWalkPageTable ⟨30, 21, 12, 0x1FF#64, 3⟩ threeTables 0x80001000#64 0x202000#64 =
        pteAddress table (vpnField 0x202000#64 level) :=
  srvHalWalkPageTable_found ⟨rfl, rfl, rfl, rfl, rfl⟩ threeTables 0x80001000#64 0x202000#64
    (by decide)

/-- A gigapage through an address that is not canonical, an entry with V and W alone, and a
gigapage that starts at physical address 4096: the walker returns all three. -/
theorem srvHalWalkPageTable_returns_faulting :
    (srvHalWalkPageTable ⟨30, 21, 12, 0x1FF#64, 3⟩ (oneEntry 0xF#64) 0x80001000#64
        0x8000000000#64 = 0x80001000#64 ∧
      ¬ StructurallySound (oneEntry 0xF#64) 0x80001000#64 0x8000000000#64) ∧
    (srvHalWalkPageTable ⟨30, 21, 12, 0x1FF#64, 3⟩ (oneEntry 0x5#64) 0x80001000#64 0x1000#64 =
        0x80001000#64 ∧
      ¬ StructurallySound (oneEntry 0x5#64) 0x80001000#64 0x1000#64) ∧
    (srvHalWalkPageTable ⟨30, 21, 12, 0x1FF#64, 3⟩ (oneEntry 0x40F#64) 0x80001000#64 0x1000#64 =
        0x80001000#64 ∧
      ¬ StructurallySound (oneEntry 0x40F#64) 0x80001000#64 0x1000#64) := by
  refine ⟨⟨by decide, fun hsound => ?_⟩, ⟨by decide, fun hsound => ?_⟩,
    ⟨by decide, fun hsound => ?_⟩⟩
  · exact absurd (hsound.canonical 39 (by decide) (by decide)) (by decide)
  · exact absurd (hsound.encodings 2 _ .root) (by decide)
  · exact absurd (hsound.aligned 2 _ .root (by decide)) (by decide)

end SysRv.Sv39
