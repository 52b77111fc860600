import Mathlib.Data.Set.Basic
import SysRv.Sv39Marks

/-!
# The marks of the hardware

An access sets A in the leaf it goes through, and a store D with it. The walker looks at neither
of the two, so its results stay what they were as long as no store goes into the tables, and the
dirty entries are those of the addresses that were stored to.
-/

namespace SysRv.Sv39
open Function RadixWalk Rv64

def srvHalIsPTEDirty (pte : PageTableEntry) : Bool := pte &&& rv64PteDirty ≠ 0#64

/-- The memory after an access. Where it is translated, A and D are set and the word of a store
is written; where it is refused, the memory is as before. -/
def access (satp : Word) (mem : Mem) (r : Reference) : Mem :=
  match (mmu true).refer satp mem r with
  | some (_, mem') => mem'
  | none => mem

/-- The entries of the tables behind some roots: the words that a walk from there looks at. -/
def TableWords (h : Rv64VmHeader) (mem : Mem) (roots : Set Addr) : Set Addr :=
  {p | ∃ root ∈ roots, ∃ va, p ∈ (walkLevelsRead h mem va h.maxLevels root).2}

/-- The access is not a store that is translated into one of the words. -/
def Spares (satp : Word) (mem : Mem) (words : Set Addr) (r : Reference) : Prop :=
  r.kind = .store → ∀ pa mem', (mmu true).translate satp .store mem r.va = some (pa, mem') →
    pa ∉ words

/-- The entries differ in A and D at most. -/
def SameButAD (pte pte' : PageTableEntry) : Prop :=
  ∀ k, k ≠ 6 → k ≠ 7 → pte'.getLsbD k = pte.getLsbD k

def StoredThrough (satp : Word) (mem : Addr → PageTableEntry) (p va : Addr) : Prop :=
  ∃ level, leaf mem (satpRoot satp) va = some (level, p) ∧ permits (mem p) .store = true

section Accesses

variable {mem mem' : Addr → PageTableEntry} {satp : Word} {root va p : Addr}

namespace SameButAD

variable {pte pte' : PageTableEntry}

theorem flagV (h : SameButAD pte pte') : flagV pte' = flagV pte := h 0 (by decide) (by decide)

theorem flagR (h : SameButAD pte pte') : flagR pte' = flagR pte := h 1 (by decide) (by decide)

theorem flagW (h : SameButAD pte pte') : flagW pte' = flagW pte := h 2 (by decide) (by decide)

theorem flagX (h : SameButAD pte pte') : flagX pte' = flagX pte := h 3 (by decide) (by decide)

theorem flagU (h : SameButAD pte pte') : flagU pte' = flagU pte := h 4 (by decide) (by decide)

theorem ppn (h : SameButAD pte pte') : ppn pte' = ppn pte :=
  ppn_congr fun k hk => h k (by omega) (by omega)

theorem permits (h : SameButAD pte pte') (k : Access) : permits pte' k = permits pte k := by
  cases k <;> simp only [Sv39.permits, h.flagR, h.flagW, h.flagX, h.flagU]

theorem reservedEncoding (h : SameButAD pte pte') : ReservedEncoding pte' ↔ ReservedEncoding pte := by
  rw [ReservedEncoding, ReservedEncoding, h.flagW, h.flagR]

theorem alignedLeaf (h : SameButAD pte pte') (level : ℕ) :
    AlignedLeaf pte' level ↔ AlignedLeaf pte level := by
  rw [AlignedLeaf, AlignedLeaf, h.ppn]

theorem marked (pte : PageTableEntry) (k : Access) : SameButAD pte (pte ||| marks k) := by
  intro j h₆ h₇
  have hsix : (1#64 <<< 6).getLsbD j = false := by
    rw [one_shift_getLsbD (by decide), beq_eq_false_iff_ne]
    exact h₆.symm
  have hseven : (1#64 <<< 7).getLsbD j = false := by
    rw [one_shift_getLsbD (by decide), beq_eq_false_iff_ne]
    exact h₇.symm
  cases k <;>
    simp only [marks, rv64PteAccessed, rv64PteDirty, BitVec.getLsbD_or, hsix, hseven, Bool.or_false]

end SameButAD

/-- A and D play no part in a walk, nor in the search for the leaf of an access. -/
theorem walk_of_sameButAD {h : Rv64VmHeader} (hh : h.IsSv39)
    (hsame : ∀ p ∈ sv39.reads mem (vpnField va) 3 root, SameButAD (mem p) (mem' p)) :
    srvHalWalkPageTable h mem' root va = srvHalWalkPageTable h mem root va := by
  rw [srvHalWalkPageTable_eq hh, srvHalWalkPageTable_eq hh, Tree.walk_congr_view fun p hp => ?_]
  have hpte := hsame p hp
  exact sv39_view_congr hpte.flagV hpte.flagR hpte.flagW hpte.flagX hpte.ppn

/-- An entry that the search for the leaf goes through is a pointer. -/
theorem isPointer_of_passed {pte : PageTableEntry}
    (hok : ¬ (flagV pte = false ∨ ReservedEncoding pte))
    (hrx : ¬ (flagR pte = true ∨ flagX pte = true)) : IsPointer pte := by
  rw [not_or, Bool.not_eq_false] at hok
  rw [not_or, Bool.not_eq_true, Bool.not_eq_true] at hrx
  refine ⟨hok.1, hrx.1, ?_, hrx.2⟩
  rw [← Bool.not_eq_true]
  exact fun hw => hok.2 ⟨hw, hrx.1⟩

theorem leafLevels_of_sameButAD {level : ℕ} {table : Addr}
    (hsame : ∀ p ∈ sv39.reads mem (vpnField va) level table, SameButAD (mem p) (mem' p)) :
    leafLevels mem' va level table = leafLevels mem va level table := by
  induction level generalizing table with
  | zero => rfl
  | succ level ih =>
    have hfirst : SameButAD (mem (pteAddress table (vpnField va level)))
        (mem' (pteAddress table (vpnField va level))) := hsame _ (List.mem_cons_self ..)
    by_cases hptr : IsPointer (mem (pteAddress table (vpnField va level)))
    · have hptr' : IsPointer (mem' (pteAddress table (vpnField va level))) := by
        rwa [IsPointer, hfirst.flagV, hfirst.flagR, hfirst.flagW, hfirst.flagX]
      have hview : sv39.view (mem (sv39.place table (vpnField va level))) =
          .next (nextTable (mem (pteAddress table (vpnField va level)))) :=
        sv39_view_of_pointer hptr
      rw [leafLevels_of_pointer hptr', leafLevels_of_pointer hptr, nextTable, hfirst.ppn]
      refine ih fun p hp => hsame p ?_
      rw [Tree.reads, hview]
      exact List.mem_cons_of_mem _ hp
    · simp only [leafLevels, hfirst.flagV, hfirst.flagR, hfirst.flagX, hfirst.reservedEncoding,
        hfirst.alignedLeaf]
      split
      · rfl
      rename_i hok
      split
      · rfl
      rename_i hrx
      exact absurd (isPointer_of_passed hok hrx) hptr

theorem walk_of_leafLevels {levels level : ℕ} {table : Addr}
    (hleaf : leafLevels mem va levels table = some (level, p)) :
    sv39.walk mem (vpnField va) levels table = some p := by
  induction levels generalizing table with
  | zero => cases hleaf
  | succ levels ih =>
    have hplace : sv39.place table (vpnField va levels) = pteAddress table (vpnField va levels) := rfl
    rw [leafLevels] at hleaf
    rw [Tree.walk, hplace]
    split at hleaf
    · cases hleaf
    rename_i hok
    split at hleaf
    · rename_i hrx
      split at hleaf
      · cases hleaf
        rw [not_or, Bool.not_eq_false] at hok
        rw [sv39_view_of_leaf ⟨hok.1, hrx.imp_right .inr⟩]
      · cases hleaf
    · rename_i hrx
      rw [sv39_view_of_pointer (isPointer_of_passed hok hrx)]
      exact ih hleaf

theorem walk_of_leaf {level : ℕ} (hleaf : leaf mem root va = some (level, p)) :
    sv39.walk mem (vpnField va) 3 root = some p := by
  rw [leaf] at hleaf
  split at hleaf
  · exact walk_of_leafLevels hleaf
  · cases hleaf

theorem srvHalWalkPageTable_of_leaf {h : Rv64VmHeader} (hh : h.IsSv39) {level : ℕ}
    (hleaf : leaf mem root va = some (level, p)) : srvHalWalkPageTable h mem root va = p := by
  rw [srvHalWalkPageTable_eq hh, walk_of_leaf hleaf]
  rfl

theorem translate_of_permits (hmode : satpMode satp ≠ 0) {k : Access} {level : ℕ}
    (hleaf : leaf mem (satpRoot satp) va = some (level, p)) (hperm : permits (mem p) k = true) :
    (mmu true).translate satp k mem va =
      some (physical (mem p) level va, update mem p (mem p ||| marks k)) := by
  simp [mmu, hmode, hleaf, hperm]

theorem translate_of_refuses (hmode : satpMode satp ≠ 0) {k : Access}
    (hno : ∀ level p, leaf mem (satpRoot satp) va = some (level, p) → permits (mem p) k = false) :
    (mmu true).translate satp k mem va = none := by
  cases hleaf : leaf mem (satpRoot satp) va with
  | none => simp [mmu, hmode, hleaf]
  | some found => simp [mmu, hmode, hleaf, hno found.1 found.2 hleaf]

theorem storedThrough_iff {h : Rv64VmHeader} (hh : h.IsSv39) (hmode : satpMode satp ≠ 0) :
    StoredThrough satp mem p va ↔ ((mmu true).translate satp .store mem va).isSome = true ∧
      srvHalWalkPageTable h mem (satpRoot satp) va = p := by
  constructor
  · rintro ⟨level, hleaf, hperm⟩
    rw [translate_of_permits hmode hleaf hperm]
    exact ⟨rfl, srvHalWalkPageTable_of_leaf hh hleaf⟩
  · rintro ⟨hsome, hwalk⟩
    by_contra hno
    rw [translate_of_refuses hmode fun level q hleaf => ?_] at hsome
    · cases hsome
    · rw [srvHalWalkPageTable_of_leaf hh hleaf] at hwalk
      rw [← Bool.not_eq_true]
      exact fun hperm => hno ⟨level, hwalk ▸ hleaf, hwalk ▸ hperm⟩

theorem access_of_permits (hmode : satpMode satp ≠ 0) {r : Reference} {level : ℕ} {q : Addr}
    (hleaf : leaf mem (satpRoot satp) r.va = some (level, q)) (hperm : permits (mem q) r.kind = true)
    (hmiss : r.kind = .store → p ≠ physical (mem q) level r.va) :
    access satp mem r p = update mem q (mem q ||| marks r.kind) p := by
  rw [access, Mmu.refer, translate_of_permits hmode hleaf hperm]
  cases hkind : r.kind with
  | fetch | load => rfl
  | store => exact update_of_ne (hmiss hkind) _ _

theorem access_of_refuses (hmode : satpMode satp ≠ 0) {r : Reference}
    (hno : ∀ level q, leaf mem (satpRoot satp) r.va = some (level, q) →
      permits (mem q) r.kind = false) : access satp mem r = mem := by
  rw [access, Mmu.refer, translate_of_refuses hmode hno]

section Run

variable {words : Set Addr} {now : Mem}
  (hown : ∀ va, ∀ p ∈ sv39.reads mem (vpnField va) 3 (satpRoot satp), p ∈ words)
include hown

/-- One access, in a memory whose tables have changed in A and D: it sets A and D of a leaf, with
D exactly for a store that is permitted. -/
theorem access_marks (hmode : satpMode satp ≠ 0) {r : Reference} (hr : Spares satp mem words r)
    (hsame : ∀ p ∈ words, SameButAD (mem p) (now p)) (hp : p ∈ words) :
    SameButAD (now p) (access satp now r p) ∧
      ((access satp now r p).getLsbD 7 = true ↔
        (now p).getLsbD 7 = true ∨ r.kind = .store ∧ StoredThrough satp mem p r.va) := by
  have hleaf_now : leaf now (satpRoot satp) r.va = leaf mem (satpRoot satp) r.va := by
    rw [leaf, leaf, leafLevels_of_sameButAD fun p hp => hsame p (hown r.va p hp)]
  by_cases hthrough : ∃ level q, leaf mem (satpRoot satp) r.va = some (level, q) ∧
      permits (mem q) r.kind = true
  · obtain ⟨level, q, hleaf, hperm⟩ := hthrough
    have hq : q ∈ words := hown r.va q (Tree.walk_mem_reads (walk_of_leaf hleaf))
    have hperm_now : permits (now q) r.kind = true := (hsame q hq).permits r.kind ▸ hperm
    have hphysical : physical (now q) level r.va = physical (mem q) level r.va := by
      rw [physical, physical, (hsame q hq).ppn]
    have hmiss : r.kind = .store → p ≠ physical (now q) level r.va := by
      rintro hkind rfl
      rw [hphysical] at hp
      exact hr hkind _ _ (translate_of_permits hmode hleaf (hkind ▸ hperm)) hp
    have haccess := access_of_permits hmode (hleaf_now.trans hleaf) hperm_now hmiss
    have hstored : r.kind = .store ∧ StoredThrough satp mem p r.va ↔ r.kind = .store ∧ p = q := by
      apply and_congr_right
      intro hkind
      constructor
      · rintro ⟨level', hleaf', -⟩
        rw [hleaf] at hleaf'
        exact (congrArg Prod.snd (Option.some.inj hleaf')).symm
      · intro hpq
        exact ⟨level, hpq ▸ hleaf, by rwa [hpq, ← hkind]⟩
    rw [haccess, hstored]
    by_cases hpq : p = q
    · rw [hpq, update_self]
      refine ⟨.marked _ _, ?_⟩
      cases r.kind <;> simp [marks, rv64PteAccessed, rv64PteDirty]
    · rw [update_of_ne hpq]
      exact ⟨fun _ _ _ => rfl, by simp [hpq]⟩
  · have hno : ∀ level q, leaf mem (satpRoot satp) r.va = some (level, q) →
        permits (mem q) r.kind = false := fun level q hleaf => by
      rw [← Bool.not_eq_true]
      exact fun hperm => hthrough ⟨level, q, hleaf, hperm⟩
    have haccess : access satp now r = now := by
      apply access_of_refuses hmode
      intro level q hleaf
      rw [hleaf_now] at hleaf
      have hq : q ∈ words := hown r.va q (Tree.walk_mem_reads (walk_of_leaf hleaf))
      rw [(hsame q hq).permits, hno level q hleaf]
    rw [haccess]
    refine ⟨fun _ _ _ => rfl, ⟨.inl, ?_⟩⟩
    rintro (hdirty | ⟨hkind, level, hleaf, hperm⟩)
    · exact hdirty
    · exact absurd ⟨level, p, hleaf, hkind ▸ hperm⟩ hthrough

theorem accesses_mark (hmode : satpMode satp ≠ 0) {rs : List Reference}
    (hrs : ∀ r ∈ rs, Spares satp mem words r) (hsame : ∀ p ∈ words, SameButAD (mem p) (now p))
    (hp : p ∈ words) :
    SameButAD (mem p) (rs.foldl (access satp) now p) ∧
      ((rs.foldl (access satp) now p).getLsbD 7 = true ↔
        (now p).getLsbD 7 = true ∨ ∃ r ∈ rs, r.kind = .store ∧ StoredThrough satp mem p r.va) := by
  induction rs generalizing now with
  | nil => exact ⟨hsame p hp, by simp⟩
  | cons r rs ih =>
    obtain ⟨hr, hrs⟩ := List.forall_mem_cons.mp hrs
    have hone := fun q hq => access_marks (p := q) hown hmode hr hsame hq
    have hnext : ∀ q ∈ words, SameButAD (mem q) (access satp now r q) := fun q hq k h₆ h₇ =>
      ((hone q hq).1 k h₆ h₇).trans (hsame q hq k h₆ h₇)
    obtain ⟨hrest, hdirty⟩ := ih hrs hnext
    rw [List.foldl_cons]
    refine ⟨hrest, ?_⟩
    rw [hdirty, (hone p hp).2, or_assoc]
    simp only [List.exists_mem_cons_iff]

end Run

theorem srvHalIsPTEDirty_iff (pte : PageTableEntry) :
    srvHalIsPTEDirty pte = true ↔ pte.getLsbD 7 = true := by
  rw [srvHalIsPTEDirty, decide_eq_true_iff]
  exact and_one_shift_ne_zero pte (by decide)

/-- Whatever the processor accesses, as long as no store is translated into the tables, each walk
ends where it did; and the walker's entry for an address gets dirty exactly by a store that is
translated. -/
theorem srvHalIsPTEDirty_iff_stored {h : Rv64VmHeader} (hh : h.IsSv39) (hmode : satpMode satp ≠ 0)
    {roots : Set Addr} (hroot : satpRoot satp ∈ roots) (mem : Mem) (rs : List Reference)
    (hrs : ∀ r ∈ rs, Spares satp mem (TableWords h mem roots) r) :
    (∀ root ∈ roots, ∀ va, srvHalWalkPageTable h (rs.foldl (access satp) mem) root va =
      srvHalWalkPageTable h mem root va) ∧
    ∀ p ∈ TableWords h mem roots, srvHalIsPTEDirty (rs.foldl (access satp) mem p) = true ↔
      srvHalIsPTEDirty (mem p) = true ∨ ∃ r ∈ rs, r.kind = .store ∧
        ((mmu true).translate satp .store mem r.va).isSome = true ∧
        srvHalWalkPageTable h mem (satpRoot satp) r.va = p := by
  have hreads : ∀ root ∈ roots, ∀ va, ∀ p ∈ sv39.reads mem (vpnField va) 3 root,
      p ∈ TableWords h mem roots := fun root hmem va p hp => by
    refine ⟨root, hmem, va, ?_⟩
    rwa [hh.maxLevels, walkLevelsRead_eq hh (Nat.le_refl _)]
  have hstart : ∀ p ∈ TableWords h mem roots, SameButAD (mem p) (mem p) := fun _ _ _ _ _ => rfl
  have hrun := fun p hp => accesses_mark (p := p) (hreads _ hroot) hmode hrs hstart hp
  refine ⟨fun root hmem va => ?_, fun p hp => ?_⟩
  · exact walk_of_sameButAD hh fun p hp => (hrun p (hreads root hmem va p hp)).1
  · rw [srvHalIsPTEDirty_iff, srvHalIsPTEDirty_iff, (hrun p hp).2]
    simp only [storedThrough_iff hh hmode]

end Accesses

theorem tableWords_oneEntry {p : Addr}
    (hp : p ∈ TableWords ⟨30, 21, 12, 0x1FF#64, 3⟩ (oneEntry 0xF#64) {0x80001000#64}) :
    0x80001000 ≤ p.toNat := by
  obtain ⟨root, rfl, va, hread⟩ := hp
  have hview : ∀ a, sv39.view (oneEntry 0xF#64 a) = .leaf ∨ sv39.view (oneEntry 0xF#64 a) = .absent := by
    intro a
    rw [oneEntry]
    split
    · exact .inl (sv39_view_of_leaf (by decide))
    · exact .inr (sv39_view_of_invalid (by decide))
  rw [walkLevelsRead_eq ⟨rfl, rfl, rfl, rfl, rfl⟩ (Nat.le_refl _)] at hread
  have hplace : p = sv39.place 0x80001000#64 (vpnField va 2) := by
    rcases hview (sv39.place 0x80001000#64 (vpnField va 2)) with hv | hv <;>
      simpa [Tree.reads, hv] using hread
  have hlt : vpnField va 2 < 512 := Nat.mod_lt _ (by decide)
  have hentry : sv39.place 0x80001000#64 (vpnField va 2) =
      pteAddress 0x80001000#64 (vpnField va 2) := rfl
  rw [hplace, hentry, pteAddress, BitVec.toNat_add, BitVec.toNat_ofNat, BitVec.toNat_ofNat]
  omega

/-- A load and then a store through the one gigapage. -/
theorem srvHalIsPTEDirty_iff_stored_gigapage :
    srvHalIsPTEDirty ([⟨.load, 0x1000#64, 0#64⟩, ⟨.store, 0x2000#64, 7#64⟩].foldl
      (access 0x8000000000080001#64) (oneEntry 0xF#64) 0x80001000#64) = true := by
  have hmode : satpMode 0x8000000000080001#64 ≠ 0 := by decide
  have hrv64 : Rv64VmHeader.IsSv39 ⟨30, 21, 12, 0x1FF#64, 3⟩ := ⟨rfl, rfl, rfl, rfl, rfl⟩
  have hroot : satpRoot 0x8000000000080001#64 ∈ ({0x80001000#64} : Set Addr) := by
    rw [Set.mem_singleton_iff]
    decide
  have hleaf : leaf (oneEntry 0xF#64) (satpRoot 0x8000000000080001#64) 0x2000#64 =
      some (2, 0x80001000#64) := by decide
  have hspares : ∀ r ∈ ([⟨.load, 0x1000#64, 0#64⟩, ⟨.store, 0x2000#64, 7#64⟩] : List Reference),
      Spares 0x8000000000080001#64 (oneEntry 0xF#64)
        (TableWords ⟨30, 21, 12, 0x1FF#64, 3⟩ (oneEntry 0xF#64) {0x80001000#64}) r := by
    intro r hr hkind pa mem' htranslate hpa
    have hbound := tableWords_oneEntry hpa
    simp only [List.mem_cons, List.not_mem_nil, or_false] at hr
    rcases hr with rfl | rfl
    · cases hkind
    · rw [translate_of_permits hmode hleaf (by decide)] at htranslate
      have hphysical : physical (oneEntry 0xF#64 0x80001000#64) 2 0x2000#64 = 0x2000#64 := by decide
      have htarget : 0x2000#64 = pa := hphysical ▸ congrArg Prod.fst (Option.some.inj htranslate)
      rw [← htarget] at hbound
      exact absurd hbound (by decide)
  have hentry : 0x80001000#64 ∈
      TableWords ⟨30, 21, 12, 0x1FF#64, 3⟩ (oneEntry 0xF#64) {0x80001000#64} :=
    ⟨0x80001000#64, rfl, 0x2000#64, by decide⟩
  exact ((srvHalIsPTEDirty_iff_stored hrv64 hmode hroot _ _ hspares).2 _ hentry).mpr
    (.inr ⟨⟨.store, 0x2000#64, 7#64⟩, by simp, rfl, by decide, by decide⟩)

end SysRv.Sv39
