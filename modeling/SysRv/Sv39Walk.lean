import SysRv.RadixWalk
import SysRv.Sv39

/-!
# The walk as a walk of a radix tree

The three levels of Sv39 in arithmetic: the index of an address at a level, the page number
of an entry and its flags. The loop of the walker is the walk of the tree that they describe.
-/

namespace SysRv.Sv39
open RadixWalk

/-- The nine bits of an address that index the tables of a level. -/
def vpnField (va : Addr) (level : ℕ) : ℕ := va.toNat / 2 ^ (12 + 9 * level) % 512

def ppn (pte : PageTableEntry) : ℕ := pte.toNat / 2 ^ 10 % 2 ^ 44

def pteAddress (table : Addr) (index : ℕ) : Addr := table + BitVec.ofNat 64 (8 * index)

def nextTable (pte : PageTableEntry) : Addr := BitVec.ofNat 64 (4096 * ppn pte)

section Flags

variable (pte : PageTableEntry)

def flagV : Bool := pte.getLsbD 0
def flagR : Bool := pte.getLsbD 1
def flagW : Bool := pte.getLsbD 2
def flagX : Bool := pte.getLsbD 3

def IsPointer : Prop :=
  flagV pte = true ∧ flagR pte = false ∧ flagW pte = false ∧ flagX pte = false

def IsLeaf : Prop :=
  flagV pte = true ∧ (flagR pte = true ∨ flagW pte = true ∨ flagX pte = true)

instance : Decidable (IsPointer pte) := inferInstanceAs (Decidable (_ ∧ _))

instance : Decidable (IsLeaf pte) := inferInstanceAs (Decidable (_ ∧ _))

end Flags

def sv39 : Tree Addr ℕ Addr PageTableEntry where
  place := pteAddress
  view pte :=
    if IsPointer pte then .next (nextTable pte) else if IsLeaf pte then .leaf else .absent

/-- The table reached at a level on the way to an address. -/
inductive TableAt (mem : Addr → PageTableEntry) (root va : Addr) : ℕ → Addr → Prop where
  | root : TableAt mem root va 2 root
  | next {level table} (h : TableAt mem root va (level + 1) table)
      (hpte : IsPointer (mem (pteAddress table (vpnField va (level + 1))))) :
      TableAt mem root va level (nextTable (mem (pteAddress table (vpnField va (level + 1)))))

theorem and_mask_nine (x : BitVec 64) : (x &&& 0x1FF#64).toNat = x.toNat % 512 := by
  rw [BitVec.toNat_and]
  exact Nat.and_two_pow_sub_one_eq_mod _ 9

theorem vpn_toNat {h : Rv64VmHeader} (hh : h.IsSv39) (va : Addr) {level : ℕ} (hlevel : level < 3) :
    (vpn h va level).toNat = vpnField va level := by
  match level, hlevel with
  | 0, _ =>
    simp only [vpn, List.getD_cons_zero, rv64GetVPN0, hh.vpn0Bitp, hh.vpnMask, and_mask_nine,
      BitVec.toNat_ushiftRight, Nat.shiftRight_eq_div_pow, vpnField]
  | 1, _ =>
    simp only [vpn, List.getD_cons_succ, List.getD_cons_zero, rv64GetVPN1, hh.vpn1Bitp, hh.vpnMask,
      and_mask_nine, BitVec.toNat_ushiftRight, Nat.shiftRight_eq_div_pow, vpnField]
  | 2, _ =>
    simp only [vpn, List.getD_cons_succ, List.getD_cons_zero, rv64GetVPN2, hh.vpn2Bitp, hh.vpnMask,
      and_mask_nine, BitVec.toNat_ushiftRight, Nat.shiftRight_eq_div_pow, vpnField]

theorem entryAddress_eq {h : Rv64VmHeader} (hh : h.IsSv39) (table va : Addr) {level : ℕ}
    (hlevel : level < 3) :
    entryAddress table (vpn h va level) = pteAddress table (vpnField va level) := by
  rw [entryAddress, pteAddress, ← vpn_toNat hh va hlevel, BitVec.ofNat_mul, BitVec.ofNat_toNat,
    BitVec.setWidth_eq]

theorem and_one_shift_ne_zero (x : BitVec 64) {k : ℕ} (hk : k < 64) :
    x &&& 1#64 <<< k ≠ 0#64 ↔ x.getLsbD k = true := by
  have htwo : 1#64 <<< k = BitVec.twoPow 64 k := (BitVec.twoPow_eq 64 k).symm
  rw [htwo, BitVec.and_twoPow]
  cases hx : x.getLsbD k with
  | false => simp
  | true =>
    refine iff_of_true (fun hzero => ?_) rfl
    have hbit := congrArg (fun y : BitVec 64 => y.getLsbD k) hzero
    simp [hk] at hbit

theorem srvHalIsPTEValid_eq (pte : PageTableEntry) : srvHalIsPTEValid pte = flagV pte := by
  have hbit := and_one_shift_ne_zero pte (k := 0) (by decide)
  rw [Bool.eq_iff_iff, srvHalIsPTEValid, decide_eq_true_iff]
  exact hbit

theorem or_ne_zero_iff (x y : BitVec 64) : x ||| y ≠ 0#64 ↔ x ≠ 0#64 ∨ y ≠ 0#64 := by
  rw [ne_eq, BitVec.or_eq_zero_iff, not_and_or]

theorem srvHalIsPTELeaf_iff (pte : PageTableEntry) : srvHalIsPTELeaf pte = true ↔ IsLeaf pte := by
  have hvalid := and_one_shift_ne_zero pte (k := 0) (by decide)
  have hread := and_one_shift_ne_zero pte (k := 1) (by decide)
  have hwrite := and_one_shift_ne_zero pte (k := 2) (by decide)
  have hexecute := and_one_shift_ne_zero pte (k := 3) (by decide)
  simp only [srvHalIsPTELeaf, Bool.and_eq_true, decide_eq_true_iff, BitVec.and_or_distrib_left,
    or_ne_zero_iff, rv64PteValid, rv64PteRead, rv64PteWrite, rv64PteExecute, hvalid, hread, hwrite,
    hexecute, IsLeaf, flagV, flagR, flagW, flagX, or_assoc]
  exact And.comm

theorem rv64PTEToPhysAddr_eq (pte : PageTableEntry) : rv64PTEToPhysAddr pte = nextTable pte := by
  apply BitVec.eq_of_toNat_eq
  have hmask := Nat.and_two_pow_sub_one_eq_mod (pte.toNat / 2 ^ 10) 44
  simp only [Nat.reducePow, Nat.reduceSub] at hmask
  rw [rv64PTEToPhysAddr, nextTable, BitVec.toNat_shiftLeft, BitVec.toNat_and, Nat.shiftLeft_eq]
  simp only [BitVec.toNat_ofNat, Nat.reducePow, Nat.reduceMod, BitVec.toNat_ushiftRight,
    Nat.shiftRight_eq_div_pow, ppn, hmask]
  omega

theorem isPointer_iff (pte : PageTableEntry) : IsPointer pte ↔ flagV pte = true ∧ ¬ IsLeaf pte := by
  simp only [IsPointer, IsLeaf]
  cases flagV pte <;> cases flagR pte <;> cases flagW pte <;> cases flagX pte <;> decide

theorem sv39_view_of_leaf {pte : PageTableEntry} (h : IsLeaf pte) : sv39.view pte = .leaf := by
  have hptr : ¬ IsPointer pte := fun hp => ((isPointer_iff pte).mp hp).2 h
  simp only [sv39, if_neg hptr, if_pos h]

theorem sv39_view_of_pointer {pte : PageTableEntry} (h : IsPointer pte) :
    sv39.view pte = .next (nextTable pte) := by
  simp only [sv39, if_pos h]

theorem sv39_view_of_invalid {pte : PageTableEntry} (h : flagV pte = false) :
    sv39.view pte = .absent := by
  have hptr : ¬ IsPointer pte := fun hp => by simp [hp.1] at h
  have hleaf : ¬ IsLeaf pte := fun hl => by simp [hl.1] at h
  simp only [sv39, if_neg hptr, if_neg hleaf]

/-- The loop with the addresses it has read from, a level after the other. -/
def walkLevelsRead (h : Rv64VmHeader) (mem : Addr → PageTableEntry) (va : Addr) :
    ℕ → Addr → Addr × List Addr
  | 0, _ => (NULL, [])
  | level + 1, currTable =>
    let pte := entryAddress currTable (vpn h va level)
    if srvHalIsPTEValid (mem pte) then
      if srvHalIsPTELeaf (mem pte) then (pte, [pte])
      else
        let (found, read) := walkLevelsRead h mem va level (rv64PTEToPhysAddr (mem pte))
        (found, pte :: read)
    else (NULL, [pte])

section Loop

variable {h : Rv64VmHeader} {mem : Addr → PageTableEntry} {root va : Addr}

theorem walkLevelsRead_fst (level : ℕ) (table : Addr) :
    (walkLevelsRead h mem va level table).1 = walkLevels h mem va level table := by
  induction level generalizing table with
  | zero => rfl
  | succ level ih =>
    simp only [walkLevelsRead, walkLevels]
    split
    · split
      · rfl
      · exact ih _
    · rfl

/-- The loop with its reads is the walk of the tree with its reads. -/
theorem walkLevelsRead_eq (hh : h.IsSv39) {level : ℕ} (hlevel : level ≤ 3) (table : Addr) :
    walkLevelsRead h mem va level table =
      ((sv39.walk mem (vpnField va) level table).getD NULL,
        sv39.reads mem (vpnField va) level table) := by
  induction level generalizing table with
  | zero => rfl
  | succ level ih =>
    simp only [walkLevelsRead, Tree.walk, Tree.reads, entryAddress_eq hh table va hlevel,
      srvHalIsPTEValid_eq]
    have hplace : sv39.place table (vpnField va level) = pteAddress table (vpnField va level) := rfl
    rw [hplace]
    cases hvalid : flagV (mem (pteAddress table (vpnField va level))) with
    | false => simp [sv39_view_of_invalid hvalid]
    | true =>
      by_cases hleaf : IsLeaf (mem (pteAddress table (vpnField va level)))
      · simp [sv39_view_of_leaf hleaf, (srvHalIsPTELeaf_iff _).mpr hleaf]
      · have hptr := (isPointer_iff _).mpr ⟨hvalid, hleaf⟩
        have hno : ¬ srvHalIsPTELeaf (mem (pteAddress table (vpnField va level))) = true :=
          fun hl => hleaf ((srvHalIsPTELeaf_iff _).mp hl)
        simp [sv39_view_of_pointer hptr, hno, rv64PTEToPhysAddr_eq, ih (Nat.le_of_succ_le hlevel)]

theorem srvHalWalkPageTable_eq (hh : h.IsSv39) (mem : Addr → PageTableEntry) (root va : Addr) :
    srvHalWalkPageTable h mem root va = (sv39.walk mem (vpnField va) 3 root).getD NULL := by
  rw [srvHalWalkPageTable, hh.maxLevels, ← walkLevelsRead_fst, walkLevelsRead_eq hh (Nat.le_refl _)]

theorem tableAt_iff {level : ℕ} {table : Addr} : TableAt mem root va level table ↔
    sv39.Reaches mem (vpnField va) 3 root (level + 1) table := by
  constructor
  · intro hat
    induction hat with
    | root => exact .root
    | next _ hpte ih => exact .next ih (sv39_view_of_pointer hpte)
  · intro hreach
    generalize hlevels : level + 1 = levels at hreach
    induction hreach generalizing level with
    | root =>
      obtain rfl : level = 2 := by omega
      exact .root
    | @next below table table' _ hview ih =>
      subst hlevels
      have hat := ih rfl
      have hplace : sv39.place table (vpnField va (level + 1)) =
          pteAddress table (vpnField va (level + 1)) := rfl
      rw [hplace] at hview
      by_cases hptr : IsPointer (mem (pteAddress table (vpnField va (level + 1))))
      · rw [sv39_view_of_pointer hptr] at hview
        rw [← View.next.inj hview]
        exact .next hat hptr
      · simp only [sv39, if_neg hptr] at hview
        split at hview <;> cases hview

theorem TableAt.le {level : ℕ} {table : Addr} (hat : TableAt mem root va level table) :
    level ≤ 2 := Nat.le_of_succ_le_succ (tableAt_iff.mp hat).le

theorem walk_eq_some_iff {p : Addr} : sv39.walk mem (vpnField va) 3 root = some p ↔
    ∃ level table, TableAt mem root va level table ∧
      IsLeaf (mem (pteAddress table (vpnField va level))) ∧
      p = pteAddress table (vpnField va level) := by
  rw [Tree.walk_eq_some_iff]
  constructor
  · rintro ⟨level, table, hreach, hview, hp⟩
    refine ⟨level, table, tableAt_iff.mpr hreach, ?_, hp⟩
    simp only [sv39] at hview
    split at hview
    · cases hview
    · split at hview
      · rename_i hleaf
        exact hleaf
      · cases hview
  · rintro ⟨level, table, hat, hleaf, hp⟩
    exact ⟨level, table, tableAt_iff.mp hat, sv39_view_of_leaf hleaf, hp⟩

/-- The page-table walk is the three-level walk: it returns the entry of the leaf at the level
where it is reached, and NULL where none is; it reads one entry a level on its own path, and
nothing else plays a part; addresses with the same indices down to the leaf have the same
result. -/
theorem srvHalWalkPageTable_three_levels (hh : h.IsSv39) (mem : Addr → PageTableEntry)
    (root va : Addr) :
    (∀ level table, TableAt mem root va level table →
      IsLeaf (mem (pteAddress table (vpnField va level))) →
      srvHalWalkPageTable h mem root va = pteAddress table (vpnField va level)) ∧
    ((∀ level table, TableAt mem root va level table →
      ¬ IsLeaf (mem (pteAddress table (vpnField va level)))) →
      srvHalWalkPageTable h mem root va = NULL) ∧
    ((walkLevelsRead h mem va h.maxLevels root).1 = srvHalWalkPageTable h mem root va ∧
      ∀ k p, (walkLevelsRead h mem va h.maxLevels root).2[k]? = some p →
        ∃ level table, level + k = 2 ∧ TableAt mem root va level table ∧
          p = pteAddress table (vpnField va level)) ∧
    (∀ mem', (∀ p ∈ (walkLevelsRead h mem va h.maxLevels root).2, mem' p = mem p) →
      srvHalWalkPageTable h mem' root va = srvHalWalkPageTable h mem root va) ∧
    (∀ level table va', TableAt mem root va level table →
      IsLeaf (mem (pteAddress table (vpnField va level))) →
      (∀ l, level ≤ l → l ≤ 2 → vpnField va' l = vpnField va l) →
      srvHalWalkPageTable h mem root va' = srvHalWalkPageTable h mem root va) := by
  refine ⟨fun level table hat hleaf => ?_, fun hnone => ?_, ⟨walkLevelsRead_fst _ _, ?_⟩,
    fun mem' hsame => ?_, fun level table va' hat hleaf hagree => ?_⟩
  · rw [srvHalWalkPageTable_eq hh, walk_eq_some_iff.mpr ⟨level, table, hat, hleaf, rfl⟩]
    rfl
  · rw [srvHalWalkPageTable_eq hh]
    cases hwalk : sv39.walk mem (vpnField va) 3 root with
    | none => rfl
    | some p =>
      obtain ⟨level, table, hat, hleaf, -⟩ := walk_eq_some_iff.mp hwalk
      exact absurd hleaf (hnone level table hat)
  · intro k p hread
    rw [hh.maxLevels, walkLevelsRead_eq hh (Nat.le_refl _)] at hread
    obtain ⟨level, table, hlevel, hreach, hp⟩ := Tree.reads_getElem? hread
    exact ⟨level, table, by omega, tableAt_iff.mpr hreach, hp⟩
  · rw [hh.maxLevels, walkLevelsRead_eq hh (Nat.le_refl _)] at hsame
    rw [srvHalWalkPageTable_eq hh, srvHalWalkPageTable_eq hh, Tree.walk_congr hsame]
  · rw [srvHalWalkPageTable_eq hh, srvHalWalkPageTable_eq hh,
      Tree.walk_congr_key (tableAt_iff.mp hat) (sv39_view_of_leaf hleaf)
        fun l hl hlt => hagree l hl (Nat.le_of_lt_succ hlt)]

end Loop

def threeTables (a : Addr) : PageTableEntry :=
  if a = 0x80001000#64 then 0x20000801#64
  else if a = 0x80002008#64 then 0x20000C01#64
  else if a = 0x80003010#64 then 0x20001007#64
  else 0#64

theorem srvHalWalkPageTable_three_tables :
    srvHalWalkPageTable ⟨30, 21, 12, 0x1FF#64, 3⟩ threeTables 0x80001000#64 0x202000#64 =
      0x80003010#64 := by
  have hroot : TableAt threeTables 0x80001000#64 0x202000#64 2 0x80001000#64 := .root
  have hmiddle : TableAt threeTables 0x80001000#64 0x202000#64 1 0x80002000#64 :=
    hroot.next (by decide)
  have hlast : TableAt threeTables 0x80001000#64 0x202000#64 0 0x80003000#64 :=
    hmiddle.next (by decide)
  exact (srvHalWalkPageTable_three_levels ⟨rfl, rfl, rfl, rfl, rfl⟩ threeTables 0x80001000#64
    0x202000#64).1 0 0x80003000#64 hlast (by decide)

end SysRv.Sv39
