import SysRv.Sv39Access

/-!
# Marking page-table entries

`srv_hal_MarkPTE*` set one bit of an entry each, and a walk may come between two of them.
-/

namespace SysRv.Sv39
open Function RadixWalk Rv64

def markPTE (bits : BitVec 64) (mem : Addr → PageTableEntry) (pte : Addr) : Addr → PageTableEntry :=
  update mem pte (mem pte ||| bits)

def srvHalMarkPTEValid := markPTE rv64PteValid

def srvHalMarkPTEReadable := markPTE rv64PteRead

def srvHalMarkPTEWritable := markPTE rv64PteWrite

def srvHalMarkPTEExecutable := markPTE rv64PteExecute

inductive PteMark where
  | valid | readable | writable | executable
  deriving DecidableEq, Repr

namespace PteMark

def run : PteMark → (Addr → PageTableEntry) → Addr → Addr → PageTableEntry
  | valid => srvHalMarkPTEValid
  | readable => srvHalMarkPTEReadable
  | writable => srvHalMarkPTEWritable
  | executable => srvHalMarkPTEExecutable

def position : PteMark → ℕ
  | valid => 0
  | readable => 1
  | writable => 2
  | executable => 3

end PteMark

def runMarks (marks : List PteMark) (mem : Addr → PageTableEntry) (pte : Addr) :
    Addr → PageTableEntry :=
  marks.foldl (fun mem mark => mark.run mem pte) mem

/-- Whenever a walk comes, whatever the tables are: it ends as before the marks, or at the entry
that is marked. -/
def MarksSafely (h : Rv64VmHeader) (pte : PageTableEntry) (marks : List PteMark) : Prop :=
  ∀ (mem : Addr → PageTableEntry) (p : Addr), mem p = pte → ∀ front, front <+: marks → ∀ root va,
    srvHalWalkPageTable h (runMarks front mem p) root va = srvHalWalkPageTable h mem root va ∨
      srvHalWalkPageTable h (runMarks front mem p) root va = p

section Marks

variable {marks : List PteMark} {mem : Addr → PageTableEntry} {p q root va : Addr}

theorem PteMark.run_eq (mark : PteMark) (mem : Addr → PageTableEntry) (p : Addr) :
    mark.run mem p = update mem p (mem p ||| 1#64 <<< mark.position) := by
  cases mark <;> rfl

theorem one_shift_getLsbD {n : ℕ} (hn : n < 64) (k : ℕ) : (1#64 <<< n).getLsbD k = (n == k) := by
  rw [← BitVec.twoPow_eq, BitVec.getLsbD_twoPow]
  simp [hn, Bool.beq_eq_decide_eq]

theorem runMarks_getLsbD (marks : List PteMark) (mem : Addr → PageTableEntry) (p : Addr) (k : ℕ) :
    (runMarks marks mem p p).getLsbD k =
      ((mem p).getLsbD k || marks.any fun mark => mark.position == k) := by
  induction marks generalizing mem with
  | nil => simp [runMarks]
  | cons mark marks ih =>
    have hbit : (1#64 <<< mark.position).getLsbD k = (mark.position == k) :=
      one_shift_getLsbD (by cases mark <;> decide) k
    have hrest := ih (mark.run mem p)
    rw [runMarks] at hrest ⊢
    rw [List.foldl_cons, hrest, mark.run_eq, update_self, BitVec.getLsbD_or, hbit, List.any_cons,
      Bool.or_assoc]

theorem runMarks_of_ne (marks : List PteMark) (mem : Addr → PageTableEntry) (hq : q ≠ p) :
    runMarks marks mem p q = mem q := by
  induction marks generalizing mem with
  | nil => rfl
  | cons mark marks ih =>
    rw [runMarks, List.foldl_cons]
    exact (ih _).trans (by rw [mark.run_eq, update_of_ne hq])

/-- The page number is made of the bits behind the flags. -/
theorem ppn_congr {pte pte' : PageTableEntry} (h : ∀ k, 10 ≤ k → pte'.getLsbD k = pte.getLsbD k) :
    ppn pte' = ppn pte := by
  have hquotient : pte'.toNat / 2 ^ 10 = pte.toNat / 2 ^ 10 := by
    apply Nat.eq_of_testBit_eq
    intro k
    rw [Nat.testBit_div_two_pow, Nat.testBit_div_two_pow]
    exact h _ (Nat.le_add_left 10 k)
  rw [ppn, ppn, hquotient]

theorem ppn_runMarks (marks : List PteMark) (mem : Addr → PageTableEntry) (p : Addr) :
    ppn (runMarks marks mem p p) = ppn (mem p) := by
  refine ppn_congr fun k hk => ?_
  have hnone : (marks.any fun mark => mark.position == k) = false := by
    rw [List.any_eq_false]
    intro mark _
    have hlt : mark.position < 4 := by cases mark <;> decide
    simp only [beq_iff_eq]
    omega
  rw [runMarks_getLsbD, hnone, Bool.or_false]

theorem PteMark.position_inj {mark mark' : PteMark} (h : mark.position = mark'.position) :
    mark = mark' := by
  revert h
  cases mark <;> cases mark' <;> decide

theorem runMarks_flag (mark : PteMark) (marks : List PteMark) (mem : Addr → PageTableEntry)
    (p : Addr) : (runMarks marks mem p p).getLsbD mark.position = true ↔
      (mem p).getLsbD mark.position = true ∨ mark ∈ marks := by
  rw [runMarks_getLsbD, Bool.or_eq_true, List.any_eq_true]
  refine or_congr_right ⟨?_, fun hmark => ⟨mark, hmark, beq_self_eq_true _⟩⟩
  rintro ⟨mark', hmark', hposition⟩
  rwa [← PteMark.position_inj (beq_iff_eq.mp hposition)]

/-- One of R, W and X. -/
def HasPermission (pte : PageTableEntry) : Prop :=
  flagR pte = true ∨ flagW pte = true ∨ flagX pte = true

theorem hasPermission_runMarks : HasPermission (runMarks marks mem p p) ↔
    HasPermission (mem p) ∨ ∃ mark ∈ marks, mark ≠ .valid := by
  have hflag := fun mark => runMarks_flag mark marks mem p
  have hread : flagR (runMarks marks mem p p) = true ↔
      flagR (mem p) = true ∨ .readable ∈ marks := hflag .readable
  have hwrite : flagW (runMarks marks mem p p) = true ↔
      flagW (mem p) = true ∨ .writable ∈ marks := hflag .writable
  have hexecute : flagX (runMarks marks mem p p) = true ↔
      flagX (mem p) = true ∨ .executable ∈ marks := hflag .executable
  have hsome : (∃ mark ∈ marks, mark ≠ .valid) ↔
      .readable ∈ marks ∨ .writable ∈ marks ∨ .executable ∈ marks := by
    constructor
    · rintro ⟨mark, hmark, hne⟩
      cases mark with
      | valid => exact absurd rfl hne
      | readable => exact .inl hmark
      | writable => exact .inr (.inl hmark)
      | executable => exact .inr (.inr hmark)
    · rintro (hmark | hmark | hmark) <;> exact ⟨_, hmark, by simp⟩
  rw [HasPermission, HasPermission, hread, hwrite, hexecute, hsome]
  grind

/-- A walk sees the four flags and the page number. -/
theorem sv39_view_congr {pte pte' : PageTableEntry} (hvalid : flagV pte' = flagV pte)
    (hread : flagR pte' = flagR pte) (hwrite : flagW pte' = flagW pte)
    (hexecute : flagX pte' = flagX pte) (hppn : ppn pte' = ppn pte) :
    sv39.view pte' = sv39.view pte := by
  have hptr : IsPointer pte' ↔ IsPointer pte := by
    rw [IsPointer, IsPointer, hvalid, hread, hwrite, hexecute]
  have hleaf : IsLeaf pte' ↔ IsLeaf pte := by
    rw [IsLeaf, IsLeaf, hvalid, hread, hwrite, hexecute]
  simp only [sv39, hptr, hleaf, nextTable, hppn]

/-- Marks that do not make a pointer of an entry that was not valid change a walk to end at the
entry, or not at all. -/
theorem walk_runMarks {h : Rv64VmHeader} (hh : h.IsSv39)
    (hsafe : flagV (mem p) = true ∨ ¬ IsPointer (runMarks marks mem p p)) :
    srvHalWalkPageTable h (runMarks marks mem p) root va = srvHalWalkPageTable h mem root va ∨
      srvHalWalkPageTable h (runMarks marks mem p) root va = p := by
  have hothers : ∀ q, q ≠ p → runMarks marks mem p q = mem q := fun q => runMarks_of_ne marks mem
  have hvalid : flagV (runMarks marks mem p p) = true ↔ flagV (mem p) = true ∨ _ :=
    runMarks_flag .valid marks mem p
  rw [srvHalWalkPageTable_eq hh, srvHalWalkPageTable_eq hh]
  by_cases hleaf : IsLeaf (runMarks marks mem p p)
  · by_cases hread : p ∈ sv39.reads mem (vpnField va) 3 root
    · right
      rw [Tree.walk_of_leaf (sv39_view_of_leaf hleaf) hothers hread]
      rfl
    · left
      rw [Tree.walk_congr fun q hq => hothers q fun heq => hread (heq ▸ hq)]
  · left
    have hview : ∀ q, sv39.view (runMarks marks mem p q) = sv39.view (mem q) := by
      intro q
      by_cases hq : q = p
      · subst hq
        cases hnow : flagV (runMarks marks mem q q) with
        | false =>
          have hbefore : flagV (mem q) = false := by
            rw [← Bool.not_eq_true] at hnow ⊢
            exact fun hb => hnow (hvalid.mpr (.inl hb))
          rw [sv39_view_of_invalid hnow, sv39_view_of_invalid hbefore]
        | true =>
          -- it has been a pointer all along
          have hbefore := hsafe.resolve_right fun hno => hno ((isPointer_iff _).mpr ⟨hnow, hleaf⟩)
          have hnone : ¬ HasPermission (runMarks marks mem q q) := fun hperm => hleaf ⟨hnow, hperm⟩
          have hnone' : ¬ HasPermission (mem q) :=
            fun hperm => hnone (hasPermission_runMarks.mpr (.inl hperm))
          simp only [HasPermission, not_or, Bool.not_eq_true] at hnone hnone'
          exact sv39_view_congr (hnow.trans hbefore.symm) (hnone.1.trans hnone'.1.symm)
            (hnone.2.1.trans hnone'.2.1.symm) (hnone.2.2.trans hnone'.2.2.symm) (ppn_runMarks ..)
      · rw [hothers q hq]
    rw [Tree.walk_congr_view fun q _ => hview q]

end Marks

def leavesBut (p : Addr) (pte : PageTableEntry) : Addr → PageTableEntry := update (fun _ => 0xF#64) p pte

theorem nextTable_toNat (pte : PageTableEntry) : (nextTable pte).toNat = 4096 * ppn pte := by
  have hlt : ppn pte < 2 ^ 44 := Nat.mod_lt _ (by decide)
  rw [nextTable, BitVec.toNat_ofNat]
  omega

/-- An entry that was not valid and is a pointer now: some walk ends in the page behind it. -/
theorem walk_leavesBut {h : Rv64VmHeader} (hh : h.IsSv39) {pte : PageTableEntry}
    {marks : List PteMark} (hinvalid : flagV pte = false)
    (hptr : IsPointer (runMarks marks (leavesBut 0x1000#64 pte) 0x1000#64 0x1000#64)) :
    srvHalWalkPageTable h (leavesBut 0x1000#64 pte) 0x1000#64 0x400000#64 = NULL ∧
      srvHalWalkPageTable h (runMarks marks (leavesBut 0x1000#64 pte) 0x1000#64) 0x1000#64
        0x400000#64 ≠ NULL ∧
      srvHalWalkPageTable h (runMarks marks (leavesBut 0x1000#64 pte) 0x1000#64) 0x1000#64
        0x400000#64 ≠ 0x1000#64 := by
  set mem := leavesBut 0x1000#64 pte
  set table := nextTable (runMarks marks mem 0x1000#64 0x1000#64)
  have hroot : sv39.place 0x1000#64 (vpnField 0x400000#64 2) = 0x1000#64 := by decide
  have hnext : (sv39.place table (vpnField 0x400000#64 1)).toNat =
      4096 * ppn (runMarks marks mem 0x1000#64 0x1000#64) + 16 := by
    have htable : table.toNat = _ := nextTable_toNat _
    have hlt : ppn (runMarks marks mem 0x1000#64 0x1000#64) < 2 ^ 44 := Nat.mod_lt _ (by decide)
    have hplace : sv39.place table (vpnField 0x400000#64 1) = table + 16#64 := rfl
    rw [hplace, BitVec.toNat_add, htable, BitVec.toNat_ofNat]
    omega
  have hne : sv39.place table (vpnField 0x400000#64 1) ≠ 0x1000#64 := by
    intro heq
    rw [heq, BitVec.toNat_ofNat] at hnext
    omega
  have hleaf : sv39.view (runMarks marks mem 0x1000#64 (sv39.place table (vpnField 0x400000#64 1))) =
      .leaf := by
    rw [runMarks_of_ne marks mem hne]
    exact (congrArg sv39.view (update_of_ne hne _ _)).trans (sv39_view_of_leaf (by decide))
  have hwalk : sv39.walk (runMarks marks mem 0x1000#64) (vpnField 0x400000#64) 3 0x1000#64 =
      some (sv39.place table (vpnField 0x400000#64 1)) := by
    rw [Tree.walk, hroot, sv39_view_of_pointer hptr]
    change sv39.walk _ _ 2 table = _
    rw [Tree.walk, hleaf]
  simp only [srvHalWalkPageTable_eq hh, hwalk, Option.getD_some]
  refine ⟨?_, fun hnull => ?_, hne⟩
  · have hmem : mem 0x1000#64 = pte := update_self ..
    rw [Tree.walk, hroot, hmem, sv39_view_of_invalid hinvalid]
    rfl
  · rw [hnull] at hnext
    cases hnext

/-- A run of marks is safe at every moment, in every tree of tables, if and only if the entry is
valid or permits something before, or the first mark is not the one for V. -/
theorem marksSafely_iff {h : Rv64VmHeader} (hh : h.IsSv39) (pte : PageTableEntry)
    (marks : List PteMark) : MarksSafely h pte marks ↔
      flagV pte = true ∨ HasPermission pte ∨ marks.head? ≠ some .valid := by
  constructor
  · intro hsafe
    by_contra hno
    rw [not_or, not_or, not_not, Bool.not_eq_true] at hno
    obtain ⟨hinvalid, hnone, hfirst⟩ := hno
    have hfront : [PteMark.valid] <+: marks := by
      obtain ⟨rest, rfl⟩ := List.head?_eq_some_iff.mp hfirst
      exact ⟨rest, rfl⟩
    have hmem : leavesBut 0x1000#64 pte 0x1000#64 = pte := update_self ..
    have hptr : IsPointer (runMarks [.valid] (leavesBut 0x1000#64 pte) 0x1000#64 0x1000#64) := by
      rw [isPointer_iff]
      refine ⟨(runMarks_flag .valid ..).mpr (.inr (List.mem_singleton_self _)), fun hleaf => ?_⟩
      rcases hasPermission_runMarks.mp hleaf.2 with hperm | ⟨mark, hmark, hne⟩
      · exact hnone (hmem ▸ hperm)
      · exact hne (List.mem_singleton.mp hmark)
    obtain ⟨hnull, hfound, hne⟩ := walk_leavesBut hh hinvalid hptr
    rcases hsafe _ _ hmem _ hfront 0x1000#64 0x400000#64 with hsame | hentry
    · exact hfound (hsame.trans hnull)
    · exact hne hentry
  · rintro hcond mem p rfl front hfront root va
    refine walk_runMarks hh ?_
    by_contra hno
    rw [not_or, not_not] at hno
    obtain ⟨hinvalid, hptr⟩ := hno
    have hnone : ¬ HasPermission (runMarks front mem p p) :=
      fun hperm => ((isPointer_iff _).mp hptr).2 ⟨hptr.1, hperm⟩
    rw [hasPermission_runMarks, not_or] at hnone
    have hvalid : .valid ∈ front :=
      ((runMarks_flag .valid ..).mp hptr.1).resolve_left hinvalid
    have hfirst := (hcond.resolve_left hinvalid).resolve_left hnone.1
    cases front with
    | nil => cases hvalid
    | cons mark front =>
      obtain ⟨rest, rfl⟩ := hfront
      refine hnone.2 ⟨mark, List.mem_cons_self, fun heq => hfirst ?_⟩
      rw [heq]
      rfl

/-- Permission first and V last is safe for an empty entry, V first is not. -/
theorem marksSafely_iff_empty :
    MarksSafely ⟨30, 21, 12, 0x1FF#64, 3⟩ 0#64 [.readable, .writable, .valid] ∧
      ¬ MarksSafely ⟨30, 21, 12, 0x1FF#64, 3⟩ 0#64 [.valid, .readable, .writable] := by
  constructor
  · exact (marksSafely_iff ⟨rfl, rfl, rfl, rfl, rfl⟩ 0#64 _).mpr (.inr (.inr (by decide)))
  · rw [marksSafely_iff ⟨rfl, rfl, rfl, rfl, rfl⟩ 0#64]
    rintro (hvalid | hperm | hfirst)
    · exact absurd hvalid (by decide)
    · rcases hperm with hr | hw | hx
      · exact absurd hr (by decide)
      · exact absurd hw (by decide)
      · exact absurd hx (by decide)
    · exact hfirst rfl

end SysRv.Sv39
