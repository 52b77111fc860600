import SysRv.Rv64
import Mathlib.Algebra.BigOperators.Group.List.Basic
import Mathlib.Logic.Function.Iterate

/-!
# RV64 code with jumps, behind an address translation

A listing is a list of instructions with labels as positions; where the assembler puts them
and how many bytes each takes is a `Placement`. A hart fetches through its translation, so
code runs on only where the translation of its own address leads back to it. Harts share
one memory and take their steps in any order; harts that never write leave the run of the
others as it is.
-/

namespace SysRv.Rv64

open Function

abbrev Mem := Word → Word

inductive Access where
  | fetch
  | load
  | store
  deriving DecidableEq, Repr

/-- The translation of addresses: which values `satp` takes, and where an access goes under
such a value. An access may leave marks in the tables it goes through. -/
structure Mmu where
  accepts : Word → Bool
  translate : Word → Access → Mem → Word → Option (Word × Mem)

/-- Instructions of a listing. A label is the position of the instruction it is in front of. -/
inductive Op where
  | line (i : Instr)
  | bne (rs₁ rs₂ : Reg) (label : ℕ)
  | j (label : ℕ)
  | jal (rd : Reg) (label : ℕ)
  | jalr (rd rs : Reg)
  | csrwSatp (rs : Reg)
  | sfenceVma
  deriving DecidableEq, Repr

abbrev Op.jr (rs : Reg) : Op := .jalr .zero rs

/-- Where a listing lies. Instructions are whole half words. -/
structure Placement (ops : List Op) where
  base : Word
  size : ℕ → ℕ
  size_pos : ∀ i, 0 < size i
  size_even : ∀ i, size i % 2 = 0
  base_even : base.toNat % 2 = 0
  fits : base.toNat + ((List.range ops.length).map size).sum < 2 ^ 64

structure Hart where
  pc : Word
  regs : Reg → Word
  csrs : Csr → Word
  satp : Word

namespace Hart

/-- The hart as a machine on a memory, for the instructions that know nothing of pages. -/
def withMem (h : Hart) (mem : Mem) : Machine := ⟨h.regs, h.csrs, mem⟩

def withRegs (h : Hart) (m : Machine) : Hart := { h with regs := m.regs }

def goto (h : Hart) (pc : Word) : Hart := { h with pc := pc }

def reg (h : Hart) (r : Reg) : Word := if r = .zero then 0#64 else h.regs r

def setReg (h : Hart) (r : Reg) (v : Word) : Hart := { h with regs := update h.regs r v }

def setSatp (h : Hart) (M : Mmu) (v : Word) : Hart := if M.accepts v then { h with satp := v } else h

section Fields

variable (h : Hart) (mem : Mem) (m : Machine) (M : Mmu) (r : Reg) (v pc : Word)

@[simp] theorem withMem_reg : (h.withMem mem).reg r = h.reg r := rfl
@[simp] theorem withMem_mem : (h.withMem mem).mem = mem := rfl
@[simp] theorem withMem_setReg : (h.setReg r v).withMem mem = (h.withMem mem).setReg r v := rfl
@[simp] theorem withMem_goto : (h.goto pc).withMem mem = h.withMem mem := rfl
@[simp] theorem withRegs_reg : (h.withRegs m).reg r = m.reg r := rfl
@[simp] theorem withRegs_pc : (h.withRegs m).pc = h.pc := rfl
@[simp] theorem withRegs_satp : (h.withRegs m).satp = h.satp := rfl
@[simp] theorem withRegs_withRegs (m' : Machine) :
    (h.withRegs m).withRegs m' = h.withRegs m' := rfl
@[simp] theorem withRegs_withMem : h.withRegs (h.withMem mem) = h := rfl
@[simp] theorem goto_reg : (h.goto pc).reg r = h.reg r := rfl
@[simp] theorem goto_pc : (h.goto pc).pc = pc := rfl
@[simp] theorem goto_satp : (h.goto pc).satp = h.satp := rfl
@[simp] theorem goto_goto (pc' : Word) : (h.goto pc).goto pc' = h.goto pc' := rfl
@[simp] theorem goto_withRegs : (h.goto pc).withRegs m = (h.withRegs m).goto pc := rfl
@[simp] theorem setReg_pc : (h.setReg r v).pc = h.pc := rfl
@[simp] theorem setReg_satp : (h.setReg r v).satp = h.satp := rfl
@[simp] theorem setReg_goto : (h.goto pc).setReg r v = (h.setReg r v).goto pc := rfl

@[simp] theorem setReg_reg_ne {r q : Reg} (hne : q ≠ r) : (h.setReg r v).reg q = h.reg q :=
  Machine.setReg_reg_ne (h.withMem fun _ => 0#64) v hne

@[simp] theorem setReg_reg_self {r : Reg} (hr : r ≠ .zero) : (h.setReg r v).reg r = v :=
  Machine.setReg_reg_self (h.withMem fun _ => 0#64) v hr

@[simp] theorem setReg_zero_reg : (h.setReg .zero v).reg r = h.reg r := by
  by_cases hr : r = .zero
  · rw [hr]
    rfl
  · exact setReg_reg_ne h v hr

@[simp] theorem setSatp_pc : (h.setSatp M v).pc = h.pc := by
  rw [setSatp]
  split <;> rfl

@[simp] theorem setSatp_reg : (h.setSatp M v).reg r = h.reg r := by
  rw [setSatp]
  split <;> rfl

end Fields

end Hart

/-- How a step goes: the hart and the memory after it, the access that faults, or no
instruction of the listing at the address that is fetched from. -/
inductive Outcome where
  | runs (h : Hart) (mem : Mem)
  | faults (k : Access) (va : Word)
  | leaves

section Steps

variable {ops : List Op} (P : Placement ops) (M : Mmu)

/-- How far behind the first byte a position lies. -/
def Placement.offset (i : ℕ) : ℕ := ((List.range i).map P.size).sum

@[irreducible] def Placement.place (i : ℕ) : Word := P.base + BitVec.ofNat 64 (P.offset i)

def Placement.position? (a : Word) : Option ℕ := (List.range ops.length).find? fun i => P.place i = a

/-- An instruction other than a jump, without the step of `pc`. -/
def Hart.exec (h : Hart) (mem : Mem) : Instr → Outcome
  | .ld rd offset base =>
    match M.translate h.satp .load mem ((h.withMem mem).address offset base) with
    | none => .faults .load ((h.withMem mem).address offset base)
    | some (a, mem) => .runs (h.setReg rd (mem a)) mem
  | .sd rs offset base =>
    match M.translate h.satp .store mem ((h.withMem mem).address offset base) with
    | none => .faults .store ((h.withMem mem).address offset base)
    | some (a, mem) => .runs h (update mem a (h.reg rs))
  | i => .runs (h.withRegs ((h.withMem mem).exec i)) mem

def Hart.label (h : Hart) (i label : ℕ) : Word := h.pc + (P.place label - P.place i)

def Hart.op (h : Hart) (mem : Mem) (i : ℕ) : Op → Outcome
  | .line instr =>
    match h.exec M mem instr with
    | .runs h' mem => .runs (h'.goto (h.label P i (i + 1))) mem
    | .faults k va => .faults k va
    | .leaves => .leaves
  | .bne rs₁ rs₂ label =>
    .runs (h.goto (h.label P i (if h.reg rs₁ ≠ h.reg rs₂ then label else i + 1))) mem
  | .j label => .runs (h.goto (h.label P i label)) mem
  | .jal rd label => .runs ((h.setReg rd (h.label P i (i + 1))).goto (h.label P i label)) mem
  | .jalr rd rs =>
    .runs ((h.setReg rd (h.label P i (i + 1))).goto (h.reg rs &&& ~~~ 1#64)) mem
  | .csrwSatp rs => .runs ((h.setSatp M (h.reg rs)).goto (h.label P i (i + 1))) mem
  | .sfenceVma => .runs (h.goto (h.label P i (i + 1))) mem

def Hart.step (h : Hart) (mem : Mem) : Outcome :=
  match M.translate h.satp .fetch mem h.pc with
  | none => .faults .fetch h.pc
  | some (a, mem) =>
    match P.position? a with
    | none => .leaves
    | some i =>
      match ops[i]? with
      | none => .leaves
      | some op => h.op P M mem i op

def Steps : ℕ → Hart → Mem → Hart → Mem → Prop
  | 0, h, mem, h', mem' => h = h' ∧ mem = mem'
  | n + 1, h, mem, h', mem' => ∃ h₁ mem₁, h.step P M mem = .runs h₁ mem₁ ∧ Steps n h₁ mem₁ h' mem'

/-- Accesses go where they are addressed to, and leave nothing behind. -/
def Mmu.Bare (satp : Word) : Prop := ∀ k mem va, M.translate satp k mem va = some (va, mem)

end Steps

def Instr.isAccess : Instr → Bool
  | .ld .. | .sd .. => true
  | _ => false

section Runs

variable {ops : List Op} {P : Placement ops} {M : Mmu} {h h' h'' : Hart} {mem mem' mem'' : Mem}

theorem Placement.offset_succ (i : ℕ) : P.offset (i + 1) = P.offset i + P.size i := by
  simp [Placement.offset, List.range_succ]

theorem Placement.offset_lt {i j : ℕ} (hij : i < j) : P.offset i < P.offset j := by
  induction j with
  | zero => cases hij
  | succ j ih =>
    have hpos := P.size_pos j
    rw [P.offset_succ]
    rcases Nat.lt_or_eq_of_le (Nat.le_of_lt_succ hij) with hlt | rfl
    · have hj := ih hlt
      omega
    · omega

theorem Placement.offset_le {i j : ℕ} (hij : i ≤ j) : P.offset i ≤ P.offset j := by
  rcases Nat.lt_or_eq_of_le hij with hlt | rfl
  · exact Nat.le_of_lt (P.offset_lt hlt)
  · exact Nat.le_refl _

theorem Placement.offset_even (i : ℕ) : P.offset i % 2 = 0 := by
  induction i with
  | zero => rfl
  | succ i ih =>
    have heven := P.size_even i
    rw [P.offset_succ]
    omega

theorem Placement.place_toNat {i : ℕ} (hi : i ≤ ops.length) :
    (P.place i).toNat = P.base.toNat + P.offset i := by
  have hle := P.offset_le hi
  have hfits : P.base.toNat + P.offset ops.length < 2 ^ 64 := P.fits
  rw [Placement.place, BitVec.toNat_add, BitVec.toNat_ofNat]
  omega

theorem Placement.place_inj {i j : ℕ} (hi : i ≤ ops.length) (hj : j ≤ ops.length)
    (heq : P.place i = P.place j) : i = j := by
  have hnat := congrArg BitVec.toNat heq
  rw [P.place_toNat hi, P.place_toNat hj] at hnat
  rcases Nat.lt_trichotomy i j with hlt | rfl | hlt
  · have hoff := P.offset_lt hlt
    omega
  · rfl
  · have hoff := P.offset_lt hlt
    omega

/-- Jumps clear bit 0 of their target. -/
theorem and_not_one_of_even {a : Word} (heven : a.toNat % 2 = 0) : a &&& ~~~ 1#64 = a := by
  ext k hk
  rw [BitVec.getElem_and, BitVec.getElem_not, BitVec.getElem_one]
  by_cases hzero : k = 0
  · subst hzero
    rw [BitVec.getElem_eq_testBit_toNat, Nat.testBit_zero, heven]
    decide
  · simp [hzero]

theorem Placement.place_clear {i : ℕ} (hi : i ≤ ops.length) :
    P.place i &&& ~~~ 1#64 = P.place i := by
  have hbase := P.base_even
  have hoff := P.offset_even i
  refine and_not_one_of_even ?_
  rw [P.place_toNat hi]
  omega

theorem Placement.position?_place {i : ℕ} (hi : i < ops.length) : P.position? (P.place i) = some i := by
  have hsome : (P.position? (P.place i)).isSome := by
    rw [Placement.position?, List.find?_isSome]
    exact ⟨i, List.mem_range.mpr hi, by simp⟩
  obtain ⟨j, hj⟩ := Option.isSome_iff_exists.mp hsome
  have hmem := List.mem_range.mp (List.mem_of_find?_eq_some hj)
  have hplace : P.place j = P.place i := by simpa using List.find?_some hj
  rw [hj, P.place_inj (Nat.le_of_lt hmem) (Nat.le_of_lt hi) hplace]

theorem Hart.label_eq {i label : ℕ} (hpc : h.pc = P.place i) : h.label P i label = P.place label := by
  rw [Hart.label, hpc, BitVec.add_comm, BitVec.sub_add_cancel]

theorem Hart.step_of_fetch {satp : Word} {i : ℕ} {op : Op} (hpc : h.pc = P.place i)
    (hsatp : h.satp = satp) (hop : ops[i]? = some op)
    (hfetch : M.translate satp .fetch mem (P.place i) = some (P.place i, mem')) :
    h.step P M mem = h.op P M mem' i op := by
  have hi : i < ops.length := (List.getElem?_eq_some_iff.mp hop).1
  simp only [Hart.step, hpc, hsatp, hfetch, P.position?_place hi, hop]

/-- An instruction that is no load and no store changes registers only. -/
theorem Hart.exec_of_not_access {i : Instr} (hi : i.isAccess = false) :
    h.exec M mem i = .runs (h.withRegs ((h.withMem mem).exec i)) mem := by
  cases i <;> first | rfl | cases hi

/-! One lemma for each kind of instruction. -/

section Instructions

variable {satp : Word} {i : ℕ} (hpc : h.pc = P.place i) (hsatp : h.satp = satp)
  (hfetch : M.translate satp .fetch mem (P.place i) = some (P.place i, mem'))

include hpc hsatp hfetch

theorem Hart.step_bne {rs₁ rs₂ : Reg} {label : ℕ} (hop : ops[i]? = some (.bne rs₁ rs₂ label)) :
    h.step P M mem =
      .runs (h.goto (P.place (if h.reg rs₁ ≠ h.reg rs₂ then label else i + 1))) mem' := by
  rw [Hart.step_of_fetch hpc hsatp hop hfetch, Hart.op, Hart.label_eq hpc]

theorem Hart.step_j {label : ℕ} (hop : ops[i]? = some (.j label)) :
    h.step P M mem = .runs (h.goto (P.place label)) mem' := by
  rw [Hart.step_of_fetch hpc hsatp hop hfetch, Hart.op, Hart.label_eq hpc]

theorem Hart.step_jal {rd : Reg} {label : ℕ} (hop : ops[i]? = some (.jal rd label)) :
    h.step P M mem = .runs ((h.setReg rd (P.place (i + 1))).goto (P.place label)) mem' := by
  rw [Hart.step_of_fetch hpc hsatp hop hfetch, Hart.op, Hart.label_eq hpc, Hart.label_eq hpc]

theorem Hart.step_jalr {rd rs : Reg} (hop : ops[i]? = some (.jalr rd rs)) :
    h.step P M mem =
      .runs ((h.setReg rd (P.place (i + 1))).goto (h.reg rs &&& ~~~ 1#64)) mem' := by
  rw [Hart.step_of_fetch hpc hsatp hop hfetch, Hart.op, Hart.label_eq hpc]

theorem Hart.step_csrwSatp {rs : Reg} (hop : ops[i]? = some (.csrwSatp rs)) :
    h.step P M mem = .runs ((h.setSatp M (h.reg rs)).goto (P.place (i + 1))) mem' := by
  rw [Hart.step_of_fetch hpc hsatp hop hfetch, Hart.op, Hart.label_eq hpc]

theorem Hart.step_sfenceVma (hop : ops[i]? = some .sfenceVma) :
    h.step P M mem = .runs (h.goto (P.place (i + 1))) mem' := by
  rw [Hart.step_of_fetch hpc hsatp hop hfetch, Hart.op, Hart.label_eq hpc]

theorem Hart.step_line {instr : Instr} (hop : ops[i]? = some (.line instr))
    (hinstr : instr.isAccess = false) :
    h.step P M mem =
      .runs ((h.withRegs ((h.withMem mem').exec instr)).goto (P.place (i + 1))) mem' := by
  rw [Hart.step_of_fetch hpc hsatp hop hfetch, Hart.op, Hart.exec_of_not_access hinstr,
    ← Hart.label_eq hpc]

theorem Hart.step_sd {rs base : Reg} {offset : BitVec 12} {a va : Word}
    (hop : ops[i]? = some (.line (.sd rs offset base)))
    (haddress : h.reg base + offset.signExtend 64 = va)
    (hstore : M.translate satp .store mem' va = some (a, mem'')) :
    h.step P M mem = .runs (h.goto (P.place (i + 1))) (update mem'' a (h.reg rs)) := by
  have haddr : (h.withMem mem').address offset base = va := haddress
  rw [Hart.step_of_fetch hpc hsatp hop hfetch, Hart.op, Hart.exec, haddr, hsatp, hstore]
  simp only [Hart.label_eq hpc]

theorem Hart.step_ld {rd base : Reg} {offset : BitVec 12} {a va : Word}
    (hop : ops[i]? = some (.line (.ld rd offset base)))
    (haddress : h.reg base + offset.signExtend 64 = va)
    (hload : M.translate satp .load mem' va = some (a, mem'')) :
    h.step P M mem = .runs ((h.setReg rd (mem'' a)).goto (P.place (i + 1))) mem'' := by
  have haddr : (h.withMem mem').address offset base = va := haddress
  rw [Hart.step_of_fetch hpc hsatp hop hfetch, Hart.op, Hart.exec, haddr, hsatp, hload,
    ← Hart.label_eq hpc]

end Instructions

theorem Steps.cons {n : ℕ} (hstep : h.step P M mem = .runs h' mem')
    (hsteps : Steps P M n h' mem' h'' mem'') : Steps P M (n + 1) h mem h'' mem'' :=
  ⟨h', mem', hstep, hsteps⟩

theorem Steps.trans {n k : ℕ} (hsteps : Steps P M n h mem h' mem')
    (hsteps' : Steps P M k h' mem' h'' mem'') : Steps P M (n + k) h mem h'' mem'' := by
  induction n generalizing h mem with
  | zero =>
    obtain ⟨rfl, rfl⟩ := hsteps
    rwa [Nat.zero_add]
  | succ n ih =>
    obtain ⟨h₁, mem₁, hstep, hrest⟩ := hsteps
    rw [Nat.add_right_comm]
    exact ⟨h₁, mem₁, hstep, ih hrest⟩

theorem Steps.snoc {n : ℕ} (hsteps : Steps P M n h mem h' mem')
    (hstep : h'.step P M mem' = .runs h'' mem'') : Steps P M (n + 1) h mem h'' mem'' :=
  hsteps.trans (.cons hstep ⟨rfl, rfl⟩)

theorem drop_eq_cons {i : ℕ} {op : Op} {rest : List Op} (h : ops.drop i = op :: rest) :
    ops[i]? = some op ∧ ops.drop (i + 1) = rest := by
  constructor
  · have hhead : (ops.drop i)[0]? = some op := by rw [h]; rfl
    simpa using hhead
  · rw [← List.drop_drop, h]
    rfl

theorem Instr.isStore_of_not_access {i : Instr} (hi : i.isAccess = false) : i.isStore = false := by
  cases i <;> first | rfl | cases hi

/-- The registers and the memory of a machine put back together. -/
theorem Hart.withRegs_withMem_of_csrs {m : Machine} (hcsrs : m.csrs = h.csrs) :
    (h.withRegs m).withMem m.mem = m := by
  cases m
  cases hcsrs
  rfl

/-- A line of instructions each of which does to the hart and the memory what it does to a
machine, the invariant of the memory being kept. -/
theorem steps_of_exec {Q : Mem → Prop} {i : ℕ} {line : List Instr} {rest : List Op}
    (hcode : ops.drop i = line.map Op.line ++ rest) (hpc : h.pc = P.place i) (hmem : Q mem)
    (hfetch : ∀ mem k, Q mem → i ≤ k → k < i + line.length →
      M.translate h.satp .fetch mem (P.place k) = some (P.place k, mem))
    (hexec : ∀ (h' : Hart) mem, h'.satp = h.satp → Q mem → ∀ instr ∈ line,
      h'.exec M mem instr =
          .runs (h'.withRegs ((h'.withMem mem).exec instr)) ((h'.withMem mem).exec instr).mem ∧
        Q ((h'.withMem mem).exec instr).mem) :
    Steps P M line.length h mem
      ((h.withRegs ((h.withMem mem).run line)).goto (P.place (i + line.length)))
      ((h.withMem mem).run line).mem := by
  induction line generalizing h mem i with
  | nil => exact ⟨by rw [List.length_nil, Nat.add_zero, ← hpc]; rfl, rfl⟩
  | cons instr line ih =>
    obtain ⟨hop, hcode'⟩ := drop_eq_cons hcode
    obtain ⟨hrun, hkept⟩ := hexec h mem rfl hmem instr (List.mem_cons_self ..)
    have hstep : h.step P M mem = .runs
        ((h.withRegs ((h.withMem mem).exec instr)).goto (P.place (i + 1)))
        ((h.withMem mem).exec instr).mem := by
      rw [Hart.step_of_fetch hpc rfl hop (hfetch mem i hmem (Nat.le_refl _) (by simp)), Hart.op, hrun,
        ← Hart.label_eq hpc]
    have hnext : ((h.withRegs ((h.withMem mem).exec instr)).goto (P.place (i + 1))).withMem
        ((h.withMem mem).exec instr).mem = (h.withMem mem).exec instr :=
      Hart.withRegs_withMem_of_csrs (exec_csrs _ _)
    have hrest := ih (h := (h.withRegs ((h.withMem mem).exec instr)).goto (P.place (i + 1))) hcode'
      rfl hkept
      (fun mem k hQ hk hlt => hfetch mem k hQ (by omega) (by rw [List.length_cons]; omega))
      (fun h' mem hsatp hQ j hj => hexec h' mem hsatp hQ j (List.mem_cons_of_mem _ hj))
    rw [hnext, Nat.add_right_comm] at hrest
    exact .cons hstep hrest

theorem steps_line {i : ℕ} {line : List Instr} {rest : List Op}
    (hcode : ops.drop i = line.map Op.line ++ rest) (hpc : h.pc = P.place i)
    (hline : ∀ instr ∈ line, instr.isAccess = false)
    (hfetch : ∀ k, i ≤ k → k < i + line.length →
      M.translate h.satp .fetch mem (P.place k) = some (P.place k, mem)) :
    Steps P M line.length h mem
      ((h.withRegs ((h.withMem mem).run line)).goto (P.place (i + line.length))) mem := by
  have hsame : ((h.withMem mem).run line).mem = mem :=
    run_mem _ fun instr hi => Instr.isStore_of_not_access (hline instr hi)
  have hsteps := steps_of_exec (M := M) (Q := fun now => now = mem) hcode hpc rfl
    (fun now k hnow => hnow ▸ hfetch k) fun h' now _ hnow instr hi => by
      have hkept : ((h'.withMem now).exec instr).mem = now :=
        exec_mem _ (Instr.isStore_of_not_access (hline instr hi))
      rw [hkept]
      exact ⟨Hart.exec_of_not_access (hline instr hi), hnow⟩
  rwa [hsame] at hsteps

theorem steps_line_bare (mem : Mem) {i : ℕ} {line : List Instr} {rest : List Op}
    (hcode : ops.drop i = line.map Op.line ++ rest) (hpc : h.pc = P.place i)
    (hbare : M.Bare h.satp) :
    Steps P M line.length h mem
      ((h.withRegs ((h.withMem mem).run line)).goto (P.place (i + line.length)))
      ((h.withMem mem).run line).mem := by
  refine steps_of_exec (M := M) (Q := fun _ => True) hcode hpc trivial
    (fun now k _ _ _ => hbare .fetch now (P.place k)) fun h' now hsatp _ instr _ => ⟨?_, trivial⟩
  cases instr <;> simp only [Hart.exec, hsatp, hbare _ _ _] <;> rfl

/-- A run ends where no further step is possible. -/
theorem Steps.le_of_stuck {n k : ℕ} (hsteps : Steps P M n h mem h' mem')
    (hstuck : ∀ h₁ mem₁, h'.step P M mem' ≠ .runs h₁ mem₁) (hother : Steps P M k h mem h'' mem'') :
    k ≤ n := by
  induction n generalizing h mem k with
  | zero =>
    obtain ⟨rfl, rfl⟩ := hsteps
    cases k with
    | zero => exact Nat.le_refl _
    | succ k =>
      obtain ⟨h₁, mem₁, hstep, -⟩ := hother
      exact absurd hstep (hstuck h₁ mem₁)
  | succ n ih =>
    cases k with
    | zero => exact Nat.zero_le _
    | succ k =>
      obtain ⟨h₁, mem₁, hstep, hrest⟩ := hsteps
      obtain ⟨h₂, mem₂, hstep', hrest'⟩ := hother
      rw [hstep] at hstep'
      cases hstep'
      exact Nat.succ_le_succ (ih hrest hrest')

end Runs

/-- An access, with the word that a store writes. -/
structure Reference where
  kind : Access
  va : Word
  value : Word
  deriving DecidableEq, Repr

section References

variable (M : Mmu) (satp : Word)

/-- The word that an access reads or writes, and the memory after it. -/
def Mmu.refer (mem : Mem) (r : Reference) : Option (Word × Mem) :=
  match M.translate satp r.kind mem r.va with
  | none => none
  | some (pa, mem) =>
    match r.kind with
    | .store => some (r.value, update mem pa r.value)
    | .fetch | .load => some (mem pa, mem)

/-- Accesses one after the other, up to the first that faults: their words, and the memory. -/
def Mmu.refers : Mem → List Reference → List Word × Mem
  | mem, [] => ([], mem)
  | mem, r :: rs =>
    match M.refer satp mem r with
    | none => ([], mem)
    | some (v, mem) => (v :: (Mmu.refers mem rs).1, (Mmu.refers mem rs).2)

/-- Two memories that serve every access alike serve every sequence of accesses alike. -/
theorem refers_of_refer {M F : Mmu} {satp : Word} {R : Mem → Mem → Prop} {rs : List Reference}
    (hrefer : ∀ r ∈ rs, ∀ mem flat, R mem flat →
      Option.Rel (fun p q => p.1 = q.1 ∧ R p.2 q.2) (M.refer satp mem r) (F.refer satp flat r))
    {mem flat : Mem} (h : R mem flat) :
    (M.refers satp mem rs).1 = (F.refers satp flat rs).1 ∧
      R (M.refers satp mem rs).2 (F.refers satp flat rs).2 := by
  induction rs generalizing mem flat with
  | nil => exact ⟨rfl, h⟩
  | cons r rs ih =>
    have hone := hrefer r (List.mem_cons_self ..) mem flat h
    simp only [Mmu.refers]
    cases hM : M.refer satp mem r with
    | none =>
      rw [hM] at hone
      cases hF : F.refer satp flat r with
      | none => exact ⟨rfl, h⟩
      | some q =>
        rw [hF] at hone
        cases hone
    | some p =>
      rw [hM] at hone
      cases hF : F.refer satp flat r with
      | none =>
        rw [hF] at hone
        cases hone
      | some q =>
        rw [hF] at hone
        cases hone with
        | some hpq =>
          obtain ⟨hwords, hmem⟩ := ih (fun r hr => hrefer r (List.mem_cons_of_mem _ hr)) hpq.2
          exact ⟨congrArg₂ List.cons hpq.1 hwords, hmem⟩

end References

section Clusters

variable {ι : Type} [DecidableEq ι] {ops : List Op} (P : Placement ops) (M : Mmu)

structure Cluster (ι : Type) where
  harts : ι → Hart
  mem : Mem

/-- A step of a hart, which stays where it is when it cannot go on in the listing. -/
def Hart.advance (s : Hart × Mem) : Hart × Mem :=
  match s.1.step P M s.2 with
  | .runs h mem => (h, mem)
  | _ => s

def Cluster.step (c : Cluster ι) (i : ι) : Cluster ι :=
  ⟨update c.harts i (Hart.advance P M (c.harts i, c.mem)).1, (Hart.advance P M (c.harts i, c.mem)).2⟩

/-- The cluster after the steps of a schedule. -/
def Cluster.after (c : Cluster ι) (schedule : List ι) : Cluster ι := schedule.foldl (Cluster.step P M) c

/-- The next state of a hart that does not depend on the memory. -/
def Hart.alone (h : Hart) : Hart := (Hart.advance P M (h, fun _ => 0#64)).1

/-- A hart in `S` stays in `S`, writes nothing and does not depend on the memory. -/
def Silent (S : Hart → Prop) : Prop :=
  ∀ h, S h → ∃ h', S h' ∧ ∀ mem, h.step P M mem = .runs h' mem

variable {P M} {S : Hart → Prop} {h h' : Hart} {mem mem' : Mem}

theorem Hart.advance_of_step (hstep : h.step P M mem = .runs h' mem') :
    Hart.advance P M (h, mem) = (h', mem') := by simp only [Hart.advance, hstep]

theorem Steps.advance {n : ℕ} (hsteps : Steps P M n h mem h' mem') :
    (Hart.advance P M)^[n] (h, mem) = (h', mem') := by
  induction n generalizing h mem with
  | zero =>
    obtain ⟨rfl, rfl⟩ := hsteps
    rfl
  | succ n ih =>
    obtain ⟨h₁, mem₁, hstep, hrest⟩ := hsteps
    rw [iterate_succ_apply, Hart.advance_of_step hstep, ih hrest]

/-- A run that has ended stays where it ended. -/
theorem Steps.advance_of_le {n k : ℕ} (hsteps : Steps P M n h mem h' mem')
    (hstuck : ∀ h₁ mem₁, h'.step P M mem' ≠ .runs h₁ mem₁) (hle : n ≤ k) :
    (Hart.advance P M)^[k] (h, mem) = (h', mem') := by
  have hfixed : Hart.advance P M (h', mem') = (h', mem') := by
    simp only [Hart.advance]
  obtain ⟨d, rfl⟩ := Nat.exists_eq_add_of_le' hle
  rw [iterate_add_apply, hsteps.advance, iterate_fixed hfixed]

theorem Silent.advance (hS : Silent P M S) (hh : S h) (mem : Mem) :
    Hart.advance P M (h, mem) = (h.alone P M, mem) ∧ S (h.alone P M) := by
  obtain ⟨h', hh', hstep⟩ := hS h hh
  have halone : h.alone P M = h' := by rw [Hart.alone, Hart.advance_of_step (hstep _)]
  rw [Hart.advance_of_step (hstep mem), halone]
  exact ⟨rfl, hh'⟩

theorem Cluster.step_self (c : Cluster ι) (i : ι) :
    (c.step P M i).harts i = (Hart.advance P M (c.harts i, c.mem)).1 := update_self ..

theorem Cluster.step_other (c : Cluster ι) {i j : ι} (h : i ≠ j) :
    (c.step P M j).harts i = c.harts i := update_of_ne h ..

theorem Silent.step_keeps (hS : Silent P M S) {c : Cluster ι} {i : ι} (hi : S (c.harts i)) (j : ι) :
    S ((c.step P M j).harts i) := by
  by_cases hij : i = j
  · subst hij
    rw [c.step_self, (hS.advance hi c.mem).1]
    exact (hS.advance hi c.mem).2
  · rwa [c.step_other hij]

theorem Silent.step_mem (hS : Silent P M S) {c : Cluster ι} {j : ι} (hj : S (c.harts j)) :
    (c.step P M j).mem = c.mem := by rw [Cluster.step, (hS.advance hj c.mem).1]

/-- A silent hart runs by itself, whatever the schedule gives to the others. -/
theorem Silent.after_hart (hS : Silent P M S) {c : Cluster ι} {i : ι} (hi : S (c.harts i))
    (schedule : List ι) :
    (c.after P M schedule).harts i = (Hart.alone P M)^[schedule.count i] (c.harts i) := by
  induction schedule generalizing c with
  | nil => rfl
  | cons j schedule ih =>
    have hrest := ih (hS.step_keeps hi j)
    rw [Cluster.after, List.foldl_cons, ← Cluster.after, hrest]
    by_cases hj : j = i
    · subst hj
      rw [c.step_self, (hS.advance hi c.mem).1, List.count_cons_self, iterate_succ_apply]
    · rw [c.step_other (Ne.symm hj), List.count_cons_of_ne hj]

/-- Where all other harts are silent, a hart and the memory are as in its run alone. -/
theorem Silent.after_alone (hS : Silent P M S) {c : Cluster ι} {b : ι}
    (hothers : ∀ i, i ≠ b → S (c.harts i)) (schedule : List ι) :
    ((c.after P M schedule).harts b, (c.after P M schedule).mem) =
      (Hart.advance P M)^[schedule.count b] (c.harts b, c.mem) := by
  induction schedule generalizing c with
  | nil => rfl
  | cons j schedule ih =>
    have hrest := ih fun i hi => hS.step_keeps (hothers i hi) j
    rw [Cluster.after, List.foldl_cons, ← Cluster.after, hrest]
    by_cases hj : j = b
    · subst hj
      rw [c.step_self, List.count_cons_self, iterate_succ_apply]
      rfl
    · rw [c.step_other (Ne.symm hj), hS.step_mem (hothers j hj), List.count_cons_of_ne hj]

theorem Silent.after_mem (hS : Silent P M S) {c : Cluster ι} (hall : ∀ i, S (c.harts i))
    (schedule : List ι) : (c.after P M schedule).mem = c.mem := by
  induction schedule generalizing c with
  | nil => rfl
  | cons j schedule ih =>
    have hrest := ih fun i => hS.step_keeps (hall i) j
    rw [Cluster.after, List.foldl_cons, ← Cluster.after, hrest, hS.step_mem (hall j)]

end Clusters

end SysRv.Rv64
