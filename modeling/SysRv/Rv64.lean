import Mathlib.Data.BitVec
import Mathlib.Logic.Function.Basic

/-!
# Straight-line RV64 code

The integer registers under their ABI names, the supervisor trap registers, and memory by
8-byte words. Every access of the code modelled here is aligned, so a word is looked up by
its own address. A straight line of instructions is a function on machine states; what it
leaves alone is read off its list of targets. Procedures relate the machine at their first
instruction to the machine they return with, and compiled ones keep what the calling
convention makes them keep.
-/

namespace SysRv.Rv64

open Function

abbrev Word := BitVec 64

inductive Reg where
  | zero | ra | sp | gp | tp
  | t0 | t1 | t2 | t3 | t4 | t5 | t6
  | s0 | s1 | s2 | s3 | s4 | s5 | s6 | s7 | s8 | s9 | s10 | s11
  | a0 | a1 | a2 | a3 | a4 | a5 | a6 | a7
  deriving DecidableEq, Repr

inductive Csr where
  | sepc | scause | stval | sstatus
  deriving DecidableEq, Repr

structure Machine where
  regs : Reg → Word
  csrs : Csr → Word
  mem : Word → Word

namespace Machine

/-- Register `zero` reads as 0, whatever was written to it. -/
def reg (m : Machine) (r : Reg) : Word := if r = .zero then 0#64 else m.regs r

def setReg (m : Machine) (r : Reg) (v : Word) : Machine := { m with regs := update m.regs r v }

def store (m : Machine) (a v : Word) : Machine := { m with mem := update m.mem a v }

def setMem (m : Machine) (mem : Word → Word) : Machine := { m with mem := mem }

variable (m : Machine) (r q : Reg) (a v : Word) (mem : Word → Word)

@[simp] theorem reg_zero : m.reg .zero = 0#64 := rfl
@[simp] theorem setReg_mem : (m.setReg r v).mem = m.mem := rfl
@[simp] theorem setReg_csrs : (m.setReg r v).csrs = m.csrs := rfl
@[simp] theorem store_csrs : (m.store a v).csrs = m.csrs := rfl
@[simp] theorem store_reg : (m.store a v).reg r = m.reg r := rfl
@[simp] theorem setMem_reg : (m.setMem mem).reg r = m.reg r := rfl
@[simp] theorem setMem_csrs : (m.setMem mem).csrs = m.csrs := rfl
@[simp] theorem setMem_mem : (m.setMem mem).mem = mem := rfl
@[simp] theorem setReg_setMem : (m.setMem mem).setReg r v = (m.setReg r v).setMem mem := rfl
@[simp] theorem setMem_setMem (mem' : Word → Word) : (m.setMem mem).setMem mem' = m.setMem mem' := rfl
@[simp] theorem store_mem : (m.store a v).mem = update m.mem a v := rfl

@[simp] theorem setReg_reg_ne {r q : Reg} (h : q ≠ r) : (m.setReg r v).reg q = m.reg q := by
  simp [reg, setReg, h]

@[simp] theorem setReg_reg_self {r : Reg} (h : r ≠ .zero) : (m.setReg r v).reg r = v := by
  simp [reg, setReg, h]

end Machine

/-- Immediates of `addi`, `andi`, `ld` and `sd` are 12 bits and sign-extended; `li` is the
assembler's, with any constant. -/
inductive Instr where
  | addi (rd rs : Reg) (imm : BitVec 12)
  | andi (rd rs : Reg) (imm : BitVec 12)
  | add (rd rs₁ rs₂ : Reg)
  | or (rd rs₁ rs₂ : Reg)
  | slli (rd rs : Reg) (shamt : Fin 64)
  | srli (rd rs : Reg) (shamt : Fin 64)
  | li (rd : Reg) (imm : Word)
  | ld (rd : Reg) (offset : BitVec 12) (base : Reg)
  | sd (rs : Reg) (offset : BitVec 12) (base : Reg)
  | csrr (rd : Reg) (csr : Csr)
  deriving DecidableEq, Repr

abbrev Instr.mv (rd rs : Reg) : Instr := .addi rd rs 0#12

namespace Machine

def address (m : Machine) (offset : BitVec 12) (base : Reg) : Word :=
  m.reg base + offset.signExtend 64

def exec (m : Machine) : Instr → Machine
  | .addi rd rs imm => m.setReg rd (m.reg rs + imm.signExtend 64)
  | .andi rd rs imm => m.setReg rd (m.reg rs &&& imm.signExtend 64)
  | .add rd rs₁ rs₂ => m.setReg rd (m.reg rs₁ + m.reg rs₂)
  | .or rd rs₁ rs₂ => m.setReg rd (m.reg rs₁ ||| m.reg rs₂)
  | .slli rd rs shamt => m.setReg rd (m.reg rs <<< shamt.val)
  | .srli rd rs shamt => m.setReg rd (m.reg rs >>> shamt.val)
  | .li rd imm => m.setReg rd imm
  | .ld rd offset base => m.setReg rd (m.mem (m.address offset base))
  | .sd rs offset base => m.store (m.address offset base) (m.reg rs)
  | .csrr rd csr => m.setReg rd (m.csrs csr)

def run (m : Machine) (code : List Instr) : Machine := code.foldl exec m

@[simp] theorem run_nil (m : Machine) : m.run [] = m := rfl

@[simp] theorem run_cons (m : Machine) (i : Instr) (code : List Instr) :
    m.run (i :: code) = (m.exec i).run code := rfl

theorem run_append (m : Machine) (code code' : List Instr) :
    m.run (code ++ code') = (m.run code).run code' := List.foldl_append

end Machine

def Instr.target : Instr → Option Reg
  | .addi rd .. | .andi rd .. | .add rd .. | .or rd .. | .slli rd .. | .srli rd .. | .li rd _
  | .ld rd .. | .csrr rd _ => some rd
  | .sd .. => none

def Instr.isStore : Instr → Bool
  | .sd .. => true
  | _ => false

theorem exec_reg (m : Machine) {i : Instr} {r : Reg} (h : i.target ≠ some r) :
    (m.exec i).reg r = m.reg r := by
  cases i with
  | sd => rfl
  | _ => exact Machine.setReg_reg_ne _ _ fun hr => h (congrArg some hr.symm)

theorem exec_csrs (m : Machine) (i : Instr) : (m.exec i).csrs = m.csrs := by
  cases i <;> rfl

theorem exec_mem (m : Machine) {i : Instr} (h : i.isStore = false) : (m.exec i).mem = m.mem := by
  cases i with
  | sd => cases h
  | _ => rfl

theorem run_reg (m : Machine) {code : List Instr} {r : Reg}
    (h : ∀ i ∈ code, i.target ≠ some r) : (m.run code).reg r = m.reg r := by
  induction code generalizing m with
  | nil => rfl
  | cons i code ih =>
    rw [Machine.run_cons, ih _ fun j hj => h j (List.mem_cons_of_mem _ hj)]
    exact exec_reg m (h i (List.mem_cons_self ..))

theorem run_csrs (m : Machine) (code : List Instr) : (m.run code).csrs = m.csrs := by
  induction code generalizing m with
  | nil => rfl
  | cons i code ih => rw [Machine.run_cons, ih, exec_csrs]

theorem run_mem (m : Machine) {code : List Instr} (h : ∀ i ∈ code, i.isStore = false) :
    (m.run code).mem = m.mem := by
  induction code generalizing m with
  | nil => rfl
  | cons i code ih =>
    rw [Machine.run_cons, ih _ fun j hj => h j (List.mem_cons_of_mem _ hj)]
    exact exec_mem m (h i (List.mem_cons_self ..))

def writeFields (base : Word) (fields : List (Word × Word)) (mem : Word → Word) : Word → Word :=
  fields.foldl (fun mem f => update mem (base + f.1) f.2) mem

theorem writeFields_of_notMem {base : Word} {fields : List (Word × Word)} {mem : Word → Word}
    {a : Word} (h : ∀ f ∈ fields, a ≠ base + f.1) : writeFields base fields mem a = mem a := by
  induction fields generalizing mem with
  | nil => rfl
  | cons f fields ih =>
    calc writeFields base (f :: fields) mem a
        = update mem (base + f.1) f.2 a := ih fun g hg => h g (List.mem_cons_of_mem _ hg)
      _ = mem a := update_of_ne (h f (List.mem_cons_self ..)) _ _

theorem writeFields_of_mem {base : Word} {fields : List (Word × Word)} {mem : Word → Word}
    (hnodup : (fields.map Prod.fst).Nodup) {f : Word × Word} (hf : f ∈ fields) :
    writeFields base fields mem (base + f.1) = f.2 := by
  induction fields generalizing mem with
  | nil => cases hf
  | cons g fields ih =>
    obtain ⟨hg, hnodup⟩ := List.nodup_cons.mp hnodup
    rcases List.mem_cons.mp hf with rfl | hf
    · have hnot : ∀ g ∈ fields, base + f.1 ≠ base + g.1 := fun g hmem heq =>
        hg (List.mem_map.mpr ⟨g, hmem, (by simpa using heq.symm)⟩)
      calc writeFields base (f :: fields) mem (base + f.1)
          = update mem (base + f.1) f.2 (base + f.1) := writeFields_of_notMem hnot
        _ = f.2 := update_self ..
    · exact ih hnodup hf

theorem writeFields_append (base : Word) (fields fields' : List (Word × Word)) (mem : Word → Word) :
    writeFields base (fields ++ fields') mem =
      writeFields base fields' (writeFields base fields mem) := List.foldl_append

/-- Stores of registers at offsets from a base register. -/
def spill (base : Reg) (slots : List (Reg × BitVec 12)) : List Instr :=
  slots.map fun s => .sd s.1 s.2 base

def slotFields (m : Machine) (slots : List (Reg × BitVec 12)) : List (Word × Word) :=
  slots.map fun s => (s.2.signExtend 64, m.reg s.1)

theorem slotFields_congr {m m' : Machine} {slots : List (Reg × BitVec 12)}
    (h : ∀ s ∈ slots, m.reg s.1 = m'.reg s.1) : slotFields m slots = slotFields m' slots :=
  List.map_congr_left fun s hs => by rw [h s hs]

@[simp] theorem slotFields_setMem (m : Machine) (mem : Word → Word)
    (slots : List (Reg × BitVec 12)) : slotFields (m.setMem mem) slots = slotFields m slots := rfl

theorem run_spill (m : Machine) (base : Reg) (slots : List (Reg × BitVec 12)) :
    m.run (spill base slots) =
      m.setMem (writeFields (m.reg base) (slotFields m slots) m.mem) := by
  induction slots generalizing m with
  | nil => rfl
  | cons s slots ih => exact ih (m.store (m.address s.2 base) (m.reg s.1))

theorem spill_target {base : Reg} {slots : List (Reg × BitVec 12)} {i : Instr}
    (hi : i ∈ spill base slots) : i.target = none := by
  obtain ⟨s, -, rfl⟩ := List.mem_map.mp hi
  rfl

/-- Words copied one after the other between two bases, at the same offsets. -/
def copyFields (dst src : Word) (offsets : List Word) (mem : Word → Word) : Word → Word :=
  offsets.foldl (fun mem o => update mem (dst + o) (mem (src + o))) mem

/-- Where no word is written before it is read, a copy writes the words that were there. -/
theorem copyFields_eq_writeFields {dst src : Word} {offsets : List Word} {mem : Word → Word}
    (happart : ∀ o ∈ offsets, ∀ o' ∈ offsets, src + o ≠ dst + o') :
    copyFields dst src offsets mem =
      writeFields dst (offsets.map fun o => (o, mem (src + o))) mem := by
  suffices h : ∀ (rest : List Word) (now : Word → Word), rest ⊆ offsets →
      (∀ o ∈ rest, now (src + o) = mem (src + o)) →
      copyFields dst src rest now = writeFields dst (rest.map fun o => (o, mem (src + o))) now from
    h offsets mem (List.Subset.refl _) fun _ _ => rfl
  intro rest
  induction rest with
  | nil => intros; rfl
  | cons o rest ih =>
    intro now hsub hnow
    have ho : o ∈ offsets := hsub (List.mem_cons_self ..)
    have hrest : rest ⊆ offsets := fun p hp => hsub (List.mem_cons_of_mem _ hp)
    change copyFields dst src rest (update now (dst + o) (now (src + o))) =
      writeFields dst (rest.map fun o => (o, mem (src + o))) (update now (dst + o) (mem (src + o)))
    rw [hnow o (List.mem_cons_self ..)]
    refine ih _ hrest fun p hp => ?_
    rw [update_of_ne (happart p (hrest hp) o ho)]
    exact hnow p (List.mem_cons_of_mem _ hp)

/-- What a procedure does between its first instruction and its return to the address that
was in `ra`. -/
abbrev Proc := Machine → Machine → Prop

/-- `call` puts the address after it into `ra`. -/
def call (site : Word) (p : Proc) : Proc := fun m m' => p (m.setReg .ra site) m'

/-- The registers that a conforming procedure returns with the values it was called with:
the callee-saved ones and those it may not touch. -/
def Reg.kept : Reg → Bool
  | .zero | .sp | .gp | .tp | .s0 | .s1 | .s2 | .s3 | .s4 | .s5 | .s6 | .s7 | .s8 | .s9 | .s10
  | .s11 => true
  | _ => false

def InFrame (sp : Word) (depth : ℕ) (a : Word) : Prop :=
  0 < (sp - a).toNat ∧ (sp - a).toNat ≤ depth

/-- A run of compiled code that obeys the calling convention: outside its own stack frame
the memory is `mem`, and every register that is not kept is arbitrary. -/
structure Conforms (depth : ℕ) (m m' : Machine) (mem : Word → Word) : Prop where
  kept : ∀ r, r.kept = true → m'.reg r = m.reg r
  csrs : m'.csrs = m.csrs
  memory : ∀ a, ¬ InFrame (m.reg .sp) depth a → m'.mem a = mem a

/-- Code that only changes memory, and that as it should, conforms. -/
theorem conforms_of_mem (depth : ℕ) (m : Machine) (mem : Word → Word) :
    Conforms depth m (m.setMem mem) mem := ⟨fun _ _ => rfl, rfl, fun _ _ => rfl⟩

/-- A conforming run may end with anything in a register that is not kept. -/
theorem Conforms.setReg {depth : ℕ} {m m' : Machine} {mem : Word → Word}
    (h : Conforms depth m m' mem) {r : Reg} (hr : r.kept = false) (v : Word) :
    Conforms depth m (m'.setReg r v) mem where
  kept q hq := by
    have hne : q ≠ r := fun heq => by simp [heq, hr] at hq
    rw [Machine.setReg_reg_ne _ _ hne, h.kept q hq]
  csrs := h.csrs
  memory := h.memory

end SysRv.Rv64
