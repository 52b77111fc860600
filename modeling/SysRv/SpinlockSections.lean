import SysRv.SpinlockExclusion

/-!
# Critical sections

Data that a processor only touches while it holds the lock. Whatever else the processors do with
the lock, and whether or not its owner field is right, the sections come one after the other.
-/

namespace SysRv.Spinlock

open GuardedRuns Function

variable {Cpu : Type}

/-- The lock with the data behind it: the number of successful test-and-sets, and the accesses to
the data with the processor and the number of the test-and-set before them. -/
structure Sections (Cpu : Type) where
  machine : Machine Cpu
  taken : ℕ
  log : List (Cpu × ℕ)

inductive SectionEvent (Cpu : Type) where
  | lock (e : Event Cpu)
  | touch (c : Cpu)
  deriving DecidableEq, Repr

/-- Processors that touch the data only between the return from `Acquire` and the next call. -/
def sections [DecidableEq Cpu] (id : Cpu → BitVec 32) : System (Sections Cpu) (SectionEvent Cpu) where
  guard s
    | .lock e => (spinlockCalls id).guard s.machine e
    | .touch c => Holds s.machine c
  next s
    | .lock e =>
      let m := (spinlockCalls id).next s.machine e
      let taken := if s.machine.spinlock.lock = false ∧ m.spinlock.lock = true then s.taken + 1
        else s.taken
      ⟨m, taken, s.log⟩
    | .touch c => { s with log := s.log ++ [(c, s.taken)] }

def Sections.initial : Sections Cpu := ⟨Spinlock.initial, 0, []⟩

/-- The accesses come in the order of the sections, and those of one section are made by one
processor. -/
def Serial (log : List (Cpu × ℕ)) : Prop :=
  log.Pairwise fun a b => a.2 ≤ b.2 ∧ (a.2 = b.2 → a.1 = b.1)

/-- The accesses so far belong to sections so far, and those of the last one to the processor that
is still inside. -/
structure SectionsInv (id : Cpu → BitVec 32) (s : Sections Cpu) : Prop where
  exclusion : ExclusionInv id s.machine
  serial : Serial s.log
  bound : ∀ a ∈ s.log, a.2 ≤ s.taken
  current : ∀ a ∈ s.log, a.2 = s.taken → ∀ c, s.machine.inside c = true → c = a.1

section Steps

variable {id : Cpu → BitVec 32} {s : Sections Cpu} {m : Machine Cpu} {c : Cpu}

theorem SectionsInv.touch (h : SectionsInv id s) (hholds : Holds s.machine c) :
    SectionsInv id { s with log := s.log ++ [(c, s.taken)] } where
  exclusion := h.exclusion
  serial := by
    refine List.pairwise_append.mpr ⟨h.serial, List.pairwise_singleton _ _, fun a ha b hb => ?_⟩
    rw [List.mem_singleton.mp hb]
    exact ⟨h.bound a ha, fun heq => (h.current a ha heq c hholds.2).symm⟩
  bound a ha := by
    rcases List.mem_append.mp ha with ha | ha
    · exact h.bound a ha
    · rw [List.mem_singleton.mp ha]
  current a ha heq d hd := by
    rcases List.mem_append.mp ha with ha | ha
    · exact h.current a ha heq d hd
    · rw [List.mem_singleton.mp ha]
      exact h.exclusion.excludes.single d c hd hholds.2

variable [DecidableEq Cpu]

theorem entered_by_setting {e : Event Cpu} (hguard : (spinlockCalls id).guard m e)
    (hin : ((spinlockCalls id).next m e).inside c = true) : m.inside c = true ∨
      (m.spinlock.lock = false ∧ ((spinlockCalls id).next m e).spinlock.lock = true) := by
  cases e with
  | callAcquire d | callRelease d => exact .inl hin
  | access d =>
    have hnext : (spinlockCalls id).next m (.access d) = access id m d := rfl
    rw [hnext] at hin ⊢
    rcases access_cases id m d hguard.1 hguard.2 with ⟨-, -, heq⟩ | ⟨-, hfree, heq⟩ | ⟨-, heq⟩ |
      ⟨-, -, heq⟩ | ⟨-, -, heq⟩ | ⟨-, heq⟩ | ⟨-, heq⟩ <;> rw [heq] at hin ⊢
    · exact .inl hin
    · exact .inr ⟨hfree, rfl⟩
    · exact .inl hin
    · exact .inl hin
    · exact .inl hin
    · refine .inl ?_
      rw [Machine.goto_inside, Machine.leave_inside, Bool.and_eq_true] at hin
      exact hin.2
    · exact .inl hin

theorem SectionsInv.lock (h : SectionsInv id s) (hinj : Injective id) (hid : ∀ c, 0 ≤ (id c).toInt)
    {e : Event Cpu} (hguard : (spinlockCalls id).guard s.machine e) :
    SectionsInv id ((sections id).next s (.lock e)) where
  exclusion := exclusionInv_step h.exclusion hinj hid hguard
  serial := h.serial
  bound a ha := by
    have hle := h.bound a ha
    simp only [sections]
    split_ifs <;> omega
  current a ha heq d hd := by
    have hle := h.bound a ha
    simp only [sections] at heq hd
    split_ifs at heq with hset
    · omega
    · exact h.current a ha heq d ((entered_by_setting hguard hd).resolve_right hset)

end Steps

/-- Whatever the processors do with the lock, their accesses to the data behind it are those of
one section after the other. -/
theorem critical_sections_serial [DecidableEq Cpu] (id : Cpu → BitVec 32) (hinj : Injective id)
    (hid : ∀ c, 0 ≤ (id c).toInt) (events : List (SectionEvent Cpu))
    (legal : (sections id).Legal .initial events) :
    (sections id).Along (fun s => Serial s.log) .initial events := by
  have hstart : SectionsInv id (.initial : Sections Cpu) :=
    ⟨exclusionInv_initial hid, .nil, by simp [Sections.initial], by simp [Sections.initial]⟩
  refine (System.along_of_step hstart (fun s e h hguard => ?_) legal).mono fun _ h => h.serial
  cases e with
  | lock e => exact h.lock hinj hid hguard
  | touch c => exact h.touch hguard

/-- Sections of both processors, with the accesses of one before the end of the release by the
other. -/
def touchingBoth : List (SectionEvent Bool) :=
  [.lock (.callAcquire false), .lock (.access false), .lock (.access false), .touch false,
    .lock (.callAcquire true), .touch false, .lock (.access true), .lock (.callRelease false),
    .lock (.access false), .lock (.access false), .lock (.access true), .lock (.access true),
    .touch true, .lock (.access false), .touch true]

theorem critical_sections_serial_touching_both :
    (sections cpuNumber).Along (fun s => Serial s.log) .initial touchingBoth :=
  critical_sections_serial cpuNumber (by decide) (by decide) touchingBoth
    (by simp [touchingBoth, sections, Sections.initial, spinlockCalls, Holds, initial, access,
      spinlockAcquire, spinlockRelease, spinlockInitAnonymous, cpuNumber])

end SysRv.Spinlock
