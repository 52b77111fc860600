import SysRv.GuardedRuns
import SysRv.KernelTypes
import Mathlib.Logic.Function.Basic

/-!
# The spinlock

`spinlock_Acquire` and `spinlock_Release` as step machines. Every access to the flag and to
the owner field is one step of the processor that makes it, and the steps of the processors
interleave in any order. `Release` clears the flag first and the owner field after it, so a
processor that takes the lock between the two loses the owner it has just recorded.
-/

namespace SysRv.Spinlock

open GuardedRuns Function

/-- `spinlock_t` without its name, which nothing reads. -/
structure SpinlockT where
  lock : Bool
  cpu : BitVec 32
  deriving DecidableEq, Repr

/-- The owner field of a lock that nobody owns: `-1` as an `int32_t`. -/
def noCpu : BitVec 32 := BitVec.allOnes 32

def spinlockInitAnonymous : SpinlockT := ⟨false, noCpu⟩

/-- The next access of a processor. It is at `outside` when no call is in progress, and at
`panicked` for ever once `srv_KernelPanic` is called. -/
inductive Point where
  | outside
  | testAndSet
  | recordOwner
  | checkOwner
  | clearFlag
  | clearOwner
  | panicked (panic : KernelPanic)
  deriving DecidableEq, Repr

variable {Cpu : Type}

/-- One lock and the processors that use it. `inside` is no memory of the code: it says who
is between its successful test-and-set and its own clearing of the flag. -/
structure Machine (Cpu : Type) where
  spinlock : SpinlockT
  point : Cpu → Point
  inside : Cpu → Bool

namespace Machine

def setLock (m : Machine Cpu) (b : Bool) : Machine Cpu :=
  { m with spinlock := { m.spinlock with lock := b } }

def setCpu (m : Machine Cpu) (i : BitVec 32) : Machine Cpu :=
  { m with spinlock := { m.spinlock with cpu := i } }

section Fields

variable (m : Machine Cpu) (b : Bool) (i : BitVec 32)

@[simp] theorem setLock_lock : (m.setLock b).spinlock.lock = b := rfl
@[simp] theorem setLock_cpu : (m.setLock b).spinlock.cpu = m.spinlock.cpu := rfl
@[simp] theorem setLock_point : (m.setLock b).point = m.point := rfl
@[simp] theorem setLock_inside : (m.setLock b).inside = m.inside := rfl
@[simp] theorem setCpu_lock : (m.setCpu i).spinlock.lock = m.spinlock.lock := rfl
@[simp] theorem setCpu_cpu : (m.setCpu i).spinlock.cpu = i := rfl
@[simp] theorem setCpu_point : (m.setCpu i).point = m.point := rfl
@[simp] theorem setCpu_inside : (m.setCpu i).inside = m.inside := rfl

end Fields

variable [DecidableEq Cpu]

def goto (m : Machine Cpu) (c : Cpu) (p : Point) : Machine Cpu :=
  { m with point := update m.point c p }

def enter (m : Machine Cpu) (c : Cpu) : Machine Cpu :=
  { m with inside := update m.inside c true }

def leave (m : Machine Cpu) (c : Cpu) : Machine Cpu :=
  { m with inside := update m.inside c false }

variable (m : Machine Cpu) (c d : Cpu) (p : Point)

@[simp] theorem goto_spinlock : (m.goto c p).spinlock = m.spinlock := rfl
@[simp] theorem goto_inside : (m.goto c p).inside = m.inside := rfl
@[simp] theorem enter_spinlock : (m.enter c).spinlock = m.spinlock := rfl
@[simp] theorem enter_point : (m.enter c).point = m.point := rfl
@[simp] theorem leave_spinlock : (m.leave c).spinlock = m.spinlock := rfl
@[simp] theorem leave_point : (m.leave c).point = m.point := rfl

@[simp] theorem goto_point : (m.goto c p).point d = if d = c then p else m.point d := by
  simp [goto, update_apply]

@[simp] theorem enter_inside : (m.enter c).inside d = (decide (d = c) || m.inside d) := by
  by_cases h : d = c <;> simp [enter, h]

@[simp] theorem leave_inside : (m.leave c).inside d = (!decide (d = c) && m.inside d) := by
  by_cases h : d = c <;> simp [leave, h]

end Machine

def initial : Machine Cpu := ⟨spinlockInitAnonymous, fun _ => .outside, fun _ => false⟩

section Steps

variable [DecidableEq Cpu]

/-- The accesses of `spinlock_Acquire`: the loop around the test-and-set, then the owner. -/
def spinlockAcquire (id : Cpu → BitVec 32) (m : Machine Cpu) (c : Cpu) : Machine Cpu :=
  match m.point c with
  | .testAndSet =>
    if m.spinlock.lock then m
    else ((m.setLock true).enter c).goto c .recordOwner
  | .recordOwner => (m.setCpu (id c)).goto c .outside
  | _ => m

def spinlockRelease (id : Cpu → BitVec 32) (m : Machine Cpu) (c : Cpu) : Machine Cpu :=
  match m.point c with
  | .checkOwner =>
    if id c ≠ m.spinlock.cpu then m.goto c (.panicked .notLockOwner)
    else m.goto c .clearFlag
  | .clearFlag => ((m.setLock false).leave c).goto c .clearOwner
  | .clearOwner => (m.setCpu noCpu).goto c .outside
  | _ => m

/-- The next access of processor `c`, in the function it is in. -/
def access (id : Cpu → BitVec 32) (m : Machine Cpu) (c : Cpu) : Machine Cpu :=
  match m.point c with
  | .testAndSet | .recordOwner => spinlockAcquire id m c
  | .checkOwner | .clearFlag | .clearOwner => spinlockRelease id m c
  | .outside | .panicked _ => m

end Steps

/-- What a processor does next: call one of the functions, or make its next access. -/
inductive Event (Cpu : Type) where
  | callAcquire (c : Cpu)
  | callRelease (c : Cpu)
  | access (c : Cpu)
  deriving DecidableEq, Repr

/-- Any processor may call either function whenever it is in none of them, and a processor
in one of them that has not panicked may make its next access. -/
def spinlockCalls [DecidableEq Cpu] (id : Cpu → BitVec 32) : System (Machine Cpu) (Event Cpu) where
  guard m
    | .callAcquire c => m.point c = .outside
    | .callRelease c => m.point c = .outside
    | .access c => m.point c ≠ .outside ∧ ∀ panic, m.point c ≠ .panicked panic
  next m
    | .callAcquire c => m.goto c .testAndSet
    | .callRelease c => m.goto c .checkOwner
    | .access c => access id m c

/-- A processor has returned from `Acquire` and not yet called the matching `Release`. -/
def Holds (m : Machine Cpu) (c : Cpu) : Prop :=
  m.point c = .outside ∧ m.inside c = true

instance (m : Machine Cpu) (c : Cpu) : Decidable (Holds m c) :=
  inferInstanceAs (Decidable (_ ∧ _))

def Paired (m : Machine Cpu) : Event Cpu → Prop
  | .callAcquire c => ¬ Holds m c
  | .callRelease c => Holds m c
  | .access _ => True

def pairedCalls [DecidableEq Cpu] (id : Cpu → BitVec 32) : System (Machine Cpu) (Event Cpu) :=
  (spinlockCalls id).restrict Paired

/-- Every access of a processor, by the point it is at. -/
theorem access_cases [DecidableEq Cpu] (id : Cpu → BitVec 32) (m : Machine Cpu) (c : Cpu)
    (hin : m.point c ≠ .outside) (hcalm : ∀ panic, m.point c ≠ .panicked panic) :
    (m.point c = .testAndSet ∧ m.spinlock.lock = true ∧ access id m c = m) ∨
    (m.point c = .testAndSet ∧ m.spinlock.lock = false ∧
      access id m c = ((m.setLock true).enter c).goto c .recordOwner) ∨
    (m.point c = .recordOwner ∧ access id m c = (m.setCpu (id c)).goto c .outside) ∨
    (m.point c = .checkOwner ∧ id c ≠ m.spinlock.cpu ∧
      access id m c = m.goto c (.panicked .notLockOwner)) ∨
    (m.point c = .checkOwner ∧ id c = m.spinlock.cpu ∧ access id m c = m.goto c .clearFlag) ∨
    (m.point c = .clearFlag ∧ access id m c = ((m.setLock false).leave c).goto c .clearOwner) ∨
    (m.point c = .clearOwner ∧ access id m c = (m.setCpu noCpu).goto c .outside) := by
  cases hp : m.point c with
  | outside => exact absurd hp hin
  | panicked panic => exact absurd hp (hcalm panic)
  | testAndSet =>
    cases hlock : m.spinlock.lock <;> simp [access, spinlockAcquire, hp, hlock]
  | recordOwner => simp [access, spinlockAcquire, hp]
  | checkOwner =>
    by_cases hown : id c = m.spinlock.cpu <;> simp [access, spinlockRelease, hp, hown]
  | clearFlag => simp [access, spinlockRelease, hp]
  | clearOwner => simp [access, spinlockRelease, hp]

/-- The owner field names the processor that has returned from `Acquire`, a processor about
to compare itself with the owner finds its own number there, and nobody has panicked. -/
structure OwnerRight (id : Cpu → BitVec 32) (m : Machine Cpu) : Prop where
  holder : ∀ c, Holds m c → m.spinlock.cpu = id c
  check : ∀ c, m.point c = .checkOwner → m.spinlock.cpu = id c
  calm : ∀ c panic, m.point c ≠ .panicked panic

/-- A processor has recorded itself as the owner and not yet been checked to be it. -/
def Recorded (m : Machine Cpu) (c : Cpu) : Prop :=
  Holds m c ∨ m.point c = .checkOwner

/-- `Release` does not write the owner field at its end while another processor is recorded
there, unless the number of that processor is `-1` itself. -/
def ClearsNoOwner (id : Cpu → BitVec 32) (m : Machine Cpu) : Event Cpu → Prop
  | .access c => m.point c = .clearOwner → ∀ d, Recorded m d → id d = noCpu
  | _ => True

/-- The flag is set exactly while some processor is inside, and one at most is. -/
structure Excludes (lock : Bool) (inside : Cpu → Bool) : Prop where
  flag : lock = true ↔ ∃ c, inside c = true
  single : ∀ c d, inside c = true → inside d = true → c = d

theorem Excludes.enter [DecidableEq Cpu] {inside : Cpu → Bool} (h : Excludes false inside) (c : Cpu) :
    Excludes true (update inside c true) := by
  have hnone : ∀ d, inside d = false := by simpa using h.flag
  refine ⟨by simpa using ⟨c, update_self ..⟩, fun d e hd he => ?_⟩
  simp only [update_apply, hnone] at hd he
  simp_all

theorem Excludes.leave [DecidableEq Cpu] {lock : Bool} {inside : Cpu → Bool}
    (h : Excludes lock inside) {c : Cpu} (hc : inside c = true) :
    Excludes false (update inside c false) := by
  have hothers : ∀ d, update inside c false d = false := by
    intro d
    by_cases hdc : d = c
    · simp [hdc]
    · have : inside d ≠ true := fun hd => hdc (h.single d c hd hc)
      simpa [hdc] using this
  exact ⟨by simp [hothers], fun d e hd _ => by simp [hothers] at hd⟩

/-- What holds for a processor at each of its points, `own` being its number and `cpu` the
owner field. -/
def Outline (own cpu : BitVec 32) (inside : Bool) : Point → Prop
  | .outside => inside = true → cpu = own
  | .testAndSet => inside = false
  | .recordOwner => inside = true
  | .checkOwner => inside = true ∧ cpu = own
  | .clearFlag => inside = true
  | .clearOwner => inside = false
  | .panicked _ => False

structure PairedInv (id : Cpu → BitVec 32) (m : Machine Cpu) : Prop where
  excludes : Excludes m.spinlock.lock m.inside
  outline : ∀ c, Outline (id c) m.spinlock.cpu (m.inside c) (m.point c)

theorem pairedInv_initial (id : Cpu → BitVec 32) : PairedInv id (initial : Machine Cpu) where
  excludes := ⟨by simp [initial, spinlockInitAnonymous], by simp [initial]⟩
  outline _ := by simp [initial, Outline]

section PairedSteps

variable {id : Cpu → BitVec 32} {m : Machine Cpu} {c : Cpu}

theorem PairedInv.recorded (h : PairedInv id m) (hc : Recorded m c) : m.spinlock.cpu = id c := by
  have hout := h.outline c
  rcases hc with ⟨hp, hin⟩ | hp
  · rw [hp] at hout
    exact hout hin
  · rw [hp] at hout
    exact hout.2

theorem PairedInv.ownerRight (h : PairedInv id m) : OwnerRight id m where
  holder c hc := h.recorded (Or.inl hc)
  check c hc := h.recorded (Or.inr hc)
  calm c panic hp := by
    have hout := h.outline c
    rwa [hp] at hout

/-- A write of the owner field interferes with no processor that is not recorded there. -/
theorem outline_of_not_recorded {d : Cpu} {i : BitVec 32} (h : PairedInv id m)
    (hd : Recorded m d → id d = i) : Outline (id d) i (m.inside d) (m.point d) := by
  have hout := h.outline d
  cases hp : m.point d with
  | outside => exact fun hin => (hd (Or.inl ⟨hp, hin⟩)).symm
  | checkOwner =>
    rw [hp] at hout
    exact ⟨hout.1, (hd (Or.inr hp)).symm⟩
  | testAndSet | recordOwner | clearFlag | clearOwner | panicked =>
    rw [hp] at hout
    exact hout

/-- While a processor is between its test-and-set and its owner write, no other is recorded. -/
theorem PairedInv.not_recorded_of_recordOwner (h : PairedInv id m) (hp : m.point c = .recordOwner)
    {d : Cpu} (hdc : d ≠ c) : ¬ Recorded m d := by
  have hc := h.outline c
  have hd := h.outline d
  rw [hp] at hc
  rintro (⟨-, hin⟩ | hpd)
  · exact hdc (h.excludes.single d c hin hc)
  · rw [hpd] at hd
    exact hdc (h.excludes.single d c hd.1 hc)

variable [DecidableEq Cpu]

/-- Where a processor only moves on, the assertion at its new point is all there is to show. -/
theorem PairedInv.goto (h : PairedInv id m) {p : Point}
    (hp : Outline (id c) m.spinlock.cpu (m.inside c) p) : PairedInv id (m.goto c p) where
  excludes := h.excludes
  outline d := by
    by_cases hdc : d = c
    · simpa [hdc] using hp
    · simpa [hdc] using h.outline d

theorem PairedInv.enter (h : PairedInv id m) (hfree : m.spinlock.lock = false) :
    PairedInv id (((m.setLock true).enter c).goto c .recordOwner) where
  excludes := by
    have hex := h.excludes
    rw [hfree] at hex
    exact hex.enter c
  outline d := by
    by_cases hdc : d = c
    · simp [hdc, Outline]
    · simpa [hdc] using h.outline d

theorem PairedInv.leave (h : PairedInv id m) (hp : m.point c = .clearFlag) :
    PairedInv id (((m.setLock false).leave c).goto c .clearOwner) where
  excludes := by
    have hout := h.outline c
    rw [hp] at hout
    exact h.excludes.leave hout
  outline d := by
    by_cases hdc : d = c
    · simp [hdc, Outline]
    · simpa [hdc] using h.outline d

theorem PairedInv.setCpu (h : PairedInv id m) {i : BitVec 32}
    (hothers : ∀ d, d ≠ c → Recorded m d → id d = i)
    (hown : m.inside c = true → i = id c) : PairedInv id ((m.setCpu i).goto c .outside) where
  excludes := h.excludes
  outline d := by
    by_cases hdc : d = c
    · subst hdc
      simpa [Outline] using hown
    · simpa [hdc] using outline_of_not_recorded h (hothers d hdc)

theorem PairedInv.access (h : PairedInv id m)
    (hguard : (spinlockCalls id).guard m (.access c)) (hcond : ClearsNoOwner id m (.access c)) :
    PairedInv id (access id m c) := by
  have hout := h.outline c
  rcases access_cases id m c hguard.1 hguard.2 with ⟨-, -, heq⟩ | ⟨-, hfree, heq⟩ | ⟨hp, heq⟩ |
    ⟨hp, hne, heq⟩ | ⟨hp, -, heq⟩ | ⟨hp, heq⟩ | ⟨hp, heq⟩ <;> rw [heq]
  · exact h
  · exact h.enter hfree
  · exact h.setCpu (fun d hdc hd => absurd hd (h.not_recorded_of_recordOwner hp hdc)) fun _ => rfl
  · rw [hp] at hout
    exact absurd hout.2.symm hne
  · rw [hp] at hout
    exact h.goto hout.1
  · exact h.leave hp
  · rw [hp] at hout
    refine h.setCpu (fun d _ => hcond hp d) fun hin => ?_
    exact absurd hin (by simpa [Outline] using hout)

theorem pairedInv_step {e : Event Cpu} (h : PairedInv id m) (hguard : (pairedCalls id).guard m e)
    (hcond : ClearsNoOwner id m e) : PairedInv id ((pairedCalls id).next m e) := by
  cases e with
  | callAcquire c =>
    refine h.goto (?_ : m.inside c = false)
    have hnot : ¬ (m.point c = .outside ∧ m.inside c = true) := hguard.2
    have hout : m.point c = .outside := hguard.1
    simpa [hout] using hnot
  | callRelease c => exact h.goto ⟨hguard.2.2, h.recorded (Or.inl hguard.2)⟩
  | access c => exact h.access hguard.1 hcond

/-- The late write of the owner field wipes the number of the processor recorded there. -/
theorem not_ownerRight_of_clearsOwner {e : Event Cpu} (hcond : ¬ ClearsNoOwner id m e) :
    ¬ OwnerRight id ((pairedCalls id).next m e) := by
  cases e with
  | callAcquire c => exact absurd trivial hcond
  | callRelease c => exact absurd trivial hcond
  | access c =>
    simp only [ClearsNoOwner, not_forall] at hcond
    obtain ⟨hp, d, hd, hid⟩ := hcond
    have hdc : d ≠ c := by
      rintro rfl
      simp [Recorded, Holds, hp] at hd
    have heq : (pairedCalls id).next m (.access c) = (m.setCpu noCpu).goto c .outside := by
      simp [pairedCalls, System.restrict, spinlockCalls, Spinlock.access, spinlockRelease, hp]
    rw [heq]
    intro hright
    rcases hd with ⟨hout, hin⟩ | hcheck
    · exact hid (hright.holder d ⟨by simpa [hdc] using hout, hin⟩).symm
    · exact hid (hright.check d (by simpa [hdc] using hcheck)).symm

end PairedSteps

/-- In every interleaving of `Acquire`/`Release` pairs the owner field is right throughout
exactly when no `Release` writes it at its end over a processor recorded there since. -/
theorem owner_right_while_held [DecidableEq Cpu] (id : Cpu → BitVec 32) (events : List (Event Cpu))
    (legal : (pairedCalls id).Legal initial events) :
    (pairedCalls id).Along (OwnerRight id) initial events ↔
      (pairedCalls id).Meets (ClearsNoOwner id) initial events :=
  System.along_iff_meets (pairedInv_initial id) (fun _ h => h.ownerRight)
    (fun _ _ h hguard hcond => pairedInv_step h hguard hcond)
    (fun _ _ _ _ hcond => not_ownerRight_of_clearsOwner hcond) legal

def cpuNumber : Bool → BitVec 32
  | false => 0#32
  | true => 1#32

/-- One processor after the other. -/
theorem owner_right_in_turn :
    (pairedCalls cpuNumber).Along (OwnerRight cpuNumber) initial
      [.callAcquire false, .access false, .access false, .callRelease false, .access false,
        .access false, .access false, .callAcquire true, .access true, .access true] :=
  (owner_right_while_held cpuNumber _ (by simp [pairedCalls, System.restrict, spinlockCalls,
    Paired, Holds, initial, access, spinlockAcquire, spinlockRelease, spinlockInitAnonymous])).mpr
    (by simp [pairedCalls, System.restrict, spinlockCalls, ClearsNoOwner, Recorded, Holds, initial,
      access, spinlockAcquire, spinlockRelease, spinlockInitAnonymous, cpuNumber])

/-- Processor 1 takes the lock between the two writes of the release by processor 0. -/
def overlappingRelease : List (Event Bool) :=
  [.callAcquire false, .access false, .access false, .callRelease false, .access false,
    .access false, .callAcquire true, .access true, .access true, .access false]

/-- The owner is wiped while processor 1 holds the lock, and its own release panics. -/
theorem overlapping_release_loses_owner :
    (pairedCalls cpuNumber).Legal initial (overlappingRelease ++ [.callRelease true, .access true]) ∧
      Holds ((pairedCalls cpuNumber).after initial overlappingRelease) true ∧
      ((pairedCalls cpuNumber).after initial overlappingRelease).spinlock.cpu = noCpu ∧
      ((pairedCalls cpuNumber).after initial
        (overlappingRelease ++ [.callRelease true, .access true])).point true =
          .panicked .notLockOwner ∧
      ¬ (pairedCalls cpuNumber).Along (OwnerRight cpuNumber) initial overlappingRelease := by
  have hholds : Holds ((pairedCalls cpuNumber).after initial overlappingRelease) true := by decide
  have hcpu : ((pairedCalls cpuNumber).after initial overlappingRelease).spinlock.cpu = noCpu := by
    decide
  refine ⟨by simp [overlappingRelease, pairedCalls, System.restrict, spinlockCalls, Paired, Holds,
    initial, access, spinlockAcquire, spinlockRelease, spinlockInitAnonymous, cpuNumber],
    hholds, hcpu, by decide, fun halong => ?_⟩
  have hright := halong.last.holder true hholds
  rw [hcpu] at hright
  exact absurd hright (by decide)

end SysRv.Spinlock
