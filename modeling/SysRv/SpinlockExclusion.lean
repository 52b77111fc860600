import SysRv.Spinlock

/-!
# Mutual exclusion under misuse

Processors that call `Acquire` and `Release` in any order, with a panic as the end of a
processor that releases what it does not own. The owner field can be stale, but it never
names a processor that is outside, so no other processor gets as far as the flag.
-/

namespace SysRv.Spinlock

open GuardedRuns Function

variable {Cpu : Type}

/-- At most one processor is between its successful test-and-set and its own clearing of the
flag, and a processor whose next access clears the flag is that one. -/
structure MutualExclusion (m : Machine Cpu) : Prop where
  single : ∀ c d, m.inside c = true → m.inside d = true → c = d
  clears : ∀ c, m.point c = .clearFlag → m.inside c = true

/-- A step that clears the flag is an access of a processor that is inside. -/
def ClearedFromInside [DecidableEq Cpu] (id : Cpu → BitVec 32) (m : Machine Cpu) (e : Event Cpu) :
    Prop :=
  m.spinlock.lock = true → ((spinlockCalls id).next m e).spinlock.lock = false →
    ∃ c, e = .access c ∧ m.inside c = true

/-- What holds for a processor at each of its points, `own` being its number and `cpu` the
owner field: outside, it never finds its own number there. -/
def OwnerOutline (own cpu : BitVec 32) (inside : Bool) : Point → Prop
  | .outside | .testAndSet | .checkOwner | .panicked _ => inside = false → cpu ≠ own
  | .recordOwner | .clearFlag => inside = true
  | .clearOwner => inside = false

structure ExclusionInv (id : Cpu → BitVec 32) (m : Machine Cpu) : Prop where
  excludes : Excludes m.spinlock.lock m.inside
  outline : ∀ c, OwnerOutline (id c) m.spinlock.cpu (m.inside c) (m.point c)

theorem ne_noCpu {i : BitVec 32} (h : 0 ≤ i.toInt) : noCpu ≠ i := by
  rintro rfl
  exact absurd h (by decide)

theorem exclusionInv_initial {id : Cpu → BitVec 32} (hid : ∀ c, 0 ≤ (id c).toInt) :
    ExclusionInv id (initial : Machine Cpu) where
  excludes := ⟨by simp [initial, spinlockInitAnonymous], by simp [initial]⟩
  outline c _ := ne_noCpu (hid c)

section Steps

variable {id : Cpu → BitVec 32} {m : Machine Cpu} {c : Cpu}

theorem ExclusionInv.inside_of_clearFlag (h : ExclusionInv id m) (hp : m.point c = .clearFlag) :
    m.inside c = true := by
  have hout := h.outline c
  rwa [hp] at hout

theorem ExclusionInv.mutualExclusion (h : ExclusionInv id m) : MutualExclusion m where
  single := h.excludes.single
  clears _ hp := h.inside_of_clearFlag hp

theorem ownerOutline_write {own cpu i : BitVec 32} {inside : Bool} {p : Point}
    (h : OwnerOutline own cpu inside p) (hi : i ≠ own) : OwnerOutline own i inside p := by
  cases p with
  | outside | testAndSet | checkOwner | panicked => exact fun _ => hi
  | recordOwner | clearFlag | clearOwner => exact h

variable [DecidableEq Cpu]

theorem ExclusionInv.goto (h : ExclusionInv id m) {p : Point}
    (hp : OwnerOutline (id c) m.spinlock.cpu (m.inside c) p) : ExclusionInv id (m.goto c p) where
  excludes := h.excludes
  outline d := by
    by_cases hdc : d = c
    · simpa [hdc] using hp
    · simpa [hdc] using h.outline d

theorem ExclusionInv.enter (h : ExclusionInv id m) (hfree : m.spinlock.lock = false) :
    ExclusionInv id (((m.setLock true).enter c).goto c .recordOwner) where
  excludes := by
    have hex := h.excludes
    rw [hfree] at hex
    exact hex.enter c
  outline d := by
    by_cases hdc : d = c
    · simp [hdc, OwnerOutline]
    · simpa [hdc] using h.outline d

theorem ExclusionInv.leave (h : ExclusionInv id m) (hp : m.point c = .clearFlag) :
    ExclusionInv id (((m.setLock false).leave c).goto c .clearOwner) where
  excludes := h.excludes.leave (h.inside_of_clearFlag hp)
  outline d := by
    by_cases hdc : d = c
    · simp [hdc, OwnerOutline]
    · simpa [hdc] using h.outline d

/-- A write of the owner field by a processor that returns: it must not leave the number of
a processor that is outside, neither its own nor another's. -/
theorem ExclusionInv.setCpu (h : ExclusionInv id m) {i : BitVec 32}
    (hothers : ∀ d, d ≠ c → i ≠ id d) (hown : m.inside c = false → i ≠ id c) :
    ExclusionInv id ((m.setCpu i).goto c .outside) where
  excludes := h.excludes
  outline d := by
    by_cases hdc : d = c
    · subst hdc
      simpa [OwnerOutline] using hown
    · simpa [hdc] using ownerOutline_write (h.outline d) (hothers d hdc)

theorem ExclusionInv.access (h : ExclusionInv id m) (hinj : Injective id)
    (hid : ∀ c, 0 ≤ (id c).toInt) (hguard : (spinlockCalls id).guard m (.access c)) :
    ExclusionInv id (access id m c) := by
  have hout := h.outline c
  rcases access_cases id m c hguard.1 hguard.2 with ⟨-, -, heq⟩ | ⟨-, hfree, heq⟩ | ⟨hp, heq⟩ |
    ⟨hp, -, heq⟩ | ⟨hp, hown, heq⟩ | ⟨hp, heq⟩ | ⟨hp, heq⟩ <;> rw [heq]
  · exact h
  · exact h.enter hfree
  · -- the processor that records itself is inside
    rw [hp] at hout
    refine h.setCpu (fun d hdc heq => hdc (hinj heq).symm) fun hin => ?_
    rw [hout] at hin
    cases hin
  · rw [hp] at hout
    exact h.goto hout
  · -- only a processor that is inside finds its own number
    rw [hp] at hout
    refine h.goto (?_ : m.inside c = true)
    by_contra hin
    exact hout (by simpa using hin) hown.symm
  · exact h.leave hp
  · exact h.setCpu (fun d _ => ne_noCpu (hid d)) fun _ => ne_noCpu (hid c)

theorem exclusionInv_step {e : Event Cpu} (h : ExclusionInv id m) (hinj : Injective id)
    (hid : ∀ c, 0 ≤ (id c).toInt) (hguard : (spinlockCalls id).guard m e) :
    ExclusionInv id ((spinlockCalls id).next m e) := by
  cases e with
  | callAcquire c | callRelease c =>
    have hout := h.outline c
    have hp : m.point c = .outside := hguard
    rw [hp] at hout
    exact h.goto hout
  | access c => exact h.access hinj hid hguard

/-- The only access that clears the flag is the one at `clearFlag`. -/
theorem ExclusionInv.clearedFromInside {e : Event Cpu} (h : ExclusionInv id m)
    (hguard : (spinlockCalls id).guard m e) : ClearedFromInside id m e := by
  intro hset hclear
  cases e with
  | callAcquire c | callRelease c =>
    have hsame : m.spinlock.lock = false := hclear
    rw [hset] at hsame
    cases hsame
  | access c =>
    have hclear : (Spinlock.access id m c).spinlock.lock = false := hclear
    rcases access_cases id m c hguard.1 hguard.2 with ⟨-, -, heq⟩ | ⟨-, -, heq⟩ | ⟨-, heq⟩ |
      ⟨-, -, heq⟩ | ⟨-, -, heq⟩ | ⟨hp, -⟩ | ⟨-, heq⟩
    case inr.inr.inr.inr.inr.inl => exact ⟨c, rfl, h.inside_of_clearFlag hp⟩
    all_goals simp [heq, hset] at hclear

end Steps

/-- Whatever the processors call, at most one is inside at any time, and the flag is only
cleared by the processor that is. -/
theorem mutual_exclusion_under_misuse [DecidableEq Cpu] (id : Cpu → BitVec 32)
    (hinj : Injective id) (hid : ∀ c, 0 ≤ (id c).toInt) (events : List (Event Cpu))
    (legal : (spinlockCalls id).Legal initial events) :
    (spinlockCalls id).Along MutualExclusion initial events ∧
      (spinlockCalls id).Meets (ClearedFromInside id) initial events := by
  have hinv : (spinlockCalls id).Along (ExclusionInv id) initial events :=
    System.along_of_step (exclusionInv_initial hid)
      (fun _ _ h hguard => exclusionInv_step h hinj hid hguard) legal
  exact ⟨hinv.mono fun _ h => h.mutualExclusion,
    hinv.meets (fun _ _ h hguard => h.clearedFromInside hguard) legal⟩

/-- Processor 1 releases the lock that processor 0 holds, and panics. -/
def releaseByOther : List (Event Bool) :=
  [.callAcquire false, .access false, .access false, .callRelease true, .access true,
    .callRelease false, .access false, .access false, .access false]

theorem mutual_exclusion_under_misuse_release_by_other :
    (spinlockCalls cpuNumber).Along MutualExclusion initial releaseByOther ∧
      (spinlockCalls cpuNumber).Meets (ClearedFromInside cpuNumber) initial releaseByOther :=
  mutual_exclusion_under_misuse cpuNumber (by decide) (by decide) releaseByOther
    (by simp [releaseByOther, spinlockCalls, initial, access, spinlockAcquire, spinlockRelease,
      spinlockInitAnonymous, cpuNumber])

end SysRv.Spinlock
