import SysRv.SpinlockExclusion

/-!
# Progress of the spinlock

A processor that waits for the lock can get it unless some processor is inside for good: it
has panicked, waits for the flag it has set itself, or no longer finds its number in the owner
field and so has nothing but a panic before it. A lock in such a state stays there, and with
calls in pairs it gets there by the late write of the owner field and in no other way.
-/

namespace SysRv.Spinlock

open GuardedRuns Function

variable {Cpu : Type}

/-- A processor inside that will not clear the flag, `own` being its number and `cpu` the owner
field. -/
def Stuck (own cpu : BitVec 32) : Point → Prop
  | .outside | .checkOwner => cpu ≠ own
  | .testAndSet | .panicked _ => True
  | .recordOwner | .clearFlag | .clearOwner => False

/-- Some processor is inside for good. -/
def Doomed (id : Cpu → BitVec 32) (m : Machine Cpu) : Prop :=
  ∃ c, m.inside c = true ∧ Stuck (id c) m.spinlock.cpu (m.point c)

/-- Some continuation ends in a test-and-set of the processor that succeeds. -/
def Enters [DecidableEq Cpu] (M : System (Machine Cpu) (Event Cpu)) (m : Machine Cpu) (d : Cpu) :
    Prop :=
  ∃ more, M.Legal m (more ++ [.access d]) ∧ (M.after m more).point d = .testAndSet ∧
    (M.after m more).spinlock.lock = false

theorem stuck_noCpu {own cpu : BitVec 32} {p : Point} (hown : noCpu ≠ own) (h : Stuck own cpu p) :
    Stuck own noCpu p := by
  cases p with
  | outside | checkOwner => exact hown
  | testAndSet | panicked => trivial
  | recordOwner | clearFlag | clearOwner => exact h

section Doom

variable [DecidableEq Cpu] {id : Cpu → BitVec 32} {m : Machine Cpu} {c d : Cpu}

/-- A processor inside for good stays so whatever point another one goes to. -/
theorem doomed_goto {p : Point} (hc : m.inside c = true)
    (hstuck : Stuck (id c) m.spinlock.cpu (if c = d then p else m.point c)) :
    Doomed id (m.goto d p) :=
  ⟨c, hc, by rwa [Machine.goto_point]⟩

theorem doomed_access (h : ExclusionInv id m) (hid : ∀ c, 0 ≤ (id c).toInt) (hdoomed : Doomed id m)
    (hguard : (spinlockCalls id).guard m (.access d)) : Doomed id (access id m d) := by
  obtain ⟨c, hc, hstuck⟩ := hdoomed
  have hset : m.spinlock.lock = true := h.excludes.flag.mpr ⟨c, hc⟩
  have houtline := h.outline d
  -- the processor of the step is inside only if it is the stuck one
  have hother : m.inside d = true → d = c := fun hd => h.excludes.single d c hd hc
  rcases access_cases id m d hguard.1 hguard.2 with ⟨-, -, heq⟩ | ⟨-, hfree, heq⟩ | ⟨hp, heq⟩ |
    ⟨hp, hne, heq⟩ | ⟨hp, hown, heq⟩ | ⟨hp, heq⟩ | ⟨hp, heq⟩ <;> rw [heq]
  · exact ⟨c, hc, hstuck⟩
  · rw [hset] at hfree
    cases hfree
  · rw [hp] at houtline
    obtain rfl := hother houtline
    rw [hp] at hstuck
    exact hstuck.elim
  · apply doomed_goto hc
    split
    · trivial
    · exact hstuck
  · apply doomed_goto hc
    split
    · rename_i hcd
      rw [hcd, hp] at hstuck
      exact hstuck hown.symm
    · exact hstuck
  · rw [hp] at houtline
    obtain rfl := hother houtline
    rw [hp] at hstuck
    exact hstuck.elim
  · rw [hp] at houtline
    have hcd : c ≠ d := by
      rintro rfl
      rw [hc] at houtline
      cases houtline
    refine ⟨c, hc, ?_⟩
    rw [Machine.goto_point, if_neg hcd]
    exact stuck_noCpu (ne_noCpu (hid c)) hstuck

/-- No step lets a processor out that is inside for good. -/
theorem doomed_step {e : Event Cpu} (h : ExclusionInv id m) (hid : ∀ c, 0 ≤ (id c).toInt)
    (hdoomed : Doomed id m) (hguard : (spinlockCalls id).guard m e) :
    Doomed id ((spinlockCalls id).next m e) := by
  cases e with
  | callAcquire d =>
    obtain ⟨c, hc, hstuck⟩ := hdoomed
    apply doomed_goto hc
    split
    · trivial
    · exact hstuck
  | callRelease d =>
    obtain ⟨c, hc, hstuck⟩ := hdoomed
    have hp : m.point d = .outside := hguard
    apply doomed_goto hc
    split
    · rename_i hcd
      rw [hcd, hp] at hstuck
      exact hcd ▸ hstuck
    · exact hstuck
  | access d => exact doomed_access h hid hdoomed hguard

/-- While a processor is inside for good, the flag stays set. -/
theorem doomed_run (hinj : Injective id) (hid : ∀ c, 0 ≤ (id c).toInt) {more : List (Event Cpu)}
    (h : ExclusionInv id m) (hdoomed : Doomed id m) (hlegal : (spinlockCalls id).Legal m more) :
    ((spinlockCalls id).after m more).spinlock.lock = true := by
  induction more generalizing m with
  | nil =>
    obtain ⟨c, hc, -⟩ := hdoomed
    exact h.excludes.flag.mpr ⟨c, hc⟩
  | cons e more ih =>
    exact ih (exclusionInv_step h hinj hid hlegal.1) (doomed_step h hid hdoomed hlegal.1) hlegal.2

end Doom

section Way

variable [DecidableEq Cpu] {id : Cpu → BitVec 32} {m : Machine Cpu} {c d : Cpu}

theorem Enters.cons {M : System (Machine Cpu) (Event Cpu)} {e : Event Cpu} (hguard : M.guard m e)
    (h : Enters M (M.next m e) d) : Enters M m d := by
  obtain ⟨more, hlegal, hpoint, hfree⟩ := h
  exact ⟨e :: more, ⟨hguard, hlegal⟩, hpoint, hfree⟩

theorem guard_access {p : Point} (hp : m.point c = p) (hin : p ≠ .outside)
    (hcalm : ∀ panic, p ≠ .panicked panic) : (spinlockCalls id).guard m (.access c) :=
  ⟨hp ▸ hin, hp ▸ hcalm⟩

theorem enters_free (hd : m.point d = .testAndSet) (hfree : m.spinlock.lock = false) :
    Enters (spinlockCalls id) m d :=
  ⟨[], ⟨guard_access hd (by simp) (by simp), trivial⟩, hd, hfree⟩

variable (hd : m.point d = .testAndSet) (hdc : d ≠ c)
include hd hdc

theorem enters_clearFlag (hp : m.point c = .clearFlag) : Enters (spinlockCalls id) m d := by
  refine .cons (guard_access hp (by simp) (by simp)) (enters_free ?_ ?_)
  · simp [spinlockCalls, access, spinlockRelease, hp, hdc, hd]
  · simp [spinlockCalls, access, spinlockRelease, hp]

theorem enters_checkOwner (hp : m.point c = .checkOwner) (hown : m.spinlock.cpu = id c) :
    Enters (spinlockCalls id) m d := by
  refine .cons (guard_access hp (by simp) (by simp)) (enters_clearFlag (c := c) ?_ hdc ?_)
  · simp [spinlockCalls, access, spinlockRelease, hp, hown, hdc, hd]
  · simp [spinlockCalls, access, spinlockRelease, hp, hown]

theorem enters_outside (hp : m.point c = .outside) (hown : m.spinlock.cpu = id c) :
    Enters (spinlockCalls id) m d := by
  refine .cons (e := .callRelease c) hp (enters_checkOwner (c := c) ?_ hdc ?_ hown)
  · simp [spinlockCalls, hdc, hd]
  · simp [spinlockCalls]

theorem enters_recordOwner (hp : m.point c = .recordOwner) : Enters (spinlockCalls id) m d := by
  refine .cons (guard_access hp (by simp) (by simp)) (enters_outside (c := c) ?_ hdc ?_ ?_)
  · simp [spinlockCalls, access, spinlockAcquire, hp, hdc, hd]
  · simp [spinlockCalls, access, spinlockAcquire, hp]
  · simp [spinlockCalls, access, spinlockAcquire, hp]

end Way

/-- Whatever the processors have called, a processor that waits for the lock can still get it if
and only if no processor is inside for good. -/
theorem waiting_enters_iff [DecidableEq Cpu] (id : Cpu → BitVec 32) (hinj : Injective id)
    (hid : ∀ c, 0 ≤ (id c).toInt) (events : List (Event Cpu))
    (legal : (spinlockCalls id).Legal initial events) {d : Cpu}
    (hwaits : ((spinlockCalls id).after initial events).point d = .testAndSet) :
    Enters (spinlockCalls id) ((spinlockCalls id).after initial events) d ↔
      ¬ Doomed id ((spinlockCalls id).after initial events) := by
  have hinv : ExclusionInv id ((spinlockCalls id).after initial events) :=
    (System.along_of_step (exclusionInv_initial hid)
      (fun _ _ h hguard => exclusionInv_step h hinj hid hguard) legal).last
  generalize (spinlockCalls id).after initial events = m at *
  constructor
  · rintro ⟨more, hmore, -, hfree⟩ hdoomed
    rw [doomed_run hinj hid hinv hdoomed (System.meets_append _ _ _ |>.mp hmore).1] at hfree
    cases hfree
  · intro halive
    cases hlock : m.spinlock.lock with
    | false => exact enters_free hwaits hlock
    | true =>
      obtain ⟨c, hc⟩ := hinv.excludes.flag.mp hlock
      have hnot : ¬ Stuck (id c) m.spinlock.cpu (m.point c) := fun h => halive ⟨c, hc, h⟩
      -- a waiter that is inside waits for its own flag
      have hdc : d ≠ c := by
        rintro rfl
        rw [hwaits] at hnot
        exact hnot trivial
      have houtline := hinv.outline c
      cases hp : m.point c with
      | recordOwner => exact enters_recordOwner hwaits hdc hp
      | clearFlag => exact enters_clearFlag hwaits hdc hp
      | outside =>
        rw [hp] at hnot
        exact enters_outside hwaits hdc hp (not_not.mp hnot)
      | checkOwner =>
        rw [hp] at hnot
        exact enters_checkOwner hwaits hdc hp (not_not.mp hnot)
      | testAndSet | panicked =>
        rw [hp] at hnot
        exact absurd trivial hnot
      | clearOwner =>
        rw [hp, OwnerOutline, hc] at houtline
        cases houtline

/-- Processor 1 has taken the lock between the two writes of the release by processor 0 and
panics when it releases it; processor 0 waits. -/
def waitingForPanicked : List (Event Bool) :=
  overlappingRelease ++ [.callRelease true, .access true, .callAcquire false]

/-- The lock is taken once, and the same processor waits for it. -/
def waitingForItself : List (Event Bool) :=
  [.callAcquire false, .access false, .access false, .callAcquire false]

theorem waiting_never_enters :
    (¬ Enters (spinlockCalls cpuNumber)
      ((spinlockCalls cpuNumber).after initial waitingForPanicked) false) ∧
    ¬ Enters (spinlockCalls cpuNumber)
      ((spinlockCalls cpuNumber).after initial waitingForItself) false := by
  have hpanicked : Doomed cpuNumber ((spinlockCalls cpuNumber).after initial waitingForPanicked) :=
    ⟨true, by decide, trivial⟩
  have hitself : Doomed cpuNumber ((spinlockCalls cpuNumber).after initial waitingForItself) :=
    ⟨false, by decide, trivial⟩
  have hwiped : 1#32 ≠ noCpu := by decide
  constructor
  · refine fun henters => (waiting_enters_iff cpuNumber (by decide) (by decide) waitingForPanicked
      ?_ (by decide)).mp henters hpanicked
    simp [waitingForPanicked, overlappingRelease, spinlockCalls, initial, access, spinlockAcquire,
      spinlockRelease, spinlockInitAnonymous, cpuNumber, hwiped]
  · refine fun henters => (waiting_enters_iff cpuNumber (by decide) (by decide) waitingForItself
      ?_ (by decide)).mp henters hitself
    simp [waitingForItself, spinlockCalls, initial, access, spinlockAcquire, spinlockInitAnonymous]

section Paired

variable {id : Cpu → BitVec 32} {m : Machine Cpu}

theorem PairedInv.not_doomed (h : PairedInv id m) : ¬ Doomed id m := by
  rintro ⟨c, hc, hstuck⟩
  have hout := h.outline c
  cases hp : m.point c <;> rw [hp] at hout hstuck
  case outside => exact hstuck (hout hc)
  case checkOwner => exact hstuck hout.2
  case testAndSet => rw [Outline, hc] at hout; cases hout
  case panicked => exact hout
  all_goals exact hstuck

/-- The late write of the owner field leaves the processor that it wipes inside for good. -/
theorem doomed_of_clearsOwner [DecidableEq Cpu] {e : Event Cpu} (h : PairedInv id m)
    (hcond : ¬ ClearsNoOwner id m e) : Doomed id ((pairedCalls id).next m e) := by
  cases e with
  | callAcquire c | callRelease c => exact absurd trivial hcond
  | access c =>
    simp only [ClearsNoOwner, not_forall] at hcond
    obtain ⟨hp, d, hd, hne⟩ := hcond
    have hnext : (pairedCalls id).next m (.access c) = (m.setCpu noCpu).goto c .outside := by
      simp [pairedCalls, System.restrict, spinlockCalls, access, spinlockRelease, hp]
    have hdc : d ≠ c := by
      rintro rfl
      rcases hd with ⟨hout, -⟩ | hcheck
      · rw [hp] at hout
        cases hout
      · rw [hp] at hcheck
        cases hcheck
    rw [hnext]
    rcases hd with ⟨hout, hin⟩ | hcheck
    · refine ⟨d, hin, ?_⟩
      rw [Machine.goto_point, if_neg hdc]
      simpa [Stuck, hout] using Ne.symm hne
    · have houtline := h.outline d
      rw [hcheck] at houtline
      refine ⟨d, houtline.1, ?_⟩
      rw [Machine.goto_point, if_neg hdc]
      simpa [Stuck, hcheck] using Ne.symm hne

end Paired

/-- With calls in pairs, in any order, the lock stays alive throughout if and only if no
`Release` writes the owner field at its end over a processor recorded there since. -/
theorem paired_lock_alive_iff [DecidableEq Cpu] (id : Cpu → BitVec 32) (events : List (Event Cpu))
    (legal : (pairedCalls id).Legal initial events) :
    (pairedCalls id).Along (fun m => ¬ Doomed id m) initial events ↔
      (pairedCalls id).Meets (ClearsNoOwner id) initial events :=
  System.along_iff_meets (pairedInv_initial id) (fun _ h => h.not_doomed)
    (fun _ _ h hguard hcond => pairedInv_step h hguard hcond)
    (fun _ _ h _ hcond halive => halive (doomed_of_clearsOwner h hcond)) legal

theorem paired_lock_dies :
    ¬ (pairedCalls cpuNumber).Along (fun m => ¬ Doomed cpuNumber m) initial overlappingRelease := by
  have hlegal : (pairedCalls cpuNumber).Legal initial overlappingRelease := by
    simp [overlappingRelease, pairedCalls, System.restrict, spinlockCalls, Paired, Holds, initial,
      access, spinlockAcquire, spinlockRelease, spinlockInitAnonymous, cpuNumber]
  rw [paired_lock_alive_iff cpuNumber overlappingRelease hlegal]
  intro hmeets
  have hlate : ¬ ClearsNoOwner cpuNumber
      ((pairedCalls cpuNumber).after initial (overlappingRelease.take 9)) (.access false) := by
    intro hclears
    exact absurd (hclears (by decide) true (.inl ⟨by decide, by decide⟩)) (by decide)
  have hsplit : overlappingRelease = overlappingRelease.take 9 ++ [.access false] := rfl
  rw [hsplit, System.meets_append] at hmeets
  exact hlate hmeets.2.1

end SysRv.Spinlock
