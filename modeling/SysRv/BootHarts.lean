import SysRv.BootRun

/-!
# All harts at the entry point

Every hart enters `_start` with its own number in `a0`. Whatever the order of their steps,
the harts other than 0 come to `_boot_ParkHart` without a write, and hart 0 boots as if it
were alone.
-/

namespace SysRv.Boot
open Function Rv64 Sv39 BootMap ReservedMemory

section Parking

variable {y : BootSymbols} {P : Placement (start y)} {u : Bool} {h : Hart}

/-- A hart that is not hart 0, at position `k` of its way to `_boot_ParkHart`. -/
structure ParksFrom (P : Placement (start y)) (k : ℕ) (h : Hart) : Prop where
  pc : h.pc = P.place k
  mode : satpMode h.satp = 0
  other : h.reg .a0 ≠ 0#64
  limit : 0 < k → h.reg .t0 = 0#64
  way : k ∈ [0, 1, 2, bootParkLabel]

def nextToPark (k : ℕ) : ℕ := if k < 2 then k + 1 else bootParkLabel

theorem ParksFrom.step {k : ℕ} (hk : ParksFrom P k h) :
    ∃ h', ParksFrom P (nextToPark k) h' ∧ ∀ mem, h.step P (mmu u) mem = .runs h' mem := by
  have hbare := mmu_bare u hk.mode
  have hway := hk.way
  simp only [List.mem_cons, List.not_mem_nil, or_false] at hway
  rcases hway with rfl | rfl | rfl | rfl
  · exact ⟨(h.setReg .t0 0#64).goto (P.place 1),
      ⟨rfl, hk.mode, hk.other, fun _ => rfl, by decide⟩,
      fun _ => Hart.step_line hk.pc rfl (hbare _ _ _) rfl rfl⟩
  · exact ⟨(h.setReg .tp (h.reg .a0 + (0#12).signExtend 64)).goto (P.place 2),
      ⟨rfl, hk.mode, hk.other, fun _ => hk.limit (by decide), by decide⟩,
      fun _ => Hart.step_line hk.pc rfl (hbare _ _ _) rfl rfl⟩
  · have hne : h.reg .a0 ≠ h.reg .t0 := by
      rw [hk.limit (by decide)]
      exact hk.other
    refine ⟨h.goto (P.place bootParkLabel),
      ⟨rfl, hk.mode, hk.other, fun _ => hk.limit (by decide), by decide⟩, fun mem => ?_⟩
    have hbne : h.step P (mmu u) mem = _ := Hart.step_bne hk.pc rfl (hbare _ _ _) rfl
    rwa [if_pos hne] at hbne
  · exact ⟨h.goto (P.place bootParkLabel), ⟨rfl, hk.mode, hk.other, hk.limit, by decide⟩,
      fun _ => Hart.step_j hk.pc rfl (hbare _ _ _) rfl⟩

/-- A hart on its way to `_boot_ParkHart` writes nothing. -/
theorem silent_of_parks (P : Placement (start y)) (u : Bool) :
    Silent P (mmu u) fun h => ∃ k, ParksFrom P k h := by
  rintro h ⟨k, hk⟩
  obtain ⟨h', hnext, hstep⟩ := hk.step (u := u)
  exact ⟨h', ⟨_, hnext⟩, hstep⟩

theorem ParksFrom.alone {k : ℕ} (hk : ParksFrom P k h) :
    ParksFrom P (nextToPark k) (h.alone P (mmu u)) := by
  obtain ⟨h', hnext, hstep⟩ := hk.step (u := u)
  rwa [Hart.alone, Hart.advance_of_step (hstep _)]

/-- After three steps of its own the hart is parked. -/
theorem ParksFrom.iterate (hk : ParksFrom P 0 h) (n : ℕ) :
    ParksFrom P (if n < 3 then n else bootParkLabel) ((Hart.alone P (mmu u))^[n] h) := by
  induction n with
  | zero => exact hk
  | succ n ih =>
    have hnext := ih.alone (u := u)
    rw [← iterate_succ_apply' (Hart.alone P (mmu u))] at hnext
    have hpos : nextToPark (if n < 3 then n else bootParkLabel) =
        if n + 1 < 3 then n + 1 else bootParkLabel := by
      simp only [nextToPark, bootParkLabel]
      split_ifs <;> omega
    rwa [hpos] at hnext

end Parking

section Boot

variable {ι : Type} [DecidableEq ι] {b : BootImage} {c : Cluster ι}

structure Entered (h : Hart) : Prop where
  pc : h.pc = bootStart
  mode : satpMode h.satp = 0

theorem Entered.parksFrom {h : Hart} (hentered : Entered h) (hother : h.reg .a0 ≠ 0#64) :
    ParksFrom b.placement 0 h :=
  ⟨hentered.pc.trans b.place_zero.symm, hentered.mode, hother, fun h => absurd h (by decide),
    by decide⟩

/-- Whatever the order of the steps of any number of harts with different numbers: hart 0
boots, once it has had its 53 steps (one for a line of the listing), as if it were alone; the
others park, after three steps, and no step of theirs writes; and where no hart has the number
0, nothing is written. -/
theorem boot_in_any_order (hentered : ∀ i, Entered (c.harts i))
    (hnumbers : ∀ i j, (c.harts i).reg .a0 = (c.harts j).reg .a0 → i = j)
    (hzero : ∀ index < 512, c.mem (pteAddress b.root index) = 0#64) (schedule : List ι) :
    (∀ i, (c.harts i).reg .a0 = 0#64 → 53 ≤ schedule.count i →
      Booted b ((c.harts i).reg .a1) c.mem ((c.after b.placement (mmu true) schedule).harts i)
        (c.after b.placement (mmu true) schedule).mem) ∧
    (∀ i, (c.harts i).reg .a0 ≠ 0#64 →
      ParksFrom b.placement (if schedule.count i < 3 then schedule.count i else bootParkLabel)
          ((c.after b.placement (mmu true) schedule).harts i) ∧
        (c.after b.placement (mmu true) (schedule ++ [i])).mem =
          (c.after b.placement (mmu true) schedule).mem) ∧
    ((∀ i, (c.harts i).reg .a0 ≠ 0#64) → (c.after b.placement (mmu true) schedule).mem = c.mem) := by
  have hsilent := silent_of_parks b.placement true
  have hparks : ∀ i, (c.harts i).reg .a0 ≠ 0#64 → ∃ k, ParksFrom b.placement k (c.harts i) :=
    fun i hi => ⟨0, (hentered i).parksFrom hi⟩
  refine ⟨fun i hi hcount => ?_, fun i hi => ?_,
    fun hall => hsilent.after_mem (fun i => hparks i (hall i)) schedule⟩
  · obtain ⟨h', mem', hsteps, hbooted, hleaves⟩ :=
      start_boots (b := b) (hentered i).pc (hentered i).mode hi rfl hzero
    have halone := hsilent.after_alone
      (fun j hj => hparks j fun hj₀ => hj (hnumbers j i (hj₀.trans hi.symm))) schedule
    rw [hsteps.advance_of_le (by simp [hleaves]) hcount, Prod.mk.injEq] at halone
    rwa [halone.1, halone.2]
  · have hparked : ParksFrom b.placement
        (if schedule.count i < 3 then schedule.count i else bootParkLabel)
        ((c.after b.placement (mmu true) schedule).harts i) := by
      rw [hsilent.after_hart (hparks i hi)]
      exact ((hentered i).parksFrom hi).iterate _
    refine ⟨hparked, ?_⟩
    rw [Cluster.after, List.foldl_append, ← Cluster.after]
    exact hsilent.step_mem ⟨_, hparked⟩

end Boot

def sampleCluster : Cluster Bool where
  harts i := sampleHart (if i then 1#64 else 0#64)
  mem _ := 0#64

theorem boot_in_any_order_two_harts :
    Booted sampleImage 0x87E00000#64 sampleCluster.mem
      ((sampleCluster.after sampleImage.placement (mmu true)
        ([true, true, true] ++ List.replicate 53 false)).harts false)
      (sampleCluster.after sampleImage.placement (mmu true)
        ([true, true, true] ++ List.replicate 53 false)).mem :=
  (boot_in_any_order (b := sampleImage) (c := sampleCluster)
    (fun _ => ⟨rfl, (by decide : satpMode 0#64 = 0)⟩)
    (fun i j h => by cases i <;> cases j <;> first | rfl | exact absurd h (by decide))
    (fun _ _ => rfl) ([true, true, true] ++ List.replicate 53 false)).1 false rfl (by decide)

end SysRv.Boot
