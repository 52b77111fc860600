import Mathlib.Logic.Basic

/-!
# Finite runs of a guarded transition system

A system is a next-state function on labels, with a guard that says which labels may be
taken in which state. A run is a list of labels. Three predicates on a run are computed
by the same recursion: every step meets a condition in the state before it (`Meets`), the
guard being one such condition, and every visited state has a property (`Along`).
`along_iff_meets` is the rule for exact conditions: where one step keeps an invariant
under the condition and breaks the property without it, a run keeps the property
throughout exactly when all its steps meet the condition.
-/

namespace SysRv.GuardedRuns

universe u v

/-- A deterministic labelled system. `next` is only looked at where `guard` holds. -/
structure System (State : Type u) (Label : Type v) where
  guard : State → Label → Prop
  next : State → Label → State

variable {State : Type u} {Label : Type v}

namespace System

/-- The state in which a sequence of labels ends. -/
def after (M : System State Label) : State → List Label → State
  | s, [] => s
  | s, a :: as => M.after (M.next s a) as

/-- Every step of the sequence meets `C` in the state before the step. -/
def Meets (M : System State Label) (C : State → Label → Prop) : State → List Label → Prop
  | _, [] => True
  | s, a :: as => C s a ∧ M.Meets C (M.next s a) as

/-- Every step of the sequence is allowed by the guard. -/
abbrev Legal (M : System State Label) : State → List Label → Prop := M.Meets M.guard

/-- Every state of the sequence, the first and the last included, satisfies `P`. -/
def Along (M : System State Label) (P : State → Prop) : State → List Label → Prop
  | s, [] => P s
  | s, a :: as => P s ∧ M.Along P (M.next s a) as

def restrict (M : System State Label) (D : State → Label → Prop) : System State Label where
  guard s a := M.guard s a ∧ D s a
  next := M.next

variable {M : System State Label} {C D : State → Label → Prop} {I P : State → Prop}

@[simp] theorem after_nil (s : State) : M.after s [] = s := rfl

@[simp] theorem after_cons (s : State) (a : Label) (as : List Label) :
    M.after s (a :: as) = M.after (M.next s a) as := rfl

@[simp] theorem meets_nil (s : State) : M.Meets C s [] := trivial

@[simp] theorem meets_cons (s : State) (a : Label) (as : List Label) :
    M.Meets C s (a :: as) ↔ C s a ∧ M.Meets C (M.next s a) as := Iff.rfl

@[simp] theorem along_nil (s : State) : M.Along P s [] ↔ P s := Iff.rfl

@[simp] theorem along_cons (s : State) (a : Label) (as : List Label) :
    M.Along P s (a :: as) ↔ P s ∧ M.Along P (M.next s a) as := Iff.rfl

theorem after_append (s : State) (as bs : List Label) :
    M.after s (as ++ bs) = M.after (M.after s as) bs := by
  induction as generalizing s with
  | nil => rfl
  | cons a as ih => exact ih (M.next s a)

theorem meets_append (s : State) (as bs : List Label) :
    M.Meets C s (as ++ bs) ↔ M.Meets C s as ∧ M.Meets C (M.after s as) bs := by
  induction as generalizing s with
  | nil => simp
  | cons a as ih => simp [ih, and_assoc]

theorem Along.mono {Q : State → Prop} {s : State} {as : List Label}
    (h : M.Along P s as) (hPQ : ∀ t, P t → Q t) : M.Along Q s as := by
  induction as generalizing s with
  | nil => exact hPQ s h
  | cons a as ih => exact ⟨hPQ s h.1, ih h.2⟩

theorem Along.last {s : State} {as : List Label} (h : M.Along P s as) : P (M.after s as) := by
  induction as generalizing s with
  | nil => exact h
  | cons a as ih => exact ih h.2

/-- The induction behind every safety result: a step under `C` keeps `I`, so a run whose
steps meet `C` keeps `I` throughout. -/
theorem along_of_step {s : State} {as : List Label} (h₀ : I s)
    (step : ∀ t a, I t → C t a → I (M.next t a)) (hC : M.Meets C s as) : M.Along I s as := by
  induction as generalizing s with
  | nil => exact h₀
  | cons a as ih => exact ⟨h₀, ih (step s a h₀ hC.1) hC.2⟩

theorem Along.meets {s : State} {as : List Label} (h : M.Along I s as)
    (step : ∀ t a, I t → D t a → C t a) (hD : M.Meets D s as) : M.Meets C s as := by
  induction as generalizing s with
  | nil => trivial
  | cons a as ih => exact ⟨step s a h.1 hD.1, ih h.2 hD.2⟩

/-- The exact condition of a run property. `C` is sufficient because it keeps `I`, which
gives `P`, and necessary because the first step without it ends outside `P`. -/
theorem along_iff_meets {s : State} {as : List Label} (h₀ : I s) (inv : ∀ t, I t → P t)
    (keeps : ∀ t a, I t → M.guard t a → C t a → I (M.next t a))
    (breaks : ∀ t a, I t → M.guard t a → ¬ C t a → ¬ P (M.next t a))
    (legal : M.Legal s as) : M.Along P s as ↔ M.Meets C s as := by
  induction as generalizing s with
  | nil => simpa using inv s h₀
  | cons a as ih =>
    by_cases hC : C s a
    · simp [inv s h₀, hC, ih (keeps s a h₀ legal.1 hC) legal.2]
    · have hP := breaks s a h₀ legal.1 hC
      have hfirst : ¬ M.Along P (M.next s a) as := by
        cases as with
        | nil => exact hP
        | cons b bs => exact fun h => hP h.1
      simp [hC, hfirst]

end System

end SysRv.GuardedRuns
