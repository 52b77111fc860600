import Mathlib.Data.List.Forall2
import Mathlib.Data.List.Induction

/-!
# Places in a list

Where an element of a list stands when the list is cut in two or has been extended by one
element, and the elements by their numbers.
-/

namespace SysRv.ListSplits

universe u

variable {α : Type u} {pre front back : List α} {t a : α}

theorem split_cases {mid : List α} (h : pre ++ mid = front ++ a :: back) :
    (∃ back', pre = front ++ a :: back') ∨ ∃ rest, front = pre ++ rest := by
  rcases List.append_eq_append_iff.mp h with ⟨rest, hfront, -⟩ | ⟨rest, hpre, hmid⟩
  · exact .inr ⟨rest, hfront⟩
  · cases rest with
    | nil => exact .inr ⟨[], by simpa using hpre.symm⟩
    | cons v rest =>
      rw [List.cons_append, List.cons.injEq] at hmid
      exact .inl ⟨rest, by rw [hpre, hmid.1]⟩

/-- An element of a list with one more is the last or stands before it. -/
theorem snoc_split (h : pre ++ [t] = front ++ a :: back) :
    (front = pre ∧ a = t) ∨ ∃ back', pre = front ++ a :: back' := by
  rcases List.eq_nil_or_concat back with rfl | ⟨back', v, rfl⟩
  · obtain ⟨hfront, ha⟩ := List.append_inj' h rfl
    exact .inl ⟨hfront.symm, by simpa using ha.symm⟩
  · rw [List.concat_eq_append, ← List.cons_append, ← List.append_assoc] at h
    exact .inr ⟨back', (List.append_inj' h rfl).1⟩

theorem forall_snoc_split {P : List α → Prop} (h : ∀ front a back, pre = front ++ a :: back → P front)
    (hpre : P pre) (front : List α) (a : α) (back : List α)
    (hsplit : pre ++ [t] = front ++ a :: back) : P front := by
  rcases snoc_split hsplit with ⟨rfl, -⟩ | ⟨back', hfront⟩
  · exact hpre
  · exact h front a back' hfront

/-- The element with a given number of those that satisfy a predicate. -/
theorem exists_split_of_countP (p : α → Bool) {l : List α} {i : ℕ} (hi : i < l.countP p) :
    ∃ front a back, l = front ++ a :: back ∧ p a = true ∧ front.countP p = i := by
  induction l using List.reverseRecOn with
  | nil => simp at hi
  | append_singleton l a ih =>
    rcases Nat.lt_or_ge i (l.countP p) with hlt | hge
    · obtain ⟨front, b, back, rfl, hb, hcount⟩ := ih hlt
      exact ⟨front, b, back ++ [a], by simp, hb, hcount⟩
    · rw [List.countP_append, List.countP_singleton] at hi
      by_cases ha : p a = true
      · rw [if_pos ha] at hi
        exact ⟨l, a, [], rfl, ha, by omega⟩
      · rw [if_neg ha] at hi
        omega

/-- A filtered list that is cut at an element comes from a cut at this element. -/
theorem filter_split {p : α → Bool} {l : List α} (h : l.filter p = front ++ a :: back) :
    ∃ pre post, l = pre ++ a :: post ∧ pre.filter p = front ∧ post.filter p = back := by
  obtain ⟨l₁, l₂, rfl, hfront, hback⟩ := List.filter_eq_append_iff.mp h
  obtain ⟨skipped, post, rfl, hskipped, -, hpost⟩ := List.filter_eq_cons_iff.mp hback
  refine ⟨l₁ ++ skipped, post, by simp, ?_, hpost⟩
  rw [List.filter_append, hfront, List.filter_eq_nil_iff.mpr hskipped, List.append_nil]

/-- A list related to one that is cut at an element is cut at an element related to it. -/
theorem forall₂_split {β : Type*} {R : β → α → Prop} {l : List β}
    (h : List.Forall₂ R l (front ++ a :: back)) : ∃ pre b post, l = pre ++ b :: post ∧
      List.Forall₂ R pre front ∧ R b a ∧ List.Forall₂ R post back := by
  have hfront := List.forall₂_take_append l front (a :: back) h
  have hback := List.forall₂_drop_append l front (a :: back) h
  obtain ⟨b, post, hb, hpost, hdrop⟩ := List.forall₂_cons_right_iff.mp hback
  exact ⟨_, b, post, by rw [← hdrop, List.take_append_drop], hfront, hb, hpost⟩

theorem getElem?_snoc {l : List α} {b : α} {i : ℕ} (h : (l ++ [a])[i]? = some b) :
    l[i]? = some b ∨ i = l.length ∧ a = b := by
  rcases Nat.lt_or_ge i l.length with hlt | hge
  · exact .inl (by rwa [List.getElem?_append_left hlt] at h)
  · have hi : i = l.length := by
      have hlt := (List.getElem?_eq_some_iff.mp h).1
      simp only [List.length_append, List.length_singleton] at hlt
      omega
    subst hi
    exact .inr ⟨rfl, by simpa using h⟩

theorem getElem?_inj {l : List α} (hnodup : l.Nodup) {i j : ℕ} (hi : l[i]? = some a)
    (hj : l[j]? = some a) : i = j :=
  (List.getElem?_inj (List.getElem?_eq_some_iff.mp hi).1 hnodup).mp (hi.trans hj.symm)

end SysRv.ListSplits
