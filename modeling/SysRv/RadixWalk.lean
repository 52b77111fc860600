import Mathlib.Data.List.Basic

/-!
# Walks of radix trees

A tree of tables is read with a key that has a digit for every level. At each level the walk
looks at one entry, which says that nothing is there, that it is a leaf, or in which table
to go on one level further down. Tables may be shared or cyclic; the walk ends because it
runs out of levels. It is described by the tables it reaches, and depends on nothing but the
entries it looks at and the digits down to the leaf.
-/

namespace SysRv.RadixWalk

universe u v w x

/-- What an entry says to a walk. -/
inductive View (Table : Type u) where
  | absent
  | leaf
  | next (table : Table)

/-- Where the entry of a table for a digit lies, and how an entry is read. -/
structure Tree (Table : Type u) (Digit : Type v) (Place : Type w) (Entry : Type x) where
  place : Table → Digit → Place
  view : Entry → View Table

variable {Table : Type u} {Digit : Type v} {Place : Type w} {Entry : Type x}

namespace Tree

variable (T : Tree Table Digit Place Entry) (mem mem' : Place → Entry) (key key' : ℕ → Digit)

def walk : ℕ → Table → Option Place
  | 0, _ => none
  | level + 1, table =>
    match T.view (mem (T.place table (key level))) with
    | .absent => none
    | .leaf => some (T.place table (key level))
    | .next table => walk level table

def reads : ℕ → Table → List Place
  | 0, _ => []
  | level + 1, table =>
    T.place table (key level) ::
      match T.view (mem (T.place table (key level))) with
      | .absent | .leaf => []
      | .next table => reads level table

/-- The walk that starts with `top` levels to go comes to a table with some levels to go. -/
inductive Reaches (top : ℕ) (root : Table) : ℕ → Table → Prop where
  | root : Reaches top root top root
  | next {level table table'} (h : Reaches top root (level + 1) table)
      (hview : T.view (mem (T.place table (key level))) = .next table') :
      Reaches top root level table'

variable {T mem mem' key key'} {top level : ℕ} {root table table' : Table} {p : Place}

theorem Reaches.head (hview : T.view (mem (T.place root (key top))) = .next table')
    (h : T.Reaches mem key top table' level table) : T.Reaches mem key (top + 1) root level table := by
  induction h with
  | root => exact .next .root hview
  | next _ hview' ih => exact .next ih hview'

theorem Reaches.walk_eq (h : T.Reaches mem key top root level table) :
    T.walk mem key top root = T.walk mem key level table := by
  induction h with
  | root => rfl
  | next _ hview ih => rw [ih, walk, hview]

theorem Reaches.le (h : T.Reaches mem key top root level table) : level ≤ top := by
  induction h with
  | root => exact Nat.le_refl _
  | next _ _ ih => exact Nat.le_of_succ_le ih

theorem Reaches.unique (h : T.Reaches mem key top root level table)
    (h' : T.Reaches mem key top root level table') : table = table' := by
  induction h generalizing table' with
  | root =>
    cases h' with
    | root => rfl
    | next h' _ => exact absurd h'.le (Nat.not_succ_le_self _)
  | next h hview ih =>
    cases h' with
    | root => exact absurd h.le (Nat.not_succ_le_self _)
    | next h' hview' =>
      rw [ih h', hview'] at hview
      exact (View.next.inj hview).symm

theorem walk_eq_some_iff : T.walk mem key top root = some p ↔
    ∃ level table, T.Reaches mem key top root (level + 1) table ∧
      T.view (mem (T.place table (key level))) = .leaf ∧ p = T.place table (key level) := by
  constructor
  · intro h
    induction top generalizing root with
    | zero => cases h
    | succ top ih =>
      rw [walk] at h
      split at h
      · cases h
      · rename_i hview
        exact ⟨top, root, .root, hview, (Option.some.inj h).symm⟩
      · rename_i table' hview
        obtain ⟨level, table, hreach, hleaf, hp⟩ := ih h
        exact ⟨level, table, hreach.head hview, hleaf, hp⟩
  · rintro ⟨level, table, hreach, hleaf, rfl⟩
    rw [hreach.walk_eq, walk, hleaf]

/-- The walk looks at one entry a level, on its own path. -/
theorem reads_getElem? {k : ℕ} (h : (T.reads mem key top root)[k]? = some p) :
    ∃ level table, level + k + 1 = top ∧ T.Reaches mem key top root (level + 1) table ∧
      p = T.place table (key level) := by
  induction top generalizing root k with
  | zero => simp [reads] at h
  | succ top ih =>
    rw [reads] at h
    cases k with
    | zero => exact ⟨top, root, rfl, .root, by simpa using h.symm⟩
    | succ k =>
      rw [List.getElem?_cons_succ] at h
      split at h
      · simp at h
      · simp at h
      · rename_i table' hview
        obtain ⟨level, table, htop, hreach, hp⟩ := ih h
        exact ⟨level, table, by omega, hreach.head hview, hp⟩

/-- A walk depends on nothing but what the entries on its path say. -/
theorem walk_congr_view (h : ∀ p ∈ T.reads mem key top root, T.view (mem' p) = T.view (mem p)) :
    T.walk mem' key top root = T.walk mem key top root := by
  induction top generalizing root with
  | zero => rfl
  | succ top ih =>
    have hfirst := h (T.place root (key top)) (List.mem_cons_self ..)
    rw [walk, walk, hfirst]
    cases hview : T.view (mem (T.place root (key top))) with
    | absent => rfl
    | leaf => rfl
    | next table =>
      refine ih fun p hp => h p (List.mem_cons_of_mem _ ?_)
      rwa [hview]

theorem walk_congr (h : ∀ p ∈ T.reads mem key top root, mem' p = mem p) :
    T.walk mem' key top root = T.walk mem key top root :=
  walk_congr_view fun p hp => congrArg T.view (h p hp)

theorem walk_mem_reads (h : T.walk mem key top root = some p) : p ∈ T.reads mem key top root := by
  induction top generalizing root with
  | zero => cases h
  | succ top ih =>
    rw [walk] at h
    rw [reads, List.mem_cons]
    cases hview : T.view (mem (T.place root (key top))) with
    | absent =>
      rw [hview] at h
      cases h
    | leaf =>
      rw [hview] at h
      exact .inl (Option.some.inj h).symm
    | next table =>
      rw [hview] at h
      exact .inr (ih h)

/-- One entry becomes a leaf: the walks that came by end there. -/
theorem walk_of_leaf (hleaf : T.view (mem' p) = .leaf) (hothers : ∀ q, q ≠ p → mem' q = mem q)
    (hread : p ∈ T.reads mem key top root) : T.walk mem' key top root = some p := by
  induction top generalizing root with
  | zero => cases hread
  | succ top ih =>
    rw [walk]
    by_cases hp : T.place root (key top) = p
    · rw [hp, hleaf]
    · rw [hothers _ hp]
      rw [reads, List.mem_cons] at hread
      have hbelow := hread.resolve_left fun h => hp h.symm
      cases hview : T.view (mem (T.place root (key top))) with
      | absent => simp [hview] at hbelow
      | leaf => simp [hview] at hbelow
      | next table =>
        rw [hview] at hbelow
        exact ih hbelow

/-- Keys that agree down to a level come to the same table there. -/
theorem Reaches.congr_key (h : T.Reaches mem key top root level table)
    (hkey : ∀ l, level ≤ l → l < top → key' l = key l) :
    T.Reaches mem key' top root level table := by
  induction h with
  | root => exact .root
  | next h hview ih =>
    refine .next (ih fun l hl => hkey l (Nat.le_of_succ_le hl)) ?_
    rw [hkey _ (Nat.le_refl _) (Nat.lt_of_succ_le h.le), hview]

/-- Keys that agree down to the level of the leaf end at the same leaf. -/
theorem walk_congr_key (h : T.Reaches mem key top root (level + 1) table)
    (hleaf : T.view (mem (T.place table (key level))) = .leaf)
    (hkey : ∀ l, level ≤ l → l < top → key' l = key l) :
    T.walk mem key' top root = T.walk mem key top root := by
  have hsame := hkey level (Nat.le_refl _) (Nat.lt_of_succ_le h.le)
  have hreach := h.congr_key fun l hl => hkey l (Nat.le_of_succ_le hl)
  have hend : T.walk mem key top root = some (T.place table (key level)) :=
    walk_eq_some_iff.mpr ⟨level, table, h, hleaf, rfl⟩
  rw [hend]
  exact walk_eq_some_iff.mpr ⟨level, table, hreach, by rw [hsame, hleaf], by rw [hsame]⟩

end Tree

end SysRv.RadixWalk
