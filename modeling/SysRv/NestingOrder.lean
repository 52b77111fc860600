import Mathlib.Data.List.Forall2
import SysRv.Nesting

/-!
# The children and the items of a number, in order

A list with one entry for each opening of a word, and the entries at those openings that a
number encloses. For the labels of a rose tree these are the labels of the children. Behind a
longer part of the word they only get more.
-/

namespace SysRv.Nesting

universe u v w

variable {α : Type u} {β : Type v} {γ : Type w} {isRoot : α → Bool}

def openings : List (Event α β) → List α
  | [] => []
  | .opening a :: es => a :: openings es
  | .closing :: es => openings es
  | .item _ :: es => openings es

/-- The entries at the openings that a number encloses. -/
def childrenIn (xs : List γ) (parents : List (Option ℕ)) (i : ℕ) : List γ :=
  ((xs.zip parents).filter fun e => e.2 = some i).map Prod.fst

def itemsIn (items : List (ℕ × β)) (i : ℕ) : List β :=
  (items.filter fun it => it.1 = i).map Prod.snd

@[simp] theorem openings_append (es fs : List (Event α β)) :
    openings (es ++ fs) = openings es ++ openings fs := by
  induction es with
  | nil => rfl
  | cons e es ih => cases e <;> simp [openings, ih]

@[simp] theorem openings_items (bs : List β) :
    openings (bs.map .item : List (Event α β)) = [] := by
  induction bs with
  | nil => rfl
  | cons b bs ih => exact ih

theorem openings_map (f : β → γ) (es : List (Event α β)) :
    openings (es.map (Event.map f)) = openings es := by
  induction es with
  | nil => rfl
  | cons e es ih => cases e <;> simp [openings, Event.map, ih]

theorem run_parents_length {s t : State β} {es : List (Event α β)} (h : run isRoot s es = some t) :
    t.parents.length = s.parents.length + (openings es).length := by
  induction es generalizing s with
  | nil =>
    cases h
    rfl
  | cons e es ih =>
    obtain ⟨u, hu, hrun⟩ := Option.bind_eq_some_iff.mp h
    have hrest := ih hrun
    rcases step_cases hu with ⟨label, rfl, -, -, rfl⟩ | ⟨i, outer, rfl, -, rfl⟩ |
      ⟨i, outer, payload, rfl, -, rfl⟩
    · simp only [open_parents, List.length_append, List.length_singleton] at hrest
      simp only [openings, List.length_cons]
      omega
    · exact hrest
    · exact hrest

section Children

variable {xs ys : List γ} {ps qs : List (Option ℕ)} {i : ℕ}

@[simp] theorem childrenIn_nil (ps : List (Option ℕ)) (i : ℕ) :
    childrenIn ([] : List γ) ps i = [] := by simp [childrenIn]

theorem childrenIn_cons (x : γ) (p : Option ℕ) (xs : List γ) (ps : List (Option ℕ)) (i : ℕ) :
    childrenIn (x :: xs) (p :: ps) i = (if p = some i then [x] else []) ++ childrenIn xs ps i := by
  by_cases h : p = some i <;> simp [childrenIn, h]

theorem childrenIn_append (h : xs.length = ps.length) :
    childrenIn (xs ++ ys) (ps ++ qs) i = childrenIn xs ps i ++ childrenIn ys qs i := by
  rw [childrenIn, List.zip_append h, List.filter_append, List.map_append, childrenIn, childrenIn]

theorem childrenIn_concat (h : xs.length = ps.length) (x : γ) (p : Option ℕ) :
    childrenIn (xs ++ [x]) (ps ++ [p]) i = childrenIn xs ps i ++ if p = some i then [x] else [] := by
  rw [childrenIn_append h, childrenIn_cons, childrenIn_nil, List.append_nil]

theorem childrenIn_of_notMem (h : some i ∉ ps) : childrenIn xs ps i = [] := by
  rw [childrenIn, List.map_eq_nil_iff, List.filter_eq_nil_iff]
  rintro ⟨x, p⟩ hmem
  have hp := (List.of_mem_zip hmem).2
  simpa using fun heq : p = some i => h (heq ▸ hp)

/-- Behind a longer part of a word there are the same children and perhaps more. -/
theorem childrenIn_mono (h : xs.length = ps.length) (hxs : xs <+: ys) (hps : ps <+: qs) :
    childrenIn xs ps i <+: childrenIn ys qs i := by
  obtain ⟨xs', rfl⟩ := hxs
  obtain ⟨ps', rfl⟩ := hps
  rw [childrenIn_append h]
  exact List.prefix_append _ _

/-- Entries that are related opening by opening are so child by child. -/
theorem childrenIn_forall₂ {δ : Type*} {R : γ → δ → Prop} {ys : List δ} (h : List.Forall₂ R xs ys) :
    List.Forall₂ R (childrenIn xs ps i) (childrenIn ys ps i) := by
  induction h generalizing ps with
  | nil => simp
  | cons hxy _ ih =>
    cases ps with
    | nil => simp [childrenIn]
    | cons p ps =>
      rw [childrenIn_cons, childrenIn_cons]
      split
      · exact .cons hxy ih
      · exact ih

/-- No number encloses openings before it is opened. -/
theorem Coherent.childrenIn_new {s : State β} (h : Coherent s) (xs : List γ) :
    childrenIn xs s.parents s.parents.length = [] := by
  refine childrenIn_of_notMem fun hmem => ?_
  obtain ⟨j, hj⟩ := List.mem_iff_getElem?.mp hmem
  have hlt := (List.getElem?_eq_some_iff.mp hj).1
  have hback := h.parents j _ hj
  omega

end Children

section Items

variable {items items' : List (ℕ × β)} {i k : ℕ}

theorem itemsIn_concat (items : List (ℕ × β)) (k : ℕ) (b : β) (i : ℕ) :
    itemsIn (items ++ [(k, b)]) i = itemsIn items i ++ if k = i then [b] else [] := by
  by_cases h : k = i <;> simp [itemsIn, h]

theorem itemsIn_append_self (items : List (ℕ × β)) (bs : List β) (i : ℕ) :
    itemsIn (items ++ bs.map fun b => (i, b)) i = itemsIn items i ++ bs := by
  rw [itemsIn, List.filter_append, List.map_append, itemsIn]
  congr 1
  induction bs with
  | nil => rfl
  | cons b bs ih => simpa using ih

theorem itemsIn_mono (h : items <+: items') : itemsIn items i <+: itemsIn items' i := by
  obtain ⟨extra, rfl⟩ := h
  rw [itemsIn, itemsIn, List.filter_append, List.map_append]
  exact List.prefix_append _ _

theorem itemsIn_map (f : β → γ) (items : List (ℕ × β)) (i : ℕ) :
    itemsIn (items.map fun it => (it.1, f it.2)) i = (itemsIn items i).map f := by
  rw [itemsIn, itemsIn, List.filter_map, List.map_map, List.map_map]
  rfl

theorem Coherent.itemsIn_new {s : State β} (h : Coherent s) :
    itemsIn s.items s.parents.length = [] := by
  rw [itemsIn, List.map_eq_nil_iff, List.filter_eq_nil_iff]
  intro it hit
  have hlt := h.items it hit
  simp only [decide_eq_true_eq]
  omega

end Items

section Trees

mutual

/-- A tree inside an open number is one child more of that number, and changes the children of
no earlier one. -/
theorem childrenIn_events (tree : RoseTree α β) {s t : State β} {k i : ℕ} {outer : List ℕ}
    {xs : List α} (ho : s.opened = k :: outer)
    (hlen : xs.length = s.parents.length) (hi : i < s.parents.length)
    (h : run isRoot s tree.events = some t) :
    childrenIn (xs ++ openings tree.events) t.parents i =
        childrenIn xs s.parents i ++ (if i = k then [tree.label] else []) ∧
      t.opened = s.opened := by
  match tree with
  | .node a bs ts =>
    rw [RoseTree.events, run_cons] at h
    obtain ⟨u, hu, h⟩ := Option.bind_eq_some_iff.mp h
    obtain ⟨-, -, rfl⟩ := step_opening hu
    rw [List.append_assoc, run_append, run_items (open_opened s), Option.bind_some, run_append] at h
    obtain ⟨u, hu, h⟩ := Option.bind_eq_some_iff.mp h
    have hlen' : (xs ++ [a]).length = s.open.parents.length := by simp [hlen]
    have hi' : i < s.open.parents.length := by
      rw [open_parents, List.length_append]
      omega
    obtain ⟨hchildren, hopened⟩ := childrenIn_eventsList ts
      (s := { s.open with items := s.open.items ++ bs.map fun b => (s.parents.length, b) })
      (open_opened s) hlen' hi' hu
    have hclose : run isRoot u [.closing] = some { u with opened := s.opened } := by
      simp [step, hopened]
    rw [hclose] at h
    cases h
    have hne : i ≠ s.parents.length := Nat.ne_of_lt hi
    have hlabels : openings (RoseTree.node a bs ts).events =
        [a] ++ openings (RoseTree.eventsList ts) := by
      simp [RoseTree.events, openings]
    refine ⟨?_, rfl⟩
    rw [hlabels, ← List.append_assoc]
    rw [if_neg hne, List.append_nil] at hchildren
    rw [hchildren, open_parents, childrenIn_concat hlen, ho, List.head?_cons]
    simp only [Option.some.injEq, eq_comm, RoseTree.label]

theorem childrenIn_eventsList (ts : List (RoseTree α β)) {s t : State β} {k i : ℕ} {outer : List ℕ}
    {xs : List α} (ho : s.opened = k :: outer)
    (hlen : xs.length = s.parents.length) (hi : i < s.parents.length)
    (h : run isRoot s (RoseTree.eventsList ts) = some t) :
    childrenIn (xs ++ openings (RoseTree.eventsList ts)) t.parents i =
        childrenIn xs s.parents i ++ (if i = k then ts.map RoseTree.label else []) ∧
      t.opened = s.opened := by
  match ts with
  | [] =>
    cases h
    simp [RoseTree.eventsList, openings]
  | tree :: ts =>
    rw [RoseTree.eventsList, run_append] at h
    obtain ⟨u, hu, h⟩ := Option.bind_eq_some_iff.mp h
    obtain ⟨hfirst, hopened⟩ := childrenIn_events tree ho hlen hi hu
    have hparents := run_parents_length hu
    have hlen' : (xs ++ openings tree.events).length = u.parents.length := by
      rw [List.length_append, hlen, hparents]
    have hi' : i < u.parents.length := by omega
    obtain ⟨hrest, hopened'⟩ := childrenIn_eventsList ts (hopened.trans ho) hlen' hi' h
    refine ⟨?_, hopened'.trans hopened⟩
    rw [RoseTree.eventsList, openings_append, ← List.append_assoc, hrest, hfirst, List.append_assoc]
    split <;> simp

end

def RoseTree.front (a : α) (bs : List β) (ts : List (RoseTree α β)) : List (Event α β) :=
  .opening a :: (bs.map .item ++ RoseTree.eventsList ts)

theorem run_front {a : α} {bs : List β} {ts : List (RoseTree α β)} {t : State β}
    (h : run isRoot .initial (RoseTree.front a bs ts) = some t) :
    t.opened = [0] ∧
      childrenIn (openings (RoseTree.front a bs ts)) t.parents 0 = ts.map RoseTree.label := by
  rw [RoseTree.front, run_cons] at h
  obtain ⟨u, hu, h⟩ := Option.bind_eq_some_iff.mp h
  obtain ⟨-, -, rfl⟩ := step_opening hu
  have hroot : (State.initial : State β).open.opened = [0] := rfl
  rw [run_append, run_items hroot, Option.bind_some] at h
  have hone : [a].length = ([none] : List (Option ℕ)).length := rfl
  obtain ⟨hchildren, hopened⟩ := childrenIn_eventsList ts
    (s := ⟨[0], [none], bs.map fun b => (0, b)⟩) rfl hone Nat.one_pos h
  refine ⟨hopened, ?_⟩
  rw [RoseTree.front, openings, openings_append, openings_items, List.nil_append]
  rw [List.singleton_append, if_pos rfl] at hchildren
  rw [hchildren]
  simp [childrenIn]

end Trees

end SysRv.Nesting
