import Mathlib.Data.List.Basic

/-!
# Nesting of opening and closing events

A word of opening and closing events with items in between, read with a stack. Openings are
numbered in order; the state keeps the stack of open numbers, the number that enclosed each
opening, and for each item the innermost number open at it. A word that is read from the
empty state to an empty stack is one rooted tree: the serialisation of a rose tree is read
back to the stack it was started with.
-/

namespace SysRv.Nesting

universe u v

/-- An opening carries a label, an item its payload. -/
inductive Event (α : Type u) (β : Type v) where
  | opening (label : α)
  | closing
  | item (payload : β)
  deriving DecidableEq, Repr

/-- `opened` is the stack of open numbers, innermost first. -/
structure State (β : Type v) where
  opened : List ℕ
  parents : List (Option ℕ)
  items : List (ℕ × β)
  deriving DecidableEq, Repr

def State.initial {β : Type v} : State β := ⟨[], [], []⟩

variable {α : Type u} {β : Type v} (isRoot : α → Bool)

def State.open (s : State β) : State β :=
  { s with
    opened := s.parents.length :: s.opened
    parents := s.parents ++ [s.opened.head?] }

section Open

variable (s : State β)

@[simp] theorem open_opened : s.open.opened = s.parents.length :: s.opened := rfl
@[simp] theorem open_parents : s.open.parents = s.parents ++ [s.opened.head?] := rfl
@[simp] theorem open_items : s.open.items = s.items := rfl

end Open

/-- The root comes first and is opened once; everything else is inside it. Root labels and
no others are used for the root. -/
def step (s : State β) : Event α β → Option (State β)
  | .opening label =>
    if isRoot label = s.opened.isEmpty ∧ (s.opened = [] → s.parents = []) then
      some s.open
    else none
  | .closing =>
    match s.opened with
    | [] => none
    | _ :: outer => some { s with opened := outer }
  | .item payload =>
    match s.opened with
    | [] => none
    | i :: _ => some { s with items := s.items ++ [(i, payload)] }

def run : State β → List (Event α β) → Option (State β)
  | s, [] => some s
  | s, e :: es => (step isRoot s e).bind fun t => run t es

variable {isRoot}

@[simp] theorem run_nil (s : State β) : run isRoot s [] = some s := rfl

@[simp] theorem run_cons (s : State β) (e : Event α β) (es : List (Event α β)) :
    run isRoot s (e :: es) = (step isRoot s e).bind fun t => run isRoot t es := rfl

theorem run_append (s : State β) (es fs : List (Event α β)) :
    run isRoot s (es ++ fs) = (run isRoot s es).bind fun t => run isRoot t fs := by
  induction es generalizing s with
  | nil => rfl
  | cons e es ih =>
    cases h : step isRoot s e with
    | none => simp [h]
    | some t => simp [h, ih]

/-- Every prefix of a word that is read is read. -/
theorem run_of_append {s u : State β} {es fs : List (Event α β)}
    (h : run isRoot s (es ++ fs) = some u) :
    ∃ t, run isRoot s es = some t ∧ run isRoot t fs = some u := by
  rw [run_append] at h
  exact Option.bind_eq_some_iff.mp h

theorem step_opening {s t : State β} {label : α} (h : step isRoot s (.opening label) = some t) :
    isRoot label = s.opened.isEmpty ∧ (s.opened = [] → s.parents = []) ∧ t = s.open := by
  simp only [step] at h
  split at h
  · rename_i hguard
    exact ⟨hguard.1, hguard.2, (Option.some.inj h).symm⟩
  · cases h

theorem step_closing {s t : State β} (h : step isRoot s .closing = some t) :
    ∃ i outer, s.opened = i :: outer ∧ t = { s with opened := outer } := by
  cases ho : s.opened with
  | nil => simp [step, ho] at h
  | cons i outer => exact ⟨i, outer, rfl, by simpa [step, ho] using h.symm⟩

theorem step_item {s t : State β} {payload : β} (h : step isRoot s (.item payload) = some t) :
    ∃ i outer, s.opened = i :: outer ∧ t = { s with items := s.items ++ [(i, payload)] } := by
  cases ho : s.opened with
  | nil => simp [step, ho] at h
  | cons i outer => exact ⟨i, outer, rfl, by simpa [step, ho] using h.symm⟩

theorem step_cases {s t : State β} {e : Event α β} (h : step isRoot s e = some t) :
    (∃ label, e = .opening label ∧ isRoot label = s.opened.isEmpty ∧
      (s.opened = [] → s.parents = []) ∧ t = s.open) ∨
    (∃ i outer, e = .closing ∧ s.opened = i :: outer ∧ t = { s with opened := outer }) ∨
    (∃ i outer payload, e = .item payload ∧ s.opened = i :: outer ∧
      t = { s with items := s.items ++ [(i, payload)] }) := by
  cases e with
  | opening label => exact .inl ⟨label, rfl, step_opening h⟩
  | closing =>
    obtain ⟨i, outer, ho, rfl⟩ := step_closing h
    exact .inr (.inl ⟨i, outer, rfl, ho, rfl⟩)
  | item payload =>
    obtain ⟨i, outer, ho, rfl⟩ := step_item h
    exact .inr (.inr ⟨i, outer, payload, rfl, ho, rfl⟩)

section Map

universe w

variable {γ : Type w} (f : β → γ)

def Event.map : Event α β → Event α γ
  | .opening label => .opening label
  | .closing => .closing
  | .item payload => .item (f payload)

def State.map (s : State β) : State γ :=
  ⟨s.opened, s.parents, s.items.map fun it => (it.1, f it.2)⟩

/-- Payloads that are dropped may be changed before. -/
theorem map_erased (es : List (Event α β)) :
    (es.map (Event.map f)).map (Event.map fun _ => ()) = es.map (Event.map fun _ => ()) := by
  rw [List.map_map]
  exact List.map_congr_left fun e _ => by cases e <;> rfl

theorem step_map (s : State β) (e : Event α β) :
    step isRoot (s.map f) (e.map f) = (step isRoot s e).map (State.map f) := by
  cases e with
  | opening label =>
    by_cases h : isRoot label = s.opened.isEmpty ∧ (s.opened = [] → s.parents = [])
    · simp [step, Event.map, State.map, h, State.open]
    · simp [step, Event.map, State.map, h]
  | closing => cases ho : s.opened <;> simp [step, Event.map, State.map, ho]
  | item payload => cases ho : s.opened <;> simp [step, Event.map, State.map, ho]

/-- A word is read in the same way whatever its payloads are. -/
theorem run_map (s : State β) (es : List (Event α β)) :
    run isRoot (s.map f) (es.map (Event.map f)) = (run isRoot s es).map (State.map f) := by
  induction es generalizing s with
  | nil => rfl
  | cons e es ih =>
    rw [List.map_cons, run_cons, run_cons, step_map]
    cases h : step isRoot s e with
    | none => rfl
    | some t => simp [ih]

end Map

/-- Each open number is enclosed by the next one on the stack, the outermost by none. -/
def Chained (parents : List (Option ℕ)) : List ℕ → Prop
  | [] => True
  | i :: outer => parents[i]? = some outer.head? ∧ Chained parents outer

theorem Chained.append {parents : List (Option ℕ)} {opened : List ℕ} (h : Chained parents opened)
    (p : Option ℕ) : Chained (parents ++ [p]) opened := by
  induction opened with
  | nil => trivial
  | cons i outer ih =>
    obtain ⟨hi, houter⟩ := h
    have hlt := (List.getElem?_eq_some_iff.mp hi).1
    exact ⟨by rwa [List.getElem?_append_left hlt], ih houter⟩

theorem chained_step {s t : State β} {e : Event α β} (h : step isRoot s e = some t)
    (hs : Chained s.parents s.opened) : Chained t.parents t.opened := by
  rcases step_cases h with ⟨label, -, -, -, rfl⟩ | ⟨i, outer, -, ho, rfl⟩ |
    ⟨i, outer, payload, -, ho, rfl⟩
  · exact ⟨by simp, hs.append _⟩
  · rw [ho] at hs
    exact hs.2
  · exact hs

/-- Numbers refer back: each opening is enclosed by an earlier one, and the items belong to
openings that have been read. -/
structure Coherent (s : State β) : Prop where
  chained : Chained s.parents s.opened
  parents : ∀ i j : ℕ, s.parents[i]? = some (some j) → j < i
  items : ∀ it ∈ s.items, it.1 < s.parents.length

theorem coherent_initial : Coherent (State.initial : State β) :=
  ⟨trivial, by simp [State.initial], by simp [State.initial]⟩

theorem Coherent.head_lt {s : State β} (h : Coherent s) {i : ℕ} (hi : s.opened.head? = some i) :
    i < s.parents.length := by
  cases ho : s.opened with
  | nil => simp [ho] at hi
  | cons j outer =>
    have hc := h.chained
    rw [ho] at hc hi
    rw [← Option.some.inj hi]
    exact (List.getElem?_eq_some_iff.mp hc.1).1

theorem coherent_step {s t : State β} {e : Event α β} (h : step isRoot s e = some t)
    (hs : Coherent s) : Coherent t := by
  refine ⟨chained_step h hs.chained, ?_, ?_⟩
  all_goals rcases step_cases h with ⟨label, -, -, -, rfl⟩ | ⟨i, outer, -, ho, rfl⟩ |
    ⟨i, outer, payload, -, ho, rfl⟩
  · intro i j hij
    rcases Nat.lt_trichotomy i s.parents.length with hlt | rfl | hgt
    · exact hs.parents i j (by simpa [List.getElem?_append_left hlt] using hij)
    · exact hs.head_lt (by simpa using hij)
    · have hlt := (List.getElem?_eq_some_iff.mp hij).1
      rw [open_parents, List.length_append, List.length_singleton] at hlt
      omega
  · exact hs.parents
  · exact hs.parents
  · exact fun it hit => Nat.lt_of_lt_of_le (hs.items it hit) (by simp)
  · exact hs.items
  · intro it hit
    rcases List.mem_append.mp hit with hit | hit
    · exact hs.items it hit
    · rw [List.mem_singleton.mp hit]
      exact hs.head_lt (by simp [ho])

theorem coherent_run {s t : State β} {es : List (Event α β)} (h : run isRoot s es = some t)
    (hs : Coherent s) : Coherent t := by
  induction es generalizing s with
  | nil =>
    cases h
    exact hs
  | cons e es ih =>
    obtain ⟨u, hu, hrun⟩ := Option.bind_eq_some_iff.mp h
    exact ih hrun (coherent_step hu hs)

/-- Openings and items that have been read stay. -/
theorem run_extends {s t : State β} {es : List (Event α β)} (h : run isRoot s es = some t) :
    s.parents <+: t.parents ∧ s.items <+: t.items := by
  induction es generalizing s with
  | nil =>
    cases h
    exact ⟨List.prefix_refl _, List.prefix_refl _⟩
  | cons e es ih =>
    obtain ⟨u, hu, hrun⟩ := Option.bind_eq_some_iff.mp h
    obtain ⟨hparents, hitems⟩ := ih hrun
    rcases step_cases hu with ⟨label, -, -, -, rfl⟩ | ⟨i, outer, -, -, rfl⟩ |
      ⟨i, outer, payload, -, -, rfl⟩
    · exact ⟨(List.prefix_append _ _).trans hparents, hitems⟩
    · exact ⟨hparents, hitems⟩
    · exact ⟨hparents, (List.prefix_append _ _).trans hitems⟩

/-- A tree with a label, a list of items and a list of children at every node. -/
inductive RoseTree (α : Type u) (β : Type v) where
  | node (label : α) (items : List β) (children : List (RoseTree α β))

namespace RoseTree

def label : RoseTree α β → α
  | .node a _ _ => a

def items : RoseTree α β → List β
  | .node _ bs _ => bs

def children : RoseTree α β → List (RoseTree α β)
  | .node _ _ ts => ts

mutual

/-- The serialisation of a tree: its items first, then its children. -/
def events : RoseTree α β → List (Event α β)
  | .node a bs ts => .opening a :: (bs.map .item ++ eventsList ts ++ [.closing])

def eventsList : List (RoseTree α β) → List (Event α β)
  | [] => []
  | t :: ts => t.events ++ eventsList ts

end

mutual

/-- No label below the root is a root label. -/
def Inner (isRoot : α → Bool) : RoseTree α β → Prop
  | .node a _ ts => isRoot a = false ∧ InnerList isRoot ts

def InnerList (isRoot : α → Bool) : List (RoseTree α β) → Prop
  | [] => True
  | t :: ts => Inner isRoot t ∧ InnerList isRoot ts

end

mutual

/-- A property of every node, which may depend on its label, its items and how many children
it has. -/
def Every (P : α → List β → ℕ → Prop) : RoseTree α β → Prop
  | .node a bs ts => P a bs ts.length ∧ EveryList P ts

def EveryList (P : α → List β → ℕ → Prop) : List (RoseTree α β) → Prop
  | [] => True
  | t :: ts => Every P t ∧ EveryList P ts

end

theorem EveryList.mem {P : α → List β → ℕ → Prop} {ts : List (RoseTree α β)} {t : RoseTree α β}
    (h : EveryList P ts) (ht : t ∈ ts) : t.Every P := by
  induction ts with
  | nil => simp at ht
  | cons u ts ih =>
    rcases List.mem_cons.mp ht with rfl | ht
    · exact h.1
    · exact ih h.2 ht

end RoseTree

theorem run_items {s : State β} {i : ℕ} {outer : List ℕ} (ho : s.opened = i :: outer) (bs : List β) :
    run isRoot s (bs.map .item) = some { s with items := s.items ++ bs.map fun b => (i, b) } := by
  induction bs generalizing s with
  | nil => simp
  | cons b bs ih =>
    have hstep : step isRoot s (.item b) = some { s with items := s.items ++ [(i, b)] } := by
      simp [step, ho]
    rw [List.map_cons, run_cons, hstep, Option.bind_some,
      ih (s := { s with items := s.items ++ [(i, b)] }) ho]
    simp

mutual

/-- Inside an open node, a tree is read back to the stack it was started with. -/
theorem run_events_inner (t : RoseTree α β) {s : State β} (hopen : s.opened ≠ [])
    (hinner : t.Inner isRoot) :
    ∃ u, run isRoot s t.events = some u ∧ u.opened = s.opened := by
  match t with
  | .node a bs ts =>
    obtain ⟨ha, hts⟩ := hinner
    have hstep : step isRoot s (.opening a) = some s.open := by
      simp [step, ha, hopen]
    obtain ⟨u, hu, huo⟩ := run_eventsList_inner ts
      (s := ⟨s.open.opened, s.open.parents,
        s.open.items ++ bs.map fun b => (s.parents.length, b)⟩)
      (List.cons_ne_nil _ _) hts
    refine ⟨{ u with opened := s.opened }, ?_, rfl⟩
    rw [RoseTree.events, run_cons, hstep, Option.bind_some, List.append_assoc, run_append,
      run_items rfl, Option.bind_some, run_append, hu, Option.bind_some]
    simp [step, huo]

theorem run_eventsList_inner (ts : List (RoseTree α β)) {s : State β} (hopen : s.opened ≠ [])
    (hinner : RoseTree.InnerList isRoot ts) :
    ∃ u, run isRoot s (RoseTree.eventsList ts) = some u ∧ u.opened = s.opened := by
  match ts with
  | [] => exact ⟨s, rfl, rfl⟩
  | t :: ts =>
    obtain ⟨u, hu, huo⟩ := run_events_inner t hopen hinner.1
    obtain ⟨w, hw, hwo⟩ := run_eventsList_inner ts (s := u) (huo ▸ hopen) hinner.2
    exact ⟨w, by rw [RoseTree.eventsList, run_append, hu, Option.bind_some, hw], hwo.trans huo⟩

end

/-- A tree with a root label at its root and nowhere else is read from the empty state to an
empty stack. -/
theorem run_events_root {a : α} {bs : List β} {ts : List (RoseTree α β)} (ha : isRoot a = true)
    (hts : RoseTree.InnerList isRoot ts) :
    ∃ u, run isRoot .initial (RoseTree.node a bs ts).events = some u ∧ u.opened = [] ∧
      u.parents ≠ [] := by
  have hstep : step isRoot (.initial : State β) (.opening a) = some ⟨[0], [none], []⟩ := by
    simp [step, ha, State.initial, State.open]
  obtain ⟨u, hu, huo⟩ := run_eventsList_inner ts (s := ⟨[0], [none], bs.map fun b => (0, b)⟩)
    (List.cons_ne_nil _ _) hts
  refine ⟨{ u with opened := [] }, ?_, rfl, fun hnil => ?_⟩
  · rw [RoseTree.events, run_cons, hstep, Option.bind_some, List.append_assoc, run_append,
      run_items rfl, Option.bind_some, run_append, List.nil_append, hu, Option.bind_some]
    simp [step, huo]
  · have hle := (run_extends hu).1.length_le
    simp only [List.length_singleton] at hle
    simp only at hnil
    simp [hnil] at hle

end SysRv.Nesting
