import Mathlib.Data.List.Forall2
import SysRv.FdtSpec

/-!
# Insertions and their answers

Both insertions put a pointer into the first free slot of a table, or answer that there is
none.
-/

namespace SysRv.Fdt

open ByteMemory KString Kalloc

namespace SlotTable

variable {n : ℕ} {t t' : SlotTable n} {p q : Addr}

def insert (t : SlotTable n) (p : Addr) : Option (SlotTable n) := t.firstFree.map fun i => t.set i p

def free (t : SlotTable n) : ℕ := t.slots.count NULL

theorem insert_eq_some (h : t.insert p = some t') :
    ∃ i, ∃ hi : i < t.slots.length, t.slots[i] = NULL ∧ t'.slots = t.slots.set i p := by
  obtain ⟨i, hi, rfl⟩ := Option.map_eq_some_iff.mp h
  obtain ⟨hlt, hnull, -⟩ := List.findIdx?_eq_some_iff_getElem.mp hi
  exact ⟨i, hlt, by simpa using hnull, rfl⟩

/-- A refused pointer leaves no doubt: the table is full. -/
theorem insert_eq_none (h : t.insert p = none) : t.free = 0 := by
  rw [insert, Option.map_eq_none_iff, firstFree, List.findIdx?_eq_none_iff] at h
  exact List.count_eq_zero.mpr fun hmem => by simpa using h NULL hmem

theorem free_insert (h : t.insert p = some t') (hp : p ≠ NULL) : t.free = t'.free + 1 := by
  obtain ⟨i, hi, hnull, hset⟩ := insert_eq_some h
  have hpos : 0 < t.slots.count NULL :=
    List.count_pos_iff.mpr (hnull ▸ List.getElem_mem hi)
  rw [free, free, hset, List.count_set hi]
  simp only [hnull, beq_self_eq_true, if_true, beq_iff_eq, hp, if_false]
  omega

theorem mem_insert (h : t.insert p = some t') : p ∈ t'.slots := by
  obtain ⟨i, hi, -, hset⟩ := insert_eq_some h
  rw [hset]
  exact List.mem_set hi p

theorem mem_insert_of_mem (h : t.insert p = some t') (hq : q ≠ NULL) (hmem : q ∈ t.slots) :
    q ∈ t'.slots := by
  obtain ⟨i, hi, hnull, hset⟩ := insert_eq_some h
  obtain ⟨j, hj, hjq⟩ := List.mem_iff_getElem.mp hmem
  have hne : i ≠ j := by
    rintro rfl
    exact hq (hjq.symm.trans hnull)
  rw [hset]
  exact List.mem_iff_getElem.mpr ⟨j, by simpa using hj, by rw [List.getElem_set_ne hne, hjq]⟩

theorem slot_insert (h : t.insert p = some t') {i : ℕ} (hi : t.slot i ≠ NULL) :
    t'.slot i = t.slot i := by
  obtain ⟨j, hj, rfl⟩ := Option.map_eq_some_iff.mp h
  exact set_firstFree_slot hj p hi

/-- The table holds these pointers, with free slots behind them. -/
structure Lists (t : SlotTable n) (entries : List Addr) : Prop where
  slots : t.slots = entries ++ List.replicate (n - entries.length) NULL
  taken : ∀ p ∈ entries, p ≠ NULL

variable {entries : List Addr}

theorem lists_empty : (SlotTable.empty n).Lists [] := ⟨rfl, by simp⟩

theorem Lists.length_le (h : t.Lists entries) : entries.length ≤ n := by
  have hsize := t.size
  rw [h.slots, List.length_append, List.length_replicate] at hsize
  omega

theorem Lists.firstFree (h : t.Lists entries) :
    t.firstFree = if entries.length < n then some entries.length else none := by
  have hnone : entries.findIdx? (fun p => p = NULL) = none := by
    rw [List.findIdx?_eq_none_iff]
    exact fun p hp => by simpa using h.taken p hp
  rw [SlotTable.firstFree, h.slots, List.findIdx?_append, hnone, Option.none_or]
  by_cases hlt : entries.length < n
  · obtain ⟨k, hk⟩ : ∃ k, n - entries.length = k + 1 := ⟨n - entries.length - 1, by omega⟩
    simp [hk, List.replicate_succ, List.findIdx?_cons, hlt]
  · have hzero : n - entries.length = 0 := by omega
    simp [hzero, hlt]

theorem Lists.insert (h : t.Lists entries) (hp : p ≠ NULL) (hi : t.insert p = some t') :
    entries.length < n ∧ t'.Lists (entries ++ [p]) := by
  rw [SlotTable.insert, h.firstFree] at hi
  by_cases hlt : entries.length < n
  · rw [if_pos hlt, Option.map_some, Option.some.injEq] at hi
    obtain ⟨k, hk⟩ : ∃ k, n - entries.length = k + 1 := ⟨n - entries.length - 1, by omega⟩
    have hrest : n - (entries ++ [p]).length = k := by
      rw [List.length_append, List.length_singleton]
      omega
    refine ⟨hlt, ?_, fun q hq => ?_⟩
    · have hset : t'.slots = t.slots.set entries.length p := hi ▸ rfl
      rw [hset, h.slots, hrest, hk, List.replicate_succ,
        List.set_append_right _ _ (Nat.le_refl _), Nat.sub_self, List.set_cons_zero,
        List.append_assoc]
      rfl
    · rcases List.mem_append.mp hq with hq | hq
      · exact h.taken q hq
      · rwa [List.mem_singleton.mp hq]
  · rw [if_neg hlt] at hi
    cases hi

theorem Lists.length_of_refused (h : t.Lists entries) (hi : t.insert p = none) :
    entries.length = n := by
  rw [SlotTable.insert, h.firstFree, Option.map_eq_none_iff] at hi
  split at hi
  · cases hi
  · have hle := h.length_le
    omega

/-- The table holds pointers to the elements of a list, as many as it has slots. -/
def ListsBy {α : Type*} (R : Addr → α → Prop) (t : SlotTable n) (l : List α) : Prop :=
  ∃ entries, t.Lists entries ∧ List.Forall₂ R entries (l.take n)

section ListsBy

variable {α : Type*} {R R' : Addr → α → Prop} {l : List α} {a : α} {b : Bool}

theorem listsBy_empty : ListsBy R (SlotTable.empty n) [] := ⟨[], lists_empty, by simp⟩

theorem ListsBy.mono (h : ListsBy R t l) (hR : ∀ p a, R p a → R' p a) : ListsBy R' t l := by
  obtain ⟨entries, hlists, hall⟩ := h
  exact ⟨entries, hlists, hall.imp hR⟩

theorem listsBy_eq_iff {l : List Addr} : ListsBy (· = ·) t l ↔ t.Lists (l.take n) := by
  constructor
  · rintro ⟨entries, hlists, hall⟩
    rw [List.forall₂_eq_eq_eq] at hall
    exact hall ▸ hlists
  · exact fun h => ⟨_, h, by rw [List.forall₂_eq_eq_eq]⟩

/-- Whatever the answer of an insertion, the table goes on to hold what fits of the list. -/
theorem ListsBy.insert (h : ListsBy R t l) (hp : p ≠ NULL) (hR : b = true → R p a)
    (hi : t.insert p = if b then some t' else none) (hrefused : b = false → t' = t) :
    ListsBy R t' (l ++ [a]) := by
  obtain ⟨entries, hlists, hall⟩ := h
  have hlen := hall.length_eq
  rw [List.length_take] at hlen
  cases b with
  | true =>
    obtain ⟨hlt, hlists'⟩ := hlists.insert hp hi
    have htake : l.take n = l := List.take_of_length_le (by omega)
    have htake' : (l ++ [a]).take n = l ++ [a] := List.take_of_length_le (by simp; omega)
    rw [htake] at hall
    exact ⟨_, hlists', by rw [htake']; exact List.rel_append hall (.cons (hR rfl) .nil)⟩
  | false =>
    have hfull := hlists.length_of_refused hi
    rw [hrefused rfl]
    exact ⟨entries, hlists, by rwa [List.take_append_of_le_length (by omega)]⟩

end ListsBy

end SlotTable

variable {mem : Memory} {s s' : FdtState} {node child p : Addr} {b : Bool}

theorem eternalAlloc_eq_ok {size : BitVec 64} (h : eternalAlloc s size = .ok (p, s')) :
    p = s.heap.currKallocEternalAddress ∧ s' = { s with heap := { s.heap with
      currKallocEternalAddress := s.heap.currKallocEternalAddress + size } } := by
  rw [eternalAlloc] at h
  split at h
  · rename_i halloc
    obtain ⟨hp, hheap⟩ := srvKallocEternalAlloc_eq_ok halloc
    cases h
    exact ⟨hp, by rw [hheap]⟩
  · cases h

theorem fdtInsertChild_eq_ok (h : fdtInsertChild s node child = .ok (s', b)) :
    (b = true ∧ ∃ t, (s.nodes node).children.insert child = some t ∧
      s' = s.setNode node { s.nodes node with children := t }) ∨
    (b = false ∧ (s.nodes node).children.insert child = none ∧ s' = s) := by
  obtain ⟨-, -, h⟩ := bind_eq_ok.mp h
  split at h
  · rename_i i hi
    cases h
    exact .inl ⟨rfl, _, by rw [SlotTable.insert, hi, Option.map_some], rfl⟩
  · rename_i hi
    cases h
    exact .inr ⟨rfl, by rw [SlotTable.insert, hi, Option.map_none], rfl⟩

abbrev called (s : FdtState) (call : InsertPropertyCall) : FdtState :=
  { s with insertPropertyCalls := s.insertPropertyCalls ++ [call] }

theorem fdtInsertProperty_eq_ok {nameoff propLen : BitVec 32} {propertyPtr : Addr}
    (h : fdtInsertProperty mem s node nameoff propLen propertyPtr = .ok (s', b)) :
    (b = true ∧ ∃ t strings,
      (s.nodes node).properties.insert s.heap.currKallocEternalAddress = some t ∧
      fdtRead32 mem (s.fdtInfoBlock + offDtStringsField) = .ok strings ∧
      s' = { called s ⟨node, nameoff, propLen, propertyPtr⟩ with
        heap := { s.heap with
          currKallocEternalAddress := s.heap.currKallocEternalAddress + fdtNodePropertySize }
        nodes := Function.update s.nodes node { s.nodes node with properties := t }
        nodeProperties := Function.update s.nodeProperties s.heap.currKallocEternalAddress
          ⟨s.fdtInfoBlock + (strings + nameoff).setWidth 64, propertyPtr, propLen⟩ }) ∨
    (b = false ∧ (s.nodes node).properties.insert s.heap.currKallocEternalAddress = none ∧
      s' = called s ⟨node, nameoff, propLen, propertyPtr⟩) := by
  obtain ⟨-, -, h⟩ := bind_eq_ok.mp h
  split at h
  · rename_i i hi
    obtain ⟨⟨property, t⟩, halloc, h⟩ := bind_eq_ok.mp h
    obtain ⟨rfl, rfl⟩ := eternalAlloc_eq_ok halloc
    obtain ⟨strings, hstrings, h⟩ := bind_eq_ok.mp h
    obtain ⟨-, -, h⟩ := bind_eq_ok.mp h
    cases h
    exact .inl ⟨rfl, _, strings, by rw [SlotTable.insert, hi, Option.map_some], hstrings, rfl⟩
  · rename_i hi
    cases h
    exact .inr ⟨rfl, by rw [SlotTable.insert, hi, Option.map_none], rfl⟩

end SysRv.Fdt
