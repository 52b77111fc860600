import SysRv.KString

/-!
# The order of `strcmp`

`strcmp` orders strings as dictionaries do, by the unsigned values of their bytes. The loop tests
the first string only for its NUL; at the end of the second it stops because the bytes differ.
-/

namespace SysRv.KString

open ByteMemory

theorem difference_swap (text1 text2 : List Byte) :
    difference text2 text1 = -difference text1 text2 := by
  induction text1 generalizing text2 with
  | nil =>
    cases text2 with
    | nil => rfl
    | cons b text2 => simp [difference]
  | cons a text1 ih =>
    cases text2 with
    | nil => rfl
    | cons b text2 =>
      by_cases hab : a = b
      · simp [difference, hab, ih]
      · have hba : b ≠ a := fun h => hab h.symm
        simp [difference, hab, hba]

/-- A difference is negative where the first text comes first. Without the NUL behind it, the
shorter text would not come first. -/
theorem difference_neg_iff {text1 text2 : List Byte} (h2 : ∀ b ∈ text2, b ≠ 0#8) :
    difference text1 text2 < 0 ↔ text1 < text2 := by
  induction text1 generalizing text2 with
  | nil =>
    cases text2 with
    | nil => simp [difference]
    | cons b text2 =>
      have hb := toNat_ne_zero (h2 b (List.mem_cons_self ..))
      refine iff_of_true ?_ (List.nil_lt_cons b text2)
      rw [difference]
      omega
  | cons a text1 ih =>
    cases text2 with
    | nil =>
      refine iff_of_false ?_ (List.not_lt_nil _)
      rw [difference]
      omega
    | cons b text2 =>
      rw [List.cons_lt_cons_iff, difference]
      by_cases hab : a = b
      · rw [if_pos hab, ih fun c hc => h2 c (List.mem_cons_of_mem _ hc)]
        simp [hab]
      · rw [if_neg hab, BitVec.lt_def]
        simp only [hab, false_and, or_false]
        omega

theorem difference_pos_iff {text1 text2 : List Byte} (h1 : ∀ b ∈ text1, b ≠ 0#8) :
    0 < difference text1 text2 ↔ text2 < text1 := by
  rw [← difference_neg_iff h1, difference_swap text1 text2]
  omega

theorem difference_nonpos_iff {text1 text2 : List Byte} (h1 : ∀ b ∈ text1, b ≠ 0#8) :
    difference text1 text2 ≤ 0 ↔ text1 ≤ text2 := by
  rw [← not_lt, difference_pos_iff h1]
  rfl

theorem difference_nonpos_trans {text1 text2 text3 : List Byte} (h1 : ∀ b ∈ text1, b ≠ 0#8)
    (h2 : ∀ b ∈ text2, b ≠ 0#8) (h12 : difference text1 text2 ≤ 0)
    (h23 : difference text2 text3 ≤ 0) : difference text1 text3 ≤ 0 := by
  rw [difference_nonpos_iff h1] at h12 ⊢
  rw [difference_nonpos_iff h2] at h23
  exact List.le_trans h12 h23

/-- The indices of the rounds of the loop. A round reads both strings at its index. -/
def strcmpLoopReads (mem : Memory) (s1 s2 : Addr) : ℕ → BitVec 64 → List (BitVec 64)
  | 0, _ => []
  | n + 1, index => index ::
    match readByte mem (s1 + index), readByte mem (s2 + index) with
    | .ok s1Char, .ok s2Char =>
      if s1Char ≠ 0#8 ∧ s1Char = s2Char then strcmpLoopReads mem s1 s2 n (index + 1#64) else []
    | _, _ => []

def strcmpReads (mem : Memory) (s1 s2 : Addr) : List (BitVec 64) :=
  strcmpLoopReads mem s1 s2 (2 ^ 64) 0#64

theorem strcmpLoop_eq_of_reads {mem mem' : Memory} {s1 s2 : Addr} {n : ℕ} {index : BitVec 64}
    (h : ∀ i ∈ strcmpLoopReads mem s1 s2 n index,
      mem' (s1 + i) = mem (s1 + i) ∧ mem' (s2 + i) = mem (s2 + i)) :
    strcmpLoop mem' s1 s2 n index = strcmpLoop mem s1 s2 n index := by
  induction n generalizing index with
  | zero => rfl
  | succ n ih =>
    obtain ⟨hfirst, hrest⟩ := List.forall_mem_cons.mp h
    have h1 : readByte mem' (s1 + index) = readByte mem (s1 + index) := by
      rw [readByte, readByte, hfirst.1]
    have h2 : readByte mem' (s2 + index) = readByte mem (s2 + index) := by
      rw [readByte, readByte, hfirst.2]
    rw [strcmpLoop, strcmpLoop, h1, h2]
    cases hs1 : readByte mem (s1 + index) with
    | error fault => rfl
    | ok s1Char =>
      cases hs2 : readByte mem (s2 + index) with
      | error fault => rfl
      | ok s2Char =>
        simp only [bind, Except.bind]
        split
        · rw [hs1, hs2] at hrest
          simp only [if_pos ‹_›] at hrest
          exact ih hrest
        · rfl

theorem strcmp_eq_of_reads {mem mem' : Memory} {s1 s2 : Addr}
    (h : ∀ i ∈ strcmpReads mem s1 s2, mem' (s1 + i) = mem (s1 + i) ∧ mem' (s2 + i) = mem (s2 + i)) :
    strcmp mem' s1 s2 = strcmp mem s1 s2 := strcmpLoop_eq_of_reads h

/-- The loop stops at the end of the shorter string: at the NUL of the first because it is one, at
the NUL of the second because the first has another byte there. -/
theorem strcmpLoopReads_le {mem : Memory} {s1 s2 : Addr} {text1 text2 : List Byte} {n : ℕ}
    {index i : BitVec 64} (h1 : IsString mem (s1 + index) text1)
    (h2 : IsString mem (s2 + index) text2) (hi : i ∈ strcmpLoopReads mem s1 s2 n index) :
    ∃ k, i = index + BitVec.ofNat 64 k ∧ k ≤ text1.length ∧ k ≤ text2.length := by
  induction n generalizing index text1 text2 with
  | zero => simp [strcmpLoopReads] at hi
  | succ n ih =>
    rw [strcmpLoopReads, List.mem_cons] at hi
    rcases hi with rfl | hi
    · exact ⟨0, by simp, Nat.zero_le _, Nat.zero_le _⟩
    cases text1 with
    | nil =>
      have hbyte := h2.byte (Nat.zero_le text2.length)
      rw [BitVec.add_zero] at hbyte
      simp [readByte, h1.nil_byte, hbyte] at hi
    | cons a text1 =>
      cases text2 with
      | nil =>
        obtain ⟨ha, hne⟩ := h1.head
        simp [readByte, ha, h2.nil_byte, hne] at hi
      | cons b text2 =>
        simp only [readByte, h1.head.1, h2.head.1] at hi
        split at hi
        · obtain ⟨k, rfl, hk1, hk2⟩ := ih h1.tail h2.tail hi
          exact ⟨k + 1, (add_ofNat_succ index k).symm, Nat.succ_le_succ hk1, Nat.succ_le_succ hk2⟩
        · simp at hi

theorem strcmpReads_le {mem : Memory} {s1 s2 : Addr} {text1 text2 : List Byte} {i : BitVec 64}
    (h1 : IsString mem s1 text1) (h2 : IsString mem s2 text2) (hi : i ∈ strcmpReads mem s1 s2) :
    i.toNat ≤ text1.length ∧ i.toNat ≤ text2.length := by
  obtain ⟨k, rfl, hk1, hk2⟩ := strcmpLoopReads_le (by simpa using h1) (by simpa using h2) hi
  have hlen := h1.length_lt
  rw [BitVec.zero_add, BitVec.toNat_ofNat, Nat.mod_eq_of_lt (by omega)]
  exact ⟨hk1, hk2⟩

/-- `strcmp` is the lexicographic order of unsigned bytes, and reads neither string beyond its
NUL: its result depends on no other byte. -/
theorem strcmp_lexicographic {mem : Memory} {s1 s2 : Addr} {text1 text2 : List Byte}
    (h1 : IsString mem s1 text1) (h2 : IsString mem s2 text2) :
    ∃ order, strcmp mem s1 s2 = .ok order ∧
      (order = 0 ↔ text1 = text2) ∧ (order < 0 ↔ text1 < text2) ∧ (0 < order ↔ text2 < text1) ∧
      strcmp mem s2 s1 = .ok (-order) ∧
      (∀ s3 text3 order', IsString mem s3 text3 → strcmp mem s2 s3 = .ok order' →
        order ≤ 0 → order' ≤ 0 → ∃ order'', strcmp mem s1 s3 = .ok order'' ∧ order'' ≤ 0) ∧
      (∀ i ∈ strcmpReads mem s1 s2, i.toNat ≤ text1.length ∧ i.toNat ≤ text2.length) ∧
      ∀ mem', (∀ i ∈ strcmpReads mem s1 s2,
          mem' (s1 + i) = mem (s1 + i) ∧ mem' (s2 + i) = mem (s2 + i)) →
        strcmp mem' s1 s2 = strcmp mem s1 s2 := by
  refine ⟨difference text1 text2, strcmp_of_isString h1 h2,
    difference_eq_zero_iff h1.nonzero h2.nonzero, difference_neg_iff h2.nonzero,
    difference_pos_iff h1.nonzero, ?_, ?_, fun i hi => strcmpReads_le h1 h2 hi,
    fun mem' hsame => strcmp_eq_of_reads hsame⟩
  · rw [strcmp_of_isString h2 h1, difference_swap]
  · intro s3 text3 order' h3 horder' h12 h23
    rw [strcmp_of_isString h2 h3] at horder'
    cases horder'
    exact ⟨_, strcmp_of_isString h1 h3, difference_nonpos_trans h1.nonzero h2.nonzero h12 h23⟩

/-- A string is before the one with 0xC3 in the place of its `z`. -/
theorem strcmp_lexicographic_high_byte :
    ∃ order, strcmp (.ofBytes 4096#64 [97#8, 122#8, 0#8, 97#8, 0xC3#8, 0#8]) 4096#64 4099#64 =
      .ok order ∧ order < 0 := by
  have h1 : IsString (.ofBytes 4096#64 [97#8, 122#8, 0#8, 97#8, 0xC3#8, 0#8]) 4096#64
      [97#8, 122#8] := ⟨by simp [Memory.ofBytes], by decide⟩
  have h2 : IsString (.ofBytes 4096#64 [97#8, 122#8, 0#8, 97#8, 0xC3#8, 0#8]) 4099#64
      [97#8, 0xC3#8] := ⟨by simp [Memory.ofBytes], by decide⟩
  obtain ⟨order, hrun, -, hneg, -⟩ := strcmp_lexicographic h1 h2
  exact ⟨order, hrun, hneg.mpr (by decide)⟩

end SysRv.KString
