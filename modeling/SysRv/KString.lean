import SysRv.ByteMemory
import SysRv.KernelTypes

/-! # Strings of the kernel's own C library -/

namespace SysRv.KString

open ByteMemory

def readByte (mem : Memory) (a : Addr) : Except Fault Byte :=
  match mem a with
  | some b => .ok b
  | none => .error (.unreadable a)

/-- The loop of `strlen`. No string is longer than the address space, where `count` is back
at its start. -/
def strlenLoop (mem : Memory) (str : Addr) : ℕ → BitVec 64 → Except Fault (BitVec 64)
  | 0, _ => .error .endless
  | n + 1, count =>
    match readByte mem (str + count) with
    | .error fault => .error fault
    | .ok b => if b = 0#8 then .ok count else strlenLoop mem str n (count + 1#64)

def strlen (mem : Memory) (str : Addr) : Except Fault (BitVec 64) := strlenLoop mem str (2 ^ 64) 0#64

/-- The loop of `strcmp`. A `char` is unsigned, as on RISC-V. -/
def strcmpLoop (mem : Memory) (s1 s2 : Addr) : ℕ → BitVec 64 → Except Fault ℤ
  | 0, _ => .error .endless
  | n + 1, index => do
    let s1Char ← readByte mem (s1 + index)
    let s2Char ← readByte mem (s2 + index)
    if s1Char ≠ 0#8 ∧ s1Char = s2Char then strcmpLoop mem s1 s2 n (index + 1#64)
    else return (s1Char.toNat : ℤ) - s2Char.toNat

def strcmp (mem : Memory) (s1 s2 : Addr) : Except Fault ℤ := strcmpLoop mem s1 s2 (2 ^ 64) 0#64

def literal (text : String) : List Byte := text.toList.map fun c => BitVec.ofNat 8 c.toNat

/-- A string of bytes other than NUL, followed by a NUL. -/
structure IsString (mem : Memory) (str : Addr) (text : List Byte) : Prop where
  bytes : Holds mem str (text ++ [0#8])
  nonzero : ∀ b ∈ text, b ≠ 0#8

theorem IsString.byte {mem : Memory} {str : Addr} {text : List Byte} {k : ℕ}
    (h : IsString mem str text) (hk : k ≤ text.length) :
    mem (str + BitVec.ofNat 64 k) = some (text.getD k 0#8) := by
  have hlt : k < (text ++ [0#8]).length := by simpa using Nat.lt_add_one_of_le hk
  rw [h.bytes.getD hlt, List.getD_eq_getElem?_getD, List.getD_eq_getElem?_getD]
  rcases Nat.lt_or_eq_of_le hk with hk | rfl
  · rw [List.getElem?_append_left hk]
  · simp

theorem IsString.getD_ne {mem : Memory} {str : Addr} {text : List Byte} {k : ℕ}
    (h : IsString mem str text) (hk : k < text.length) : text.getD k 0#8 ≠ 0#8 := by
  rw [List.getD_eq_getElem?_getD, List.getElem?_eq_getElem hk]
  exact h.nonzero _ (List.getElem_mem hk)

/-- A string ends before its addresses repeat. -/
theorem IsString.length_lt {mem : Memory} {str : Addr} {text : List Byte}
    (h : IsString mem str text) : text.length < 2 ^ 64 := by
  by_contra hlong
  -- the NUL would lie where the text has another byte
  have hend := h.byte (Nat.le_refl text.length)
  have hagain := h.byte (Nat.sub_le text.length (2 ^ 64))
  have haddr : BitVec.ofNat 64 text.length = BitVec.ofNat 64 (text.length - 2 ^ 64) := by
    apply BitVec.eq_of_toNat_eq
    simp only [BitVec.toNat_ofNat]
    omega
  have hnul : text.getD text.length 0#8 = 0#8 := by simp
  rw [haddr, hagain, hnul] at hend
  exact h.getD_ne (by omega) (Option.some.inj hend)

theorem IsString.nil_byte {mem : Memory} {str : Addr} (h : IsString mem str []) :
    mem str = some 0#8 := h.bytes.1

theorem IsString.head {mem : Memory} {str : Addr} {b : Byte} {text : List Byte}
    (h : IsString mem str (b :: text)) : mem str = some b ∧ b ≠ 0#8 :=
  ⟨h.bytes.1, h.nonzero b (List.mem_cons_self ..)⟩

theorem IsString.tail {mem : Memory} {str index : Addr} {b : Byte} {text : List Byte}
    (h : IsString mem (str + index) (b :: text)) : IsString mem (str + (index + 1#64)) text where
  bytes := by
    rw [← BitVec.add_assoc]
    exact h.bytes.2
  nonzero c hc := h.nonzero c (List.mem_cons_of_mem _ hc)

theorem strlenLoop_of_isString {mem : Memory} {str : Addr} {text : List Byte} {n : ℕ}
    {count : BitVec 64} (h : IsString mem (str + count) text) (hn : text.length < n) :
    strlenLoop mem str n count = .ok (count + BitVec.ofNat 64 text.length) := by
  induction text generalizing n count with
  | nil =>
    obtain ⟨n, rfl⟩ := Nat.exists_eq_add_one_of_ne_zero (Nat.ne_of_gt hn)
    simp [strlenLoop, readByte, h.nil_byte]
  | cons b text ih =>
    obtain ⟨n, rfl⟩ := Nat.exists_eq_add_one_of_ne_zero (Nat.ne_of_gt (Nat.zero_lt_of_lt hn))
    obtain ⟨hb, hne⟩ := h.head
    rw [strlenLoop, readByte, hb]
    simp only [hne, if_false]
    rw [ih h.tail (by simpa using hn), List.length_cons, add_ofNat_succ count text.length]

theorem strlen_of_isString {mem : Memory} {str : Addr} {text : List Byte}
    (h : IsString mem str text) (hlen : text.length < 2 ^ 64) :
    strlen mem str = .ok (BitVec.ofNat 64 text.length) := by
  rw [strlen, strlenLoop_of_isString (by simpa using h) hlen, BitVec.zero_add]

/-- The difference of two texts at the first place where they differ, NUL behind both. -/
def difference : List Byte → List Byte → ℤ
  | [], [] => 0
  | a :: _, [] => a.toNat
  | [], b :: _ => -b.toNat
  | a :: as, b :: bs => if a = b then difference as bs else a.toNat - b.toNat

theorem strcmpLoop_of_isString {mem : Memory} {s1 s2 : Addr} {text1 text2 : List Byte} {n : ℕ}
    {index : BitVec 64} (h1 : IsString mem (s1 + index) text1)
    (h2 : IsString mem (s2 + index) text2) (hn : text1.length < n) :
    strcmpLoop mem s1 s2 n index = .ok (difference text1 text2) := by
  induction text1 generalizing text2 n index with
  | nil =>
    obtain ⟨n, rfl⟩ := Nat.exists_eq_add_one_of_ne_zero (Nat.ne_of_gt hn)
    cases text2 with
    | nil =>
      simp [strcmpLoop, readByte, h1.nil_byte, h2.nil_byte, bind, Except.bind, difference]
      rfl
    | cons b text2 =>
      simp [strcmpLoop, readByte, h1.nil_byte, h2.head.1, bind, Except.bind, difference]
      rfl
  | cons a text1 ih =>
    obtain ⟨n, rfl⟩ := Nat.exists_eq_add_one_of_ne_zero (Nat.ne_of_gt (Nat.zero_lt_of_lt hn))
    obtain ⟨ha, hane⟩ := h1.head
    cases text2 with
    | nil =>
      simp [strcmpLoop, readByte, ha, hane, h2.nil_byte, bind, Except.bind, difference]
      rfl
    | cons b text2 =>
      by_cases hab : a = b
      · subst hab
        have hrest := ih h1.tail h2.tail (by simpa using hn)
        simp [strcmpLoop, readByte, ha, hane, h2.head.1, bind, Except.bind, difference, hrest]
      · simp [strcmpLoop, readByte, ha, hab, h2.head.1, bind, Except.bind, difference]
        rfl

theorem strcmp_of_isString {mem : Memory} {s1 s2 : Addr} {text1 text2 : List Byte}
    (h1 : IsString mem s1 text1) (h2 : IsString mem s2 text2) :
    strcmp mem s1 s2 = .ok (difference text1 text2) :=
  strcmpLoop_of_isString (by simpa using h1) (by simpa using h2) h1.length_lt

theorem toNat_ne_zero {b : Byte} (h : b ≠ 0#8) : b.toNat ≠ 0 :=
  fun hz => h (BitVec.eq_of_toNat_eq hz)

theorem difference_eq_zero_iff {text1 text2 : List Byte} (h1 : ∀ b ∈ text1, b ≠ 0#8)
    (h2 : ∀ b ∈ text2, b ≠ 0#8) : difference text1 text2 = 0 ↔ text1 = text2 := by
  induction text1 generalizing text2 with
  | nil =>
    cases text2 with
    | nil => simp [difference]
    | cons b text2 =>
      have hb := toNat_ne_zero (h2 b (List.mem_cons_self ..))
      simp only [difference]
      refine iff_of_false (by omega) (by simp)
  | cons a text1 ih =>
    cases text2 with
    | nil =>
      have ha := toNat_ne_zero (h1 a (List.mem_cons_self ..))
      simp only [difference]
      refine iff_of_false (by omega) (by simp)
    | cons b text2 =>
      by_cases hab : a = b
      · subst hab
        rw [difference, if_pos rfl, ih (fun c hc => h1 c (List.mem_cons_of_mem _ hc))
          (fun c hc => h2 c (List.mem_cons_of_mem _ hc)), List.cons.injEq]
        simp
      · have hne : a.toNat ≠ b.toNat := fun heq => hab (BitVec.eq_of_toNat_eq heq)
        rw [difference, if_neg hab]
        refine iff_of_false (by omega) (by simp [hab])

theorem exists_strcmp_of_isString {mem : Memory} {s1 s2 : Addr} {text1 text2 : List Byte}
    (h1 : IsString mem s1 text1) (h2 : IsString mem s2 text2) :
    ∃ order, strcmp mem s1 s2 = .ok order ∧ (order = 0 ↔ text1 = text2) :=
  ⟨_, strcmp_of_isString h1 h2, difference_eq_zero_iff h1.nonzero h2.nonzero⟩

end SysRv.KString
