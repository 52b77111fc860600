import Mathlib.Data.BitVec

/-!
# Byte-addressed memory

A memory that can be read at some addresses of a 64-bit space, the bytes that lie at an
address, and 32-bit words in both byte orders.
-/

namespace SysRv.ByteMemory

abbrev Byte := BitVec 8

abbrev Memory := BitVec 64 → Option Byte

/-- A block of bytes at a base address, with nothing readable around it. -/
def Memory.ofBytes (base : BitVec 64) (bytes : List Byte) : Memory :=
  fun a => bytes[(a - base).toNat]?

/-- The bytes lie one after the other from address `a` on. -/
def Holds (mem : Memory) : BitVec 64 → List Byte → Prop
  | _, [] => True
  | a, b :: bs => mem a = some b ∧ Holds mem (a + 1#64) bs

@[simp] theorem holds_nil (mem : Memory) (a : BitVec 64) : Holds mem a [] := trivial

@[simp] theorem holds_cons (mem : Memory) (a : BitVec 64) (b : Byte) (bs : List Byte) :
    Holds mem a (b :: bs) ↔ mem a = some b ∧ Holds mem (a + 1#64) bs := Iff.rfl

theorem add_ofNat_succ' (a : BitVec 64) (n : ℕ) :
    a + BitVec.ofNat 64 (n + 1) = a + BitVec.ofNat 64 n + 1#64 := by
  rw [BitVec.add_assoc, BitVec.ofNat_add_ofNat]

theorem add_ofNat_succ (a : BitVec 64) (n : ℕ) :
    a + BitVec.ofNat 64 (n + 1) = a + 1#64 + BitVec.ofNat 64 n := by
  rw [BitVec.add_assoc, BitVec.ofNat_add_ofNat, Nat.add_comm]

theorem holds_append {mem : Memory} {a : BitVec 64} {bs cs : List Byte} :
    Holds mem a (bs ++ cs) ↔ Holds mem a bs ∧ Holds mem (a + BitVec.ofNat 64 bs.length) cs := by
  induction bs generalizing a with
  | nil => simp
  | cons b bs ih =>
    rw [List.cons_append, holds_cons, holds_cons, ih, List.length_cons, add_ofNat_succ a bs.length,
      and_assoc]

/-- An offset of 64 bits is the distance from the base. -/
theorem add_ofNat_sub_toNat (a : BitVec 64) {i : ℕ} (hi : i < 2 ^ 64) :
    (a + BitVec.ofNat 64 i - a).toNat = i := by
  rw [BitVec.add_comm, BitVec.add_sub_cancel, BitVec.toNat_ofNat, Nat.mod_eq_of_lt hi]

theorem Holds.getD {mem : Memory} {a : BitVec 64} {bs : List Byte} {k : ℕ} (h : Holds mem a bs)
    (hk : k < bs.length) : mem (a + BitVec.ofNat 64 k) = some (bs.getD k 0#8) := by
  induction bs generalizing a k with
  | nil => simp at hk
  | cons b bs ih =>
    obtain ⟨hb, hbs⟩ := h
    cases k with
    | zero => simpa using hb
    | succ k =>
      rw [add_ofNat_succ a k, ih hbs (by simpa using hk), List.getD_cons_succ]

theorem ofBytes_add {base : BitVec 64} {bytes : List Byte} {off : ℕ} (hoff : off < bytes.length)
    (hsize : bytes.length ≤ 2 ^ 64) :
    Memory.ofBytes base bytes (base + BitVec.ofNat 64 off) = some (bytes.getD off 0#8) := by
  rw [Memory.ofBytes, add_ofNat_sub_toNat base (Nat.lt_of_lt_of_le hoff hsize),
    List.getD_eq_getElem?_getD, List.getElem?_eq_getElem hoff, Option.getD_some]

theorem holds_ofBytes {base : BitVec 64} {front bs back : List Byte}
    (hsize : (front ++ bs ++ back).length ≤ 2 ^ 64) :
    Holds (.ofBytes base (front ++ bs ++ back)) (base + BitVec.ofNat 64 front.length) bs := by
  induction bs generalizing front with
  | nil => trivial
  | cons b bs ih =>
    have hsplit : front ++ b :: bs ++ back = front ++ [b] ++ bs ++ back := by simp
    have hlt : front.length < 2 ^ 64 := by
      simp only [List.length_append, List.length_cons] at hsize
      omega
    constructor
    · rw [Memory.ofBytes, add_ofNat_sub_toNat base hlt]
      simp
    · have hrest := @ih (front ++ [b]) (hsplit ▸ hsize)
      rw [List.length_append, List.length_singleton, add_ofNat_succ'] at hrest
      rwa [hsplit]

/-- Bytes that lie in a block at an offset. -/
def LiesAt (bytes bs : List Byte) (off : ℕ) : Prop :=
  ∃ front back, bytes = front ++ bs ++ back ∧ front.length = off

theorem LiesAt.holds {base : BitVec 64} {bytes bs : List Byte} {off : ℕ} (h : LiesAt bytes bs off)
    (hsize : bytes.length ≤ 2 ^ 64) :
    Holds (.ofBytes base bytes) (base + BitVec.ofNat 64 off) bs := by
  obtain ⟨front, back, rfl, rfl⟩ := h
  exact holds_ofBytes hsize

theorem holds_at_base {base : BitVec 64} {bytes bs : List Byte} (h : bs <+: bytes)
    (hsize : bytes.length ≤ 2 ^ 64) : Holds (.ofBytes base bytes) base bs := by
  obtain ⟨back, rfl⟩ := h
  have hlies : LiesAt (bs ++ back) bs 0 := ⟨[], back, rfl, rfl⟩
  have h : Holds (.ofBytes base (bs ++ back)) (base + BitVec.ofNat 64 0) bs := hlies.holds hsize
  simpa using h

/-- The word with the given bytes, least significant first. -/
def wordLE (b₀ b₁ b₂ b₃ : Byte) : BitVec 32 :=
  BitVec.ofNat 32 (b₀.toNat + b₁.toNat * 2 ^ 8 + b₂.toNat * 2 ^ 16 + b₃.toNat * 2 ^ 24)

/-- Byte `k` of a word, byte 0 being the least significant. -/
def byteAt (w : BitVec 32) (k : ℕ) : Byte := BitVec.ofNat 8 (w.toNat / 2 ^ (8 * k))

/-- The bytes of a word, most significant first. -/
def be32 (w : BitVec 32) : List Byte := [byteAt w 3, byteAt w 2, byteAt w 1, byteAt w 0]

def bswap32 (w : BitVec 32) : BitVec 32 :=
  wordLE (byteAt w 3) (byteAt w 2) (byteAt w 1) (byteAt w 0)

@[simp] theorem be32_length (w : BitVec 32) : (be32 w).length = 4 := rfl

section Words

variable (b₀ b₁ b₂ b₃ : Byte) (w : BitVec 32)

theorem wordLE_toNat : (wordLE b₀ b₁ b₂ b₃).toNat =
    b₀.toNat + b₁.toNat * 2 ^ 8 + b₂.toNat * 2 ^ 16 + b₃.toNat * 2 ^ 24 := by
  rw [wordLE, BitVec.toNat_ofNat, Nat.mod_eq_of_lt]
  omega

@[simp] theorem byteAt_wordLE_zero : byteAt (wordLE b₀ b₁ b₂ b₃) 0 = b₀ := by
  apply BitVec.eq_of_toNat_eq
  rw [byteAt, BitVec.toNat_ofNat, wordLE_toNat]
  omega

@[simp] theorem byteAt_wordLE_one : byteAt (wordLE b₀ b₁ b₂ b₃) 1 = b₁ := by
  apply BitVec.eq_of_toNat_eq
  rw [byteAt, BitVec.toNat_ofNat, wordLE_toNat]
  omega

@[simp] theorem byteAt_wordLE_two : byteAt (wordLE b₀ b₁ b₂ b₃) 2 = b₂ := by
  apply BitVec.eq_of_toNat_eq
  rw [byteAt, BitVec.toNat_ofNat, wordLE_toNat]
  omega

@[simp] theorem byteAt_wordLE_three : byteAt (wordLE b₀ b₁ b₂ b₃) 3 = b₃ := by
  apply BitVec.eq_of_toNat_eq
  rw [byteAt, BitVec.toNat_ofNat, wordLE_toNat]
  omega

theorem wordLE_byteAt : wordLE (byteAt w 0) (byteAt w 1) (byteAt w 2) (byteAt w 3) = w := by
  apply BitVec.eq_of_toNat_eq
  have hw := w.isLt
  simp only [wordLE_toNat, byteAt, BitVec.toNat_ofNat]
  omega

theorem bswap32_wordLE : bswap32 (wordLE b₀ b₁ b₂ b₃) = wordLE b₃ b₂ b₁ b₀ := by
  simp [bswap32]

@[simp] theorem bswap32_bswap32 : bswap32 (bswap32 w) = w := by
  rw [bswap32.eq_def w, bswap32_wordLE, wordLE_byteAt]

end Words

/-- A load of four bytes, least significant first. -/
def load32 (mem : Memory) (a : BitVec 64) : Option (BitVec 32) := do
  let b₀ ← mem a
  let b₁ ← mem (a + 1#64)
  let b₂ ← mem (a + 2#64)
  let b₃ ← mem (a + 3#64)
  return wordLE b₀ b₁ b₂ b₃

theorem load32_of_holds {mem : Memory} {a : BitVec 64} {b₀ b₁ b₂ b₃ : Byte}
    (h : Holds mem a [b₀, b₁, b₂, b₃]) : load32 mem a = some (wordLE b₀ b₁ b₂ b₃) := by
  obtain ⟨h₀, h₁, h₂, h₃, -⟩ := h
  have e₂ : a + 1#64 + 1#64 = a + 2#64 := by rw [BitVec.add_assoc]; rfl
  have e₃ : a + 1#64 + 1#64 + 1#64 = a + 3#64 := by rw [e₂, BitVec.add_assoc]; rfl
  rw [e₂] at h₂
  rw [e₃] at h₃
  simp [load32, h₀, h₁, h₂, h₃]

theorem be32_wordLE (b₀ b₁ b₂ b₃ : Byte) : be32 (wordLE b₀ b₁ b₂ b₃) = [b₃, b₂, b₁, b₀] := by
  simp [be32]

/-- Loading a word that is stored most significant byte first. -/
theorem load32_of_holds_be32 {mem : Memory} {a : BitVec 64} {w : BitVec 32}
    (h : Holds mem a (be32 w)) : load32 mem a = some (bswap32 w) := load32_of_holds h

/-- The word in a block at an offset, most significant byte first. -/
def wordAt (bytes : List Byte) (off : ℕ) : BitVec 32 :=
  wordLE (bytes.getD (off + 3) 0#8) (bytes.getD (off + 2) 0#8) (bytes.getD (off + 1) 0#8)
    (bytes.getD off 0#8)

theorem holds_wordAt {base : BitVec 64} {bytes : List Byte} (off : ℕ)
    (hoff : off + 4 ≤ bytes.length) (hsize : bytes.length ≤ 2 ^ 64) :
    Holds (.ofBytes base bytes) (base + BitVec.ofNat 64 off) (be32 (wordAt bytes off)) := by
  rw [wordAt, be32_wordLE]
  simp only [holds_cons, holds_nil, and_true, ← add_ofNat_succ']
  exact ⟨ofBytes_add (by omega) hsize, ofBytes_add (by omega) hsize, ofBytes_add (by omega) hsize,
    ofBytes_add (by omega) hsize⟩

theorem LiesAt.wordAt {bytes : List Byte} {w : BitVec 32} {off : ℕ} (h : LiesAt bytes (be32 w) off) :
    wordAt bytes off = w := by
  obtain ⟨front, back, rfl, rfl⟩ := h
  have hbyte : ∀ k, (front ++ be32 w ++ back).getD (front.length + k) 0#8 =
      (be32 w ++ back).getD k 0#8 := by
    intro k
    rw [List.getD_eq_getElem?_getD, List.append_assoc,
      List.getElem?_append_right (Nat.le_add_right ..), Nat.add_sub_cancel_left,
      ← List.getD_eq_getElem?_getD]
  rw [ByteMemory.wordAt, hbyte, hbyte, hbyte, ← Nat.add_zero front.length, hbyte]
  exact wordLE_byteAt w

theorem liesAt_flatMap_be32 {ws : List (BitVec 32)} {k : ℕ} {w : BitVec 32} (hw : ws[k]? = some w)
    (rest : List Byte) : LiesAt (ws.flatMap be32 ++ rest) (be32 w) (4 * k) := by
  induction ws generalizing k with
  | nil => simp at hw
  | cons v ws ih =>
    cases k with
    | zero =>
      obtain rfl : v = w := by simpa using hw
      exact ⟨[], ws.flatMap be32 ++ rest, by simp, rfl⟩
    | succ k =>
      obtain ⟨front, back, hsplit, hfront⟩ := ih (by simpa using hw)
      exact ⟨be32 v ++ front, back, by rw [List.flatMap_cons, List.append_assoc, hsplit]; simp, by
        rw [List.length_append, hfront, be32_length]
        omega⟩

end SysRv.ByteMemory
