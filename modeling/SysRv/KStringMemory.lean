import SysRv.FdtSpec
import SysRv.ForwardCopy
import SysRv.KStringCopy

/-!
# `memcpy` and `memset`

Both loops write byte `i` in round `i`. `memcpy` reads its source as the rounds before have
left it, which shows where the target begins inside of the source.
-/

namespace SysRv.KString

open Function ByteMemory ForwardCopy

def memcpyLoop (s1 s2 : Addr) (n : BitVec 64) : ℕ → Memory → BitVec 64 → Except Fault Memory
  | 0, _, _ => .error .endless
  | rounds + 1, mem, i =>
    if i < n then do
      let b ← readByte mem (s2 + i)
      memcpyLoop s1 s2 n rounds (update mem (s1 + i) (some b)) (i + 1#64)
    else return mem

def memcpy (mem : Memory) (s1 s2 : Addr) (n : BitVec 64) : Except Fault (Addr × Memory) := do
  let mem ← memcpyLoop s1 s2 n (2 ^ 64) mem 0#64
  return (s1, mem)

def memsetLoop (s : Addr) (c : BitVec 32) (n : BitVec 64) :
    ℕ → Memory → BitVec 64 → Except Fault Memory
  | 0, _, _ => .error .endless
  | rounds + 1, mem, i =>
    if i < n then memsetLoop s c n rounds (update mem (s + i) (some (c.setWidth 8))) (i + 1#64)
    else return mem

def memset (mem : Memory) (s : Addr) (c : BitVec 32) (n : BitVec 64) :
    Except Fault (Addr × Memory) := do
  let mem ← memsetLoop s c n (2 ^ 64) mem 0#64
  return (s, mem)

section Memcpy

variable {mem : Memory} {s1 s2 : Addr} {n : BitVec 64}

/-- The bytes that `memcpy` reads, before the first `i` rounds. -/
def Readable (mem : Memory) (s1 s2 : Addr) (i : ℕ) : Prop :=
  ∀ k < i, mem (s2 + BitVec.ofNat 64 (k % distance s1 s2)) ≠ none

theorem memcpyLoop_round {rounds i : ℕ} (hi : i < n.toNat)
    (hread : mem (s2 + BitVec.ofNat 64 (i % distance s1 s2)) ≠ none) :
    memcpyLoop s1 s2 n (rounds + 1) (forwardCopy mem s1 s2 i) (BitVec.ofNat 64 i) =
      memcpyLoop s1 s2 n rounds (forwardCopy mem s1 s2 (i + 1)) (BitVec.ofNat 64 (i + 1)) := by
  have hlt := hi.trans n.isLt
  obtain ⟨b, hb⟩ := Option.ne_none_iff_exists'.mp hread
  have hbyte : forwardCopy mem s1 s2 i (s2 + BitVec.ofNat 64 i) = some b := by
    rw [forwardCopy_source hlt, hb]
  rw [memcpyLoop, if_pos ((ofNat_lt_iff hlt).mpr hi), readByte, forwardCopy, hbyte,
    BitVec.ofNat_add_ofNat]
  rfl

theorem memcpyLoop_rounds {rounds i : ℕ} (hi : i ≤ n.toNat) (hread : Readable mem s1 s2 i) :
    memcpyLoop s1 s2 n (rounds + i) mem 0#64 =
      memcpyLoop s1 s2 n rounds (forwardCopy mem s1 s2 i) (BitVec.ofNat 64 i) := by
  induction i generalizing rounds with
  | zero => rfl
  | succ i ih =>
    have hrounds : rounds + (i + 1) = rounds + 1 + i := by omega
    rw [hrounds, ih (Nat.le_of_lt hi) fun k hk => hread k (hk.trans (Nat.lt_succ_self i)),
      memcpyLoop_round hi (hread i (Nat.lt_succ_self i))]

theorem memcpy_of_readable (hread : Readable mem s1 s2 n.toNat) :
    memcpy mem s1 s2 n = .ok (s1, forwardCopy mem s1 s2 n.toNat) := by
  have hn := n.isLt
  obtain ⟨rounds, hrounds⟩ := Nat.exists_eq_add_of_lt hn
  have hend : memcpyLoop s1 s2 n (2 ^ 64) mem 0#64 = .ok (forwardCopy mem s1 s2 n.toNat) := by
    have hsum : 2 ^ 64 = rounds + 1 + n.toNat := by omega
    rw [hsum, memcpyLoop_rounds (Nat.le_refl _) hread, memcpyLoop,
      if_neg fun h => Nat.lt_irrefl _ ((ofNat_lt_iff hn).mp h)]
    rfl
  rw [memcpy, hend]
  rfl

theorem memcpy_of_unreadable {i : ℕ} (hi : i < n.toNat) (hread : Readable mem s1 s2 i)
    (hnone : mem (s2 + BitVec.ofNat 64 (i % distance s1 s2)) = none) :
    memcpy mem s1 s2 n = .error (.unreadable (s2 + BitVec.ofNat 64 i)) := by
  have hlt := hi.trans n.isLt
  obtain ⟨rounds, hrounds⟩ := Nat.exists_eq_add_of_lt hlt
  have hend : memcpyLoop s1 s2 n (2 ^ 64) mem 0#64 =
      .error (.unreadable (s2 + BitVec.ofNat 64 i)) := by
    have hsum : 2 ^ 64 = rounds + 1 + i := by omega
    rw [hsum, memcpyLoop_rounds (Nat.le_of_lt hi) hread, memcpyLoop,
      if_pos ((ofNat_lt_iff hlt).mpr hi), readByte, forwardCopy_source hlt, hnone]
    rfl
  rw [memcpy, hend]
  rfl

/-- The first round, if any, whose byte cannot be read. -/
def firstUnreadable (mem : Memory) (s1 s2 : Addr) (n : ℕ) : Option ℕ :=
  (List.range n).find? fun i => (mem (s2 + BitVec.ofNat 64 (i % distance s1 s2))).isNone

theorem readable_of_firstUnreadable {i : ℕ} (h : firstUnreadable mem s1 s2 n.toNat = some i) :
    i < n.toNat ∧ Readable mem s1 s2 i ∧
      mem (s2 + BitVec.ofNat 64 (i % distance s1 s2)) = none := by
  rw [firstUnreadable, List.find?_range_eq_some] at h
  obtain ⟨hnone, hi, hbefore⟩ := h
  refine ⟨List.mem_range.mp hi, fun k hk hmem => ?_, Option.isNone_iff_eq_none.mp hnone⟩
  have hsome := hbefore k hk
  rw [hmem] at hsome
  cases hsome

/-- What `memcpy` does for all pointers, also to buffers that overlap: byte `i` of the target
is byte `i % d` of the source, the target being `d` bytes above the source. -/
theorem memcpy_eq (mem : Memory) (s1 s2 : Addr) (n : BitVec 64) :
    memcpy mem s1 s2 n =
      match firstUnreadable mem s1 s2 n.toNat with
      | some i => .error (.unreadable (s2 + BitVec.ofNat 64 i))
      | none => .ok (s1, fun a =>
          if (a - s1).toNat < n.toNat then
            mem (s2 + BitVec.ofNat 64 ((a - s1).toNat % distance s1 s2))
          else mem a) := by
  cases hfirst : firstUnreadable mem s1 s2 n.toNat with
  | some i =>
    obtain ⟨hi, hread, hnone⟩ := readable_of_firstUnreadable hfirst
    exact memcpy_of_unreadable hi hread hnone
  | none =>
    have hread : Readable mem s1 s2 n.toNat := by
      intro k hk hmem
      have hsome := List.find?_eq_none.mp hfirst k (List.mem_range.mpr hk)
      rw [hmem] at hsome
      exact hsome rfl
    rw [memcpy_of_readable hread]
    congr 2
    funext a
    exact forwardCopy_apply (Nat.le_of_lt n.isLt) a

/-- The target has the bytes that the source had. -/
def CopiesPlainly (s1 s2 : Addr) (n : BitVec 64) : Prop :=
  ∀ mem : Memory, (∀ i < n.toNat, mem (s2 + BitVec.ofNat 64 i) ≠ none) →
    ∃ mem', memcpy mem s1 s2 n = .ok (s1, mem') ∧
      ∀ i < n.toNat, mem' (s1 + BitVec.ofNat 64 i) = mem (s2 + BitVec.ofNat 64 i)

theorem readable_of_source (hsource : ∀ i < n.toNat, mem (s2 + BitVec.ofNat 64 i) ≠ none) :
    Readable mem s1 s2 n.toNat :=
  fun _ hk => hsource _ (Nat.lt_of_le_of_lt (Nat.mod_le _ _) hk)

/-- `memcpy` is right for every content of the source exactly where the target does not begin
inside of it. -/
theorem copiesPlainly_iff (s1 s2 : Addr) (n : BitVec 64) :
    CopiesPlainly s1 s2 n ↔ distance s1 s2 = 0 ∨ n.toNat ≤ distance s1 s2 := by
  have hn : n.toNat ≤ 2 ^ 64 := Nat.le_of_lt n.isLt
  constructor
  · intro hplain
    by_contra hinside
    obtain ⟨hzero, hlt⟩ := not_or.mp hinside
    have hd : distance s1 s2 < n.toNat := Nat.lt_of_not_le hlt
    -- a source whose first byte differs from all others, the one under `s1` among them
    obtain ⟨mem', hcopy, hbytes⟩ := hplain (update (fun _ => some 0#8) s2 (some 1#8))
      fun i _ => by rw [update_apply]; split <;> simp
    rw [memcpy_of_readable fun k _ => by rw [update_apply]; split <;> simp] at hcopy
    obtain ⟨-, rfl⟩ := Prod.mk.inj (Except.ok.inj hcopy)
    have hbyte := hbytes _ hd
    have hne : s2 + BitVec.ofNat 64 (distance s1 s2) ≠ s2 := by
      intro heq
      have hsub := add_ofNat_sub_self s2 (Nat.lt_of_lt_of_le hd hn)
      rw [heq, BitVec.sub_self] at hsub
      exact hzero hsub.symm
    rw [forwardCopy_at hn hd, Nat.mod_self, BitVec.add_zero, update_self, update_of_ne hne] at hbyte
    exact absurd hbyte (by decide)
  · intro hapart mem hsource
    exact ⟨_, memcpy_of_readable (readable_of_source hsource),
      fun i hi => forwardCopy_plain hn hapart hi⟩

end Memcpy

section Memset

variable {mem : Memory} {s : Addr} {c : BitVec 32} {n : BitVec 64}

def filled (mem : Memory) (s : Addr) (b : Byte) (i : ℕ) : Memory :=
  fun a => if (a - s).toNat < i then some b else mem a

theorem update_filled {b : Byte} {i : ℕ} (hi : i < 2 ^ 64) :
    update (filled mem s b i) (s + BitVec.ofNat 64 i) (some b) = filled mem s b (i + 1) := by
  funext a
  by_cases ha : a = s + BitVec.ofNat 64 i
  · rw [ha, update_self, filled, add_ofNat_sub_toNat s hi, if_pos (Nat.lt_succ_self i)]
  · have hne : (a - s).toNat ≠ i := fun h => ha (h ▸ eq_add_ofNat_sub a s)
    have hiff : (a - s).toNat < i ↔ (a - s).toNat < i + 1 := by omega
    rw [update_of_ne ha]
    simp only [filled, hiff]

theorem memsetLoop_filled (mem : Memory) (s : Addr) (c : BitVec 32) {i rounds : ℕ}
    (hi : i ≤ n.toNat) (hrounds : n.toNat - i < rounds) :
    memsetLoop s c n rounds (filled mem s (c.setWidth 8) i) (BitVec.ofNat 64 i) =
      .ok (filled mem s (c.setWidth 8) n.toNat) := by
  have hn := n.isLt
  induction rounds generalizing i with
  | zero => omega
  | succ rounds ih =>
    rw [memsetLoop]
    rcases Nat.lt_or_eq_of_le hi with hlt | rfl
    · rw [if_pos ((ofNat_lt_iff (by omega)).mpr hlt), update_filled (by omega),
        BitVec.ofNat_add_ofNat]
      exact ih hlt (by omega)
    · rw [if_neg fun h => Nat.lt_irrefl _ ((ofNat_lt_iff hn).mp h)]
      rfl

/-- `memset` writes the low byte of `c` and nothing outside of the `n` bytes. -/
theorem memset_filled (mem : Memory) (s : Addr) (c : BitVec 32) (n : BitVec 64) :
    memset mem s c n = .ok (s, filled mem s (c.setWidth 8) n.toNat) := by
  have hrun : memsetLoop s c n (2 ^ 64) mem 0#64 = .ok (filled mem s (c.setWidth 8) n.toNat) := by
    have hzero : filled mem s (c.setWidth 8) 0 = mem := by
      funext a
      simp [filled]
    have hrounds : n.toNat - 0 < 2 ^ 64 := n.isLt
    have hloop := memsetLoop_filled mem s c (Nat.zero_le _) hrounds
    rw [hzero] at hloop
    simpa using hloop
  rw [memset, hrun]
  rfl

end Memset

section Strings

variable {mem : Memory} {s1 s2 : Addr} {n : BitVec 64} {text : List Byte}

theorem IsString.of_byte (hnonzero : ∀ b ∈ text, b ≠ 0#8)
    (hbyte : ∀ k ≤ text.length, mem (s1 + BitVec.ofNat 64 k) = some (text.getD k 0#8)) :
    IsString mem s1 text := by
  refine ⟨?_, hnonzero⟩
  clear hnonzero
  induction text generalizing s1 with
  | nil => simpa using hbyte 0 (Nat.le_refl _)
  | cons b text ih =>
    refine ⟨by simpa using hbyte 0 (Nat.zero_le _), ih fun k hk => ?_⟩
    have hnext := hbyte (k + 1) (Nat.succ_le_succ hk)
    rwa [add_ofNat_succ, List.getD_cons_succ] at hnext

theorem IsString.sourceText (h : IsString mem s2 text) : SourceText mem s2 n text where
  bytes := (holds_append.mp h.bytes).1
  nonzero := h.nonzero
  ends := .inl (by simpa using h.byte (Nat.le_refl _))

/-- Buffers that are apart do not overlap with the target above. -/
theorem le_distance_of_apart (hapart : Apart s1 s2 n text) (hn : n.toNat ≤ text.length + 1)
    (hpos : 0 < n.toNat) : n.toNat ≤ distance s1 s2 := by
  by_contra hlt
  refine hapart (distance s1 s2) 0 (by omega) (by omega) hpos ?_
  rw [distance, add_ofNat_sub, BitVec.add_zero]

/-- A string copied with its NUL: `memcpy` of `strlen + 1` bytes does what `strncpy` does, both
are strings afterwards, and `strcmp` finds them equal. -/
theorem memcpy_string (hstring : IsString mem s2 text)
    (hn : n.toNat = text.length + 1) (hapart : Apart s1 s2 n text) :
    ∃ mem', strlen mem s2 = .ok (n - 1#64) ∧ memcpy mem s1 s2 n = .ok (s1, mem') ∧
      strncpy mem s1 s2 n = .ok (s1, mem') ∧ IsString mem' s1 text ∧ IsString mem' s2 text ∧
      strcmp mem' s1 s2 = .ok 0 := by
  have hlen : n - 1#64 = BitVec.ofNat 64 text.length := by
    apply BitVec.eq_of_toNat_eq
    have hlt := n.isLt
    rw [BitVec.toNat_sub]
    simp only [BitVec.toNat_ofNat]
    omega
  have hbyte := fun k (hk : k < n.toNat) => hstring.byte (k := k) (by omega)
  have hsource : ∀ i < n.toNat, mem (s2 + BitVec.ofNat 64 i) ≠ none := fun i hi => by
    rw [hbyte i hi]
    exact Option.some_ne_none _
  have hdistance := le_distance_of_apart hapart (by omega) (by omega)
  have hcopy : forwardCopy mem s1 s2 n.toNat = copied mem s1 text n.toNat := by
    funext a
    rw [forwardCopy_apply (Nat.le_of_lt n.isLt), copied]
    split
    · rename_i hlt
      rw [Nat.mod_eq_of_lt (by omega), hbyte _ hlt]
    · rfl
  have htarget : IsString (copied mem s1 text n.toNat) s1 text :=
    .of_byte hstring.nonzero fun k hk => copied_at (by omega) n.isLt
  have hkept : IsString (copied mem s1 text n.toNat) s2 text := by
    refine .of_byte hstring.nonzero fun k hk => ?_
    rw [copied_of_ne fun i hi => hapart k i hk (by omega) hi, hbyte k (by omega)]
  refine ⟨_, ?_, ?_, strncpy_copied hstring.sourceText hapart (by omega), htarget, hkept, ?_⟩
  · rw [strlen_of_isString hstring hstring.length_lt, hlen]
  · rw [memcpy_of_readable (readable_of_source hsource), hcopy]
  · obtain ⟨order, horder, hiff⟩ := exists_strcmp_of_isString htarget hkept
    rw [horder, hiff.mpr rfl]

theorem memcpy_string_ab :
    ∃ mem', strlen (.ofBytes 4096#64 [97#8, 98#8, 0#8]) 4096#64 = .ok (3#64 - 1#64) ∧
      memcpy (.ofBytes 4096#64 [97#8, 98#8, 0#8]) 8192#64 4096#64 3#64 = .ok (8192#64, mem') ∧
      strncpy (.ofBytes 4096#64 [97#8, 98#8, 0#8]) 8192#64 4096#64 3#64 = .ok (8192#64, mem') ∧
      IsString mem' 8192#64 [97#8, 98#8] ∧ IsString mem' 4096#64 [97#8, 98#8] ∧
      strcmp mem' 8192#64 4096#64 = .ok 0 :=
  memcpy_string (n := 3#64) ⟨by simp [Memory.ofBytes], by decide⟩ rfl
    (apart_of_short (by decide) (by decide))

end Strings

section Read32

open Fdt

/-- `fdt_Read32` as it is written, with its local `word` in memory. -/
def fdtRead32Copy (mem : Memory) (word ptr : Addr) : Except Fault (BitVec 32 × Memory) := do
  let (_, mem) ← memcpy mem word ptr 4#64
  let w ← readWord mem word
  return (bswap32 w, mem)

variable {mem : Memory} {word ptr : Addr}

theorem load32_congr {mem mem' : Memory} {a b : Addr}
    (h : ∀ i < 4, mem (a + BitVec.ofNat 64 i) = mem' (b + BitVec.ofNat 64 i)) :
    load32 mem a = load32 mem' b := by
  have h₀ := h 0 (by decide)
  have h₁ := h 1 (by decide)
  have h₂ := h 2 (by decide)
  have h₃ := h 3 (by decide)
  simp only [BitVec.add_zero] at h₀
  simp only [load32, h₀, h₁, h₂, h₃]

theorem exists_of_load32 {w : BitVec 32} (h : load32 mem ptr = some w) :
    ∀ i < 4, mem (ptr + BitVec.ofNat 64 i) ≠ none := by
  intro i hi hnone
  simp only [load32, Option.bind_eq_bind, Option.bind_eq_some_iff] at h
  obtain ⟨b₀, h₀, b₁, h₁, b₂, h₂, b₃, h₃, -⟩ := h
  have hcases : i = 0 ∨ i = 1 ∨ i = 2 ∨ i = 3 := by omega
  rcases hcases with rfl | rfl | rfl | rfl
  · rw [BitVec.add_zero, h₀] at hnone
    cases hnone
  · cases h₁.symm.trans hnone
  · cases h₂.symm.trans hnone
  · cases h₃.symm.trans hnone

/-- A word is read where its four bytes lie, the most significant first. -/
theorem fdtRead32_iff_holds {w : BitVec 32} :
    fdtRead32 mem ptr = .ok w ↔ Holds mem ptr (be32 w) := by
  refine ⟨fun hok => ?_, Fdt.fdtRead32_of_holds⟩
  cases hload : load32 mem ptr with
  | none =>
    rw [fdtRead32, readWord, hload] at hok
    cases hok
  | some v =>
    rw [fdtRead32, readWord, hload] at hok
    cases hok
    simp only [load32, Option.bind_eq_bind, Option.bind_eq_some_iff] at hload
    obtain ⟨b₀, h₀, b₁, h₁, b₂, h₂, b₃, h₃, hv⟩ := hload
    obtain rfl := Option.some.inj hv
    have e₂ : ptr + 1#64 + 1#64 = ptr + 2#64 := by rw [BitVec.add_assoc]; rfl
    have e₃ : ptr + 2#64 + 1#64 = ptr + 3#64 := by rw [BitVec.add_assoc]; rfl
    rw [bswap32_wordLE, be32_wordLE]
    exact ⟨h₀, h₁, by rwa [e₂], by rwa [e₂, e₃], trivial⟩

/-- The copy into the local and the direct load read the same words, and the copy writes to the
local only. -/
theorem fdtRead32Copy_eq_fdtRead32 (hapart : 4 ≤ distance word ptr) (w : BitVec 32) :
    (∃ mem', fdtRead32Copy mem word ptr = .ok (w, mem') ∧
      ∀ a, 4 ≤ (a - word).toNat → mem' a = mem a) ↔ fdtRead32 mem ptr = .ok w := by
  have hfour : (4#64).toNat = 4 := rfl
  cases hfirst : firstUnreadable mem word ptr (4#64).toNat with
  | some i =>
    obtain ⟨hi, -, hnone⟩ := readable_of_firstUnreadable hfirst
    rw [hfour] at hi
    rw [Nat.mod_eq_of_lt (by omega)] at hnone
    refine iff_of_false ?_ fun hok => ?_
    · rintro ⟨mem', hcopy, -⟩
      rw [fdtRead32Copy, memcpy_eq, hfirst] at hcopy
      cases hcopy
    · cases hload : load32 mem ptr with
      | none =>
        rw [fdtRead32, readWord, hload] at hok
        cases hok
      | some v => exact exists_of_load32 hload i hi hnone
  | none =>
    have hload : ∀ mem' : Memory, (∀ i < 4, mem' (word + BitVec.ofNat 64 i) =
        mem (ptr + BitVec.ofNat 64 i)) → load32 mem' word = load32 mem ptr :=
      fun mem' h => load32_congr h
    have hcopy := memcpy_eq mem word ptr 4#64
    rw [hfirst] at hcopy
    rw [fdtRead32Copy, hcopy, fdtRead32]
    simp only [bind, Except.bind, readWord]
    rw [hload _ fun i hi => by
      rw [add_ofNat_sub_toNat word (by omega), if_pos (by rwa [hfour]), Nat.mod_eq_of_lt (by omega)]]
    cases load32 mem ptr with
    | none => simp [Except.map]
    | some v =>
      constructor
      · rintro ⟨mem', hok, -⟩
        cases hok
        rfl
      · intro hok
        cases hok
        exact ⟨_, rfl, fun a ha => if_neg (by rw [hfour]; omega)⟩

/-- `fdt_Read32` with its `memcpy` into a local that does not begin inside of the word returns
the word whose four bytes lie there, the most significant first, and so does a direct load. -/
theorem fdtRead32Copy_iff (mem : Memory) (word ptr : Addr) (hapart : 4 ≤ distance word ptr)
    (w : BitVec 32) :
    ((∃ mem', fdtRead32Copy mem word ptr = .ok (w, mem') ∧
      ∀ a, 4 ≤ (a - word).toNat → mem' a = mem a) ↔ Holds mem ptr (be32 w)) ∧
    (fdtRead32 mem ptr = .ok w ↔ Holds mem ptr (be32 w)) :=
  ⟨(fdtRead32Copy_eq_fdtRead32 hapart w).trans fdtRead32_iff_holds, fdtRead32_iff_holds⟩

theorem fdtRead32Copy_magic :
    ∃ mem', fdtRead32Copy (.ofBytes 4096#64 (be32 fdtMagic)) 8192#64 4096#64 = .ok (fdtMagic, mem') ∧
      ∀ a, 4 ≤ (a - 8192#64).toNat → mem' a = Memory.ofBytes 4096#64 (be32 fdtMagic) a :=
  (fdtRead32Copy_iff _ 8192#64 4096#64 (by decide) fdtMagic).1.mpr
    (holds_at_base List.prefix_rfl (by decide))

end Read32

end SysRv.KString
