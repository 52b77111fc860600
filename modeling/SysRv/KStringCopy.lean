import SysRv.KString
import Mathlib.Logic.Function.Basic

/-!
# `strncpy`

The loop looks at a byte of the source in every round, also when the NUL is behind it and it only
pads. What it writes is right; what it reads is inside the source as long as `n` is at most one
more than the length of the text.
-/

namespace SysRv.KString

open ByteMemory

/-- The body of the loop of `strncpy`: the memory and `s2_shorter`. -/
def strncpyStep (s1 s2 : Addr) (mem : Memory) (s2Shorter : Bool) (i : BitVec 64) :
    Except Fault (Memory × Bool) := do
  let s2Char ← readByte mem (s2 + i)
  let s2Shorter := if s2Char = 0#8 then true else s2Shorter
  if s2Shorter then return (Function.update mem (s1 + i) (some 0#8), s2Shorter)
  else
    let s2Char ← readByte mem (s2 + i)
    return (Function.update mem (s1 + i) (some s2Char), s2Shorter)

def strncpyLoop (s1 s2 : Addr) (n : BitVec 64) :
    ℕ → Memory → Bool → BitVec 64 → Except Fault Memory
  | 0, _, _, _ => .error .endless
  | rounds + 1, mem, s2Shorter, i =>
    if i < n then do
      let (mem, s2Shorter) ← strncpyStep s1 s2 mem s2Shorter i
      strncpyLoop s1 s2 n rounds mem s2Shorter (i + 1#64)
    else return mem

def strncpy (mem : Memory) (s1 s2 : Addr) (n : BitVec 64) : Except Fault (Addr × Memory) := do
  let mem ← strncpyLoop s1 s2 n (2 ^ 64) mem false 0#64
  return (s1, mem)

/-- The index at which each round reads `s2`, once where it pads and twice where it copies. -/
def strncpyLoopReads (s1 s2 : Addr) (n : BitVec 64) :
    ℕ → Memory → Bool → BitVec 64 → List (BitVec 64)
  | 0, _, _, _ => []
  | rounds + 1, mem, s2Shorter, i =>
    if i < n then
      i :: match strncpyStep s1 s2 mem s2Shorter i with
        | .ok (mem, s2Shorter) => strncpyLoopReads s1 s2 n rounds mem s2Shorter (i + 1#64)
        | .error _ => []
    else []

def strncpyReads (mem : Memory) (s1 s2 : Addr) (n : BitVec 64) : List (BitVec 64) :=
  strncpyLoopReads s1 s2 n (2 ^ 64) mem false 0#64

/-- A buffer whose text ends at its first NUL, or that has `n` bytes before a NUL. -/
structure SourceText (mem : Memory) (s2 : Addr) (n : BitVec 64) (text : List Byte) : Prop where
  bytes : Holds mem s2 text
  nonzero : ∀ b ∈ text, b ≠ 0#8
  ends : mem (s2 + BitVec.ofNat 64 text.length) = some 0#8 ∨ n.toNat ≤ text.length

/-- The promise of `restrict`: none of the bytes that are written is one of the source, of which
only the first `n` count. -/
def Apart (s1 s2 : Addr) (n : BitVec 64) (text : List Byte) : Prop :=
  ∀ k i : ℕ, k ≤ text.length → k < n.toNat → i < n.toNat →
    s2 + BitVec.ofNat 64 k ≠ s1 + BitVec.ofNat 64 i

/-- The memory with the first `i` bytes of the text, and NULs behind it, written to `s1`. -/
def copied (mem : Memory) (s1 : Addr) (text : List Byte) (i : ℕ) : Memory :=
  fun a => if (a - s1).toNat < i then some (text.getD (a - s1).toNat 0#8) else mem a

section Copy

variable {mem : Memory} {s1 s2 : Addr} {n : BitVec 64} {text : List Byte}

theorem copied_zero : copied mem s1 text 0 = mem := by
  funext a
  simp [copied]

theorem copied_at {i j : ℕ} (hi : i < j) (hj : j < 2 ^ 64) :
    copied mem s1 text j (s1 + BitVec.ofNat 64 i) = some (text.getD i 0#8) := by
  rw [copied, add_ofNat_sub_toNat s1 (hi.trans hj), if_pos hi]

theorem eq_add_ofNat_sub (a s : Addr) : a = s + BitVec.ofNat 64 (a - s).toNat := by
  rw [BitVec.ofNat_toNat, BitVec.setWidth_eq, BitVec.add_comm, BitVec.sub_add_cancel]

theorem copied_of_ne {a : Addr} {i : ℕ} (ha : ∀ k < i, a ≠ s1 + BitVec.ofNat 64 k) :
    copied mem s1 text i a = mem a := by
  refine if_neg fun hlt => ha _ hlt (eq_add_ofNat_sub a s1)

theorem update_copied {i : ℕ} (hi : i < 2 ^ 64) :
    Function.update (copied mem s1 text i) (s1 + BitVec.ofNat 64 i) (some (text.getD i 0#8)) =
      copied mem s1 text (i + 1) := by
  funext a
  by_cases ha : a = s1 + BitVec.ofNat 64 i
  · rw [ha, Function.update_self, copied, add_ofNat_sub_toNat s1 hi, if_pos (Nat.lt_succ_self i)]
  · have hne : (a - s1).toNat ≠ i := fun h => ha (h ▸ eq_add_ofNat_sub a s1)
    have hiff : (a - s1).toNat < i ↔ (a - s1).toNat < i + 1 := by omega
    rw [Function.update_of_ne ha]
    simp only [copied, hiff]

theorem SourceText.byte {k : ℕ} (h : SourceText mem s2 n text) (hk : k ≤ text.length)
    (hn : k < n.toNat) : mem (s2 + BitVec.ofNat 64 k) = some (text.getD k 0#8) := by
  rcases Nat.lt_or_eq_of_le hk with hk | rfl
  · exact h.bytes.getD hk
  · rcases h.ends with hend | hend
    · simp [hend]
    · omega

theorem SourceText.getD_eq_zero_iff (h : SourceText mem s2 n text) (k : ℕ) :
    text.getD k 0#8 = 0#8 ↔ text.length ≤ k := by
  constructor
  · intro hzero
    by_contra hk
    rw [List.getD_eq_getElem?_getD, List.getElem?_eq_getElem (by omega)] at hzero
    exact h.nonzero _ (List.getElem_mem _) hzero
  · intro hk
    rw [List.getD_eq_getElem?_getD, List.getElem?_eq_none hk, Option.getD_none]

theorem strncpyStep_pad {i : BitVec 64} {b : Byte} {s2Shorter : Bool}
    (hb : mem (s2 + i) = some b) (hpad : b = 0#8 ∨ s2Shorter = true) :
    strncpyStep s1 s2 mem s2Shorter i = .ok (Function.update mem (s1 + i) (some 0#8), true) := by
  have hshorter : (if b = 0#8 then true else s2Shorter) = true := by
    rcases hpad with rfl | rfl
    · rfl
    · simp
  rw [strncpyStep, readByte, hb]
  simp only [bind, Except.bind, hshorter, if_true]
  rfl

theorem strncpyStep_copy {i : BitVec 64} {b : Byte} (hb : mem (s2 + i) = some b) (hne : b ≠ 0#8) :
    strncpyStep s1 s2 mem false i = .ok (Function.update mem (s1 + i) (some b), false) := by
  rw [strncpyStep, readByte, hb]
  simp only [bind, Except.bind, if_neg hne, Bool.false_eq_true, if_false]
  rfl

/-- A round at an index where the source can be read. From the NUL on, whatever byte lies behind
it, a NUL is written. -/
theorem strncpyStep_copied {i : ℕ} (hsource : SourceText mem s2 n text)
    (hapart : Apart s1 s2 n text) (hi : i < n.toNat)
    (hread : text.length < i → ∃ b, mem (s2 + BitVec.ofNat 64 i) = some b) :
    strncpyStep s1 s2 (copied mem s1 text i) (decide (text.length < i)) (BitVec.ofNat 64 i) =
      .ok (copied mem s1 text (i + 1), decide (text.length < i + 1)) := by
  rw [← update_copied (hi.trans n.isLt)]
  by_cases hpast : text.length < i
  · -- the byte is of no interest, and may be one that was written
    obtain ⟨b, hb⟩ : ∃ b, copied mem s1 text i (s2 + BitVec.ofNat 64 i) = some b := by
      rw [copied]
      split
      · exact ⟨_, rfl⟩
      · exact hread hpast
    have hzero := (hsource.getD_eq_zero_iff i).mpr hpast.le
    rw [strncpyStep_pad hb (.inr (decide_eq_true hpast)), hzero,
      decide_eq_true (hpast.trans (Nat.lt_succ_self i))]
  · have hle : i ≤ text.length := Nat.le_of_not_lt hpast
    have hbyte : copied mem s1 text i (s2 + BitVec.ofNat 64 i) = some (text.getD i 0#8) := by
      rw [copied_of_ne fun k hk => hapart i k hle hi (hk.trans hi), hsource.byte hle hi]
    by_cases hnul : text.length ≤ i
    · have hzero := (hsource.getD_eq_zero_iff i).mpr hnul
      rw [strncpyStep_pad hbyte (.inl hzero), hzero, decide_eq_true (Nat.lt_succ_of_le hnul)]
    · have hne : text.getD i 0#8 ≠ 0#8 := fun h => hnul ((hsource.getD_eq_zero_iff i).mp h)
      have hmore : ¬ text.length < i + 1 := by omega
      rw [decide_eq_false hpast, decide_eq_false hmore, strncpyStep_copy hbyte hne]

/-- The index is back in range as long as the test of the loop holds. -/
theorem ofNat_lt_iff {i : ℕ} (hi : i < 2 ^ 64) : BitVec.ofNat 64 i < n ↔ i < n.toNat := by
  rw [BitVec.lt_def, BitVec.toNat_ofNat, Nat.mod_eq_of_lt hi]

theorem strncpyLoop_copied {i rounds : ℕ} (hsource : SourceText mem s2 n text)
    (hapart : Apart s1 s2 n text) (hi : i ≤ n.toNat) (hrounds : n.toNat - i < rounds)
    (hread : ∀ k, text.length < k → k < n.toNat → ∃ b, mem (s2 + BitVec.ofNat 64 k) = some b) :
    strncpyLoop s1 s2 n rounds (copied mem s1 text i) (decide (text.length < i))
      (BitVec.ofNat 64 i) = .ok (copied mem s1 text n.toNat) := by
  have hn := n.isLt
  induction rounds generalizing i with
  | zero => omega
  | succ rounds ih =>
    rw [strncpyLoop]
    rcases Nat.lt_or_eq_of_le hi with hlt | rfl
    · rw [if_pos ((ofNat_lt_iff (by omega)).mpr hlt),
        strncpyStep_copied hsource hapart hlt fun hpast => hread i hpast hlt, BitVec.ofNat_add_ofNat]
      exact ih hlt (by omega)
    · rw [if_neg fun h => Nat.lt_irrefl _ ((ofNat_lt_iff hn).mp h)]
      rfl

/-- What `strncpy` does to the memory, where all of the first `n` bytes at `s2` can be read. -/
theorem strncpy_copied (hsource : SourceText mem s2 n text) (hapart : Apart s1 s2 n text)
    (hread : ∀ k, text.length < k → k < n.toNat → ∃ b, mem (s2 + BitVec.ofNat 64 k) = some b) :
    strncpy mem s1 s2 n = .ok (s1, copied mem s1 text n.toNat) := by
  have hrun : strncpyLoop s1 s2 n (2 ^ 64) mem false 0#64 = .ok (copied mem s1 text n.toNat) := by
    have hrounds : n.toNat - 0 < 2 ^ 64 := n.isLt
    have hloop := strncpyLoop_copied hsource hapart (Nat.zero_le _) hrounds hread
    rw [copied_zero] at hloop
    simpa using hloop
  rw [strncpy, hrun]
  rfl

theorem strncpyLoopReads_lt {rounds : ℕ} {s2Shorter : Bool} {i k : BitVec 64}
    (hk : k ∈ strncpyLoopReads s1 s2 n rounds mem s2Shorter i) : k < n := by
  induction rounds generalizing mem s2Shorter i with
  | zero => simp [strncpyLoopReads] at hk
  | succ rounds ih =>
    rw [strncpyLoopReads] at hk
    split at hk
    · rcases List.mem_cons.mp hk with rfl | hk
      · assumption
      · split at hk
        · exact ih hk
        · simp at hk
    · simp at hk

theorem strncpyStep_of_read {mem' : Memory} {s2Shorter : Bool} {i : BitVec 64}
    (h : mem' (s2 + i) = mem (s2 + i)) :
    (∃ fault, strncpyStep s1 s2 mem s2Shorter i = .error fault ∧
      strncpyStep s1 s2 mem' s2Shorter i = .error fault) ∨
    ∃ v s2Shorter', strncpyStep s1 s2 mem s2Shorter i =
        .ok (Function.update mem (s1 + i) v, s2Shorter') ∧
      strncpyStep s1 s2 mem' s2Shorter i = .ok (Function.update mem' (s1 + i) v, s2Shorter') := by
  cases hb : mem (s2 + i) with
  | none =>
    rw [hb] at h
    refine .inl ⟨.unreadable (s2 + i), ?_, ?_⟩
    · rw [strncpyStep, readByte, hb]
      rfl
    · rw [strncpyStep, readByte, h]
      rfl
  | some b =>
    rw [hb] at h
    by_cases hpad : b = 0#8 ∨ s2Shorter = true
    · exact .inr ⟨_, _, strncpyStep_pad hb hpad, strncpyStep_pad h hpad⟩
    · obtain ⟨hne, hshorter⟩ := not_or.mp hpad
      rw [Bool.not_eq_true] at hshorter
      subst hshorter
      exact .inr ⟨_, _, strncpyStep_copy hb hne, strncpyStep_copy h hne⟩

/-- The loop depends on no byte that is not read: where two memories agree before it, they agree
after it. -/
theorem strncpyLoop_of_reads {mem' : Memory} {rounds : ℕ} {s2Shorter : Bool} {i : BitVec 64}
    (h : ∀ k ∈ strncpyLoopReads s1 s2 n rounds mem s2Shorter i, mem' (s2 + k) = mem (s2 + k)) :
    (∃ fault, strncpyLoop s1 s2 n rounds mem s2Shorter i = .error fault ∧
      strncpyLoop s1 s2 n rounds mem' s2Shorter i = .error fault) ∨
    ∃ r r', strncpyLoop s1 s2 n rounds mem s2Shorter i = .ok r ∧
      strncpyLoop s1 s2 n rounds mem' s2Shorter i = .ok r' ∧ ∀ a, mem' a = mem a → r' a = r a := by
  induction rounds generalizing mem mem' s2Shorter i with
  | zero => exact .inl ⟨_, rfl, rfl⟩
  | succ rounds ih =>
    rw [strncpyLoopReads] at h
    rw [strncpyLoop, strncpyLoop]
    by_cases hi : i < n
    · rw [if_pos hi] at h ⊢
      obtain ⟨hfirst, hrest⟩ := List.forall_mem_cons.mp h
      rw [if_pos hi]
      rcases @strncpyStep_of_read mem s1 s2 mem' s2Shorter i hfirst with
        ⟨fault, hstep, hstep'⟩ | ⟨v, s2Shorter', hstep, hstep'⟩
      · rw [hstep, hstep']
        exact .inl ⟨fault, rfl, rfl⟩
      · have hagree : ∀ a, mem' a = mem a →
            Function.update mem' (s1 + i) v a = Function.update mem (s1 + i) v a := by
          intro a ha
          by_cases heq : a = s1 + i
          · rw [heq, Function.update_self, Function.update_self]
          · rw [Function.update_of_ne heq, Function.update_of_ne heq, ha]
        rw [hstep] at hrest
        rw [hstep, hstep']
        rcases ih fun k hk => hagree _ (hrest k hk) with hfault | ⟨r, r', hr, hr', hsame⟩
        · exact .inl hfault
        · exact .inr ⟨r, r', hr, hr', fun a ha => hsame a (hagree a ha)⟩
    · rw [if_neg hi, if_neg hi]
      exact .inr ⟨mem, mem', rfl, rfl, fun _ ha => ha⟩

/-- The loop comes to the index behind the NUL, where its test is all that could stop it. -/
theorem mem_strncpyLoopReads {i rounds : ℕ} (hsource : SourceText mem s2 n text)
    (hapart : Apart s1 s2 n text) (hi : i ≤ text.length + 1) (hn : text.length + 1 < n.toNat)
    (hrounds : text.length + 1 - i < rounds) :
    BitVec.ofNat 64 (text.length + 1) ∈ strncpyLoopReads s1 s2 n rounds (copied mem s1 text i)
      (decide (text.length < i)) (BitVec.ofNat 64 i) := by
  have hlt64 := n.isLt
  induction rounds generalizing i with
  | zero => omega
  | succ rounds ih =>
    rw [strncpyLoopReads, if_pos ((ofNat_lt_iff (by omega)).mpr (by omega))]
    rcases Nat.lt_or_eq_of_le hi with hlt | rfl
    · rw [strncpyStep_copied hsource hapart (by omega) (by omega), BitVec.ofNat_add_ofNat]
      exact List.mem_cons_of_mem _ (ih hlt (by omega))
    · exact List.mem_cons_self ..

/-- The first `n` bytes of the text and the NULs behind it are in `s1`, and no other byte has
changed. -/
def WritesText (mem : Memory) (s1 s2 : Addr) (n : BitVec 64) (text : List Byte) : Prop :=
  ∃ mem', strncpy mem s1 s2 n = .ok (s1, mem') ∧
    (∀ i < n.toNat, mem' (s1 + BitVec.ofNat 64 i) = some (text.getD i 0#8)) ∧
    ∀ a, (∀ i < n.toNat, a ≠ s1 + BitVec.ofNat 64 i) → mem' a = mem a

/-- What is written is right for every `n`, where the reads behind the NUL find something. -/
theorem strncpy_writesText (hsource : SourceText mem s2 n text) (hapart : Apart s1 s2 n text)
    (hread : ∀ k, text.length < k → k < n.toNat → ∃ b, mem (s2 + BitVec.ofNat 64 k) = some b) :
    WritesText mem s1 s2 n text :=
  ⟨_, strncpy_copied hsource hapart hread, fun _ hi => copied_at hi n.isLt,
    fun _ ha => copied_of_ne ha⟩

/-- `strncpy` stays inside its source exactly where it has at most the NUL to pad with. -/
theorem strncpy_in_bounds_iff (hsource : SourceText mem s2 n text)
    (hapart : Apart s1 s2 n text) :
    (WritesText mem s1 s2 n text ∧ ∀ i ∈ strncpyReads mem s1 s2 n, i.toNat ≤ text.length) ↔
      n.toNat ≤ text.length + 1 := by
  have hn := n.isLt
  constructor
  · rintro ⟨-, hreads⟩
    by_contra hlong
    have hlt : text.length + 1 < n.toNat := by omega
    have hmem : BitVec.ofNat 64 (text.length + 1) ∈ strncpyReads mem s1 s2 n := by
      have hrounds : text.length + 1 - 0 < 2 ^ 64 := by omega
      have h := mem_strncpyLoopReads hsource hapart (Nat.zero_le _) hlt hrounds
      rw [copied_zero] at h
      rw [strncpyReads]
      simpa using h
    have hpast := hreads _ hmem
    rw [BitVec.toNat_ofNat, Nat.mod_eq_of_lt (by omega)] at hpast
    omega
  · intro hshort
    refine ⟨strncpy_writesText hsource hapart (by omega), fun i hi => ?_⟩
    have hlt := BitVec.lt_def.mp (strncpyLoopReads_lt hi)
    omega

theorem apart_of_short {text : List Byte} (htext : text.length < 4096) (hn : n.toNat < 4096) :
    Apart 8192#64 4096#64 n text := by
  intro k i hk _ hi heq
  have h := congrArg BitVec.toNat heq
  simp only [BitVec.toNat_add, BitVec.toNat_ofNat] at h
  omega

/-- `ab` with its NUL, of which `n` takes all three bytes. -/
theorem strncpy_in_bounds_iff_with_nul :
    WritesText (.ofBytes 4096#64 [97#8, 98#8, 0#8]) 8192#64 4096#64 3#64 [97#8, 98#8] := by
  have hsource : SourceText (.ofBytes 4096#64 [97#8, 98#8, 0#8]) 4096#64 3#64 [97#8, 98#8] :=
    ⟨by simp [Memory.ofBytes], by decide, .inl rfl⟩
  have hapart : Apart 8192#64 4096#64 3#64 [97#8, 98#8] := apart_of_short (by decide) (by decide)
  exact ((strncpy_in_bounds_iff hsource hapart).mpr (by decide)).1

/-- The empty string with nothing readable behind its NUL, and an `n` of 2. -/
theorem strncpy_reads_past_nul :
    SourceText (.ofBytes 4096#64 [0#8]) 4096#64 2#64 [] ∧ Apart 8192#64 4096#64 2#64 [] ∧
      strncpy (.ofBytes 4096#64 [0#8]) 8192#64 4096#64 2#64 = .error (.unreadable 4097#64) ∧
      ¬ ∀ i ∈ strncpyReads (.ofBytes 4096#64 [0#8]) 8192#64 4096#64 2#64,
        i.toNat ≤ ([] : List Byte).length := by
  have hread : 1#64 ∈ strncpyReads (.ofBytes 4096#64 [0#8]) 8192#64 4096#64 2#64 :=
    .tail _ (.head _)
  exact ⟨⟨trivial, by simp, .inl rfl⟩, apart_of_short (by decide) (by decide), rfl,
    fun h => absurd (h _ hread) (by decide)⟩

end Copy

end SysRv.KString
