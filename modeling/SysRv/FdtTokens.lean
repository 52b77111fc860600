import SysRv.ByteMemory
import SysRv.ListSplits
import SysRv.Nesting

/-!
# The structure block of a flattened device tree

The tokens of the Devicetree Specification, their encoding in big-endian words padded with
zeros, and the nesting that a well-formed block has. `FDT_NOP` may stand between any two
tokens and takes no part in the nesting.
-/

namespace SysRv.FdtTokens

open ByteMemory Nesting

/-- A token with what belongs to it. Names are without their terminator. -/
inductive Token where
  | beginNode (name : List Byte)
  | endNode
  | prop (nameoff : BitVec 32) (value : List Byte)
  | nop
  | fdtEnd
  deriving DecidableEq, Repr

/-- Bytes filled up with zeros to a multiple of four. -/
def padded (bytes : List Byte) : List Byte :=
  bytes ++ List.replicate ((4 - bytes.length % 4) % 4) 0#8

namespace Token

def encode : Token → List Byte
  | .beginNode name => be32 1#32 ++ padded (name ++ [0#8])
  | .endNode => be32 2#32
  | .prop nameoff value =>
    be32 3#32 ++ be32 (BitVec.ofNat 32 value.length) ++ be32 nameoff ++ padded value
  | .nop => be32 4#32
  | .fdtEnd => be32 9#32

/-- Names contain no NUL, and the length of a value fits its field. -/
def Valid : Token → Prop
  | .beginNode name => ∀ b ∈ name, b ≠ 0#8
  | .prop _ value => value.length < 2 ^ 32
  | _ => True

instance : DecidablePred Valid
  | .beginNode name => inferInstanceAs (Decidable (∀ b ∈ name, b ≠ 0#8))
  | .prop _ value => inferInstanceAs (Decidable (value.length < 2 ^ 32))
  | .endNode | .nop | .fdtEnd => inferInstanceAs (Decidable True)

end Token

def encode (tokens : List Token) : List Byte := tokens.flatMap Token.encode

structure PropertyItem where
  nameoff : BitVec 32
  length : BitVec 32
  offset : ℕ
  deriving DecidableEq, Repr

abbrev FdtEvent := Event (List Byte) PropertyItem

def Token.event (offset : ℕ) : Token → List FdtEvent
  | .beginNode name => [.opening name]
  | .endNode => [.closing]
  | .prop nameoff value => [.item ⟨nameoff, BitVec.ofNat 32 value.length, offset + 12⟩]
  | .nop => []
  | .fdtEnd => []

def events : ℕ → List Token → List FdtEvent
  | _, [] => []
  | offset, t :: ts => t.event offset ++ events (offset + t.encode.length) ts

/-- The nesting after some tokens of a block. The root is the node with the empty name. -/
def nesting (tokens : List Token) : Option (State PropertyItem) :=
  run List.isEmpty .initial (events 0 tokens)

/-- The tokens before `FDT_END` describe one root node and what it encloses. -/
structure WellFormed (body : List Token) : Prop where
  valid : ∀ t ∈ body, t.Valid
  noEnd : .fdtEnd ∉ body
  balanced : ∃ st, nesting body = some st ∧ st.opened = [] ∧ st.parents ≠ []

theorem WellFormed.at_split {body pre post : List Token} {t : Token} (hwf : WellFormed body)
    (hsplit : body = pre ++ t :: post) : t.Valid ∧ t ≠ .fdtEnd := by
  have hmem : t ∈ body := hsplit ▸ List.mem_append_right pre (List.mem_cons_self ..)
  exact ⟨hwf.valid t hmem, fun h => hwf.noEnd (h ▸ hmem)⟩

@[simp] theorem encode_nil : encode [] = [] := rfl

@[simp] theorem encode_cons (t : Token) (ts : List Token) :
    encode (t :: ts) = t.encode ++ encode ts := rfl

@[simp] theorem encode_append (ts us : List Token) : encode (ts ++ us) = encode ts ++ encode us :=
  List.flatMap_append

theorem encode_append_singleton_length (pre : List Token) (t : Token) :
    (encode (pre ++ [t])).length = (encode pre).length + t.encode.length := by
  rw [encode_append, List.length_append, encode_cons, encode_nil, List.append_nil]

/-- The terminator of a name of a length divisible by four, in a word of its own. -/
theorem encode_beginNode {name : List Byte} (hdiv : name.length % 4 = 0) :
    (Token.beginNode name).encode = be32 1#32 ++ name ++ be32 0#32 := by
  have hmod : (name.length + 1) % 4 = 1 := by omega
  rw [Token.encode, padded, List.length_append, List.length_singleton, hmod]
  simp [List.replicate_succ, be32, byteAt]

theorem padded_length (bytes : List Byte) :
    (padded bytes).length = bytes.length + (4 - bytes.length % 4) % 4 := by
  simp [padded]

theorem events_append (offset : ℕ) (ts us : List Token) :
    events offset (ts ++ us) = events offset ts ++ events (offset + (encode ts).length) us := by
  induction ts generalizing offset with
  | nil => simp [events]
  | cons t ts ih => simp [events, ih, Nat.add_assoc]

theorem nesting_append_singleton (pre : List Token) (t : Token) :
    nesting (pre ++ [t]) =
      (nesting pre).bind fun st => run List.isEmpty st (t.event (encode pre).length) := by
  rw [nesting, events_append, run_append, nesting]
  simp [events]

theorem nesting_of_append {pre post : List Token} {st : State PropertyItem}
    (h : nesting (pre ++ post) = some st) : ∃ st', nesting pre = some st' := by
  rw [nesting, events_append] at h
  obtain ⟨st', hst', -⟩ := run_of_append h
  exact ⟨st', hst'⟩

end SysRv.FdtTokens
