import Mathlib.Data.BitVec

/-! # Addresses, and the ways the kernel stops -/

namespace SysRv

/-- `uintptr_t`, `size_t` and pointers: 64 bits, arithmetic wraps. -/
abbrev Addr := BitVec 64

def NULL : Addr := 0#64

/-- The calls of `srv_KernelPanic`, which hangs the calling processor for ever. -/
inductive KernelPanic where
  | eternalHeapExhausted
  | pageMisaligned
  | notLockOwner
  | exception (cause : String)
  deriving DecidableEq, Repr

/-- The text handed to `srv_KernelPanic`. -/
def KernelPanic.cause : KernelPanic → String
  | .eternalHeapExhausted => "Eternal Heap Exhausted!"
  | .pageMisaligned => "page_ptr misaligned on page free!"
  | .notLockOwner => "this_cpu != spinlock->cpu!"
  | .exception cause => cause

/-- What a call can end with instead of returning: a panic, an access through the null
pointer, a read of an address that is not backed by data, or a loop without end. -/
inductive Fault where
  | panic (panic : KernelPanic)
  | nullPointer
  | unreadable (address : Addr)
  | endless
  deriving DecidableEq, Repr

/-- A sequence that returns has run its first part, and the rest from there. -/
theorem bind_eq_ok {ε α β : Type} {x : Except ε α} {f : α → Except ε β} {b : β} :
    x >>= f = .ok b ↔ ∃ a, x = .ok a ∧ f a = .ok b := by
  cases x with
  | error e => exact ⟨fun h => (nomatch h), fun ⟨_, h, _⟩ => (nomatch h)⟩
  | ok a => exact ⟨fun h => ⟨a, rfl, h⟩, fun ⟨a', h, hf⟩ => by cases h; exact hf⟩

/-- A sequence that fails has failed in its first part, or in the rest. -/
theorem bind_eq_error {ε α β : Type} {x : Except ε α} {f : α → Except ε β} {e : ε} :
    x >>= f = .error e ↔ x = .error e ∨ ∃ a, x = .ok a ∧ f a = .error e := by
  cases x <;> simp [bind, Except.bind]

end SysRv
