import SysRv.KString

/-!
# The formatted output of the kernel

`printf_internal` of `kstdlib/stdio.c`. The format and the strings behind `%s` are memory that
is only read. What is handed to `srv_hal_WriteDebugChar` is collected in order; a run that
ends in a fault leaves no output.
-/

namespace SysRv.Printf

open ByteMemory KString

def chr (c : Char) : Byte := BitVec.ofNat 8 c.toNat

/-- What a call can end with instead of returning: `__builtin_va_arg` behind the last argument,
a shift by the width of the number or more, or a fault of a memory access. -/
inductive PrintfFault where
  | noArgument
  | overwideShift
  | memory (fault : Fault)
  deriving DecidableEq, Repr

/-- The byte of a string at an index. An index is only added to the address of its string, so
it is kept as a number and wraps around there. -/
def readChar (mem : Memory) (str : Addr) (index : ℕ) : Except PrintfFault Byte :=
  match readByte mem (str + BitVec.ofNat 64 index) with
  | .ok b => .ok b
  | .error fault => .error (.memory fault)

/-- What a helper writes, and the count it returns. -/
structure Printed where
  text : List Byte
  count : BitVec 32

def digits : List Byte := "0123456789ABCDEF".toList.map chr

def digit (k : ℕ) : Byte := digits.getD k 0#8

/-- The loop over the digits of a number, the last digit first, behind what has been written so
far and with `num`, of `w` bits. A number of 64 bits has at most 20 digits. -/
def decimalLoop {w : ℕ} : ℕ → ℕ → List Byte → BitVec w → List Byte × BitVec w
  | 0, _, text, num => (text, num)
  | n + 1, number, text, num =>
    let text := text ++ [digit (number % 10)]
    let num := num + 1#w
    if number / 10 = 0 then (text, num) else decimalLoop n (number / 10) text num

/-- `printf_internal_Number`. The sign is not counted. -/
def printfInternalNumber (number : BitVec 32) : Printed :=
  let negative := number.slt 0#32
  let sign := if negative then [chr '-'] else []
  let number := if negative then number - number else number
  let (text, num) := decimalLoop 20 number.toNat sign 0#32
  ⟨text, num⟩

/-- `printf_internal_ULong`. Its `num` is an unsigned long, and becomes an `int` at the end. -/
def printfInternalULong (number : BitVec 64) : Printed :=
  let (text, num) := decimalLoop 20 number.toNat [] 0#64
  ⟨text, num.setWidth 32⟩

/-- The loop that counts the hexadecimal digits of `i`, at most 16 of them. -/
def valueDigitsLoop : ℕ → BitVec 64 → BitVec 32 → BitVec 32
  | 0, _, valueDigits => valueDigits
  | n + 1, i, valueDigits =>
    if 0#64 < i then valueDigitsLoop n (i >>> 4) (valueDigits + 1#32) else valueDigits

/-- `number >> amount`, which C defines for amounts below the width only. -/
def shiftRight {w : ℕ} (number : BitVec w) (amount : ℕ) : Except PrintfFault (BitVec w) :=
  if amount < w then .ok (number >>> amount) else .error .overwideShift

/-- The loop over `i`, which runs downwards from `digits_to_print - 1`. -/
def hexLoop {w : ℕ} (number : BitVec w) (valueDigits : BitVec 32) : ℕ → Except PrintfFault (List Byte)
  | 0 => return []
  | i + 1 => do
    if valueDigits.toNat ≤ i then
      let text ← hexLoop number valueDigits i
      return chr '0' :: text
    else
      let shifted ← shiftRight number (i * 4)
      let text ← hexLoop number valueDigits i
      return digit (shifted.toNat &&& 0xF) :: text

/-- `printf_internal_HexPadded`. Its count of the digits is made with a `__SIZE_TYPE__`. -/
def printfInternalHexPadded (number zeroPadWidth : BitVec 32) : Except PrintfFault Printed := do
  let valueDigits := valueDigitsLoop 16 (number.setWidth 64) 0#32
  let valueDigits := if valueDigits = 0#32 then 1#32 else valueDigits
  let digitsToPrint := if valueDigits.slt zeroPadWidth then zeroPadWidth else valueDigits
  let text ← hexLoop number valueDigits digitsToPrint.toNat
  return ⟨text, digitsToPrint⟩

def printfInternalHexULongPadded (number : BitVec 64) (zeroPadWidth : BitVec 32) :
    Except PrintfFault Printed := do
  let valueDigits := valueDigitsLoop 16 number 0#32
  let valueDigits := if valueDigits = 0#32 then 1#32 else valueDigits
  let digitsToPrint := if valueDigits.slt zeroPadWidth then zeroPadWidth else valueDigits
  let text ← hexLoop number valueDigits digitsToPrint.toNat
  return ⟨text, digitsToPrint⟩

/-- The loop of `printf_internal_String`: what it writes, and `curr_index` at the end. -/
def stringLoop (mem : Memory) (string : Addr) : ℕ → ℕ → Except PrintfFault (List Byte × ℕ)
  | 0, _ => .error (.memory .endless)
  | n + 1, currIndex => do
    let character ← readChar mem string currIndex
    if character = 0#8 then return ([], currIndex)
    else
      let (text, last) ← stringLoop mem string n (currIndex + 1)
      return (character :: text, last)

/-- `printf_internal_String`. The index becomes an `int` at the end. -/
def printfInternalString (mem : Memory) (string : Addr) : Except PrintfFault Printed := do
  let (text, currIndex) ← stringLoop mem string (2 ^ 64) 0
  return ⟨text, BitVec.ofNat 32 currIndex⟩

def isDigit (b : Byte) : Bool := (chr '0').ule b && b.ule (chr '9')

/-- The loop of `printf_internal_ParseZeroPadWidth`. The width wraps around. -/
def zeroPadWidthLoop (mem : Memory) (format : Addr) :
    ℕ → BitVec 32 → ℕ → Except PrintfFault (BitVec 32 × ℕ)
  | 0, _, _ => .error (.memory .endless)
  | n + 1, zeroPadWidth, index => do
    let b ← readChar mem format index
    if isDigit b then
      zeroPadWidthLoop mem format n (zeroPadWidth * 10#32 + (b - chr '0').setWidth 32) (index + 1)
    else return (zeroPadWidth, index)

def parseZeroPadWidth (mem : Memory) (format : Addr) (index : ℕ) :
    Except PrintfFault (BitVec 32 × ℕ) := do
  let b ← readChar mem format index
  if b ≠ chr '0' then return (0#32, index)
  else zeroPadWidthLoop mem format (2 ^ 64) 0#32 (index + 1)

/-- The locals of `printf_internal`, the arguments behind `va` (each in a slot of 64 bits, of
which an `int` takes the lower half) and the characters written. -/
structure PrintfState where
  index : ℕ
  va : List (BitVec 64)
  output : List Byte
  numWritten : BitVec 32

def PrintfState.print (s : PrintfState) (p : Printed) : PrintfState :=
  { s with output := s.output ++ p.text, numWritten := s.numWritten + p.count }

/-- `__builtin_va_arg`, and the output made of the argument. -/
def PrintfState.printArg (s : PrintfState) (f : BitVec 64 → Except PrintfFault Printed) :
    Except PrintfFault PrintfState :=
  match s.va with
  | [] => .error .noArgument
  | val :: va => do
    let p ← f val
    return { s with va := va }.print p

def printChar (val : BitVec 64) : Printed := ⟨[val.setWidth 8], 1#32⟩

/-- The case of `%d`, which counts the sign. -/
def printInt (val : BitVec 64) : Printed :=
  let val := val.setWidth 32
  let p := printfInternalNumber val
  if val.slt 0#32 then { p with count := p.count + 1#32 } else p

def printDirective (mem : Memory) (format : Addr) (zeroPadWidth : BitVec 32) (s : PrintfState) :
    Except PrintfFault PrintfState := do
  let formatChar ← readChar mem format s.index
  if formatChar = chr 'l' then
    let s := { s with index := s.index + 1 }
    let nextFormatChar ← readChar mem format s.index
    if nextFormatChar = chr 'x' then
      s.printArg fun val => printfInternalHexULongPadded val zeroPadWidth
    else if nextFormatChar = chr 'u' then s.printArg fun val => .ok (printfInternalULong val)
    else return s
  else if formatChar = chr 'c' then s.printArg fun val => .ok (printChar val)
  else if formatChar = chr 'd' then s.printArg fun val => .ok (printInt val)
  else if formatChar = chr 'x' then
    s.printArg fun val => printfInternalHexPadded (val.setWidth 32) zeroPadWidth
  else if formatChar = chr 's' then s.printArg fun val => printfInternalString mem val
  else if formatChar = chr '%' then return s.print ⟨[chr '%'], 1#32⟩
  else return s

/-- The body of the loop, at a character other than NUL. -/
def printStep (mem : Memory) (format : Addr) (character : Byte) (s : PrintfState) :
    Except PrintfFault PrintfState := do
  if character = chr '%' then
    let (zeroPadWidth, index) ← parseZeroPadWidth mem format (s.index + 1)
    let s ← printDirective mem format zeroPadWidth { s with index := index }
    return { s with index := s.index + 1 }
  else return { s.print ⟨[character], 1#32⟩ with index := s.index + 1 }

def printfLoop (mem : Memory) (format : Addr) : ℕ → PrintfState → Except PrintfFault PrintfState
  | 0, _ => .error (.memory .endless)
  | n + 1, s => do
    let character ← readChar mem format s.index
    if character = 0#8 then return s
    else
      let s ← printStep mem format character s
      printfLoop mem format n s

/-- `printf_internal`: the state in which the loop ends, where `numWritten` is the result. -/
def printfInternal (mem : Memory) (format : Addr) (va : List (BitVec 64)) :
    Except PrintfFault PrintfState :=
  printfLoop mem format (2 ^ 64) ⟨0, va, [], 0#32⟩

end SysRv.Printf
