import ImagineOS.Checked
import ImagineOS.Libc.Strtol

/-!
# Libc: formatted output

`format_write` copies a format into a buffer of some capacity, with a text for each directive. It
counts the characters that do not fit too. `vfprintf` formats once to measure, and a second time if
its local buffer was too small. A store outside of a buffer is a panic, and so is an argument that
is missing or of the wrong type.
-/

namespace ImagineOS.Libc

open Checked

def intMax : ℕ := 2 ^ 31 - 1

/-- `(size_t)-1` -/
def sizeMax : ℕ := 2 ^ 64 - 1

/-! ### Arguments -/

/-- Arguments. The types of 64 bits are one, and so are those with and without a sign. -/
inductive Argument
  | int (value : BitVec 32)
  | long (value : BitVec 64)
  | string (text : Option CString)
  | pointer (address : BitVec 64)

namespace Argument

/-- The value of an `int`. -/
def int? : Argument → Option (BitVec 32)
  | int value => some value
  | _ => none

/-- The value of a `long`. -/
def long? : Argument → Option (BitVec 64)
  | long value => some value
  | _ => none

/-- A string, which may be null. -/
def string? : Argument → Option (Option CString)
  | string text => some text
  | _ => none

/-- A pointer. -/
def pointer? : Argument → Option (BitVec 64)
  | pointer address => some address
  | _ => none

end Argument

/-- `va_arg`, for a type -/
def vaArg {α : Type} (type : Argument → Option α) :
    List Argument → Checked Empty (α × List Argument)
  | [] => panic
  | argument :: arguments =>
    match type argument with
    | some value => .ok (value, arguments)
    | none => panic

/-! ### Directives -/

inductive FormatLength
  | default
  | char
  | short
  | long
  | longLong
  | size
  | ptrdiff
  | intmax
  deriving DecidableEq

/-- The flags of a directive. -/
structure Flags where
  left : Bool
  plus : Bool
  space : Bool
  alternate : Bool
  zero : Bool
  deriving DecidableEq

/-- No flags. -/
def Flags.none : Flags := ⟨false, false, false, false, false⟩

/-- A width or a precision: a number, or `*` for an argument. -/
inductive Amount
  | number (value : ℕ)
  | argument
  deriving DecidableEq

/-- Directives, up to the character of the conversion. -/
structure Directive where
  flags : Flags
  width : Amount
  precision : Option Amount
  length : FormatLength
  conversion : UInt8
  deriving DecidableEq

/-- The loop over the flags. -/
def readFlags : Flags → List UInt8 → Flags × List UInt8
  | flags, [] => (flags, [])
  | flags, c :: format =>
    if c = 45 then readFlags { flags with left := true } format
    else if c = 43 then readFlags { flags with plus := true } format
    else if c = 32 then readFlags { flags with space := true } format
    else if c = 35 then readFlags { flags with alternate := true } format
    else if c = 48 then readFlags { flags with zero := true } format
    else (flags, c :: format)

/-- The loop over the digits of a width or a precision, which drops digits that could overflow. -/
def readNumber : ℕ → List UInt8 → ℕ × List UInt8
  | value, [] => (value, [])
  | value, c :: format =>
    if 48 ≤ c ∧ c ≤ 57 then
      readNumber (if value < intMax / 10 then value * 10 + (c.toNat - 48) else value) format
    else (value, c :: format)

/-- A width, or the precision after its dot. -/
def readAmount (format : List UInt8) : Amount × List UInt8 :=
  if byteAt format 0 = 42 then (.argument, format.drop 1)
  else (.number (readNumber 0 format).1, (readNumber 0 format).2)

/-- The precision, if there is a dot. -/
def readPrecision (format : List UInt8) : Option Amount × List UInt8 :=
  if byteAt format 0 = 46 then
    (some (readAmount (format.drop 1)).1, (readAmount (format.drop 1)).2)
  else (none, format)

/-- The length modifier. -/
def readLength (format : List UInt8) : FormatLength × List UInt8 :=
  if byteAt format 0 = 104 then
    if byteAt format 1 = 104 then (.char, format.drop 2) else (.short, format.drop 1)
  else if byteAt format 0 = 108 then
    if byteAt format 1 = 108 then (.longLong, format.drop 2) else (.long, format.drop 1)
  else if byteAt format 0 = 122 then (.size, format.drop 1)
  else if byteAt format 0 = 116 then (.ptrdiff, format.drop 1)
  else if byteAt format 0 = 106 then (.intmax, format.drop 1)
  else if byteAt format 0 = 76 then (.longLong, format.drop 1)
  else (.default, format)

/-- What `format_write` reads after a `%`, and the rest of the format. The conversion is zero at the
end of the format. -/
def readDirective (format : List UInt8) : Directive × List UInt8 :=
  let (flags, format) := readFlags Flags.none format
  let (width, format) := readAmount format
  let (precision, format) := readPrecision format
  let (length, format) := readLength format
  (⟨flags, width, precision, length, byteAt format 0⟩, format.drop 1)

theorem length_readFlags (flags : Flags) (format : List UInt8) :
    (readFlags flags format).2.length ≤ format.length := by
  induction format generalizing flags with
  | nil => exact le_rfl
  | cons c format ih =>
    rw [readFlags]
    split_ifs
    all_goals first | exact le_rfl | exact Nat.le_succ_of_le (ih _)

theorem length_readNumber (value : ℕ) (format : List UInt8) :
    (readNumber value format).2.length ≤ format.length := by
  induction format generalizing value with
  | nil => exact le_rfl
  | cons c format ih =>
    rw [readNumber]
    split_ifs
    all_goals first | exact le_rfl | exact Nat.le_succ_of_le (ih _)

theorem length_readAmount (format : List UInt8) :
    (readAmount format).2.length ≤ format.length := by
  rw [readAmount]
  split_ifs
  · simp
  · exact length_readNumber 0 format

theorem length_readPrecision (format : List UInt8) :
    (readPrecision format).2.length ≤ format.length := by
  rw [readPrecision]
  split_ifs
  · exact Nat.le_trans (length_readAmount _) (by simp)
  · exact le_rfl

theorem length_readLength (format : List UInt8) :
    (readLength format).2.length ≤ format.length := by
  rw [readLength]
  split_ifs <;> simp

theorem length_readDirective (format : List UInt8) :
    (readDirective format).2.length ≤ format.length := by
  have h₁ := length_readFlags Flags.none format
  have h₂ := length_readAmount (readFlags Flags.none format).2
  have h₃ := length_readPrecision (readAmount (readFlags Flags.none format).2).2
  have h₄ := length_readLength (readPrecision (readAmount (readFlags Flags.none format).2).2).2
  simp only [readDirective, List.length_drop]
  omega

/-! ### Values -/

/-- The width of a directive, where a negative argument stands for the flag `-` too, and `INT_MIN`
is its own opposite. -/
def takeWidth (left : Bool) (arguments : List Argument) :
    Amount → Checked Empty ((Bool × ℤ) × List Argument)
  | .number value => return ((left, value), arguments)
  | .argument => do
    let (width, arguments) ← vaArg Argument.int? arguments
    if width.toInt < 0 then return ((true, (-width).toInt), arguments)
    else return ((left, width.toInt), arguments)

/-- The precision of a directive, or `-1`. -/
def takePrecision (arguments : List Argument) :
    Option Amount → Checked Empty (ℤ × List Argument)
  | none => return (-1, arguments)
  | some (.number value) => return (value, arguments)
  | some .argument => do
    let (precision, arguments) ← vaArg Argument.int? arguments
    return (if precision.toInt < 0 then -1 else precision.toInt, arguments)

/-- The argument of a signed conversion. -/
def takeSigned (length : FormatLength) (arguments : List Argument) :
    Checked Empty (ℤ × List Argument) :=
  match length with
  | .long | .longLong | .size | .ptrdiff | .intmax => do
    let (value, arguments) ← vaArg Argument.long? arguments
    return (value.toInt, arguments)
  | _ => do
    let (value, arguments) ← vaArg Argument.int? arguments
    return (value.toInt, arguments)

/-- The argument of an unsigned conversion. -/
def takeUnsigned (length : FormatLength) (arguments : List Argument) :
    Checked Empty (ℕ × List Argument) :=
  match length with
  | .long | .longLong | .size | .ptrdiff | .intmax => do
    let (value, arguments) ← vaArg Argument.long? arguments
    return (value.toNat, arguments)
  | _ => do
    let (value, arguments) ← vaArg Argument.int? arguments
    return (value.toNat, arguments)

/-- `conversion == 'd' || conversion == 'i'` -/
def isSigned (conversion : UInt8) : Bool := conversion = 100 || conversion = 105

/-- `conversion == 'p'` -/
def isPointer (conversion : UInt8) : Bool := conversion = 112

/-- The conversions of integers. -/
def isInteger (conversion : UInt8) : Bool :=
  isSigned conversion || conversion = 117 || conversion = 111 || conversion = 120 ||
    conversion = 88 || isPointer conversion

/-- `base` -/
def conversionBase (conversion : UInt8) : ℕ :=
  if conversion = 111 then 8
  else if conversion = 120 ∨ conversion = 88 ∨ conversion = 112 then 16
  else 10

/-- `negative` and `value` -/
def takeInteger (conversion : UInt8) (length : FormatLength) (arguments : List Argument) :
    Checked Empty ((Bool × ℕ) × List Argument) :=
  if isPointer conversion then do
    let (address, arguments) ← vaArg Argument.pointer? arguments
    return ((false, address.toNat), arguments)
  else if isSigned conversion then do
    let (value, arguments) ← takeSigned length arguments
    return ((value < 0, if value < 0 then (-(value + 1)).toNat + 1 else value.toNat), arguments)
  else do
    let (value, arguments) ← takeUnsigned length arguments
    return ((false, value), arguments)

def alphabet (conversion : UInt8) : List UInt8 :=
  if conversion = 88 then
    [48, 49, 50, 51, 52, 53, 54, 55, 56, 57, 65, 66, 67, 68, 69, 70]
  else [48, 49, 50, 51, 52, 53, 54, 55, 56, 57, 97, 98, 99, 100, 101, 102]

/-- The loop that writes the digits of a value to an array with some room, from the last one. -/
def writeDigits (alphabet : List UInt8) (base : ℕ) :
    ℕ → ℕ → List UInt8 → Checked Empty (List UInt8)
  | 0, _, _ => panic
  | room + 1, value, digits => do
    let digit ← index alphabet (value % base)
    if value / base = 0 then return digits ++ [digit]
    else writeDigits alphabet base room (value / base) (digits ++ [digit])

/-- `width > (int)length ? (size_t)width - length : 0` -/
def padding (width : ℤ) (length : ℕ) : ℕ :=
  if Int.bmod length (2 ^ 32) < width then ((width - length) % 2 ^ 64).toNat else 0

/-- The parts of the text of an integer. -/
structure Parts where
  left : Bool
  zeroPadded : Bool
  padding : ℕ
  sign : UInt8
  basePrefix : List UInt8
  zeroCount : ℕ
  digits : List UInt8

/-- The digits of an integer, from the last one. -/
def integerDigits (conversion : UInt8) (precision : ℤ) (value : ℕ) : Checked Empty (List UInt8) :=
  if value ≠ 0 ∨ precision ≠ 0 then
    writeDigits (alphabet conversion) (conversionBase conversion) 64 value []
  else return []

/-- `sign`, or zero for none -/
def integerSign (flags : Flags) (negative : Bool) : UInt8 :=
  if negative then 45 else if flags.plus then 43 else if flags.space then 32 else 0

/-- `prefix` -/
def integerPrefix (conversion : UInt8) (alternate : Bool) (digitCount : ℕ) : List UInt8 :=
  let base := conversionBase conversion
  if isPointer conversion ∨ alternate ∧ digitCount ≠ 0 ∧ (base = 16 ∨ base = 8) then
    if base = 16 then [48, if conversion = 88 then 88 else 120] else [48]
  else []

/-- What `format_write` computes before it emits an integer. -/
def integerParts (d : Directive) (left : Bool) (width precision : ℤ) (negative : Bool)
    (value : ℕ) : Checked Empty Parts := do
  let digits ← integerDigits d.conversion precision value
  let zeroCount := (precision - digits.length).toNat
  let sign := integerSign d.flags negative
  let basePrefix := integerPrefix d.conversion d.flags.alternate digits.length
  let contentLength :=
    digits.length + zeroCount + basePrefix.length + if sign ≠ 0 then 1 else 0
  return ⟨left, d.flags.zero && precision < 0, padding width contentLength, sign, basePrefix,
    zeroCount, digits⟩

/-! ### The emitter -/

/-- What `%n` stores: a value of a number of bytes. -/
structure Stored where
  address : BitVec 64
  size : ℕ
  value : ℕ

/-- The buffer, `used`, and what `%n` has stored. -/
structure Output where
  buffer : List UInt8
  used : ℕ
  stored : List Stored

def emitChar (capacity : ℕ) (value : UInt8) (out : Output) : Checked Empty Output := do
  let buffer ←
    if capacity ≠ 0 ∧ out.used < capacity - 1 then setAt out.buffer out.used value
    else pure out.buffer
  return ⟨buffer, if out.used < sizeMax then out.used + 1 else out.used, out.stored⟩

def emitRepeat (capacity : ℕ) (value : UInt8) : ℕ → Output → Checked Empty Output
  | 0, out => return out
  | count + 1, out => do
    let out ← emitChar capacity value out
    emitRepeat capacity value count out

def emitBytes (capacity : ℕ) : List UInt8 → Output → Checked Empty Output
  | [], out => return out
  | c :: text, out => do
    let out ← emitChar capacity c out
    emitBytes capacity text out

/-- `if (condition) emit_repeat(.., value, count)` -/
def emitIf (condition : Bool) (capacity : ℕ) (value : UInt8) (count : ℕ) (out : Output) :
    Checked Empty Output :=
  if condition then emitRepeat capacity value count out else return out

/-- `if (value) emit_char(.., value)` -/
def emitNonzero (capacity : ℕ) (value : UInt8) (out : Output) : Checked Empty Output :=
  if value ≠ 0 then emitChar capacity value out else return out

/-- A text in a field of some width, as `%s`, `%c` and `%m` have it. -/
def emitField (capacity : ℕ) (left : Bool) (width : ℤ) (text : List UInt8) (out : Output) :
    Checked Empty Output := do
  let out ← emitIf (!left) capacity 32 (padding width text.length) out
  let out ← emitBytes capacity text out
  emitIf left capacity 32 (padding width text.length) out

/-- How `format_write` emits an integer. -/
def emitParts (capacity : ℕ) (parts : Parts) (out : Output) : Checked Empty Output := do
  let out ← emitIf (!parts.left && !parts.zeroPadded) capacity 32 parts.padding out
  let out ← emitNonzero capacity parts.sign out
  let out ← emitBytes capacity parts.basePrefix out
  let out ← emitIf (!parts.left && parts.zeroPadded) capacity 48 parts.padding out
  let out ← emitRepeat capacity 48 parts.zeroCount out
  let out ← emitBytes capacity parts.digits.reverse out
  emitIf parts.left capacity 32 parts.padding out

/-- The text for a string: `(null)` for none, and no more than the precision. -/
def stringText (precision : ℤ) (text : Option CString) : List UInt8 :=
  let bytes := match text with
    | some text => text.bytes
    | none => [40, 110, 117, 108, 108, 41]
  if 0 ≤ precision ∧ precision.toNat < bytes.length then bytes.take precision.toNat else bytes

/-- What `format_write` does for a directive, where `message` is `strerror(errno)`. -/
def emitDirective (capacity : ℕ) (message : CString) (d : Directive) (arguments : List Argument)
    (out : Output) : Checked Empty (Output × List Argument) := do
  let ((left, width), arguments) ← takeWidth d.flags.left arguments d.width
  let (precision, arguments) ← takePrecision arguments d.precision
  if d.conversion = 115 then do
    let (text, arguments) ← vaArg Argument.string? arguments
    let out ← emitField capacity left width (stringText precision text) out
    return (out, arguments)
  else if d.conversion = 99 then do
    let (value, arguments) ← vaArg Argument.int? arguments
    let out ← emitField capacity left width [UInt8.ofBitVec (value.setWidth 8)] out
    return (out, arguments)
  else if d.conversion = 109 then do
    let out ← emitField capacity left width message.bytes out
    return (out, arguments)
  else if d.conversion = 110 then do
    let (address, arguments) ← vaArg Argument.pointer? arguments
    let size := match d.length with
      | .long | .longLong | .size => 8
      | _ => 4
    return ({ out with stored := out.stored ++ [⟨address, size, out.used % 2 ^ (8 * size)⟩] },
      arguments)
  else if !isInteger d.conversion then do
    let out ← emitChar capacity 37 out
    let out ← emitNonzero capacity d.conversion out
    return (out, arguments)
  else do
    let ((negative, value), arguments) ← takeInteger d.conversion d.length arguments
    let parts ← integerParts d left width precision negative value
    let out ← emitParts capacity parts out
    return (out, arguments)

/-- The loop of `format_write`. -/
def formatFrom (capacity : ℕ) (message : CString) :
    List UInt8 → List Argument → Output → Checked Empty Output
  | [], _, out => return out
  | c :: format, arguments, out =>
    if c ≠ 37 then do
      let out ← emitChar capacity c out
      formatFrom capacity message format arguments out
    else if byteAt format 0 = 37 then do
      let out ← emitChar capacity 37 out
      formatFrom capacity message (format.drop 1) arguments out
    else do
      let (out, arguments) ←
        emitDirective capacity message (readDirective format).1 arguments out
      formatFrom capacity message (readDirective format).2 arguments out
  termination_by format => format.length
  decreasing_by
    · simp
    · simp only [List.length_drop, List.length_cons]
      omega
    · have := length_readDirective format
      simp only [List.length_cons]
      omega

/-- The buffer, the number that `format_write` returns, and what `%n` has stored. -/
structure Formatted where
  buffer : List UInt8
  count : ℕ
  stored : List Stored

def formatWrite (message : CString) (buffer : List UInt8) (capacity : ℕ) (format : CString)
    (arguments : List Argument) : Checked Empty Formatted := do
  let out ← formatFrom capacity message format.bytes arguments ⟨buffer, 0, []⟩
  let buffer ←
    if 0 < capacity then
      setAt out.buffer (if out.used < capacity then out.used else capacity - 1) 0
    else pure out.buffer
  return ⟨buffer, if intMax < out.used then intMax else out.used, out.stored⟩

def outputCapacity : ℕ := 512

/-- What `vfprintf` returns, and the bytes that it has given to the stream. -/
structure Printed where
  result : ℤ
  flushed : Option (List UInt8)

/-- `flush_output`, and the result of `vfprintf` after it. -/
def flushed (flush : List UInt8 → ℤ) (buffer : List UInt8) (count : ℕ) : Checked Empty Printed := do
  let bytes ← slice buffer 0 count
  return ⟨if flush bytes = count then count else -1, some bytes⟩

/-- `vfprintf`, with its local buffer, the memory that `malloc` returns, and the number of bytes
that the stream takes. -/
def vfprintf (message : CString) (locals : List UInt8) (malloc : ℕ → Option (List UInt8))
    (flush : List UInt8 → ℤ) (format : CString) (arguments : List Argument) :
    Checked Empty Printed := do
  let required ← formatWrite message locals outputCapacity format arguments
  if required.count < outputCapacity then flushed flush required.buffer required.count
  else
    match malloc (required.count + 1) with
    | none => return ⟨-1, none⟩
    | some buffer => do
      let written ← formatWrite message buffer (required.count + 1) format arguments
      if written.count = required.count then flushed flush written.buffer written.count
      else return ⟨-1, none⟩

end ImagineOS.Libc
