import ImagineOS.Libc.Fields
import ImagineOS.Libc.Rendering

/-!
# Libc: the conversions of integers

What ISO C says that `%d`, `%i`, `%u`, `%o`, `%x` and `%X` print, for flags, a width, a precision
and a length modifier, and what `format_write` prints.
-/

namespace ImagineOS.Libc

open Checked List

/-- Flags. -/
inductive Flag
  | left
  | plus
  | space
  | alternate
  | zero
  deriving DecidableEq

/-- The character of a flag. -/
def Flag.character : Flag → UInt8
  | left => 45
  | plus => 43
  | space => 32
  | alternate => 35
  | zero => 48

/-- Texts of decimal digits. -/
def Decimal (text : List UInt8) : Prop := ∀ c ∈ text, 48 ≤ c ∧ c ≤ 57

/-- Widths. A number does not start with a zero, which would be a flag. -/
inductive FieldWidth
  | none
  | number (digits : List UInt8) (valid : digits ≠ [] ∧ Decimal digits ∧ byteAt digits 0 ≠ 48)
  | star (argument : BitVec 32)

/-- Precisions. A number may be empty. -/
inductive FieldPrecision
  | none
  | number (digits : List UInt8) (valid : Decimal digits)
  | star (argument : BitVec 32)

/-- Length modifiers. -/
inductive Modifier
  | hh
  | h
  | none
  | l
  | ll
  | z
  deriving DecidableEq

/-- The conversions. -/
inductive Specifier
  | d
  | i
  | u
  | o
  | x
  | X
  deriving DecidableEq

/-- The width of an argument, after the promotion of small types. -/
def Modifier.argumentBits : Modifier → ℕ
  | hh | h | none => 32
  | l | ll | z => 64

/-- The width of the type that a modifier stands for. -/
def Modifier.bits : Modifier → ℕ
  | hh => 8
  | h => 16
  | none => 32
  | l | ll | z => 64

/-- A directive for an integer, with its arguments. -/
structure Conversion where
  flags : List Flag
  width : FieldWidth
  precision : FieldPrecision
  modifier : Modifier
  specifier : Specifier
  argument : BitVec modifier.argumentBits

/-! ### What ISO C says -/

/-- `%d` and `%i` -/
def Specifier.isSigned : Specifier → Bool
  | d | i => true
  | u | o | x | X => false

/-- `%x` and `%X` -/
def Specifier.isHexadecimal : Specifier → Bool
  | x | X => true
  | d | i | u | o => false

/-- The base of a conversion. -/
def Specifier.base : Specifier → ℕ
  | d | i | u => 10
  | o => 8
  | x | X => 16

/-- The character of a digit: letters for those from ten on. -/
def Specifier.digit (s : Specifier) (digit : ℕ) : UInt8 :=
  if digit < 10 then UInt8.ofNat (48 + digit)
  else UInt8.ofNat ((if s = X then 65 else 97) + (digit - 10))

/-- The letter of the prefix. -/
def Specifier.letter (s : Specifier) : UInt8 := if s = X then 88 else 120

/-- The digits of a number, of which zero has none. -/
def Specifier.digits (s : Specifier) (magnitude : ℕ) : List UInt8 :=
  ((Nat.digits s.base magnitude).map s.digit).reverse

/-- The sign of a signed conversion. -/
def signCharacter (negative plus space : Bool) : Option UInt8 :=
  if negative then some 45 else if plus then some 43 else if space then some 32 else none

namespace Conversion

/-- Whether a flag is there. -/
def has (c : Conversion) (flag : Flag) : Bool := decide (flag ∈ c.flags)

/-- Whether the field is filled on the right: a negative width stands for the flag `-` too. -/
def left (c : Conversion) : Bool :=
  c.has .left || match c.width with
    | .star argument => decide (argument.toInt < 0)
    | _ => false

/-- The width of the field. -/
def fieldWidth (c : Conversion) : ℕ :=
  match c.width with
  | .none => 0
  | .number digits _ => numeral 10 digits
  | .star argument => argument.toInt.natAbs

/-- The precision, if there is one: a negative one stands for none. -/
def fieldPrecision (c : Conversion) : Option ℕ :=
  match c.precision with
  | .none => none
  | .number digits _ => some (numeral 10 digits)
  | .star argument => if argument.toInt < 0 then none else some argument.toInt.toNat

/-- The argument in the type that the modifier stands for. -/
def value (c : Conversion) : ℤ :=
  if c.specifier.isSigned then (c.argument.setWidth c.modifier.bits).toInt
  else (c.argument.setWidth c.modifier.bits).toNat

/-- The digits of the value. -/
def digits (c : Conversion) : List UInt8 := c.specifier.digits c.value.natAbs

/-- The zeros before the digits, for the precision, and for `#` and octal digits. -/
def zeros (c : Conversion) : ℕ :=
  let zeros := c.fieldPrecision.getD 1 - c.digits.length
  if c.has .alternate ∧ c.specifier = .o then max zeros 1 else zeros

/-- Whether the field is filled with zeros. -/
def zeroPadded (c : Conversion) : Bool := c.has .zero && c.fieldPrecision.isNone

/-- What ISO C says that a conversion prints, without the field. -/
def number (c : Conversion) : Field where
  left := c.left
  zeroPadded := c.zeroPadded
  padding := 0
  sign :=
    if c.specifier.isSigned then signCharacter (c.value < 0) (c.has .plus) (c.has .space) else none
  hex :=
    if c.has .alternate ∧ c.specifier.isHexadecimal ∧ c.value ≠ 0 then some c.specifier.letter
    else none
  zeros := c.zeros
  digits := c.digits

/-- **What ISO C says that a conversion prints.** -/
def prescribed (c : Conversion) : Field :=
  { c.number with padding := c.fieldWidth - c.number.contentLength }

end Conversion

/-! ### The format -/

/-- The text of a width. -/
def FieldWidth.text : FieldWidth → List UInt8
  | none => []
  | number digits _ => digits
  | star _ => [42]

/-- The text of a precision. -/
def FieldPrecision.text : FieldPrecision → List UInt8
  | none => []
  | number digits _ => 46 :: digits
  | star _ => [46, 42]

/-- The text of a modifier. -/
def Modifier.text : Modifier → List UInt8
  | hh => [104, 104]
  | h => [104]
  | none => []
  | l => [108]
  | ll => [108, 108]
  | z => [122]

/-- The character of a conversion. -/
def Specifier.character : Specifier → UInt8
  | d => 100
  | i => 105
  | u => 117
  | o => 111
  | x => 120
  | X => 88

/-- The argument for a width. -/
def FieldWidth.arguments : FieldWidth → List Argument
  | star argument => [.int argument]
  | none | number _ _ => []

/-- The argument for a precision. -/
def FieldPrecision.arguments : FieldPrecision → List Argument
  | star argument => [.int argument]
  | none | number _ _ => []

/-- An argument of the type for a modifier. -/
def Modifier.toArgument : (m : Modifier) → BitVec m.argumentBits → Argument
  | hh, argument | h, argument | none, argument => .int argument
  | l, argument | ll, argument | z, argument => .long argument

namespace Conversion

/-- The format. -/
def format (c : Conversion) : List UInt8 :=
  37 :: (c.flags.map Flag.character ++
    (c.width.text ++ (c.precision.text ++ (c.modifier.text ++ [c.specifier.character]))))

/-- The arguments. -/
def arguments (c : Conversion) : List Argument :=
  c.width.arguments ++ (c.precision.arguments ++ [c.modifier.toArgument c.argument])

end Conversion

/-! ### Reading the format -/

/-- The value of digits that `format_write` reads, where digits that could overflow are dropped. -/
def saturated (value : ℕ) (digits : List UInt8) : ℕ :=
  digits.foldl (fun value c => if value < intMax / 10 then value * 10 + (c.toNat - 48) else value)
    value

/-- The flags of a conversion. -/
def Conversion.readFlags (c : Conversion) : Flags :=
  ⟨c.has .left, c.has .plus, c.has .space, c.has .alternate, c.has .zero⟩

/-- The width that is read. -/
def FieldWidth.amount : FieldWidth → Amount
  | none => .number 0
  | number digits _ => .number (saturated 0 digits)
  | star _ => .argument

/-- The precision that is read. -/
def FieldPrecision.amount : FieldPrecision → Option Amount
  | none => .none
  | number digits _ => some (.number (saturated 0 digits))
  | star _ => some .argument

/-- The length that is read. -/
def Modifier.length : Modifier → FormatLength
  | hh => .char
  | h => .short
  | none => .default
  | l => .long
  | ll => .longLong
  | z => .size

/-- The directive that is read. -/
def Conversion.directive (c : Conversion) : Directive :=
  ⟨c.readFlags, c.width.amount, c.precision.amount, c.modifier.length, c.specifier.character⟩

/-- The characters that the loop over the flags goes past. -/
def IsFlag (c : UInt8) : Prop := c = 45 ∨ c = 43 ∨ c = 32 ∨ c = 35 ∨ c = 48

instance : DecidablePred IsFlag := fun _ => inferInstanceAs (Decidable (_ ∨ _))

section Reading

variable {tail : List UInt8}

/-- A flag is set. -/
def Flags.insert (flags : Flags) : Flag → Flags
  | .left => { flags with left := true }
  | .plus => { flags with plus := true }
  | .space => { flags with space := true }
  | .alternate => { flags with alternate := true }
  | .zero => { flags with zero := true }

theorem readFlags_cons (flags : Flags) (flag : Flag) (format : List UInt8) :
    Libc.readFlags flags (flag.character :: format) =
      Libc.readFlags (flags.insert flag) format := by
  cases flag <;> rfl

theorem readFlags_end (flags : Flags) (htail : ¬ IsFlag (byteAt tail 0)) :
    Libc.readFlags flags tail = (flags, tail) := by
  match tail, htail with
  | [], _ => rfl
  | c :: tail, htail =>
    have hc : ¬ IsFlag c := htail
    simp only [IsFlag, not_or] at hc
    simp [Libc.readFlags, hc]

theorem readFlags_append (flags : Flags) (list : List Flag) (htail : ¬ IsFlag (byteAt tail 0)) :
    Libc.readFlags flags (list.map Flag.character ++ tail) =
      (list.foldl Flags.insert flags, tail) := by
  induction list generalizing flags with
  | nil => exact readFlags_end flags htail
  | cons flag list ih =>
    rw [map_cons, cons_append, readFlags_cons, ih, foldl_cons]

theorem foldl_insert (list : List Flag) (flags : Flags) : list.foldl Flags.insert flags =
    ⟨flags.left || decide (.left ∈ list), flags.plus || decide (.plus ∈ list),
      flags.space || decide (.space ∈ list), flags.alternate || decide (.alternate ∈ list),
      flags.zero || decide (.zero ∈ list)⟩ := by
  induction list generalizing flags with
  | nil => simp
  | cons flag list ih =>
    rw [foldl_cons, ih]
    cases flag <;> simp [Flags.insert]

theorem readNumber_append {digits : List UInt8} (value : ℕ) (hdigits : Decimal digits)
    (htail : ¬ (48 ≤ byteAt tail 0 ∧ byteAt tail 0 ≤ 57)) :
    readNumber value (digits ++ tail) = (saturated value digits, tail) := by
  induction digits generalizing value with
  | nil =>
    match tail, htail with
    | [], _ => rfl
    | c :: tail, htail =>
      have hc : ¬ (48 ≤ c ∧ c ≤ 57) := htail
      rw [nil_append, readNumber, if_neg hc]
      rfl
  | cons c digits ih =>
    obtain ⟨hc, hdigits⟩ := forall_mem_cons.mp hdigits
    rw [cons_append, readNumber, if_pos hc, ih _ hdigits]
    rfl

theorem readAmount_number {digits : List UInt8} (hdigits : Decimal digits)
    (htail : ¬ (48 ≤ byteAt tail 0 ∧ byteAt tail 0 ≤ 57)) (hstar : byteAt tail 0 ≠ 42) :
    readAmount (digits ++ tail) = (.number (saturated 0 digits), tail) := by
  have hhead : byteAt (digits ++ tail) 0 ≠ 42 := by
    match digits, hdigits with
    | [], _ => exact hstar
    | c :: digits, hdigits =>
      have hc : 48 ≤ c ∧ c ≤ 57 := hdigits c mem_cons_self
      show c ≠ 42
      rintro rfl
      exact absurd hc (by decide)
  rw [readAmount, if_neg hhead, readNumber_append 0 hdigits htail]

/-- What may follow a width: not a flag, a digit, `*` or `%`. -/
structure Ends (tail : List UInt8) : Prop where
  flag : ¬ IsFlag (byteAt tail 0)
  digit : ¬ (48 ≤ byteAt tail 0 ∧ byteAt tail 0 ≤ 57)
  star : byteAt tail 0 ≠ 42
  percent : byteAt tail 0 ≠ 37

theorem readAmount_width (w : FieldWidth) (htail : Ends tail) :
    readAmount (w.text ++ tail) = (w.amount, tail) := by
  cases w with
  | none => exact @readAmount_number _ [] nofun htail.digit htail.star
  | number digits valid => exact readAmount_number valid.2.1 htail.digit htail.star
  | star argument => rfl

theorem readPrecision_text (p : FieldPrecision) (htail : Ends tail) (hdot : byteAt tail 0 ≠ 46) :
    readPrecision (p.text ++ tail) = (p.amount, tail) := by
  cases p with
  | none => exact if_neg hdot
  | number digits valid =>
    have hamount := readAmount_number valid htail.digit htail.star
    have hhead : byteAt (46 :: (digits ++ tail)) 0 = 46 := rfl
    show readPrecision (46 :: (digits ++ tail)) = _
    rw [readPrecision, if_pos hhead, drop_one, tail_cons, hamount]
    rfl
  | star argument => rfl

theorem ends_modifier (m : Modifier) (s : Specifier) :
    readLength (m.text ++ [s.character]) = (m.length, [s.character]) ∧
      Ends (m.text ++ [s.character]) ∧ byteAt (m.text ++ [s.character]) 0 ≠ 46 := by
  have hdecide : readLength (m.text ++ [s.character]) = (m.length, [s.character]) ∧
      (¬ IsFlag (byteAt (m.text ++ [s.character]) 0) ∧
        ¬ (48 ≤ byteAt (m.text ++ [s.character]) 0 ∧ byteAt (m.text ++ [s.character]) 0 ≤ 57) ∧
        byteAt (m.text ++ [s.character]) 0 ≠ 42 ∧ byteAt (m.text ++ [s.character]) 0 ≠ 37) ∧
      byteAt (m.text ++ [s.character]) 0 ≠ 46 := by
    cases m <;> cases s <;> decide
  obtain ⟨hlength, ⟨hflag, hdigit, hstar, hpercent⟩, hdot⟩ := hdecide
  exact ⟨hlength, ⟨hflag, hdigit, hstar, hpercent⟩, hdot⟩

theorem ends_dot (tail : List UInt8) : Ends (46 :: tail) :=
  ⟨show ¬ IsFlag 46 by decide, show ¬ ((48 : UInt8) ≤ 46 ∧ (46 : UInt8) ≤ 57) by decide,
    show (46 : UInt8) ≠ 42 by decide, show (46 : UInt8) ≠ 37 by decide⟩

theorem ends_precision (p : FieldPrecision) (htail : Ends tail) : Ends (p.text ++ tail) := by
  cases p with
  | none => exact htail
  | number digits valid => exact ends_dot _
  | star argument => exact ends_dot _

theorem ends_width (w : FieldWidth) (htail : Ends tail) :
    ¬ IsFlag (byteAt (w.text ++ tail) 0) ∧ byteAt (w.text ++ tail) 0 ≠ 37 := by
  cases w with
  | none => exact ⟨htail.flag, htail.percent⟩
  | number digits valid =>
    obtain ⟨hne, hdigits, hzero⟩ := valid
    match digits, hne, hdigits, hzero with
    | c :: digits, _, hdigits, hzero =>
      have hc : 48 ≤ c ∧ c ≤ 57 := hdigits c mem_cons_self
      have hc' : c ≠ 48 := hzero
      show ¬ IsFlag c ∧ c ≠ 37
      constructor
      · rintro (rfl | rfl | rfl | rfl | rfl)
        · exact absurd hc (by decide)
        · exact absurd hc (by decide)
        · exact absurd hc (by decide)
        · exact absurd hc (by decide)
        · exact hc' rfl
      · rintro rfl
        exact absurd hc (by decide)
  | star argument => exact ⟨show ¬ IsFlag 42 by decide, show (42 : UInt8) ≠ 37 by decide⟩

/-- **The directive is read back.** -/
theorem Conversion.readDirective_format (c : Conversion) :
    readDirective (c.flags.map Flag.character ++ (c.width.text ++ (c.precision.text ++
      (c.modifier.text ++ [c.specifier.character])))) = (c.directive, []) := by
  obtain ⟨hlength, hends, hdot⟩ := ends_modifier c.modifier c.specifier
  have hflags := readFlags_append Flags.none c.flags
    (ends_width c.width (ends_precision c.precision hends)).1
  rw [foldl_insert] at hflags
  simp only [readDirective, hflags, readAmount_width c.width (ends_precision c.precision hends),
    readPrecision_text c.precision hends hdot, hlength]
  rfl

theorem Conversion.head_format (c : Conversion) :
    byteAt (c.flags.map Flag.character ++ (c.width.text ++ (c.precision.text ++
      (c.modifier.text ++ [c.specifier.character])))) 0 ≠ 37 := by
  obtain ⟨-, hends, -⟩ := ends_modifier c.modifier c.specifier
  cases c.flags with
  | nil => exact (ends_width c.width (ends_precision c.precision hends)).2
  | cons flag flags =>
    show flag.character ≠ 37
    cases flag <;> decide

end Reading

/-! ### What is printed -/

namespace Conversion

/-- The argument as it is passed. -/
def passed (c : Conversion) : ℤ :=
  if c.specifier.isSigned then c.argument.toInt else c.argument.toNat

/-- The width that is used. -/
def printedWidth (c : Conversion) : ℤ :=
  match c.width with
  | .none => 0
  | .number digits _ => saturated 0 digits
  | .star argument => if argument.toInt < 0 then (-argument).toInt else argument.toInt

/-- The precision that is used. -/
def printedPrecision (c : Conversion) : Option ℕ :=
  match c.precision with
  | .none => none
  | .number digits _ => some (saturated 0 digits)
  | .star argument => if argument.toInt < 0 then none else some argument.toInt.toNat

/-- Whether `#` has an effect on a base: there is a digit that is not one of the precision. -/
def marked (c : Conversion) : Bool :=
  c.has .alternate && (decide (c.passed ≠ 0) || decide (c.printedPrecision ≠ some 0))

/-- What is printed, without the field. -/
def printedNumber (c : Conversion) : Field where
  left := c.left
  zeroPadded := c.zeroPadded
  padding := 0
  sign := signCharacter (c.passed < 0) (c.has .plus) (c.has .space)
  hex := if c.marked ∧ c.specifier.isHexadecimal then some c.specifier.letter else none
  zeros :=
    c.printedPrecision.getD 1 - (c.specifier.digits c.passed.natAbs).length +
      if c.marked ∧ c.specifier = .o then 1 else 0
  digits := c.specifier.digits c.passed.natAbs

/-- What is printed. -/
def printed (c : Conversion) : Field :=
  { c.printedNumber with padding := padding c.printedWidth c.printedNumber.contentLength }

theorem takeWidth_eq (c : Conversion) (rest : List Argument) :
    takeWidth (c.has .left) (c.width.arguments ++ rest) c.width.amount =
      .ok ((c.left, c.printedWidth), rest) := by
  rw [left, printedWidth]
  match c.width with
  | .none =>
    rw [Bool.or_false]
    rfl
  | .number digits _ =>
    rw [Bool.or_false]
    rfl
  | .star argument =>
    simp only [FieldWidth.amount, FieldWidth.arguments, takeWidth, cons_append,
      nil_append, vaArg, Argument.int?, ok_bind]
    by_cases hneg : argument.toInt < 0
    · rw [if_pos hneg, if_pos hneg, decide_eq_true hneg, Bool.or_true]
      rfl
    · rw [if_neg hneg, if_neg hneg, decide_eq_false hneg, Bool.or_false]
      rfl

/-- A precision as an `int`. -/
def precisionInt : Option ℕ → ℤ
  | none => -1
  | some precision => precision

theorem takePrecision_eq (c : Conversion) (rest : List Argument) :
    takePrecision (c.precision.arguments ++ rest) c.precision.amount =
      .ok (precisionInt c.printedPrecision, rest) := by
  rw [printedPrecision]
  match c.precision with
  | .none => rfl
  | .number digits _ => rfl
  | .star argument =>
    simp only [FieldPrecision.amount, FieldPrecision.arguments, takePrecision, cons_append,
      nil_append, vaArg, Argument.int?, ok_bind]
    by_cases hneg : argument.toInt < 0
    · rw [if_pos hneg, if_pos hneg]
      rfl
    · rw [if_neg hneg, if_neg hneg, precisionInt, Int.toNat_of_nonneg (by omega)]
      rfl

theorem takeSigned_eq (m : Modifier) (argument : BitVec m.argumentBits) (rest : List Argument) :
    takeSigned m.length (m.toArgument argument :: rest) = .ok (argument.toInt, rest) := by
  cases m <;> rfl

theorem takeUnsigned_eq (m : Modifier) (argument : BitVec m.argumentBits) (rest : List Argument) :
    takeUnsigned m.length (m.toArgument argument :: rest) = .ok (argument.toNat, rest) := by
  cases m <;> rfl

theorem specifier_character (s : Specifier) :
    (s.character ≠ 115 ∧ s.character ≠ 99 ∧ s.character ≠ 109 ∧ s.character ≠ 110) ∧
      isInteger s.character = true ∧ isPointer s.character = false ∧
      isSigned s.character = s.isSigned ∧ conversionBase s.character = s.base := by
  cases s <;> decide

theorem takeInteger_eq (c : Conversion) :
    takeInteger c.specifier.character c.modifier.length [c.modifier.toArgument c.argument] =
      .ok ((decide (c.passed < 0), c.passed.natAbs), []) := by
  obtain ⟨-, -, hpointer, hsigned, -⟩ := specifier_character c.specifier
  rw [takeInteger, if_neg (by rw [hpointer]; decide), hsigned, passed]
  by_cases h : c.specifier.isSigned = true
  · rw [if_pos h, if_pos h, takeSigned_eq, ok_bind]
    have habs : (if c.argument.toInt < 0 then (-(c.argument.toInt + 1)).toNat + 1
        else c.argument.toInt.toNat) = c.argument.toInt.natAbs := by
      split <;> omega
    dsimp only
    rw [habs]
    rfl
  · rw [if_neg h, if_neg h, takeUnsigned_eq, ok_bind, Int.natAbs_natCast,
      decide_eq_false (by omega)]
    rfl

theorem passed_lt (c : Conversion) : c.passed.natAbs < 2 ^ 64 := by
  have hbits : c.modifier.argumentBits ≤ 64 := by cases c.modifier <;> decide
  have hpow : 2 ^ c.modifier.argumentBits ≤ 2 ^ 64 := Nat.pow_le_pow_right (by decide) hbits
  rw [passed]
  split
  · have h := BitVec.toInt_lt (x := c.argument)
    have h' := BitVec.le_toInt c.argument
    have hpow' : (2 : ℤ) ^ (c.modifier.argumentBits - 1) ≤ 2 ^ 63 :=
      pow_le_pow_right₀ (by decide) (by omega)
    omega
  · have := c.argument.isLt
    omega

theorem alphabet_getD (s : Specifier) {digit : ℕ} (h : digit < s.base) :
    (alphabet s.character).getD digit 0 = s.digit digit := by
  have hall : ∀ s : Specifier, ∀ digit < s.base,
      (alphabet s.character).getD digit 0 = s.digit digit := by
    intro s
    cases s <;> decide
  exact hall s digit h

theorem base_bounds (s : Specifier) : 1 < s.base := by
  cases s <;> decide

theorem digits_eq_nil {s : Specifier} {magnitude : ℕ} :
    s.digits magnitude = [] ↔ magnitude = 0 := by
  rw [Specifier.digits, reverse_eq_nil_iff, map_eq_nil_iff, Nat.digits_eq_nil_iff_eq_zero]

/-- The digits that are printed: those of the number, after a zero for zero. -/
theorem reverse_integerNumerals (s : Specifier) (precision : Option ℕ) (magnitude : ℕ) :
    (integerNumerals s.character (precisionInt precision) magnitude).reverse =
      List.replicate (if magnitude = 0 ∧ precision ≠ some 0 then 1 else 0) 48 ++
        s.digits magnitude := by
  have hprecision : precisionInt precision ≠ 0 ↔ precision ≠ some 0 := by
    cases precision with
    | none => simp [precisionInt]
    | some p => simp [precisionInt]
  simp only [integerNumerals, numerals, hprecision, (specifier_character s).2.2.2.2]
  by_cases hzero : magnitude = 0
  · subst hzero
    have hdigit : (alphabet s.character).getD 0 0 = 48 := by
      rw [alphabet_getD s (Nat.zero_lt_of_lt (base_bounds s))]
      cases s <;> rfl
    rw [digits_eq_nil.mpr rfl, append_nil]
    by_cases hp : precision ≠ some 0
    · rw [if_pos (.inr hp), if_pos (And.intro rfl hp), if_pos rfl, map_singleton, hdigit]
      rfl
    · rw [if_neg (by simpa using hp), if_neg (by simpa using hp)]
      rfl
  · rw [if_pos (.inl hzero), if_neg hzero, if_neg (by simp [hzero]), Specifier.digits,
      replicate_zero, nil_append]
    congr 1
    exact map_congr_left fun digit hdigit =>
      alphabet_getD s (Nat.digits_lt_base (base_bounds s) hdigit)

theorem precisionInt_neg (c : Conversion) :
    precisionInt c.printedPrecision < 0 ↔ c.fieldPrecision = none := by
  rw [printedPrecision, fieldPrecision]
  match c.precision with
  | .none => simp [precisionInt]
  | .number digits _ => simp [precisionInt]
  | .star argument =>
    by_cases hneg : argument.toInt < 0
    · simp [precisionInt, hneg]
    · simp [precisionInt, hneg]

theorem zeroPadded_eq (c : Conversion) :
    (c.has .zero && decide (precisionInt c.printedPrecision < 0)) = c.zeroPadded := by
  rw [zeroPadded, decide_eq_decide.mpr c.precisionInt_neg]
  cases c.has .zero with
  | false => rfl
  | true =>
    rw [Bool.true_and, Bool.true_and, Bool.eq_iff_iff, decide_eq_true_eq, Option.isNone_iff_eq_none]

theorem sign_toList (flags : Flags) (negative : Bool) :
    (if integerSign flags negative ≠ 0 then [integerSign flags negative] else []) =
      (signCharacter negative flags.plus flags.space).toList := by
  rw [integerSign, signCharacter]
  split_ifs <;> first | rfl | simp_all

theorem integerPrefix_eq (s : Specifier) (alternate : Bool) (digitCount : ℕ) :
    integerPrefix s.character alternate digitCount =
      (if (alternate ∧ digitCount ≠ 0) ∧ s.isHexadecimal then some s.letter else none).elim []
          (fun x => [48, x]) ++
        List.replicate (if (alternate ∧ digitCount ≠ 0) ∧ s = .o then 1 else 0) 48 := by
  rw [integerPrefix]
  cases s <;> cases alternate <;> by_cases h : digitCount = 0 <;>
    simp [h, conversionBase, isPointer, Specifier.character, Specifier.isHexadecimal,
      Specifier.letter]

/-- The digits that are printed, from the last one. -/
def numerals (c : Conversion) : List UInt8 :=
  integerNumerals c.specifier.character (precisionInt c.printedPrecision) c.passed.natAbs

/-- The zero that is printed for zero. -/
def loneZero (c : Conversion) : ℕ := if c.passed = 0 ∧ c.printedPrecision ≠ some 0 then 1 else 0

/-- The number of digits, without that zero. -/
def digitCount (c : Conversion) : ℕ := (c.specifier.digits c.passed.natAbs).length

theorem digitCount_eq_zero (c : Conversion) : c.digitCount = 0 ↔ c.passed = 0 := by
  rw [digitCount, length_eq_zero_iff, digits_eq_nil, Int.natAbs_eq_zero]

theorem reverse_numerals (c : Conversion) : c.numerals.reverse =
    List.replicate c.loneZero 48 ++ c.specifier.digits c.passed.natAbs := by
  have h := reverse_integerNumerals c.specifier c.printedPrecision c.passed.natAbs
  simp only [Int.natAbs_eq_zero] at h
  exact h

theorem length_numerals (c : Conversion) : c.numerals.length = c.loneZero + c.digitCount := by
  rw [← length_reverse, reverse_numerals, length_append, length_replicate, digitCount]

theorem marked_iff (c : Conversion) :
    c.marked = true ↔ c.has .alternate = true ∧ c.numerals.length ≠ 0 := by
  have hcount := c.digitCount_eq_zero
  rw [length_numerals, loneZero, marked, Bool.and_eq_true, Bool.or_eq_true, decide_eq_true_eq,
    decide_eq_true_eq]
  by_cases hzero : c.passed = 0
  · simp [hzero, hcount.mpr hzero]
  · simp [hzero, mt hcount.mp hzero]

theorem zeroCount_eq (c : Conversion) :
    (precisionInt c.printedPrecision - c.numerals.length).toNat + c.loneZero =
      c.printedPrecision.getD 1 - c.digitCount := by
  have hcount := c.digitCount_eq_zero
  rw [length_numerals, loneZero]
  by_cases hzero : c.passed = 0
  · rw [hcount.mpr hzero]
    cases c.printedPrecision with
    | none =>
      rw [if_pos ⟨hzero, nofun⟩]
      rfl
    | some precision =>
      rw [precisionInt, Option.getD_some]
      by_cases hprecision : precision = 0
      · rw [hprecision, if_neg (fun h => h.2 rfl)]
        rfl
      · rw [if_pos ⟨hzero, by simpa using hprecision⟩]
        omega
  · have hpos := mt hcount.mp hzero
    rw [if_neg fun h => hzero h.1]
    cases c.printedPrecision with
    | none =>
      rw [precisionInt, Option.getD_none]
      omega
    | some precision =>
      rw [precisionInt, Option.getD_some]
      omega

/-- The parts that `format_write` computes. -/
def parts (c : Conversion) : Parts :=
  let zeroCount := (precisionInt c.printedPrecision - c.numerals.length).toNat
  let sign := integerSign c.readFlags (c.passed < 0)
  let basePrefix := integerPrefix c.specifier.character (c.has .alternate) c.numerals.length
  ⟨c.left, c.zeroPadded, padding c.printedWidth (c.numerals.length + zeroCount +
    basePrefix.length + if sign ≠ 0 then 1 else 0), sign, basePrefix, zeroCount, c.numerals⟩

theorem integerParts_eq (c : Conversion) :
    integerParts c.directive c.left c.printedWidth (precisionInt c.printedPrecision)
      (c.passed < 0) c.passed.natAbs = .ok c.parts := by
  rw [integerParts, integerDigits_eq _ _ c.passed_lt, ok_bind, parts, ← zeroPadded_eq]
  rfl

theorem parts_sign (c : Conversion) :
    (if c.parts.sign ≠ 0 then [c.parts.sign] else []) = c.printedNumber.sign.toList :=
  sign_toList c.readFlags (c.passed < 0)

theorem parts_basePrefix (c : Conversion) : c.parts.basePrefix =
    c.printedNumber.hex.elim [] (fun x => [48, x]) ++
      List.replicate (if c.marked ∧ c.specifier = .o then 1 else 0) 48 := by
  rw [parts]
  simp only [integerPrefix_eq, ← marked_iff]
  rfl

theorem printed_zeros (c : Conversion) :
    c.printedNumber.zeros = (precisionInt c.printedPrecision - c.numerals.length).toNat +
      c.loneZero + if c.marked ∧ c.specifier = .o then 1 else 0 := by
  rw [zeroCount_eq]
  rfl

theorem length_hex (x : Option UInt8) :
    (x.elim [] fun x => [(48 : UInt8), x]).length = if x.isSome then 2 else 0 := by
  cases x <;> rfl

theorem parts_padding (c : Conversion) : c.parts.padding = c.printed.padding := by
  have hsign := congrArg List.length c.parts_sign
  have hprefix := congrArg List.length c.parts_basePrefix
  have hdigits : c.printedNumber.digits.length = c.digitCount := rfl
  have hsign' : (if c.parts.sign ≠ 0 then [c.parts.sign] else []).length =
      if c.parts.sign ≠ 0 then 1 else 0 := by
    split <;> rfl
  rw [length_append, length_replicate, length_hex] at hprefix
  have hlength : c.numerals.length + (precisionInt c.printedPrecision - c.numerals.length).toNat +
      c.parts.basePrefix.length + (if c.parts.sign ≠ 0 then 1 else 0) =
      c.printedNumber.contentLength := by
    rw [Field.contentLength, Field.hexLength, printed_zeros, hdigits, hprefix, ← hsign, hsign']
    have := c.length_numerals
    omega
  exact congrArg (padding c.printedWidth) hlength

theorem zeros_append (a b : ℕ) (l : List UInt8) :
    List.replicate a 48 ++ (List.replicate b 48 ++ l) = List.replicate (a + b) 48 ++ l := by
  rw [← append_assoc, replicate_append_replicate]

theorem parts_text (c : Conversion) : c.parts.text = c.printed.text := by
  have hleft : c.parts.left = c.printed.left := rfl
  have hpadded : c.parts.zeroPadded = c.printed.zeroPadded := rfl
  have hcount : c.parts.zeroCount = (precisionInt c.printedPrecision - c.numerals.length).toNat :=
    rfl
  have hzeros : c.printed.zeros = _ := c.printed_zeros
  have hdigits : c.parts.digits.reverse = _ := c.reverse_numerals
  have hpad : ∀ b : Bool, (if b then List.replicate c.printed.padding (48 : UInt8) else []) =
      List.replicate (if b then c.printed.padding else 0) 48 := fun b => by cases b <;> rfl
  rw [Parts.text, Field.text, parts_sign, parts_basePrefix, parts_padding, hdigits, hzeros, hleft,
    hpadded, hcount, hpad]
  simp only [append_assoc, zeros_append]
  rw [Nat.add_left_comm (if c.marked = true ∧ c.specifier = .o then 1 else 0),
    Nat.add_comm (if c.marked = true ∧ c.specifier = .o then 1 else 0)]
  rfl

/-- **What a conversion prints.** -/
theorem render_eq (message : CString) (c : Conversion) :
    render message c.format c.arguments = .ok c.printed.text := by
  obtain ⟨⟨hs, hchar, hm, hn⟩, hinteger, -⟩ := specifier_character c.specifier
  have hdirective : directiveText message c.directive c.arguments = .ok (c.printed.text, []) := by
    rw [directiveText, arguments]
    show (takeWidth (c.has .left) _ c.width.amount >>= _) = _
    rw [takeWidth_eq, ok_bind]
    dsimp only
    show (takePrecision _ c.precision.amount >>= _) = _
    rw [takePrecision_eq, ok_bind]
    dsimp only
    rw [directive]
    dsimp only
    rw [if_neg hs, if_neg hchar, if_neg hm, if_neg hn, if_neg (by rw [hinteger]; decide),
      takeInteger_eq, ok_bind]
    dsimp only
    rw [← directive, integerParts_eq, ok_bind, parts_text]
    rfl
  rw [format, render, if_neg (by decide), if_neg c.head_format, c.readDirective_format,
    hdirective, ok_bind]
  dsimp only
  rw [render]
  show Except.ok (c.printed.text ++ []) = _
  rw [append_nil]

end Conversion

end ImagineOS.Libc
