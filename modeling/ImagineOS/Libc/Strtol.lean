import ImagineOS.Libc.Heap
import Mathlib.Data.List.GetD
import Mathlib.Data.List.TakeDrop

/-!
# Libc: strings as integers

`strtol`, `strtoll`, `strtoul` and `strtoull` skip white space, read a sign and a base, and then
the digits of a number, up to a maximum. Pointers into the string are offsets from its start here.
-/

namespace ImagineOS.Libc

open List Nat

/-- Strings, without the zero byte that ends them. -/
structure CString where
  bytes : List UInt8
  nonzero : 0 ∉ bytes

/-- `text[i]`, up to the end of a string -/
def byteAt (text : List UInt8) (i : ℕ) : UInt8 := text.getD i 0

def digitValue (character : UInt8) : ℕ :=
  if 48 ≤ character ∧ character ≤ 57 then character.toNat - 48
  else if 97 ≤ character ∧ character ≤ 122 then character.toNat - 97 + 10
  else if 65 ≤ character ∧ character ≤ 90 then character.toNat - 65 + 10
  else 36

/-- The condition of the loop of `parse_unsigned` over white space: a space, or a character from
`\t` to `\r`. -/
def isSpace (character : UInt8) : Bool := character = 32 || (9 ≤ character && character ≤ 13)

/-- `-` -/
def minus : UInt8 := 45

/-- `+` -/
def plus : UInt8 := 43

/-- `0` -/
def zero : UInt8 := 48

/-- `x` or `X` -/
def isX (character : UInt8) : Prop := character = 120 ∨ character = 88

instance : DecidablePred isX := fun _ => inferInstanceAs (Decidable (_ ∨ _))

/-- `ULONG_MAX` and `ULLONG_MAX`. `LONG_MAX` and `LLONG_MAX` are the `longMax` of the heap. -/
def ulongMax : ℕ := 2 ^ 64 - 1

/-- `LONG_MIN` and `LLONG_MIN` -/
def longMin : ℤ := -2 ^ 63

def einval : ℤ := 22

def erange : ℤ := 34

/-- The loop of `parse_unsigned` over the digits, which ends with a value, `overflow` and the text
that is left. -/
def accumulate (base maximum : ℕ) : List UInt8 → ℕ → Bool → ℕ × Bool × List UInt8
  | [], value, overflow => (value, overflow, [])
  | character :: text, value, overflow =>
    let digit := digitValue character
    if base ≤ digit then (value, overflow, character :: text)
    else if (maximum - digit) / base < value then accumulate base maximum text maximum true
    else if !overflow then
      accumulate base maximum text ((value * base + digit) % 2 ^ 64) overflow
    else accumulate base maximum text value overflow

/-- `if (endptr) *endptr = text`: what is stored in the place for a pointer, if there is one. -/
def store (endptr : Option ℕ) (offset : ℕ) : Option ℕ := endptr.map fun _ => offset

/-- What `parse_unsigned` returns, `*negative`, `*endptr` and `errno`. -/
structure Parsed where
  value : ℕ
  negative : Bool
  endptr : Option ℕ
  errno : ℤ
  deriving DecidableEq

/-- Whether `parse_unsigned` skips `0x`. -/
def IsHexadecimal (base : ℤ) (text : List UInt8) : Prop :=
  (base = 0 ∨ base = 16) ∧ byteAt text 0 = zero ∧ isX (byteAt text 1) ∧
    digitValue (byteAt text 2) < 16

instance (base : ℤ) (text : List UInt8) : Decidable (IsHexadecimal base text) :=
  inferInstanceAs (Decidable (_ ∧ _))

/-- The digits of `parse_unsigned`. -/
def digitsFrom (base : ℤ) (text : List UInt8) : List UInt8 :=
  if IsHexadecimal base text then text.drop 2 else text

/-- The base of `parse_unsigned`, which may come from the digits. -/
def radix (base : ℤ) (text : List UInt8) : ℕ :=
  if IsHexadecimal base text then 16
  else if base = 0 then if byteAt text 0 = zero then 8 else 10
  else base.toNat

/-- `parse_unsigned`, after the sign -/
def parseDigits (original text : List UInt8) (negative : Bool) (endptr : Option ℕ) (base : ℤ)
    (maximum : ℕ) (errno : ℤ) : Parsed :=
  if base ≠ 0 ∧ (base < 2 ∨ 36 < base) then ⟨0, negative, store endptr 0, einval⟩
  else
    let digits := digitsFrom base text
    let (value, overflow, rest) := accumulate (radix base text) maximum digits 0 false
    if rest.length = digits.length then ⟨0, negative, store endptr 0, errno⟩
    else
      ⟨value, negative, store endptr (original.length - rest.length),
        if overflow then erange else errno⟩

/-- Whether a text starts with a sign. -/
def HasSign (text : List UInt8) : Prop := byteAt text 0 = minus ∨ byteAt text 0 = plus

instance : DecidablePred HasSign := fun _ => inferInstanceAs (Decidable (_ ∨ _))

/-- A text after its sign. -/
def afterSign (text : List UInt8) : List UInt8 := if HasSign text then text.drop 1 else text

/-- A string after its white space. -/
def CString.trimmed (text : CString) : List UInt8 := text.bytes.dropWhile isSpace

def parseUnsigned (text : CString) (endptr : Option ℕ) (base : ℤ) (maximum : ℕ) (errno : ℤ) :
    Parsed :=
  let negative := decide (byteAt text.trimmed 0 = minus)
  parseDigits text.bytes (afterSign text.trimmed) negative endptr base maximum errno

/-- What a function returns, `*endptr` and `errno`. -/
structure Converted where
  value : ℤ
  endptr : Option ℕ
  errno : ℤ
  deriving DecidableEq

/-- `negative ? 0UL - value : value` -/
def Parsed.unsigned (parsed : Parsed) : Converted :=
  ⟨if parsed.negative then ((2 ^ 64 - parsed.value) % 2 ^ 64 : ℕ) else parsed.value, parsed.endptr,
    parsed.errno⟩

/-- The end of `strtol` and `strtoll`, for a maximum and a minimum. -/
def Parsed.signed (maximum : ℕ) (minimum : ℤ) (parsed : Parsed) : Converted :=
  let limit := maximum + 1
  if (if parsed.negative then limit else maximum) < parsed.value then
    ⟨if parsed.negative then minimum else maximum, parsed.endptr, erange⟩
  else if parsed.negative then
    ⟨if parsed.value = limit then minimum else -parsed.value, parsed.endptr, parsed.errno⟩
  else ⟨parsed.value, parsed.endptr, parsed.errno⟩

/-- `strtoul` and `strtoull`, for a maximum -/
def toUnsigned (maximum : ℕ) (text : CString) (endptr : Option ℕ) (base errno : ℤ) : Converted :=
  (parseUnsigned text endptr base maximum errno).unsigned

/-- `strtol` and `strtoll`, for a maximum and a minimum -/
def toSigned (maximum : ℕ) (minimum : ℤ) (text : CString) (endptr : Option ℕ) (base errno : ℤ) :
    Converted :=
  (parseUnsigned text endptr base (maximum + 1) errno).signed maximum minimum

def strtoul : CString → Option ℕ → ℤ → ℤ → Converted := toUnsigned ulongMax

def strtoull : CString → Option ℕ → ℤ → ℤ → Converted := toUnsigned ulongMax

def strtol : CString → Option ℕ → ℤ → ℤ → Converted := toSigned longMax longMin

def strtoll : CString → Option ℕ → ℤ → ℤ → Converted := toSigned longMax longMin

/-- The functions. -/
inductive Converter
  | strtol
  | strtoll
  | strtoul
  | strtoull
  deriving DecidableEq

namespace Converter

/-- What a function does. -/
def call : Converter → CString → Option ℕ → ℤ → ℤ → Converted
  | strtol => Libc.strtol
  | strtoll => Libc.strtoll
  | strtoul => Libc.strtoul
  | strtoull => Libc.strtoull

/-- Whether the type of a function is unsigned. -/
def isUnsigned : Converter → Bool
  | strtol | strtoll => false
  | strtoul | strtoull => true

end Converter

/-! ### What ISO C says -/

/-- The value of a number that goes on with some digits. -/
def continued (base value : ℕ) (digits : List UInt8) : ℕ :=
  digits.foldl (fun value digit => value * base + digitValue digit) value

/-- The value of the digits of a number. -/
def numeral (base : ℕ) (digits : List UInt8) : ℕ := continued base 0 digits

/-- Digits in a base. -/
def Digits (base : ℕ) (text : List UInt8) : Prop := text ≠ [] ∧ ∀ c ∈ text, digitValue c < base

/-- Numbers without a sign in a base, and their values. In base `0` they are integer constants. -/
inductive Magnitude (base : ℕ) : List UInt8 → ℕ → Prop
  | digits {text : List UInt8} : base ≠ 0 → Digits base text →
      Magnitude base text (numeral base text)
  | hexadecimal {x : UInt8} {text : List UInt8} : base = 0 ∨ base = 16 → isX x →
      Digits 16 text → Magnitude base (zero :: x :: text) (numeral 16 text)
  | decimal {text : List UInt8} : base = 0 → Digits 10 text → byteAt text 0 ≠ zero →
      Magnitude base text (numeral 10 text)
  | octal {text : List UInt8} : base = 0 → Digits 8 text → byteAt text 0 = zero →
      Magnitude base text (numeral 8 text)

/-- Subject sequences in a base, whether they have a minus sign, and their magnitudes. -/
inductive Subject (base : ℕ) : List UInt8 → Bool → ℕ → Prop
  | unsigned {text : List UInt8} {magnitude : ℕ} : Magnitude base text magnitude →
      Subject base text false magnitude
  | positive {text : List UInt8} {magnitude : ℕ} : Magnitude base text magnitude →
      Subject base (plus :: text) false magnitude
  | negative {text : List UInt8} {magnitude : ℕ} : Magnitude base text magnitude →
      Subject base (minus :: text) true magnitude

/-- The subject sequence at the start of a text: the longest one. -/
structure Longest (base : ℕ) (text subject : List UInt8) (negative : Bool) (magnitude : ℕ) :
    Prop where
  form : Subject base subject negative magnitude
  initial : subject <+: text
  longest : ∀ {other : List UInt8} {negative' : Bool} {magnitude' : ℕ},
    Subject base other negative' magnitude' → other <+: text → other.length ≤ subject.length

/-- A number with a sign. -/
def signedValue (negative : Bool) (magnitude : ℕ) : ℤ := if negative then -magnitude else magnitude

namespace Converter

/-- Whether the type of a function has the value of a subject sequence. A value of an unsigned type
is negated in the type. -/
def Represents (f : Converter) (negative : Bool) (magnitude : ℕ) : Prop :=
  if f.isUnsigned then magnitude ≤ ulongMax
  else longMin ≤ signedValue negative magnitude ∧ signedValue negative magnitude ≤ longMax

/-- The value that the type of a function has. -/
def represented (f : Converter) (negative : Bool) (magnitude : ℕ) : ℤ :=
  if f.isUnsigned then signedValue negative magnitude % 2 ^ 64 else signedValue negative magnitude

/-- The limit of the type of a function on the side of a value that is out of range. -/
def saturated (f : Converter) (negative : Bool) : ℤ :=
  if f.isUnsigned then ulongMax else if negative then longMin else longMax

/-- What a function returns and stores, as ISO C has it. -/
inductive Prescribed (f : Converter) (text : CString) (endptr : Option ℕ) (base : ℕ) (errno : ℤ) :
    Converted → Prop
  | noSubject : (∀ subject negative magnitude, Subject base subject negative magnitude →
      ¬ subject <+: text.trimmed) →
      Prescribed f text endptr base errno ⟨0, store endptr 0, errno⟩
  | inRange {subject : List UInt8} {negative : Bool} {magnitude : ℕ} :
      Longest base text.trimmed subject negative magnitude → f.Represents negative magnitude →
      Prescribed f text endptr base errno ⟨f.represented negative magnitude,
        store endptr (text.bytes.length - text.trimmed.length + subject.length), errno⟩
  | outOfRange {subject : List UInt8} {negative : Bool} {magnitude : ℕ} :
      Longest base text.trimmed subject negative magnitude → ¬ f.Represents negative magnitude →
      Prescribed f text endptr base errno ⟨f.saturated negative,
        store endptr (text.bytes.length - text.trimmed.length + subject.length), erange⟩

end Converter

/-! ### The loop over the digits -/

section Digits

variable {base maximum value : ℕ} {digits rest : List UInt8}

theorem continued_cons (base value : ℕ) (c : UInt8) (digits : List UInt8) :
    continued base value (c :: digits) = continued base (value * base + digitValue c) digits := rfl

theorem le_continued (hbase : 0 < base) (value : ℕ) (digits : List UInt8) :
    value ≤ continued base value digits := by
  induction digits generalizing value with
  | nil => exact le_rfl
  | cons c digits ih =>
    calc value ≤ value * base := Nat.le_mul_of_pos_right value hbase
      _ ≤ value * base + digitValue c := Nat.le_add_right _ _
      _ ≤ continued base value (c :: digits) := ih _

theorem overflows_iff {digit : ℕ} (hdigit : digit < base) (hmax : base ≤ maximum) :
    (maximum - digit) / base < value ↔ maximum < value * base + digit := by
  rw [div_lt_iff_lt_mul (by omega)]
  omega

theorem accumulate_end (hrest : ∀ c ∈ rest.head?, base ≤ digitValue c) (value : ℕ)
    (overflow : Bool) : accumulate base maximum rest value overflow = (value, overflow, rest) := by
  cases rest with
  | nil => rfl
  | cons c rest => rw [accumulate, if_pos (hrest c rfl)]

theorem accumulate_overflow (hbase : 1 < base) (hmax : base ≤ maximum)
    (hdigits : ∀ c ∈ digits, digitValue c < base) (hrest : ∀ c ∈ rest.head?, base ≤ digitValue c) :
    accumulate base maximum (digits ++ rest) maximum true = (maximum, true, rest) := by
  induction digits with
  | nil => exact accumulate_end hrest maximum true
  | cons c digits ih =>
    obtain ⟨hc, hdigits⟩ := forall_mem_cons.mp hdigits
    have hlt : (maximum - digitValue c) / base < maximum := (overflows_iff hc hmax).mpr (by
      have := mul_le_mul_left maximum hbase
      omega)
    rw [cons_append, accumulate, if_neg (by omega), if_pos hlt]
    exact ih hdigits

/-- **The loop over the digits saturates.** -/
theorem accumulate_eq (hbase : 1 < base) (hmax : base ≤ maximum) (hword : maximum < 2 ^ 64)
    (hvalue : value ≤ maximum) (hdigits : ∀ c ∈ digits, digitValue c < base)
    (hrest : ∀ c ∈ rest.head?, base ≤ digitValue c) :
    accumulate base maximum (digits ++ rest) value false =
      (min (continued base value digits) maximum, decide (maximum < continued base value digits),
        rest) := by
  induction digits generalizing value with
  | nil =>
    rw [nil_append, accumulate_end hrest]
    simp [continued, hvalue, not_lt.mpr hvalue]
  | cons c digits ih =>
    obtain ⟨hc, hdigits⟩ := forall_mem_cons.mp hdigits
    have hle := le_continued (by omega : 0 < base) (value * base + digitValue c) digits
    rw [cons_append, accumulate, if_neg (by omega), continued_cons]
    by_cases hlt : maximum < value * base + digitValue c
    · rw [if_pos ((overflows_iff hc hmax).mpr hlt),
        accumulate_overflow hbase hmax hdigits hrest, min_eq_right (by omega),
        decide_eq_true (by omega)]
    · rw [if_neg (mt (overflows_iff hc hmax).mp hlt), Bool.not_false, if_pos rfl,
        mod_eq_of_lt (by omega)]
      exact ih (by omega) hdigits

end Digits

/-! ### The longest subject sequence -/

section Subjects

variable {base magnitude magnitude' : ℕ} {text t other : List UInt8} {negative : Bool}

/-- The digits at the start of a text. -/
def leadingDigits (base : ℕ) (text : List UInt8) : List UInt8 :=
  text.takeWhile fun c => digitValue c < base

variable {c : UInt8}

theorem lt_of_mem_leadingDigits (hc : c ∈ leadingDigits base text) :
    digitValue c < base :=
  of_decide_eq_true (all_eq_true.mp (all_takeWhile (l := text)) c hc)

theorem leadingDigits_initial (base : ℕ) (text : List UInt8) : leadingDigits base text <+: text :=
  takeWhile_prefix _

theorem head_drop_leadingDigits
    (hc : c ∈ (text.dropWhile fun c => digitValue c < base).head?) : base ≤ digitValue c := by
  have h := List.head?_dropWhile_not (fun c => decide (digitValue c < base)) text
  rw [Option.mem_def] at hc
  rw [hc] at h
  simpa using h

theorem Digits.length_le (h : Digits base t) (hinitial : t <+: text) :
    t.length ≤ (leadingDigits base text).length := by
  obtain ⟨rest, rfl⟩ := hinitial
  rw [leadingDigits, takeWhile_append_of_pos fun c hc => decide_eq_true (h.2 c hc), length_append]
  exact le_add_right _ _

theorem byteAt_of_initial (h : t <+: text) {i : ℕ} (hi : i < t.length) :
    byteAt text i = byteAt t i := by
  obtain ⟨rest, rfl⟩ := h
  rw [byteAt, byteAt, getD_append _ _ _ _ hi]

theorem IsHexadecimal.text_eq (h : IsHexadecimal base text) :
    ∃ x rest, isX x ∧ digitValue (byteAt rest 0) < 16 ∧ text = zero :: x :: rest := by
  obtain ⟨-, hzero, hx, hdigit⟩ := h
  match text with
  | [] => exact absurd hzero (by decide)
  | [c] => exact absurd hx (by simp [byteAt, isX])
  | c :: x :: rest => exact ⟨x, rest, hx, hdigit, by rw [← hzero]; rfl⟩

theorem not_digit_of_isX {x : UInt8} (hx : isX x) : 16 ≤ digitValue x := by
  rcases hx with rfl | rfl <;> decide

theorem Digits.head_lt (h : Digits base t) : digitValue (byteAt t 0) < base := by
  match t, h with
  | [], h => exact absurd rfl h.1
  | c :: _, h => exact h.2 c mem_cons_self

theorem Magnitude.of_not_hexadecimal (h : Magnitude base t magnitude) (hinitial : t <+: text)
    (hx : ¬ IsHexadecimal base text) :
    Digits (radix base text) t ∧ magnitude = numeral (radix base text) t := by
  rw [radix, if_neg hx]
  have hhead : ∀ {k : ℕ}, Digits k t → byteAt text 0 = byteAt t 0 := fun hdigits =>
    byteAt_of_initial hinitial (length_pos_iff.mpr hdigits.1)
  cases h with
  | digits hbase hdigits =>
    rw [if_neg (by exact_mod_cast hbase), Int.toNat_natCast]
    exact ⟨hdigits, rfl⟩
  | @hexadecimal x digits hbase hisX hdigits =>
    obtain ⟨rest, rfl⟩ := hinitial
    refine absurd ⟨by exact_mod_cast hbase, rfl, hisX, ?_⟩ hx
    have := byteAt_of_initial (prefix_append digits rest)
      (length_pos_iff.mpr hdigits.1)
    exact this ▸ hdigits.head_lt
  | decimal hbase hdigits hzero =>
    rw [if_pos (by exact_mod_cast hbase), hhead hdigits, if_neg hzero]
    exact ⟨hdigits, rfl⟩
  | octal hbase hdigits hzero =>
    rw [if_pos (by exact_mod_cast hbase), hhead hdigits, if_pos hzero]
    exact ⟨hdigits, rfl⟩

theorem Magnitude.of_radix (hx : ¬ IsHexadecimal base text) (hbase : base = 0 ∨ 2 ≤ base)
    (hinitial : t <+: text) (hdigits : Digits (radix base text) t) :
    Magnitude base t (numeral (radix base text) t) := by
  have hhead : byteAt text 0 = byteAt t 0 :=
    byteAt_of_initial hinitial (length_pos_iff.mpr hdigits.1)
  rcases hbase with rfl | hbase
  · have hradix : radix (0 : ℕ) text = if byteAt t 0 = zero then 8 else 10 := by
      rw [radix, if_neg hx, if_pos Int.natCast_zero, hhead]
    rw [hradix] at hdigits ⊢
    by_cases hzero : byteAt t 0 = zero
    · rw [if_pos hzero] at hdigits ⊢
      exact .octal rfl hdigits hzero
    · rw [if_neg hzero] at hdigits ⊢
      exact .decimal rfl hdigits hzero
  · have hradix : radix base text = base := by
      rw [radix, if_neg hx, if_neg (by omega), Int.toNat_natCast]
    rw [hradix] at hdigits ⊢
    exact .digits (by omega) hdigits

/-- A number at the start of a text that has a hexadecimal one. -/
theorem Magnitude.of_hexadecimal (h : Magnitude base t magnitude) {x : UInt8} {rest : List UInt8}
    (hbase : base = 0 ∨ base = 16) (hisX : isX x) (hinitial : t <+: zero :: x :: rest) :
    t.length ≤ 1 ∨
      ∃ digits, t = zero :: x :: digits ∧ digits <+: rest ∧ Digits 16 digits ∧
        magnitude = numeral 16 digits := by
  -- Plain digits end before the second character.
  have hshort : ∀ {k : ℕ}, k ≤ 16 → Digits k t → t.length ≤ 1 := fun {k} hk hdigits => by
    by_contra hlong
    have hmem : x ∈ t := by
      obtain ⟨a, b, t', rfl⟩ : ∃ a b t', t = a :: b :: t' := by
        match t, hlong with
        | a :: b :: t', _ => exact ⟨a, b, t', rfl⟩
      obtain ⟨rfl, htail⟩ := cons_prefix_cons.mp hinitial
      obtain ⟨rfl, -⟩ := cons_prefix_cons.mp htail
      simp
    have := hdigits.2 x hmem
    have := not_digit_of_isX hisX
    omega
  cases h with
  | digits hne hdigits => exact .inl (hshort (by omega) hdigits)
  | @hexadecimal y digits _ _ hdigits =>
    obtain ⟨-, htail⟩ := cons_prefix_cons.mp hinitial
    obtain ⟨rfl, hrest⟩ := cons_prefix_cons.mp htail
    exact .inr ⟨digits, rfl, hrest, hdigits, rfl⟩
  | decimal _ hdigits _ => exact .inl (hshort (by omega) hdigits)
  | octal _ hdigits _ => exact .inl (hshort (by omega) hdigits)

/-- The longest number at the start of a text. -/
structure LongestMagnitude (base : ℕ) (text t : List UInt8) (magnitude : ℕ) : Prop where
  form : Magnitude base t magnitude
  initial : t <+: text
  longest : ∀ {other : List UInt8} {magnitude' : ℕ}, Magnitude base other magnitude' →
    other <+: text → other.length ≤ t.length

/-- What `parse_unsigned` skips before the digits. -/
def opening (base : ℤ) (text : List UInt8) : List UInt8 :=
  if IsHexadecimal base text then text.take 2 else []

theorem opening_append (base : ℤ) (text : List UInt8) :
    opening base text ++ digitsFrom base text = text := by
  rw [opening, digitsFrom]
  split_ifs
  · exact take_append_drop 2 text
  · rfl

/-- **`parse_unsigned` reads the longest number.** -/
theorem longestMagnitude (hbase : base = 0 ∨ 2 ≤ base)
    (hne : leadingDigits (radix base text) (digitsFrom base text) ≠ []) :
    LongestMagnitude base text
      (opening base text ++ leadingDigits (radix base text) (digitsFrom base text))
      (numeral (radix base text) (leadingDigits (radix base text) (digitsFrom base text))) := by
  have hdigits : Digits (radix base text)
      (leadingDigits (radix base text) (digitsFrom base text)) :=
    ⟨hne, fun c hc => lt_of_mem_leadingDigits hc⟩
  have hinitial : opening base text ++ leadingDigits (radix base text) (digitsFrom base text) <+:
      text := by
    conv_rhs => rw [← opening_append base text]
    exact (prefix_append_right_inj _).mpr (leadingDigits_initial _ _)
  by_cases hx : IsHexadecimal base text
  · obtain ⟨x, rest, hisX, hdigit, rfl⟩ := hx.text_eq
    rw [radix, if_pos hx, digitsFrom, if_pos hx, opening, if_pos hx] at *
    refine ⟨.hexadecimal (by exact_mod_cast hx.1) hisX hdigits, hinitial, fun h ho => ?_⟩
    rcases h.of_hexadecimal (by exact_mod_cast hx.1) hisX ho with hshort | ⟨ds, rfl, hds, h16, -⟩
    · exact le_trans hshort (by simp)
    · have := h16.length_le hds
      simpa using this
  · rw [opening, if_neg hx, digitsFrom, if_neg hx, nil_append] at *
    refine ⟨.of_radix hx hbase hinitial hdigits, hinitial, fun h ho => ?_⟩
    exact (h.of_not_hexadecimal ho hx).1.length_le ho

theorem no_magnitude (hempty : leadingDigits (radix base text) (digitsFrom base text) = [])
    (h : Magnitude base t magnitude) : ¬ t <+: text := by
  intro hinitial
  by_cases hx : IsHexadecimal base text
  · obtain ⟨x, rest, hisX, hdigit, rfl⟩ := hx.text_eq
    rw [radix, if_pos hx, digitsFrom, if_pos hx] at hempty
    match rest with
    | [] => exact absurd hdigit (by decide)
    | c :: rest =>
      have hc : digitValue c < 16 := hdigit
      simp [leadingDigits, hc] at hempty
  · obtain ⟨hdigits, -⟩ := h.of_not_hexadecimal hinitial hx
    rw [digitsFrom, if_neg hx] at hempty
    have := hdigits.length_le hinitial
    rw [hempty, length_nil, le_zero, length_eq_zero_iff] at this
    exact hdigits.1 this

theorem Magnitude.head_lt (h : Magnitude base t magnitude) (hbase : base ≤ 36) :
    t ≠ [] ∧ digitValue (byteAt t 0) < 36 := by
  cases h with
  | digits _ hdigits => exact ⟨hdigits.1, by have := hdigits.head_lt; omega⟩
  | hexadecimal _ _ hdigits => exact ⟨cons_ne_nil _ _, show digitValue zero < 36 by decide⟩
  | decimal _ hdigits _ => exact ⟨hdigits.1, by have := hdigits.head_lt; omega⟩
  | octal _ hdigits _ => exact ⟨hdigits.1, by have := hdigits.head_lt; omega⟩

/-- The sign of a text. -/
def signOf (text : List UInt8) : List UInt8 := if HasSign text then text.take 1 else []

theorem signOf_append (text : List UInt8) : signOf text ++ afterSign text = text := by
  rw [signOf, afterSign]
  split_ifs
  · exact take_append_drop 1 text
  · rfl

theorem cons_of_byteAt (hc : c ≠ 0) (h : byteAt text 0 = c) :
    ∃ rest, text = c :: rest := by
  match text with
  | [] => exact absurd h.symm hc
  | _ :: rest => exact ⟨rest, by rw [← h]; rfl⟩

/-- **A subject sequence is a sign and a number.** -/
theorem subject_initial_iff (hbase : base ≤ 36) :
    Subject base other negative magnitude ∧ other <+: text ↔
      ∃ t, other = signOf text ++ t ∧ t <+: afterSign text ∧ Magnitude base t magnitude ∧
        negative = decide (byteAt text 0 = minus) := by
  constructor
  · rintro ⟨hsubject, hinitial⟩
    cases hsubject with
    | unsigned h =>
      obtain ⟨hne, hhead⟩ := h.head_lt hbase
      rw [← byteAt_of_initial hinitial (length_pos_iff.mpr hne)] at hhead
      have hminus : byteAt text 0 ≠ minus := fun h => absurd (h ▸ hhead) (by decide)
      have hplus : byteAt text 0 ≠ plus := fun h => absurd (h ▸ hhead) (by decide)
      have hsign : ¬ HasSign text := not_or.mpr ⟨hminus, hplus⟩
      exact ⟨other, by rw [signOf, if_neg hsign]; rfl, by rwa [afterSign, if_neg hsign], h,
        (decide_eq_false hminus).symm⟩
    | @positive t _ h =>
      obtain ⟨rest, rfl⟩ := hinitial
      exact ⟨t, rfl, prefix_append t rest, h, rfl⟩
    | @negative t _ h =>
      obtain ⟨rest, rfl⟩ := hinitial
      exact ⟨t, rfl, prefix_append t rest, h, rfl⟩
  · rintro ⟨t, rfl, hinitial, h, rfl⟩
    have hprefix : signOf text ++ t <+: text := by
      conv_rhs => rw [← signOf_append text]
      exact (prefix_append_right_inj _).mpr hinitial
    refine ⟨?_, hprefix⟩
    by_cases hminus : byteAt text 0 = minus
    · obtain ⟨rest, rfl⟩ := cons_of_byteAt (by decide) hminus
      exact .negative h
    by_cases hplus : byteAt text 0 = plus
    · obtain ⟨rest, rfl⟩ := cons_of_byteAt (by decide) hplus
      exact .positive h
    · have hsign : ¬ HasSign text := not_or.mpr ⟨hminus, hplus⟩
      rw [decide_eq_false hminus, signOf, if_neg hsign]
      exact .unsigned h

theorem LongestMagnitude.longest_subject (hbase : base ≤ 36)
    (h : LongestMagnitude base (afterSign text) t magnitude) :
    Longest base text (signOf text ++ t) (decide (byteAt text 0 = minus)) magnitude := by
  obtain ⟨hform, hinitial⟩ :=
    (subject_initial_iff hbase).mpr ⟨t, rfl, h.initial, h.form, rfl⟩
  refine ⟨hform, hinitial, fun hother ho => ?_⟩
  obtain ⟨t', rfl, hinitial', hform', -⟩ := (subject_initial_iff hbase).mp ⟨hother, ho⟩
  have := h.longest hform' hinitial'
  rw [length_append, length_append]
  omega

theorem Magnitude.unique (h : Magnitude base t magnitude) (h' : Magnitude base t magnitude') :
    magnitude = magnitude' := by
  by_cases hx : IsHexadecimal base t
  · obtain ⟨x, rest, hisX, -, rfl⟩ := hx.text_eq
    have hlong : ¬ (zero :: x :: rest).length ≤ 1 := by simp
    obtain ⟨ds, hds, -, -, rfl⟩ :=
      (h.of_hexadecimal (by exact_mod_cast hx.1) hisX (prefix_refl _)).resolve_left hlong
    obtain ⟨ds', hds', -, -, rfl⟩ :=
      (h'.of_hexadecimal (by exact_mod_cast hx.1) hisX (prefix_refl _)).resolve_left hlong
    have : ds = ds' := by simpa using hds.symm.trans hds'
    rw [this]
  · rw [(h.of_not_hexadecimal (prefix_refl _) hx).2, (h'.of_not_hexadecimal (prefix_refl _) hx).2]

theorem Longest.unique {subject subject' : List UInt8} {negative' : Bool} (hbase : base ≤ 36)
    (h : Longest base text subject negative magnitude)
    (h' : Longest base text subject' negative' magnitude') :
    subject = subject' ∧ negative = negative' ∧ magnitude = magnitude' := by
  have hlength : subject.length = subject'.length :=
    le_antisymm (h'.longest h.form h.initial) (h.longest h'.form h'.initial)
  have hinitial : subject <+: subject' :=
    prefix_of_prefix_length_le h.initial h'.initial (le_of_eq hlength)
  obtain rfl : subject = subject' := hinitial.eq_of_length hlength
  obtain ⟨t, ht, -, hm, hn⟩ := (subject_initial_iff hbase).mp ⟨h.form, h.initial⟩
  obtain ⟨t', ht', -, hm', hn'⟩ := (subject_initial_iff hbase).mp ⟨h'.form, h'.initial⟩
  obtain rfl : t = t' := append_cancel_left (ht.symm.trans ht')
  exact ⟨rfl, hn.trans hn'.symm, hm.unique hm'⟩

end Subjects

/-! ### The functions -/

section Functions

variable {base maximum : ℕ} {text : CString} {endptr : Option ℕ} {errno : ℤ}

theorem accumulate_leading (rest : List UInt8) (hbase : 1 < base) (hmax : base ≤ maximum)
    (hword : maximum < 2 ^ 64) : accumulate base maximum rest 0 false =
      (min (numeral base (leadingDigits base rest)) maximum,
        decide (maximum < numeral base (leadingDigits base rest)),
        rest.dropWhile fun c => digitValue c < base) := by
  conv_lhs =>
    rw [← takeWhile_append_dropWhile (p := fun c => digitValue c < base) (l := rest)]
  exact accumulate_eq hbase hmax hword (zero_le _) (fun c hc => lt_of_mem_leadingDigits hc)
    fun c hc => head_drop_leadingDigits hc

theorem radix_bounds (hbase : base = 0 ∨ 2 ≤ base ∧ base ≤ 36) (rest : List UInt8) :
    1 < radix base rest ∧ radix base rest ≤ 36 := by
  rw [radix]
  split_ifs
  · decide
  · decide
  · decide
  · rw [Int.toNat_natCast]
    omega

/-- What `parse_unsigned` ends with: there is no subject sequence, or it is read. -/
inductive Scanned (text : CString) (endptr : Option ℕ) (base maximum : ℕ) (errno : ℤ) :
    Parsed → Prop
  | noSubject {negative : Bool} : (∀ subject negative magnitude,
      Subject base subject negative magnitude → ¬ subject <+: text.trimmed) →
      Scanned text endptr base maximum errno ⟨0, negative, store endptr 0, errno⟩
  | subject {subject : List UInt8} {negative : Bool} {magnitude : ℕ} :
      Longest base text.trimmed subject negative magnitude →
      Scanned text endptr base maximum errno ⟨min magnitude maximum, negative,
        store endptr (text.bytes.length - text.trimmed.length + subject.length),
        if maximum < magnitude then erange else errno⟩

theorem stop_eq (text : CString) (base : ℤ) (radix : ℕ) :
    text.bytes.length - ((digitsFrom base (afterSign text.trimmed)).dropWhile
        fun c => digitValue c < radix).length =
      text.bytes.length - text.trimmed.length + (signOf text.trimmed ++
        (opening base (afterSign text.trimmed) ++
          leadingDigits radix (digitsFrom base (afterSign text.trimmed)))).length := by
  have hsign := congrArg List.length (signOf_append text.trimmed)
  have hopening := congrArg List.length (opening_append base (afterSign text.trimmed))
  have hdigits := congrArg List.length (takeWhile_append_dropWhile
    (p := fun c => digitValue c < radix) (l := digitsFrom base (afterSign text.trimmed)))
  have htrimmed : text.trimmed.length ≤ text.bytes.length :=
    (dropWhile_sublist _).length_le
  simp only [length_append, leadingDigits] at *
  omega

theorem length_dropWhile_eq_iff (rest : List UInt8) :
    (rest.dropWhile fun c => digitValue c < base).length = rest.length ↔
      leadingDigits base rest = [] := by
  have hparts := congrArg List.length (takeWhile_append_dropWhile
    (p := fun c => digitValue c < base) (l := rest))
  rw [length_append] at hparts
  rw [← length_eq_zero_iff, leadingDigits]
  omega

/-- **`parse_unsigned` reads the longest subject sequence.** -/
theorem scanned_parseUnsigned (hbase : base = 0 ∨ 2 ≤ base ∧ base ≤ 36) (hmax : 36 ≤ maximum)
    (hword : maximum < 2 ^ 64) :
    Scanned text endptr base maximum errno (parseUnsigned text endptr base maximum errno) := by
  obtain ⟨hradix, hradix'⟩ := radix_bounds hbase (afterSign text.trimmed)
  have hvalid : ¬ ((base : ℤ) ≠ 0 ∧ ((base : ℤ) < 2 ∨ 36 < (base : ℤ))) := by omega
  rw [parseUnsigned, parseDigits, if_neg hvalid]
  simp only [accumulate_leading _ hradix (le_trans hradix' hmax) hword, decide_eq_true_eq,
    length_dropWhile_eq_iff]
  split
  · rename_i hempty
    refine .noSubject fun subject negative magnitude hsubject hinitial => ?_
    obtain ⟨t, -, ht, hm, -⟩ := (subject_initial_iff (by omega)).mp ⟨hsubject, hinitial⟩
    exact no_magnitude hempty hm ht
  · rename_i hempty
    rw [stop_eq]
    exact .subject ((longestMagnitude (by omega) hempty).longest_subject (by omega))

variable {magnitude : ℕ}

theorem unsigned_eq (negative : Bool) (hle : magnitude ≤ ulongMax)
    (endptr : Option ℕ) (errno : ℤ) : (⟨magnitude, negative, endptr, errno⟩ : Parsed).unsigned =
      ⟨signedValue negative magnitude % 2 ^ 64, endptr, errno⟩ := by
  rw [ulongMax] at hle
  cases negative with
  | false =>
    simp only [Parsed.unsigned, signedValue, Bool.false_eq_true, if_false, Converted.mk.injEq,
      and_true]
    omega
  | true =>
    simp only [Parsed.unsigned, signedValue, if_true, Converted.mk.injEq, and_true]
    omega

theorem unsigned_ulongMax (endptr : Option ℕ) (errno : ℤ) :
    (⟨ulongMax, true, endptr, errno⟩ : Parsed).unsigned.value ≠ ulongMax := by
  have hne : (2 ^ 64 - ulongMax) % 2 ^ 64 ≠ ulongMax := by decide
  simp only [Parsed.unsigned, if_true]
  exact_mod_cast hne

/-- The most that a signed function reads. -/
def mostRead (negative : Bool) : ℕ := if negative then longMax + 1 else longMax

theorem signed_eq {negative : Bool} (hle : magnitude ≤ mostRead negative)
    (endptr : Option ℕ) (errno : ℤ) :
    (⟨magnitude, negative, endptr, errno⟩ : Parsed).signed longMax longMin =
      ⟨signedValue negative magnitude, endptr, errno⟩ := by
  cases negative with
  | false =>
    simp only [mostRead, Bool.false_eq_true, if_false] at hle
    simp only [Parsed.signed, signedValue, Bool.false_eq_true, if_false, not_lt.mpr hle]
  | true =>
    simp only [mostRead, if_true] at hle
    simp only [Parsed.signed, signedValue, if_true, not_lt.mpr hle, if_false,
      Converted.mk.injEq, and_true]
    split
    · rename_i heq
      rw [heq]
      rfl
    · rfl

theorem signed_of_lt {negative : Bool} (hlt : mostRead negative < magnitude)
    (endptr : Option ℕ) (errno : ℤ) :
    (⟨min magnitude (longMax + 1), negative, endptr,
        if longMax + 1 < magnitude then erange else errno⟩ : Parsed).signed longMax longMin =
      ⟨if negative then longMin else longMax, endptr, erange⟩ := by
  cases negative with
  | false =>
    simp only [mostRead, Bool.false_eq_true, if_false] at hlt
    have hmin : longMax < min magnitude (longMax + 1) := by omega
    simp only [Parsed.signed, Bool.false_eq_true, if_false, if_pos hmin]
  | true =>
    simp only [mostRead, if_true] at hlt
    rw [min_eq_right (le_of_lt hlt), if_pos hlt]
    simp [Parsed.signed]

/-- **An unsigned function negates what is read**, also the maximum that stands for a number that
is too large. -/
theorem Scanned.unsigned_prescribed_iff {f : Converter} {parsed : Parsed}
    (hscanned : Scanned text endptr base ulongMax errno parsed) (hf : f.isUnsigned = true)
    (hbase : base ≤ 36) :
    f.Prescribed text endptr base errno parsed.unsigned ↔
      ¬ ∃ subject magnitude, Longest base text.trimmed subject true magnitude ∧
        ulongMax < magnitude := by
  have hrepresents : ∀ negative magnitude, f.Represents negative magnitude ↔
      magnitude ≤ ulongMax := fun negative magnitude => by rw [Converter.Represents, if_pos hf]
  cases hscanned with
  | @noSubject negative hnone =>
    have hvalue : (⟨0, negative, store endptr 0, errno⟩ : Parsed).unsigned =
        ⟨0, store endptr 0, errno⟩ := by
      cases negative <;> simp [Parsed.unsigned]
    rw [hvalue]
    exact iff_of_true (.noSubject hnone) fun ⟨_, _, h, _⟩ => hnone _ _ _ h.form h.initial
  | @subject s negative magnitude h =>
    rcases lt_or_ge ulongMax magnitude with hlt | hle
    · rw [min_eq_right (le_of_lt hlt), if_pos hlt]
      have hout : ¬ f.Represents negative magnitude := by rw [hrepresents]; omega
      cases negative with
      | false =>
        refine iff_of_true ?_ fun ⟨_, _, h', _⟩ => by simpa using (h.unique hbase h').2.1
        have := @Converter.Prescribed.outOfRange f text endptr base errno _ _ _ h hout
        rwa [Converter.saturated, if_pos hf] at this
      | true =>
        refine iff_of_false (fun hp => ?_) (not_not_intro ⟨_, _, h, hlt⟩)
        have hvalue := unsigned_ulongMax
          (store endptr (text.bytes.length - text.trimmed.length + s.length)) erange
        generalize Parsed.unsigned _ = converted at hp hvalue
        cases hp with
        | noSubject hnone => exact hnone _ _ _ h.form h.initial
        | inRange h' hin =>
          obtain ⟨-, rfl, rfl⟩ := h.unique hbase h'
          exact hout hin
        | outOfRange => exact hvalue (by rw [Converter.saturated, if_pos hf])
    · rw [min_eq_left hle, if_neg (by omega)]
      have hin : f.Represents negative magnitude := (hrepresents _ _).mpr hle
      refine iff_of_true ?_ fun ⟨_, _, h', hlt⟩ => ?_
      · have := @Converter.Prescribed.inRange f text endptr base errno _ _ _ h hin
        rwa [Converter.represented, if_pos hf, ← unsigned_eq negative hle] at this
      · obtain ⟨-, -, rfl⟩ := h.unique hbase h'
        omega

/-- **A signed function does what ISO C says.** -/
theorem Scanned.signed_prescribed {f : Converter} {parsed : Parsed}
    (hscanned : Scanned text endptr base (longMax + 1) errno parsed) (hf : f.isUnsigned = false) :
    f.Prescribed text endptr base errno (parsed.signed longMax longMin) := by
  have hrepresents : ∀ negative magnitude, f.Represents negative magnitude ↔
      magnitude ≤ mostRead negative := fun negative magnitude => by
    rw [Converter.Represents, if_neg (by simp [hf]), longMin, signedValue, mostRead, longMax]
    cases negative with
    | false =>
      simp only [Bool.false_eq_true, if_false]
      omega
    | true =>
      simp only [if_true]
      omega
  cases hscanned with
  | @noSubject negative hnone =>
    rw [signed_eq (Nat.zero_le _)]
    have hzero : signedValue negative 0 = 0 := by
      cases negative <;> rfl
    rw [hzero]
    exact .noSubject hnone
  | @subject s negative magnitude h =>
    by_cases hin : f.Represents negative magnitude
    · have hprescribed := @Converter.Prescribed.inRange f text endptr base errno _ _ _ h hin
      rw [Converter.represented, if_neg (by simp [hf])] at hprescribed
      rw [hrepresents] at hin
      have hle : magnitude ≤ longMax + 1 := by
        rw [mostRead] at hin
        split at hin <;> omega
      rwa [Nat.min_eq_left hle, if_neg (Nat.not_lt.mpr hle), signed_eq hin]
    · have hprescribed := @Converter.Prescribed.outOfRange f text endptr base errno _ _ _ h hin
      rw [Converter.saturated, if_neg (by simp [hf])] at hprescribed
      rw [hrepresents] at hin
      rwa [signed_of_lt (Nat.lt_of_not_le hin)]

/-- **The functions do what ISO C says**, but for a number with a minus sign that is too large for
an unsigned type. -/
theorem call_prescribed_iff (f : Converter) (text : CString) (endptr : Option ℕ) (base : ℕ)
    (hbase : base = 0 ∨ 2 ≤ base ∧ base ≤ 36) (errno : ℤ) :
    f.Prescribed text endptr base errno (f.call text endptr base errno) ↔
      ¬ (f.isUnsigned = true ∧ ∃ subject magnitude,
        Longest base text.trimmed subject true magnitude ∧ ulongMax < magnitude) := by
  have hunsigned := (@scanned_parseUnsigned base ulongMax text endptr errno hbase
    (by decide) (by decide)).unsigned_prescribed_iff (f := f)
  have hsigned := (@scanned_parseUnsigned base (longMax + 1) text endptr errno hbase
    (by decide) (by decide)).signed_prescribed (f := f)
  cases f with
  | strtol => exact iff_of_true (hsigned rfl) (by simp [Converter.isUnsigned])
  | strtoll => exact iff_of_true (hsigned rfl) (by simp [Converter.isUnsigned])
  | strtoul => exact (hunsigned rfl (by omega)).trans (by simp [Converter.isUnsigned])
  | strtoull => exact (hunsigned rfl (by omega)).trans (by simp [Converter.isUnsigned])

/-- `strtol` does what ISO C says for `-1`. -/
theorem call_prescribed_minusOne :
    Converter.strtol.Prescribed ⟨[minus, 49], by decide⟩ (some 0) (10 : ℕ) 0
      (Converter.strtol.call ⟨[minus, 49], by decide⟩ (some 0) (10 : ℕ) 0) :=
  (call_prescribed_iff .strtol _ _ 10 (.inr (by decide)) 0).mpr
    fun h => Bool.false_ne_true h.1

/-- `-18446744073709551616` -/
def tooSmall : CString :=
  ⟨[minus, 49, 56, 52, 52, 54, 55, 52, 52, 48, 55, 51, 55, 48, 57, 53, 53, 49, 54, 49, 54],
    by decide⟩

theorem longest_tooSmall : Longest 10 tooSmall.trimmed tooSmall.bytes true (2 ^ 64) := by
  have hlongest : LongestMagnitude 10 (afterSign tooSmall.trimmed) _ _ :=
    longestMagnitude (.inr (by decide)) (by decide)
  exact hlongest.longest_subject (by decide)

/-- **`strtoul` returns one for a number that is too small.** -/
theorem strtoul_tooSmall :
    strtoul tooSmall (some 0) 10 0 = ⟨1, some 21, erange⟩ ∧
      ¬ Converter.strtoul.Prescribed tooSmall (some 0) 10 0 (strtoul tooSmall (some 0) 10 0) := by
  refine ⟨by decide, ?_⟩
  have hscanned := @scanned_parseUnsigned 10 ulongMax tooSmall (some 0) 0 (.inr (by decide))
    (by decide) (by decide)
  exact fun h => (hscanned.unsigned_prescribed_iff (f := .strtoul) rfl (by decide)).mp h
    ⟨_, _, longest_tooSmall, by decide⟩

end Functions

end ImagineOS.Libc
